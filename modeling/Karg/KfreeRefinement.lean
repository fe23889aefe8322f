import Karg.KallocRefinement

namespace Karg.KfreeRefinement

open LinkStore CircularList ListNode ByteMemory KernelMemory PageAlloc Kalloc Tiling HeapModel HeapInvariant
  BlockHeaders KallocRefinement

variable {sym : Symbols} {m : Memory} {l r : List Block} {b c : Block} {t : Set Nat} {h : Heap} {a : Model} {ptr : Nat}

/-- Two neighbours in the list are joined: the first one grows, and the second
one is unlinked. -/
theorem join_refines {head : Nat} (hh : Headers head m (l ++ b :: c :: r)) (hj : joins b c)
    (hend : c.addr + c.size < 2 ^ 64) (ht : footprint head (l ++ b :: c :: r) ⊆ t) :
    Headers head (listRemove (setSize m b.addr (usizeAdd (size m b.addr) (size m c.addr))) c.addr)
        (l ++ join b c :: r) ∧
      Only t m (listRemove (setSize m b.addr (usizeAdd (size m b.addr) (size m c.addr))) c.addr) := by
  simp only [joins, Bool.and_eq_true, Bool.not_eq_true', decide_eq_true_eq] at hj
  obtain ⟨⟨hb, -⟩, hbc⟩ := hj
  have hsize : usizeAdd (size m b.addr) (size m c.addr) = b.size + c.size := by
    rw [(hh.header b (by simp)).size, (hh.header c (by simp)).size, usizeAdd_of_lt (by omega)]
  rw [hsize]
  have h₁ := hh.setSize (b.size + c.size) (by omega)
  rw [List.append_cons] at h₁
  obtain ⟨h₂, hm₂⟩ := h₁.remove
  constructor
  · rw [hb, ← List.append_cons] at h₂
    exact h₂
  · have hfields : place (b.addr + 16) 16 ⊆ footprint head (l ++ b :: c :: r) := fields_subset (by simp)
    have hfoot : footprint head (l ++ ⟨⟨b.addr, b.size + c.size⟩, b.allocated⟩ :: c :: r) ⊆
        footprint head (l ++ b :: c :: r) := footprint_update rfl
    rw [← List.append_cons] at hm₂
    exact Only.trans ((setSize_only m _ _).mono (hfields.trans ht)) (hm₂.mono (hfoot.trans ht))

theorem kfreePrev_refines (hh : Headers sym.blockList m (l ++ b :: r)) (hb : b.allocated = false)
    (hend : ∀ c ∈ l ++ b :: r, c.addr + c.size < 2 ^ 64) (ht : footprint sym.blockList (l ++ b :: r) ⊆ t) :
    ∃ m', kfreePrev sym m b.addr = (m', (joinPrev l b).2.addr) ∧
      Headers sym.blockList m' ((joinPrev l b).1 ++ (joinPrev l b).2 :: r) ∧ Only t m m' := by
  rcases List.eq_nil_or_concat' l with rfl | ⟨l, p, rfl⟩
  · refine ⟨m, ?_, hh, Only.refl t m⟩
    rw [kfreePrev, hh.isFront_eq]
    rfl
  · have hprev : prev m b.addr = p.addr := by
      rw [hh.prev_eq, List.map_append, List.map_singleton]
      exact List.getLastD_concat
    have hp := hh.header p (by simp)
    have hadd : usizeAdd p.addr p.size = p.addr + p.size := usizeAdd_of_lt (hend p (by simp))
    have htest : joins p b = (!p.allocated && decide (p.addr + p.size = b.addr)) := by simp [joins, hb]
    have hfront : (!(l ++ [p]).isEmpty) = true := by simp
    have he : kfreePrev sym m b.addr =
        if joins p b then (listRemove (setSize m p.addr (usizeAdd (size m p.addr) (size m b.addr))) b.addr, p.addr)
        else (m, b.addr) := by
      simp only [kfreePrev, hh.isFront_eq, hfront, if_true, hprev, hp.allocated, hp.size, hadd, htest]
    rw [he]
    simp only [joinPrev, List.getLast?_concat, List.dropLast_concat]
    rw [← List.append_cons] at ht
    by_cases hj : joins p b
    · rw [← List.append_cons] at hh
      obtain ⟨hjoin, hm⟩ := join_refines hh hj (hend b (by simp)) ht
      rw [if_pos hj, if_pos hj]
      exact ⟨_, rfl, hjoin, hm⟩
    · rw [if_neg hj, if_neg hj]
      exact ⟨m, rfl, hh, Only.refl t m⟩

theorem kfreeNext_refines (hh : Headers sym.blockList m (l ++ b :: r)) (hb : b.allocated = false)
    (hend : ∀ c ∈ l ++ b :: r, c.addr + c.size < 2 ^ 64) (ht : footprint sym.blockList (l ++ b :: r) ⊆ t) :
    Headers sym.blockList (kfreeNext sym m b.addr) (l ++ joinNext b r) ∧ Only t m (kfreeNext sym m b.addr) := by
  cases r with
  | nil =>
      rw [kfreeNext, hh.isBack_eq]
      exact ⟨hh, Only.refl t m⟩
  | cons q r =>
      have hnext : next m b.addr = q.addr := hh.next_eq
      have hq := hh.header q (by simp)
      have hs := (hh.header b (by simp)).size
      have hadd : usizeAdd b.addr b.size = b.addr + b.size := usizeAdd_of_lt (hend b (by simp))
      have htest : joins b q = (!q.allocated && decide (b.addr + b.size = q.addr)) := by simp [joins, hb]
      have hback : (!(q :: r).isEmpty) = true := rfl
      have he : kfreeNext sym m b.addr =
          if joins b q then listRemove (setSize m b.addr (usizeAdd (size m b.addr) (size m q.addr))) q.addr else m := by
        simp only [kfreeNext, hh.isBack_eq, hback, if_true, hnext, hq.allocated, hs, hadd, htest]
      rw [he, joinNext]
      by_cases hj : joins b q
      · rw [if_pos hj, if_pos hj]
        exact join_refines hh hj (hend q (by simp)) ht
      · rw [if_neg hj, if_neg hj]
        exact ⟨hh, Only.refl t m⟩

theorem mem_unjoined {c p : Block} (hc : c ∈ l ++ r) : c ∈ l ++ [p] ++ b :: r := by
  simp only [List.mem_append, List.mem_cons] at hc ⊢
  rcases hc with hc | hc
  · exact .inl (.inl hc)
  · exact .inr (.inr hc)

theorem joinPrev_end (hend : ∀ c ∈ l ++ b :: r, c.addr + c.size < 2 ^ 64) :
    ∀ c ∈ (joinPrev l b).1 ++ (joinPrev l b).2 :: r, c.addr + c.size < 2 ^ 64 := by
  rcases List.eq_nil_or_concat' l with rfl | ⟨l, p, rfl⟩
  · exact hend
  · simp only [joinPrev, List.getLast?_concat, List.dropLast_concat]
    split
    · next hj =>
      intro c hc
      rcases mem_middle.mp hc with rfl | hc
      · have hb := hend b (by simp)
        simp only [joins, Bool.and_eq_true, decide_eq_true_eq] at hj
        simp only [join]
        omega
      · exact hend c (mem_unjoined hc)
    · exact hend

theorem joinPrev_addr : ∀ c ∈ (joinPrev l b).1 ++ (joinPrev l b).2 :: r, ∃ d ∈ l ++ b :: r, d.addr = c.addr := by
  rcases List.eq_nil_or_concat' l with rfl | ⟨l, p, rfl⟩
  · exact fun c hc => ⟨c, hc, rfl⟩
  · simp only [joinPrev, List.getLast?_concat, List.dropLast_concat]
    split
    · intro c hc
      rcases mem_middle.mp hc with rfl | hc
      · exact ⟨p, by simp, rfl⟩
      · exact ⟨c, mem_unjoined hc, rfl⟩
    · exact fun c hc => ⟨c, hc, rfl⟩

/-- Both halves of `kfree`, for a block that is free already. -/
theorem kfreeJoin_refines (hh : Headers sym.blockList m (l ++ b :: r)) (hb : b.allocated = false)
    (hend : ∀ c ∈ l ++ b :: r, c.addr + c.size < 2 ^ 64) (ht : footprint sym.blockList (l ++ b :: r) ⊆ t) :
    ∃ m₁ m₂, kfreePrev sym m b.addr = (m₁, (joinPrev l b).2.addr) ∧ kfreeNext sym m₁ (joinPrev l b).2.addr = m₂ ∧
      Headers sym.blockList m₂ ((joinPrev l b).1 ++ joinNext (joinPrev l b).2 r) ∧ Only t m m₂ := by
  obtain ⟨m₁, he₁, h₁, hm₁⟩ := kfreePrev_refines hh hb hend ht
  have ht₁ : footprint sym.blockList ((joinPrev l b).1 ++ (joinPrev l b).2 :: r) ⊆ t :=
    (footprint_mono joinPrev_addr).trans ht
  obtain ⟨h₂, hm₂⟩ := kfreeNext_refines h₁ (joinPrev_free hb) (joinPrev_end hend) ht₁
  exact ⟨m₁, _, he₁, rfl, h₂, hm₁.trans hm₂⟩

/-- `kfree` writes to headers only: what was in the block stays behind them. -/
theorem kfree_headers (hr : Represents sym h a) (hw : WellFormed a) (hb : a.blocks = l ++ b :: r) :
    ∃ m', kfree sym h (b.addr + headerSize) = ⟨m', h.pages⟩ ∧
      Headers sym.blockList m' ((joinPrev l { b with allocated := false }).1 ++
        joinNext (joinPrev l { b with allocated := false }).2 r) ∧
      Only (footprint sym.blockList a.blocks) h.mem m' := by
  have hmem : b ∈ a.blocks := hb ▸ mem_middle.mpr (.inl rfl)
  have hbounds := hw.bounds hmem
  have hsize := hw.size b hmem
  have hh := hr.headers
  rw [hb] at hh ⊢
  have hfields : place (b.addr + 16) 16 ⊆ footprint sym.blockList (l ++ b :: r) := fields_subset (by simp)
  have hm₁ := (setAllocated_only h.mem b.addr false).mono hfields
  have hend : ∀ c ∈ l ++ { b with allocated := false } :: r, c.addr + c.size < 2 ^ 64 := by
    intro c hc
    rcases mem_middle.mp hc with rfl | hc
    · exact hbounds.2
    · exact (hw.bounds (hb ▸ mem_middle.mpr (.inr hc))).2
  have hfoot : footprint sym.blockList (l ++ { b with allocated := false } :: r) ⊆ footprint sym.blockList (l ++ b :: r) :=
    footprint_update rfl
  obtain ⟨m₂, m₃, he₂, he₃, h₃, hm₃⟩ := kfreeJoin_refines (hh.setAllocated false) rfl hend hfoot
  have hnull : b.addr + headerSize ≠ nullptr := Nat.ne_of_gt (Nat.add_pos_left hbounds.1 _)
  have hcurr : usizeSub (b.addr + headerSize) headerSize = b.addr := by
    rw [usizeSub_of_le (Nat.le_add_left _ _) (by omega), Nat.add_sub_cancel]
  refine ⟨m₃, ?_, h₃, hm₁.trans hm₃⟩
  rw [kfree, if_neg hnull, hcurr]
  simp only [he₂, he₃]

theorem kfree_represents (hr : Represents sym h a) (hw : WellFormed a) (hb : a.blocks = l ++ b :: r) :
    Represents sym (kfree sym h (b.addr + headerSize)) { a with
      blocks := (joinPrev l { b with allocated := false }).1 ++
        joinNext (joinPrev l { b with allocated := false }).2 r } := by
  obtain ⟨m', he, hh, hm⟩ := kfree_headers hr hw hb
  have hext := footprint_subset_extent sym.blockList hw
  rw [he]
  exact ⟨hh, hr.free.frame (hm.mono hext) (free_disjoint hr.layout hw), hr.pages, hr.layout.heads, hr.layout.off⟩

theorem kfree_refines (hr : Represents sym h a) (hw : WellFormed a) (hb : a.blocks = l ++ b :: r) :
    ∃ a', Kfree a (b.addr + headerSize) a' ∧ Represents sym (kfree sym h (b.addr + headerSize)) a' :=
  ⟨_, .free l b r hb, kfree_represents hr hw hb⟩

end Karg.KfreeRefinement
