import Karg.HeapModel

namespace Karg.HeapInvariant

open PageAlloc Kalloc Tiling HeapModel

structure WellFormed (a : Model) : Prop where
  size (b : Block) : b ∈ a.blocks → headerSize ≤ b.size
  tiles : bytes (a.blocks.map Block.toSegment) = bytes (a.pages.map page)
  valid (p : Nat) : p ∈ a.pages ++ a.free → Page p
  nodup : (a.pages ++ a.free).Nodup

structure Owned (a : Model) (live : Nat → Option Nat) : Prop where
  block (ptr n : Nat) : live ptr = some n →
    ∃ b ∈ a.blocks, b.allocated ∧ ptr = b.addr + headerSize ∧ headerSize + n ≤ b.size
  live (b : Block) : b ∈ a.blocks → b.allocated → ∃ n, live (b.addr + headerSize) = some n

def Coalesced (bs : List Block) : Prop := bs.IsChain fun b c => joins b c = false

variable {a b : Model} {sz n ptr : Nat} {live : Nat → Option Nat} {l r : List Block} {c d : Block}

theorem WellFormed.pages_nodup (h : WellFormed a) : (bytes (a.pages.map page)).Nodup := by
  apply nodup_of_apart
  rw [List.pairwise_map]
  have hn := (List.nodup_append.mp h.nodup).1
  refine hn.imp_of_mem ?_
  intro p q hp hq hne
  exact (h.valid p (List.mem_append_left _ hp)).apart (h.valid q (List.mem_append_left _ hq)) hne

/-- No two blocks overlap. -/
theorem WellFormed.apart (h : WellFormed a) :
    a.blocks.Pairwise fun c d => c.toSegment.Apart d.toSegment := by
  have hn := h.pages_nodup
  rw [← h.tiles] at hn
  have hpos : ∀ s ∈ a.blocks.map Block.toSegment, 0 < s.size := by
    intro s hs
    obtain ⟨c, hc, rfl⟩ := List.mem_map.mp hs
    exact Nat.lt_of_lt_of_le (by decide) (h.size c hc)
  exact List.pairwise_map.mp (apart_of_nodup hn hpos)

theorem WellFormed.apart_of_ne (h : WellFormed a) (hc : c ∈ a.blocks) (hd : d ∈ a.blocks) (hne : c ≠ d) :
    c.toSegment.Apart d.toSegment := by
  have hsymm : Std.Symm fun c d : Block => c.toSegment.Apart d.toSegment := ⟨fun _ _ => Segment.Apart.symm⟩
  exact h.apart.forall hc hd hne

theorem WellFormed.mem_page (h : WellFormed a) (hc : c ∈ a.blocks) {x : Nat} (hx : c.addr ≤ x)
    (hx' : x < c.addr + c.size) : ∃ p ∈ a.pages, p ≤ x ∧ x < p + pageSize := by
  have hm : x ∈ bytes (a.blocks.map Block.toSegment) := mem_bytes.mpr ⟨c.toSegment, List.mem_map_of_mem hc, hx, hx'⟩
  rw [h.tiles, mem_bytes] at hm
  obtain ⟨s, hs, hxs⟩ := hm
  obtain ⟨p, hp, rfl⟩ := List.mem_map.mp hs
  exact ⟨p, hp, hxs⟩

theorem WellFormed.bounds (h : WellFormed a) (hc : c ∈ a.blocks) : 0 < c.addr ∧ c.addr + c.size < 2 ^ 64 := by
  have hpos : 0 < c.size := Nat.lt_of_lt_of_le (by decide) (h.size c hc)
  constructor
  · obtain ⟨p, hp, hpc, -⟩ := h.mem_page hc (Nat.le_refl c.addr) (by omega)
    exact Nat.lt_of_lt_of_le (h.valid p (List.mem_append_left _ hp)).pos hpc
  · obtain ⟨p, hp, -, hpc⟩ := h.mem_page hc (x := c.addr + c.size - 1) (by omega) (by omega)
    have hend := (h.valid p (List.mem_append_left _ hp)).end_lt
    omega

theorem WellFormed.around (h : WellFormed a) (hb : a.blocks = l ++ c :: r) :
    ∀ d ∈ l ++ r, c.toSegment.Apart d.toSegment := by
  have hp := h.apart
  rw [hb, List.pairwise_append, List.pairwise_cons] at hp
  intro d hd
  rcases List.mem_append.mp hd with hd | hd
  · exact (hp.2.2 d hd c List.mem_cons_self).symm
  · exact hp.2.1.1 d hd

theorem fit_wellFormed (h : WellFormed a) (hsz : headerSize ≤ sz) (hb : a.blocks = l ++ c :: r) (hc : sz ≤ c.size) :
    WellFormed { a with blocks := l ++ (split c sz ++ r) } := by
  have hold : ∀ d ∈ l ++ c :: r, headerSize ≤ d.size := fun d hd => h.size d (hb ▸ hd)
  refine ⟨fun d hd => ?_, ?_, h.valid, h.nodup⟩
  · simp only [List.mem_append] at hd
    rcases hd with hd | hd | hd
    · exact hold d (by simp [hd])
    · exact split_size hsz (hold c (by simp)) hd
    · exact hold d (by simp [hd])
  · rw [← h.tiles, hb]
    simp only [List.map_append, bytes_append, split_bytes hc, List.map_cons, bytes_cons, bytes_nil, List.append_nil]

theorem addPage_wellFormed (h : WellFormed a) {p : Nat} {free : List Nat} (hf : a.free = p :: free) :
    WellFormed ⟨a.blocks ++ [⟨page p, false⟩], a.pages ++ [p], free⟩ := by
  have hall : a.pages ++ a.free = (a.pages ++ [p]) ++ free := by simp [hf]
  refine ⟨fun d hd => ?_, ?_, ?_, ?_⟩
  · rcases List.mem_append.mp hd with hd | hd
    · exact h.size d hd
    · rw [List.mem_singleton.mp hd]
      exact (by decide : headerSize ≤ pageSize)
  · simp only [List.map_append, bytes_append, h.tiles]
    rfl
  · rw [← hall]
    exact h.valid
  · rw [← hall]
    exact h.nodup

theorem kmalloc_wellFormed (h : WellFormed a) (hsz : headerSize ≤ sz) (hmax : sz ≤ pageSize) {out : Option Nat}
    (hs : Kmalloc a sz out b) : WellFormed b := by
  cases hs with
  | fit l c r hb hl hu =>
      simp only [usable, Bool.and_eq_true, decide_eq_true_eq] at hu
      exact fit_wellFormed h hsz hb hu.2
  | grow p free hl hf =>
      have hfit := fit_wellFormed (r := []) (addPage_wellFormed h hf) hsz rfl hmax
      rwa [List.append_nil] at hfit
  | full => exact h

theorem kfree_wellFormed (h : WellFormed a) (hs : Kfree a ptr b) : WellFormed b := by
  cases hs with
  | free l c r hb =>
      have hold : ∀ d ∈ l ++ c :: r, headerSize ≤ d.size := fun d hd => h.size d (hb ▸ hd)
      have hl : ∀ d ∈ l, headerSize ≤ d.size := fun d hd => hold d (by simp [hd])
      have hr : ∀ d ∈ r, headerSize ≤ d.size := fun d hd => hold d (by simp [hd])
      have hc : headerSize ≤ ({ c with allocated := false } : Block).size := hold c (by simp)
      refine ⟨fun d hd => ?_, ?_, h.valid, h.nodup⟩
      · rcases List.mem_append.mp hd with hd | hd
        · exact (joinPrev_size hl hc).1 d hd
        · exact joinNext_size hr (joinPrev_size hl hc).2 hd
      · have hp := joinPrev_bytes l { c with allocated := false }
        simp only [bytes_cons, bytes_nil, List.append_nil] at hp
        rw [← h.tiles, hb, List.map_append, bytes_append, joinNext_bytes, List.map_cons, bytes_cons,
          ← List.append_assoc, hp]
        simp

theorem kmalloc_owned (ho : Owned a live) {out : Option Nat} (hmax : headerSize + n ≤ pageSize)
    (hs : Kmalloc a (headerSize + n) out b) :
    Owned b (out.elim live fun ptr => Function.update live ptr (some n)) := by
  -- The block is cut off `c`, which is a free block or a new page.
  have hnew : ∀ (c : Block), headerSize + n ≤ c.size → (∀ d ∈ split c (headerSize + n), d ∈ b.blocks) →
      (∀ d, d.allocated → (d ∈ b.blocks ↔ d ∈ a.blocks ∨ d ∈ split c (headerSize + n))) →
      Owned b (Function.update live (c.addr + headerSize) (some n)) := by
    intro c hc hsplit hmem
    constructor
    · intro ptr k hk
      by_cases hp : ptr = c.addr + headerSize
      · subst hp
        rw [Function.update_self] at hk
        cases hk
        obtain ⟨d, hd, hda, hdc, hds⟩ := split_mem hc
        exact ⟨d, hsplit d hd, hda, by rw [hdc], hds⟩
      · rw [Function.update_of_ne hp] at hk
        obtain ⟨d, hd, hda, hdp⟩ := ho.block ptr k hk
        exact ⟨d, (hmem d hda).mpr (.inl hd), hda, hdp⟩
    · intro d hd hda
      by_cases hp : d.addr + headerSize = c.addr + headerSize
      · rw [hp, Function.update_self]
        exact ⟨n, rfl⟩
      · rw [Function.update_of_ne hp]
        rcases (hmem d hda).mp hd with hd | hd
        · exact ho.live d hd hda
        · exact absurd (by rw [split_allocated hd hda]) hp
  cases hs with
  | fit l c r hb hl hu =>
      simp only [usable, Bool.and_eq_true, Bool.not_eq_true', decide_eq_true_eq] at hu
      apply hnew c hu.2
      · intro d hd
        simp [hd]
      · intro d hd
        have hne : d ≠ c := by
          rintro rfl
          exact absurd (hu.1.symm.trans hd) (by simp)
        simp only [hb, List.mem_append, List.mem_cons, hne, false_or]
        tauto
  | grow p free hl hf =>
      apply hnew ⟨page p, false⟩ hmax
      · intro d hd
        exact List.mem_append_right _ hd
      · intro d _
        exact List.mem_append
  | full => exact ho

theorem kfree_owned (h : WellFormed a) (ho : Owned a live) (hs : Kfree a ptr b) :
    Owned b (Function.update live ptr none) := by
  cases hs with
  | free l c r hb =>
      have hmem : ∀ d, d.allocated → (d ∈ (joinPrev l { c with allocated := false }).1 ++
          joinNext (joinPrev l { c with allocated := false }).2 r ↔ d ∈ l ++ r) := by
        intro d hd
        rw [List.mem_append, mem_joinPrev hd, mem_joinNext (joinPrev_free rfl) hd, List.mem_append]
      constructor
      · intro ptr k hk
        by_cases hp : ptr = c.addr + headerSize
        · subst hp
          rw [Function.update_self] at hk
          cases hk
        · rw [Function.update_of_ne hp] at hk
          obtain ⟨d, hd, hda, rfl, hds⟩ := ho.block ptr k hk
          refine ⟨d, (hmem d hda).mpr ?_, hda, rfl, hds⟩
          rw [hb] at hd
          have hne : d ≠ c := by
            rintro rfl
            exact hp rfl
          simpa [hne] using hd
      · intro d hd hda
        have hlr := (hmem d hda).mp hd
        have hne : d.addr + headerSize ≠ c.addr + headerSize := by
          have hap := h.around hb d hlr
          have hc := h.size c (by simp [hb])
          have hd := h.size d (hb ▸ mem_middle.mpr (.inr hlr))
          rw [Segment.Apart] at hap
          rw [headerSize] at hc hd
          omega
        rw [Function.update_of_ne hne]
        exact ho.live d (hb ▸ mem_middle.mpr (.inr hlr)) hda

/-- The address that is given out is not in use. -/
theorem kmalloc_fresh (h : WellFormed a) (ho : Owned a live) (hs : Kmalloc a sz (some ptr) b) : live ptr = none := by
  by_contra hno
  obtain ⟨n, hn⟩ := Option.ne_none_iff_exists'.mp hno
  obtain ⟨d, hd, hda, hp, -⟩ := ho.block ptr n hn
  have hsize := h.size d hd
  rw [headerSize] at hsize
  cases hs with
  | fit l c r hb hl hu =>
      have hc : c ∈ a.blocks := hb ▸ mem_middle.mpr (.inl rfl)
      simp only [usable, Bool.and_eq_true, Bool.not_eq_true'] at hu
      have hne : d ≠ c := by
        rintro rfl
        exact absurd (hu.1.symm.trans hda) (by simp)
      have hap := h.apart_of_ne hd hc hne
      have hcs := h.size c hc
      rw [Segment.Apart] at hap
      rw [headerSize] at hcs
      omega
  | grow p free hl hf =>
      obtain ⟨q, hq, hqd⟩ := h.mem_page hd (Nat.le_refl d.addr) (by omega)
      have hpf : p ∈ a.free := hf ▸ List.mem_cons_self
      have hne : q ≠ p := (List.nodup_append.mp h.nodup).2.2 q hq p hpf
      have hap := (h.valid q (List.mem_append_left _ hq)).apart (h.valid p (List.mem_append_right _ hpf)) hne
      rw [pageSize] at hap hqd
      omega

section Coalesced

theorem joins_iff : joins c d ↔ c.allocated = false ∧ d.allocated = false ∧ c.addr + c.size = d.addr := by
  simp [joins, and_assoc]

theorem joins_join_left (h : joins c d) (q : Block) : joins (join c d) q = joins d q := by
  rw [joins_iff] at h
  rw [Bool.eq_iff_iff, joins_iff, joins_iff]
  simp [join, ← h.2.2, h.2.1, Nat.add_assoc]

theorem joins_join_right (hc : c.allocated = false) (q d : Block) : joins q (join c d) = joins q c := by
  rw [Bool.eq_iff_iff, joins_iff, joins_iff]
  simp [join, hc]

theorem joinNext_coalesced (hc : c.allocated = false) (hl : Coalesced (l ++ [c])) (hr : Coalesced r) :
    Coalesced (l ++ joinNext c r) := by
  cases r with
  | nil => exact hl
  | cons q r =>
      obtain ⟨hl, -, hlc⟩ := List.isChain_append.mp hl
      rw [joinNext]
      split
      · next h =>
        refine List.isChain_append.mpr ⟨hl, ?_, ?_⟩
        · cases r with
          | nil => exact .singleton _
          | cons q' r =>
              obtain ⟨hqq, hr⟩ := List.isChain_cons_cons.mp hr
              exact List.isChain_cons_cons.mpr ⟨by rw [joins_join_left h, hqq], hr⟩
        · intro x hx y hy
          cases hy
          rw [joins_join_right hc]
          exact hlc x hx c rfl
      · next h =>
        refine List.isChain_append.mpr ⟨hl, List.isChain_cons_cons.mpr ⟨Bool.eq_false_iff.mpr h, hr⟩, ?_⟩
        intro x hx y hy
        cases hy
        exact hlc x hx c rfl

theorem joinPrev_coalesced (c : Block) (hl : Coalesced l) :
    Coalesced ((joinPrev l c).1 ++ [(joinPrev l c).2]) := by
  rcases List.eq_nil_or_concat' l with rfl | ⟨l, p, rfl⟩
  · exact .singleton c
  · simp only [joinPrev, List.getLast?_concat, List.dropLast_concat]
    have hp : p.allocated = false → Coalesced (l ++ [join p c]) := by
      intro hp
      obtain ⟨hl, -, hlp⟩ := List.isChain_append.mp hl
      refine List.isChain_append.mpr ⟨hl, .singleton _, ?_⟩
      intro x hx y hy
      cases hy
      rw [joins_join_right hp]
      exact hlp x hx p rfl
    split
    · next h =>
      apply hp
      exact (joins_iff.mp h).1
    · next h =>
      refine List.isChain_append.mpr ⟨hl, .singleton c, ?_⟩
      intro x hx y hy
      rw [List.getLast?_concat] at hx
      cases hx
      cases hy
      exact Bool.eq_false_iff.mpr h

theorem kfree_coalesced (h : Coalesced a.blocks) (hs : Kfree a ptr b) : Coalesced b.blocks := by
  cases hs with
  | free l c r hb =>
      rw [hb] at h
      obtain ⟨hl, hr, -⟩ := List.isChain_append.mp h
      exact joinNext_coalesced (joinPrev_free rfl) (joinPrev_coalesced _ hl) hr.tail

/-- A block that is given out separates its neighbours, and what is left of it ends where it ended. -/
theorem split_coalesced (hc : c.allocated = false) (hsz : sz ≤ c.size) (hl : Coalesced l) (hr : Coalesced (c :: r)) :
    Coalesced (l ++ (split c sz ++ r)) := by
  have hfst : ∀ d : Block, d.allocated → ∀ q, joins q d = false ∧ joins d q = false := by
    intro d hd q
    simp [joins, hd]
  refine List.isChain_append.mpr ⟨hl, ?_, ?_⟩
  · rw [split]
    split
    · refine List.isChain_cons_cons.mpr ⟨(hfst _ rfl _).2, ?_⟩
      cases r with
      | nil => exact .singleton _
      | cons q r =>
          obtain ⟨hcq, hr⟩ := List.isChain_cons_cons.mp hr
          refine List.isChain_cons_cons.mpr ⟨Eq.trans ?_ hcq, hr⟩
          rw [Bool.eq_iff_iff, joins_iff, joins_iff]
          simp [hc, Nat.add_assoc, Nat.add_sub_cancel' hsz]
    · cases r with
      | nil => exact .singleton _
      | cons q r => exact List.isChain_cons_cons.mpr ⟨(hfst _ rfl _).2, (List.isChain_cons_cons.mp hr).2⟩
  · intro x _ y hy
    rw [split] at hy
    split at hy <;> cases hy <;> exact (hfst _ rfl x).1

theorem kmalloc_coalesced (h : Coalesced a.blocks) (hmax : sz ≤ pageSize) {out : Option Nat}
    (hs : Kmalloc a sz out b) : Coalesced b.blocks := by
  cases hs with
  | fit l c r hb hl hu =>
      simp only [usable, Bool.and_eq_true, Bool.not_eq_true', decide_eq_true_eq] at hu
      rw [hb] at h
      obtain ⟨hl, hr, -⟩ := List.isChain_append.mp h
      exact split_coalesced hu.1 hu.2 hl hr
  | grow p free hl hf =>
      have hsp := split_coalesced (c := ⟨page p, false⟩) rfl hmax h (.singleton _)
      rwa [List.append_nil] at hsp
  | full => exact h

end Coalesced

end Karg.HeapInvariant
