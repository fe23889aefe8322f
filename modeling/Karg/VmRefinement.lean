import Karg.TableTree

namespace Karg.VmRefinement

open ByteMemory KernelMemory PageAlloc Vm TableTree

structure Mapped (freeList root : Nat) (s : Space) (tab : List Nat → Option Nat) (leaf : List Nat → Pte)
    (free : List Nat) : Prop where
  tree : Tree s.mem root tab leaf
  tables (t : Nat) : t ∈ s.tables ↔ ∃ p, tab p = some t
  pages : FreePages freeList s.mem free
  frames (p : Nat) : p ∈ free → Frame p
  fresh (p : Nat) : p ∈ free → p ∉ s.tables
  off (t : Nat) : t ∈ s.tables → freeList + 16 ≤ t ∨ t + pageSize ≤ freeList

def domain (freeList : Nat) (tables free : List Nat) : Set Nat :=
  { x | x ∈ nodes (freeList :: free) ∨ ∃ t ∈ tables, x ∈ place t pageSize }

structure Grown (freeList : Nat) (s : Space) (free : List Nat) (s' : Space) (free' : List Nat) : Prop where
  only : Only (domain freeList s'.tables free) s.mem s'.mem
  suffix : free' <:+ free
  tables (t : Nat) : t ∈ s.tables → t ∈ s'.tables
  new (t : Nat) : t ∈ s'.tables → t ∈ s.tables ∨ t ∈ free

variable {freeList root t i n virt phys : Nat} {s s' s'' : Space} {tab : List Nat → Option Nat} {leaf : List Nat → Pte}
  {free free' free'' tables tables' : List Nat} {p : List Nat} {m m' : Memory} {fl : UInt32}

theorem domain_mono (ht : ∀ t ∈ tables, t ∈ tables') (hf : ∀ p ∈ free, p ∈ free') :
    domain freeList tables free ⊆ domain freeList tables' free' := by
  rintro x (hx | ⟨t, hmem, hx⟩)
  · exact .inl (nodes_mono (List.cons_subset_cons freeList hf) hx)
  · exact .inr ⟨t, ht t hmem, hx⟩

theorem Grown.refl (freeList : Nat) (s : Space) (free : List Nat) : Grown freeList s free s free :=
  ⟨Only.refl _ _, List.suffix_refl free, fun _ h => h, fun _ => .inl⟩

theorem Grown.trans (h : Grown freeList s free s' free') (h' : Grown freeList s' free' s'' free'') :
    Grown freeList s free s'' free'' := by
  refine ⟨Only.trans (h.only.mono ?_) (h'.only.mono ?_), h'.suffix.trans h.suffix, fun t ht => h'.tables t (h.tables t ht),
    fun t ht => ?_⟩
  · exact domain_mono h'.tables fun _ hp => hp
  · exact domain_mono (fun _ ht => ht) fun _ hp => h.suffix.subset hp
  · rcases h'.new t ht with ht | ht
    · exact h.new t ht
    · exact .inr (h.suffix.subset ht)

theorem Mapped.nodes_disjoint (h : Mapped freeList root s tab leaf free) (ht : tab p = some t) :
    Disjoint (place t pageSize) (nodes (freeList :: free)) := by
  have hmem : t ∈ s.tables := (h.tables t).mpr ⟨p, ht⟩
  exact h.pages.disjoint (h.tree.frame ht).toPage (h.off t hmem) fun hf => h.fresh t hf hmem

theorem createPageTable_refines (h : FreePages freeList s.mem (n :: free)) :
    ∃ m', vmCreatePageTable freeList s = (⟨m', s.tables ++ [n]⟩, n) ∧ FreePages freeList m' free ∧
      (∀ x ∈ place n pageSize, m'.byte x = 0) ∧
      Only (nodes (freeList :: free) ∪ place n pageSize) s.mem m' := by
  obtain ⟨m₁, hm₁, hfree, honly⟩ := pageAlloc_cons h
  have hpage := h.page n List.mem_cons_self
  have hne : n ≠ nullptr := Nat.ne_of_gt hpage.pos
  have hoff := (hfree.disjoint hpage (h.off n List.mem_cons_self) (List.nodup_cons.mp h.nodup).1).symm
  refine ⟨memSet m₁ n 0 pageSize, ?_, hfree.frame (memSet_only m₁ n 0 pageSize) hoff, fun x hx => ?_, ?_⟩
  · simp only [vmCreatePageTable, hm₁, hne, if_false]
  · rw [memSet_byte, if_pos (mem_place.mp hx)]
  · apply Only.trans (honly.mono Set.subset_union_left)
    exact (memSet_only m₁ n 0 pageSize).mono Set.subset_union_right

theorem createPageTable_null (h : FreePages freeList s.mem []) : vmCreatePageTable freeList s = (s, nullptr) := by
  simp only [vmCreatePageTable, pageAlloc_nil h, if_true]

/-- A new page table maps nothing. -/
theorem create_mapped (h : FreePages freeList m (n :: free)) (hf : ∀ p ∈ n :: free, Frame p) :
    ∃ m', vmCreatePageTable freeList ⟨m, []⟩ = (⟨m', [n]⟩, n) ∧
      Mapped freeList n ⟨m', [n]⟩ (Function.update (fun _ => none) [] (some n)) (fun _ => noPte) free ∧
      Only (nodes (freeList :: free) ∪ place n pageSize) m m' := by
  obtain ⟨m', hrun, hfree, hzero, honly⟩ := createPageTable_refines (s := ⟨m, []⟩) h
  have htab : ∀ {p : List Nat} {t : Nat}, Function.update (fun _ => none) [] (some n) p = some t → p = [] ∧ t = n := by
    intro p t ht
    by_cases hp : p = []
    · rw [hp, Function.update_self] at ht
      exact ⟨hp, (Option.some.inj ht).symm⟩
    · rw [Function.update_of_ne hp] at ht
      cases ht
  have hn := hf n List.mem_cons_self
  refine ⟨m', hrun, ⟨⟨Function.update_self .., fun ht => ?_, fun i _ => ?_, fun ht ht' => ?_, fun ht => ?_,
    fun {p t i} ht _ hi => ?_, fun ht hp _ => ?_, fun _ _ => rfl⟩, fun t => ?_, hfree, ?_, ?_, ?_⟩, honly⟩
  · rw [(htab ht).1]
    exact Nat.zero_le 2
  · exact Function.update_of_ne (List.cons_ne_nil _ _) ..
  · rw [(htab ht).1, (htab ht').1]
  · rw [(htab ht).2]
    exact hn
  · obtain ⟨rfl, rfl⟩ := htab ht
    rw [Function.update_of_ne (List.cons_ne_nil _ _)]
    exact readPte_zero fun x hx => hzero x (entry_subset hi hx)
  · rw [(htab ht).1] at hp
    cases hp
  · rw [List.mem_singleton]
    exact ⟨fun ht => ⟨[], by rw [ht, Function.update_self]⟩, fun ⟨p, ht⟩ => (htab ht).2⟩
  · exact fun q hq => hf q (List.mem_cons_of_mem n hq)
  · intro q hq hmem
    rw [List.mem_singleton.mp hmem] at hq
    exact (List.nodup_cons.mp h.nodup).1 hq
  · intro t ht
    rw [List.mem_singleton.mp ht]
    exact h.off n List.mem_cons_self

theorem Mapped.take (h : Mapped freeList root s tab leaf (n :: free)) (hf : FreePages freeList m free)
    (hm : Only (nodes (freeList :: free) ∪ place n pageSize) s.mem m) :
    Mapped freeList root ⟨m, s.tables⟩ tab leaf free := by
  refine ⟨h.tree.only hm ?_, h.tables, hf, fun q hq => h.frames q (List.mem_cons_of_mem n hq),
    fun q hq => h.fresh q (List.mem_cons_of_mem n hq), h.off⟩
  intro q t hq
  rw [Set.disjoint_union_right]
  constructor
  · apply (h.nodes_disjoint hq).mono_right
    exact nodes_rest freeList n free
  · apply frame_disjoint (h.tree.frame hq) (h.frames n List.mem_cons_self)
    rintro rfl
    exact h.fresh t List.mem_cons_self ((h.tables t).mpr ⟨q, hq⟩)

theorem nextTable_old {t' : Nat} (h : Mapped freeList root s tab leaf free) (ht : tab p = some t) (hp : p.length < 2)
    (hi : i < 512) (hc : tab (i :: p) = some t') : nextTable freeList s (t + 8 * i) = (s, some t') := by
  have hentry := h.tree.inner ht hp hi
  rw [readPte, hc] at hentry
  have hflags : flags s.mem (t + 8 * i) = pteFlagV := congrArg Pte.flags hentry
  rw [nextTable, hflags, if_neg (by decide), h.tree.ppnPage ht hp hi hc]

theorem Mapped.entry_zero (h : Mapped freeList root s tab leaf free) (ht : tab p = some t) (hp : p.length < 2)
    (hi : i < 512) (hc : tab (i :: p) = none) : flags s.mem (t + 8 * i) = 0 := by
  have hentry := h.tree.inner ht hp hi
  rw [readPte, hc] at hentry
  exact congrArg Pte.flags hentry

theorem nextTable_null (h : Mapped freeList root s tab leaf []) (ht : tab p = some t) (hp : p.length < 2)
    (hi : i < 512) (hc : tab (i :: p) = none) : nextTable freeList s (t + 8 * i) = (s, none) := by
  have hzero : flags s.mem (t + 8 * i) &&& pteFlagV = 0 := by
    rw [h.entry_zero ht hp hi hc]
    rfl
  simp only [nextTable, hzero, if_true, createPageTable_null h.pages]

/-- The first free page becomes the table of an empty entry. -/
theorem nextTable_new (h : Mapped freeList root s tab leaf (n :: free)) (ht : tab p = some t) (hp : p.length < 2)
    (hi : i < 512) (hc : tab (i :: p) = none) :
    ∃ m', nextTable freeList s (t + 8 * i) = (⟨m', s.tables ++ [n]⟩, some n) ∧
      Mapped freeList root ⟨m', s.tables ++ [n]⟩ (Function.update tab (i :: p) (some n)) leaf free ∧
      Grown freeList s (n :: free) ⟨m', s.tables ++ [n]⟩ free := by
  have hzero : flags s.mem (t + 8 * i) &&& pteFlagV = 0 := by
    rw [h.entry_zero ht hp hi hc]
    rfl
  obtain ⟨m₁, hrun, hfree, hclear, honly⟩ := createPageTable_refines h.pages
  have hn := h.frames n List.mem_cons_self
  have hnew : n ∉ s.tables := h.fresh n List.mem_cons_self
  have hne : n ≠ nullptr := Nat.ne_of_gt hn.pos
  have h₁ := h.take hfree honly
  have hpte : readPte (initPte m₁ (t + 8 * i) n 0) (t + 8 * i) = pointer n := by
    have hflags₁ : flags m₁ (t + 8 * i) = 0 := h₁.entry_zero ht hp hi hc
    have hlt := hn.lt
    rw [readPte_initPte, hflags₁, pointer, Nat.mod_eq_of_lt (by rw [pageSize]; omega)]
    rfl
  -- The page is cleared before an entry points to it.
  have htree₂ := h₁.tree.addTable hn (fun q hq => hnew ((h.tables n).mpr ⟨q, hq⟩)) hclear
    (initPte_only m₁ (t + 8 * i) n 0) ht hp hi hc hpte
  have htmem : t ∈ s.tables := (h.tables t).mpr ⟨p, ht⟩
  have hnot : ∀ q ∈ free, q ∉ s.tables ++ [n] := by
    intro q hq hmem
    rcases List.mem_append.mp hmem with hmem | hmem
    · exact h₁.fresh q hq hmem
    · rw [List.mem_singleton.mp hmem] at hq
      exact (List.nodup_cons.mp h.pages.nodup).1 hq
  refine ⟨initPte m₁ (t + 8 * i) n 0, ?_, ⟨htree₂, fun x => ?_, ?_, ?_, hnot, ?_⟩,
    ⟨?_, List.suffix_cons n free, ?_, ?_⟩⟩
  · simp only [nextTable, hzero, if_true, hrun, hne, if_false]
  · rw [List.mem_append, List.mem_singleton, h.tables x]
    constructor
    · rintro (⟨q, hq⟩ | rfl)
      · refine ⟨q, ?_⟩
        rw [Function.update_of_ne, hq]
        rintro rfl
        rw [hc] at hq
        cases hq
      · exact ⟨i :: p, Function.update_self ..⟩
    · rintro ⟨q, hq⟩
      by_cases he : q = i :: p
      · rw [he, Function.update_self] at hq
        exact .inr (Option.some.inj hq).symm
      · rw [Function.update_of_ne he] at hq
        exact .inl ⟨q, hq⟩
  · apply hfree.frame (initPte_only m₁ (t + 8 * i) n 0)
    exact ((h₁.nodes_disjoint ht).mono_left (entry_subset hi)).symm
  · exact h₁.frames
  · intro x hx
    rcases List.mem_append.mp hx with hx | hx
    · exact h.off x hx
    · rw [List.mem_singleton.mp hx]
      exact h.pages.off n List.mem_cons_self
  · apply Only.trans (honly.mono ?_) ((initPte_only m₁ (t + 8 * i) n 0).mono ?_)
    · rintro x (hx | hx)
      · exact .inl (nodes_rest freeList n free hx)
      · exact .inr ⟨n, List.mem_append_right _ (List.mem_singleton_self n), hx⟩
    · exact fun x hx => .inr ⟨t, List.mem_append_left _ htmem, entry_subset hi hx⟩
  · exact fun x hx => List.mem_append_left _ hx
  · intro x hx
    rcases List.mem_append.mp hx with hx | hx
    · exact .inl hx
    · rw [List.mem_singleton.mp hx]
      exact .inr List.mem_cons_self

/-- The table that an entry points to is found, or a free page becomes it. -/
theorem nextTable_refines (h : Mapped freeList root s tab leaf free) (ht : tab p = some t) (hp : p.length < 2)
    (hi : i < 512) :
    (∃ s' t' tab' free', nextTable freeList s (t + 8 * i) = (s', some t') ∧ tab' (i :: p) = some t' ∧
      Mapped freeList root s' tab' leaf free' ∧ Grown freeList s free s' free' ∧ free.length ≤ free'.length + 1) ∨
      free = [] ∧ nextTable freeList s (t + 8 * i) = (s, none) := by
  cases hc : tab (i :: p) with
  | some t' => exact .inl ⟨s, t', tab, free, nextTable_old h ht hp hi hc, hc, h, .refl freeList s free, Nat.le_succ _⟩
  | none =>
      cases free with
      | nil => exact .inr ⟨rfl, nextTable_null h ht hp hi hc⟩
      | cons n free =>
          obtain ⟨m', hrun, hmapped, hgrown⟩ := nextTable_new h ht hp hi hc
          exact .inl ⟨_, n, _, free, hrun, Function.update_self .., hmapped, hgrown, Nat.le_refl _⟩

structure Unused (freeList : Nat) (tables free : List Nat) (p : Nat) : Prop where
  frame : Frame p
  tables : p ∉ tables
  free : p ∉ free
  off : freeList + 16 ≤ p ∨ p + pageSize ≤ freeList

theorem Grown.unused {p : Nat} (hg : Grown freeList s free s' free') (h : Unused freeList s.tables free p) :
    Unused freeList s'.tables free' p := by
  refine ⟨h.frame, fun ht => ?_, fun hf => h.free (hg.suffix.subset hf), h.off⟩
  rcases hg.new p ht with ht | ht
  · exact h.tables ht
  · exact h.free ht

theorem Grown.disjoint (hg : Grown freeList s free s' free') (hm : Mapped freeList root s tab leaf free)
    {tab' : List Nat → Option Nat} {leaf' : List Nat → Pte} (hm' : Mapped freeList root s' tab' leaf' free') {p : Nat}
    (h : Unused freeList s.tables free p) : Disjoint (place p pageSize) (domain freeList s'.tables free) := by
  rw [Set.disjoint_left]
  rintro x hx (hn | ⟨t, ht, hxt⟩)
  · exact Set.disjoint_left.mp (hm.pages.disjoint h.frame.toPage h.off h.free) hx hn
  · obtain ⟨q, hq⟩ := (hm'.tables t).mp ht
    have hne : p ≠ t := fun he => (hg.unused h).tables (he ▸ ht)
    exact Set.disjoint_left.mp (frame_disjoint h.frame (hm'.tree.frame hq) hne) hx hxt

def mapLeaf (leaf : List Nat → Pte) (virt phys : Nat) (fl : UInt32) : List Nat → Pte :=
  Function.update leaf (path virt) ⟨(leaf (path virt)).flags ||| pteFlags fl, phys / pageSize % 2 ^ 44⟩

theorem setLeaf_refines (phys : Nat) (fl : UInt32) (h : Mapped freeList root s tab leaf free) (hv : virt < 2 ^ 39)
    (ht : tab [idx1 virt, idx0 virt] = some t) :
    Mapped freeList root ⟨initPte s.mem (t + 8 * idx2 virt) phys fl, s.tables⟩ tab (mapLeaf leaf virt phys fl) free ∧
      Grown freeList s free ⟨initPte s.mem (t + 8 * idx2 virt) phys fl, s.tables⟩ free := by
  have hi := (idx_lt hv).2.2
  have honly := initPte_only s.mem (t + 8 * idx2 virt) phys fl
  have htree := h.tree.setLeaf honly ht rfl hi
  have hflags : flags s.mem (t + 8 * idx2 virt) = (leaf (path virt)).flags :=
    congrArg Pte.flags (h.tree.last ht rfl hi)
  rw [readPte_initPte, hflags] at htree
  have hmem : t ∈ s.tables := (h.tables t).mpr ⟨_, ht⟩
  refine ⟨⟨htree, h.tables, h.pages.frame honly ?_, h.frames, h.fresh, h.off⟩, honly.mono ?_, List.suffix_refl free,
    fun _ h => h, fun _ => .inl⟩
  · exact ((h.nodes_disjoint ht).mono_left (entry_subset hi)).symm
  · exact fun x hx => .inr ⟨t, hmem, entry_subset hi hx⟩

/-- `vm_map_page` sets the entry of its address, or runs out of pages and changes no entry. -/
theorem mapPage_refines (h : Mapped freeList root s tab leaf free) (hv : virt < 2 ^ 39) (phys : Nat) (fl : UInt32) :
    ∃ s' res tab' free', vmMapPage freeList s root virt phys fl = (s', res) ∧ Grown freeList s free s' free' ∧
      (res = 0 ∧ free.length ≤ free'.length + 2 ∧ Mapped freeList root s' tab' (mapLeaf leaf virt phys fl) free' ∨
        res = -enomem ∧ free.length < 2 ∧ Mapped freeList root s' tab' leaf free') := by
  obtain ⟨h0, h1, -⟩ := idx_lt hv
  rcases nextTable_refines h h.tree.root (Nat.zero_lt_two) h0 with
    ⟨s₁, t₁, tab₁, free₁, hrun₁, ht₁, hm₁, hg₁, hlen₁⟩ | ⟨rfl, hrun⟩
  · rcases nextTable_refines hm₁ ht₁ (Nat.lt_succ_self 1) h1 with
      ⟨s₂, t₂, tab₂, free₂, hrun₂, ht₂, hm₂, hg₂, hlen₂⟩ | ⟨rfl, hrun⟩
    · obtain ⟨hm₃, hg₃⟩ := setLeaf_refines phys fl hm₂ hv ht₂
      refine ⟨⟨initPte s₂.mem (t₂ + 8 * idx2 virt) phys fl, s₂.tables⟩, 0, tab₂, free₂, ?_,
        hg₁.trans (hg₂.trans hg₃), .inl ⟨rfl, by omega, hm₃⟩⟩
      rw [vmMapPage, hrun₁]
      simp only [hrun₂]
    · refine ⟨s₁, -enomem, tab₁, [], ?_, hg₁, .inr ⟨rfl, Nat.lt_succ_of_le hlen₁, hm₁⟩⟩
      rw [vmMapPage, hrun₁]
      simp only [hrun]
  · refine ⟨s, -enomem, tab, [], ?_, .refl freeList s [], .inr ⟨rfl, Nat.zero_lt_two, h⟩⟩
    rw [vmMapPage, hrun]

end Karg.VmRefinement
