import Karg.Translation

namespace Karg.MapBounds

open ByteMemory KernelMemory PageAlloc Vm TableTree VmRefinement PageTableMap Translation Execution

def mapEntries (freeList : Nat) (s : Space) (pageTable virt : Nat) : List Nat :=
  let pte0 := pageTable + 8 * idx0 virt
  match nextTable freeList s pte0 with
  | (_, none) => [pte0]
  | (s, some pageTable1) =>
      let pte1 := pageTable1 + 8 * idx1 virt
      match nextTable freeList s pte1 with
      | (_, none) => [pte0, pte1]
      | (_, some pageTable2) => [pte0, pte1, pageTable2 + 8 * idx2 virt]

inductive Table (m : Memory) (root : Nat) : Nat → Nat → Prop
  | root : Table m root 0 root
  | next {level t t' i : Nat} : Table m root level t → level < 2 → i < 512 → entryPage m (t + 8 * i) = some t' →
      Table m root (level + 1) t'

def inside (s s' : Space) (root : Nat) : Set Nat :=
  { x | ∃ t, ((∃ level, Table s.mem root level t) ∨ t ∈ s'.tables ∧ t ∉ s.tables) ∧ x ∈ place t pageSize }

/-- The entries of a call lie in these tables, and so does all that it writes but for
the links of the free list, which the page allocator writes. -/
structure Confined (freeList root : Nat) (s s' : Space) (entries : List Nat) : Prop where
  entries (pte : Nat) : pte ∈ entries → place pte 8 ⊆ inside s s' root
  writes : ∃ free, FreePages freeList s.mem free ∧ Only (inside s s' root ∪ nodes (freeList :: free)) s.mem s'.mem

def Sound (freeList : Nat) (s : Run) (c : Call) : Prop :=
  ∃ s' res, vmMapPage freeList s.space s.root c.virt c.phys c.flags = (s', res) ∧
    (res < 0 ∨ ∀ phys, ∃ a, vmVirtToPhys s'.mem s.root c.virt phys = (a, 0)) ∧
    Confined freeList s.root s.space s' (mapEntries freeList s.space s.root c.virt)

def InTable (m : Memory) (root x : Nat) : Prop := ∃ level t, Table m root level t ∧ x ∈ place t pageSize

/-- A call would need a page that is not there, and would look for entries in tables
only, or in the one page that it could take. The index of the first entry may lead
behind the first table. -/
inductive Refused (freeList : Nat) (s : Space) (root virt : Nat) : Prop
  | first (hf : FreePages freeList s.mem []) (ht : InTable s.mem root (root + 8 * idx0 virt))
      (hv : flags s.mem (root + 8 * idx0 virt) &&& pteFlagV = 0)
  | second (hf : FreePages freeList s.mem []) (ht : InTable s.mem root (root + 8 * idx0 virt))
      (hv : flags s.mem (root + 8 * idx0 virt) &&& pteFlagV ≠ 0)
      (ht₁ : InTable s.mem root (ppnPage s.mem (root + 8 * idx0 virt) + 8 * idx1 virt))
      (hv₁ : flags s.mem (ppnPage s.mem (root + 8 * idx0 virt) + 8 * idx1 virt) &&& pteFlagV = 0)
  | last (n : Nat) (hf : FreePages freeList s.mem [n]) (hv : flags s.mem (root + 8 * idx0 virt) &&& pteFlagV = 0)
      (ht : InTable s.mem root (root + 8 * idx0 virt) ∨
        root + 8 * idx0 virt ∈ place n pageSize ∧ root + 8 * idx0 virt ≠ n + 8 * idx1 virt)

def Safe (freeList : Nat) (s : Run) (c : Call) : Prop :=
  c.virt < 2 ^ 39 ∨ Refused freeList s.space s.root c.virt

def Permitted (freeList : Nat) (s : Run) : Op → Prop
  | .mapPage c => Safe freeList s c
  | .other mem => Elsewhere freeList s.space mem

def SafeRun (freeList : Nat) : Run → Prop :=
  Reachable (Start freeList) fun s op s' => Permitted freeList s op ∧ s' = exec freeList s op

structure Added (freeList : Nat) (s : Space) (rest : List Nat) (pte n : Nat) (m : Memory) (s' : Space) : Prop where
  space : s' = ⟨initPte m pte n 0, s.tables ++ [n]⟩
  pages : FreePages freeList m rest
  clear (x : Nat) : x ∈ place n pageSize → m.byte x = 0
  only : Only (nodes (freeList :: rest) ∪ place n pageSize) s.mem m

structure Present (freeList root : Nat) (s : Space) (tab : List Nat → Option Nat) (leaf : List Nat → Pte)
    (free : List Nat) : Prop where
  mapped : ∃ tables, tables ⊆ s.tables ∧ Mapped freeList root ⟨s.mem, tables⟩ tab leaf free
  fresh (p : Nat) : p ∈ free → p ∉ s.tables

variable {freeList root virt phys pte n level t i : Nat} {s s' s₁ s₂ : Space} {free rest tables : List Nat} {fl : UInt32}
  {res : Int} {m : Memory} {tab : List Nat → Option Nat} {leaf : List Nat → Pte} {s₀ : Run}

theorem nextTable_valid (hv : flags s.mem pte &&& pteFlagV ≠ 0) :
    nextTable freeList s pte = (s, some (ppnPage s.mem pte)) := by
  rw [nextTable, if_neg hv]

theorem nextTable_empty (h : FreePages freeList s.mem []) (hv : flags s.mem pte &&& pteFlagV = 0) :
    nextTable freeList s pte = (s, none) := by
  simp only [nextTable, hv, if_true, createPageTable_null h]

theorem nextTable_added (h : FreePages freeList s.mem (n :: rest)) (hv : flags s.mem pte &&& pteFlagV = 0) :
    ∃ m s', nextTable freeList s pte = (s', some n) ∧ Added freeList s rest pte n m s' := by
  obtain ⟨m, hrun, hfree, hclear, honly⟩ := createPageTable_refines h
  have hne : n ≠ nullptr := Nat.ne_of_gt (h.page n List.mem_cons_self).pos
  refine ⟨m, ⟨initPte m pte n 0, s.tables ++ [n]⟩, ?_, rfl, hfree, hclear, honly⟩
  simp only [nextTable, hv, if_true, hrun, hne, if_false]

theorem nextTable_cases (h : FreePages freeList s.mem free) (pte : Nat) :
    flags s.mem pte &&& pteFlagV ≠ 0 ∧ nextTable freeList s pte = (s, some (ppnPage s.mem pte)) ∨
    flags s.mem pte &&& pteFlagV = 0 ∧ free = [] ∧ nextTable freeList s pte = (s, none) ∨
    flags s.mem pte &&& pteFlagV = 0 ∧ ∃ n rest m s', free = n :: rest ∧ nextTable freeList s pte = (s', some n) ∧
      Added freeList s rest pte n m s' := by
  by_cases hv : flags s.mem pte &&& pteFlagV = 0
  · right
    cases free with
    | nil => exact .inl ⟨hv, rfl, nextTable_empty h hv⟩
    | cons n rest =>
        obtain ⟨m, s', hrun, hadd⟩ := nextTable_added h hv
        exact .inr ⟨hv, n, rest, m, s', rfl, hrun, hadd⟩
  · exact .inl ⟨hv, nextTable_valid hv⟩

theorem nextTable_refused (h : FreePages freeList s.mem free) (hn : nextTable freeList s pte = (s', none)) :
    s' = s ∧ free = [] ∧ flags s.mem pte &&& pteFlagV = 0 := by
  rcases nextTable_cases h pte with ⟨-, hrun⟩ | ⟨hv, hf, hrun⟩ | ⟨-, n, rest, m, s₁, -, hrun, -⟩
  · cases (Prod.mk.inj (hrun.symm.trans hn)).2
  · exact ⟨(Prod.mk.inj (hn.symm.trans hrun)).1, hf, hv⟩
  · cases (Prod.mk.inj (hrun.symm.trans hn)).2

/-- A call that fails behind its first entry had no page for the second one. -/
theorem mapPage_second (hnext : nextTable freeList s (root + 8 * idx0 virt) = (s₁, some t))
    (hrun : vmMapPage freeList s root virt phys fl = (s', res)) (hres : res < 0) :
    nextTable freeList s₁ (t + 8 * idx1 virt) = (s', none) := by
  cases hnext₂ : nextTable freeList s₁ (t + 8 * idx1 virt) with
  | mk s₂ r =>
      simp only [vmMapPage, hnext, hnext₂] at hrun
      cases r with
      | some t₂ => exact absurd ((Prod.mk.inj hrun).2 ▸ hres) (Int.lt_irrefl 0)
      | none => rw [(Prod.mk.inj hrun).1]

section Tables

theorem nextTable_none (h : nextTable freeList s pte = (s', none)) : s'.tables = s.tables := by
  simp only [nextTable, vmCreatePageTable] at h
  split at h
  · split at h
    · simp only [if_true, Prod.mk.injEq] at h
      rw [← h.1]
    case isFalse hne =>
      simp only [Prod.mk.injEq, reduceCtorEq, and_false] at h
  · cases h

theorem nextTable_tables (freeList : Nat) (m : Memory) (pte : Nat) :
    ∃ m' new r, ∀ tables, nextTable freeList ⟨m, tables⟩ pte = (⟨m', tables ++ new⟩, r) := by
  by_cases hv : flags m pte &&& pteFlagV = 0
  · by_cases hn : (pageAlloc freeList m).2 = nullptr
    · refine ⟨(pageAlloc freeList m).1, [], none, fun tables => ?_⟩
      simp only [nextTable, vmCreatePageTable, hv, hn, if_true, List.append_nil]
    · refine ⟨initPte (memSet (pageAlloc freeList m).1 (pageAlloc freeList m).2 0 pageSize) pte (pageAlloc freeList m).2 0,
        [(pageAlloc freeList m).2], some (pageAlloc freeList m).2, fun tables => ?_⟩
      simp only [nextTable, vmCreatePageTable, hv, hn, if_true, if_false]
  · refine ⟨m, [], some (ppnPage m pte), fun tables => ?_⟩
    simp only [nextTable, hv, if_false, List.append_nil]

theorem mapPage_tables (freeList : Nat) (m : Memory) (root virt phys : Nat) (fl : UInt32) :
    ∃ m' new res, ∀ tables, vmMapPage freeList ⟨m, tables⟩ root virt phys fl = (⟨m', tables ++ new⟩, res) := by
  obtain ⟨m₁, new₁, r₁, h₁⟩ := nextTable_tables freeList m (root + 8 * idx0 virt)
  cases r₁ with
  | none => exact ⟨m₁, new₁, -enomem, fun tables => by simp only [vmMapPage, h₁]⟩
  | some t₁ =>
      obtain ⟨m₂, new₂, r₂, h₂⟩ := nextTable_tables freeList m₁ (t₁ + 8 * idx1 virt)
      cases r₂ with
      | none => exact ⟨m₂, new₁ ++ new₂, -enomem, fun tables => by simp only [vmMapPage, h₁, h₂, List.append_assoc]⟩
      | some t₂ =>
          exact ⟨initPte m₂ (t₂ + 8 * idx2 virt) phys fl, new₁ ++ new₂, 0,
            fun tables => by simp only [vmMapPage, h₁, h₂, List.append_assoc]⟩

end Tables

theorem mem_mapEntries (freeList : Nat) (s : Space) (root virt : Nat) :
    root + 8 * idx0 virt ∈ mapEntries freeList s root virt := by
  rw [mapEntries]
  split
  · exact List.mem_cons_self
  · dsimp only
    split
    · exact List.mem_cons_self
    · exact List.mem_cons_self

theorem entry_inside (ht : (∃ level, Table s.mem root level t) ∨ t ∈ s'.tables ∧ t ∉ s.tables) (hi : i < 512) :
    place (t + 8 * i) 8 ⊆ inside s s' root := fun _ hx => ⟨t, ht, entry_subset hi hx⟩

theorem page_inside (ht : t ∈ s'.tables) (hnew : t ∉ s.tables) : place t pageSize ⊆ inside s s' root :=
  fun _ hx => ⟨t, .inr ⟨ht, hnew⟩, hx⟩

section Added

theorem Added.mem_tables (h : Added freeList s rest pte n m s') : n ∈ s'.tables := by
  rw [h.space]
  exact List.mem_append_right _ (List.mem_singleton_self n)

theorem Added.mem_old (h : Added freeList s rest pte n m s') (ht : t ∈ s.tables) : t ∈ s'.tables := by
  rw [h.space]
  exact List.mem_append_left _ ht

theorem Added.pages_after (h : Added freeList s rest pte n m s')
    (hoff : Disjoint (place pte 8) (nodes (freeList :: rest))) :
    FreePages freeList s'.mem rest := by
  rw [h.space]
  exact h.pages.frame (initPte_only m pte n 0) hoff.symm

theorem Added.written {u : Set Nat} (h : Added freeList s rest pte n m s') (hpte : place pte 8 ⊆ u)
    (hn : place n pageSize ⊆ u) : Only (u ∪ nodes (freeList :: n :: rest)) s.mem s'.mem := by
  rw [h.space]
  apply Only.trans (h.only.mono _) ((initPte_only m pte n 0).mono _)
  · rintro x (hx | hx)
    · exact .inr (nodes_rest freeList n rest hx)
    · exact .inl (hn hx)
  · exact fun x hx => .inl (hpte hx)

/-- A table that has just been made has no valid entry but that which points to it. -/
theorem Added.invalid (h : Added freeList s rest pte n m s') (hd : Disjoint (place (n + 8 * i) 8) (place pte 8))
    (hi : i < 512) : flags s'.mem (n + 8 * i) &&& pteFlagV = 0 := by
  have hzero : readPte s'.mem (n + 8 * i) = noPte := by
    rw [h.space]
    rw [readPte_only (initPte_only m pte n 0) hd]
    exact readPte_zero fun x hx => h.clear x (entry_subset hi hx)
  rw [show flags s'.mem (n + 8 * i) = 0 from congrArg Pte.flags hzero]
  rfl

theorem Added.valid (h : Added freeList s rest pte n m s') : flags s'.mem pte &&& pteFlagV ≠ 0 := by
  have hflags : flags s'.mem pte = flags m pte ||| pteFlags 0 := by
    rw [h.space]
    exact congrArg Pte.flags (readPte_initPte m pte n 0)
  rw [hflags]
  exact or_pteFlags_valid _ 0

end Added

theorem confined_last (hp : FreePages freeList s.mem free)
    (ht : (∃ level, Table s.mem root level t) ∨ t ∈ s'.tables ∧ t ∉ s.tables)
    (hs' : s' = { s₂ with mem := initPte s₂.mem (t + 8 * idx2 virt) phys fl })
    (honly : Only (inside s s' root ∪ nodes (freeList :: free)) s.mem s₂.mem) :
    place (t + 8 * idx2 virt) 8 ⊆ inside s s' root ∧
      ∃ free, FreePages freeList s.mem free ∧ Only (inside s s' root ∪ nodes (freeList :: free)) s.mem s'.mem := by
  have hi : idx2 virt < 512 := Nat.mod_lt _ (by decide)
  have hin := entry_inside ht hi
  refine ⟨hin, free, hp, honly.trans ?_⟩
  rw [hs']
  apply (initPte_only s₂.mem (t + 8 * idx2 virt) phys fl).mono
  rw [← hs']
  exact hin.trans Set.subset_union_left

section Low

theorem idx1_lt (virt : Nat) : idx1 virt < 512 := Nat.mod_lt _ (by decide)

theorem valid_table (h : Tree m root tab leaf) {p : List Nat} (ht : tab p = some t) (hp : p.length < 2) (hi : i < 512)
    (hv : flags m (t + 8 * i) &&& pteFlagV ≠ 0) : tab (i :: p) = some (ppnPage m (t + 8 * i)) := by
  cases hc : tab (i :: p) with
  | none => exact absurd (Translation.entryPage_none.mp ((h.entryPage ht hp hi).trans hc)) hv
  | some t' => rw [h.ppnPage ht hp hi hc]

theorem confined_found (hm : Mapped freeList root ⟨s.mem, tables⟩ tab leaf free) (hnew : ∀ p ∈ free, p ∉ s.tables)
    (hi : idx0 virt < 512) {t₁ : Nat} (ht₁ : tab [idx0 virt] = some t₁)
    (hnext : nextTable freeList s (root + 8 * idx0 virt) = (s, some t₁))
    (hrun : vmMapPage freeList s root virt phys fl = (s', res)) :
    Confined freeList root s s' (mapEntries freeList s root virt) := by
  have hpages : FreePages freeList s.mem free := hm.pages
  have hi₁ := idx1_lt virt
  have hroot : ∀ s', place (root + 8 * idx0 virt) 8 ⊆ inside s s' root := fun s' => entry_inside (.inl ⟨0, .root⟩) hi
  have htable : Table s.mem root 1 t₁ :=
    .next .root Nat.zero_lt_two hi ((hm.tree.entryPage hm.tree.root Nat.zero_lt_two hi).trans ht₁)
  have hone : ∀ s', place (t₁ + 8 * idx1 virt) 8 ⊆ inside s s' root := fun s' => entry_inside (.inl ⟨1, htable⟩) hi₁
  rcases nextTable_cases hpages (t₁ + 8 * idx1 virt) with
    ⟨hv₂, hnext₂⟩ | ⟨-, rfl, hnext₂⟩ | ⟨-, n, rest, m, s₂, rfl, hnext₂, hadd⟩
  · simp only [vmMapPage, hnext, hnext₂] at hrun
    simp only [mapEntries, hnext, hnext₂]
    obtain ⟨rfl, -⟩ := Prod.mk.inj hrun
    have ht₂ := valid_table hm.tree ht₁ (Nat.lt_succ_self 1) hi₁ hv₂
    obtain ⟨htwo, hwrites⟩ := confined_last hpages (.inl ⟨2, .next htable (Nat.lt_succ_self 1) hi₁
      ((hm.tree.entryPage ht₁ (Nat.lt_succ_self 1) hi₁).trans ht₂)⟩) rfl (Only.refl _ s.mem)
    exact ⟨by simpa using ⟨hroot _, hone _, htwo⟩, hwrites⟩
  · simp only [vmMapPage, hnext, hnext₂] at hrun
    simp only [mapEntries, hnext, hnext₂]
    obtain ⟨rfl, -⟩ := Prod.mk.inj hrun
    exact ⟨by simpa using ⟨hroot _, hone _⟩, [], hpages, Only.refl _ _⟩
  · simp only [vmMapPage, hnext, hnext₂] at hrun
    simp only [mapEntries, hnext, hnext₂]
    obtain ⟨hs', -⟩ := Prod.mk.inj hrun
    have hfresh := hnew n List.mem_cons_self
    have hmem : n ∈ s'.tables := by rw [← hs']; exact hadd.mem_tables
    obtain ⟨htwo, hwrites⟩ := confined_last hpages (.inr ⟨hmem, hfresh⟩) hs'.symm
      (hadd.written (hone _) (page_inside hmem hfresh))
    exact ⟨by simpa using ⟨hroot _, hone _, htwo⟩, hwrites⟩

theorem confined_made (hm : Mapped freeList root ⟨s.mem, tables⟩ tab leaf (n :: rest))
    (hnew : ∀ p ∈ n :: rest, p ∉ s.tables) (hi : idx0 virt < 512)
    (hnext : nextTable freeList s (root + 8 * idx0 virt) = (s₁, some n))
    (hadd : Added freeList s rest (root + 8 * idx0 virt) n m s₁)
    (hrun : vmMapPage freeList s root virt phys fl = (s', res)) :
    Confined freeList root s s' (mapEntries freeList s root virt) := by
  have hpages : FreePages freeList s.mem (n :: rest) := hm.pages
  have hi₁ := idx1_lt virt
  have hroot : ∀ s', place (root + 8 * idx0 virt) 8 ⊆ inside s s' root := fun s' => entry_inside (.inl ⟨0, .root⟩) hi
  have hfresh := hnew n List.mem_cons_self
  have hone : ∀ s', n ∈ s'.tables → place (n + 8 * idx1 virt) 8 ⊆ inside s s' root :=
    fun s' hin => entry_inside (.inr ⟨hin, hfresh⟩) hi₁
  have hdisj : Disjoint (place n pageSize) (place (root + 8 * idx0 virt) 8) := by
    have hne : n ≠ root := fun he => hm.fresh n List.mem_cons_self (he ▸ (hm.tables root).mpr ⟨[], hm.tree.root⟩)
    exact (frame_disjoint (hm.frames n List.mem_cons_self) (hm.tree.frame hm.tree.root) hne).mono_right (entry_subset hi)
  have hoff := ((hm.nodes_disjoint hm.tree.root).mono_left (entry_subset hi)).mono_right (nodes_rest freeList n rest)
  have honly : ∀ s', n ∈ s'.tables → Only (inside s s' root ∪ nodes (freeList :: n :: rest)) s.mem s₁.mem :=
    fun s' hin => hadd.written (hroot s') (page_inside hin hfresh)
  rcases nextTable_cases (hadd.pages_after hoff) (n + 8 * idx1 virt) with
    ⟨hv₂, -⟩ | ⟨-, rfl, hnext₂⟩ | ⟨-, n₂, rest₂, m₂, s₂, rfl, hnext₂, hadd₂⟩
  · exact absurd (hadd.invalid (hdisj.mono_left (entry_subset hi₁)) hi₁) hv₂
  · simp only [vmMapPage, hnext, hnext₂] at hrun
    simp only [mapEntries, hnext, hnext₂]
    obtain ⟨rfl, -⟩ := Prod.mk.inj hrun
    exact ⟨by simpa using ⟨hroot _, hone _ hadd.mem_tables⟩, _, hpages, honly _ hadd.mem_tables⟩
  · simp only [vmMapPage, hnext, hnext₂] at hrun
    simp only [mapEntries, hnext, hnext₂]
    obtain ⟨hs', -⟩ := Prod.mk.inj hrun
    have hfresh₂ := hnew n₂ (List.mem_cons_of_mem n List.mem_cons_self)
    have hmem₂ : n₂ ∈ s'.tables := by rw [← hs']; exact hadd₂.mem_tables
    have hmem₁ : n ∈ s'.tables := by rw [← hs']; exact hadd₂.mem_old hadd.mem_tables
    obtain ⟨htwo, hwrites⟩ := confined_last hpages (.inr ⟨hmem₂, hfresh₂⟩) hs'.symm ((honly _ hmem₁).trans
      ((hadd₂.written (hone _ hmem₁) (page_inside hmem₂ hfresh₂)).mono
        (Set.union_subset_union_right _ (nodes_rest freeList n _))))
    exact ⟨by simpa using ⟨hroot _, hone _ hmem₁, htwo⟩, hwrites⟩

theorem Present.confined (h : Present freeList root s tab leaf free) (hi : idx0 virt < 512)
    (hrun : vmMapPage freeList s root virt phys fl = (s', res)) :
    Confined freeList root s s' (mapEntries freeList s root virt) := by
  obtain ⟨tables, -, hm⟩ := h.mapped
  have hpages : FreePages freeList s.mem free := hm.pages
  rcases nextTable_cases hpages (root + 8 * idx0 virt) with
    ⟨hv₁, hnext⟩ | ⟨-, rfl, hnext⟩ | ⟨-, n, rest, m, s₁, rfl, hnext, hadd⟩
  · exact confined_found hm h.fresh hi (valid_table hm.tree hm.tree.root Nat.zero_lt_two hi hv₁) hnext hrun
  · simp only [vmMapPage, hnext] at hrun
    simp only [mapEntries, hnext]
    obtain ⟨rfl, -⟩ := Prod.mk.inj hrun
    exact ⟨by simpa using entry_inside (.inl ⟨0, .root⟩) hi, [], hpages, Only.refl _ _⟩
  · exact confined_made hm h.fresh hi hnext hadd hrun

end Low

section Steps

variable {new : List Nat} {tab' : List Nat → Option Nat} {leaf' : List Nat → Pte} {free' p : List Nat}

theorem Present.grown (hsub : tables ⊆ s.tables) (hfresh : ∀ p ∈ free, p ∉ s.tables)
    (hg : Grown freeList ⟨s.mem, tables⟩ free ⟨m, tables ++ new⟩ free')
    (hm : Mapped freeList root ⟨m, tables ++ new⟩ tab' leaf' free') :
    Present freeList root ⟨m, s.tables ++ new⟩ tab' leaf' free' := by
  refine ⟨⟨_, List.append_subset.mpr ⟨?_, List.subset_append_right ..⟩, hm⟩, fun p hp hin => ?_⟩
  · exact List.Subset.trans hsub (List.subset_append_left ..)
  · rcases List.mem_append.mp hin with hin | hin
    · exact hfresh p (hg.suffix.subset hp) hin
    · exact hm.fresh p hp (List.mem_append_right _ hin)

theorem Present.next (h : Present freeList root s tab leaf free) (ht : tab p = some t) (hp : p.length < 2) (hi : i < 512)
    (hrun : nextTable freeList s (t + 8 * i) = (s', some n)) :
    ∃ tab' free', Present freeList root s' tab' leaf free' := by
  obtain ⟨tables, hsub, hm⟩ := h.mapped
  obtain ⟨m, new, r, hall⟩ := nextTable_tables freeList s.mem (t + 8 * i)
  obtain ⟨rfl, rfl⟩ := Prod.mk.inj ((hall s.tables).symm.trans hrun)
  rcases nextTable_refines hm ht hp hi with ⟨s₁, t₁, tab', free', hrun₁, -, hm', hg, -⟩ | ⟨-, hrun₁⟩
  · obtain ⟨rfl, -⟩ := Prod.mk.inj ((hall tables).symm.trans hrun₁)
    exact ⟨tab', free', .grown hsub h.fresh hg hm'⟩
  · cases (Prod.mk.inj ((hall tables).symm.trans hrun₁)).2

/-- A call for an address of a page table fails or maps its page. -/
theorem Present.low (h : Present freeList root s tab leaf free) (hv : virt < 2 ^ 39)
    (hrun : vmMapPage freeList s root virt phys fl = (s', res)) :
    (∃ tab' leaf' free', Present freeList root s' tab' leaf' free') ∧
      (res < 0 ∨ ∀ q, ∃ a, vmVirtToPhys s'.mem root virt q = (a, 0)) := by
  obtain ⟨tables, hsub, hm⟩ := h.mapped
  obtain ⟨m, new, r, hall⟩ := mapPage_tables freeList s.mem root virt phys fl
  obtain ⟨rfl, rfl⟩ := Prod.mk.inj ((hall s.tables).symm.trans hrun)
  obtain ⟨s₁, res₁, tab', free', hrun₁, hg, ⟨rfl, -, hm'⟩ | ⟨rfl, -, hm'⟩⟩ := mapPage_refines hm hv phys fl
  · obtain ⟨rfl, rfl⟩ := Prod.mk.inj ((hall tables).symm.trans hrun₁)
    have hwalk := hm'.tree.walk hv
    rw [target_mapLeaf _ hv hv, if_pos rfl] at hwalk
    obtain ⟨t, ht, -⟩ := walk_some hwalk
    exact ⟨⟨_, _, _, .grown hsub h.fresh hg hm'⟩, .inr fun q => ⟨_, virtToPhys_of_last hm'.tree hv ht⟩⟩
  · obtain ⟨rfl, rfl⟩ := Prod.mk.inj ((hall tables).symm.trans hrun₁)
    exact ⟨⟨_, _, _, .grown hsub h.fresh hg hm'⟩, .inl (by decide)⟩

theorem table_path (h : Tree m root tab leaf) (ht : Table m root level t) : ∃ p, tab p = some t ∧ p.length = level := by
  induction ht with
  | root => exact ⟨[], h.root, rfl⟩
  | next _ hlevel hi he ih =>
      obtain ⟨p, hp, rfl⟩ := ih
      exact ⟨_ :: p, (h.entryPage hp hlevel hi).symm.trans he, rfl⟩

theorem entry_of_page {k : Nat} (hr : root % pageSize = 0) (ha : t % pageSize = 0) (hx : root + 8 * k ∈ place t pageSize) :
    ∃ i < 512, root + 8 * k = t + 8 * i := by
  simp only [pageSize] at hr ha hx
  rw [mem_place] at hx
  refine ⟨(root + 8 * k - t) / 8, ?_, ?_⟩ <;> omega

/-- The last free page becomes a table that some entry points to. Where this is no
entry for a table, the page table stays as it was but for an entry of the last level. -/
theorem Present.added (h : Present freeList root s tab leaf (n :: rest))
    (ht : (∃ level, Table s.mem root level t) ∨ t = n) (hi : i < 512)
    (hnext : nextTable freeList s (t + 8 * i) = (s₁, some n)) (hadd : Added freeList s rest (t + 8 * i) n m s₁) :
    FreePages freeList s₁.mem rest ∧ ∃ tab' leaf' free', Present freeList root s₁ tab' leaf' free' := by
  obtain ⟨tables, hsub, hm⟩ := h.mapped
  have htake := hm.take hadd.pages hadd.only
  have hn : n ∉ rest := (List.nodup_cons.mp hm.pages.nodup).1
  have hfresh : ∀ p ∈ rest, p ∉ s₁.tables := by
    intro p hp hin
    rw [hadd.space] at hin
    rcases List.mem_append.mp hin with hin | hin
    · exact h.fresh p (List.mem_cons_of_mem n hp) hin
    · exact hn (List.mem_singleton.mp hin ▸ hp)
  have hold : tables ⊆ s₁.tables := fun p hp => hadd.mem_old (hsub hp)
  have hmem : s₁.mem = initPte m (t + 8 * i) n 0 := by rw [hadd.space]
  have hkept : ∀ leaf', FreePages freeList s₁.mem rest → Tree s₁.mem root tab leaf' →
      ∃ tab' leaf' free', Present freeList root s₁ tab' leaf' free' := fun leaf' hpages htree =>
    ⟨tab, _, rest, ⟨tables, hold, htree, htake.tables, hpages, htake.frames, htake.fresh, htake.off⟩, hfresh⟩
  rcases ht with ⟨level, ht⟩ | rfl
  · obtain ⟨p, hp, -⟩ := table_path hm.tree ht
    have hpages := hadd.pages_after ((htake.nodes_disjoint hp).mono_left (entry_subset hi))
    refine ⟨hpages, ?_⟩
    rcases Nat.lt_or_eq_of_le (hm.tree.depth hp) with hlen | hlen
    · obtain ⟨tab', free', h'⟩ := h.next hp hlen hi hnext
      exact ⟨tab', leaf, free', h'⟩
    · refine hkept (Function.update leaf (i :: p) (readPte s₁.mem (t + 8 * i))) hpages ?_
      rw [hmem]
      exact htake.tree.setLeaf (initPte_only m (t + 8 * i) n 0) hp hlen hi
  · have hpage := hm.pages.page t List.mem_cons_self
    have hpages := hadd.pages_after ((hadd.pages.disjoint hpage (hm.pages.off t List.mem_cons_self) hn).mono_left
      (entry_subset hi))
    refine ⟨hpages, hkept leaf hpages ?_⟩
    rw [hmem]
    refine htake.tree.only (initPte_only m (t + 8 * i) t 0) fun p t' hp => ?_
    have hne : t' ≠ t := fun he => hm.fresh t List.mem_cons_self ((hm.tables t).mpr ⟨p, he ▸ hp⟩)
    exact (frame_disjoint (hm.tree.frame hp) (hm.frames t List.mem_cons_self) hne).mono_right (entry_subset hi)

/-- A call that takes a page for the table of its first entry and then fails has taken
the last page. -/
theorem Present.second_fails (h : Present freeList root s tab leaf (n :: rest))
    (hnext : nextTable freeList s (root + 8 * idx0 virt) = (s₁, some n))
    (hadd : Added freeList s rest (root + 8 * idx0 virt) n m s₁)
    (hrun : vmMapPage freeList s root virt phys fl = (s', res)) (hres : res < 0)
    (hin : ∀ pte ∈ mapEntries freeList s root virt, place pte 8 ⊆ inside s s' root) :
    s' = s₁ ∧ rest = [] ∧ flags s₁.mem (n + 8 * idx1 virt) &&& pteFlagV = 0 ∧
      ∃ t i, ((∃ level, Table s.mem root level t) ∨ t = n) ∧ i < 512 ∧ root + 8 * idx0 virt = t + 8 * i := by
  obtain ⟨tables, hsub, hm⟩ := h.mapped
  have hnext₂ := mapPage_second hnext hrun hres
  have hpte := hin (root + 8 * idx0 virt) (mem_mapEntries freeList s root virt)
  obtain ⟨t, ht, hx⟩ := hpte (mem_place.mpr ⟨Nat.le_refl _, by omega⟩)
  have htable : (∃ level, Table s.mem root level t) ∨ t = n := by
    refine ht.imp_right ?_
    rintro ⟨hmem, hnot⟩
    rw [nextTable_none hnext₂, hadd.space, List.mem_append, List.mem_singleton] at hmem
    exact hmem.resolve_left hnot
  have hframe : Frame t := by
    rcases htable with ⟨level, ht⟩ | rfl
    · obtain ⟨p, hp, -⟩ := table_path hm.tree ht
      exact hm.tree.frame hp
    · exact hm.frames t List.mem_cons_self
  obtain ⟨i, hi, he⟩ := entry_of_page (hm.tree.frame hm.tree.root).aligned hframe.aligned hx
  have hfree : FreePages freeList s₁.mem rest := by
    rw [he] at hnext hadd
    exact (h.added htable hi hnext hadd).1
  obtain ⟨hs, hrest, hv⟩ := nextTable_refused hfree hnext₂
  exact ⟨hs, hrest, hv, t, i, htable, hi, he⟩

/-- A call that fails with all its entries in tables writes nowhere else, and leaves
a page table. -/
theorem Present.fails (h : Present freeList root s tab leaf free)
    (hrun : vmMapPage freeList s root virt phys fl = (s', res)) (hres : res < 0)
    (hin : ∀ pte ∈ mapEntries freeList s root virt, place pte 8 ⊆ inside s s' root) :
    Confined freeList root s s' (mapEntries freeList s root virt) ∧
      ∃ tab' leaf' free', Present freeList root s' tab' leaf' free' := by
  obtain ⟨tables, hsub, hm⟩ := h.mapped
  have hpages : FreePages freeList s.mem free := hm.pages
  have hsame : s' = s → Confined freeList root s s' (mapEntries freeList s root virt) ∧
      ∃ tab' leaf' free', Present freeList root s' tab' leaf' free' := by
    rintro rfl
    exact ⟨⟨hin, free, hpages, Only.refl _ _⟩, tab, leaf, free, h⟩
  rcases nextTable_cases hpages (root + 8 * idx0 virt) with
    ⟨-, hnext⟩ | ⟨-, -, hnext⟩ | ⟨-, n, rest, m, s₁, rfl, hnext, hadd⟩
  · exact hsame (nextTable_refused hpages (mapPage_second hnext hrun hres)).1
  · simp only [vmMapPage, hnext] at hrun
    exact hsame (Prod.mk.inj hrun).1.symm
  · have hpte := hin (root + 8 * idx0 virt) (mem_mapEntries freeList s root virt)
    obtain ⟨rfl, rfl, -, t, i, htable, hi, he⟩ := h.second_fails hnext hadd hrun hres hin
    have hwritten := hadd.written hpte (page_inside hadd.mem_tables (h.fresh n List.mem_cons_self))
    rw [he] at hnext hadd
    exact ⟨⟨hin, _, hpages, hwritten⟩, (h.added htable hi hnext hadd).2⟩

end Steps

section Refusals

theorem Present.refused_last (h : Present freeList root s tab leaf (n :: rest))
    (hv : flags s.mem (root + 8 * idx0 virt) &&& pteFlagV = 0)
    (hnext : nextTable freeList s (root + 8 * idx0 virt) = (s₁, some n))
    (hadd : Added freeList s rest (root + 8 * idx0 virt) n m s₁)
    (hrun : vmMapPage freeList s root virt phys fl = (s', res)) (hres : res < 0)
    (hin : ∀ pte ∈ mapEntries freeList s root virt, place pte 8 ⊆ inside s s' root) : Refused freeList s root virt := by
  obtain ⟨tables, -, hm⟩ := h.mapped
  obtain ⟨rfl, rfl, hv₁, t, i, htable, hi, he⟩ := h.second_fails hnext hadd hrun hres hin
  have hx : root + 8 * idx0 virt ∈ place t pageSize := by
    rw [he]
    exact entry_subset hi (mem_place.mpr ⟨Nat.le_refl _, by omega⟩)
  refine .last n hm.pages hv ?_
  rcases htable with ⟨level, ht⟩ | rfl
  · exact .inl ⟨level, t, ht, hx⟩
  · refine .inr ⟨hx, fun heq => hadd.valid ?_⟩
    rw [heq]
    exact hv₁

theorem mem_inside (h : place pte 8 ⊆ inside s s' root) : pte ∈ inside s s' root :=
  h (mem_place.mpr ⟨Nat.le_refl _, by omega⟩)

theorem inTable_of_inside (h : pte ∈ inside s s root) : InTable s.mem root pte := by
  obtain ⟨t, ⟨level, ht⟩ | ⟨hin, hnot⟩, hx⟩ := h
  · exact ⟨level, t, ht, hx⟩
  · exact absurd hin hnot

theorem InTable.entry {k : Nat} (hm : Tree m root tab leaf) (ha : i % pageSize = 0) (h : InTable m root (i + 8 * k)) :
    ∃ level t j, Table m root level t ∧ j < 512 ∧ i + 8 * k = t + 8 * j := by
  obtain ⟨level, t, ht, hx⟩ := h
  obtain ⟨p, hp, -⟩ := table_path hm ht
  obtain ⟨j, hj, he⟩ := entry_of_page ha (hm.frame hp).aligned hx
  exact ⟨level, t, j, ht, hj, he⟩

theorem InTable.inside {k : Nat} (hm : Tree s.mem root tab leaf) (ha : i % pageSize = 0)
    (h : InTable s.mem root (i + 8 * k)) (s' : Space) : place (i + 8 * k) 8 ⊆ inside s s' root := by
  obtain ⟨level, t, j, ht, hj, he⟩ := h.entry hm ha
  rw [he]
  exact entry_inside (.inl ⟨level, ht⟩) hj

theorem ppnPage_aligned (m : Memory) (pte : Nat) : ppnPage m pte % pageSize = 0 := by
  rw [ppnPage, pageSize]
  omega

/-- The one free page becomes the table of the first entry, and no page is left for
the second one. -/
theorem Present.takes_last (phys : Nat) (fl : UInt32) (h : Present freeList root s tab leaf [n])
    (hv : flags s.mem (root + 8 * idx0 virt) &&& pteFlagV = 0)
    (ht : InTable s.mem root (root + 8 * idx0 virt) ∨
      root + 8 * idx0 virt ∈ place n pageSize ∧ root + 8 * idx0 virt ≠ n + 8 * idx1 virt) :
    ∃ s', vmMapPage freeList s root virt phys fl = (s', -enomem) ∧
      ∀ pte ∈ mapEntries freeList s root virt, place pte 8 ⊆ MapBounds.inside s s' root := by
  obtain ⟨tables, hsub, hm⟩ := h.mapped
  have hpages : FreePages freeList s.mem [n] := hm.pages
  have hroot := (hm.tree.frame hm.tree.root).aligned
  have hn := hm.frames n List.mem_cons_self
  have hi₁ := idx1_lt virt
  obtain ⟨t, i, htable, hi, he⟩ : ∃ t i, ((∃ level, Table s.mem root level t) ∨ t = n) ∧ i < 512 ∧
      root + 8 * idx0 virt = t + 8 * i := by
    rcases ht with ht | ⟨hx, -⟩
    · obtain ⟨level, t, i, ht, hi, he⟩ := ht.entry hm.tree hroot
      exact ⟨t, i, .inl ⟨level, ht⟩, hi, he⟩
    · obtain ⟨i, hi, he⟩ := entry_of_page hroot hn.aligned hx
      exact ⟨n, i, .inr rfl, hi, he⟩
  -- The second entry is looked for in the page just taken, and has to be clear there.
  have hdisj : Disjoint (place (n + 8 * idx1 virt) 8) (place (root + 8 * idx0 virt) 8) := by
    rcases ht with ht | ⟨hx, hne⟩
    · obtain ⟨level, t, i, ht, hi, he⟩ := ht.entry hm.tree hroot
      obtain ⟨p, hp, -⟩ := table_path hm.tree ht
      have hne : n ≠ t := fun heq => hm.fresh n List.mem_cons_self ((hm.tables n).mpr ⟨p, heq ▸ hp⟩)
      rw [he]
      exact (frame_disjoint hn (hm.tree.frame hp) hne).mono (entry_subset hi₁) (entry_subset hi)
    · obtain ⟨i, -, he⟩ := entry_of_page hroot hn.aligned hx
      apply disjoint_place
      omega
  obtain ⟨m, s₁, hnext, hadd⟩ := nextTable_added hpages hv
  have hfree : FreePages freeList s₁.mem [] := by
    rw [he] at hnext hadd
    exact (h.added htable hi hnext hadd).1
  have hnext₂ := nextTable_empty hfree (hadd.invalid hdisj hi₁)
  have hnew := h.fresh n List.mem_cons_self
  refine ⟨s₁, by simp only [vmMapPage, hnext, hnext₂], ?_⟩
  simp only [mapEntries, hnext, hnext₂, List.mem_cons, List.not_mem_nil, or_false, forall_eq_or_imp, forall_eq]
  refine ⟨?_, entry_inside (.inr ⟨hadd.mem_tables, hnew⟩) hi₁⟩
  rw [he]
  refine entry_inside (htable.imp_right ?_) hi
  rintro rfl
  exact ⟨hadd.mem_tables, hnew⟩

/-- Whether a call fails with all its entries in tables is decided by the state
before it. -/
theorem Present.refused_iff (phys : Nat) (fl : UInt32) (h : Present freeList root s tab leaf free) :
    Refused freeList s root virt ↔ ∃ s' res, vmMapPage freeList s root virt phys fl = (s', res) ∧ res < 0 ∧
      ∀ pte ∈ mapEntries freeList s root virt, place pte 8 ⊆ MapBounds.inside s s' root := by
  obtain ⟨tables, hsub, hm⟩ := h.mapped
  have htree : Tree s.mem root tab leaf := hm.tree
  have hroot := (htree.frame htree.root).aligned
  have hneg : -enomem < 0 := by decide
  constructor
  · intro hr
    cases hr with
    | first hf ht hv =>
        have hnext := nextTable_empty hf hv
        refine ⟨s, -enomem, by simp only [vmMapPage, hnext], hneg, ?_⟩
        simp only [mapEntries, hnext, List.mem_singleton, forall_eq]
        exact ht.inside htree hroot s
    | second hf ht hv ht₁ hv₁ =>
        have hnext : nextTable freeList s (root + 8 * idx0 virt) = _ := nextTable_valid hv
        have hnext₁ := nextTable_empty hf hv₁
        refine ⟨s, -enomem, by simp only [vmMapPage, hnext, hnext₁], hneg, ?_⟩
        simp only [mapEntries, hnext, hnext₁, List.mem_cons, List.not_mem_nil, or_false, forall_eq_or_imp, forall_eq]
        exact ⟨ht.inside htree hroot s, ht₁.inside htree (ppnPage_aligned _ _) s⟩
    | last n hf hv ht =>
        obtain rfl := hf.unique hm.pages
        obtain ⟨s', hrun, hin⟩ := h.takes_last phys fl hv ht
        exact ⟨s', -enomem, hrun, hneg, hin⟩
  · -- The case is decided by the entry for which there was no page.
    rintro ⟨s', res, hrun, hres, hin⟩
    have hpages : FreePages freeList s.mem free := hm.pages
    rcases nextTable_cases hpages (root + 8 * idx0 virt) with
      ⟨hv, hnext⟩ | ⟨hv, rfl, hnext⟩ | ⟨hv, n, rest, m, s₁, rfl, hnext, hadd⟩
    · have hnext₁ := mapPage_second hnext hrun hres
      obtain ⟨rfl, rfl, hv₁⟩ := nextTable_refused hpages hnext₁
      simp only [mapEntries, hnext, hnext₁, List.mem_cons, List.not_mem_nil, or_false, forall_eq_or_imp, forall_eq] at hin
      exact .second hpages (inTable_of_inside (mem_inside hin.1)) hv (inTable_of_inside (mem_inside hin.2)) hv₁
    · simp only [vmMapPage, hnext] at hrun
      simp only [mapEntries, hnext, List.mem_singleton, forall_eq] at hin
      obtain ⟨rfl, -⟩ := Prod.mk.inj hrun
      exact .first hpages (inTable_of_inside (mem_inside hin)) hv
    · exact h.refused_last hv hnext hadd hrun hres hin

end Refusals

theorem start_present (h : Start freeList s₀) : ∃ tab leaf free, Present freeList s₀.root s₀.space tab leaf free := by
  obtain ⟨tab, free, hm⟩ := (start_invariant h).mapped
  exact ⟨tab, _, free, ⟨_, List.Subset.refl _, hm⟩, hm.fresh⟩

theorem other_present (h : Present freeList root s tab leaf free) (he : Elsewhere freeList s m) :
    ∃ tab leaf free, Present freeList root ⟨m, s.tables⟩ tab leaf free := by
  obtain ⟨tables, hsub, hm⟩ := h.mapped
  obtain ⟨free', hfree, hnew⟩ := he.free
  refine ⟨tab, leaf, free', ⟨tables, hsub, hm.tree.only he.only ?_, hm.tables, hfree, fun p hp => (hnew p hp).1,
    fun p hp hin => (hnew p hp).2 (hsub hin), hm.off⟩, fun p hp => (hnew p hp).2⟩
  intro p t ht
  apply Set.disjoint_compl_right_iff_subset.mpr
  exact fun x hx => ⟨t, hsub ((hm.tables t).mpr ⟨p, ht⟩), hx⟩

theorem safeRun_present (h : SafeRun freeList s₀) : ∃ tab leaf free, Present freeList s₀.root s₀.space tab leaf free := by
  refine h.invariant (I := fun s => ∃ tab leaf free, Present freeList s.root s.space tab leaf free)
    (fun s => start_present) ?_
  rintro s op _ ⟨tab, leaf, free, hp⟩ ⟨hop, rfl⟩
  cases op with
  | mapPage c =>
      rcases hop with hv | href
      · exact (hp.low hv rfl).1
      · obtain ⟨s', res, hrun, hres, hin⟩ := (hp.refused_iff c.phys c.flags).mp href
        have hspace : (exec freeList s (.mapPage c)).space = s' := congrArg Prod.fst hrun
        rw [hspace]
        exact (hp.fails hrun hres hin).2
  | other m => exact other_present hp hop

/-- In every run in which each call before it was safe, a call fails or maps its page
and stays inside the tables exactly when it is safe. -/
theorem map_page_sound_iff (h : SafeRun freeList s₀) (c : Call) : Sound freeList s₀ c ↔ Safe freeList s₀ c := by
  obtain ⟨tab, leaf, free, hp⟩ := safeRun_present h
  constructor
  · rintro ⟨s', res, hrun, hres, hconf⟩
    by_cases hv : c.virt < 2 ^ 39
    · exact .inl hv
    · rcases hres with hneg | hok
      · exact .inr ((hp.refused_iff c.phys c.flags).mpr ⟨s', res, hrun, hneg, hconf.entries⟩)
      · obtain ⟨a, ha⟩ := hok 0
        rw [virtToPhys_large hv] at ha
        have hres : -efault = 0 := congrArg Prod.snd ha
        exact absurd hres (by decide)
  · rintro (hv | href)
    · exact ⟨_, _, rfl, (hp.low hv rfl).2, hp.confined (idx_lt hv).1 rfl⟩
    · obtain ⟨s', res, hrun, hneg, hin⟩ := (hp.refused_iff c.phys c.flags).mp href
      exact ⟨s', res, hrun, .inl hneg, (hp.fails hrun hneg hin).1⟩

theorem map_page_sound_iff_low : ∃ s space, SafeRun 0x80300010 s ∧
    vmMapPage 0x80300010 s.space s.root 0x1000 0x80800000 vmFlagReadable = (space, 0) ∧
    Sound 0x80300010 s ⟨0x1000, 0x80800000, vmFlagReadable⟩ := by
  obtain ⟨s, hs, tab, free, hm, hlen⟩ := start_of_init boot_region (by decide)
  have hlow : 0x1000 < 2 ^ 39 := by decide
  obtain ⟨space, res, tab', free', hrun, -, ⟨rfl, -⟩ | ⟨-, hlt, -⟩⟩ := mapPage_refines hm hlow 0x80800000 vmFlagReadable
  · exact ⟨s, space, .start hs, hrun, (map_page_sound_iff (.start hs) ⟨0x1000, 0x80800000, vmFlagReadable⟩).mpr (.inl hlow)⟩
  · omega

section Boot

theorem table_root {m : Memory} (h : ∀ i < 512, entryPage m (root + 8 * i) = none)
    (ht : Table m root level t) : t = root := by
  induction ht with
  | root => rfl
  | next _ _ hi he ih =>
      rw [ih, h _ hi] at he
      cases he

theorem boot_clear : ∃ s rest, Start 0x80300010 s ∧ s.root = 0x80400000 ∧ s.space.tables = [0x80400000] ∧
    FreePages 0x80300010 s.space.mem (0x80401000 :: 0x80402000 :: rest) ∧
    (∀ i < 512, entryPage s.space.mem (0x80400000 + 8 * i) = none) ∧ s.space.mem.byte 0x8047FFF8 = 0 ∧
    Disjoint (place 0x8047FFF8 8) (nodes (0x80300010 :: 0x80401000 :: 0x80402000 :: rest)) := by
  obtain ⟨m, hm⟩ := boot_pages
  have hoff : Disjoint (place 0x8047FFF8 8) (nodes (0x80300010 :: heapPages 0x80400000)) := by
    apply boot_off (by decide)
    intro i
    rw [pageSize]
    omega
  have hframes : ∀ p ∈ heapPages 0x80400000, Frame p := fun p hp => heap_frame boot_region (by decide) hp
  have hone := setByte_only m 0x8047FFF8 0
  have hm := hm.frame (hone.mono (t := place 0x8047FFF8 8) (by simp)) hoff.symm
  have hbyte : (setByte m 0x8047FFF8 0).byte 0x8047FFF8 = 0 := Function.update_self 0x8047FFF8 0 m.byte
  generalize setByte m 0x8047FFF8 0 = m at hm hbyte
  obtain ⟨rest, hrest⟩ := heapPages_three
  rw [hrest] at hm hframes hoff
  obtain ⟨m', hrun, hmapped, honly⟩ := create_mapped hm hframes
  have hoff := hoff.mono_right (nodes_rest 0x80300010 0x80400000 _)
  have hne : 0x80400000 ≠ nullptr := by decide
  refine ⟨⟨⟨m', [0x80400000]⟩, 0x80400000, []⟩, rest, ⟨⟨m, _, hm, hframes, hrun⟩, hne, rfl⟩, rfl, rfl, hmapped.pages,
    fun i hi => ?_, ?_, hoff⟩
  · exact hmapped.tree.entryPage hmapped.tree.root Nat.zero_lt_two hi
  · refine (honly _ ?_).trans hbyte
    rintro (hx | hx)
    · exact Set.disjoint_left.mp hoff (by simp) hx
    · rw [mem_place] at hx
      exact absurd hx (by decide)

end Boot

/-- The entry for this address in the first table would be 0x7FFF8 bytes behind its
start. The call writes there, to a page that is free, and returns 0. -/
theorem map_page_outside : ∃ s space, SafeRun 0x80300010 s ∧ s.root = 0x80400000 ∧
    vmMapPage 0x80300010 s.space s.root 0x3FFFC0000000 0x80800000 vmFlagReadable = (space, 0) ∧
    (∀ phys, vmVirtToPhys space.mem s.root 0x3FFFC0000000 phys = (phys, -efault)) ∧
    0x8047FFF8 ∈ mapEntries 0x80300010 s.space s.root 0x3FFFC0000000 ∧ 0x8047FFF8 ∉ inside s.space space s.root ∧
    ¬ Sound 0x80300010 s ⟨0x3FFFC0000000, 0x80800000, vmFlagReadable⟩ := by
  obtain ⟨s, rest, hs, hroot, htables, hfree, hclear, hbyte, hoff⟩ := boot_clear
  have hv : ¬ 0x3FFFC0000000 < 2 ^ 39 := by decide
  have hpte : s.root + 8 * idx0 0x3FFFC0000000 = 0x8047FFF8 := by rw [hroot]; decide
  have hpte₁ : 0x80401000 + 8 * idx1 0x3FFFC0000000 = 0x80401000 := by decide
  have hnone : flags s.space.mem 0x8047FFF8 &&& pteFlagV = 0 := by
    rw [flags, hbyte]
    rfl
  obtain ⟨m₁, s₁, hnext, hadd⟩ := nextTable_added hfree hnone
  have hnone₁ := hadd.invalid (i := 0) (disjoint_place (by decide)) (by decide)
  have hfree₁ := hadd.pages_after (hoff.mono_right (nodes_rest 0x80300010 0x80401000 _))
  obtain ⟨m₂, s₂, hnext₂, hadd₂⟩ := nextTable_added hfree₁ hnone₁
  have hrun : vmMapPage 0x80300010 s.space s.root 0x3FFFC0000000 0x80800000 vmFlagReadable =
      ({ s₂ with mem := initPte s₂.mem (0x80402000 + 8 * idx2 0x3FFFC0000000) 0x80800000 vmFlagReadable }, 0) := by
    simp only [vmMapPage, hpte, hnext, hpte₁, hnext₂]
  have htables₂ : s₂.tables = [0x80400000, 0x80401000, 0x80402000] := by
    rw [hadd₂.space, hadd.space, htables]
    rfl
  have hentry : 0x8047FFF8 ∈ mapEntries 0x80300010 s.space s.root 0x3FFFC0000000 := by
    simp [mapEntries, hpte, hnext, hpte₁, hnext₂]
  have hout : ∀ m, 0x8047FFF8 ∉ inside s.space { s₂ with mem := m } s.root := by
    rintro m ⟨t, ⟨level, ht⟩ | ⟨ht, -⟩, hx⟩
    · rw [hroot] at ht
      obtain rfl := table_root hclear ht
      exact absurd (mem_place.mp hx) (by decide)
    · rw [htables₂] at ht
      rw [mem_place, pageSize] at hx
      simp only [List.mem_cons, List.not_mem_nil, or_false] at ht
      omega
  refine ⟨s, _, .start hs, hroot, hrun, fun phys => virtToPhys_large hv, hentry, hout _, ?_⟩
  rintro ⟨s', res, hrun', -, hconf⟩
  obtain ⟨rfl, -⟩ := Prod.mk.inj (hrun.symm.trans hrun')
  exact hout _ (hconf.entries _ hentry (mem_place.mpr (by decide)))

end Karg.MapBounds
