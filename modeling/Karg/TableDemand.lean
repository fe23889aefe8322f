import Karg.Demand
import Karg.PageTableMap

namespace Karg.TableDemand

open ByteMemory KernelMemory PageAlloc Vm TableTree VmRefinement PageTableMap Demand

def needs (virt : Nat) : List (List Nat) := [[idx0 virt]] ++ [[idx1 virt, idx0 virt]]

def tableCount (virts : List Nat) : Nat :=
  1 + (virts.map (· / 2 ^ 30)).toFinset.card + (virts.map (· / 2 ^ 21)).toFinset.card

structure Counted (freeList root : Nat) (s : Space) (tab : List Nat → Option Nat) (present : Finset (List Nat))
    (leaf : List Nat → Pte) (free : List Nat) : Prop extends Mapped freeList root s tab leaf free where
  mem (p : List Nat) : p ∈ present ↔ ∃ t, tab p = some t
  count : s.tables.length = present.card

def mapPages (freeList root : Nat) (s : Space) : List Call → Space × Int
  | [] => (s, 0)
  | c :: calls =>
      let (s, res) := vmMapPage freeList s root c.virt c.phys c.flags
      if res < 0 then (s, res) else mapPages freeList root s calls

variable {freeList root t i n virt : Nat} {s : Space} {tab : List Nat → Option Nat} {leaf : List Nat → Pte}
  {present : Finset (List Nat)} {free p virts : List Nat} {m : Memory} {calls : List Call}

theorem create_counted (h : FreePages freeList m (n :: free)) (hf : ∀ p ∈ n :: free, Frame p) :
    ∃ m' tab, vmCreatePageTable freeList ⟨m, []⟩ = (⟨m', [n]⟩, n) ∧
      Counted freeList n ⟨m', [n]⟩ tab {[]} (fun _ => noPte) free := by
  obtain ⟨m', hrun, hm, -⟩ := create_mapped h hf
  refine ⟨m', _, hrun, hm, fun p => ?_, rfl⟩
  rw [Finset.mem_singleton]
  constructor
  · rintro rfl
    exact ⟨n, Function.update_self ..⟩
  · rintro ⟨t, ht⟩
    by_contra hp
    rw [Function.update_of_ne hp] at ht
    cases ht

/-- A table takes one free page if it is not there yet. -/
theorem nextTable_counted (h : Counted freeList root s tab present leaf free) (ht : tab p = some t) (hp : p.length < 2)
    (hi : i < 512) :
    (∃ s' t' tab', nextTable freeList s (t + 8 * i) = (s', some t') ∧ tab' (i :: p) = some t' ∧
      demand present [i :: p] ≤ free.length ∧
      Counted freeList root s' tab' (present ∪ [i :: p].toFinset) leaf (free.drop (demand present [i :: p]))) ∨
    free = [] ∧ demand present [i :: p] = 1 ∧ nextTable freeList s (t + 8 * i) = (s, none) := by
  cases hc : tab (i :: p) with
  | some t' =>
      have hmem : i :: p ∈ present := (h.mem _).mpr ⟨t', hc⟩
      have hsame : present ∪ [i :: p].toFinset = present := by
        apply Finset.union_eq_left.mpr
        simpa using hmem
      refine .inl ⟨s, t', tab, nextTable_old h.toMapped ht hp hi hc, hc, ?_, ?_⟩
      · rw [demand_mem hmem]
        exact Nat.zero_le _
      · rwa [demand_mem hmem, hsame, List.drop_zero]
  | none =>
      have hno : i :: p ∉ present := by
        intro hmem
        obtain ⟨t', ht'⟩ := (h.mem _).mp hmem
        rw [hc] at ht'
        cases ht'
      cases free with
      | nil => exact .inr ⟨rfl, demand_notMem hno, nextTable_null h.toMapped ht hp hi hc⟩
      | cons n free =>
          obtain ⟨m', hrun, hm, -⟩ := nextTable_new h.toMapped ht hp hi hc
          rw [demand_notMem hno]
          refine .inl ⟨_, n, _, hrun, Function.update_self .., Nat.succ_pos _, hm, fun q => ?_, ?_⟩
          · rw [Finset.mem_union, h.mem q, List.mem_toFinset, List.mem_singleton]
            by_cases hq : q = i :: p
            · rw [hq, Function.update_self]
              exact ⟨fun _ => ⟨n, rfl⟩, fun _ => .inr rfl⟩
            · rw [Function.update_of_ne hq]
              exact or_iff_left hq
          · have hd : Disjoint present [i :: p].toFinset := by simpa using hno
            rw [Finset.card_union_of_disjoint hd, List.length_append, h.count]
            rfl

/-- `vm_map_page` takes a page for each table that its address lacks, and fails
when there are not enough. -/
theorem mapPage_counted (h : Counted freeList root s tab present leaf free) (hv : virt < 2 ^ 39) (phys : Nat)
    (fl : UInt32) :
    (∃ s' tab', vmMapPage freeList s root virt phys fl = (s', 0) ∧ demand present (needs virt) ≤ free.length ∧
      Counted freeList root s' tab' (present ∪ (needs virt).toFinset) (mapLeaf leaf virt phys fl)
        (free.drop (demand present (needs virt)))) ∨
    ∃ s' tab' present', vmMapPage freeList s root virt phys fl = (s', -enomem) ∧
      free.length < demand present (needs virt) ∧ Counted freeList root s' tab' present' leaf [] := by
  obtain ⟨h0, h1, -⟩ := idx_lt hv
  rw [needs, demand_append, union_append]
  rcases nextTable_counted h h.tree.root Nat.zero_lt_two h0 with
    ⟨s₁, t₁, tab₁, hrun₁, ht₁, hle₁, hc₁⟩ | ⟨rfl, hd, hrun⟩
  · rcases nextTable_counted hc₁ ht₁ (Nat.lt_succ_self 1) h1 with
      ⟨s₂, t₂, tab₂, hrun₂, ht₂, hle₂, hc₂⟩ | ⟨hnil, hd, hrun⟩
    · have hset := (setLeaf_refines phys fl hc₂.toMapped hv ht₂).1
      rw [List.length_drop] at hle₂
      rw [List.drop_drop] at hset
      refine .inl ⟨⟨initPte s₂.mem (t₂ + 8 * idx2 virt) phys fl, s₂.tables⟩, tab₂, ?_, by omega,
        hset, hc₂.mem, hc₂.count⟩
      rw [vmMapPage, hrun₁]
      simp only [hrun₂]
    · have hlen := List.drop_eq_nil_iff.mp hnil
      rw [hnil] at hc₁
      refine .inr ⟨s₁, tab₁, _, ?_, by omega, hc₁⟩
      rw [vmMapPage, hrun₁]
      simp only [hrun]
  · refine .inr ⟨s, tab, present, ?_, ?_, h⟩
    · rw [vmMapPage, hrun]
    · rw [hd, List.length_nil]
      omega

def needsOf (virts : List Nat) : List (List Nat) := virts.flatMap needs

def mapLeaves (leaf : List Nat → Pte) (calls : List Call) : List Nat → Pte :=
  calls.foldl (fun leaf c => mapLeaf leaf c.virt c.phys c.flags) leaf

theorem mapPages_counted (h : Counted freeList root s tab present leaf free) (hv : ∀ c ∈ calls, c.virt < 2 ^ 39) :
    (∃ s' tab', mapPages freeList root s calls = (s', 0) ∧
      demand present (needsOf (calls.map (·.virt))) ≤ free.length ∧
      Counted freeList root s' tab' (present ∪ (needsOf (calls.map (·.virt))).toFinset) (mapLeaves leaf calls)
        (free.drop (demand present (needsOf (calls.map (·.virt)))))) ∨
    ∃ s' tab' present' made, mapPages freeList root s calls = (s', -enomem) ∧
      free.length < demand present (needsOf (calls.map (·.virt))) ∧ made <+: calls ∧
      Counted freeList root s' tab' present' (mapLeaves leaf made) [] := by
  induction calls generalizing s tab leaf free present with
  | nil =>
      refine .inl ⟨s, tab, rfl, ?_, ?_⟩
      · exact (Nat.le_of_eq (demand_nil present)).trans (Nat.zero_le _)
      · show Counted freeList root s tab (present ∪ ∅) leaf (free.drop (demand present []))
        rwa [Finset.union_empty, demand_nil, List.drop_zero]
  | cons c calls ih =>
      have hneeds : needsOf ((c :: calls).map (·.virt)) = needs c.virt ++ needsOf (calls.map (·.virt)) := rfl
      rw [hneeds, demand_append, union_append]
      rcases mapPage_counted h (hv c List.mem_cons_self) c.phys c.flags with
        ⟨s₁, tab₁, hrun₁, hle₁, hc₁⟩ | ⟨s₁, tab₁, present₁, hrun₁, hlt₁, hc₁⟩
      · have hcont : mapPages freeList root s (c :: calls) = mapPages freeList root s₁ calls := by
          rw [mapPages, hrun₁]
          rfl
        have hlen := List.length_drop (i := demand present (needs c.virt)) (l := free)
        rw [hcont]
        rcases ih hc₁ fun d hd => hv d (List.mem_cons_of_mem c hd) with
          ⟨s₂, tab₂, hrun₂, hle₂, hc₂⟩ | ⟨s₂, tab₂, present₂, made, hrun₂, hlt₂, hmade, hc₂⟩
        · rw [List.drop_drop] at hc₂
          exact .inl ⟨s₂, tab₂, hrun₂, by omega, hc₂⟩
        · exact .inr ⟨s₂, tab₂, present₂, c :: made, hrun₂, by omega, List.cons_prefix_cons.mpr ⟨rfl, hmade⟩, hc₂⟩
      · refine .inr ⟨s₁, tab₁, present₁, [], ?_, by omega, List.nil_prefix, hc₁⟩
        rw [mapPages, hrun₁]
        rfl

section Count

theorem gigabytes_card (hv : ∀ v ∈ virts, v < 2 ^ 39) :
    (virts.map fun v => [idx0 v]).toFinset.card = (virts.map (· / 2 ^ 30)).toFinset.card := by
  have hmap : virts.map (fun v => [idx0 v]) = (virts.map (· / 2 ^ 30)).map fun g => [g] := by
    rw [List.map_map]
    apply List.map_congr_left
    intro v hmem
    rw [idx0_eq (hv v hmem)]
    rfl
  rw [hmap, card_map]
  exact fun g g' hg => (List.cons.inj hg).1

theorem parts_card (hv : ∀ v ∈ virts, v < 2 ^ 39) :
    (virts.map fun v => [idx1 v, idx0 v]).toFinset.card = (virts.map (· / 2 ^ 21)).toFinset.card := by
  have hmap : virts.map (fun v => [idx1 v, idx0 v]) = (virts.map (· / 2 ^ 21)).map fun q => [q % 512, q / 512] := by
    rw [List.map_map]
    apply List.map_congr_left
    intro v hmem
    rw [idx0_eq (hv v hmem), idx1]
    show _ = [v / 2 ^ 21 % 512, v / 2 ^ 21 / 512]
    rw [Nat.div_div_eq_div_mul, ← Nat.pow_add 2 21 9]
  rw [hmap, card_map]
  intro q q' hq
  have hmod := (List.cons.inj hq).1
  have hdiv := (List.cons.inj (List.cons.inj hq).2).1
  omega

/-- The tables for some addresses are counted by the parts of the address space in which these lie. -/
theorem demand_needsOf (hv : ∀ v ∈ virts, v < 2 ^ 39) : demand {[]} (needsOf virts) + 1 = tableCount virts := by
  have hsplit : (needsOf virts).toFinset \ {[]} =
      (virts.map fun v => [idx0 v]).toFinset ∪ (virts.map fun v => [idx1 v, idx0 v]).toFinset := by
    ext p
    simp only [needsOf, needs, Finset.mem_sdiff, List.mem_toFinset, List.mem_flatMap, Finset.mem_singleton,
      Finset.mem_union, List.mem_map, List.mem_append, List.mem_singleton]
    constructor
    · rintro ⟨⟨v, hmem, rfl | rfl⟩, -⟩
      · exact .inl ⟨v, hmem, rfl⟩
      · exact .inr ⟨v, hmem, rfl⟩
    · rintro (⟨v, hmem, rfl⟩ | ⟨v, hmem, rfl⟩)
      · exact ⟨⟨v, hmem, .inl rfl⟩, List.cons_ne_nil _ _⟩
      · exact ⟨⟨v, hmem, .inr rfl⟩, List.cons_ne_nil _ _⟩
  have hd : Disjoint (virts.map fun v => [idx0 v]).toFinset (virts.map fun v => [idx1 v, idx0 v]).toFinset := by
    rw [Finset.disjoint_left]
    intro p hp hq
    simp only [List.mem_toFinset, List.mem_map] at hp hq
    obtain ⟨v, -, rfl⟩ := hp
    obtain ⟨w, -, hw⟩ := hq
    cases (List.cons.inj hw).2
  rw [demand, hsplit, Finset.card_union_of_disjoint hd, gigabytes_card hv, parts_card hv, tableCount]
  omega

theorem tableCount_append {more : List Nat} (hv : ∀ v ∈ virts, v < 2 ^ 39) (hm : ∀ v ∈ more, v < 2 ^ 39) :
    tableCount (virts ++ more) = tableCount virts + demand ({[]} ∪ (needsOf virts).toFinset) (needsOf more) := by
  have hneeds : needsOf (virts ++ more) = needsOf virts ++ needsOf more := List.flatMap_append
  rw [← demand_needsOf (List.forall_mem_append.mpr ⟨hv, hm⟩), ← demand_needsOf hv, hneeds, demand_append]
  omega

end Count

theorem length_heapPages (heapStart : Nat) : (heapPages heapStart).length = 2048 := by
  rw [heapPages, List.length_map, List.length_range]
  rfl

end Karg.TableDemand
