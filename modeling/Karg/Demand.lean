import Mathlib.Data.Finset.Card

namespace Karg.Demand

variable {α : Type} [DecidableEq α] {present : Finset α} {a : α}

/-- How many things have to be added to those present for all that are needed to be there. -/
def demand (present : Finset α) (needs : List α) : Nat := (needs.toFinset \ present).card

theorem demand_nil (present : Finset α) : demand present [] = 0 := by
  rw [demand, List.toFinset_nil, Finset.empty_sdiff, Finset.card_empty]

theorem demand_mem (h : a ∈ present) : demand present [a] = 0 := by
  rw [demand, Finset.card_eq_zero, Finset.sdiff_eq_empty_iff_subset]
  simpa using h

theorem demand_notMem (h : a ∉ present) : demand present [a] = 1 := by
  have hs : [a].toFinset \ present = {a} := by
    apply Finset.sdiff_eq_self_of_disjoint
    simpa using h
  rw [demand, hs, Finset.card_singleton]

/-- What is needed later is counted after what is needed first has been added. -/
theorem demand_append (present : Finset α) (needs more : List α) :
    demand present (needs ++ more) = demand present needs + demand (present ∪ needs.toFinset) more := by
  have hd : Disjoint (needs.toFinset \ present) (more.toFinset \ (present ∪ needs.toFinset)) := by
    rw [Finset.disjoint_left]
    intro x hx hy
    have hneeds := (Finset.mem_sdiff.mp hx).1
    exact (Finset.mem_sdiff.mp hy).2 (Finset.mem_union_right _ hneeds)
  rw [demand, demand, demand, ← Finset.card_union_of_disjoint hd]
  congr 1
  ext x
  simp only [List.toFinset_append, Finset.mem_sdiff, Finset.mem_union]
  tauto

theorem union_append (present : Finset α) (needs more : List α) :
    present ∪ (needs ++ more).toFinset = present ∪ needs.toFinset ∪ more.toFinset := by
  rw [List.toFinset_append, Finset.union_assoc]

theorem demand_le (present : Finset α) (needs : List α) : demand present needs ≤ needs.length :=
  (Finset.card_le_card Finset.sdiff_subset).trans (List.toFinset_card_le needs)

theorem card_map {β : Type} [DecidableEq β] {f : α → β} (hf : Function.Injective f) (xs : List α) :
    (xs.map f).toFinset.card = xs.toFinset.card := by
  have himage : (xs.map f).toFinset = xs.toFinset.image f := by
    ext y
    simp
  rw [himage, Finset.card_image_of_injective _ hf]

end Karg.Demand
