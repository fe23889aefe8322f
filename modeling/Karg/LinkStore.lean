import Mathlib.Data.List.Chain

namespace Karg.LinkStore

/-- A store of intrusive links. Every node names a place that holds a forward
and a backward link, which are read and written one at a time. -/
class Store (S : Type) (N : outParam Type) where
  next : S → N → N
  prev : S → N → N
  setNext : S → N → N → S
  setPrev : S → N → N → S

export Store (next prev setNext setPrev)

/-- Writes to one node are invisible at every node apart from it. Two nodes may
be distinct without being apart, when their places overlap in memory. -/
class LawfulStore (S : Type) (N : outParam Type) [Store S N] where
  Apart : N → N → Prop
  Valid : N → Prop
  apart_symm {a b : N} : Apart a b → Apart b a
  apart_irrefl (a : N) : ¬ Apart a a
  next_setNext (s : S) {a v : N} : Valid v → next (setNext s a v) a = v
  prev_setPrev (s : S) {a v : N} : Valid v → prev (setPrev s a v) a = v
  next_setNext_apart (s : S) {a b : N} (v : N) : Apart a b → next (setNext s a v) b = next s b
  prev_setPrev_apart (s : S) {a b : N} (v : N) : Apart a b → prev (setPrev s a v) b = prev s b
  prev_setNext (s : S) {a b : N} (v : N) : b = a ∨ Apart a b → prev (setNext s a v) b = prev s b
  next_setPrev (s : S) {a b : N} (v : N) : b = a ∨ Apart a b → next (setPrev s a v) b = next s b

export LawfulStore (Apart Valid apart_symm apart_irrefl next_setNext prev_setPrev
  next_setNext_apart prev_setPrev_apart prev_setNext next_setPrev)

instance {S N : Type} [Store S N] [LawfulStore S N] : Std.Symm (Apart S (N := N)) := ⟨fun _ _ => apart_symm⟩

structure Links (N : Type) where
  next : N → N
  prev : N → N

variable {N : Type} [DecidableEq N]

instance : Store (Links N) N where
  next := Links.next
  prev := Links.prev
  setNext s a v := ⟨Function.update s.next a v, s.prev⟩
  setPrev s a v := ⟨s.next, Function.update s.prev a v⟩

instance : LawfulStore (Links N) N where
  Apart a b := a ≠ b
  Valid _ := True
  apart_symm := Ne.symm
  apart_irrefl _ h := h rfl
  next_setNext _ _ _ _ := Function.update_self ..
  prev_setPrev _ _ _ _ := Function.update_self ..
  next_setNext_apart _ _ _ _ h := Function.update_of_ne h.symm ..
  prev_setPrev_apart _ _ _ _ h := Function.update_of_ne h.symm ..
  prev_setNext _ _ _ _ _ := rfl
  next_setPrev _ _ _ _ _ := rfl

end Karg.LinkStore
