import Mathlib.Data.List.Pairwise

namespace Karg.StableInsertion

variable {α β : Type}

def insertBefore (p : α → Bool) (x : α) (xs : List α) : List α :=
  xs.takeWhile (fun y => !p y) ++ x :: xs.dropWhile (fun y => !p y)

theorem headD_dropWhile (f : α → β) (p : α → Bool) (xs : List α) (b : β) :
    ((xs.dropWhile fun y => !p y).map f).headD b = ((xs.find? p).map f).getD b := by
  induction xs with
  | nil => rfl
  | cons x xs ih => cases hp : p x <;> simp_all

theorem mem_insertBefore {p : α → Bool} {x y : α} {xs : List α} : y ∈ insertBefore p x xs ↔ y = x ∨ y ∈ xs := by
  have h := List.takeWhile_append_dropWhile (p := fun y => !p y) (l := xs)
  have hy : y ∈ xs ↔ y ∈ xs.takeWhile (fun y => !p y) ∨ y ∈ xs.dropWhile (fun y => !p y) := by
    rw [← List.mem_append, h]
  rw [insertBefore, hy, List.mem_append, List.mem_cons]
  exact or_left_comm

theorem head?_insertBefore (p : α → Bool) (x : α) (xs : List α) :
    (insertBefore p x xs).head? = some x ∨ (insertBefore p x xs).head? = xs.head? := by
  cases xs with
  | nil => exact .inl rfl
  | cons y xs => cases hp : p y <;> simp [insertBefore, hp]

/-- Inserting before the first element that has to come later keeps the list
ordered, when what has to come later than `x` is closed upwards. -/
theorem pairwise_insertBefore {R : α → α → Prop} {p : α → Bool} {x : α} {xs : List α} (h : xs.Pairwise R)
    (hup : ∀ y z, R y z → p y → p z) (hbefore : ∀ y ∈ xs, p y = false → R y x)
    (hafter : ∀ y ∈ xs, p y → R x y) : (insertBefore p x xs).Pairwise R := by
  induction xs with
  | nil => simp [insertBefore]
  | cons y xs ih =>
      obtain ⟨hy, hxs⟩ := List.pairwise_cons.mp h
      cases hp : p y with
      | true =>
          have he : insertBefore p x (y :: xs) = x :: y :: xs := by simp [insertBefore, hp]
          rw [he, List.pairwise_cons]
          refine ⟨fun z hz => hafter z hz ?_, h⟩
          rcases List.mem_cons.mp hz with rfl | hz
          · exact hp
          · exact hup y z (hy z hz) hp
      | false =>
          have he : insertBefore p x (y :: xs) = y :: insertBefore p x xs := by simp [insertBefore, hp]
          rw [he, List.pairwise_cons]
          refine ⟨fun z hz => ?_, ih hxs (fun z hz => hbefore z (by simp [hz])) fun z hz => hafter z (by simp [hz])⟩
          rcases mem_insertBefore.mp hz with rfl | hz
          · exact hbefore y (by simp) hp
          · exact hy z hz

end Karg.StableInsertion
