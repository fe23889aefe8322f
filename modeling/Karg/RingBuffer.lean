import Mathlib.Data.List.Basic

namespace Karg.RingBuffer

variable {α : Type} {cap head n : Nat} {cells : Nat → α}

def contents (cap : Nat) (cells : Nat → α) (head n : Nat) : List α :=
  (List.range n).map fun i => cells ((head + i) % cap)

@[simp] theorem length_contents (cap : Nat) (cells : Nat → α) (head n : Nat) :
    (contents cap cells head n).length = n := by
  rw [contents, List.length_map, List.length_range]

@[simp] theorem contents_zero (cap : Nat) (cells : Nat → α) (head : Nat) : contents cap cells head 0 = [] := rfl

theorem contents_succ (cap : Nat) (cells : Nat → α) (head n : Nat) :
    contents cap cells head (n + 1) = contents cap cells head n ++ [cells ((head + n) % cap)] := by
  simp only [contents, List.range_succ, List.map_append, List.map_cons, List.map_nil]

theorem contents_cons (hh : head < cap) :
    contents cap cells head (n + 1) = cells head :: contents cap cells ((head + 1) % cap) n := by
  simp only [contents, List.range_succ_eq_map, List.map_cons, List.map_map, Nat.add_zero, Nat.mod_eq_of_lt hh]
  congr 1
  apply List.map_congr_left
  intro i _
  simp only [Function.comp_apply, Nat.mod_add_mod, Nat.succ_eq_add_one]
  congr 2
  omega

theorem contents_add (cap : Nat) (cells : Nat → α) (head m n : Nat) :
    contents cap cells head (m + n) = contents cap cells head m ++ contents cap cells ((head + m) % cap) n := by
  induction n with
  | zero => rw [Nat.add_zero, contents_zero, List.append_nil]
  | succ n ih => rw [← Nat.add_assoc, contents_succ, ih, contents_succ, Nat.mod_add_mod, Nat.add_assoc, List.append_assoc]

theorem contents_unwrapped (h : head + n ≤ cap) : contents cap cells head n = (List.range' head n).map cells := by
  rw [contents, List.range'_eq_map_range, List.map_map]
  apply List.map_congr_left
  intro i hi
  rw [List.mem_range] at hi
  rw [Function.comp_apply, Nat.mod_eq_of_lt (by omega)]

theorem contents_update (hn : n < cap) (v : α) :
    contents cap (Function.update cells ((head + n) % cap) v) head n = contents cap cells head n := by
  simp only [contents]
  apply List.map_congr_left
  intro i hi
  rw [List.mem_range] at hi
  apply Function.update_of_ne
  intro he
  have hd : (head + n) % cap = (head + i) % cap := he.symm
  have hmod := Nat.sub_mod_eq_zero_of_mod_eq hd
  rw [Nat.add_sub_add_left, Nat.mod_eq_of_lt (by omega)] at hmod
  omega

theorem contents_push (hn : n < cap) (v : α) :
    contents cap (Function.update cells ((head + n) % cap) v) head (n + 1) = contents cap cells head n ++ [v] := by
  rw [contents_succ, contents_update hn, Function.update_self]

theorem contents_shift (hh : head < cap) (hn : n < cap) (v : α) :
    contents cap (Function.update cells ((head + n) % cap) v) ((head + 1) % cap) n =
      (contents cap cells head n ++ [v]).tail := by
  rw [← contents_push hn, contents_cons hh, List.tail_cons]

theorem used_eq (hh : head < cap) (hn : n < cap) : ((head + n) % cap + cap - head) % cap = n := by
  by_cases hlt : head + n < cap
  · rw [Nat.mod_eq_of_lt hlt, show head + n + cap - head = n + cap by omega, Nat.add_mod_right, Nat.mod_eq_of_lt hn]
  · have hm : (head + n) % cap = head + n - cap := by
      rw [Nat.mod_eq_sub_mod (by omega), Nat.mod_eq_of_lt (by omega)]
    rw [hm, show head + n - cap + cap - head = n by omega, Nat.mod_eq_of_lt hn]

end Karg.RingBuffer
