import Karg.Execution
import Karg.ListNode

namespace Karg.ListSequences

open LinkStore CircularList ListFamily ListNode Execution

variable {S N : Type} [Store S N] [DecidableEq N]

def listForEachNodes (fuel : Nat) (s : S) (head node : N) : Option (List N) :=
  match fuel with
  | 0 => none
  | fuel + 1 => if node = head then some [] else (listForEachNodes fuel s head (next s node)).map (node :: ·)

variable [LawfulStore S N]

/-- The functions of `list.h` on lists that hold the sequences `F`: what each of them
makes of the sequence of its list, all other sequences being kept. -/
structure Sequences (s : S) (H : N → Prop) (F : N → List N) : Prop where
  insert (h pos x : N) (l r : List N) : H h → F h = l ++ pos :: r → Fresh S H F x → Valid S x →
    Family (listInsert s pos x) H (Function.update F h (l ++ x :: pos :: r))
  insertEnd (h x : N) : H h → Fresh S H F x → Valid S x → Family (listInsert s h x) H (Function.update F h (F h ++ [x]))
  pushFront (h x : N) : H h → Fresh S H F x → Valid S x → Family (listPushFront s h x) H (Function.update F h (x :: F h))
  pushBack (h x : N) : H h → Fresh S H F x → Valid S x → Family (listPushBack s h x) H (Function.update F h (F h ++ [x]))
  remove (h x : N) (l r : List N) : H h → F h = l ++ x :: r → Family (listRemove s x) H (Function.update F h (l ++ r))
  removeInit (h x : N) (l r : List N) : H h → F h = l ++ x :: r →
    Family (listRemoveInit s x) H (Function.update F h (l ++ r)) ∧
      Circular (listRemoveInit s x) x [] ∧ listEmpty (listRemoveInit s x) x = true
  popFront (h x : N) (r : List N) : H h → F h = x :: r → Family (listPopFront s h) H (Function.update F h r)
  popBack (h x : N) (l : List N) : H h → F h = l ++ [x] → Family (listPopBack s h) H (Function.update F h l)
  empty (h : N) : H h → (listEmpty s h = true ↔ F h = [])
  isFront (h x : N) : H h → x ≠ h → (listIsFront s h x = true ↔ (F h).head? = some x)
  isBack (h x : N) : H h → x ≠ h → (listIsBack s h x = true ↔ (F h).getLast? = some x)
  forEach (h : N) : H h → Converges (fun fuel => listForEachNodes fuel s h (listFront s h)) (F h)

variable {s : S} {H : N → Prop} {F : N → List N} {h x : N} {l r : List N}

theorem forEachNodes_rest (hf : Family s H F) (hh : H h) (hF : F h = l ++ r) {fuel : Nat} (hfuel : r.length < fuel) :
    listForEachNodes fuel s h (r.headD h) = some r := by
  induction r generalizing l fuel with
  | nil =>
      obtain ⟨fuel, rfl⟩ := Nat.exists_eq_succ_of_ne_zero (Nat.ne_zero_of_lt hfuel)
      simp [listForEachNodes]
  | cons x r ih =>
      obtain ⟨fuel, rfl⟩ := Nat.exists_eq_succ_of_ne_zero (Nat.ne_zero_of_lt hfuel)
      obtain ⟨hne, hnext⟩ := family_next hf hh hF
      have hrest : F h = (l ++ [x]) ++ r := by rw [hF, List.append_assoc, List.singleton_append]
      rw [List.headD_cons, listForEachNodes, if_neg hne, hnext, ih hrest (Nat.lt_of_succ_lt_succ hfuel)]
      rfl

theorem family_forEach (hf : Family s H F) (hh : H h) :
    Converges (fun fuel => listForEachNodes fuel s h (listFront s h)) (F h) := by
  refine ⟨(F h).length + 1, fun fuel hfuel => ?_⟩
  rw [listFront, circular_next (hf.circular h hh)]
  exact forEachNodes_rest hf hh (List.nil_append _).symm hfuel

theorem family_removeInit (hf : Family s H F) (hh : H h) (hF : F h = l ++ x :: r) :
    Family (listRemoveInit s x) H (Function.update F h (l ++ r)) ∧
      Circular (listRemoveInit s x) x [] ∧ listEmpty (listRemoveInit s x) x = true := by
  have hall := family_listRemoveInit hf hh hF
  have hself : Circular (listRemoveInit s x) x [] := by
    have hc := hall.circular x (.inl rfl)
    rwa [Function.update_self] at hc
  refine ⟨?_, hself, ?_⟩
  · apply (hall.restrict fun h' hh' => .inr hh').congr
    intro h' hh'
    -- a node is not a head
    have hne : h' ≠ x := by
      rintro rfl
      exact apart_irrefl h' (hf.fresh_unlink hh hF h' hh' h' List.mem_cons_self)
    rw [Function.update_of_ne hne]
  · rw [family_listEmpty hall (.inl rfl), Function.update_self]
    rfl

theorem family_popFront (hf : Family s H F) (hh : H h) (hF : F h = x :: r) :
    Family (listPopFront s h) H (Function.update F h r) := by
  rw [listPopFront, listFront, circular_next (hf.circular h hh), hF]
  exact family_listRemove hf (l := []) hh hF

theorem family_popBack (hf : Family s H F) (hh : H h) (hF : F h = l ++ [x]) :
    Family (listPopBack s h) H (Function.update F h l) := by
  have hlast : listBack s h = x := by
    rw [listBack, circular_prev (hf.circular h hh), hF, List.getLastD_eq_getLast?, List.getLast?_concat, Option.getD_some]
  have hremove := family_listRemove hf (r := []) hh hF
  rw [List.append_nil] at hremove
  rwa [listPopBack, hlast]

theorem family_isFront (hf : Family s H F) (hh : H h) (hx : x ≠ h) :
    listIsFront s h x = true ↔ (F h).head? = some x := by
  rw [listIsFront, decide_eq_true_iff, circular_next (hf.circular h hh)]
  cases F h with
  | nil => simpa using hx.symm
  | cons y r => simp

theorem family_isBack (hf : Family s H F) (hh : H h) (hx : x ≠ h) :
    listIsBack s h x = true ↔ (F h).getLast? = some x := by
  rw [listIsBack, decide_eq_true_iff, circular_prev (hf.circular h hh), List.getLastD_eq_getLast?]
  cases (F h).getLast? with
  | none => simpa using hx.symm
  | some y => simp

/-- The functions of `list.h` refine those on sequences. -/
theorem lists_refine_sequences (hf : Family s H F) : Sequences s H F where
  insert _ _ _ _ _ hh hF hx hv := family_listInsert hf hh hF hx hv
  insertEnd _ _ hh hx hv := family_listPushBack hf hh hx hv
  pushFront _ _ hh hx hv := family_listPushFront hf hh hx hv
  pushBack _ _ hh hx hv := family_listPushBack hf hh hx hv
  remove _ _ _ _ hh hF := family_listRemove hf hh hF
  removeInit _ _ _ _ hh hF := family_removeInit hf hh hF
  popFront _ _ _ hh hF := family_popFront hf hh hF
  popBack _ _ _ hh hF := family_popBack hf hh hF
  empty h hh := by rw [family_listEmpty hf hh, List.isEmpty_iff]
  isFront _ _ hh hx := family_isFront hf hh hx
  isBack _ _ hh hx := family_isBack hf hh hx
  forEach _ hh := family_forEach hf hh

theorem two_lists : Family (⟨fun n => if n = 0 then 1 else if n = 1 then 2 else if n = 2 then 0 else n,
    fun n => if n = 0 then 2 else if n = 1 then 0 else if n = 2 then 1 else n⟩ : Links Nat)
    (fun h => h = 0 ∨ h = 10) (fun h => if h = 0 then [1, 2] else []) where
  circular h hh := by
    rcases hh with rfl | rfl
    · exact List.isChain_cons_cons.mpr ⟨⟨rfl, rfl⟩, List.isChain_cons_cons.mpr ⟨⟨rfl, rfl⟩,
        List.isChain_cons_cons.mpr ⟨⟨rfl, rfl⟩, .singleton 0⟩⟩⟩
    · exact List.isChain_cons_cons.mpr ⟨⟨rfl, rfl⟩, .singleton 10⟩
  apart h hh := by
    rcases hh with rfl | rfl
    · exact (by decide : [0, 1, 2].Pairwise (· ≠ ·))
    · exact List.pairwise_singleton _ _
  disjoint h h' hh hh' hne x hx y hy := by
    rcases hh with rfl | rfl <;> rcases hh' with rfl | rfl <;> simp at hx hy hne <;>
      simp only [Apart] <;> omega
  valid _ _ _ _ := trivial

/-- The node 5 is put before the node 2, and the loop then visits 1, 5 and 2. -/
theorem lists_refine_sequences_insert : ∃ (s : Links Nat) (H : Nat → Prop) (F : Nat → List Nat),
    Family (listInsert s 2 5) H (Function.update F 0 [1, 5, 2]) ∧
      Converges (fun fuel => listForEachNodes fuel (listInsert s 2 5) 0 (listFront (listInsert s 2 5) 0)) [1, 5, 2] := by
  have hfresh : Fresh (Links Nat) (fun h => h = 0 ∨ h = 10) (fun h => if h = 0 then [1, 2] else []) 5 := by
    intro h hh y hy
    rcases hh with rfl | rfl <;> simp at hy <;> simp only [Apart] <;> omega
  have hins := (lists_refine_sequences two_lists).insert 0 2 5 [1] [] (.inl rfl) rfl hfresh trivial
  have hall := (lists_refine_sequences hins).forEach 0 (.inl rfl)
  rw [Function.update_self] at hall
  exact ⟨_, _, _, hins, hall⟩

end Karg.ListSequences
