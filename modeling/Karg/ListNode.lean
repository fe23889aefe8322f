import Karg.ListFamily

namespace Karg.ListNode

open LinkStore CircularList ListFamily

variable {S N : Type} [Store S N]

def listInitHead (s : S) (head : N) : S :=
  let s := setPrev s head head
  setNext s head head

def listFront (s : S) (head : N) : N := next s head

def listBack (s : S) (head : N) : N := prev s head

def listInsert (s : S) (pos node : N) : S :=
  let s := setNext s (prev s pos) node
  let s := setPrev s node (prev s pos)
  let s := setNext s node pos
  setPrev s pos node

def listPushFront (s : S) (head node : N) : S := listInsert s (listFront s head) node

def listPushBack (s : S) (head node : N) : S := listInsert s head node

def listRemove (s : S) (node : N) : S :=
  let s := setNext s (prev s node) (next s node)
  setPrev s (next s node) (prev s node)

def listRemoveInit (s : S) (node : N) : S :=
  let s := listRemove s node
  let s := setPrev s node node
  setNext s node node

def listPopFront (s : S) (head : N) : S := listRemove s (listFront s head)

def listPopBack (s : S) (head : N) : S := listRemove s (listBack s head)

section Tests

variable [DecidableEq N]

def listEmpty (s : S) (head : N) : Bool := head = listFront s head

def listIsFront (s : S) (head node : N) : Bool := next s head = node

def listIsBack (s : S) (head node : N) : Bool := prev s head = node

/-- The cursor of `list_for_each` from `node` on, when the body leaves the loop
at the first node with `p`. The head is the cursor of a finished loop, and
`none` that of a loop still running after `fuel` rounds. -/
def listForEach (fuel : Nat) (s : S) (head : N) (p : N → Bool) (node : N) : Option N :=
  match fuel with
  | 0 => none
  | fuel + 1 =>
      if node = head then some head
      else if p node then some node
      else listForEach fuel s head p (next s node)

end Tests

variable [LawfulStore S N] {s : S} {H : N → Prop} {F : N → List N}

theorem listInsert_links {pos before node : N} (hprev : prev s pos = before) (hbv : Valid S before)
    (hpv : Valid S pos) (hnv : Valid S node) (hb : Apart S node before) (hp : Apart S node pos)
    (hbp : pos = before ∨ Apart S before pos) :
    Linked (listInsert s pos node) before node ∧ Linked (listInsert s pos node) node pos ∧
      Edit s (listInsert s pos node) before node pos := by
  have h1 : prev (setNext s before node) pos = before := by rw [prev_setNext s node hbp, hprev]
  have hpb : before = pos ∨ Apart S pos before := hbp.imp Eq.symm apart_symm
  simp only [listInsert, hprev, h1]
  refine ⟨⟨?_, ?_⟩, ⟨?_, ?_⟩, ⟨?_, ?_⟩⟩
  · rw [next_setPrev _ _ hpb, next_setNext_apart _ _ hb, next_setPrev _ _ (.inr hb), next_setNext _ hnv]
  · rw [prev_setPrev_apart _ _ (apart_symm hp), prev_setNext _ _ (.inl rfl), prev_setPrev _ hbv]
  · rw [next_setPrev _ _ (.inr (apart_symm hp)), next_setNext _ hpv]
  · rw [prev_setPrev _ hnv]
  · intro y hby hny hpy
    rw [next_setPrev _ _ hpy, next_setNext_apart _ _ hny, next_setPrev _ _ (.inr hny), next_setNext_apart _ _ hby]
  · intro y hpy hny hby
    rw [prev_setPrev_apart _ _ hpy, prev_setNext _ _ (.inr hny), prev_setPrev_apart _ _ hny, prev_setNext _ _ hby]

theorem listRemove_links {before node after : N} (hprev : prev s node = before) (hnext : next s node = after)
    (hbv : Valid S before) (hav : Valid S after) (hb : Apart S node before)
    (hba : after = before ∨ Apart S before after) :
    Linked (listRemove s node) before after ∧ Edit s (listRemove s node) before node after := by
  have h1 : next (setNext s before after) node = after := by rw [next_setNext_apart _ _ (apart_symm hb), hnext]
  have h2 : prev (setNext s before after) node = before := by rw [prev_setNext _ _ (.inr (apart_symm hb)), hprev]
  have hab : before = after ∨ Apart S after before := hba.imp Eq.symm apart_symm
  simp only [listRemove, hprev, hnext, h1, h2]
  refine ⟨⟨?_, ?_⟩, ⟨?_, ?_⟩⟩
  · rw [next_setPrev _ _ hab, next_setNext _ hav]
  · rw [prev_setPrev _ hbv]
  · intro y hby _ hay
    rw [next_setPrev _ _ hay, next_setNext_apart _ _ hby]
  · intro y hay _ hby
    rw [prev_setPrev_apart _ _ hay, prev_setNext _ _ hby]

theorem family_prev (hf : Family s H F) {h : N} {l r : List N} (hh : H h) (hF : F h = l ++ r) :
    prev s (r.headD h) = l.getLastD h := by
  have hc := hf.circular h hh
  rw [hF] at hc
  exact (circular_append.mp hc).2.2.2

theorem family_next (hf : Family s H F) {h x : N} {l r : List N} (hh : H h) (hF : F h = l ++ x :: r) :
    x ≠ h ∧ next s x = r.headD h := by
  have hc := hf.circular h hh
  rw [hF] at hc
  refine ⟨?_, circular_next_mem hc⟩
  rintro rfl
  exact hf.head_not_mem hh (by simp [hF])

variable [DecidableEq N]

theorem family_listInsert (hf : Family s H F) {h x : N} {l r : List N} (hh : H h) (hF : F h = l ++ r)
    (hx : Fresh S H F x) (hv : Valid S x) :
    Family (listInsert s (r.headD h) x) H (Function.update F h (l ++ x :: r)) := by
  obtain ⟨hb, ha⟩ := gap_mem (h := h) (l := l) (r := r)
  rw [← hF] at hb ha
  obtain ⟨hbefore, hafter, he⟩ := listInsert_links (family_prev hf hh hF) (hf.valid h hh _ hb)
    (hf.valid h hh _ ha) hv (hx h hh _ hb) (hx h hh _ ha) (hf.eq_or_apart hh hh hb ha)
  exact hf.link hh hF hx hv hbefore hafter he

theorem family_listPushFront (hf : Family s H F) {h x : N} (hh : H h) (hx : Fresh S H F x) (hv : Valid S x) :
    Family (listPushFront s h x) H (Function.update F h (x :: F h)) := by
  rw [listPushFront, listFront, circular_next (hf.circular h hh)]
  exact family_listInsert hf (l := []) hh rfl hx hv

theorem family_listPushBack (hf : Family s H F) {h x : N} (hh : H h) (hx : Fresh S H F x) (hv : Valid S x) :
    Family (listPushBack s h x) H (Function.update F h (F h ++ [x])) :=
  family_listInsert hf (r := []) hh (List.append_nil _).symm hx hv

theorem family_remove_links (hf : Family s H F) {h x : N} {l r : List N} (hh : H h) (hF : F h = l ++ x :: r) :
    Linked (listRemove s x) (l.getLastD h) (r.headD h) ∧ Edit s (listRemove s x) (l.getLastD h) x (r.headD h) := by
  have hc := hf.circular h hh
  rw [hF] at hc
  obtain ⟨hb, ha⟩ := gap_mem (h := h) (l := l) (r := r)
  have hfresh := hf.fresh_unlink hh hF h hh
  rw [Function.update_self] at hfresh
  have hsub : ∀ y, y ∈ h :: (l ++ r) → y ∈ h :: F h := by
    intro y; rw [hF]; simp only [List.mem_cons, List.mem_append]; tauto
  exact listRemove_links (circular_prev_mem hc) (circular_next_mem hc) (hf.valid h hh _ (hsub _ hb))
    (hf.valid h hh _ (hsub _ ha)) (hfresh _ hb) (hf.eq_or_apart hh hh (hsub _ hb) (hsub _ ha))

theorem family_listRemove (hf : Family s H F) {h x : N} {l r : List N} (hh : H h) (hF : F h = l ++ x :: r) :
    Family (listRemove s x) H (Function.update F h (l ++ r)) :=
  hf.unlink hh hF (family_remove_links hf hh hF).1 (family_remove_links hf hh hF).2

theorem family_initHead (hf : Family s H F) {h : N} (hx : Fresh S H F h) (hv : Valid S h) :
    Family (listInitHead s h) (fun h' => h' = h ∨ H h') (Function.update F h []) := by
  have hn : next (listInitHead s h) h = h := next_setNext _ hv
  have hp : prev (listInitHead s h) h = h := by
    rw [listInitHead, prev_setNext _ _ (.inl rfl), prev_setPrev _ hv]
  have hc : Circular (listInitHead s h) h [] := List.isChain_cons_cons.mpr ⟨⟨hn, hp⟩, .singleton h⟩
  refine hf.update hc (List.pairwise_singleton _ _) ?_ ?_ ?_
  · simpa using hv
  · simpa using fun h' hh' _ => hx h' hh'
  · intro h' hh' _ y hy
    have ha := hx h' hh' y hy
    exact ⟨by rw [listInitHead, next_setNext_apart _ _ ha, next_setPrev _ _ (.inr ha)],
      by rw [listInitHead, prev_setNext _ _ (.inr ha), prev_setPrev_apart _ _ ha]⟩

theorem family_listRemoveInit (hf : Family s H F) {h x : N} {l r : List N} (hh : H h) (hF : F h = l ++ x :: r) :
    Family (listRemoveInit s x) (fun h' => h' = x ∨ H h')
      (Function.update (Function.update F h (l ++ r)) x []) :=
  family_initHead (family_listRemove hf hh hF) (hf.fresh_unlink hh hF) (hf.valid h hh x (by simp [hF]))

theorem family_listEmpty (hf : Family s H F) {h : N} (hh : H h) : listEmpty s h = (F h).isEmpty := by
  rw [listEmpty, listFront, circular_next (hf.circular h hh)]
  cases hF : F h with
  | nil => simp
  | cons x r =>
      have hne := (family_next hf hh (l := []) hF).1
      simpa using hne.symm

theorem family_listForEach (hf : Family s H F) {h : N} (hh : H h) (p : N → Bool) {l r : List N}
    (hF : F h = l ++ r) {fuel : Nat} (hfuel : r.length < fuel) :
    listForEach fuel s h p (r.headD h) = some ((r.find? p).getD h) := by
  induction r generalizing l fuel with
  | nil =>
      obtain ⟨fuel, rfl⟩ := Nat.exists_eq_succ_of_ne_zero (Nat.ne_zero_of_lt hfuel)
      simp [listForEach]
  | cons x r ih =>
      obtain ⟨fuel, rfl⟩ := Nat.exists_eq_succ_of_ne_zero (Nat.ne_zero_of_lt hfuel)
      obtain ⟨hne, hnext⟩ := family_next hf hh hF
      have hlt : r.length < fuel := by simpa using hfuel
      have hi := ih (l := l ++ [x]) (by simpa using hF) hlt
      simp only [List.headD_cons, listForEach, hne, ↓reduceIte, hnext, hi, List.find?_cons]
      cases p x <;> simp

end Karg.ListNode
