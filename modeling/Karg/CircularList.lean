import Karg.LinkStore

namespace Karg.CircularList

open LinkStore

variable {S N : Type} [Store S N]

def Linked (s : S) (a b : N) : Prop := next s a = b ∧ prev s b = a

/-- The links of `s` hold the elements of `xs`, in this order, on the ring
through the head `h`. -/
def Circular (s : S) (h : N) (xs : List N) : Prop := (h :: xs ++ [h]).IsChain (Linked s)

def Agree (s s' : S) (x : N) : Prop := next s' x = next s x ∧ prev s' x = prev s x

theorem chain_transport {s s' : S} {xs : List N} (h : xs.IsChain (Linked s))
    (hnext : ∀ x ∈ xs.dropLast, next s' x = next s x) (hprev : ∀ x ∈ xs.tail, prev s' x = prev s x) :
    xs.IsChain (Linked s') := by
  induction xs with
  | nil => exact .nil
  | cons a xs ih =>
      cases xs with
      | nil => exact .singleton a
      | cons b xs =>
          obtain ⟨⟨hab, hba⟩, hc⟩ := List.isChain_cons_cons.mp h
          simp only [List.dropLast_cons_cons, List.mem_cons, List.tail_cons, forall_eq_or_imp] at hnext hprev
          exact List.isChain_cons_cons.mpr
            ⟨⟨hnext.1.trans hab, hprev.1.trans hba⟩, ih hc hnext.2 hprev.2⟩

theorem circular_transport {s s' : S} {h : N} {xs : List N} (hc : Circular s h xs)
    (ha : ∀ x ∈ h :: xs, Agree s s' x) : Circular s' h xs := by
  apply chain_transport hc
  · intro x hx
    rw [List.dropLast_concat] at hx
    exact (ha x hx).1
  · intro x hx
    have hx' : x ∈ h :: xs := by
      simp only [List.cons_append, List.tail_cons, List.mem_append, List.mem_singleton] at hx
      exact List.mem_cons.mpr hx.symm
    exact (ha x hx').2

theorem circular_append {s : S} {h : N} {l r : List N} :
    Circular s h (l ++ r) ↔ (h :: l).IsChain (Linked s) ∧ (r ++ [h]).IsChain (Linked s) ∧
      Linked s (l.getLastD h) (r.headD h) := by
  rw [Circular, List.cons_append, List.append_assoc, ← List.cons_append, List.isChain_append,
    List.getLast?_cons]
  cases r <;> simp [List.getLastD_eq_getLast?]

theorem circular_next {s : S} {h : N} {xs : List N} (hc : Circular s h xs) : next s h = xs.headD h :=
  (circular_append (l := []).mp hc).2.2.1

theorem circular_unique {s : S} {h : N} {xs ys : List N} (hx : Circular s h xs) (hy : Circular s h ys)
    (hxs : h ∉ xs) (hys : h ∉ ys) : xs = ys := by
  have hgen : ∀ (a : N) (xs ys : List N), (a :: xs ++ [h]).IsChain (Linked s) → (a :: ys ++ [h]).IsChain (Linked s) →
      h ∉ xs → h ∉ ys → xs = ys := by
    intro a xs
    induction xs generalizing a with
    | nil =>
        intro ys hx hy _ hys
        cases ys with
        | nil => rfl
        | cons y ys =>
            have hn := (List.isChain_cons_cons.mp hx).1.1.symm.trans (List.isChain_cons_cons.mp hy).1.1
            exact absurd (hn ▸ List.mem_cons_self) hys
    | cons x xs ih =>
        intro ys hx hy hxs hys
        cases ys with
        | nil =>
            have hn := (List.isChain_cons_cons.mp hx).1.1.symm.trans (List.isChain_cons_cons.mp hy).1.1
            exact absurd (hn ▸ List.mem_cons_self) hxs
        | cons y ys =>
            obtain ⟨hax, hx⟩ := List.isChain_cons_cons.mp hx
            obtain ⟨hay, hy⟩ := List.isChain_cons_cons.mp hy
            obtain rfl := hax.1.symm.trans hay.1
            rw [ih x ys hx hy (fun hm => hxs (List.mem_cons_of_mem _ hm)) fun hm => hys (List.mem_cons_of_mem _ hm)]
  exact hgen h xs ys hx hy hxs hys

theorem circular_prev {s : S} {h : N} {xs : List N} (hc : Circular s h xs) : prev s h = xs.getLastD h := by
  rw [← List.append_nil xs] at hc
  exact (circular_append.mp hc).2.2.2

theorem circular_next_mem {s : S} {h x : N} {l r : List N} (hc : Circular s h (l ++ x :: r)) :
    next s x = r.headD h := by
  rw [List.append_cons] at hc
  simpa using (circular_append.mp hc).2.2.1

theorem circular_prev_mem {s : S} {h x : N} {l r : List N} (hc : Circular s h (l ++ x :: r)) :
    prev s x = l.getLastD h :=
  (circular_append.mp hc).2.2.2

theorem circular_link {s s' : S} {h x : N} {l r : List N} (hc : Circular s h (l ++ r))
    (hbefore : Linked s' (l.getLastD h) x) (hafter : Linked s' x (r.headD h))
    (hnext : ∀ y ∈ (h :: l).dropLast ++ r, next s' y = next s y)
    (hprev : ∀ y ∈ l ++ (r ++ [h]).tail, prev s' y = prev s y) : Circular s' h (l ++ x :: r) := by
  obtain ⟨hl, hr, -⟩ := circular_append.mp hc
  have hl' : (h :: l).IsChain (Linked s') :=
    chain_transport hl (fun y hy => hnext y (by simp [hy])) (fun y hy => hprev y (by
      rw [List.tail_cons] at hy; simp [hy]))
  have hr' : (r ++ [h]).IsChain (Linked s') := by
    refine chain_transport hr (fun y hy => hnext y ?_) (fun y hy => hprev y (by simp [hy]))
    rw [List.dropLast_concat] at hy
    simp [hy]
  refine circular_append.mpr ⟨hl', ?_, hbefore⟩
  rw [List.cons_append, List.isChain_cons]
  refine ⟨?_, hr'⟩
  cases r <;> simpa using hafter

theorem circular_unlink {s s' : S} {h x : N} {l r : List N} (hc : Circular s h (l ++ x :: r))
    (hacross : Linked s' (l.getLastD h) (r.headD h))
    (hnext : ∀ y ∈ (h :: l).dropLast ++ r, next s' y = next s y)
    (hprev : ∀ y ∈ l ++ (r ++ [h]).tail, prev s' y = prev s y) : Circular s' h (l ++ r) := by
  obtain ⟨hl, hr, -⟩ := circular_append.mp hc
  have hr0 : (r ++ [h]).IsChain (Linked s) := (List.isChain_cons.mp hr).2
  refine circular_append.mpr ⟨?_, ?_, hacross⟩
  · exact chain_transport hl (fun y hy => hnext y (by simp [hy])) (fun y hy => hprev y (by
      rw [List.tail_cons] at hy; simp [hy]))
  · refine chain_transport hr0 (fun y hy => hnext y ?_) (fun y hy => hprev y (by simp [hy]))
    rw [List.dropLast_concat] at hy
    simp [hy]

end Karg.CircularList
