import Karg.CircularList

namespace Karg.ListFamily

open LinkStore CircularList

variable {S N : Type} [Store S N] [LawfulStore S N]

/-- The rings through the heads `H` hold the sequences `F`, and no two places
on these rings overlap. -/
structure Family (s : S) (H : N → Prop) (F : N → List N) : Prop where
  circular (h : N) : H h → Circular s h (F h)
  apart (h : N) : H h → (h :: F h).Pairwise (Apart S)
  disjoint (h h' : N) : H h → H h' → h ≠ h' → ∀ x ∈ h :: F h, ∀ y ∈ h' :: F h', Apart S x y
  valid (h : N) : H h → ∀ x ∈ h :: F h, Valid S x

variable (S) in
def Fresh (H : N → Prop) (F : N → List N) (x : N) : Prop := ∀ h, H h → ∀ y ∈ h :: F h, Apart S x y

variable {s s' : S} {H : N → Prop} {F : N → List N}

theorem Family.eq_or_apart (hf : Family s H F) {h h' x y : N} (hh : H h) (hh' : H h')
    (hx : x ∈ h :: F h) (hy : y ∈ h' :: F h') : y = x ∨ Apart S x y := by
  by_cases hyx : y = x
  · exact .inl hyx
  · by_cases he : h = h'
    · subst he
      exact .inr ((hf.apart h hh).forall hx hy (Ne.symm hyx))
    · exact .inr (hf.disjoint h h' hh hh' he x hx y hy)

theorem Family.head_not_mem (hf : Family s H F) {h : N} (hh : H h) : h ∉ F h := by
  intro hm
  exact apart_irrefl h ((List.pairwise_cons.mp (hf.apart h hh)).1 h hm)

theorem Family.restrict (hf : Family s H F) {H' : N → Prop} (hH : ∀ h, H' h → H h) : Family s H' F where
  circular h hh := hf.circular h (hH h hh)
  apart h hh := hf.apart h (hH h hh)
  disjoint h h' hh hh' := hf.disjoint h h' (hH h hh) (hH h' hh')
  valid h hh := hf.valid h (hH h hh)

theorem Family.congr (hf : Family s H F) {F' : N → List N} (hF : ∀ h, H h → F' h = F h) : Family s H F' where
  circular h hh := by rw [hF h hh]; exact hf.circular h hh
  apart h hh := by rw [hF h hh]; exact hf.apart h hh
  disjoint h h' hh hh' := by rw [hF h hh, hF h' hh']; exact hf.disjoint h h' hh hh'
  valid h hh := by rw [hF h hh]; exact hf.valid h hh

theorem family_nil {h : N} (hc : Circular s h []) (hv : Valid S h) (hH : ∀ h', H h' → h' = h)
    (hF : ∀ h', F h' = []) : Family s H F := by
  constructor
  · intro h' hh'
    obtain rfl := hH h' hh'
    rwa [hF]
  · intro h' _
    rw [hF]
    exact List.pairwise_singleton _ _
  · intro h₁ h₂ hh₁ hh₂ hne
    exact absurd ((hH h₁ hh₁).trans (hH h₂ hh₂).symm) hne
  · intro h' hh' x hx
    rw [hF, List.mem_singleton] at hx
    rw [hx, hH h' hh']
    exact hv

section Update

variable [DecidableEq N]

/-- One ring is rewritten; all others keep their links. -/
theorem Family.update (hf : Family s H F) {h : N} {ys : List N} (hc : Circular s' h ys)
    (hp : (h :: ys).Pairwise (Apart S)) (hv : ∀ y ∈ h :: ys, Valid S y)
    (hd : ∀ h', H h' → h' ≠ h → ∀ x ∈ h :: ys, ∀ y ∈ h' :: F h', Apart S x y)
    (ha : ∀ h', H h' → h' ≠ h → ∀ y ∈ h' :: F h', Agree s s' y) :
    Family s' (fun h' => h' = h ∨ H h') (Function.update F h ys) := by
  have hH : ∀ h', h' = h ∨ H h' → h' ≠ h → H h' := fun h' ho hne => ho.resolve_left hne
  constructor
  · intro h' hh'
    by_cases hne : h' = h
    · subst hne; rwa [Function.update_self]
    · rw [Function.update_of_ne hne]
      exact circular_transport (hf.circular h' (hH h' hh' hne)) (ha h' (hH h' hh' hne) hne)
  · intro h' hh'
    by_cases hne : h' = h
    · subst hne; rwa [Function.update_self]
    · rw [Function.update_of_ne hne]
      exact hf.apart h' (hH h' hh' hne)
  · intro h₁ h₂ hh₁ hh₂ hne x hx y hy
    by_cases h1 : h₁ = h
    · subst h1
      rw [Function.update_self] at hx
      rw [Function.update_of_ne hne.symm] at hy
      exact hd h₂ (hH h₂ hh₂ hne.symm) hne.symm x hx y hy
    · rw [Function.update_of_ne h1] at hx
      by_cases h2 : h₂ = h
      · subst h2
        rw [Function.update_self] at hy
        exact apart_symm (hd h₁ (hH h₁ hh₁ h1) h1 y hy x hx)
      · rw [Function.update_of_ne h2] at hy
        exact hf.disjoint h₁ h₂ (hH h₁ hh₁ h1) (hH h₂ hh₂ h2) hne x hx y hy
  · intro h' hh' y hy
    by_cases hne : h' = h
    · subst hne
      rw [Function.update_self] at hy
      exact hv y hy
    · rw [Function.update_of_ne hne] at hy
      exact hf.valid h' (hH h' hh' hne) y hy

end Update

/-- The links that an edit between two neighbours leaves alone: forward links
away from the left neighbour, backward links away from the right one. -/
structure Edit (s s' : S) (before x after : N) : Prop where
  next_eq (y : N) : Apart S before y → Apart S x y → (y = after ∨ Apart S after y) → next s' y = next s y
  prev_eq (y : N) : Apart S after y → Apart S x y → (y = before ∨ Apart S before y) → prev s' y = prev s y

theorem gap_mem {h : N} {l r : List N} : l.getLastD h ∈ h :: (l ++ r) ∧ r.headD h ∈ h :: (l ++ r) := by
  constructor
  · rw [← List.cons_append]
    exact List.mem_append_left _ List.getLastD_mem_cons
  · cases r <;> simp

theorem gap_apart {h : N} {l r : List N} (hp : (h :: (l ++ r)).Pairwise (Apart S)) :
    (∀ y ∈ (h :: l).dropLast ++ r, Apart S (l.getLastD h) y) ∧
      (∀ y ∈ l ++ (r ++ [h]).tail, Apart S (r.headD h) y) := by
  constructor
  · have he : h :: (l ++ r) = (h :: l).dropLast ++ (l.getLastD h :: r) := by
      rw [List.append_cons, ← List.getLast_eq_getLastD (by simp), List.dropLast_append_getLast]
      rfl
    rw [he, List.pairwise_append, List.pairwise_cons] at hp
    intro y hy
    rcases List.mem_append.mp hy with hy | hy
    · exact apart_symm (hp.2.2 y hy _ (by simp))
    · exact hp.2.1.1 y hy
  · intro y hy
    rw [List.pairwise_cons, List.pairwise_append] at hp
    obtain ⟨hh, -, hr, hlr⟩ := hp
    cases r with
    | nil =>
        simp only [List.nil_append, List.tail_cons, List.append_nil] at hy
        exact hh y (by simp [hy])
    | cons c r =>
        simp only [List.cons_append, List.tail_cons, List.mem_append, List.mem_singleton] at hy
        rcases hy with hy | hy | rfl
        · exact apart_symm (hlr y hy c (by simp))
        · exact (List.pairwise_cons.mp hr).1 y hy
        · exact apart_symm (hh c (by simp))

theorem mem_dropLast_append {h y : N} {l r : List N} (hy : y ∈ (h :: l).dropLast ++ r) : y ∈ h :: (l ++ r) := by
  rw [← List.cons_append]
  exact List.mem_append.mpr ((List.mem_append.mp hy).imp_left fun hy => List.dropLast_subset _ hy)

theorem mem_append_tail {h y : N} {l r : List N} (hy : y ∈ l ++ (r ++ [h]).tail) : y ∈ h :: (l ++ r) := by
  rcases List.mem_append.mp hy with hy | hy
  · simp [hy]
  · have := List.mem_of_mem_tail hy
    simp only [List.mem_append, List.mem_singleton] at this
    simp only [List.mem_cons, List.mem_append]
    tauto

theorem edit_ring {h x : N} {l r : List N} (hp : (h :: (l ++ r)).Pairwise (Apart S))
    (hx : ∀ y ∈ h :: (l ++ r), Apart S x y) (he : Edit s s' (l.getLastD h) x (r.headD h)) :
    (∀ y ∈ (h :: l).dropLast ++ r, next s' y = next s y) ∧
      (∀ y ∈ l ++ (r ++ [h]).tail, prev s' y = prev s y) := by
  obtain ⟨hb, ha⟩ := gap_mem (h := h) (l := l) (r := r)
  have heq : ∀ {u v : N}, u ∈ h :: (l ++ r) → v ∈ h :: (l ++ r) → v = u ∨ Apart S u v := by
    intro u v hu hv
    by_cases hvu : v = u
    · exact .inl hvu
    · exact .inr (hp.forall hu hv (Ne.symm hvu))
  constructor
  · intro y hy
    have hm := mem_dropLast_append hy
    exact he.next_eq y ((gap_apart hp).1 y hy) (hx y hm) (heq ha hm)
  · intro y hy
    have hm := mem_append_tail hy
    exact he.prev_eq y ((gap_apart hp).2 y hy) (hx y hm) (heq hb hm)

theorem Family.edit_other (hf : Family s H F) {h x : N} {l r : List N} (hh : H h)
    (hm : ∀ y ∈ h :: (l ++ r), y ∈ h :: F h) (he : Edit s s' (l.getLastD h) x (r.headD h)) {h' : N}
    (hh' : H h') (hne : h' ≠ h) (hx : ∀ y ∈ h' :: F h', Apart S x y) : ∀ y ∈ h' :: F h', Agree s s' y := by
  intro y hy
  obtain ⟨hb, ha⟩ := gap_mem (h := h) (l := l) (r := r)
  have hby := hf.disjoint h h' hh hh' hne.symm _ (hm _ hb) y hy
  have hay := hf.disjoint h h' hh hh' hne.symm _ (hm _ ha) y hy
  exact ⟨he.next_eq y hby (hx y hy) (.inr hay), he.prev_eq y hay (hx y hy) (.inr hby)⟩

variable [DecidableEq N]

theorem Family.link (hf : Family s H F) {h x : N} {l r : List N} (hh : H h) (hF : F h = l ++ r)
    (hx : Fresh S H F x) (hv : Valid S x) (hbefore : Linked s' (l.getLastD h) x)
    (hafter : Linked s' x (r.headD h)) (he : Edit s s' (l.getLastD h) x (r.headD h)) :
    Family s' H (Function.update F h (l ++ x :: r)) := by
  have hp := hf.apart h hh
  have hxh := hx h hh
  have hvh := hf.valid h hh
  have hdh := fun h' hh' hne => hf.disjoint h h' hh hh' hne
  rw [hF] at hp hxh hvh hdh
  have hmem : ∀ y, y ∈ h :: (l ++ x :: r) ↔ y = x ∨ y ∈ h :: (l ++ r) := by
    intro y; simp only [List.mem_cons, List.mem_append]; tauto
  obtain ⟨hnext, hprev⟩ := edit_ring hp hxh he
  have hperm : (h :: (l ++ x :: r)).Perm (x :: h :: (l ++ r)) :=
    (List.Perm.cons h List.perm_middle).trans (List.Perm.swap x h _)
  refine (hf.update (circular_link (hF ▸ hf.circular h hh) hbefore hafter hnext hprev) ?_ ?_ ?_ ?_).restrict
    fun h' hh' => .inr hh'
  · rw [hperm.pairwise_iff apart_symm, List.pairwise_cons]
    exact ⟨hxh, hp⟩
  · intro y hy
    rcases (hmem y).mp hy with rfl | hy
    · exact hv
    · exact hvh y hy
  · intro h' hh' hne y hy z hz
    rcases (hmem y).mp hy with rfl | hy
    · exact hx h' hh' z hz
    · exact hdh h' hh' hne.symm y hy z hz
  · intro h' hh' hne
    exact hf.edit_other hh (by rw [hF]; exact fun _ hy => hy) he hh' hne (hx h' hh')

theorem Family.unlink (hf : Family s H F) {h x : N} {l r : List N} (hh : H h) (hF : F h = l ++ x :: r)
    (hacross : Linked s' (l.getLastD h) (r.headD h)) (he : Edit s s' (l.getLastD h) x (r.headD h)) :
    Family s' H (Function.update F h (l ++ r)) := by
  have hp := hf.apart h hh
  have hvh := hf.valid h hh
  have hdh := fun h' hh' hne => hf.disjoint h h' hh hh' hne
  rw [hF] at hp hvh hdh
  have hmem : ∀ y, y ∈ h :: (l ++ r) → y ∈ h :: (l ++ x :: r) := by
    intro y; simp only [List.mem_cons, List.mem_append]; tauto
  have hperm : (h :: (l ++ x :: r)).Perm (x :: h :: (l ++ r)) :=
    (List.Perm.cons h List.perm_middle).trans (List.Perm.swap x h _)
  rw [hperm.pairwise_iff apart_symm, List.pairwise_cons] at hp
  obtain ⟨hxh, hp⟩ := hp
  obtain ⟨hnext, hprev⟩ := edit_ring hp hxh he
  refine (hf.update (circular_unlink (hF ▸ hf.circular h hh) hacross hnext hprev) hp ?_ ?_ ?_).restrict
    fun h' hh' => .inr hh'
  · exact fun y hy => hvh y (hmem y hy)
  · exact fun h' hh' hne y hy => hdh h' hh' hne.symm y (hmem y hy)
  · intro h' hh' hne
    exact hf.edit_other hh (by rw [hF]; exact hmem) he hh' hne (hdh h' hh' hne.symm x (by simp))

theorem Family.fresh_unlink (hf : Family s H F) {h x : N} {l r : List N} (hh : H h)
    (hF : F h = l ++ x :: r) : Fresh S H (Function.update F h (l ++ r)) x := by
  intro h' hh' y hy
  by_cases hne : h' = h
  · subst hne
    rw [Function.update_self] at hy
    have hp := hf.apart h' hh
    rw [hF] at hp
    have hperm : (h' :: (l ++ x :: r)).Perm (x :: h' :: (l ++ r)) :=
      (List.Perm.cons h' List.perm_middle).trans (List.Perm.swap x h' _)
    rw [hperm.pairwise_iff apart_symm, List.pairwise_cons] at hp
    exact hp.1 y hy
  · rw [Function.update_of_ne hne] at hy
    exact hf.disjoint h h' hh hh' (Ne.symm hne) x (by simp [hF]) y hy

theorem fresh_map {A N : Type} [DecidableEq N] {H : N → Prop} {F : N → List A} {node : A → N} {p : A}
    (hnode : Function.Injective node) (hhead : ¬ H (node p)) (hp : ∀ h, H h → p ∉ F h) :
    Fresh (Links N) H (fun h => (F h).map node) (node p) := by
  intro h hh y hy
  rcases List.mem_cons.mp hy with rfl | hy
  · rintro rfl
    exact hhead hh
  · obtain ⟨q, hq, rfl⟩ := List.mem_map.mp hy
    intro he
    exact hp h hh (hnode he ▸ hq)

end Karg.ListFamily
