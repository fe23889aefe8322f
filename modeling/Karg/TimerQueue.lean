import Karg.StableInsertion
import Karg.TimerService

namespace Karg.TimerQueue

open LinkStore CircularList ListFamily ListNode StableInsertion TimerService

variable {τ C D : Type} [DecidableEq τ]

def Head (ready : τ → Prop) (q : List τ) : TimerNode τ → Prop
  | .waitQueue => True
  | .node t => ready t ∧ t ∉ q

def rings (q : List τ) : TimerNode τ → List (TimerNode τ)
  | .waitQueue => q.map .node
  | .node _ => []

def Holds (s : Service τ C D) (ready : τ → Prop) (q : List τ) : Prop := Family s.links (Head ready q) (rings q)

variable {s : Service τ C D} {ready : τ → Prop} {q : List τ}

theorem Holds.nodup (h : Holds s ready q) : q.Nodup := by
  have hp := (List.pairwise_cons.mp (h.apart .waitQueue trivial)).2
  exact (List.pairwise_map.mp hp).imp fun hne he => hne (congrArg _ he)

theorem Holds.mono (h : Holds s ready q) {ready' : τ → Prop} (hr : ∀ t, t ∉ q → ready' t → ready t) :
    Holds s ready' q := by
  refine Family.restrict h ?_
  rintro (_ | t) ht
  · trivial
  · exact ⟨hr t ht.2 ht.1, ht.2⟩

theorem Holds.front (h : Holds s ready q) :
    listFront s.links .waitQueue = (q.map TimerNode.node).headD .waitQueue :=
  circular_next (h.circular .waitQueue trivial)

theorem Holds.firstTime_eq (h : Holds s ready q) :
    firstTime s = (q.head?.map fun t => (s.timers t).time).getD timeMax := by
  rw [firstTime, h.front]
  cases q <;> rfl

theorem fresh_node {t : τ} (ht : t ∉ q) {H : TimerNode τ → Prop} (hH : ¬ H (.node t)) :
    Fresh (Links (TimerNode τ)) H (rings q) (.node t) := by
  rintro (_ | u) hu y hy
  · simp only [rings, List.mem_cons, List.mem_map] at hy
    rintro rfl
    rcases hy with hy | ⟨u, hu, hy⟩
    · cases hy
    · cases hy; exact ht hu
  · simp only [rings, List.mem_singleton] at hy
    subst hy
    rintro ⟨⟩
    exact hH hu

theorem timerInit_holds (h : Holds s ready q) {t : τ} (ht : t ∉ q) :
    Holds (timerInit s t) (fun u => u = t ∨ ready u) q := by
  have hr : Family s.links (fun n => n ≠ .node t ∧ Head ready q n) (rings q) := Family.restrict h fun _ hn => hn.2
  have hfresh : Fresh (Links (TimerNode τ)) (fun n => n ≠ .node t ∧ Head ready q n) (rings q) (.node t) :=
    fresh_node ht fun hn => hn.1 rfl
  refine ((family_initHead hr hfresh trivial).restrict ?_).congr ?_
  · rintro (_ | u) hu
    · exact .inr ⟨by simp, trivial⟩
    · by_cases hut : u = t
      · exact .inl (congrArg _ hut)
      · exact .inr ⟨by simpa using hut, hu.1.resolve_left hut, hu.2⟩
  · rintro (_ | u) _
    · rw [Function.update_of_ne (by simp)]
    · by_cases hut : u = t
      · subst hut; rw [Function.update_self]; rfl
      · rw [Function.update_of_ne (by simpa using hut)]

theorem insert_holds (h : Holds s ready q) {t : τ} (ht : t ∉ q) {l r : List τ} (hq : q = l ++ r) :
    Holds { s with links := listInsert s.links ((r.map TimerNode.node).headD .waitQueue) (.node t) }
      ready (l ++ t :: r) := by
  have hr : Family s.links (Head ready (l ++ t :: r)) (rings q) := by
    refine Family.restrict h ?_
    rintro (_ | u) hu
    · trivial
    · refine ⟨hu.1, fun huq => hu.2 ?_⟩
      rw [hq, List.mem_append] at huq
      simp only [List.mem_append, List.mem_cons]
      tauto
  have hfresh : Fresh (Links (TimerNode τ)) (Head ready (l ++ t :: r)) (rings q) (.node t) :=
    fresh_node ht fun hn => hn.2 (by simp)
  have hF : rings q .waitQueue = l.map TimerNode.node ++ r.map TimerNode.node := by
    rw [rings, hq, List.map_append]
  refine (family_listInsert hr (h := .waitQueue) trivial hF hfresh trivial).congr ?_
  rintro (_ | u) _
  · rw [Function.update_self]; simp [rings]
  · rw [Function.update_of_ne (by simp)]; rfl

theorem remove_holds (h : Holds s ready q) {t : τ} {l r : List τ} (hq : q = l ++ t :: r) :
    Holds { s with links := listRemoveInit s.links (.node t) } ready (l ++ r) := by
  have hF : rings q .waitQueue = l.map TimerNode.node ++ .node t :: r.map TimerNode.node := by
    rw [rings, hq, List.map_append, List.map_cons]
  refine ((family_listRemoveInit h (h := .waitQueue) trivial hF).restrict ?_).congr ?_
  · rintro (_ | u) hu
    · exact .inr trivial
    · by_cases hut : u = t
      · exact .inl (congrArg _ hut)
      · refine .inr ⟨hu.1, fun huq => hu.2 ?_⟩
        rw [hq, List.mem_append, List.mem_cons] at huq
        rw [List.mem_append]
        tauto
  · rintro (_ | u) _
    · rw [Function.update_of_ne (by simp), Function.update_self]; simp [rings]
    · by_cases hut : u = t
      · subst hut; rw [Function.update_self]; rfl
      · rw [Function.update_of_ne (by simpa using hut), Function.update_of_ne (by simp)]; rfl

def place (s : Service τ C D) (t : τ) (q : List τ) : TimerNode τ :=
  ((q.dropWhile fun u => !runsBefore s t (.node u)).map TimerNode.node).headD .waitQueue

theorem listForEach_place (h : Holds s ready q) (t : τ) {fuel : Nat} (hfuel : q.length < fuel) :
    listForEach fuel s.links .waitQueue (runsBefore s t) (listFront s.links .waitQueue) = some (place s t q) := by
  rw [h.front, family_listForEach h (h := .waitQueue) trivial _ (l := []) rfl (by simpa using hfuel),
    List.find?_map, place, headD_dropWhile]
  rfl

theorem Holds.isFront (h : Holds s ready q) (t : τ) :
    listIsFront s.links .waitQueue (.node t) = decide (q.head? = some t) := by
  have hf := h.front
  rw [listFront] at hf
  rw [listIsFront, hf]
  cases q <;> simp

theorem timerWait_holds (h : Holds s ready q) {t : τ} (ht : t ∉ q) (now ns : Nat) (callback : C) (data : D) :
    ∃ s', (∀ fuel, q.length < fuel → timerWait fuel s t now ns callback data = some s') ∧
      s'.timers = Function.update s.timers t ⟨deadline s.timerFreq now ns, callback, data⟩ ∧
      s'.timerFreq = s.timerFreq ∧
      Holds s' ready (insertBefore (fun u => runsBefore s' t (.node u)) t q) ∧
      s'.comparator = if (insertBefore (fun u => runsBefore s' t (.node u)) t q).head? = some t
        then (s'.timers t).time else s.comparator := by
  set s₁ : Service τ C D :=
    { s with timers := Function.update s.timers t ⟨deadline s.timerFreq now ns, callback, data⟩ } with hs₁
  have h₁ : Holds s₁ ready q := h
  set s₂ : Service τ C D := { s₁ with links := listInsert s₁.links (place s₁ t q) (.node t) } with hs₂
  have h₂ : Holds s₂ ready (insertBefore (fun u => runsBefore s₁ t (.node u)) t q) :=
    insert_holds h₁ ht List.takeWhile_append_dropWhile.symm
  have hpos : (if place s₁ t q = .waitQueue then listPushBack s₁.links .waitQueue (.node t)
      else listInsert s₁.links (place s₁ t q) (.node t)) = s₂.links := by
    split
    · next he => rw [listPushBack, hs₂, he]
    · rfl
  refine ⟨if listIsFront s₂.links .waitQueue (.node t) then timerSet s₂ (s₂.timers t).time else s₂, ?_, ?_⟩
  · intro fuel hfuel
    rw [timerWait]
    simp only [← hs₁]
    rw [listForEach_place h₁ t hfuel, Option.map_some, hpos]
  · rw [h₂.isFront t]
    by_cases hh : (insertBefore (fun u => runsBefore s₁ t (.node u)) t q).head? = some t
    · rw [decide_eq_true hh]
      exact ⟨rfl, rfl, h₂, (if_pos hh).symm⟩
    · rw [decide_eq_false hh]
      exact ⟨rfl, rfl, h₂, (if_neg hh).symm⟩

theorem listEmpty_node (h : Holds s ready q) {t : τ} (ht : ready t) :
    listEmpty s.links (.node t) = decide (t ∉ q) := by
  by_cases hq : t ∈ q
  · obtain ⟨l, r, rfl⟩ := List.append_of_mem hq
    have hc := h.circular .waitQueue trivial
    simp only [rings, List.map_append, List.map_cons] at hc
    have hne : t ∉ r := (List.nodup_cons.mp (List.nodup_append.mp h.nodup).2.1).1
    rw [listEmpty, listFront, circular_next_mem hc]
    cases r with
    | nil => simp
    | cons u r => simpa using fun he => hne (by simp [he])
  · rw [family_listEmpty h (h := .node t) ⟨ht, hq⟩]
    simp [rings, hq]

theorem timerCancel_holds (h : Holds s ready q) {t : τ} (ht : ready t) :
    Holds (timerCancel s t) ready (q.erase t) ∧ (timerCancel s t).timers = s.timers ∧
      (timerCancel s t).timerFreq = s.timerFreq ∧
      (timerCancel s t).comparator = if t ∈ q
        then ((q.erase t).head?.map fun u => (s.timers u).time).getD timeMax else s.comparator := by
  rw [timerCancel, listEmpty_node h ht]
  by_cases hq : t ∈ q
  · obtain ⟨l, r, rfl⟩ := List.append_of_mem hq
    have hl : t ∉ l := fun hl => (List.nodup_append.mp h.nodup).2.2 t hl t (by simp) rfl
    have hr := remove_holds h (t := t) rfl
    have he : (l ++ t :: r).erase t = l ++ r := by
      rw [List.erase_append_right _ hl, List.erase_cons_head]
    simp only [hq, not_true, decide_false, Bool.false_eq_true, ↓reduceIte, he]
    exact ⟨hr, rfl, rfl, hr.firstTime_eq⟩
  · rw [decide_eq_true hq, List.erase_of_not_mem hq, if_neg hq]
    exact ⟨h, rfl, rfl, rfl⟩

theorem timerIsr_holds {t : τ} (h : Holds s ready (t :: q)) :
    ∃ s', timerIsr s = some (s', t) ∧ Holds s' ready q ∧ s'.timers = s.timers ∧ s'.timerFreq = s.timerFreq ∧
      s'.comparator = (q.head?.map fun u => (s.timers u).time).getD timeMax := by
  have hr := remove_holds h (l := []) rfl
  refine ⟨timerSet { s with links := listRemoveInit s.links (.node t) }
    (firstTime { s with links := listRemoveInit s.links (.node t) }), ?_, hr, rfl, rfl, hr.firstTime_eq⟩
  rw [timerIsr, h.front]
  rfl

end Karg.TimerQueue
