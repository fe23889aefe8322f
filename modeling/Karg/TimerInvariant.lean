import Karg.TimerRuns

namespace Karg.TimerInvariant

open LinkStore CircularList ListNode StableInsertion TimerService TimerQueue TimerRuns Execution

variable {τ C D : Type} [DecidableEq τ] {σ σ' : System τ C D} {q : List τ}

theorem Before.trans {a b c : Nat × Nat} (hab : Before a b) (hbc : Before b c) : Before a c := by
  unfold Before at *
  omega

theorem not_mem_of_not_queued {ready : τ → Prop} {s : Service τ C D} (h : Holds s ready q) {t : τ}
    (ht : ¬ Queued s t) : t ∉ q :=
  fun hq => ht ⟨q, h.circular .waitQueue trivial, hq⟩

theorem not_queued {s : Service τ C D} {t : τ} (hq : WaitQueue s q) (ht : t ∉ q) : ¬ Queued s t := by
  rintro ⟨q', hq', ht'⟩
  have hmap := circular_unique hq hq' (by simp) (by simp)
  have hmem : TimerNode.node t ∈ q.map .node := hmap ▸ List.mem_map_of_mem ht'
  rw [List.mem_map_of_injective fun _ _ => TimerNode.node.inj] at hmem
  exact ht hmem

theorem start_invariant (h : Start σ) : Invariant σ [] := by
  have hH : ∀ n, Head (fun t => σ.initialised t = true) [] n → n = .waitQueue := by
    rintro (_ | t) ht
    · rfl
    · simp [Head, h.initialised t] at ht
  constructor
  · constructor
    · intro n hn
      rw [hH n hn]
      exact h.queue
    · intro n hn
      rw [hH n hn]
      exact List.pairwise_singleton _ _
    · intro n m hn hm hne
      exact absurd ((hH n hn).trans (hH m hm).symm) hne
    · exact fun _ _ _ _ => trivial
  all_goals simp [h.comparator, h.cancelled, h.callbacks]

theorem init_invariant (h : Invariant σ q) {t : τ} (ht : t ∉ q) :
    Invariant { σ with
      service := timerInit σ.service t
      initialised := Function.update σ.initialised t true } q where
  holds := by
    refine (timerInit_holds h.holds ht).mono fun u _ hu => ?_
    by_cases hut : u = t
    · exact .inl hut
    · exact .inr (by simpa [Function.update_of_ne hut] using hu)
  initialised u hu := by
    by_cases hut : u = t
    · subst hut; simp
    · simpa [Function.update_of_ne hut] using h.initialised u hu
  sorted := h.sorted
  comparator := h.comparator
  armed := h.armed
  ran := h.ran
  order := h.order
  ahead := h.ahead
  cancelled_lt := h.cancelled_lt
  cancelled_ran := h.cancelled_ran
  cancelled_queued := h.cancelled_queued

theorem deadline_eq {freq now ns : Nat} (h : now + ns / (nsInSec / freq) < 2 ^ 64) :
    deadline freq now ns = now + ns / (nsInSec / freq) := Nat.mod_eq_of_lt h

theorem arm_other (ht : t ∉ q) {s : Service τ C D} {T : Timer C D}
    (hs : s.timers = Function.update σ.service.timers t T) (callback : C) (data : D) {u : τ} (hu : u ∈ q) :
    s.timers u = σ.service.timers u ∧ (σ.arm t s callback data).lastArming u = σ.lastArming u := by
  have hut : u ≠ t := fun he => ht (he ▸ hu)
  simp [hs, System.arm, Function.update_of_ne hut]

theorem arm_key (ht : t ∉ q) {s : Service τ C D} {T : Timer C D}
    (hs : s.timers = Function.update σ.service.timers t T) (callback : C) (data : D) {u : τ} (hu : u ∈ q) :
    (σ.arm t s callback data).key u = σ.key u := by
  obtain ⟨h1, h2⟩ := arm_other (σ := σ) ht hs callback data hu
  rw [System.key, h2]
  exact congrArg (fun T : Timer C D => (T.time, σ.lastArming u)) h1

theorem arm_key_self (s : Service τ C D) (callback : C) (data : D) :
    (σ.arm t s callback data).key t = ((s.timers t).time, σ.armings.length) := by
  simp [System.key, System.arm]

theorem arm_armings {i : Nat} {a : Arming τ C D} (ha : σ.armings[i]? = some a) (s : Service τ C D)
    (callback : C) (data : D) : (σ.arm t s callback data).armings[i]? = some a := by
  rw [System.arm, List.getElem?_append_left (List.getElem?_eq_some_iff.mp ha).1, ha]

omit [DecidableEq τ] in
theorem lt_of_arming {l : List (Arming τ C D)} {i : Nat} {a : Arming τ C D} (ha : l[i]? = some a) : i < l.length :=
  (List.getElem?_eq_some_iff.mp ha).1

theorem arm_sorted (h : Invariant σ q) (ht : t ∉ q) {s : Service τ C D} {T : Timer C D}
    (hs : s.timers = Function.update σ.service.timers t T) (callback : C) (data : D) :
    (insertBefore (fun u => runsBefore s t (.node u)) t q).Pairwise
      fun u v => Before ((σ.arm t s callback data).key u) ((σ.arm t s callback data).key v) := by
  have hkey := fun u (hu : u ∈ q) => arm_key (σ := σ) ht hs callback data hu
  have hself := arm_key_self (σ := σ) (t := t) s callback data
  apply pairwise_insertBefore
  · refine h.sorted.imp_of_mem fun hu hv hb => ?_
    rwa [hkey _ hu, hkey _ hv]
  · intro u v hb hu
    simp only [runsBefore, decide_eq_true_eq, Before, System.key, System.arm] at hb hu ⊢
    omega
  · intro u hu hp
    rw [hkey u hu, hself]
    simp only [runsBefore, decide_eq_false_iff_not, (arm_other (σ := σ) ht hs callback data hu).1] at hp
    have hlt := lt_of_arming (h.armed u hu)
    simp only [Before, System.key]
    omega
  · intro u hu hp
    rw [hkey u hu, hself]
    simp only [runsBefore, decide_eq_true_eq, (arm_other (σ := σ) ht hs callback data hu).1] at hp
    exact .inl hp

theorem wait_invariant (h : Invariant σ q) {t : τ} (ht : t ∉ q) {ns : Nat} (callback : C) (data : D)
    (hns : σ.now + ns / (nsInSec / σ.service.timerFreq) < 2 ^ 64) :
    ∃ σ' q', Converges (fun fuel => exec fuel σ (.wait t ns callback data)) σ' ∧ Invariant σ' q' := by
  obtain ⟨s, hw, hT, -, hh, hc⟩ := timerWait_holds h.holds ht σ.now ns callback data
  have hTt : s.timers t = ⟨deadline σ.service.timerFreq σ.now ns, callback, data⟩ := by rw [hT, Function.update_self]
  have hnow : σ.now ≤ (s.timers t).time := by rw [hTt, deadline_eq hns]; exact Nat.le_add_right _ _
  have hother := fun u (hu : u ∈ q) => arm_other (σ := σ) ht hT callback data hu
  refine ⟨σ.arm t s callback data, insertBefore (fun u => runsBefore s t (.node u)) t q,
    ⟨q.length + 1, fun fuel hfuel => ?_⟩, ?_⟩
  · simp only [exec, hw fuel hfuel, Option.map_some]
  constructor
  · refine hh.mono fun u hu hi => ?_
    have hut : u ≠ t := fun he => hu (mem_insertBefore.mpr (.inl he))
    simpa [System.arm, Function.update_of_ne hut] using hi
  · intro u hu
    by_cases hut : u = t
    · subst hut; simp [System.arm]
    · simpa [System.arm, Function.update_of_ne hut] using
        h.initialised u ((mem_insertBefore.mp hu).resolve_left hut)
  · exact arm_sorted h ht hT callback data
  · -- The comparator is set again only if the timer comes first.
    change s.comparator = _
    rw [hc]
    rcases head?_insertBefore (fun u => runsBefore s t (.node u)) t q with hq | hq
    · rw [if_pos hq, hq]; rfl
    · have hne : ¬ q.head? = some t := fun he => ht (List.mem_of_head? he)
      rw [hq, if_neg hne, h.comparator]
      cases hqh : q.head? with
      | none => rfl
      | some u => exact congrArg Timer.time (hother u (List.mem_of_head? hqh)).1.symm
  · intro u hu
    by_cases hut : u = t
    · subst hut; simp [System.arm, System.arming, hTt]
    · have huq := (mem_insertBefore.mp hu).resolve_left hut
      rw [(hother u huq).2]
      have ha := arm_armings (t := t) (h.armed u huq) s callback data
      rw [ha]
      simp [System.arming, System.arm, (hother u huq).1]
  · intro c hc
    obtain ⟨h1, h2, u, hu⟩ := h.ran c hc
    exact ⟨h1, h2, u, arm_armings hu s callback data⟩
  · exact h.order
  · intro c u hc hu
    by_cases hut : u = t
    · subst hut
      obtain ⟨h1, h2, v, hv⟩ := h.ran c hc
      have hlt := lt_of_arming hv
      rw [arm_key_self]
      simp only [Before, Callback.key]
      omega
    · have huq := (mem_insertBefore.mp hu).resolve_left hut
      rw [arm_key ht hT callback data huq]
      exact h.ahead c u hc huq
  · intro i hi
    have hlt := h.cancelled_lt i hi
    simp only [System.arm, List.length_append, List.length_singleton]
    omega
  · exact h.cancelled_ran
  · intro u hu
    by_cases hut : u = t
    · subst hut
      intro hi
      have hlt := h.cancelled_lt _ hi
      simp [System.arm] at hlt
    · have huq := (mem_insertBefore.mp hu).resolve_left hut
      rw [(hother u huq).2]
      exact h.cancelled_queued u huq

theorem callback_arming_ne (h : Invariant σ q) {c : Callback C D} (hc : c ∈ σ.callbacks) {t : τ} (ht : t ∈ q) :
    c.arming ≠ σ.lastArming t := by
  intro he
  obtain ⟨-, -, u, hu⟩ := h.ran c hc
  rw [he, h.armed t ht] at hu
  have htime : (σ.service.timers t).time = c.time := congrArg Arming.time (Option.some.inj hu)
  have hb := h.ahead c t hc ht
  simp only [Before, Callback.key, System.key] at hb
  omega

theorem lastArming_injective (h : Invariant σ q) {t u : τ} (ht : t ∈ q) (hu : u ∈ q)
    (he : σ.lastArming t = σ.lastArming u) : t = u := by
  have ha := h.armed t ht
  rw [he, h.armed u hu] at ha
  exact (congrArg Arming.timer (Option.some.inj ha)).symm

theorem cancel_invariant (h : Invariant σ q) {t : τ} (ht : σ.initialised t) :
    ∃ σ', Converges (fun fuel => exec fuel σ (.cancel t)) σ' ∧ Invariant σ' (q.erase t) := by
  obtain ⟨hh, hT, -, hc⟩ := timerCancel_holds h.holds (t := t) ht
  have hsub : ∀ u, u ∈ q.erase t → u ∈ q := fun u hu => List.mem_of_mem_erase hu
  have hcancelled : ∀ i, i ∈ (if listEmpty σ.service.links (.node t) then σ.cancelled
      else σ.cancelled ++ [σ.lastArming t]) ↔ i ∈ σ.cancelled ∨ t ∈ q ∧ i = σ.lastArming t := by
    intro i
    rw [listEmpty_node h.holds ht]
    by_cases hq : t ∈ q <;> simp [hq]
  refine ⟨_, .of_forall fun _ => rfl, ?_⟩
  constructor
  · exact hh
  · exact fun u hu => h.initialised u (hsub u hu)
  · have hs := h.sorted.sublist (List.erase_sublist (a := t))
    simpa only [System.key, hT] using hs
  · rw [hc, hT]
    split
    · rfl
    · next hq => rw [List.erase_of_not_mem hq, h.comparator]
  · intro u hu
    simpa only [System.arming, hT] using h.armed u (hsub u hu)
  · exact h.ran
  · exact h.order
  · intro c u hc hu
    simpa only [System.key, hT] using h.ahead c u hc (hsub u hu)
  · intro i hi
    rcases (hcancelled i).mp hi with hi | ⟨hq, rfl⟩
    · exact h.cancelled_lt i hi
    · exact lt_of_arming (h.armed t hq)
  · intro c hc hi
    rcases (hcancelled _).mp hi with hi | ⟨hq, hi⟩
    · exact h.cancelled_ran c hc hi
    · exact callback_arming_ne h hc hq hi
  · intro u hu hi
    rcases (hcancelled _).mp hi with hi | ⟨hq, hi⟩
    · exact h.cancelled_queued u (hsub u hu) hi
    · have hut := lastArming_injective h (hsub u hu) hq hi
      exact (h.holds.nodup.mem_erase_iff.mp hu).1 hut

theorem isr_invariant {t : τ} (h : Invariant σ (t :: q)) (hnow : σ.service.comparator ≤ σ.now) :
    ∃ σ', Converges (fun fuel => exec fuel σ .isr) σ' ∧ Invariant σ' q := by
  obtain ⟨s, hisr, hh, hT, -, hc⟩ := timerIsr_holds h.holds
  have hkey : ∀ u, (σ.run s t).key u = σ.key u := fun u => by simp [System.key, System.run, hT]
  have htime : (σ.service.timers t).time ≤ σ.now := by
    have hcomp := h.comparator
    simp only [List.head?_cons, Option.map_some, Option.getD_some] at hcomp
    omega
  obtain ⟨hbefore, hsorted⟩ := List.pairwise_cons.mp h.sorted
  have hrun : (⟨σ.lastArming t, (s.timers t).time, σ.now, (s.timers t).callback, (s.timers t).data⟩ :
      Callback C D).key = σ.key t := by simp [Callback.key, System.key, hT]
  refine ⟨σ.run s t, .of_forall fun _ => ?_, ?_⟩
  · simp only [exec, hisr, Option.map_some]
  constructor
  · exact hh
  · exact fun u hu => h.initialised u (by simp [hu])
  · simpa only [hkey] using hsorted
  · simpa only [System.run, hT] using hc
  · intro u hu
    simpa only [System.arming, System.run, hT] using h.armed u (by simp [hu])
  · intro c hc
    rcases List.mem_append.mp hc with hc | hc
    · exact h.ran c hc
    · rw [List.mem_singleton.mp hc, hT]
      exact ⟨htime, le_rfl, t, h.armed t (by simp)⟩
  · refine List.pairwise_append.mpr ⟨h.order, List.pairwise_singleton _ _, fun c hc d hd => ?_⟩
    rw [List.mem_singleton.mp hd, hrun]
    exact h.ahead c t hc (by simp)
  · intro c u hc hu
    rw [hkey]
    rcases List.mem_append.mp hc with hc | hc
    · exact h.ahead c u hc (by simp [hu])
    · rw [List.mem_singleton.mp hc, hrun]
      exact hbefore u hu
  · exact h.cancelled_lt
  · intro c hc
    rcases List.mem_append.mp hc with hc | hc
    · exact h.cancelled_ran c hc
    · rw [List.mem_singleton.mp hc]
      exact h.cancelled_queued t (by simp)
  · exact fun u hu => h.cancelled_queued u (by simp [hu])

theorem isr_nonempty (h : Invariant σ q) (hnow : σ.service.comparator ≤ σ.now) (hmax : σ.now < timeMax) : q ≠ [] := by
  rintro rfl
  have hcomp := h.comparator
  simp only [List.head?_nil, Option.map_none, Option.getD_none] at hcomp
  omega

theorem advance_invariant (h : Invariant σ q) {now : Nat} (hnow : σ.now ≤ now) :
    Invariant { σ with now := now } q :=
  { h with
    holds := h.holds
    ran := fun c hc => by
      obtain ⟨h1, h2, h3⟩ := h.ran c hc
      exact ⟨h1, h2.trans hnow, h3⟩ }

/-- Every operation that callers and hardware may ask for returns, in a state
that again satisfies the invariant. -/
theorem step_invariant (h : Invariant σ q) {op : Op τ C D} (hop : Allowed σ op) :
    ∃ σ' q', Converges (fun fuel => exec fuel σ op) σ' ∧ Invariant σ' q' := by
  cases op with
  | init t =>
      exact ⟨_, q, .of_forall fun _ => rfl, init_invariant h (not_mem_of_not_queued h.holds hop)⟩
  | wait t ns callback data =>
      exact wait_invariant h (not_mem_of_not_queued h.holds hop.1) callback data hop.2
  | cancel t =>
      obtain ⟨σ', hc, hi⟩ := cancel_invariant h hop
      exact ⟨σ', _, hc, hi⟩
  | advance now => exact ⟨_, q, .of_forall fun _ => rfl, advance_invariant h hop⟩
  | isr =>
      obtain ⟨t, r, rfl⟩ := List.exists_cons_of_ne_nil (isr_nonempty h hop.1 hop.2)
      obtain ⟨σ', hc, hi⟩ := isr_invariant h hop.1
      exact ⟨σ', r, hc, hi⟩

theorem reachable_invariant (h : Reachable Start Step σ) : ∃ q, Invariant σ q := by
  refine h.invariant (I := fun σ : System τ C D => ∃ q, Invariant σ q) ?_ ?_
  · exact fun σ hσ => ⟨[], start_invariant hσ⟩
  · rintro σ op σ' ⟨q, hq⟩ ⟨hop, hc⟩
    obtain ⟨σ'', q', hc', hi⟩ := step_invariant hq hop
    rw [hc.unique hc']
    exact ⟨q', hi⟩

end Karg.TimerInvariant
