import Karg.TimerInvariant

namespace Karg.TimerCorrectness

open LinkStore CircularList TimerService TimerRuns TimerInvariant Execution

variable {τ C D : Type} [DecidableEq τ] {σ : System τ C D} {q : List τ}

/-- Two callbacks of one call of `timer_wait` would have equal keys. -/
theorem callbacks_nodup (h : Invariant σ q) : (σ.callbacks.map Callback.arming).Nodup := by
  refine List.pairwise_map.mpr (h.order.imp_of_mem fun {c d} hc hd hb he => ?_)
  obtain ⟨-, -, t, ht⟩ := h.ran c hc
  obtain ⟨-, -, u, hu⟩ := h.ran d hd
  rw [he, hu] at ht
  have htime : d.time = c.time := congrArg Arming.time (Option.some.inj ht)
  simp only [Before, Callback.key] at hb
  omega

/-- In every state of every run the wait queue is ordered by deadline and then
by arming, and the comparator holds its first deadline. So no interrupt finds an
empty queue, callbacks run in this order and not before their deadline, and
each call of `timer_wait` has at most one, with its own callback and data, and
none once it is cancelled. No operation of the run gets stuck. -/
theorem timer_service_correct (h : Reachable Start Step σ) :
    (∃ q, WaitQueue σ.service q ∧ q.Pairwise (fun t u => Before (σ.key t) (σ.key u)) ∧
      (∀ t ∈ q, σ.armings[σ.lastArming t]? = some (σ.arming t)) ∧
      σ.service.comparator = (q.head?.map fun t => (σ.service.timers t).time).getD timeMax) ∧
    (Allowed σ .isr → ∃ s t, timerIsr σ.service = some (s, t)) ∧
    (∀ c ∈ σ.callbacks, c.time ≤ c.ranAt ∧ ∃ t, σ.armings[c.arming]? = some ⟨t, c.time, c.callback, c.data⟩) ∧
    σ.callbacks.Pairwise (fun c d => Before c.key d.key) ∧
    (σ.callbacks.map Callback.arming).Nodup ∧
    (∀ c ∈ σ.callbacks, c.arming ∉ σ.cancelled) ∧
    (∀ op, Allowed σ op → ∃ σ', Step σ op σ') := by
  obtain ⟨q, hq⟩ := reachable_invariant h
  refine ⟨⟨q, hq.holds.circular .waitQueue trivial, hq.sorted, hq.armed, hq.comparator⟩, ?_, ?_, hq.order,
    callbacks_nodup hq, hq.cancelled_ran, ?_⟩
  · intro hop
    obtain ⟨t, r, rfl⟩ := List.exists_cons_of_ne_nil (isr_nonempty hq hop.1 hop.2)
    obtain ⟨s, hs, -⟩ := TimerQueue.timerIsr_holds hq.holds
    exact ⟨s, t, hs⟩
  · intro c hc
    obtain ⟨h1, -, h2⟩ := hq.ran c hc
    exact ⟨h1, h2⟩
  · intro op hop
    obtain ⟨σ', -, hc, -⟩ := step_invariant hq hop
    exact ⟨σ', hop, hc⟩

def idleSystem : System Nat Unit Unit where
  service := ⟨⟨id, id⟩, fun _ => ⟨0, (), ()⟩, timeMax, 10000000⟩
  now := 0
  initialised _ := false
  armings := []
  lastArming _ := 0
  cancelled := []
  callbacks := []

theorem idleSystem_start : Start idleSystem where
  queue := List.isChain_cons_cons.mpr ⟨⟨rfl, rfl⟩, .singleton _⟩
  comparator := rfl
  initialised _ := rfl
  armings := rfl
  cancelled := rfl
  callbacks := rfl

/-- Timers 3, 4 and 5 are armed in this order, for 5, 2 and 3 ticks. Timer 5 is
cancelled, and at tick 7 the callbacks of timer 4 and then of timer 3 run. -/
theorem timer_service_correct_three_timers :
    ∃ σ : System Nat Unit Unit, Reachable Start Step σ ∧ σ.armings.map Arming.timer = [3, 4, 5] ∧ σ.cancelled = [2] ∧
      σ.callbacks = [⟨1, 2, 7, (), ()⟩, ⟨0, 5, 7, (), ()⟩] ∧ σ.callbacks.Pairwise (fun c d => Before c.key d.key) ∧
      (∀ c ∈ σ.callbacks, c.arming ∉ σ.cancelled) ∧ ∃ q, WaitQueue σ.service q := by
  have h1 : Reachable Start Step _ := .next (.wait 3 500 () ()) (.start idleSystem_start)
    ⟨⟨not_queued idleSystem_start.queue (by simp), by decide⟩, ⟨1, fun fuel hfuel => by
      obtain ⟨fuel, rfl⟩ := Nat.exists_eq_add_of_le' hfuel
      rfl⟩⟩
  have h2 : Reachable Start Step _ := .next (.wait 4 200 () ()) h1
    ⟨⟨not_queued (q := [3]) (.cons_cons ⟨rfl, rfl⟩ (.cons_cons ⟨rfl, rfl⟩ (.singleton _))) (by simp), by decide⟩,
      ⟨2, fun fuel hfuel => by
        obtain ⟨fuel, rfl⟩ := Nat.exists_eq_add_of_le' hfuel
        rfl⟩⟩
  have h3 : Reachable Start Step _ := .next (.wait 5 300 () ()) h2
    ⟨⟨not_queued (q := [4, 3])
        (.cons_cons ⟨rfl, rfl⟩ (.cons_cons ⟨rfl, rfl⟩ (.cons_cons ⟨rfl, rfl⟩ (.singleton _)))) (by simp), by decide⟩,
      ⟨3, fun fuel hfuel => by
        obtain ⟨fuel, rfl⟩ := Nat.exists_eq_add_of_le' hfuel
        rfl⟩⟩
  have h4 : Reachable Start Step _ := .next (.cancel 5) h3 ⟨rfl, .of_forall fun _ => rfl⟩
  have h5 : Reachable Start Step _ := .next (.advance 7) h4 ⟨Nat.zero_le _, .of_forall fun _ => rfl⟩
  have h6 : Reachable Start Step _ := .next .isr h5 ⟨⟨by decide, by decide⟩, .of_forall fun _ => rfl⟩
  have h7 : Reachable Start Step _ := .next .isr h6 ⟨⟨by decide, by decide⟩, .of_forall fun _ => rfl⟩
  obtain ⟨⟨q, hq, -⟩, -, -, horder, -, hcancelled, -⟩ := timer_service_correct h7
  exact ⟨_, h7, rfl, rfl, rfl, horder, hcancelled, q, hq⟩

end Karg.TimerCorrectness
