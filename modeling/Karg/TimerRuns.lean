import Karg.Execution
import Karg.TimerQueue

namespace Karg.TimerRuns

open LinkStore CircularList ListNode StableInsertion TimerService TimerQueue Execution

variable {τ C D : Type} [DecidableEq τ]

structure Arming (τ C D : Type) where
  timer : τ
  time : Nat
  callback : C
  data : D

structure Callback (C D : Type) where
  arming : Nat
  time : Nat
  ranAt : Nat
  callback : C
  data : D

/-- The timer service in its environment: the clock, and the history of the
calls of `timer_wait`, of the cancelled ones and of the callbacks run. -/
structure System (τ C D : Type) where
  service : Service τ C D
  now : Nat
  initialised : τ → Bool
  armings : List (Arming τ C D)
  lastArming : τ → Nat
  cancelled : List Nat
  callbacks : List (Callback C D)

inductive Op (τ C D : Type)
  | init (timer : τ)
  | wait (timer : τ) (ns : Nat) (callback : C) (data : D)
  | cancel (timer : τ)
  | advance (now : Nat)
  | isr

def System.arm (σ : System τ C D) (t : τ) (service : Service τ C D) (callback : C) (data : D) : System τ C D :=
  { σ with
    service := service
    initialised := Function.update σ.initialised t true
    armings := σ.armings ++ [⟨t, (service.timers t).time, callback, data⟩]
    lastArming := Function.update σ.lastArming t σ.armings.length }

def System.run (σ : System τ C D) (service : Service τ C D) (t : τ) : System τ C D :=
  let timer := service.timers t
  { σ with
    service := service
    callbacks := σ.callbacks ++ [⟨σ.lastArming t, timer.time, σ.now, timer.callback, timer.data⟩] }

def exec (fuel : Nat) (σ : System τ C D) : Op τ C D → Option (System τ C D)
  | .init t =>
      some { σ with
        service := timerInit σ.service t
        initialised := Function.update σ.initialised t true }
  | .wait t ns callback data =>
      (timerWait fuel σ.service t σ.now ns callback data).map fun service => σ.arm t service callback data
  | .cancel t =>
      some { σ with
        service := timerCancel σ.service t
        cancelled := if listEmpty σ.service.links (.node t) then σ.cancelled else σ.cancelled ++ [σ.lastArming t] }
  | .advance now => some { σ with now := now }
  | .isr => (timerIsr σ.service).map fun (service, t) => σ.run service t

def WaitQueue (s : Service τ C D) (q : List τ) : Prop := Circular s.links .waitQueue (q.map .node)

def Queued (s : Service τ C D) (t : τ) : Prop := ∃ q, WaitQueue s q ∧ t ∈ q

/-- What the callers and the hardware promise: only timers that are not queued
are armed, the clock is monotone, and the interrupt is raised when the clock has
reached the comparator. Callbacks run as the operations after an interrupt. -/
def Allowed (σ : System τ C D) : Op τ C D → Prop
  | .init t => ¬ Queued σ.service t
  | .wait t ns _ _ => ¬ Queued σ.service t ∧ σ.now + ns / (nsInSec / σ.service.timerFreq) < 2 ^ 64
  | .cancel t => σ.initialised t
  | .advance now => σ.now ≤ now
  | .isr => σ.service.comparator ≤ σ.now ∧ σ.now < timeMax

def Step (σ : System τ C D) (op : Op τ C D) (σ' : System τ C D) : Prop :=
  Allowed σ op ∧ Converges (fun fuel => exec fuel σ op) σ'

structure Start (σ : System τ C D) : Prop where
  queue : WaitQueue σ.service []
  comparator : σ.service.comparator = timeMax
  initialised (t : τ) : σ.initialised t = false
  armings : σ.armings = []
  cancelled : σ.cancelled = []
  callbacks : σ.callbacks = []

def Before (a b : Nat × Nat) : Prop := a.1 < b.1 ∨ a.1 = b.1 ∧ a.2 < b.2

def System.key (σ : System τ C D) (t : τ) : Nat × Nat := ((σ.service.timers t).time, σ.lastArming t)

def Callback.key (c : Callback C D) : Nat × Nat := (c.time, c.arming)

def System.arming (σ : System τ C D) (t : τ) : Arming τ C D :=
  ⟨t, (σ.service.timers t).time, (σ.service.timers t).callback, (σ.service.timers t).data⟩

structure Invariant (σ : System τ C D) (q : List τ) : Prop where
  holds : Holds σ.service (fun t => σ.initialised t) q
  initialised (t : τ) : t ∈ q → σ.initialised t
  sorted : q.Pairwise fun t u => Before (σ.key t) (σ.key u)
  comparator : σ.service.comparator = (q.head?.map fun t => (σ.service.timers t).time).getD timeMax
  armed (t : τ) : t ∈ q → σ.armings[σ.lastArming t]? = some (σ.arming t)
  ran (c : Callback C D) : c ∈ σ.callbacks → c.time ≤ c.ranAt ∧ c.ranAt ≤ σ.now ∧
    ∃ t, σ.armings[c.arming]? = some ⟨t, c.time, c.callback, c.data⟩
  order : σ.callbacks.Pairwise fun c d => Before c.key d.key
  ahead (c : Callback C D) (t : τ) : c ∈ σ.callbacks → t ∈ q → Before c.key (σ.key t)
  cancelled_lt (i : Nat) : i ∈ σ.cancelled → i < σ.armings.length
  cancelled_ran (c : Callback C D) : c ∈ σ.callbacks → c.arming ∉ σ.cancelled
  cancelled_queued (t : τ) : t ∈ q → σ.lastArming t ∉ σ.cancelled

end Karg.TimerRuns
