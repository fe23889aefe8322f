import Karg.ListNode
import Mathlib.Algebra.Group.Nat.Defs

namespace Karg.TimerService

open LinkStore ListNode

def nsInSec : Nat := 1000000000

def timeMax : Nat := 2 ^ 64 - 1

inductive TimerNode (τ : Type)
  | waitQueue
  | node (timer : τ)
  deriving DecidableEq

structure Timer (C D : Type) where
  time : Nat
  callback : C
  data : D

structure Service (τ C D : Type) where
  links : Links (TimerNode τ)
  timers : τ → Timer C D
  comparator : Nat
  timerFreq : Nat

variable {τ C D : Type} [DecidableEq τ]

def deadline (timerFreq now ns : Nat) : Nat := (now + ns / (nsInSec / timerFreq)) % 2 ^ 64

def timerSet (s : Service τ C D) (waitTime : Nat) : Service τ C D := { s with comparator := waitTime }

def timerInit (s : Service τ C D) (timer : τ) : Service τ C D :=
  { s with links := listInitHead s.links (.node timer) }

def runsBefore (s : Service τ C D) (timer : τ) : TimerNode τ → Bool
  | .node entry => (s.timers timer).time < (s.timers entry).time
  | .waitQueue => false

def timerWait (fuel : Nat) (s : Service τ C D) (timer : τ) (now ns : Nat) (callback : C) (data : D) :
    Option (Service τ C D) :=
  let s := { s with timers := Function.update s.timers timer ⟨deadline s.timerFreq now ns, callback, data⟩ }
  (listForEach fuel s.links .waitQueue (runsBefore s timer) (listFront s.links .waitQueue)).map fun entry =>
    let links :=
      if entry = .waitQueue then listPushBack s.links .waitQueue (.node timer)
      else listInsert s.links entry (.node timer)
    let s := { s with links := links }
    if listIsFront s.links .waitQueue (.node timer) then timerSet s (s.timers timer).time else s

def firstTime (s : Service τ C D) : Nat :=
  match listFront s.links .waitQueue with
  | .waitQueue => timeMax
  | .node timer => (s.timers timer).time

def timerCancel (s : Service τ C D) (timer : τ) : Service τ C D :=
  if listEmpty s.links (.node timer) then s
  else
    let s := { s with links := listRemoveInit s.links (.node timer) }
    timerSet s (firstTime s)

/-- The part of `timer_isr` before the callback, with the timer whose callback
is then run. The head of an empty queue is no timer. -/
def timerIsr (s : Service τ C D) : Option (Service τ C D × τ) :=
  match listFront s.links .waitQueue with
  | .waitQueue => none
  | .node timer =>
      let s := { s with links := listRemoveInit s.links (.node timer) }
      some (timerSet s (firstTime s), timer)

end Karg.TimerService
