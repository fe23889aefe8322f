import Karg.Process
import Karg.ListNode

namespace Karg.Sched

open LinkStore ListNode TimerService Process

def schedTimeslice : Nat := 10000000

/-- The first switch of `sched_update_state`, on the state that is left. -/
def leaveState (k : Kernel) (proc : ProcRef) : Kernel :=
  match (k.procs proc).state with
  | .ready => { k with queues := listRemove k.queues (.node proc) }
  | .sleep => { k with timers := timerCancel k.timers (.proc proc) }
  | _ => k

def enterState (resched : Kernel → Option Kernel) (k : Kernel) (proc : ProcRef) (state : ProcState) :
    Option Kernel :=
  match state with
  | .ready => some { k with queues := listPushFront k.queues .readyQueue (.node proc) }
  | .curr => some { k with currProc := some proc }
  | .waitSem | .waitChild | .sleep => if k.currProc = some proc then resched k else some k
  | .zombie => if k.currProc = some proc then resched { k with currProc := none } else some k
  | .init => some k

/-- `sched_update_state`, over the `sched_resched` that it calls. -/
def updateState (resched : Kernel → Option Kernel) (k : Kernel) (proc : ProcRef) (state : ProcState) :
    Option Kernel :=
  if (k.procs proc).state = state then some k
  else
    let k := leaveState k proc
    let k : Kernel := { k with toData := k.setState proc state }
    enterState resched k proc state

/-- `sched_resched` up to where it looks at the ready queue. Its calls to `READY` and
`CURR` never come back to it, see `schedRequeue_eq` and `schedPick_eq`. -/
def schedRequeue (k : Kernel) : Option Kernel :=
  match k.currProc with
  | some old => if (k.procs old).state = .curr then updateState (fun _ => none) k old .ready else some k
  | none => some k

def schedPick (k : Kernel) : Option Kernel := do
  let new ← entryNode (listFront k.queues .readyQueue)
  updateState (fun _ => none) k new .curr

def schedResched (k : Kernel) : Option Kernel := do
  let k ← schedRequeue k
  schedPick k

def schedUpdateState (k : Kernel) (proc : ProcRef) (state : ProcState) : Option Kernel :=
  updateState schedResched k proc state

-- The two functions of `sched.c` call each other as written there.

theorem schedRequeue_eq (k : Kernel) : schedRequeue k =
    match k.currProc with
    | some old => if (k.procs old).state = .curr then schedUpdateState k old .ready else some k
    | none => some k := rfl

theorem schedPick_eq (k : Kernel) : schedPick k = (do
    let new ← entryNode (listFront k.queues .readyQueue)
    schedUpdateState k new .curr) := rfl

def schedArm (fuel now : Nat) (k : Kernel) : Option Kernel := do
  let timers ← timerWait fuel k.timers .sched now schedTimeslice .schedPreempt none
  some { k with timers := timers }

def schedPreempt (fuel now : Nat) (k : Kernel) : Option Kernel := do
  let k ← schedArm fuel now k
  schedResched k

end Karg.Sched
