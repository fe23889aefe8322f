import Karg.KernelRuns
import Karg.StableInsertion

namespace Karg.KernelModel

open TimerService Process ProcTable Sched Syscalls KernelRuns StableInsertion

/-- The kernel with a sequence of processes or timers for each list: `queue` for
the lists through `node`, `kin` for those through `tree_node`. -/
structure Model extends Data where
  queue : QueueNode → List ProcRef
  kin : TreeNode → List ProcRef
  sleepers : List TimerRef
  timer : TimerRef → Timer Callback (Option ProcRef)
  timerFreq : Nat

namespace Model

def push (a : Model) (h : QueueNode) (p : ProcRef) : Model :=
  { a with queue := Function.update a.queue h (p :: a.queue h) }

def wake (a : Model) (p : ProcRef) : Model :=
  push { a with toData := a.setState p .ready } .readyQueue p

def dispatch (a : Model) : Model :=
  match a.queue .readyQueue with
  | [] => a
  | p :: rest =>
      { a with
        toData := { a.setState p .curr with currProc := some p }
        queue := Function.update a.queue .readyQueue rest }

def block (a : Model) (p : ProcRef) (state : ProcState) : Model :=
  dispatch { a with toData := { a.setState p state with currProc := none } }

def arm (a : Model) (t : TimerRef) (T : Timer Callback (Option ProcRef)) : Model :=
  let timer := Function.update a.timer t T
  { a with
    timer := timer
    sleepers := insertBefore (fun u => decide ((timer t).time < (timer u).time)) t a.sleepers }

def sleep (a : Model) (p : ProcRef) (now ns : Nat) : Model :=
  block (a.arm (.proc p) ⟨deadline a.timerFreq now ns, .wakeupProc, some p⟩) p .sleep

def preempt (a : Model) (now : Nat) : Model :=
  a.arm .sched ⟨deadline a.timerFreq now schedTimeslice, .schedPreempt, none⟩

def semInit (a : Model) (sem : SemRef) : Model :=
  { a with toData := { a.setVal sem 0 with semInited := Function.update a.semInited sem true } }

def wakeFirst (a : Model) (sem : SemRef) : Model :=
  match a.queue (.waitQueue sem) with
  | [] => a
  | p :: rest => wake { a with queue := Function.update a.queue (.waitQueue sem) rest } p

def semSignal (a : Model) (sem : SemRef) : Model :=
  let b : Model := { a with toData := a.setVal sem (a.semVal sem + 1) }
  if a.semVal sem < 0 then b.wakeFirst sem else b

def semSignaln (a : Model) (sem : SemRef) : Nat → Model
  | 0 => a
  | n + 1 => (a.semSignal sem).semSignaln sem n

def semWait (a : Model) (sem : SemRef) (curr : ProcRef) : Model :=
  let b : Model := { a with toData := a.setVal sem (a.semVal sem - 1) }
  if a.semVal sem - 1 < 0 then
    block { b with queue := Function.update b.queue (.waitQueue sem) (b.queue (.waitQueue sem) ++ [curr]) }
      curr .waitSem
  else b

def create (a : Model) (p : ProcRef) (pid : Nat) (parent : Option ProcRef) : Model :=
  let d : Data := { a.toData with lastPid := pid }
  let d := d.setProc p { d.procs p with pid := pid, parent := parent }
  let d := (d.setState p .init).setResume p .user
  let d : Data := { d with procTable := Function.update d.procTable pid (some p) }
  { a with
    toData := d
    kin := match parent with
      | some parent => Function.update a.kin (.children parent) (a.kin (.children parent) ++ [p])
      | none => a.kin }

def spawn (a : Model) (addr pid : Nat) (parent : ProcRef) : Model :=
  let b : Model := { a with allocated := Function.update a.allocated addr true }
  (b.create (.heap addr) pid (some parent)).wake (.heap addr)

def adopt (a : Model) (src dst : TreeNode) (init : ProcRef) : Model :=
  { a with
    procs := fun p => if p ∈ a.kin src then { a.procs p with parent := some init } else a.procs p
    kin := Function.update (Function.update a.kin dst (a.kin dst ++ a.kin src)) src [] }

def bury (a : Model) (p parent : ProcRef) : Model :=
  let kin := Function.update a.kin (.children parent) ((a.kin (.children parent)).erase p)
  { a with kin := Function.update kin (.zombieChildren parent) (kin (.zombieChildren parent) ++ [p]) }

def notify (a : Model) (p parent : ProcRef) : Model :=
  if (a.procs parent).state = .waitChild then
    wake { a with toData := a.setProc parent { a.procs parent with procWaiting := some p } } parent
  else a

def disown (a : Model) (p : ProcRef) (status : BitVec 32) : Model :=
  let b : Model := { a with toData := a.setProc p { a.procs p with exitStatus := status } }
  let b := b.adopt (.children p) (.children .initProc) .initProc
  b.adopt (.zombieChildren p) (.zombieChildren .initProc) .initProc

def leave (a : Model) (p parent : ProcRef) (status : BitVec 32) : Model := (a.disown p status).bury p parent

def exit (a : Model) (p parent : ProcRef) (status : BitVec 32) : Model :=
  ((a.leave p parent status).notify p parent).block p .zombie

def reap (a : Model) (p : ProcRef) (addr : Nat) : Model :=
  { a with
    procTable := Function.update a.procTable (a.procs (.heap addr)).pid.toNat none
    allocated := Function.update a.allocated addr false
    kin := Function.update a.kin (.zombieChildren p) ((a.kin (.zombieChildren p)).erase (.heap addr)) }

end Model

def reaped (d : Data) (child : ProcRef) : Outcome :=
  .reaped child (d.procs child).pid ((d.procs child).exitStatus &&& 0xFF)

inductive Step (a : Model) : Op → Outcome → Model → Prop
  | semInit (sem) (hs : a.semInited sem = false) : Step a (.semInit sem) (.ret 0) (a.semInit sem)
  | proc (p) (addr) (pid) (hc : Calls a.toData p) (ha : a.allocated addr = false)
      (hp : newPid a.toData = some pid) : Step a (.proc addr) (.ret pid) (a.spawn addr pid p)
  | yield : Step a .yield (.ret 0) a
  | sleep (p) (now) (ns) (hc : Calls a.toData p) : Step a (.sleep now ns) (.ret 0) (a.sleep p now ns)
  | waitNone (p) (status) (hc : Calls a.toData p) (hl : a.kin (.children p) = [])
      (hz : a.kin (.zombieChildren p) = []) : Step a (.wait status) (.ret (-echild)) a
  | waitZombie (p) (status) (addr) (rest) (hc : Calls a.toData p)
      (hz : a.kin (.zombieChildren p) = .heap addr :: rest) :
      Step a (.wait status) (reaped a.toData (.heap addr)) (a.reap p addr)
  | waitBlock (p) (status) (hc : Calls a.toData p) (hl : a.kin (.children p) ≠ [])
      (hz : a.kin (.zombieChildren p) = []) :
      Step a (.wait status) .blocked
        (Model.block { a with toData := a.setResume p (.wait status) } p .waitChild)
  | exit (p) (parent) (status) (hc : Calls a.toData p) (hi : (a.procs p).pid ≠ 1)
      (hp : (a.procs p).parent = some parent) :
      Step a (.exit status)
        (.exited (if (a.procs parent).state = .waitChild then some parent else none)) (a.exit p parent status)
  | resume (p) (addr) (hc : a.currProc = some p) (hr : a.resume p ≠ .user)
      (hw : (a.procs p).procWaiting = some (.heap addr)) (hz : .heap addr ∈ a.kin (.zombieChildren p)) :
      Step a .resume (reaped a.toData (.heap addr))
        (Model.reap { a with toData := a.setResume p .user } p addr)
  | semWait (p) (sem) (hc : Calls a.toData p) (hs : a.semInited sem) :
      Step a (.semWait sem) (.ret 0) (a.semWait sem p)
  | semSignal (sem) (hs : a.semInited sem) : Step a (.semSignal sem) (.ret 0) (a.semSignal sem)
  | semSignaln (sem) (n) (hs : a.semInited sem) : Step a (.semSignaln sem n) (.ret 0) (a.semSignaln sem n)
  | semDeinit (sem) (hs : a.semInited sem) :
      Step a (.semDeinit sem) (.ret 0) (a.semSignaln sem ((-a.semVal sem).toNat + 1))
  | wakeup (now) (p) (rest) (hs : a.sleepers = .proc p :: rest) :
      Step a (.timerIsr now) (.ret 0) (Model.wake { a with sleepers := rest } p)
  | preempt (now) (rest) (hs : a.sleepers = .sched :: rest) :
      Step a (.timerIsr now) (.ret 0) (Model.preempt { a with sleepers := rest } now)

/-- The state and the operation determine the outcome and the next state. -/
theorem Step.unique {a b b' : Model} {op : Op} {out out' : Outcome} (h : Step a op out b) (h' : Step a op out' b') :
    out = out' ∧ b = b' := by
  cases h <;> cases h' <;> grind [Calls]

end Karg.KernelModel
