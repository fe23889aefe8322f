import Karg.TimerService
import Mathlib.Algebra.Group.Int.Defs

namespace Karg.Process

open LinkStore TimerService

inductive ProcState
  | init
  | ready
  | curr
  | waitSem
  | waitChild
  | sleep
  | zombie
  deriving DecidableEq

/-- The objects of type `proc_t`: the one of `sched.c`, the one on the stack of
`kmain`, and those that `sys_proc` obtains from `kmalloc`. -/
inductive ProcRef
  | idleProc
  | initProc
  | heap (addr : Nat)
  deriving DecidableEq

abbrev SemRef := Nat

inductive TimerRef
  | sched
  | proc (proc : ProcRef)
  deriving DecidableEq

inductive Callback
  | schedPreempt
  | wakeupProc
  deriving DecidableEq

inductive QueueNode
  | readyQueue
  | waitQueue (sem : SemRef)
  | node (proc : ProcRef)
  deriving DecidableEq

inductive TreeNode
  | children (proc : ProcRef)
  | zombieChildren (proc : ProcRef)
  | treeNode (proc : ProcRef)
  deriving DecidableEq

/-- What a process has left to do in the kernel when it is switched to: nothing,
or the part of `sys_wait` after its call of `sched_update_state`. -/
inductive Resume
  | user
  | wait (status : Nat)
  deriving DecidableEq

structure Proc where
  pid : Int
  parent : Option ProcRef
  state : ProcState
  procWaiting : Option ProcRef
  exitStatus : BitVec 32

/-- The kernel's data apart from the links of its lists. The heap blocks are
those that hold a `proc_t`; `semInited` records the calls of `sem_init`. -/
structure Data where
  procs : ProcRef → Proc
  procTable : Nat → Option ProcRef
  lastPid : Nat
  currProc : Option ProcRef
  semVal : SemRef → Int
  semInited : SemRef → Bool
  allocated : Nat → Bool
  resume : ProcRef → Resume

structure Kernel extends Data where
  queues : Links QueueNode
  tree : Links TreeNode
  timers : Service TimerRef Callback (Option ProcRef)

def entryNode : QueueNode → Option ProcRef
  | .node proc => some proc
  | _ => none

def entryTreeNode : TreeNode → Option ProcRef
  | .treeNode proc => some proc
  | _ => none

namespace Data

def setProc (d : Data) (proc : ProcRef) (p : Proc) : Data := { d with procs := Function.update d.procs proc p }

def setState (d : Data) (proc : ProcRef) (state : ProcState) : Data :=
  d.setProc proc { d.procs proc with state := state }

def setVal (d : Data) (sem : SemRef) (val : Int) : Data := { d with semVal := Function.update d.semVal sem val }

def setResume (d : Data) (proc : ProcRef) (r : Resume) : Data :=
  { d with resume := Function.update d.resume proc r }

def live (d : Data) : ProcRef → Bool
  | .idleProc | .initProc => true
  | .heap addr => d.allocated addr

theorem live_congr {d d' : Data} (h : d'.allocated = d.allocated) (p : ProcRef) : d'.live p = d.live p := by
  cases p <;> simp only [live, h]

end Data

@[simp] theorem setProc_procs_self (d : Data) (p : ProcRef) (x : Proc) : (d.setProc p x).procs p = x :=
  Function.update_self ..

theorem setProc_procs_ne (d : Data) {p q : ProcRef} (x : Proc) (hq : q ≠ p) : (d.setProc p x).procs q = d.procs q :=
  Function.update_of_ne hq ..

theorem setState_state (d : Data) (p q : ProcRef) (state : ProcState) :
    ((d.setState p state).procs q).state = if q = p then state else (d.procs q).state := by
  by_cases hq : q = p
  · subst hq; simp [Data.setState]
  · rw [if_neg hq, Data.setState, setProc_procs_ne _ _ hq]

def i32Max : Int := 2 ^ 31 - 1

def i32Min : Int := -2 ^ 31

def incr (val : Int) : Option Int := if val < i32Max then some (val + 1) else none

def decr (val : Int) : Option Int := if i32Min < val then some (val - 1) else none

end Karg.Process
