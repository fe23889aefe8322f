import Karg.ProcTable
import Karg.Sched

namespace Karg.Syscalls

open LinkStore ListNode TimerService Process ProcTable Sched

/-- How a call ends: it returns a value, blocks its caller, hands a dead child
to its caller with the two values that `sys_wait` returns and stores, or ends
its caller, having made a waiting parent ready or not. -/
inductive Outcome
  | ret (value : Int)
  | blocked
  | reaped (child : ProcRef) (pid : Int) (status : BitVec 32)
  | exited (woken : Option ProcRef)
  deriving DecidableEq

def sysYield (k : Kernel) : Option (Kernel × Outcome) := do
  let k ← schedResched k
  some (k, .ret 0)

def wakeupProc (k : Kernel) (data : Option ProcRef) : Option Kernel := do
  let proc ← data
  schedUpdateState k proc .ready

def sysSleepArm (fuel now : Nat) (k : Kernel) (ns : Nat) : Option (Kernel × ProcRef) := do
  let curr ← k.currProc
  let timers ← timerWait fuel k.timers (.proc curr) now ns .wakeupProc (some curr)
  some ({ k with timers := timers }, curr)

def sysSleep (fuel now : Nat) (k : Kernel) (ns : Nat) : Option (Kernel × Outcome) := do
  let (k, curr) ← sysSleepArm fuel now k ns
  let k ← schedUpdateState k curr .sleep
  some (k, .ret 0)

/-- `sys_proc` with non-null arguments, given the block that `kmalloc` returns
and the answer of the memory calls of `proc_init`. -/
def sysProc (k : Kernel) (block : Option Nat) (res : Int) : Option (Kernel × Outcome) :=
  match block with
  | none => some (k, .ret (-enomem))
  | some addr => do
      let k : Kernel := { k with allocated := Function.update k.allocated addr true }
      let (k, res) := procInit k (.heap addr) k.currProc res
      if res < 0 then some (k, .ret res)
      else
        let k ← schedUpdateState k (.heap addr) .ready
        some (k, .ret (k.procs (.heap addr)).pid)

def kfree (k : Kernel) : ProcRef → Option Kernel
  | .heap addr => some { k with allocated := Function.update k.allocated addr false }
  | _ => none

/-- `sys_wait` from the label `quit` on. The block that is freed keeps its
bytes, so the pid is still the one of the child. -/
def sysWaitQuit (k : Kernel) (proc : ProcRef) : Option (Kernel × Outcome) := do
  let status := (k.procs proc).exitStatus &&& 0xFF
  let k ← kfree (procDeinit k proc) proc
  some (k, .reaped proc (k.procs proc).pid status)

def sysWait (k : Kernel) (status : Nat) : Option (Kernel × Outcome) := do
  let curr ← k.currProc
  if listEmpty k.tree (.children curr) && listEmpty k.tree (.zombieChildren curr) then
    some (k, .ret (-echild))
  else if !listEmpty k.tree (.zombieChildren curr) then
    let proc ← entryTreeNode (listFront k.tree (.zombieChildren curr))
    sysWaitQuit k proc
  else
    let k : Kernel := { k with toData := k.setResume curr (.wait status) }
    let k ← schedUpdateState k curr .waitChild
    some (k, .blocked)

def sysWaitResume (k : Kernel) : Option (Kernel × Outcome) := do
  let curr ← k.currProc
  let k : Kernel := { k with toData := k.setResume curr .user }
  let proc ← (k.procs curr).procWaiting
  sysWaitQuit k proc

def adoptLoop (list : ProcRef → TreeNode) (curr : ProcRef) (fuel : Nat) (k : Kernel) : Option Kernel :=
  match fuel with
  | 0 => none
  | fuel + 1 =>
      if listEmpty k.tree (list curr) then some k
      else do
        let child ← entryTreeNode (listFront k.tree (list curr))
        let init ← k.procTable 1
        adoptLoop list curr fuel (procAdopt k init child)

def sysExitWake (k : Kernel) (curr parent : ProcRef) : Option (Kernel × Option ProcRef) :=
  if (k.procs parent).state = .waitChild then do
    let k : Kernel := { k with toData := k.setProc parent { k.procs parent with procWaiting := some curr } }
    let k ← schedUpdateState k parent .ready
    some (k, some parent)
  else some (k, none)

def sysExitEnd (k : Kernel) (curr parent : ProcRef) : Option (Kernel × Outcome) := do
  let (k, woken) ← sysExitWake k curr parent
  let k ← schedUpdateState k curr .zombie
  some (k, .exited woken)

def adoptAll (fuel : Nat) (k : Kernel) (curr : ProcRef) (status : BitVec 32) : Option Kernel := do
  let k : Kernel := { k with toData := k.setProc curr { k.procs curr with exitStatus := status } }
  let k ← adoptLoop .children curr fuel k
  adoptLoop .zombieChildren curr fuel k

def sysExitLeave (fuel : Nat) (k : Kernel) (status : BitVec 32) : Option (Kernel × ProcRef × ProcRef) := do
  let curr ← k.currProc
  let k ← adoptAll fuel k curr status
  let parent ← (k.procs curr).parent
  let k : Kernel := { k with tree := listRemove k.tree (.treeNode curr) }
  some ({ k with tree := listPushBack k.tree (.zombieChildren parent) (.treeNode curr) }, curr, parent)

def sysExit (fuel : Nat) (k : Kernel) (status : BitVec 32) : Option (Kernel × Outcome) := do
  let (k, curr, parent) ← sysExitLeave fuel k status
  sysExitEnd k curr parent

/-- `timer_isr` with the callbacks that the kernel registers. -/
def timerInterrupt (fuel now : Nat) (k : Kernel) : Option Kernel := do
  let (timers, timer) ← timerIsr k.timers
  let k : Kernel := { k with timers := timers }
  match (timers.timers timer).callback with
  | .wakeupProc => wakeupProc k (timers.timers timer).data
  | .schedPreempt => schedPreempt fuel now k

end Karg.Syscalls
