import Karg.Execution
import Karg.Sem
import Karg.Syscalls

namespace Karg.KernelRuns

open LinkStore CircularList ListNode TimerService Process ProcTable Sched Sem Syscalls Execution

/-- Before `init_modules`: the static lists are empty, `.bss` is zero, and all
other memory is arbitrary. -/
structure PowerOn (k : Kernel) : Prop where
  readyQueue : Circular k.queues .readyQueue []
  waitQueue : Circular k.timers.links .waitQueue []
  currProc : k.currProc = none
  procTable (pid : Nat) : k.procTable pid = none
  lastPid : k.lastPid = procTableSize - 1
  allocated (addr : Nat) : k.allocated addr = false
  semInited (sem : SemRef) : k.semInited sem = false

def schedInit (k : Kernel) : Option Kernel := do
  let (k, res) := procInit k .idleProc none 0
  if res < 0 then none
  else
    let k ← schedUpdateState k .idleProc .ready
    some { k with timers := timerInit k.timers .sched }

def schedStart (fuel now : Nat) (k : Kernel) : Option Kernel := do
  let k ← schedArm fuel now k
  schedResched k

def kmainProcs (k : Kernel) : Option Kernel := do
  let k ← schedInit k
  let (k, res) := procInit k .initProc none 0
  if res < 0 then none else schedUpdateState k .initProc .ready

def kmain (fuel now : Nat) (k : Kernel) : Option Kernel := do
  let k ← kmainProcs k
  schedStart fuel now k

def Boot (k : Kernel) : Prop := ∃ k₀ now, PowerOn k₀ ∧ Converges (fun fuel => kmain fuel now k₀) k

inductive Op
  | semInit (sem : SemRef)
  | proc (addr : Nat)
  | yield
  | sleep (now ns : Nat)
  | wait (status : Nat)
  | exit (status : BitVec 32)
  | resume
  | semWait (sem : SemRef)
  | semSignal (sem : SemRef)
  | semSignaln (sem : SemRef) (n : Nat)
  | semDeinit (sem : SemRef)
  | timerIsr (now : Nat)

def exec (fuel : Nat) (k : Kernel) : Op → Option (Kernel × Outcome)
  | .semInit sem => some (semInit k sem, .ret 0)
  | .proc addr => sysProc k (some addr) 0
  | .yield => sysYield k
  | .sleep now ns => sysSleep fuel now k ns
  | .wait status => sysWait k status
  | .exit status => sysExit fuel k status
  | .resume => sysWaitResume k
  | .semWait sem => (semWait k sem).map (·, .ret 0)
  | .semSignal sem => (semSignal k sem).map (·, .ret 0)
  | .semSignaln sem n => (semSignaln k sem n).map (·, .ret 0)
  | .semDeinit sem => (semDeinit fuel k sem).map (·, .ret 0)
  | .timerIsr now => (timerInterrupt fuel now k).map (·, .ret 0)

/-- The current process is not the idle process, which only waits for
interrupts, and is not in the middle of a call. -/
def Calls (d : Data) (curr : ProcRef) : Prop :=
  d.currProc = some curr ∧ curr ≠ .idleProc ∧ d.resume curr = .user

/-- When an operation may come: calls from the current process, the rest of a
call when its process runs again, and the others at any time. `sys_proc` is
given a free block and finds a free pid; counts stay within their type. -/
def Allowed (k : Kernel) : Op → Prop
  | .semInit sem => k.semInited sem = false
  | .proc addr => (∃ curr, Calls k.toData curr) ∧ k.allocated addr = false ∧ (newPid k.toData).isSome
  | .yield => True
  | .sleep _ _ => ∃ curr, Calls k.toData curr
  | .wait _ => ∃ curr, Calls k.toData curr
  | .exit _ => ∃ curr, Calls k.toData curr ∧ (k.procs curr).pid ≠ 1
  | .resume => ∃ curr, k.currProc = some curr ∧ k.resume curr ≠ .user
  | .semWait sem => (∃ curr, Calls k.toData curr) ∧ k.semInited sem ∧ i32Min < k.semVal sem
  | .semSignal sem => k.semInited sem ∧ k.semVal sem < i32Max
  | .semSignaln sem n => k.semInited sem ∧ k.semVal sem + n ≤ i32Max
  | .semDeinit sem => k.semInited sem ∧ k.semVal sem < i32Max
  | .timerIsr _ => listEmpty k.timers.links .waitQueue = false

def Step (k : Kernel) (op : Op) (out : Outcome) (k' : Kernel) : Prop :=
  Allowed k op ∧ Converges (fun fuel => exec fuel k op) (k', out)

def Reached : Kernel → Prop := Reachable Boot fun k (i : Op × Outcome) k' => Step k i.1 i.2 k'

end Karg.KernelRuns
