import Karg.Errno
import Karg.Process
import Karg.ListNode

namespace Karg.ProcTable

open LinkStore ListNode TimerService Process

def procTableSize : Nat := 256

def newPid (d : Data) : Option Nat :=
  let free := fun pid => (d.procTable pid).isNone
  (List.range' (d.lastPid + 1) (procTableSize - (d.lastPid + 1))).find? free <|>
    (List.range d.lastPid).find? free

/-- `proc_init`, given the answer `res` of its calls that obtain the stacks and
map them; these touch neither the process tree nor a queue. The new stack makes
the process start in user mode. -/
def procInit (k : Kernel) (proc : ProcRef) (parent : Option ProcRef) (res : Int) : Kernel × Int :=
  match newPid k.toData with
  | none => ({ k with toData := k.setProc proc { k.procs proc with pid := -eagain } }, -eagain)
  | some pid =>
      let k : Kernel := { k with lastPid := pid }
      let k : Kernel := { k with toData := k.setProc proc { k.procs proc with pid := pid, parent := parent } }
      let k : Kernel := { k with tree := listInitHead k.tree (.children proc) }
      let k : Kernel := { k with tree := listInitHead k.tree (.zombieChildren proc) }
      let k : Kernel := { k with toData := k.setState proc .init }
      let k : Kernel := { k with timers := timerInit k.timers (.proc proc) }
      let k : Kernel := { k with toData := k.setResume proc .user }
      if res < 0 then (k, res)
      else
        let k : Kernel := { k with procTable := Function.update k.procTable pid (some proc) }
        match parent with
        | some parent => ({ k with tree := listPushBack k.tree (.children parent) (.treeNode proc) }, 0)
        | none => (k, 0)

/-- `proc_deinit` without its three calls of `page_free`. -/
def procDeinit (k : Kernel) (proc : ProcRef) : Kernel :=
  let k : Kernel := { k with tree := listRemove k.tree (.treeNode proc) }
  { k with procTable := Function.update k.procTable (k.procs proc).pid.toNat none }

def procAdopt (k : Kernel) (newParent proc : ProcRef) : Kernel :=
  let k : Kernel := { k with tree := listRemove k.tree (.treeNode proc) }
  let k : Kernel := { k with toData := k.setProc proc { k.procs proc with parent := some newParent } }
  if (k.procs proc).state ≠ .zombie then
    { k with tree := listPushBack k.tree (.children newParent) (.treeNode proc) }
  else
    { k with tree := listPushBack k.tree (.zombieChildren newParent) (.treeNode proc) }

end Karg.ProcTable
