import Karg.Sched

namespace Karg.Sem

open LinkStore ListNode Process Sched

def semInit (k : Kernel) (sem : SemRef) : Kernel :=
  let k : Kernel := { k with queues := listInitHead k.queues (.waitQueue sem) }
  { k with toData := { k.setVal sem 0 with semInited := Function.update k.semInited sem true } }

def wakeFirst (k : Kernel) (sem : SemRef) : Option Kernel := do
  let proc ← entryNode (listFront k.queues (.waitQueue sem))
  let k : Kernel := { k with queues := listPopFront k.queues (.waitQueue sem) }
  schedUpdateState k proc .ready

def semDeinit (fuel : Nat) (k : Kernel) (sem : SemRef) : Option Kernel :=
  match fuel with
  | 0 => none
  | fuel + 1 => do
      let val := k.semVal sem
      let next ← incr val
      let k : Kernel := { k with toData := k.setVal sem next }
      if val < 0 then
        let k ← wakeFirst k sem
        semDeinit fuel k sem
      else some k

def semEnqueue (k : Kernel) (sem : SemRef) : Option (Kernel × Option ProcRef) := do
  let val ← decr (k.semVal sem)
  let k : Kernel := { k with toData := k.setVal sem val }
  if val < 0 then
    let proc ← k.currProc
    some ({ k with queues := listPushBack k.queues (.waitQueue sem) (.node proc) }, some proc)
  else some (k, none)

def semWait (k : Kernel) (sem : SemRef) : Option Kernel := do
  let (k, waiting) ← semEnqueue k sem
  match waiting with
  | some proc => schedUpdateState k proc .waitSem
  | none => some k

def semSignal (k : Kernel) (sem : SemRef) : Option Kernel := do
  let val := k.semVal sem
  let next ← incr val
  let k : Kernel := { k with toData := k.setVal sem next }
  if val < 0 then wakeFirst k sem else some k

def semSignaln (k : Kernel) (sem : SemRef) : Nat → Option Kernel
  | 0 => some k
  | n + 1 => do
      let k ← semSignal k sem
      semSignaln k sem n

end Karg.Sem
