import Karg.Vm

namespace Karg.ProcStack

open ByteMemory KernelMemory PageAlloc Vm

def procFlagKern : UInt32 := 0x1

def csrSstatusSpie : BitVec 64 := 0x20

def csrSstatusSpp : BitVec 64 := 0x100

structure Layout where
  freeList : Nat
  trampoline : Nat
  procEntry : Nat

structure Proc where
  flags : UInt32
  pageTable : Nat
  kernStack : Nat
  userStack : Nat
  sp : Nat

def initialSstatus (sstatus : BitVec 64) (flags : UInt32) : BitVec 64 :=
  let sstatus := sstatus ||| csrSstatusSpie
  if flags &&& procFlagKern ≠ 0 then sstatus ||| csrSstatusSpp else sstatus &&& ~~~csrSstatusSpp

def initialSatp (pageTable : Nat) : BitVec 64 := 8 <<< 60 ||| BitVec.ofNat 64 (pageTable / pageSize)

def procFillStack (procEntry : Nat) (sstatus : BitVec 64) (m : Memory) (proc : Proc) (entry usp : Nat) (argc : Int)
    (argv : Nat) : Memory × Proc :=
  let sp := usizeSub proc.sp (8 * 38)
  let m := store m (sp + 8 * 31) 8 argv
  let m := store m (sp + 8 * 30) 8 (BitVec.ofInt 64 argc).toNat
  let m := store m (sp + 8 * 27) 8 entry
  let m := store m (sp + 8 * 26) 8 (initialSstatus sstatus proc.flags).toNat
  let m := store m (sp + 8 * 25) 8 (BitVec.ofNat 64 usp &&& ~~~0xF).toNat
  let m := store m (sp + 8 * 16) 8 (initialSatp proc.pageTable).toNat
  let m := store m (sp + 8 * 15) 8 procEntry
  (m, { proc with sp := sp })

def strLen (fuel : Nat) (m : Memory) (str : Nat) : Option Nat :=
  match fuel with
  | 0 => none
  | fuel + 1 => if m.byte str = 0 then some 0 else (strLen fuel m (str + 1)).map (· + 1)

/-- The loop of `init_stacks` over the arguments from `i` on, of which `n` are
left, with the new value of `usp`. -/
def copyArgs (fuel argv newArgv : Nat) (m : Memory) (usp i : Nat) : Nat → Option (Memory × Nat)
  | 0 => some (m, usp)
  | n + 1 => do
      let arg := load m (argv + 8 * i) 8
      let len ← strLen fuel m arg
      let usp := usizeSub usp (len + 1)
      let m := store m (newArgv + 8 * i) 8 usp
      copyArgs fuel argv newArgv (memCopy m usp arg (len + 1)) usp (i + 1) n

def initStacks (l : Layout) (sstatus : BitVec 64) (fuel : Nat) (m : Memory) (proc : Proc) (entry : Nat) (argc : Int)
    (argv : Nat) : Option (Memory × Proc × Int) :=
  let (m, kernStack) := pageAlloc l.freeList m
  let (m, userStack) := pageAlloc l.freeList m
  let proc := { proc with kernStack := kernStack, userStack := userStack }
  if kernStack = nullptr ∨ userStack = nullptr then some (m, proc, -enomem)
  else do
    let usp := usizeSub (usizeAdd userStack pageSize) (usizeMul (BitVec.ofInt 64 (argc + 1)).toNat 8)
    let newArgv := usp
    let m := store m (usizeAdd newArgv (BitVec.ofInt 64 (8 * argc)).toNat) 8 nullptr
    let (m, usp) ← copyArgs fuel argv newArgv m usp 0 argc.toNat
    let proc := { proc with sp := usizeAdd kernStack pageSize }
    let (m, proc) := procFillStack l.procEntry sstatus m proc entry usp argc newArgv
    some (m, proc, 0)

def mapStacks (l : Layout) (s : Space) (proc : Proc) : Space × Int :=
  let (s, res) := vmMapPage l.freeList s proc.pageTable l.trampoline l.trampoline
    (vmFlagReadable ||| vmFlagExecutable)
  if res < 0 then (s, res)
  else
    let (s, res) := vmMapPage l.freeList s proc.pageTable proc.kernStack proc.kernStack
      (vmFlagReadable ||| vmFlagWritable)
    if res < 0 then (s, res)
    else
      let (s, res) := vmMapPage l.freeList s proc.pageTable proc.userStack proc.userStack
        (vmFlagReadable ||| vmFlagWritable ||| vmFlagUser)
      if res < 0 then (s, res) else (s, 0)

end Karg.ProcStack
