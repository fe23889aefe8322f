import Karg.Vm

namespace Karg.FileSyscalls

open ByteMemory PageAlloc Vm

def procFdCapacity : Int := 64

def fdFlagUsed : UInt32 := 0x1

def fdFlagReadable : UInt32 := 0x2

def fdFlagWritable : UInt32 := 0x4

structure Fd (Dev : Type) where
  flags : UInt32
  dev : Dev

/-- The current process. Outside its capacity the index of `fds` finds whatever
memory lies there. -/
structure Proc (Dev : Type) where
  fds : Int → Fd Dev
  pageTable : Nat

structure Frame where
  a0 : BitVec 64
  a1 : BitVec 64
  a2 : BitVec 64

structure DevCall (Dev : Type) where
  dev : Dev
  buf : Nat
  size : Nat

/-- What a system call has done: the indices of `fds` that it has read, the call
of the device driver, and the value returned. -/
structure Trace (Dev : Type) where
  reads : List Int
  call : Option (DevCall Dev)
  res : Int

variable {Dev : Type}

def Frame.fd (frame : Frame) : Int := (frame.a0.setWidth 32).toInt

def procIsBadFd (proc : Proc Dev) (fd : Int) : Bool × List Int :=
  if fd < 0 || fd ≥ procFdCapacity then (true, []) else (!((proc.fds fd).flags &&& fdFlagUsed ≠ 0), [fd])

/-- `proc_is_bad_fd(curr_proc, fd) && !(curr_proc->fds[fd].flags & flag)` -/
def denied (proc : Proc Dev) (fd : Int) (flag : UInt32) : Bool × List Int :=
  let (bad, reads) := procIsBadFd proc fd
  if bad then (!((proc.fds fd).flags &&& flag ≠ 0), reads ++ [fd]) else (false, reads)

def sysRead (devRead : DevCall Dev → Int) (proc : Proc Dev) (frame : Frame) : Trace Dev :=
  let fd := frame.fd
  let buf := frame.a1.toNat
  let size := frame.a2.toNat
  let (deny, reads) := denied proc fd fdFlagReadable
  if deny then ⟨reads, none, -ebadf⟩
  else if buf = KernelMemory.nullptr then ⟨reads, none, -efault⟩
  else
    let call := ⟨(proc.fds fd).dev, buf, size⟩
    ⟨reads ++ [fd], some call, devRead call⟩

def sysWrite (devWrite : DevCall Dev → Int) (m : Memory) (proc : Proc Dev) (frame : Frame) : Trace Dev :=
  let fd := frame.fd
  let (buf, res) := vmVirtToPhys m proc.pageTable frame.a1.toNat 0
  if res < 0 then ⟨[], none, res⟩
  else
    let size := frame.a2.toNat
    let (deny, reads) := denied proc fd fdFlagWritable
    if deny then ⟨reads, none, -ebadf⟩
    else
      let call := ⟨(proc.fds fd).dev, buf, size⟩
      ⟨reads ++ [fd], some call, devWrite call⟩

end Karg.FileSyscalls
