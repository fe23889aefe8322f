import Karg.Execution
import Karg.ProcStack
import Karg.TrapCode

namespace Karg.TrapSystem

open ByteMemory KernelMemory PageAlloc ProcStack Riscv TrapCode

def csrScauseIntr : BitVec 64 := 0x8000000000000000

def csrScauseEcallU : BitVec 64 := 8

def rvInstrLen : BitVec 64 := 4

def nrSyscalls : BitVec 64 := 9

def enosys : BitVec 64 := 88

/-- The writes of `trap_handler` to its frame up to its call of another function,
and whether that is a call through `SYSCALL_TABLE`. -/
def trapHandler (m : Memory) (frame : Nat) : Memory × Bool :=
  let scause := word m (frame + 16)
  if scause &&& csrScauseIntr ≠ 0 then (m, false)
  else if scause = csrScauseEcallU then
    let m := setWord m (frame + 8) (word m (frame + 8) + rvInstrLen)
    if nrSyscalls ≤ word m (frame + 88) then (setWord m (frame + 32) (-enosys), false) else (m, true)
  else (m, false)

def trapHandlerEnd (m : Memory) (frame : Nat) (syscall : Bool) (result : BitVec 64) : Memory :=
  if syscall then setWord m (frame + 32) result else m

structure Start where
  flags : UInt32
  pageTable : Nat
  entry : Nat
  usp : Nat
  argc : Int
  argv : Nat
  sstatus : BitVec 64

/-- A trap under way: the context at its first instruction, whether
`trap_handler` has called a system call, the registers it was called with, and
whether each `ctx_sw` that it has waited for has kept the calling convention. -/
structure Trap where
  ctx : Context
  scause : BitVec 64
  syscall : Bool
  call : Reg → BitVec 64
  honoured : Prop

def Trap.of (c c' : Cpu) (syscall : Bool) : Trap := ⟨Context.of c, c.csr .scause, syscall, c'.x, True⟩

/-- A call of `ctx_sw` with these registers, in this memory, has returned as the
calling convention asks, with the stack up to its top as it was. -/
def Honours (c : Cpu) (top : Nat) (x : Reg → BitVec 64) (m : Memory) : Prop :=
  c.x .sp = x .sp ∧ (∀ r ∈ Reg.ra :: preserved, c.x r = x r) ∧
    ∀ a, (x .sp).toNat ≤ a → a < top → c.mem.byte a = m.byte a

inductive Phase
  | fresh (f : Start)
  | starting (f : Start)
  | user
  | kernel (t : Trap)
  /-- In `ctx_sw`, which was called with these registers in this memory. -/
  | switched (t : Trap) (x : Reg → BitVec 64) (m : Memory)

def Phase.resume (c : Cpu) (top : Nat) : Phase → Phase
  | .fresh f => .starting f
  | .switched t x m => .kernel { t with honoured := t.honoured ∧ Honours c top x m }
  | phase => phase

structure Thread where
  kernStack : Nat
  spField : Nat
  phase : Phase

namespace Thread

def top (th : Thread) : Nat := th.kernStack + pageSize

def own (th : Thread) : Set Nat := place th.kernStack pageSize ∪ place th.spField 8

def saved (th : Thread) : Set Nat :=
  match th.phase with
  | .fresh _ => place (th.top - 304) 304 ∪ place th.spField 8
  | .starting _ => place (th.top - 304) 304
  | .user => ∅
  | .kernel _ => place (th.top - 176) 176
  | .switched _ x _ => Set.Ico ((x .sp).toNat - 128) th.top ∪ place th.spField 8

structure Placed (th : Thread) : Prop where
  page : th.top < 2 ^ 64
  field : th.spField < 2 ^ 64
  apart : Disjoint (place th.kernStack pageSize) (place th.spField 8)

end Thread

variable {P : Type} [DecidableEq P]

def guarded (threads : P → Option Thread) : Set Nat := { a | ∃ p th, threads p = some th ∧ a ∈ th.saved }

structure System (P : Type) where
  cpu : Cpu
  threads : P → Option Thread
  curr : Option P

namespace System

def Current (s : System P) (p : P) (th : Thread) : Prop := s.curr = some p ∧ s.threads p = some th

def InKernel (s : System P) : Prop := ∀ p, s.curr = some p → ∃ th t, s.threads p = some th ∧ th.phase = .kernel t

def put (s : System P) (p : P) (th : Thread) (phase : Phase) (c : Cpu) : System P :=
  ⟨c, Function.update s.threads p (some { th with phase := phase }), s.curr⟩

def load (threads : P → Option Thread) (q : P) (th : Thread) (c : Cpu) : System P :=
  ⟨c, Function.update threads q (some { th with phase := th.phase.resume c th.top }), some q⟩

def suspend (s : System P) (p : P) (th : Thread) (t : Trap) : P → Option Thread :=
  Function.update s.threads p (some { th with phase := .switched t s.cpu.x s.cpu.mem })

end System

def fill (procEntry : Nat) (m : Memory) (kernStack spField : Nat) (f : Start) : Memory :=
  let proc : Proc := ⟨f.flags, f.pageTable, kernStack, 0, usizeAdd kernStack pageSize⟩
  let (m, proc) := procFillStack procEntry f.sstatus m proc f.entry f.usp f.argc f.argv
  setWord m spField (BitVec.ofNat 64 proc.sp)

inductive Event (P : Type)
  | user
  | code
  | trap
  | ret (result : BitVec 64)
  | start
  | switch (q : P)
  | leave (q : P)
  | create (q : P)
  | remove (q : P)

/-- A step of the machine. The code of a process and the C code of the kernel
may do what they like outside of the guarded frames, and `trap_handler` returns
with the registers that its caller relies on if it finds them after `ctx_sw`. -/
inductive Step (procEntryAddr : Nat) (s : System P) : Event P → System P → Prop
  | user {p th} (c : Cpu) (h : s.Current p th) (hp : th.phase = .user)
      (hscratch : c.csr .sscratch = s.cpu.csr .sscratch)
      (hm : Only (guarded s.threads)ᶜ s.cpu.mem c.mem) : Step procEntryAddr s .user { s with cpu := c }
  | code (c : Cpu) (h : s.InKernel) (hm : Only (guarded s.threads)ᶜ s.cpu.mem c.mem) :
      Step procEntryAddr s .code { s with cpu := c }
  | trap {p th c r} (h : s.Current p th) (hp : th.phase = .user) (hc : c = exec trampoline s.cpu)
      (hr : r = trapHandler c.mem (c.x .a0).toNat) : Step procEntryAddr s .trap
        (s.put p th (.kernel (.of s.cpu c r.2)) { c with mem := r.1 })
  | ret {p th t} (result : BitVec 64) (h : s.Current p th) (hp : th.phase = .kernel t)
      (hx : t.honoured → ∀ r ∈ Reg.sp :: preserved, s.cpu.x r = t.call r) :
      Step procEntryAddr s (.ret result) (s.put p th .user
        (exec procEntry { s.cpu with mem := trapHandlerEnd s.cpu.mem (t.call .a0).toNat t.syscall result }))
  | start {p th f} (h : s.Current p th) (hp : th.phase = .starting f) :
      Step procEntryAddr s .start (s.put p th .user (exec procEntry s.cpu))
  | switch {p th t q th'} (h : s.Current p th) (hp : th.phase = .kernel t) (hq : s.suspend p th t q = some th')
      (ha₀ : s.cpu.x .a0 = BitVec.ofNat 64 th.spField) (ha₁ : s.cpu.x .a1 = BitVec.ofNat 64 th'.spField)
      (hlow : th.kernStack + 128 ≤ (s.cpu.x .sp).toNat) (hhigh : (s.cpu.x .sp).toNat ≤ th.top - 176) :
      Step procEntryAddr s (.switch q) (.load (s.suspend p th t) q th' (exec ctxSw s.cpu))
  | leave {q th'} (h : s.curr = none) (hq : s.threads q = some th') (ha₁ : s.cpu.x .a1 = BitVec.ofNat 64 th'.spField)
      (hlow : 128 ≤ (s.cpu.x .sp).toNat) (hsp : Disjoint (place ((s.cpu.x .sp).toNat - 128) 128) (guarded s.threads))
      (ha₀ : Disjoint (place (s.cpu.x .a0).toNat 8) (guarded s.threads)) :
      Step procEntryAddr s (.leave q) (.load s.threads q th' (exec ctxSw s.cpu))
  | create {q th f} (h : s.InKernel) (hq : s.threads q = none) (hp : th.phase = .fresh f) (hth : th.Placed)
      (hown : ∀ p th', s.threads p = some th' → Disjoint th'.own th.own) (hst : f.sstatus = s.cpu.csr .sstatus) :
      Step procEntryAddr s (.create q)
        ⟨{ s.cpu with mem := fill procEntryAddr s.cpu.mem th.kernStack th.spField f },
          Function.update s.threads q (some th), s.curr⟩
  | remove {q} (h : s.InKernel) :
      Step procEntryAddr s (.remove q) ⟨s.cpu, Function.update s.threads q none, if s.curr = some q then none else s.curr⟩

def Booting (s : System P) : Prop := s.curr = none ∧ ∀ p, s.threads p = none

def Reached (procEntryAddr : Nat) (s : System P) : Prop :=
  Execution.Reachable Booting (fun s e s' => Step procEntryAddr s e s') s

end Karg.TrapSystem
