import Karg.ContextRuns

namespace Karg.Privilege

open ByteMemory ProcStack Riscv TrapCode TrapSystem ContextFrames ContextRuns

def sie (c : Cpu) : Bool := (c.csr .sstatus).getLsbD 1

/-- `sstatus` after a trap from this mode: `SPIE` takes the value of `SIE`, which
is cleared, and `SPP` holds the mode. -/
def trapStatus (v : BitVec 64) (super : Bool) : BitVec 64 :=
  let w := v &&& ~~~(0x2 ||| csrSstatusSpie ||| csrSstatusSpp)
  let w := if v.getLsbD 1 then w ||| csrSstatusSpie else w
  if super then w ||| csrSstatusSpp else w

/-- `sstatus` after `sret`: `SIE` takes the value of `SPIE`, which is set, and
`SPP` is cleared. -/
def sretStatus (v : BitVec 64) : BitVec 64 :=
  let w := (v &&& ~~~(0x2 ||| csrSstatusSpp)) ||| csrSstatusSpie
  if v.getLsbD 5 then w ||| 0x2 else w

/-- The processor takes a trap: the next instruction is the first of `trampoline`. -/
def takeTrap (c : Cpu) (super : Bool) (pc cause val : BitVec 64) : Cpu :=
  { c with csr := fun
      | .sstatus => trapStatus (c.csr .sstatus) super
      | .sepc => pc
      | .scause => cause
      | .stval => val
      | csr => c.csr csr }

def takeSret (c : Cpu) : Cpu := { c with csr := Function.update c.csr .sstatus (sretStatus (c.csr .sstatus)) }

def kern (f : Start) : Bool := f.flags &&& procFlagKern ≠ 0

variable {P : Type}

/-- The machine with the mode of its processor, and the arguments with which
each process was created. -/
structure Machine (P : Type) where
  sys : System P
  super : Bool
  born : P → Start

def InUser (s : System P) : Prop := ∃ p th, s.Current p th ∧ th.phase = .user

namespace Machine

def accepts (m : Machine P) : Bool := !m.super || sie m.sys.cpu

def sret (m : Machine P) (s : System P) : Machine P :=
  { m with sys := { s with cpu := takeSret s.cpu }, super := (s.cpu.csr .sstatus).getLsbD 8 }

end Machine

/-- The states of the processor in which the kernel works between this state and
the next one, after each instruction of the assembly code. -/
inductive Works (m : Machine P) : Cpu → Prop
  | code (h : ¬ InUser m.sys) : Works m m.sys.cpu
  | trap {pre} (pc cause val : BitVec 64) (h : InUser m.sys) (hpre : pre <+: trampoline) :
      Works m (exec pre (takeTrap m.sys.cpu m.super pc cause val))
  | ret {p th t pre} (result : BitVec 64) (h : m.sys.Current p th) (hp : th.phase = .kernel t)
      (hx : t.honoured → ∀ r ∈ Reg.sp :: preserved, m.sys.cpu.x r = t.call r) (hpre : pre <+: procEntry) :
      Works m (exec pre
        { m.sys.cpu with mem := trapHandlerEnd m.sys.cpu.mem (t.call .a0).toNat t.syscall result })
  | start {p th f pre} (h : m.sys.Current p th) (hp : th.phase = .starting f) (hpre : pre <+: procEntry) :
      Works m (exec pre m.sys.cpu)
  | switch {pre} (h : ¬ InUser m.sys) (hpre : pre <+: ctxSw) : Works m (exec pre m.sys.cpu)

variable [DecidableEq P]

/-- A step of the machine. User mode cannot write `sstatus` and `satp`, and
neither the C code nor the process in supervisor mode does. If the processor
takes an interrupt while the kernel works, anything may follow. -/
inductive Step (procEntryAddr : Nat) (m : Machine P) : Option (Event P) → Machine P → Prop
  | user {s'} (h : TrapSystem.Step procEntryAddr m.sys .user s')
      (hstatus : s'.cpu.csr .sstatus = m.sys.cpu.csr .sstatus) (hsatp : s'.cpu.csr .satp = m.sys.cpu.csr .satp) :
      Step procEntryAddr m (some .user) { m with sys := s' }
  | code {s'} (h : TrapSystem.Step procEntryAddr m.sys .code s')
      (hstatus : s'.cpu.csr .sstatus = m.sys.cpu.csr .sstatus) (hsatp : s'.cpu.csr .satp = m.sys.cpu.csr .satp) :
      Step procEntryAddr m (some .code) { m with sys := s' }
  | trap {s'} (pc cause val : BitVec 64) (hintr : cause &&& csrScauseIntr ≠ 0 → m.accepts)
      (h : TrapSystem.Step procEntryAddr { m.sys with cpu := takeTrap m.sys.cpu m.super pc cause val } .trap s') :
      Step procEntryAddr m (some .trap) { m with sys := s', super := true }
  | ret {s'} (result : BitVec 64) (h : TrapSystem.Step procEntryAddr m.sys (.ret result) s') :
      Step procEntryAddr m (some (.ret result)) (m.sret s')
  | start {s'} (h : TrapSystem.Step procEntryAddr m.sys .start s') : Step procEntryAddr m (some .start) (m.sret s')
  | switch {s'} (q : P) (h : TrapSystem.Step procEntryAddr m.sys (.switch q) s') :
      Step procEntryAddr m (some (.switch q)) { m with sys := s' }
  | leave {s'} (q : P) (h : TrapSystem.Step procEntryAddr m.sys (.leave q) s') :
      Step procEntryAddr m (some (.leave q)) { m with sys := s' }
  | create {s' th f} (q : P) (h : TrapSystem.Step procEntryAddr m.sys (.create q) s') (hq : s'.threads q = some th)
      (hf : th.phase = .fresh f) :
      Step procEntryAddr m (some (.create q)) { m with sys := s', born := Function.update m.born q f }
  | remove {s'} (q : P) (h : TrapSystem.Step procEntryAddr m.sys (.remove q) s') :
      Step procEntryAddr m (some (.remove q)) { m with sys := s' }
  | nested {c} (m' : Machine P) (hw : Works m c) (hc : sie c) : Step procEntryAddr m none m'

structure Booting (m : Machine P) : Prop where
  empty : TrapSystem.Booting m.sys
  mode : m.super = true
  masked : sie m.sys.cpu = false
  bare : m.sys.cpu.csr .satp = 0

def Reached (procEntryAddr : Nat) (m : Machine P) : Prop :=
  Execution.Reachable Booting (fun m e m' => Step procEntryAddr m e m') m

section Bits

end Bits

section Code

variable {c : Cpu} {pre : List Instr} {csr : Csr}

theorem prefix_keeps {code : List Instr} (h : ∀ i ∈ code, i.keeps csr) (hpre : pre <+: code) (c : Cpu) :
    (exec pre c).csr csr = c.csr csr := exec_keeps (fun i hi => h i (hpre.subset hi)) c

theorem ctxSw_csr (hpre : pre <+: ctxSw) (c : Cpu) : (exec pre c).csr .sstatus = c.csr .sstatus ∧
    (exec pre c).csr .satp = c.csr .satp :=
  ⟨prefix_keeps (by decide) hpre c, prefix_keeps (by decide) hpre c⟩

end Code

structure Masked (m : Machine P) : Prop where
  mode : m.super = true
  masked : sie m.sys.cpu = false
  satp : m.sys.cpu.csr .satp = 0

structure Confined (m : Machine P) (f : Start) : Prop where
  mode : m.super = kern f
  unmasked : sie m.sys.cpu = true
  satp : m.sys.cpu.csr .satp = initialSatp f.pageTable

structure Saved (f : Start) (k : Context) : Prop where
  masked : k.sstatus.getLsbD 1 = false
  spie : k.sstatus.getLsbD 5 = true
  spp : k.sstatus.getLsbD 8 = kern f
  satp : k.satp = initialSatp f.pageTable

def Marked (f : Start) : Phase → Prop
  | .fresh f' | .starting f' => f' = f ∧ f.sstatus.getLsbD 1 = false
  | .user => True
  | .kernel t | .switched t _ _ => Saved f t.ctx

structure Inv (procEntryAddr : Nat) (m : Machine P) : Prop where
  reached : TrapSystem.Reached procEntryAddr m.sys
  marked : ∀ p th, m.sys.threads p = some th → Marked (m.born p) th.phase
  confined : ∀ p th, m.sys.Current p th → th.phase = .user → Confined m (m.born p)
  masked : ¬ InUser m.sys → Masked m

variable {procEntryAddr : Nat} {m m' : Machine P} {s s' : System P} {p q : P} {th th' : Thread} {t : Trap} {phase : Phase}
  {c : Cpu} {f : Start} {super : Bool} {threads : P → Option Thread}

section Systems

theorem put_current (hc : s.Current p th) : (s.put p th phase c).Current p { th with phase := phase } :=
  ⟨hc.1, Function.update_self ..⟩

theorem put_cases (h : (s.put p th phase c).threads q = some th') :
    q = p ∧ th'.phase = phase ∨ q ≠ p ∧ s.threads q = some th' := by
  by_cases hq : q = p
  · subst hq
    have heq := Option.some.inj ((Function.update_self q _ s.threads).symm.trans h)
    rw [← heq]
    exact .inl ⟨rfl, rfl⟩
  · exact .inr ⟨hq, (Function.update_of_ne hq ..).symm.trans h⟩

omit [DecidableEq P] in
theorem resume_marked (c : Cpu) (top : Nat) (h : Marked f phase) : Marked f (phase.resume c top) := by
  cases phase with
  | fresh | starting | user | kernel | switched => exact h

omit [DecidableEq P] in
theorem resume_not_user (c : Cpu) (top : Nat) (hw : Waiting th) : th.phase.resume c top ≠ .user := by
  rw [Waiting] at hw
  cases hp : th.phase with
  | fresh | switched =>
      intro heq
      cases heq
  | starting | user | kernel =>
      rw [hp] at hw
      exact hw.elim

end Systems

section Steps

theorem Inv.put (h : Inv procEntryAddr m) (hc : m.sys.Current p th)
    (hr : TrapSystem.Reached procEntryAddr (m.sys.put p th phase c)) (hk : Marked (m.born p) phase)
    (hu : phase = .user → Confined ⟨m.sys.put p th phase c, super, m.born⟩ (m.born p))
    (hm : phase ≠ .user → Masked ⟨m.sys.put p th phase c, super, m.born⟩) :
    Inv procEntryAddr ⟨m.sys.put p th phase c, super, m.born⟩ := by
  have hcur : (m.sys.put p th phase c).Current p { th with phase := phase } := put_current hc
  constructor
  · exact hr
  · intro q th' hq
    rcases put_cases hq with ⟨rfl, hp⟩ | ⟨-, hq⟩
    · rw [hp]
      exact hk
    · exact h.marked q th' hq
  · intro q th' hq hp
    obtain ⟨rfl, rfl⟩ := Current.unique hcur hq
    exact hu hp
  · intro hno
    apply hm
    rintro rfl
    exact hno ⟨p, _, hcur, rfl⟩

theorem Inv.load (h : Masked m) (hmarked : ∀ p th, threads p = some th → Marked (m.born p) th.phase)
    (hq : threads q = some th) (hw : Waiting th)
    (hr : TrapSystem.Reached procEntryAddr (.load threads q th (exec ctxSw m.sys.cpu))) :
    Inv procEntryAddr { m with sys := .load threads q th (exec ctxSw m.sys.cpu) } := by
  have hno := resume_not_user (exec ctxSw m.sys.cpu) th.top hw
  obtain ⟨hstatus, hsatp⟩ := ctxSw_csr List.prefix_rfl m.sys.cpu
  constructor
  · exact hr
  · intro p th' hp
    by_cases hpq : p = q
    · subst hpq
      have heq := Option.some.inj ((Function.update_self p _ threads).symm.trans hp)
      rw [← heq]
      exact resume_marked _ _ (hmarked p th hq)
    · exact hmarked p th' ((Function.update_of_ne hpq ..).symm.trans hp)
  · intro p th' hc hp
    obtain rfl := Option.some.inj hc.1
    have heq := Option.some.inj ((Function.update_self q _ threads).symm.trans hc.2)
    rw [← heq] at hp
    exact absurd hp hno
  · intro _
    exact ⟨h.mode, (congrArg (BitVec.getLsbD · 1) hstatus).trans h.masked, hsatp.trans h.satp⟩

end Steps

section Results

end Results

end Karg.Privilege
