import Karg.ContextFrames

namespace Karg.ContextRuns

open ByteMemory PageAlloc ProcStack Riscv TrapCode TrapSystem ContextFrames

/-- A process in `ctx_sw`: its registers lie below the part of its stack that it
had in use, at the top of which is the frame of its trap. -/
structure Suspended (m : Memory) (th : Thread) (t : Trap) (x : Reg → BitVec 64) (m₀ : Memory) : Prop where
  low : th.kernStack + 128 ≤ (x .sp).toNat
  high : (x .sp).toNat ≤ th.top - 176
  field : word m th.spField = x .sp + BitVec.ofInt 64 (-128)
  regs : Holds m ((x .sp).toNat - 128) (switchFrame x)
  stack : ∀ a, (x .sp).toNat ≤ a → a < th.top → m.byte a = m₀.byte a
  frame : Holds m₀ (th.top - 176) (trapFrame (Trap.saved t))
  called : Called th.top t

def Kept (procEntryAddr : Nat) (m : Memory) (th : Thread) : Prop :=
  match th.phase with
  | .fresh f => word m th.spField = BitVec.ofNat 64 (th.top - 304) ∧ Holds m (th.top - 304) (startFrame procEntryAddr f)
  | .starting f => Holds m (th.top - 304) (startFrame procEntryAddr f)
  | .user => True
  | .kernel t => Holds m (th.top - 176) (trapFrame (Trap.saved t)) ∧ Called th.top t
  | .switched t x m₀ => Suspended m th t x m₀

def Waiting (th : Thread) : Prop :=
  match th.phase with
  | .fresh _ | .switched _ _ _ => True
  | _ => False

def Runs (procEntryAddr : Nat) (c : Cpu) (th : Thread) : Prop :=
  match th.phase with
  | .starting _ => c.x .sp = BitVec.ofNat 64 (th.top - 176) ∧ c.x .ra = BitVec.ofNat 64 procEntryAddr
  | .user => c.csr .sscratch = BitVec.ofNat 64 th.top
  | .kernel _ => True
  | _ => False

/-- `ctx_sw` gives a process what it had when it called it, or, if it never ran,
sends it to `proc_entry`. -/
def Resumes (procEntryAddr : Nat) (c : Cpu) (th : Thread) : Prop :=
  match th.phase with
  | .fresh _ => c.x .sp = BitVec.ofNat 64 (th.top - 176) ∧ c.x .ra = BitVec.ofNat 64 procEntryAddr
  | .switched _ x m => Honours c th.top x m
  | _ => False

/-- What the steps of the system owe to its processes. -/
def Contract {P : Type} [DecidableEq P] (procEntryAddr : Nat) (s : System P) : Event P → System P → Prop
  | .trap, s' => ∀ p th, s.Current p th →
      s'.cpu.x .sp = BitVec.ofNat 64 (th.top - 176) ∧ Only (place (th.top - 176) 176) s.cpu.mem s'.cpu.mem
  | .ret result, s' => ∀ p th t, s.Current p th → th.phase = .kernel t →
      Returns s'.cpu (Trap.returned t result) ∧ s'.cpu.csr .sscratch = BitVec.ofNat 64 th.top
  | .start, s' => ∀ p th f, s.Current p th → th.phase = .starting f → s.cpu.x .ra = BitVec.ofNat 64 procEntryAddr ∧
      Enters s'.cpu f ∧ s'.cpu.csr .sscratch = BitVec.ofNat 64 th.top
  | .switch q, s' => ∀ p th t th', s.Current p th → th.phase = .kernel t → s.suspend p th t q = some th' →
      Resumes procEntryAddr s'.cpu th'
  | .leave q, s' => ∀ th', s.threads q = some th' → Resumes procEntryAddr s'.cpu th'
  | _, _ => True

variable {P : Type} {procEntryAddr : Nat} {m m' : Memory} {c : Cpu} {th th' : Thread} {t : Trap} {phase : Phase}
  {threads : P → Option Thread} {s s' : System P} {p q : P} {S : Set Nat}

structure Sound (procEntryAddr : Nat) (m : Memory) (threads : P → Option Thread) : Prop where
  placed : ∀ p th, threads p = some th → th.Placed
  apart : ∀ p q th th', p ≠ q → threads p = some th → threads q = some th' → Disjoint th.own th'.own
  kept : ∀ p th, threads p = some th → Kept procEntryAddr m th

structure Inv (procEntryAddr : Nat) (s : System P) : Prop where
  sound : Sound procEntryAddr s.cpu.mem s.threads
  waiting : ∀ p th, s.threads p = some th → s.curr ≠ some p → Waiting th
  current : ∀ p, s.curr = some p → ∃ th, s.threads p = some th ∧ Runs procEntryAddr s.cpu th

theorem top_eq (th : Thread) : th.top = th.kernStack + 4096 := rfl

theorem place_subset_own {a n : Nat} (ha : th.kernStack ≤ a) (hn : a + n ≤ th.top) : place a n ⊆ th.own := by
  intro y hy
  left
  rw [mem_place] at hy ⊢
  rw [Thread.top] at hn
  omega

theorem saved_subset_own (h : Kept procEntryAddr m th) : th.saved ⊆ th.own := by
  have htop := top_eq th
  obtain ⟨kernStack, spField, phase⟩ := th
  cases phase with
  | fresh f => exact Set.union_subset (place_subset_own (by omega) (by omega)) Set.subset_union_right
  | starting f => exact place_subset_own (by omega) (by omega)
  | user => exact Set.empty_subset _
  | kernel t => exact place_subset_own (by omega) (by omega)
  | switched t x m₀ =>
      have hlow : kernStack ≤ (x .sp).toNat - 128 := Nat.le_sub_of_add_le h.low
      apply Set.union_subset _ Set.subset_union_right
      intro y hy
      rw [Set.mem_Ico] at hy
      exact .inl (mem_place.mpr ⟨hlow.trans hy.1, hy.2⟩)

theorem Kept.only (h : Kept procEntryAddr m th) (hm : Only S m m') (hS : Disjoint th.saved S) :
    Kept procEntryAddr m' th := by
  have htop := top_eq th
  obtain ⟨kernStack, spField, phase⟩ := th
  cases phase with
  | fresh f =>
      obtain ⟨hframe, hfield⟩ := Set.disjoint_union_left.mp hS
      exact ⟨(word_only hm hfield).trans h.1, h.2.only (startFrame_fits procEntryAddr f) hm hframe⟩
  | starting f => exact Holds.only h (startFrame_fits procEntryAddr f) hm hS
  | user => trivial
  | kernel t => exact ⟨h.1.only (trapFrame_fits _) hm hS, h.2⟩
  | switched t x m₀ =>
      have hlow : kernStack + 128 ≤ (x .sp).toNat := h.low
      have hhigh := h.high
      obtain ⟨hstack, hfield⟩ := Set.disjoint_union_left.mp hS
      constructor
      · exact h.low
      · exact h.high
      · exact (word_only hm hfield).trans h.field
      · apply h.regs.only (switchFrame_fits x) hm
        apply hstack.mono_left
        intro y hy
        rw [mem_place] at hy
        rw [Set.mem_Ico]
        omega
      · intro a ha hlt
        rw [hm a, h.stack a ha hlt]
        apply Set.disjoint_left.mp hstack
        rw [Set.mem_Ico]
        exact ⟨by omega, hlt⟩
      · exact h.frame
      · exact h.called

theorem Sound.only (h : Sound procEntryAddr m threads) (hm : Only S m m')
    (hS : ∀ p th, threads p = some th → Disjoint th.saved S) : Sound procEntryAddr m' threads :=
  ⟨h.placed, h.apart, fun p th hp => (h.kept p th hp).only hm (hS p th hp)⟩

theorem Sound.unguarded (h : Sound procEntryAddr m threads) (hm : Only (guarded threads)ᶜ m m') :
    Sound procEntryAddr m' threads := by
  apply h.only hm
  intro p th hp
  rw [Set.disjoint_compl_right_iff_subset]
  exact fun a ha => ⟨p, th, hp, ha⟩

theorem Current.unique (h : s.Current p th) (h' : s.Current q th') : p = q ∧ th = th' := by
  obtain rfl := Option.some.inj (h.1.symm.trans h'.1)
  exact ⟨rfl, Option.some.inj (h.2.symm.trans h'.2)⟩

theorem current_inKernel (h : s.Current p th) (hp : th.phase = .kernel t) : s.InKernel := by
  intro q hq
  obtain rfl := Option.some.inj (h.1.symm.trans hq)
  exact ⟨th, t, h.2, hp⟩

theorem Inv.runs (h : Inv procEntryAddr s) (hc : s.Current p th) : Runs procEntryAddr s.cpu th := by
  obtain ⟨th', hth, hr⟩ := h.current p hc.1
  rwa [Option.some.inj (hc.2.symm.trans hth)]

theorem booting_inv (h : Booting s) : Inv procEntryAddr s := by
  have hnone : ∀ p th, s.threads p = some th → False := by
    intro p th hp
    rw [h.2 p] at hp
    cases hp
  refine ⟨⟨fun p th hp => (hnone p th hp).elim, fun p q th th' _ hp => (hnone p th hp).elim,
    fun p th hp => (hnone p th hp).elim⟩, fun p th hp => (hnone p th hp).elim, ?_⟩
  intro p hp
  rw [h.1] at hp
  cases hp

section Updates

variable [DecidableEq P]

theorem Sound.put (h : Sound procEntryAddr m threads) (th : Thread) (hth : th.Placed)
    (hown : ∀ q th', q ≠ p → threads q = some th' → Disjoint th'.own th.own) (hm : Only th.own m m')
    (hk : Kept procEntryAddr m' th) : Sound procEntryAddr m' (Function.update threads p (some th)) := by
  have hother : ∀ q th', q ≠ p → Function.update threads p (some th) q = some th' → threads q = some th' := by
    intro q th' hq hth
    rwa [Function.update_of_ne hq] at hth
  have hself : ∀ th', Function.update threads p (some th) p = some th' → th' = th := by
    intro th' hth
    rw [Function.update_self] at hth
    exact (Option.some.inj hth).symm
  constructor
  · intro q th' hq
    by_cases hqp : q = p
    · subst hqp
      rwa [hself th' hq]
    · exact h.placed q th' (hother q th' hqp hq)
  · intro q r th₁ th₂ hqr h₁ h₂
    by_cases hq : q = p
    · subst hq
      rw [hself th₁ h₁]
      exact (hown r th₂ (Ne.symm hqr) (hother r th₂ (Ne.symm hqr) h₂)).symm
    · by_cases hr : r = p
      · subst hr
        rw [hself th₂ h₂]
        exact hown q th₁ hq (hother q th₁ hq h₁)
      · exact h.apart q r th₁ th₂ hqr (hother q th₁ hq h₁) (hother r th₂ hr h₂)
  · intro q th' hq
    by_cases hqp : q = p
    · subst hqp
      rwa [hself th' hq]
    · have hold := hother q th' hqp hq
      exact (h.kept q th' hold).only hm ((hown q th' hqp hold).mono_left (saved_subset_own (h.kept q th' hold)))

theorem Sound.replace (h : Sound procEntryAddr m threads) (hp : threads p = some th) (hm : Only th.own m m')
    (hk : Kept procEntryAddr m' { th with phase := phase }) :
    Sound procEntryAddr m' (Function.update threads p (some { th with phase := phase })) := by
  have hth := h.placed p th hp
  exact h.put { th with phase := phase } ⟨hth.page, hth.field, hth.apart⟩
    (fun q th' hq hth' => h.apart q p th' th hq hth' hp) hm hk

theorem of_removed {q : P} (hp : Function.update threads q none p = some th) : p ≠ q ∧ threads p = some th := by
  by_cases hpq : p = q
  · rw [hpq, Function.update_self] at hp
    cases hp
  · rw [Function.update_of_ne hpq] at hp
    exact ⟨hpq, hp⟩

theorem Sound.remove (h : Sound procEntryAddr m threads) (q : P) :
    Sound procEntryAddr m (Function.update threads q none) := by
  constructor
  · exact fun p th hp => h.placed p th (of_removed hp).2
  · exact fun p r th th' hpr hp hr => h.apart p r th th' hpr (of_removed hp).2 (of_removed hr).2
  · exact fun p th hp => h.kept p th (of_removed hp).2

/-- The second half of `ctx_sw`, with every process off the processor. -/
theorem switch_resumes (h : Sound procEntryAddr (switchMem c) threads) (hq : threads q = some th) (hw : Waiting th)
    (ha₁ : c.x .a1 = BitVec.ofNat 64 th.spField) : Resumes procEntryAddr (exec ctxSw c) th ∧
      Runs procEntryAddr (exec ctxSw c) { th with phase := th.phase.resume (exec ctxSw c) th.top } ∧
      Sound procEntryAddr (exec ctxSw c).mem
        (Function.update threads q (some { th with phase := th.phase.resume (exec ctxSw c) th.top })) := by
  obtain ⟨hmem, hsp, -⟩ := exec_ctxSw c
  have hth := h.placed q th hq
  have hk := h.kept q th hq
  have htop := top_eq th
  have hpage := hth.page
  have haddr : c.addr .a1 0 = th.spField := by
    rw [Cpu.addr_zero c .a1 nofun, ha₁, BitVec.toNat_ofNat, Nat.mod_eq_of_lt hth.field]
  have hfield : switchSp c = word (switchMem c) th.spField := congrArg (word (switchMem c)) haddr
  have hsound : ∀ phase, Kept procEntryAddr (switchMem c) { th with phase := phase } →
      Sound procEntryAddr (exec ctxSw c).mem (Function.update threads q (some { th with phase := phase })) := by
    intro phase hk'
    rw [hmem]
    exact h.replace hq (Only.refl _ _) hk'
  have hstart : th.top - 304 + 128 = th.top - 176 := by omega
  have hroom : th.top - 304 + 304 ≤ 2 ^ 64 := by omega
  obtain ⟨kernStack, spField, phase⟩ := th
  cases phase with
  | fresh f =>
      have hr := ctxSw_starts (hfield.trans hk.1) hroom hk.2
      rw [hstart] at hr
      exact ⟨hr, hr, hsound (.starting f) hk.2⟩
  | switched t x m₀ =>
      have hlow : 128 ≤ (x .sp).toNat := (Nat.le_add_left ..).trans hk.low
      have hhigh := hk.high
      -- `ctx_sw` has stored the registers below the stack pointer of its caller.
      have hb : switchSp c = BitVec.ofNat 64 ((x .sp).toNat - 128) := by
        apply BitVec.eq_of_toNat_eq
        rw [hfield, hk.field, BitVec.toNat_ofNat, Nat.mod_eq_of_lt (by omega)]
        exact toNat_add_neg hlow
      have hsp' : (exec ctxSw c).x .sp = x .sp := by
        rw [hsp, hfield, hk.field, BitVec.add_assoc]
        exact BitVec.add_zero _
      have hhon : Honours (exec ctxSw c) (kernStack + pageSize) x m₀ := by
        refine ⟨hsp', ctxSw_restores hb (by omega) hk.regs, ?_⟩
        rw [hmem]
        exact hk.stack
      have hcalled := hk.called
      refine ⟨hhon, trivial, hsound (.kernel _) ⟨?_, ?_⟩⟩
      · apply hk.frame.congr (trapFrame_fits _)
        intro a ha
        rw [mem_place] at ha
        exact hk.stack a (by omega) (by omega)
      · exact ⟨hcalled.sp, hcalled.frame, hcalled.regs, hcalled.tracked, hcalled.honoured, hhon⟩
  | starting | user | kernel => cases hw

end Updates

section Steps

variable [DecidableEq P]

theorem Inv.put (h : Inv procEntryAddr s) (hc : s.Current p th) (hm : Only th.own s.cpu.mem c.mem)
    (hk : Kept procEntryAddr c.mem { th with phase := phase }) (hr : Runs procEntryAddr c { th with phase := phase }) :
    Inv procEntryAddr (s.put p th phase c) := by
  constructor
  · exact h.sound.replace hc.2 hm hk
  · intro q th' hq hne
    have hqp : q ≠ p := fun heq => hne (heq ▸ hc.1)
    apply h.waiting q th' _ hne
    exact (Function.update_of_ne hqp ..).symm.trans hq
  · intro q hq
    obtain rfl := Option.some.inj (hc.1.symm.trans hq)
    exact ⟨_, Function.update_self .., hr⟩

theorem Inv.load (h : Sound procEntryAddr (switchMem c) threads) (hw : ∀ p th, threads p = some th → Waiting th)
    (hq : threads q = some th) (ha₁ : c.x .a1 = BitVec.ofNat 64 th.spField) :
    Inv procEntryAddr (.load threads q th (exec ctxSw c)) ∧
      Resumes procEntryAddr (exec ctxSw c) th := by
  obtain ⟨hres, hruns, hsound⟩ := switch_resumes h hq (hw q th hq) ha₁
  refine ⟨⟨hsound, ?_, ?_⟩, hres⟩
  · intro p th' hp hne
    have hpq : p ≠ q := fun heq => hne (congrArg some heq.symm)
    apply hw p th'
    exact (Function.update_of_ne hpq ..).symm.trans hp
  · intro p hp
    obtain rfl := Option.some.inj hp
    exact ⟨_, Function.update_self .., hruns⟩

theorem trap_step {r : Memory × Bool} (h : Inv procEntryAddr s) (hc : s.Current p th) (hp : th.phase = .user)
    (hc' : c = exec trampoline s.cpu) (hr : r = trapHandler c.mem (c.x .a0).toNat) :
    Inv procEntryAddr (s.put p th (.kernel (.of s.cpu c r.2)) { c with mem := r.1 }) ∧
      c.x .sp = BitVec.ofNat 64 (th.top - 176) ∧ Only (place (th.top - 176) 176) s.cpu.mem r.1 := by
  have hth := h.sound.placed p th hc.2
  have htop := top_eq th
  have hscr := h.runs hc
  rw [Runs, hp] at hscr
  obtain ⟨hwords, ha₀, hsp, hregs, honly⟩ := trampoline_frame hc' hscr (by omega) hth.page
  obtain ⟨hframe, htracked, honly'⟩ := trapHandler_frame c hwords
  rw [ha₀] at hr
  rw [← hr] at hframe htracked honly'
  have hm := honly.trans honly'
  have hcalled : Called th.top (.of s.cpu c r.2) := ⟨hsp, ha₀, hregs, htracked, trivial⟩
  exact ⟨h.put hc (hm.mono (place_subset_own (by omega) (by omega))) ⟨hframe, hcalled⟩ trivial, hsp, hm⟩

theorem ret_step (result : BitVec 64) (h : Inv procEntryAddr s) (hc : s.Current p th) (hp : th.phase = .kernel t)
    (hx : t.honoured → ∀ r ∈ Reg.sp :: preserved, s.cpu.x r = t.call r)
    (hc' : c = exec procEntry { s.cpu with mem := trapHandlerEnd s.cpu.mem (t.call .a0).toNat t.syscall result }) :
    Inv procEntryAddr (s.put p th .user c) ∧ Returns c (Trap.returned t result) ∧
      c.csr .sscratch = BitVec.ofNat 64 th.top := by
  have hpage := (h.sound.placed p th hc.2).page
  have htop := top_eq th
  have hk := h.sound.kept p th hc.2
  rw [Kept, hp] at hk
  obtain ⟨hfr, hcalled⟩ := hk
  obtain ⟨hsp, hregs⟩ := List.forall_mem_cons.mp (hx hcalled.honoured)
  obtain ⟨hframe, honly⟩ := trapHandlerEnd_frame hfr hcalled.tracked result
  have hend : th.top - 176 + 176 = th.top := by omega
  rw [← hcalled.frame] at hframe honly
  have hret := procEntry_returns (c := { s.cpu with mem := trapHandlerEnd s.cpu.mem (t.call .a0).toNat t.syscall result })
    hframe (hsp.trans hcalled.sp) (by omega)
    fun r hr => (hregs r hr).trans ((hcalled.regs r hr).trans (returned_preserved t result hr).symm)
  rw [← hc', hend] at hret
  have hmem : c.mem = trapHandlerEnd s.cpu.mem (t.call .a0).toNat t.syscall result := by
    rw [hc']
    exact (exec_procEntry _).1
  refine ⟨h.put hc ?_ trivial hret.2, hret⟩
  rw [hmem]
  exact honly.mono (place_subset_own (by omega) (by omega))

theorem start_step {f : Start} (h : Inv procEntryAddr s) (hc : s.Current p th) (hp : th.phase = .starting f)
    (hc' : c = exec procEntry s.cpu) : Inv procEntryAddr (s.put p th .user c) ∧
      s.cpu.x .ra = BitVec.ofNat 64 procEntryAddr ∧ Enters c f ∧ c.csr .sscratch = BitVec.ofNat 64 th.top := by
  have hpage := (h.sound.placed p th hc.2).page
  have htop := top_eq th
  have hk := h.sound.kept p th hc.2
  have hruns := h.runs hc
  rw [Kept, hp] at hk
  rw [Runs, hp] at hruns
  have hstart : th.top - 304 + 128 = th.top - 176 := by omega
  have hend : th.top - 304 + 304 = th.top := by omega
  have hent := procEntry_enters hk (hruns.1.trans (congrArg _ hstart.symm)) (by omega)
  rw [← hc', hend] at hent
  have hmem : c.mem = s.cpu.mem := by
    rw [hc']
    exact (exec_procEntry _).1
  refine ⟨h.put hc ?_ trivial hent.2, hruns.2, hent⟩
  rw [hmem]
  exact Only.refl _ _

/-- The first half of `ctx_sw`. -/
theorem suspend_sound (h : Inv procEntryAddr s) (hc : s.Current p th) (hp : th.phase = .kernel t)
    (ha₀ : s.cpu.x .a0 = BitVec.ofNat 64 th.spField) (hlow : th.kernStack + 128 ≤ (s.cpu.x .sp).toNat)
    (hhigh : (s.cpu.x .sp).toNat ≤ th.top - 176) : Sound procEntryAddr (switchMem s.cpu) (s.suspend p th t) := by
  have hth := h.sound.placed p th hc.2
  have htop := top_eq th
  have hk := h.sound.kept p th hc.2
  rw [Kept, hp] at hk
  have hsp : 128 ≤ (s.cpu.x .sp).toNat := by omega
  have hfield : (s.cpu.x .a0).toNat = th.spField := by
    rw [ha₀, BitVec.toNat_ofNat, Nat.mod_eq_of_lt hth.field]
  have hframe : place ((s.cpu.x .sp).toNat - 128) 128 ⊆ place th.kernStack pageSize := by
    intro y hy
    rw [mem_place] at hy
    exact mem_place.mpr ⟨by omega, show y < th.top by omega⟩
  have honly := switchMem_only hsp
  obtain ⟨hregs, hword⟩ := switchMem_saves hsp (hfield ▸ hth.apart.mono_left hframe)
  rw [hfield] at honly hword
  apply h.sound.replace hc.2 (honly.mono (Set.union_subset_union_left _ hframe))
  refine ⟨hlow, hhigh, hword, hregs, ?_, hk.1, hk.2⟩
  intro a ha hlt
  apply honly a
  have hpage : a ∈ place th.kernStack pageSize := mem_place.mpr ⟨by omega, hlt⟩
  rintro (hmem | hmem)
  · rw [mem_place] at hmem
    omega
  · exact Set.disjoint_left.mp hth.apart hpage hmem

theorem suspend_waiting (h : Inv procEntryAddr s) (hc : s.Current p th) :
    ∀ q th', s.suspend p th t q = some th' → Waiting th' := by
  intro q th' hq
  by_cases hqp : q = p
  · subst hqp
    rw [System.suspend, Function.update_self] at hq
    rw [← Option.some.inj hq]
    trivial
  · rw [System.suspend, Function.update_of_ne hqp] at hq
    apply h.waiting q th' hq
    intro heq
    exact hqp (Option.some.inj (heq.symm.trans hc.1))

theorem switch_step (h : Inv procEntryAddr s) (hc : s.Current p th) (hp : th.phase = .kernel t)
    (hq : s.suspend p th t q = some th') (ha₀ : s.cpu.x .a0 = BitVec.ofNat 64 th.spField)
    (ha₁ : s.cpu.x .a1 = BitVec.ofNat 64 th'.spField) (hlow : th.kernStack + 128 ≤ (s.cpu.x .sp).toNat)
    (hhigh : (s.cpu.x .sp).toNat ≤ th.top - 176) :
    Inv procEntryAddr (.load (s.suspend p th t) q th' (exec ctxSw s.cpu)) ∧
      Resumes procEntryAddr (exec ctxSw s.cpu) th' :=
  Inv.load (suspend_sound h hc hp ha₀ hlow hhigh) (suspend_waiting h hc) hq ha₁

theorem leave_step (h : Inv procEntryAddr s) (hc : s.curr = none) (hq : s.threads q = some th')
    (ha₁ : s.cpu.x .a1 = BitVec.ofNat 64 th'.spField) (hlow : 128 ≤ (s.cpu.x .sp).toNat)
    (hsp : Disjoint (place ((s.cpu.x .sp).toNat - 128) 128) (guarded s.threads))
    (ha₀ : Disjoint (place (s.cpu.x .a0).toNat 8) (guarded s.threads)) :
    Inv procEntryAddr (.load s.threads q th' (exec ctxSw s.cpu)) ∧ Resumes procEntryAddr (exec ctxSw s.cpu) th' := by
  have hwaiting : ∀ p th, s.threads p = some th → Waiting th := by
    intro p th hp
    apply h.waiting p th hp
    rw [hc]
    exact nofun
  apply Inv.load _ hwaiting hq ha₁
  apply h.sound.only (switchMem_only hlow)
  intro p th hp
  apply (Set.disjoint_union_left.mpr ⟨hsp, ha₀⟩).symm.mono_left
  exact fun a ha => ⟨p, th, hp, ha⟩

theorem create_step {f : Start} (h : Inv procEntryAddr s) (hk : s.InKernel) (hq : s.threads q = none)
    (hp : th.phase = .fresh f) (hth : th.Placed) (hown : ∀ p th', s.threads p = some th' → Disjoint th'.own th.own) :
    Inv procEntryAddr ⟨{ s.cpu with mem := fill procEntryAddr s.cpu.mem th.kernStack th.spField f },
      Function.update s.threads q (some th), s.curr⟩ := by
  have htop := top_eq th
  obtain ⟨hframe, hfield, honly⟩ := fill_frame procEntryAddr s.cpu.mem f hth.page hth.apart
  change Holds _ (th.top - 304) _ at hframe
  change word _ _ = BitVec.ofNat 64 (th.top - 304) at hfield
  change Only (place (th.top - 304) 304 ∪ place th.spField 8) _ _ at honly
  have hnew : ∀ p, s.curr = some p → p ≠ q := by
    intro p hc heq
    obtain ⟨th', t, hth', -⟩ := hk p hc
    rw [heq, hq] at hth'
    cases hth'
  constructor
  · apply h.sound.put th hth (fun p th' _ => hown p th')
    · exact honly.mono (Set.union_subset (place_subset_own (by omega) (by omega)) Set.subset_union_right)
    · rw [Kept, hp]
      exact ⟨hfield, hframe⟩
  · intro p th' hth' hne
    by_cases hpq : p = q
    · subst hpq
      have heq : th = th' := Option.some.inj ((Function.update_self p (some th) s.threads).symm.trans hth')
      rw [← heq, Waiting, hp]
      trivial
    · exact h.waiting p th' ((Function.update_of_ne hpq ..).symm.trans hth') hne
  · intro p hc
    obtain ⟨th', t, hth', ht⟩ := hk p hc
    refine ⟨th', (Function.update_of_ne (hnew p hc) ..).trans hth', ?_⟩
    rw [Runs, ht]
    trivial

theorem remove_step (h : Inv procEntryAddr s) (q : P) :
    Inv procEntryAddr ⟨s.cpu, Function.update s.threads q none, if s.curr = some q then none else s.curr⟩ := by
  constructor
  · exact h.sound.remove q
  · intro p th hp hne
    obtain ⟨hpq, hp⟩ := of_removed hp
    apply h.waiting p th hp
    intro hc
    have hcq : s.curr ≠ some q := fun heq => hpq (Option.some.inj (hc.symm.trans heq))
    exact hne ((if_neg hcq).trans hc)
  · intro p hp
    have hcq : s.curr ≠ some q := by
      intro hc
      rw [show _ = _ from if_pos hc] at hp
      cases hp
    have hc : s.curr = some p := (if_neg hcq).symm.trans hp
    have hpq : p ≠ q := fun heq => hcq (heq ▸ hc)
    obtain ⟨th, hth, hr⟩ := h.current p hc
    exact ⟨th, (Function.update_of_ne hpq ..).trans hth, hr⟩

theorem step_inv {e : Event P} (h : Inv procEntryAddr s) (hs : Step procEntryAddr s e s') :
    Inv procEntryAddr s' ∧ Contract procEntryAddr s e s' := by
  cases hs with
  | user c hc hp hscratch hm =>
      refine ⟨⟨h.sound.unguarded hm, h.waiting, ?_⟩, trivial⟩
      intro p' hp'
      obtain rfl := Option.some.inj (hc.1.symm.trans hp')
      have hr := h.runs hc
      refine ⟨_, hc.2, ?_⟩
      rw [Runs, hp] at hr ⊢
      exact hscratch.trans hr
  | code c hk hm =>
      refine ⟨⟨h.sound.unguarded hm, h.waiting, ?_⟩, trivial⟩
      intro p hp
      obtain ⟨th, t, hth, ht⟩ := hk p hp
      refine ⟨th, hth, ?_⟩
      rw [Runs, ht]
      trivial
  | trap hc hp hc' hr =>
      obtain ⟨hinv, hsp, honly⟩ := trap_step h hc hp hc' hr
      refine ⟨hinv, ?_⟩
      intro p th hcur
      obtain ⟨-, rfl⟩ := Current.unique hc hcur
      exact ⟨hsp, honly⟩
  | ret result hc hp hx =>
      obtain ⟨hinv, hret⟩ := ret_step result h hc hp hx rfl
      refine ⟨hinv, ?_⟩
      intro p th t hcur hph
      obtain ⟨-, rfl⟩ := Current.unique hc hcur
      obtain rfl := Phase.kernel.inj (hp.symm.trans hph)
      exact hret
  | start hc hp =>
      obtain ⟨hinv, hent⟩ := start_step h hc hp rfl
      refine ⟨hinv, ?_⟩
      intro p th f hcur hph
      obtain ⟨-, rfl⟩ := Current.unique hc hcur
      obtain rfl := Phase.starting.inj (hp.symm.trans hph)
      exact hent
  | switch hc hp hq ha₀ ha₁ hlow hhigh =>
      obtain ⟨hinv, hres⟩ := switch_step h hc hp hq ha₀ ha₁ hlow hhigh
      refine ⟨hinv, ?_⟩
      intro p th t th' hcur hph hq'
      obtain ⟨rfl, rfl⟩ := Current.unique hc hcur
      obtain rfl := Phase.kernel.inj (hp.symm.trans hph)
      rwa [← Option.some.inj (hq.symm.trans hq')]
  | leave hc hq ha₁ hlow hsp ha₀ =>
      obtain ⟨hinv, hres⟩ := leave_step h hc hq ha₁ hlow hsp ha₀
      refine ⟨hinv, ?_⟩
      intro th' hq'
      rwa [← Option.some.inj (hq.symm.trans hq')]
  | create hk hq hp hth hown hst => exact ⟨create_step h hk hq hp hth hown, trivial⟩
  | remove hk => exact ⟨remove_step h _, trivial⟩

theorem reached_inv (h : Reached procEntryAddr s) : Inv procEntryAddr s :=
  Execution.Reachable.invariant (I := Inv procEntryAddr) (fun _ => booting_inv) (fun _ _ _ hi hs => (step_inv hi hs).1) h

end Steps

section Results

variable [DecidableEq P]

/-- In every run, each step keeps its contract, and a process runs with the top
of its own kernel stack in `sscratch`. -/
theorem context_preserved (h : Reached procEntryAddr s) :
    (∀ e s', Step procEntryAddr s e s' → Contract procEntryAddr s e s') ∧
      ∀ p th, s.Current p th → th.phase = .user → s.cpu.csr .sscratch = BitVec.ofNat 64 (th.kernStack + pageSize) := by
  have hinv := reached_inv h
  constructor
  · exact fun e s' hs => (step_inv hinv hs).2
  · intro p th hc hp
    have hr := hinv.runs hc
    rwa [Runs, hp] at hr

section Boot

theorem registers_step (hc : s.Current p th) (hp : th.phase = .kernel t) (x : Reg → BitVec 64) :
    Step procEntryAddr s .code { s with cpu := { s.cpu with x := x } } :=
  Step.code _ (current_inKernel hc hp) (Only.refl _ _)

def switchRegs (sp prevSp nextSp : BitVec 64) : Reg → BitVec 64
  | .sp => sp
  | .a0 => prevSp
  | .a1 => nextSp
  | _ => 0

def firstStart : Start := ⟨0, 0x80500000, 0x10000, 0x80601000, 0, 0x80601000, 0⟩

def firstThread (phase : Phase) : Thread := ⟨0x80300000, 0x80400000, phase⟩

def firstThreads (p : P) (phase : Phase) : P → Option Thread := Function.update (fun _ => none) p (some (firstThread phase))

theorem firstThreads_self (p : P) (phase : Phase) : firstThreads p phase p = some (firstThread phase) :=
  Function.update_self ..

theorem update_firstThreads (p : P) (phase phase' : Phase) :
    Function.update (firstThreads p phase) p (some (firstThread phase')) = firstThreads p phase' :=
  Function.update_idem ..

theorem put_firstThreads (p : P) (c c' : Cpu) (phase phase' : Phase) :
    System.put ⟨c, firstThreads p phase, some p⟩ p (firstThread phase) phase' c' = ⟨c', firstThreads p phase', some p⟩ :=
  congrArg (System.mk c' · (some p)) (update_firstThreads p phase phase')

theorem firstThread_placed (phase : Phase) : (firstThread phase).Placed := by
  have hfield : 0x80400000 < 2 ^ 64 := by decide
  have htop : 0x80300000 + pageSize < 2 ^ 64 := by decide
  have hpage : 0x80300000 + pageSize ≤ 0x80400000 ∨ 0x80400000 + 8 ≤ 0x80300000 := by decide
  exact ⟨htop, hfield, disjoint_place hpage⟩

theorem firstThread_apart (p : P) {a n : Nat} (ha : a + n ≤ 0x80300000) :
    Disjoint (place a n) (guarded (firstThreads p (.fresh firstStart))) := by
  rw [Set.disjoint_left]
  rintro y hy ⟨q, th, hth, hs⟩
  by_cases hq : q = p
  · subst hq
    obtain rfl := Option.some.inj ((firstThreads_self q _).symm.trans hth)
    rw [mem_place] at hy
    rcases hs with hs | hs
    · have hle : 0x80300000 + 3792 ≤ y := (mem_place.mp hs).1
      omega
    · have hle : 0x80400000 ≤ y := (mem_place.mp hs).1
      omega
  · rw [firstThreads, Function.update_of_ne hq] at hth
    cases hth

def bootCpu : Cpu := ⟨switchRegs 0x80200000 0x80100000 0x80400000, fun _ => 0, ⟨fun _ => 0⟩⟩

def createdCpu : Cpu := { bootCpu with mem := fill 0x80201000 bootCpu.mem 0x80300000 0x80400000 firstStart }

theorem first_create (p : P) : Step 0x80201000 ⟨bootCpu, fun _ => none, none⟩ (.create p)
    ⟨createdCpu, firstThreads p (.fresh firstStart), none⟩ := by
  have hth := firstThread_placed (.fresh firstStart)
  have hs : Step 0x80201000 ⟨bootCpu, fun _ => none, none⟩ (.create p) _ :=
    Step.create (f := firstStart) nofun rfl rfl hth nofun rfl
  exact hs

theorem first_leave (p : P) : Step 0x80201000 ⟨createdCpu, firstThreads p (.fresh firstStart), none⟩ (.leave p)
    ⟨exec ctxSw createdCpu, firstThreads p (.starting firstStart), some p⟩ := by
  have hlow : 128 ≤ (0x80200000 : BitVec 64).toNat := by decide
  have hstack : (0x80200000 : BitVec 64).toNat - 128 + 128 ≤ 0x80300000 := by decide
  have hfield : (0x80100000 : BitVec 64).toNat + 8 ≤ 0x80300000 := by decide
  rw [← update_firstThreads p (.fresh firstStart) (.starting firstStart)]
  exact Step.leave (s := ⟨createdCpu, firstThreads p (.fresh firstStart), none⟩) rfl (firstThreads_self p _) rfl hlow
    (firstThread_apart p hstack) (firstThread_apart p hfield)

theorem first_start (p : P) :
    Step 0x80201000 ⟨exec ctxSw createdCpu, firstThreads p (.starting firstStart), some p⟩ .start
      ⟨exec procEntry (exec ctxSw createdCpu), firstThreads p .user, some p⟩ := by
  rw [← put_firstThreads p (exec ctxSw createdCpu) (exec procEntry (exec ctxSw createdCpu)) (.starting firstStart) .user]
  have hc : System.Current ⟨exec ctxSw createdCpu, firstThreads p (.starting firstStart), some p⟩ p
      (firstThread (.starting firstStart)) := ⟨rfl, firstThreads_self p _⟩
  exact Step.start hc rfl

/-- The boot code creates the first process and switches to it, and it traps. -/
theorem first_trapped (p : P) : ∃ c t, Reached 0x80201000 ⟨c, firstThreads p (.kernel t), some p⟩ := by
  have h₀ : Reached 0x80201000 (⟨bootCpu, fun _ => none, none⟩ : System P) := .start ⟨rfl, fun _ => rfl⟩
  have h₁ := ((h₀.next (.create p) (first_create p)).next (.leave p) (first_leave p)).next .start (first_start p)
  have h₂ := h₁.next .trap (Step.trap ⟨rfl, firstThreads_self p _⟩ rfl rfl rfl)
  rw [put_firstThreads] at h₂
  exact ⟨_, _, h₂⟩

def secondThread (phase : Phase) : Thread := ⟨0x80310000, 0x80410000, phase⟩

def pair (a b : Phase) : Bool → Option Thread
  | false => some (firstThread a)
  | true => some (secondThread b)

theorem secondThread_placed (phase : Phase) : (secondThread phase).Placed := by
  have hfield : 0x80410000 < 2 ^ 64 := by decide
  have htop : 0x80310000 + pageSize < 2 ^ 64 := by decide
  have hpage : 0x80310000 + pageSize ≤ 0x80410000 ∨ 0x80410000 + 8 ≤ 0x80310000 := by decide
  exact ⟨htop, hfield, disjoint_place hpage⟩

theorem pair_apart (a b : Phase) : Disjoint (firstThread a).own (secondThread b).own := by
  rw [Set.disjoint_left]
  rintro y (hy | hy) (hz | hz)
  all_goals
    rw [mem_place] at hy hz
    simp only [firstThread, secondThread, pageSize] at hy hz
    omega

theorem put_pair (a b phase : Phase) (c c' : Cpu) :
    System.put ⟨c, pair a b, some true⟩ true (secondThread b) phase c' = ⟨c', pair a phase, some true⟩ := by
  refine congrArg (System.mk c' · (some true)) ?_
  funext p
  cases p <;> rfl

theorem pair_created : ∃ c t f, Reached 0x80201000 ⟨c, pair (.kernel t) (.fresh f), some false⟩ := by
  obtain ⟨c, t, h⟩ := first_trapped false
  let f : Start := { firstStart with sstatus := c.csr .sstatus }
  have hc : System.Current ⟨c, firstThreads false (.kernel t), some false⟩ false (firstThread (.kernel t)) := ⟨rfl, rfl⟩
  have hown : ∀ p th, firstThreads false (.kernel t) p = some th → Disjoint th.own (secondThread (.fresh f)).own := by
    intro p th hp
    cases p with
    | false =>
        obtain rfl := Option.some.inj hp
        exact pair_apart _ _
    | true => cases hp
  have hpair : Function.update (firstThreads false (.kernel t)) true (some (secondThread (.fresh f))) =
      pair (.kernel t) (.fresh f) := by
    funext p
    cases p <;> rfl
  have hs := h.next (.create true) (Step.create (current_inKernel hc rfl) rfl rfl (secondThread_placed _) hown rfl)
  exact ⟨_, t, f, hpair ▸ hs⟩

theorem pair_trapped : ∃ c t t' x m, Reached 0x80201000 ⟨c, pair (.switched t x m) (.kernel t'), some true⟩ := by
  obtain ⟨c, t, f, h⟩ := pair_created
  let c₁ : Cpu := { c with x := switchRegs 0x80300800 0x80400000 0x80410000 }
  have hc : System.Current ⟨c, pair (.kernel t) (.fresh f), some false⟩ false (firstThread (.kernel t)) := ⟨rfl, rfl⟩
  have h₁ : Reached 0x80201000 ⟨c₁, pair (.kernel t) (.fresh f), some false⟩ :=
    h.next .code (registers_step hc rfl _)
  have hlow : 0x80300000 + 128 ≤ (0x80300800 : BitVec 64).toNat := by decide
  have hhigh : (0x80300800 : BitVec 64).toNat ≤ 0x80300000 + pageSize - 176 := by decide
  have hload : ∀ c', System.load (System.suspend ⟨c₁, pair (.kernel t) (.fresh f), some false⟩ false
      (firstThread (.kernel t)) t) true (secondThread (.fresh f)) c' =
        ⟨c', pair (.switched t c₁.x c₁.mem) (.starting f), some true⟩ := by
    intro c'
    refine congrArg (System.mk c' · (some true)) ?_
    funext p
    cases p <;> rfl
  have h₂ := h₁.next (.switch true) (Step.switch ⟨rfl, rfl⟩ rfl rfl rfl rfl hlow hhigh)
  rw [hload] at h₂
  have h₃ := h₂.next .start (Step.start ⟨rfl, rfl⟩ rfl)
  rw [put_pair] at h₃
  have h₄ := h₃.next .trap (Step.trap ⟨rfl, rfl⟩ rfl rfl rfl)
  rw [put_pair] at h₄
  exact ⟨_, _, _, _, _, h₄⟩

end Boot

/-- The first process waits in `ctx_sw` while the second one runs. When the second
one calls `ctx_sw` in turn, the first one finds its registers and its stack, and it
returns from its trap to where it was. -/
theorem context_preserved_pair : ∃ (s s₁ s₂ s' : System Bool) (t : Trap) (x : Reg → BitVec 64) (m : Memory),
    Reached 0x80201000 s ∧ s.curr = some true ∧ s.threads false = some (firstThread (.switched t x m)) ∧
    Step 0x80201000 s (.switch false) s₁ ∧ Honours s₁.cpu (0x80300000 + pageSize) x m ∧
    Step 0x80201000 s₁ .code s₂ ∧ Step 0x80201000 s₂ (.ret 0) s' ∧ Returns s'.cpu (Trap.returned t 0) ∧
    s'.cpu.csr .sscratch = BitVec.ofNat 64 (0x80300000 + pageSize) := by
  obtain ⟨c, t, t', x, m, h⟩ := pair_trapped
  let c₁ : Cpu := { c with x := switchRegs 0x80310800 0x80410000 0x80400000 }
  have hc : System.Current ⟨c, pair (.switched t x m) (.kernel t'), some true⟩ true (secondThread (.kernel t')) :=
    ⟨rfl, rfl⟩
  have h₁ : Reached 0x80201000 ⟨c₁, pair (.switched t x m) (.kernel t'), some true⟩ :=
    h.next .code (registers_step hc rfl _)
  have hc₁ : System.Current ⟨c₁, pair (.switched t x m) (.kernel t'), some true⟩ true (secondThread (.kernel t')) :=
    ⟨rfl, rfl⟩
  have hlow : 0x80310000 + 128 ≤ (0x80310800 : BitVec 64).toNat := by decide
  have hhigh : (0x80310800 : BitVec 64).toNat ≤ 0x80310000 + pageSize - 176 := by decide
  have hswitch : Step 0x80201000 _ (.switch false) _ := Step.switch hc₁ rfl rfl rfl rfl hlow hhigh
  have hhonours := (context_preserved h₁).1 _ _ hswitch true _ t' _ hc₁ rfl rfl
  let s₁ : System Bool := .load (System.suspend ⟨c₁, pair (.switched t x m) (.kernel t'), some true⟩ true
    (secondThread (.kernel t')) t') false (firstThread (.switched t x m)) (exec ctxSw c₁)
  let resumed : Trap := { t with honoured := t.honoured ∧ Honours (exec ctxSw c₁) (0x80300000 + pageSize) x m }
  have hc₂ : s₁.Current false (firstThread (.kernel resumed)) := ⟨rfl, rfl⟩
  have hcode : Step 0x80201000 s₁ .code _ := registers_step hc₂ rfl t.call
  have hc₃ : System.Current { s₁ with cpu := { s₁.cpu with x := t.call } } false (firstThread (.kernel resumed)) :=
    ⟨rfl, rfl⟩
  have hret : Step 0x80201000 _ (.ret 0) _ := Step.ret 0 hc₃ rfl fun _ _ _ => rfl
  have h₃ := (h₁.next (.switch false) hswitch).next .code hcode
  obtain ⟨hreturns, hscratch⟩ := (context_preserved h₃).1 _ _ hret false _ _ hc₃ rfl
  exact ⟨_, s₁, _, _, t, x, m, h₁, rfl, rfl, hswitch, hhonours, hcode, hret, hreturns, hscratch⟩

end Results

end Karg.ContextRuns
