import Karg.Riscv

namespace Karg.TrapCode

open ByteMemory Riscv

/-- `trampoline` up to its call of `trap_handler`. -/
def trampoline : List Instr := [
  .csrrw .sp .sscratch .sp,
  .add .sp .sp (-176),
  .sd .a0 112 .sp,
  .sd .a1 120 .sp,
  .sd .a2 128 .sp,
  .sd .a3 136 .sp,
  .sd .a4 144 .sp,
  .sd .a5 152 .sp,
  .sd .a6 160 .sp,
  .sd .a7 168 .sp,
  .csrr .a0 .sstatus,
  .csrr .a1 .sepc,
  .csrr .a2 .scause,
  .csrr .a3 .stval,
  .sd .a0 80 .sp,
  .sd .a1 88 .sp,
  .sd .a2 96 .sp,
  .sd .a3 104 .sp,
  .csrr .a0 .sscratch,
  .sd .a0 72 .sp,
  .csrw .sscratch .sp,
  .sd .ra 64 .sp,
  .sd .t0 56 .sp,
  .sd .t1 48 .sp,
  .sd .t2 40 .sp,
  .sd .t3 32 .sp,
  .sd .t4 24 .sp,
  .sd .t5 16 .sp,
  .sd .t6 8 .sp,
  .csrr .t0 .satp,
  .sd .t0 0 .sp,
  .sfenceVma .zero .zero,
  .csrw .satp .zero,
  .sfenceVma .zero .zero,
  .mv .a0 .sp,
  .add .a0 .a0 80]

def procEntry : List Instr := [
  .sfenceVma .zero .zero,
  .ld .t0 0 .sp,
  .csrw .satp .t0,
  .sfenceVma .zero .zero,
  .ld .t6 8 .sp,
  .ld .t5 16 .sp,
  .ld .t4 24 .sp,
  .ld .t3 32 .sp,
  .ld .t2 40 .sp,
  .ld .t1 48 .sp,
  .ld .t0 56 .sp,
  .ld .ra 64 .sp,
  .ld .a0 72 .sp,
  .csrw .sscratch .a0,
  .ld .a0 80 .sp,
  .ld .a1 88 .sp,
  .csrw .sstatus .a0,
  .csrw .sepc .a1,
  .ld .a0 112 .sp,
  .ld .a1 120 .sp,
  .ld .a2 128 .sp,
  .ld .a3 136 .sp,
  .ld .a4 144 .sp,
  .ld .a5 152 .sp,
  .ld .a6 160 .sp,
  .ld .a7 168 .sp,
  .add .sp .sp 176,
  .csrrw .sp .sscratch .sp]

def ctxSw : List Instr := [
  .add .sp .sp (-128),
  .sd .ra 120 .sp,
  .sd .gp 112 .sp,
  .sd .tp 104 .sp,
  .sd .s0 96 .sp,
  .sd .s1 88 .sp,
  .sd .s2 80 .sp,
  .sd .s3 72 .sp,
  .sd .s4 64 .sp,
  .sd .s5 56 .sp,
  .sd .s6 48 .sp,
  .sd .s7 40 .sp,
  .sd .s8 32 .sp,
  .sd .s9 24 .sp,
  .sd .s10 16 .sp,
  .sd .s11 8 .sp,
  .sd .sp 0 .a0,
  .ld .sp 0 .a1,
  .ld .s11 8 .sp,
  .ld .s10 16 .sp,
  .ld .s9 24 .sp,
  .ld .s8 32 .sp,
  .ld .s7 40 .sp,
  .ld .s6 48 .sp,
  .ld .s5 56 .sp,
  .ld .s4 64 .sp,
  .ld .s3 72 .sp,
  .ld .s2 80 .sp,
  .ld .s1 88 .sp,
  .ld .s0 96 .sp,
  .ld .tp 104 .sp,
  .ld .gp 112 .sp,
  .ld .ra 120 .sp,
  .add .sp .sp 128]

structure Context where
  x : Reg → BitVec 64
  sstatus : BitVec 64
  sepc : BitVec 64
  satp : BitVec 64

def Context.of (c : Cpu) : Context := ⟨c.x, c.csr .sstatus, c.csr .sepc, c.csr .satp⟩

def trapFrame (c : Context) : List (Nat × BitVec 64) := [
  (112, c.x .a0), (120, c.x .a1), (128, c.x .a2), (136, c.x .a3), (144, c.x .a4), (152, c.x .a5), (160, c.x .a6),
  (168, c.x .a7), (80, c.sstatus), (88, c.sepc), (72, c.x .sp), (64, c.x .ra), (56, c.x .t0), (48, c.x .t1),
  (40, c.x .t2), (32, c.x .t3), (24, c.x .t4), (16, c.x .t5), (8, c.x .t6), (0, c.satp)]

def switchFrame (x : Reg → BitVec 64) : List (Nat × BitVec 64) := [
  (120, x .ra), (112, x .gp), (104, x .tp), (96, x .s0), (88, x .s1), (80, x .s2), (72, x .s3), (64, x .s4), (56, x .s5),
  (48, x .s6), (40, x .s7), (32, x .s8), (24, x .s9), (16, x .s10), (8, x .s11)]

def preserved : List Reg := [.gp, .tp, .s0, .s1, .s2, .s3, .s4, .s5, .s6, .s7, .s8, .s9, .s10, .s11]

variable {c : Cpu} {k : Context} {x : Reg → BitVec 64} {b : BitVec 64}

theorem trapFrame_fits (k : Context) : Fits (trapFrame k) 176 := by
  constructor
  · show List.Pairwise _ [112, 120, 128, 136, 144, 152, 160, 168, 80, 88, 72, 64, 56, 48, 40, 32, 24, 16, 8, 0]
    decide
  · show ∀ o ∈ [112, 120, 128, 136, 144, 152, 160, 168, 80, 88, 72, 64, 56, 48, 40, 32, 24, 16, 8, 0], o + 8 ≤ 176
    decide

theorem switchFrame_fits (x : Reg → BitVec 64) : Fits (switchFrame x) 128 := by
  constructor
  · show List.Pairwise _ [120, 112, 104, 96, 88, 80, 72, 64, 56, 48, 40, 32, 24, 16, 8]
    decide
  · show ∀ o ∈ [120, 112, 104, 96, 88, 80, 72, 64, 56, 48, 40, 32, 24, 16, 8], o + 8 ≤ 128
    decide

def trapWords (c : Cpu) : List (Nat × BitVec 64) := [
  (112, c.x .a0), (120, c.x .a1), (128, c.x .a2), (136, c.x .a3), (144, c.x .a4), (152, c.x .a5), (160, c.x .a6),
  (168, c.x .a7), (80, c.csr .sstatus), (88, c.csr .sepc), (96, c.csr .scause), (104, c.csr .stval), (72, c.x .sp),
  (64, c.x .ra), (56, c.x .t0), (48, c.x .t1), (40, c.x .t2), (32, c.x .t3), (24, c.x .t4), (16, c.x .t5), (8, c.x .t6),
  (0, c.csr .satp)]

theorem trampoline_eq : trampoline = [.csrrw .sp .sscratch .sp, .add .sp .sp (-176)] ++
    saves [(.a0, 112), (.a1, 120), (.a2, 128), (.a3, 136), (.a4, 144), (.a5, 152), (.a6, 160), (.a7, 168)] ++
    [.csrr .a0 .sstatus, .csrr .a1 .sepc, .csrr .a2 .scause, .csrr .a3 .stval] ++
    saves [(.a0, 80), (.a1, 88), (.a2, 96), (.a3, 104)] ++ [.csrr .a0 .sscratch] ++ saves [(.a0, 72)] ++
    [.csrw .sscratch .sp] ++
    saves [(.ra, 64), (.t0, 56), (.t1, 48), (.t2, 40), (.t3, 32), (.t4, 24), (.t5, 16), (.t6, 8)] ++
    [.csrr .t0 .satp] ++ saves [(.t0, 0)] ++
    [.sfenceVma .zero .zero, .csrw .satp .zero, .sfenceVma .zero .zero, .mv .a0 .sp, .add .a0 .a0 80] := rfl

theorem exec_trampoline (c : Cpu) : (exec trampoline c).mem =
      writeWords c.mem (c.csr .sscratch + BitVec.ofInt 64 (-176)) (trapWords c) ∧
    (exec trampoline c).x .sp = c.csr .sscratch + BitVec.ofInt 64 (-176) ∧
    (exec trampoline c).x .a0 = c.csr .sscratch + BitVec.ofInt 64 (-176) + BitVec.ofInt 64 80 ∧
    ∀ r ∈ preserved, (exec trampoline c).x r = c.x r := by
  simp only [trampoline_eq, exec_append, exec_saves]
  refine ⟨rfl, rfl, rfl, ?_⟩
  simp only [preserved, List.forall_mem_cons]
  exact ⟨rfl, rfl, rfl, rfl, rfl, rfl, rfl, rfl, rfl, rfl, rfl, rfl, rfl, rfl, fun r hr => absurd hr List.not_mem_nil⟩

def entryLoads : List Instr := procEntry.take 26

theorem entryLoads_restores : ∀ i ∈ entryLoads, i.restores := by decide

def entryLeave : List Instr := procEntry.drop 26

theorem procEntry_eq : procEntry = entryLoads ++ entryLeave := rfl

theorem exec_entryLeave (c : Cpu) : (exec entryLeave c).mem = c.mem ∧
    (exec entryLeave c).csr .sscratch = c.x .sp + BitVec.ofInt 64 176 ∧
    (exec entryLeave c).x .sp = c.csr .sscratch ∧ ∀ r, r ≠ .sp → (exec entryLeave c).x r = c.x r := by
  refine ⟨rfl, rfl, rfl, fun r hr => ?_⟩
  exact (Function.update_of_ne hr ..).trans (Function.update_of_ne hr ..)

theorem exec_procEntry (c : Cpu) : (exec procEntry c).mem = c.mem ∧
    (exec procEntry c).csr .satp = word c.mem (c.addr .sp 0) ∧
    (exec procEntry c).csr .sstatus = word c.mem (c.addr .sp 80) ∧
    (exec procEntry c).csr .sepc = word c.mem (c.addr .sp 88) ∧
    (exec procEntry c).csr .sscratch = c.x .sp + BitVec.ofInt 64 176 ∧
    (exec procEntry c).x .sp = word c.mem (c.addr .sp 72) ∧
    ∀ r, r ≠ .sp → (exec procEntry c).x r = (source r entryLoads).elim (c.x r) fun o => word c.mem (c.addr .sp o) := by
  obtain ⟨hm, hsp, hx⟩ := exec_restores entryLoads_restores c
  obtain ⟨hm', hscr', hsp', hx'⟩ := exec_entryLeave (exec entryLoads c)
  have hscr : (exec entryLoads c).csr .sscratch = word c.mem (c.addr .sp 72) :=
    exec_csrw (entryLoads.take 13) (entryLoads.drop 14) .sscratch .a0 c (by decide) (by decide) nofun rfl
  have hsatp := exec_csrw (procEntry.take 2) (procEntry.drop 3) .satp .t0 c (by decide) (by decide) nofun rfl
  have hsst := exec_csrw (procEntry.take 16) (procEntry.drop 17) .sstatus .a0 c (by decide) (by decide) nofun rfl
  have hepc := exec_csrw (procEntry.take 17) (procEntry.drop 18) .sepc .a1 c (by decide) (by decide) nofun rfl
  refine ⟨?_, hsatp, hsst, hepc, ?_, ?_, fun r hr => ?_⟩ <;> rw [procEntry_eq, exec_append]
  · exact hm'.trans hm
  · rw [hscr', hsp]
  · exact hsp'.trans hscr
  · rw [hx' r hr, hx]

def switchLoads : List Instr := (ctxSw.drop 18).take 15

theorem switchLoads_restores : ∀ i ∈ switchLoads, i.restores := by decide

theorem ctxSw_eq : ctxSw = [.add .sp .sp (-128)] ++
    saves [(.ra, 120), (.gp, 112), (.tp, 104), (.s0, 96), (.s1, 88), (.s2, 80), (.s3, 72), (.s4, 64), (.s5, 56), (.s6, 48),
      (.s7, 40), (.s8, 32), (.s9, 24), (.s10, 16), (.s11, 8)] ++
    [.sd .sp 0 .a0, .ld .sp 0 .a1] ++ switchLoads ++ [.add .sp .sp 128] := rfl

def switchMem (c : Cpu) : Memory :=
  setWord (writeWords c.mem (c.x .sp + BitVec.ofInt 64 (-128)) (switchFrame c.x)) (c.addr .a0 0)
    (c.x .sp + BitVec.ofInt 64 (-128))

def switchSp (c : Cpu) : BitVec 64 := word (switchMem c) (c.addr .a1 0)

theorem exec_switchSaves (c : Cpu) : ∃ c', exec ([.add .sp .sp (-128)] ++
    saves [(.ra, 120), (.gp, 112), (.tp, 104), (.s0, 96), (.s1, 88), (.s2, 80), (.s3, 72), (.s4, 64), (.s5, 56), (.s6, 48),
      (.s7, 40), (.s8, 32), (.s9, 24), (.s10, 16), (.s11, 8)] ++ [.sd .sp 0 .a0, .ld .sp 0 .a1]) c = c' ∧
    c'.mem = switchMem c ∧ c'.csr = c.csr ∧ c'.x .sp = switchSp c ∧ ∀ r, r ≠ .sp → c'.x r = c.x r := by
  refine ⟨_, rfl, ?_⟩
  simp only [exec_append, exec_saves]
  refine ⟨rfl, rfl, rfl, fun r hr => ?_⟩
  exact (Function.update_of_ne hr ..).trans (Function.update_of_ne hr ..)

theorem exec_ctxSw (c : Cpu) : (exec ctxSw c).mem = switchMem c ∧ (exec ctxSw c).x .sp = switchSp c + BitVec.ofInt 64 128 ∧
    ∀ r, r ≠ .sp → (exec ctxSw c).x r =
      (source r switchLoads).elim (c.x r) fun o => word (switchMem c) (switchSp c + BitVec.ofNat 64 o).toNat := by
  obtain ⟨c', hc', hm', -, hsp', hx'⟩ := exec_switchSaves c
  obtain ⟨hm, hsp, hx⟩ := exec_restores switchLoads_restores c'
  have hadd : ∀ c : Cpu, (exec [.add .sp .sp 128] c).mem = c.mem ∧
      (exec [.add .sp .sp 128] c).x .sp = c.x .sp + BitVec.ofInt 64 128 ∧
      ∀ r, r ≠ .sp → (exec [.add .sp .sp 128] c).x r = c.x r :=
    fun c => ⟨rfl, rfl, fun r hr => Function.update_of_ne hr ..⟩
  have haddr : ∀ o, c'.addr .sp o = (switchSp c + BitVec.ofNat 64 o).toNat := fun o =>
    congrArg (fun v => (v + BitVec.ofNat 64 o).toNat) hsp'
  obtain ⟨hma, hspa, hxa⟩ := hadd (exec switchLoads c')
  rw [ctxSw_eq, exec_append, exec_append, hc']
  refine ⟨hma.trans (hm.trans hm'), ?_, fun r hr => ?_⟩
  · rw [hspa, hsp, hsp']
  · rw [hxa r hr, hx, hx' r hr, hm']
    simp only [haddr]

theorem trampoline_satp (c : Cpu) : (exec trampoline c).csr .satp = 0 := by
  have hsplit : trampoline = trampoline.take 32 ++ .csrw .satp .zero :: trampoline.drop 33 := rfl
  have hkeeps : ∀ i ∈ trampoline.drop 33, i.keeps .satp := by decide
  generalize trampoline.take 32 = pre at hsplit
  generalize trampoline.drop 33 = post at hsplit hkeeps
  rw [hsplit, exec_append]
  apply (exec_keeps hkeeps (step (exec pre c) (.csrw .satp .zero))).trans
  exact Function.update_self Csr.satp ((exec pre c).get .zero) (exec pre c).csr

end Karg.TrapCode
