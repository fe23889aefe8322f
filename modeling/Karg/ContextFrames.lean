import Karg.TrapSystem

namespace Karg.ContextFrames

open ByteMemory KernelMemory PageAlloc ProcStack Riscv TrapCode TrapSystem

structure Returns (c : Cpu) (k : Context) : Prop where
  regs : ∀ r, r ≠ .zero → c.x r = k.x r
  sstatus : c.csr .sstatus = k.sstatus
  sepc : c.csr .sepc = k.sepc
  satp : c.csr .satp = k.satp

structure Enters (c : Cpu) (f : Start) : Prop where
  sepc : c.csr .sepc = BitVec.ofNat 64 f.entry
  a0 : c.x .a0 = BitVec.ofInt 64 f.argc
  a1 : c.x .a1 = BitVec.ofNat 64 f.argv
  sp : c.x .sp = BitVec.ofNat 64 f.usp &&& ~~~0xF
  spp : (c.csr .sstatus).getLsbD 8 = decide (f.flags &&& procFlagKern ≠ 0)
  spie : (c.csr .sstatus).getLsbD 5 = true
  satp : c.csr .satp = 8 <<< 60 ||| BitVec.ofNat 64 (f.pageTable / pageSize)

/-- The context in the frame of a trap while the kernel works for it. -/
def Trap.saved (t : Trap) : Context :=
  if t.scause = csrScauseEcallU then
    { t.ctx with
      sepc := t.ctx.sepc + rvInstrLen
      x := if nrSyscalls ≤ t.ctx.x .a7 then Function.update t.ctx.x .a0 (-enosys) else t.ctx.x }
  else t.ctx

def Trap.returned (t : Trap) (result : BitVec 64) : Context :=
  if t.scause = csrScauseEcallU then
    { t.ctx with
      sepc := t.ctx.sepc + rvInstrLen
      x := Function.update t.ctx.x .a0 (if nrSyscalls ≤ t.ctx.x .a7 then -enosys else result) }
  else t.ctx

def Trap.Tracked (t : Trap) : Prop := t.syscall = decide (t.scause = csrScauseEcallU ∧ ¬ nrSyscalls ≤ t.ctx.x .a7)

structure Called (top : Nat) (t : Trap) : Prop where
  sp : t.call .sp = BitVec.ofNat 64 (top - 176)
  frame : (t.call .a0).toNat = top - 176 + 80
  regs : ∀ r ∈ preserved, t.call r = t.ctx.x r
  tracked : Trap.Tracked t
  honoured : t.honoured

def startFrame (procEntry : Nat) (f : Start) : List (Nat × BitVec 64) := [
  (248, BitVec.ofNat 64 f.argv), (240, BitVec.ofInt 64 f.argc), (216, BitVec.ofNat 64 f.entry),
  (208, initialSstatus f.sstatus f.flags), (200, BitVec.ofNat 64 f.usp &&& ~~~0xF), (128, initialSatp f.pageTable),
  (120, BitVec.ofNat 64 procEntry)]

variable {c : Cpu} {k : Context} {m m' : Memory} {b o i : Nat} {v base : BitVec 64} {t : Trap} {f : Start}
  {x : Reg → BitVec 64} {l : List (Nat × BitVec 64)} {procEntryAddr size n : Nat}

theorem toNat_add_neg (h : n ≤ base.toNat) : (base + BitVec.ofInt 64 (-n)).toNat = base.toNat - n := by
  have hn : n < 2 ^ 64 := Nat.lt_of_le_of_lt h base.isLt
  have hle : BitVec.ofNat 64 n ≤ base := by
    rw [BitVec.le_def, BitVec.toNat_ofNat, Nat.mod_eq_of_lt hn]
    exact h
  rw [BitVec.ofInt_neg, BitVec.ofInt_natCast, ← BitVec.sub_eq_add_neg, BitVec.toNat_sub_of_le hle, BitVec.toNat_ofNat,
    Nat.mod_eq_of_lt hn]

theorem ofNat_add_ofInt (b n : Nat) : BitVec.ofNat 64 b + BitVec.ofInt 64 n = BitVec.ofNat 64 (b + n) := by
  rw [BitVec.ofInt_natCast, BitVec.ofNat_add]

theorem Holds.set (h : Holds m b l) (hl : Fits l size) (hi : l[i]? = some (o, v)) (v' : BitVec 64) :
    Holds (setWord m (b + o) v') b (l.set i (o, v')) := by
  obtain ⟨hlt, hget⟩ := List.getElem?_eq_some_iff.mp hi
  intro p hp
  obtain ⟨j, hj, rfl⟩ := List.mem_iff_getElem.mp hp
  rw [List.length_set] at hj
  by_cases hij : i = j
  · subst hij
    rw [List.getElem_set_self]
    exact word_setWord m (b + o) v'
  · rw [List.getElem_set_ne hij]
    rw [word_setWord_apart]
    · exact h _ (List.getElem_mem hj)
    · have hap : ∀ i j (hi : i < l.length) (hj : j < l.length), i < j → l[i].1 + 8 ≤ l[j].1 ∨ l[j].1 + 8 ≤ l[i].1 := by
        intro i j hi hj hij
        have hw := List.pairwise_iff_getElem.mp hl.apart i j (by rwa [List.length_map]) (by rwa [List.length_map]) hij
        rwa [List.getElem_map, List.getElem_map] at hw
      have ho : l[i].1 = o := congrArg Prod.fst hget
      rcases Nat.lt_or_gt_of_ne hij with hlt' | hgt
      · have := hap i j hlt hj hlt'
        omega
      · have := hap j i hj hlt hgt
        omega

theorem startFrame_fits (procEntry : Nat) (f : Start) : Fits (startFrame procEntry f) 304 := by
  constructor
  · show List.Pairwise _ [248, 240, 216, 208, 200, 128, 120]
    decide
  · show ∀ o ∈ [248, 240, 216, 208, 200, 128, 120], o + 8 ≤ 304
    decide

section Trampoline

theorem trapWords_fits (c : Cpu) : Fits (trapWords c) 176 := by
  constructor
  · show List.Pairwise _ [112, 120, 128, 136, 144, 152, 160, 168, 80, 88, 96, 104, 72, 64, 56, 48, 40, 32, 24, 16, 8, 0]
    decide
  · show ∀ o ∈ [112, 120, 128, 136, 144, 152, 160, 168, 80, 88, 96, 104, 72, 64, 56, 48, 40, 32, 24, 16, 8, 0], o + 8 ≤ 176
    decide

theorem Holds.context (h : Holds m b (trapWords c)) : Holds m b (trapFrame (Context.of c)) := by
  have heq : trapFrame (Context.of c) = (trapWords c).take 10 ++ (trapWords c).drop 12 := rfl
  intro p hp
  apply h
  rw [heq, List.mem_append] at hp
  rcases hp with hp | hp
  · exact List.mem_of_mem_take hp
  · exact List.mem_of_mem_drop hp

theorem Holds.set_sepc (h : Holds m b (trapFrame k)) (v : BitVec 64) :
    Holds (setWord m (b + 88) v) b (trapFrame { k with sepc := v }) :=
  Holds.set (i := 9) h (trapFrame_fits k) rfl v

theorem Holds.set_a0 (h : Holds m b (trapFrame k)) (v : BitVec 64) :
    Holds (setWord m (b + 112) v) b (trapFrame { k with x := Function.update k.x .a0 v }) :=
  Holds.set (i := 0) h (trapFrame_fits k) rfl v

theorem trapHandler_frame (c' : Cpu) (h : Holds m b (trapWords c)) :
    Holds (trapHandler m (b + 80)).1 b (trapFrame (Trap.saved (.of c c' (trapHandler m (b + 80)).2))) ∧
      Trap.Tracked (.of c c' (trapHandler m (b + 80)).2) ∧
      Only (place b 176) m (trapHandler m (b + 80)).1 := by
  have hcause : word m (b + 80 + 16) = c.csr .scause := h (96, _) (by simp [trapWords])
  have hsepc : word m (b + 80 + 8) = c.csr .sepc := h (88, _) (by simp [trapWords])
  have ha7 : ∀ v, word (setWord m (b + 80 + 8) v) (b + 80 + 88) = c.x .a7 := by
    intro v
    rw [word_setWord_apart _ _ (by omega)]
    exact h (168, _) (by simp [trapWords])
  have hctx := Holds.context h
  by_cases hc : c.csr .scause = csrScauseEcallU
  · have hno : ¬ csrScauseEcallU &&& csrScauseIntr ≠ 0 := by decide
    have hpc := Holds.set_sepc hctx ((Context.of c).sepc + rvInstrLen)
    have honly : Only (place b 176) m (setWord m (b + 88) ((Context.of c).sepc + rvInstrLen)) := by
      apply (setWord_only m _ _).mono
      exact place_subset_place (by omega) (by omega)
    by_cases hn : nrSyscalls ≤ c.x .a7
    · have hr : trapHandler m (b + 80) =
          (setWord (setWord m (b + 88) ((Context.of c).sepc + rvInstrLen)) (b + 112) (-enosys), false) := by
        simp only [trapHandler, hcause, hc, if_neg hno, if_true, ha7, hsepc, if_pos hn]
        rfl
      have hs : Trap.saved (.of c c' false) = { Context.of c with
          sepc := (Context.of c).sepc + rvInstrLen
          x := Function.update (Context.of c).x .a0 (-enosys) } := by
        rw [Trap.saved, Trap.of, if_pos hc, if_pos (show nrSyscalls ≤ (Context.of c).x .a7 from hn)]
      rw [hr, hs]
      refine ⟨Holds.set_a0 hpc _, ?_, honly.trans ((setWord_only _ _ _).mono ?_)⟩
      · show false = decide _
        exact (decide_eq_false fun hw => hw.2 hn).symm
      · exact place_subset_place (by omega) (by omega)
    · have hr : trapHandler m (b + 80) = (setWord m (b + 88) ((Context.of c).sepc + rvInstrLen), true) := by
        simp only [trapHandler, hcause, hc, if_neg hno, if_true, ha7, hsepc, if_neg hn]
        rfl
      have hs : Trap.saved (.of c c' true) = { Context.of c with
          sepc := (Context.of c).sepc + rvInstrLen } := by
        rw [Trap.saved, Trap.of, if_pos hc, if_neg (show ¬ nrSyscalls ≤ (Context.of c).x .a7 from hn)]
      rw [hr, hs]
      refine ⟨hpc, ?_, honly⟩
      show true = decide _
      exact (decide_eq_true ⟨hc, hn⟩).symm
  · have hr : trapHandler m (b + 80) = (m, false) := by
      simp only [trapHandler, hcause, if_neg hc, ite_self]
    rw [hr]
    refine ⟨?_, ?_, Only.refl _ m⟩
    · rw [Trap.saved, Trap.of, if_neg hc]
      exact hctx
    · show false = decide _
      exact (decide_eq_false fun hw => hc hw.1).symm

theorem trampoline_frame {c' : Cpu} (hc : c' = exec trampoline c) (h : c.csr .sscratch = BitVec.ofNat 64 n)
    (hn : 176 ≤ n) (hlt : n < 2 ^ 64) : Holds c'.mem (n - 176) (trapWords c) ∧ (c'.x .a0).toNat = n - 176 + 80 ∧
      c'.x .sp = BitVec.ofNat 64 (n - 176) ∧ (∀ r ∈ preserved, c'.x r = c.x r) ∧
      Only (place (n - 176) 176) c.mem c'.mem := by
  obtain ⟨hmem, hsp, ha0, hregs⟩ := exec_trampoline c
  have hn' : (c.csr .sscratch).toNat = n := by
    rw [h, BitVec.toNat_ofNat, Nat.mod_eq_of_lt hlt]
  have hbase : (c.csr .sscratch + BitVec.ofInt 64 (-176)).toNat = n - 176 :=
    (toNat_add_neg (hn.trans_eq hn'.symm)).trans (congrArg (· - 176) hn')
  have hroom : (c.csr .sscratch + BitVec.ofInt 64 (-176)).toNat + 176 ≤ 2 ^ 64 := by omega
  have hholds := writeWords_holds (m := c.mem) hroom (trapWords_fits c)
  have honly := writeWords_only (m := c.mem) hroom (trapWords_fits c)
  rw [hbase] at hholds honly
  rw [hc, hmem, ha0, hsp]
  refine ⟨hholds, ?_, ?_, hregs, honly⟩
  · have hlt' : (c.csr .sscratch + BitVec.ofInt 64 (-176)).toNat + 80 < 2 ^ 64 := by omega
    exact (toNat_add_ofNat hlt').trans (congrArg (· + 80) hbase)
  · rw [← hbase, BitVec.ofNat_toNat, BitVec.setWidth_eq]

theorem trapHandlerEnd_frame (h : Holds m b (trapFrame (Trap.saved t))) (ht : Trap.Tracked t) (result : BitVec 64) :
    Holds (trapHandlerEnd m (b + 80) t.syscall result) b (trapFrame (Trap.returned t result)) ∧
      Only (place b 176) m (trapHandlerEnd m (b + 80) t.syscall result) := by
  by_cases hs : t.syscall = true
  · obtain ⟨hc, hn⟩ := of_decide_eq_true (ht.symm.trans hs)
    have hr : Trap.returned t result =
        { Trap.saved t with x := Function.update (Trap.saved t).x .a0 result } := by
      rw [Trap.returned, Trap.saved, if_pos hc, if_pos hc, if_neg hn, if_neg hn]
    rw [trapHandlerEnd, if_pos hs, hr]
    refine ⟨Holds.set_a0 h result, (setWord_only _ _ _).mono ?_⟩
    exact place_subset_place (by omega) (by omega)
  · have hr : Trap.returned t result = Trap.saved t := by
      rw [Trap.returned, Trap.saved]
      by_cases hc : t.scause = csrScauseEcallU
      · have hn : nrSyscalls ≤ t.ctx.x .a7 := by
          by_contra hn
          exact hs (ht.trans (decide_eq_true ⟨hc, hn⟩))
        rw [if_pos hc, if_pos hc, if_pos hn, if_pos hn]
      · rw [if_neg hc, if_neg hc]
    rw [trapHandlerEnd, if_neg hs, hr]
    exact ⟨h, Only.refl _ m⟩

theorem returned_preserved (t : Trap) (result : BitVec 64) {r : Reg} (hr : r ∈ preserved) :
    (Trap.returned t result).x r = t.ctx.x r := by
  have hne : r ≠ .a0 := by
    rintro rfl
    exact absurd hr (by decide)
  rw [Trap.returned]
  split
  · exact Function.update_of_ne hne ..
  · rfl

end Trampoline

section Return

theorem entryLoads_source (k : Context) {r : Reg} (hz : r ≠ .zero) (hs : r ≠ .sp) (hr : r ∉ preserved) :
    ∃ o, source r entryLoads = some o ∧ (o, k.x r) ∈ trapFrame k := by
  cases r <;> first | exact absurd rfl hz | exact absurd rfl hs | exact absurd (by decide) hr |
    exact ⟨_, rfl, by simp [trapFrame]⟩

theorem entryLoads_preserved {r : Reg} (hr : r ∈ preserved) : source r entryLoads = none := by
  revert r
  decide

theorem word_addr {d : Nat} (h : Holds c.mem b l) (hsp : c.x .sp = BitVec.ofNat 64 (b + d)) (hl : Fits l size)
    (hb : b + size ≤ 2 ^ 64) (ho : (d + o, v) ∈ l) : word c.mem (c.addr .sp o) = v := by
  have hw : d + o + 8 ≤ size := hl.within (d + o) (List.mem_map_of_mem ho)
  have hsp' : (c.x .sp).toNat = b + d := by
    rw [hsp, BitVec.toNat_ofNat, Nat.mod_eq_of_lt (by omega)]
  have hlt : (c.x .sp).toNat + o < 2 ^ 64 := by omega
  have haddr : c.addr .sp o = b + (d + o) :=
    (toNat_add_ofNat hlt).trans ((congrArg (· + o) hsp').trans (Nat.add_assoc b d o))
  rw [haddr]
  exact h (d + o, v) ho

theorem procEntry_returns (h : Holds c.mem b (trapFrame k)) (hsp : c.x .sp = BitVec.ofNat 64 b)
    (hb : b + 176 ≤ 2 ^ 64) (hx : ∀ r ∈ preserved, c.x r = k.x r) :
    Returns (exec procEntry c) k ∧ (exec procEntry c).csr .sscratch = BitVec.ofNat 64 (b + 176) := by
  obtain ⟨-, hsatp, hsst, hepc, hscr, hsp', hregs⟩ := exec_procEntry c
  have hword : ∀ {o v}, (o, v) ∈ trapFrame k → word c.mem (c.addr .sp o) = v := by
    intro o v ho
    apply word_addr (d := 0) h hsp (trapFrame_fits k) hb
    rwa [Nat.zero_add]
  constructor
  · constructor
    · intro r hz
      by_cases hs : r = .sp
      · subst hs
        exact hsp'.trans (hword (by simp [trapFrame]))
      · rw [hregs r hs]
        by_cases hr : r ∈ preserved
        · rw [entryLoads_preserved hr]
          exact hx r hr
        · obtain ⟨o, ho, hmem⟩ := entryLoads_source k hz hs hr
          rw [ho]
          exact hword hmem
    · exact hsst.trans (hword (by simp [trapFrame]))
    · exact hepc.trans (hword (by simp [trapFrame]))
    · exact hsatp.trans (hword (by simp [trapFrame]))
  · rw [hscr, hsp]
    exact ofNat_add_ofInt b 176

theorem initialSstatus_spie (sstatus : BitVec 64) (flags : UInt32) : (initialSstatus sstatus flags).getLsbD 5 = true := by
  unfold initialSstatus
  split <;> simp [csrSstatusSpie, csrSstatusSpp]

theorem initialSstatus_spp (sstatus : BitVec 64) (flags : UInt32) :
    (initialSstatus sstatus flags).getLsbD 8 = decide (flags &&& procFlagKern ≠ 0) := by
  unfold initialSstatus
  split
  case isTrue h => simp [csrSstatusSpie, csrSstatusSpp, h]
  case isFalse h => simp [csrSstatusSpie, csrSstatusSpp, h]

theorem procEntry_enters (h : Holds c.mem b (startFrame procEntryAddr f)) (hsp : c.x .sp = BitVec.ofNat 64 (b + 128))
    (hb : b + 304 ≤ 2 ^ 64) :
    Enters (exec procEntry c) f ∧ (exec procEntry c).csr .sscratch = BitVec.ofNat 64 (b + 304) := by
  obtain ⟨-, hsatp, hsst, hepc, hscr, hsp', hregs⟩ := exec_procEntry c
  have hword : ∀ {o v}, (128 + o, v) ∈ startFrame procEntryAddr f → word c.mem (c.addr .sp o) = v :=
    word_addr h hsp (startFrame_fits procEntryAddr f) hb
  have hst : (exec procEntry c).csr .sstatus = initialSstatus f.sstatus f.flags :=
    hsst.trans (hword (by simp [startFrame]))
  constructor
  · constructor
    · exact hepc.trans (hword (by simp [startFrame]))
    · exact (hregs .a0 nofun).trans (hword (by simp [startFrame]))
    · exact (hregs .a1 nofun).trans (hword (by simp [startFrame]))
    · exact hsp'.trans (hword (by simp [startFrame]))
    · rw [hst, initialSstatus_spp]
    · rw [hst, initialSstatus_spie]
    · exact hsatp.trans (hword (by simp [startFrame, initialSatp]))
  · rw [hscr, hsp]
    exact ofNat_add_ofInt (b + 128) 176

end Return

section Switch

theorem switch_base (hsp : 128 ≤ (c.x .sp).toNat) :
    (c.x .sp + BitVec.ofInt 64 (-128)).toNat = (c.x .sp).toNat - 128 := toNat_add_neg hsp

theorem switch_room (hsp : 128 ≤ (c.x .sp).toNat) : (c.x .sp + BitVec.ofInt 64 (-128)).toNat + 128 ≤ 2 ^ 64 := by
  have hlt := (c.x .sp).isLt
  rw [switch_base hsp]
  omega

theorem switchMem_only (hsp : 128 ≤ (c.x .sp).toNat) :
    Only (place ((c.x .sp).toNat - 128) 128 ∪ place (c.x .a0).toNat 8) c.mem (switchMem c) := by
  have hsaves := writeWords_only (m := c.mem) (switch_room hsp) (switchFrame_fits c.x)
  rw [switch_base hsp] at hsaves
  rw [switchMem, Cpu.addr_zero c .a0 nofun]
  exact (hsaves.mono Set.subset_union_left).trans ((setWord_only _ _ _).mono Set.subset_union_right)

theorem switchMem_saves (hsp : 128 ≤ (c.x .sp).toNat)
    (hd : Disjoint (place ((c.x .sp).toNat - 128) 128) (place (c.x .a0).toNat 8)) :
    Holds (switchMem c) ((c.x .sp).toNat - 128) (switchFrame c.x) ∧
      word (switchMem c) (c.x .a0).toNat = c.x .sp + BitVec.ofInt 64 (-128) := by
  have hholds := writeWords_holds (m := c.mem) (switch_room hsp) (switchFrame_fits c.x)
  rw [switch_base hsp] at hholds
  rw [switchMem, Cpu.addr_zero c .a0 nofun]
  exact ⟨hholds.only (switchFrame_fits c.x) (setWord_only _ _ _) hd, word_setWord _ _ _⟩

theorem switchLoads_source (x : Reg → BitVec 64) {r : Reg} (hr : r ∈ Reg.ra :: preserved) :
    ∃ o, source r switchLoads = some o ∧ (o, x r) ∈ switchFrame x := by
  cases r <;> first | exact absurd hr (by decide) | exact ⟨_, rfl, by simp [switchFrame]⟩

theorem ctxSw_word {r : Reg} (hw : switchSp c = BitVec.ofNat 64 b) (hb : b + 128 ≤ 2 ^ 64) (hr : r ≠ .sp)
    (hs : source r switchLoads = some o) (ho : o + 8 ≤ 128) : (exec ctxSw c).x r = word (switchMem c) (b + o) := by
  have hb' : (switchSp c).toNat = b := by
    rw [hw, BitVec.toNat_ofNat, Nat.mod_eq_of_lt (by omega)]
  have hlt : (switchSp c).toNat + o < 2 ^ 64 := by omega
  rw [(exec_ctxSw c).2.2 r hr, hs, Option.elim_some, toNat_add_ofNat hlt, hb']

theorem ctxSw_restores (hw : switchSp c = BitVec.ofNat 64 b) (hb : b + 128 ≤ 2 ^ 64)
    (h : Holds (switchMem c) b (switchFrame x)) : ∀ r ∈ Reg.ra :: preserved, (exec ctxSw c).x r = x r := by
  intro r hr
  obtain ⟨o, hs, hmem⟩ := switchLoads_source x hr
  have ho : o + 8 ≤ 128 := (switchFrame_fits x).within o (List.mem_map_of_mem hmem)
  have hne : r ≠ .sp := by
    rintro rfl
    exact absurd hr (by decide)
  rw [ctxSw_word hw hb hne hs ho]
  exact h (o, x r) hmem

theorem ctxSw_starts (hw : switchSp c = BitVec.ofNat 64 b) (hb : b + 304 ≤ 2 ^ 64)
    (h : Holds (switchMem c) b (startFrame procEntryAddr f)) :
    (exec ctxSw c).x .sp = BitVec.ofNat 64 (b + 128) ∧ (exec ctxSw c).x .ra = BitVec.ofNat 64 procEntryAddr := by
  have hne : Reg.ra ≠ .sp := nofun
  have hs : source .ra switchLoads = some 120 := rfl
  constructor
  · rw [(exec_ctxSw c).2.1, hw]
    exact ofNat_add_ofInt b 128
  · rw [ctxSw_word hw (by omega) hne hs (by decide)]
    exact h (120, BitVec.ofNat 64 procEntryAddr) (by simp [startFrame])

end Switch

section Fill

theorem word_store (m : Memory) (a v : Nat) : word (store m a 8 v) a = BitVec.ofNat 64 v := by
  rw [word, load_store]
  apply BitVec.eq_of_toNat_eq
  rw [BitVec.toNat_ofNat, BitVec.toNat_ofNat]
  exact Nat.mod_mod ..

theorem word_store_apart {a a' : Nat} (m : Memory) (v : Nat) (h : a + 8 ≤ a' ∨ a' + 8 ≤ a) :
    word (store m a' 8 v) a = word m a := word_only (store_only m a' 8 v) (disjoint_place h)

theorem procFillStack_frame (procEntryAddr : Nat) (f : Start) (m : Memory) (proc : Proc) (hflags : proc.flags = f.flags)
    (htable : proc.pageTable = f.pageTable) (hsp : 304 ≤ proc.sp) (hlt : proc.sp < 2 ^ 64) {r : Memory × Proc}
    (hr : r = procFillStack procEntryAddr f.sstatus m proc f.entry f.usp f.argc f.argv) :
    Holds r.1 (proc.sp - 304) (startFrame procEntryAddr f) ∧ r.2.sp = proc.sp - 304 ∧
      Only (place (proc.sp - 304) 304) m r.1 := by
  have hsub : usizeSub proc.sp (8 * 38) = proc.sp - 304 := usizeSub_of_le hsp hlt
  have hwithin : ∀ (m : Memory) (o v : Nat), o + 8 ≤ 304 →
      Only (place (proc.sp - 304) 304) m (store m (proc.sp - 304 + o) 8 v) := by
    intro m o v ho
    apply (store_only m _ 8 v).mono
    exact place_subset_place (by omega) (by omega)
  rw [hr, procFillStack, hsub, hflags, htable]
  refine ⟨?_, rfl, ?_⟩
  · simp only [Holds, startFrame, List.forall_mem_cons]
    refine ⟨?_, ?_, ?_, ?_, ?_, ?_, ?_, fun p hp => absurd hp List.not_mem_nil⟩ <;>
      simp (disch := omega) only [word_store_apart, word_store, BitVec.ofNat_toNat, BitVec.setWidth_eq, Nat.reduceMul]
  · apply Only.trans _ (hwithin _ _ _ (by decide))
    apply Only.trans _ (hwithin _ _ _ (by decide))
    apply Only.trans _ (hwithin _ _ _ (by decide))
    apply Only.trans _ (hwithin _ _ _ (by decide))
    apply Only.trans _ (hwithin _ _ _ (by decide))
    apply Only.trans _ (hwithin _ _ _ (by decide))
    exact hwithin _ _ _ (by decide)

theorem fill_frame (procEntryAddr : Nat) (m : Memory) (f : Start) {kernStack spField : Nat}
    (hk : kernStack + pageSize < 2 ^ 64)
    (hd : Disjoint (place kernStack pageSize) (place spField 8)) :
    Holds (fill procEntryAddr m kernStack spField f) (kernStack + pageSize - 304) (startFrame procEntryAddr f) ∧
      word (fill procEntryAddr m kernStack spField f) spField = BitVec.ofNat 64 (kernStack + pageSize - 304) ∧
      Only (place (kernStack + pageSize - 304) 304 ∪ place spField 8) m (fill procEntryAddr m kernStack spField f) := by
  have hadd : usizeAdd kernStack pageSize = kernStack + pageSize := usizeAdd_of_lt hk
  have hpage : 304 ≤ kernStack + pageSize := by
    rw [pageSize]
    omega
  have hsub : place (kernStack + pageSize - 304) 304 ⊆ place kernStack pageSize := by
    rw [pageSize]
    exact place_subset_place (by omega) (by omega)
  rw [fill, hadd]
  let proc : Proc := ⟨f.flags, f.pageTable, kernStack, 0, kernStack + pageSize⟩
  obtain ⟨hholds, hsp, honly⟩ := procFillStack_frame procEntryAddr f m proc rfl rfl hpage hk rfl
  refine ⟨?_, ?_, ?_⟩
  · exact hholds.only (startFrame_fits procEntryAddr f) (setWord_only _ _ _) (hd.mono_left hsub)
  · rw [← hsp]
    exact word_setWord _ _ _
  · exact (honly.mono Set.subset_union_left).trans ((setWord_only _ _ _).mono Set.subset_union_right)

end Fill

end Karg.ContextFrames
