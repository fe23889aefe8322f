import Karg.ByteMemory

namespace Karg.Riscv

open ByteMemory

inductive Reg
  | zero | ra | sp | gp | tp | t0 | t1 | t2 | s0 | s1 | a0 | a1 | a2 | a3 | a4 | a5 | a6 | a7
  | s2 | s3 | s4 | s5 | s6 | s7 | s8 | s9 | s10 | s11 | t3 | t4 | t5 | t6
  deriving DecidableEq

inductive Csr
  | sstatus | sepc | scause | stval | sscratch | satp
  deriving DecidableEq

structure Cpu where
  x : Reg → BitVec 64
  csr : Csr → BitVec 64
  mem : Memory

inductive Instr
  | add (rd rs : Reg) (imm : Int)
  | mv (rd rs : Reg)
  | ld (rd : Reg) (offset : Nat) (rs : Reg)
  | sd (rs₂ : Reg) (offset : Nat) (rs₁ : Reg)
  | csrr (rd : Reg) (csr : Csr)
  | csrw (csr : Csr) (rs : Reg)
  | csrrw (rd : Reg) (csr : Csr) (rs : Reg)
  | sfenceVma (rs₁ rs₂ : Reg)

def word (m : Memory) (a : Nat) : BitVec 64 := BitVec.ofNat 64 (load m a 8)

def setWord (m : Memory) (a : Nat) (v : BitVec 64) : Memory := store m a 8 v.toNat

namespace Cpu

def get (c : Cpu) : Reg → BitVec 64
  | .zero => 0
  | r => c.x r

def set (c : Cpu) (r : Reg) (v : BitVec 64) : Cpu :=
  match r with
  | .zero => c
  | r => { c with x := Function.update c.x r v }

def addr (c : Cpu) (rs : Reg) (offset : Nat) : Nat := (c.get rs + BitVec.ofNat 64 offset).toNat

theorem addr_zero (c : Cpu) (r : Reg) (hr : r ≠ .zero) : c.addr r 0 = (c.x r).toNat := by
  have hget : c.get r = c.x r := by cases r <;> first | rfl | exact absurd rfl hr
  rw [addr, hget, BitVec.add_zero]

end Cpu

def step (c : Cpu) : Instr → Cpu
  | .add rd rs imm => c.set rd (c.get rs + BitVec.ofInt 64 imm)
  | .mv rd rs => c.set rd (c.get rs)
  | .ld rd offset rs => c.set rd (word c.mem (c.addr rs offset))
  | .sd rs₂ offset rs₁ => { c with mem := setWord c.mem (c.addr rs₁ offset) (c.get rs₂) }
  | .csrr rd csr => c.set rd (c.csr csr)
  | .csrw csr rs => { c with csr := Function.update c.csr csr (c.get rs) }
  | .csrrw rd csr rs =>
      let c' : Cpu := { c with csr := Function.update c.csr csr (c.get rs) }
      c'.set rd (c.csr csr)
  | .sfenceVma _ _ => c

def exec (code : List Instr) (c : Cpu) : Cpu := code.foldl step c

def writeWords (m : Memory) (b : BitVec 64) (l : List (Nat × BitVec 64)) : Memory :=
  l.foldl (fun m p => setWord m (b + BitVec.ofNat 64 p.1).toNat p.2) m

def Holds (m : Memory) (b : Nat) (l : List (Nat × BitVec 64)) : Prop := ∀ p ∈ l, word m (b + p.1) = p.2

structure Fits (l : List (Nat × BitVec 64)) (size : Nat) : Prop where
  apart : (l.map Prod.fst).Pairwise fun o o' => o + 8 ≤ o' ∨ o' + 8 ≤ o
  within : ∀ o ∈ l.map Prod.fst, o + 8 ≤ size

variable {m m' : Memory} {a b size : Nat} {base v : BitVec 64} {l : List (Nat × BitVec 64)} {s : Set Nat}

@[simp] theorem word_setWord (m : Memory) (a : Nat) (v : BitVec 64) : word (setWord m a v) a = v := by
  rw [word, setWord, load_store_of_lt _ _ v.isLt, BitVec.ofNat_toNat, BitVec.setWidth_eq]

theorem setWord_only (m : Memory) (a : Nat) (v : BitVec 64) : Only (place a 8) m (setWord m a v) := store_only m a 8 _

theorem word_only (h : Only s m m') (hs : Disjoint (place a 8) s) : word m' a = word m a := by
  rw [word, h.load_eq hs, word]

theorem word_setWord_apart (m : Memory) (v : BitVec 64) (h : a + 8 ≤ b ∨ b + 8 ≤ a) :
    word (setWord m b v) a = word m a := word_only (setWord_only m b v) (disjoint_place h)

theorem toNat_add_ofNat {o : Nat} (h : base.toNat + o < 2 ^ 64) : (base + BitVec.ofNat 64 o).toNat = base.toNat + o := by
  rw [BitVec.toNat_add, BitVec.toNat_ofNat, Nat.add_mod_mod, Nat.mod_eq_of_lt h]

theorem Fits.tail {p : Nat × BitVec 64} (h : Fits (p :: l) size) : Fits l size :=
  ⟨(List.pairwise_cons.mp h.apart).2, fun o ho => h.within o (List.mem_cons_of_mem _ ho)⟩

theorem writeWords_only (hb : base.toNat + size ≤ 2 ^ 64) (hl : Fits l size) :
    Only (place base.toNat size) m (writeWords m base l) := by
  induction l generalizing m with
  | nil => exact Only.refl _ m
  | cons p l ih =>
      have hp : p.1 + 8 ≤ size := hl.within p.1 List.mem_cons_self
      apply Only.trans _ (ih hl.tail)
      apply (setWord_only m _ p.2).mono
      intro y hy
      rw [mem_place, toNat_add_ofNat (by omega)] at hy
      rw [mem_place]
      omega

theorem word_writeWords_apart (hb : base.toNat + size ≤ 2 ^ 64) (hl : Fits l size)
    (ha : ∀ o ∈ l.map Prod.fst, a + 8 ≤ base.toNat + o ∨ base.toNat + o + 8 ≤ a) :
    word (writeWords m base l) a = word m a := by
  induction l generalizing m with
  | nil => rfl
  | cons p l ih =>
      have hp : p.1 + 8 ≤ size := hl.within p.1 List.mem_cons_self
      have hw := ih (m := setWord m (base + BitVec.ofNat 64 p.1).toNat p.2) hl.tail
        fun o ho => ha o (List.mem_cons_of_mem _ ho)
      apply hw.trans
      apply word_setWord_apart
      rw [toNat_add_ofNat (by omega)]
      exact ha p.1 List.mem_cons_self

theorem writeWords_holds (hb : base.toNat + size ≤ 2 ^ 64) (hl : Fits l size) :
    Holds (writeWords m base l) base.toNat l := by
  induction l generalizing m with
  | nil => exact fun p hp => absurd hp List.not_mem_nil
  | cons p l ih =>
      intro q hq
      rcases List.mem_cons.mp hq with rfl | hq
      · have hp : q.1 + 8 ≤ size := hl.within q.1 List.mem_cons_self
        have hw := word_writeWords_apart (m := setWord m (base + BitVec.ofNat 64 q.1).toNat q.2) (a := base.toNat + q.1) hb
          hl.tail fun o ho => by
            have hap := (List.pairwise_cons.mp hl.apart).1 o ho
            omega
        apply hw.trans
        rw [toNat_add_ofNat (by omega), word_setWord]
      · exact ih hl.tail q hq

theorem Holds.congr (h : Holds m b l) (hl : Fits l size) (hm : ∀ y ∈ place b size, m'.byte y = m.byte y) :
    Holds m' b l := by
  intro p hp
  have hw : p.1 + 8 ≤ size := hl.within p.1 (List.mem_map_of_mem hp)
  rw [← h p hp, word, word, load_congr]
  intro y hy
  apply hm
  rw [mem_place] at hy ⊢
  omega

theorem Holds.only (h : Holds m b l) (hl : Fits l size) (hm : Only s m m') (hs : Disjoint (place b size) s) :
    Holds m' b l := h.congr hl fun y hy => hm y (Set.disjoint_left.mp hs hy)

section Blocks

variable {code : List Instr} {csr : Csr}

theorem exec_append (code code' : List Instr) (c : Cpu) : exec (code ++ code') c = exec code' (exec code c) :=
  List.foldl_append

def saves (l : List (Reg × Nat)) : List Instr := l.map fun p => .sd p.1 p.2 .sp

theorem exec_saves (l : List (Reg × Nat)) (c : Cpu) : exec (saves l) c = { c with
    mem := writeWords c.mem (c.x .sp) (l.map fun p => (p.2, c.get p.1)) } := by
  induction l generalizing c with
  | nil => rfl
  | cons p l ih => exact ih { c with mem := setWord c.mem (c.addr .sp p.2) (c.get p.1) }

def Instr.restores : Instr → Bool
  | .ld rd _ .sp => rd ≠ .sp && rd ≠ .zero
  | .csrw _ _ | .sfenceVma _ _ => true
  | _ => false

def source (r : Reg) (code : List Instr) : Option Nat :=
  code.foldl (fun acc i => match i with | .ld rd offset .sp => if rd = r then some offset else acc | _ => acc) none

theorem set_of_ne_zero {rd : Reg} (hrd : rd ≠ .zero) (c : Cpu) (v : BitVec 64) :
    c.set rd v = { c with x := Function.update c.x rd v } := by
  cases rd <;> first | rfl | exact absurd rfl hrd

/-- Such code leaves the memory, and its loads are from the stack it finds. -/
theorem exec_restores (h : ∀ i ∈ code, i.restores) (c : Cpu) : (exec code c).mem = c.mem ∧
    (exec code c).x .sp = c.x .sp ∧
      ∀ r, (exec code c).x r = (source r code).elim (c.x r) fun o => word c.mem (c.addr .sp o) := by
  induction code using List.reverseRecOn with
  | nil => exact ⟨rfl, rfl, fun _ => rfl⟩
  | append_singleton code i ih =>
      obtain ⟨hm, hsp, hx⟩ := ih fun j hj => h j (List.mem_append_left _ hj)
      have hi := h i (List.mem_append_right _ List.mem_cons_self)
      rw [exec_append]
      simp only [source, List.foldl_append] at hx ⊢
      cases i with
      | ld rd o rs =>
          cases rs with
          | sp =>
              simp only [Instr.restores, Bool.and_eq_true, decide_eq_true_eq] at hi
              have hstep : exec [.ld rd o .sp] (exec code c) = { exec code c with
                  x := Function.update (exec code c).x rd (word (exec code c).mem (c.addr .sp o)) } := by
                have haddr : (exec code c).addr .sp o = c.addr .sp o :=
                  congrArg (fun v => (v + BitVec.ofNat 64 o).toNat) hsp
                show (exec code c).set rd (word (exec code c).mem ((exec code c).addr .sp o)) = _
                rw [set_of_ne_zero hi.2, haddr]
              rw [hstep]
              refine ⟨hm, (Function.update_of_ne (Ne.symm hi.1) ..).trans hsp, fun r => ?_⟩
              by_cases hr : rd = r
              · subst hr
                simp only [List.foldl_cons, List.foldl_nil, if_true, ← hm]
                exact Function.update_self ..
              · simp only [List.foldl_cons, List.foldl_nil, if_neg hr]
                exact (Function.update_of_ne (Ne.symm hr) ..).trans (hx r)
          | _ => cases hi
      | csrw | sfenceVma => exact ⟨hm, hsp, hx⟩
      | add | mv | sd | csrr | csrrw => cases hi

def Instr.keeps (csr : Csr) : Instr → Bool
  | .csrw csr' _ | .csrrw _ csr' _ => csr' ≠ csr
  | _ => true

theorem set_csr (c : Cpu) (r : Reg) (v : BitVec 64) : (c.set r v).csr = c.csr := by
  cases r <;> rfl

theorem exec_keeps (h : ∀ i ∈ code, i.keeps csr) (c : Cpu) : (exec code c).csr csr = c.csr csr := by
  induction code generalizing c with
  | nil => rfl
  | cons i code ih =>
      have hi := h i List.mem_cons_self
      apply (ih (fun j hj => h j (List.mem_cons_of_mem _ hj)) (step c i)).trans
      cases i with
      | add | mv | ld | csrr => rw [step, set_csr]
      | sd | sfenceVma => rfl
      | csrw csr' rs => exact Function.update_of_ne (Ne.symm (of_decide_eq_true hi)) ..
      | csrrw rd csr' rs =>
          rw [step, set_csr]
          exact Function.update_of_ne (Ne.symm (of_decide_eq_true hi)) ..

theorem exec_csrw (pre post : List Instr) (csr : Csr) (rs : Reg) (c : Cpu) {o : Nat} (hpre : ∀ i ∈ pre, i.restores)
    (hpost : ∀ i ∈ post, i.keeps csr) (hrs : rs ≠ .zero) (ho : source rs pre = some o) :
    (exec (pre ++ .csrw csr rs :: post) c).csr csr = word c.mem (c.addr .sp o) := by
  have hx := (exec_restores hpre c).2.2 rs
  rw [ho] at hx
  rw [exec_append]
  apply (exec_keeps hpost (step (exec pre c) (.csrw csr rs))).trans
  apply (Function.update_self ..).trans
  cases rs <;> first | exact hx | exact absurd rfl hrs

end Blocks

end Karg.Riscv
