import Karg.Execution
import Karg.KernelMemory
import Karg.Riscv

namespace Karg.MemoryLoops

open ByteMemory Execution KernelMemory Riscv

def bootStackBase : BitVec 64 := 0x88000000

def clearWord (c : Cpu) : Cpu := exec [.sd .zero 0 .t0, .add .t0 .t0 8] c

def clearLoop (c : Cpu) : Nat → Option Cpu
  | 0 => none
  | fuel + 1 =>
      let c := clearWord c
      if c.x .t0 < c.x .t1 then clearLoop c fuel else some c

def start (bssStart bssEnd : BitVec 64) (c : Cpu) (fuel : Nat) : Option Cpu := do
  let c := (c.set .t0 bssStart).set .t1 bssEnd
  let c ← clearLoop c fuel
  some (c.set .sp bootStackBase)

def clearedWords (bssStart bssEnd : Nat) : Nat := max 1 ((bssEnd - bssStart + 7) / 8)

variable {a e k : Nat} {c : Cpu}

section Copy

/-- What `mem_copy` does for every placement of source and destination. It
copies the bytes that the source had, whatever they are, exactly if the
destination does not start within the source behind its first byte. -/
theorem mem_copy_exact (dst src size : Nat) :
    (∀ m y, (memCopy m dst src size).byte y =
      if dst ≤ y ∧ y < dst + size then m.byte (origin dst src (y - dst)) else m.byte y) ∧
    ((∀ m, memCopy m dst src size = memCopyFrom m dst m src size) ↔ ¬ (src < dst ∧ dst < src + size)) := by
  refine ⟨fun m y => memCopy_byte m dst src size y, ?_, memCopy_eq_from⟩
  rintro hall ⟨hlt, hin⟩
  -- A memory with one nonzero byte, where the destination starts.
  have hb := congrArg (fun m => m.byte (dst + (dst - src))) (hall ⟨fun y => if y = dst then 1 else 0⟩)
  simp only [memCopy_byte, memCopyFrom_byte, if_pos (show dst ≤ dst + (dst - src) ∧ dst + (dst - src) < dst + size by omega),
    Nat.add_sub_cancel_left, origin, if_pos hlt, Nat.mod_self, Nat.add_zero, Nat.add_sub_cancel' (Nat.le_of_lt hlt),
    if_neg (Nat.ne_of_lt hlt)] at hb
  cases hb

end Copy

section Clear

theorem store_zero (m : Memory) (a n y : Nat) :
    (store m a n 0).byte y = if a ≤ y ∧ y < a + n then 0 else m.byte y := by
  induction n generalizing m a with
  | zero =>
      rw [if_neg (by omega)]
      rfl
  | succ n ih =>
      rw [store, Nat.zero_div, ih]
      by_cases hy : y = a
      · subst hy
        rw [if_neg (by omega), if_pos (by omega)]
        exact Function.update_self ..
      · have hmem : a + 1 ≤ y ∧ y < a + 1 + n ↔ a ≤ y ∧ y < a + (n + 1) := by omega
        simp only [hmem]
        congr 1
        exact Function.update_of_ne hy ..

theorem clearWord_clears (h : c.x .t0 = BitVec.ofNat 64 a) (ha : a < 2 ^ 64) :
    (∀ y, (clearWord c).mem.byte y = if a ≤ y ∧ y < a + 8 then 0 else c.mem.byte y) ∧
    (clearWord c).x .t0 = BitVec.ofNat 64 (a + 8) ∧
    (∀ r, r ≠ .t0 → (clearWord c).x r = c.x r) ∧
    (clearWord c).csr = c.csr := by
  have haddr : c.addr .t0 0 = a := by
    rw [Cpu.addr_zero c .t0 (by decide), h, BitVec.toNat_ofNat, Nat.mod_eq_of_lt ha]
  have hadd : c.x .t0 + BitVec.ofInt 64 8 = BitVec.ofNat 64 (a + 8) := by
    rw [h, BitVec.ofNat_add]
    rfl
  refine ⟨?_, hadd, fun r hr => Function.update_of_ne hr .., rfl⟩
  intro y
  have hmem : (clearWord c).mem = store c.mem (c.addr .t0 0) 8 0 := rfl
  rw [hmem, haddr, store_zero]

theorem clearLoop_clears (h₀ : c.x .t0 = BitVec.ofNat 64 a) (h₁ : c.x .t1 = BitVec.ofNat 64 e) (he : e < 2 ^ 64)
    (hroom : a + 8 * (k + 1) < 2 ^ 64) (hlast : e ≤ a + 8 * (k + 1)) (hmore : k = 0 ∨ a + 8 * k < e) :
    ∃ c', Converges (clearLoop c) c' ∧
      (∀ y, c'.mem.byte y = if a ≤ y ∧ y < a + 8 * (k + 1) then 0 else c.mem.byte y) ∧
      (∀ r, r ≠ .t0 → c'.x r = c.x r) ∧ c'.csr = c.csr := by
  induction k generalizing a c with
  | zero =>
      obtain ⟨hmem, ht₀, hx, hcsr⟩ := clearWord_clears h₀ (by omega)
      have hdone : ¬ (clearWord c).x .t0 < (clearWord c).x .t1 := by
        rw [ht₀, hx .t1 (by decide), h₁, BitVec.lt_def, BitVec.toNat_ofNat, BitVec.toNat_ofNat,
          Nat.mod_eq_of_lt he, Nat.mod_eq_of_lt (by omega)]
        omega
      refine ⟨_, ⟨1, ?_⟩, hmem, hx, hcsr⟩
      intro fuel hfuel
      obtain ⟨fuel, rfl⟩ := Nat.exists_eq_add_of_le' hfuel
      exact if_neg hdone
  | succ k ih =>
      obtain ⟨hmem, ht₀, hx, hcsr⟩ := clearWord_clears h₀ (by omega)
      have hgo : (clearWord c).x .t0 < (clearWord c).x .t1 := by
        rw [ht₀, hx .t1 (by decide), h₁, BitVec.lt_def, BitVec.toNat_ofNat, BitVec.toNat_ofNat,
          Nat.mod_eq_of_lt he, Nat.mod_eq_of_lt (by omega)]
        omega
      obtain ⟨c', ⟨n, hn⟩, hmem', hx', hcsr'⟩ :=
        ih ht₀ ((hx .t1 (by decide)).trans h₁) (by omega) (by omega) (by omega)
      refine ⟨c', ⟨n + 1, ?_⟩, ?_, fun r hr => (hx' r hr).trans (hx r hr), hcsr'.trans hcsr⟩
      · intro fuel hfuel
        obtain ⟨fuel, rfl⟩ := Nat.exists_eq_add_of_le' (Nat.le_trans (Nat.le_add_left 1 n) hfuel)
        exact (if_pos hgo).trans (hn fuel (by omega))
      · intro y
        rw [hmem', hmem]
        by_cases hy : a ≤ y ∧ y < a + 8
        · have hout : ¬ (a + 8 ≤ y ∧ y < a + 8 + 8 * (k + 1)) := by omega
          have hin : a ≤ y ∧ y < a + 8 * (k + 1 + 1) := by omega
          rw [if_pos hy, if_neg hout, if_pos hin]
        · have hrange : a + 8 ≤ y ∧ y < a + 8 + 8 * (k + 1) ↔ a ≤ y ∧ y < a + 8 * (k + 1 + 1) := by omega
          simp only [hrange, if_neg hy]

/-- `_start` reaches `kmain` with its own stack and with the words of the
section cleared, of which there are those of the section exactly if it is not
empty and ends on a word. -/
theorem bss_cleared (bssStart bssEnd : Nat) (he : bssEnd < 2 ^ 64)
    (hroom : bssStart + 8 * clearedWords bssStart bssEnd < 2 ^ 64) (c : Cpu) :
    (∃ c', Converges (start (BitVec.ofNat 64 bssStart) (BitVec.ofNat 64 bssEnd) c) c' ∧ c'.x .sp = bootStackBase ∧
      (∀ y, c'.mem.byte y =
        if bssStart ≤ y ∧ y < bssStart + 8 * clearedWords bssStart bssEnd then 0 else c.mem.byte y) ∧
      (∀ r, r ≠ .t0 → r ≠ .t1 → r ≠ .sp → c'.x r = c.x r) ∧ c'.csr = c.csr) ∧
    (bssStart + 8 * clearedWords bssStart bssEnd = bssEnd ↔ bssStart < bssEnd ∧ 8 ∣ bssEnd - bssStart) := by
  constructor
  · obtain ⟨k, hk⟩ : ∃ k, clearedWords bssStart bssEnd = k + 1 := by
      refine ⟨clearedWords bssStart bssEnd - 1, ?_⟩
      rw [clearedWords]
      omega
    have hlast : bssEnd ≤ bssStart + 8 * (k + 1) := by
      rw [← hk, clearedWords]
      omega
    have hmore : k = 0 ∨ bssStart + 8 * k < bssEnd := by
      rw [clearedWords] at hk
      omega
    rw [hk] at hroom ⊢
    have h₀ : ((c.set .t0 (BitVec.ofNat 64 bssStart)).set .t1 (BitVec.ofNat 64 bssEnd)).x .t0 = BitVec.ofNat 64 bssStart :=
      rfl
    have h₁ : ((c.set .t0 (BitVec.ofNat 64 bssStart)).set .t1 (BitVec.ofNat 64 bssEnd)).x .t1 = BitVec.ofNat 64 bssEnd :=
      rfl
    obtain ⟨c', hrun, hmem, hx, hcsr⟩ := clearLoop_clears h₀ h₁ he hroom hlast hmore
    refine ⟨c'.set .sp bootStackBase, hrun.bind (.of_forall fun _ => rfl), rfl, hmem, ?_, hcsr⟩
    intro r hr₀ hr₁ hsp
    have hset : (c'.set .sp bootStackBase).x r = c'.x r := Function.update_of_ne hsp ..
    rw [hset, hx r hr₀]
    exact (Function.update_of_ne hr₁ ..).trans (Function.update_of_ne hr₀ ..)
  · rw [clearedWords]
    omega

theorem bss_cleared_section : ∃ c', Converges (start 0x80210000 0x80210018 ⟨fun _ => 7, fun _ => 0, ⟨fun _ => 1⟩⟩) c' ∧
    c'.x .sp = bootStackBase ∧ c'.x .a1 = 7 ∧ c'.mem.byte 0x8020FFFF = 1 ∧ c'.mem.byte 0x80210017 = 0 ∧
    c'.mem.byte 0x80210018 = 1 := by
  obtain ⟨⟨c', hrun, hsp, hmem, hx, -⟩, -⟩ := bss_cleared 0x80210000 0x80210018 (by decide) (by decide)
    ⟨fun _ => 7, fun _ => 0, ⟨fun _ => 1⟩⟩
  have hwords : clearedWords 0x80210000 0x80210018 = 3 := by decide
  rw [hwords] at hmem
  refine ⟨c', hrun, hsp, hx .a1 (by decide) (by decide) (by decide), ?_, ?_, ?_⟩
  · rw [hmem, if_neg (by decide)]
  · rw [hmem, if_pos (by decide)]
  · rw [hmem, if_neg (by decide)]

end Clear

end Karg.MemoryLoops
