import Karg.Errno
import Karg.PageAlloc

namespace Karg.Vm

open ByteMemory KernelMemory PageAlloc

def pteFlagV : UInt8 := 0x01

def pteFlagR : UInt8 := 0x02

def pteFlagW : UInt8 := 0x04

def pteFlagX : UInt8 := 0x08

def pteFlagU : UInt8 := 0x10

def vmFlagReadable : UInt32 := 0x1

def vmFlagWritable : UInt32 := 0x2

def vmFlagExecutable : UInt32 := 0x4

def vmFlagUser : UInt32 := 0x8

structure Space where
  mem : Memory
  tables : List Nat

def flags (m : Memory) (pte : Nat) : UInt8 := m.byte pte

def orFlags (m : Memory) (pte : Nat) (val : UInt8) : Memory := setByte m pte (flags m pte ||| val)

/-- The field of 44 bits behind the flags and two reserved bits. -/
def ppn (m : Memory) (pte : Nat) : Nat := load m pte 8 / 2 ^ 10 % 2 ^ 44

def setPpn (m : Memory) (pte val : Nat) : Memory :=
  let word := load m pte 8
  store m pte 8 (word % 2 ^ 10 + 2 ^ 10 * (val % 2 ^ 44) + 2 ^ 54 * (word / 2 ^ 54))

def initPte (m : Memory) (pte page : Nat) (fl : UInt32) : Memory :=
  let m := orFlags m pte pteFlagV
  let m := if fl &&& vmFlagReadable ≠ 0 then orFlags m pte pteFlagR else m
  let m := if fl &&& vmFlagWritable ≠ 0 then orFlags m pte pteFlagW else m
  let m := if fl &&& vmFlagExecutable ≠ 0 then orFlags m pte pteFlagX else m
  let m := if fl &&& vmFlagUser ≠ 0 then orFlags m pte pteFlagU else m
  setPpn m pte (page / pageSize)

def vmCreatePageTable (freeList : Nat) (s : Space) : Space × Nat :=
  let (m, pageTable) := pageAlloc freeList s.mem
  if pageTable = nullptr then ({ s with mem := m }, nullptr)
  else (⟨memSet m pageTable 0 pageSize, s.tables ++ [pageTable]⟩, pageTable)

def idx0 (virt : Nat) : Nat := virt / 2 ^ 30 % 2 ^ 16

def idx1 (virt : Nat) : Nat := virt / 2 ^ 21 % 512

def idx2 (virt : Nat) : Nat := virt / 2 ^ 12 % 512

/-- The page of an entry. GCC computes a product or a shift of a bit-field in the
bits of the field, of which there are 44. -/
def ppnPage (m : Memory) (pte : Nat) : Nat := ppn m pte * 2 ^ 12 % 2 ^ 44

def nextTable (freeList : Nat) (s : Space) (pte : Nat) : Space × Option Nat :=
  let pageTable := ppnPage s.mem pte
  if flags s.mem pte &&& pteFlagV = 0 then
    let (s, pageTable) := vmCreatePageTable freeList s
    if pageTable = nullptr then (s, none)
    else ({ s with mem := initPte s.mem pte pageTable 0 }, some pageTable)
  else (s, some pageTable)

def vmMapPage (freeList : Nat) (s : Space) (pageTable virt phys : Nat) (fl : UInt32) : Space × Int :=
  match nextTable freeList s (pageTable + 8 * idx0 virt) with
  | (s, none) => (s, -enomem)
  | (s, some pageTable1) =>
      match nextTable freeList s (pageTable1 + 8 * idx1 virt) with
      | (s, none) => (s, -enomem)
      | (s, some pageTable2) => ({ s with mem := initPte s.mem (pageTable2 + 8 * idx2 virt) phys fl }, 0)

/-- The result is the value of `*phys` after the call and the value returned. -/
def vmVirtToPhys (m : Memory) (pageTable virt phys : Nat) : Nat × Int :=
  if virt / 2 ^ 39 ≠ 0 then (phys, -efault)
  else
    let pte0 := pageTable + 8 * idx0 virt
    let pageTable1 := ppnPage m pte0
    if flags m pte0 &&& pteFlagV = 0 then (phys, -efault)
    else
      let pte1 := pageTable1 + 8 * idx1 virt
      let pageTable2 := ppnPage m pte1
      if flags m pte1 &&& pteFlagV = 0 then (phys, -efault)
      else
        let pte2 := pageTable2 + 8 * idx2 virt
        (ppnPage m pte2 + virt % pageSize, 0)

section Hardware

def entryPage (m : Memory) (pte : Nat) : Option Nat :=
  if flags m pte &&& pteFlagV = 0 then none else some (ppn m pte * pageSize)

/-- The walk through three levels, which ends at the first invalid entry. -/
def walk (m : Memory) (root virt : Nat) : Option Nat := do
  let table1 ← entryPage m (root + 8 * (virt / 2 ^ 30))
  let table2 ← entryPage m (table1 + 8 * (virt / 2 ^ 21 % 512))
  let page ← entryPage m (table2 + 8 * (virt / 2 ^ 12 % 512))
  some (page + virt % 2 ^ 12)

end Hardware

structure Pte where
  flags : UInt8
  ppn : Nat
  deriving DecidableEq

def readPte (m : Memory) (pte : Nat) : Pte := ⟨flags m pte, ppn m pte⟩

def pteFlags (fl : UInt32) : UInt8 :=
  pteFlagV ||| (if fl &&& vmFlagReadable ≠ 0 then pteFlagR else 0) |||
    (if fl &&& vmFlagWritable ≠ 0 then pteFlagW else 0) |||
    (if fl &&& vmFlagExecutable ≠ 0 then pteFlagX else 0) ||| (if fl &&& vmFlagUser ≠ 0 then pteFlagU else 0)

variable {m m' : Memory} {pte page val : Nat} {fl : UInt32} {s : Set Nat}

theorem ppnPage_low (h : ppn m pte < 2 ^ 32) : ppnPage m pte = ppn m pte * pageSize := by
  rw [ppnPage, pageSize]
  omega

theorem flags_eq (m : Memory) (pte : Nat) : (flags m pte).toNat = load m pte 8 % 256 := by
  have hlt := (flags m pte).toNat_lt
  rw [load]
  show (flags m pte).toNat = ((flags m pte).toNat + 256 * load m (pte + 1) 7) % 256
  omega

theorem flags_store (m : Memory) (pte val : Nat) : flags (store m pte 8 val) pte = UInt8.ofNat val := by
  apply UInt8.toNat_inj.mp
  rw [flags_eq, load_store, UInt8.toNat_ofNat']
  omega

theorem orFlags_only (m : Memory) (pte : Nat) (val : UInt8) : Only (place pte 8) m (orFlags m pte val) := by
  apply (setByte_only m pte _).mono
  exact singleton_subset_place (by omega) (by omega)

theorem readPte_orFlags (m : Memory) (pte : Nat) (val : UInt8) :
    readPte (orFlags m pte val) pte = ⟨flags m pte ||| val, ppn m pte⟩ := by
  have hself : flags (orFlags m pte val) pte = flags m pte ||| val := Function.update_self ..
  have htail : load (orFlags m pte val) (pte + 1) 7 = load m (pte + 1) 7 := by
    apply (setByte_only m pte _).load_eq
    rw [Set.disjoint_singleton_right, mem_place]
    omega
  have hword : ∀ m : Memory, ppn m pte = (256 * load m (pte + 1) 7) / 2 ^ 10 % 2 ^ 44 := by
    intro m
    have hlt := (m.byte pte).toNat_lt
    rw [ppn, load]
    omega
  rw [readPte, hself, hword, htail, ← hword]

theorem readPte_setPpn (m : Memory) (pte val : Nat) :
    readPte (setPpn m pte val) pte = ⟨flags m pte, val % 2 ^ 44⟩ := by
  have hw : load m pte 8 < 2 ^ 64 := load_lt m pte 8
  have hf := flags_eq m pte
  have hflags : flags (setPpn m pte val) pte = flags m pte := by
    apply UInt8.toNat_inj.mp
    rw [setPpn, flags_store, UInt8.toNat_ofNat']
    omega
  have hppn : ppn (setPpn m pte val) pte = val % 2 ^ 44 := by
    rw [ppn, setPpn, load_store_of_lt]
    · omega
    · show _ < 2 ^ 64
      omega
  rw [readPte, hflags, hppn]

theorem setPpn_only (m : Memory) (pte val : Nat) : Only (place pte 8) m (setPpn m pte val) := by
  rw [setPpn]
  exact store_only m pte 8 _

theorem initPte_only (m : Memory) (pte page : Nat) (fl : UInt32) : Only (place pte 8) m (initPte m pte page fl) := by
  have hif : ∀ (c : Prop) [Decidable c] (m : Memory) (val : UInt8),
      Only (place pte 8) m (if c then orFlags m pte val else m) := by
    intro c _ m val
    split
    · exact orFlags_only m pte val
    · exact Only.refl _ m
  rw [initPte]
  apply Only.trans _ (setPpn_only _ pte _)
  apply Only.trans _ (hif _ _ pteFlagU)
  apply Only.trans _ (hif _ _ pteFlagX)
  apply Only.trans _ (hif _ _ pteFlagW)
  apply Only.trans _ (hif _ _ pteFlagR)
  exact orFlags_only m pte pteFlagV

theorem readPte_initPte (m : Memory) (pte page : Nat) (fl : UInt32) :
    readPte (initPte m pte page fl) pte = ⟨flags m pte ||| pteFlags fl, page / pageSize % 2 ^ 44⟩ := by
  have hor : ∀ (m : Memory) (val : UInt8), flags (orFlags m pte val) pte = flags m pte ||| val :=
    fun m val => congrArg Pte.flags (readPte_orFlags m pte val)
  have hif : ∀ (c : Prop) [Decidable c] (m : Memory) (val : UInt8),
      flags (if c then orFlags m pte val else m) pte = flags m pte ||| (if c then val else 0) := by
    intro c _ m val
    split
    · exact hor m val
    · exact (UInt8.or_zero).symm
  rw [initPte, readPte_setPpn, hif, hif, hif, hif, hor, pteFlags]
  simp only [UInt8.or_assoc]

theorem readPte_only (hm : Only s m m') (hs : Disjoint (place pte 8) s) : readPte m' pte = readPte m pte := by
  have hload : load m' pte 8 = load m pte 8 := hm.load_eq hs
  have hflags : flags m' pte = flags m pte := by
    apply UInt8.toNat_inj.mp
    rw [flags_eq, flags_eq, hload]
  rw [readPte, readPte, hflags, ppn, ppn, hload]

theorem readPte_zero (h : ∀ x ∈ place pte 8, m.byte x = 0) : readPte m pte = ⟨0, 0⟩ := by
  have hflags : flags m pte = 0 := h pte (by rw [mem_place]; omega)
  have hppn : ppn m pte = 0 := by simp only [ppn, load_zero h, Nat.zero_div, Nat.zero_mod]
  rw [readPte, hflags, hppn]

theorem or_and_eq_zero (a b bit : UInt8) : (a ||| b) &&& bit = 0 ↔ a &&& bit = 0 ∧ b &&& bit = 0 := by
  have hdist : (a ||| b) &&& bit = a &&& bit ||| b &&& bit := by
    apply UInt8.toNat_inj.mp
    simp only [UInt8.toNat_and, UInt8.toNat_or, Nat.and_or_distrib_right]
  rw [hdist, UInt8.or_eq_zero_iff]

theorem or_pteFlags_valid (f : UInt8) (fl : UInt32) : (f ||| pteFlags fl) &&& pteFlagV ≠ 0 := by
  intro h
  have hfl := ((or_and_eq_zero _ _ _).mp h).2
  simp only [pteFlags, or_and_eq_zero] at hfl
  exact absurd hfl.1.1.1.1 (by decide)

end Karg.Vm
