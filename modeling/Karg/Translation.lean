import Karg.PageTableMap

namespace Karg.Translation

open ByteMemory PageAlloc Vm TableTree PageTableMap

def lastTable (m : Memory) (root virt : Nat) : Option Nat := do
  let table1 ← entryPage m (root + 8 * (virt / 2 ^ 30))
  entryPage m (table1 + 8 * (virt / 2 ^ 21 % 512))

def Agrees (m : Memory) (root virt phys : Nat) : Prop :=
  (∀ a, virt < 2 ^ 39 → walk m root virt = some a → vmVirtToPhys m root virt phys = (a, 0)) ∧
    ((virt < 2 ^ 39 → walk m root virt = none) → vmVirtToPhys m root virt phys = (phys, -efault))

variable {m : Memory} {root virt phys t : Nat}

theorem entryPage_none {pte : Nat} : entryPage m pte = none ↔ flags m pte &&& pteFlagV = 0 := by
  rw [entryPage]
  split <;> simp [*]

theorem entryPage_some {pte a : Nat} :
    entryPage m pte = some a ↔ flags m pte &&& pteFlagV ≠ 0 ∧ ppn m pte * pageSize = a := by
  rw [entryPage]
  split <;> simp [*]

theorem walk_lastTable (m : Memory) (root virt : Nat) : walk m root virt = (lastTable m root virt).bind fun t =>
    (entryPage m (t + 8 * idx2 virt)).map (· + virt % pageSize) := by
  rw [walk, lastTable]
  cases entryPage m (root + 8 * (virt / 2 ^ 30)) with
  | none => rfl
  | some t1 =>
      show (entryPage m (t1 + 8 * (virt / 2 ^ 21 % 512))).bind _ = (entryPage m (t1 + 8 * (virt / 2 ^ 21 % 512))).bind _
      cases entryPage m (t1 + 8 * (virt / 2 ^ 21 % 512)) with
      | none => rfl
      | some t2 =>
          show (entryPage m (t2 + 8 * idx2 virt)).bind _ = (entryPage m (t2 + 8 * idx2 virt)).map _
          cases entryPage m (t2 + 8 * idx2 virt) <;> rfl

theorem tree_lastTable {tab : List Nat → Option Nat} {leaf : List Nat → Pte} (h : Tree m root tab leaf)
    (hv : virt < 2 ^ 39) : lastTable m root virt = tab [idx1 virt, idx0 virt] := by
  obtain ⟨h0, h1, -⟩ := idx_lt hv
  rw [lastTable, ← idx0_eq hv, h.entryPage h.root Nat.zero_lt_two h0]
  cases ht1 : tab [idx0 virt] with
  | none => exact (h.up _ ht1).symm
  | some t1 => exact h.entryPage ht1 (Nat.lt_succ_self 1) h1

def leafFlags (m : Memory) (root virt : Nat) : Option UInt8 :=
  (lastTable m root virt).map fun t => flags m (t + 8 * idx2 virt)

theorem tree_leafFlags {tab : List Nat → Option Nat} {leaf : List Nat → Pte} (h : Tree m root tab leaf)
    (hv : virt < 2 ^ 39) (hl : leaf (path virt) ≠ noPte) : leafFlags m root virt = some (leaf (path virt)).flags := by
  rw [leafFlags, tree_lastTable h hv]
  cases ht : tab [idx1 virt, idx0 virt] with
  | none => exact absurd (h.bare _ ht) hl
  | some t => exact congrArg (fun e => some e.flags) (h.last ht rfl (idx_lt hv).2.2)

theorem virtToPhys_large (h : ¬ virt < 2 ^ 39) : vmVirtToPhys m root virt phys = (phys, -efault) :=
  if_pos (by omega)

section Tables

variable {tab : List Nat → Option Nat} {leaf : List Nat → Pte}

/-- The function looks at the flags of the first two levels only. -/
theorem virtToPhys_eq (h : Tree m root tab leaf) (hv : virt < 2 ^ 39) : vmVirtToPhys m root virt phys =
    (lastTable m root virt).elim (phys, -efault) fun t => (ppnPage m (t + 8 * idx2 virt) + virt % pageSize, 0) := by
  have hlt : ¬ virt / 2 ^ 39 ≠ 0 := by omega
  obtain ⟨h0, h1, -⟩ := idx_lt hv
  rw [vmVirtToPhys, if_neg hlt, tree_lastTable h hv]
  cases ht1 : tab [idx0 virt] with
  | none =>
      rw [h.up _ ht1]
      exact if_pos (entryPage_none.mp ((h.entryPage h.root Nat.zero_lt_two h0).trans ht1))
  | some t1 =>
      have he1 := (h.entryPage h.root Nat.zero_lt_two h0).trans ht1
      rw [if_neg (entryPage_some.mp he1).1, h.ppnPage h.root Nat.zero_lt_two h0 ht1]
      cases ht2 : tab [idx1 virt, idx0 virt] with
      | none => exact if_pos (entryPage_none.mp ((h.entryPage ht1 (Nat.lt_succ_self 1) h1).trans ht2))
      | some t2 =>
          have he2 := (h.entryPage ht1 (Nat.lt_succ_self 1) h1).trans ht2
          rw [if_neg (entryPage_some.mp he2).1, h.ppnPage ht1 (Nat.lt_succ_self 1) h1 ht2]
          rfl

theorem virtToPhys_of_last (h : Tree m root tab leaf) (hv : virt < 2 ^ 39) (ht : lastTable m root virt = some t) :
    vmVirtToPhys m root virt phys = (ppnPage m (t + 8 * idx2 virt) + virt % pageSize, 0) := by
  rw [virtToPhys_eq h hv, ht, Option.elim_some]

theorem walk_some {a : Nat} (hw : walk m root virt = some a) : ∃ t, lastTable m root virt = some t ∧
    flags m (t + 8 * idx2 virt) &&& pteFlagV ≠ 0 ∧ ppn m (t + 8 * idx2 virt) * pageSize + virt % pageSize = a := by
  rw [walk_lastTable] at hw
  obtain ⟨t, ht, hw⟩ := Option.bind_eq_some_iff.mp hw
  obtain ⟨p, hp, rfl⟩ := Option.map_eq_some_iff.mp hw
  obtain ⟨hf, rfl⟩ := entryPage_some.mp hp
  exact ⟨t, ht, hf, rfl⟩

theorem virtToPhys_of_walk (h : Tree m root tab leaf) (hv : virt < 2 ^ 39) {a : Nat} (hw : walk m root virt = some a)
    (ha : a < 2 ^ 44) : vmVirtToPhys m root virt phys = (a, 0) := by
  obtain ⟨t, ht, -, rfl⟩ := walk_some hw
  have hlow : ppn m (t + 8 * idx2 virt) < 2 ^ 32 := by
    rw [pageSize] at ha
    omega
  rw [virtToPhys_of_last h hv ht, ppnPage_low hlow]

theorem ppnPage_wraps {pte : Nat} (h : ¬ ppn m pte < 2 ^ 32) : ppnPage m pte ≠ ppn m pte * pageSize := by
  rw [ppnPage, pageSize]
  omega

/-- The translation agrees with the walk except for an address whose tables are
there and whose last entry is invalid or names a page at 2 ^ 44 or above. -/
theorem tree_agrees_iff (h : Tree m root tab leaf) (virt phys : Nat) : Agrees m root virt phys ↔
    ∀ t, virt < 2 ^ 39 → lastTable m root virt = some t →
      flags m (t + 8 * idx2 virt) &&& pteFlagV ≠ 0 ∧ ppn m (t + 8 * idx2 virt) < 2 ^ 32 := by
  by_cases hv : virt < 2 ^ 39
  · constructor
    · intro hag t _ ht
      have hrun : vmVirtToPhys m root virt phys = _ := virtToPhys_of_last h hv ht
      constructor
      · intro hf
        have hnone : walk m root virt = none := by
          rw [walk_lastTable, ht, Option.bind_some, entryPage_none.mpr hf]
          rfl
        have hres : (0 : Int) = -efault := congrArg Prod.snd (hrun.symm.trans (hag.2 fun _ => hnone))
        exact absurd hres (by decide)
      · by_contra hhigh
        cases hw : walk m root virt with
        | none =>
            have hres : (0 : Int) = -efault := congrArg Prod.snd (hrun.symm.trans (hag.2 fun _ => hw))
            exact absurd hres (by decide)
        | some a =>
            have hsame := congrArg Prod.fst (hrun.symm.trans (hag.1 a hv hw))
            obtain ⟨t', ht', -, rfl⟩ := walk_some hw
            cases ht.symm.trans ht'
            exact ppnPage_wraps hhigh (Nat.add_right_cancel hsame)
    · intro hall
      constructor
      · intro a _ hw
        obtain ⟨t, ht, -, rfl⟩ := walk_some hw
        rw [virtToPhys_of_last h hv ht, ppnPage_low (hall t hv ht).2]
      · intro hnone
        have hw := hnone hv
        rw [virtToPhys_eq h hv]
        cases hl : lastTable m root virt with
        | none => rfl
        | some t =>
            rw [walk_lastTable, hl, Option.bind_some, Option.map_eq_none_iff] at hw
            exact absurd (entryPage_none.mp hw) (hall t hv hl).1
  · exact ⟨fun _ t hlt => absurd hlt hv, fun _ => ⟨fun a hlt => absurd hlt hv, fun _ => virtToPhys_large hv⟩⟩

end Tables

section Runs

variable {freeList : Nat} {s : Run}

theorem reached_virtToPhys (h : Reached freeList s) (hv : virt < 2 ^ 39) {a : Nat}
    (hw : walk s.space.mem s.root virt = some a) (ha : a < 2 ^ 44) :
    vmVirtToPhys s.space.mem s.root virt phys = (a, 0) := by
  obtain ⟨tab, free, hm⟩ := (reached_invariant h).mapped
  exact virtToPhys_of_walk hm.tree hv hw ha

/-- For the table of a run, the translation of an address agrees with the walk just
if one of its upper tables is missing or its last entry is valid and names a page
below 2 ^ 44. -/
theorem virtToPhys_agrees_iff (h : Reached freeList s) (virt phys : Nat) :
    Agrees s.space.mem s.root virt phys ↔
      ∀ t, virt < 2 ^ 39 → lastTable s.space.mem s.root virt = some t →
        flags s.space.mem (t + 8 * idx2 virt) &&& pteFlagV ≠ 0 ∧ ppn s.space.mem (t + 8 * idx2 virt) < 2 ^ 32 := by
  obtain ⟨tab, free, hm⟩ := (reached_invariant h).mapped
  exact tree_agrees_iff hm.tree virt phys

/-- The page at 0x1000 is mapped to 0x80800000. -/
theorem virtToPhys_agrees_mapped : ∃ s, Reached 0x80300010 s ∧ walk s.space.mem s.root 0x1234 = some 0x80800234 ∧
    ∀ phys, Agrees s.space.mem s.root 0x1234 phys := by
  obtain ⟨s, hs, hcalls, hp⟩ := mapped_page
  have hwalk : walk s.space.mem s.root 0x1234 = some 0x80800234 := by
    rw [reached_walk hs hp (by decide), hcalls]
    rfl
  refine ⟨s, hs, hwalk, fun phys => (virtToPhys_agrees_iff hs 0x1234 phys).mpr fun t _ ht => ?_⟩
  obtain ⟨t', ht', hflags, hsum⟩ := walk_some hwalk
  cases ht.symm.trans ht'
  refine ⟨hflags, ?_⟩
  rw [pageSize] at hsum
  omega

end Runs

/-- With one page mapped at 0x1000 the address 0x2000 is translated to 0. -/
theorem virtToPhys_unmapped : ∃ s, Reached 0x80300010 s ∧ s.calls = [⟨0x1000, 0x80800000, vmFlagReadable⟩] ∧
    walk s.space.mem s.root 0x2000 = none ∧ (∀ phys, vmVirtToPhys s.space.mem s.root 0x2000 phys = (0, 0)) ∧
    ∀ phys, ¬ Agrees s.space.mem s.root 0x2000 phys := by
  obtain ⟨s, hs, hcalls, -⟩ := mapped_page
  obtain ⟨tab, free, hm⟩ := (reached_invariant hs).mapped
  rw [hcalls] at hm
  have hv : 0x2000 < 2 ^ 39 := by decide
  obtain ⟨t, ht⟩ : ∃ t, tab [idx1 0x2000, idx0 0x2000] = some t := by
    apply Option.ne_none_iff_exists'.mp
    intro hno
    exact absurd (hm.tree.bare 1 hno) (by decide)
  have hentry : readPte s.space.mem (t + 8 * idx2 0x2000) = noPte := (hm.tree.last ht rfl (by decide)).trans (by decide)
  rw [readPte] at hentry
  have hlast : lastTable s.space.mem s.root 0x2000 = some t := (tree_lastTable hm.tree hv).trans ht
  have hwalk : walk s.space.mem s.root 0x2000 = none := (hm.tree.walk hv).trans rfl
  have hrun : ∀ phys, vmVirtToPhys s.space.mem s.root 0x2000 phys = (0, 0) := by
    intro phys
    have hppn : ppn s.space.mem (t + 8 * idx2 0x2000) = 0 := congrArg Pte.ppn hentry
    rw [virtToPhys_of_last hm.tree hv hlast, ppnPage, hppn]
    rfl
  refine ⟨s, hs, hcalls, hwalk, hrun, fun phys hag => ?_⟩
  have hfail := hag.2 fun _ => hwalk
  rw [hrun phys] at hfail
  have hres : (0 : Int) = -efault := congrArg Prod.snd hfail
  exact absurd hres (by decide)

end Karg.Translation
