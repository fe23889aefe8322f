import Karg.KernelBoot

namespace Karg.PidAllocation

open LinkStore ListNode TimerService Process ProcTable Execution KernelBoot

/-- A pid that is returned is one of a free slot, and without a pid there is no
free slot. -/
structure PidSound (d : Data) : Prop where
  found (pid : Nat) : newPid d = some pid → pid < procTableSize ∧ d.procTable pid = none
  full : newPid d = none → ∀ pid < procTableSize, d.procTable pid ≠ none

inductive Op
  | procInit (proc : ProcRef) (parent : Option ProcRef) (res : Int)
  | procDeinit (proc : ProcRef)
  | other

/-- Processes are created, whether or not there is memory for them, those in the
table are released, and all other code leaves the table and the last pid alone. -/
inductive Step (k : Kernel) : Op → Kernel → Prop
  | procInit (proc : ProcRef) (parent : Option ProcRef) (res : Int) :
      Step k (.procInit proc parent res) (procInit k proc parent res).1
  | procDeinit (proc : ProcRef) (h : k.procTable (k.procs proc).pid.toNat = some proc) :
      Step k (.procDeinit proc) (procDeinit k proc)
  | other (k' : Kernel) (ht : k'.procTable = k.procTable) (hl : k'.lastPid = k.lastPid) : Step k .other k'

structure Start (k : Kernel) : Prop where
  procTable (pid : Nat) : k.procTable pid = none
  lastPid : k.lastPid = procTableSize - 1

def Reached : Kernel → Prop := Reachable Start Step

variable {k : Kernel} {d : Data} {last pid n : Nat}

def scan (last : Nat) : List Nat := List.range' (last + 1) (procTableSize - (last + 1)) ++ List.range last

theorem newPid_eq (d : Data) : newPid d = (scan d.lastPid).find? fun pid => (d.procTable pid).isNone := by
  simp only [newPid, scan, List.find?_append, Option.orElse_eq_or, Option.orElse_eq_orElse]

/-- All slots but that of the last pid are looked at. -/
theorem mem_scan (h : last < procTableSize) : pid ∈ scan last ↔ pid < procTableSize ∧ pid ≠ last := by
  rw [scan, List.mem_append, List.mem_range'_1, List.mem_range]
  omega

theorem newPid_some (h : d.lastPid < procTableSize) (hp : newPid d = some pid) :
    pid < procTableSize ∧ d.procTable pid = none := by
  rw [newPid_eq] at hp
  have hmem := (mem_scan h).mp (List.mem_of_find?_eq_some hp)
  have hfree := List.find?_some hp
  exact ⟨hmem.1, Option.isNone_iff_eq_none.mp hfree⟩

theorem newPid_none (h : d.lastPid < procTableSize) :
    newPid d = none ↔ ∀ pid < procTableSize, pid ≠ d.lastPid → d.procTable pid ≠ none := by
  rw [newPid_eq, List.find?_eq_none]
  simp only [mem_scan h, Option.isNone_iff_eq_none, and_imp, ne_eq]

theorem procInit_lastPid (k : Kernel) (proc : ProcRef) (parent : Option ProcRef) (res : Int) :
    (procInit k proc parent res).1.lastPid = (newPid k.toData).getD k.lastPid := by
  rw [procInit]
  cases newPid k.toData with
  | none => rfl
  | some pid =>
      by_cases hres : res < 0
      · simp [hres, Data.setProc, Data.setState, Data.setResume]
      · cases parent <;> simp [hres, Data.setProc, Data.setState, Data.setResume]

theorem reached_lastPid (h : Reached k) : k.lastPid < procTableSize := by
  induction h with
  | start h =>
      rw [h.lastPid]
      decide
  | next op _ hs ih =>
      cases hs with
      | procInit proc parent res =>
          rw [procInit_lastPid]
          cases hp : newPid _ with
          | none => exact ih
          | some pid => exact (newPid_some ih hp).1
      | procDeinit proc => exact ih
      | other k' ht hl => rwa [hl]

/-- `new_pid` misses a free slot just if that slot is the one of the last pid and
no other slot is free. -/
theorem pid_allocation (h : Reached k) : PidSound k.toData ↔
    (k.procTable k.lastPid = none → ∃ pid < procTableSize, pid ≠ k.lastPid ∧ k.procTable pid = none) := by
  have hlast := reached_lastPid h
  constructor
  · intro hsound hfree
    by_contra hno
    push Not at hno
    exact hsound.full ((newPid_none hlast).mpr hno) k.lastPid hlast hfree
  · intro hcond
    refine ⟨fun pid hp => newPid_some hlast hp, fun hp pid hlt hfree => ?_⟩
    have hall := (newPid_none hlast).mp hp
    by_cases hpid : pid = k.lastPid
    · subst hpid
      obtain ⟨pid, hlt', hne, hfree'⟩ := hcond hfree
      exact hall pid hlt' hne hfree'
    · exact hall pid hlt hpid hfree

section Full

theorem procInit_created (hp : newPid k.toData = some pid) (proc : ProcRef) (parent : Option ProcRef) :
    (procInit k proc parent 0).1.procTable = Function.update k.procTable pid (some proc) ∧
      (procInit k proc parent 0).1.lastPid = pid ∧ ((procInit k proc parent 0).1.procs proc).pid = pid := by
  rw [procInit, hp]
  cases parent <;> simp [Data.setProc, Data.setState, Data.setResume]

structure Filled (p : Nat → ProcRef) (n : Nat) (k : Kernel) : Prop where
  procTable (pid : Nat) : k.procTable pid = if pid < n then some (p pid) else none
  lastPid : k.lastPid = (n + (procTableSize - 1)) % procTableSize
  pid (i : Nat) : n = i + 1 → (k.procs (p i)).pid = i

theorem filled_newPid {p : Nat → ProcRef} (h : Filled p n k) (hn : n < procTableSize) : newPid k.toData = some n := by
  have hfree : (k.procTable n).isNone := by
    rw [h.procTable, if_neg (Nat.lt_irrefl n)]
    rfl
  have hlast := h.lastPid
  rw [procTableSize] at hn hlast
  rw [newPid_eq, scan, procTableSize]
  cases n with
  | zero =>
      rw [hlast]
      exact List.find?_cons_of_pos hfree
  | succ n =>
      have hcount : 256 - (n + 1) = (255 - (n + 1)) + 1 := by omega
      rw [hlast, show (n + 1 + (256 - 1)) % 256 = n by omega, hcount, List.range'_succ, List.cons_append]
      exact List.find?_cons_of_pos hfree

/-- Processes that are created one after the other fill the table. -/
theorem filled_reached (p : Nat → ProcRef) (hk : Start k) (hn : n ≤ procTableSize) : ∃ k, Reached k ∧ Filled p n k := by
  induction n with
  | zero => exact ⟨k, .start hk, by simpa using hk.procTable, hk.lastPid, by simp⟩
  | succ n ih =>
      obtain ⟨k, hr, hf⟩ := ih (Nat.le_of_succ_le hn)
      obtain ⟨ht, hl, hp⟩ := procInit_created (filled_newPid hf hn) (p n) none
      refine ⟨_, hr.next _ (.procInit (p n) none 0), fun pid => ?_, ?_, ?_⟩
      · by_cases hpid : pid = n
        · rw [ht, hpid, Function.update_self, if_pos (Nat.lt_succ_self n)]
        · rw [ht, Function.update_of_ne hpid, hf.procTable]
          simp only [show pid < n ↔ pid < n + 1 by omega]
      · rw [procTableSize] at hn ⊢
        omega
      · rintro i hi
        obtain rfl := Nat.succ.inj hi
        exact hp

end Full

def proc : Nat → ProcRef
  | 0 => .idleProc
  | 1 => .initProc
  | n => .heap n

theorem blank_start : Start blankKernel := ⟨fun _ => rfl, rfl⟩

/-- With all slots taken `new_pid` is right to find none. -/
theorem pid_allocation_full : ∃ k, Reached k ∧ PidSound k.toData ∧ newPid k.toData = none := by
  obtain ⟨k, hr, hf⟩ := filled_reached proc blank_start (Nat.le_refl procTableSize)
  have htaken : ∀ pid < procTableSize, k.procTable pid ≠ none := by
    intro pid hpid
    rw [hf.procTable, if_pos hpid]
    exact Option.some_ne_none _
  have hlast := reached_lastPid hr
  refine ⟨k, hr, (pid_allocation hr).mpr fun hfree => absurd hfree (htaken _ hlast), ?_⟩
  exact (newPid_none hlast).mpr fun pid hpid _ => htaken pid hpid

/-- When the table is full and the process that was created last is released, its
slot is free and `new_pid` finds none. -/
theorem pid_allocation_last : ∃ k, Reached k ∧ k.procTable 255 = none ∧ newPid k.toData = none := by
  obtain ⟨k, hr, hf⟩ := filled_reached proc blank_start (Nat.le_refl procTableSize)
  have hpid : (k.procs (proc 255)).pid = 255 := hf.pid 255 rfl
  have hslot : k.procTable (k.procs (proc 255)).pid.toNat = some (proc 255) := by
    rw [hpid, hf.procTable]
    rfl
  have htable : (procDeinit k (proc 255)).procTable = Function.update k.procTable 255 none := by
    rw [procDeinit, hpid]
    rfl
  have hr' := hr.next _ (.procDeinit (proc 255) hslot)
  refine ⟨_, hr', by rw [htable, Function.update_self], (newPid_none (reached_lastPid hr')).mpr fun pid hlt hne => ?_⟩
  have hlast : (procDeinit k (proc 255)).lastPid = 255 := hf.lastPid
  rw [htable, Function.update_of_ne (hlast ▸ hne), hf.procTable, if_pos hlt]
  exact Option.some_ne_none _

end Karg.PidAllocation
