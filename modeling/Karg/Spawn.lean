import Karg.AddressSpaces
import Karg.HeapTiling

namespace Karg.Spawn

open LinkStore CircularList ListNode ByteMemory KernelMemory PageAlloc Kalloc HeapModel KallocRefinement HeapRuns HeapTiling
  Vm ProcStack Process ProcTable Sched Execution KernelBoot AddressSpaces

def procSize : Nat := 1712

structure State extends Machine where
  pages : List Nat
  live : Nat → Option Nat

def State.heap (s : State) : Heap := ⟨s.space.mem, s.pages⟩

/-- All of `proc_init`: the pid, then the memory, then the table and the tree. -/
def procInit (l : ProcStack.Layout) (sstatus : BitVec 64) (fuel : Nat) (s : Machine) (ref : ProcRef) (entry : Nat)
    (flags : UInt32) (parent : Option ProcRef) (argc : Int) (argv pageTable : Nat) : Option (Machine × Int) :=
  if newPid s.kernel.toData = none then
    let (kernel, res) := ProcTable.procInit s.kernel ref parent 0
    some ({ s with kernel := kernel }, res)
  else do
    let (s, res) ← AddressSpaces.procInit l sstatus fuel s ref entry flags argc argv pageTable
    let (kernel, res) := ProcTable.procInit s.kernel ref parent res
    some ({ s with kernel := kernel }, res)

def sysProc (blockList : Nat) (l : ProcStack.Layout) (sstatus : BitVec 64) (fuel : Nat) (s : State) (entry argv : Nat) :
    Option (State × Int) :=
  if entry = nullptr ∨ argv = nullptr then some (s, -efault)
  else do
    let argc ← argCount fuel s.space.mem argv
    let (h, block) ← kmalloc ⟨blockList, l.freeList⟩ fuel s.heap procSize
    let s : State := { s with space := ⟨h.mem, s.space.tables⟩, pages := h.pages, live := grant s.live block procSize }
    if block = nullptr then some (s, -enomem)
    else do
      let ref := ProcRef.heap block
      let kernel : Kernel := { s.kernel with allocated := Function.update s.kernel.allocated block true }
      let (machine, res) ← procInit l sstatus fuel { s.toMachine with kernel := kernel } ref entry 0 s.kernel.currProc
        (BitVec.ofNat 32 argc).toInt argv nullptr
      let s : State := { s with toMachine := machine }
      if res < 0 then some (s, res)
      else
        let kernel ← schedUpdateState s.kernel ref .ready
        some ({ s with kernel := kernel }, (kernel.procs ref).pid)

def freeSet (freeList : Nat) (m : Memory) : Set Nat := { p | ∃ free, FreePages freeList m free ∧ p ∈ free }

/-- The free pages, the live allocations, the table of processes, the children of
the caller and the ready queue are the same. -/
structure Unchanged (freeList : Nat) (s s' : State) : Prop where
  free : freeSet freeList s'.space.mem = freeSet freeList s.space.mem
  live : s'.live = s.live
  procTable : s'.kernel.procTable = s.kernel.procTable
  children (curr : ProcRef) : s.kernel.currProc = some curr →
    ∀ nodes, Circular s'.kernel.tree (.children curr) nodes ↔ Circular s.kernel.tree (.children curr) nodes
  readyQueue (nodes : List QueueNode) :
    Circular s'.kernel.queues .readyQueue nodes ↔ Circular s.kernel.queues .readyQueue nodes

variable {blockList entry argv fuel : Nat} {l : ProcStack.Layout} {sstatus : BitVec 64} {s s' : State} {res : Int}
  {h : Heap} {block : Nat}

theorem Unchanged.refl (freeList : Nat) (s : State) : Unchanged freeList s s :=
  ⟨rfl, rfl, rfl, fun _ _ _ => Iff.rfl, fun _ => Iff.rfl⟩

/-- The block that has been obtained is kept on every path. -/
theorem sysProc_live (ha : ¬ (entry = nullptr ∨ argv = nullptr))
    (hk : kmalloc ⟨blockList, l.freeList⟩ fuel s.heap procSize = some (h, block)) (hb : block ≠ nullptr)
    (hr : sysProc blockList l sstatus fuel s entry argv = some (s', res)) :
    s'.live = Function.update s.live block (some procSize) := by
  rw [sysProc, if_neg ha] at hr
  obtain ⟨argc, -, hr⟩ := Option.bind_eq_some_iff.mp hr
  rw [hk, Option.bind_eq_bind, Option.bind_some] at hr
  simp only [if_neg hb] at hr
  obtain ⟨⟨machine, res₁⟩, -, hr⟩ := Option.bind_eq_some_iff.mp hr
  have hgrant : grant s.live block procSize = Function.update s.live block (some procSize) := if_neg hb
  dsimp only at hr
  split at hr
  · have hs := congrArg (fun x => x.1.live) (Option.some.inj hr)
    exact hs.symm.trans hgrant
  · obtain ⟨kernel, -, hr⟩ := Option.bind_eq_some_iff.mp hr
    have hs := congrArg (fun x => x.1.live) (Option.some.inj hr)
    exact hs.symm.trans hgrant

theorem sysProc_null (ha : ¬ (entry = nullptr ∨ argv = nullptr))
    (hk : kmalloc ⟨blockList, l.freeList⟩ fuel s.heap procSize = some (s.heap, nullptr))
    (hr : sysProc blockList l sstatus fuel s entry argv = some (s', res)) : s' = s ∧ res = -enomem := by
  rw [sysProc, if_neg ha] at hr
  obtain ⟨argc, -, hr⟩ := Option.bind_eq_some_iff.mp hr
  rw [hk, Option.bind_eq_bind, Option.bind_some] at hr
  simp only [if_true] at hr
  obtain ⟨hs, hres⟩ := Prod.mk.inj (Option.some.inj hr)
  exact ⟨hs.symm, hres.symm⟩

/-- A call of `sys_proc` leaves everything as it was just if it fails before it has a
block for the process. -/
theorem sys_proc_atomic (h : HeapRuns.Reached ⟨blockList, l.freeList⟩ ⟨s.heap, s.live⟩)
    (hr : Converges (fun fuel => sysProc blockList l sstatus fuel s entry argv) (s', res)) :
    (Unchanged l.freeList s s' ↔ entry = nullptr ∨ argv = nullptr ∨
      ∃ h', Converges (fun fuel => kmalloc ⟨blockList, l.freeList⟩ fuel s.heap procSize) (h', nullptr)) ∧
    (Unchanged l.freeList s s' → res < 0) := by
  obtain ⟨a, ha⟩ := reached_simulated h
  obtain ⟨h', block, -, hk, -, hfresh⟩ := kmalloc_simulates ha (show procSize + headerSize < 2 ^ 64 by decide)
  obtain ⟨fuel, hr, hfuel⟩ := hr.common hk
  by_cases hn : entry = nullptr ∨ argv = nullptr
  · rw [sysProc, if_pos hn] at hr
    obtain ⟨rfl, rfl⟩ := Prod.mk.inj (Option.some.inj hr)
    exact ⟨iff_of_true (.refl _ _) (or_assoc.mp (.inl hn)), fun _ => by decide⟩
  · by_cases hb : block = nullptr
    · subst hb
      obtain ⟨r, hk', hsame, -⟩ := kmalloc_total ha.represents ha.wellFormed procSize
      obtain rfl := hk.unique hk'
      obtain rfl : h' = s.heap := hsame rfl
      obtain ⟨rfl, rfl⟩ := sysProc_null hn hfuel hr
      exact ⟨iff_of_true (.refl _ _) (.inr (.inr ⟨_, hk⟩)), fun _ => by decide⟩
    · have hlive := sysProc_live hn hfuel hb hr
      have hchanged : s'.live ≠ s.live := by
        intro he
        have hb' := congrFun (hlive.symm.trans he) block
        rw [Function.update_self] at hb'
        cases hb'.trans (hfresh hb).1
      refine ⟨iff_of_false (fun hu => hchanged hu.live) ?_, fun hu => absurd hu.live hchanged⟩
      rintro (he | he | ⟨h₁, hnull⟩)
      · exact hn (.inl he)
      · exact hn (.inr he)
      · exact hb (congrArg Prod.snd (hk.unique hnull))

section Boot

theorem procInit_no_stacks {s : Machine} (hpid : newPid s.kernel.toData ≠ none) (hf : FreePages l.freeList s.space.mem [])
    (sstatus : BitVec 64) (ref : ProcRef) (entry : Nat) (flags : UInt32) (parent : Option ProcRef) (argc : Int)
    (argv pageTable : Nat) : ∃ s', s'.space.mem = s.space.mem ∧
      ∀ fuel, procInit l sstatus fuel s ref entry flags parent argc argv pageTable = some (s', -enomem) := by
  have hneg : -enomem < 0 := by decide
  obtain ⟨pid, hpid'⟩ := Option.ne_none_iff_exists'.mp hpid
  have hsame : ∀ fuel, procInit l sstatus fuel s ref entry flags parent argc argv pageTable =
      procInit l sstatus 0 s ref entry flags parent argc argv pageTable := by
    intro fuel
    simp only [procInit, AddressSpaces.procInit, initStacks, pageAlloc_nil hf, true_or, if_true]
  obtain ⟨s', hrun, hmem⟩ : ∃ s', procInit l sstatus 0 s ref entry flags parent argc argv pageTable =
      some (s', -enomem) ∧ s'.space.mem = s.space.mem := by
    simp only [procInit, hpid', reduceCtorEq, if_false, AddressSpaces.procInit, initStacks, pageAlloc_nil hf, true_or,
      if_true, Option.bind_eq_bind, Option.bind_some, hneg, ProcTable.procInit]
    exact ⟨_, rfl, rfl⟩
  exact ⟨s', hmem, fun fuel => (hsame fuel).trans hrun⟩

/-- When `kmalloc` has taken the last page, there is none for the stacks. -/
theorem sysProc_no_stacks (ha : ¬ (entry = nullptr ∨ argv = nullptr)) {argc : Nat} (hb : block ≠ nullptr)
    (hpid : newPid s.kernel.toData ≠ none) (hf : FreePages l.freeList h.mem []) :
    ∃ s', s'.space.mem = h.mem ∧ ∀ fuel, argCount fuel s.space.mem argv = some argc →
      kmalloc ⟨blockList, l.freeList⟩ fuel s.heap procSize = some (h, block) →
      sysProc blockList l sstatus fuel s entry argv = some (s', -enomem) := by
  obtain ⟨machine, hmem, hinit⟩ := procInit_no_stacks (s := { s.toMachine with
      kernel := { s.kernel with allocated := Function.update s.kernel.allocated block true }
      space := ⟨h.mem, s.space.tables⟩ }) hpid hf sstatus (.heap block) entry 0 s.kernel.currProc
    (BitVec.ofNat 32 argc).toInt argv nullptr
  refine ⟨⟨machine, h.pages, grant s.live block procSize⟩, hmem, fun fuel hargc hk => ?_⟩
  have hneg : -enomem < 0 := by decide
  simp only [sysProc, if_neg ha, hargc, hk, Option.bind_eq_bind, Option.bind_some, if_neg hb, hinit fuel, hneg, if_true]

theorem argCount_none {m : Memory} (h : load m argv 8 = 0) (hfuel : 1 ≤ fuel) : argCount fuel m argv = some 0 := by
  obtain ⟨fuel, rfl⟩ := Nat.exists_eq_add_of_le' hfuel
  exact if_pos h

end Boot

def bootedState (k : Kernel) (m : Memory) : State where
  kernel := k
  space := ⟨m, []⟩
  proc _ := ⟨0, 0, 0, 0, 0⟩
  satp _ := 0
  roots := []
  pages := []
  live _ := none

/-- Without any page `sys_proc` fails in `kmalloc` and changes nothing. -/
theorem sys_proc_atomic_empty : ∃ s s', Converges
    (fun fuel => sysProc 0x80300000 bootLayout 0 fuel s 0x80200100 0x1000) (s', -enomem) ∧
      Unchanged 0x80300010 s s' := by
  obtain ⟨k, -⟩ := booted_simulated
  obtain ⟨m, hstart, hf, hzero⟩ := few_pages [] (.inl rfl)
  have hsim := start_simulated hstart hf (by simp)
  have hk : ∀ fuel, 1 ≤ fuel → kmalloc ⟨0x80300000, bootLayout.freeList⟩ fuel ⟨m, []⟩ procSize = some (⟨m, []⟩, nullptr) :=
    fun fuel hfuel => kmalloc_full hsim.represents (by decide) rfl rfl hfuel
  have hrun : Converges (fun fuel => sysProc 0x80300000 bootLayout 0 fuel (bootedState k m) 0x80200100 0x1000)
      (bootedState k m, -enomem) := by
    refine ⟨1, fun fuel hfuel => ?_⟩
    have hargs : ¬ (0x80200100 = nullptr ∨ 0x1000 = nullptr) := by decide
    simp only [sysProc, if_neg hargs, bootedState, State.heap, argCount_none hzero hfuel, hk fuel hfuel, Option.bind_eq_bind,
      Option.bind_some, if_true, grant]
  have hatomic := sys_proc_atomic (s := bootedState k m) (.start hstart) hrun
  exact ⟨_, _, hrun, hatomic.1.mpr (.inr (.inr ⟨_, 1, hk⟩))⟩

/-- One page is left. It goes to the heap for the `proc_t`, the stacks get none, and
neither the block nor the page is given back. -/
theorem sys_proc_leak : ∃ s s', KernelRuns.Reached s.kernel ∧
    HeapRuns.Reached ⟨0x80300000, 0x80300010⟩ ⟨s.heap, s.live⟩ ∧
    Converges (fun fuel => sysProc 0x80300000 bootLayout 0 fuel s 0x80200100 0x1000) (s', -enomem) ∧
    s.live 0x80400020 = none ∧ s'.live 0x80400020 = some procSize ∧
    0x80400000 ∈ freeSet 0x80300010 s.space.mem ∧ 0x80400000 ∉ freeSet 0x80300010 s'.space.mem := by
  obtain ⟨k, hboot, hk⟩ := booted_simulated
  obtain ⟨m, hstart, hf, hzero⟩ := few_pages [0x80400000] (.inr rfl)
  have hsim := start_simulated hstart hf (by decide)
  have hgrow : Kmalloc ⟨[], [], [0x80400000]⟩ (headerSize + procSize) (some 0x80400020) _ :=
    .grow 0x80400000 [] (by simp) rfl
  obtain ⟨h', ⟨n, hn⟩, -, -, hs'⟩ := kmalloc_reached (.start hstart) hsim (by decide) hgrow
  have hnone : FreePages 0x80300010 h'.mem [] := hs'.represents.free
  have hargs : ¬ (0x80200100 = nullptr ∨ 0x1000 = nullptr) := by decide
  have hpid : newPid (bootedState k m).kernel.toData ≠ none := by
    show newPid k.toData ≠ none
    rw [hk.refines.data]
    exact nofun
  have hblock : 0x80400020 ≠ nullptr := by decide
  obtain ⟨s', hmem, hrun⟩ := @sysProc_no_stacks 0x80300000 0x80200100 0x1000 bootLayout 0 (bootedState k m) h' 0x80400020
    hargs 0 hblock hpid hnone
  have hk' : ∀ fuel, max n 1 ≤ fuel → sysProc 0x80300000 bootLayout 0 fuel (bootedState k m) 0x80200100 0x1000 =
      some (s', -enomem) := fun fuel hfuel =>
    hrun fuel (argCount_none hzero (by omega)) (hn fuel (by omega))
  refine ⟨bootedState k m, s', .start hboot, .start hstart, ⟨_, hk'⟩, rfl, ?_, ⟨_, hf, List.mem_cons_self⟩, ?_⟩
  · have hlive := sysProc_live hargs (hn (max n 1) (Nat.le_max_left _ _)) (by decide) (hk' _ (Nat.le_refl _))
    rw [hlive, Function.update_self]
  · rintro ⟨free, hfree, hp⟩
    rw [hmem] at hfree
    have hnull := (pageAlloc_null hfree).mp ((pageAlloc_null hnone).mpr rfl)
    rw [hnull] at hp
    cases hp

end Karg.Spawn
