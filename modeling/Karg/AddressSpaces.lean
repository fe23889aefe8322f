import Karg.Elf
import Karg.ProcStack
import Karg.SchedulerAgreement

namespace Karg.AddressSpaces

open LinkStore CircularList ByteMemory KernelMemory PageAlloc Vm Elf ProcStack Process Sched Syscalls Execution KernelRuns
  KernelModel KernelRefinement KernelSimulation KernelBoot SchedulerAgreement

/-- The kernel with its memory. Recorded are the value of `satp` in the first
frame of each process, and the tables that `proc_init` has given to `vm_map_page`. -/
structure Machine where
  kernel : Kernel
  space : Space
  proc : ProcRef → ProcStack.Proc
  satp : ProcRef → Nat
  roots : List Nat

/-- The part of `proc_init` that concerns the memory. -/
def procInit (l : Layout) (sstatus : BitVec 64) (fuel : Nat) (s : Machine) (ref : ProcRef) (entry : Nat)
    (flags : UInt32) (argc : Int) (argv pageTable : Nat) : Option (Machine × Int) := do
  let proc := { s.proc ref with flags := flags, pageTable := pageTable }
  let (m, proc, res) ← initStacks l sstatus fuel s.space.mem proc entry argc argv
  let s : Machine := { s with space := ⟨m, s.space.tables⟩, proc := Function.update s.proc ref proc }
  if res < 0 then some (s, res)
  else
    let s : Machine := { s with satp := Function.update s.satp ref (load m (proc.sp + 8 * 16) 8) }
    if flags &&& procFlagKern = 0 then
      let (space, res) := mapStacks l s.space proc
      some ({ s with space := space, roots := s.roots ++ [pageTable] }, res)
    else some (s, 0)

def argCount (fuel : Nat) (m : Memory) (argv : Nat) : Option Nat :=
  match fuel with
  | 0 => none
  | fuel + 1 => if load m argv 8 = nullptr then some 0 else (argCount fuel m (argv + 8)).map (· + 1)

def sysProc (l : Layout) (sstatus : BitVec 64) (fuel : Nat) (s : Machine) (addr entry argv : Nat) :
    Option (Machine × Int) :=
  if entry = nullptr ∨ argv = nullptr then some (s, -efault)
  else do
    let argc ← argCount fuel s.space.mem argv
    procInit l sstatus fuel s (.heap addr) entry 0 (BitVec.ofNat 32 argc).toInt argv nullptr

structure Init (l : Layout) (s₀ s : Machine) : Prop where
  powerOn : PowerOn s₀.kernel
  tables : s₀.space.tables = []
  roots : s₀.roots = []
  run : ∃ sstatus entry s₁ k,
    Converges (fun fuel => procInit l sstatus fuel s₀ .idleProc entry procFlagKern 0 nullptr nullptr) (s₁, 0) ∧
      schedInit s₀.kernel = some k ∧ s = { s₁ with kernel := k }

def Main (l : Layout) (k₀ : Kernel) (s s' : Machine) : Prop :=
  ∃ img res₀ space loadRes res sstatus s₁ now k,
    Converges (fun fuel => elfLoad l.freeList img fuel s.space.mem res₀) (space, loadRes, res) ∧ 0 ≤ res ∧
      Converges (fun fuel => procInit l sstatus fuel { s with space := space } .initProc loadRes.entry 0 0 nullptr
        loadRes.pageTable) (s₁, 0) ∧
      Converges (fun fuel => kmain fuel now k₀) k ∧ s' = { s₁ with kernel := k }

/-- An operation of the kernel. Apart from `sys_proc`, what it writes to the
memory is left open. -/
inductive Step (l : Layout) (s : Machine) : Op → Machine → Prop
  | proc {s' : Machine} {k : Kernel} {out : Outcome} (addr entry argv : Nat) (sstatus : BitVec 64)
      (hk : KernelRuns.Step s.kernel (.proc addr) out k)
      (hm : Converges (fun fuel => sysProc l sstatus fuel s addr entry argv) (s', 0)) :
      Step l s (.proc addr) { s' with kernel := k }
  | other {op : Op} {k : Kernel} {out : Outcome} (m : Memory) (hop : ∀ addr, op ≠ .proc addr)
      (hk : KernelRuns.Step s.kernel op out k) :
      Step l s op { s with kernel := k, space := ⟨m, s.space.tables⟩ }

def Booted (l : Layout) : Machine → Prop :=
  Reachable (fun s => ∃ s₀ s₁, Init l s₀ s₁ ∧ Main l s₀.kernel s₁ s) (Step l)

def Reached (l : Layout) (s : Machine) : Prop := (∃ s₀, Init l s₀ s) ∨ Booted l s

def Schedulable (k : Kernel) (p : ProcRef) : Prop :=
  k.currProc = some p ∨ ∃ ready : List ProcRef, Circular k.queues .readyQueue (ready.map .node) ∧ p ∈ ready

def satpMode (satp : Nat) : Nat := satp / 2 ^ 60

def satpRoot (satp : Nat) : Nat := satp % 2 ^ 44 * pageSize

/-- The first `satp` of the process turns translation off, or leads to a table
that maps the trampoline and both stacks of the process to themselves. -/
def Usable (l : Layout) (s : Machine) (p : ProcRef) : Prop :=
  satpMode (s.satp p) = 0 ∨
    satpMode (s.satp p) = 8 ∧ satpRoot (s.satp p) ∈ s.space.tables ∧
      ∀ a ∈ [l.trampoline, (s.proc p).kernStack, (s.proc p).userStack],
        walk s.space.mem (satpRoot (s.satp p)) a = some a

structure Sound (l : Layout) (s : Machine) : Prop where
  usable (p : ProcRef) : Schedulable s.kernel p → Usable l s p
  roots : nullptr ∉ s.roots

variable {l : Layout} {s s' : Machine} {sp sp' : Space} {ref p : ProcRef} {sstatus : BitVec 64} {fuel : Nat} {res : Int}

theorem load_procFillStack (procEntry : Nat) (sstatus : BitVec 64) (m : Memory) (proc : ProcStack.Proc)
    (entry usp : Nat) (argc : Int) (argv : Nat) :
    load (procFillStack procEntry sstatus m proc entry usp argc argv).1
      ((procFillStack procEntry sstatus m proc entry usp argc argv).2.sp + 8 * 16) 8 =
      (initialSatp proc.pageTable).toNat := by
  simp only [procFillStack]
  rw [load_store_apart _ _ (by omega), load_store_of_lt]
  exact (initialSatp proc.pageTable).isLt

theorem initStacks_satp {m m' : Memory} {proc proc' : ProcStack.Proc} {entry argv : Nat} {argc : Int}
    (h : initStacks l sstatus fuel m proc entry argc argv = some (m', proc', res)) (hr : ¬ res < 0) :
    load m' (proc'.sp + 8 * 16) 8 = (initialSatp proc.pageTable).toNat := by
  simp only [initStacks] at h
  split at h
  · have hres : -enomem = res := congrArg (fun x => x.2.2) (Option.some.inj h)
    exact absurd (by rw [← hres]; decide) hr
  · obtain ⟨⟨m₁, usp⟩, -, h⟩ := Option.bind_eq_some_iff.mp h
    have hm : _ = m' := congrArg Prod.fst (Option.some.inj h)
    have hp : _ = proc' := congrArg (fun x => x.2.1) (Option.some.inj h)
    rw [← hm, ← hp]
    exact load_procFillStack ..

section Tables

theorem nullptr_create (h : nullptr ∉ sp.tables) (freeList : Nat) :
    nullptr ∉ (vmCreatePageTable freeList sp).1.tables := by
  simp only [vmCreatePageTable]
  split
  · exact h
  · next hne =>
    intro hm
    rcases List.mem_append.mp hm with hm | hm
    · exact h hm
    · exact hne (List.mem_singleton.mp hm).symm

theorem nullptr_nextTable (h : nullptr ∉ sp.tables) (freeList pte : Nat) :
    nullptr ∉ (nextTable freeList sp pte).1.tables := by
  have hc := nullptr_create h freeList
  simp only [nextTable]
  split
  · split
    · exact hc
    · exact hc
  · exact h

theorem nullptr_mapPage (h : nullptr ∉ sp.tables) (freeList pageTable virt phys : Nat) (fl : UInt32) :
    nullptr ∉ (vmMapPage freeList sp pageTable virt phys fl).1.tables := by
  rw [vmMapPage]
  have h₁ := nullptr_nextTable h freeList (pageTable + 8 * idx0 virt)
  generalize nextTable freeList sp (pageTable + 8 * idx0 virt) = r₁ at h₁ ⊢
  obtain ⟨s₁, _ | table₁⟩ := r₁
  · exact h₁
  · have h₂ := nullptr_nextTable h₁ freeList (table₁ + 8 * idx1 virt)
    dsimp only at h₂ ⊢
    generalize nextTable freeList s₁ (table₁ + 8 * idx1 virt) = r₂ at h₂ ⊢
    obtain ⟨s₂, _ | table₂⟩ := r₂
    · exact h₂
    · exact h₂

theorem nullptr_mapStacks (h : nullptr ∉ sp.tables) (l : Layout) (proc : ProcStack.Proc) :
    nullptr ∉ (mapStacks l sp proc).1.tables := by
  have h₁ := nullptr_mapPage h l.freeList proc.pageTable l.trampoline l.trampoline (vmFlagReadable ||| vmFlagExecutable)
  have h₂ := nullptr_mapPage h₁ l.freeList proc.pageTable proc.kernStack proc.kernStack
    (vmFlagReadable ||| vmFlagWritable)
  have h₃ := nullptr_mapPage h₂ l.freeList proc.pageTable proc.userStack proc.userStack
    (vmFlagReadable ||| vmFlagWritable ||| vmFlagUser)
  simp only [mapStacks]
  split
  · exact h₁
  · split
    · exact h₂
    · split
      · exact h₃
      · exact h₃

theorem nullptr_loadPages {freeList pageTable : Nat} {img : Memory} {hdr : ProgHdr} {offset : Nat}
    (h : nullptr ∉ sp.tables) (hr : loadPages freeList img pageTable hdr fuel sp offset = some (sp', res)) :
    nullptr ∉ sp'.tables := by
  induction fuel generalizing sp offset with
  | zero => cases hr
  | succ fuel ih =>
      simp only [loadPages] at hr
      split at hr
      · split at hr
        · have hs : _ = sp' := congrArg Prod.fst (Option.some.inj hr)
          rw [← hs]
          exact h
        · split at hr
          · have hs : _ = sp' := congrArg Prod.fst (Option.some.inj hr)
            rw [← hs]
            apply nullptr_mapPage
            exact h
          · apply ih ?_ hr
            apply nullptr_mapPage
            exact h
      · cases hr
        exact h

theorem nullptr_loadSegments {freeList pageTable : Nat} {img : Memory} {hdrs : List ProgHdr}
    (h : nullptr ∉ sp.tables) (hr : loadSegments freeList img pageTable fuel sp hdrs = some (sp', res)) :
    nullptr ∉ sp'.tables := by
  induction hdrs generalizing sp with
  | nil =>
      have hs : sp = sp' := congrArg Prod.fst (Option.some.inj hr)
      exact hs ▸ h
  | cons hdr hdrs ih =>
      rw [loadSegments] at hr
      split at hr
      · exact ih h hr
      · obtain ⟨⟨s₁, res₁⟩, hl, hr⟩ := Option.bind_eq_some_iff.mp hr
        have h₁ := nullptr_loadPages h hl
        dsimp only at hr
        split at hr
        · have hs : s₁ = sp' := congrArg Prod.fst (Option.some.inj hr)
          exact hs ▸ h₁
        · exact ih h₁ hr

theorem nullptr_elfLoad {freeList : Nat} {img m : Memory} {res₀ loadRes : ElfLoadRes}
    (hr : elfLoad freeList img fuel m res₀ = some (sp, loadRes, res)) : nullptr ∉ sp.tables := by
  have h₀ : nullptr ∉ (⟨m, []⟩ : Space).tables := List.not_mem_nil
  have h₁ := nullptr_create h₀ freeList
  simp only [elfLoad] at hr
  split at hr
  · have hs : _ = sp := congrArg Prod.fst (Option.some.inj hr)
    exact hs ▸ h₀
  · split at hr
    · have hs : _ = sp := congrArg Prod.fst (Option.some.inj hr)
      exact hs ▸ h₀
    · split at hr
      · have hs : _ = sp := congrArg Prod.fst (Option.some.inj hr)
        exact hs ▸ h₁
      · obtain ⟨⟨s₁, res₁⟩, hl, hr⟩ := Option.bind_eq_some_iff.mp hr
        have hs : s₁ = sp := congrArg Prod.fst (Option.some.inj hr)
        exact hs ▸ nullptr_loadSegments h₁ hl

end Tables

theorem procInit_spec {entry argv pageTable : Nat} {flags : UInt32} {argc : Int}
    (h : procInit l sstatus fuel s ref entry flags argc argv pageTable = some (s', 0)) :
    s'.satp = Function.update s.satp ref (initialSatp pageTable).toNat ∧
      (nullptr ∉ s.space.tables → nullptr ∉ s'.space.tables) ∧
      s'.roots = if flags &&& procFlagKern = 0 then s.roots ++ [pageTable] else s.roots := by
  obtain ⟨⟨m, proc, res⟩, hi, h⟩ := Option.bind_eq_some_iff.mp h
  dsimp only at h
  split at h
  · next hneg =>
    have hres : res = 0 := congrArg Prod.snd (Option.some.inj h)
    omega
  · next hneg =>
    have hsatp := initStacks_satp hi hneg
    split at h
    · next hk =>
      have hs : _ = s' := congrArg Prod.fst (Option.some.inj h)
      rw [← hs, if_pos hk, ← hsatp]
      exact ⟨rfl, fun ht => @nullptr_mapStacks ⟨m, s.space.tables⟩ ht l proc, rfl⟩
    · next hk =>
      have hs : _ = s' := congrArg Prod.fst (Option.some.inj h)
      rw [← hs, if_neg hk, ← hsatp]
      exact ⟨rfl, id, rfl⟩

/-- The idle process has no page table, though its `satp` turns translation on. -/
structure Idle (s : Machine) : Prop where
  satp : s.satp .idleProc = 8 * 2 ^ 60
  tables : nullptr ∉ s.space.tables

theorem Init.idle {s₀ : Machine} (h : Init l s₀ s) : Idle s := by
  obtain ⟨sstatus, entry, s₁, k, ⟨n, hn⟩, -, rfl⟩ := h.run
  obtain ⟨hsatp, htables, -⟩ := procInit_spec (hn n (Nat.le_refl n))
  refine ⟨(congrFun hsatp _).trans (Function.update_self ..), htables ?_⟩
  rw [h.tables]
  exact List.not_mem_nil

theorem main_idle {k₀ : Kernel} (hi : Idle s) (h : Main l k₀ s s') : Idle s' := by
  obtain ⟨img, res₀, space, loadRes, res, sstatus, s₁, now, k, ⟨n, hn⟩, -, ⟨m, hm⟩, -, rfl⟩ := h
  obtain ⟨hsatp, htables, -⟩ := procInit_spec (hm m (Nat.le_refl m))
  have hne : ProcRef.idleProc ≠ .initProc := nofun
  refine ⟨(congrFun hsatp _).trans ((Function.update_of_ne hne ..).trans hi.satp), htables ?_⟩
  exact nullptr_elfLoad (hn n (Nat.le_refl n))

theorem schedInit_schedulable {k₀ k : Kernel} (h : PowerOn k₀) (hk : schedInit k₀ = some k) :
    Schedulable k .idleProc := by
  have h₀ := powerOn_refines h
  have hpid : ProcTable.newPid (powerOn k₀).toData = some 0 := newPid_first h.lastPid (h.procTable 0)
  obtain ⟨k₁, k₂, hk₁, hk₂, h₂⟩ := create_ready_refines h₀ hpid id rfl (fun _ => rfl) (p := .idleProc)
    (fun _ => List.not_mem_nil)
  have he : schedInit k₀ = some { k₂ with timers := TimerService.timerInit k₂.timers .sched } := by
    simp only [schedInit, hk₁, hk₂, Int.lt_irrefl, if_false, Option.bind_eq_bind, Option.bind_some]
  obtain rfl := Option.some.inj (he.symm.trans hk)
  exact .inr ⟨_, (queues_of_refines h₂).ready, List.mem_cons_self⟩

theorem Init.schedulable {s₀ : Machine} (h : Init l s₀ s) : Schedulable s.kernel .idleProc := by
  obtain ⟨_, _, s₁, k, -, hk, rfl⟩ := h.run
  exact schedInit_schedulable h.powerOn hk

/-- A process created by `sys_proc` has no page table, and the stacks of the
process are mapped in it all the same. -/
theorem sysProc_spec {addr entry argv : Nat} (h : sysProc l sstatus fuel s addr entry argv = some (s', 0)) :
    s'.satp = Function.update s.satp (.heap addr) (8 * 2 ^ 60) ∧
      (nullptr ∉ s.space.tables → nullptr ∉ s'.space.tables) ∧ s'.roots = s.roots ++ [nullptr] := by
  rw [sysProc] at h
  split at h
  · have hres : -efault = 0 := congrArg Prod.snd (Option.some.inj h)
    cases hres
  · obtain ⟨argc, -, h⟩ := Option.bind_eq_some_iff.mp h
    exact procInit_spec h

theorem step_idle {op : Op} (hi : Idle s) (h : Step l s op s') : Idle s' := by
  cases h with
  | proc addr entry argv sstatus hk hm =>
      obtain ⟨n, hn⟩ := hm
      obtain ⟨hsatp, htables, -⟩ := sysProc_spec (hn n (Nat.le_refl n))
      have hne : ProcRef.idleProc ≠ .heap addr := nofun
      exact ⟨(congrFun hsatp _).trans ((Function.update_of_ne hne ..).trans hi.satp), htables hi.tables⟩
  | other m hop hk => exact ⟨hi.satp, hi.tables⟩

theorem step_kernel {op : Op} (h : Step l s op s') : ∃ out, KernelRuns.Step s.kernel op out s'.kernel := by
  cases h with
  | proc addr entry argv sstatus hk => exact ⟨_, hk⟩
  | other m hop hk => exact ⟨_, hk⟩

theorem booted_idle (h : Booted l s) : Idle s ∧ KernelRuns.Reached s.kernel := by
  induction h with
  | start h =>
      obtain ⟨s₀, s₁, hi, hm⟩ := h
      refine ⟨main_idle hi.idle hm, ?_⟩
      obtain ⟨_, _, _, _, _, _, s₂, now, k, -, -, -, hk, rfl⟩ := hm
      exact .start ⟨s₀.kernel, now, hi.powerOn, hk⟩
  | next op h hs ih =>
      obtain ⟨out, hk⟩ := step_kernel hs
      exact ⟨step_idle ih.1 hs, ih.2.next (op, out) hk⟩

theorem reached_schedulable {k : Kernel} (h : KernelRuns.Reached k) : Schedulable k .idleProc := by
  obtain ⟨a, ha⟩ := reached_simulated h
  have hi := ha.invariant.sched
  rcases hi.idle with hs | hs
  · exact .inr ⟨_, (queues_of_refines ha.refines).ready, hi.agree.ready _ ⟨rfl, by simp, hs⟩⟩
  · refine .inl ?_
    rw [ha.refines.data]
    exact (hi.agree.curr .idleProc).mpr ⟨rfl, by simp, hs⟩

theorem Idle.not_usable (h : Idle s) : ¬ Usable l s .idleProc := by
  rw [Usable, h.satp]
  rintro (hu | ⟨-, hu, -⟩)
  · exact absurd hu (by decide)
  · exact h.tables hu

/-- In no state can every process that is ready or runs use its address space:
the idle process is one of them, and has the null table for its root. Each
process that `sys_proc` creates is in the same way, and is mapped in that table. -/
theorem address_spaces_unsound (h : Reached l s) : ¬ Sound l s ∧ Schedulable s.kernel .idleProc ∧
    s.satp .idleProc = 8 * 2 ^ 60 ∧ ∀ addr s', Step l s (.proc addr) s' →
      nullptr ∈ s'.roots ∧ s'.satp (.heap addr) = 8 * 2 ^ 60 := by
  have hidle : Idle s ∧ Schedulable s.kernel .idleProc := by
    rcases h with ⟨s₀, hi⟩ | hb
    · exact ⟨hi.idle, hi.schedulable⟩
    · exact ⟨(booted_idle hb).1, reached_schedulable (booted_idle hb).2⟩
  refine ⟨fun hs => hidle.1.not_usable (hs.usable .idleProc hidle.2), hidle.2, hidle.1.satp, fun addr s' hstep => ?_⟩
  cases hstep with
  | proc _ entry argv sstatus hk hm =>
      obtain ⟨n, hn⟩ := hm
      obtain ⟨hsatp, -, hroots⟩ := sysProc_spec (hn n (Nat.le_refl n))
      refine ⟨?_, (congrFun hsatp _).trans (Function.update_self ..)⟩
      show nullptr ∈ _
      rw [hroots]
      exact List.mem_append_right _ List.mem_cons_self
  | other m hop hk => exact absurd rfl (hop addr)

def blank (m : Memory) : Machine where
  kernel := blankKernel
  space := ⟨m, []⟩
  proc _ := ⟨0, 0, 0, 0, 0⟩
  satp _ := 0
  roots := []

theorem blank_init {m : Memory} {free : List Nat} (h : FreePages l.freeList m free) (hlen : 2 ≤ free.length) :
    ∃ s, Init l (blank m) s := by
  obtain ⟨p, q, free, rfl⟩ : ∃ p q rest, free = p :: q :: rest := by
    match free, hlen with
    | p :: q :: rest, _ => exact ⟨p, q, rest, rfl⟩
  obtain ⟨m₁, hm₁, h₁, -⟩ := pageAlloc_cons h
  obtain ⟨m₂, hm₂, -, -⟩ := pageAlloc_cons h₁
  have hp : p ≠ nullptr := Nat.ne_of_gt (h.page p List.mem_cons_self).pos
  have hq : q ≠ nullptr := Nat.ne_of_gt (h₁.page q List.mem_cons_self).pos
  have hfuel : ∀ fuel, procInit l 0 fuel (blank m) .idleProc 0 procFlagKern 0 nullptr nullptr =
      procInit l 0 0 (blank m) .idleProc 0 procFlagKern 0 nullptr nullptr := fun _ => rfl
  obtain ⟨s₁, hs₁⟩ : ∃ s₁, procInit l 0 0 (blank m) .idleProc 0 procFlagKern 0 nullptr nullptr = some (s₁, 0) := by
    simp only [procInit, initStacks, blank, hm₁, hm₂, hp, hq, or_self, if_false]
    exact ⟨_, rfl⟩
  obtain ⟨k, hk⟩ : ∃ k, schedInit blankKernel = some k := ⟨_, rfl⟩
  exact ⟨_, blankKernel_powerOn, rfl, rfl, 0, 0, s₁, k, .of_forall fun fuel => (hfuel fuel).trans hs₁, hk, rfl⟩

def bootLayout : Layout := ⟨0x80300010, 0x80200000, 0x80200074⟩

theorem boot_init : ∃ s₀ s, Init bootLayout s₀ s := by
  obtain ⟨m, hm⟩ := boot_pages
  have hlen : 2 ≤ (heapPages 0x80400000).length := by
    rw [heapPages, List.length_map, List.length_range]
    decide
  exact ⟨_, blank_init hm hlen⟩

theorem address_spaces_unsound_boot : ∃ s, Reached bootLayout s ∧ ¬ Sound bootLayout s := by
  obtain ⟨s₀, s, hs⟩ := boot_init
  exact ⟨s, .inl ⟨s₀, hs⟩, (address_spaces_unsound (.inl ⟨s₀, hs⟩)).1⟩

/-- Right after the scheduler is set up, the idle process is ready, translation
would be on, and the root of its page table is null. -/
theorem idle_null_table : ∃ s, Reached bootLayout s ∧ Schedulable s.kernel .idleProc ∧
    satpMode (s.satp .idleProc) = 8 ∧ satpRoot (s.satp .idleProc) = nullptr ∧ ¬ Sound bootLayout s := by
  obtain ⟨s₀, s, hs⟩ := boot_init
  have hidle := hs.idle
  refine ⟨s, .inl ⟨s₀, hs⟩, hs.schedulable, ?_, ?_, fun h => hidle.not_usable (h.usable .idleProc hs.schedulable)⟩
  · rw [hidle.satp]
    rfl
  · rw [hidle.satp]
    rfl

end Karg.AddressSpaces
