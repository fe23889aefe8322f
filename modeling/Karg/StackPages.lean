import Karg.AddressSpaces
import Karg.ContextFrames
import Karg.PageTableMap
import Karg.StackArgs

namespace Karg.StackPages

open ByteMemory KernelMemory PageAlloc Vm TableTree VmRefinement ProcStack Process AddressSpaces StackArgs Riscv TrapSystem
  ContextFrames

def taken (freeList : Nat) (m : Memory) : Memory := (pageAlloc freeList (pageAlloc freeList m).1).1

variable {l : Layout} {sstatus : BitVec 64} {fuel entry argv pageTable kernStack userStack : Nat} {argc res : Int}
  {m m' : Memory} {proc proc' : ProcStack.Proc} {free : List Nat} {s s' : Machine} {ref : ProcRef} {flags : UInt32}
  {sp sp' : Space} {tab : List Nat → Option Nat} {leaf : List Nat → Pte}

theorem pageAlloc_taken (h : FreePages l.freeList m (kernStack :: userStack :: free)) :
    ∃ m₁, pageAlloc l.freeList m = (m₁, kernStack) ∧ pageAlloc l.freeList m₁ = (taken l.freeList m, userStack) ∧
      kernStack ≠ nullptr ∧ userStack ≠ nullptr := by
  obtain ⟨m₁, hm₁, hf₁, -⟩ := pageAlloc_cons h
  obtain ⟨m₂, hm₂, -⟩ := pageAlloc_cons hf₁
  refine ⟨m₁, hm₁, ?_, Nat.ne_of_gt (h.page kernStack List.mem_cons_self).pos,
    Nat.ne_of_gt (hf₁.page userStack List.mem_cons_self).pos⟩
  rw [taken, hm₁, hm₂]

theorem taken_pages (h : FreePages l.freeList m (kernStack :: userStack :: free)) :
    FreePages l.freeList (taken l.freeList m) free ∧
      Only (nodes (l.freeList :: userStack :: free)) m (taken l.freeList m) := by
  obtain ⟨m₁, hm₁, hf₁, ho₁⟩ := pageAlloc_cons h
  obtain ⟨m₂, hm₂, hf₂, ho₂⟩ := pageAlloc_cons hf₁
  have ht : taken l.freeList m = m₂ := by
    rw [taken, hm₁, hm₂]
  rw [ht]
  refine ⟨hf₂, ho₁.trans (ho₂.mono ?_)⟩
  exact nodes_rest l.freeList userStack free

theorem mapped_stacks (h : Mapped l.freeList pageTable sp tab leaf (kernStack :: userStack :: free))
    (hm : Only (place kernStack pageSize ∪ place userStack pageSize) (taken l.freeList sp.mem) m) :
    Mapped l.freeList pageTable ⟨m, sp.tables⟩ tab leaf free ∧ Unused l.freeList sp.tables free kernStack ∧
      Unused l.freeList sp.tables free userStack ∧ kernStack ≠ userStack := by
  obtain ⟨m₁, hm₁, hf₁, ho₁⟩ := pageAlloc_cons h.pages
  obtain ⟨m₂, hm₂, hf₂, ho₂⟩ := pageAlloc_cons hf₁
  obtain ⟨hk, hnodup⟩ := List.nodup_cons.mp h.pages.nodup
  have hu : userStack ∈ kernStack :: userStack :: free := List.mem_cons_of_mem _ List.mem_cons_self
  have hkern : Unused l.freeList sp.tables free kernStack :=
    ⟨h.frames _ List.mem_cons_self, h.fresh _ List.mem_cons_self, fun hin => hk (List.mem_cons_of_mem _ hin),
      h.pages.off _ List.mem_cons_self⟩
  have huser : Unused l.freeList sp.tables free userStack :=
    ⟨h.frames _ hu, h.fresh _ hu, (List.nodup_cons.mp hnodup).1, h.pages.off _ hu⟩
  have htaken := (h.take hf₁ (ho₁.mono Set.subset_union_left)).take hf₂ (ho₂.mono Set.subset_union_left)
  have ht : taken l.freeList sp.mem = m₂ := by
    rw [taken, hm₁, hm₂]
  rw [ht] at hm
  have hout : Disjoint (place kernStack pageSize ∪ place userStack pageSize) (domain l.freeList sp.tables free) :=
    Set.disjoint_union_left.mpr ⟨(Grown.refl l.freeList _ free).disjoint htaken htaken hkern,
      (Grown.refl l.freeList _ free).disjoint htaken htaken huser⟩
  refine ⟨⟨htaken.tree.only hm fun p t ht => ?_, htaken.tables, htaken.pages.frame hm ?_, htaken.frames, htaken.fresh,
    htaken.off⟩, hkern, huser, fun he => hk (he ▸ List.mem_cons_self)⟩
  · exact hout.symm.mono_left fun x hx => .inr ⟨t, (h.tables t).mpr ⟨p, ht⟩, hx⟩
  · exact hout.symm.mono_left fun x hx => .inl hx

theorem initStacks_pages (hp : FreePages l.freeList m free)
    (h : initStacks l sstatus fuel m proc entry argc argv = some (m', proc', res)) (hr : ¬ res < 0) :
    proc'.pageTable = proc.pageTable ∧ ∃ free', free = proc'.kernStack :: proc'.userStack :: free' := by
  have hneg : -enomem < 0 := by decide
  simp only [initStacks] at h
  split at h
  · have hres : -enomem = res := congrArg (fun x => x.2.2) (Option.some.inj h)
    exact absurd (hres ▸ hneg) hr
  case isFalse hnull =>
    obtain ⟨⟨m₁, usp⟩, -, h⟩ := Option.bind_eq_some_iff.mp h
    have hproc := congrArg (fun x => x.2.1) (Option.some.inj h)
    have hk : (pageAlloc l.freeList m).2 = proc'.kernStack := congrArg Proc.kernStack hproc
    have hu : (pageAlloc l.freeList (pageAlloc l.freeList m).1).2 = proc'.userStack := congrArg Proc.userStack hproc
    refine ⟨(congrArg Proc.pageTable hproc).symm, ?_⟩
    cases free with
    | nil => exact absurd (.inl ((pageAlloc_null hp).mpr rfl)) hnull
    | cons p free =>
        obtain ⟨m₂, hm₂, hf₂, -⟩ := pageAlloc_cons hp
        rw [hm₂] at hk hu hnull
        cases free with
        | nil => exact absurd (.inr ((pageAlloc_null hf₂).mpr rfl)) hnull
        | cons q free =>
            obtain ⟨m₃, hm₃, -, -⟩ := pageAlloc_cons hf₂
            rw [hm₃] at hu
            exact ⟨free, by rw [← hk, ← hu]⟩

theorem procInit_cases (h : procInit l sstatus fuel s ref entry flags argc argv pageTable = some (s', res))
    (hr : ¬ res < 0) :
    ∃ m res', initStacks l sstatus fuel s.space.mem { s.proc ref with flags := flags, pageTable := pageTable } entry argc
        argv = some (m, s'.proc ref, res') ∧ ¬ res' < 0 ∧
      (flags &&& procFlagKern = 0 ∧ mapStacks l ⟨m, s.space.tables⟩ (s'.proc ref) = (s'.space, res) ∨
        flags &&& procFlagKern ≠ 0 ∧ s'.space = ⟨m, s.space.tables⟩) := by
  rw [procInit] at h
  obtain ⟨⟨m, proc, res'⟩, hrun, h⟩ := Option.bind_eq_some_iff.mp h
  dsimp only at h
  split at h
  case isTrue hneg =>
    have hres : res' = res := congrArg Prod.snd (Option.some.inj h)
    exact absurd (hres ▸ hneg) hr
  case isFalse hpos =>
    split at h
    case isTrue hk =>
      have hproc : Function.update s.proc ref proc = s'.proc := congrArg (fun x => x.1.proc) (Option.some.inj h)
      have hspace : (mapStacks l ⟨m, s.space.tables⟩ proc).1 = s'.space := congrArg (fun x => x.1.space) (Option.some.inj h)
      have hres : (mapStacks l ⟨m, s.space.tables⟩ proc).2 = res := congrArg Prod.snd (Option.some.inj h)
      rw [← hproc, Function.update_self]
      exact ⟨m, res', hrun, hpos, .inl ⟨hk, Prod.ext hspace hres⟩⟩
    case isFalse hk =>
      have hproc : Function.update s.proc ref proc = s'.proc := congrArg (fun x => x.1.proc) (Option.some.inj h)
      have hspace : (⟨m, s.space.tables⟩ : Space) = s'.space := congrArg (fun x => x.1.space) (Option.some.inj h)
      rw [← hproc, Function.update_self]
      exact ⟨m, res', hrun, hpos, .inr ⟨hk, hspace.symm⟩⟩

theorem procInit_user (s : Machine) (ref : ProcRef) (hflags : flags &&& procFlagKern = 0)
    (hinit : initStacks l sstatus fuel s.space.mem { s.proc ref with flags := flags, pageTable := pageTable } entry argc
      argv = some (m, proc, 0)) (hmap : mapStacks l ⟨m, s.space.tables⟩ proc = (sp, 0)) :
    ∃ s', procInit l sstatus fuel s ref entry flags argc argv pageTable = some (s', 0) ∧ s'.space = sp ∧
      s'.proc ref = proc := by
  have hpos : ¬ (0 : Int) < 0 := by decide
  simp only [procInit, hinit, Option.bind_eq_bind, Option.bind_some, if_neg hpos, hflags, if_true, hmap]
  exact ⟨_, rfl, rfl, Function.update_self ..⟩

/-- The calls of `vm_map_page` in `proc_init` succeed if there are six free pages. -/
theorem mapStacks_refines (h : Mapped l.freeList proc.pageTable sp tab leaf free) (ht : l.trampoline < 2 ^ 39)
    (hk : proc.kernStack < 2 ^ 39) (hu : proc.userStack < 2 ^ 39) :
    ∃ sp' res tab' leaf' free', mapStacks l sp proc = (sp', res) ∧ Grown l.freeList sp free sp' free' ∧
      Mapped l.freeList proc.pageTable sp' tab' leaf' free' ∧
      (res = 0 ∧ leaf' (path proc.userStack) ≠ noPte ∨ res < 0 ∧ free.length < 6) := by
  have hneg : -enomem < 0 := by decide
  have hpos : ¬ (0 : Int) < 0 := by decide
  obtain ⟨s₁, res₁, tab₁, free₁, hrun₁, hg₁, ⟨rfl, hlen₁, hm₁⟩ | ⟨rfl, hlen₁, hm₁⟩⟩ :=
    mapPage_refines h ht l.trampoline (vmFlagReadable ||| vmFlagExecutable)
  · obtain ⟨s₂, res₂, tab₂, free₂, hrun₂, hg₂, ⟨rfl, hlen₂, hm₂⟩ | ⟨rfl, hlen₂, hm₂⟩⟩ :=
      mapPage_refines hm₁ hk proc.kernStack (vmFlagReadable ||| vmFlagWritable)
    · obtain ⟨s₃, res₃, tab₃, free₃, hrun₃, hg₃, ⟨rfl, hlen₃, hm₃⟩ | ⟨rfl, hlen₃, hm₃⟩⟩ :=
        mapPage_refines hm₂ hu proc.userStack (vmFlagReadable ||| vmFlagWritable ||| vmFlagUser)
      · refine ⟨s₃, 0, tab₃, _, free₃, ?_, hg₁.trans (hg₂.trans hg₃), hm₃, .inl ⟨rfl, ?_⟩⟩
        · simp only [mapStacks, hrun₁, hrun₂, hrun₃, if_neg hpos]
        · intro hno
          have hflags := congrArg Pte.flags hno
          rw [mapLeaf, Function.update_self] at hflags
          apply or_pteFlags_valid _ (vmFlagReadable ||| vmFlagWritable ||| vmFlagUser)
          rw [show _ ||| _ = _ from hflags]
          decide
      · refine ⟨s₃, -enomem, tab₃, _, free₃, ?_, hg₁.trans (hg₂.trans hg₃), hm₃, .inr ⟨hneg, by omega⟩⟩
        simp only [mapStacks, hrun₁, hrun₂, hrun₃, if_neg hpos, if_pos hneg]
    · refine ⟨s₂, -enomem, tab₂, _, free₂, ?_, hg₁.trans hg₂, hm₂, .inr ⟨hneg, by omega⟩⟩
      simp only [mapStacks, hrun₁, hrun₂, if_neg hpos, if_pos hneg]
  · refine ⟨s₁, -enomem, tab₁, _, free₁, ?_, hg₁, hm₁, .inr ⟨hneg, by omega⟩⟩
    simp only [mapStacks, hrun₁, if_pos hneg]

/-- An entry of the last level lies in a table below two others. -/
theorem inner_tables {root v : Nat} (h : Tree m root tab leaf) (hl : leaf (path v) ≠ noPte) :
    ∃ t₁ t₂, tab [idx0 v] = some t₁ ∧ tab [idx1 v, idx0 v] = some t₂ ∧ t₁ ≠ root ∧ t₂ ≠ root ∧ t₁ ≠ t₂ := by
  obtain ⟨t₂, ht₂⟩ := Option.ne_none_iff_exists'.mp fun hn => hl (h.bare (idx2 v) hn)
  obtain ⟨t₁, ht₁⟩ : ∃ t₁, tab [idx0 v] = some t₁ := by
    apply Option.ne_none_iff_exists'.mp
    intro hn
    rw [h.up (idx1 v) hn] at ht₂
    cases ht₂
  refine ⟨t₁, t₂, ht₁, ht₂, ?_, ?_, ?_⟩
  · rintro rfl
    cases h.inj ht₁ h.root
  · rintro rfl
    cases h.inj ht₂ h.root
  · rintro rfl
    exact absurd (congrArg List.length (h.inj ht₁ ht₂)) (by simp)

section Arguments

variable {src : Set Nat} {args : List (Nat × Nat)}

def Room (args : List (Nat × Nat)) : Prop := 8 * (args.length + 1) + argsSize args ≤ pageSize

def newArgv (userStack : Nat) (args : List (Nat × Nat)) : Nat := userStack + pageSize - 8 * (args.length + 1)

def stackTop (userStack : Nat) (args : List (Nat × Nat)) : Nat := newArgv userStack args - argsSize args

def frameBytes (b : Nat) : Set Nat := { x | ∃ o ∈ [248, 240, 216, 208, 200, 128, 120], x ∈ place (b + o) 8 }

def filled (kernStack userStack : Nat) (args : List (Nat × Nat)) : Set Nat :=
  frameBytes (kernStack + pageSize - 304) ∪
    place (stackTop userStack args) (userStack + pageSize - stackTop userStack args)

def firstStart (sstatus : BitVec 64) (proc : ProcStack.Proc) (entry userStack : Nat) (args : List (Nat × Nat)) : Start :=
  ⟨proc.flags, proc.pageTable, entry, stackTop userStack args, args.length, newArgv userStack args, sstatus⟩

structure Fills (l : Layout) (sstatus : BitVec 64) (proc : ProcStack.Proc) (entry kernStack userStack : Nat)
    (args : List (Nat × Nat)) (m m' : Memory) : Prop where
  only : Only (filled kernStack userStack args) (taken l.freeList m) m'
  frame : Holds m' (kernStack + pageSize - 304) (startFrame l.procEntry (firstStart sstatus proc entry userStack args))

def ended (freeList userStack : Nat) (args : List (Nat × Nat)) (m : Memory) : Memory :=
  store (taken freeList m) (newArgv userStack args + 8 * args.length) 8 nullptr

theorem frameBytes_subset (b : Nat) : frameBytes b ⊆ place b 304 := by
  rintro x ⟨o, ho, hx⟩
  have hle : ∀ o ∈ [248, 240, 216, 208, 200, 128, 120], o + 8 ≤ 304 := by decide
  have ho := hle o ho
  rw [mem_place] at hx ⊢
  omega

theorem procFillStack_only (procEntry : Nat) (sstatus : BitVec 64) (m : Memory) {b : Nat}
    (hsp : usizeSub proc.sp (8 * 38) = b) (entry usp : Nat) (argc : Int) (argv : Nat) :
    Only (frameBytes b) m (procFillStack procEntry sstatus m proc entry usp argc argv).1 := by
  have hstore : ∀ (m : Memory) (v o : Nat), o ∈ [248, 240, 216, 208, 200, 128, 120] →
      Only (frameBytes b) m (store m (b + o) 8 v) :=
    fun m v o ho => (store_only m (b + o) 8 v).mono fun x hx => ⟨o, ho, hx⟩
  rw [procFillStack, hsp]
  apply Only.trans _ (hstore _ _ 120 (by decide))
  apply Only.trans _ (hstore _ _ 128 (by decide))
  apply Only.trans _ (hstore _ _ 200 (by decide))
  apply Only.trans _ (hstore _ _ 208 (by decide))
  apply Only.trans _ (hstore _ _ 216 (by decide))
  apply Only.trans _ (hstore _ _ 240 (by decide))
  exact hstore _ _ 248 (by decide)

theorem vector_size {n : Nat} (h : n < 2 ^ 60) : usizeMul (BitVec.ofInt 64 ((n : Int) + 1)).toNat 8 = 8 * (n + 1) ∧
    (BitVec.ofInt 64 (8 * (n : Int))).toNat = 8 * n := by
  have hcast : ∀ k < 2 ^ 64, (BitVec.ofInt 64 ((k : Nat) : Int)).toNat = k := by
    intro k hk
    rw [BitVec.ofInt_natCast, BitVec.toNat_ofNat, Nat.mod_eq_of_lt hk]
  constructor
  · have hsucc : (BitVec.ofInt 64 ((n : Int) + 1)).toNat = n + 1 := hcast (n + 1) (by omega)
    rw [hsucc, usizeMul_of_lt (by omega), Nat.mul_comm]
  · rw [show 8 * (n : Int) = ((8 * n : Nat) : Int) by simp]
    exact hcast (8 * n) (by omega)

theorem initStacks_eq (hp : FreePages l.freeList m (kernStack :: userStack :: free)) (hroom : Room args) :
    initStacks l sstatus fuel m proc entry args.length argv =
      (copyArgs fuel argv (newArgv userStack args) (ended l.freeList userStack args m) (newArgv userStack args) 0
        args.length).bind fun r =>
        let (m, proc) := procFillStack l.procEntry sstatus r.1
          { proc with kernStack := kernStack, userStack := userStack, sp := kernStack + pageSize } entry r.2 args.length
          (newArgv userStack args)
        some (m, proc, (0 : Int)) := by
  obtain ⟨m₁, hm₁, hm₂, hkn, hun⟩ := pageAlloc_taken hp
  have hk := hp.page kernStack List.mem_cons_self
  have hu := hp.page userStack (List.mem_cons_of_mem _ List.mem_cons_self)
  have hlt := hu.end_lt
  rw [Room, pageSize] at hroom
  rw [pageSize] at hlt
  obtain ⟨hmul, hn8⟩ := vector_size (n := args.length) (by omega)
  have hsub : usizeSub (userStack + pageSize) (8 * (args.length + 1)) = newArgv userStack args := by
    rw [newArgv, pageSize]
    exact usizeSub_of_le (by omega) hlt
  have hend : usizeAdd (newArgv userStack args) (8 * args.length) = newArgv userStack args + 8 * args.length := by
    apply usizeAdd_of_lt
    rw [newArgv, pageSize]
    omega
  simp only [initStacks, hm₁, hm₂, hkn, hun, or_self, if_false, hn8, hmul, usizeAdd_of_lt hu.end_lt,
    usizeAdd_of_lt hk.end_lt, hsub, hend, ended, Int.toNat_natCast]
  rfl

theorem room_nil : Room [] := by
  rw [Room, argsSize]
  decide

theorem stackTop_le (userStack : Nat) (hroom : Room args) : userStack ≤ stackTop userStack args ∧
    stackTop userStack args + argsSize args = newArgv userStack args ∧
    newArgv userStack args + 8 * (args.length + 1) = userStack + pageSize := by
  rw [Room] at hroom
  rw [stackTop, newArgv]
  omega

theorem top_subset (hroom : Room args) :
    place (stackTop userStack args) (userStack + pageSize - stackTop userStack args) ⊆ place userStack pageSize := by
  obtain ⟨hle, hsize, hvec⟩ := stackTop_le userStack hroom
  exact place_subset_place (by omega) (by omega)

theorem filled_subset (kernStack userStack : Nat) (hroom : Room args) :
    filled kernStack userStack args ⊆ place kernStack pageSize ∪ place userStack pageSize := by
  apply Set.union_subset_union
  · apply (frameBytes_subset _).trans
    rw [pageSize]
    exact place_subset_place (by omega) (by omega)
  · exact top_subset hroom

theorem ended_only (hroom : Room args) (m : Memory) :
    Only (place (stackTop userStack args) (userStack + pageSize - stackTop userStack args)) (taken l.freeList m)
      (ended l.freeList userStack args m) := by
  obtain ⟨-, hsize, hvec⟩ := stackTop_le userStack hroom
  apply (store_only _ _ 8 _).mono
  exact place_subset_place (by omega) (by omega)

theorem ended_from (hp : FreePages l.freeList m (kernStack :: userStack :: free)) (hroom : Room args) :
    Only (nodes (l.freeList :: userStack :: free) ∪ place userStack pageSize) m (ended l.freeList userStack args m) :=
  ((taken_pages hp).2.mono Set.subset_union_left).trans
    ((ended_only hroom _).mono ((top_subset hroom).trans Set.subset_union_right))

theorem frame_apart (hp : FreePages l.freeList m (kernStack :: userStack :: free)) (hroom : Room args) :
    Disjoint (place (stackTop userStack args) (userStack + pageSize - stackTop userStack args))
      (frameBytes (kernStack + pageSize - 304)) := by
  have hku : kernStack ≠ userStack := fun he => (List.nodup_cons.mp hp.nodup).1 (he ▸ List.mem_cons_self)
  have hapart := (hp.page kernStack List.mem_cons_self).apart (hp.page userStack (by simp)) hku
  refine ((disjoint_place ?_).mono_left (top_subset hroom)).mono_right (frameBytes_subset _)
  rw [pageSize] at hapart ⊢
  omega

theorem procFillStack_fills (sstatus : BitVec 64) (proc : ProcStack.Proc) (entry : Nat)
    (hk : Page kernStack) (hroom : Room args)
    (hm : Only (written (newArgv userStack args) (newArgv userStack args) 0 args) (ended l.freeList userStack args m) m')
    {r : Memory × ProcStack.Proc} (hr : r = procFillStack l.procEntry sstatus m'
      { proc with kernStack := kernStack, userStack := userStack, sp := kernStack + pageSize } entry
      (stackTop userStack args) args.length (newArgv userStack args)) :
    r.2 = { proc with kernStack := kernStack, userStack := userStack, sp := kernStack + pageSize - 304 } ∧
      Fills l sstatus proc entry kernStack userStack args m r.1 ∧
      Only (frameBytes (kernStack + pageSize - 304)) m' r.1 := by
  obtain ⟨-, hsize, hvec⟩ := stackTop_le userStack hroom
  have hpage : 304 ≤ kernStack + pageSize := by
    rw [pageSize]
    omega
  obtain ⟨hholds, hsp, -⟩ := procFillStack_frame l.procEntry (firstStart sstatus proc entry userStack args) m'
    { proc with kernStack := kernStack, userStack := userStack, sp := kernStack + pageSize } rfl rfl hpage hk.end_lt hr
  have hsub : usizeSub (kernStack + pageSize) (8 * 38) = kernStack + pageSize - 304 := usizeSub_of_le hpage hk.end_lt
  have honly : Only (frameBytes (kernStack + pageSize - 304)) m' r.1 := by
    rw [hr]
    apply procFillStack_only
    exact hsub
  refine ⟨?_, ⟨?_, hholds⟩, honly⟩
  · rw [← hsp, hr]
    rfl
  · apply Only.trans _ (honly.mono Set.subset_union_left)
    apply Only.mono _ Set.subset_union_right
    apply (ended_only hroom m).trans (hm.mono ?_)
    apply written_subset (Nat.le_of_eq hsize) (Nat.le_refl _)
    omega

/-- `init_stacks` succeeds, and in two memories with the same arguments it gives
the user the same ones. -/
theorem initStacks_spec (sstatus : BitVec 64) (proc : ProcStack.Proc) (entry : Nat)
    (hp : FreePages l.freeList m (kernStack :: userStack :: free))
    (hp' : FreePages l.freeList m' (kernStack :: userStack :: free)) (hargs : ArgsAt m src argv 0 args) (hs : Same src m m')
    (hlist : Disjoint src (nodes (l.freeList :: userStack :: free))) (hstack : Disjoint src (place userStack pageSize))
    (hroom : Room args) :
    ∃ m₁ m₁', (∀ fuel, (∀ a ∈ args, a.2 < fuel) → ∀ n ∈ [(m, m₁), (m', m₁')],
        initStacks l sstatus fuel n.1 proc entry args.length argv = some (n.2,
          { proc with kernStack := kernStack, userStack := userStack, sp := kernStack + pageSize - 304 }, 0)) ∧
      Fills l sstatus proc entry kernStack userStack args m m₁ ∧
      Fills l sstatus proc entry kernStack userStack args m' m₁' ∧
      Same (place (stackTop userStack args) (userStack + pageSize - stackTop userStack args)) m₁ m₁' := by
  obtain ⟨hle, hsize, hvec⟩ := stackTop_le userStack hroom
  have hk := hp.page kernStack List.mem_cons_self
  have hu := hp.page userStack (List.mem_cons_of_mem _ List.mem_cons_self)
  have hout := Set.disjoint_union_right.mpr ⟨hlist, hstack⟩
  have hstack' : Disjoint src (place userStack (userStack + pageSize - userStack)) := by
    rwa [Nat.add_sub_cancel_left]
  have hlow : userStack + argsSize args ≤ newArgv userStack args := by omega
  have hhigh : newArgv userStack args + 8 * (0 + args.length) ≤ userStack + pageSize := by omega
  obtain ⟨m₂, m₂', hrun, hm₂, hm₂', hsame⟩ := copyArgs_spec (hargs.same ((ended_from hp hroom).same hout))
    (hs.only (ended_from hp hroom) (ended_from hp' hroom) hout) hstack' hlow (Nat.le_refl _) hhigh (Nat.le_of_lt hu.end_lt)
  obtain ⟨hproc, hfills, honly⟩ := procFillStack_fills sstatus proc entry hk hroom hm₂ rfl
  obtain ⟨hproc', hfills', honly'⟩ := procFillStack_fills sstatus proc entry hk hroom hm₂' rfl
  refine ⟨_, _, fun fuel hfuel => ?_, hfills, hfills', ?_⟩
  · obtain ⟨hr, hr'⟩ := hrun fuel hfuel
    rw [List.forall_mem_cons, List.forall_mem_singleton, initStacks_eq hp hroom, initStacks_eq hp' hroom, hr, hr', ← hproc]
    refine ⟨rfl, ?_⟩
    rw [hproc, ← hproc']
    rfl
  · refine Same.only (fun x hx => ?_) honly honly' (frame_apart hp hroom)
    by_cases hw : x ∈ written (newArgv userStack args) (newArgv userStack args) 0 args
    · exact hsame x hw
    · rw [hm₂ x hw, hm₂' x hw]
      apply store_same
      rw [mem_written] at hw
      rw [mem_place] at hx ⊢
      omega

theorem procInit_exists (s : Machine) (ref : ProcRef)
    (hm : Mapped l.freeList pageTable s.space tab leaf (kernStack :: userStack :: free)) (ht : l.trampoline < 2 ^ 39)
    (hk : kernStack < 2 ^ 39) (hu : userStack < 2 ^ 39) (hlen : 6 ≤ free.length) :
    ∃ m s₁, (∀ fuel, initStacks l 0 fuel s.space.mem { s.proc ref with flags := 0, pageTable := pageTable } 0 0 nullptr =
        some (m, s₁.proc ref, 0)) ∧ (∀ fuel, procInit l 0 fuel s ref 0 0 0 nullptr pageTable = some (s₁, 0)) ∧
      Only (place kernStack pageSize ∪ place userStack pageSize) (taken l.freeList s.space.mem) m ∧
      s₁.proc ref = ⟨0, pageTable, kernStack, userStack, kernStack + pageSize - 304⟩ := by
  have hroom := room_nil
  have hargs : ArgsAt s.space.mem ∅ nullptr 0 [] := trivial
  obtain ⟨m, m', hrun, hfills, -⟩ := initStacks_spec 0 { s.proc ref with flags := 0, pageTable := pageTable } 0 hm.pages
    hm.pages hargs (fun _ _ => rfl) (Set.empty_disjoint _) (Set.empty_disjoint _) hroom
  have hinit := fun fuel => hrun fuel (fun a ha => absurd ha List.not_mem_nil) (s.space.mem, m) List.mem_cons_self
  have hinside := hfills.only.mono (filled_subset kernStack userStack hroom)
  obtain ⟨hm₁, -⟩ := mapped_stacks hm hinside
  obtain ⟨sp', res, tab', leaf', free', hmap, -, -, ⟨rfl, -⟩ | ⟨-, hfew⟩⟩ := @mapStacks_refines l
    { s.proc ref with
      flags := 0, pageTable := pageTable, kernStack := kernStack, userStack := userStack, sp := kernStack + pageSize - 304 }
    _ _ _ _ hm₁ ht hk hu
  · have hflags : (0 : UInt32) &&& procFlagKern = 0 := by decide
    obtain ⟨s₁, hs₁, -, hproc⟩ := procInit_user s ref hflags (hinit 0) hmap
    refine ⟨m, s₁, fun fuel => ?_, fun fuel => ?_, hinside, hproc⟩
    · rw [hproc]
      exact hinit fuel
    · have hsame : initStacks l 0 fuel s.space.mem { s.proc ref with flags := 0, pageTable := pageTable } 0 0 nullptr =
          initStacks l 0 0 s.space.mem { s.proc ref with flags := 0, pageTable := pageTable } 0 0 nullptr :=
        (hinit fuel).trans (hinit 0).symm
      apply Eq.trans _ hs₁
      rw [procInit, procInit, hsame]
      rfl
  · omega

end Arguments

theorem boot_mapped : ∃ m root kernStack userStack rest m' tab leaf,
    FreePages bootLayout.freeList m (root :: kernStack :: userStack :: rest) ∧
    (∀ p ∈ root :: kernStack :: userStack :: rest, Frame p ∧ 0x80400000 ≤ p ∧ p < 2 ^ 39) ∧ 6 ≤ rest.length ∧
    vmCreatePageTable bootLayout.freeList ⟨m, []⟩ = (⟨m', [root]⟩, root) ∧
    Mapped bootLayout.freeList root ⟨m', [root]⟩ tab leaf (kernStack :: userStack :: rest) := by
  obtain ⟨m, hm⟩ := boot_pages
  have hpages : ∀ p ∈ heapPages 0x80400000, Frame p ∧ 0x80400000 ≤ p ∧ p < 2 ^ 39 := by
    intro p hp
    refine ⟨PageTableMap.heap_frame boot_region (by decide) hp, ?_⟩
    obtain ⟨i, hi, rfl⟩ := mem_heapPages.mp hp
    simp only [kheapSize, pageSize] at hi ⊢
    omega
  have hlen : 9 ≤ (heapPages 0x80400000).length := by
    rw [heapPages, List.length_map, List.length_range]
    decide
  generalize heapPages 0x80400000 = free at hm hpages hlen
  obtain ⟨root, kernStack, userStack, rest, rfl, hrest⟩ : ∃ root kernStack userStack rest,
      free = root :: kernStack :: userStack :: rest ∧ 6 ≤ rest.length := by
    obtain ⟨root, free, rfl⟩ := List.exists_cons_of_length_pos (by omega : 0 < free.length)
    obtain ⟨kernStack, free, rfl⟩ := List.exists_cons_of_length_pos (by simp at hlen; omega : 0 < free.length)
    obtain ⟨userStack, rest, rfl⟩ := List.exists_cons_of_length_pos (by simp at hlen; omega : 0 < free.length)
    simp only [List.length_cons] at hlen
    exact ⟨root, kernStack, userStack, rest, rfl, by omega⟩
  obtain ⟨m', hrun, hmapped, -⟩ := create_mapped hm fun p hp => (hpages p hp).1
  exact ⟨m, root, kernStack, userStack, rest, m', _, _, hm, hpages, hrest, hrun, hmapped⟩

end Karg.StackPages
