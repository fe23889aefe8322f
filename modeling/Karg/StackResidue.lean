import Karg.StackPages

namespace Karg.StackResidue

open LinkStore CircularList ByteMemory KernelMemory PageAlloc Vm TableTree VmRefinement ProcStack Process AddressSpaces
  StackArgs StackPages Riscv TrapCode TrapSystem ContextFrames Execution

/-- What `proc_init` is called with, and the `sstatus` that it finds. Of each
argument its address and its length are given. -/
structure Call where
  sstatus : BitVec 64
  ref : ProcRef
  entry : Nat
  flags : UInt32
  args : List (Nat × Nat)
  argv : Nat
  pageTable : Nat

/-- The machines differ at most in the contents of free pages. -/
structure Twin (freeList : Nat) (s s' : Machine) (free : List Nat) : Prop where
  rest : s' = { s with space := ⟨s'.space.mem, s.space.tables⟩ }
  pages : FreePages freeList s.space.mem free
  pages' : FreePages freeList s'.space.mem free
  only : Only { x | ∃ p ∈ free, x ∈ place p pageSize } s.space.mem s'.space.mem

/-- Both machines have the arguments, which have room on a stack and lie outside
the pages that become the stacks, and the page table of a process of the user. -/
structure Valid (l : Layout) (k : Call) (s s' : Machine) (free : List Nat) (src : Set Nat) : Prop where
  args : ArgsAt s.space.mem src k.argv 0 k.args
  same : Same src s.space.mem s'.space.mem
  room : Room k.args
  list : Disjoint src (nodes (l.freeList :: free))
  outside (p : Nat) : p ∈ free.take 2 → Disjoint src (place p pageSize)
  table : k.flags &&& procFlagKern = 0 → l.trampoline < 2 ^ 39 ∧ (∀ p ∈ free, p < 2 ^ 39) ∧
    ∃ tab leaf, Mapped l.freeList k.pageTable s.space tab leaf free

def Creates (l : Layout) (k : Call) (s s₁ : Machine) : Prop :=
  Converges (fun fuel => procInit l k.sstatus fuel s k.ref k.entry k.flags k.args.length k.argv k.pageTable) (s₁, 0)

def stackBytes (proc : ProcStack.Proc) : Set Nat := place proc.kernStack pageSize ∪ place proc.userStack pageSize

structure Dispatched (mem : Memory) (proc : ProcStack.Proc) (c : Cpu) : Prop where
  same : Same (stackBytes proc) mem c.mem
  sp : word c.mem (c.x .a1).toNat = BitVec.ofNat 64 proc.sp
  old : 128 ≤ (c.x .sp).toNat
  apart : Disjoint (stackBytes proc ∪ place (c.x .a1).toNat 8) (place ((c.x .sp).toNat - 128) 128 ∪ place (c.x .a0).toNat 8)

/-- From `ctx_sw`, whose `ret` leads to `proc_entry`, to the first `sret`. -/
def firstReturn (procEntryAddr : Nat) (c : Cpu) : Option Cpu :=
  let c := exec ctxSw c
  if c.x .ra = BitVec.ofNat 64 procEntryAddr then some (exec procEntry c) else none

def SameView (procEntryAddr userStack : Nat) (c c' : Cpu) : Prop :=
  ∃ d d', firstReturn procEntryAddr c = some d ∧ firstReturn procEntryAddr c' = some d' ∧
    (∀ r, r ≠ .zero → d.x r = d'.x r) ∧ Same (place userStack pageSize) d.mem d'.mem

def slot (r : Reg) : Nat :=
  if r = .sp then 200 else (source r entryLoads).elim ((source r switchLoads).getD 0) (128 + ·)

def stale : List Reg := [.ra, .gp, .tp, .t0, .t1, .t2, .s0, .s1, .a2, .a3, .a4, .a5, .a6, .a7, .s2, .s3, .s4, .s5, .s6, .s7,
  .s8, .s9, .s10, .s11, .t3, .t4, .t5, .t6]

/-- The memories agree in what a new process sees of its two pages as they were. -/
structure SameResidue (k : Call) (proc : ProcStack.Proc) (m m' : Memory) : Prop where
  frame (r : Reg) : r ∈ stale → word m (proc.sp + slot r) = word m' (proc.sp + slot r)
  stack : Same (place (proc.userStack + 16) (stackTop proc.userStack k.args - (proc.userStack + 16))) m m'

variable {l : Layout} {k : Call} {s s' s₁ s₁' : Machine} {free rest : List Nat} {src : Set Nat} {c c' : Cpu} {m m' : Memory}
  {proc : ProcStack.Proc} {b o kernStack userStack : Nat} {r : Reg}

section Registers

theorem slot_le (r : Reg) : slot r + 8 ≤ 304 := by
  cases r <;> decide

theorem slot_stale (hz : r ≠ .zero) (hr : r ∉ stale) : r = .sp ∨ r = .a0 ∨ r = .a1 := by
  cases r <;> first | exact absurd rfl hz | exact absurd (by decide) hr | simp

theorem slot_written (hr : r ∈ stale) : ∀ o ∈ [248, 240, 216, 208, 200, 128, 120],
    slot r + 8 ≤ o ∨ o + 8 ≤ slot r := by
  revert r
  decide

theorem word_same {t : Set Nat} (h : Same t m m') (ht : place b 8 ⊆ t) : word m' b = word m b :=
  congrArg (BitVec.ofNat 64) (h.load_eq ht)

/-- Where `ctx_sw` and then `proc_entry` find a register. -/
theorem slot_cases (hz : r ≠ .zero) (hs : r ≠ .sp) : (∃ o, source r entryLoads = some o ∧ slot r = 128 + o) ∨
    source r entryLoads = none ∧ source r switchLoads = some (slot r) ∧ slot r + 8 ≤ 128 := by
  cases r <;> first | exact absurd rfl hz | exact absurd rfl hs | exact .inl ⟨_, rfl, rfl⟩ | exact .inr ⟨rfl, rfl, by decide⟩

theorem frame_word (h : Same (stackBytes proc) m m') (hsp : proc.sp = proc.kernStack + pageSize - 304) (ho : o + 8 ≤ 304) :
    word m' (proc.sp + o) = word m (proc.sp + o) := by
  apply word_same h
  intro x hx
  rw [hsp, pageSize, mem_place] at hx
  rw [stackBytes, pageSize]
  refine .inl ?_
  rw [mem_place]
  omega

theorem Dispatched.switched (hd : Dispatched m proc c) (hsp : proc.sp = proc.kernStack + pageSize - 304)
    (hb : proc.sp + 304 ≤ 2 ^ 64) : Same (stackBytes proc) m (exec ctxSw c).mem ∧
      (exec ctxSw c).x .sp = BitVec.ofNat 64 (proc.sp + 128) ∧
      ∀ r o, r ≠ .sp → source r switchLoads = some o → o + 8 ≤ 128 → (exec ctxSw c).x r = word m (proc.sp + o) := by
  have hsame : Same (stackBytes proc) m (switchMem c) := fun x hx =>
    ((switchMem_only hd.old).same (hd.apart.mono_left Set.subset_union_left) x hx).trans (hd.same x hx)
  have hw : switchSp c = BitVec.ofNat 64 proc.sp := by
    rw [switchSp, Cpu.addr_zero c .a1 nofun, ← hd.sp]
    exact word_only (switchMem_only hd.old) (hd.apart.mono_left Set.subset_union_right)
  obtain ⟨hmem, hxsp, -⟩ := exec_ctxSw c
  rw [hw, show (128 : Int) = ((128 : Nat) : Int) from rfl, ofNat_add_ofInt] at hxsp
  refine ⟨hmem ▸ hsame, hxsp, fun r o hr ho hle => ?_⟩
  rw [ctxSw_word hw (by omega) hr ho hle]
  exact frame_word hsame hsp (by omega)

theorem firstReturn_regs {procEntryAddr : Nat} (hd : Dispatched m proc c) (hsp : proc.sp = proc.kernStack + pageSize - 304)
    (hlt : proc.kernStack + pageSize < 2 ^ 64) (hra : word m (proc.sp + 120) = BitVec.ofNat 64 procEntryAddr) :
    ∃ d, firstReturn procEntryAddr c = some d ∧ (∀ r, r ≠ .zero → d.x r = word m (proc.sp + slot r)) ∧
      Same (place proc.userStack pageSize) m d.mem := by
  have hb : proc.sp + 304 ≤ 2 ^ 64 := by
    rw [hsp]
    rw [pageSize] at hlt ⊢
    omega
  obtain ⟨hsame, hxsp, hload⟩ := hd.switched hsp hb
  have hfirst : firstReturn procEntryAddr c = if (exec ctxSw c).x .ra = BitVec.ofNat 64 procEntryAddr then
      some (exec procEntry (exec ctxSw c)) else none := rfl
  generalize exec ctxSw c = c₁ at hsame hload hxsp hfirst
  have hret : c₁.x .ra = BitVec.ofNat 64 procEntryAddr := by
    have hne : Reg.ra ≠ .sp := by decide
    have hs : source .ra switchLoads = some 120 := rfl
    rw [hload _ _ hne hs (by decide), hra]
  rw [if_pos hret] at hfirst
  obtain ⟨hmem', -, -, -, -, hsp', hregs⟩ := exec_procEntry c₁
  have haddr : ∀ {o}, o + 8 ≤ 176 → word c₁.mem (c₁.addr .sp o) = word m (proc.sp + (128 + o)) := by
    intro o ho
    have hlow : (c₁.x .sp).toNat = proc.sp + 128 := by
      rw [hxsp, BitVec.toNat_ofNat, Nat.mod_eq_of_lt (by omega)]
    have hroom : (c₁.x .sp).toNat + o < 2 ^ 64 := by omega
    have ha : c₁.addr .sp o = proc.sp + (128 + o) :=
      (toNat_add_ofNat hroom).trans ((congrArg (· + o) hlow).trans (Nat.add_assoc _ _ _))
    rw [ha]
    exact frame_word hsame hsp (by omega)
  refine ⟨exec procEntry c₁, hfirst, fun r hz => ?_, ?_⟩
  · by_cases hs : r = .sp
    · subst hs
      exact hsp'.trans (haddr (by decide))
    · rw [hregs r hs]
      rcases slot_cases hz hs with ⟨o, ho, hslot⟩ | ⟨hnone, ho, hle⟩
      · have hle := slot_le r
        rw [ho, Option.elim_some, haddr (by omega), hslot]
      · rw [hnone, Option.elim_none, hload _ _ hs ho hle]
  · rw [hmem']
    exact hsame.mono Set.subset_union_right

end Registers

section Creation

theorem Twin.mapped {root : Nat} {tab : List Nat → Option Nat} {leaf : List Nat → Pte} (h : Twin l.freeList s s' free)
    (hm : Mapped l.freeList root s.space tab leaf free) : Mapped l.freeList root s'.space tab leaf free := by
  have hspace : s'.space = ⟨s'.space.mem, s.space.tables⟩ := congrArg Machine.space h.rest
  rw [hspace]
  refine ⟨hm.tree.only h.only fun p t ht => ?_, hm.tables, h.pages', hm.frames, hm.fresh, hm.off⟩
  rw [Set.disjoint_left]
  rintro x hx ⟨q, hq, hxq⟩
  have hne : t ≠ q := fun he => hm.fresh q hq (he ▸ (hm.tables t).mpr ⟨p, ht⟩)
  exact Set.disjoint_left.mp (frame_disjoint (hm.tree.frame ht) (hm.frames q hq) hne) hx hxq

theorem mapStacks_same {sp sp' : Space} {res : Int} {tab : List Nat → Option Nat} {leaf : List Nat → Pte}
    (hm : Mapped l.freeList proc.pageTable sp tab leaf (proc.kernStack :: proc.userStack :: rest))
    (hin : Only (stackBytes proc) (taken l.freeList sp.mem) m) (ht : l.trampoline < 2 ^ 39)
    (hlow : ∀ p ∈ proc.kernStack :: proc.userStack :: rest, p < 2 ^ 39)
    (hrun : mapStacks l ⟨m, sp.tables⟩ proc = (sp', res)) : Same (stackBytes proc) m sp'.mem := by
  simp only [List.forall_mem_cons] at hlow
  obtain ⟨hm₁, hk, hu, -⟩ := mapped_stacks hm hin
  obtain ⟨sp₁, res₁, tab', leaf', free', hrun₁, hg, hm', -⟩ := mapStacks_refines hm₁ ht hlow.1 hlow.2.1
  obtain ⟨rfl, -⟩ := Prod.mk.inj (hrun₁.symm.trans hrun)
  exact hg.only.same (Set.disjoint_union_left.mpr ⟨hg.disjoint hm₁ hm' hk, hg.disjoint hm₁ hm' hu⟩)

def newProc (k : Call) (kernStack userStack : Nat) : ProcStack.Proc :=
  ⟨k.flags, k.pageTable, kernStack, userStack, kernStack + pageSize - 304⟩

structure Created (l : Layout) (k : Call) (s s₁ : Machine) (kernStack userStack : Nat) (m : Memory) : Prop where
  proc : s₁.proc k.ref = newProc k kernStack userStack
  fills : Fills l k.sstatus { s.proc k.ref with flags := k.flags, pageTable := k.pageTable } k.entry kernStack userStack
    k.args s.space.mem m
  same : Same (stackBytes (s₁.proc k.ref)) m s₁.space.mem

theorem created (hroom : Room k.args) (htable : k.flags &&& procFlagKern = 0 → l.trampoline < 2 ^ 39 ∧
      (∀ p ∈ kernStack :: userStack :: rest, p < 2 ^ 39) ∧
      ∃ tab leaf, Mapped l.freeList k.pageTable s.space tab leaf (kernStack :: userStack :: rest)) {fuel : Nat}
    (hrun : procInit l k.sstatus fuel s k.ref k.entry k.flags k.args.length k.argv k.pageTable = some (s₁, 0))
    (hinit : initStacks l k.sstatus fuel s.space.mem { s.proc k.ref with flags := k.flags, pageTable := k.pageTable }
      k.entry k.args.length k.argv = some (m, newProc k kernStack userStack, 0))
    (hfills : Fills l k.sstatus { s.proc k.ref with flags := k.flags, pageTable := k.pageTable } k.entry kernStack
      userStack k.args s.space.mem m) : Created l k s s₁ kernStack userStack m := by
  have hpos : ¬ (0 : Int) < 0 := by decide
  obtain ⟨m₁, res, hinit₁, -, hcase⟩ := procInit_cases hrun hpos
  have heq := Option.some.inj (hinit₁.symm.trans hinit)
  have hm : m₁ = m := congrArg Prod.fst heq
  have hproc : s₁.proc k.ref = newProc k kernStack userStack := congrArg (fun x => x.2.1) heq
  subst hm
  refine ⟨hproc, hfills, ?_⟩
  rcases hcase with ⟨hflags, hmap⟩ | ⟨-, hspace⟩
  · obtain ⟨ht, hlow, tab, leaf, hmapped⟩ := htable hflags
    have hin := hfills.only.mono (filled_subset kernStack userStack hroom)
    rw [hproc] at hmap ⊢
    exact mapStacks_same hmapped hin ht hlow hmap
  · rw [hspace]
    exact fun _ _ => rfl

theorem created_both (ht : Twin l.freeList s s' free) (hv : Valid l k s s' free src) (h : Creates l k s s₁)
    (h' : Creates l k s' s₁') : ∃ kernStack userStack rest m m', free = kernStack :: userStack :: rest ∧
      Created l k s s₁ kernStack userStack m ∧ Created l k s' s₁' kernStack userStack m' ∧
      Same (place (stackTop userStack k.args) (userStack + pageSize - stackTop userStack k.args)) m m' := by
  obtain ⟨n, hn⟩ := h
  obtain ⟨n', hn'⟩ := h'
  have hrun := hn (n + n' + argsSize k.args) (by omega)
  have hrun' := hn' (n + n' + argsSize k.args) (by omega)
  have hfuel : ∀ a ∈ k.args, a.2 < n + n' + argsSize k.args := by
    intro a ha
    have := lt_argsSize ha
    omega
  have hpos : ¬ (0 : Int) < 0 := by decide
  obtain ⟨kernStack, userStack, rest, rfl⟩ : ∃ kernStack userStack rest, free = kernStack :: userStack :: rest := by
    obtain ⟨m, res, hinit, hres, -⟩ := procInit_cases hrun hpos
    exact ⟨_, _, (initStacks_pages ht.pages hinit hres).2⟩
  have hproc : s'.proc = s.proc := by
    have hrest := congrArg Machine.proc ht.rest
    exact hrest
  have hlist : Disjoint src (nodes (l.freeList :: userStack :: rest)) :=
    hv.list.mono_right (nodes_rest _ _ _)
  have hstack : Disjoint src (place userStack pageSize) := hv.outside userStack (by simp)
  obtain ⟨m, m', hinit, hfills, hfills', hsame⟩ := initStacks_spec k.sstatus
    { s.proc k.ref with flags := k.flags, pageTable := k.pageTable } k.entry ht.pages ht.pages' hv.args hv.same hlist hstack
    hv.room
  have hinit := hinit _ hfuel
  rw [List.forall_mem_cons, List.forall_mem_singleton] at hinit
  have htable : k.flags &&& procFlagKern = 0 → l.trampoline < 2 ^ 39 ∧
      (∀ p ∈ kernStack :: userStack :: rest, p < 2 ^ 39) ∧
      ∃ tab leaf, Mapped l.freeList k.pageTable s'.space tab leaf (kernStack :: userStack :: rest) := by
    intro hflags
    obtain ⟨htr, hlow, tab, leaf, hm⟩ := hv.table hflags
    exact ⟨htr, hlow, tab, leaf, ht.mapped hm⟩
  rw [← hproc] at hinit hfills'
  refine ⟨kernStack, userStack, rest, m, m', rfl, created hv.room hv.table hrun ?_ hfills,
    created hv.room htable hrun' hinit.2 hfills', hsame⟩
  rw [← hproc]
  exact hinit.1

theorem taken_links (h : FreePages l.freeList m (kernStack :: userStack :: rest)) :
    load (taken l.freeList m) userStack 8 = l.freeList ∧
      load (taken l.freeList m) (userStack + 8) 8 = rest.headD l.freeList := by
  obtain ⟨m₁, hm₁, hf₁, -⟩ := pageAlloc_cons h
  obtain ⟨m₂, hm₂, hf₂, ho₂⟩ := pageAlloc_cons hf₁
  have ht : taken l.freeList m = m₂ := by
    rw [taken, hm₁, hm₂]
  have hu := hf₁.page userStack List.mem_cons_self
  have hapart := hf₂.disjoint hu (hf₁.off userStack List.mem_cons_self) (List.nodup_cons.mp hf₁.nodup).1
  have hlow : ∀ a, userStack ≤ a → a + 8 ≤ userStack + 16 → load m₂ a 8 = load m₁ a 8 := by
    intro a ha ha'
    apply ho₂.load_eq
    apply hapart.mono_left
    intro x hx
    rw [mem_place] at hx ⊢
    rw [pageSize]
    omega
  rw [ht, hlow _ (Nat.le_refl _) (by omega), hlow _ (by omega) (by omega)]
  obtain ⟨hprev, -, hnext⟩ := circular_append (l := [userStack]).mp hf₁.ring.circular
  exact ⟨(List.isChain_cons_cons.mp hprev).1.2, hnext.1⟩

theorem taken_same (h : FreePages l.freeList m (kernStack :: userStack :: rest))
    (h' : FreePages l.freeList m' (kernStack :: userStack :: rest)) :
    Same (place userStack 16) (taken l.freeList m) (taken l.freeList m') := by
  obtain ⟨hprev, hnext⟩ := taken_links h
  obtain ⟨hprev', hnext'⟩ := taken_links h'
  intro x hx
  rw [mem_place] at hx
  by_cases hlow : x < userStack + 8
  · apply same_of_load (hprev'.trans hprev.symm)
    rw [mem_place]
    omega
  · apply same_of_load (hnext'.trans hnext.symm)
    rw [mem_place]
    omega

end Creation

section Residue

theorem kernStack_apart (h : FreePages l.freeList m (kernStack :: userStack :: rest)) :
    Disjoint (place kernStack pageSize) (nodes (l.freeList :: userStack :: rest)) := by
  obtain ⟨m₁, -, hf₁, -⟩ := pageAlloc_cons h
  exact hf₁.disjoint (h.page _ List.mem_cons_self) (h.off _ List.mem_cons_self) (List.nodup_cons.mp h.nodup).1

theorem free_apart {freeList p : Nat} (h : FreePages freeList m free) (hp : p ∈ free) :
    Disjoint (place (p + 16) (pageSize - 16)) (nodes (freeList :: free)) := by
  apply disjoint_nodes
  intro q hq
  rcases List.mem_cons.mp hq with rfl | hq
  · have ho := h.off p hp
    rw [pageSize] at ho ⊢
    omega
  · by_cases hpq : p = q
    · subst hpq
      exact .inr (Nat.le_refl _)
    · have hap := (h.page p hp).apart (h.page q hq) hpq
      rw [pageSize] at hap ⊢
      omega

theorem stacks_apart (h : FreePages l.freeList m (kernStack :: userStack :: rest)) :
    Disjoint (place kernStack pageSize) (place userStack pageSize) := by
  apply disjoint_place
  apply (h.page _ List.mem_cons_self).apart (h.page _ (List.mem_cons_of_mem _ List.mem_cons_self))
  exact fun he => (List.nodup_cons.mp h.nodup).1 (he ▸ List.mem_cons_self)

theorem Created.given (hc : Created l k s s₁ kernStack userStack m) (hc' : Created l k s' s₁' kernStack userStack m')
    (hz : r ≠ .zero) (hr : r ∉ StackResidue.stale) :
    word m (kernStack + pageSize - 304 + slot r) = word m' (kernStack + pageSize - 304 + slot r) := by
  have hword : ∀ {i o : Nat} {v : BitVec 64}, (startFrame l.procEntry (firstStart k.sstatus
        { s.proc k.ref with flags := k.flags, pageTable := k.pageTable } k.entry userStack k.args))[i]? = some (o, v) →
      word m (kernStack + pageSize - 304 + o) = word m' (kernStack + pageSize - 304 + o) := by
    intro i o v hi
    have hmem := List.mem_of_getElem? hi
    exact (hc.fills.frame (o, v) hmem).trans (hc'.fills.frame (o, v) hmem).symm
  rcases slot_stale hz hr with rfl | rfl | rfl
  · exact hword (i := 4) rfl
  · exact hword (i := 1) rfl
  · exact hword (i := 0) rfl

variable (hp : FreePages l.freeList s.space.mem (kernStack :: userStack :: rest)) (hroom : Room k.args)
  (hc : Created l k s s₁ kernStack userStack m)

include hp hc

theorem Created.regs (hd : Dispatched s₁.space.mem (s₁.proc k.ref) c) : ∃ d, firstReturn l.procEntry c = some d ∧
    (∀ r, r ≠ .zero → d.x r = word m (kernStack + pageSize - 304 + slot r)) ∧ Same (place userStack pageSize) m d.mem := by
  have hlt := (hp.page _ List.mem_cons_self).end_lt
  have hsame := hc.same
  rw [hc.proc] at hd hsame
  have hd' : Dispatched m (newProc k kernStack userStack) c :=
    ⟨fun x hx => (hd.same x hx).trans (hsame x hx), hd.sp, hd.old, hd.apart⟩
  have hra : word m ((newProc k kernStack userStack).sp + 120) = BitVec.ofNat 64 l.procEntry :=
    hc.fills.frame (120, BitVec.ofNat 64 l.procEntry) (by simp [startFrame])
  have hsp : (newProc k kernStack userStack).sp = kernStack + pageSize - 304 := rfl
  have hregs := firstReturn_regs hd' hsp hlt hra
  rw [hsp] at hregs
  exact hregs

theorem Created.low {x : Nat} (hx : x ∈ place userStack pageSize) (hlt : x < stackTop userStack k.args) :
    m.byte x = (taken l.freeList s.space.mem).byte x := by
  apply hc.fills.only
  rintro (hframe | htop)
  · refine Set.disjoint_left.mp (stacks_apart hp) ?_ hx
    have hfr := frameBytes_subset _ hframe
    rw [pageSize] at hfr ⊢
    rw [mem_place] at hfr ⊢
    omega
  · rw [mem_place] at htop
    omega

theorem Created.kept {x : Nat} (hx : x ∈ place userStack pageSize) (hlow : userStack + 16 ≤ x)
    (hlt : x < stackTop userStack k.args) : m.byte x = s.space.mem.byte x := by
  rw [hc.low hp hx hlt]
  apply (taken_pages hp).2
  obtain ⟨m₁, -, hf₁, -⟩ := pageAlloc_cons hp
  apply Set.disjoint_left.mp (free_apart hf₁ List.mem_cons_self)
  rw [mem_place] at hx ⊢
  omega

include hroom

/-- A register that is not written starts as what the page has held. -/
theorem Created.stale (hr : r ∈ stale) : word m (kernStack + pageSize - 304 + slot r) =
    word s.space.mem (kernStack + pageSize - 304 + slot r) := by
  have hslot := slot_le r
  have hpage : place (kernStack + pageSize - 304 + slot r) 8 ⊆ place kernStack pageSize := by
    rw [pageSize]
    exact place_subset_place (by omega) (by omega)
  have hframe : Disjoint (place (kernStack + pageSize - 304 + slot r) 8) (filled kernStack userStack k.args) := by
    rw [filled, Set.disjoint_union_right]
    constructor
    · rw [Set.disjoint_left]
      rintro x hx ⟨o, ho, hxo⟩
      have hap := slot_written hr o ho
      rw [mem_place] at hx hxo
      omega
    · exact ((stacks_apart hp).mono_left hpage).mono_right (top_subset hroom)
  rw [word_only hc.fills.only hframe, word_only (taken_pages hp).2 ((kernStack_apart hp).mono_left hpage)]

theorem Created.stack_iff (hp' : FreePages l.freeList s'.space.mem (kernStack :: userStack :: rest))
    (hc' : Created l k s' s₁' kernStack userStack m')
    (htop : Same (place (stackTop userStack k.args) (userStack + pageSize - stackTop userStack k.args)) m m') :
    Same (place userStack pageSize) m m' ↔
      Same (place (userStack + 16) (stackTop userStack k.args - (userStack + 16))) s.space.mem s'.space.mem := by
  obtain ⟨-, hsize, hvec⟩ := stackTop_le userStack hroom
  constructor
  · intro h x hx
    rw [mem_place] at hx
    have hpage : x ∈ place userStack pageSize := by
      rw [mem_place]
      omega
    rw [← hc.kept hp hpage hx.1 (by omega), ← hc'.kept hp' hpage hx.1 (by omega)]
    exact h x hpage
  · intro h x hx
    have hx' := mem_place.mp hx
    by_cases hlt : x < stackTop userStack k.args
    · by_cases hlow : x < userStack + 16
      · rw [hc.low hp hx hlt, hc'.low hp' hx hlt]
        exact taken_same hp hp' x (mem_place.mpr ⟨hx'.1, hlow⟩)
      · rw [hc.kept hp hx (Nat.le_of_not_lt hlow) hlt, hc'.kept hp' hx (Nat.le_of_not_lt hlow) hlt]
        apply h
        rw [mem_place]
        omega
    · apply htop
      rw [mem_place]
      omega

end Residue

section Boot

def switchRegs : Reg → BitVec 64
  | .sp => 0x1000
  | .a0 => 0x2000
  | _ => 0x3000

theorem dispatched_exists (mem : Memory) (hk : 0x80400000 ≤ proc.kernStack) (hu : 0x80400000 ≤ proc.userStack) :
    ∃ c, Dispatched mem proc c := by
  have hapart : ∀ a n, a + n ≤ 0x80400000 → Disjoint (stackBytes proc) (place a n) := fun a n ha =>
    Set.disjoint_union_left.mpr ⟨disjoint_place (.inr (by omega)), disjoint_place (.inr (by omega))⟩
  have hsp : (switchRegs .sp).toNat = 0x1000 := rfl
  have ha0 : (switchRegs .a0).toNat = 0x2000 := rfl
  have ha1 : (switchRegs .a1).toNat = 0x3000 := rfl
  refine ⟨⟨switchRegs, fun _ => 0, setWord mem 0x3000 (BitVec.ofNat 64 proc.sp)⟩, ?_, ?_, ?_, ?_⟩
  · exact (setWord_only mem 0x3000 _).same (hapart 0x3000 8 (by decide))
  · rw [ha1]
    exact word_setWord _ _ _
  · rw [hsp]
    decide
  · rw [hsp, ha0, ha1]
    simp only [Set.disjoint_union_left, Set.disjoint_union_right]
    exact ⟨⟨hapart _ _ (by decide), disjoint_place (by decide)⟩, hapart _ _ (by decide), disjoint_place (by decide)⟩

theorem word_setByte_ne {v : UInt8} (h : v ≠ m.byte b) : word m b ≠ word (setByte m b v) b := by
  intro hw
  have hlt : ∀ m : Memory, load m b 8 < 2 ^ 64 := fun m => load_lt m b 8
  have hload : load (setByte m b v) b 8 = load m b 8 := by
    have hnat := congrArg BitVec.toNat hw
    rw [word, word, BitVec.toNat_ofNat, BitVec.toNat_ofNat, Nat.mod_eq_of_lt (hlt _), Nat.mod_eq_of_lt (hlt _)] at hnat
    exact hnat.symm
  have hbyte := same_of_load hload b (by simp)
  have hset : (setByte m b v).byte b = v := Function.update_self ..
  exact h (hset.symm.trans hbyte)

/-- A machine that has started, and the same one with another byte in a free page:
the page becomes the stack of a process in the kernel, and the byte lies where the
process finds `s0`. -/
theorem recycled : ∃ s s' free k s₁ s₁' c c', Twin bootLayout.freeList s s' free ∧ Valid bootLayout k s s' free ∅ ∧
    Creates bootLayout k s s₁ ∧ Creates bootLayout k s' s₁' ∧ Dispatched s₁.space.mem (s₁.proc k.ref) c ∧
    Dispatched s₁'.space.mem (s₁'.proc k.ref) c' ∧ word s.space.mem ((s₁.proc k.ref).sp + slot .s0) ≠
      word s'.space.mem ((s₁.proc k.ref).sp + slot .s0) := by
  obtain ⟨-, root, kernStack, userStack, rest, m, tab, leaf, -, hpages, hlen, -, hm⟩ := boot_mapped
  have hlow : ∀ p ∈ kernStack :: userStack :: rest, 0x80400000 ≤ p ∧ p < 2 ^ 39 :=
    fun p hp => (hpages p (List.mem_cons_of_mem root hp)).2
  simp only [List.forall_mem_cons] at hlow
  obtain ⟨v, hv⟩ : ∃ v, v ≠ m.byte (kernStack + pageSize - 304 + slot .s0) := by
    by_cases h0 : m.byte (kernStack + pageSize - 304 + slot .s0) = 0
    · exact ⟨1, by rw [h0]; decide⟩
    · exact ⟨0, Ne.symm h0⟩
  have hslot := slot_le .s0
  have hset := setByte_only m (kernStack + pageSize - 304 + slot .s0) v
  have hin : {kernStack + pageSize - 304 + slot .s0} ⊆ place (kernStack + 16) (pageSize - 16) := by
    rw [pageSize]
    exact singleton_subset_place (by omega) (by omega)
  let s : Machine := { blank m with space := ⟨m, [root]⟩ }
  let s' : Machine := { blank m with space := ⟨setByte m (kernStack + pageSize - 304 + slot .s0) v, [root]⟩ }
  have ht : Twin bootLayout.freeList s s' (kernStack :: userStack :: rest) := by
    refine ⟨rfl, hm.pages, ?_, hset.mono fun x hx => ⟨kernStack, List.mem_cons_self, ?_⟩⟩
    · exact hm.pages.frame hset ((free_apart hm.pages List.mem_cons_self).mono_left hin).symm
    · have hx := mem_place.mp (hin hx)
      rw [mem_place]
      omega
  have htrampoline : bootLayout.trampoline < 2 ^ 39 := by decide
  obtain ⟨-, s₁, -, hrun, -, hproc⟩ := procInit_exists s .initProc hm htrampoline hlow.1.2 hlow.2.1.2 hlen
  obtain ⟨-, s₁', -, hrun', -, hproc'⟩ := procInit_exists s' .initProc (ht.mapped hm) htrampoline hlow.1.2 hlow.2.1.2 hlen
  have hd : ∀ s₁ : Machine, s₁.proc .initProc = ⟨0, root, kernStack, userStack, kernStack + pageSize - 304⟩ →
      ∃ c, Dispatched s₁.space.mem (s₁.proc .initProc) c := by
    intro s₁ hproc
    rw [hproc]
    exact dispatched_exists _ hlow.1.1 hlow.2.1.1
  obtain ⟨c, hc⟩ := hd s₁ hproc
  obtain ⟨c', hc'⟩ := hd s₁' hproc'
  refine ⟨s, s', _, ⟨0, .initProc, 0, 0, [], nullptr, root⟩, s₁, s₁', c, c', ht, ?_, .of_forall hrun, .of_forall hrun', hc,
    hc', ?_⟩
  · exact ⟨trivial, fun _ hx => absurd hx (Set.notMem_empty _), room_nil, Set.empty_disjoint _,
      fun _ _ => Set.empty_disjoint _,
      fun _ => ⟨htrampoline, fun p hp => (hpages p (List.mem_cons_of_mem root hp)).2.2, tab, leaf, hm⟩⟩
  · rw [hproc]
    exact word_setByte_ne hv

end Boot

/-- A process starts with the same registers and the same stack in two machines
that differ in the contents of free pages just if these agree in the words of its
first frame and in the bytes of its stack that `proc_init` does not write. -/
theorem stack_residue (ht : Twin l.freeList s s' free) (hv : Valid l k s s' free src) (h : Creates l k s s₁)
    (h' : Creates l k s' s₁') (hd : Dispatched s₁.space.mem (s₁.proc k.ref) c)
    (hd' : Dispatched s₁'.space.mem (s₁'.proc k.ref) c') :
    SameView l.procEntry (s₁.proc k.ref).userStack c c' ↔
      SameResidue k (s₁.proc k.ref) s.space.mem s'.space.mem := by
  obtain ⟨kernStack, userStack, rest, m, m', rfl, hc, hc', htop⟩ := created_both ht hv h h'
  obtain ⟨d, hrun, hregs, hstack⟩ := hc.regs ht.pages hd
  obtain ⟨d', hrun', hregs', hstack'⟩ := hc'.regs ht.pages' hd'
  have hregs_iff : (∀ r, r ≠ .zero → d.x r = d'.x r) ↔ ∀ r ∈ stale,
      word s.space.mem (kernStack + pageSize - 304 + slot r) = word s'.space.mem (kernStack + pageSize - 304 + slot r) := by
    constructor
    · intro hx r hr
      have hz : r ≠ .zero := by
        rintro rfl
        exact absurd hr (by decide)
      rw [← hc.stale ht.pages hv.room hr, ← hc'.stale ht.pages' hv.room hr, ← hregs r hz, ← hregs' r hz]
      exact hx r hz
    · intro hx r hz
      rw [hregs r hz, hregs' r hz]
      by_cases hr : r ∈ stale
      · rw [hc.stale ht.pages hv.room hr, hc'.stale ht.pages' hv.room hr]
        exact hx r hr
      · exact hc.given hc' hz hr
  have hstack_iff : Same (place userStack pageSize) d.mem d'.mem ↔
      Same (place (userStack + 16) (stackTop userStack k.args - (userStack + 16))) s.space.mem s'.space.mem := by
    rw [← hc.stack_iff ht.pages hv.room ht.pages' hc' htop]
    constructor
    · exact fun h x hx => (hstack' x hx).symm.trans ((h x hx).trans (hstack x hx))
    · exact fun h x hx => (hstack' x hx).trans ((h x hx).trans (hstack x hx).symm)
  rw [hc.proc]
  constructor
  · rintro ⟨e, e', he, he', hx, hs⟩
    obtain rfl : d = e := Option.some.inj (hrun.symm.trans he)
    obtain rfl : d' = e' := Option.some.inj (hrun'.symm.trans he')
    exact ⟨hregs_iff.mp hx, hstack_iff.mp hs⟩
  · rintro ⟨hx, hs⟩
    exact ⟨d, d', hrun, hrun', hregs_iff.mpr hx, hstack_iff.mpr hs⟩

theorem stack_residue_recycled : ∃ s s' free k s₁ s₁' c c', Twin bootLayout.freeList s s' free ∧
    Valid bootLayout k s s' free ∅ ∧ Creates bootLayout k s s₁ ∧ Creates bootLayout k s' s₁' ∧
    ¬ SameView bootLayout.procEntry (s₁.proc k.ref).userStack c c' := by
  obtain ⟨s, s', free, k, s₁, s₁', c, c', ht, hv, h, h', hd, hd', hne⟩ := recycled
  refine ⟨s, s', free, k, s₁, s₁', c, c', ht, hv, h, h', fun hview => hne ?_⟩
  exact ((stack_residue ht hv h h' hd hd').mp hview).frame .s0 (by decide)

/-- The new process starts with a word of the page's previous owner in `s0`. -/
theorem stack_residue_leak : ∃ s s' free k s₁ s₁' c c' d d', Twin bootLayout.freeList s s' free ∧
    Valid bootLayout k s s' free ∅ ∧ Creates bootLayout k s s₁ ∧ Creates bootLayout k s' s₁' ∧
    Dispatched s₁.space.mem (s₁.proc k.ref) c ∧ Dispatched s₁'.space.mem (s₁'.proc k.ref) c' ∧
    firstReturn bootLayout.procEntry c = some d ∧ firstReturn bootLayout.procEntry c' = some d' ∧
    d.x .s0 = word s.space.mem ((s₁.proc k.ref).sp + slot .s0) ∧ d.x .s0 ≠ d'.x .s0 := by
  obtain ⟨s, s', free, k, s₁, s₁', c, c', ht, hv, h, h', hd, hd', hne⟩ := recycled
  obtain ⟨kernStack, userStack, rest, m, m', rfl, hc, hc', -⟩ := created_both ht hv h h'
  obtain ⟨d, hrun, hregs, -⟩ := hc.regs ht.pages hd
  obtain ⟨d', hrun', hregs', -⟩ := hc'.regs ht.pages' hd'
  have hs0 : Reg.s0 ∈ stale := by decide
  have hx := (hregs .s0 nofun).trans (hc.stale ht.pages hv.room hs0)
  have hx' := (hregs' .s0 nofun).trans (hc'.stale ht.pages' hv.room hs0)
  rw [hc.proc] at hne
  refine ⟨s, s', _, k, s₁, s₁', c, c', d, d', ht, hv, h, h', hd, hd', hrun, hrun', ?_, ?_⟩
  · rw [hc.proc]
    exact hx
  · rw [hx, hx']
    exact hne

end Karg.StackResidue
