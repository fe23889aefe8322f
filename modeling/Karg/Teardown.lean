import Karg.StackPages
import Mathlib.Data.List.Perm.Subperm

namespace Karg.Teardown

open CircularList ByteMemory KernelMemory PageAlloc Vm TableTree VmRefinement ProcStack Process AddressSpaces StackPages
  PageTableMap Execution

structure Life where
  space : Space
  proc : ProcStack.Proc

def procDeinit (freeList : Nat) (m : Memory) (proc : ProcStack.Proc) : Memory :=
  let m := pageFree freeList m proc.userStack
  let m := pageFree freeList m proc.kernStack
  pageFree freeList m proc.pageTable

structure Created (l : Layout) (space : Space) (root : Nat) (s : Life) : Prop where
  low : l.trampoline < 2 ^ 39 ∧ s.proc.kernStack < 2 ^ 39 ∧ s.proc.userStack < 2 ^ 39
  init : ∃ sstatus fuel s₀ s₁ ref entry flags argc argv, s₀.space = space ∧ flags &&& procFlagKern = 0 ∧
    procInit l sstatus fuel s₀ ref entry flags argc argv root = some (s₁, 0) ∧ s = ⟨s₁.space, s₁.proc ref⟩ ∧
    ∀ m proc res, initStacks l sstatus fuel space.mem { s₀.proc ref with flags := flags, pageTable := root } entry argc
      argv = some (m, proc, res) →
        Only (place proc.kernStack pageSize ∪ place proc.userStack pageSize) (taken l.freeList space.mem) m

def exec (freeList : Nat) (s : Life) : Op → Life
  | .mapPage c => { s with space := (vmMapPage freeList s.space s.proc.pageTable c.virt c.phys c.flags).1 }
  | .other mem => { s with space := { s.space with mem := mem } }

def Allowed (freeList : Nat) (s : Life) : Op → Prop
  | .mapPage c => c.virt < 2 ^ 39
  | .other mem => Elsewhere freeList s.space mem ∧
      ∀ free, FreePages freeList mem free → s.proc.kernStack ∉ free ∧ s.proc.userStack ∉ free

def Alive (l : Layout) : Life → Prop :=
  Reachable (fun s => ∃ run, Reached l.freeList run ∧ Created l run.space run.root s)
    fun s op s' => Allowed l.freeList s op ∧ s' = exec l.freeList s op

def obtained (s : Life) : List Nat := s.space.tables ++ [s.proc.kernStack, s.proc.userStack]

def Returned (freeList : Nat) (s : Life) : Prop :=
  ∃ free, FreePages freeList (procDeinit freeList s.space.mem s.proc) free ∧ ∀ p ∈ obtained s, free.count p = 1

def Cycle (l : Layout) (m m' : Memory) : Prop :=
  ∃ space root s, vmCreatePageTable l.freeList ⟨m, []⟩ = (space, root) ∧ root ≠ nullptr ∧ Created l space root s ∧
    m' = procDeinit l.freeList s.space.mem s.proc

inductive Cycles (l : Layout) (m : Memory) : Nat → Memory → Prop
  | zero : Cycles l m 0 m
  | succ {n : Nat} {m₁ m₂ : Memory} (h : Cycles l m n m₁) (hc : Cycle l m₁ m₂) : Cycles l m (n + 1) m₂

structure Invariant (freeList : Nat) (s : Life) (free : List Nat) : Prop where
  mapped : ∃ tab leaf, Mapped freeList s.proc.pageTable s.space tab leaf free
  kernStack : Unused freeList s.space.tables free s.proc.kernStack
  userStack : Unused freeList s.space.tables free s.proc.userStack
  ne : s.proc.kernStack ≠ s.proc.userStack
  inner : ∃ t₁ ∈ s.space.tables, ∃ t₂ ∈ s.space.tables, t₁ ≠ s.proc.pageTable ∧ t₂ ≠ s.proc.pageTable ∧ t₁ ≠ t₂

variable {l : Layout} {freeList root n : Nat} {s s' : Life} {space : Space} {free : List Nat} {m m' : Memory}
  {tab : List Nat → Option Nat} {leaf : List Nat → Pte} {op : Op}

theorem created_grown (h : Created l space root s) (hm : Mapped l.freeList root space tab leaf free) :
    ∃ rest free', free = s.proc.kernStack :: s.proc.userStack :: rest ∧ free' <:+ rest ∧ Invariant l.freeList s free' ∧
      s.proc.pageTable = root ∧ ∀ t ∈ s.space.tables, t ∈ space.tables ∨ t ∈ rest := by
  obtain ⟨sstatus, fuel, s₀, s₁, ref, entry, flags, argc, argv, rfl, hflags, hrun, rfl, hinside⟩ := h.init
  have hpos : ¬ (0 : Int) < 0 := by decide
  obtain ⟨m, res, hinit, hres, ⟨-, hmap⟩ | ⟨hkern, -⟩⟩ := procInit_cases hrun hpos
  · have hlow := h.low
    generalize s₁.proc ref = proc at hinit hmap hlow ⊢
    generalize s₁.space = space₁ at hmap ⊢
    obtain ⟨hroot, rest, rfl⟩ := initStacks_pages hm.pages hinit hres
    obtain rfl : proc.pageTable = root := hroot
    obtain ⟨hm₁, hk, hu, hne⟩ := mapped_stacks hm (hinside _ _ _ hinit)
    obtain ⟨sp', res', tab', leaf', free', hrun', hg, hm', hcase⟩ := mapStacks_refines hm₁ hlow.1 hlow.2.1 hlow.2.2
    obtain ⟨rfl, rfl⟩ := Prod.mk.inj (hrun'.symm.trans hmap)
    have hleaf : leaf' (path proc.userStack) ≠ noPte := by
      rcases hcase with ⟨-, hleaf⟩ | ⟨hneg, -⟩
      · exact hleaf
      · exact absurd hneg hpos
    obtain ⟨t₁, t₂, ht₁, ht₂, hne₁, hne₂, hne₁₂⟩ := inner_tables hm'.tree hleaf
    refine ⟨rest, free', rfl, hg.suffix, ⟨⟨tab', leaf', hm'⟩, hg.unused hk, hg.unused hu, hne, ?_⟩, rfl, hg.new⟩
    exact ⟨t₁, (hm'.tables t₁).mpr ⟨_, ht₁⟩, t₂, (hm'.tables t₂).mpr ⟨_, ht₂⟩, hne₁, hne₂, hne₁₂⟩
  · exact absurd hflags hkern

theorem mapPage_invariant (h : Invariant freeList s free) {c : Call} (hc : c.virt < 2 ^ 39) :
    ∃ free', Invariant freeList (exec freeList s (.mapPage c)) free' := by
  obtain ⟨⟨tab, leaf, hm⟩, hk, hu, hne, t₁, ht₁, t₂, ht₂, hinner⟩ := h
  obtain ⟨s', res, tab', free', hrun, hg, hcase⟩ := mapPage_refines hm hc c.phys c.flags
  have hs : exec freeList s (.mapPage c) = ⟨s', s.proc⟩ := by
    rw [exec, hrun]
  rw [hs]
  refine ⟨free', ?_, hg.unused hk, hg.unused hu, hne, t₁, hg.tables t₁ ht₁, t₂, hg.tables t₂ ht₂, hinner⟩
  rcases hcase with ⟨-, -, hm'⟩ | ⟨-, -, hm'⟩
  · exact ⟨_, _, hm'⟩
  · exact ⟨_, _, hm'⟩

theorem other_invariant (h : Invariant freeList s free) (ha : Allowed freeList s (.other m)) :
    ∃ free', Invariant freeList (exec freeList s (.other m)) free' := by
  obtain ⟨⟨tab, leaf, hm⟩, hk, hu, hne, hinner⟩ := h
  obtain ⟨honly, free', hfree, hnew⟩ := ha.1
  obtain ⟨hk', hu'⟩ := ha.2 free' hfree
  refine ⟨free', ⟨tab, leaf, hm.tree.only honly fun p t ht => ?_, hm.tables, hfree, fun p hp => (hnew p hp).1,
    fun p hp => (hnew p hp).2, hm.off⟩, ⟨hk.frame, hk.tables, hk', hk.off⟩, ⟨hu.frame, hu.tables, hu', hu.off⟩, hne, hinner⟩
  apply Set.disjoint_compl_right_iff_subset.mpr
  exact fun x hx => ⟨t, (hm.tables t).mpr ⟨p, ht⟩, hx⟩

theorem alive_invariant (h : Alive l s) : ∃ free, Invariant l.freeList s free := by
  apply h.invariant
  · rintro s ⟨run, hrun, hc⟩
    obtain ⟨tab, free, hm⟩ := (reached_invariant hrun).mapped
    obtain ⟨rest, free', -, -, hi, -⟩ := created_grown hc hm
    exact ⟨free', hi⟩
  · rintro s op s' ⟨free, hi⟩ ⟨ha, rfl⟩
    cases op with
    | mapPage c => exact mapPage_invariant hi ha
    | other m => exact other_invariant hi ha

theorem procDeinit_pages (h : Invariant freeList s free) : FreePages freeList (procDeinit freeList s.space.mem s.proc)
    (free ++ [s.proc.userStack] ++ [s.proc.kernStack] ++ [s.proc.pageTable]) := by
  obtain ⟨⟨tab, leaf, hm⟩, hk, hu, hne, -⟩ := h
  have hroot : s.proc.pageTable ∈ s.space.tables := (hm.tables _).mpr ⟨[], hm.tree.root⟩
  obtain ⟨h₁, -⟩ := pageFree_refines hm.pages hu.frame.toPage hu.off hu.free
  obtain ⟨h₂, -⟩ := pageFree_refines h₁ hk.frame.toPage hk.off (by simp [hk.free, hne])
  refine (pageFree_refines h₂ (hm.tree.frame hm.tree.root).toPage (hm.off _ hroot) ?_).1
  simp only [List.mem_append, List.mem_singleton, not_or]
  refine ⟨⟨fun hin => hm.fresh _ hin hroot, fun he => hu.tables (he ▸ hroot)⟩, fun he => hk.tables (he ▸ hroot)⟩

/-- A table below the root is not one of them. -/
theorem inner_lost {free' : List Nat} (h : Invariant freeList s free)
    (hfree : FreePages freeList (procDeinit freeList s.space.mem s.proc) free') : ∃ t ∈ obtained s, t ∉ free' := by
  have hu := h.userStack
  have hk := h.kernStack
  obtain ⟨⟨tab, leaf, hm⟩, t, ht, -, -, hne, -⟩ := And.intro h.mapped h.inner
  obtain rfl := hfree.unique (procDeinit_pages h)
  refine ⟨t, List.mem_append_left _ ht, ?_⟩
  simp only [List.mem_append, List.mem_singleton, not_or]
  exact ⟨⟨⟨fun hin => hm.fresh t hin ht, fun he => hu.tables (he ▸ ht)⟩, fun he => hk.tables (he ▸ ht)⟩, hne⟩

theorem not_returned (h : Invariant freeList s free) : ¬ Returned freeList s := by
  rintro ⟨free', hfree, hcount⟩
  obtain ⟨t, ht, hnot⟩ := inner_lost h hfree
  have hone := hcount t ht
  rw [List.count_eq_zero_of_not_mem hnot] at hone
  cases hone

theorem inner_length {rest : List Nat} (h : Invariant freeList s free) (hsub : free ⊆ rest)
    (hnew : ∀ t ∈ s.space.tables, t ≠ s.proc.pageTable → t ∈ rest) : free.length + 2 ≤ rest.length := by
  obtain ⟨⟨tab, leaf, hm⟩, t₁, ht₁, t₂, ht₂, hne₁, hne₂, hne₁₂⟩ := And.intro h.mapped h.inner
  have hnodup : (t₁ :: t₂ :: free).Nodup := by
    refine List.nodup_cons.mpr ⟨?_, List.nodup_cons.mpr ⟨fun hin => hm.fresh t₂ hin ht₂, hm.pages.nodup⟩⟩
    rw [List.mem_cons, not_or]
    exact ⟨hne₁₂, fun hin => hm.fresh t₁ hin ht₁⟩
  have hall : t₁ :: t₂ :: free ⊆ rest :=
    List.cons_subset.mpr ⟨hnew t₁ ht₁ hne₁, List.cons_subset.mpr ⟨hnew t₂ ht₂ hne₂, hsub⟩⟩
  exact (List.Nodup.subperm hnodup hall).length_le

/-- Two pages or more are lost in each cycle. -/
theorem cycle_loses (h : Cycle l m m') (hp : FreePages l.freeList m free) (hf : ∀ p ∈ free, Frame p) :
    ∃ free', FreePages l.freeList m' free' ∧ (∀ p ∈ free', Frame p) ∧ free'.length + 2 ≤ free.length := by
  obtain ⟨space, root, s, hcreate, hroot, hc, rfl⟩ := h
  cases free with
  | nil =>
      rw [createPageTable_null (s := ⟨m, []⟩) hp] at hcreate
      exact absurd (congrArg Prod.snd hcreate).symm hroot
  | cons n free =>
      obtain ⟨m₁, hrun, hm, -⟩ := create_mapped hp hf
      obtain ⟨rfl, rfl⟩ := Prod.mk.inj (hrun.symm.trans hcreate)
      obtain ⟨rest, free', rfl, hsuffix, hi, hpt, hnew⟩ := created_grown hc hm
      refine ⟨_, procDeinit_pages hi, fun p hp => ?_, ?_⟩
      · simp only [List.mem_append, List.mem_singleton] at hp
        rcases hp with ((hp | rfl) | rfl) | rfl
        · exact hf p (by simp [hsuffix.subset hp])
        · exact hi.userStack.frame
        · exact hi.kernStack.frame
        · rw [hpt]
          exact hf _ List.mem_cons_self
      · have hlen : free'.length + 2 ≤ rest.length := by
          apply inner_length hi hsuffix.subset
          intro t ht hne
          rcases hnew t ht with hin | hin
          · exact absurd ((List.mem_singleton.mp hin).trans hpt.symm) hne
          · exact hin
        simp only [List.length_cons, List.length_append, List.length_nil]
        omega

theorem cycles_lose (h : Cycles l m n m') (hp : FreePages l.freeList m free) (hf : ∀ p ∈ free, Frame p) :
    ∃ free', FreePages l.freeList m' free' ∧ (∀ p ∈ free', Frame p) ∧ free'.length + 2 * n ≤ free.length := by
  induction h with
  | zero => exact ⟨free, hp, hf, Nat.le_refl _⟩
  | succ h hc ih =>
      obtain ⟨free₁, hp₁, hf₁, hlen₁⟩ := ih
      obtain ⟨free₂, hp₂, hf₂, hlen₂⟩ := cycle_loses hc hp₁ hf₁
      exact ⟨free₂, hp₂, hf₂, by omega⟩

section Boot

theorem created_exists {kernStack userStack : Nat} {rest : List Nat}
    (hm : Mapped l.freeList root space tab leaf (kernStack :: userStack :: rest)) (ht : l.trampoline < 2 ^ 39)
    (hk : kernStack < 2 ^ 39) (hu : userStack < 2 ^ 39) (hlen : 6 ≤ rest.length) : ∃ s, Created l space root s := by
  obtain ⟨m, s₁, hinit, hrun, hinside, hproc⟩ := procInit_exists { blank space.mem with space := space } .initProc
    hm ht hk hu hlen
  refine ⟨⟨s₁.space, s₁.proc .initProc⟩, ?_, 0, 0, _, s₁, .initProc, 0, 0, 0, nullptr, rfl, by decide, hrun 0, rfl, ?_⟩
  · rw [hproc]
    exact ⟨ht, hk, hu⟩
  · intro m' proc res h
    cases (hinit 0).symm.trans h
    rw [hproc]
    exact hinside

theorem boot_created : ∃ m free space root s, FreePages bootLayout.freeList m free ∧ (∀ p ∈ free, Frame p) ∧
    vmCreatePageTable bootLayout.freeList ⟨m, []⟩ = (space, root) ∧ root ≠ nullptr ∧ Created bootLayout space root s := by
  obtain ⟨m, root, kernStack, userStack, rest, m', tab, leaf, hm, hpages, hlen, hrun, hmapped⟩ := boot_mapped
  have hlow := fun p hp => (hpages p hp).2.2
  simp only [List.forall_mem_cons] at hlow
  have htrampoline : bootLayout.trampoline < 2 ^ 39 := by decide
  obtain ⟨s, hs⟩ := created_exists hmapped htrampoline hlow.2.1 hlow.2.2.1 hlen
  exact ⟨m, _, _, root, s, hm, fun p hp => (hpages p hp).1, hrun, Nat.ne_of_gt (hpages root List.mem_cons_self).1.pos, hs⟩

theorem created_alive (hm : FreePages l.freeList m free) (hf : ∀ p ∈ free, Frame p)
    (hrun : vmCreatePageTable l.freeList ⟨m, []⟩ = (space, root)) (hroot : root ≠ nullptr) (hs : Created l space root s) :
    Alive l s := .start ⟨⟨space, root, []⟩, .start ⟨⟨m, free, hm, hf, hrun⟩, hroot, rfl⟩, hs⟩

end Boot

/-- No process gets all its pages back to the free list, whatever happens before
its end, and each process that is created and ends costs two pages or more. -/
theorem teardown_leaks : (∀ s, Alive l s → ¬ Returned l.freeList s) ∧
    ∀ m free n m', FreePages l.freeList m free → (∀ p ∈ free, Frame p) → Cycles l m n m' →
      ∃ free', FreePages l.freeList m' free' ∧ free'.length + 2 * n ≤ free.length := by
  constructor
  · intro s h
    obtain ⟨free, hi⟩ := alive_invariant h
    exact not_returned hi
  · intro m free n m' hp hf h
    obtain ⟨free', hp', -, hlen⟩ := cycles_lose h hp hf
    exact ⟨free', hp', hlen⟩

theorem teardown_leaks_boot : (∃ s, Alive bootLayout s ∧ ¬ Returned bootLayout.freeList s) ∧
    ∃ m free m' free', FreePages bootLayout.freeList m free ∧ Cycles bootLayout m 1 m' ∧
      FreePages bootLayout.freeList m' free' ∧ free'.length + 2 ≤ free.length := by
  obtain ⟨m, free, space, root, s, hm, hframes, hrun, hroot, hs⟩ := boot_created
  have halive := created_alive hm hframes hrun hroot hs
  have hc : Cycles bootLayout m 1 (procDeinit bootLayout.freeList s.space.mem s.proc) :=
    .succ .zero ⟨space, root, s, hrun, hroot, hs, rfl⟩
  obtain ⟨free', hfree', hlen⟩ := teardown_leaks.2 m free 1 _ hm hframes hc
  exact ⟨⟨s, halive, teardown_leaks.1 s halive⟩, m, free, _, free', hm, hc, hfree', hlen⟩

/-- The first process of a machine that has started: when it ends at once, a table
below the root of its page table is not free, and two pages are missing. -/
theorem teardown_first : ∃ m free space root s free', FreePages bootLayout.freeList m free ∧
    vmCreatePageTable bootLayout.freeList ⟨m, []⟩ = (space, root) ∧ Created bootLayout space root s ∧
    Alive bootLayout s ∧ FreePages bootLayout.freeList (procDeinit bootLayout.freeList s.space.mem s.proc) free' ∧
    (∃ t ∈ obtained s, t ∉ free') ∧ free'.length + 2 ≤ free.length ∧ ¬ Returned bootLayout.freeList s := by
  obtain ⟨m, free, space, root, s, hm, hframes, hrun, hroot, hs⟩ := boot_created
  have halive := created_alive hm hframes hrun hroot hs
  obtain ⟨rest, hi⟩ := alive_invariant halive
  obtain ⟨free', hfree', -, hlen⟩ := cycle_loses ⟨space, root, s, hrun, hroot, hs, rfl⟩ hm hframes
  obtain ⟨t, ht, hnot⟩ := inner_lost hi hfree'
  exact ⟨m, free, space, root, s, free', hm, hrun, hs, halive, hfree', ⟨t, ht, hnot⟩, hlen, not_returned hi⟩

end Karg.Teardown
