import Karg.VmRefinement

namespace Karg.PageTableMap

open ByteMemory KernelMemory PageAlloc Vm TableTree VmRefinement Execution

structure Call where
  virt : Nat
  phys : Nat
  flags : UInt32

/-- A page table with a record of the calls of `vm_map_page` that have succeeded,
the latest one first. -/
structure Run where
  space : Space
  root : Nat
  calls : List Call

inductive Op
  | mapPage (c : Call)
  | other (mem : Memory)

def exec (freeList : Nat) (s : Run) : Op → Run
  | .mapPage c =>
      let (space, res) := vmMapPage freeList s.space s.root c.virt c.phys c.flags
      { s with space := space, calls := if res = 0 then c :: s.calls else s.calls }
  | .other mem => { s with space := { s.space with mem := mem } }

/-- What other code may do: use the page allocator, which hands out no page in
use as a table, and write to memory that is not of the tables. -/
structure Elsewhere (freeList : Nat) (s : Space) (mem : Memory) : Prop where
  only : Only { x | ∃ t ∈ s.tables, x ∈ place t pageSize }ᶜ s.mem mem
  free : ∃ free, FreePages freeList mem free ∧ ∀ p ∈ free, Frame p ∧ p ∉ s.tables

def Allowed (freeList : Nat) (s : Run) : Op → Prop
  | .mapPage c => c.virt < 2 ^ 39
  | .other mem => Elsewhere freeList s.space mem

def Step (freeList : Nat) (s : Run) (op : Op) (s' : Run) : Prop := Allowed freeList s op ∧ s' = exec freeList s op

structure Start (freeList : Nat) (s : Run) : Prop where
  created : ∃ m free, FreePages freeList m free ∧ (∀ p ∈ free, Frame p) ∧
    vmCreatePageTable freeList ⟨m, []⟩ = (s.space, s.root)
  root : s.root ≠ nullptr
  calls : s.calls = []

def Reached (freeList : Nat) : Run → Prop := Reachable (Start freeList) (Step freeList)

def lastCall (calls : List Call) (virt : Nat) : Option Call :=
  calls.find? fun c => c.virt / pageSize = virt / pageSize

def translate (calls : List Call) (virt : Nat) : Option Nat :=
  (lastCall calls virt).map fun c => c.phys + virt % pageSize

def leafOf (calls : List Call) : List Nat → Pte :=
  calls.foldr (fun c leaf => mapLeaf leaf c.virt c.phys c.flags) fun _ => noPte

structure Invariant (freeList : Nat) (s : Run) : Prop where
  mapped : ∃ tab free, Mapped freeList s.root s.space tab (leafOf s.calls) free
  virt (c : Call) : c ∈ s.calls → c.virt < 2 ^ 39

variable {freeList v virt : Nat} {s s' : Run} {op : Op} {m : Memory} {calls : List Call} {leaf : List Nat → Pte}

theorem target_mapLeaf (leaf : List Nat → Pte) (hv : v < 2 ^ 39) (hw : virt < 2 ^ 39) (phys : Nat) (fl : UInt32) :
    target (mapLeaf leaf virt phys fl (path v)) v =
      if v / pageSize = virt / pageSize then some (phys / pageSize % 2 ^ 44 * pageSize + v % pageSize)
      else target (leaf (path v)) v := by
  by_cases he : v / pageSize = virt / pageSize
  · rw [if_pos he, mapLeaf, (path_eq_iff hv hw).mpr he, Function.update_self, target,
      if_neg (or_pteFlags_valid _ fl)]
  · rw [if_neg he, mapLeaf, Function.update_of_ne fun hp => he ((path_eq_iff hv hw).mp hp)]

theorem page_of_aligned {phys : Nat} (ha : phys % pageSize = 0) (hlt : phys < 2 ^ 56) :
    phys / pageSize % 2 ^ 44 * pageSize = phys := by
  rw [pageSize] at ha ⊢
  omega

theorem translate_cons (c : Call) (calls : List Call) (v : Nat) : translate (c :: calls) v =
    if v / pageSize = c.virt / pageSize then some (c.phys + v % pageSize) else translate calls v := by
  by_cases he : v / pageSize = c.virt / pageSize
  · simp [translate, lastCall, he]
  · simp [translate, lastCall, he, Ne.symm he]

theorem target_leafOf (hcalls : ∀ c ∈ calls, c.virt < 2 ^ 39)
    (hp : ∀ c ∈ calls, c.phys % pageSize = 0 ∧ c.phys < 2 ^ 56) (hv : v < 2 ^ 39) :
    target (leafOf calls (path v)) v = translate calls v := by
  induction calls with
  | nil => exact if_pos (show noPte.flags &&& pteFlagV = 0 by decide)
  | cons c calls ih =>
      obtain ⟨hc, hcalls⟩ := List.forall_mem_cons.mp hcalls
      obtain ⟨⟨ha, hlt⟩, hp⟩ := List.forall_mem_cons.mp hp
      have hstep := target_mapLeaf (leafOf calls) hv hc c.phys c.flags
      rw [page_of_aligned ha hlt, ih hcalls hp, ← translate_cons] at hstep
      exact hstep

theorem leafOf_none (hv : v < 2 ^ 39) (h : ∀ c ∈ calls, c.virt < 2 ^ 39 ∧ v / pageSize ≠ c.virt / pageSize) :
    leafOf calls (path v) = noPte := by
  induction calls with
  | nil => rfl
  | cons c calls ih =>
      obtain ⟨⟨hc, hne⟩, hrest⟩ := List.forall_mem_cons.mp h
      have hpath : path v ≠ path c.virt := fun he => hne ((path_eq_iff hv hc).mp he)
      exact (Function.update_of_ne hpath ..).trans (ih hrest)

theorem leafOf_mem (hcalls : ∀ c ∈ calls, c.virt < 2 ^ 39)
    (hp : calls.Pairwise fun c d => c.virt / pageSize ≠ d.virt / pageSize) {c : Call} (hc : c ∈ calls) :
    leafOf calls (path c.virt) = ⟨pteFlags c.flags, c.phys / pageSize % 2 ^ 44⟩ := by
  induction calls with
  | nil => cases hc
  | cons d calls ih =>
      obtain ⟨hd, hrest⟩ := List.forall_mem_cons.mp hcalls
      obtain ⟨hdp, hp⟩ := List.pairwise_cons.mp hp
      rcases List.mem_cons.mp hc with rfl | hc
      · have hnone := leafOf_none hd fun e he => ⟨hrest e he, hdp e he⟩
        refine (Function.update_self ..).trans ?_
        show Pte.mk ((leafOf calls (path c.virt)).flags ||| _) _ = _
        rw [hnone, noPte, UInt8.zero_or]
      · have hpath : path c.virt ≠ path d.virt := fun he => hdp c hc ((path_eq_iff (hrest c hc) hd).mp he).symm
        exact (Function.update_of_ne hpath ..).trans (ih hrest hp hc)

theorem start_invariant (h : Start freeList s) : Invariant freeList s := by
  obtain ⟨m, free, hfree, hframes, hrun⟩ := h.created
  refine ⟨?_, by rw [h.calls]; simp⟩
  cases free with
  | nil =>
      rw [createPageTable_null (s := ⟨m, []⟩) hfree] at hrun
      exact absurd (congrArg Prod.snd hrun).symm h.root
  | cons n free =>
      obtain ⟨m', hrun', hm, -⟩ := create_mapped hfree hframes
      rw [hrun'] at hrun
      obtain ⟨hs, hroot⟩ := Prod.mk.inj hrun
      rw [← hs, ← hroot, h.calls]
      exact ⟨_, free, hm⟩

theorem mapPage_invariant (h : Invariant freeList s) {c : Call} (hc : c.virt < 2 ^ 39) :
    Invariant freeList (exec freeList s (.mapPage c)) := by
  obtain ⟨tab, free, hm⟩ := h.mapped
  obtain ⟨s', res, tab', free', hrun, -, ⟨rfl, -, hm'⟩ | ⟨rfl, -, hm'⟩⟩ := mapPage_refines hm hc c.phys c.flags
  · simp only [exec, hrun, if_true]
    exact ⟨⟨tab', free', hm'⟩, List.forall_mem_cons.mpr ⟨hc, h.virt⟩⟩
  · simp only [exec, hrun, if_neg (show ¬ -enomem = 0 by decide)]
    exact ⟨⟨tab', free', hm'⟩, h.virt⟩

theorem other_invariant (h : Invariant freeList s) (he : Elsewhere freeList s.space m) :
    Invariant freeList (exec freeList s (.other m)) := by
  obtain ⟨tab, free, hm⟩ := h.mapped
  obtain ⟨free', hfree, hnew⟩ := he.free
  refine ⟨⟨tab, free', hm.tree.only he.only ?_, hm.tables, hfree, fun p hp => (hnew p hp).1,
    fun p hp => (hnew p hp).2, hm.off⟩, h.virt⟩
  intro p t ht
  apply Set.disjoint_compl_right_iff_subset.mpr
  exact fun x hx => ⟨t, (hm.tables t).mpr ⟨p, ht⟩, hx⟩

theorem exec_invariant (h : Invariant freeList s) (ha : Allowed freeList s op) :
    Invariant freeList (exec freeList s op) := by
  cases op with
  | mapPage c => exact mapPage_invariant h ha
  | other m => exact other_invariant h ha

theorem reached_invariant (h : Reached freeList s) : Invariant freeList s := by
  apply h.invariant fun s => start_invariant
  intro s op s' hi hs
  rw [hs.2]
  exact exec_invariant hi hs.1

theorem reached_exec (h : Reached freeList s) (ha : Allowed freeList s op) : Reached freeList (exec freeList s op) :=
  .next op h ⟨ha, rfl⟩

theorem reached_walk (h : Reached freeList s) (hp : ∀ c ∈ s.calls, c.phys % pageSize = 0 ∧ c.phys < 2 ^ 56)
    (hv : v < 2 ^ 39) : walk s.space.mem s.root v = translate s.calls v := by
  have hi := reached_invariant h
  obtain ⟨tab, free, hm⟩ := hi.mapped
  rw [hm.tree.walk hv]
  exact target_leafOf hi.virt hp hv

/-- In every state of a run the walk follows the map that the successful calls
describe. The next call changes it at its own page only, and not at all if it
fails. -/
theorem page_table_map (h : Reached freeList s) (hp : ∀ c ∈ s.calls, c.phys % pageSize = 0 ∧ c.phys < 2 ^ 56) :
    (∀ v < 2 ^ 39, walk s.space.mem s.root v = translate s.calls v) ∧
      ∀ c : Call, c.virt < 2 ^ 39 → c.phys % pageSize = 0 → c.phys < 2 ^ 56 → ∃ s' res,
        vmMapPage freeList s.space s.root c.virt c.phys c.flags = (s', res) ∧
        (res = 0 ∧ (∀ v < 2 ^ 39, walk s'.mem s.root v =
            if v / pageSize = c.virt / pageSize then some (c.phys + v % pageSize) else walk s.space.mem s.root v) ∨
          res = -enomem ∧ ∀ v < 2 ^ 39, walk s'.mem s.root v = walk s.space.mem s.root v) := by
  obtain ⟨tab, free, hm⟩ := (reached_invariant h).mapped
  have hwalk : ∀ v < 2 ^ 39, walk s.space.mem s.root v = target (leafOf s.calls (path v)) v :=
    fun v hv => hm.tree.walk hv
  refine ⟨fun v hv => reached_walk h hp hv, fun c hc ha hlt => ?_⟩
  obtain ⟨s', res, tab', free', hrun, -, ⟨hres, -, hm'⟩ | ⟨hres, -, hm'⟩⟩ := mapPage_refines hm hc c.phys c.flags
  · refine ⟨s', res, hrun, .inl ⟨hres, fun v hv => ?_⟩⟩
    rw [hm'.tree.walk hv, target_mapLeaf _ hv hc, page_of_aligned ha hlt, hwalk v hv]
  · refine ⟨s', res, hrun, .inr ⟨hres, fun v hv => ?_⟩⟩
    rw [hm'.tree.walk hv, hwalk v hv]

section Boot

theorem heap_frame {heapStart p : Nat} (hr : Region freeList heapStart) (hlt : heapStart + kheapSize < 2 ^ 44)
    (hp : p ∈ heapPages heapStart) : Frame p := by
  refine ⟨(hr.page hp).1, ?_⟩
  obtain ⟨i, hi, rfl⟩ := mem_heapPages.mp hp
  simp only [pageSize, kheapSize] at hi hlt ⊢
  omega

theorem start_of_init {heapStart : Nat} (hr : Region freeList heapStart) (hlt : heapStart + kheapSize < 2 ^ 44) :
    ∃ s, Start freeList s ∧ ∃ tab free, Mapped freeList s.root s.space tab (leafOf s.calls) free ∧ 4 ≤ free.length := by
  obtain ⟨hf, -⟩ := Ring.initHead ⟨fun _ => 0⟩ hr.head_lt
  obtain ⟨m, -, hpages, -⟩ := init_refines hr hf
  have hframes := fun p hp => heap_frame hr hlt (p := p) hp
  have hlen : (heapPages heapStart).length = kheapSize / pageSize := by simp [heapPages]
  rw [heapPages_cons] at hpages hframes
  obtain ⟨m', hrun, hm, -⟩ := create_mapped hpages hframes
  have hne : heapStart ≠ nullptr := Nat.ne_of_gt hr.pos
  refine ⟨⟨⟨m', [heapStart]⟩, heapStart, []⟩, ⟨⟨m, _, hpages, hframes, hrun⟩, hne, rfl⟩, _, _, hm, ?_⟩
  rw [List.length_map, List.length_range]
  decide

theorem mapped_call {c : Call} (hv : c.virt < 2 ^ 39) : ∃ s, Reached 0x80300010 s ∧ s.calls = [c] := by
  obtain ⟨s, hs, tab, free, hm, hlen⟩ := start_of_init boot_region (by decide)
  have hcalls := hs.calls
  refine ⟨exec 0x80300010 s (.mapPage c), reached_exec (.start hs) hv, ?_⟩
  obtain ⟨s', res, tab', free', hrun, -, ⟨rfl, -⟩ | ⟨-, hlt, -⟩⟩ := mapPage_refines hm hv c.phys c.flags
  · simp only [exec, hrun, if_true, hcalls]
  · omega

theorem mapped_page : ∃ s, Reached 0x80300010 s ∧ s.calls = [⟨0x1000, 0x80800000, vmFlagReadable⟩] ∧
    ∀ c ∈ s.calls, c.phys % pageSize = 0 ∧ c.phys < 2 ^ 56 := by
  obtain ⟨s, hs, hcalls⟩ := mapped_call (c := ⟨0x1000, 0x80800000, vmFlagReadable⟩) (by decide)
  refine ⟨s, hs, hcalls, ?_⟩
  rw [hcalls]
  decide

end Boot

/-- The walk of the address 0x1234 after a call for its page. -/
theorem page_table_map_page : ∃ s, Reached 0x80300010 s ∧ walk s.space.mem s.root 0x1234 = some 0x80800234 ∧
    walk s.space.mem s.root 0x2000 = none := by
  obtain ⟨s, hs, hcalls, hp⟩ := mapped_page
  obtain ⟨hwalk, -⟩ := page_table_map hs hp
  rw [hcalls] at hwalk
  exact ⟨s, hs, (hwalk 0x1234 (by decide)).trans rfl, (hwalk 0x2000 (by decide)).trans rfl⟩

end Karg.PageTableMap
