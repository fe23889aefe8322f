import Karg.KernelBoot
import Mathlib.Data.List.Nodup

namespace Karg.ProcessTree

open LinkStore CircularList Process ProcTable KernelRuns KernelModel TreeInvariant KernelInvariant KernelRefinement
  SyscallRefinement KernelSimulation KernelBoot

def ancestor (d : Data) : Nat → ProcRef → Option ProcRef
  | 0, p => some p
  | n + 1, p => (d.procs p).parent.bind (ancestor d n)

structure Lists (k : Kernel) (children zombieChildren : ProcRef → List ProcRef) : Prop where
  children (p : ProcRef) : k.live p → Circular k.tree (.children p) ((children p).map .treeNode)
  zombieChildren (p : ProcRef) : k.live p → Circular k.tree (.zombieChildren p) ((zombieChildren p).map .treeNode)

/-- The process table holds the live processes, those not yet reaped, and these
form a tree below the init process, beside the idle process. -/
structure WellFormed (k : Kernel) (children zombieChildren : ProcRef → List ProcRef) : Prop where
  table (pid : Nat) (p : ProcRef) : k.procTable pid = some p → k.live p ∧ (k.procs p).pid = pid
  entry (p : ProcRef) : k.live p → ∃ pid < procTableSize, k.procTable pid = some p
  idle : (k.procs .idleProc).pid = 0
  init : (k.procs .initProc).pid = 1
  parent (p : ProcRef) : k.live p → p ≠ .idleProc → p ≠ .initProc →
    ∃ q, (k.procs p).parent = some q ∧ k.live q ∧ (k.procs q).state ≠ .zombie ∧
      if (k.procs p).state = .zombie then (zombieChildren q).count p = 1 else (children q).count p = 1
  mem_children (p q : ProcRef) : k.live q → p ∈ children q →
    k.live p ∧ (k.procs p).parent = some q ∧ (k.procs p).state ≠ .zombie
  mem_zombieChildren (p q : ProcRef) : k.live q → p ∈ zombieChildren q →
    k.live p ∧ (k.procs p).parent = some q ∧ (k.procs p).state = .zombie
  childless (p : ProcRef) : k.live p → (k.procs p).state = .zombie → children p = [] ∧ zombieChildren p = []
  rooted (p : ProcRef) : k.live p → p ≠ .idleProc → ∃ n, ancestor k.toData n p = some .initProc

variable {k : Kernel} {a : Model} {p : ProcRef}

theorem lists_of_refines (h : Refines (Exist a.toData) k a) :
    Lists k (fun p => a.kin (.children p)) fun p => a.kin (.zombieChildren p) where
  children p hp := h.tree.circular (.children p) (show a.live p by rw [← h.data]; exact hp)
  zombieChildren p hp := h.tree.circular (.zombieChildren p) (show a.live p by rw [← h.data]; exact hp)

theorem Descends.ancestor {d : Data} {dead : ProcRef → Prop} (h : Descends d dead p) :
    ∃ n, ancestor d n p = some .initProc := by
  induction h with
  | init => exact ⟨0, rfl⟩
  | child hp _ _ _ ih =>
      obtain ⟨n, hn⟩ := ih
      exact ⟨n + 1, by rw [ProcessTree.ancestor, hp]; exact hn⟩

theorem Tree.childless (ht : Tree a (Zombie a)) (hz : Zombie a p) {g : TreeNode}
    (hg : g = .children p ∨ g = .zombieChildren p) : a.kin g = [] := by
  refine List.eq_nil_iff_forall_not_mem.mpr fun q hq => ?_
  obtain ⟨hl, hb⟩ := (ht.mem g q).mp hq
  have hpar : (a.procs q).parent = some p := by
    rcases hg with rfl | rfl <;> exact hb.1
  have hidle : q ≠ .idleProc := by
    rintro rfl
    exact absurd (ht.idle.2.1.symm.trans hpar) nofun
  have hinit : q ≠ .initProc := by
    rintro rfl
    exact absurd (ht.init.2.1.symm.trans hpar) nofun
  obtain ⟨p', hp', -, hd, -⟩ := ht.exists_parent hl hidle hinit
  exact hd (Option.some.inj (hp'.symm.trans hpar) ▸ hz)

theorem wellFormed_of_simulated (h : Simulated k a) :
    WellFormed k (fun p => a.kin (.children p)) fun p => a.kin (.zombieChildren p) := by
  have ht := h.invariant.tree
  have hd := h.refines.data
  constructor
  · rw [hd]; exact ht.table
  · rw [hd]; exact ht.entry
  · rw [hd]; exact ht.idle.1
  · rw [hd]; exact ht.init.1
  · intro p hp hidle hinit
    rw [hd] at hp ⊢
    obtain ⟨q, hq, hlq, hdq, -⟩ := ht.exists_parent hp hidle hinit
    refine ⟨q, hq, hlq, hdq, ?_⟩
    split
    · next hz => exact List.count_eq_one_of_mem (ht.nodup _) ((ht.mem _ p).mpr ⟨hp, hq, hz⟩)
    · next hz => exact List.count_eq_one_of_mem (ht.nodup _) ((ht.mem _ p).mpr ⟨hp, hq, hz⟩)
  · intro p q _ hp
    rw [hd]
    exact (ht.mem _ p).mp hp
  · intro p q _ hp
    rw [hd]
    exact (ht.mem _ p).mp hp
  · intro p _ hz
    rw [hd] at hz
    exact ⟨Tree.childless ht hz (.inl rfl), Tree.childless ht hz (.inr rfl)⟩
  · intro p hp hidle
    rw [hd] at hp ⊢
    exact Descends.ancestor (ht.descends p hp hidle)

/-- The process tree is well formed in every state that is reached. -/
theorem process_tree_wellFormed (h : Reached k) :
    ∃ children zombieChildren, Lists k children zombieChildren ∧ WellFormed k children zombieChildren := by
  obtain ⟨a, ha⟩ := reached_simulated h
  exact ⟨_, _, lists_of_refines ha.refines, wellFormed_of_simulated ha⟩

/-- The init process has created a process at the address 4096. -/
theorem process_tree_wellFormed_child : ∃ k, Reached k ∧ k.live (.heap 4096) ∧
    ∃ children zombieChildren, Lists k children zombieChildren ∧ WellFormed k children zombieChildren := by
  obtain ⟨k, hb, hs⟩ := booted_simulated
  obtain ⟨k', hstep, hs'⟩ := hs.realise (.proc .initProc 4096 2 ⟨rfl, by decide, rfl⟩ rfl rfl) trivial
  have hr : Reached k' := .next (.proc 4096, _) (.start hb) hstep
  exact ⟨k', hr, by rw [hs'.refines.data]; rfl, process_tree_wellFormed hr⟩

end Karg.ProcessTree
