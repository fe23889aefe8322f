import Karg.ProcessTree

namespace Karg.Adoption

open LinkStore CircularList ListNode Process Syscalls Execution KernelRuns KernelModel TreeInvariant KernelInvariant
  KernelRefinement ProcRefinement SyscallRefinement ExitRefinement KernelSimulation KernelBoot ProcessTree

/-- The loops come to an end. If the caller is not the process with pid 1, that
process now has the caller's children behind its own ones. -/
def Adopts (k : Kernel) (p : ProcRef) (status : BitVec 32) (children zombieChildren : ProcRef → List ProcRef) : Prop :=
  ∃ k', Converges (fun fuel => adoptAll fuel k p status) k' ∧ ((k.procs p).pid ≠ 1 →
    Circular k'.tree (.children p) [] ∧ Circular k'.tree (.zombieChildren p) [] ∧ ∃ init, k.procTable 1 = some init ∧
      Circular k'.tree (.children init) ((children init ++ children p).map .treeNode) ∧
      Circular k'.tree (.zombieChildren init) ((zombieChildren init ++ zombieChildren p).map .treeNode) ∧
      (∀ q ∈ children p, (k'.procs q).state ≠ .zombie) ∧ ∀ q ∈ zombieChildren p, (k'.procs q).state = .zombie)

variable {k : Kernel} {a : Model} {E : TimerRef → Prop} {p : ProcRef} {list : ProcRef → TreeNode} {status : BitVec 32}

/-- The loop of the process with pid 1 takes each child off its list and puts it
back at the end. -/
theorem adoptLoop_rotates (h : Refines E k a) (hp : E (.proc p)) (hone : a.procTable 1 = some p)
    (hk : ∀ q ∈ a.kin (list p), Kind a list q) (hl : list = .children ∨ list = .zombieChildren)
    (hne : a.kin (list p) ≠ []) (fuel : Nat) : adoptLoop list p fuel k = none := by
  have hs : TreeHead E (list p) := by
    rcases hl with rfl | rfl <;> exact hp
  induction fuel generalizing k a with
  | zero => rfl
  | succ fuel ih =>
      obtain ⟨x, xs, hxs⟩ := List.exists_cons_of_ne_nil hne
      have hx := hk x (hxs ▸ List.mem_cons_self)
      have h₁ := procAdopt_refines h hs hp hxs hx
      have hkin : (adoptFirst a (list p) (list p) p x xs).kin (list p) = xs ++ [x] := by
        simp only [adoptFirst, Function.update_self]
      have hkind : ∀ q ∈ (adoptFirst a (list p) (list p) p x xs).kin (list p),
          Kind (adoptFirst a (list p) (list p) p x xs) list q := by
        intro q hq
        rw [Kind, adoptFirst_state]
        apply hk q
        rw [hkin] at hq
        rw [hxs]
        simpa [or_comm] using hq
      have hrest := ih h₁ hone hkind (by simp [hkin])
      rwa [adoptLoop_cons h hs hone hxs]

theorem disown_init (a : Model) (hp : p ≠ .initProc) (status : BitVec 32) :
    (a.disown p status).kin (.children .initProc) = a.kin (.children .initProc) ++ a.kin (.children p) ∧
      (a.disown p status).kin (.zombieChildren .initProc) =
        a.kin (.zombieChildren .initProc) ++ a.kin (.zombieChildren p) := by
  simp [Model.disown, Model.adopt, hp.symm]

theorem pid_one (hi : Invariant a) (hl : a.live p) : (a.procs p).pid = 1 ↔ p = .initProc := by
  constructor
  · intro hpid
    obtain ⟨pid, -, he⟩ := hi.tree.entry p hl
    have hp := (hi.tree.table pid p he).2
    obtain rfl : pid = 1 := by omega
    exact Option.some.inj (he.symm.trans (init_entry hi))
  · rintro rfl
    exact hi.tree.init.1

theorem adopts_of_ne (ha : Simulated k a) (hl : a.live p) (hp : p ≠ .initProc) :
    Adopts k p status (fun q => a.kin (.children q)) fun q => a.kin (.zombieChildren q) := by
  obtain ⟨k₂, hrun, h₂⟩ := disown_refines ha.refines ha.invariant hl hp status
  have htree := ha.invariant.tree
  have hcirc : ∀ g, TreeHead (Exist a.toData) g → Circular k₂.tree g (((a.disown p status).kin g).map .treeNode) :=
    h₂.tree.circular
  have hstate : ∀ q, (k₂.procs q).state = (a.procs q).state := by
    intro q
    rw [h₂.state_eq]
    exact leave_state a p p q status
  refine ⟨k₂, hrun, fun _ => ⟨?_, ?_, .initProc, ?_, ?_, ?_, ?_, ?_⟩⟩
  · have hc := hcirc (.children p) hl
    rwa [(disown_kin a p status).1] at hc
  · have hc := hcirc (.zombieChildren p) hl
    rwa [(disown_kin a p status).2] at hc
  · rw [ha.refines.data]
    exact init_entry ha.invariant
  · rw [← (disown_init a hp status).1]
    exact hcirc (.children .initProc) rfl
  · rw [← (disown_init a hp status).2]
    exact hcirc (.zombieChildren .initProc) rfl
  · intro q hq
    rw [hstate]
    exact ((htree.mem _ q).mp hq).2.2
  · intro q hq
    rw [hstate]
    exact ((htree.mem _ q).mp hq).2.2

theorem adoptAll_init (ha : Simulated k a) (status : BitVec 32) (fuel : Nat) : adoptAll (fuel + 1) k .initProc status =
    if a.kin (.children .initProc) = [] ∧ a.kin (.zombieChildren .initProc) = [] then
      some { k with toData := k.setProc .initProc { k.procs .initProc with exitStatus := status } }
    else none := by
  have htree := ha.invariant.tree
  have hone := init_entry ha.invariant
  have h₀ := ha.refines.setData (d := a.setProc .initProc { a.procs .initProc with exitStatus := status }) rfl
  have hchild : ∀ q ∈ a.kin (.children .initProc),
      Kind { a with toData := a.setProc .initProc { a.procs .initProc with exitStatus := status } } .children q :=
    fun q hq => .inl ⟨rfl, (setExit_state a .initProc q status).symm ▸ ((htree.mem _ q).mp hq).2.2⟩
  have hzombie : ∀ q ∈ a.kin (.zombieChildren .initProc),
      Kind { a with toData := a.setProc .initProc { a.procs .initProc with exitStatus := status } } .zombieChildren q :=
    fun q hq => .inr ⟨rfl, (setExit_state a .initProc q status).trans ((htree.mem _ q).mp hq).2.2⟩
  rw [adoptAll, ha.refines.data]
  by_cases hc : a.kin (.children .initProc) = []
  · have hdone := adoptLoop_done (p := .initProc) h₀ .children rfl hc fuel
    by_cases hz : a.kin (.zombieChildren .initProc) = []
    · have hdone' := adoptLoop_done (p := .initProc) h₀ .zombieChildren rfl hz fuel
      rw [if_pos ⟨hc, hz⟩]
      simp only [hdone, hdone', Option.bind_eq_bind, Option.bind_some]
    · have hloop := adoptLoop_rotates (p := .initProc) h₀ rfl hone hzombie (.inr rfl) hz (fuel + 1)
      rw [if_neg fun h => hz h.2]
      simp only [hdone, hloop, Option.bind_eq_bind, Option.bind_some]
  · have hloop := adoptLoop_rotates (p := .initProc) h₀ rfl hone hchild (.inl rfl) hc (fuel + 1)
    rw [if_neg fun h => hc h.1]
    simp only [hloop, Option.bind_eq_bind, Option.bind_none]

/-- The loops of `sys_exit` end and hand over the children for every caller but the
process with pid 1, and for that one just if it has no child at all. -/
theorem adoption (h : Reached k) (hc : Calls k.toData p) (status : BitVec 32) :
    ∃ children zombieChildren, Lists k children zombieChildren ∧
      (Adopts k p status children zombieChildren ↔
        (k.procs p).pid ≠ 1 ∨ children p = [] ∧ zombieChildren p = []) := by
  obtain ⟨a, ha⟩ := reached_simulated h
  refine ⟨_, _, lists_of_refines ha.refines, ?_⟩
  rw [ha.refines.data] at hc
  have hl := ha.invariant.curr_live hc.1
  have hpid : (k.procs p).pid = 1 ↔ p = .initProc := by
    rw [ha.refines.data]
    exact pid_one ha.invariant hl
  by_cases hp : p = .initProc
  · subst hp
    rw [or_iff_right (not_not.mpr (hpid.mpr rfl))]
    constructor
    · rintro ⟨k', ⟨n, hn⟩, -⟩
      by_contra hno
      have hnone := adoptAll_init ha status n
      rw [if_neg hno] at hnone
      cases (hn (n + 1) (Nat.le_succ n)).symm.trans hnone
    · intro hnil
      refine ⟨{ k with toData := k.setProc .initProc { k.procs .initProc with exitStatus := status } },
        ⟨1, fun fuel hfuel => ?_⟩, fun hne => absurd (hpid.mpr rfl) hne⟩
      obtain ⟨fuel, rfl⟩ := Nat.exists_eq_add_of_le' hfuel
      exact (adoptAll_init ha status fuel).trans (if_pos hnil)
  · exact iff_of_true (adopts_of_ne ha hl hp) (.inl fun h => hp (hpid.mp h))

/-- A process created by the init process has created one itself and exits. -/
theorem adoption_grandchild : ∃ k, Reached k ∧ Calls k.toData (.heap 1) ∧ ∃ children zombieChildren,
    Lists k children zombieChildren ∧ Adopts k (.heap 1) 0 children zombieChildren := by
  obtain ⟨k₀, hb, h₀⟩ := booted_simulated
  obtain ⟨k₁, hs₁, h₁⟩ := h₀.realise (.proc .initProc 1 2 ⟨rfl, by decide, rfl⟩ rfl rfl) trivial
  obtain ⟨k₂, hs₂, h₂⟩ := h₁.realise (.waitBlock .initProc 0 ⟨rfl, by decide, rfl⟩ nofun rfl) trivial
  obtain ⟨k₃, hs₃, h₃⟩ := h₂.realise (.proc (.heap 1) 2 3 ⟨rfl, by decide, rfl⟩ rfl rfl) trivial
  have hr : Reached k₃ :=
    .next (.proc 2, _) (.next (.wait 0, _) (.next (.proc 1, _) (.start hb) hs₁) hs₂) hs₃
  have hc : Calls k₃.toData (.heap 1) := by
    rw [h₃.refines.data]
    exact ⟨rfl, by decide, rfl⟩
  have hpid : (k₃.procs (.heap 1)).pid ≠ 1 := by
    rw [h₃.refines.data]
    decide
  obtain ⟨children, zombieChildren, hl, hiff⟩ := adoption hr hc 0
  exact ⟨k₃, hr, hc, children, zombieChildren, hl, hiff.mpr (.inl hpid)⟩

/-- The init process creates a process and exits. The loop over its children never
ends, and `sys_exit` does not return. -/
theorem adoption_init : ∃ k, Reached k ∧ Calls k.toData .initProc ∧ (k.procs .initProc).pid = 1 ∧
    Circular k.tree (.children .initProc) [.treeNode (.heap 1)] ∧
    (∀ fuel, adoptAll fuel k .initProc 0 = none) ∧ ∀ fuel, sysExit fuel k 0 = none := by
  obtain ⟨k₀, hb, h₀⟩ := booted_simulated
  obtain ⟨k, hs, h⟩ := h₀.realise (.proc .initProc 1 2 ⟨rfl, by decide, rfl⟩ rfl rfl) trivial
  have hr : Reached k := .next (.proc 1, _) (.start hb) hs
  have hc : Calls k.toData .initProc := by
    rw [h.refines.data]
    exact ⟨rfl, by decide, rfl⟩
  have hloop : ∀ fuel, adoptAll fuel k .initProc 0 = none := by
    intro fuel
    cases fuel with
    | zero => rfl
    | succ fuel =>
        rw [adoptAll_init h]
        exact if_neg fun hnil => absurd hnil.1 (List.cons_ne_nil _ _)
  refine ⟨k, hr, hc, ?_, h.refines.tree.circular (.children .initProc) rfl, hloop, fun fuel => ?_⟩
  · rw [h.refines.data]
    rfl
  · simp only [sysExit, sysExitLeave, hc.1, hloop fuel, Option.bind_eq_bind, Option.bind_some, Option.bind_none]

end Karg.Adoption
