import Karg.ProcInvariant

namespace Karg.WaitInvariant

open Process KernelModel QueueInvariant ProcInvariant

structure Waits (a : Model) : Prop where
  blocked (p : ProcRef) : a.live p → (a.procs p).state = .waitChild → a.resume p ≠ .user
  woken (p : ProcRef) : a.live p → a.resume p ≠ .user → (a.procs p).state ≠ .waitChild →
    ∃ z ∈ a.kin (.zombieChildren p), (a.procs p).procWaiting = some z

/-- From `a` to `b` processes are scheduled, and nothing else happens to them:
none exits and none enters or leaves `sys_wait`. -/
structure Quiet (a b : Model) : Prop where
  frame : (b.procTable, b.lastPid, b.allocated, b.kin, b.resume) =
    (a.procTable, a.lastPid, a.allocated, a.kin, a.resume)
  procs (p : ProcRef) : b.procs p = { a.procs p with state := (b.procs p).state }
  state (p : ProcRef) (state : ProcState) : state = .waitChild ∨ state = .zombie →
    ((b.procs p).state = state ↔ (a.procs p).state = state)

variable {a b c : Model} {p q parent : ProcRef} {state : ProcState}

theorem Quiet.of_procs_eq (hp : b.procs = a.procs)
    (hf : (b.procTable, b.lastPid, b.allocated, b.kin, b.resume) =
      (a.procTable, a.lastPid, a.allocated, a.kin, a.resume)) : Quiet a b :=
  ⟨hf, fun _ => by rw [hp], fun _ _ _ => by rw [hp]⟩

theorem Quiet.trans (h : Quiet a b) (h' : Quiet b c) : Quiet a c where
  frame := h'.frame.trans h.frame
  procs p := by rw [h'.procs p, h.procs p]
  state p state hs := (h'.state p state hs).trans (h.state p state hs)

theorem Quiet.live (h : Quiet a b) (p : ProcRef) : b.live p = a.live p := by
  have hf := h.frame
  simp only [Prod.mk.injEq] at hf
  exact Data.live_congr hf.2.2.1 p

theorem Quiet.waits (h : Quiet a b) (hw : Waits a) : Waits b := by
  have hf := h.frame
  simp only [Prod.mk.injEq] at hf
  obtain ⟨-, -, -, hkin, hres⟩ := hf
  constructor
  · intro p hp hs
    rw [hres]
    exact hw.blocked p (h.live p ▸ hp) ((h.state p _ (.inl rfl)).mp hs)
  · intro p hp hr hs
    rw [hkin, h.procs p]
    exact hw.woken p (h.live p ▸ hp) (hres ▸ hr) fun he => hs ((h.state p _ (.inl rfl)).mpr he)

/-- A process is given a state; neither the old nor the new one is that of a
process that waits for a child or is dead. -/
theorem Quiet.of_setState (hp : b.procs = (a.setState p state).procs)
    (hf : (b.procTable, b.lastPid, b.allocated, b.kin, b.resume) =
      (a.procTable, a.lastPid, a.allocated, a.kin, a.resume))
    (hold : (a.procs p).state ≠ .waitChild ∧ (a.procs p).state ≠ .zombie)
    (hnew : state ≠ .waitChild ∧ state ≠ .zombie) : Quiet a b := by
  refine ⟨hf, ?_, ?_⟩
  · intro q
    rw [hp]
    by_cases hq : q = p
    · subst hq; simp only [Data.setState, setProc_procs_self]
    · simp only [Data.setState, setProc_procs_ne _ _ hq]
  · rintro q s hs
    rw [hp, setState_state]
    by_cases hq : q = p
    · subst hq
      rw [if_pos rfl]
      rcases hs with rfl | rfl
      · exact ⟨fun h => absurd h hnew.1, fun h => absurd h hold.1⟩
      · exact ⟨fun h => absurd h hnew.2, fun h => absurd h hold.2⟩
    · rw [if_neg hq]

theorem quiet_dispatch (hr : ∀ q ∈ a.queue .readyQueue, (a.procs q).state = .ready) : Quiet a a.dispatch := by
  cases hq : a.queue .readyQueue with
  | nil =>
      simp only [Model.dispatch, hq]
      exact .of_procs_eq rfl rfl
  | cons p rest =>
      have hs := hr p (by rw [hq]; exact List.mem_cons_self)
      simp only [Model.dispatch, hq]
      exact .of_setState (p := p) rfl rfl (by simp [hs]) (by simp)

def Runs (a : Model) (p : ProcRef) : Prop :=
  (a.procs p).state = .curr ∧ ∀ q ∈ a.queue .readyQueue, (a.procs q).state = .ready

theorem runs_of_agree (ha : Agree a none) (hc : a.currProc = some p) : Runs a p :=
  ⟨((ha.curr p).mp hc).2.2, fun q hq => (ha.mem .readyQueue q hq).2.2⟩

theorem quiet_after (hr : Runs a p) (state : ProcState) :
    Quiet { a with toData := { a.setState p state with currProc := none } } (a.block p state) := by
  refine quiet_dispatch ?_
  intro q hq
  have hs := hr.2 q hq
  rw [setState_state, if_neg, hs]
  rintro rfl
  exact absurd (hr.1.symm.trans hs) (by simp)

theorem quiet_block (hr : Runs a p) (hs : state ≠ .waitChild ∧ state ≠ .zombie) : Quiet a (a.block p state) := by
  refine Quiet.trans ?_ (quiet_after hr state)
  exact .of_setState (p := p) rfl rfl (by simp [hr.1]) hs

theorem waits_setResume (hw : Waits a) (hs : (a.procs p).state ≠ .waitChild) :
    Waits { a with toData := a.setResume p .user } := by
  constructor
  · intro q hq hqs
    have hne : q ≠ p := fun he => hs (he ▸ hqs)
    simp only [Data.setResume, Function.update_of_ne hne]
    exact hw.blocked q hq hqs
  · intro q hq hr
    have hne : q ≠ p := by
      rintro rfl
      simp [Data.setResume] at hr
    simp only [Data.setResume, Function.update_of_ne hne] at hr
    exact hw.woken q hq hr

theorem block_waits (hw : Waits a) (hr : Runs a p) (status : Nat) :
    Waits (Model.block { a with toData := a.setResume p (.wait status) } p .waitChild) := by
  have hr' : Runs { a with toData := a.setResume p (.wait status) } p := hr
  refine (quiet_after hr' .waitChild).waits ?_
  constructor
  · intro q hq hs
    by_cases hqp : q = p
    · subst hqp; simp [Data.setState, Data.setProc, Data.setResume]
    · simp only [Data.setState, Data.setProc, Data.setResume, Function.update_of_ne hqp] at hs ⊢
      exact hw.blocked q hq hs
  · intro q hq hr hs
    have hqp : q ≠ p := by
      rintro rfl
      exact hs (by simp [Data.setState])
    simp only [Data.setState, Data.setProc, Data.setResume, Function.update_of_ne hqp] at hr hs ⊢
    exact hw.woken q hq hr hs

theorem zombie_waits (hw : Waits a) (hc : Runs a p) (hr : a.resume p = .user) : Waits (a.block p .zombie) := by
  refine (quiet_after hc .zombie).waits ?_
  constructor
  · intro q hq hs
    have hqp : q ≠ p := by
      rintro rfl
      simp [Data.setState] at hs
    simp only [Data.setState, setProc_procs_ne _ _ hqp] at hs
    exact hw.blocked q hq hs
  · intro q hq hr' hs
    have hqp : q ≠ p := by
      rintro rfl
      exact hr' hr
    simp only [Data.setState, setProc_procs_ne _ _ hqp] at hs ⊢
    exact hw.woken q hq hr' hs

theorem notify_waits (hw : Waits a) (hz : p ∈ a.kin (.zombieChildren parent)) : Waits (a.notify p parent) := by
  rw [Model.notify]
  split
  · next hs =>
    constructor
    · intro q hq hqs
      have hqp : q ≠ parent := by
        rintro rfl
        simp [Model.wake, Model.push, Data.setState] at hqs
      simp only [Model.wake, Model.push, Data.setState, setProc_procs_ne _ _ hqp] at hqs
      exact hw.blocked q hq hqs
    · intro q hq hr hqs
      by_cases hqp : q = parent
      · subst hqp
        exact ⟨p, hz, by simp [Model.wake, Model.push, Data.setState]⟩
      · simp only [Model.wake, Model.push, Data.setState, setProc_procs_ne _ _ hqp] at hqs ⊢
        exact hw.woken q hq hr hqs
  · exact hw

/-- The lists of dead children only grow, except for a process outside `sys_wait`. -/
theorem Waits.of_kin (hw : Waits a) (hr : b.resume = a.resume) (hl : ∀ q, b.live q → a.live q)
    (hs : ∀ q, (b.procs q).state = (a.procs q).state ∧ (b.procs q).procWaiting = (a.procs q).procWaiting)
    (hk : ∀ q, a.resume q ≠ .user → ∀ z ∈ a.kin (.zombieChildren q), z ∈ b.kin (.zombieChildren q)) :
    Waits b := by
  constructor
  · intro q hq hqs
    rw [hr]
    exact hw.blocked q (hl q hq) ((hs q).1 ▸ hqs)
  · intro q hq hqr hqs
    rw [hr] at hqr
    obtain ⟨z, hz, hp⟩ := hw.woken q (hl q hq) hqr ((hs q).1 ▸ hqs)
    exact ⟨z, hk q hqr z hz, (hs q).2.trans hp⟩

theorem adopt_waits (hw : Waits a) (hr : a.resume p = .user) {src dst : TreeNode} (init : ProcRef)
    (hs : src = .children p ∨ src = .zombieChildren p) : Waits (a.adopt src dst init) := by
  refine hw.of_kin rfl (fun _ hq => hq) ?_ ?_
  · intro q
    simp only [Model.adopt]
    split <;> exact ⟨rfl, rfl⟩
  · intro q hq z hz
    have hne : TreeNode.zombieChildren q ≠ src := by
      rcases hs with rfl | rfl
      · simp
      · intro he
        cases he
        exact hq hr
    simp only [Model.adopt, Function.update_of_ne hne]
    by_cases hd : TreeNode.zombieChildren q = dst
    · subst hd; rw [Function.update_self]; exact List.mem_append_left _ hz
    · rwa [Function.update_of_ne hd]

theorem bury_waits (hw : Waits a) (p parent : ProcRef) : Waits (a.bury p parent) := by
  refine hw.of_kin rfl (fun _ hq => hq) (fun q => ⟨rfl, rfl⟩) ?_
  intro q _ z hz
  simp only [Model.bury]
  have hne : TreeNode.zombieChildren q ≠ .children parent := by simp
  by_cases hd : TreeNode.zombieChildren q = .zombieChildren parent
  · cases hd
    rw [Function.update_self, Function.update_of_ne hne]
    exact List.mem_append_left _ hz
  · rwa [Function.update_of_ne hd, Function.update_of_ne hne]

theorem leave_waits (hw : Waits a) (hr : a.resume p = .user) (parent : ProcRef) (status : BitVec 32) :
    Waits (a.leave p parent status) := by
  have hb : Waits { a with toData := a.setProc p { a.procs p with exitStatus := status } } := by
    refine hw.of_kin rfl (fun _ hq => hq) (fun q => ?_) fun _ _ _ hz => hz
    by_cases hq : q = p
    · subst hq; simp
    · simp [setProc_procs_ne _ _ hq]
  exact bury_waits (adopt_waits (adopt_waits hb hr .initProc (.inl rfl)) hr .initProc (.inr rfl)) p parent

theorem mem_bury (a : Model) (p parent : ProcRef) : p ∈ (a.bury p parent).kin (.zombieChildren parent) := by
  simp only [Model.bury, Function.update_self]
  exact List.mem_append_right _ (List.mem_singleton_self p)

theorem reap_waits (hw : Waits a) (hr : a.resume p = .user) (addr : Nat) : Waits (a.reap p addr) := by
  refine hw.of_kin rfl (fun q hq => ((reap_live a p addr q).mp hq).2) (fun q => ⟨rfl, rfl⟩) ?_
  intro q hq z hz
  have hne : TreeNode.zombieChildren q ≠ .zombieChildren p := by
    intro he
    cases he
    exact hq hr
  simpa only [Model.reap, Function.update_of_ne hne] using hz

end Karg.WaitInvariant
