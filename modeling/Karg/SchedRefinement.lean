import Karg.KernelRefinement

namespace Karg.SchedRefinement

open LinkStore ListNode TimerService TimerQueue Process Sched KernelModel KernelRefinement

variable {E : TimerRef → Prop} {k : Kernel} {a : Model} {p q : ProcRef} {state : ProcState} {r : List ProcRef}

structure Loose (E : TimerRef → Prop) (a : Model) (p : ProcRef) : Prop where
  not_ready : (a.procs p).state ≠ .ready
  asleep : (a.procs p).state = .sleep → E (.proc p) ∧ .proc p ∉ a.sleepers
  not_mem (g : QueueNode) : QueueHead a.toData g → p ∉ a.queue g

theorem leaveState_refines (h : Refines E k a) (hp : Loose E a p) : Refines E (leaveState k p) a := by
  have hs := h.state_eq p
  rw [leaveState]
  split
  · next he => exact absurd (hs.symm.trans he) hp.not_ready
  · next he =>
    obtain ⟨hE, hm⟩ := hp.asleep (hs.symm.trans he)
    obtain ⟨hh, ht, hf, -⟩ := timerCancel_holds h.timers hE
    rw [List.erase_of_not_mem hm] at hh
    exact ⟨h.data, h.queues, h.tree, hh, ht.trans h.timer, hf.trans h.timerFreq⟩
  · exact h

theorem leaveState_toData (k : Kernel) (p : ProcRef) : (leaveState k p).toData = k.toData := by
  rw [leaveState]
  split <;> rfl

theorem updateState_ready_refines (h : Refines E k a) (hp : Loose E a p) :
    ∃ k', schedUpdateState k p .ready = some k' ∧ Refines E k' (a.wake p) := by
  have hs : (k.procs p).state ≠ .ready := h.state_eq p ▸ hp.not_ready
  rw [schedUpdateState, updateState, if_neg hs]
  refine ⟨_, rfl, ?_⟩
  have hl := (leaveState_refines h hp).setData (d := a.setState p .ready) rfl
  have hd : (leaveState k p).toData = a.toData := (leaveState_toData k p).trans h.data
  simp only [hd]
  exact hl.pushFront (g := .readyQueue) trivial hp.not_mem

theorem schedPick_refines (h : Refines E k a) (hq : a.queue .readyQueue = p :: r)
    (hp : (a.procs p).state = .ready) : ∃ k', schedPick k = some k' ∧ Refines E k' a.dispatch := by
  have hf : listFront k.queues .readyQueue = .node p := by
    rw [h.front (g := .readyQueue) trivial, hq]
    rfl
  have hs : (k.procs p).state = .ready := (h.state_eq p).trans hp
  have hl : leaveState k p = { k with queues := listRemove k.queues (.node p) } := by
    rw [leaveState, hs]
  refine ⟨{ k with
    toData := { k.setState p .curr with currProc := some p }
    queues := listRemove k.queues (.node p) }, ?_, ?_⟩
  · rw [schedPick_eq, hf]
    show schedUpdateState k p .curr = _
    rw [schedUpdateState, updateState, if_neg (by simp [hs]), hl]
    rfl
  · simp only [Model.dispatch, hq, h.data]
    exact (h.removeFront (g := .readyQueue) trivial hq).setData (d := { a.setState p .curr with currProc := some p }) rfl

theorem schedResched_blocked (h : Refines E k a) (hc : ∀ c, a.currProc = some c → (a.procs c).state ≠ .curr)
    (hq : a.queue .readyQueue = p :: r) (hp : (a.procs p).state = .ready) :
    ∃ k', schedResched k = some k' ∧ Refines E k' a.dispatch := by
  have he : schedResched k = schedPick k := by
    rw [schedResched, schedRequeue, h.data]
    cases hcurr : a.currProc with
    | none => rfl
    | some c => simp only [if_neg (hc c hcurr), Option.bind_eq_bind, Option.bind_some]
  rw [he]
  exact schedPick_refines h hq hp

theorem wake_dispatch (hc : a.currProc = some p) (hp : (a.procs p).state = .curr) : (a.wake p).dispatch = a := by
  have hd : ((a.setState p .ready).setState p .curr) = a.toData := by
    simp only [Data.setState, Data.setProc, Function.update_self, Function.update_idem]
    rw [← hp, Function.update_eq_self]
  simp only [Model.dispatch, Model.wake, Model.push, Function.update_self, Function.update_idem,
    Function.update_eq_self, hd, ← hc]

/-- The current process comes back from `sched_resched` at once: it goes to the
front of the queue, and the front is what is taken. -/
theorem schedResched_curr (h : Refines E k a) (hc : a.currProc = some p) (hp : (a.procs p).state = .curr)
    (hm : ∀ g, QueueHead a.toData g → p ∉ a.queue g) : ∃ k', schedResched k = some k' ∧ Refines E k' a := by
  have hloose : Loose E a p := ⟨by simp [hp], by simp [hp], hm⟩
  obtain ⟨k₁, hk₁, h₁⟩ := updateState_ready_refines h hloose
  obtain ⟨k₂, hk₂, h₂⟩ := schedPick_refines h₁ (p := p) (r := a.queue .readyQueue)
    (by simp [Model.wake, Model.push]) (by simp [Model.wake, Model.push, setState_state])
  refine ⟨k₂, ?_, wake_dispatch hc hp ▸ h₂⟩
  rw [schedResched, schedRequeue_eq, h.data, hc]
  simp only [hp, if_true, hk₁, Option.bind_eq_bind, Option.bind_some]
  exact hk₂

theorem dispatch_currProc (hq : a.queue .readyQueue = p :: r) (d : Data) (c c' : Option ProcRef) :
    Model.dispatch { a with toData := { d with currProc := c } } =
      Model.dispatch { a with toData := { d with currProc := c' } } := by
  simp only [Model.dispatch, hq]
  rfl

theorem enterState_blocked {d : Data} (hc : d.currProc = some p)
    (hs : state = .waitSem ∨ state = .waitChild ∨ state = .sleep ∨ state = .zombie) :
    enterState schedResched { k with toData := d } p state = schedResched { k with
      toData := { d with currProc := if state = .zombie then none else some p } } := by
  cases d
  cases hc
  rcases hs with rfl | rfl | rfl | rfl <;> simp only [enterState, if_true, reduceCtorEq, if_false]

theorem updateState_block_refines (h : Refines E k a) (hc : a.currProc = some p) (hp : (a.procs p).state = .curr)
    (hs : state = .waitSem ∨ state = .waitChild ∨ state = .sleep ∨ state = .zombie)
    (hq : a.queue .readyQueue = q :: r) (hr : (a.procs q).state = .ready) :
    ∃ k', schedUpdateState k p state = some k' ∧ Refines E k' (a.block p state) := by
  have hks : (k.procs p).state = .curr := (h.state_eq p).trans hp
  have hne : state ≠ .curr := by
    rcases hs with rfl | rfl | rfl | rfl <;> simp
  have hqp : q ≠ p := by
    rintro rfl
    exact absurd (hr.symm.trans hp) (by simp)
  have hl : leaveState k p = k := by rw [leaveState, hks]
  have hd := h.setData (d := { a.setState p state with currProc := if state = .zombie then none else some p }) rfl
  have hcurr : ∀ x, (if state = .zombie then none else some p) = some x →
      ((a.setState p state).procs x).state ≠ .curr := by
    intro x hx
    have hxp : x = p := by
      split at hx
      · cases hx
      · exact (Option.some.inj hx).symm
    rw [hxp, setState_state, if_pos rfl]
    exact hne
  have hready : ((a.setState p state).procs q).state = .ready := by rw [setState_state, if_neg hqp, hr]
  obtain ⟨k', hk', h'⟩ := schedResched_blocked hd hcurr hq hready
  rw [dispatch_currProc hq _ _ none] at h'
  refine ⟨k', ?_, h'⟩
  rw [schedUpdateState, updateState, if_neg (hks ▸ hne.symm), hl]
  simp only [h.data]
  exact (enterState_blocked (d := a.setState p state) hc hs).trans hk'

end Karg.SchedRefinement
