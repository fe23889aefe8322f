import Karg.ChildExit

namespace Karg.WaitHistory

open Process ProcTable Syscalls KernelRuns KernelModel ProcInvariant WaitInvariant KernelInvariant TreeSteps
  ExitRefinement ChildExit Execution

structure Event where
  caller : Option ProcRef
  op : Op
  outcome : Outcome

def Blocks (e : Event) (p : ProcRef) : Prop := e.caller = some p ∧ (∃ status, e.op = .wait status) ∧ e.outcome = .blocked

def Wakes (e : Event) (p z : ProcRef) : Prop :=
  e.caller = some z ∧ (∃ status, e.op = .exit status) ∧ e.outcome = .exited (some p)

def Ignores (p : ProcRef) (e : Event) : Prop :=
  ¬ (e.caller = some p ∧ e.outcome = .blocked) ∧ e.outcome ≠ .exited (some p)

/-- Since the process was last blocked in `sys_wait`, no child has woken it. -/
def Asleep (p : ProcRef) : List Event → Prop := Since (fun e _ => Blocks e p) (Ignores p)

def Woken (p z : ProcRef) : List Event → Prop := Since (fun e older => Wakes e p z ∧ Asleep p older) (Ignores p)

structure History (a : Model) (log : List Event) : Prop where
  asleep (p : ProcRef) : a.live p → (a.procs p).state = .waitChild → Asleep p log
  woken (p : ProcRef) : a.live p → a.resume p ≠ .user → (a.procs p).state ≠ .waitChild →
    ∃ z, (a.procs p).procWaiting = some z ∧ Woken p z log

variable {a b : Model} {p q parent : ProcRef} {op : Op} {out : Outcome} {log : List Event} {e : Event}

/-- What a step can mean for a process inside `sys_wait`: nothing, or that it
has just been blocked there, or that a child has just woken it. -/
inductive Effect (a : Model) (e : Event) (b : Model) (q : ProcRef) : Prop
  | none (hl : a.live q) (hr : b.resume q = a.resume q)
      (hs : (b.procs q).state = .waitChild ↔ (a.procs q).state = .waitChild)
      (hw : (b.procs q).procWaiting = (a.procs q).procWaiting)
      (he : Ignores q e)
  | blocks (hs : (b.procs q).state = .waitChild) (he : Blocks e q)
  | wakes (z : ProcRef) (hl : a.live q) (hs : (a.procs q).state = .waitChild) (hs' : (b.procs q).state ≠ .waitChild)
      (hw : (b.procs q).procWaiting = some z) (he : Wakes e q z)

theorem Effect.history (hlog : History a log)
    (h : ∀ q, b.live q → b.resume q ≠ .user → Effect a e b q)
    (hb : ∀ q, b.live q → (b.procs q).state = .waitChild → b.resume q ≠ .user) : History b (e :: log) := by
  constructor
  · intro q hq hs
    cases h q hq (hb q hq hs) with
    | none hl _ hs' _ he => exact since_cons.mpr (.inr ⟨he, hlog.asleep q hl (hs'.mp hs)⟩)
    | blocks _ he => exact since_cons.mpr (.inl he)
    | wakes _ _ _ hs' => exact absurd hs hs'
  · intro q hq hr hs
    cases h q hq hr with
    | none hl hr' hs' hw he =>
        obtain ⟨z, hz, hwk⟩ := hlog.woken q hl (hr' ▸ hr) fun h => hs (hs'.mpr h)
        exact ⟨z, hw.trans hz, since_cons.mpr (.inr ⟨he, hwk⟩)⟩
    | blocks hs' => exact absurd hs' hs
    | wakes z hl hs' _ hw he => exact ⟨z, hw, since_cons.mpr (.inl ⟨he, hlog.asleep q hl hs'⟩)⟩

theorem Quiet.effect (h : Quiet a b) (hq : b.live q) (he : Ignores q e) : Effect a e b q := by
  have hf := h.frame
  simp only [Prod.mk.injEq] at hf
  refine .none (h.live q ▸ hq) (by rw [hf.2.2.2.2]) (h.state q _ (.inl rfl)) ?_ he
  rw [h.procs q]

theorem leave_procWaiting (a : Model) (p parent q : ProcRef) (status : BitVec 32) :
    ((a.leave p parent status).procs q).procWaiting = (a.procs q).procWaiting := by
  have hs : ((a.setProc p { a.procs p with exitStatus := status }).procs q).procWaiting =
      (a.procs q).procWaiting := by
    by_cases hq : q = p
    · subst hq; rw [setProc_procs_self]
    · rw [setProc_procs_ne _ _ hq]
  simp only [Model.leave, Model.disown, Model.bury, Model.adopt]
  split
  · split <;> exact hs
  · split <;> exact hs

theorem notify_procWaiting (a : Model) (p parent q : ProcRef) : ((a.notify p parent).procs q).procWaiting =
    if q = parent ∧ (a.procs parent).state = .waitChild then some p else (a.procs q).procWaiting := by
  rw [Model.notify]
  by_cases hs : (a.procs parent).state = .waitChild
  · rw [if_pos hs]
    by_cases hq : q = parent
    · subst hq; simp [hs, Model.wake, Model.push, Data.setState]
    · simp [hq, Model.wake, Model.push, Data.setState, setProc_procs_ne _ _ hq]
  · simp [hs]

theorem exit_procs (hi : Invariant a) (hc : a.currProc = some p) (hl : a.live parent) (status : BitVec 32)
    (q : ProcRef) : (((a.exit p parent status).procs q).state = .waitChild ↔
        (a.procs q).state = .waitChild ∧ q ≠ parent) ∧
      ((a.exit p parent status).procs q).procWaiting =
        (if q = parent ∧ (a.procs parent).state = .waitChild then some p else (a.procs q).procWaiting) ∧
      (a.exit p parent status).resume q = a.resume q := by
  have hquiet := exit_quiet hi hc hl status
  have hf := hquiet.frame
  simp only [Prod.mk.injEq] at hf
  refine ⟨exit_waitChild hi hc hl status q, ?_, ?_⟩
  · have hp := congrArg Proc.procWaiting (hquiet.procs q)
    rw [hp, ← leave_state a p parent parent status, ← leave_procWaiting a p parent q status, ← notify_procWaiting]
    by_cases hq : q = p
    · subst hq; simp [Data.setState]
    · simp [Data.setState, setProc_procs_ne _ _ hq]
  · rw [hf.2.2.2.2]
    exact congrFun (notify_frame _ _ _).2 q

theorem exit_effect (hi : Invariant a) (hc : a.currProc = some p) (hl : a.live parent) (status : BitVec 32)
    (hq : a.live q) : Effect a ⟨a.currProc, .exit status,
        .exited (if (a.procs parent).state = .waitChild then some parent else none)⟩ (a.exit p parent status) q := by
  obtain ⟨hs, hw, hr⟩ := exit_procs hi hc hl status q
  by_cases hqp : q = parent ∧ (a.procs parent).state = .waitChild
  · obtain ⟨rfl, hst⟩ := hqp
    rw [if_pos ⟨rfl, hst⟩] at hw
    refine .wakes p hq hst (fun h => (hs.mp h).2 rfl) hw ⟨hc, ⟨status, rfl⟩, ?_⟩
    rw [if_pos hst]
  · rw [if_neg hqp] at hw
    refine .none hq hr (hs.trans ⟨fun h => h.1, fun h => ⟨h, ?_⟩⟩) hw ⟨by simp, ?_⟩
    · rintro rfl
      exact hqp ⟨rfl, h⟩
    · intro he
      split at he
      · next hst =>
        cases he
        exact hqp ⟨rfl, hst⟩
      · cases he

theorem block_effect (hi : Invariant a) (hc : a.currProc = some p) (status : Nat)
    (hq : (Model.block { a with toData := a.setResume p (.wait status) } p .waitChild).live q) :
    Effect a ⟨a.currProc, .wait status, .blocked⟩
      (Model.block { a with toData := a.setResume p (.wait status) } p .waitChild) q := by
  have hruns := runs_of_agree hi.sched.agree hc
  have hr : Runs { a with toData := a.setResume p (.wait status) } p := hruns
  have hquiet := quiet_after hr .waitChild
  have hf := hquiet.frame
  simp only [Prod.mk.injEq] at hf
  by_cases hqp : q = p
  · subst hqp
    refine .blocks ((hquiet.state q _ (.inl rfl)).mpr ?_) ⟨hc, ⟨status, rfl⟩, rfl⟩
    rw [setState_state, if_pos rfl]
  · refine .none (hquiet.live q ▸ hq) ?_ ?_ ?_ ⟨?_, by simp⟩
    · rw [hf.2.2.2.2]
      exact Function.update_of_ne hqp ..
    · rw [hquiet.state q _ (.inl rfl), setState_state, if_neg hqp]
      exact Iff.rfl
    · have hp := congrArg Proc.procWaiting (hquiet.procs q)
      rw [hp]
      simp [Data.setState, setProc_procs_ne _ _ hqp, Data.setResume]
    · rintro ⟨hcq, -⟩
      exact hqp (Option.some.inj (hcq.symm.trans hc))

theorem step_effect (hi : Invariant a) (h : KernelModel.Step a op out b) (hq : b.live q) (hr : b.resume q ≠ .user) :
    Effect a ⟨a.currProc, op, out⟩ b q := by
  cases h with
  | semInit sem hs => exact Quiet.effect (.of_procs_eq rfl rfl) hq (by simp [Ignores])
  | proc p addr pid hc ha hpid =>
      have hne : q ≠ .heap addr := by
        rintro rfl
        exact hr (Function.update_self ..)
      refine .none (((spawn_live a addr pid p q).mp hq).resolve_left hne) (Function.update_of_ne hne ..) ?_ ?_
        (by simp [Ignores])
      · rw [spawn_procs_ne hne]
      · rw [spawn_procs_ne hne]
  | yield => exact .none hq rfl Iff.rfl rfl (by simp [Ignores])
  | sleep p now ns hc => exact Quiet.effect (sleep_quiet hi.sched hc.1 now ns) hq (by simp [Ignores])
  | waitNone => exact .none hq rfl Iff.rfl rfl (by simp [Ignores])
  | waitZombie p status addr rest hc hz =>
      exact .none ((reap_live a p addr q).mp hq).2 rfl Iff.rfl rfl (by simp [Ignores, reaped])
  | waitBlock p status hc hl hz => exact block_effect hi hc.1 status hq
  | exit p parent status hc hpid hpar =>
      have hl := hi.parent_live hc hpid hpar
      refine exit_effect hi hc.1 hl status ?_
      rwa [Data.live_congr (exit_allocated a p parent status)] at hq
  | resume p addr hc hres hw hz =>
      have hne : q ≠ p := by
        rintro rfl
        exact hr (Function.update_self ..)
      exact .none ((reap_live _ p addr q).mp hq).2 (Function.update_of_ne hne ..) Iff.rfl rfl (by simp [Ignores, reaped])
  | semWait p sem hc hs => exact Quiet.effect (semWait_quiet hi.sched hc.1 sem) hq (by simp [Ignores])
  | semSignal sem hs => exact Quiet.effect (semSignal_quiet hi.sched sem) hq (by simp [Ignores])
  | semSignaln sem n hs => exact Quiet.effect (semSignaln_quiet hi.sched hs n) hq (by simp [Ignores])
  | semDeinit sem hs => exact Quiet.effect (semSignaln_quiet hi.sched hs _) hq (by simp [Ignores])
  | wakeup now p rest hs => exact Quiet.effect (wakeup_quiet hi.sched hs) hq (by simp [Ignores])
  | preempt now rest hs => exact Quiet.effect (.of_procs_eq rfl rfl) hq (by simp [Ignores])

theorem step_history (hi : Invariant a) (hlog : History a log) (h : KernelModel.Step a op out b) :
    History b (⟨a.currProc, op, out⟩ :: log) :=
  Effect.history hlog (fun _ hq hr => step_effect hi h hq hr) (step_invariant hi h).waits.blocked

end Karg.WaitHistory
