import Karg.RoundRobin
import Karg.SemHistory
import Mathlib.Data.List.Infix
import Mathlib.Logic.Relation

namespace Karg.ReadyStack

open LinkStore CircularList ListNode Process Syscalls Execution KernelRuns KernelModel SchedInvariant KernelInvariant
  KernelSimulation KernelBoot SchedulerAgreement RoundRobin SemHistory

def Stays (a b : Model) : Prop := b.currProc = a.currProc ∧ a.queue .readyQueue <:+ b.queue .readyQueue

def Passes (a b : Model) : Prop := ∃ p, b.currProc = some p ∧ a.queue .readyQueue <:+ p :: b.queue .readyQueue

def GivesUp : Op → Prop
  | .sleep _ _ | .wait _ | .exit _ | .semWait _ => True
  | _ => False

variable {a b c : Model} {p q : ProcRef} {state : ProcState} {op : Op} {out : Outcome}

theorem Stays.refl (a : Model) : Stays a a := ⟨rfl, List.suffix_rfl⟩

theorem Stays.trans (h : Stays a b) (h' : Stays b c) : Stays a c := ⟨h'.1.trans h.1, h.2.trans h'.2⟩

theorem wake_stays (a : Model) (p : ProcRef) : Stays a (a.wake p) := by
  refine ⟨rfl, ?_⟩
  simp only [Model.wake, Model.push, Function.update_self]
  exact List.suffix_cons _ _

theorem notify_stays (a : Model) (p parent : ProcRef) : Stays a (a.notify p parent) := by
  rw [Model.notify]
  split
  · exact wake_stays _ _
  · exact Stays.refl a

theorem block_passes (hq : q ∈ a.queue .readyQueue) (hs : a.queue .readyQueue <:+ b.queue .readyQueue) :
    Passes a (b.block p state) := by
  cases hl : b.queue .readyQueue with
  | nil =>
      have hm := hs.subset hq
      rw [hl] at hm
      cases hm
  | cons r rest =>
      refine ⟨r, ?_, ?_⟩
      · simp only [Model.block, Model.dispatch, hl]
      · simp only [Model.block, Model.dispatch, hl, Function.update_self]
        rwa [hl] at hs

theorem exit_passes (hq : q ∈ a.queue .readyQueue) (p parent : ProcRef) (status : BitVec 32) :
    Passes a (a.exit p parent status) := by
  have hs : Stays a ((a.leave p parent status).notify p parent) := notify_stays _ _ _
  exact block_passes hq hs.2

theorem semWait_moves (hi : Scheduled a) (hc : Calls a.toData p) (sem : SemRef) :
    Stays a (a.semWait sem p) ∨ Passes a (a.semWait sem p) := by
  rw [Model.semWait]
  split
  · apply Or.inr
    apply block_passes (hi.idle_ready hc.1 hc.2.1)
    simp
  · exact .inl (Stays.refl _)

theorem signalled_stays {sem : SemRef} {n : Nat} (h : Signalled a sem n b) : Stays a b := by
  refine ⟨h.currProc, ?_⟩
  rw [h.ready]
  exact List.suffix_append _ _

theorem step_moves (hi : Scheduled a) (h : KernelModel.Step a op out b) : Stays a b ∨ GivesUp op ∧ Passes a b := by
  cases h with
  | semInit | yield | waitNone | waitZombie | resume | preempt => exact .inl (Stays.refl _)
  | proc p addr pid => exact .inl (wake_stays _ _)
  | wakeup now p rest => exact .inl (wake_stays _ _)
  | sleep p now ns hc | waitBlock p status hc =>
      exact .inr ⟨trivial, block_passes (hi.idle_ready hc.1 hc.2.1) List.suffix_rfl⟩
  | exit p parent status hc => exact .inr ⟨trivial, exit_passes (hi.idle_ready hc.1 hc.2.1) _ _ _⟩
  | semWait p sem hc => exact (semWait_moves hi hc sem).imp_right fun hp => ⟨trivial, hp⟩
  | semSignal sem hs => exact .inl (signalled_stays (semSignal_signalled hi hs))
  | semSignaln sem n hs => exact .inl (signalled_stays (semSignaln_signalled hi hs n))
  | semDeinit sem hs => exact .inl (signalled_stays (semSignaln_signalled hi hs _))

/-- What lies below a process on the ready queue stays there until it is picked. -/
theorem suffix_kept {r : List ProcRef} (h : Stays a b ∨ GivesUp op ∧ Passes a b) (hs : q :: r <:+ a.queue .readyQueue)
    (hq : b.currProc ≠ some q) : q :: r <:+ b.queue .readyQueue := by
  rcases h with h | ⟨-, p, hc, hp⟩
  · exact hs.trans h.2
  · rcases List.suffix_cons_iff.mp (hs.trans hp) with he | hsuf
    · rw [(List.cons.inj he).1] at hq
      exact absurd hc hq
    · exact hsuf

variable {k k' : Kernel} {ready : List ProcRef}

def Run (P : Op → Kernel → Prop) : Kernel → Kernel → Prop :=
  Relation.ReflTransGen fun k k' => ∃ op out, KernelRuns.Step k op out k' ∧ P op k'

/-- The ready queue is a stack. A process on it, and all that are below it, stay
there in their order until that process itself gets the processor: none of them
runs before. -/
theorem ready_queue_stack {r : List ProcRef} (h : Reached k)
    (hr : Circular k.queues .readyQueue (ready.map .node)) (hs : q :: r <:+ ready)
    (hrun : Run (fun _ k => k.currProc ≠ some q) k k') :
    ∃ ready', Circular k'.queues .readyQueue (ready'.map .node) ∧ q :: r <:+ ready' ∧
      ∀ p ∈ q :: r, (k'.procs p).state = .ready ∧ k'.currProc ≠ some p := by
  obtain ⟨a, ha⟩ := reached_simulated h
  obtain rfl := ready_eq ha hr
  obtain ⟨b, hb, hsuf⟩ : ∃ b, Simulated k' b ∧ q :: r <:+ b.queue .readyQueue := by
    induction hrun with
    | refl => exact ⟨a, ha, hs⟩
    | tail _ hstep ih =>
        obtain ⟨b, hb, hsuf⟩ := ih
        obtain ⟨op, out, hk, hq⟩ := hstep
        obtain ⟨c, hm, hc⟩ := step_simulates hb hk
        rw [hc.refines.data] at hq
        exact ⟨c, hc, suffix_kept (step_moves hb.invariant.sched hm) hsuf hq⟩
  refine ⟨b.queue .readyQueue, (queues_of_refines hb.refines).ready, hsuf, fun p hp => ?_⟩
  have hag := hb.invariant.sched.agree
  have hstate := (hag.mem .readyQueue p (hsuf.subset hp)).2.2
  rw [hb.refines.data]
  refine ⟨hstate, fun hc => ?_⟩
  cases hstate.symm.trans ((hag.curr p).mp hc).2.2

/-- At boot the idle process is ready. The init process creates a process, and
the idle process stays behind it. -/
theorem ready_queue_stack_boot : ∃ k k' ready', Boot k ∧ k'.currProc ≠ some .idleProc ∧
    (∃ out, KernelRuns.Step k (.proc 4096) out k') ∧ Circular k'.queues .readyQueue (ready'.map .node) ∧
      [.idleProc] <:+ ready' := by
  obtain ⟨k, hb, hs⟩ := booted_simulated
  obtain ⟨k', hk', h'⟩ := hs.realise (.proc .initProc 4096 2 ⟨rfl, by decide, rfl⟩ rfl rfl) trivial
  have hcurr : k'.currProc ≠ some .idleProc := by
    rw [h'.refines.data]
    decide
  obtain ⟨ready', hr', hsuf, -⟩ := ready_queue_stack (.start hb) (queues_of_refines hs.refines).ready List.suffix_rfl
    (.single ⟨_, _, hk', hcurr⟩)
  exact ⟨k, k', ready', hb, hcurr, ⟨_, hk'⟩, hr', hsuf⟩

/-- The scheduler is cooperative. Unless the current process sleeps, waits or exits,
it keeps the processor whatever happens: however many timer interrupts and
calls of `sys_yield` there are, and whoever is woken. -/
theorem current_process_stays (h : Reached k) (hr : Circular k.queues .readyQueue (ready.map .node))
    (hrun : Run (fun op _ => ¬ GivesUp op) k k') :
    k'.currProc = k.currProc ∧ ∃ woken, Circular k'.queues .readyQueue ((woken ++ ready).map .node) ∧
      ∀ p ∈ ready, (k'.procs p).state = .ready := by
  obtain ⟨a, ha⟩ := reached_simulated h
  obtain rfl := ready_eq ha hr
  obtain ⟨b, hb, hstays⟩ : ∃ b, Simulated k' b ∧ Stays a b := by
    induction hrun with
    | refl => exact ⟨a, ha, Stays.refl a⟩
    | tail _ hstep ih =>
        obtain ⟨b, hb, hstays⟩ := ih
        obtain ⟨op, out, hk, hop⟩ := hstep
        obtain ⟨c, hm, hc⟩ := step_simulates hb hk
        have hmoves := (step_moves hb.invariant.sched hm).resolve_right fun hp => hop hp.1
        exact ⟨c, hc, hstays.trans hmoves⟩
  obtain ⟨hcurr, woken, hw⟩ := hstays
  refine ⟨by rw [hb.refines.data, ha.refines.data, hcurr], woken, ?_, fun p hp => ?_⟩
  · rw [hw]
    exact (queues_of_refines hb.refines).ready
  · rw [hb.refines.data]
    exact (hb.invariant.sched.agree.mem .readyQueue p (hw ▸ List.mem_append_right _ hp)).2.2

/-- The init process creates a process. Neither a `sys_yield` nor an interrupt of the
timer at the end of its slice takes the processor from it. -/
theorem current_process_stays_preempted : ∃ k k₁ k₂ k', Boot k ∧ KernelRuns.Step k (.proc 4096) (.ret 2) k₁ ∧
    KernelRuns.Step k₁ .yield (.ret 0) k₂ ∧ KernelRuns.Step k₂ (.timerIsr 200000) (.ret 0) k' ∧
    k'.currProc = some .initProc ∧ ∀ p ∈ [.heap 4096, .idleProc], (k'.procs p).state = .ready := by
  obtain ⟨k, hb, h⟩ := booted_simulated
  obtain ⟨k₁, hs₁, h₁⟩ := h.realise (.proc .initProc 4096 2 ⟨rfl, by decide, rfl⟩ rfl rfl) trivial
  obtain ⟨k₂, hs₂, h₂⟩ := h₁.realise .yield trivial
  obtain ⟨k', hs', -⟩ := h₂.realise (.preempt 200000 [] rfl) trivial
  have hcurr : k₁.currProc = some .initProc := by rw [h₁.refines.data]; rfl
  obtain ⟨hstays, -, -, hready⟩ := current_process_stays ((Reachable.start hb).next (.proc 4096, .ret 2) hs₁)
    (queues_of_refines h₁.refines).ready (.tail (.single ⟨_, _, hs₂, fun hg => hg.elim⟩) ⟨_, _, hs', fun hg => hg.elim⟩)
  exact ⟨k, k₁, k₂, k', hb, hs₁, hs₂, hs', hstays.trans hcurr, hready⟩

end Karg.ReadyStack
