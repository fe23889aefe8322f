import Karg.Dispatch

namespace Karg.IdleDispatch

open LinkStore ListNode TimerService TimerQueue Process Sched Syscalls Execution KernelRuns KernelModel SchedInvariant
  SchedRefinement KernelInvariant KernelRefinement SemRefinement SyscallRefinement KernelSimulation KernelBoot Dispatch

variable {k k₀ k' : Kernel} {a b : Model} {p : ProcRef} {rest : List TimerRef} {op : Op} {out : Outcome}

def Last (q : List ProcRef) : Prop := q.getLast? = some .idleProc

theorem Last.cons {q : List ProcRef} (h : Last q) (p : ProcRef) : Last (p :: q) := by
  rw [Last, List.getLast?_cons, h]
  rfl

def IdleLast (a : Model) : Prop := a.currProc = some .idleProc ∨ Last (a.queue .readyQueue)

theorem IdleLast.last (h : IdleLast a) (hc : Calls a.toData p) : Last (a.queue .readyQueue) :=
  h.resolve_left fun hi => hc.2.1 (Option.some.inj (hc.1.symm.trans hi))

theorem IdleLast.wake (h : IdleLast a) (p : ProcRef) : IdleLast (a.wake p) := by
  rcases h with h | h
  · exact .inl h
  · exact .inr (by simpa [Model.wake, Model.push] using h.cons p)

theorem IdleLast.semSignal (h : IdleLast a) (sem : SemRef) : IdleLast (a.semSignal sem) := by
  rw [Model.semSignal]
  split
  · rw [Model.wakeFirst]
    split
    · exact h
    · apply IdleLast.wake
      rcases h with h | h
      · exact .inl h
      · exact .inr (by simpa using h)
  · exact h

theorem IdleLast.semSignaln (h : IdleLast a) (sem : SemRef) (n : Nat) : IdleLast (a.semSignaln sem n) := by
  induction n generalizing a with
  | zero => exact h
  | succ n ih => exact ih (h.semSignal sem)

theorem notify_last (h : Last (a.queue .readyQueue)) (p parent : ProcRef) :
    Last ((a.notify p parent).queue .readyQueue) := by
  rw [Model.notify]
  split
  · simpa [Model.wake, Model.push] using h.cons parent
  · exact h

/-- What is left when the processor has gone to another process: the idle
process is the last one ready, or it was the only one and runs. -/
def Yielded (b : Model) : Prop :=
  Last (b.queue .readyQueue) ∨ b.currProc = some .idleProc ∧ b.queue .readyQueue = []

theorem block_yielded (h : Last (a.queue .readyQueue)) (p : ProcRef) (state : ProcState) :
    Yielded (a.block p state) := by
  cases hq : a.queue .readyQueue with
  | nil => rw [hq] at h; cases h
  | cons q rest =>
      rw [hq, Last, List.getLast?_cons] at h
      simp only [Yielded, Model.block, Model.dispatch, hq, Function.update_self]
      cases hr : rest.getLast? with
      | none =>
          rw [hr] at h
          exact .inr ⟨h, List.getLast?_eq_none_iff.mp hr⟩
      | some r =>
          rw [hr] at h
          exact .inl (hr.trans h)

theorem Yielded.idleLast (h : Yielded b) : IdleLast b := by
  rcases h with h | h
  · exact .inr h
  · exact .inl h.1

theorem Yielded.empty (h : Yielded b) (hi : Scheduled b) (hc : b.currProc = some .idleProc) :
    b.queue .readyQueue = [] := by
  rcases h with h | h
  · exact absurd (List.mem_of_getLast? h) (curr_not_mem hi hc .readyQueue)
  · exact h.2

theorem semWait_yielded (h : Last (a.queue .readyQueue)) (hc : a.currProc = some p) (sem : SemRef) :
    Yielded (a.semWait sem p) ∨ (a.semWait sem p).currProc = some p ∧ Last ((a.semWait sem p).queue .readyQueue) := by
  rw [Model.semWait]
  split
  · apply Or.inl
    apply block_yielded
    simpa using h
  · exact .inr ⟨hc, h⟩

theorem step_idleLast (h : IdleLast a) (hs : KernelModel.Step a op out b) : IdleLast b := by
  cases hs with
  | semInit | yield | waitNone | waitZombie | resume | preempt => exact h
  | proc p addr pid =>
      apply IdleLast.wake
      exact h
  | sleep p now ns hc =>
      apply Yielded.idleLast
      apply block_yielded
      exact h.last hc
  | waitBlock p status hc =>
      apply Yielded.idleLast
      apply block_yielded
      exact h.last hc
  | exit p parent status hc =>
      apply Yielded.idleLast
      apply block_yielded
      apply notify_last
      exact h.last hc
  | semWait p sem hc =>
      rcases semWait_yielded (h.last hc) hc.1 sem with hy | hy
      · exact hy.idleLast
      · exact .inr hy.2
  | semSignal sem => exact h.semSignal sem
  | semSignaln sem n => exact h.semSignaln sem n
  | semDeinit sem => exact h.semSignaln sem _
  | wakeup now p rest =>
      apply IdleLast.wake
      exact h

theorem reached_idleLast (h : Reached k) : ∃ a, Simulated k a ∧ IdleLast a := by
  induction h with
  | start hb =>
      obtain ⟨k₀, now, hp, hc⟩ := hb
      exact ⟨_, simulated_of_kmain hp hc, .inr rfl⟩
  | next i _ hs ih =>
      obtain ⟨a, ha, hl⟩ := ih
      obtain ⟨b, hstep, hb⟩ := step_simulates ha hs
      exact ⟨b, hb, step_idleLast hl hstep⟩

/-- The timer of a sleeping process does not lead to `sched_resched`. -/
theorem reschedAt_wakeup (h : Simulated k a) (hs : a.sleepers = .proc p :: rest) (fuel now : Nat) :
    reschedAt fuel k (.timerIsr now) = none := by
  have hcb := h.invariant.sched.wakeup p (by rw [hs]; exact List.mem_cons_self)
  have hh := h.refines.timers
  rw [hs] at hh
  obtain ⟨s, hs', -, ht, -, -⟩ := timerIsr_holds hh
  simp only [reschedAt, hs', Option.bind_eq_bind, Option.bind_some, ht, h.refines.timer, hcb.1]

theorem reschedAt_preempt (rest : List TimerRef) (h : Simulated k a) (hs : a.sleepers = .sched :: rest) (now : Nat) :
    ∃ k₀, Converges (fun fuel => reschedAt fuel k (.timerIsr now)) k₀ := by
  have hi := h.invariant.sched
  have hcb := hi.preempt (by rw [hs]; exact List.mem_cons_self)
  have hnd := hi.agree.sleepers_nodup
  rw [hs, List.nodup_cons] at hnd
  have hh := h.refines.timers
  rw [hs] at hh
  obtain ⟨s, hs', hh', ht, hf, -⟩ := timerIsr_holds hh
  obtain ⟨s₂, hs₂, -⟩ := timerWait_holds hh' hnd.1 now schedTimeslice .schedPreempt none
  refine ⟨{ k with timers := s₂ }, rest.length + 1, fun fuel hfuel => ?_⟩
  simp only [reschedAt, hs', Option.bind_eq_bind, Option.bind_some, ht, h.refines.timer, hcb, schedArm, hs₂ fuel hfuel]

theorem ready_isEmpty (h : Simulated k a) : listEmpty k.queues .readyQueue = (a.queue .readyQueue).isEmpty := by
  rw [family_listEmpty h.refines.queues (h := .readyQueue) trivial]
  cases a.queue .readyQueue <;> rfl

def IdleAlone (k : Kernel) : Prop := k.currProc = some .idleProc → listEmpty k.queues .readyQueue = true

/-- A step that calls `sched_resched` gives the processor to the idle process
while another one is ready just when it begins so. -/
theorem step_idleAlone (ha : Simulated k a) (hl : IdleLast a) (hs : KernelModel.Step a op out b) (hb : Scheduled b)
    (hc : Converges (fun fuel => reschedAt fuel k op) k₀) :
    (b.currProc = some .idleProc → b.queue .readyQueue = []) ↔
      ¬ (a.currProc = some .idleProc ∧ a.queue .readyQueue ≠ []) := by
  obtain ⟨n, hn⟩ := hc
  have hcall : reschedAt n k op = some k₀ := hn n (Nat.le_refl n)
  have caller : ∀ {p}, Calls a.toData p → a.currProc ≠ some .idleProc := fun hp hi =>
    hp.2.1 (Option.some.inj (hp.1.symm.trans hi))
  cases hs with
  | semInit | proc | resume | semSignal | semSignaln | semDeinit => cases hcall
  | yield | preempt => simp [Model.preempt, Model.arm]
  | wakeup now p rest hs =>
      rw [reschedAt_wakeup ha hs] at hcall
      cases hcall
  | waitNone p _ hp | waitZombie p _ _ _ hp =>
      exact ⟨fun _ hi => caller hp hi.1, fun _ hi => absurd hi (caller hp)⟩
  | sleep p now ns hp =>
      refine ⟨fun _ hi => caller hp hi.1, fun _ => Yielded.empty ?_ hb⟩
      apply block_yielded
      exact hl.last hp
  | waitBlock p status hp =>
      refine ⟨fun _ hi => caller hp hi.1, fun _ => Yielded.empty ?_ hb⟩
      apply block_yielded
      exact hl.last hp
  | exit p parent status hp =>
      refine ⟨fun _ hi => caller hp hi.1, fun _ => Yielded.empty ?_ hb⟩
      apply block_yielded
      apply notify_last
      exact hl.last hp
  | semWait p sem hp =>
      refine ⟨fun _ hi => caller hp hi.1, fun _ hi => ?_⟩
      rcases semWait_yielded (hl.last hp) hp.1 sem with hy | hy
      · exact hy.empty hb hi
      · exact absurd (Option.some.inj (hy.1.symm.trans hi)) hp.2.1

/-- A call of `sched_resched` picks the idle process over another ready one just
when the idle process is interrupted while another one is ready. -/
theorem idle_alone_iff (h : Resched k k₀) (hk : schedResched k₀ = some k') :
    IdleAlone k' ↔ ¬ (k.currProc = some .idleProc ∧ listEmpty k.queues .readyQueue = false) := by
  cases h with
  | start now hp hc =>
      obtain ⟨k₁, hk₁, hm⟩ := resched_start hp hc
      obtain rfl := Option.some.inj (hk₁.symm.trans hk)
      refine ⟨fun _ hi => absurd (hp.currProc.symm.trans hi.1) nofun, fun _ hi => ?_⟩
      rw [(simulated_of_kmain hp hm).refines.data] at hi
      cases hi
  | op op hr ha hc =>
      obtain ⟨k₁, out, hk₁, hs⟩ := resched_step hr ha hc
      obtain rfl := Option.some.inj (hk₁.symm.trans hk)
      obtain ⟨a, hsim, hl⟩ := reached_idleLast hr
      obtain ⟨b, hstep, hb⟩ := step_simulates hsim hs
      have hiff := step_idleAlone hsim hl hstep hb.invariant.sched hc
      simp only [IdleAlone, ready_isEmpty hsim, ready_isEmpty hb, hsim.refines.data, hb.refines.data]
      simpa using hiff

theorem idle_alone_iff_boot : ∃ k k', Boot k ∧ Resched k k ∧ schedResched k = some k' ∧
    (IdleAlone k' ↔ ¬ (k.currProc = some .idleProc ∧ listEmpty k.queues .readyQueue = false)) := by
  obtain ⟨k, hb, hs⟩ := booted_simulated
  have hr : Resched k k := .op .yield (.start hb) trivial (.of_forall fun _ => rfl)
  obtain ⟨k', hk', -⟩ := resched_refines hs.refines hs.invariant.sched
  exact ⟨k, k', hb, hr, hk', idle_alone_iff hr hk'⟩

/-- The init process sleeps, so the idle process runs. The init process is woken,
and at the next preemption the idle process is picked again. -/
theorem idle_picked_again : ∃ k k₀ k', Reached k ∧ Resched k k₀ ∧ schedResched k₀ = some k' ∧
    (k.procs .initProc).state = .ready ∧ k'.currProc = some .idleProc ∧ ¬ IdleAlone k' := by
  obtain ⟨k₁, hb, h₁⟩ := booted_simulated
  obtain ⟨k₂, hs₂, h₂⟩ := h₁.realise (.sleep .initProc 0 0 ⟨rfl, by decide, rfl⟩) trivial
  obtain ⟨k₃, hs₃, h₃⟩ := h₂.realise (.wakeup 0 .initProc [.sched] rfl) trivial
  have hr : Reached k₃ := ((Reachable.start hb).next (_, _) hs₂).next (_, _) hs₃
  obtain ⟨k₀, hk₀⟩ := reschedAt_preempt [] h₃ rfl 100000
  have ha : Allowed k₃ (.timerIsr 100000) := allowed_of_step h₃ (.preempt 100000 [] rfl) trivial
  obtain ⟨k', out, hk', hs'⟩ := resched_step hr ha hk₀
  obtain ⟨b, hstep, h'⟩ := step_simulates h₃ hs'
  obtain ⟨-, rfl⟩ := hstep.unique (.preempt 100000 [] rfl)
  have hc : k'.currProc = some .idleProc := by rw [h'.refines.data]; rfl
  refine ⟨k₃, k₀, k', hr, .op _ hr ha hk₀, hk', by rw [h₃.refines.data]; rfl, hc, fun hi => ?_⟩
  exact absurd ((ready_isEmpty h').symm.trans (hi hc)) nofun

end Karg.IdleDispatch
