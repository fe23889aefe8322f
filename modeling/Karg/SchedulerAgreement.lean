import Karg.KernelBoot

namespace Karg.SchedulerAgreement

open LinkStore CircularList TimerService TimerQueue Process KernelRuns KernelModel QueueInvariant KernelRefinement
  SyscallRefinement KernelSimulation KernelBoot

/-- The processes on the ready queue and on the queues of the semaphores in use,
and the timers on the timer queue, in the order of their links. -/
structure Queues (k : Kernel) (ready : List ProcRef) (waiting : SemRef → List ProcRef)
    (sleepers : List TimerRef) : Prop where
  ready : Circular k.queues .readyQueue (ready.map .node)
  waiting (sem : SemRef) : k.semInited sem → Circular k.queues (.waitQueue sem) ((waiting sem).map .node)
  sleepers : Circular k.timers.links .waitQueue (sleepers.map .node)

/-- The states of the processes agree with the queues. Only live processes, those
not yet reaped, are on a queue. -/
structure Agreement (k : Kernel) (ready : List ProcRef) (waiting : SemRef → List ProcRef)
    (sleepers : List TimerRef) : Prop where
  curr : ∃ c, k.currProc = some c ∧ ∀ p, k.live p ∧ (k.procs p).state = .curr ↔ p = c
  mem_ready (p : ProcRef) : p ∈ ready ↔ k.live p ∧ (k.procs p).state = .ready
  ready_nodup : ready.Nodup
  mem_waiting (p : ProcRef) : (∃ sem, k.semInited sem ∧ p ∈ waiting sem) ↔ k.live p ∧ (k.procs p).state = .waitSem
  waiting_unique (p : ProcRef) (sem sem' : SemRef) : k.semInited sem → k.semInited sem' → p ∈ waiting sem →
    p ∈ waiting sem' → sem = sem'
  waiting_nodup (sem : SemRef) : k.semInited sem → (waiting sem).Nodup
  mem_sleepers (p : ProcRef) : .proc p ∈ sleepers ↔ k.live p ∧ (k.procs p).state = .sleep
  sleepers_nodup : sleepers.Nodup
  detached (p : ProcRef) : k.live p →
    (k.procs p).state = .curr ∨ (k.procs p).state = .waitChild ∨ (k.procs p).state = .zombie →
      p ∉ ready ∧ (∀ sem, k.semInited sem → p ∉ waiting sem) ∧ .proc p ∉ sleepers

variable {k : Kernel} {a : Model}

theorem queues_of_refines {E : TimerRef → Prop} (h : Refines E k a) :
    Queues k (a.queue .readyQueue) (fun sem => a.queue (.waitQueue sem)) a.sleepers where
  ready := h.queues.circular .readyQueue trivial
  waiting sem hs := h.queues.circular (.waitQueue sem) (show a.semInited sem by rw [← h.data]; exact hs)
  sleepers := h.timers.circular .waitQueue trivial

theorem at_none {p : ProcRef} {state : ProcState} : At a none p state ↔ a.live p ∧ (a.procs p).state = state := by
  simp [At]

theorem agreement_of_simulated (h : Simulated k a) :
    Agreement k (a.queue .readyQueue) (fun sem => a.queue (.waitQueue sem)) a.sleepers := by
  have hi := h.invariant.sched
  have hag := hi.agree
  have hused : ∀ {sem p}, p ∈ a.queue (.waitQueue sem) → a.semInited sem := by
    intro sem p hp
    by_contra hs
    rw [hi.unused sem (by simpa using hs)] at hp
    exact List.not_mem_nil hp
  have hready : ∀ p, p ∈ a.queue .readyQueue ↔ a.live p ∧ (a.procs p).state = .ready := fun p =>
    ⟨fun hp => at_none.mp (hag.mem _ p hp), fun hp => hag.ready p (at_none.mpr hp)⟩
  have hsleep : ∀ p, .proc p ∈ a.sleepers ↔ a.live p ∧ (a.procs p).state = .sleep := fun p =>
    (hag.sleeping p).trans at_none
  have hd := h.refines.data
  constructor
  · obtain ⟨c, hc⟩ := hi.running
    refine ⟨c, by rw [hd, hc], fun p => ?_⟩
    rw [hd, ← at_none (a := a), ← hag.curr p, hc, Option.some.injEq, eq_comm]
  · rw [hd]; exact hready
  · exact hag.nodup _
  · intro p
    rw [hd]
    constructor
    · rintro ⟨sem, -, hp⟩
      exact at_none.mp (hag.mem _ p hp)
    · intro hp
      obtain ⟨sem, hm⟩ := hag.waiting p (at_none.mpr hp)
      exact ⟨sem, hused hm, hm⟩
  · intro p sem sem' _ _ hp hp'
    exact QueueNode.waitQueue.inj (hag.unique _ _ p hp hp')
  · exact fun sem _ => hag.nodup _
  · rw [hd]; exact hsleep
  · exact hag.sleepers_nodup
  · intro p _ hs
    rw [hd] at hs
    refine ⟨fun hp => ?_, fun sem _ hp => ?_, fun hp => ?_⟩
    · have hr := ((hready p).mp hp).2
      simp [hr] at hs
    · have hr : (a.procs p).state = .waitSem := (hag.mem _ p hp).2.2
      simp [hr] at hs
    · have hr := ((hsleep p).mp hp).2
      simp [hr] at hs

/-- In every state between two operations of a run the states of the processes
agree with the queues, and every operation that may come then is carried out. -/
theorem sched_queue_agreement (h : Reached k) :
    (∃ ready waiting sleepers, Queues k ready waiting sleepers ∧ Agreement k ready waiting sleepers) ∧
      ∀ op, Allowed k op → ∃ out k', KernelRuns.Step k op out k' := by
  obtain ⟨a, ha⟩ := reached_simulated h
  refine ⟨⟨_, _, _, queues_of_refines ha.refines, agreement_of_simulated ha⟩, fun op hop => ?_⟩
  obtain ⟨k', out, b, hc, -, -⟩ := exec_simulates ha hop
  exact ⟨out, k', hop, hc⟩

/-- At boot the init process runs and can create a process at the address 4096. -/
theorem sched_queue_agreement_boot : ∃ k, Reached k ∧ k.currProc = some .initProc ∧
    (∃ ready waiting sleepers, Queues k ready waiting sleepers ∧ Agreement k ready waiting sleepers) ∧
      ∃ out k', KernelRuns.Step k (.proc 4096) out k' := by
  obtain ⟨k, hb, hs⟩ := booted_simulated
  obtain ⟨hag, hprog⟩ := sched_queue_agreement (.start hb)
  refine ⟨k, .start hb, by rw [hs.refines.data]; rfl, hag, hprog (.proc 4096) ?_⟩
  rw [Allowed, hs.refines.data]
  exact ⟨⟨.initProc, rfl, by decide, rfl⟩, rfl, rfl⟩

end Karg.SchedulerAgreement
