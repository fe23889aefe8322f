import Karg.SchedulerAgreement

namespace Karg.RoundRobin

open LinkStore CircularList Process Sched KernelRuns KernelModel SyscallRefinement KernelSimulation KernelBoot
  SchedulerAgreement

def reschedTimes : Nat → Kernel → Option Kernel
  | 0, k => some k
  | n + 1, k => do
      let k ← schedResched k
      reschedTimes n k

def Rotates (k : Kernel) (ready : List ProcRef) : Prop :=
  ∀ p ∈ ready, ∃ n ≤ ready.length, ∃ k', reschedTimes n k = some k' ∧ (k'.procs p).state = .curr

variable {k : Kernel} {a : Model} {ready : List ProcRef}

/-- The current process goes to the front of the queue and is taken from there. -/
theorem reschedTimes_refines (h : Simulated k a) (n : Nat) :
    ∃ k', reschedTimes n k = some k' ∧ Simulated k' a := by
  induction n generalizing k with
  | zero => exact ⟨k, rfl, h⟩
  | succ n ih =>
      obtain ⟨k₁, hk₁, h₁⟩ := resched_refines h.refines h.invariant.sched
      obtain ⟨k', hk', h'⟩ := ih ⟨h₁, h.invariant⟩
      exact ⟨k', by rw [reschedTimes, hk₁]; exact hk', h'⟩

theorem ready_eq (h : Simulated k a) (hr : Circular k.queues .readyQueue (ready.map .node)) :
    ready = a.queue .readyQueue := by
  have he := circular_unique hr (queues_of_refines h.refines).ready (by simp) (by simp)
  exact List.map_injective_iff.mpr (fun _ _ hpq => QueueNode.node.inj hpq) he

/-- In no state that is reached does `sched_resched` ever hand the processor to
another process: however often it is called, the current process stays. -/
theorem resched_never_rotates (h : Reached k) (hr : Circular k.queues .readyQueue (ready.map .node))
    (hne : ready ≠ []) : ¬ Rotates k ready ∧ ∀ n, ∃ k', reschedTimes n k = some k' ∧ k'.currProc = k.currProc ∧
      ∀ p ∈ ready, (k'.procs p).state = .ready := by
  obtain ⟨a, ha⟩ := reached_simulated h
  obtain rfl := ready_eq ha hr
  have hready : ∀ p ∈ a.queue .readyQueue, (a.procs p).state = .ready := fun p hp =>
    (ha.invariant.sched.agree.mem .readyQueue p hp).2.2
  constructor
  · intro hrot
    obtain ⟨p, hp⟩ := List.exists_mem_of_ne_nil _ hne
    obtain ⟨n, -, k', hk', hcurr⟩ := hrot p hp
    obtain ⟨k₁, hk₁, h₁⟩ := reschedTimes_refines ha n
    obtain rfl := Option.some.inj (hk₁.symm.trans hk')
    rw [h₁.refines.data, hready p hp] at hcurr
    cases hcurr
  · intro n
    obtain ⟨k', hk', h'⟩ := reschedTimes_refines ha n
    refine ⟨k', hk', by rw [h'.refines.data, ha.refines.data], fun p hp => ?_⟩
    rw [h'.refines.data, hready p hp]

theorem booted_ready : ∃ k, Boot k ∧ k.currProc = some .initProc ∧
    Circular k.queues .readyQueue ([ProcRef.idleProc].map .node) := by
  obtain ⟨k, hb, hs⟩ := booted_simulated
  exact ⟨k, hb, by rw [hs.refines.data]; rfl, (queues_of_refines hs.refines).ready⟩

theorem resched_never_rotates_boot : ∃ k, Boot k ∧ Circular k.queues .readyQueue ([ProcRef.idleProc].map .node) ∧
    ∃ k', reschedTimes 5 k = some k' ∧ k'.currProc = some .initProc ∧ (k'.procs .idleProc).state = .ready := by
  obtain ⟨k, hb, hc, hr⟩ := booted_ready
  obtain ⟨k', hk', hcurr, hs⟩ := (resched_never_rotates (.start hb) hr (by simp)).2 5
  exact ⟨k, hb, hr, k', hk', hcurr.trans hc, hs _ List.mem_cons_self⟩

/-- At boot the init process runs and the idle process is ready. After the one
call that should give the idle process its turn, the init process runs. -/
theorem boot_not_round_robin : ∃ k, Reached k ∧ Circular k.queues .readyQueue ([ProcRef.idleProc].map .node) ∧
    ¬ Rotates k [.idleProc] ∧ ∃ k', schedResched k = some k' ∧ k'.currProc = some .initProc := by
  obtain ⟨k, hb, hs⟩ := booted_simulated
  have hr := (queues_of_refines hs.refines).ready
  obtain ⟨k₁, hk₁, h₁⟩ := resched_refines hs.refines hs.invariant.sched
  refine ⟨k, .start hb, hr, fun hrot => ?_, k₁, hk₁, by rw [h₁.data]; rfl⟩
  obtain ⟨n, -, k', hk', hcurr⟩ := hrot _ List.mem_cons_self
  obtain ⟨k₂, hk₂, h₂⟩ := reschedTimes_refines hs n
  obtain rfl := Option.some.inj (hk₂.symm.trans hk')
  rw [h₂.refines.data] at hcurr
  cases hcurr

end Karg.RoundRobin
