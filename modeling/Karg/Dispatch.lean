import Karg.SchedulerAgreement

namespace Karg.Dispatch

open LinkStore CircularList ListNode TimerService Process ProcTable Sched Sem Syscalls Execution KernelRuns KernelModel
  SchedRefinement KernelSimulation KernelBoot

def callAt (k : Kernel) (proc : ProcRef) (state : ProcState) : Option Kernel :=
  if (k.procs proc).state = state ∨ k.currProc ≠ some proc then none else updateState some k proc state

/-- The state in which an operation calls `sched_resched`, if it does. -/
def reschedAt (fuel : Nat) (k : Kernel) : Op → Option Kernel
  | .yield => some k
  | .sleep now ns => do
      let (k, curr) ← sysSleepArm fuel now k ns
      callAt k curr .sleep
  | .wait status => do
      let curr ← k.currProc
      if listEmpty k.tree (.zombieChildren curr) && !listEmpty k.tree (.children curr) then
        callAt { k with toData := k.setResume curr (.wait status) } curr .waitChild
      else none
  | .exit status => do
      let (k, curr, parent) ← sysExitLeave fuel k status
      let (k, _) ← sysExitWake k curr parent
      callAt k curr .zombie
  | .semWait sem => do
      let (k, waiting) ← semEnqueue k sem
      let proc ← waiting
      callAt k proc .waitSem
  | .timerIsr now => do
      let (timers, timer) ← timerIsr k.timers
      match (timers.timers timer).callback with
      | .wakeupProc => none
      | .schedPreempt => schedArm fuel now { k with timers := timers }
  | .semInit _ | .proc _ | .resume | .semSignal _ | .semSignaln _ _ | .semDeinit _ => none

def startAt (fuel now : Nat) (k : Kernel) : Option Kernel := do
  let k ← kmainProcs k
  schedArm fuel now k

/-- In some run `sched_resched` is called in the state `k₀`, by `kmain` or by an
operation that has begun in the state `k`. -/
inductive Resched : Kernel → Kernel → Prop
  | start {k k₀ : Kernel} (now : Nat) (hp : PowerOn k) (hc : Converges (fun fuel => startAt fuel now k) k₀) : Resched k k₀
  | op {k k₀ : Kernel} (op : Op) (hr : Reached k) (ha : Allowed k op)
      (hc : Converges (fun fuel => reschedAt fuel k op) k₀) : Resched k k₀

variable {fuel : Nat} {k k₀ : Kernel} {proc : ProcRef} {state : ProcState} {op : Op}

theorem enterState_resched (r : Kernel → Option Kernel) (hc : k.currProc = some proc)
    (hs : state = .waitSem ∨ state = .waitChild ∨ state = .sleep ∨ state = .zombie) :
    enterState r k proc state = r (if state = .zombie then { k with currProc := none } else k) := by
  rcases hs with rfl | rfl | rfl | rfl <;> simp [enterState, hc]

theorem updateState_of_callAt (hs : state = .waitSem ∨ state = .waitChild ∨ state = .sleep ∨ state = .zombie)
    (h : callAt k proc state = some k₀) : schedUpdateState k proc state = schedResched k₀ := by
  rw [callAt] at h
  split at h
  · cases h
  · next hn =>
    obtain ⟨hne, hc⟩ := not_or.mp hn
    have hcurr : (leaveState k proc).currProc = some proc := by
      rw [leaveState_toData]
      exact not_not.mp hc
    rw [updateState, if_neg hne] at h
    rw [schedUpdateState, updateState, if_neg hne]
    simp only [enterState_resched _ (k := { leaveState k proc with
      toData := (leaveState k proc).setState proc state }) hcurr hs, Option.some.injEq] at h ⊢
    rw [h]

/-- The call of `sched_resched` is the last thing that an operation does. -/
theorem exec_of_reschedAt (h : reschedAt fuel k op = some k₀) :
    ∃ out, exec fuel k op = (schedResched k₀).bind fun k' => some (k', out) := by
  cases op with
  | yield =>
      cases h
      exact ⟨.ret 0, rfl⟩
  | sleep now ns =>
      obtain ⟨⟨k₁, curr⟩, harm, h⟩ := Option.bind_eq_some_iff.mp h
      have hu := updateState_of_callAt (by simp) h
      exact ⟨.ret 0, by simp only [exec, sysSleep, harm, hu, Option.bind_eq_bind, Option.bind_some]⟩
  | wait status =>
      simp only [reschedAt, Option.bind_eq_bind, Option.bind_eq_some_iff] at h
      obtain ⟨curr, hc, h⟩ := h
      split at h
      · next hempty =>
        rw [Bool.and_eq_true, Bool.not_eq_true'] at hempty
        have hu := updateState_of_callAt (by simp) h
        exact ⟨.blocked, by
          simp only [exec, sysWait, hc, hempty.1, hempty.2, hu, Option.bind_eq_bind, Option.bind_some, Bool.false_and,
            Bool.not_true, Bool.false_eq_true, if_false]⟩
      · cases h
  | exit status =>
      obtain ⟨⟨k₁, curr, parent⟩, hleave, h⟩ := Option.bind_eq_some_iff.mp h
      obtain ⟨⟨k₂, woken⟩, hwake, h⟩ := Option.bind_eq_some_iff.mp h
      have hu := updateState_of_callAt (by simp) h
      exact ⟨.exited woken, by
        simp only [exec, sysExit, hleave, sysExitEnd, hwake, hu, Option.bind_eq_bind, Option.bind_some]⟩
  | semWait sem =>
      obtain ⟨⟨k₁, waiting⟩, hq, h⟩ := Option.bind_eq_some_iff.mp h
      obtain ⟨proc, rfl, h⟩ := Option.bind_eq_some_iff.mp h
      have hu := updateState_of_callAt (by simp) h
      refine ⟨.ret 0, ?_⟩
      simp only [exec, semWait, hq, hu, Option.bind_eq_bind, Option.bind_some]
      exact Option.map_eq_bind
  | timerIsr now =>
      simp only [reschedAt, Option.bind_eq_bind, Option.bind_eq_some_iff] at h
      obtain ⟨⟨timers, timer⟩, ht, h⟩ := h
      simp only [exec, timerInterrupt, ht, Option.bind_eq_bind, Option.bind_some]
      cases hcb : (timers.timers timer).callback with
      | wakeupProc => simp only [hcb, reduceCtorEq] at h
      | schedPreempt =>
          simp only [hcb] at h
          refine ⟨.ret 0, ?_⟩
          simp only [schedPreempt, h, Option.bind_eq_bind, Option.bind_some]
          exact Option.map_eq_bind
  | semInit | proc | resume | semSignal | semSignaln | semDeinit => cases h

theorem kmain_eq_bind (fuel now : Nat) (k : Kernel) : kmain fuel now k = (startAt fuel now k).bind schedResched := by
  simp only [kmain, startAt, schedStart, Option.bind_eq_bind, Option.bind_assoc]

/-- The call returns, and what it leaves is what the operation leaves. -/
theorem resched_step (hr : Reached k) (ha : Allowed k op) (hc : Converges (fun fuel => reschedAt fuel k op) k₀) :
    ∃ k' out, schedResched k₀ = some k' ∧ KernelRuns.Step k op out k' := by
  obtain ⟨a, hs⟩ := reached_simulated hr
  obtain ⟨k', out, b, he, -, -⟩ := exec_simulates hs ha
  obtain ⟨fuel, hf, hx⟩ := hc.common he
  obtain ⟨out', ho⟩ := exec_of_reschedAt hf
  obtain ⟨k'', hk'', hp⟩ := Option.bind_eq_some_iff.mp (ho.symm.trans hx)
  cases hp
  exact ⟨k', out, hk'', ha, he⟩

theorem resched_start {now : Nat} (hp : PowerOn k) (hc : Converges (fun fuel => startAt fuel now k) k₀) :
    ∃ k', schedResched k₀ = some k' ∧ Converges (fun fuel => kmain fuel now k) k' := by
  obtain ⟨k', hk', -⟩ := kmain_simulated hp now
  obtain ⟨fuel, hs, hm⟩ := hc.common hk'
  rw [kmain_eq_bind, hs] at hm
  exact ⟨k', hm, hk'⟩

theorem resched_reached (h : Resched k k₀) : ∃ k', schedResched k₀ = some k' ∧ Reached k' := by
  cases h with
  | start now hp hc =>
      obtain ⟨k', hk', hm⟩ := resched_start hp hc
      exact ⟨k', hk', .start ⟨k, now, hp, hm⟩⟩
  | op op hr ha hc =>
      obtain ⟨k', out, hk', hs⟩ := resched_step hr ha hc
      exact ⟨k', hk', hr.next (op, out) hs⟩

theorem entryNode_eq_some {n : QueueNode} (h : entryNode n = some proc) : n = .node proc := by
  cases n with
  | node p => rw [Option.some.inj h]
  | readyQueue | waitQueue => cases h

/-- The process at the front of the ready queue is not the current one. -/
theorem front_state (h : Reached k) (hf : listFront k.queues .readyQueue = .node proc) :
    (k.procs proc).state = .ready := by
  obtain ⟨a, ha⟩ := reached_simulated h
  have hfront := ha.refines.front (g := .readyQueue) trivial
  rw [hf] at hfront
  cases hq : a.queue .readyQueue with
  | nil =>
      rw [hq] at hfront
      cases hfront
  | cons p rest =>
      rw [hq] at hfront
      cases hfront
      rw [ha.refines.data]
      exact (ha.invariant.sched.agree.mem .readyQueue _ (by rw [hq]; exact List.mem_cons_self)).2.2

/-- Whenever `sched_resched` looks at the ready queue there is a process on it,
and that process becomes the current one. -/
theorem ready_queue_never_empty (h : Resched k k₀) : ∃ k₁ p k', schedRequeue k₀ = some k₁ ∧
    listEmpty k₁.queues .readyQueue = false ∧ listFront k₁.queues .readyQueue = .node p ∧
      schedResched k₀ = some k' ∧ k'.currProc = some p := by
  obtain ⟨k', hk', hr⟩ := resched_reached h
  have hb := hk'
  rw [schedResched] at hb
  obtain ⟨k₁, hk₁, hpick⟩ := Option.bind_eq_some_iff.mp hb
  obtain ⟨p, hp, hu⟩ := Option.bind_eq_some_iff.mp hpick
  have hf := entryNode_eq_some hp
  refine ⟨k₁, p, k', hk₁, by rw [listEmpty, hf]; rfl, hf, hk', ?_⟩
  rw [updateState] at hu
  split at hu
  · next hs =>
    cases hu
    cases (front_state hr hf).symm.trans hs
  · cases hu
    rfl

theorem ready_queue_never_empty_boot : ∃ k, Boot k ∧ Resched k k ∧ ∃ k₁ p k', schedRequeue k = some k₁ ∧
    listEmpty k₁.queues .readyQueue = false ∧ listFront k₁.queues .readyQueue = .node p ∧
      schedResched k = some k' ∧ k'.currProc = some p := by
  obtain ⟨k, hb, -⟩ := booted_simulated
  have hr : Resched k k := .op .yield (.start hb) trivial (.of_forall fun _ => rfl)
  exact ⟨k, hb, hr, ready_queue_never_empty hr⟩

end Karg.Dispatch
