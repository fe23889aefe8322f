import Karg.ExitRefinement

namespace Karg.KernelSimulation

open ListNode TimerService TimerQueue Process ProcTable Sched Syscalls Execution KernelRuns KernelModel QueueInvariant
  SchedInvariant SemInvariant WaitInvariant KernelInvariant KernelRefinement SemRefinement SyscallRefinement
  ExitRefinement

variable {k k' : Kernel} {a b : Model} {op : Op} {out : Outcome}

structure Simulated (k : Kernel) (a : Model) : Prop where
  refines : Refines (Exist a.toData) k a
  invariant : Invariant a

theorem listEmpty_sleepers (h : Refines (Exist a.toData) k a) :
    listEmpty k.timers.links .waitQueue = a.sleepers.isEmpty := by
  have he := family_listEmpty h.timers (h := .waitQueue) trivial
  rw [he]
  cases a.sleepers <;> rfl

/-- Every operation that may come is carried out, and the model takes the step
with the same outcome. -/
theorem exec_simulates (h : Simulated k a) (ha : Allowed k op) :
    ∃ k' out b, Converges (fun fuel => exec fuel k op) (k', out) ∧ KernelModel.Step a op out b ∧ Simulated k' b := by
  obtain ⟨hr, hi⟩ := h
  suffices hs : ∃ k' out b, Converges (fun fuel => exec fuel k op) (k', out) ∧ KernelModel.Step a op out b ∧
      Refines (Exist b.toData) k' b by
    obtain ⟨k', out, b, hc, hstep, hb⟩ := hs
    exact ⟨k', out, b, hc, hstep, hb, step_invariant hi hstep⟩
  cases op with
  | semInit sem =>
      have hs : a.semInited sem = false := hr.data ▸ ha
      exact ⟨_, _, _, .of_forall fun _ => rfl, .semInit sem hs, semInit_refines hr hi.sched hs⟩
  | proc addr =>
      obtain ⟨⟨p, hc⟩, hf, hp⟩ := ha
      rw [hr.data] at hc hf hp
      obtain ⟨pid, hpid⟩ := Option.isSome_iff_exists.mp hp
      obtain ⟨k', hk', h'⟩ := sysProc_refines hr hi hc.1 hf hpid
      exact ⟨k', _, _, .of_forall fun _ => hk', .proc p addr pid hc hf hpid, h'⟩
  | yield =>
      obtain ⟨k', hk', h'⟩ := resched_refines hr hi.sched
      exact ⟨k', _, _, .of_forall fun _ => by simp only [exec, sysYield, hk']; rfl, .yield, h'⟩
  | sleep now ns =>
      obtain ⟨p, hc⟩ := ha
      rw [hr.data] at hc
      obtain ⟨k', hk', h'⟩ := sysSleep_refines hr hi.sched hc.1 hc.2.1 now ns
      refine ⟨k', _, _, ⟨_, fun fuel hfuel => hk' fuel hfuel⟩, .sleep p now ns hc, ?_⟩
      exact Quiet.refines (sleep_quiet hi.sched hc.1 now ns) h'
  | wait status =>
      obtain ⟨p, hc⟩ := ha
      rw [hr.data] at hc
      obtain ⟨k', out, b, hk', hs, h'⟩ := sysWait_refines hr hi hc status
      exact ⟨k', out, b, .of_forall fun _ => hk', hs, h'⟩
  | exit status =>
      obtain ⟨p, hc, hpid⟩ := ha
      rw [hr.data] at hc hpid
      have hinit : p ≠ .initProc := by
        rintro rfl
        exact hpid hi.tree.init.1
      obtain ⟨k', parent, n, hp, hk', h'⟩ := sysExit_refines hr hi hc hinit status
      refine ⟨k', _, _, ⟨n, hk'⟩, .exit p parent status hc hpid hp, ?_⟩
      rwa [exist_congr (exit_allocated a p parent status)]
  | resume =>
      obtain ⟨p, hc, hres⟩ := ha
      rw [hr.data] at hc hres
      obtain ⟨k', out, b, hk', hs, h'⟩ := sysWaitResume_refines hr hi hc hres
      exact ⟨k', out, b, .of_forall fun _ => hk', hs, h'⟩
  | semWait sem =>
      obtain ⟨⟨p, hc⟩, hs, hv⟩ := ha
      rw [hr.data] at hc hs hv
      obtain ⟨k', hk', h'⟩ := semWait_refines hr hi.sched hc.1 hc.2.1 hs hv
      refine ⟨k', _, _, .of_forall fun _ => by simp only [exec, hk']; rfl, .semWait p sem hc hs, ?_⟩
      exact Quiet.refines (semWait_quiet hi.sched hc.1 sem) h'
  | semSignal sem =>
      obtain ⟨hs, hv⟩ := ha
      rw [hr.data] at hs hv
      obtain ⟨k', hk', h'⟩ := semSignal_refines hr hi.sched hs hv
      refine ⟨k', _, _, .of_forall fun _ => by simp only [exec, hk']; rfl, .semSignal sem hs, ?_⟩
      exact Quiet.refines (semSignal_quiet hi.sched sem) h'
  | semSignaln sem n =>
      obtain ⟨hs, hv⟩ := ha
      rw [hr.data] at hs hv
      obtain ⟨k', hk', h'⟩ := semSignaln_refines hr hi.sched hs hv
      refine ⟨k', _, _, .of_forall fun _ => by simp only [exec, hk']; rfl, .semSignaln sem n hs, ?_⟩
      exact Quiet.refines (semSignaln_quiet hi.sched hs n) h'
  | semDeinit sem =>
      obtain ⟨hs, hv⟩ := ha
      rw [hr.data] at hs hv
      obtain ⟨k', hk', h'⟩ := semDeinit_refines hr hi.sched hs hv
      refine ⟨k', _, _, ⟨(-a.semVal sem).toNat + 1, fun fuel hfuel => ?_⟩, .semDeinit sem hs, ?_⟩
      · simp only [exec, hk' fuel hfuel]; rfl
      · exact Quiet.refines (semSignaln_quiet hi.sched hs _) h'
  | timerIsr now =>
      rw [Allowed, listEmpty_sleepers hr] at ha
      cases hs : a.sleepers with
      | nil => rw [hs] at ha; cases ha
      | cons t rest =>
          cases t with
          | proc p =>
              obtain ⟨k', hk', h'⟩ := timerInterrupt_wakeup hr hi.sched hs now
              refine ⟨k', _, _, .of_forall fun fuel => by simp only [exec, hk' fuel]; rfl, .wakeup now p rest hs, ?_⟩
              exact Quiet.refines (wakeup_quiet hi.sched hs) h'
          | sched =>
              obtain ⟨k', hk', h'⟩ := timerInterrupt_preempt hr hi.sched hs now
              refine ⟨k', _, _, ⟨rest.length + 1, fun fuel hfuel => ?_⟩, .preempt now rest hs, h'⟩
              simp only [exec, hk' fuel hfuel]
              rfl

theorem step_simulates (h : Simulated k a) (hs : KernelRuns.Step k op out k') :
    ∃ b, KernelModel.Step a op out b ∧ Simulated k' b := by
  obtain ⟨k₁, out₁, b, hc, hstep, hb⟩ := exec_simulates h hs.1
  obtain ⟨rfl, rfl⟩ := Prod.mk.inj (hc.unique hs.2)
  exact ⟨b, hstep, hb⟩

def InRange (d : Data) : Op → Prop
  | .semWait sem => i32Min < d.semVal sem
  | .semSignal sem | .semDeinit sem => d.semVal sem < i32Max
  | .semSignaln sem n => d.semVal sem + n ≤ i32Max
  | _ => True

theorem allowed_of_step (h : Simulated k a) (hs : KernelModel.Step a op out b) (hr : InRange a.toData op) :
    Allowed k op := by
  have hd := h.refines.data
  cases hs with
  | semInit sem hs => rw [Allowed, hd]; exact hs
  | proc p addr pid hc ha hp => rw [Allowed, hd]; exact ⟨⟨p, hc⟩, ha, by rw [hp]; rfl⟩
  | yield => trivial
  | sleep p now ns hc | waitNone p _ hc | waitZombie p _ _ _ hc | waitBlock p _ hc => rw [Allowed, hd]; exact ⟨p, hc⟩
  | exit p parent status hc hi => rw [Allowed, hd]; exact ⟨p, hc, hi⟩
  | resume p addr hc hres => rw [Allowed, hd]; exact ⟨p, hc, hres⟩
  | semWait p sem hc hs => rw [Allowed, hd]; exact ⟨⟨p, hc⟩, hs, hr⟩
  | semSignal sem hs | semSignaln sem _ hs | semDeinit sem hs => rw [Allowed, hd]; exact ⟨hs, hr⟩
  | wakeup now p rest hs | preempt now rest hs => rw [Allowed, listEmpty_sleepers h.refines, hs]; rfl

/-- A step of the model is a step of the kernel. -/
theorem Simulated.realise (h : Simulated k a) (hs : KernelModel.Step a op out b) (hr : InRange a.toData op) :
    ∃ k', KernelRuns.Step k op out k' ∧ Simulated k' b := by
  have ha := allowed_of_step h hs hr
  obtain ⟨k', out', b', hc, hstep, hb⟩ := exec_simulates h ha
  obtain ⟨rfl, rfl⟩ := hs.unique hstep
  exact ⟨k', ⟨ha, hc⟩, hb⟩

end Karg.KernelSimulation
