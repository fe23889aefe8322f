import Karg.TimerInvariant
import Karg.TimerProgress

namespace Karg.TimerRefinement

open LinkStore CircularList ListNode StableInsertion TimerService TimerQueue TimerRuns TimerInvariant Process Sched
  Syscalls Execution KernelRuns KernelModel SchedInvariant QueueInvariant KernelRefinement KernelSimulation KernelBoot
  SchedulerAgreement Comparator SleepDuration TimerProgress

section Service

variable {τ C D : Type} [DecidableEq τ] {σ : System τ C D} {q : List τ} {t : τ}

theorem Invariant.queue_eq (h : Invariant σ q) {q' : List τ} (hq : WaitQueue σ.service q') : q' = q := by
  have hmap := circular_unique hq (h.holds.circular .waitQueue trivial) (by simp) (by simp [rings])
  exact List.map_injective_iff.mpr (fun _ _ => TimerNode.node.inj) hmap

theorem Invariant.programmed (h : Invariant σ q) : Programmed σ.service := by
  intro t ht
  rw [h.holds.front] at ht
  rw [h.comparator]
  cases q with
  | nil => cases ht
  | cons u q =>
      cases ht
      rfl

theorem service_wait (h : Reachable Start TimerRuns.Step σ) (hq : WaitQueue σ.service q) (ht : t ∉ q) {ns : Nat}
    (callback : C) (data : D) (hns : σ.now + ns / (nsInSec / σ.service.timerFreq) < 2 ^ 64) : ∃ σ',
      Reachable Start TimerRuns.Step σ' ∧ σ'.now = σ.now ∧ σ'.service.timerFreq = σ.service.timerFreq ∧
      σ'.service.timers =
        Function.update σ.service.timers t ⟨deadline σ.service.timerFreq σ.now ns, callback, data⟩ ∧
      WaitQueue σ'.service (insertBefore (fun u => runsBefore σ'.service t (.node u)) t q) := by
  obtain ⟨q', hi⟩ := reachable_invariant h
  obtain rfl := Invariant.queue_eq hi hq
  obtain ⟨s, hw, htimers, hfreq, hh, -⟩ := timerWait_holds hi.holds ht σ.now ns callback data
  refine ⟨σ.arm t s callback data, ?_, rfl, hfreq, htimers, hh.circular .waitQueue trivial⟩
  refine h.next (.wait t ns callback data) ⟨⟨not_queued hq ht, hns⟩, q.length + 1, fun fuel hfuel => ?_⟩
  simp only [TimerRuns.exec, hw fuel hfuel, Option.map_some]

theorem service_isr (h : Reachable Start TimerRuns.Step σ) (hq : WaitQueue σ.service (t :: q))
    (hdue : (σ.service.timers t).time ≤ σ.now) (hmax : σ.now < timeMax) : ∃ σ',
      Reachable Start TimerRuns.Step σ' ∧ σ'.now = σ.now ∧ σ'.service.timerFreq = σ.service.timerFreq ∧
      σ'.service.timers = σ.service.timers ∧ WaitQueue σ'.service q := by
  obtain ⟨q', hi⟩ := reachable_invariant h
  obtain rfl := Invariant.queue_eq hi hq
  obtain ⟨s, hs, hh, htimers, hfreq, -⟩ := timerIsr_holds hi.holds
  have hcomp : σ.service.comparator = (σ.service.timers t).time := hi.comparator
  refine ⟨σ.run s t, ?_, rfl, hfreq, htimers, hh.circular .waitQueue trivial⟩
  refine h.next .isr ⟨⟨hcomp ▸ hdue, hmax⟩, .of_forall fun _ => ?_⟩
  simp only [TimerRuns.exec, hs, Option.map_some]

theorem service_advance (h : Reachable Start TimerRuns.Step σ) {now : Nat} (hn : σ.now ≤ now) :
    Reachable Start TimerRuns.Step { σ with now := now } :=
  h.next (.advance now) ⟨hn, .of_forall fun _ => rfl⟩

end Service

structure Drives (a : Model) (now : Nat) (σ : System TimerRef Callback (Option ProcRef)) : Prop where
  reached : Reachable Start TimerRuns.Step σ
  now : σ.now = now
  timerFreq : σ.service.timerFreq = a.timerFreq
  timers : σ.service.timers = a.timer
  queue : WaitQueue σ.service a.sleepers

/-- A tick that sets no deadline past the end of the clock. -/
structure TickInTime (s : Timed) (i : KernelRuns.Op × Outcome) (s' : Timed) : Prop extends Tick s i s' where
  sleep (now ns : Nat) : i.1 = .sleep now ns → now + ns / (nsInSec / s.kernel.timers.timerFreq) < 2 ^ 64
  isr (now : Nat) : i.1 = .timerIsr now → now + slice s.kernel.timers.timerFreq < 2 ^ 64 ∧ now < timeMax

def BootedInTime (s : Timed) : Prop :=
  ∃ k₀ now, PowerOn k₀ ∧ Converges (fun fuel => kmain fuel now k₀) s.kernel ∧ now ≤ s.now ∧
    now + slice k₀.timers.timerFreq < 2 ^ 64

def ReachedInTime : Timed → Prop := Reachable BootedInTime TickInTime

variable {a b : Model} {now : Nat} {σ : System TimerRef Callback (Option ProcRef)} {t : TimerRef} {rest : List TimerRef}
  {s s' : Timed} {i : KernelRuns.Op × Outcome}

theorem Drives.of_clock (h : Drives a now σ) (hc : clock b = clock a) : Drives b now σ := by
  simp only [clock, Prod.mk.injEq] at hc
  obtain ⟨hs, ht, hf⟩ := hc
  refine ⟨h.reached, h.now, ?_, ?_, ?_⟩
  · rw [hf]
    exact h.timerFreq
  · rw [ht]
    exact h.timers
  · rw [hs]
    exact h.queue

theorem Drives.advance (h : Drives a now σ) {now' : Nat} (hn : now ≤ now') : Drives a now' { σ with now := now' } :=
  ⟨service_advance h.reached (h.now ▸ hn), rfl, h.timerFreq, h.timers, h.queue⟩

theorem Drives.arm (h : Drives a now σ) (ht : t ∉ a.sleepers) {ns : Nat} (callback : Callback) (data : Option ProcRef)
    (hns : now + ns / (nsInSec / a.timerFreq) < 2 ^ 64) :
    ∃ σ', Drives (a.arm t ⟨deadline a.timerFreq now ns, callback, data⟩) now σ' := by
  obtain ⟨σ', hr, hnow, hfreq, htimers, hq⟩ := service_wait h.reached h.queue ht callback data
    (by rwa [h.now, h.timerFreq])
  rw [h.now, h.timerFreq, h.timers] at htimers
  refine ⟨σ', hr, hnow.trans h.now, hfreq.trans h.timerFreq, htimers, ?_⟩
  simp only [runsBefore, htimers] at hq
  exact hq

theorem Drives.expire (h : Drives a now σ) (hs : a.sleepers = t :: rest) (hdue : (a.timer t).time ≤ now)
    (hmax : now < timeMax) : ∃ σ', Drives { a with sleepers := rest } now σ' := by
  obtain ⟨σ', hr, hnow, hfreq, htimers, hq⟩ := service_isr h.reached (hs ▸ h.queue) (by rwa [h.timers, h.now])
    (by rwa [h.now])
  exact ⟨σ', hr, hnow.trans h.now, hfreq.trans h.timerFreq, htimers.trans h.timers, hq⟩

/-- A call of `sys_sleep` arms a timer, and an interrupt runs the first one out, which
the scheduler then arms anew. -/
theorem Drives.tick (h : Drives a s.now σ) (ha : Kept s a) (ht : TickInTime s i s')
    (hs : KernelModel.Step a i.1 i.2 b) : ∃ σ', Drives b s'.now σ' := by
  have hi := ha.simulated.invariant.sched
  have hfreq := ha.simulated.refines.timerFreq
  have h := h.advance ht.clock
  have hdue : ∀ {n t rest}, i.1 = .timerIsr n → a.sleepers = t :: rest → (a.timer t).time ≤ s'.now := by
    intro n t rest ho hs
    rw [← ha.comparator_eq hs, ← ht.reads n (by rw [ho]; rfl)]
    exact ht.raised n ho
  rcases step_clock hs with ⟨-, hc⟩ | ⟨p, n, ns, ho, hp, hc⟩ | ⟨n, p, rest, ho, hs, hc⟩ | ⟨n, rest, ho, hs, hc⟩
  · exact ⟨_, h.of_clock hc⟩
  · have hsleep : .proc p ∉ a.sleepers := by
      intro hm
      cases ((hi.agree.curr p).mp hp).2.2.symm.trans ((hi.agree.sleeping p).mp hm).2.2
    obtain rfl := ht.reads n (by rw [ho]; rfl)
    obtain ⟨σ', hσ'⟩ := h.arm hsleep .wakeupProc (some p) (hfreq ▸ ht.sleep _ ns ho)
    exact ⟨σ', hσ'.of_clock hc⟩
  · obtain rfl := ht.reads n (by rw [ho]; rfl)
    obtain ⟨σ', hσ'⟩ := h.expire hs (hdue ho hs) (ht.isr _ ho).2
    exact ⟨σ', hσ'.of_clock hc⟩
  · obtain rfl := ht.reads n (by rw [ho]; rfl)
    obtain ⟨σ₁, hσ₁⟩ := h.expire hs (hdue ho hs) (ht.isr _ ho).2
    obtain ⟨σ', hσ'⟩ := hσ₁.arm (not_mem_rest hi hs) .schedPreempt none (hfreq ▸ (ht.isr _ ho).1)
    exact ⟨σ', hσ'.of_clock hc⟩

def idleService (k : Kernel) (now : Nat) : System TimerRef Callback (Option ProcRef) where
  service := ⟨⟨id, id⟩, k.timers.timers, timeMax, k.timers.timerFreq⟩
  now := now
  initialised _ := false
  armings := []
  lastArming _ := 0
  cancelled := []
  callbacks := []

theorem start_drives (k : Kernel) {now : Nat} (hw : now + slice k.timers.timerFreq < 2 ^ 64) :
    ∃ σ, Drives (start (powerOn k) now) now σ := by
  have hempty : WaitQueue (idleService k now).service [] := List.isChain_cons_cons.mpr ⟨⟨rfl, rfl⟩, .singleton _⟩
  have hidle : Drives (powerOn k) now (idleService k now) :=
    ⟨.start ⟨hempty, rfl, fun _ => rfl, rfl, rfl, rfl⟩, rfl, rfl, rfl, hempty⟩
  obtain ⟨σ, hσ⟩ := hidle.arm (t := .sched) List.not_mem_nil .schedPreempt none hw
  exact ⟨σ, hσ.of_clock (clock_dispatch _)⟩

theorem reached_drives (h : ReachedInTime s) : ∃ a σ, Kept s a ∧ Punctual a s.now ∧ Drives a s.now σ := by
  induction h with
  | start hb =>
      obtain ⟨k₀, now, hp, hc, hn, hw⟩ := hb
      obtain ⟨σ, hσ⟩ := start_drives k₀ hw
      exact ⟨_, _, kmain_kept hp hc, (start_punctual k₀ now).of_clock rfl hn, hσ.advance hn⟩
  | next i _ ht ih =>
      obtain ⟨a, σ, ha, hpun, hσ⟩ := ih
      obtain ⟨b, hstep, hb⟩ := ha.tick ht.toTick
      obtain ⟨σ', hσ'⟩ := hσ.tick ha ht hstep
      exact ⟨b, σ', hb, step_punctual ha.simulated.invariant.sched hpun hstep ht.clock ht.reads, hσ'⟩

/-- As long as no deadline passes the end of the clock, the kernel uses the timer
service as it wants to be used: the queue, the times, the comparator and the clock of
the kernel are those of a run of the service. So the order of its queue is not only
that of the times, as in `TimerProgress.Sorted`, but also that of the calls. -/
theorem kernel_drives_service (h : ReachedInTime s) : ∃ (σ : System TimerRef Callback (Option ProcRef)) (q : List TimerRef),
    Reachable Start TimerRuns.Step σ ∧ σ.now = s.now ∧ σ.service.timerFreq = s.kernel.timers.timerFreq ∧
    σ.service.timers = s.kernel.timers.timers ∧ σ.service.comparator = s.kernel.timers.comparator ∧
    WaitQueue σ.service q ∧ WaitQueue s.kernel.timers q ∧
    q.Pairwise fun t u => Before (σ.key t) (σ.key u) := by
  obtain ⟨a, σ, ha, hpun, hσ⟩ := reached_drives h
  have hr := ha.simulated.refines
  obtain ⟨q, hi⟩ := reachable_invariant hσ.reached
  obtain rfl := Invariant.queue_eq hi hσ.queue
  have hcomp : σ.service.comparator = s.kernel.timers.comparator := by
    cases hs : a.sleepers with
    | nil =>
        have hm := hpun.sched
        rw [hs] at hm
        cases hm
    | cons t rest =>
        have hfront := hi.holds.front
        rw [hs] at hfront
        rw [ha.comparator_eq hs, Invariant.programmed hi t hfront, hσ.timers]
  exact ⟨σ, a.sleepers, hσ.reached, hσ.now, by rw [hσ.timerFreq, hr.timerFreq], by rw [hσ.timers, hr.timer], hcomp,
    hσ.queue, (queues_of_refines hr).sleepers, hi.sorted⟩

end Karg.TimerRefinement
