import Karg.Comparator
import Karg.KernelBoot

namespace Karg.SleepDuration

open LinkStore ListNode TimerService TimerQueue StableInsertion Process Sched Syscalls Execution KernelRuns KernelModel
  SchedInvariant QueueInvariant KernelRefinement KernelSimulation KernelBoot Comparator

/-- The kernel with the clock of its machine. For each process, `asleep` holds the
time and the argument of its last call of `sys_sleep`. -/
structure Timed where
  kernel : Kernel
  now : Nat
  asleep : ProcRef → Nat × Nat

def readsClock : Op → Option Nat
  | .sleep now _ | .timerIsr now => some now
  | _ => none

def recorded (asleep : ProcRef → Nat × Nat) (curr : Option ProcRef) : Op → ProcRef → Nat × Nat
  | .sleep now ns, p => if curr = some p then (now, ns) else asleep p
  | _, p => asleep p

/-- The clock never goes back, and the timer interrupt is raised only when it has
reached the comparator. -/
structure Tick (s : Timed) (i : Op × Outcome) (s' : Timed) : Prop where
  step : KernelRuns.Step s.kernel i.1 i.2 s'.kernel
  clock : s.now ≤ s'.now
  reads (now : Nat) : readsClock i.1 = some now → now = s'.now
  raised (now : Nat) : i.1 = .timerIsr now → s.kernel.timers.comparator ≤ now
  asleep : s'.asleep = recorded s.asleep s.kernel.currProc i.1

def Booted (s : Timed) : Prop :=
  ∃ k₀ now, PowerOn k₀ ∧ Converges (fun fuel => kmain fuel now k₀) s.kernel ∧ now ≤ s.now

def Reached : Timed → Prop := Reachable Booted Tick

/-- The deadline of a call of `sys_sleep` lies late enough, and no process in such
a call is made ready too early. -/
structure SleepsEnough (timerFreq ns t0 : Nat) : Prop where
  deadline : ns * timerFreq ≤ (deadline timerFreq t0 ns - t0) * nsInSec
  ready (s s' : Timed) (i : Op × Outcome) (p : ProcRef) : Reached s → Tick s i s' →
    s.kernel.timers.timerFreq = timerFreq → s.asleep p = (t0, ns) → s.kernel.live p →
    (s.kernel.procs p).state = .sleep → (s'.kernel.procs p).state = .ready →
      ns * timerFreq ≤ (s'.now - t0) * nsInSec

variable {a b : Model} {op : Op} {out : Outcome} {p : ProcRef} {asleep : ProcRef → Nat × Nat} {s s' : Timed}

section Clock

def clock (a : Model) := (a.sleepers, a.timer, a.timerFreq)

theorem clock_dispatch (a : Model) : clock a.dispatch = clock a := by
  rw [Model.dispatch]
  split <;> rfl

theorem clock_semSignal (a : Model) (sem : SemRef) : clock (a.semSignal sem) = clock a := by
  rw [Model.semSignal]
  split
  · rw [Model.wakeFirst]
    split <;> rfl
  · rfl

theorem clock_semSignaln (a : Model) (sem : SemRef) (n : Nat) : clock (a.semSignaln sem n) = clock a := by
  induction n generalizing a with
  | zero => rfl
  | succ n ih => rw [Model.semSignaln, ih, clock_semSignal]

theorem clock_semWait (a : Model) (sem : SemRef) (p : ProcRef) : clock (a.semWait sem p) = clock a := by
  rw [Model.semWait]
  split
  · exact clock_dispatch _
  · rfl

theorem clock_exit (a : Model) (p parent : ProcRef) (status : BitVec 32) : clock (a.exit p parent status) = clock a := by
  refine (clock_dispatch _).trans ?_
  show clock ((a.leave p parent status).notify p parent) = clock a
  rw [Model.notify]
  split <;> rfl

theorem clock_sleep (a : Model) (p : ProcRef) (now ns : Nat) : clock (a.sleep p now ns) =
    clock (a.arm (.proc p) ⟨deadline a.timerFreq now ns, .wakeupProc, some p⟩) := clock_dispatch _

/-- The steps that touch a timer: a call of `sys_sleep` and the timer interrupt. -/
theorem step_clock (h : KernelModel.Step a op out b) : readsClock op = none ∧ clock b = clock a ∨
    (∃ p now ns, op = .sleep now ns ∧ a.currProc = some p ∧
      clock b = clock (a.arm (.proc p) ⟨deadline a.timerFreq now ns, .wakeupProc, some p⟩)) ∨
    (∃ now p rest, op = .timerIsr now ∧ a.sleepers = .proc p :: rest ∧ clock b = (rest, a.timer, a.timerFreq)) ∨
    ∃ now rest, op = .timerIsr now ∧ a.sleepers = .sched :: rest ∧
      clock b = clock (Model.preempt { a with sleepers := rest } now) := by
  cases h with
  | semInit | proc | yield | waitNone | waitZombie | resume => exact .inl ⟨rfl, rfl⟩
  | waitBlock => exact .inl ⟨rfl, clock_dispatch _⟩
  | exit => exact .inl ⟨rfl, clock_exit _ _ _ _⟩
  | semWait => exact .inl ⟨rfl, clock_semWait _ _ _⟩
  | semSignal => exact .inl ⟨rfl, clock_semSignal _ _⟩
  | semSignaln | semDeinit => exact .inl ⟨rfl, clock_semSignaln _ _ _⟩
  | sleep p now ns hc => exact .inr (.inl ⟨p, now, ns, rfl, hc.1, clock_sleep _ _ _ _⟩)
  | wakeup now p rest hs => exact .inr (.inr (.inl ⟨now, p, rest, rfl, hs, rfl⟩))
  | preempt now rest hs => exact .inr (.inr (.inr ⟨now, rest, rfl, hs, rfl⟩))

/-- A sleeping process whose timer is gone has been woken by the interrupt. -/
theorem expired (h : KernelModel.Step a op out b) (ha : .proc p ∈ a.sleepers) (hb : .proc p ∉ b.sleepers) :
    ∃ now rest, op = .timerIsr now ∧ a.sleepers = .proc p :: rest := by
  rcases step_clock h with ⟨-, hc⟩ | ⟨q, now, ns, -, -, hc⟩ | ⟨now, q, rest, rfl, hs, hc⟩ | ⟨now, rest, -, hs, hc⟩
  · have hsl : b.sleepers = a.sleepers := congrArg Prod.fst hc
    exact absurd (hsl ▸ ha) hb
  · have hsl : b.sleepers = insertBefore _ (.proc q) a.sleepers := congrArg Prod.fst hc
    rw [hsl, mem_insertBefore] at hb
    exact absurd (.inr ha) hb
  · have hsl : b.sleepers = rest := congrArg Prod.fst hc
    rw [hs] at ha
    rcases List.mem_cons.mp ha with he | ha
    · cases he
      exact ⟨now, rest, rfl, hs⟩
    · exact absurd (hsl.symm ▸ ha) hb
  · have hsl : b.sleepers = insertBefore _ .sched rest := congrArg Prod.fst hc
    rw [hsl, mem_insertBefore] at hb
    rw [hs] at ha
    exact absurd (.inr ((List.mem_cons.mp ha).resolve_left nofun)) hb

def Slept (a : Model) (asleep : ProcRef → Nat × Nat) : Prop :=
  ∀ p, .proc p ∈ a.sleepers → (a.timer (.proc p)).time = deadline a.timerFreq (asleep p).1 (asleep p).2

theorem Slept.of_clock (h : Slept a asleep) (hc : clock b = clock a) : Slept b asleep := by
  simp only [clock, Prod.mk.injEq] at hc
  obtain ⟨hs, ht, hf⟩ := hc
  intro p hp
  rw [ht, hf]
  exact h p (hs ▸ hp)

theorem Slept.sleep (h : Slept a asleep) {now ns : Nat} (hc : a.currProc = some p) :
    Slept (a.arm (.proc p) ⟨deadline a.timerFreq now ns, .wakeupProc, some p⟩)
      (recorded asleep a.currProc (.sleep now ns)) := by
  intro q hq
  by_cases hqp : q = p
  · subst hqp
    rw [recorded, if_pos hc]
    show (Function.update a.timer _ _ _).time = _
    rw [Function.update_self]
    rfl
  · have hne : TimerRef.proc q ≠ .proc p := fun he => hqp (TimerRef.proc.inj he)
    have hcurr : a.currProc ≠ some q := fun he => hqp (Option.some.inj (he.symm.trans hc))
    rw [recorded, if_neg hcurr]
    show (Function.update a.timer _ _ _).time = _
    rw [Function.update_of_ne hne]
    exact h q ((mem_insertBefore.mp hq).resolve_left hne)

theorem Slept.preempt (h : Slept a asleep) (now : Nat) : Slept (a.preempt now) asleep := by
  intro q hq
  have hne : TimerRef.proc q ≠ .sched := nofun
  show (Function.update a.timer _ _ _).time = _
  rw [Function.update_of_ne hne]
  exact h q ((mem_insertBefore.mp hq).resolve_left hne)

theorem Slept.less (h : Slept a asleep) {t : TimerRef} {rest : List TimerRef} (hs : a.sleepers = t :: rest) :
    Slept { a with sleepers := rest } asleep := fun p hp => h p (hs ▸ List.mem_cons_of_mem t hp)

theorem recorded_other (asleep : ProcRef → Nat × Nat) (curr : Option ProcRef) (h : readsClock op = none) :
    recorded asleep curr op = asleep := by
  cases op <;> first | rfl | cases h

theorem step_slept (hs : KernelModel.Step a op out b) (h : Slept a asleep) :
    Slept b (recorded asleep a.currProc op) := by
  rcases step_clock hs with ⟨ho, hc⟩ | ⟨p, now, ns, rfl, hp, hc⟩ | ⟨now, p, rest, rfl, hs, hc⟩ | ⟨now, rest, rfl, hs, hc⟩
  · rw [recorded_other _ _ ho]
    exact h.of_clock hc
  · exact (h.sleep hp).of_clock hc
  · exact (h.less hs).of_clock hc
  · exact ((h.less hs).preempt now).of_clock hc

end Clock

structure Kept (s : Timed) (a : Model) : Prop where
  simulated : Simulated s.kernel a
  programmed : Programmed s.kernel.timers
  slept : Slept a s.asleep

theorem Kept.comparator_eq (h : Kept s a) {t : TimerRef} {rest : List TimerRef} (hs : a.sleepers = t :: rest) :
    s.kernel.timers.comparator = (a.timer t).time := by
  have hf := h.simulated.refines.timers.front
  rw [hs] at hf
  rw [h.programmed t hf, h.simulated.refines.timer]

theorem Kept.tick {i : Op × Outcome} (h : Kept s a) (ht : Tick s i s') : ∃ b, KernelModel.Step a i.1 i.2 b ∧ Kept s' b := by
  obtain ⟨b, hstep, hb⟩ := step_simulates h.simulated ht.step
  obtain ⟨n, hn⟩ := ht.step.2
  refine ⟨b, hstep, hb, exec_programmed (hn n (Nat.le_refl n)) h.programmed, ?_⟩
  rw [ht.asleep, h.simulated.refines.data]
  exact step_slept hstep h.slept

theorem kmain_kept {k₀ : Kernel} {now : Nat} (hp : PowerOn k₀)
    (hc : Converges (fun fuel => kmain fuel now k₀) s.kernel) : Kept s (start (powerOn k₀) now) := by
  have hs := simulated_of_kmain hp hc
  obtain ⟨n, hn⟩ := hc
  refine ⟨hs, kmain_programmed (hn n (Nat.le_refl n)) ?_, fun p hp => ?_⟩
  · intro t ht
    cases (CircularList.circular_next hp.waitQueue).symm.trans ht
  · have hsl : (start (powerOn k₀) now).sleepers = [.sched] := rfl
    rw [hsl] at hp
    cases List.mem_singleton.mp hp

theorem reached_kept (h : Reached s) : ∃ a, Kept s a := by
  induction h with
  | start hb =>
      obtain ⟨k₀, now, hp, hc, -⟩ := hb
      exact ⟨_, kmain_kept hp hc⟩
  | next i _ ht ih =>
      obtain ⟨a, ha⟩ := ih
      obtain ⟨b, -, hb⟩ := ha.tick ht
      exact ⟨b, hb⟩

/-- A process is not made ready before its deadline. -/
theorem ready_after_deadline {i : Op × Outcome} (h : Reached s) (ht : Tick s i s') (hl : s.kernel.live p)
    (hp : (s.kernel.procs p).state = .sleep) (hp' : (s'.kernel.procs p).state = .ready) :
    deadline s.kernel.timers.timerFreq (s.asleep p).1 (s.asleep p).2 ≤ s'.now := by
  obtain ⟨a, ha⟩ := reached_kept h
  obtain ⟨b, hstep, hb⟩ := ha.tick ht
  have hr := ha.simulated.refines
  rw [hr.data] at hl
  have hin : .proc p ∈ a.sleepers :=
    (ha.simulated.invariant.sched.agree.sleeping p).mpr ⟨hl, nofun, (hr.state_eq p).symm.trans hp⟩
  have hout : .proc p ∉ b.sleepers := by
    intro hm
    obtain ⟨-, -, hs⟩ := (hb.simulated.invariant.sched.agree.sleeping p).mp hm
    rw [← hb.simulated.refines.state_eq, hp'] at hs
    cases hs
  obtain ⟨now, rest, ho, hs⟩ := expired hstep hin hout
  have hraised := ht.raised now ho
  rw [ha.comparator_eq hs, ha.slept p hin, ← hr.timerFreq] at hraised
  rwa [ht.reads now (by rw [ho]; rfl)] at hraised

/-- The two roundings, down to whole nanoseconds in a tick and down to whole ticks. -/
theorem ticks_enough_iff (timerFreq ns : Nat) : ns * timerFreq ≤ ns / (nsInSec / timerFreq) * nsInSec ↔
    ns % (nsInSec / timerFreq) * timerFreq ≤ ns / (nsInSec / timerFreq) * (nsInSec % timerFreq) := by
  set q := nsInSec / timerFreq with hq
  have hns : ns * timerFreq = ns / q * q * timerFreq + ns % q * timerFreq := by
    rw [← Nat.add_mul, Nat.mul_comm (ns / q), Nat.div_add_mod]
  have hsec : ns / q * nsInSec = ns / q * q * timerFreq + ns / q * (nsInSec % timerFreq) := by
    rw [Nat.mul_assoc, ← Nat.mul_add, hq, Nat.mul_comm (nsInSec / timerFreq), Nat.div_add_mod]
  rw [hns, hsec, Nat.add_le_add_iff_left]

theorem deadline_sub {timerFreq ns t0 : Nat} (hw : t0 + ns / (nsInSec / timerFreq) < 2 ^ 64) :
    deadline timerFreq t0 ns - t0 = ns / (nsInSec / timerFreq) := by
  rw [deadline, Nat.mod_eq_of_lt hw, Nat.add_sub_cancel_left]

/-- A sleep is long enough exactly when what is lost by rounding down to whole
ticks is made up for by the ticks that are shorter than assumed. -/
theorem sleeps_enough_iff (timerFreq ns t0 : Nat) (_hf : 1 ≤ timerFreq ∧ timerFreq ≤ nsInSec)
    (hw : t0 + ns / (nsInSec / timerFreq) < 2 ^ 64) : SleepsEnough timerFreq ns t0 ↔
      ns % (nsInSec / timerFreq) * timerFreq ≤ ns / (nsInSec / timerFreq) * (nsInSec % timerFreq) := by
  rw [← ticks_enough_iff, ← deadline_sub hw]
  constructor
  · exact SleepsEnough.deadline
  · intro hd
    refine ⟨hd, fun s s' i p hs ht hf ha hl hp hp' => hd.trans ?_⟩
    have hlate := ready_after_deadline hs ht hl hp hp'
    rw [hf, ha] at hlate
    exact Nat.mul_le_mul_right _ (Nat.sub_le_sub_right hlate t0)

theorem sleeps_enough_iff_whole : SleepsEnough 10000000 200 0 :=
  (sleeps_enough_iff 10000000 200 0 (by decide) (by decide)).mpr (by decide)

theorem Kept.realise (h : Kept s a) (hs : KernelModel.Step a op out b) (hr : InRange a.toData op) (now : Nat)
    (hnow : s.now ≤ now) (hreads : ∀ n, readsClock op = some n → n = now)
    (hraised : ∀ n, op = .timerIsr n → s.kernel.timers.comparator ≤ n) :
    ∃ k', Tick s (op, out) ⟨k', now, recorded s.asleep a.currProc op⟩ ∧
      Kept ⟨k', now, recorded s.asleep a.currProc op⟩ b := by
  obtain ⟨k', hk, hb⟩ := h.simulated.realise hs hr
  have ht : Tick s (op, out) ⟨k', now, recorded s.asleep a.currProc op⟩ :=
    ⟨hk, hnow, hreads, hraised, by rw [h.simulated.refines.data]⟩
  obtain ⟨b', hb', hkept⟩ := h.tick ht
  obtain ⟨-, rfl⟩ := hs.unique hb'
  exact ⟨k', ht, hkept⟩

/-- At ten million ticks in a second, the init process calls `sys_sleep` for 150
nanoseconds at time zero. It is made ready when the clock shows one, which stands
for 100 nanoseconds. -/
theorem sleep_too_short : ∃ s s' i, Reached s ∧ Tick s i s' ∧ s.kernel.timers.timerFreq = 10000000 ∧
    s.asleep .initProc = (0, 150) ∧ s.kernel.live .initProc ∧ (s.kernel.procs .initProc).state = .sleep ∧
    (s'.kernel.procs .initProc).state = .ready ∧ (s'.now - 0) * nsInSec < 150 * 10000000 := by
  obtain ⟨k, hk, -⟩ := kmain_simulated blankKernel_powerOn 0
  have h₀ : Reached ⟨k, 0, fun _ => (0, 0)⟩ := .start ⟨blankKernel, 0, blankKernel_powerOn, hk, Nat.le_refl 0⟩
  have hkept : Kept ⟨k, 0, fun _ => (0, 0)⟩ booted := kmain_kept blankKernel_powerOn hk
  obtain ⟨k₁, ht₁, hkept₁⟩ := hkept.realise (.sleep .initProc 0 150 ⟨rfl, nofun, rfl⟩) trivial 0 (Nat.le_refl 0)
    (fun n hn => (Option.some.inj hn).symm) nofun
  have h₁ : Reached _ := .next _ h₀ ht₁
  have hsl : (booted.sleep .initProc 0 150).sleepers = [.proc .initProc, .sched] := by decide
  have hshort : (1 - 0) * nsInSec < 150 * 10000000 := by decide
  have htime : ((booted.sleep .initProc 0 150).timer (.proc .initProc)).time = 1 := by decide
  obtain ⟨k₂, ht₂, hkept₂⟩ := hkept₁.realise (.wakeup 1 .initProc [.sched] hsl) trivial 1 (Nat.zero_le 1)
    (fun n hn => (Option.some.inj hn).symm) fun n hn => by
      cases hn
      rw [hkept₁.comparator_eq hsl, htime]
  refine ⟨_, _, _, h₁, ht₂, hkept₁.simulated.refines.timerFreq, rfl, rfl, ?_, ?_, hshort⟩
  · exact (hkept₁.simulated.refines.state_eq .initProc).trans (by decide)
  · exact (hkept₂.simulated.refines.state_eq .initProc).trans (by decide)

end Karg.SleepDuration
