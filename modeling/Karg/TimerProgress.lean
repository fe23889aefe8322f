import Karg.SchedulerAgreement
import Karg.SleepDuration

namespace Karg.TimerProgress

open LinkStore CircularList StableInsertion TimerService Process Sched Syscalls Execution KernelRuns KernelModel
  QueueInvariant SchedInvariant KernelInvariant KernelRefinement KernelSimulation KernelBoot SchedulerAgreement
  SleepDuration

def slice (timerFreq : Nat) : Nat := schedTimeslice / (nsInSec / timerFreq)

def Sorted (a : Model) : Prop := a.sleepers.Pairwise fun t u => (a.timer t).time ≤ (a.timer u).time

structure Punctual (a : Model) (now : Nat) : Prop where
  sched : .sched ∈ a.sleepers
  sorted : Sorted a
  soon : (a.timer .sched).time ≤ now + slice a.timerFreq

variable {a b c : Model} {p : ProcRef} {t : TimerRef} {rest : List TimerRef} {now : Nat} {op : Op} {out : Outcome}
  {s s' : Timed}

theorem deadline_le (timerFreq now ns : Nat) : deadline timerFreq now ns ≤ now + ns / (nsInSec / timerFreq) :=
  Nat.mod_le _ _

theorem Sorted.arm (h : Sorted a) (ht : t ∉ a.sleepers) (T : Timer Callback (Option ProcRef)) : Sorted (a.arm t T) := by
  have hsame : ∀ u ∈ a.sleepers, (a.arm t T).timer u = a.timer u := by
    intro u hu
    apply arm_timer_ne
    rintro rfl
    exact ht hu
  have hold : a.sleepers.Pairwise fun u v => ((a.arm t T).timer u).time ≤ ((a.arm t T).timer v).time := by
    refine h.imp_of_mem fun hu hv hle => ?_
    rwa [hsame _ hu, hsame _ hv]
  apply pairwise_insertBefore hold
  · intro u v huv hu
    exact decide_eq_true (Nat.lt_of_lt_of_le (of_decide_eq_true hu) huv)
  · intro u _ hu
    exact Nat.le_of_not_lt (of_decide_eq_false hu)
  · intro u _ hu
    exact Nat.le_of_lt (of_decide_eq_true hu)

theorem Sorted.less (h : Sorted a) (hs : a.sleepers = t :: rest) : Sorted { a with sleepers := rest } := by
  rw [Sorted, hs, List.pairwise_cons] at h
  exact h.2

theorem Sorted.first_le (h : Sorted a) (hs : a.sleepers = t :: rest) {u : TimerRef} (hu : u ∈ a.sleepers) :
    (a.timer t).time ≤ (a.timer u).time := by
  rw [Sorted, hs, List.pairwise_cons] at h
  rw [hs] at hu
  rcases List.mem_cons.mp hu with rfl | hu
  · exact Nat.le_refl _
  · exact h.1 u hu

theorem Punctual.of_clock (h : Punctual a now) (hc : clock b = clock a) {now' : Nat} (hn : now ≤ now') :
    Punctual b now' := by
  simp only [clock, Prod.mk.injEq] at hc
  obtain ⟨hs, ht, hf⟩ := hc
  refine ⟨hs ▸ h.sched, ?_, ?_⟩
  · rw [Sorted, hs, ht]
    exact h.sorted
  · rw [ht, hf]
    exact h.soon.trans (Nat.add_le_add_right hn _)

theorem Punctual.sleep (h : Punctual a now) (hp : .proc p ∉ a.sleepers) (T : Timer Callback (Option ProcRef)) :
    Punctual (a.arm (.proc p) T) now := by
  refine ⟨mem_insertBefore.mpr (.inr h.sched), h.sorted.arm hp T, ?_⟩
  rw [arm_timer_ne _ _ (by simp)]
  exact h.soon

theorem Punctual.wake (h : Punctual a now) (hs : a.sleepers = .proc p :: rest) :
    Punctual { a with sleepers := rest } now := by
  have hm := h.sched
  rw [hs] at hm
  exact ⟨(List.mem_cons.mp hm).resolve_left (by simp), h.sorted.less hs, h.soon⟩

theorem preempt_punctual (h : Sorted a) (hs : .sched ∉ a.sleepers) (now : Nat) : Punctual (a.preempt now) now := by
  refine ⟨mem_insertBefore.mpr (.inl rfl), h.arm hs _, ?_⟩
  rw [Model.preempt, arm_timer_self]
  exact deadline_le _ _ _

theorem not_mem_rest (hi : Scheduled a) (hs : a.sleepers = t :: rest) : t ∉ rest := by
  have hnd := hi.agree.sleepers_nodup
  rw [hs] at hnd
  exact (List.nodup_cons.mp hnd).1

theorem step_punctual (hi : Scheduled a) (h : Punctual a now) (hs : KernelModel.Step a op out b) {now' : Nat}
    (hn : now ≤ now') (hreads : ∀ n, readsClock op = some n → n = now') : Punctual b now' := by
  rcases step_clock hs with ⟨-, hc⟩ | ⟨p, n, ns, rfl, hp, hc⟩ | ⟨n, p, rest, rfl, hs, hc⟩ | ⟨n, rest, rfl, hs, hc⟩
  · exact h.of_clock hc hn
  · have hsleep : .proc p ∉ a.sleepers := by
      intro hm
      cases ((hi.agree.curr p).mp hp).2.2.symm.trans ((hi.agree.sleeping p).mp hm).2.2
    exact (h.sleep hsleep _).of_clock hc hn
  · exact (h.wake hs).of_clock hc hn
  · obtain rfl := hreads n rfl
    exact (preempt_punctual (h.sorted.less hs) (not_mem_rest hi hs) n).of_clock hc (Nat.le_refl n)

theorem start_punctual (k : Kernel) (now : Nat) : Punctual (start (powerOn k) now) now := by
  rw [start]
  refine Punctual.of_clock (preempt_punctual ?_ ?_ now) (clock_dispatch _) (Nat.le_refl now)
  · exact List.Pairwise.nil
  · exact List.not_mem_nil

theorem reached_punctual (h : SleepDuration.Reached s) : ∃ a, Kept s a ∧ Punctual a s.now := by
  induction h with
  | start hb =>
      obtain ⟨k₀, now, hp, hc, hn⟩ := hb
      exact ⟨_, kmain_kept hp hc, (start_punctual k₀ now).of_clock rfl hn⟩
  | next i _ ht ih =>
      obtain ⟨a, ha, hpun⟩ := ih
      obtain ⟨b, hstep, hb⟩ := ha.tick ht
      exact ⟨b, hb, step_punctual ha.simulated.invariant.sched hpun hstep ht.clock ht.reads⟩

/-- In every state of every run the queue of timers holds, once each and in the
order of their times, the timers of the sleeping processes and the one of the
scheduler. That one runs out within a slice, and the comparator is not later. -/
theorem preemption_timer_armed (h : SleepDuration.Reached s) : ∃ timers : List TimerRef,
    Circular s.kernel.timers.links .waitQueue (timers.map .node) ∧ timers.Nodup ∧
    timers.Pairwise (fun t u => (s.kernel.timers.timers t).time ≤ (s.kernel.timers.timers u).time) ∧
    .sched ∈ timers ∧ (∀ p, .proc p ∈ timers ↔ s.kernel.live p ∧ (s.kernel.procs p).state = .sleep) ∧
    (∀ t ∈ timers, s.kernel.timers.comparator ≤ (s.kernel.timers.timers t).time) ∧
    (s.kernel.timers.timers .sched).time ≤ s.now + slice s.kernel.timers.timerFreq := by
  obtain ⟨a, ha, hpun⟩ := reached_punctual h
  have hr := ha.simulated.refines
  have hag := agreement_of_simulated ha.simulated
  refine ⟨a.sleepers, (queues_of_refines hr).sleepers, hag.sleepers_nodup, ?_, hpun.sched, hag.mem_sleepers, ?_, ?_⟩
  · rw [hr.timer]
    exact hpun.sorted
  · intro t ht
    cases hs : a.sleepers with
    | nil =>
        rw [hs] at ht
        cases ht
    | cons u rest =>
        rw [ha.comparator_eq hs, hr.timer]
        exact hpun.sorted.first_le hs ht
  · rw [hr.timer, hr.timerFreq]
    exact hpun.soon

theorem preemption_timer_armed_boot : ∃ (s : Timed) (timers : List TimerRef), SleepDuration.Reached s ∧
    Circular s.kernel.timers.links .waitQueue (timers.map .node) ∧ .sched ∈ timers := by
  obtain ⟨k, hk, -⟩ := kmain_simulated blankKernel_powerOn 0
  have hreach : SleepDuration.Reached ⟨k, 0, fun _ => (0, 0)⟩ :=
    .start ⟨blankKernel, 0, blankKernel_powerOn, hk, Nat.le_refl 0⟩
  obtain ⟨timers, hq, -, -, hs, -⟩ := preemption_timer_armed hreach
  exact ⟨_, timers, hreach, hq, hs⟩

theorem sleeping_reached (now : Nat) : ∃ s, SleepDuration.Reached s ∧ Kept s (booted.sleep .initProc 0 150) ∧
    s.now = now ∧ s.asleep .initProc = (0, 150) := by
  obtain ⟨k, hk, -⟩ := kmain_simulated blankKernel_powerOn 0
  have h₀ : SleepDuration.Reached ⟨k, 0, fun _ => (0, 0)⟩ :=
    .start ⟨blankKernel, 0, blankKernel_powerOn, hk, Nat.le_refl 0⟩
  have hkept : Kept ⟨k, 0, fun _ => (0, 0)⟩ booted := kmain_kept blankKernel_powerOn hk
  obtain ⟨k₁, ht₁, hkept₁⟩ := hkept.realise (.sleep .initProc 0 150 ⟨rfl, by decide, rfl⟩) trivial 0 (Nat.le_refl 0)
    (fun n hn => (Option.some.inj hn).symm) (by simp)
  obtain ⟨k₂, ht₂, hkept₂⟩ := hkept₁.realise .yield trivial now (Nat.zero_le now) (by simp [readsClock]) (by simp)
  exact ⟨_, .next _ (.next _ h₀ ht₁) ht₂, hkept₂, rfl, rfl⟩

theorem sleeping_facts (h : Kept s (booted.sleep .initProc 0 150)) : s.kernel.live .initProc ∧
    (s.kernel.procs .initProc).state = .sleep ∧ s.kernel.timers.comparator = 1 ∧
    s.kernel.timers.timerFreq = 10000000 := by
  have hsl : (booted.sleep .initProc 0 150).sleepers = [.proc .initProc, .sched] := by decide
  refine ⟨rfl, ?_, ?_, h.simulated.refines.timerFreq⟩
  · exact (h.simulated.refines.state_eq .initProc).trans (by decide)
  · rw [h.comparator_eq hsl]
    decide

/-- No process oversleeps. As long as no timer interrupt is due, the deadline of
every sleeping process lies ahead. -/
theorem no_oversleep (h : SleepDuration.Reached s) (hc : s.now < s.kernel.timers.comparator) (hl : s.kernel.live p)
    (hp : (s.kernel.procs p).state = .sleep) :
    s.now < deadline s.kernel.timers.timerFreq (s.asleep p).1 (s.asleep p).2 := by
  obtain ⟨a, ha, hpun⟩ := reached_punctual h
  have hm := ((agreement_of_simulated ha.simulated).mem_sleepers p).mpr ⟨hl, hp⟩
  rw [ha.simulated.refines.timerFreq, ← ha.slept p hm]
  cases hs : a.sleepers with
  | nil =>
      rw [hs] at hm
      cases hm
  | cons t rest =>
      rw [ha.comparator_eq hs] at hc
      exact Nat.lt_of_lt_of_le hc (hpun.sorted.first_le hs hm)

theorem no_oversleep_init : ∃ s, SleepDuration.Reached s ∧ (s.kernel.procs .initProc).state = .sleep ∧
    s.now < deadline s.kernel.timers.timerFreq (s.asleep .initProc).1 (s.asleep .initProc).2 := by
  obtain ⟨s, hs, hkept, hnow, -⟩ := sleeping_reached 0
  obtain ⟨hl, hp, hc, -⟩ := sleeping_facts hkept
  exact ⟨s, hs, hp, no_oversleep hs (by rw [hnow, hc]; decide) hl hp⟩

def due (a : Model) (now : Nat) : Nat := a.sleepers.countP fun t => decide ((a.timer t).time ≤ now)

structure Woke (a b : Model) (now : Nat) : Prop where
  currProc : b.currProc = a.currProc
  live (p : ProcRef) : b.live p = a.live p
  timer (p : ProcRef) : b.timer (.proc p) = a.timer (.proc p)
  stay (p : ProcRef) : .proc p ∈ b.sleepers → .proc p ∈ a.sleepers ∧ (b.procs p).state = (a.procs p).state
  gone (p : ProcRef) : .proc p ∈ a.sleepers → .proc p ∉ b.sleepers →
    (a.timer (.proc p)).time ≤ now ∧ (b.procs p).state = .ready
  other (p : ProcRef) : .proc p ∉ a.sleepers → (b.procs p).state = (a.procs p).state

theorem Woke.refl (a : Model) (now : Nat) : Woke a a now where
  currProc := rfl
  live _ := rfl
  timer _ := rfl
  stay _ hp := ⟨hp, rfl⟩
  gone _ hp hno := absurd hp hno
  other _ _ := rfl

theorem Woke.trans (h : Woke a b now) (h' : Woke b c now) : Woke a c now where
  currProc := h'.currProc.trans h.currProc
  live p := (h'.live p).trans (h.live p)
  timer p := (h'.timer p).trans (h.timer p)
  stay p hp := by
    obtain ⟨hb, hs'⟩ := h'.stay p hp
    obtain ⟨ha, hs⟩ := h.stay p hb
    exact ⟨ha, hs'.trans hs⟩
  gone p hp hno := by
    by_cases hb : .proc p ∈ b.sleepers
    · have hgone := h'.gone p hb hno
      rwa [h.timer] at hgone
    · obtain ⟨htime, hstate⟩ := h.gone p hp hb
      exact ⟨htime, (h'.other p hb).trans hstate⟩
  other p hp := by
    have hb : .proc p ∉ b.sleepers := fun hm => hp (h.stay p hm).1
    exact (h'.other p hb).trans (h.other p hp)

theorem wake_woke (hi : Scheduled a) (hs : a.sleepers = .proc p :: rest) (hnow : (a.timer (.proc p)).time ≤ now) :
    Woke a (Model.wake { a with sleepers := rest } p) now where
  currProc := rfl
  live _ := rfl
  timer _ := rfl
  stay q hq := by
    have hne : q ≠ p := by
      rintro rfl
      exact not_mem_rest hi hs hq
    refine ⟨hs ▸ List.mem_cons_of_mem _ hq, ?_⟩
    exact congrArg Proc.state (setProc_procs_ne _ _ hne)
  gone q hq hno := by
    rw [hs] at hq
    obtain rfl := TimerRef.proc.inj ((List.mem_cons.mp hq).resolve_right hno)
    exact ⟨hnow, congrArg Proc.state (setProc_procs_self _ _ _)⟩
  other q hq := by
    have hne : q ≠ p := by
      rintro rfl
      exact hq (hs ▸ List.mem_cons_self)
    exact congrArg Proc.state (setProc_procs_ne _ _ hne)

theorem preempt_woke (hs : a.sleepers = .sched :: rest) (now : Nat) :
    Woke a (Model.preempt { a with sleepers := rest } now) now where
  currProc := rfl
  live _ := rfl
  timer _ := arm_timer_ne _ _ (by simp)
  stay p hp := by
    have hm := (mem_insertBefore.mp hp).resolve_left (by simp)
    exact ⟨hs ▸ List.mem_cons_of_mem _ hm, rfl⟩
  gone p hp hno := by
    rw [hs] at hp
    have hm := (List.mem_cons.mp hp).resolve_left (by simp)
    exact absurd (mem_insertBefore.mpr (.inr hm)) hno
  other _ _ := rfl

/-- A timer that has run out is gone when its callback is run. -/
theorem due_rest (hs : a.sleepers = t :: rest) (hnow : (a.timer t).time ≤ now) :
    due { a with sleepers := rest } now + 1 = due a now := by
  rw [due, due, hs, List.countP_cons_of_pos (p := fun u => decide ((a.timer u).time ≤ now)) (decide_eq_true hnow)]

theorem countP_insertBefore {α : Type} {q : α → Bool} (p : α → Bool) {x : α} (hx : q x = false) (xs : List α) :
    (insertBefore p x xs).countP q = xs.countP q := by
  rw [insertBefore, List.countP_append, List.countP_cons_of_neg (by simp [hx]), ← List.countP_append,
    List.takeWhile_append_dropWhile]

theorem due_preempt (hs : .sched ∉ a.sleepers) (hslice : 1 ≤ slice a.timerFreq) (hw : now + slice a.timerFreq < 2 ^ 64) :
    due (a.preempt now) now = due a now := by
  have htime : ((a.preempt now).timer .sched).time = now + slice a.timerFreq := by
    rw [Model.preempt, arm_timer_self]
    exact Nat.mod_eq_of_lt hw
  have hlate : decide (((a.preempt now).timer .sched).time ≤ now) = false := by
    apply decide_eq_false
    rw [htime]
    omega
  refine (countP_insertBefore (q := fun u => decide (((a.preempt now).timer u).time ≤ now)) _ hlate _).trans ?_
  refine List.countP_congr fun u hu => ?_
  rw [Model.preempt, arm_timer_ne]
  rintro rfl
  exact hs hu

/-- Timer interrupts, one after the other, while the clock shows the same time. -/
inductive Interrupts (s : Timed) : Nat → Timed → Prop
  | none : Interrupts s 0 s
  | next {n : Nat} {s' s'' : Timed} (h : Interrupts s n s') (out : Outcome) (ht : Tick s' (.timerIsr s'.now, out) s'')
      (hn : s''.now = s'.now) : Interrupts s (n + 1) s''

theorem interrupt_woke (hi : Scheduled a) (hslice : 1 ≤ slice a.timerFreq) (hw : now + slice a.timerFreq < 2 ^ 64)
    (hs : KernelModel.Step a (.timerIsr now) out b) (hdue : ∀ t rest, a.sleepers = t :: rest → (a.timer t).time ≤ now) :
    Woke a b now ∧ due b now + 1 = due a now ∧ b.timerFreq = a.timerFreq := by
  cases hs with
  | wakeup now p rest hs =>
      have htime := hdue _ _ hs
      exact ⟨wake_woke hi hs htime, due_rest hs htime, rfl⟩
  | preempt now rest hs =>
      refine ⟨preempt_woke hs now, ?_, rfl⟩
      have hsame : due (Model.preempt { a with sleepers := rest } now) now = due { a with sleepers := rest } now :=
        due_preempt (not_mem_rest hi hs) hslice hw
      rw [hsame]
      exact due_rest hs (hdue _ _ hs)

section Drain

variable (hslice : 1 ≤ slice a.timerFreq) (hw : s.now + slice a.timerFreq < 2 ^ 64)
include hslice hw

/-- What a number of interrupts does, one timer for each of them. -/
theorem interrupts_woke (ha : Kept s a) (hp : Punctual a s.now) {n : Nat} (h : Interrupts s n s') :
    ∃ b, Kept s' b ∧ Punctual b s.now ∧ Woke a b s.now ∧ due b s.now + n = due a s.now ∧ b.timerFreq = a.timerFreq ∧
      s'.now = s.now := by
  induction h with
  | none => exact ⟨a, ha, hp, Woke.refl a _, rfl, rfl, rfl⟩
  | next _ out ht hn ih =>
      obtain ⟨b, hb, hpb, hwoke, hdue, hfreq, hnow⟩ := ih
      obtain ⟨c, hstep, hc⟩ := hb.tick ht
      rw [hnow] at hstep ht hn
      have hpc := step_punctual hb.simulated.invariant.sched hpb hstep (Nat.le_refl _) fun n hn => (Option.some.inj hn).symm
      have hfirst : ∀ t rest, b.sleepers = t :: rest → (b.timer t).time ≤ s.now := by
        intro t rest hs
        rw [← hb.comparator_eq hs]
        exact ht.raised _ rfl
      rw [← hfreq] at hslice hw
      obtain ⟨hwoke', hdue', hfreq'⟩ := interrupt_woke hb.simulated.invariant.sched hslice hw hstep hfirst
      exact ⟨c, hc, hpc, hwoke.trans hwoke', by omega, hfreq'.trans hfreq, hn⟩

/-- As long as a timer has run out, its interrupt is raised and taken. -/
theorem interrupts_exist (ha : Kept s a) (hp : Punctual a s.now) {n : Nat} (hn : n ≤ due a s.now) :
    ∃ s', Interrupts s n s' := by
  induction n with
  | zero => exact ⟨s, .none⟩
  | succ n ih =>
      obtain ⟨s', h⟩ := ih (Nat.le_of_succ_le hn)
      obtain ⟨b, hb, hpb, -, hdue, -, hnow⟩ := interrupts_woke hslice hw ha hp h
      obtain ⟨u, hu, hlate⟩ := List.countP_pos_iff.mp (by omega : 0 < due b s.now)
      obtain ⟨t, rest, hs⟩ := List.exists_cons_of_ne_nil (List.ne_nil_of_mem hu)
      have hraised : s'.kernel.timers.comparator ≤ s'.now := by
        rw [hb.comparator_eq hs, hnow]
        exact (hpb.sorted.first_le hs hu).trans (of_decide_eq_true hlate)
      obtain ⟨c, hstep⟩ : ∃ c, KernelModel.Step b (.timerIsr s'.now) (.ret 0) c := by
        cases t with
        | sched => exact ⟨_, .preempt _ rest hs⟩
        | proc p => exact ⟨_, .wakeup _ p rest hs⟩
      obtain ⟨k', ht, -⟩ := hb.realise hstep trivial s'.now (Nat.le_refl _) (fun n hn => (Option.some.inj hn).symm)
        fun n hn => by
          cases hn
          exact hraised
      exact ⟨_, .next h _ ht rfl⟩

end Drain

/-- The state after the interrupts that are due: none is due any more, and the
processes whose sleep is over are ready. -/
structure Drained (s s' : Timed) : Prop where
  now : s'.now = s.now
  later : s.now < s'.kernel.timers.comparator
  currProc : s'.kernel.currProc = s.kernel.currProc
  state (p : ProcRef) : s.kernel.live p → (s'.kernel.procs p).state =
    if (s.kernel.procs p).state = .sleep ∧ deadline s.kernel.timers.timerFreq (s.asleep p).1 (s.asleep p).2 ≤ s.now
    then .ready else (s.kernel.procs p).state

theorem drained_of_woke {s' : Timed} (ha : Kept s a) (hb : Kept s' b) (hp : Punctual b s.now) (hw : Woke a b s.now)
    (hdue : due b s.now = 0) (hn : s'.now = s.now) : Drained s s' := by
  have hlate : ∀ t ∈ b.sleepers, s.now < (b.timer t).time := by
    intro t ht
    have hno := List.countP_eq_zero.mp hdue t ht
    exact Nat.lt_of_not_le fun hle => hno (decide_eq_true hle)
  have hr := ha.simulated.refines
  have hr' := hb.simulated.refines
  refine ⟨hn, ?_, ?_, fun p hl => ?_⟩
  · obtain ⟨t, rest, hs⟩ := List.exists_cons_of_ne_nil (List.ne_nil_of_mem hp.sched)
    rw [hb.comparator_eq hs]
    exact hlate t (hs ▸ List.mem_cons_self)
  · rw [hr'.data, hr.data, hw.currProc]
  · have hm := (agreement_of_simulated ha.simulated).mem_sleepers p
    rw [hr'.state_eq, hr.state_eq, hr.timerFreq]
    rw [hr.state_eq] at hm
    by_cases hin : .proc p ∈ a.sleepers
    · rw [← ha.slept p hin]
      by_cases hb : .proc p ∈ b.sleepers
      · have htime := hlate _ hb
        rw [hw.timer] at htime
        rw [if_neg fun hc => Nat.not_le.mpr htime hc.2]
        exact (hw.stay p hb).2
      · obtain ⟨htime, hready⟩ := hw.gone p hin hb
        rw [if_pos ⟨(hm.mp hin).2, htime⟩, hready]
    · rw [if_neg fun hc => hin (hm.mpr ⟨hl, hc.1⟩)]
      exact hw.other p hin

/-- The interrupts that are due come to an end if a slice is at least one tick: each
of them is for another timer that has run out, and after as many as there are such
timers none is due. By then every process whose sleep is over is ready. -/
theorem due_timers_drain (h : SleepDuration.Reached s) (hslice : 1 ≤ slice s.kernel.timers.timerFreq)
    (hw : s.now + slice s.kernel.timers.timerFreq < 2 ^ 64) : ∃ (timers : List TimerRef) (n : Nat),
    Circular s.kernel.timers.links .waitQueue (timers.map .node) ∧
    n = timers.countP (fun t => decide ((s.kernel.timers.timers t).time ≤ s.now)) ∧
    (∃ s', Interrupts s n s') ∧ (∀ m s', Interrupts s m s' → m ≤ n) ∧ ∀ s', Interrupts s n s' → Drained s s' := by
  obtain ⟨a, ha, hpun⟩ := reached_punctual h
  have hr := ha.simulated.refines
  rw [hr.timerFreq] at hslice hw
  refine ⟨a.sleepers, due a s.now, (queues_of_refines hr).sleepers, ?_, ?_, fun m s' hm => ?_, fun s' hi => ?_⟩
  · rw [hr.timer]
    rfl
  · exact interrupts_exist hslice hw ha hpun (Nat.le_refl _)
  · obtain ⟨b, -, -, -, hdue, -⟩ := interrupts_woke hslice hw ha hpun hm
    omega
  · obtain ⟨b, hb, hpb, hwoke, hdue, -, hnow⟩ := interrupts_woke hslice hw ha hpun hi
    exact drained_of_woke ha hb hpb hwoke (by omega) hnow

/-- The sleep of the init process is over at time one, and it is woken by the
interrupts that are due then. -/
theorem due_timers_drain_init : ∃ s n s', SleepDuration.Reached s ∧ (s.kernel.procs .initProc).state = .sleep ∧
    Interrupts s n s' ∧ (s'.kernel.procs .initProc).state = .ready := by
  obtain ⟨s, hs, hkept, hnow, hasleep⟩ := sleeping_reached 1
  obtain ⟨hl, hp, -, hfreq⟩ := sleeping_facts hkept
  obtain ⟨-, n, -, -, ⟨s', hi⟩, -, hd⟩ := due_timers_drain hs (by rw [hfreq]; decide) (by rw [hnow, hfreq]; decide)
  refine ⟨s, n, s', hs, hp, hi, ((hd s' hi).state .initProc hl).trans (if_pos ⟨hp, ?_⟩)⟩
  rw [hnow, hfreq, hasleep]
  decide

end Karg.TimerProgress
