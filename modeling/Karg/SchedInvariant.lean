import Karg.QueueInvariant

namespace Karg.SchedInvariant

open StableInsertion TimerService Process Sched KernelRuns KernelModel KernelModel.Model QueueInvariant

variable {a b : Model} {p q : ProcRef} {state : ProcState} {sem : SemRef}

theorem agree_wake (ha : Agree a (some p)) (hp : a.live p) : Agree (a.wake p) none :=
  ha.enqueue hp (h := .readyQueue) (by simp) (List.Perm.refl _)

theorem agree_dispatch (ha : Agree a none) (hc : a.currProc = none) (hq : q ∈ a.queue .readyQueue) :
    Agree a.dispatch none ∧ ∃ p, a.dispatch.currProc = some p := by
  cases hr : a.queue .readyQueue with
  | nil => simp [hr] at hq
  | cons p rest =>
      have hp := ha.mem .readyQueue p (by rw [hr]; exact List.mem_cons_self)
      simp only [Model.dispatch, hr]
      exact ⟨(ha.pop hr).run hp.1 hc, p, rfl⟩

theorem dispatch_state (a : Model) (q : ProcRef) :
    (a.dispatch.procs q).state = (a.procs q).state ∨ (a.dispatch.procs q).state = .curr := by
  cases hr : a.queue .readyQueue with
  | nil => simp only [Model.dispatch, hr, true_or]
  | cons p rest =>
      simp only [Model.dispatch, hr, setState_state]
      by_cases hq : q = p
      · exact .inr (if_pos hq)
      · exact .inl (if_neg hq)

structure Upkeep (a : Model) : Prop where
  idle : (a.procs .idleProc).state = .ready ∨ (a.procs .idleProc).state = .curr
  started (p : ProcRef) : a.live p → (a.procs p).state ≠ .init
  count (sem : SemRef) : a.semInited sem → (a.queue (.waitQueue sem)).length = (-a.semVal sem).toNat
  unused (sem : SemRef) : a.semInited sem = false → a.queue (.waitQueue sem) = []
  wakeup (p : ProcRef) : .proc p ∈ a.sleepers →
    (a.timer (.proc p)).callback = .wakeupProc ∧ (a.timer (.proc p)).data = some p
  preempt : .sched ∈ a.sleepers → (a.timer .sched).callback = .schedPreempt

def frame (a : Model) :=
  (a.allocated, a.semVal, a.semInited, a.sleepers, a.timer, fun sem => a.queue (.waitQueue sem))

theorem Upkeep.transfer (hu : Upkeep a) (hf : frame b = frame a)
    (hs : ∀ q, (b.procs q).state = (a.procs q).state ∨ (b.procs q).state = .ready ∨ (b.procs q).state = .curr ∨
      q ≠ .idleProc ∧ (b.procs q).state ≠ .init) : Upkeep b := by
  simp only [frame, Prod.mk.injEq] at hf
  obtain ⟨hl, hv, hi, hz, ht, hq⟩ := hf
  have hlive : ∀ q, b.live q = a.live q := Data.live_congr hl
  constructor
  · rcases hs .idleProc with h | h | h | h
    · rw [h]; exact hu.idle
    · exact .inl h
    · exact .inr h
    · exact absurd rfl h.1
  · intro q hq
    rcases hs q with h | h | h | h
    · rw [h]; exact hu.started q (hlive q ▸ hq)
    · simp [h]
    · simp [h]
    · exact h.2
  · intro sem hsem
    rw [congrFun hq sem, hv]
    exact hu.count sem (hi ▸ hsem)
  · intro sem hsem
    rw [congrFun hq sem]
    exact hu.unused sem (hi ▸ hsem)
  · intro q hm
    rw [ht]
    exact hu.wakeup q (hz ▸ hm)
  · intro hm
    rw [ht]
    exact hu.preempt (hz ▸ hm)

theorem Upkeep.wake (hu : Upkeep a) (p : ProcRef) : Upkeep (a.wake p) := by
  refine hu.transfer rfl ?_
  intro q
  simp only [Model.wake, Model.push, setState_state]
  by_cases hq : q = p
  · exact .inr (.inl (if_pos hq))
  · exact .inl (if_neg hq)

theorem frame_dispatch (a : Model) : frame a.dispatch = frame a := by
  cases hr : a.queue .readyQueue with
  | nil | cons => simp only [Model.dispatch, hr, frame]; try rfl

theorem Upkeep.block (hu : Upkeep a) (hp : p ≠ .idleProc) (hs : state ≠ .init) : Upkeep (a.block p state) := by
  refine hu.transfer (frame_dispatch _) ?_
  intro q
  rcases dispatch_state { a with toData := { a.setState p state with currProc := none } } q with h | h
  · simp only [setState_state] at h
    by_cases hq : q = p
    · rw [if_pos hq] at h
      refine .inr (.inr (.inr ⟨hq ▸ hp, ?_⟩))
      rwa [Model.block, h]
    · rw [if_neg hq] at h
      exact .inl h
  · exact .inr (.inr (.inl h))

structure Scheduled (a : Model) : Prop extends Upkeep a where
  agree : Agree a none
  running : ∃ p, a.currProc = some p

theorem Scheduled.idle_ready (hi : Scheduled a) (hc : a.currProc = some p) (hp : p ≠ .idleProc) :
    .idleProc ∈ a.queue .readyQueue := by
  rcases hi.idle with h | h
  · exact hi.agree.ready _ ⟨rfl, by simp, h⟩
  · have hr := (hi.agree.curr .idleProc).mpr ⟨rfl, by simp, h⟩
    exact absurd (Option.some.inj (hc.symm.trans hr)) hp

theorem Scheduled.transfer (hi : Scheduled a) (hs : ∀ q, (b.procs q).state = (a.procs q).state)
    (hf : frame b = frame a) (hv : (b.currProc, b.queue) = (a.currProc, a.queue)) : Scheduled b := by
  have hu := hi.toUpkeep.transfer hf fun q => .inl (hs q)
  simp only [frame, Prod.mk.injEq] at hf hv
  obtain ⟨hl, -, -, hz, -, -⟩ := hf
  obtain ⟨hc, hq⟩ := hv
  refine ⟨hu, hi.agree.transfer ?_ (by rw [hc, hq, hz]), hc ▸ hi.running⟩
  intro q state
  simp only [At, Data.live_congr hl, hs]

theorem scheduled_setProc (hi : Scheduled a) {x : Proc} (hx : x.state = (a.procs p).state) :
    Scheduled { a with toData := a.setProc p x } := by
  refine hi.transfer ?_ rfl rfl
  intro q
  by_cases hq : q = p
  · subst hq; rw [setProc_procs_self, hx]
  · rw [setProc_procs_ne _ _ hq]

/-- The current process goes to a state and place of its own. -/
theorem scheduled_block (hu : Upkeep a) (hp : p ≠ .idleProc) (hs : state ≠ .init)
    (hq : q ∈ a.queue .readyQueue)
    (ha : Agree { a with toData := { a.setState p state with currProc := none } } none) :
    Scheduled (a.block p state) :=
  ⟨hu.block hp hs, (agree_dispatch ha rfl hq).1, (agree_dispatch ha rfl hq).2⟩

theorem block_detached (hi : Scheduled a) (hc : a.currProc = some p) (hp : p ≠ .idleProc)
    (hs : Detached state) (hne : state ≠ .init) : Scheduled (a.block p state) :=
  scheduled_block hi.toUpkeep hp hne (hi.idle_ready hc hp) ((hi.agree.stop hc).detach hs)

theorem Upkeep.expire (hu : Upkeep a) {t : TimerRef} {rest : List TimerRef} (hs : a.sleepers = t :: rest) :
    Upkeep { a with sleepers := rest } := by
  have hsub : ∀ {u}, u ∈ rest → u ∈ a.sleepers := by
    intro u hm
    rw [hs]
    exact List.mem_cons_of_mem _ hm
  exact {
    idle := hu.idle
    started := hu.started
    count := hu.count
    unused := hu.unused
    wakeup := fun q hq => hu.wakeup q (hsub hq)
    preempt := fun hq => hu.preempt (hsub hq) }

theorem wakeup_scheduled (hi : Scheduled a) {rest : List TimerRef} (hs : a.sleepers = .proc p :: rest) :
    Scheduled (Model.wake { a with sleepers := rest } p) := by
  have hp := (hi.agree.sleeping p).mp (by rw [hs]; exact List.mem_cons_self)
  exact ⟨(hi.toUpkeep.expire hs).wake p, agree_wake (hi.agree.expire hs) hp.1, hi.running⟩

section Arm

variable {t : TimerRef} {T : Timer Callback (Option ProcRef)}

theorem arm_sleepers_perm (a : Model) (t : TimerRef) (T : Timer Callback (Option ProcRef)) :
    (a.arm t T).sleepers.Perm (t :: a.sleepers) := by
  simp only [Model.arm, insertBefore]
  refine List.perm_middle.trans (List.Perm.cons _ ?_)
  rw [List.takeWhile_append_dropWhile]

theorem arm_timer_ne (a : Model) (T : Timer Callback (Option ProcRef)) {u : TimerRef} (hu : u ≠ t) :
    (a.arm t T).timer u = a.timer u := Function.update_of_ne hu ..

theorem arm_timer_self (a : Model) (t : TimerRef) (T : Timer Callback (Option ProcRef)) :
    (a.arm t T).timer t = T := Function.update_self ..

theorem Upkeep.armSched (hu : Upkeep a) (hT : T.callback = .schedPreempt) : Upkeep (a.arm .sched T) where
  idle := hu.idle
  started := hu.started
  count := hu.count
  unused := hu.unused
  wakeup q hq := by
    rw [arm_timer_ne _ _ (by simp)]
    refine hu.wakeup q ?_
    simpa using (arm_sleepers_perm a .sched T).mem_iff.mp hq
  preempt _ := by rw [arm_timer_self, hT]

theorem Upkeep.armProc (hu : Upkeep a) (hT : T.callback = .wakeupProc) (hd : T.data = some p) :
    Upkeep (a.arm (.proc p) T) where
  idle := hu.idle
  started := hu.started
  count := hu.count
  unused := hu.unused
  wakeup q hq := by
    by_cases he : q = p
    · subst he; rw [arm_timer_self]; exact ⟨hT, hd⟩
    · rw [arm_timer_ne _ _ (by simpa using he)]
      refine hu.wakeup q ?_
      simpa [he] using (arm_sleepers_perm a (.proc p) T).mem_iff.mp hq
  preempt hq := by
    rw [arm_timer_ne _ _ (by simp)]
    exact hu.preempt (by simpa using (arm_sleepers_perm a (.proc p) T).mem_iff.mp hq)

theorem sleep_scheduled (hi : Scheduled a) (hc : a.currProc = some p) (hp : p ≠ .idleProc) (now ns : Nat) :
    Scheduled (a.sleep p now ns) := by
  refine scheduled_block (hi.toUpkeep.armProc rfl rfl) hp (by simp) (hi.idle_ready hc hp) ?_
  have ha := (hi.agree.stop hc).fallAsleep ((hi.agree.curr p).mp hc).1
    (arm_sleepers_perm a (.proc p) ⟨deadline a.timerFreq now ns, .wakeupProc, some p⟩)
  exact ha.transfer (fun _ _ => Iff.rfl) rfl

theorem preempt_scheduled (hi : Scheduled a) {rest : List TimerRef} (hs : a.sleepers = .sched :: rest)
    (now : Nat) : Scheduled (Model.preempt { a with sleepers := rest } now) := by
  have hnd := hi.agree.sleepers_nodup
  rw [hs, List.nodup_cons] at hnd
  refine ⟨(hi.toUpkeep.expire hs).armSched rfl, ?_, hi.running⟩
  have hperm := arm_sleepers_perm { a with sleepers := rest } .sched
    ⟨deadline a.timerFreq now schedTimeslice, .schedPreempt, none⟩
  exact {
    curr := hi.agree.curr
    mem := hi.agree.mem
    ready := hi.agree.ready
    waiting := hi.agree.waiting
    sleeping := fun q => by
      refine hperm.mem_iff.trans ((Iff.trans ?_ (hi.agree.sleeping q)))
      rw [hs]
    nodup := hi.agree.nodup
    unique := hi.agree.unique
    sleepers_nodup := hperm.nodup_iff.mpr (List.nodup_cons.mpr hnd) }

end Arm

end Karg.SchedInvariant
