import Karg.Reaping
import Karg.RoundRobin

namespace Karg.SemHistory

open LinkStore CircularList ListNode Process Syscalls Execution KernelRuns KernelModel SchedInvariant SemInvariant
  KernelInvariant KernelRefinement KernelSimulation KernelBoot SchedulerAgreement Reaping
open WaitHistory (Event)

/-- The semaphore has been set up by `sem_init`, and `sem_deinit` has not been
called on it since. -/
def InUse (sem : SemRef) : List Event → Prop :=
  Since (fun e _ => e.op = .semInit sem) fun e => e.op ≠ .semDeinit sem

structure Account where
  callers : List ProcRef
  signals : Nat

def record (sem : SemRef) (e : Event) (acc : Account) : Account :=
  match e.op with
  | .semInit s => if s = sem then ⟨[], 0⟩ else acc
  | .semWait s => if s = sem then { acc with callers := acc.callers ++ e.caller.toList } else acc
  | .semSignal s => if s = sem then { acc with signals := acc.signals + 1 } else acc
  | .semSignaln s n => if s = sem then { acc with signals := acc.signals + n } else acc
  | _ => acc

def account (sem : SemRef) (log : List Event) : Account := log.foldr (record sem) ⟨[], 0⟩

def lastWait (p : ProcRef) : List Event → Option SemRef
  | [] => none
  | e :: log =>
      match e.op with
      | .semWait sem => if e.caller = some p then some sem else lastWait p log
      | _ => lastWait p log

variable {k k' : Kernel} {a b : Model} {p : ProcRef} {sem s : SemRef} {n : Nat} {op : Op} {out : Outcome}
  {log : List Event} {acc : Account}

structure Tally (a : Model) (sem : SemRef) (acc : Account) : Prop where
  val : a.semVal sem = acc.signals - acc.callers.length
  queue : a.queue (.waitQueue sem) = acc.callers.drop acc.signals

structure Signalled (a : Model) (sem : SemRef) (n : Nat) (b : Model) : Prop where
  val : b.semVal = Function.update a.semVal sem (a.semVal sem + n)
  inited : b.semInited = a.semInited
  waiting : b.queue (.waitQueue sem) = (a.queue (.waitQueue sem)).drop n
  others (s : SemRef) : s ≠ sem → b.queue (.waitQueue s) = a.queue (.waitQueue s)
  ready : b.queue .readyQueue = ((a.queue (.waitQueue sem)).take n).reverse ++ a.queue .readyQueue
  state (p : ProcRef) :
    (b.procs p).state = if p ∈ (a.queue (.waitQueue sem)).take n then .ready else (a.procs p).state
  currProc : b.currProc = a.currProc

theorem semSignal_signalled (hi : Scheduled a) (hs : a.semInited sem) : Signalled a sem 1 (a.semSignal sem) := by
  have hcount := hi.count sem hs
  rw [Model.semSignal]
  cases hq : a.queue (.waitQueue sem) with
  | nil =>
      rw [hq] at hcount
      rw [if_neg (by simp at hcount; omega)]
      constructor <;> simp [Data.setVal, hq]
  | cons p rest =>
      rw [hq, List.length_cons] at hcount
      rw [if_pos (by omega), Model.wakeFirst, hq]
      constructor
      · rfl
      · rfl
      · simp [Model.wake, Model.push, hq]
      · intro s hs
        simp [Model.wake, Model.push, Function.update_of_ne, hs]
      · simp [Model.wake, Model.push, hq]
      · intro q
        simp [Model.wake, Model.push, setState_state, hq, Data.setVal]
      · rfl

theorem Signalled.trans {m : Nat} {c : Model} (h : Signalled a sem m b) (h' : Signalled b sem n c) :
    Signalled a sem (m + n) c := by
  constructor
  · rw [h'.val, h.val, Function.update_idem, Function.update_self]
    congr 1
    push_cast
    omega
  · rw [h'.inited, h.inited]
  · rw [h'.waiting, h.waiting, List.drop_drop]
  · intro s hs
    rw [h'.others s hs, h.others s hs]
  · rw [h'.ready, h.ready, h.waiting, List.take_add, List.reverse_append, List.append_assoc]
  · intro q
    rw [h'.state, h.state, h.waiting, List.take_add]
    by_cases h1 : q ∈ (a.queue (.waitQueue sem)).take m
    · simp [h1]
    · simp [h1]
  · rw [h'.currProc, h.currProc]

theorem semSignaln_signalled (hi : Scheduled a) (hs : a.semInited sem) (n : Nat) :
    Signalled a sem n (a.semSignaln sem n) := by
  induction n generalizing a with
  | zero => constructor <;> simp [Model.semSignaln]
  | succ n ih =>
      have h := semSignal_signalled hi hs
      have h' := ih (semSignal_scheduled hi hs) (by rw [semSignal_semInited]; exact hs)
      have ht := h.trans h'
      rwa [Nat.add_comm] at ht

theorem Signalled.tally (h : Signalled a sem n b) (ht : Tally a sem acc) :
    Tally b sem { acc with signals := acc.signals + n } := by
  constructor
  · rw [h.val, Function.update_self, ht.val]
    push_cast
    omega
  · rw [h.waiting, ht.queue, List.drop_drop]

theorem Signalled.tally_ne (h : Signalled a sem n b) (hs : s ≠ sem) (ht : Tally a s acc) : Tally b s acc :=
  ⟨by rw [h.val, Function.update_of_ne hs, ht.val], by rw [h.others s hs, ht.queue]⟩

def Kept (a b : Model) : Prop :=
  b.semVal = a.semVal ∧ b.semInited = a.semInited ∧ ∀ sem, b.queue (.waitQueue sem) = a.queue (.waitQueue sem)

theorem block_kept (a : Model) (p : ProcRef) (state : ProcState) : Kept a (a.block p state) := by
  have hf := frame_dispatch { a with toData := { a.setState p state with currProc := none } }
  simp only [frame, Prod.mk.injEq] at hf
  exact ⟨hf.2.1, hf.2.2.1, congrFun hf.2.2.2.2.2⟩

theorem exit_kept (a : Model) (p parent : ProcRef) (status : BitVec 32) : Kept a (a.exit p parent status) := by
  have hb := block_kept ((a.leave p parent status).notify p parent) p .zombie
  have hn : Kept a ((a.leave p parent status).notify p parent) := by
    rw [Model.notify]
    split <;> exact ⟨rfl, rfl, fun _ => rfl⟩
  exact ⟨hb.1.trans hn.1, hb.2.1.trans hn.2.1, fun sem => (hb.2.2 sem).trans (hn.2.2 sem)⟩

theorem semWait_waiting (a : Model) (sem : SemRef) (p : ProcRef) :
    (a.semWait sem p).semVal = Function.update a.semVal sem (a.semVal sem - 1) ∧
      (a.semWait sem p).semInited = a.semInited ∧ ∀ s, (a.semWait sem p).queue (.waitQueue s) =
        if s = sem ∧ a.semVal sem ≤ 0 then a.queue (.waitQueue sem) ++ [p] else a.queue (.waitQueue s) := by
  rw [Model.semWait]
  split
  · next hneg =>
    have hb := block_kept { a with
      toData := a.setVal sem (a.semVal sem - 1)
      queue := Function.update a.queue (.waitQueue sem) (a.queue (.waitQueue sem) ++ [p]) } p .waitSem
    refine ⟨hb.1, hb.2.1, fun s => (hb.2.2 s).trans ?_⟩
    by_cases hss : s = sem
    · subst hss
      rw [if_pos ⟨rfl, by omega⟩]
      exact Function.update_self ..
    · rw [if_neg fun h => hss h.1]
      exact Function.update_of_ne (by simpa using hss) ..
  · next hneg =>
    refine ⟨rfl, rfl, fun s => ?_⟩
    rw [if_neg fun h => by omega]

structure History (a : Model) (log : List Event) : Prop where
  tally (sem : SemRef) : InUse sem log → a.semInited sem ∧ Tally a sem (account sem log)
  waited (sem : SemRef) (p : ProcRef) : p ∈ a.queue (.waitQueue sem) → lastWait p log = some sem

def Silent : Op → Prop
  | .semInit _ | .semWait _ | .semSignal _ | .semSignaln _ _ | .semDeinit _ => False
  | _ => True

theorem History.kept (h : History a log) (hk : Kept a b) (he : Silent op) (caller : Option ProcRef) (out : Outcome) :
    History b (⟨caller, op, out⟩ :: log) := by
  obtain ⟨hv, hin, hq⟩ := hk
  constructor
  · intro sem hu
    have hu' : InUse sem log := by
      rcases since_cons.mp hu with hu | hu
      · cases hu
        exact he.elim
      · exact hu.2
    obtain ⟨hs, ht⟩ := h.tally sem hu'
    have hr : account sem (⟨caller, op, out⟩ :: log) = account sem log := by
      cases op <;> first | rfl | exact he.elim
    rw [hin, hr]
    exact ⟨hs, by rw [hv, ht.val], by rw [hq, ht.queue]⟩
  · intro sem p hp
    rw [hq] at hp
    have hw := h.waited sem p hp
    cases op <;> first | exact hw | exact he.elim

theorem History.waited_signalled (h : History a log) (hs : Signalled a sem n b) (s : SemRef) (p : ProcRef)
    (hp : p ∈ b.queue (.waitQueue s)) : lastWait p log = some s := by
  by_cases hss : s = sem
  · subst hss
    rw [hs.waiting] at hp
    exact h.waited s p (List.mem_of_mem_drop hp)
  · rw [hs.others s hss] at hp
    exact h.waited s p hp

theorem History.signal (h : History a log) (hs : Signalled a sem n b) {e : Event}
    (he : e.op = .semSignaln sem n ∨ e.op = .semSignal sem ∧ n = 1) : History b (e :: log) := by
  obtain ⟨caller, op, out⟩ := e
  have hr : ∀ s acc, record s ⟨caller, op, out⟩ acc = if sem = s then ⟨acc.callers, acc.signals + n⟩ else acc := by
    rcases he with rfl | ⟨rfl, rfl⟩ <;> exact fun _ _ => rfl
  have hw : ∀ p, lastWait p (⟨caller, op, out⟩ :: log) = lastWait p log := by
    rcases he with rfl | ⟨rfl, rfl⟩ <;> exact fun _ => rfl
  have hn : ∀ s, op ≠ .semInit s := by
    rcases he with rfl | ⟨rfl, rfl⟩ <;> exact nofun
  refine ⟨fun s hu => ?_, fun s p hp => (hw p).trans (h.waited_signalled hs s p hp)⟩
  obtain ⟨hin, ht⟩ := h.tally s ((since_cons.mp hu).resolve_left (hn s)).2
  have ha : account s (⟨caller, op, out⟩ :: log) = record s ⟨caller, op, out⟩ (account s log) := rfl
  rw [hs.inited, ha, hr]
  by_cases hss : sem = s
  · subst hss
    rw [if_pos rfl]
    exact ⟨hin, hs.tally ht⟩
  · rw [if_neg hss]
    exact ⟨hin, hs.tally_ne (Ne.symm hss) ht⟩

theorem History.deinit (h : History a log) (hs : Signalled a sem n b) (caller : Option ProcRef) (out : Outcome) :
    History b (⟨caller, .semDeinit sem, out⟩ :: log) := by
  refine ⟨fun s hu => ?_, fun s p hp => h.waited_signalled hs s p hp⟩
  obtain ⟨hd, hu⟩ := (since_cons.mp hu).resolve_left nofun
  obtain ⟨hin, ht⟩ := h.tally s hu
  have hss : s ≠ sem := by
    rintro rfl
    exact hd rfl
  exact ⟨by rw [hs.inited, hin], hs.tally_ne hss ht⟩

theorem History.init (h : History a log) (hi : Scheduled a) (hs : a.semInited sem = false) (caller : Option ProcRef)
    (out : Outcome) : History (a.semInit sem) (⟨caller, .semInit sem, out⟩ :: log) := by
  refine ⟨fun s hu => ?_, fun s p hp => h.waited s p hp⟩
  by_cases hss : sem = s
  · subst hss
    refine ⟨by simp [Model.semInit], ?_, ?_⟩
    · simp [Model.semInit, Data.setVal, account, record]
    · exact (hi.unused sem hs).trans (by simp [account, record])
  · obtain ⟨hin, ht⟩ := h.tally s ((since_cons.mp hu).resolve_left fun he => hss (Op.semInit.inj he)).2
    have hr : account s (⟨caller, .semInit sem, out⟩ :: log) = account s log := if_neg hss
    rw [hr]
    refine ⟨by simpa [Model.semInit, Function.update_of_ne (Ne.symm hss)] using hin, ?_, ht.queue⟩
    simpa [Model.semInit, Data.setVal, Function.update_of_ne (Ne.symm hss)] using ht.val

theorem History.wait (h : History a log) (hi : Scheduled a) (hc : a.currProc = some p) (sem : SemRef) (out : Outcome) :
    History (a.semWait sem p) (⟨a.currProc, .semWait sem, out⟩ :: log) := by
  obtain ⟨hv, hin', hq⟩ := semWait_waiting a sem p
  constructor
  · intro s hu
    obtain ⟨hin, ht⟩ := h.tally s ((since_cons.mp hu).resolve_left nofun).2
    refine ⟨by rw [hin', hin], ?_⟩
    by_cases hss : sem = s
    · subst hss
      have hr : account sem (⟨a.currProc, .semWait sem, out⟩ :: log) =
          ⟨(account sem log).callers ++ [p], (account sem log).signals⟩ := by
        simp [account, record, hc]
      have hval := ht.val
      rw [hr]
      constructor <;> dsimp only
      · rw [hv, Function.update_self, hval, List.length_append]
        push_cast
        simp only [List.length_cons, List.length_nil]
        omega
      · rw [hq]
        by_cases hneg : a.semVal sem ≤ 0
        · rw [if_pos ⟨rfl, hneg⟩, ht.queue, List.drop_append_of_le_length (by omega)]
        · -- There have been more signals than calls, so this one is served at once.
          rw [if_neg fun h => hneg h.2, ht.queue, List.drop_eq_nil_of_le (by omega), List.drop_eq_nil_of_le]
          rw [List.length_append, List.length_singleton]
          omega
    · have hr : account s (⟨a.currProc, .semWait sem, out⟩ :: log) = account s log := if_neg hss
      rw [hr]
      refine ⟨by rw [hv, Function.update_of_ne (Ne.symm hss), ht.val], ?_⟩
      rw [hq, if_neg fun h => hss h.1.symm, ht.queue]
  · intro s q hm
    rw [hq] at hm
    by_cases hqp : q = p
    · subst hqp
      have hno := SemRefinement.curr_not_mem hi hc (.waitQueue s)
      split at hm
      · next hs =>
        rw [hs.1]
        simp [lastWait, hc]
      · exact absurd hm hno
    · have hm' : q ∈ a.queue (.waitQueue s) := by
        split at hm
        · next hs =>
          rw [hs.1]
          simpa [hqp] using hm
        · exact hm
      have hne : a.currProc ≠ some q := fun he => hqp (Option.some.inj (hc.symm.trans he)).symm
      exact (if_neg hne).trans (h.waited s q hm')

theorem step_history (hi : Invariant a) (h : History a log) (hs : KernelModel.Step a op out b) :
    History b (⟨a.currProc, op, out⟩ :: log) := by
  cases hs with
  | semInit sem hs => exact h.init hi.sched hs _ _
  | proc | yield | waitNone | waitZombie | resume | wakeup | preempt =>
      apply h.kept
      · exact ⟨rfl, rfl, fun _ => rfl⟩
      · trivial
  | sleep | waitBlock =>
      apply h.kept
      · exact block_kept _ _ _
      · trivial
  | exit p parent status hc =>
      apply h.kept
      · exact exit_kept a p parent status
      · trivial
  | semWait p sem hc hs => exact h.wait hi.sched hc.1 sem _
  | semSignal sem hs => exact h.signal (semSignal_signalled hi.sched hs) (.inr ⟨rfl, rfl⟩)
  | semSignaln sem n hs => exact h.signal (semSignaln_signalled hi.sched hs n) (.inl rfl)
  | semDeinit sem hs => exact h.deinit (semSignaln_signalled hi.sched hs _) _ _

theorem traced_history (h : Traced log k) : ∃ a, Simulated k a ∧ History a log := by
  induction h with
  | boot hb =>
      obtain ⟨k₀, now, hp, hc⟩ := hb
      refine ⟨_, simulated_of_kmain hp hc, fun sem ⟨recent, e, older, he, _⟩ => ?_, fun sem p hm => ?_⟩
      · simp at he
      · rw [start_queue] at hm
        simp at hm
  | step _ hs ih =>
      obtain ⟨a, ha, hlog⟩ := ih
      obtain ⟨b, hstep, hb⟩ := step_simulates ha hs
      rw [ha.refines.data]
      exact ⟨b, hb, step_history ha.invariant hlog hstep⟩

structure Wakes (k : Kernel) (woken : List ProcRef) (k' : Kernel) : Prop where
  nodup : woken.Nodup
  blocked (p : ProcRef) : p ∈ woken → (k.procs p).state = .waitSem
  state (p : ProcRef) : (k'.procs p).state = if p ∈ woken then .ready else (k.procs p).state
  ready (l : List ProcRef) : Circular k.queues .readyQueue (l.map .node) →
    Circular k'.queues .readyQueue ((woken.reverse ++ l).map .node)
  currProc : k'.currProc = k.currProc

/-- A semaphore with these waiters serves the calls of its history in order. -/
structure Serves (k : Kernel) (sem : SemRef) (log : List Event) (waiters : List ProcRef) : Prop where
  queue : Circular k.queues (.waitQueue sem) (waiters.map .node)
  val : k.semVal sem = (account sem log).signals - (account sem log).callers.length
  length : waiters.length = (-k.semVal sem).toNat
  order : waiters = (account sem log).callers.drop (account sem log).signals
  blocked (p : ProcRef) : p ∈ waiters ↔ k.live p ∧ (k.procs p).state = .waitSem ∧ lastWait p log = some sem
  proceeded : (account sem log).callers.length - waiters.length ≤ (account sem log).signals
  progress (op : Op) : Allowed k op → ∃ out k', KernelRuns.Step k op out k'
  signal (out : Outcome) (k' : Kernel) : KernelRuns.Step k (.semSignal sem) out k' → Wakes k (waiters.take 1) k'
  signaln (n : Nat) (out : Outcome) (k' : Kernel) : KernelRuns.Step k (.semSignaln sem n) out k' →
    Wakes k (waiters.take n) k'
  deinit (out : Outcome) (k' : Kernel) : KernelRuns.Step k (.semDeinit sem) out k' →
    Wakes k waiters k' ∧ Circular k'.queues (.waitQueue sem) []

theorem Signalled.wakes (h : Signalled a sem n b) (ha : Simulated k a) (hb : Simulated k' b) :
    Wakes k ((a.queue (.waitQueue sem)).take n) k' := by
  have hag := ha.invariant.sched.agree
  constructor
  · exact (hag.nodup (.waitQueue sem)).sublist (List.take_sublist _ _)
  · intro p hp
    rw [ha.refines.data]
    exact (hag.mem (.waitQueue sem) p (List.mem_of_mem_take hp)).2.2
  · intro p
    rw [hb.refines.data, ha.refines.data]
    exact h.state p
  · intro l hl
    obtain rfl := RoundRobin.ready_eq ha hl
    rw [← h.ready]
    exact (queues_of_refines hb.refines).ready
  · rw [hb.refines.data, ha.refines.data, h.currProc]

/-- In every run each semaphore in use serves the calls of `sem_wait` in their
order, one for each signal. -/
theorem semaphore_serves (h : Traced log k) (hu : InUse sem log) : ∃ waiters, Serves k sem log waiters := by
  obtain ⟨a, ha, hlog⟩ := traced_history h
  obtain ⟨hs, ht⟩ := hlog.tally sem hu
  have hi := ha.invariant.sched
  have hag := hi.agree
  have hd := ha.refines.data
  have hcount := hi.count sem hs
  refine ⟨a.queue (.waitQueue sem), ?_⟩
  constructor
  · exact (queues_of_refines ha.refines).waiting sem (by rw [hd]; exact hs)
  · rw [hd, ht.val]
  · rw [hd, hcount]
  · exact ht.queue
  · intro p
    rw [hd]
    constructor
    · intro hp
      have hat := hag.mem (.waitQueue sem) p hp
      exact ⟨hat.1, hat.2.2, hlog.waited sem p hp⟩
    · rintro ⟨hl, hst, hw⟩
      obtain ⟨s, hm⟩ := hag.waiting p (at_none.mpr ⟨hl, hst⟩)
      rwa [← Option.some.inj ((hlog.waited s p hm).symm.trans hw)]
  · rw [ht.queue, List.length_drop]
    omega
  · intro op hop
    obtain ⟨k', out, b, hc, -, -⟩ := exec_simulates ha hop
    exact ⟨out, k', hop, hc⟩
  · intro out k' hstep
    obtain ⟨b, hm, hb⟩ := step_simulates ha hstep
    cases hm
    exact (semSignal_signalled hi hs).wakes ha hb
  · intro n out k' hstep
    obtain ⟨b, hm, hb⟩ := step_simulates ha hstep
    cases hm
    exact (semSignaln_signalled hi hs n).wakes ha hb
  · intro out k' hstep
    obtain ⟨b, hm, hb⟩ := step_simulates ha hstep
    cases hm
    have hsig := semSignaln_signalled hi hs ((-a.semVal sem).toNat + 1)
    have hw := hsig.wakes ha hb
    rw [List.take_of_length_le (by omega)] at hw
    refine ⟨hw, ?_⟩
    have hq := (queues_of_refines hb.refines).waiting sem (by rw [hb.refines.data, hsig.inited]; exact hs)
    rwa [hsig.waiting, List.drop_eq_nil_of_le (by omega)] at hq

/-- The init process sets up a semaphore, creates a process and waits. Then the new
process waits too, and the first signal wakes the init process. -/
theorem semaphore_serves_first : ∃ log k, Traced log k ∧ InUse 0 log ∧
    account 0 log = ⟨[.initProc, .heap 4096], 1⟩ ∧ Serves k 0 log [.heap 4096] ∧
    (k.procs .initProc).state = .ready := by
  obtain ⟨k₀, hb, h₀⟩ := booted_simulated
  obtain ⟨k₁, hs₁, h₁⟩ := h₀.realise (.semInit 0 rfl) trivial
  obtain ⟨k₂, hs₂, h₂⟩ := h₁.realise (.proc .initProc 4096 2 ⟨rfl, by decide, rfl⟩ rfl rfl) trivial
  obtain ⟨k₃, hs₃, h₃⟩ := h₂.realise (.semWait .initProc 0 ⟨rfl, by decide, rfl⟩ rfl) (show i32Min < 0 by decide)
  obtain ⟨k₄, hs₄, h₄⟩ := h₃.realise (.semWait (.heap 4096) 0 ⟨rfl, by decide, rfl⟩ rfl) (show i32Min < -1 by decide)
  obtain ⟨k₅, hs₅, h₅⟩ := h₄.realise (.semSignal 0 rfl) (show (-2 : Int) < i32Max by decide)
  have ht := (((((Traced.boot hb).step hs₁).step hs₂).step hs₃).step hs₄).step hs₅
  have hcurr₂ : k₂.currProc = some .initProc := by rw [h₂.refines.data]; rfl
  have hcurr₃ : k₃.currProc = some (.heap 4096) := by rw [h₃.refines.data]; rfl
  rw [hcurr₂, hcurr₃] at ht
  have hu : InUse 0 [⟨k₄.currProc, .semSignal 0, .ret 0⟩, ⟨some (.heap 4096), .semWait 0, .ret 0⟩,
      ⟨some .initProc, .semWait 0, .ret 0⟩, ⟨k₁.currProc, .proc 4096, .ret 2⟩, ⟨k₀.currProc, .semInit 0, .ret 0⟩] := by
    simp [InUse, since_cons]
  obtain ⟨waiters, hw⟩ := semaphore_serves ht hu
  have ho : waiters = [.heap 4096] := hw.order
  subst ho
  exact ⟨_, k₅, ht, hu, rfl, hw, by rw [h₅.refines.data]; rfl⟩

end Karg.SemHistory
