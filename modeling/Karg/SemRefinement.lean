import Karg.SchedRefinement
import Karg.SemInvariant

namespace Karg.SemRefinement

open LinkStore ListFamily ListNode Process Sched KernelModel QueueInvariant SchedInvariant SemInvariant
  KernelRefinement SchedRefinement

variable {E : TimerRef → Prop} {k : Kernel} {a : Model} {p : ProcRef} {sem : SemRef}

theorem loose_of_transit (ha : Agree a (some p)) (hs : (a.procs p).state ≠ .ready) (hE : E (.proc p)) :
    Loose E a p where
  not_ready := hs
  asleep _ := ⟨hE, fun hm => (at_some.mp ((ha.sleeping p).mp hm)).2 rfl⟩
  not_mem g _ hm := (at_some.mp (ha.mem g p hm)).2 rfl

/-- While a process other than the idle one runs there is a ready process. -/
theorem exists_ready (hi : Scheduled a) (hc : a.currProc = some p) (hp : p ≠ .idleProc) :
    ∃ q r, a.queue .readyQueue = q :: r ∧ (a.procs q).state = .ready := by
  cases hq : a.queue .readyQueue with
  | nil => exact absurd (hi.idle_ready hc hp) (by simp [hq])
  | cons q r => exact ⟨q, r, rfl, (hi.agree.mem .readyQueue q (by rw [hq]; exact List.mem_cons_self)).2.2⟩

theorem curr_not_mem (hi : Scheduled a) (hc : a.currProc = some p) (g : QueueNode) : p ∉ a.queue g := by
  intro hm
  exact (stateOf_ne g).1 ((hi.agree.mem g p hm).2.2.symm.trans ((hi.agree.curr p).mp hc).2.2)

theorem semInit_refines (h : Refines E k a) (hi : Scheduled a) (hs : a.semInited sem = false) :
    Refines E (Sem.semInit k sem) (a.semInit sem) := by
  have hfresh : Fresh (Links QueueNode) (QueueHead a.toData) (fun h => (a.queue h).map .node) (.waitQueue sem) := by
    intro g hg y hy
    rcases List.mem_cons.mp hy with rfl | hy
    · rintro rfl
      exact absurd (hs.symm.trans hg) (by simp)
    · obtain ⟨q, -, rfl⟩ := List.mem_map.mp hy
      intro he
      cases he
  refine ⟨by rw [Sem.semInit, h.data]; rfl, ?_, h.tree, h.timers, h.timer, h.timerFreq⟩
  refine ((family_initHead h.queues hfresh trivial).restrict ?_).congr ?_
  · intro g hg
    cases g with
    | readyQueue => exact .inr trivial
    | waitQueue s =>
        by_cases hss : s = sem
        · exact .inl (congrArg _ hss)
        · right
          simpa only [QueueHead, Model.semInit, Function.update_of_ne hss] using hg
    | node => exact .inr hg
  · intro g _
    by_cases hg : g = .waitQueue sem
    · subst hg
      rw [Function.update_self]
      simp only [Model.semInit, hi.unused sem hs, List.map_nil]
    · rw [Function.update_of_ne hg]
      rfl

theorem wakeFirst_refines (h : Refines E k a) (hs : a.semInited sem) {rest : List ProcRef}
    (hq : a.queue (.waitQueue sem) = p :: rest) (hp : (a.procs p).state = .waitSem)
    (hm : ∀ g, QueueHead a.toData g → p ∉ Function.update a.queue (.waitQueue sem) rest g) :
    ∃ k', Sem.wakeFirst k sem = some k' ∧ Refines E k' (a.wakeFirst sem) := by
  have hf : listFront k.queues (.waitQueue sem) = .node p := by
    rw [h.front (g := .waitQueue sem) hs, hq]
    rfl
  have hpop := h.removeFront (g := .waitQueue sem) hs hq
  rw [Sem.wakeFirst, listPopFront, hf]
  simp only [Model.wakeFirst, hq]
  exact updateState_ready_refines hpop ⟨by simp [hp], by simp [hp], hm⟩

theorem semSignal_refines (h : Refines E k a) (hi : Scheduled a) (hs : a.semInited sem)
    (hv : a.semVal sem < i32Max) : ∃ k', Sem.semSignal k sem = some k' ∧ Refines E k' (a.semSignal sem) := by
  have hset := h.setData (d := a.setVal sem (a.semVal sem + 1)) rfl
  rw [Sem.semSignal, Model.semSignal]
  simp only [h.data, incr, if_pos hv, Option.bind_eq_bind, Option.bind_some]
  split
  · next hneg =>
    have hcount := hi.count sem hs
    cases hq : a.queue (.waitQueue sem) with
    | nil => rw [hq, List.length_nil] at hcount; omega
    | cons p rest =>
        have hp := hi.agree.mem (.waitQueue sem) p (by rw [hq]; exact List.mem_cons_self)
        refine wakeFirst_refines hset hs hq hp.2.2 fun g _ hm => ?_
        exact (at_some.mp ((hi.agree.pop hq).mem g p hm)).2 rfl
  · exact ⟨_, rfl, hset⟩

theorem semVal_semSignal (a : Model) (sem : SemRef) : (a.semSignal sem).semVal sem = a.semVal sem + 1 := by
  have hv : (a.setVal sem (a.semVal sem + 1)).semVal sem = a.semVal sem + 1 := Function.update_self ..
  rw [Model.semSignal]
  split
  · cases hq : a.queue (.waitQueue sem) with
    | nil => simpa only [Model.wakeFirst, hq] using hv
    | cons => simpa only [Model.wakeFirst, hq, Model.wake, Model.push, Data.setState, Data.setProc] using hv
  · exact hv

theorem semSignaln_refines (h : Refines E k a) (hi : Scheduled a) (hs : a.semInited sem) {n : Nat}
    (hv : a.semVal sem + n ≤ i32Max) :
    ∃ k', Sem.semSignaln k sem n = some k' ∧ Refines E k' (a.semSignaln sem n) := by
  induction n generalizing k a with
  | zero => exact ⟨k, rfl, h⟩
  | succ n ih =>
      obtain ⟨k₁, hk₁, h₁⟩ := semSignal_refines h hi hs (by omega)
      have hs₁ : (a.semSignal sem).semInited sem := by rw [semSignal_semInited]; exact hs
      obtain ⟨k₂, hk₂, h₂⟩ := ih h₁ (semSignal_scheduled hi hs) hs₁ (by rw [semVal_semSignal]; omega)
      exact ⟨k₂, by rw [Sem.semSignaln, hk₁]; exact hk₂, h₂⟩

/-- One round of the loop of `sem_deinit` is a `sem_signal`. -/
theorem semDeinit_eq (fuel : Nat) (k : Kernel) (sem : SemRef) : Sem.semDeinit (fuel + 1) k sem =
    (Sem.semSignal k sem).bind fun k' => if k.semVal sem < 0 then Sem.semDeinit fuel k' sem else some k' := by
  rw [Sem.semDeinit, Sem.semSignal]
  cases incr (k.semVal sem) with
  | none => rfl
  | some next =>
      simp only [Option.bind_eq_bind, Option.bind_some]
      split <;> simp

theorem semDeinit_refines (h : Refines E k a) (hi : Scheduled a) (hs : a.semInited sem)
    (hv : a.semVal sem < i32Max) : ∃ k', (∀ fuel, (-a.semVal sem).toNat < fuel → Sem.semDeinit fuel k sem = some k') ∧
      Refines E k' (a.semSignaln sem ((-a.semVal sem).toNat + 1)) := by
  generalize hn : (-a.semVal sem).toNat = n
  induction n generalizing k a with
  | zero =>
      obtain ⟨k₁, hk₁, h₁⟩ := semSignal_refines h hi hs hv
      refine ⟨k₁, fun fuel hfuel => ?_, h₁⟩
      obtain ⟨fuel, rfl⟩ := Nat.exists_eq_succ_of_ne_zero (Nat.ne_zero_of_lt hfuel)
      rw [semDeinit_eq, hk₁, Option.bind_some, h.data, if_neg (by omega)]
  | succ n ih =>
      obtain ⟨k₁, hk₁, h₁⟩ := semSignal_refines h hi hs hv
      have hs₁ : (a.semSignal sem).semInited sem := by rw [semSignal_semInited]; exact hs
      have hv₁ := semVal_semSignal a sem
      obtain ⟨k₂, hk₂, h₂⟩ := ih h₁ (semSignal_scheduled hi hs) hs₁ (by rw [hv₁, i32Max]; omega) (by rw [hv₁]; omega)
      refine ⟨k₂, fun fuel hfuel => ?_, h₂⟩
      obtain ⟨fuel, rfl⟩ := Nat.exists_eq_succ_of_ne_zero (Nat.ne_zero_of_lt hfuel)
      rw [semDeinit_eq, hk₁, Option.bind_some, h.data, if_pos (by omega)]
      exact hk₂ fuel (by omega)

theorem semWait_refines (h : Refines E k a) (hi : Scheduled a) (hc : a.currProc = some p) (hp : p ≠ .idleProc)
    (hs : a.semInited sem) (hv : i32Min < a.semVal sem) :
    ∃ k', Sem.semWait k sem = some k' ∧ Refines E k' (a.semWait sem p) := by
  have hset := h.setData (d := a.setVal sem (a.semVal sem - 1)) rfl
  obtain ⟨q, r, hq, hr⟩ := exists_ready hi hc hp
  rw [Sem.semWait, Sem.semEnqueue, Model.semWait]
  simp only [h.data, decr, if_pos hv, Option.bind_eq_bind, Option.bind_some]
  split
  · have hpush := hset.pushBack (g := .waitQueue sem) hs fun g _ => curr_not_mem hi hc g
    have hcurr : (a.setVal sem (a.semVal sem - 1)).currProc = some p := hc
    simp only [hcurr, Option.bind_some]
    exact updateState_block_refines hpush hc ((hi.agree.curr p).mp hc).2.2 (.inl rfl) hq hr
  · exact ⟨_, rfl, hset⟩

end Karg.SemRefinement
