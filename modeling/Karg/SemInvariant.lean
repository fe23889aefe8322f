import Karg.SchedInvariant

namespace Karg.SemInvariant

open Process KernelModel QueueInvariant SchedInvariant

variable {a : Model} {p : ProcRef} {sem : SemRef}

theorem semInit_scheduled (hi : Scheduled a) (hs : a.semInited sem = false) : Scheduled (a.semInit sem) := by
  refine ⟨⟨hi.idle, hi.started, ?_, ?_, hi.wakeup, hi.preempt⟩,
    hi.agree.transfer (fun _ _ => Iff.rfl) rfl, hi.running⟩
  · intro s hsi
    by_cases hss : s = sem
    · subst hss; simp [Model.semInit, Data.setVal, hi.unused s hs]
    · simp only [Model.semInit, Data.setVal, Function.update_of_ne hss] at hsi ⊢
      exact hi.count s hsi
  · intro s hsi
    by_cases hss : s = sem
    · subst hss; exact hi.unused s hs
    · simp only [Model.semInit, Function.update_of_ne hss] at hsi
      exact hi.unused s hsi

theorem upkeep_setVal (hu : Upkeep a) (hs : a.semInited sem) (val : Int) {l : List ProcRef}
    (hl : l.length = (-val).toNat) : Upkeep { a with
      toData := a.setVal sem val, queue := Function.update a.queue (.waitQueue sem) l } := by
  refine ⟨hu.idle, hu.started, ?_, ?_, hu.wakeup, hu.preempt⟩
  · intro s hsi
    by_cases hss : s = sem
    · subst hss; simpa [Data.setVal] using hl
    · have hne : QueueNode.waitQueue s ≠ .waitQueue sem := by simpa using hss
      simp only [Data.setVal, Function.update_of_ne hss, Function.update_of_ne hne]
      exact hu.count s hsi
  · intro s hsi
    have hne : QueueNode.waitQueue s ≠ .waitQueue sem := by
      intro he
      cases he
      exact absurd (hs.symm.trans hsi) (by simp)
    simp only [Function.update_of_ne hne]
    exact hu.unused s hsi

theorem scheduled_setVal (hi : Scheduled a) (hs : a.semInited sem) {val : Int}
    (hl : (a.queue (.waitQueue sem)).length = (-val).toNat) :
    Scheduled { a with toData := a.setVal sem val } := by
  have hu := upkeep_setVal hi.toUpkeep hs val hl
  rw [Function.update_eq_self] at hu
  exact ⟨hu, hi.agree.transfer (fun _ _ => Iff.rfl) rfl, hi.running⟩

theorem semSignal_scheduled (hi : Scheduled a) (hs : a.semInited sem) : Scheduled (a.semSignal sem) := by
  have hcount := hi.count sem hs
  rw [Model.semSignal]
  split
  · next hneg =>
    cases hq : a.queue (.waitQueue sem) with
    | nil => rw [hq, List.length_nil] at hcount; omega
    | cons p rest =>
        rw [hq, List.length_cons] at hcount
        have hp := hi.agree.mem (.waitQueue sem) p (by rw [hq]; exact List.mem_cons_self)
        have hu := upkeep_setVal hi.toUpkeep hs (a.semVal sem + 1) (l := rest) (by omega)
        simp only [Model.wakeFirst, hq]
        refine ⟨hu.wake p, agree_wake ?_ hp.1, hi.running⟩
        exact (hi.agree.pop hq).transfer (fun _ _ => Iff.rfl) rfl
  · next hneg => exact scheduled_setVal hi hs (by omega)

theorem semSignal_semInited (a : Model) (sem : SemRef) : (a.semSignal sem).semInited = a.semInited := by
  rw [Model.semSignal]
  split
  · cases hq : a.queue (.waitQueue sem) with
    | nil | cons => simp only [Model.wakeFirst, hq]; rfl
  · rfl

theorem semSignaln_scheduled (hi : Scheduled a) (hs : a.semInited sem) (n : Nat) :
    Scheduled (a.semSignaln sem n) := by
  induction n generalizing a with
  | zero => exact hi
  | succ n ih => exact ih (semSignal_scheduled hi hs) (by rw [semSignal_semInited]; exact hs)

theorem semWait_scheduled (hi : Scheduled a) (hc : a.currProc = some p) (hp : p ≠ .idleProc)
    (hs : a.semInited sem) : Scheduled (a.semWait sem p) := by
  have hcount := hi.count sem hs
  rw [Model.semWait]
  split
  · next hneg =>
    have hu := upkeep_setVal hi.toUpkeep hs (a.semVal sem - 1) (l := a.queue (.waitQueue sem) ++ [p])
      (by rw [List.length_append, List.length_singleton]; omega)
    refine scheduled_block hu hp (by simp) (hi.idle_ready hc hp) ?_
    have ha := (hi.agree.stop hc).enqueue ((hi.agree.curr p).mp hc).1 (h := .waitQueue sem) (by simp)
      (List.perm_append_singleton p (a.queue (.waitQueue sem)))
    exact ha.transfer (fun _ _ => Iff.rfl) rfl
  · next hneg => exact scheduled_setVal hi hs (by omega)

end Karg.SemInvariant
