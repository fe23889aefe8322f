import Karg.SchedInvariant

namespace Karg.ProcInvariant

open Process KernelModel QueueInvariant SchedInvariant

variable {a : Model} {p q parent : ProcRef} {addr pid : Nat}

theorem create_procs_ne (hq : q ≠ p) (pid : Nat) (parent : Option ProcRef) :
    (a.create p pid parent).procs q = a.procs q := by
  show ((Data.setState _ p .init).setResume p .user).procs q = _
  rw [Data.setResume, Data.setState, setProc_procs_ne _ _ hq, setProc_procs_ne _ _ hq]

theorem spawn_state (a : Model) (q : ProcRef) : ((a.spawn addr pid parent).procs q).state =
    if q = .heap addr then .ready else (a.procs q).state := by
  simp only [Model.spawn, Model.wake, Model.push, setState_state]
  by_cases hq : q = .heap addr
  · rw [if_pos hq, if_pos hq]
  · rw [if_neg hq, if_neg hq, create_procs_ne hq]

theorem spawn_live (a : Model) (addr pid : Nat) (parent q : ProcRef) :
    (a.spawn addr pid parent).live q ↔ q = .heap addr ∨ a.live q := by
  cases q with
  | idleProc | initProc => simp [Data.live]
  | heap x =>
      show Function.update a.allocated addr true x = true ↔ _
      by_cases hx : x = addr
      · subst hx; simp
      · rw [Function.update_of_ne hx]
        simp [Data.live, hx]

theorem spawn_scheduled (hi : Scheduled a) (hf : a.allocated addr = false) :
    Scheduled (a.spawn addr pid parent) := by
  have hdead : ¬ a.live (.heap addr) := by simp [Data.live, hf]
  constructor
  · refine ⟨?_, ?_, hi.count, hi.unused, hi.wakeup, hi.preempt⟩
    · rw [spawn_state]; exact hi.idle
    · intro q hq
      rw [spawn_state]
      split
      · simp
      · next hne => exact hi.started q (((spawn_live a addr pid parent q).mp hq).resolve_left hne)
  · have hnew := (spawn_live a addr pid parent (.heap addr)).mpr (.inl rfl)
    refine agree_wake (hi.agree.transfer ?_ rfl) hnew
    intro q state
    by_cases hq : q = .heap addr
    · subst hq
      exact ⟨fun h => absurd rfl h.2.1, fun h => absurd h.1 hdead⟩
    · have hl : (a.spawn addr pid parent).live q ↔ a.live q := (spawn_live a addr pid parent q).trans (or_iff_right hq)
      simp only [At, create_procs_ne hq, Option.some.injEq, ne_eq, Ne.symm hq, not_false_eq_true, reduceCtorEq,
        true_and]
      exact and_congr_left' hl
  · exact hi.running

theorem adopt_scheduled (hi : Scheduled a) (src dst : TreeNode) (init : ProcRef) :
    Scheduled (a.adopt src dst init) := by
  refine hi.transfer ?_ rfl rfl
  intro q
  simp only [Model.adopt]
  split <;> rfl

theorem bury_scheduled (hi : Scheduled a) (p parent : ProcRef) : Scheduled (a.bury p parent) :=
  hi.transfer (fun _ => rfl) rfl rfl

theorem notify_scheduled (hi : Scheduled a) (hl : a.live parent) : Scheduled (a.notify p parent) := by
  rw [Model.notify]
  split
  · next hs =>
    have ha := hi.agree.lift (p := parent) (.inr (.inl hs))
    have hb := scheduled_setProc (p := parent) (x := { a.procs parent with procWaiting := some p }) hi rfl
    exact ⟨hb.toUpkeep.wake parent, agree_wake (ha.transfer (at_setProc rfl) rfl) hl, hi.running⟩
  · exact hi

theorem notify_currProc (a : Model) (p parent : ProcRef) : (a.notify p parent).currProc = a.currProc := by
  rw [Model.notify]
  split <;> rfl

theorem leave_scheduled (hi : Scheduled a) (p parent : ProcRef) (status : BitVec 32) :
    Scheduled (a.leave p parent status) := by
  have hb := scheduled_setProc (p := p) (x := { a.procs p with exitStatus := status }) hi rfl
  exact bury_scheduled (adopt_scheduled (adopt_scheduled hb _ _ _) _ _ _) p parent

theorem exit_scheduled (hi : Scheduled a) (hc : a.currProc = some p) (hp : p ≠ .idleProc)
    (hl : a.live parent) (status : BitVec 32) : Scheduled (a.exit p parent status) := by
  refine block_detached (notify_scheduled (leave_scheduled hi p parent status) hl) ?_ hp (.inr (.inr rfl)) (by simp)
  rw [notify_currProc]
  exact hc

theorem reap_live (a : Model) (p : ProcRef) (addr : Nat) (q : ProcRef) :
    (a.reap p addr).live q ↔ q ≠ .heap addr ∧ a.live q := by
  cases q with
  | idleProc | initProc => simp [Data.live]
  | heap x =>
      show Function.update a.allocated addr false x = true ↔ _
      by_cases hx : x = addr
      · subst hx; simp
      · rw [Function.update_of_ne hx]
        simp [Data.live, hx]

theorem reap_scheduled (hi : Scheduled a) (hz : (a.procs (.heap addr)).state = .zombie) (p : ProcRef) :
    Scheduled (a.reap p addr) := by
  have hlive := reap_live a p addr
  refine ⟨⟨hi.idle, fun q hq => hi.started q ((hlive q).mp hq).2, hi.count, hi.unused, hi.wakeup, hi.preempt⟩,
    (hi.agree.lift (p := .heap addr) (.inr (.inr hz))).transfer ?_ rfl, hi.running⟩
  intro q state
  rw [at_some]
  constructor
  · exact fun h => ⟨⟨((hlive q).mp h.1).2, h.2⟩, ((hlive q).mp h.1).1⟩
  · exact fun h => ⟨(hlive q).mpr ⟨h.2, h.1.1⟩, h.1.2⟩

end Karg.ProcInvariant
