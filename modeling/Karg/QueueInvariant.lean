import Karg.KernelModel

namespace Karg.QueueInvariant

open StableInsertion Process KernelModel KernelModel.Model

def stateOf : QueueNode → ProcState
  | .readyQueue => .ready
  | .waitQueue _ => .waitSem
  | .node _ => .ready

def At (a : Model) (T : Option ProcRef) (p : ProcRef) (state : ProcState) : Prop :=
  a.live p ∧ T ≠ some p ∧ (a.procs p).state = state

/-- States and queues agree, except for the process `T` in transit, which is
nowhere. -/
structure Agree (a : Model) (T : Option ProcRef) : Prop where
  curr (p : ProcRef) : a.currProc = some p ↔ At a T p .curr
  mem (h : QueueNode) (p : ProcRef) : p ∈ a.queue h → At a T p (stateOf h)
  ready (p : ProcRef) : At a T p .ready → p ∈ a.queue .readyQueue
  waiting (p : ProcRef) : At a T p .waitSem → ∃ sem, p ∈ a.queue (.waitQueue sem)
  sleeping (p : ProcRef) : .proc p ∈ a.sleepers ↔ At a T p .sleep
  nodup (h : QueueNode) : (a.queue h).Nodup
  unique (h h' : QueueNode) (p : ProcRef) : p ∈ a.queue h → p ∈ a.queue h' → h = h'
  sleepers_nodup : a.sleepers.Nodup

variable {a b : Model} {T T' : Option ProcRef} {p q : ProcRef} {state : ProcState} {h : QueueNode}
  {l : List ProcRef}

theorem at_some : At a (some p) q state ↔ At a none q state ∧ q ≠ p := by
  simp only [At, ne_eq, Option.some.injEq, reduceCtorEq, not_false_eq_true, true_and]
  constructor
  · exact fun ⟨hl, hp, hs⟩ => ⟨⟨hl, hs⟩, fun he => hp he.symm⟩
  · exact fun ⟨⟨hl, hs⟩, hp⟩ => ⟨hl, fun he => hp he.symm, hs⟩

theorem at_setState {new : ProcState} : At { a with toData := a.setState p new } none q state ↔
    At a (some p) q state ∨ q = p ∧ a.live p ∧ state = new := by
  rw [at_some]
  simp only [At, setState_state]
  by_cases hq : q = p
  · subst hq
    constructor
    · exact fun ⟨hl, _, hs⟩ => .inr ⟨rfl, hl, by rw [← hs, if_pos rfl]⟩
    · rintro (⟨-, hne⟩ | ⟨-, hl, hs⟩)
      · exact absurd rfl hne
      · exact ⟨hl, by simp, by rw [hs, if_pos rfl]⟩
  · simp only [hq, false_and, or_false, ne_eq, not_false_eq_true, and_true]
    exact Iff.rfl

theorem At.away (hq : At a none q state) (hs : (a.procs p).state ≠ state) : At a (some p) q state :=
  at_some.mpr ⟨hq, fun he => hs (he ▸ hq.2.2)⟩

theorem At.before {new : ProcState} (hq : At { a with toData := a.setState p new } none q state)
    (hs : state ≠ new) : At a (some p) q state :=
  (at_setState.mp hq).resolve_right fun he => hs he.2.2

theorem stateOf_ne (h : QueueNode) : stateOf h ≠ .curr ∧ stateOf h ≠ .sleep := by
  cases h <;> simp [stateOf]

theorem Agree.transfer (ha : Agree a T) (hat : ∀ q state, At b T' q state ↔ At a T q state)
    (hv : (b.currProc, b.queue, b.sleepers) = (a.currProc, a.queue, a.sleepers)) : Agree b T' := by
  simp only [Prod.mk.injEq] at hv
  obtain ⟨hc, hq, hs⟩ := hv
  constructor
  · intro q; rw [hc, hat]; exact ha.curr q
  · intro h q; rw [hq, hat]; exact ha.mem h q
  · intro q; rw [hq, hat]; exact ha.ready q
  · intro q; rw [hq, hat]; exact ha.waiting q
  · intro q; rw [hs, hat]; exact ha.sleeping q
  · intro h; rw [hq]; exact ha.nodup h
  · intro h h' q; rw [hq]; exact ha.unique h h' q
  · rw [hs]; exact ha.sleepers_nodup

theorem at_setProc {x : Proc} (hx : x.state = (a.procs p).state) (q : ProcRef) (state : ProcState) :
    At { a with toData := a.setProc p x } T q state ↔ At a T q state := by
  have hs : ((a.setProc p x).procs q).state = (a.procs q).state := by
    by_cases hq : q = p
    · subst hq; rw [setProc_procs_self, hx]
    · rw [setProc_procs_ne _ _ hq]
  simp only [At, hs]
  exact Iff.rfl

section Leave

def Detached (state : ProcState) : Prop := state = .init ∨ state = .waitChild ∨ state = .zombie

theorem Agree.lift (ha : Agree a none) (hs : Detached (a.procs p).state) : Agree a (some p) := by
  have hne : ∀ {state}, ¬ Detached state → (a.procs p).state ≠ state := fun hd he => hd (he ▸ hs)
  have hof : ∀ h, ¬ Detached (stateOf h) := by
    intro h
    cases h <;> simp [stateOf, Detached]
  exact {
    curr q := ⟨fun hq => ((ha.curr q).mp hq).away (hne (by simp [Detached])),
      fun hq => (ha.curr q).mpr (at_some.mp hq).1⟩
    mem h q hq := (ha.mem h q hq).away (hne (hof h))
    ready q hq := ha.ready q (at_some.mp hq).1
    waiting q hq := ha.waiting q (at_some.mp hq).1
    sleeping q := ⟨fun hq => ((ha.sleeping q).mp hq).away (hne (by simp [Detached])),
      fun hq => (ha.sleeping q).mpr (at_some.mp hq).1⟩
    nodup := ha.nodup
    unique := ha.unique
    sleepers_nodup := ha.sleepers_nodup }

theorem Agree.stop (ha : Agree a none) (hc : a.currProc = some p) :
    Agree { a with currProc := none } (some p) := by
  have hp : (a.procs p).state = .curr := ((ha.curr p).mp hc).2.2
  refine {
    curr q := ⟨nofun, fun hq => ?_⟩
    mem h q hq := (ha.mem h q hq).away (hp ▸ (stateOf_ne h).1.symm)
    ready q hq := ha.ready q (at_some.mp hq).1
    waiting q hq := ha.waiting q (at_some.mp hq).1
    sleeping q := ⟨fun hq => ((ha.sleeping q).mp hq).away (by simp [hp]),
      fun hq => (ha.sleeping q).mpr (at_some.mp hq).1⟩
    nodup := ha.nodup
    unique := ha.unique
    sleepers_nodup := ha.sleepers_nodup }
  have hq' := (ha.curr q).mpr (at_some.mp hq).1
  exact absurd (Option.some.inj (hq'.symm.trans hc)) (at_some.mp hq).2

theorem Agree.pop (ha : Agree a none) (hl : a.queue h = p :: l) :
    Agree { a with queue := Function.update a.queue h l } (some p) := by
  have hp : (a.procs p).state = stateOf h := (ha.mem h p (by rw [hl]; exact List.mem_cons_self)).2.2
  have hnd := ha.nodup h
  rw [hl, List.nodup_cons] at hnd
  have hmem : ∀ (g : QueueNode) (q : ProcRef),
      q ∈ Function.update a.queue h l g ↔ q ∈ a.queue g ∧ q ≠ p := by
    intro g q
    by_cases he : g = h
    · subst he
      rw [Function.update_self, hl, List.mem_cons]
      constructor
      · exact fun hq => ⟨.inr hq, fun he => hnd.1 (he ▸ hq)⟩
      · exact fun ⟨hq, hne⟩ => hq.resolve_left hne
    · rw [Function.update_of_ne he]
      refine ⟨fun hq => ⟨hq, ?_⟩, fun hq => hq.1⟩
      rintro rfl
      exact he (ha.unique g h q hq (by rw [hl]; exact List.mem_cons_self))
  exact {
    curr q := ⟨fun hq => ((ha.curr q).mp hq).away (hp ▸ (stateOf_ne h).1),
      fun hq => (ha.curr q).mpr (at_some.mp hq).1⟩
    mem g q hq := at_some.mpr ⟨ha.mem g q ((hmem g q).mp hq).1, ((hmem g q).mp hq).2⟩
    ready q hq := (hmem .readyQueue q).mpr ⟨ha.ready q (at_some.mp hq).1, (at_some.mp hq).2⟩
    waiting q hq := by
      obtain ⟨sem, hm⟩ := ha.waiting q (at_some.mp hq).1
      exact ⟨sem, (hmem (.waitQueue sem) q).mpr ⟨hm, (at_some.mp hq).2⟩⟩
    sleeping q := ⟨fun hq => ((ha.sleeping q).mp hq).away (hp ▸ (stateOf_ne h).2),
      fun hq => (ha.sleeping q).mpr (at_some.mp hq).1⟩
    nodup g := by
      by_cases he : g = h
      · subst he
        simpa only [Function.update_self] using hnd.2
      · simpa only [Function.update_of_ne he] using ha.nodup g
    unique g g' q hq hq' := ha.unique g g' q ((hmem g q).mp hq).1 ((hmem g' q).mp hq').1
    sleepers_nodup := ha.sleepers_nodup }

theorem Agree.expire (ha : Agree a none) {rest : List TimerRef} (hs : a.sleepers = .proc p :: rest) :
    Agree { a with sleepers := rest } (some p) := by
  have hnd := ha.sleepers_nodup
  rw [hs, List.nodup_cons] at hnd
  have hp : (a.procs p).state = .sleep := ((ha.sleeping p).mp (by rw [hs]; exact List.mem_cons_self)).2.2
  refine {
    curr q := ⟨fun hq => ((ha.curr q).mp hq).away (by simp [hp]), fun hq => (ha.curr q).mpr (at_some.mp hq).1⟩
    mem h q hq := (ha.mem h q hq).away (hp ▸ (stateOf_ne h).2.symm)
    ready q hq := ha.ready q (at_some.mp hq).1
    waiting q hq := ha.waiting q (at_some.mp hq).1
    sleeping q := ?_
    nodup := ha.nodup
    unique := ha.unique
    sleepers_nodup := hnd.2 }
  have hq := ha.sleeping q
  rw [hs, List.mem_cons] at hq
  constructor
  · intro hm
    refine at_some.mpr ⟨hq.mp (.inr hm), ?_⟩
    rintro rfl
    exact hnd.1 hm
  · intro hm
    refine (hq.mpr (at_some.mp hm).1).resolve_left ?_
    exact fun he => (at_some.mp hm).2 (TimerRef.proc.inj he)

end Leave

section Enter

variable (ha : Agree a (some p))
include ha

theorem Agree.detach (hs : Detached state) : Agree { a with toData := a.setState p state } none := by
  have hne : ∀ {new}, ¬ Detached new → new ≠ state := fun hd he => hd (he ▸ hs)
  exact {
    curr q := ⟨fun hq => at_setState.mpr (.inl ((ha.curr q).mp hq)),
      fun hq => (ha.curr q).mpr (At.before hq (hne (by simp [Detached])))⟩
    mem h q hq := at_setState.mpr (.inl (ha.mem h q hq))
    ready q hq := ha.ready q (At.before hq (hne (by simp [Detached])))
    waiting q hq := ha.waiting q (At.before hq (hne (by simp [Detached])))
    sleeping q := ⟨fun hq => at_setState.mpr (.inl ((ha.sleeping q).mp hq)),
      fun hq => (ha.sleeping q).mpr (At.before hq (hne (by simp [Detached])))⟩
    nodup := ha.nodup
    unique := ha.unique
    sleepers_nodup := ha.sleepers_nodup }

variable (hlive : a.live p)
include hlive

theorem Agree.run (hc : a.currProc = none) :
    Agree { a with toData := { a.setState p .curr with currProc := some p } } none := by
  refine {
    curr q := ?_
    mem h q hq := at_setState.mpr (.inl (ha.mem h q hq))
    ready q hq := ha.ready q (At.before hq (by simp))
    waiting q hq := ha.waiting q (At.before hq (by simp))
    sleeping q := ⟨fun hq => at_setState.mpr (.inl ((ha.sleeping q).mp hq)),
      fun hq => (ha.sleeping q).mpr (At.before hq (by simp))⟩
    nodup := ha.nodup
    unique := ha.unique
    sleepers_nodup := ha.sleepers_nodup }
  constructor
  · intro hq
    cases hq
    exact at_setState.mpr (.inr ⟨rfl, hlive, rfl⟩)
  · intro hq
    rcases at_setState.mp hq with hq | ⟨rfl, -, -⟩
    · have := (ha.curr q).mpr hq
      rw [hc] at this
      cases this
    · rfl

theorem Agree.enqueue (hh : ∀ q, h ≠ .node q) (hp : l.Perm (p :: a.queue h)) :
    Agree { a with toData := a.setState p (stateOf h), queue := Function.update a.queue h l } none := by
  have hfree : ∀ g, p ∉ a.queue g := fun g hm => (at_some.mp (ha.mem g p hm)).2 rfl
  have hmem : ∀ {g : QueueNode} {q : ProcRef},
      q ∈ Function.update a.queue h l g ↔ g = h ∧ q = p ∨ q ∈ a.queue g := by
    intro g q
    by_cases he : g = h
    · subst he
      simp only [Function.update_self, hp.mem_iff, List.mem_cons, true_and]
    · simp only [Function.update_of_ne he, he, false_and, false_or]
  exact {
    curr q := ⟨fun hq => at_setState.mpr (.inl ((ha.curr q).mp hq)),
      fun hq => (ha.curr q).mpr (At.before hq (stateOf_ne h).1.symm)⟩
    mem g q hq := by
      rcases hmem.mp hq with ⟨rfl, rfl⟩ | hq
      · exact at_setState.mpr (.inr ⟨rfl, hlive, rfl⟩)
      · exact at_setState.mpr (.inl (ha.mem g q hq))
    ready q hq := by
      rcases at_setState.mp hq with hq | ⟨rfl, -, he⟩
      · exact hmem.mpr (.inr (ha.ready q hq))
      · cases h with
        | readyQueue => exact hmem.mpr (.inl ⟨rfl, rfl⟩)
        | waitQueue => cases he
        | node x => exact absurd rfl (hh x)
    waiting q hq := by
      rcases at_setState.mp hq with hq | ⟨rfl, -, he⟩
      · obtain ⟨sem, hm⟩ := ha.waiting q hq
        exact ⟨sem, hmem.mpr (.inr hm)⟩
      · cases h with
        | waitQueue sem => exact ⟨sem, hmem.mpr (.inl ⟨rfl, rfl⟩)⟩
        | readyQueue | node => cases he
    sleeping q := ⟨fun hq => at_setState.mpr (.inl ((ha.sleeping q).mp hq)),
      fun hq => (ha.sleeping q).mpr (At.before hq (stateOf_ne h).2.symm)⟩
    nodup g := by
      by_cases he : g = h
      · subst he
        simp only [Function.update_self]
        exact hp.nodup_iff.mpr (List.nodup_cons.mpr ⟨hfree g, ha.nodup g⟩)
      · simpa only [Function.update_of_ne he] using ha.nodup g
    unique g g' q hq hq' := by
      rcases hmem.mp hq with ⟨rfl, rfl⟩ | hm <;> rcases hmem.mp hq' with ⟨rfl, he⟩ | hm'
      · rfl
      · exact absurd hm' (hfree g')
      · exact absurd (he ▸ hm) (hfree g)
      · exact ha.unique g g' q hm hm'
    sleepers_nodup := ha.sleepers_nodup }

theorem Agree.fallAsleep {sleepers : List TimerRef} (hp : sleepers.Perm (.proc p :: a.sleepers)) :
    Agree { a with toData := a.setState p .sleep, sleepers := sleepers } none := by
  refine {
    curr q := ⟨fun hq => at_setState.mpr (.inl ((ha.curr q).mp hq)), fun hq => (ha.curr q).mpr (At.before hq (by simp))⟩
    mem h q hq := at_setState.mpr (.inl (ha.mem h q hq))
    ready q hq := ha.ready q (At.before hq (by simp))
    waiting q hq := ha.waiting q (At.before hq (by simp))
    sleeping q := ?_
    nodup := ha.nodup
    unique := ha.unique
    sleepers_nodup := ?_ }
  · rw [hp.mem_iff, List.mem_cons, TimerRef.proc.injEq, ha.sleeping q]
    constructor
    · rintro (rfl | hq)
      · exact at_setState.mpr (.inr ⟨rfl, hlive, rfl⟩)
      · exact at_setState.mpr (.inl hq)
    · intro hq
      rcases at_setState.mp hq with hq | ⟨rfl, -, -⟩
      · exact .inr hq
      · exact .inl rfl
  · refine hp.nodup_iff.mpr (List.nodup_cons.mpr ⟨?_, ha.sleepers_nodup⟩)
    exact fun hm => (at_some.mp ((ha.sleeping p).mp hm)).2 rfl

end Enter

end Karg.QueueInvariant
