import Karg.KernelRuns

namespace Karg.Comparator

open LinkStore ListNode TimerService Process ProcTable Sched Sem Syscalls Execution KernelRuns

section Service

variable {τ C D : Type} [DecidableEq τ] {s s' : Service τ C D} {t : τ}

/-- The comparator holds the time of the first timer, if there is one. -/
def Programmed (s : Service τ C D) : Prop :=
  ∀ t, listFront s.links .waitQueue = .node t → s.comparator = (s.timers t).time

theorem listFront_listInsert {N : Type} [DecidableEq N] (s : Links N) {head node : N} (pos : N) (h : head ≠ node) :
    listFront (listInsert s pos node) head = node ∨ listFront (listInsert s pos node) head = listFront s head := by
  have he : listFront (listInsert s pos node) head = Function.update s.next (s.prev pos) node head :=
    Function.update_of_ne h ..
  rw [he]
  by_cases hp : head = s.prev pos
  · rw [hp, Function.update_self]
    exact .inl rfl
  · rw [Function.update_of_ne hp]
    exact .inr rfl

theorem programmed_firstTime (s : Service τ C D) : Programmed (timerSet s (firstTime s)) := by
  intro t ht
  have hf : listFront s.links .waitQueue = .node t := ht
  show firstTime s = _
  rw [firstTime, hf]
  rfl

theorem timerInit_programmed (h : Programmed s) (t : τ) : Programmed (timerInit s t) := by
  intro u hu
  have hne : TimerNode.waitQueue ≠ .node t := nofun
  have he : listFront (timerInit s t).links .waitQueue = listFront s.links .waitQueue :=
    Function.update_of_ne hne (TimerNode.node t) s.links.next
  exact h u (he.symm.trans hu)

theorem timerCancel_programmed (h : Programmed s) (t : τ) : Programmed (timerCancel s t) := by
  rw [timerCancel]
  split
  · exact h
  · exact programmed_firstTime _

theorem timerIsr_programmed (hs : timerIsr s = some (s', t)) : Programmed s' := by
  rw [timerIsr] at hs
  split at hs
  · cases hs
  · cases hs
    exact programmed_firstTime _

/-- `timer_wait` programs the comparator when its timer comes first, and leaves
the first timer as it is otherwise. -/
theorem timerWait_programmed {fuel now ns : Nat} {callback : C} {data : D}
    (hs : timerWait fuel s t now ns callback data = some s') (h : Programmed s) : Programmed s' := by
  obtain ⟨entry, -, rfl⟩ := Option.map_eq_some_iff.mp hs
  set timers := Function.update s.timers t ⟨deadline s.timerFreq now ns, callback, data⟩ with htimers
  have hlinks : (if entry = .waitQueue then listPushBack s.links .waitQueue (.node t)
      else listInsert s.links entry (.node t)) = listInsert s.links entry (.node t) := by
    split
    · next he => rw [listPushBack, he]
    · rfl
  simp only [hlinks]
  split
  · next hf =>
      have hf : listFront (listInsert s.links entry (.node t)) .waitQueue = .node t := of_decide_eq_true hf
      intro u hu
      obtain rfl := TimerNode.node.inj (hf.symm.trans hu)
      rfl
  · next hf =>
      have hf : ¬ listFront (listInsert s.links entry (.node t)) .waitQueue = .node t := fun he => hf (decide_eq_true he)
      have hne : TimerNode.waitQueue ≠ .node t := nofun
      have hold := (listFront_listInsert s.links entry hne).resolve_left hf
      intro u hu
      have hu' : listFront s.links .waitQueue = .node u := hold.symm.trans hu
      have hne : u ≠ t := by
        rintro rfl
        exact hf hu
      show s.comparator = (Function.update s.timers t _ u).time
      rw [Function.update_of_ne hne]
      exact h u hu'

end Service

variable {k k' : Kernel} {p : ProcRef} {sem : SemRef} {state : ProcState} {fuel : Nat} {out : Outcome}

theorem leaveState_programmed (h : Programmed k.timers) (p : ProcRef) : Programmed (leaveState k p).timers := by
  rw [leaveState]
  split
  · exact h
  · exact timerCancel_programmed h _
  · exact h

theorem enterState_timers {resched : Kernel → Option Kernel} (hk : enterState resched k p state = some k') :
    k'.timers = k.timers ∨ ∃ d, resched { k with toData := d } = some k' := by
  cases state with
  | init | ready | curr =>
      cases hk
      exact .inl rfl
  | waitSem | waitChild | sleep | zombie =>
      rw [enterState] at hk
      split at hk
      · exact .inr ⟨_, hk⟩
      · cases hk
        exact .inl rfl

theorem updateState_programmed {resched : Kernel → Option Kernel} (hr : ∀ {k k' : Kernel}, resched k = some k' →
    Programmed k.timers → Programmed k'.timers) (hk : updateState resched k p state = some k')
    (h : Programmed k.timers) : Programmed k'.timers := by
  rw [updateState] at hk
  split at hk
  · cases hk
    exact h
  · rcases enterState_timers hk with he | ⟨d, hk⟩
    · rw [he]
      exact leaveState_programmed h p
    · exact hr hk (leaveState_programmed h p)

theorem schedResched_programmed (hk : schedResched k = some k') (h : Programmed k.timers) : Programmed k'.timers := by
  obtain ⟨k₁, hk₁, hk⟩ := Option.bind_eq_some_iff.mp hk
  obtain ⟨new, -, hk⟩ := Option.bind_eq_some_iff.mp hk
  refine updateState_programmed (by rintro _ _ ⟨⟩) hk ?_
  rw [schedRequeue] at hk₁
  split at hk₁
  · split at hk₁
    · exact updateState_programmed (by rintro _ _ ⟨⟩) hk₁ h
    · cases hk₁
      exact h
  · cases hk₁
    exact h

theorem schedUpdateState_programmed (hk : schedUpdateState k p state = some k') (h : Programmed k.timers) :
    Programmed k'.timers := updateState_programmed schedResched_programmed hk h

theorem schedPreempt_programmed {now : Nat} (hk : schedPreempt fuel now k = some k') (h : Programmed k.timers) :
    Programmed k'.timers := by
  obtain ⟨k₁, harm, hk⟩ := Option.bind_eq_some_iff.mp hk
  obtain ⟨timers, ht, harm⟩ := Option.bind_eq_some_iff.mp harm
  cases harm
  exact schedResched_programmed hk (timerWait_programmed ht h)

theorem procInit_programmed (h : Programmed k.timers) (p : ProcRef) (parent : Option ProcRef) (res : Int) :
    Programmed (procInit k p parent res).1.timers := by
  rw [procInit]
  split
  · exact h
  · dsimp only
    split_ifs
    · exact timerInit_programmed h _
    · cases parent <;> exact timerInit_programmed h _

theorem schedInit_programmed (hk : schedInit k = some k') (h : Programmed k.timers) : Programmed k'.timers := by
  rw [schedInit] at hk
  dsimp only at hk
  split_ifs at hk
  obtain ⟨k₂, hk₂, hk⟩ := Option.bind_eq_some_iff.mp hk
  cases hk
  exact timerInit_programmed (schedUpdateState_programmed hk₂ (procInit_programmed h _ _ _)) _

theorem kmain_programmed {now : Nat} (hk : kmain fuel now k = some k') (h : Programmed k.timers) :
    Programmed k'.timers := by
  obtain ⟨k₂, hk₂, hk⟩ := Option.bind_eq_some_iff.mp hk
  obtain ⟨k₁, hk₁, hk₂⟩ := Option.bind_eq_some_iff.mp hk₂
  dsimp only at hk₂
  split_ifs at hk₂
  have h₂ := schedUpdateState_programmed hk₂ (procInit_programmed (schedInit_programmed hk₁ h) _ _ _)
  exact schedPreempt_programmed hk h₂

theorem wakeFirst_programmed (hk : wakeFirst k sem = some k') (h : Programmed k.timers) : Programmed k'.timers := by
  obtain ⟨p, -, hk⟩ := Option.bind_eq_some_iff.mp hk
  exact schedUpdateState_programmed hk h

theorem semSignal_programmed (hk : semSignal k sem = some k') (h : Programmed k.timers) : Programmed k'.timers := by
  obtain ⟨val, -, hk⟩ := Option.bind_eq_some_iff.mp hk
  dsimp only at hk
  split at hk
  · exact wakeFirst_programmed hk h
  · cases hk
    exact h

theorem semSignaln_programmed {n : Nat} (hk : semSignaln k sem n = some k') (h : Programmed k.timers) :
    Programmed k'.timers := by
  induction n generalizing k with
  | zero =>
      cases hk
      exact h
  | succ n ih =>
      obtain ⟨k₁, hk₁, hk⟩ := Option.bind_eq_some_iff.mp hk
      exact ih hk (semSignal_programmed hk₁ h)

theorem semDeinit_programmed (hk : semDeinit fuel k sem = some k') (h : Programmed k.timers) :
    Programmed k'.timers := by
  induction fuel generalizing k with
  | zero => cases hk
  | succ fuel ih =>
      obtain ⟨val, -, hk⟩ := Option.bind_eq_some_iff.mp hk
      dsimp only at hk
      split at hk
      · obtain ⟨k₁, hk₁, hk⟩ := Option.bind_eq_some_iff.mp hk
        exact ih hk (wakeFirst_programmed hk₁ h)
      · cases hk
        exact h

theorem semWait_programmed (hk : semWait k sem = some k') (h : Programmed k.timers) : Programmed k'.timers := by
  obtain ⟨⟨k₁, waiting⟩, hq, hk⟩ := Option.bind_eq_some_iff.mp hk
  obtain ⟨val, -, hq⟩ := Option.bind_eq_some_iff.mp hq
  dsimp only at hq
  split at hq
  · obtain ⟨p, -, hq⟩ := Option.bind_eq_some_iff.mp hq
    cases hq
    exact schedUpdateState_programmed hk h
  · cases hq
    cases hk
    exact h

theorem sysWaitQuit_timers (hk : sysWaitQuit k p = some (k', out)) : k'.timers = k.timers := by
  obtain ⟨k₁, hk₁, hk⟩ := Option.bind_eq_some_iff.mp hk
  cases hk
  cases p with
  | heap addr =>
      cases hk₁
      rfl
  | idleProc | initProc => cases hk₁

theorem adoptLoop_timers {list : ProcRef → TreeNode} (hk : adoptLoop list p fuel k = some k') :
    k'.timers = k.timers := by
  induction fuel generalizing k with
  | zero => cases hk
  | succ fuel ih =>
      rw [adoptLoop] at hk
      split at hk
      · cases hk
        rfl
      · obtain ⟨child, -, hk⟩ := Option.bind_eq_some_iff.mp hk
        obtain ⟨init, -, hk⟩ := Option.bind_eq_some_iff.mp hk
        rw [ih hk, procAdopt]
        dsimp only
        split <;> rfl

theorem sysExitEnd_programmed {parent : ProcRef} (hk : sysExitEnd k p parent = some (k', out))
    (h : Programmed k.timers) : Programmed k'.timers := by
  obtain ⟨⟨k₁, woken⟩, hwake, hk⟩ := Option.bind_eq_some_iff.mp hk
  obtain ⟨k₂, hk₂, hk⟩ := Option.bind_eq_some_iff.mp hk
  cases hk
  refine schedUpdateState_programmed hk₂ ?_
  rw [sysExitWake] at hwake
  split at hwake
  · obtain ⟨k₃, hk₃, hwake⟩ := Option.bind_eq_some_iff.mp hwake
    cases hwake
    exact schedUpdateState_programmed hk₃ h
  · cases hwake
    exact h

theorem timerInterrupt_programmed {now : Nat} (hk : timerInterrupt fuel now k = some k') : Programmed k'.timers := by
  obtain ⟨⟨timers, t⟩, ht, hk⟩ := Option.bind_eq_some_iff.mp hk
  have h₁ := timerIsr_programmed ht
  dsimp only at hk
  split at hk
  · obtain ⟨p, -, hk⟩ := Option.bind_eq_some_iff.mp hk
    exact schedUpdateState_programmed hk h₁
  · exact schedPreempt_programmed hk h₁

/-- Whatever the operation, the comparator stays right. -/
theorem exec_programmed {op : Op} (hk : exec fuel k op = some (k', out)) (h : Programmed k.timers) :
    Programmed k'.timers := by
  cases op with
  | semInit sem =>
      cases hk
      exact h
  | proc addr =>
      have h₁ := procInit_programmed (k := { k with allocated := Function.update k.allocated addr true }) h
        (.heap addr) k.currProc 0
      rw [exec, sysProc] at hk
      dsimp only at hk
      split_ifs at hk
      · cases hk
        exact h₁
      · obtain ⟨k₂, hk₂, hk⟩ := Option.bind_eq_some_iff.mp hk
        cases hk
        exact schedUpdateState_programmed hk₂ h₁
  | yield =>
      obtain ⟨k₁, hk₁, hk⟩ := Option.bind_eq_some_iff.mp hk
      cases hk
      exact schedResched_programmed hk₁ h
  | sleep now ns =>
      obtain ⟨⟨k₁, curr⟩, harm, hk⟩ := Option.bind_eq_some_iff.mp hk
      obtain ⟨k₂, hk₂, hk⟩ := Option.bind_eq_some_iff.mp hk
      cases hk
      obtain ⟨_, -, harm⟩ := Option.bind_eq_some_iff.mp harm
      obtain ⟨timers, ht, harm⟩ := Option.bind_eq_some_iff.mp harm
      cases harm
      exact schedUpdateState_programmed hk₂ (timerWait_programmed ht h)
  | wait status =>
      obtain ⟨curr, -, hk⟩ := Option.bind_eq_some_iff.mp hk
      split at hk
      · cases hk
        exact h
      · split at hk
        · obtain ⟨child, -, hk⟩ := Option.bind_eq_some_iff.mp hk
          rw [sysWaitQuit_timers hk]
          exact h
        · obtain ⟨k₁, hk₁, hk⟩ := Option.bind_eq_some_iff.mp hk
          cases hk
          exact schedUpdateState_programmed hk₁ h
  | exit status =>
      obtain ⟨⟨k₀, curr, parent⟩, hleave, hk⟩ := Option.bind_eq_some_iff.mp hk
      refine sysExitEnd_programmed hk ?_
      obtain ⟨_, -, hleave⟩ := Option.bind_eq_some_iff.mp hleave
      obtain ⟨k₂, hk₂, hleave⟩ := Option.bind_eq_some_iff.mp hleave
      obtain ⟨k₁, hk₁, hk₂⟩ := Option.bind_eq_some_iff.mp hk₂
      obtain ⟨_, -, hleave⟩ := Option.bind_eq_some_iff.mp hleave
      cases hleave
      show Programmed k₂.timers
      rw [adoptLoop_timers hk₂, adoptLoop_timers hk₁]
      exact h
  | resume =>
      obtain ⟨curr, -, hk⟩ := Option.bind_eq_some_iff.mp hk
      obtain ⟨child, -, hk⟩ := Option.bind_eq_some_iff.mp hk
      rw [sysWaitQuit_timers hk]
      exact h
  | semWait sem =>
      obtain ⟨k₁, hk₁, hk⟩ := Option.map_eq_some_iff.mp hk
      cases hk
      exact semWait_programmed hk₁ h
  | semSignal sem =>
      obtain ⟨k₁, hk₁, hk⟩ := Option.map_eq_some_iff.mp hk
      cases hk
      exact semSignal_programmed hk₁ h
  | semSignaln sem n =>
      obtain ⟨k₁, hk₁, hk⟩ := Option.map_eq_some_iff.mp hk
      cases hk
      exact semSignaln_programmed hk₁ h
  | semDeinit sem =>
      obtain ⟨k₁, hk₁, hk⟩ := Option.map_eq_some_iff.mp hk
      cases hk
      exact semDeinit_programmed hk₁ h
  | timerIsr now =>
      obtain ⟨k₁, hk₁, hk⟩ := Option.map_eq_some_iff.mp hk
      cases hk
      exact timerInterrupt_programmed hk₁

end Karg.Comparator
