import Karg.KernelBoot

namespace Karg.ChildExit

open ListNode Process Syscalls Execution KernelRuns KernelModel QueueInvariant TreeInvariant WaitInvariant
  KernelInvariant ProcInvariant KernelRefinement SyscallRefinement ExitRefinement KernelSimulation KernelBoot

def NoLostWakeup (k : Kernel) : Prop :=
  ∀ p, k.live p → (k.procs p).state = .waitChild → listEmpty k.tree (.zombieChildren p) = true

/-- A process that exits has no dead children, or the init process, to which
they go, does not wait, or it is itself woken by this exit. -/
def Announced (k : Kernel) : Op → Prop
  | .exit _ => ∀ p, k.currProc = some p → listEmpty k.tree (.zombieChildren p) = true ∨
      (k.procs .initProc).state ≠ .waitChild ∨ (k.procs p).parent = some .initProc
  | _ => True

def AnnouncedRun : Kernel → Prop :=
  Reachable Boot fun k (i : Op × Outcome) k' => KernelRuns.Step k i.1 i.2 k' ∧ Announced k i.1

def Prompt (a : Model) : Prop :=
  ∀ p, a.live p → (a.procs p).state = .waitChild → a.kin (.zombieChildren p) = []

variable {k k' : Kernel} {a b : Model} {p q parent : ProcRef} {op : Op} {out : Outcome}

theorem noLostWakeup_iff (h : Refines (Exist a.toData) k a) : NoLostWakeup k ↔ Prompt a := by
  rw [NoLostWakeup, h.data]
  refine forall_congr' fun p => forall_congr' fun hp => imp_congr_right fun _ => ?_
  rw [h.tree_empty (g := .zombieChildren p) hp, List.isEmpty_iff]

theorem Quiet.prompt (h : Quiet a b) (hp : Prompt a) : Prompt b := by
  have hf := h.frame
  simp only [Prod.mk.injEq] at hf
  intro p hl hs
  rw [hf.2.2.2.1]
  exact hp p (h.live p ▸ hl) ((h.state p _ (.inl rfl)).mp hs)

section Exit

variable {status : BitVec 32}

theorem leave_zombies (hq : q ≠ parent) (hp : q ≠ p) : (a.leave p parent status).kin (.zombieChildren q) =
    if q = .initProc then a.kin (.zombieChildren q) ++ a.kin (.zombieChildren p) else a.kin (.zombieChildren q) := by
  have h₁ : TreeNode.zombieChildren q ≠ .zombieChildren parent := by simpa using hq
  have h₂ : TreeNode.zombieChildren q ≠ .zombieChildren p := by simpa using hp
  by_cases hi : q = .initProc
  · subst hi
    simp [Model.leave, Model.bury, Model.disown, Model.adopt, Function.update_of_ne h₁, Function.update_of_ne h₂]
  · simp [Model.leave, Model.bury, Model.disown, Model.adopt, Function.update_of_ne h₁, Function.update_of_ne h₂, hi]

theorem notify_waitChild (a : Model) (p parent q : ProcRef) :
    ((a.notify p parent).procs q).state = .waitChild ↔ (a.procs q).state = .waitChild ∧ q ≠ parent := by
  rw [Model.notify]
  split
  · by_cases hq : q = parent
    · subst hq; simp [Model.wake, Model.push, setState_state]
    · simp [Model.wake, Model.push, Data.setState, setProc_procs_ne _ _ hq, hq]
  · next hs =>
    refine ⟨fun hq => ⟨hq, ?_⟩, fun hq => hq.1⟩
    rintro rfl
    exact hs hq

theorem exit_quiet (hi : Invariant a) (hc : a.currProc = some p) (hl : a.live parent) (status : BitVec 32) :
    Quiet { (a.leave p parent status).notify p parent with
      toData := { ((a.leave p parent status).notify p parent).setState p .zombie with currProc := none } }
      (a.exit p parent status) := by
  have hs := notify_scheduled (p := p) (leave_scheduled hi.sched p parent status) hl
  exact quiet_after (runs_of_agree hs.agree (by rw [notify_currProc]; exact hc)) .zombie

theorem exit_procTable (hi : Invariant a) (hc : a.currProc = some p) (hl : a.live parent) (status : BitVec 32) :
    (a.exit p parent status).procTable = a.procTable := by
  have hf := (exit_quiet hi hc hl status).frame
  simp only [Prod.mk.injEq] at hf
  exact hf.1.trans (Prod.mk.inj (notify_frame _ _ _).1).1

theorem exit_waitChild (hi : Invariant a) (hc : a.currProc = some p) (hl : a.live parent) (status : BitVec 32)
    (q : ProcRef) : ((a.exit p parent status).procs q).state = .waitChild ↔
      (a.procs q).state = .waitChild ∧ q ≠ parent := by
  rw [(exit_quiet hi hc hl status).state q _ (.inl rfl), setState_state]
  by_cases hq : q = p
  · subst hq; simp [hi.curr_state hc]
  · rw [if_neg hq, notify_waitChild, leave_state]

theorem exit_prompt_iff (hi : Invariant a) (hp : Prompt a) (hc : a.currProc = some p) (hl : a.live parent)
    (hpar : (a.procs p).parent = some parent) : Prompt (a.exit p parent status) ↔
      a.kin (.zombieChildren p) = [] ∨ (a.procs .initProc).state ≠ .waitChild ∨ (a.procs p).parent = some .initProc := by
  have hquiet := exit_quiet hi hc hl status
  have hf := hquiet.frame
  simp only [Prod.mk.injEq] at hf
  have hkin : (a.exit p parent status).kin = (a.leave p parent status).kin :=
    hf.2.2.2.1.trans (Prod.mk.inj (Prod.mk.inj (Prod.mk.inj (notify_frame _ _ _).1).2).2).2
  have hlive : ∀ q, (a.exit p parent status).live q = a.live q := Data.live_congr (exit_allocated a p parent status)
  have hpc : (a.procs p).state ≠ .waitChild := by simp [hi.curr_state hc]
  have hwait := exit_waitChild hi hc hl status
  constructor
  · intro hb
    by_contra hno
    simp only [not_or, not_not] at hno
    obtain ⟨hz, hinit, hne⟩ := hno
    have hip : ProcRef.initProc ≠ parent := by
      rintro rfl
      exact hne hpar
    have hipp : ProcRef.initProc ≠ p := by
      rintro rfl
      exact hpc hinit
    have he := hb .initProc rfl ((hwait _).mpr ⟨hinit, hip⟩)
    rw [hkin, leave_zombies hip hipp, if_pos rfl, List.append_eq_nil_iff] at he
    exact hz he.2
  · intro hor q hq hs
    obtain ⟨hqs, hqp⟩ := (hwait q).mp hs
    have hqpp : q ≠ p := by
      rintro rfl
      exact hpc hqs
    rw [hkin, leave_zombies hqp hqpp, hp q (hlive q ▸ hq) hqs]
    split
    · next he =>
      subst he
      rcases hor with hz | hw | hpi
      · rw [hz]; rfl
      · exact absurd hqs hw
      · exact absurd (Option.some.inj (hpi.symm.trans hpar)) hqp
    · rfl

end Exit

theorem reap_prompt (hi : Invariant a) (hp : Prompt a) (hc : a.currProc = some p) (addr : Nat) :
    Prompt (a.reap p addr) := by
  intro q hq hs
  have hqp : q ≠ p := by
    rintro rfl
    exact absurd ((hi.curr_state hc).symm.trans hs) (by simp)
  have hne : TreeNode.zombieChildren q ≠ .zombieChildren p := by simpa using hqp
  simp only [Model.reap, Function.update_of_ne hne]
  exact hp q ((reap_live a p addr q).mp hq).2 hs

theorem spawn_prompt (hp : Prompt a) {addr pid : Nat} : Prompt (a.spawn addr pid parent) := by
  intro q hq hs
  have hne : q ≠ .heap addr := by
    rintro rfl
    simp [spawn_state] at hs
  rw [spawn_state, if_neg hne] at hs
  exact hp q (((spawn_live a addr pid parent q).mp hq).resolve_left hne) hs

theorem block_prompt (hi : Invariant a) (hp : Prompt a) (hc : a.currProc = some p)
    (hz : a.kin (.zombieChildren p) = []) (status : Nat) :
    Prompt (Model.block { a with toData := a.setResume p (.wait status) } p .waitChild) := by
  have hruns := runs_of_agree hi.sched.agree hc
  have hr : Runs { a with toData := a.setResume p (.wait status) } p := hruns
  refine Quiet.prompt (quiet_after hr .waitChild) ?_
  intro q hq hs
  by_cases hqp : q = p
  · subst hqp; exact hz
  · rw [setState_state, if_neg hqp] at hs
    exact hp q hq hs

def Heard (a : Model) : Op → Prop
  | .exit _ => ∀ p, a.currProc = some p → a.kin (.zombieChildren p) = [] ∨
      (a.procs .initProc).state ≠ .waitChild ∨ (a.procs p).parent = some .initProc
  | _ => True

theorem announced_iff (h : Simulated k a) : Announced k op ↔ Heard a op := by
  cases op with
  | exit status =>
      rw [Announced, Heard, h.refines.data]
      refine forall_congr' fun p => forall_congr' fun hc => ?_
      rw [h.refines.tree_empty (g := .zombieChildren p) (h.invariant.curr_live hc), List.isEmpty_iff]
  | _ => exact Iff.rfl

theorem step_prompt_iff (hi : Invariant a) (hp : Prompt a) (h : KernelModel.Step a op out b) :
    Prompt b ↔ Heard a op := by
  cases h with
  | exit p parent status hc hpid hpar =>
      have hl := hi.parent_live hc hpid hpar
      rw [exit_prompt_iff hi hp hc.1 hl hpar, Heard]
      refine ⟨fun h q hq => ?_, fun h => h p hc.1⟩
      obtain rfl := Option.some.inj (hc.1.symm.trans hq)
      exact h
  | semInit sem hs => exact iff_of_true (Quiet.prompt (.of_procs_eq rfl rfl) hp) trivial
  | proc p addr pid hc ha hpid => exact iff_of_true (spawn_prompt hp) trivial
  | yield => exact iff_of_true hp trivial
  | sleep p now ns hc => exact iff_of_true (Quiet.prompt (sleep_quiet hi.sched hc.1 now ns) hp) trivial
  | waitNone => exact iff_of_true hp trivial
  | waitZombie p status addr rest hc hz => exact iff_of_true (reap_prompt hi hp hc.1 addr) trivial
  | waitBlock p status hc hl hz => exact iff_of_true (block_prompt hi hp hc.1 hz status) trivial
  | resume p addr hc hr hw hz =>
      exact iff_of_true (reap_prompt (setResume_invariant hi hc) hp hc addr) trivial
  | semWait p sem hc hs => exact iff_of_true (Quiet.prompt (semWait_quiet hi.sched hc.1 sem) hp) trivial
  | semSignal sem hs => exact iff_of_true (Quiet.prompt (semSignal_quiet hi.sched sem) hp) trivial
  | semSignaln sem n hs => exact iff_of_true (Quiet.prompt (semSignaln_quiet hi.sched hs n) hp) trivial
  | semDeinit sem hs => exact iff_of_true (Quiet.prompt (semSignaln_quiet hi.sched hs _) hp) trivial
  | wakeup now p rest hs => exact iff_of_true (Quiet.prompt (wakeup_quiet hi.sched hs) hp) trivial
  | preempt now rest hs => exact iff_of_true (Quiet.prompt (.of_procs_eq rfl rfl) hp) trivial

theorem announcedRun_simulated (h : AnnouncedRun k) : ∃ a, Simulated k a ∧ Prompt a := by
  induction h with
  | start hb =>
      obtain ⟨k₀, now, hp, hc⟩ := hb
      exact ⟨_, simulated_of_kmain hp hc, fun _ _ _ => rfl⟩
  | next i _ hs ih =>
      obtain ⟨a, ha, hp⟩ := ih
      obtain ⟨b, hstep, hb⟩ := step_simulates ha hs.1
      exact ⟨b, hb, (step_prompt_iff ha.invariant hp hstep).mpr ((announced_iff ha).mp hs.2)⟩

/-- In every run in which every exit is announced no wakeup is lost, and the next
step loses one exactly when it is an exit that is not announced. -/
theorem no_lost_wakeup (h : AnnouncedRun k) : NoLostWakeup k ∧
    ∀ op out k', KernelRuns.Step k op out k' → (NoLostWakeup k' ↔ Announced k op) := by
  obtain ⟨a, ha, hp⟩ := announcedRun_simulated h
  refine ⟨(noLostWakeup_iff ha.refines).mpr hp, fun op out k' hs => ?_⟩
  obtain ⟨b, hstep, hb⟩ := step_simulates ha hs
  rw [noLostWakeup_iff hb.refines, announced_iff ha]
  exact step_prompt_iff ha.invariant hp hstep

/-- The init process creates a process and waits for it. That process creates a
second one and sleeps, and the second one creates a third one, sleeps, is woken,
and exits after the third one. The third one is left to the init process, which
still waits. -/
theorem exit_loses_wakeup : ∃ k, Reached k ∧ (k.procs .initProc).state = .waitChild ∧
    listEmpty k.tree (.zombieChildren .initProc) = false := by
  obtain ⟨k₀, hb, h₀⟩ := booted_simulated
  obtain ⟨k₁, hs₁, h₁⟩ := h₀.realise (.proc .initProc 1 2 ⟨rfl, by decide, rfl⟩ rfl rfl) trivial
  obtain ⟨k₂, hs₂, h₂⟩ := h₁.realise (.waitBlock .initProc 0 ⟨rfl, by decide, rfl⟩ nofun rfl) trivial
  obtain ⟨k₃, hs₃, h₃⟩ := h₂.realise (.proc (.heap 1) 2 3 ⟨rfl, by decide, rfl⟩ rfl rfl) trivial
  obtain ⟨k₄, hs₄, h₄⟩ := h₃.realise (.sleep (.heap 1) 0 1000000 ⟨rfl, by decide, rfl⟩) trivial
  obtain ⟨k₅, hs₅, h₅⟩ := h₄.realise (.proc (.heap 2) 3 4 ⟨rfl, by decide, rfl⟩ rfl rfl) trivial
  obtain ⟨k₆, hs₆, h₆⟩ := h₅.realise (.sleep (.heap 2) 0 100 ⟨rfl, by decide, rfl⟩) trivial
  obtain ⟨k₇, hs₇, h₇⟩ := h₆.realise (.wakeup 5 (.heap 2) [.proc (.heap 1), .sched] rfl) trivial
  obtain ⟨k₈, hs₈, h₈⟩ := h₇.realise (.exit (.heap 3) (.heap 2) 0 ⟨rfl, by decide, rfl⟩ nofun rfl) trivial
  obtain ⟨k₉, hs₉, h₉⟩ := h₈.realise (.exit (.heap 2) (.heap 1) 0 ⟨rfl, by decide, rfl⟩ nofun rfl) trivial
  have r₃ : Reached k₃ := .next (_, _) (.next (_, _) (.next (_, _) (.start hb) hs₁) hs₂) hs₃
  have r₆ : Reached k₆ := .next (_, _) (.next (_, _) (.next (_, _) r₃ hs₄) hs₅) hs₆
  have r₉ : Reached k₉ := .next (_, _) (.next (_, _) (.next (_, _) r₆ hs₇) hs₈) hs₉
  refine ⟨k₉, r₉, by rw [h₉.refines.data]; rfl, ?_⟩
  rw [h₉.refines.tree_empty (g := .zombieChildren .initProc) rfl]
  rfl

/-- The init process has created a process and waits for it. -/
theorem no_lost_wakeup_wait : ∃ k, AnnouncedRun k ∧ (k.procs .initProc).state = .waitChild ∧ NoLostWakeup k := by
  obtain ⟨k₀, hb, h₀⟩ := booted_simulated
  obtain ⟨k₁, hs₁, h₁⟩ := h₀.realise (.proc .initProc 1 2 ⟨rfl, by decide, rfl⟩ rfl rfl) trivial
  obtain ⟨k₂, hs₂, h₂⟩ := h₁.realise (.waitBlock .initProc 0 ⟨rfl, by decide, rfl⟩ nofun rfl) trivial
  have hrun : AnnouncedRun k₂ :=
    .next (.wait 0, .blocked) (.next (.proc 1, .ret 2) (.start hb) ⟨hs₁, trivial⟩) ⟨hs₂, trivial⟩
  exact ⟨k₂, hrun, by rw [h₂.refines.data]; rfl, (no_lost_wakeup hrun).1⟩

end Karg.ChildExit
