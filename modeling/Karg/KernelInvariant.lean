import Karg.SemInvariant
import Karg.TreeSteps
import Karg.WaitInvariant

namespace Karg.KernelInvariant

open TimerService Process ProcTable KernelRuns KernelModel QueueInvariant SchedInvariant SemInvariant ProcInvariant TreeInvariant
  TreeSteps WaitInvariant

def Zombie (a : Model) (p : ProcRef) : Prop := (a.procs p).state = .zombie

structure Invariant (a : Model) : Prop where
  sched : Scheduled a
  tree : Tree a (Zombie a)
  waits : Waits a

variable {a b : Model} {p q parent : ProcRef} {addr pid : Nat} {sem : SemRef}

theorem Quiet.tree (h : Quiet a b) (ht : Tree a (Zombie a)) : Tree b (Zombie b) := by
  have hf := h.frame
  simp only [Prod.mk.injEq] at hf
  refine ht.transfer (fun q => h.state q _ (.inr rfl)) (fun q => ?_) ?_
  · rw [h.procs q]; exact ⟨rfl, rfl⟩
  · rw [hf.1, hf.2.1, hf.2.2.1, hf.2.2.2.1]

theorem Invariant.quiet (hi : Invariant a) (h : Quiet a b) (hs : Scheduled b) : Invariant b :=
  ⟨hs, Quiet.tree h hi.tree, h.waits hi.waits⟩

theorem Invariant.curr_state (hi : Invariant a) (hc : a.currProc = some p) : (a.procs p).state = .curr :=
  ((hi.sched.agree.curr p).mp hc).2.2

theorem Invariant.curr_live (hi : Invariant a) (hc : a.currProc = some p) : a.live p :=
  ((hi.sched.agree.curr p).mp hc).1

theorem Invariant.parent_live (hi : Invariant a) (hc : Calls a.toData p) (hpid : (a.procs p).pid ≠ 1)
    (hp : (a.procs p).parent = some parent) : a.live parent := by
  have hinit : p ≠ .initProc := by
    rintro rfl
    exact hpid hi.tree.init.1
  obtain ⟨parent', hp', hl, -, -⟩ := hi.tree.exists_parent (hi.curr_live hc.1) hc.2.1 hinit
  exact Option.some.inj (hp'.symm.trans hp) ▸ hl

theorem semSignal_quiet (hi : Scheduled a) (sem : SemRef) : Quiet a (a.semSignal sem) := by
  rw [Model.semSignal]
  split
  · cases hq : a.queue (.waitQueue sem) with
    | nil =>
        simp only [Model.wakeFirst, hq]
        exact .of_procs_eq rfl rfl
    | cons p rest =>
        have hp : (a.procs p).state = .waitSem :=
          (hi.agree.mem (.waitQueue sem) p (by rw [hq]; exact List.mem_cons_self)).2.2
        simp only [Model.wakeFirst, hq]
        exact .of_setState (p := p) rfl rfl (by simp [hp]) (by simp)
  · exact .of_procs_eq rfl rfl

theorem semSignaln_quiet (hi : Scheduled a) (hs : a.semInited sem) (n : Nat) : Quiet a (a.semSignaln sem n) := by
  induction n generalizing a with
  | zero => exact .of_procs_eq rfl rfl
  | succ n ih =>
      refine (semSignal_quiet hi sem).trans (ih (semSignal_scheduled hi hs) ?_)
      rw [semSignal_semInited]
      exact hs

theorem semWait_quiet (hi : Scheduled a) (hc : a.currProc = some p) (sem : SemRef) : Quiet a (a.semWait sem p) := by
  have hr := runs_of_agree hi.agree hc
  rw [Model.semWait]
  split
  · refine Quiet.trans ?_ (quiet_block (p := p) hr (by simp))
    exact .of_procs_eq rfl rfl
  · exact .of_procs_eq rfl rfl

theorem sleep_quiet (hi : Scheduled a) (hc : a.currProc = some p) (now ns : Nat) : Quiet a (a.sleep p now ns) := by
  have hr := runs_of_agree hi.agree hc
  refine Quiet.trans (b := a.arm (.proc p) ⟨deadline a.timerFreq now ns, .wakeupProc, some p⟩) ?_
    (quiet_block (p := p) hr (by simp))
  exact .of_procs_eq rfl rfl

theorem wakeup_quiet (hi : Scheduled a) {rest : List TimerRef} (hs : a.sleepers = .proc p :: rest) :
    Quiet a (Model.wake { a with sleepers := rest } p) := by
  have hp : (a.procs p).state = .sleep := ((hi.agree.sleeping p).mp (by rw [hs]; exact List.mem_cons_self)).2.2
  exact .of_setState (p := p) rfl rfl (by simp [hp]) (by simp)

section Exit

theorem Descends.not_own_parent (ht : Tree a (Zombie a)) (h : Descends a.toData (Zombie a) p) :
    (a.procs p).parent ≠ some p := by
  induction h with
  | init => rw [ht.init.2.1]; simp
  | @child p parent hp _ _ _ ih =>
      intro he
      obtain rfl := Option.some.inj (hp.symm.trans he)
      exact ih he

theorem setExit_tree (ht : Tree a (Zombie a)) (p : ProcRef) (status : BitVec 32) :
    Tree { a with toData := a.setProc p { a.procs p with exitStatus := status } } (Zombie a) := by
  refine ht.transfer (fun _ => Iff.rfl) (fun q => ?_) rfl
  by_cases hq : q = p
  · subst hq; rw [setProc_procs_self]; exact ⟨rfl, rfl⟩
  · rw [setProc_procs_ne _ _ hq]; exact ⟨rfl, rfl⟩

theorem adopt_parent_self {dead : ProcRef → Prop} (ht : Tree a dead) {src dst : TreeNode} (hs : Adoptive p src dst)
    (hp : (a.procs p).parent ≠ some p) : (a.adopt src dst .initProc).procs p = a.procs p := by
  refine adopt_procs_not_mem dst fun hm => ?_
  have hb := ((ht.mem src p).mp hm).2
  rcases hs with ⟨rfl, -⟩ | ⟨rfl, -⟩ <;> exact hp hb.1

theorem disown_tree (hi : Invariant a) (hl : a.live p) (hidle : p ≠ .idleProc) (hinit : p ≠ .initProc)
    (status : BitVec 32) : Tree (a.disown p status) (Zombie a) ∧
      ((a.disown p status).procs p).parent = (a.procs p).parent := by
  have hself := Descends.not_own_parent hi.tree (hi.tree.descends p hl hidle)
  set b : Model := { a with toData := a.setProc p { a.procs p with exitStatus := status } } with hb
  have hbp : (b.procs p).parent = (a.procs p).parent := by simp [hb]
  have h₀ : Tree b (Zombie a) := setExit_tree hi.tree p status
  have hs₁ : Adoptive p (.children p) (.children .initProc) := .inl ⟨rfl, rfl⟩
  have hs₂ : Adoptive p (.zombieChildren p) (.zombieChildren .initProc) := .inr ⟨rfl, rfl⟩
  have h₁ := adopt_tree h₀ hs₁ hinit
  have hp₁ := adopt_parent_self h₀ hs₁ (by rwa [hbp])
  have hp₂ := adopt_parent_self h₁ hs₂ (by rwa [hp₁, hbp])
  exact ⟨adopt_tree h₁ hs₂ hinit, (congrArg Proc.parent hp₂).trans ((congrArg Proc.parent hp₁).trans hbp)⟩

theorem disown_kin (a : Model) (p : ProcRef) (status : BitVec 32) :
    (a.disown p status).kin (.children p) = [] ∧ (a.disown p status).kin (.zombieChildren p) = [] := by
  simp [Model.disown, Model.adopt]

theorem leave_tree (hi : Invariant a) (hc : a.currProc = some p) (hidle : p ≠ .idleProc) (hinit : p ≠ .initProc)
    (hp : (a.procs p).parent = some parent) (status : BitVec 32) :
    Tree (a.leave p parent status) (fun q => q = p ∨ Zombie a q) := by
  have hl := hi.curr_live hc
  have hd : ¬ Zombie a p := by simp [Zombie, hi.curr_state hc]
  obtain ⟨ht, hpar⟩ := disown_tree hi hl hidle hinit status
  exact bury_tree ht hl hd hidle hinit (hpar.trans hp) (disown_kin a p status)

theorem setExit_state (a : Model) (p q : ProcRef) (status : BitVec 32) :
    ((a.setProc p { a.procs p with exitStatus := status }).procs q).state = (a.procs q).state := by
  by_cases hq : q = p
  · subst hq; rw [setProc_procs_self]
  · rw [setProc_procs_ne _ _ hq]

theorem leave_state (a : Model) (p parent q : ProcRef) (status : BitVec 32) :
    ((a.leave p parent status).procs q).state = (a.procs q).state := by
  have hs := setExit_state a p q status
  simp only [Model.leave, Model.disown, Model.bury, Model.adopt]
  split
  · split <;> exact hs
  · split <;> exact hs

theorem notify_procs (a : Model) (p parent q : ProcRef) :
    ((a.notify p parent).procs q).pid = (a.procs q).pid ∧ ((a.notify p parent).procs q).parent = (a.procs q).parent ∧
      (Zombie (a.notify p parent) q ↔ Zombie a q) := by
  rw [Model.notify]
  split
  · next hs =>
    by_cases hq : q = parent
    · subst hq
      simp [Model.wake, Model.push, Data.setState, Zombie, hs]
    · simp only [Model.wake, Model.push, Data.setState, Zombie, setProc_procs_ne _ _ hq, true_and]
  · exact ⟨rfl, rfl, Iff.rfl⟩

theorem notify_frame (a : Model) (p parent : ProcRef) :
    ((a.notify p parent).procTable, (a.notify p parent).lastPid, (a.notify p parent).allocated,
      (a.notify p parent).kin) = (a.procTable, a.lastPid, a.allocated, a.kin) ∧
      (a.notify p parent).resume = a.resume := by
  rw [Model.notify]
  split <;> exact ⟨rfl, rfl⟩

theorem zombie_tree {dead : ProcRef → Prop} (ht : Tree a dead) (hr : Runs a p)
    (hd : ∀ q, dead q ↔ q = p ∨ Zombie a q) : Tree (a.block p .zombie) (Zombie (a.block p .zombie)) := by
  refine Quiet.tree (quiet_after hr .zombie) (ht.transfer ?_ ?_ rfl)
  · intro q
    rw [hd, Zombie, setState_state]
    by_cases hq : q = p
    · simp [hq]
    · simp [hq, Zombie]
  · intro q
    by_cases hq : q = p
    · subst hq; simp [Data.setState]
    · simp [Data.setState, setProc_procs_ne _ _ hq]

theorem exit_invariant (hi : Invariant a) (hc : Calls a.toData p) (hinit : p ≠ .initProc)
    (hp : (a.procs p).parent = some parent) (status : BitVec 32) : Invariant (a.exit p parent status) := by
  obtain ⟨hcurr, hidle, huser⟩ := hc
  obtain ⟨parent', hp', hl, -, -⟩ := hi.tree.exists_parent (hi.curr_live hcurr) hidle hinit
  obtain rfl := Option.some.inj (hp'.symm.trans hp)
  have hleave := leave_tree hi hcurr hidle hinit hp status
  have hsched := notify_scheduled (p := p) (leave_scheduled hi.sched p parent' status) hl
  have hruns : Runs ((a.leave p parent' status).notify p parent') p :=
    runs_of_agree hsched.agree (by rw [notify_currProc]; exact hcurr)
  refine ⟨exit_scheduled hi.sched hcurr hidle hl status, ?_, ?_⟩
  · have hn := hleave.transfer (b := (a.leave p parent' status).notify p parent') (fun _ => Iff.rfl)
      (fun q => ⟨(notify_procs _ _ _ q).1, (notify_procs _ _ _ q).2.1⟩) (notify_frame _ _ _).1
    refine zombie_tree hn hruns fun q => or_congr_right ?_
    rw [(notify_procs _ _ _ q).2.2, Zombie, Zombie, leave_state]
  · refine zombie_waits (notify_waits (leave_waits hi.waits huser parent' status) (mem_bury _ _ _)) hruns ?_
    rw [(notify_frame _ _ _).2]
    exact huser

end Exit

theorem spawn_waits (hw : Waits a) : Waits (a.spawn addr pid parent) := by
  have hold : ∀ {q}, (a.spawn addr pid parent).live q → q ≠ .heap addr → a.live q := fun hq hne =>
    ((spawn_live a addr pid parent _).mp hq).resolve_left hne
  have hres : ∀ {q}, q ≠ .heap addr → (a.spawn addr pid parent).resume q = a.resume q := fun hne =>
    Function.update_of_ne hne ..
  constructor
  · intro q hq hs
    have hne : q ≠ .heap addr := by
      rintro rfl
      simp [spawn_state] at hs
    rw [spawn_procs_ne hne] at hs
    rw [hres hne]
    exact hw.blocked q (hold hq hne) hs
  · intro q hq hr hs
    have hne : q ≠ .heap addr := by
      rintro rfl
      exact hr (Function.update_self ..)
    rw [hres hne] at hr
    rw [spawn_procs_ne hne] at hs ⊢
    exact hw.woken q (hold hq hne) hr hs

theorem spawn_invariant (hi : Invariant a) (hc : Calls a.toData p) (hf : a.allocated addr = false)
    (hp : newPid a.toData = some pid) : Invariant (a.spawn addr pid p) := by
  obtain ⟨hcurr, hidle, -⟩ := hc
  have hd : ¬ Zombie a p := by simp [Zombie, hi.curr_state hcurr]
  refine ⟨spawn_scheduled hi.sched hf, ?_, spawn_waits hi.waits⟩
  refine (spawn_tree hi.tree hf (hi.curr_live hcurr) hd hidle hp).transfer ?_ (fun _ => ⟨rfl, rfl⟩) rfl
  intro q
  rw [Zombie, spawn_state]
  by_cases hq : q = .heap addr
  · simp [hq]
  · simp [hq, Zombie]

theorem reap_invariant (hi : Invariant a) (hr : a.resume p = .user) (hz : .heap addr ∈ a.kin (.zombieChildren p)) :
    Invariant (a.reap p addr) := by
  have hd : Zombie a (.heap addr) := ((hi.tree.mem _ _).mp hz).2.2
  exact ⟨reap_scheduled hi.sched hd p, reap_tree hi.tree hz, reap_waits hi.waits hr addr⟩

theorem setResume_invariant (hi : Invariant a) (hc : a.currProc = some p) :
    Invariant { a with toData := a.setResume p .user } where
  sched := hi.sched.transfer (fun _ => rfl) rfl rfl
  tree := hi.tree.transfer (fun _ => Iff.rfl) (fun _ => ⟨rfl, rfl⟩) rfl
  waits := waits_setResume hi.waits (by simp [hi.curr_state hc])

theorem waitBlock_invariant (hi : Invariant a) (hc : Calls a.toData p) (status : Nat) :
    Invariant (Model.block { a with toData := a.setResume p (.wait status) } p .waitChild) := by
  obtain ⟨hcurr, hidle, -⟩ := hc
  have hruns := runs_of_agree hi.sched.agree hcurr
  have hb : Scheduled { a with toData := a.setResume p (.wait status) } := hi.sched.transfer (fun _ => rfl) rfl rfl
  have hbr : Runs { a with toData := a.setResume p (.wait status) } p := hruns
  refine ⟨block_detached hb hcurr hidle (.inr (.inl rfl)) (by simp), ?_, block_waits hi.waits hruns status⟩
  refine Quiet.tree (quiet_after hbr .waitChild) (hi.tree.transfer ?_ ?_ rfl)
  · intro q
    rw [Zombie, setState_state]
    by_cases hq : q = p
    · subst hq
      simp [Zombie, hi.curr_state hcurr]
    · rw [if_neg hq]
      exact Iff.rfl
  · intro q
    by_cases hq : q = p
    · subst hq; simp [Data.setState, Data.setResume]
    · simp [Data.setState, setProc_procs_ne _ _ hq, Data.setResume]

theorem step_invariant {op : Op} {out : Syscalls.Outcome} (hi : Invariant a) (h : Step a op out b) : Invariant b := by
  cases h with
  | semInit sem hs => exact hi.quiet (.of_procs_eq rfl rfl) (semInit_scheduled hi.sched hs)
  | proc p addr pid hc ha hp => exact spawn_invariant hi hc ha hp
  | yield => exact hi
  | sleep p now ns hc => exact hi.quiet (sleep_quiet hi.sched hc.1 now ns) (sleep_scheduled hi.sched hc.1 hc.2.1 now ns)
  | waitNone => exact hi
  | waitZombie p status addr rest hc hz => exact reap_invariant hi hc.2.2 (by rw [hz]; exact List.mem_cons_self)
  | waitBlock p status hc => exact waitBlock_invariant hi hc status
  | exit p parent status hc hpid hp =>
      refine exit_invariant hi hc ?_ hp status
      rintro rfl
      exact hpid hi.tree.init.1
  | resume p addr hc _ _ hz => exact reap_invariant (setResume_invariant hi hc) (Function.update_self ..) hz
  | semWait p sem hc hs =>
      exact hi.quiet (semWait_quiet hi.sched hc.1 sem) (semWait_scheduled hi.sched hc.1 hc.2.1 hs)
  | semSignal sem hs => exact hi.quiet (semSignal_quiet hi.sched sem) (semSignal_scheduled hi.sched hs)
  | semSignaln sem n hs => exact hi.quiet (semSignaln_quiet hi.sched hs n) (semSignaln_scheduled hi.sched hs n)
  | semDeinit sem hs => exact hi.quiet (semSignaln_quiet hi.sched hs _) (semSignaln_scheduled hi.sched hs _)
  | wakeup now p rest hs => exact hi.quiet (wakeup_quiet hi.sched hs) (wakeup_scheduled hi.sched hs)
  | preempt now rest hs => exact hi.quiet (.of_procs_eq rfl rfl) (preempt_scheduled hi.sched hs now)

end Karg.KernelInvariant
