import Karg.WaitHistory

namespace Karg.Reaping

open Process ProcTable Syscalls Execution KernelRuns KernelModel TreeInvariant TreeSteps ProcInvariant WaitInvariant
  KernelInvariant ExitRefinement KernelSimulation KernelBoot ChildExit WaitHistory

inductive Traced : List Event → Kernel → Prop
  | boot {k : Kernel} (h : Boot k) : Traced [] k
  | step {log : List Event} {k k' : Kernel} {op : Op} {out : Outcome} (h : Traced log k)
      (hs : KernelRuns.Step k op out k') : Traced (⟨k.currProc, op, out⟩ :: log) k'

def Creates (p : ProcRef) (e : Event) : Prop :=
  ∃ addr pid, e.op = .proc addr ∧ e.outcome = .ret pid ∧ p = .heap addr

def Reaps (p : ProcRef) (e : Event) : Prop := ∃ pid status, e.outcome = .reaped p pid status

/-- What a step does to the processes that are not yet reaped: a call of
`sys_wait` fails exactly if its caller has no child, what is handed over is a
dead child of the current process with its two values, and that child and no
other process leaves the process table and is freed. Only `sys_proc` adds one. -/
structure Handover (d : Data) (op : Op) (out : Outcome) (d' : Data) : Prop where
  wait (status : Nat) : op = .wait status →
    out = .ret (-echild) ∨ out = .blocked ∨ ∃ z pid value, out = .reaped z pid value
  childless (status : Nat) (p : ProcRef) : op = .wait status → d.currProc = some p →
    (out = .ret (-echild) ↔ ∀ q, d.live q → (d.procs q).parent ≠ some p)
  resume : op = .resume → ∃ z pid value, out = .reaped z pid value
  reaped (z : ProcRef) (pid : Int) (value : BitVec 32) : out = .reaped z pid value →
    (∃ p, d.currProc = some p ∧ (d.procs z).parent = some p) ∧ d.live z ∧ (d.procs z).state = .zombie ∧
      pid = (d.procs z).pid ∧ value = (d.procs z).exitStatus &&& 0xFF ∧ ¬ d'.live z ∧ ∀ n, d'.procTable n ≠ some z
  freed (z : ProcRef) : d.live z → ¬ d'.live z → ∃ pid value, out = .reaped z pid value
  removed (z : ProcRef) (n : Nat) : d.procTable n = some z → d'.procTable n ≠ some z →
    ∃ pid value, out = .reaped z pid value
  created (z : ProcRef) : ¬ d.live z → d'.live z → ∃ addr pid, op = .proc addr ∧ out = .ret pid ∧ z = .heap addr

variable {k : Kernel} {a b : Model} {p z : ProcRef} {op : Op} {out : Outcome} {log : List Event} {addr : Nat}

theorem handover_of_keep (hw : ∀ status, op ≠ .wait status) (hr : op ≠ .resume)
    (ho : ∀ z pid value, out ≠ .reaped z pid value)
    (hl : ∀ z, b.live z ↔ (∃ addr pid, op = .proc addr ∧ out = .ret pid ∧ z = .heap addr) ∨ a.live z)
    (ht : ∀ n z, a.procTable n = some z → b.procTable n = some z) : Handover a.toData op out b.toData where
  wait status h := absurd h (hw status)
  childless status _ h := absurd h (hw status)
  resume h := absurd h hr
  reaped z pid value h := absurd h (ho z pid value)
  freed z h h' := absurd ((hl z).mpr (.inr h)) h'
  removed z n h h' := absurd (ht n z h) h'
  created z h h' := ((hl z).mp h').resolve_right h

theorem handover_of_eq (hw : ∀ status, op ≠ .wait status) (hr : op ≠ .resume) (hp : ∀ addr, op ≠ .proc addr)
    (ho : ∀ z pid value, out ≠ .reaped z pid value) (hl : ∀ z, b.live z = a.live z)
    (ht : b.procTable = a.procTable) : Handover a.toData op out b.toData := by
  refine handover_of_keep hw hr ho (fun z => ?_) fun n z hz => by rw [ht]; exact hz
  rw [hl z]
  exact (or_iff_right fun ⟨addr, _, h, _⟩ => hp addr h).symm

theorem Quiet.handover (h : Quiet a b) (hw : ∀ status, op ≠ .wait status) (hr : op ≠ .resume)
    (hp : ∀ addr, op ≠ .proc addr) (ho : ∀ z pid value, out ≠ .reaped z pid value) :
    Handover a.toData op out b.toData := by
  have hf := h.frame
  simp only [Prod.mk.injEq] at hf
  exact handover_of_eq hw hr hp ho h.live hf.1

theorem childless_iff (ht : Tree a (Zombie a)) : a.kin (.children p) = [] ∧ a.kin (.zombieChildren p) = [] ↔
    ∀ q, a.live q → (a.procs q).parent ≠ some p := by
  constructor
  · rintro ⟨hc, hz⟩ q hq hp
    by_cases hd : Zombie a q
    · exact List.not_mem_nil (hz ▸ (ht.mem (.zombieChildren p) q).mpr ⟨hq, hp, hd⟩)
    · exact List.not_mem_nil (hc ▸ (ht.mem (.children p) q).mpr ⟨hq, hp, hd⟩)
  · intro h
    refine ⟨List.eq_nil_iff_forall_not_mem.mpr fun q hq => ?_, List.eq_nil_iff_forall_not_mem.mpr fun q hq => ?_⟩
    · obtain ⟨hl, hp, -⟩ := (ht.mem _ q).mp hq
      exact h q hl hp
    · obtain ⟨hl, hp, -⟩ := (ht.mem _ q).mp hq
      exact h q hl hp

theorem reap_spec (ht : Tree a (Zombie a)) (hz : .heap addr ∈ a.kin (.zombieChildren p)) :
    (a.procs (.heap addr)).parent = some p ∧ a.live (.heap addr) ∧ (a.procs (.heap addr)).state = .zombie ∧
      ¬ (a.reap p addr).live (.heap addr) ∧ (∀ n, (a.reap p addr).procTable n ≠ some (.heap addr)) ∧
      (∀ q, a.live q → ¬ (a.reap p addr).live q → q = .heap addr) ∧
      ∀ n q, a.procTable n = some q → (a.reap p addr).procTable n ≠ some q → q = .heap addr := by
  obtain ⟨hl, hp, hzom⟩ := (ht.mem _ _).mp hz
  have hdead : ¬ (a.reap p addr).live (.heap addr) := fun h => ((reap_live a p addr _).mp h).1 rfl
  refine ⟨hp, hl, hzom, hdead, fun n hn => ?_, fun q hq hq' => ?_, fun n q hn hn' => ?_⟩
  · exact hdead ((reap_tree ht hz).table n _ hn).1
  · by_contra hne
    exact hq' ((reap_live a p addr q).mpr ⟨hne, hq⟩)
  · have hpid := ht.table n q hn
    by_cases he : n = (a.procs (.heap addr)).pid.toNat
    · obtain ⟨m, -, hm⟩ := ht.entry _ hl
      rw [(ht.table m _ hm).2, Int.toNat_natCast] at he
      subst he
      exact Option.some.inj (hn.symm.trans hm)
    · exact absurd ((Function.update_of_ne he _ _).trans hn) hn'

theorem reap_handover (ht : Tree a (Zombie a)) (hc : a.currProc = some p)
    (hz : .heap addr ∈ a.kin (.zombieChildren p)) :
    Handover a.toData op (reaped a.toData (.heap addr)) (a.reap p addr).toData := by
  obtain ⟨hp, hl, hzom, hdead, hout, hfreed, hremoved⟩ := reap_spec ht hz
  constructor
  · exact fun _ _ => .inr (.inr ⟨_, _, _, rfl⟩)
  · intro status q _ hq
    obtain rfl := Option.some.inj (hc.symm.trans hq)
    exact iff_of_false (by simp [KernelModel.reaped]) fun h => h _ hl hp
  · exact fun _ => ⟨_, _, _, rfl⟩
  · rintro z pid value ⟨⟩
    exact ⟨⟨p, hc, hp⟩, hl, hzom, rfl, rfl, hdead, hout⟩
  · intro z hz hz'
    obtain rfl := hfreed z hz hz'
    exact ⟨_, _, rfl⟩
  · intro z n hn hn'
    obtain rfl := hremoved n z hn hn'
    exact ⟨_, _, rfl⟩
  · intro z hz hz'
    exact absurd ((reap_live a p addr z).mp hz').2 hz

theorem step_handover (hi : Invariant a) (h : KernelModel.Step a op out b) : Handover a.toData op out b.toData := by
  cases h with
  | semInit sem hs => exact Quiet.handover (.of_procs_eq rfl rfl) nofun nofun nofun nofun
  | proc p addr pid hc ha hpid =>
      refine handover_of_keep nofun nofun nofun (fun z => ?_) fun n z hz => ?_
      · rw [spawn_live a addr pid p z]
        simp
      · have hne : n ≠ pid := by
          rintro rfl
          exact absurd ((newPid_spec hi.tree.lastPid hpid).2.symm.trans hz) nofun
        exact (Function.update_of_ne hne ..).trans hz
  | yield => exact handover_of_eq nofun nofun nofun nofun (fun _ => rfl) rfl
  | sleep p now ns hc => exact Quiet.handover (sleep_quiet hi.sched hc.1 now ns) nofun nofun nofun nofun
  | waitNone p status hc hl hz =>
      refine ⟨fun _ _ => .inl rfl, fun _ q _ hq => ?_, nofun, nofun, fun z h h' => absurd h h',
        fun z n h h' => absurd h h', fun z h h' => absurd h' h⟩
      obtain rfl := Option.some.inj (hc.1.symm.trans hq)
      exact iff_of_true rfl ((childless_iff hi.tree).mp ⟨hl, hz⟩)
  | waitZombie p status addr rest hc hz => exact reap_handover hi.tree hc.1 (hz ▸ List.mem_cons_self)
  | waitBlock p status hc hl hz =>
      have hruns := runs_of_agree hi.sched.agree hc.1
      have hruns' : Runs { a with toData := a.setResume p (.wait status) } p := hruns
      have hquiet := quiet_after hruns' .waitChild
      have hf := hquiet.frame
      simp only [Prod.mk.injEq] at hf
      refine ⟨fun _ _ => .inr (.inl rfl), fun _ q _ hq => ?_, nofun, nofun, fun z h h' => ?_, fun z n h h' => ?_,
        fun z h h' => ?_⟩
      · obtain rfl := Option.some.inj (hc.1.symm.trans hq)
        exact iff_of_false nofun fun h => hl ((childless_iff hi.tree).mpr h).1
      · exact absurd ((hquiet.live z).trans h) h'
      · exact absurd ((congrFun hf.1 n).trans h) h'
      · exact absurd ((hquiet.live z).symm.trans h') h
  | exit p parent status hc hpid hpar =>
      exact handover_of_eq nofun nofun nofun nofun (Data.live_congr (exit_allocated a p parent status))
        (exit_procTable hi hc.1 (hi.parent_live hc hpid hpar) status)
  | resume p addr hc hr hw hz =>
      have h : Handover _ .resume _ _ := reap_handover (setResume_invariant hi hc).tree hc hz
      exact ⟨h.wait, h.childless, h.resume, h.reaped, h.freed, h.removed, h.created⟩
  | semWait p sem hc hs => exact Quiet.handover (semWait_quiet hi.sched hc.1 sem) nofun nofun nofun nofun
  | semSignal sem hs => exact Quiet.handover (semSignal_quiet hi.sched sem) nofun nofun nofun nofun
  | semSignaln sem n hs => exact Quiet.handover (semSignaln_quiet hi.sched hs n) nofun nofun nofun nofun
  | semDeinit sem hs => exact Quiet.handover (semSignaln_quiet hi.sched hs _) nofun nofun nofun nofun
  | wakeup now p rest hs => exact Quiet.handover (wakeup_quiet hi.sched hs) nofun nofun nofun nofun
  | preempt now rest hs => exact Quiet.handover (.of_procs_eq rfl rfl) nofun nofun nofun nofun

def Known (d : Data) (log : List Event) : Prop :=
  ∀ addr, d.allocated addr → Since (fun e _ => Creates (.heap addr) e) (fun e => ¬ Reaps (.heap addr) e) log

theorem step_known (hi : Invariant a) (hk : Known a.toData log) (h : KernelModel.Step a op out b) :
    Known b.toData (⟨a.currProc, op, out⟩ :: log) := by
  intro addr hb
  have hh := step_handover hi h
  by_cases ha : a.allocated addr
  · refine since_cons.mpr (.inr ⟨?_, hk addr ha⟩)
    rintro ⟨pid, status, ho⟩
    exact (hh.reaped _ pid status ho).2.2.2.2.2.1 hb
  · exact since_cons.mpr (.inl (hh.created (.heap addr) ha hb))

theorem traced_simulated (h : Traced log k) : ∃ a, Simulated k a ∧ History a log ∧ Known a.toData log := by
  induction h with
  | boot hb =>
      obtain ⟨k₀, now, hp, hc⟩ := hb
      refine ⟨_, simulated_of_kmain hp hc, ⟨fun p hl hst => ?_, fun p hl hr => ?_⟩, fun addr ha => ?_⟩
      · rcases (start_live hp p).mp hl with rfl | rfl
        · simp [start_idle.1] at hst
        · simp [start_init.1] at hst
      · rcases (start_live hp p).mp hl with rfl | rfl
        · exact absurd start_idle.2.2.2 hr
        · exact absurd start_init.2.2.2 hr
      · simpa using (start_live hp (.heap addr)).mp ha
  | step _ hs ih =>
      obtain ⟨a, ha, hlog, hk⟩ := ih
      obtain ⟨b, hstep, hb⟩ := step_simulates ha hs
      rw [ha.refines.data]
      exact ⟨b, hb, step_history ha.invariant hlog hstep, step_known ha.invariant hk hstep⟩

theorem Traced.split {recent older : List Event} {e : Event} (h : Traced (recent ++ e :: older) k) :
    ∃ k₁ k₂, Traced older k₁ ∧ e.caller = k₁.currProc ∧ KernelRuns.Step k₁ e.op e.outcome k₂ := by
  generalize hlog : recent ++ e :: older = log at h
  induction h generalizing recent with
  | boot => simp at hlog
  | @step log k k' op out h hs ih =>
      cases recent with
      | nil =>
          obtain ⟨rfl, rfl⟩ := List.cons_eq_cons.mp hlog
          exact ⟨k, k', h, rfl, hs⟩
      | cons x recent => exact ih (List.cons_eq_cons.mp hlog).2

theorem traced_handover (h : Traced log k) {k' : Kernel} (hs : KernelRuns.Step k op out k') :
    Handover k.toData op out k'.toData := by
  obtain ⟨a, ha, -, -⟩ := traced_simulated h
  obtain ⟨b, hstep, hb⟩ := step_simulates ha hs
  rw [ha.refines.data, hb.refines.data]
  exact step_handover ha.invariant hstep

/-- The process that a call of `sys_wait` hands over after a block is the one
that has woken the caller since. -/
theorem resume_woken (hi : Invariant a) (hlog : History a log) (hc : a.currProc = some p)
    (h : KernelModel.Step a .resume out b) : ∃ z pid value, out = .reaped z pid value ∧ Woken p z log := by
  cases h with
  | resume q addr hq hr hw hz =>
      obtain rfl := Option.some.inj (hc.symm.trans hq)
      obtain ⟨z, hz', hwoken⟩ := hlog.woken p (hi.curr_live hc) hr (by simp [hi.curr_state hc])
      obtain rfl := Option.some.inj (hz'.symm.trans hw)
      exact ⟨_, _, _, rfl, hwoken⟩

/-- In every run each dead process is handed over once: every step is a proper
handover, between two that return the same process it is created anew, and a
call that was blocked returns the child that has woken it since. -/
theorem reaping_exactly_once (h : Traced log k) :
    (∀ op out k', KernelRuns.Step k op out k' → Handover k.toData op out k'.toData) ∧
    (∀ recent e between e' older z, log = recent ++ e :: (between ++ e' :: older) → Reaps z e → Reaps z e' →
      ∃ x ∈ between, Creates z x) ∧
    ∀ recent e older p, log = recent ++ e :: older → e.op = .resume → e.caller = some p →
      ∃ z, Reaps z e ∧ Woken p z older := by
  refine ⟨fun op out k' hs => traced_handover h hs, ?_, ?_⟩
  · rintro recent e between e' older z rfl ⟨pid, value, he⟩ he'
    obtain ⟨k₁, k₂, h₁, -, hs⟩ := h.split
    obtain ⟨a, ha, -, hk⟩ := traced_simulated h₁
    obtain ⟨-, hl, hz, -⟩ := (traced_handover h₁ hs).reaped z pid value he
    cases z with
    | heap addr =>
        rw [ha.refines.data] at hl
        have hno : ¬ Creates (.heap addr) e' := by
          rintro ⟨_, _, -, hret, -⟩
          obtain ⟨_, _, hreap⟩ := he'
          exact absurd (hret.symm.trans hreap) nofun
        obtain ⟨x, hx, -, hc⟩ := Since.after hno (fun h => h he') (hk addr hl)
        exact ⟨x, hx, hc⟩
    | idleProc =>
        rw [ha.refines.data] at hz
        exact absurd hz ha.invariant.tree.idle.2.2
    | initProc =>
        rw [ha.refines.data] at hz
        exact absurd hz ha.invariant.tree.init.2.2
  · rintro recent ⟨caller, op, out⟩ older p rfl rfl rfl
    obtain ⟨k₁, k₂, h₁, hc, hs⟩ := h.split
    obtain ⟨a, ha, hlog, -⟩ := traced_simulated h₁
    obtain ⟨b, hstep, -⟩ := step_simulates ha hs
    rw [ha.refines.data] at hc
    obtain ⟨z, pid, value, rfl, hw⟩ := resume_woken ha.invariant hlog hc.symm hstep
    exact ⟨z, ⟨pid, value, rfl⟩, hw⟩

/-- The init process creates a process and waits. The process exits with the
status 263, and the init process gets its pid and the status 7. -/
theorem reaping_exactly_once_wait : ∃ log k, Traced log k ∧ ∃ e older, log = e :: older ∧ e.caller = some .initProc ∧
    e.outcome = .reaped (.heap 1) 2 7 ∧ Woken .initProc (.heap 1) older := by
  obtain ⟨k₀, hb, h₀⟩ := booted_simulated
  obtain ⟨k₁, hs₁, h₁⟩ := h₀.realise (.proc .initProc 1 2 ⟨rfl, by decide, rfl⟩ rfl rfl) trivial
  obtain ⟨k₂, hs₂, h₂⟩ := h₁.realise (.waitBlock .initProc 0 ⟨rfl, by decide, rfl⟩ nofun rfl) trivial
  obtain ⟨k₃, hs₃, h₃⟩ := h₂.realise (.exit (.heap 1) .initProc 263 ⟨rfl, by decide, rfl⟩ nofun rfl) trivial
  obtain ⟨k₄, hs₄, h₄⟩ := h₃.realise (.resume .initProc 1 rfl nofun rfl (by decide)) trivial
  have ht := (((Traced.boot hb).step hs₁).step hs₂).step hs₃ |>.step hs₄
  have hcurr : k₃.currProc = some .initProc := by rw [h₃.refines.data]; rfl
  obtain ⟨z, ⟨pid, value, hz⟩, hw⟩ := (reaping_exactly_once ht).2.2 [] _ _ .initProc rfl rfl hcurr
  cases hz
  exact ⟨_, k₄, ht, _, _, rfl, hcurr, rfl, hw⟩

end Karg.Reaping
