import Karg.KernelInvariant
import Karg.ProcRefinement
import Karg.SemRefinement

namespace Karg.SyscallRefinement

open LinkStore ListFamily ListNode TimerService TimerQueue Process ProcTable Sched Syscalls Execution KernelRuns
  KernelModel QueueInvariant SchedInvariant ProcInvariant TreeInvariant WaitInvariant KernelInvariant
  KernelRefinement SchedRefinement SemRefinement ProcRefinement

def Exist (d : Data) : TimerRef → Prop
  | .sched => True
  | .proc p => d.live p

variable {k : Kernel} {a b : Model} {p parent : ProcRef} {E : TimerRef → Prop}

theorem exist_congr (h : b.allocated = a.allocated) : Exist b.toData = Exist a.toData := by
  funext t
  cases t with
  | sched => rfl
  | proc p => cases p <;> simp only [Exist, Data.live, h]

theorem Quiet.refines (hq : Quiet a b) (h : Refines (Exist a.toData) k b) : Refines (Exist b.toData) k b := by
  have hf := hq.frame
  simp only [Prod.mk.injEq] at hf
  rwa [exist_congr hf.2.2.1]

theorem timerWait_refines (h : Refines E k a) {t : TimerRef} (ht : t ∉ a.sleepers) (now ns : Nat)
    (callback : Callback) (data : Option ProcRef) :
    ∃ s, (∀ fuel, a.sleepers.length < fuel → timerWait fuel k.timers t now ns callback data = some s) ∧
      Refines E { k with timers := s } (a.arm t ⟨deadline a.timerFreq now ns, callback, data⟩) := by
  obtain ⟨s, hs, ht, hf, hh, -⟩ := timerWait_holds h.timers ht now ns callback data
  rw [h.timer, h.timerFreq] at ht
  refine ⟨s, hs, h.data, h.queues, h.tree, ?_, ht, hf.trans h.timerFreq⟩
  simp only [runsBefore, ht] at hh
  exact hh

theorem timerIsr_refines (h : Refines E k a) {t : TimerRef} {rest : List TimerRef} (hs : a.sleepers = t :: rest) :
    ∃ s, timerIsr k.timers = some (s, t) ∧ Refines E { k with timers := s } { a with sleepers := rest } := by
  have hh := h.timers
  rw [hs] at hh
  obtain ⟨s, hs', hh', ht, hf, -⟩ := timerIsr_holds hh
  exact ⟨s, hs', h.data, h.queues, h.tree, hh', ht.trans h.timer, hf.trans h.timerFreq⟩

theorem resched_refines (h : Refines E k a) (hi : Scheduled a) : ∃ k', schedResched k = some k' ∧ Refines E k' a := by
  obtain ⟨p, hc⟩ := hi.running
  exact schedResched_curr h hc ((hi.agree.curr p).mp hc).2.2 fun g _ => curr_not_mem hi hc g

theorem timerInterrupt_wakeup (h : Refines (Exist a.toData) k a) (hi : Scheduled a) {rest : List TimerRef}
    (hs : a.sleepers = .proc p :: rest) (now : Nat) :
    ∃ k', (∀ fuel, timerInterrupt fuel now k = some k') ∧
      Refines (Exist a.toData) k' (Model.wake { a with sleepers := rest } p) := by
  have hm : TimerRef.proc p ∈ a.sleepers := by rw [hs]; exact List.mem_cons_self
  have hp := (hi.agree.sleeping p).mp hm
  have hcb := hi.wakeup p hm
  obtain ⟨s, hs', h₁⟩ := timerIsr_refines h hs
  have ht : s.timers = a.timer := h₁.timer
  have hloose := loose_of_transit (E := Exist a.toData) (hi.agree.expire hs) (by simp [hp.2.2]) hp.1
  obtain ⟨k', hk', h'⟩ := updateState_ready_refines h₁ hloose
  refine ⟨k', fun fuel => ?_, h'⟩
  rw [timerInterrupt, hs']
  simp only [Option.bind_eq_bind, Option.bind_some, ht, hcb.1, hcb.2, wakeupProc]
  exact hk'

theorem timerInterrupt_preempt (h : Refines (Exist a.toData) k a) (hi : Scheduled a) {rest : List TimerRef}
    (hs : a.sleepers = .sched :: rest) (now : Nat) :
    ∃ k', (∀ fuel, rest.length < fuel → timerInterrupt fuel now k = some k') ∧
      Refines (Exist a.toData) k' (Model.preempt { a with sleepers := rest } now) := by
  have hcb := hi.preempt (by rw [hs]; exact List.mem_cons_self)
  have hnd := hi.agree.sleepers_nodup
  rw [hs, List.nodup_cons] at hnd
  obtain ⟨s, hs', h₁⟩ := timerIsr_refines h hs
  have ht : s.timers = a.timer := h₁.timer
  obtain ⟨s₂, hs₂, h₂⟩ := timerWait_refines h₁ hnd.1 now schedTimeslice .schedPreempt none
  obtain ⟨k', hk', h'⟩ := resched_refines h₂ (preempt_scheduled hi hs now)
  refine ⟨k', fun fuel hfuel => ?_, h'⟩
  rw [timerInterrupt, hs']
  simp only [Option.bind_eq_bind, Option.bind_some, ht, hcb, schedPreempt, schedArm, hs₂ fuel hfuel]
  exact hk'

theorem sysSleep_refines (h : Refines (Exist a.toData) k a) (hi : Scheduled a) (hc : a.currProc = some p)
    (hp : p ≠ .idleProc) (now ns : Nat) :
    ∃ k', (∀ fuel, a.sleepers.length < fuel → sysSleep fuel now k ns = some (k', .ret 0)) ∧
      Refines (Exist a.toData) k' (a.sleep p now ns) := by
  have hcurr := (hi.agree.curr p).mp hc
  have hm : TimerRef.proc p ∉ a.sleepers := fun hm =>
    absurd (((hi.agree.sleeping p).mp hm).2.2.symm.trans hcurr.2.2) (by simp)
  obtain ⟨q, r, hq, hr⟩ := exists_ready hi hc hp
  obtain ⟨s, hs, h₁⟩ := timerWait_refines h hm now ns .wakeupProc (some p)
  obtain ⟨k', hk', h'⟩ := updateState_block_refines h₁ hc hcurr.2.2 (.inr (.inr (.inl rfl))) hq hr
  refine ⟨k', fun fuel hfuel => ?_, h'⟩
  rw [sysSleep, sysSleepArm]
  simp only [h.data, hc, Option.bind_eq_bind, Option.bind_some, hs fuel hfuel]
  rw [← h.data, hk']
  rfl

section Proc

variable {addr pid : Nat}

theorem kin_of_dead (hi : Invariant a) (hp : ¬ a.live p) (g : TreeNode) :
    p ∉ a.kin g ∧ (g = .children p ∨ g = .zombieChildren p → a.kin g = []) := by
  refine ⟨fun hm => hp ((hi.tree.mem g p).mp hm).1, fun hg => List.eq_nil_iff_forall_not_mem.mpr fun q hq => ?_⟩
  obtain ⟨hl, hb⟩ := (hi.tree.mem g q).mp hq
  have hpar : (a.procs q).parent = some p := by
    rcases hg with rfl | rfl <;> exact hb.1
  have hne : q ≠ .idleProc := by
    rintro rfl
    exact absurd (hi.tree.idle.2.1.symm.trans hpar) nofun
  cases hi.tree.descends q hl hne with
  | init => exact absurd (hi.tree.init.2.1.symm.trans hpar) nofun
  | child hp' hl' =>
      obtain rfl := Option.some.inj (hp'.symm.trans hpar)
      exact hp hl'

theorem exist_spawn (a : Model) (addr pid : Nat) (parent : ProcRef) (t : TimerRef) :
    Exist (a.spawn addr pid parent).toData t ↔ t = .proc (.heap addr) ∨ Exist a.toData t := by
  cases t with
  | sched => simp [Exist]
  | proc q =>
      rw [TimerRef.proc.injEq]
      exact spawn_live a addr pid parent q

theorem sysProc_refines (h : Refines (Exist a.toData) k a) (hi : Invariant a) (hc : a.currProc = some p)
    (hf : a.allocated addr = false) (hpid : newPid a.toData = some pid) :
    ∃ k', sysProc k (some addr) 0 = some (k', .ret pid) ∧
      Refines (Exist (a.spawn addr pid p).toData) k' (a.spawn addr pid p) := by
  have hdead : ¬ a.live (.heap addr) := by simp [Data.live, hf]
  have hnot : ∀ g, .heap addr ∉ a.queue g := fun g hm => hdead (hi.sched.agree.mem g _ hm).1
  have hsl : .proc (.heap addr) ∉ a.sleepers := fun hm => hdead ((hi.sched.agree.sleeping _).mp hm).1
  have halloc := h.setData (d := { a.toData with allocated := Function.update a.allocated addr true }) rfl
  obtain ⟨k₁, hk₁, h₁⟩ := procInit_refines halloc (p := .heap addr) hpid hdead hsl
    (fun g => (kin_of_dead hi hdead g).1)
    ⟨(kin_of_dead hi hdead _).2 (.inl rfl), (kin_of_dead hi hdead _).2 (.inr rfl)⟩
    (some p) (fun q hq => Option.some.inj hq ▸ hi.curr_live hc)
  have hinit : ((Model.create { a with allocated := Function.update a.allocated addr true } (.heap addr) pid
      (some p)).procs (.heap addr)).state = .init := by
    simp [Model.create, Data.setResume, setState_state]
  obtain ⟨k₂, hk₂, h₂⟩ := updateState_ready_refines h₁ (p := .heap addr)
    ⟨by simp [hinit], by simp [hinit], fun g _ => hnot g⟩
  refine ⟨k₂, ?_, h₂.restrict fun t ht => (exist_spawn a addr pid p t).mp ht⟩
  have hret : (k₂.procs (.heap addr)).pid = pid := by
    rw [h₂.data]
    exact (TreeSteps.spawn_procs_self (a := a)).1
  have hinit' : procInit { k with allocated := Function.update k.allocated addr true } (.heap addr) k.currProc 0 =
      (k₁, 0) := by
    rw [h.data]
    exact (congrArg (procInit _ _ · 0) hc).trans hk₁
  simp only [sysProc, hinit', hk₂, Int.lt_irrefl, if_false, Option.bind_eq_bind, Option.bind_some, hret]

end Proc

section Wait

variable {addr : Nat} {l r : List ProcRef}

theorem sysWaitQuit_refines (h : Refines (Exist a.toData) k a) (hi : Invariant a) (hp : a.live p)
    (hz : .heap addr ∈ a.kin (.zombieChildren p)) :
    ∃ k', sysWaitQuit k (.heap addr) = some (k', reaped a.toData (.heap addr)) ∧
      Refines (Exist (a.reap p addr).toData) k' (a.reap p addr) := by
  obtain ⟨l, r, hlr⟩ := List.append_of_mem hz
  have hnd := hi.tree.nodup (.zombieChildren p)
  have hl : .heap addr ∉ l := by
    rw [hlr] at hnd
    exact fun hl => (List.nodup_append.mp hnd).2.2 _ hl _ List.mem_cons_self rfl
  have he : (a.kin (.zombieChildren p)).erase (.heap addr) = l ++ r := by
    rw [hlr, List.erase_append_right _ hl, List.erase_cons_head]
  have hrem := h.treeRemove (g := .zombieChildren p) hp hlr
  have hset := hrem.setData (d := (a.reap p addr).toData) rfl
  refine ⟨{ k with
    toData := (a.reap p addr).toData
    tree := listRemove k.tree (.treeNode (.heap addr)) }, ?_, ?_⟩
  · rw [sysWaitQuit, procDeinit, h.data]
    rfl
  · rw [← he] at hset
    exact hset.restrict fun t ht => by
      cases t with
      | sched => trivial
      | proc q => exact ((reap_live a p addr q).mp ht).2

theorem heap_of_mem (hi : Invariant a) {g : TreeNode} {q : ProcRef} (hq : q ∈ a.kin g) : ∃ addr, q = .heap addr := by
  cases q with
  | idleProc => exact absurd hq (hi.tree.orphan hi.tree.idle.2.1 g)
  | initProc => exact absurd hq (hi.tree.orphan hi.tree.init.2.1 g)
  | heap addr => exact ⟨addr, rfl⟩

theorem sysWait_refines (h : Refines (Exist a.toData) k a) (hi : Invariant a) (hc : Calls a.toData p)
    (status : Nat) : ∃ k' out b, sysWait k status = some (k', out) ∧ Step a (.wait status) out b ∧
      Refines (Exist b.toData) k' b := by
  obtain ⟨hcurr, hidle, -⟩ := id hc
  have hlive := hi.curr_live hcurr
  have hch : listEmpty k.tree (.children p) = (a.kin (.children p)).isEmpty :=
    h.tree_empty (g := .children p) hlive
  have hzo : listEmpty k.tree (.zombieChildren p) = (a.kin (.zombieChildren p)).isEmpty :=
    h.tree_empty (g := .zombieChildren p) hlive
  have hk : k.currProc = some p := by rw [h.data, hcurr]
  cases hz : a.kin (.zombieChildren p) with
  | cons z rest =>
      have hm : z ∈ a.kin (.zombieChildren p) := by rw [hz]; exact List.mem_cons_self
      obtain ⟨addr, rfl⟩ := heap_of_mem hi hm
      obtain ⟨k', hk', h'⟩ := sysWaitQuit_refines h hi hlive hm
      have hfront : listFront k.tree (.zombieChildren p) = .treeNode (.heap addr) := by
        rw [h.tree_front (g := .zombieChildren p) hlive, hz]
        rfl
      refine ⟨k', _, _, ?_, .waitZombie p status addr rest hc hz, h'⟩
      simp only [sysWait, hk, Option.bind_eq_bind, Option.bind_some, hzo, hz, List.isEmpty_cons, Bool.and_false,
        Bool.false_eq_true, if_false, Bool.not_false, if_true, hfront, entryTreeNode, hk']
  | nil =>
      cases hl : a.kin (.children p) with
      | nil =>
          refine ⟨k, _, a, ?_, .waitNone p status hc hl hz, h⟩
          simp only [sysWait, hk, Option.bind_eq_bind, Option.bind_some, hch, hzo, hl, hz, List.isEmpty_nil,
            Bool.and_self, if_true]
      | cons c rest =>
          have hset := h.setData (d := a.setResume p (.wait status)) rfl
          obtain ⟨q, r, hq, hr⟩ := exists_ready hi.sched hcurr hidle
          obtain ⟨k', hk', h'⟩ := updateState_block_refines hset hcurr (hi.curr_state hcurr)
            (.inr (.inl rfl)) hq hr
          refine ⟨k', _, _, ?_, .waitBlock p status hc (by simp [hl]) hz, ?_⟩
          · rw [← h.data] at hk'
            simp only [sysWait, hk, Option.bind_eq_bind, Option.bind_some, hch, hzo, hl, hz, List.isEmpty_nil,
              List.isEmpty_cons, Bool.false_and, Bool.false_eq_true, if_false, Bool.not_true, hk']
          · have hruns := runs_of_agree hi.sched.agree hcurr
            have hbr : Runs { a with toData := a.setResume p (.wait status) } p := hruns
            exact Quiet.refines (quiet_after hbr .waitChild) h'

end Wait

theorem sysWaitResume_refines (h : Refines (Exist a.toData) k a) (hi : Invariant a) (hc : a.currProc = some p)
    (hr : a.resume p ≠ .user) : ∃ k' out b, sysWaitResume k = some (k', out) ∧ Step a .resume out b ∧
      Refines (Exist b.toData) k' b := by
  have hlive := hi.curr_live hc
  obtain ⟨z, hz, hw⟩ := hi.waits.woken p hlive hr (by simp [hi.curr_state hc])
  obtain ⟨addr, rfl⟩ := heap_of_mem hi hz
  have hset := h.setData (d := a.setResume p .user) rfl
  obtain ⟨k', hk', h'⟩ := sysWaitQuit_refines hset (setResume_invariant hi hc) hlive hz
  refine ⟨k', _, _, ?_, .resume p addr hc hr hw hz, h'⟩
  have hw' : ((a.setResume p .user).procs p).procWaiting = some (.heap addr) := hw
  simp only [sysWaitResume, h.data, hc, Option.bind_eq_bind, Option.bind_some, hw']
  exact hk'

end Karg.SyscallRefinement
