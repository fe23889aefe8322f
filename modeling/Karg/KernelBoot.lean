import Karg.KernelSimulation

namespace Karg.KernelBoot

open LinkStore CircularList ListFamily ListNode TimerService TimerQueue Process ProcTable Sched Syscalls Execution
  KernelRuns KernelModel QueueInvariant SchedInvariant TreeInvariant WaitInvariant KernelInvariant KernelRefinement
  SchedRefinement ProcRefinement SyscallRefinement KernelSimulation

def powerOn (k : Kernel) : Model where
  toData := k.toData
  queue _ := []
  kin _ := []
  sleepers := []
  timer := k.timers.timers
  timerFreq := k.timers.timerFreq

def start (a : Model) (now : Nat) : Model :=
  let a := (a.create .idleProc 0 none).wake .idleProc
  let a := (a.create .initProc 1 none).wake .initProc
  (a.preempt now).dispatch

variable {k : Kernel} {now : Nat}

theorem powerOn_refines (h : PowerOn k) : Refines (fun _ => False) k (powerOn k) where
  data := rfl
  queues := by
    refine family_nil h.readyQueue trivial ?_ fun _ => rfl
    intro g hg
    cases g with
    | readyQueue => rfl
    | waitQueue sem => exact absurd ((h.semInited sem).symm.trans hg) (by simp)
    | node => exact hg.elim
  tree := by
    have hno : ∀ g, ¬ TreeHead (fun _ => False) g := by
      intro g hg
      cases g <;> exact hg
    exact ⟨fun g hg => (hno g hg).elim, fun g hg => (hno g hg).elim, fun g _ hg => (hno g hg).elim,
      fun g hg => (hno g hg).elim⟩
  timers := by
    have hnil : ∀ g, rings (powerOn k).sleepers g = [] := by
      intro g
      cases g <;> rfl
    refine family_nil h.waitQueue trivial ?_ hnil
    intro g hg
    cases g with
    | waitQueue => rfl
    | node => exact hg.1.elim
  timer := rfl
  timerFreq := rfl

theorem create_ready_refines {E : TimerRef → Prop} {a : Model} {p : ProcRef} {pid : Nat} (h : Refines E k a)
    (hp : newPid a.toData = some pid) (hE : ¬ E (.proc p)) (hs : a.sleepers = []) (hk : ∀ g, a.kin g = [])
    (hq : ∀ g, p ∉ a.queue g) : ∃ k₁ k₂, procInit k p none 0 = (k₁, 0) ∧ schedUpdateState k₁ p .ready = some k₂ ∧
      Refines (fun t => t = .proc p ∨ E t) k₂ ((a.create p pid none).wake p) := by
  obtain ⟨k₁, hk₁, h₁⟩ := procInit_refines h hp hE (by simp [hs]) (by simp [hk]) ⟨hk _, hk _⟩ none (by simp)
  have hinit : ((a.create p pid none).procs p).state = .init := by
    simp [Model.create, Data.setResume, setState_state]
  obtain ⟨k₂, hk₂, h₂⟩ := updateState_ready_refines h₁ (p := p) ⟨by simp [hinit], by simp [hinit], fun g _ => hq g⟩
  exact ⟨k₁, k₂, hk₁, hk₂, h₂⟩

theorem initSched_refines {E : TimerRef → Prop} {a : Model} (h : Refines E k a) (hs : a.sleepers = []) :
    Refines (fun t => t = .sched ∨ E t) { k with timers := timerInit k.timers .sched } a where
  data := h.data
  queues := h.queues
  tree := h.tree.restrict fun g hg => by
    cases g with
    | children | zombieChildren => exact hg.resolve_left (by simp)
    | treeNode => exact hg
  timers := timerInit_holds h.timers (by simp [hs])
  timer := h.timer
  timerFreq := h.timerFreq

theorem newPid_first {d : Data} (hl : d.lastPid = procTableSize - 1) (ht : d.procTable 0 = none) :
    newPid d = some 0 := by
  have hr : List.range (procTableSize - 1) = 0 :: (List.range 254).map Nat.succ := List.range_succ_eq_map
  rw [newPid, hl, hr]
  simp only [List.find?_cons, ht, Option.isNone_none]
  rfl

theorem newPid_second {d : Data} (hl : d.lastPid = 0) (ht : d.procTable 1 = none) : newPid d = some 1 := by
  have hr : List.range' (0 + 1) (procTableSize - (0 + 1)) = 1 :: List.range' 2 254 := List.range'_succ ..
  rw [newPid, hl, hr]
  simp only [List.find?_cons, ht, Option.isNone_none]
  rfl

theorem kmain_refines (h : PowerOn k) (now : Nat) : ∃ k', Converges (fun fuel => kmain fuel now k) k' ∧
    Refines (fun t => t = .proc .initProc ∨ t = .sched ∨ t = .proc .idleProc ∨ False) k' (start (powerOn k) now) := by
  have h₀ := powerOn_refines h
  have hpid₀ : newPid (powerOn k).toData = some 0 := newPid_first h.lastPid (h.procTable 0)
  obtain ⟨k₁, k₂, hk₁, hk₂, h₂⟩ := create_ready_refines h₀ (p := .idleProc) hpid₀ id rfl (fun _ => rfl)
    (fun _ => List.not_mem_nil)
  have h₃ := initSched_refines h₂ rfl
  have hpid₁ : newPid (((powerOn k).create .idleProc 0 none).wake .idleProc).toData = some 1 :=
    newPid_second rfl (h.procTable 1)
  obtain ⟨k₄, k₅, hk₄, hk₅, h₅⟩ := create_ready_refines h₃ (p := .initProc) hpid₁ (by simp) rfl (fun _ => rfl)
    (fun g => by cases g <;> simp [powerOn, Model.create, Model.wake, Model.push])
  obtain ⟨s, hs, h₆⟩ := timerWait_refines h₅ (t := .sched) List.not_mem_nil now schedTimeslice .schedPreempt none
  obtain ⟨k₇, hk₇, h₇⟩ := schedResched_blocked h₆ (p := .initProc) (r := [.idleProc])
    (fun c hc => absurd (hc.symm.trans h.currProc) (by simp)) rfl rfl
  refine ⟨k₇, ⟨1, fun fuel hfuel => ?_⟩, h₇⟩
  have hinit : schedInit k = some { k₂ with timers := timerInit k₂.timers .sched } := by
    simp only [schedInit, hk₁, hk₂, Int.lt_irrefl, if_false, Option.bind_eq_bind, Option.bind_some]
  simp only [kmain, kmainProcs, hinit, hk₄, hk₅, schedStart, schedArm, hs fuel hfuel, hk₇, Int.lt_irrefl, if_false,
    Option.bind_eq_bind, Option.bind_some]

section Start

variable (h : PowerOn k)
include h

theorem start_live (p : ProcRef) : (start (powerOn k) now).live p ↔ p = .idleProc ∨ p = .initProc := by
  cases p with
  | idleProc | initProc => simp [Data.live]
  | heap addr =>
      show k.allocated addr = true ↔ _
      simp [h.allocated addr]

omit h in
theorem start_idle : ((start (powerOn k) now).procs .idleProc).state = .ready ∧
    ((start (powerOn k) now).procs .idleProc).pid = 0 ∧ ((start (powerOn k) now).procs .idleProc).parent = none ∧
    (start (powerOn k) now).resume .idleProc = .user := ⟨rfl, rfl, rfl, rfl⟩

omit h in
theorem start_init : ((start (powerOn k) now).procs .initProc).state = .curr ∧
    ((start (powerOn k) now).procs .initProc).pid = 1 ∧ ((start (powerOn k) now).procs .initProc).parent = none ∧
    (start (powerOn k) now).resume .initProc = .user := ⟨rfl, rfl, rfl, rfl⟩

omit h in
theorem start_queue (g : QueueNode) :
    (start (powerOn k) now).queue g = if g = .readyQueue then [.idleProc] else [] := by
  cases g <;> rfl

theorem start_at (p : ProcRef) (state : ProcState) : At (start (powerOn k) now) none p state ↔
    p = .idleProc ∧ state = .ready ∨ p = .initProc ∧ state = .curr := by
  rw [At, start_live h]
  constructor
  · rintro ⟨rfl | rfl, -, rfl⟩
    · exact .inl ⟨rfl, rfl⟩
    · exact .inr ⟨rfl, rfl⟩
  · rintro (⟨rfl, rfl⟩ | ⟨rfl, rfl⟩)
    · exact ⟨.inl rfl, by simp, rfl⟩
    · exact ⟨.inr rfl, by simp, rfl⟩

theorem start_agree : Agree (start (powerOn k) now) none := by
  have hcurr : (start (powerOn k) now).currProc = some .initProc := rfl
  have hsl : (start (powerOn k) now).sleepers = [.sched] := rfl
  constructor
  · intro p
    rw [hcurr, start_at h]
    simp [eq_comm]
  · intro g p hp
    rw [start_queue] at hp
    rw [start_at h]
    cases g with
    | readyQueue => exact .inl ⟨by simpa using hp, rfl⟩
    | waitQueue | node => simp at hp
  · intro p hp
    rw [start_at h] at hp
    rw [start_queue]
    simpa using hp
  · intro p hp
    rw [start_at h] at hp
    simp at hp
  · intro p
    rw [hsl, start_at h]
    simp
  · intro g
    rw [start_queue]
    split <;> simp
  · intro g g' p hp hp'
    rw [start_queue] at hp hp'
    cases g <;> cases g' <;> simp_all
  · rw [hsl]
    simp

theorem start_scheduled : Scheduled (start (powerOn k) now) where
  idle := .inl rfl
  started p hp := by
    rcases (start_live h p).mp hp with rfl | rfl
    · simp [start_idle.1]
    · simp [start_init.1]
  count sem hs := absurd ((h.semInited sem).symm.trans hs) (by simp)
  unused sem _ := rfl
  wakeup p hp := by
    have hsl : (start (powerOn k) now).sleepers = [.sched] := rfl
    simp [hsl] at hp
  preempt _ := rfl
  agree := start_agree h
  running := ⟨.initProc, rfl⟩

theorem start_tree : Tree (start (powerOn k) now) (Zombie (start (powerOn k) now)) where
  table pid p hp := by
    have htab : (start (powerOn k) now).procTable = Function.update (Function.update k.procTable 0 (some .idleProc)) 1
      (some .initProc) := rfl
    rw [htab] at hp
    by_cases h1 : pid = 1
    · subst h1
      rw [Function.update_self] at hp
      cases hp
      exact ⟨rfl, rfl⟩
    · rw [Function.update_of_ne h1] at hp
      by_cases h0 : pid = 0
      · subst h0
        rw [Function.update_self] at hp
        cases hp
        exact ⟨rfl, rfl⟩
      · rw [Function.update_of_ne h0, h.procTable] at hp
        cases hp
  entry p hp := by
    rcases (start_live h p).mp hp with rfl | rfl
    · exact ⟨0, by decide, rfl⟩
    · exact ⟨1, by decide, rfl⟩
  idle := ⟨rfl, rfl, by simp [Zombie, start_idle.1]⟩
  init := ⟨rfl, rfl, by simp [Zombie, start_init.1]⟩
  mem g p := by
    refine ⟨fun hm => absurd hm List.not_mem_nil, ?_⟩
    rintro ⟨hl, hb⟩
    have hp : ((start (powerOn k) now).procs p).parent = none := by
      rcases (start_live h p).mp hl with rfl | rfl <;> rfl
    cases g with
    | children | zombieChildren => cases hp.symm.trans hb.1
    | treeNode => exact hb.elim
  nodup _ := List.nodup_nil
  descends p hp hne := by
    obtain rfl := ((start_live h p).mp hp).resolve_left hne
    exact .init
  lastPid := (by decide : 1 < procTableSize)

theorem start_waits : Waits (start (powerOn k) now) where
  blocked p hp hs := by
    rcases (start_live h p).mp hp with rfl | rfl
    · simp [start_idle.1] at hs
    · simp [start_init.1] at hs
  woken p hp hr := by
    rcases (start_live h p).mp hp with rfl | rfl
    · exact absurd start_idle.2.2.2 hr
    · exact absurd start_init.2.2.2 hr

end Start

theorem kmain_simulated (h : PowerOn k) (now : Nat) :
    ∃ k', Converges (fun fuel => kmain fuel now k) k' ∧ Simulated k' (start (powerOn k) now) := by
  obtain ⟨k', hk', hr⟩ := kmain_refines h now
  refine ⟨k', hk', hr.restrict ?_, start_scheduled h, start_tree h, start_waits h⟩
  intro t ht
  cases t with
  | sched => exact .inr (.inl rfl)
  | proc p =>
      rcases (start_live h p).mp ht with rfl | rfl
      · exact .inr (.inr (.inl rfl))
      · exact .inl rfl

theorem simulated_of_kmain {k' : Kernel} {now : Nat} (h : PowerOn k)
    (hc : Converges (fun fuel => kmain fuel now k) k') : Simulated k' (start (powerOn k) now) := by
  obtain ⟨k₁, hk₁, hs⟩ := kmain_simulated h now
  obtain rfl := hk₁.unique hc
  exact hs

theorem reached_simulated (h : Reached k) : ∃ a, Simulated k a := by
  induction h with
  | start hb =>
      obtain ⟨k₀, now, hp, hc⟩ := hb
      exact ⟨_, simulated_of_kmain hp hc⟩
  | next i _ hs ih =>
      obtain ⟨a, ha⟩ := ih
      obtain ⟨b, -, hb⟩ := step_simulates ha hs
      exact ⟨b, hb⟩

def blankKernel : Kernel where
  procs _ := ⟨0, none, .init, none, 0⟩
  procTable _ := none
  lastPid := procTableSize - 1
  currProc := none
  semVal _ := 0
  semInited _ := false
  allocated _ := false
  resume _ := .user
  queues := ⟨id, id⟩
  tree := ⟨id, id⟩
  timers := ⟨⟨id, id⟩, fun _ => ⟨0, .schedPreempt, none⟩, timeMax, 10000000⟩

theorem blankKernel_powerOn : PowerOn blankKernel where
  readyQueue := List.isChain_cons_cons.mpr ⟨⟨rfl, rfl⟩, .singleton _⟩
  waitQueue := List.isChain_cons_cons.mpr ⟨⟨rfl, rfl⟩, .singleton _⟩
  currProc := rfl
  procTable _ := rfl
  lastPid := rfl
  allocated _ := rfl
  semInited _ := rfl

def booted : Model := start (powerOn blankKernel) 0

theorem booted_simulated : ∃ k, Boot k ∧ Simulated k booted := by
  obtain ⟨k, hk, hs⟩ := kmain_simulated blankKernel_powerOn 0
  exact ⟨k, ⟨blankKernel, 0, blankKernel_powerOn, hk⟩, hs⟩

end Karg.KernelBoot
