import Karg.SyscallRefinement

namespace Karg.ExitRefinement

open ListNode Process Sched Syscalls Execution KernelRuns KernelModel SchedInvariant ProcInvariant TreeInvariant
  KernelInvariant KernelRefinement SchedRefinement SemRefinement ProcRefinement SyscallRefinement

variable {k : Kernel} {a : Model} {p parent : ProcRef} {E : TimerRef → Prop}

theorem init_entry (hi : Invariant a) : a.procTable 1 = some .initProc := by
  obtain ⟨pid, -, hp⟩ := hi.tree.entry .initProc rfl
  have hpid := (hi.tree.table pid _ hp).2
  rw [hi.tree.init.1] at hpid
  obtain rfl : pid = 1 := by omega
  exact hp

theorem disown_refines (h : Refines (Exist a.toData) k a) (hi : Invariant a) (hp : a.live p) (hinit : p ≠ .initProc)
    (status : BitVec 32) : ∃ k', Converges (fun fuel => adoptAll fuel k p status) k' ∧
      Refines (Exist a.toData) k' (a.disown p status) := by
  have hone := init_entry hi
  set b : Model := { a with toData := a.setProc p { a.procs p with exitStatus := status } } with hb
  have hbs : ∀ q, (b.procs q).state = (a.procs q).state := fun q => setExit_state a p q status
  have h₀ : Refines (Exist a.toData) { k with toData := b.toData } b := h.setData rfl
  have hk₀ : ∀ q ∈ b.kin (.children p), Kind b .children q := fun q hq =>
    .inl ⟨rfl, by rw [hbs]; exact ((hi.tree.mem _ q).mp hq).2.2⟩
  obtain ⟨k₁, hk₁, h₁⟩ := adoptLoop_refines h₀ hp .initProc rfl (by simpa using hinit) hone hk₀
    (.inl rfl)
  have hkin : (b.adopt (.children p) (.children .initProc) .initProc).kin (.zombieChildren p) =
      a.kin (.zombieChildren p) := by simp [Model.adopt, hb]
  have hk₁' : ∀ q ∈ (b.adopt (.children p) (.children .initProc) .initProc).kin (.zombieChildren p),
      Kind (b.adopt (.children p) (.children .initProc) .initProc) .zombieChildren q := by
    intro q hq
    rw [hkin] at hq
    refine .inr ⟨rfl, ?_⟩
    have hz : (a.procs q).state = .zombie := ((hi.tree.mem _ q).mp hq).2.2
    simp only [Model.adopt]
    split <;> exact (hbs q).trans hz
  obtain ⟨k₂, hk₂, h₂⟩ := adoptLoop_refines h₁ hp .initProc rfl (by simpa using hinit) hone hk₁'
    (.inr rfl)
  refine ⟨k₂, ⟨(a.kin (.children p)).length + (a.kin (.zombieChildren p)).length + 1, fun fuel hfuel => ?_⟩, h₂⟩
  have hrun₁ := hk₁ fuel (show (a.kin (.children p)).length < fuel by omega)
  have hrun₂ := hk₂ fuel (by rw [hkin]; omega)
  simp only [hb] at hrun₁
  simp only [adoptAll, h.data, hrun₁, hrun₂, Option.bind_eq_bind, Option.bind_some]

theorem bury_refines (h : Refines E k a) {dead : ProcRef → Prop} (ht : Tree a dead) (hl : a.live p) (hd : ¬ dead p)
    (hp : (a.procs p).parent = some parent) (hE : E (.proc parent)) :
    Refines E { k with tree := listPushBack (listRemove k.tree (.treeNode p)) (.zombieChildren parent) (.treeNode p) }
      (a.bury p parent) := by
  have hm : p ∈ a.kin (.children parent) := (ht.mem _ p).mpr ⟨hl, hp, hd⟩
  obtain ⟨l, r, hlr⟩ := List.append_of_mem hm
  have hnd := ht.nodup (.children parent)
  have hpl : p ∉ l := by
    rw [hlr] at hnd
    exact fun hpl => (List.nodup_append.mp hnd).2.2 _ hpl _ List.mem_cons_self rfl
  have he : (a.kin (.children parent)).erase p = l ++ r := by
    rw [hlr, List.erase_append_right _ hpl, List.erase_cons_head]
  have hsrc : TreeHead E (.children parent) := hE
  have hmove := h.treeMove hsrc (.zombieChildren parent) hE hlr
  rw [← he] at hmove
  exact hmove

theorem sysExitEnd_refines (h : Refines E k a) (hi : Scheduled a) (hc : a.currProc = some p) (hp : p ≠ .idleProc)
    (hl : a.live parent) : ∃ k', sysExitEnd k p parent =
        some (k', .exited (if (a.procs parent).state = .waitChild then some parent else none)) ∧
      Refines E k' ((a.notify p parent).block p .zombie) := by
  have hn := notify_scheduled (p := p) hi hl
  have hcn : (a.notify p parent).currProc = some p := by rw [notify_currProc, hc]
  obtain ⟨q, r, hq, hr⟩ := exists_ready hn hcn hp
  have hend : ∀ {k₁}, Refines E k₁ (a.notify p parent) → ∃ k', schedUpdateState k₁ p .zombie = some k' ∧
      Refines E k' ((a.notify p parent).block p .zombie) := fun h₁ =>
    updateState_block_refines h₁ hcn ((hn.agree.curr p).mp hcn).2.2 (.inr (.inr (.inr rfl))) hq hr
  rw [sysExitEnd, sysExitWake, h.state_eq]
  by_cases hs : (a.procs parent).state = .waitChild
  · have hset := h.setData (d := a.setProc parent { a.procs parent with procWaiting := some p }) rfl
    have hnot : ∀ g, parent ∉ a.queue g := by
      intro g hm
      have he := (hi.agree.mem g parent hm).2.2.symm.trans hs
      cases g <;> cases he
    obtain ⟨k₁, hk₁, h₁⟩ := updateState_ready_refines hset (p := parent)
      ⟨by simp [hs], by simp [hs], fun g _ => hnot g⟩
    have hnot' : a.notify p parent = Model.wake { a with
        toData := a.setProc parent { a.procs parent with procWaiting := some p } } parent := if_pos hs
    obtain ⟨k', hk', h'⟩ := hend (hnot' ▸ h₁)
    refine ⟨k', ?_, h'⟩
    rw [if_pos hs, if_pos hs]
    simp only [h.data, hk₁, hk', Option.bind_eq_bind, Option.bind_some]
  · have hnot' : a.notify p parent = a := if_neg hs
    obtain ⟨k', hk', h'⟩ := hend (hnot'.symm ▸ h)
    refine ⟨k', ?_, h'⟩
    rw [if_neg hs, if_neg hs]
    simp only [hk', Option.bind_eq_bind, Option.bind_some]

theorem sysExit_refines (h : Refines (Exist a.toData) k a) (hi : Invariant a) (hc : Calls a.toData p)
    (hinit : p ≠ .initProc) (status : BitVec 32) : ∃ k' parent n, (a.procs p).parent = some parent ∧
      (∀ fuel, n ≤ fuel → sysExit fuel k status =
        some (k', .exited (if (a.procs parent).state = .waitChild then some parent else none))) ∧
      Refines (Exist a.toData) k' (a.exit p parent status) := by
  obtain ⟨hcurr, hidle, -⟩ := hc
  have hl := hi.curr_live hcurr
  have hd : ¬ Zombie a p := by simp [Zombie, hi.curr_state hcurr]
  obtain ⟨parent, hp, hlp, -, -⟩ := hi.tree.exists_parent hl hidle hinit
  obtain ⟨ht, hpar⟩ := disown_tree hi hl hidle hinit status
  obtain ⟨k₂, ⟨n, hk⟩, h₂⟩ := disown_refines h hi hl hinit status
  have hb := bury_refines h₂ ht hl hd (hpar.trans hp) hlp
  obtain ⟨k', hk', h'⟩ := sysExitEnd_refines hb (leave_scheduled hi.sched p parent status) hcurr hidle hlp
  refine ⟨k', parent, n, hp, fun fuel hfuel => ?_, h'⟩
  have hst := leave_state a p parent parent status
  rw [Model.leave] at hst
  rw [hst] at hk'
  have hcurr' : k.currProc = some p := by rw [h.data, hcurr]
  have hpar' : (k₂.procs p).parent = some parent := by rw [h₂.data, hpar, hp]
  simp only [sysExit, sysExitLeave, hcurr', Option.bind_eq_bind, Option.bind_some, hk fuel hfuel, hpar']
  exact hk'

theorem exit_allocated (a : Model) (p parent : ProcRef) (status : BitVec 32) :
    (a.exit p parent status).allocated = a.allocated := by
  have hb := frame_dispatch { (a.leave p parent status).notify p parent with
    toData := { ((a.leave p parent status).notify p parent).setState p .zombie with currProc := none } }
  have hn := (notify_frame (a.leave p parent status) p parent).1
  simp only [frame, Prod.mk.injEq] at hb hn
  exact hb.1.trans hn.2.2.1

end Karg.ExitRefinement
