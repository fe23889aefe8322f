import Karg.Reaping

namespace Karg.ProcessIdentity

open Process ProcTable Syscalls Execution KernelRuns KernelModel TreeInvariant KernelInvariant KernelSimulation KernelBoot
  ChildExit WaitHistory Reaping

def sysGetpid (k : Kernel) : Option Int := do
  let curr ← k.currProc
  some (k.procs curr).pid

variable {k k' : Kernel} {a b : Model} {p : ProcRef} {op : Op} {out : Outcome} {log recent older : List Event} {e : Event}
  {addr pid : Nat} {n : Int}

theorem created_entry (h : KernelModel.Step a (.proc addr) (.ret n) b) :
    ∃ pid : Nat, n = pid ∧ b.procTable pid = some (.heap addr) := by
  cases h with
  | proc p addr pid => exact ⟨pid, rfl, Function.update_self ..⟩

/-- An entry of the table stays until its process is reaped. -/
theorem entry_kept (h : Traced log k) (hs : KernelRuns.Step k op out k') (ht : k.procTable pid = some p)
    (hr : ¬ Reaps p ⟨k.currProc, op, out⟩) : k'.procTable pid = some p := by
  by_contra hno
  exact hr ((traced_handover h hs).removed p pid ht hno)

theorem traced_entry (h : Traced (recent ++ e :: older) k) (hop : e.op = .proc addr) (hout : e.outcome = .ret n)
    (hr : ∀ x ∈ recent, ¬ Reaps (.heap addr) x) : ∃ pid : Nat, n = pid ∧ k.procTable pid = some (.heap addr) := by
  induction recent generalizing k with
  | nil =>
      cases h with
      | step h hs =>
          obtain ⟨a, ha, -⟩ := traced_simulated h
          cases hop
          cases hout
          obtain ⟨b, hstep, hb⟩ := step_simulates ha hs
          rw [hb.refines.data]
          exact created_entry hstep
  | cons x recent ih =>
      cases h with
      | step h hs =>
          obtain ⟨pid, hn, ht⟩ := ih h fun x hx => hr x (List.mem_cons_of_mem _ hx)
          exact ⟨pid, hn, entry_kept h hs ht (hr _ List.mem_cons_self)⟩

theorem pid_unique (ht : Tree a (Zombie a)) (hp : a.procTable pid = some p) {q : ProcRef} (hl : a.live q)
    (hq : (a.procs q).pid = pid) : q = p := by
  obtain ⟨m, -, hm⟩ := ht.entry q hl
  have he := (ht.table m q hm).2.symm.trans hq
  rw [Int.ofNat_inj.mp he] at hm
  exact Option.some.inj (hm.symm.trans hp)

/-- A pid names its process. From the call of `sys_proc` that has created a process
until it is reaped, the value that this call has returned is the pid of that process
and of no other, neither of the first two nor of a later one. It is what `sys_getpid`
tells the process each time, and what `sys_wait` returns with it at the end. -/
theorem pid_names_process (h : Traced (recent ++ e :: older) k) (hop : e.op = .proc addr) (hout : e.outcome = .ret n)
    (hr : ∀ x ∈ recent, ¬ Reaps (.heap addr) x) :
    k.live (.heap addr) ∧ (k.procs (.heap addr)).pid = n ∧ 2 ≤ n ∧ n < procTableSize ∧
    (∀ p, k.live p → (k.procs p).pid = n → p = .heap addr) ∧
    (k.currProc = some (.heap addr) → sysGetpid k = some n) ∧
    ∀ op pid status k', KernelRuns.Step k op (.reaped (.heap addr) pid status) k' → pid = n := by
  obtain ⟨pid, rfl, hentry⟩ := traced_entry h hop hout hr
  obtain ⟨a, ha, -⟩ := traced_simulated h
  have ht := ha.invariant.tree
  have hd := ha.refines.data
  rw [hd] at hentry
  obtain ⟨hl, hpid⟩ := ht.table pid _ hentry
  have hunique : ∀ q, a.live q → (a.procs q).pid = pid → q = .heap addr := fun q hq he => pid_unique ht hentry hq he
  have hidle : (pid : Int) ≠ 0 := fun hz => by cases hunique .idleProc rfl (ht.idle.1.trans hz.symm)
  have hinit : (pid : Int) ≠ 1 := fun hz => by cases hunique .initProc rfl (ht.init.1.trans hz.symm)
  have hlt : pid < procTableSize := by
    obtain ⟨m, hm, he⟩ := ht.entry _ hl
    rwa [← Int.ofNat_inj.mp ((ht.table m _ he).2.symm.trans hpid)]
  rw [hd]
  refine ⟨hl, hpid, by omega, Int.ofNat_lt.mpr hlt, hunique, fun hc => ?_, fun op n status k' hs => ?_⟩
  · rw [sysGetpid, hd, hc]
    exact congrArg some hpid
  · obtain ⟨-, -, -, hp, -⟩ := (traced_handover h hs).reaped _ _ _ rfl
    rw [hd] at hp
    exact hp.trans hpid

/-- The init process creates a process, whose pid is then two. -/
theorem pid_names_process_boot : ∃ log k, Traced log k ∧ (k.procs (.heap 4096)).pid = 2 := by
  obtain ⟨k, hb, hs⟩ := booted_simulated
  obtain ⟨k', hk', -⟩ := hs.realise (.proc .initProc 4096 2 ⟨rfl, by decide, rfl⟩ rfl rfl) trivial
  have htraced : Traced ([] ++ [⟨k.currProc, .proc 4096, .ret 2⟩]) k' := .step (.boot hb) hk'
  exact ⟨_, k', htraced, (pid_names_process htraced rfl rfl (by simp)).2.1⟩

end Karg.ProcessIdentity
