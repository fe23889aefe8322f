import Karg.FileSyscalls

namespace Karg.FdPermission

open ByteMemory KernelMemory Vm FileSyscalls

variable {Dev : Type}

def InRange (fd : Int) : Prop := 0 ≤ fd ∧ fd < procFdCapacity

def Has (proc : Proc Dev) (fd : Int) (flag : UInt32) : Prop := (proc.fds fd).flags &&& flag ≠ 0

def Permitted (proc : Proc Dev) (fd : Int) (flag : UInt32) : Prop :=
  InRange fd ∧ Has proc fd fdFlagUsed ∧ Has proc fd flag

/-- The driver is called for permitted descriptors only, others get an error, and
no index out of range is read. -/
structure Enforced (proc : Proc Dev) (fd : Int) (flag : UInt32) (t : Trace Dev) : Prop where
  call : t.call.isSome → Permitted proc fd flag
  error : ¬ Permitted proc fd flag → t.res = -ebadf ∧ t.call = none
  reads (i : Int) : i ∈ t.reads → InRange i

variable {proc : Proc Dev} {fd : Int} {flag : UInt32} {t : Trace Dev}

theorem procIsBadFd_out (h : ¬ InRange fd) : procIsBadFd proc fd = (true, []) := by
  rw [InRange, not_and_or, not_le, not_lt] at h
  rw [procIsBadFd, if_pos]
  simpa using h

theorem procIsBadFd_in (h : InRange fd) :
    procIsBadFd proc fd = (!((proc.fds fd).flags &&& fdFlagUsed ≠ 0), [fd]) := by
  rw [procIsBadFd, if_neg]
  simp only [Bool.or_eq_true, decide_eq_true_eq, not_or, not_lt, not_le, ge_iff_le]
  exact h

theorem denied_out (h : ¬ InRange fd) : denied proc fd flag = (!((proc.fds fd).flags &&& flag ≠ 0), [fd]) := by
  simp only [denied, procIsBadFd_out h, if_true, List.nil_append]

theorem denied_used (h : InRange fd) (hu : Has proc fd fdFlagUsed) : denied proc fd flag = (false, [fd]) := by
  have hbad : (!decide ((proc.fds fd).flags &&& fdFlagUsed ≠ 0)) = false := by simpa [Has] using hu
  simp only [denied, procIsBadFd_in h, hbad, Bool.false_eq_true, if_false]

theorem denied_unused (h : InRange fd) (hu : ¬ Has proc fd fdFlagUsed) :
    denied proc fd flag = (!((proc.fds fd).flags &&& flag ≠ 0), [fd, fd]) := by
  have hbad : (!decide ((proc.fds fd).flags &&& fdFlagUsed ≠ 0)) = true := by simpa [Has] using hu
  simp only [denied, procIsBadFd_in h, hbad, if_true, List.cons_append, List.nil_append]

structure Obeys (fd : Int) (test : Bool × List Int) (t : Trace Dev) : Prop where
  deny : test.1 = true → t = ⟨test.2, none, -ebadf⟩
  pass : test.1 = false → t.res ≠ -ebadf ∨ t.call.isSome
  reads : t.reads = test.2 ∨ t.reads = test.2 ++ [fd]

theorem Obeys.mem_reads {test : Bool × List Int} (h : Obeys fd test t) (hin : fd ∈ test.2) : fd ∈ t.reads := by
  rcases h.reads with hr | hr
  · exact hr ▸ hin
  · exact hr ▸ List.mem_append_left _ hin

theorem Obeys.not_error {test : Bool × List Int} (h : Obeys fd test t) (ht : test.1 = false) :
    ¬ (t.res = -ebadf ∧ t.call = none) := by
  rintro ⟨hres, hcall⟩
  rcases h.pass ht with hp | hp
  · exact hp hres
  · rw [hcall] at hp
    cases hp

theorem enforced_iff (h : Obeys fd (denied proc fd flag) t) :
    Enforced proc fd flag t ↔ InRange fd ∧ (Has proc fd fdFlagUsed ↔ Has proc fd flag) := by
  by_cases hin : InRange fd
  · by_cases hu : Has proc fd fdFlagUsed
    · rw [denied_used hin hu] at h
      constructor
      · intro he
        refine ⟨hin, iff_of_true hu ?_⟩
        by_contra hno
        exact h.not_error rfl (he.error fun hp => hno hp.2.2)
      · rintro ⟨-, hiff⟩
        have hp : Permitted proc fd flag := ⟨hin, hu, hiff.mp hu⟩
        refine ⟨fun _ => hp, fun hno => absurd hp hno, fun i hi => ?_⟩
        rcases h.reads with hr | hr <;> simp only [hr, List.mem_append, List.mem_singleton, or_self] at hi <;>
          exact hi ▸ hin
    · rw [denied_unused hin hu] at h
      have hno : ¬ Permitted proc fd flag := fun hp => hu hp.2.1
      constructor
      · intro he
        refine ⟨hin, iff_of_false hu fun hf => h.not_error ?_ (he.error hno)⟩
        simpa [Has] using hf
      · rintro ⟨-, hiff⟩
        have hf : ¬ Has proc fd flag := fun hf => hu (hiff.mpr hf)
        rw [h.deny (by simpa [Has] using hf)]
        refine ⟨fun hc => absurd hc (by simp), fun _ => ⟨rfl, rfl⟩, fun i hi => ?_⟩
        simp only [List.mem_cons, List.not_mem_nil, or_false, or_self] at hi
        exact hi ▸ hin
  · have hread := h.mem_reads (by rw [denied_out hin]; exact List.mem_singleton_self fd)
    exact iff_of_false (fun he => hin (he.reads fd hread)) fun hr => hin hr.1

theorem sysRead_obeys (devRead : DevCall Dev → Int) (proc : Proc Dev) (frame : Frame) :
    Obeys frame.fd (denied proc frame.fd fdFlagReadable) (sysRead devRead proc frame) := by
  rw [sysRead]
  generalize denied proc frame.fd fdFlagReadable = test
  obtain ⟨deny, reads⟩ := test
  cases deny with
  | true => exact ⟨fun _ => rfl, nofun, .inl rfl⟩
  | false =>
      by_cases hb : frame.a1.toNat = nullptr
      · simp only [hb, Bool.false_eq_true, if_false, if_true]
        exact ⟨nofun, fun _ => .inl (show -efault ≠ -ebadf by decide), .inl rfl⟩
      · simp only [hb, Bool.false_eq_true, if_false]
        exact ⟨nofun, fun _ => .inr rfl, .inr rfl⟩

theorem sysWrite_obeys (devWrite : DevCall Dev → Int) (m : Memory) (proc : Proc Dev) (frame : Frame)
    (ht : ¬ (vmVirtToPhys m proc.pageTable frame.a1.toNat 0).2 < 0) :
    Obeys frame.fd (denied proc frame.fd fdFlagWritable) (sysWrite devWrite m proc frame) := by
  rw [sysWrite]
  generalize vmVirtToPhys m proc.pageTable frame.a1.toNat 0 = phys at ht
  generalize denied proc frame.fd fdFlagWritable = test
  obtain ⟨buf, res⟩ := phys
  obtain ⟨deny, reads⟩ := test
  simp only [ht, if_false]
  cases deny with
  | true => exact ⟨fun _ => rfl, nofun, .inl rfl⟩
  | false => exact ⟨nofun, fun _ => .inr rfl, .inr rfl⟩

/-- The permissions of a descriptor are enforced exactly if it is in range and its
two flags agree. -/
theorem fd_permission_iff (devRead devWrite : DevCall Dev → Int) (m : Memory) (proc : Proc Dev) (frame : Frame) :
    (Enforced proc frame.fd fdFlagReadable (sysRead devRead proc frame) ↔
      InRange frame.fd ∧ (Has proc frame.fd fdFlagUsed ↔ Has proc frame.fd fdFlagReadable)) ∧
    (0 ≤ (vmVirtToPhys m proc.pageTable frame.a1.toNat 0).2 →
      (Enforced proc frame.fd fdFlagWritable (sysWrite devWrite m proc frame) ↔
        InRange frame.fd ∧ (Has proc frame.fd fdFlagUsed ↔ Has proc frame.fd fdFlagWritable))) :=
  ⟨enforced_iff (sysRead_obeys devRead proc frame),
    fun ht => enforced_iff (sysWrite_obeys devWrite m proc frame (not_lt.mpr ht))⟩

def stdProc : Proc Unit where
  fds i := if i = 0 then ⟨fdFlagUsed ||| fdFlagReadable, ()⟩
    else if i = 1 ∨ i = 2 then ⟨fdFlagUsed ||| fdFlagWritable, ()⟩ else ⟨0, ()⟩
  pageTable := 0

/-- `sys_read` reads from the standard output, and looks at the descriptor -1. -/
theorem sysRead_stdout : (sysRead (fun _ => 1) stdProc ⟨1, 0x1000, 1⟩).call = some ⟨(), 0x1000, 1⟩ ∧
    ¬ Enforced stdProc 1 fdFlagReadable (sysRead (fun _ => 1) stdProc ⟨1, 0x1000, 1⟩) ∧
    (sysRead (fun _ => 1) stdProc ⟨-1, 0x1000, 1⟩).reads = [-1] := by
  refine ⟨rfl, fun he => ?_, by decide⟩
  have hp := he.call (by decide)
  exact absurd hp.2.2 (show ¬ (stdProc.fds 1).flags &&& fdFlagReadable ≠ 0 by decide)

end Karg.FdPermission
