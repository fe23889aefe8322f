import Karg.Log
import Karg.Terminals
import Karg.WriteBuffer

namespace Karg.Console

open ByteMemory KernelMemory Kalloc Vm Execution FileSyscalls FdPermission Uart Devices InterruptRouting Terminals
open WriteBuffer (virtToPhys_res)

section Descriptors

variable {D : Type}

def newFd (fds : Int → Fd D) : (Int → Fd D) × Int :=
  match (List.range procFdCapacity.toNat).find? fun i : Nat => (fds i).flags &&& fdFlagUsed = 0 with
  | some i => (Function.update fds i { fds i with flags := fdFlagUsed }, i)
  | none => (fds, -eagain)

def clearFds (fds : Int → Fd D) (i : Int) : Fd D :=
  if 0 ≤ i ∧ i < procFdCapacity then { fds i with flags := 0 } else fds i

def setFd (fds : Int → Fd D) (fd : Int) (dev : D) (flag : UInt32) : Int → Fd D :=
  Function.update fds fd ⟨(fds fd).flags ||| flag, dev⟩

/-- `init_fds`, which tests `stdin_fd` three times. -/
def initFds (fds : Int → Fd D) (tty : D) : (Int → Fd D) × Int :=
  let fds := clearFds fds
  let (fds, stdinFd) := newFd fds
  if stdinFd < 0 then (fds, stdinFd)
  else
    let fds := setFd fds stdinFd tty fdFlagReadable
    let (fds, stdoutFd) := newFd fds
    if stdinFd < 0 then (fds, stdinFd)
    else
      let fds := setFd fds stdoutFd tty fdFlagWritable
      let (fds, stderrFd) := newFd fds
      if stdinFd < 0 then (fds, stdinFd) else (setFd fds stderrFd tty fdFlagWritable, 0)

variable {fds : Int → Fd D} {tty : D} {n : Nat}

theorem newFd_first (hn : n < 64) (hfree : (fds n).flags &&& fdFlagUsed = 0)
    (hused : ∀ i < n, (fds (i : Nat)).flags &&& fdFlagUsed ≠ 0) (tty : D) (flag : UInt32) :
    (newFd fds).2 = n ∧ setFd (newFd fds).1 n tty flag = Function.update fds n ⟨fdFlagUsed ||| flag, tty⟩ := by
  have hfind : ((List.range procFdCapacity.toNat).find? fun i : Nat => (fds i).flags &&& fdFlagUsed = 0) = some n := by
    rw [List.find?_range_eq_some]
    exact ⟨decide_eq_true hfree, List.mem_range.mpr hn, fun i hi => by simpa using hused i hi⟩
  have hnew : newFd fds = (Function.update fds n { fds n with flags := fdFlagUsed }, (n : Int)) := by rw [newFd, hfind]
  rw [hnew]
  refine ⟨rfl, ?_⟩
  simp only [setFd, Function.update_self, Function.update_idem]

def stdFds (fds : Int → Fd D) (tty : D) (i : Int) : Fd D :=
  if i = 0 then ⟨fdFlagUsed ||| fdFlagReadable, tty⟩
  else if i = 1 ∨ i = 2 then ⟨fdFlagUsed ||| fdFlagWritable, tty⟩
  else clearFds fds i

theorem std_used : (fdFlagUsed ||| fdFlagReadable) &&& fdFlagUsed ≠ 0 ∧
    (fdFlagUsed ||| fdFlagWritable) &&& fdFlagUsed ≠ 0 := by decide

theorem initFds_eq (fds : Int → Fd D) (tty : D) : initFds fds tty = (stdFds fds tty, 0) := by
  have hclear : ∀ n : Nat, n < 64 → (clearFds fds n).flags &&& fdFlagUsed = 0 := by
    intro n hn
    have hin : 0 ≤ (n : Int) ∧ (n : Int) < procFdCapacity := ⟨Int.natCast_nonneg n, by rw [procFdCapacity]; omega⟩
    rw [clearFds, if_pos hin]
    exact UInt32.zero_and
  -- the descriptors after each of the three calls of `new_fd`
  let fds₁ := Function.update (clearFds fds) 0 ⟨fdFlagUsed ||| fdFlagReadable, tty⟩
  let fds₂ := Function.update fds₁ 1 ⟨fdFlagUsed ||| fdFlagWritable, tty⟩
  obtain ⟨hin, hin'⟩ : (newFd (clearFds fds)).2 = 0 ∧ setFd (newFd (clearFds fds)).1 0 tty fdFlagReadable = fds₁ :=
    newFd_first (n := 0) (by decide) (hclear 0 (by decide)) (by simp) tty fdFlagReadable
  obtain ⟨hout, hout'⟩ : (newFd fds₁).2 = 1 ∧ setFd (newFd fds₁).1 1 tty fdFlagWritable = fds₂ := by
    have hfree : (fds₁ (1 : Nat)).flags &&& fdFlagUsed = 0 := hclear 1 (by decide)
    refine newFd_first (n := 1) (by decide) hfree (fun i hi => ?_) tty fdFlagWritable
    rw [Nat.lt_one_iff.mp hi]
    exact std_used.1
  obtain ⟨herr, herr'⟩ : (newFd fds₂).2 = 2 ∧ setFd (newFd fds₂).1 2 tty fdFlagWritable =
      Function.update fds₂ 2 ⟨fdFlagUsed ||| fdFlagWritable, tty⟩ := by
    have hfree : (fds₂ (2 : Nat)).flags &&& fdFlagUsed = 0 := hclear 2 (by decide)
    refine newFd_first (n := 2) (by decide) hfree (fun i hi => ?_) tty fdFlagWritable
    obtain rfl | rfl : i = 0 ∨ i = 1 := by omega
    · exact std_used.1
    · exact std_used.2
  have hrun : initFds fds tty = (Function.update fds₂ 2 ⟨fdFlagUsed ||| fdFlagWritable, tty⟩, 0) := by
    simp only [initFds, hin, hin', hout, hout', herr, herr', Int.lt_irrefl, if_false]
  rw [hrun]
  congr 1
  funext i
  simp only [fds₂, fds₁, Function.update_apply, stdFds]
  by_cases h2 : i = 2
  · simp [h2]
  · by_cases h1 : i = 1
    · simp [h1]
    · simp [h1, h2]

variable {fd : Int}

theorem stdFds_denied (fds : Int → Fd D) (tty : D) (root : Nat) (hin : InRange fd) (flag : UInt32) :
    (denied ⟨stdFds fds tty, root⟩ fd flag).1 = decide (2 < fd) := by
  obtain ⟨hpos, hlt⟩ := hin
  by_cases hfd : 2 < fd
  · have hzero : (stdFds fds tty fd).flags = 0 := by
      rw [stdFds, if_neg (by omega), if_neg (by omega), clearFds, if_pos ⟨hpos, hlt⟩]
    have hno : ∀ fl : UInt32, ¬ (0 &&& fl ≠ 0) := fun fl hne => hne UInt32.zero_and
    rw [decide_eq_true hfd, denied_unused ⟨hpos, hlt⟩]
    · simp only [hzero, decide_eq_false (hno flag), Bool.not_false]
    · rw [Has]
      exact hzero ▸ hno fdFlagUsed
  · have hused : Has (⟨stdFds fds tty, root⟩ : Proc D) fd fdFlagUsed := by
      obtain rfl | rfl | rfl : fd = 0 ∨ fd = 1 ∨ fd = 2 := by omega
      · exact std_used.1
      · exact std_used.2
      · exact std_used.2
    rw [decide_eq_false hfd, denied_used ⟨hpos, hlt⟩ hused]

theorem stdFds_dev (fds : Int → Fd D) (tty : D) (hpos : 0 ≤ fd) (hfd : ¬ 2 < fd) : (stdFds fds tty fd).dev = tty := by
  obtain rfl | rfl | rfl : fd = 0 ∨ fd = 1 ∨ fd = 2 := by omega
  all_goals rfl

end Descriptors

def sysWriteTo (fuel : Nat) (b : Board) (m : Memory) (proc : Proc Dev) (frame : Frame) : Option (Board × Int) :=
  let t := sysWrite (fun _ => 0) m proc frame
  match t.call with
  | none => some (b, t.res)
  | some c => devWrite b c.dev (Log.bytes m c.buf c.size) fuel

variable {sym : Symbols} {b₀ b : Board} {devs : List (DevNode × Int)} {ops : List Op} {node : DevNode} {m : Memory}
  {fds : Int → Fd Dev} {proc : Proc Dev} {frame : Frame}

theorem sysWriteTo_fault (h : (vmVirtToPhys m proc.pageTable frame.a1.toNat 0).2 < 0) (fuel : Nat) (b : Board) :
    sysWriteTo fuel b m proc frame = some (b, (vmVirtToPhys m proc.pageTable frame.a1.toNat 0).2) := by
  simp only [sysWriteTo, sysWrite, h, if_true]

theorem sysWriteTo_bad (h : ¬ (vmVirtToPhys m proc.pageTable frame.a1.toNat 0).2 < 0)
    (hd : (denied proc frame.fd fdFlagWritable).1 = true) (fuel : Nat) (b : Board) :
    sysWriteTo fuel b m proc frame = some (b, -ebadf) := by
  simp only [sysWriteTo, sysWrite, h, if_false, hd, if_true]

theorem sysWriteTo_device (h : ¬ (vmVirtToPhys m proc.pageTable frame.a1.toNat 0).2 < 0)
    (hd : (denied proc frame.fd fdFlagWritable).1 = false) (fuel : Nat) (b : Board) :
    sysWriteTo fuel b m proc frame = devWrite b (proc.fds frame.fd).dev
      (Log.bytes m (vmVirtToPhys m proc.pageTable frame.a1.toNat 0).1 frame.a2.toNat) fuel := by
  simp only [sysWriteTo, sysWrite, h, if_false, hd, Bool.false_eq_true]

/-- A terminal that is there sends all bytes while its transmitter gets empty again and again. -/
theorem devWrite_sends {num : Nat} (hp : Present b num) (hnum : num < driverDevCapacity) (hl : Drains (b.lines num))
    (buf : List UInt8) : ∃ line, sent line.log = sent (b.lines num).log ++ buf ∧
      Converges (devWrite b ⟨.tty, num⟩ buf)
        ({ b with lines := Function.update b.lines num line }, (buf.length : Int)) := by
  obtain ⟨line, N, hN⟩ := hl.write buf
  refine ⟨line, write_sent (hN N (Nat.le_refl N)), N + 2, fun fuel hfuel => ?_⟩
  obtain ⟨fuel, rfl⟩ := Nat.exists_eq_add_of_le' (Nat.le_trans (Nat.le_add_left 2 N) hfuel)
  have hline : Uart.write (fuel + 1) (b.lines num) buf = some line := hN (fuel + 1) (by omega)
  rw [devWrite_present hp hnum, ldiscWrite_present hp, hline, Option.map_some]

/-- A new process has three descriptors, whatever its memory held before, and
all of them lead to the first terminal. `sys_write` to any of the three, that for
input included, sends the bytes that follow the first one of the buffer in
physical memory on the line of that terminal, and nothing else changes. With
another descriptor, or an address without a translation, it changes nothing.
`sys_read` takes the same three. -/
theorem console_write (h : Inited sym b₀ devs) (hr : Ran b₀ ops b) (hd : devs[0]? = some (node, 0))
    (hl : Drains (b.lines 0)) (hfds : proc.fds = (initFds fds ⟨.tty, 0⟩).1) (hin : InRange frame.fd) :
    (∃ b' res, Converges (fun fuel => sysWriteTo fuel b m proc frame) (b', res) ∧
      if (vmVirtToPhys m proc.pageTable frame.a1.toNat 0).2 < 0 then b' = b ∧ res = -efault
      else if 2 < frame.fd then b' = b ∧ res = -ebadf
      else res = frame.a2.toNat ∧ ∃ line, b' = { b with lines := Function.update b.lines 0 line } ∧
        sent line.log = sent (b.lines 0).log ++
          Log.bytes m (vmVirtToPhys m proc.pageTable frame.a1.toNat 0).1 frame.a2.toNat) ∧
    ∀ devRead, (sysRead devRead proc frame).call =
      if 2 < frame.fd ∨ frame.a1 = 0 then none else some ⟨⟨.tty, 0⟩, frame.a1.toNat, frame.a2.toNat⟩ := by
  have hptr := inited_ptr h hd
  obtain ⟨hw, hblk, -⟩ := ran_follows (inited_wired h) hr
  obtain ⟨hnum, hp⟩ := hw.present 0 (hblk ▸ hptr)
  have hproc : proc = ⟨stdFds fds ⟨.tty, 0⟩, proc.pageTable⟩ := by
    rw [initFds_eq] at hfds
    cases proc
    cases hfds
    rfl
  have hdenied : ∀ flag, (denied proc frame.fd flag).1 = decide (2 < frame.fd) := by
    intro flag
    rw [hproc]
    exact stdFds_denied fds _ _ hin flag
  have hdev : ¬ 2 < frame.fd → (proc.fds frame.fd).dev = ⟨.tty, 0⟩ := by
    intro hfd
    rw [hproc]
    exact stdFds_dev fds _ hin.1 hfd
  constructor
  · by_cases hneg : (vmVirtToPhys m proc.pageTable frame.a1.toNat 0).2 < 0
    · simp only [if_pos hneg]
      refine ⟨b, _, .of_forall fun fuel => sysWriteTo_fault hneg fuel b, rfl, ?_⟩
      rcases virtToPhys_res m proc.pageTable frame.a1.toNat 0 with hok | hfault
      · exact absurd hneg (Int.not_lt.mpr (Int.le_of_eq hok.symm))
      · exact hfault
    · simp only [if_neg hneg]
      by_cases hfd : 2 < frame.fd
      · have hno := (hdenied fdFlagWritable).trans (decide_eq_true hfd)
        simp only [if_pos hfd]
        exact ⟨b, -ebadf, .of_forall fun fuel => sysWriteTo_bad hneg hno fuel b, rfl, rfl⟩
      · have hyes := (hdenied fdFlagWritable).trans (decide_eq_false hfd)
        obtain ⟨line, hsent, N, hN⟩ := devWrite_sends hp hnum hl
          (Log.bytes m (vmVirtToPhys m proc.pageTable frame.a1.toNat 0).1 frame.a2.toNat)
        have hlen : ∀ a n, (Log.bytes m a n).length = n := by
          intro a n
          rw [Log.bytes, List.length_map, List.length_range']
        simp only [if_neg hfd]
        refine ⟨{ b with lines := Function.update b.lines 0 line }, frame.a2.toNat, ⟨N, fun fuel hfuel => ?_⟩, rfl, line,
          rfl, hsent⟩
        show sysWriteTo fuel b m proc frame = _
        rw [sysWriteTo_device hneg hyes, hdev hfd, hN fuel hfuel, hlen]
  · intro devRead
    by_cases hfd : 2 < frame.fd
    · have hno := (hdenied fdFlagReadable).trans (decide_eq_true hfd)
      simp only [sysRead, hno, if_true, hfd, true_or]
    · have hyes := (hdenied fdFlagReadable).trans (decide_eq_false hfd)
      by_cases hnull : frame.a1 = 0
      · have hzero : frame.a1.toNat = nullptr := by
          rw [hnull]
          rfl
        rw [if_pos (.inr hnull)]
        simp only [sysRead, hyes, Bool.false_eq_true, if_false, hzero, if_true]
      · have hne : frame.a1.toNat ≠ nullptr := fun hz => hnull (BitVec.eq_of_toNat_eq hz)
        simp only [sysRead, hyes, Bool.false_eq_true, if_false, hne, hnull, hfd, or_self, hdev hfd]

/-- Three bytes at 0x1234 are written to the standard output. -/
theorem console_write_boot : ∃ b m root b', Inited ⟨0x80300000, 0x80300010⟩ b [(⟨0, 0x10000000, 10, 1⟩, 0)] ∧
    Converges (fun fuel => sysWriteTo fuel b m ⟨(initFds (fun _ => ⟨0xFF, ⟨.uart, 7⟩⟩) ⟨.tty, 0⟩).1, root⟩ ⟨1, 0x1234, 3⟩)
      (b', 3) ∧ sent (b'.lines 0).log = sent (b.lines 0).log ++ Log.bytes m 0x80800234 3 := by
  obtain ⟨b, hinit, hdrains⟩ := boot_terminals [⟨0, 0x10000000, 10, 1⟩] (by decide) (by decide)
  obtain ⟨s, hs, hcalls, hphys⟩ := PageTableMap.mapped_page
  have hwalk : walk s.space.mem s.root 0x1234 = some 0x80800234 := by
    rw [PageTableMap.reached_walk hs hphys (by decide), hcalls]
    decide
  have hv : vmVirtToPhys s.space.mem s.root 0x1234 0 = (0x80800234, 0) :=
    Translation.reached_virtToPhys hs (by decide) hwalk (by decide)
  have hfds : (⟨(initFds (fun _ => ⟨0xFF, ⟨.uart, 7⟩⟩) ⟨.tty, 0⟩).1, s.root⟩ : Proc Dev).fds =
    (initFds (fun _ => ⟨0xFF, ⟨.uart, 7⟩⟩) ⟨.tty, 0⟩).1 := rfl
  have hin : InRange (Frame.fd ⟨1, 0x1234, 3⟩) := ⟨by decide, by decide⟩
  obtain ⟨⟨b', res, hrun, hres⟩, -⟩ := console_write (m := s.space.mem) hinit .nil rfl (hdrains 0) hfds hin
  have hfd : ¬ 2 < Frame.fd ⟨1, 0x1234, 3⟩ := by decide
  have haddr : (⟨1, 0x1234, 3⟩ : Frame).a1.toNat = 0x1234 := by decide
  have hsize : (⟨1, 0x1234, 3⟩ : Frame).a2.toNat = 3 := by decide
  rw [haddr, hsize, hv, if_neg (by decide), if_neg hfd] at hres
  obtain ⟨rfl, line, rfl, hsent⟩ := hres
  refine ⟨b, s.space.mem, s.root, _, hinit, hrun, ?_⟩
  show sent (Function.update b.lines 0 line 0).log = _
  rw [Function.update_self, hsent]

end Karg.Console
