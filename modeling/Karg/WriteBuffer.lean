import Karg.FdPermission
import Karg.Translation

namespace Karg.WriteBuffer

open ByteMemory PageAlloc Vm PageTableMap Translation FileSyscalls FdPermission

variable {Dev : Type}

def sv39 (m : Memory) (root virt : Nat) : Option Nat := if virt < 2 ^ 39 then walk m root virt else none

/-- A call that succeeds has handed the bytes at `virt` to the device, and one with a
page that is not mapped fails and makes the device output nothing. `taken` is what
the device outputs for a call of its driver. -/
def OwnBytes (taken : DevCall Dev → List UInt8) (m : Memory) (root virt size : Nat) (t : Trace Dev) : Prop :=
  (0 ≤ t.res → ∃ c, t.call = some c ∧ c.size = size ∧
    ∀ i < size, ∃ a, sv39 m root (virt + i) = some a ∧ m.byte (c.buf + i) = m.byte a) ∧
  ((∃ i < size, sv39 m root (virt + i) = none) → t.res < 0 ∧ ∀ c, t.call = some c → taken c = [])

variable {taken : DevCall Dev → List UInt8} {devWrite : DevCall Dev → Int} {m : Memory} {proc : Proc Dev} {frame : Frame}
  {phys root virt : Nat}

theorem virtToPhys_res (m : Memory) (root virt phys : Nat) : (vmVirtToPhys m root virt phys).2 = 0 ∨
    (vmVirtToPhys m root virt phys).2 = -efault := by
  rw [vmVirtToPhys]
  split
  · exact .inr rfl
  · dsimp only
    split
    · exact .inr rfl
    · split
      · exact .inr rfl
      · exact .inl rfl

theorem sysWrite_fault (h : (vmVirtToPhys m proc.pageTable frame.a1.toNat 0).2 = -efault) :
    sysWrite devWrite m proc frame = ⟨[], none, -efault⟩ := by
  have hneg : -efault < 0 := by decide
  simp only [sysWrite, h, hneg, if_true]

theorem sysWrite_permitted (devWrite : DevCall Dev → Int) (hp : Permitted proc frame.fd fdFlagWritable)
    (h : vmVirtToPhys m proc.pageTable frame.a1.toNat 0 = (phys, 0)) :
    ∃ reads, sysWrite devWrite m proc frame = ⟨reads, some ⟨(proc.fds frame.fd).dev, phys, frame.a2.toNat⟩,
      devWrite ⟨(proc.fds frame.fd).dev, phys, frame.a2.toNat⟩⟩ := by
  refine ⟨[frame.fd] ++ [frame.fd], ?_⟩
  simp only [sysWrite, h, denied_used hp.1 hp.2.1, Int.lt_irrefl, if_false, Bool.false_eq_true]

/-- On a writable descriptor the caller's own bytes are written exactly if the
address is not translated, or the device refuses them, or every page of the buffer
is mapped and the bytes that follow its first one in physical memory are those of
the buffer (which only matters to a device that has not failed). -/
theorem sysWrite_ownBytes_iff (taken : DevCall Dev → List UInt8) (devWrite : DevCall Dev → Int) (m : Memory)
    (proc : Proc Dev) (frame : Frame) (hp : Permitted proc frame.fd fdFlagWritable) :
    OwnBytes taken m proc.pageTable frame.a1.toNat frame.a2.toNat (sysWrite devWrite m proc frame) ↔
      ∀ phys, vmVirtToPhys m proc.pageTable frame.a1.toNat 0 = (phys, 0) →
        (devWrite ⟨(proc.fds frame.fd).dev, phys, frame.a2.toNat⟩ < 0 ∧
          taken ⟨(proc.fds frame.fd).dev, phys, frame.a2.toNat⟩ = []) ∨
        ∀ i < frame.a2.toNat, ∃ a, sv39 m proc.pageTable (frame.a1.toNat + i) = some a ∧
          (0 ≤ devWrite ⟨(proc.fds frame.fd).dev, phys, frame.a2.toNat⟩ → m.byte (phys + i) = m.byte a) := by
  rcases virtToPhys_res m proc.pageTable frame.a1.toNat 0 with hres | hres
  · obtain ⟨phys, hv⟩ : ∃ phys, vmVirtToPhys m proc.pageTable frame.a1.toNat 0 = (phys, 0) := ⟨_, Prod.ext rfl hres⟩
    obtain ⟨reads, hrun⟩ := sysWrite_permitted devWrite hp hv
    rw [hrun]
    constructor
    · rintro ⟨hok, hfail⟩ phys' hv'
      obtain rfl : phys = phys' := congrArg Prod.fst (hv.symm.trans hv')
      by_cases hneg : devWrite ⟨(proc.fds frame.fd).dev, phys, frame.a2.toNat⟩ < 0
      · by_cases hmap : ∃ i < frame.a2.toNat, sv39 m proc.pageTable (frame.a1.toNat + i) = none
        · exact .inl ⟨hneg, (hfail hmap).2 _ rfl⟩
        · refine .inr fun i hi => ?_
          obtain ⟨a, ha⟩ := Option.ne_none_iff_exists'.mp fun hno => hmap ⟨i, hi, hno⟩
          exact ⟨a, ha, fun hpos => absurd hneg (not_lt.mpr hpos)⟩
      · obtain ⟨c, hc, -, hbytes⟩ := hok (not_lt.mp hneg)
        cases hc
        refine .inr fun i hi => ?_
        obtain ⟨a, ha, hb⟩ := hbytes i hi
        exact ⟨a, ha, fun _ => hb⟩
    · intro h
      rcases h phys hv with ⟨hneg, htaken⟩ | hbytes
      · refine ⟨fun hpos => absurd hneg (not_lt.mpr hpos), fun _ => ⟨hneg, fun c hc => ?_⟩⟩
        cases hc
        exact htaken
      · refine ⟨fun hpos => ⟨_, rfl, rfl, fun i hi => ?_⟩, ?_⟩
        · obtain ⟨a, ha, hb⟩ := hbytes i hi
          exact ⟨a, ha, hb hpos⟩
        · rintro ⟨i, hi, hno⟩
          obtain ⟨a, ha, -⟩ := hbytes i hi
          exact absurd (ha.symm.trans hno) nofun
  · rw [sysWrite_fault hres]
    refine iff_of_true ⟨fun hpos => ?_, fun _ => ⟨?_, nofun⟩⟩ fun phys hv => ?_
    · exact absurd hpos (show ¬ 0 ≤ -efault by decide)
    · exact (show -efault < 0 by decide)
    · rw [hv] at hres
      exact absurd hres (show ¬ (0 : Int) = -efault by decide)

theorem stdProc_writable (root : Nat) (virt size : BitVec 64) :
    Permitted (⟨stdProc.fds, root⟩ : Proc Unit) (Frame.fd ⟨1, virt, size⟩) fdFlagWritable := by
  refine ⟨⟨?_, ?_⟩, ?_, ?_⟩
  · exact show (0 : Int) ≤ 1 by decide
  · exact show (1 : Int) < procFdCapacity by decide
  · exact show (stdProc.fds 1).flags &&& fdFlagUsed ≠ 0 by decide
  · exact show (stdProc.fds 1).flags &&& fdFlagWritable ≠ 0 by decide

/-- One byte of a mapped page is written as it is. -/
theorem sysWrite_ownBytes_one : ∃ s, Reached 0x80300010 s ∧ walk s.space.mem s.root 0x1000 = some 0x80800000 ∧
    OwnBytes (fun c => [s.space.mem.byte c.buf]) s.space.mem s.root 0x1000 1
      (sysWrite (fun c => c.size) s.space.mem ⟨stdProc.fds, s.root⟩ ⟨1, 0x1000, 1⟩) := by
  obtain ⟨s, hs, hcalls, hp⟩ := mapped_page
  have hwalk : walk s.space.mem s.root 0x1000 = some 0x80800000 := by
    rw [reached_walk hs hp (by decide), hcalls]
    rfl
  refine ⟨s, hs, hwalk, (sysWrite_ownBytes_iff _ _ _ _ _ (stdProc_writable s.root 0x1000 1)).mpr ?_⟩
  intro phys hphys
  have hrun : vmVirtToPhys s.space.mem s.root 0x1000 0 = (0x80800000, 0) :=
    reached_virtToPhys hs (show 0x1000 < 2 ^ 39 by decide) hwalk (by decide)
  obtain rfl : 0x80800000 = phys := congrArg Prod.fst (hrun.symm.trans hphys)
  refine .inr fun i hi => ?_
  obtain rfl : i = 0 := Nat.lt_one_iff.mp hi
  exact ⟨0x80800000, (if_pos (show 0x1000 < 2 ^ 39 by decide)).trans hwalk, fun _ => rfl⟩

/-- With one page mapped at 0x1000, two bytes are handed to the device for a buffer at
0x1FFF, although the page of the second one is not mapped. -/
theorem sysWrite_past_page : ∃ s, Reached 0x80300010 s ∧ s.calls = [⟨0x1000, 0x80800000, vmFlagReadable⟩] ∧
    sv39 s.space.mem s.root 0x2000 = none ∧
    (sysWrite (fun c => c.size) s.space.mem ⟨stdProc.fds, s.root⟩ ⟨1, 0x1FFF, 2⟩).call = some ⟨(), 0x80800FFF, 2⟩ ∧
    (sysWrite (fun c => c.size) s.space.mem ⟨stdProc.fds, s.root⟩ ⟨1, 0x1FFF, 2⟩).res = 2 ∧
    ∀ taken, ¬ OwnBytes taken s.space.mem s.root 0x1FFF 2
      (sysWrite (fun c => c.size) s.space.mem ⟨stdProc.fds, s.root⟩ ⟨1, 0x1FFF, 2⟩) := by
  obtain ⟨s, hs, hcalls, hp⟩ := mapped_page
  have hwalk : walk s.space.mem s.root 0x1FFF = some 0x80800FFF := by
    rw [reached_walk hs hp (by decide), hcalls]
    rfl
  have hnone : sv39 s.space.mem s.root 0x2000 = none := by
    rw [sv39, if_pos (by decide), reached_walk hs hp (by decide), hcalls]
    rfl
  obtain ⟨reads, hrun⟩ := sysWrite_permitted (fun c => c.size) (stdProc_writable s.root 0x1FFF 2)
    (reached_virtToPhys hs (show 0x1FFF < 2 ^ 39 by decide) hwalk (by decide))
  refine ⟨s, hs, hcalls, hnone, ?_⟩
  rw [hrun]
  refine ⟨rfl, rfl, fun taken h => ?_⟩
  have hneg : (2 : Int) < 0 := (h.2 ⟨1, by decide, hnone⟩).1
  exact absurd hneg (by decide)

end Karg.WriteBuffer
