import Karg.Devices
import Karg.KernelBoot
import Karg.TrapCode
import Karg.WriteBuffer

namespace Karg.UserStores

open ByteMemory KernelMemory ListNode Vm TableTree PageTableMap Translation WriteBuffer FileSyscalls Devices Process Sched
  Syscalls KernelRuns KernelBoot Execution

structure Effect where
  stores : List (Nat × UInt8)
  res : Option Int

/-- The loop of the terminal's `read` from `i` on, with the bytes that it finds; it
waits when there are no more. -/
def readLoop (buf size i : Nat) : List UInt8 → Effect
  | [] => ⟨[], if i < size then none else some (BitVec.ofNat 64 size).toInt⟩
  | byte :: input =>
      if i < size then
        if byte = 0x0A then ⟨[(usizeAdd buf i, byte)], some (i + 1)⟩
        else
          let rest := readLoop buf size (i + 1) input
          ⟨(usizeAdd buf i, byte) :: rest.stores, rest.res⟩
      else ⟨[], some (BitVec.ofNat 64 size).toInt⟩

def ttyRead (ctrlBlks : Nat → Nat) (num buf size : Nat) (input : List UInt8) : Effect :=
  if num ≥ driverDevCapacity ∨ ctrlBlks num = nullptr then ⟨[], some (-enxio)⟩ else readLoop buf size 0 input

/-- The driver of the serial lines has no `read`. -/
def devRead (ctrlBlks : Nat → Nat) (c : DevCall Dev) (input : List UInt8) : Effect :=
  match c.dev.driver with
  | .uart => ⟨[], some (-enxio)⟩
  | .tty => ttyRead ctrlBlks c.dev.num c.buf c.size input

def sysRead (ctrlBlks : Nat → Nat) (proc : FileSyscalls.Proc Dev) (frame : FileSyscalls.Frame) (input : List UInt8) :
    Effect :=
  let t := FileSyscalls.sysRead (fun _ => 0) proc frame
  t.call.elim ⟨[], some t.res⟩ fun c => devRead ctrlBlks c input

def waitEffect (status : Nat) : Outcome → Effect
  | .reaped _ pid value =>
      ⟨if status = nullptr then [] else
        (List.range 4).map fun i => (usizeAdd status i, UInt8.ofNat (value.toNat / 256 ^ i)), some pid⟩
  | .ret value => ⟨[], some value⟩
  | .blocked | .exited _ => ⟨[], none⟩

def waitSize (status : Nat) : Nat := if status = nullptr then 0 else 4

def sysWait (k : Kernel) (status : Nat) : Option (Kernel × Effect) :=
  (Syscalls.sysWait k status).map fun r => (r.1, waitEffect status r.2)

def sysWaitResume (k : Kernel) : Option (Kernel × Effect × Nat) := do
  let curr ← k.currProc
  match k.resume curr with
  | .user => none
  | .wait status => (Syscalls.sysWaitResume k).map fun r => (r.1, waitEffect status r.2, status)

def userImage (m : Memory) (root virt : Nat) : Option Nat :=
  (leafFlags m root virt).bind fun fl =>
    if fl &&& pteFlagU ≠ 0 ∧ fl &&& pteFlagW ≠ 0 then sv39 m root virt else none

/-- The stores go to the bytes of the user at `virt`, of which there are `n`, and if
one of these is not there for the user to write, nothing is stored and the call
does not return anything but `-EFAULT`. -/
structure Confined (m : Memory) (root virt n : Nat) (e : Effect) : Prop where
  within : e.stores.length ≤ n
  image (i a : Nat) (v : UInt8) : e.stores[i]? = some (a, v) → userImage m root (usizeAdd virt i) = some a
  fault : (∃ i < n, userImage m root (usizeAdd virt i) = none) → e.stores = [] ∧ ∀ r, e.res = some r → r = -efault

def Writable (m : Memory) (root virt n : Nat) : Prop := ∀ i < n, userImage m root (usizeAdd virt i) ≠ none

def InPlace (m : Memory) (root virt n : Nat) : Prop :=
  ∀ i < n, userImage m root (usizeAdd virt i) = some (usizeAdd virt i)

/-- The bytes that `read` of the terminal stores: up to the end of the line, of the
input or of the buffer. -/
def lineLen (size : Nat) (input : List UInt8) : Nat :=
  min ((input.takeWhile (· ≠ 0x0A)).length + 1) (min input.length size)

def Readable (ctrlBlks : Nat → Nat) (dev : Dev) : Prop :=
  dev.driver = .tty ∧ dev.num < driverDevCapacity ∧ ctrlBlks dev.num ≠ nullptr

/-- What the caller, its table and its terminal must be like for a call of `sys_read`.
A call that is refused for another reason than its pointer must have been given
a good one. -/
structure ReadSafe (m : Memory) (ctrlBlks : Nat → Nat) (proc : FileSyscalls.Proc Dev) (frame : FileSyscalls.Frame)
    (input : List UInt8) : Prop where
  refused : (denied proc frame.fd fdFlagReadable).1 = true → Writable m proc.pageTable frame.a1.toNat frame.a2.toNat
  noDevice : (denied proc frame.fd fdFlagReadable).1 = false → frame.a1.toNat ≠ nullptr →
    ¬ Readable ctrlBlks (proc.fds frame.fd).dev → Writable m proc.pageTable frame.a1.toNat frame.a2.toNat
  stored : (denied proc frame.fd fdFlagReadable).1 = false → frame.a1.toNat ≠ nullptr →
    Readable ctrlBlks (proc.fds frame.fd).dev →
      InPlace m proc.pageTable frame.a1.toNat (lineLen frame.a2.toNat input) ∧
        (lineLen frame.a2.toNat input = 0 ∨ Writable m proc.pageTable frame.a1.toNat frame.a2.toNat)

/-- The same for a call of `sys_wait`, which stores at once if there is a dead child
and fails if there is no child at all. -/
structure WaitSafe (m : Memory) (root status : Nat) (k : Kernel) (curr : ProcRef) : Prop where
  stored : listEmpty k.tree (.zombieChildren curr) = false → InPlace m root status (waitSize status)
  childless : listEmpty k.tree (.children curr) = true → listEmpty k.tree (.zombieChildren curr) = true →
    Writable m root status (waitSize status)

structure Plain (virt n : Nat) (e : Effect) : Prop where
  within : e.stores.length ≤ n
  addr (i a : Nat) (v : UInt8) : e.stores[i]? = some (a, v) → a = usizeAdd virt i

variable {m : Memory} {root virt n buf size i status : Nat} {e : Effect} {input : List UInt8} {out : Outcome} {res : Int}
  {ctrlBlks : Nat → Nat} {proc : FileSyscalls.Proc Dev} {frame : FileSyscalls.Frame}

theorem InPlace.writable (h : InPlace m root virt n) : Writable m root virt n := by
  intro i hi hno
  rw [h i hi] at hno
  cases hno

theorem Plain.confined_iff (h : Plain virt n e) : Confined m root virt n e ↔ InPlace m root virt e.stores.length ∧
    (Writable m root virt n ∨ e.stores = [] ∧ ∀ r, e.res = some r → r = -efault) := by
  constructor
  · intro hc
    constructor
    · intro i hi
      have hget : e.stores[i]? = some e.stores[i] := List.getElem?_eq_getElem hi
      rw [hc.image i _ _ hget, h.addr i _ _ hget]
    · by_cases hall : Writable m root virt n
      · exact .inl hall
      · right
        rw [Writable] at hall
        push Not at hall
        exact hc.fault hall
  · rintro ⟨hstored, hnamed⟩
    refine ⟨h.within, fun i a v hget => ?_, ?_⟩
    · obtain ⟨hi, -⟩ := List.getElem?_eq_some_iff.mp hget
      rw [h.addr i a v hget]
      exact hstored i hi
    · rintro ⟨i, hi, hno⟩
      rcases hnamed with hall | hnone
      · exact absurd hno (hall i hi)
      · exact hnone

theorem plain_nil (virt n : Nat) (res : Option Int) : Plain virt n ⟨[], res⟩ := ⟨Nat.zero_le n, nofun⟩

theorem inPlace_zero (m : Memory) (root virt : Nat) : InPlace m root virt 0 := fun _ hi => absurd hi (Nat.not_lt_zero _)

theorem confined_error (h : res ≠ -efault) : Confined m root virt n ⟨[], some res⟩ ↔ Writable m root virt n := by
  rw [(plain_nil virt n (some res)).confined_iff]
  constructor
  · rintro ⟨-, hall | ⟨-, hres⟩⟩
    · exact hall
    · exact absurd (hres res rfl) h
  · intro hall
    exact ⟨inPlace_zero m root virt, .inl hall⟩

theorem confined_silent (h : ∀ r, e.res = some r → r = -efault) (hs : e.stores = []) : Confined m root virt n e := by
  obtain ⟨stores, result⟩ := e
  obtain rfl : stores = [] := hs
  exact (plain_nil virt n result).confined_iff.mpr ⟨inPlace_zero m root virt, .inr ⟨rfl, h⟩⟩

section Reads

theorem readLoop_stores (buf size i : Nat) (input : List UInt8) :
    i + (readLoop buf size i input).stores.length ≤ max i size ∧
    ∀ j a v, (readLoop buf size i input).stores[j]? = some (a, v) → a = usizeAdd buf (i + j) := by
  have hnil : ∀ i j a v, ([] : List (Nat × UInt8))[j]? = some (a, v) → a = usizeAdd buf (i + j) := by
    intro i j a v hj
    cases hj
  induction input generalizing i with
  | nil => exact ⟨by simp [readLoop], hnil i⟩
  | cons byte input ih =>
      rw [readLoop]
      split
      case isTrue hi =>
        have hcons : ∀ (rest : List (Nat × UInt8)),
            (∀ j a v, rest[j]? = some (a, v) → a = usizeAdd buf (i + 1 + j)) →
            ∀ j a v, ((usizeAdd buf i, byte) :: rest)[j]? = some (a, v) → a = usizeAdd buf (i + j) := by
          intro rest hrest j a v hj
          cases j with
          | zero => exact (congrArg Prod.fst (Option.some.inj hj)).symm
          | succ j =>
              rw [List.getElem?_cons_succ] at hj
              rw [hrest j a v hj, Nat.add_assoc, Nat.add_comm 1 j]
        split
        · exact ⟨by simp; omega, hcons [] (hnil (i + 1))⟩
        · obtain ⟨hlen, hrest⟩ := ih (i + 1)
          refine ⟨?_, hcons _ hrest⟩
          rw [List.length_cons]
          omega
      case isFalse hi => exact ⟨by simp, hnil i⟩

theorem readLoop_length (buf size i : Nat) (input : List UInt8) :
    (readLoop buf size i input).stores.length = lineLen (size - i) input := by
  induction input generalizing i with
  | nil =>
      rw [lineLen, List.length_nil, Nat.zero_min, Nat.min_zero]
      rfl
  | cons byte input ih =>
      rw [readLoop]
      split
      case isTrue hi =>
        split
        case isTrue hbyte =>
          simp only [lineLen, hbyte, ne_eq, not_true_eq_false, decide_false, Bool.false_eq_true, not_false_eq_true,
            List.takeWhile_cons_of_neg, List.length_nil, List.length_cons]
          omega
        case isFalse hbyte =>
          have hrest := ih (i + 1)
          rw [lineLen] at hrest
          rw [List.length_cons, hrest, lineLen, List.takeWhile_cons_of_pos (by simpa using hbyte), List.length_cons,
            List.length_cons]
          omega
      case isFalse hi =>
        rw [lineLen, Nat.sub_eq_zero_of_le (Nat.le_of_not_lt hi), Nat.min_zero, Nat.min_zero]
        rfl

theorem readLoop_plain (buf size : Nat) (input : List UInt8) : Plain buf size (readLoop buf size 0 input) := by
  obtain ⟨hlen, haddr⟩ := readLoop_stores buf size 0 input
  simp only [Nat.zero_add, Nat.zero_max] at hlen haddr
  exact ⟨hlen, haddr⟩

theorem readLoop_waits (h : lineLen size input = 0) (hsize : size ≠ 0) : (readLoop buf size 0 input).res = none := by
  cases input with
  | nil => rw [readLoop, if_pos (Nat.pos_of_ne_zero hsize)]
  | cons byte input =>
      rw [lineLen, List.length_cons] at h
      omega

theorem readLoop_confined_iff : Confined m root buf size (readLoop buf size 0 input) ↔
    InPlace m root buf (lineLen size input) ∧ (lineLen size input = 0 ∨ Writable m root buf size) := by
  have hlen := readLoop_length buf size 0 input
  rw [Nat.sub_zero] at hlen
  rw [(readLoop_plain buf size input).confined_iff, hlen]
  refine and_congr_right fun _ => ⟨?_, ?_⟩
  · rintro (hall | ⟨hnil, -⟩)
    · exact .inr hall
    · left
      rw [← hlen, hnil, List.length_nil]
  · rintro (hzero | hall)
    · by_cases hsize : size = 0
      · left
        intro i hi
        omega
      · right
        refine ⟨List.eq_nil_of_length_eq_zero (hlen.trans hzero), fun r hr => ?_⟩
        rw [readLoop_waits hzero hsize] at hr
        cases hr
    · exact .inl hall

theorem sysRead_denied (h : (denied proc frame.fd fdFlagReadable).1 = true) :
    sysRead ctrlBlks proc frame input = ⟨[], some (-ebadf)⟩ := by
  simp only [sysRead, FileSyscalls.sysRead, h, if_true, Option.elim_none]

theorem sysRead_null (h : (denied proc frame.fd fdFlagReadable).1 = false) (hnull : frame.a1.toNat = nullptr) :
    sysRead ctrlBlks proc frame input = ⟨[], some (-efault)⟩ := by
  simp only [sysRead, FileSyscalls.sysRead, h, hnull, Bool.false_eq_true, if_false, if_true, Option.elim_none]

theorem sysRead_device (h : (denied proc frame.fd fdFlagReadable).1 = false) (hnull : frame.a1.toNat ≠ nullptr) :
    sysRead ctrlBlks proc frame input =
      devRead ctrlBlks ⟨(proc.fds frame.fd).dev, frame.a1.toNat, frame.a2.toNat⟩ input := by
  simp only [sysRead, FileSyscalls.sysRead, h, hnull, Bool.false_eq_true, if_false, Option.elim_some]

theorem devRead_refused {dev : Dev} (h : ¬ Readable ctrlBlks dev) :
    devRead ctrlBlks ⟨dev, buf, size⟩ input = ⟨[], some (-enxio)⟩ := by
  obtain ⟨driver, num⟩ := dev
  cases driver with
  | uart => rfl
  | tty =>
      refine if_pos ?_
      by_contra hno
      rw [not_or, Nat.not_le] at hno
      exact h ⟨rfl, hno⟩

theorem devRead_readable {dev : Dev} (h : Readable ctrlBlks dev) :
    devRead ctrlBlks ⟨dev, buf, size⟩ input = readLoop buf size 0 input := by
  obtain ⟨driver, num⟩ := dev
  obtain ⟨rfl, hnum, hblk⟩ := h
  exact if_neg (not_or.mpr ⟨Nat.not_le.mpr hnum, hblk⟩)

theorem sysRead_confined_iff (m : Memory) (ctrlBlks : Nat → Nat) (proc : FileSyscalls.Proc Dev)
    (frame : FileSyscalls.Frame) (input : List UInt8) :
    Confined m proc.pageTable frame.a1.toNat frame.a2.toNat (sysRead ctrlBlks proc frame input) ↔
      ReadSafe m ctrlBlks proc frame input := by
  by_cases hd : (denied proc frame.fd fdFlagReadable).1 = true
  · rw [sysRead_denied hd, confined_error (by decide)]
    exact ⟨fun hall => ⟨fun _ => hall, fun _ _ _ => hall, fun hno => absurd (hd.symm.trans hno) nofun⟩,
      fun hsafe => hsafe.refused hd⟩
  · have hgranted : (denied proc frame.fd fdFlagReadable).1 = false := Bool.eq_false_iff.mpr hd
    by_cases hnull : frame.a1.toNat = nullptr
    · rw [sysRead_null hgranted hnull]
      refine iff_of_true (confined_silent (fun r hr => (Option.some.inj hr).symm) rfl) ?_
      exact ⟨fun h => absurd h hd, fun _ h => absurd hnull h, fun _ h => absurd hnull h⟩
    · rw [sysRead_device hgranted hnull]
      by_cases hdev : Readable ctrlBlks (proc.fds frame.fd).dev
      · rw [devRead_readable hdev, readLoop_confined_iff]
        exact ⟨fun hall => ⟨fun h => absurd h hd, fun _ _ h => absurd hdev h, fun _ _ _ => hall⟩,
          fun hsafe => hsafe.stored hgranted hnull hdev⟩
      · rw [devRead_refused hdev, confined_error (by decide)]
        exact ⟨fun hall => ⟨fun h => absurd h hd, fun _ _ _ => hall, fun _ _ h => absurd h hdev⟩,
          fun hsafe => hsafe.noDevice hgranted hnull hdev⟩

end Reads

section Waits

variable {k k' : Kernel} {child : ProcRef} {pid : Int} {value : BitVec 32}

theorem reaped_plain (status : Nat) (child : ProcRef) (pid : Int) (value : BitVec 32) :
    Plain status (waitSize status) (waitEffect status (.reaped child pid value)) := by
  rw [waitEffect, waitSize]
  split
  · exact plain_nil _ _ _
  · refine ⟨by simp, fun i a v h => ?_⟩
    rw [List.getElem?_map, Option.map_eq_some_iff] at h
    obtain ⟨j, hj, hav⟩ := h
    obtain ⟨hlt, rfl⟩ := List.getElem?_eq_some_iff.mp hj
    rw [List.getElem_range] at hav
    exact (congrArg Prod.fst hav).symm

theorem reaped_confined_iff : Confined m root status (waitSize status) (waitEffect status (.reaped child pid value)) ↔
    InPlace m root status (waitSize status) := by
  have hlen : (waitEffect status (.reaped child pid value)).stores.length = waitSize status := by
    rw [waitEffect, waitSize]
    split
    · rfl
    · rfl
  rw [(reaped_plain status child pid value).confined_iff, hlen]
  exact ⟨fun h => h.1, fun h => ⟨h, .inl h.writable⟩⟩

theorem sysWaitQuit_reaped (h : sysWaitQuit k child = some (k', out)) : ∃ pid value, out = .reaped child pid value := by
  obtain ⟨k₁, -, h⟩ := Option.bind_eq_some_iff.mp h
  cases h
  exact ⟨_, _, rfl⟩

theorem sysWait_confined_iff {curr : ProcRef} (h : sysWait k status = some (k', e)) (hcurr : k.currProc = some curr) :
    Confined m root status (waitSize status) e ↔ WaitSafe m root status k curr := by
  obtain ⟨⟨k₁, out⟩, hrun, hr⟩ := Option.map_eq_some_iff.mp h
  obtain ⟨-, rfl⟩ := Prod.mk.inj hr
  simp only [Syscalls.sysWait, hcurr, Option.bind_eq_bind, Option.bind_some] at hrun
  split at hrun
  · next hnone =>
    rw [Bool.and_eq_true] at hnone
    cases hrun
    rw [waitEffect, confined_error (by decide)]
    exact ⟨fun hall => ⟨fun hz => absurd (hnone.2.symm.trans hz) (by decide), fun _ _ => hall⟩,
      fun hsafe => hsafe.childless hnone.1 hnone.2⟩
  · next hsome =>
    split at hrun
    · next hzombie =>
      rw [Bool.not_eq_true'] at hzombie
      obtain ⟨child, -, hquit⟩ := Option.bind_eq_some_iff.mp hrun
      obtain ⟨pid, value, rfl⟩ := sysWaitQuit_reaped hquit
      rw [reaped_confined_iff]
      exact ⟨fun hall => ⟨fun _ => hall, fun _ hz => absurd (hzombie.symm.trans hz) (by decide)⟩,
        fun hsafe => hsafe.stored hzombie⟩
    · next hzombie =>
      rw [Bool.not_eq_true', Bool.not_eq_false] at hzombie
      obtain ⟨k₂, -, hblock⟩ := Option.bind_eq_some_iff.mp hrun
      cases hblock
      have hsilent : ∀ r, (waitEffect status .blocked).res = some r → r = -efault := by
        intro r hr
        cases hr
      refine iff_of_true (confined_silent hsilent rfl) ⟨fun hz => absurd (hzombie.symm.trans hz) (by decide), fun hc _ => ?_⟩
      exact absurd (by rw [hc, hzombie]; rfl) hsome

theorem sysWaitResume_confined_iff (h : sysWaitResume k = some (k', e, status)) :
    Confined m root status (waitSize status) e ↔ InPlace m root status (waitSize status) := by
  obtain ⟨curr, -, h⟩ := Option.bind_eq_some_iff.mp h
  split at h
  · cases h
  · obtain ⟨⟨k₁, out⟩, hrun, hr⟩ := Option.map_eq_some_iff.mp h
    obtain ⟨-, he⟩ := Prod.mk.inj hr
    obtain ⟨rfl, rfl⟩ := Prod.mk.inj he
    obtain ⟨curr', -, hrun⟩ := Option.bind_eq_some_iff.mp hrun
    obtain ⟨child, -, hquit⟩ := Option.bind_eq_some_iff.mp hrun
    obtain ⟨pid, value, rfl⟩ := sysWaitQuit_reaped hquit
    exact reaped_confined_iff

end Waits

section Terminal

variable {s s' : Tty.Machine} {p : ProcRef} {call : Tty.Call}

structure Open (call : Tty.Call) : Prop where
  length : call.buf.length < call.size
  line : 0x0A ∉ call.buf

theorem readLoop_append (buf : Nat) {pre : List UInt8} (hpre : 0x0A ∉ pre)
    (hlen : i + pre.length ≤ size) (input : List UInt8) :
    ((readLoop buf size i (pre ++ input)).stores.map Prod.snd =
      pre ++ (readLoop buf size (i + pre.length) input).stores.map Prod.snd) ∧
      (readLoop buf size i (pre ++ input)).res = (readLoop buf size (i + pre.length) input).res := by
  induction pre generalizing i with
  | nil => exact ⟨rfl, rfl⟩
  | cons byte pre ih =>
      rw [List.mem_cons, not_or] at hpre
      rw [List.length_cons] at hlen
      have hlt : i < size := by omega
      obtain ⟨hstores, hres⟩ := ih hpre.2 (i := i + 1) (by omega)
      rw [List.cons_append, readLoop, if_pos hlt, if_neg (Ne.symm hpre.1), List.length_cons, Nat.add_comm pre.length,
        ← Nat.add_assoc]
      refine ⟨?_, hres⟩
      rw [List.map_cons, hstores]
      rfl

theorem take_open {q : ProcRef} {call' : Tty.Call} (h : Open call) (hs : ∀ q call, s.reading q = some call → Open call)
    (hq : (Tty.take s p call).reading q = some call') : Open call' := by
  rw [Tty.take_reading] at hq
  by_cases hqp : q = p
  · subst hqp
    rw [Function.update_self] at hq
    split at hq
    · cases hq
    · next hopen =>
      cases hq
      rw [not_or] at hopen
      constructor
      · have hlen := h.length
        rw [List.length_append, List.length_singleton]
        show call.buf.length + 1 < call.size
        omega
      · rw [List.mem_append, List.mem_singleton, not_or]
        exact ⟨h.line, Ne.symm hopen.1⟩
  · rw [Function.update_of_ne hqp] at hq
    exact hs q call' hq

theorem reading_open (h : Reachable Tty.Start Tty.Step s) : ∀ q call, s.reading q = some call → Open call := by
  apply h.invariant
  · intro s hs q call hq
    rw [hs.reading] at hq
    cases hq
  · rintro s op s' hs ⟨-, hx⟩ q call hq
    cases op with
    | recv byte =>
        obtain ⟨tty, -, hx⟩ := Option.bind_eq_some_iff.mp hx
        cases hx
        exact hs q call hq
    | read proc size =>
        cases hx
        by_cases hqp : q = proc
        · subst hqp
          simp only [Function.update_self] at hq
          split at hq
          · cases hq
          · next hne =>
            cases hq
            exact ⟨Nat.pos_of_ne_zero hne, List.not_mem_nil⟩
        · simp only [Function.update_of_ne hqp] at hq
          exact hs q call hq
    | wait proc =>
        obtain ⟨call₀, hc, ⟨-, rfl⟩ | ⟨-, rfl⟩⟩ := Tty.exec_wait hx
        · exact hs q call hq
        · exact take_open (hs proc call₀ hc) hs hq
    | resume proc =>
        obtain ⟨call₀, hc, rfl⟩ := Tty.exec_resume hx
        exact take_open (hs proc call₀ hc) hs hq

/-- A call of `read` in progress has gone through the loop with the bytes of its buffer. -/
theorem reading_stores (h : Reachable Tty.Start Tty.Step s) (hc : s.reading p = some call) (buf : Nat) :
    (readLoop buf call.size 0 call.buf).stores.map Prod.snd = call.buf ∧
      (readLoop buf call.size 0 call.buf).res = none := by
  have hopen := reading_open h p call hc
  have hlen := hopen.length
  have hle : 0 + call.buf.length ≤ call.size := by omega
  have hlt : 0 + call.buf.length < call.size := by omega
  obtain ⟨hstores, hres⟩ := readLoop_append buf hopen.line hle []
  rw [List.append_nil] at hstores hres
  constructor
  · rw [hstores, readLoop]
    exact List.append_nil _
  · rw [hres, readLoop, if_pos hlt]

end Terminal

section Boot

theorem user_page (page phys : Nat) (hpage : page < 2 ^ 39) (hphys : phys % PageAlloc.pageSize = 0 ∧ phys < 2 ^ 56) :
    ∃ s, PageTableMap.Reached 0x80300010 s ∧ ∀ v < 2 ^ 39, userImage s.space.mem s.root v =
      if v / PageAlloc.pageSize = page / PageAlloc.pageSize then some (phys + v % PageAlloc.pageSize) else none := by
  obtain ⟨s, hs, hcalls⟩ := mapped_call (c := ⟨page, phys, vmFlagReadable ||| vmFlagWritable ||| vmFlagUser⟩) hpage
  have hi := reached_invariant hs
  obtain ⟨tab, free, hm⟩ := hi.mapped
  have hp : ∀ c ∈ s.calls, c.phys % PageAlloc.pageSize = 0 ∧ c.phys < 2 ^ 56 := by
    rw [hcalls]
    simpa using hphys
  refine ⟨s, hs, fun v hv => ?_⟩
  have hwalk : sv39 s.space.mem s.root v = _ := (if_pos hv).trans (reached_walk hs hp hv)
  rw [hcalls, translate_cons] at hwalk
  by_cases he : v / PageAlloc.pageSize = page / PageAlloc.pageSize
  · have hleaf : (leafOf s.calls (path v)).flags = pteFlags (vmFlagReadable ||| vmFlagWritable ||| vmFlagUser) := by
      have hvirt := hi.virt
      rw [hcalls] at hvirt ⊢
      rw [(path_eq_iff hv hpage).mpr he]
      exact congrArg Pte.flags (leafOf_mem hvirt (List.pairwise_singleton _ _) List.mem_cons_self)
    have hne : leafOf s.calls (path v) ≠ noPte := by
      intro hno
      rw [hno] at hleaf
      exact absurd hleaf (by decide)
    rw [userImage, tree_leafFlags hm.tree hv hne, hleaf]
    exact hwalk
  · rw [userImage, hwalk, if_neg he, if_neg he]
    simp [PageTableMap.translate, lastCall]

/-- The init process waits for its child, which exits with the status 263. -/
theorem waits_reaped : ∃ k k', KernelRuns.Reached k ∧
    sysWaitResume k = some (k', waitEffect 0x80300010 (.reaped (.heap 1) 2 7), 0x80300010) := by
  obtain ⟨k₀, hb, h₀⟩ := booted_simulated
  obtain ⟨k₁, hs₁, h₁⟩ := h₀.realise (.proc .initProc 1 2 ⟨rfl, by decide, rfl⟩ rfl rfl) trivial
  obtain ⟨k₂, hs₂, h₂⟩ := h₁.realise (.waitBlock .initProc 0x80300010 ⟨rfl, by decide, rfl⟩ nofun rfl) trivial
  obtain ⟨k₃, hs₃, h₃⟩ := h₂.realise (.exit (.heap 1) .initProc 263 ⟨rfl, by decide, rfl⟩ nofun rfl) trivial
  obtain ⟨k₄, ⟨-, n, hs₄⟩, -⟩ := h₃.realise (.resume .initProc 1 rfl nofun rfl (by decide)) trivial
  have hcurr : k₃.currProc = some .initProc := by rw [h₃.refines.data]; rfl
  have hresume : k₃.resume .initProc = .wait 0x80300010 := by rw [h₃.refines.data]; rfl
  have hrun : Syscalls.sysWaitResume k₃ = some (k₄, .reaped (.heap 1) 2 7) := hs₄ n (Nat.le_refl n)
  refine ⟨k₃, k₄, .next (_, _) (.next (_, _) (.next (_, _) (.start hb) hs₁) hs₂) hs₃, ?_⟩
  simp only [sysWaitResume, hcurr, hresume, hrun, Option.bind_eq_bind, Option.bind_some, Option.map_some]

end Boot

/-- The kernel runs without translation and stores through a pointer of the user as
it is. So the stores of `sys_read` and `sys_wait` are confined just if the bytes
that they store are mapped to themselves, and a call that fails for another
reason has been given a good pointer. A call of `read` that is in progress in a
run of the terminal has stored what `sys_read` stores for the bytes of its buffer. -/
theorem user_stores (m : Memory) : (∀ c, (Riscv.exec TrapCode.trampoline c).csr .satp = 0) ∧
    (∀ ctrlBlks (proc : FileSyscalls.Proc Dev) (frame : FileSyscalls.Frame) input,
      Confined m proc.pageTable frame.a1.toNat frame.a2.toNat (sysRead ctrlBlks proc frame input) ↔
        ReadSafe m ctrlBlks proc frame input) ∧
    (∀ s p call buf, Reachable Tty.Start Tty.Step s → s.reading p = some call →
      (readLoop buf call.size 0 call.buf).stores.map Prod.snd = call.buf ∧ (readLoop buf call.size 0 call.buf).res = none) ∧
    (∀ k k' curr root status e, sysWait k status = some (k', e) → k.currProc = some curr →
      (Confined m root status (waitSize status) e ↔ WaitSafe m root status k curr)) ∧
    ∀ k k' root status e, sysWaitResume k = some (k', e, status) →
      (Confined m root status (waitSize status) e ↔ InPlace m root status (waitSize status)) := by
  refine ⟨TrapCode.trampoline_satp, sysRead_confined_iff m, ?_, ?_, ?_⟩
  · intro s p call buf h hc
    exact reading_stores h hc buf
  · intro k k' curr root status e h hcurr
    exact sysWait_confined_iff h hcurr
  · intro k k' root status e h
    exact sysWaitResume_confined_iff h

def ttyProc (root : Nat) : FileSyscalls.Proc Dev where
  fds fd := ⟨if fd = 0 then fdFlagUsed ||| fdFlagReadable else 0, ⟨.tty, 0⟩⟩
  pageTable := root

theorem ttyProc_granted (root : Nat) (a1 a2 : BitVec 64) :
    (denied (ttyProc root) (FileSyscalls.Frame.fd ⟨0, a1, a2⟩) fdFlagReadable).1 = false := by
  have hused : FdPermission.Has (ttyProc root) 0 fdFlagUsed :=
    show (if (0 : Int) = 0 then fdFlagUsed ||| fdFlagReadable else 0) &&& fdFlagUsed ≠ 0 by decide
  have hfd : FileSyscalls.Frame.fd ⟨0, a1, a2⟩ = 0 := rfl
  rw [hfd, FdPermission.denied_used ⟨by decide, by decide⟩ hused]

theorem ttyProc_readable (root : Nat) (fd : Int) : Readable (fun _ => 0x80400020) ((ttyProc root).fds fd).dev :=
  ⟨rfl, show 0 < driverDevCapacity by decide, show 0x80400020 ≠ nullptr by decide⟩

theorem ttyProc_stores (root : Nat) :
    (sysRead (fun _ => 0x80400020) (ttyProc root) ⟨0, 0x1000, 1⟩ [0x61]).stores = [(0x1000, 0x61)] := by
  rw [sysRead_device (ttyProc_granted root 0x1000 1) (by decide), devRead_readable (ttyProc_readable root _)]
  rfl

/-- With a page of the user that is mapped to itself a line read into it and the
status of a child stored in it are confined. -/
theorem user_stores_line : ∃ s, PageTableMap.Reached 0x80300010 s ∧
    Confined s.space.mem s.root 0x80300010 4
      (sysRead (fun _ => 0x80400020) (ttyProc s.root) ⟨0, 0x80300010, 4⟩ [0x61, 0x0A, 0x62]) ∧
    ∃ k k', KernelRuns.Reached k ∧
      sysWaitResume k = some (k', waitEffect 0x80300010 (.reaped (.heap 1) 2 7), 0x80300010) ∧
      Confined s.space.mem s.root 0x80300010 4 (waitEffect 0x80300010 (.reaped (.heap 1) 2 7)) := by
  obtain ⟨s, hs, himage⟩ := user_page 0x80300000 0x80300000 (by decide) (by decide)
  have hplace : InPlace s.space.mem s.root 0x80300010 4 := by
    intro i hi
    rw [usizeAdd_of_lt (by omega), himage _ (by omega), PageAlloc.pageSize, if_pos (by omega)]
    exact congrArg some (by omega)
  have hdeny := ttyProc_granted s.root 0x80300010 4
  obtain ⟨k, k', hk, hrun⟩ := waits_reaped
  refine ⟨s, hs, ?_, k, k', hk, hrun, ?_⟩
  · apply ((user_stores s.space.mem).2.1 _ (ttyProc s.root) ⟨0, 0x80300010, 4⟩ _).mpr
    refine ⟨fun h => absurd (hdeny.symm.trans h) Bool.false_ne_true, fun _ _ h => absurd (ttyProc_readable _ _) h, fun _ _ _ => ?_⟩
    have hline : lineLen (FileSyscalls.Frame.a2 ⟨0, 0x80300010, 4⟩).toNat [0x61, 0x0A, 0x62] = 2 := by decide
    rw [hline]
    exact ⟨fun i hi => hplace i (by omega), .inr hplace.writable⟩
  · exact ((user_stores s.space.mem).2.2.2.2 k k' s.root 0x80300010 _ hrun).mpr hplace

/-- The page at 0x1000 of the user is at 0x80800000. `sys_read` into it stores at
the physical address 0x1000, and `sys_wait` stores the status of a child over the
head of the list of free pages, which the user has no page for. -/
theorem user_stores_astray : ∃ s, PageTableMap.Reached 0x80300010 s ∧
    userImage s.space.mem s.root 0x1000 = some 0x80800000 ∧
    (sysRead (fun _ => 0x80400020) (ttyProc s.root) ⟨0, 0x1000, 1⟩ [0x61]).stores = [(0x1000, 0x61)] ∧
    ¬ Confined s.space.mem s.root 0x1000 1 (sysRead (fun _ => 0x80400020) (ttyProc s.root) ⟨0, 0x1000, 1⟩ [0x61]) ∧
    ∃ k k', KernelRuns.Reached k ∧
      sysWaitResume k = some (k', waitEffect 0x80300010 (.reaped (.heap 1) 2 7), 0x80300010) ∧
      userImage s.space.mem s.root 0x80300010 = none ∧
      (waitEffect 0x80300010 (.reaped (.heap 1) 2 7)).stores =
        [(0x80300010, 7), (0x80300011, 0), (0x80300012, 0), (0x80300013, 0)] ∧
      ¬ Confined s.space.mem s.root 0x80300010 4 (waitEffect 0x80300010 (.reaped (.heap 1) 2 7)) := by
  obtain ⟨s, hs, hpage⟩ := user_page 0x1000 0x80800000 (by decide) (by decide)
  have himage : userImage s.space.mem s.root 0x1000 = some 0x80800000 := hpage 0x1000 (by decide)
  have hnone : userImage s.space.mem s.root 0x80300010 = none := hpage 0x80300010 (by decide)
  obtain ⟨k, k', hk, hrun⟩ := waits_reaped
  have hread := ttyProc_stores s.root
  have hwait : (waitEffect 0x80300010 (.reaped (.heap 1) 2 7)).stores =
      [(0x80300010, 7), (0x80300011, 0), (0x80300012, 0), (0x80300013, 0)] := by decide
  refine ⟨s, hs, himage, hread, fun hc => ?_, k, k', hk, hrun, hnone, hwait, fun hc => ?_⟩
  · have h := hc.image 0 0x1000 0x61 (by rw [hread]; rfl)
    have hsame : some 0x80800000 = some 0x1000 := himage.symm.trans h
    exact absurd hsame (by decide)
  · have h := hc.image 0 0x80300010 7 (by rw [hwait]; rfl)
    exact absurd (hnone.symm.trans h) nofun

end Karg.UserStores
