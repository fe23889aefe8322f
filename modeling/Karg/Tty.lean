import Karg.Process

namespace Karg.Tty

open Process

def ttyBufSize : Nat := 128

/-- `tty_ctrl_blk_t` with its semaphore. A process that a signal has taken off
the queue is `woken` until it runs again; `echo` holds what went to the sinks. -/
structure TtyCtrlBlk where
  rxBuf : Nat → UInt8
  rxHead : Nat
  rxTail : Nat
  cursorPos : Nat
  val : Int
  waitQueue : List ProcRef
  woken : List ProcRef
  echo : List UInt8

/-- What `sem_signal` does to the semaphore of a terminal. The kernel's own is in
`Sem`, and `TtyDelivery.Projects` says how the two go together. -/
def TtyCtrlBlk.signal (t : TtyCtrlBlk) : Option TtyCtrlBlk := do
  let val ← incr t.val
  if t.val < 0 then
    match t.waitQueue with
    | [] => none
    | proc :: rest => some { t with val := val, waitQueue := rest, woken := t.woken ++ [proc] }
  else some { t with val := val }

def TtyCtrlBlk.signaln (t : TtyCtrlBlk) : Nat → Option TtyCtrlBlk
  | 0 => some t
  | n + 1 => do
      let t ← t.signal
      t.signaln n

def ldiscWrite (t : TtyCtrlBlk) (buf : List UInt8) : TtyCtrlBlk := { t with echo := t.echo ++ buf }

def ldiscRecvByte (t : TtyCtrlBlk) (byte : UInt8) : Option TtyCtrlBlk :=
  let byte := if byte = 0x0D then 0x0A else byte
  if byte = 0x7F then
    if t.cursorPos > 0 then
      let tail := if t.rxTail = 0 then ttyBufSize else t.rxTail
      some (ldiscWrite { t with rxTail := tail - 1, cursorPos := t.cursorPos - 1 } [0x08, 0x20, 0x08])
    else some t
  else
    let nextTail := (t.rxTail + 1) % ttyBufSize
    if nextTail = t.rxHead then some t
    else
      let t := { t with
        rxBuf := Function.update t.rxBuf t.rxTail byte
        rxTail := nextTail
        cursorPos := t.cursorPos + 1 }
      if byte = 0x0A then do
        let t ← t.signaln t.cursorPos
        some (ldiscWrite { t with cursorPos := 0 } [byte])
      else some (ldiscWrite t [byte])

structure Call where
  size : Nat
  buf : List UInt8

/-- The terminal with the calls of `read` that are in progress, and the bytes
that have been taken out of the ring, in that order. -/
structure Machine where
  tty : TtyCtrlBlk
  reading : ProcRef → Option Call
  consumed : List UInt8

def take (s : Machine) (proc : ProcRef) (call : Call) : Machine :=
  let byte := s.tty.rxBuf s.tty.rxHead
  let call := { call with buf := call.buf ++ [byte] }
  let done := byte = 0x0A ∨ call.buf.length = call.size
  { tty := { s.tty with rxHead := (s.tty.rxHead + 1) % ttyBufSize }
    reading := Function.update s.reading proc (if done then none else some call)
    consumed := s.consumed ++ [byte] }

theorem take_reading (s : Machine) (p : ProcRef) (call : Call) : (take s p call).reading =
    Function.update s.reading p (if s.tty.rxBuf s.tty.rxHead = 0x0A ∨ call.buf.length + 1 = call.size then none
      else some { call with buf := call.buf ++ [s.tty.rxBuf s.tty.rxHead] }) := by
  simp only [take, List.length_append, List.length_singleton]

inductive Op
  | recv (byte : UInt8)
  | read (proc : ProcRef) (size : Nat)
  | wait (proc : ProcRef)
  | resume (proc : ProcRef)

/-- A byte from the source, a call of `read`, its next round up to the block of
`sem_wait` if there is one, and the rest of that round. -/
def exec (s : Machine) : Op → Option Machine
  | .recv byte => do
      let tty ← ldiscRecvByte s.tty byte
      some { s with tty := tty }
  | .read proc size =>
      some { s with reading := Function.update s.reading proc (if size = 0 then none else some ⟨size, []⟩) }
  | .wait proc => do
      let call ← s.reading proc
      let val ← decr s.tty.val
      let s : Machine := { s with tty := { s.tty with val := val } }
      if val < 0 then some { s with tty := { s.tty with waitQueue := s.tty.waitQueue ++ [proc] } }
      else some (take s proc call)
  | .resume proc => do
      let call ← s.reading proc
      some (take { s with tty := { s.tty with woken := s.tty.woken.erase proc } } proc call)

section Inversion

variable {s s' : Machine} {p : ProcRef}

/-- Without a token the caller joins the queue, and otherwise it takes a byte. -/
theorem exec_wait (h : exec s (.wait p) = some s') : ∃ call, s.reading p = some call ∧
    (s.tty.val ≤ 0 ∧
        s' = { s with tty := { s.tty with val := s.tty.val - 1, waitQueue := s.tty.waitQueue ++ [p] } } ∨
      0 < s.tty.val ∧ s' = take { s with tty := { s.tty with val := s.tty.val - 1 } } p call) := by
  simp only [exec, Option.bind_eq_bind, Option.bind_eq_some_iff] at h
  obtain ⟨call, hc, val, hval, h⟩ := h
  obtain rfl : s.tty.val - 1 = val := by
    rw [decr] at hval
    split at hval
    · exact Option.some.inj hval
    · cases hval
  refine ⟨call, hc, ?_⟩
  split at h
  · exact .inl ⟨by omega, (Option.some.inj h).symm⟩
  · exact .inr ⟨by omega, (Option.some.inj h).symm⟩

theorem exec_resume (h : exec s (.resume p) = some s') : ∃ call, s.reading p = some call ∧
    s' = take { s with tty := { s.tty with woken := s.tty.woken.erase p } } p call := by
  simp only [exec, Option.bind_eq_bind, Option.bind_eq_some_iff] at h
  obtain ⟨call, hc, h⟩ := h
  exact ⟨call, hc, (Option.some.inj h).symm⟩

end Inversion

def Allowed (s : Machine) : Op → Prop
  | .recv _ => True
  | .read proc _ => s.reading proc = none
  | .wait proc => (s.reading proc).isSome ∧ proc ∉ s.tty.waitQueue ∧ proc ∉ s.tty.woken ∧ i32Min < s.tty.val
  | .resume proc => proc ∈ s.tty.woken

def Step (s : Machine) (op : Op) (s' : Machine) : Prop := Allowed s op ∧ exec s op = some s'

structure Start (s : Machine) : Prop where
  rxHead : s.tty.rxHead = 0
  rxTail : s.tty.rxTail = 0
  cursorPos : s.tty.cursorPos = 0
  val : s.tty.val = 0
  waitQueue : s.tty.waitQueue = []
  woken : s.tty.woken = []
  reading (proc : ProcRef) : s.reading proc = none
  consumed : s.consumed = []

end Karg.Tty
