import Karg.FormatStrings
import Karg.LogFlush

namespace Karg.KernelLog

open ByteMemory Execution FormatStrings Log LogFlush RingBuffer

inductive Severity
  | debug | info | warning | error | critical | panic
  deriving DecidableEq

structure Call where
  severity : Severity
  fmt : Nat
  args : List Nat

structure Outcome where
  state : State
  hung : Bool

def Call.WellFormed (m : Memory) (c : Call) : Prop :=
  ∃ fs, TextAt m c.fmt fs ∧ dangling fs = false ∧ Matching m fs c.args

variable {m : Memory} {labels : Severity → Nat} {l : State} {c p : Call} {calls early late : List Call}
  {logged text fs out : List UInt8} {args : List Nat} {fmt : Nat} {byte : UInt8}

section Ring

def whole (logged : List UInt8) : List UInt8 := (List.replicate logBufSize 0 ++ logged).drop logged.length

structure Ring (l : State) (logged : List UInt8) : Prop where
  tail : l.logTail = logged.length % logBufSize
  head : l.logHead = (logged.length - used logged.length) % logBufSize
  cells : contents logBufSize l.logBuf l.logTail logBufSize = whole logged

structure Early (l : State) (logged : List UInt8) : Prop where
  kept : Kept l logged
  cells : contents logBufSize l.logBuf l.logTail logBufSize = whole logged

theorem Early.ring (h : Early l logged) : Ring l logged := ⟨h.kept.tail, h.kept.head, h.cells⟩

end Ring

section Calls

end Calls

section Results

instance decidableTextAt (m : Memory) (a : Nat) : (s : List UInt8) → Decidable (TextAt m a s)
  | [] => inferInstanceAs (Decidable (m.byte a = 0))
  | c :: s =>
      have := decidableTextAt m (a + 1) s
      inferInstanceAs (Decidable (c ≠ 0 ∧ m.byte a = c ∧ TextAt m (a + 1) s))

end Results

end Karg.KernelLog
