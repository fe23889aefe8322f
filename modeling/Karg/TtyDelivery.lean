import Karg.RingBuffer
import Karg.SemHistory
import Karg.Tty

namespace Karg.TtyDelivery

open Process Execution RingBuffer Tty

/-- A line editor: the bytes of the lines that are complete, and the line that
is being typed. -/
structure Editor where
  committed : List UInt8
  line : List UInt8

def edit (held : Nat) (e : Editor) (byte : UInt8) : Editor :=
  let byte := if byte = 0x0D then 0x0A else byte
  if byte = 0x7F then { e with line := e.line.dropLast }
  else if ttyBufSize - 1 ≤ held then e
  else if byte = 0x0A then ⟨e.committed ++ (e.line ++ [byte]), []⟩
  else { e with line := e.line ++ [byte] }

def follow (consumed : Nat) (e : Editor) : Op → Editor
  | .recv byte => edit (e.committed.length - consumed + e.line.length) e byte
  | .read _ _ | .wait _ | .resume _ => e

def Reached : Machine × Editor → Prop :=
  Reachable (fun x => Start x.1 ∧ x.2 = ⟨[], []⟩) fun x op x' =>
    Step x.1 op x'.1 ∧ x'.2 = follow x.1.consumed.length x.2 op

def used (t : TtyCtrlBlk) : Nat := (t.rxTail + ttyBufSize - t.rxHead) % ttyBufSize

def unread (t : TtyCtrlBlk) : List UInt8 := contents ttyBufSize t.rxBuf t.rxHead (used t - t.cursorPos)

structure Ring (t : TtyCtrlBlk) (bytes : List UInt8) : Prop where
  head : t.rxHead < ttyBufSize
  tail : t.rxTail = (t.rxHead + bytes.length) % ttyBufSize
  room : bytes.length < ttyBufSize
  contents : contents ttyBufSize t.rxBuf t.rxHead bytes.length = bytes

/-- The tokens of the semaphore: those that are left or held by a woken process
are as many as the bytes to be read. -/
structure Tokens (t : TtyCtrlBlk) (n : Nat) : Prop where
  count : n = t.val.toNat + t.woken.length
  waiting : t.waitQueue.length = (-t.val).toNat

structure Holds (s : Machine) (e : Editor) (bytes : List UInt8) : Prop where
  ring : Ring s.tty (bytes ++ e.line)
  tokens : Tokens s.tty bytes.length
  cursor : s.tty.cursorPos = e.line.length
  delivered : s.consumed ++ bytes = e.committed
  nodup : (s.tty.waitQueue ++ s.tty.woken).Nodup
  calls (p : ProcRef) : p ∈ s.tty.waitQueue ++ s.tty.woken → (s.reading p).isSome

variable {s s' : Machine} {e : Editor} {t : TtyCtrlBlk} {bytes : List UInt8} {byte : UInt8} {n : Nat} {p : ProcRef}

theorem Ring.push (h : Ring t bytes) (hn : bytes.length + 1 < ttyBufSize) (byte : UInt8) :
    Ring { t with rxBuf := Function.update t.rxBuf t.rxTail byte, rxTail := (t.rxTail + 1) % ttyBufSize }
      (bytes ++ [byte]) := by
  have hlen : (bytes ++ [byte]).length = bytes.length + 1 := List.length_append
  refine ⟨h.head, ?_, by rw [hlen]; exact hn, ?_⟩
  · show (t.rxTail + 1) % ttyBufSize = _
    rw [h.tail, Nat.mod_add_mod, hlen, Nat.add_assoc]
  · show RingBuffer.contents _ (Function.update t.rxBuf t.rxTail byte) _ _ = _
    rw [hlen, h.tail, contents_push h.room, h.contents]

theorem Ring.full_iff (h : Ring t bytes) :
    (t.rxTail + 1) % ttyBufSize = t.rxHead ↔ bytes.length = ttyBufSize - 1 := by
  have hh := h.head
  have hr := h.room
  have ht := h.tail
  simp only [ttyBufSize] at hh hr ht ⊢
  omega

/-- The last byte is erased by moving the tail, around the end if need be. -/
theorem Ring.erase (h : Ring t (bytes ++ [byte])) :
    Ring { t with rxTail := (if t.rxTail = 0 then ttyBufSize else t.rxTail) - 1 } bytes := by
  have hlen : (bytes ++ [byte]).length = bytes.length + 1 := List.length_append
  have hh := h.head
  have hr := h.room
  have ht := h.tail
  have hc := h.contents
  rw [hlen] at hr ht hc
  refine ⟨hh, ?_, by omega, ?_⟩
  · simp only [ttyBufSize] at hh hr ht ⊢
    split <;> omega
  · rw [contents_succ] at hc
    exact (List.append_inj' hc rfl).1

theorem Ring.take (h : Ring t (byte :: bytes)) :
    t.rxBuf t.rxHead = byte ∧ Ring { t with rxHead := (t.rxHead + 1) % ttyBufSize } bytes := by
  have hh := h.head
  have hr := h.room
  have ht := h.tail
  have hc := h.contents
  rw [List.length_cons] at hr ht hc
  rw [contents_cons hh] at hc
  obtain ⟨hb, hc⟩ := List.cons_eq_cons.mp hc
  refine ⟨hb, Nat.mod_lt _ (by decide), ?_, by omega, hc⟩
  show t.rxTail = _
  rw [ht, Nat.mod_add_mod, Nat.add_right_comm, Nat.add_assoc]

theorem signaln_eq (hw : t.waitQueue.length = (-t.val).toNat) (hv : t.val + n ≤ i32Max) :
    t.signaln n = some { t with
      val := t.val + n
      waitQueue := t.waitQueue.drop n
      woken := t.woken ++ t.waitQueue.take n } := by
  induction n generalizing t with
  | zero => simp [TtyCtrlBlk.signaln]
  | succ n ih =>
      have hincr : incr t.val = some (t.val + 1) := if_pos (by omega)
      have hval : t.val + 1 + n = t.val + (n + 1 : Nat) := by omega
      cases hq : t.waitQueue with
      | nil =>
          rw [hq] at hw
          have hs : t.signal = some { t with val := t.val + 1 } := by
            simp only [TtyCtrlBlk.signal, hincr, Option.bind_eq_bind, Option.bind_some,
              if_neg (show ¬ t.val < 0 by simp at hw; omega)]
          rw [TtyCtrlBlk.signaln, hs]
          show TtyCtrlBlk.signaln _ n = _
          rw [ih (by simp [hq]; simp at hw; omega) (by dsimp only; omega)]
          simp [hq, hval]
      | cons p rest =>
          rw [hq, List.length_cons] at hw
          have hs : t.signal = some { t with val := t.val + 1, waitQueue := rest, woken := t.woken ++ [p] } := by
            simp only [TtyCtrlBlk.signal, hincr, Option.bind_eq_bind, Option.bind_some,
              if_pos (show t.val < 0 by omega), hq]
          rw [TtyCtrlBlk.signaln, hs]
          show TtyCtrlBlk.signaln _ n = _
          rw [ih (by dsimp only; omega) (by dsimp only; omega)]
          simp [hval]

/-- A complete line gives one token for each of its bytes. -/
theorem Tokens.signal {m : Nat} (h : Tokens t m) (hn : m + n < ttyBufSize) :
    ∃ t', t.signaln n = some t' ∧ Tokens t' (m + n) ∧ (t'.rxBuf, t'.rxHead, t'.rxTail) = (t.rxBuf, t.rxHead, t.rxTail) ∧
      (t'.waitQueue ++ t'.woken).Perm (t.waitQueue ++ t.woken) := by
  have hc := h.count
  have hw := h.waiting
  simp only [ttyBufSize] at hn
  refine ⟨_, signaln_eq hw (by simp only [i32Max]; omega), ⟨?_, ?_⟩, rfl, ?_⟩
  · simp only [List.length_append, List.length_take]
    omega
  · simp only [List.length_drop]
    omega
  · show (t.waitQueue.drop n ++ (t.woken ++ t.waitQueue.take n)).Perm _
    have hp : (t.waitQueue.drop n ++ (t.woken ++ t.waitQueue.take n)).Perm
        (t.waitQueue.take n ++ t.waitQueue.drop n ++ t.woken) := by
      rw [← List.append_assoc, List.append_assoc (t.waitQueue.take n)]
      exact List.perm_append_comm
    rwa [List.take_append_drop] at hp

theorem Holds.held (h : Holds s e bytes) :
    e.committed.length - s.consumed.length + e.line.length = (bytes ++ e.line).length := by
  rw [← h.delivered, List.length_append, List.length_append]
  omega

theorem Holds.used_eq (h : Holds s e bytes) : used s.tty = (bytes ++ e.line).length := by
  rw [used, h.ring.tail]
  exact RingBuffer.used_eq h.ring.head h.ring.room

theorem Holds.val_lt (h : Holds s e bytes) : s.tty.val + s.tty.cursorPos < ttyBufSize := by
  have hcount := h.tokens.count
  have hroom := h.ring.room
  rw [List.length_append, ← h.cursor] at hroom
  omega

theorem Holds.waiting_not_woken (h : Holds s e bytes) (hp : p ∈ s.tty.waitQueue) : p ∉ s.tty.woken :=
  fun hw => (List.nodup_append.mp h.nodup).2.2 p hp p hw rfl

theorem Holds.erase (h : Holds s e bytes) (hc : s.tty.cursorPos > 0) :
    Holds { s with tty := ldiscWrite { s.tty with
        rxTail := (if s.tty.rxTail = 0 then ttyBufSize else s.tty.rxTail) - 1
        cursorPos := s.tty.cursorPos - 1 } [0x08, 0x20, 0x08] } { e with line := e.line.dropLast } bytes := by
  have hne : e.line ≠ [] := by
    intro hnil
    rw [h.cursor, hnil] at hc
    exact absurd hc (Nat.lt_irrefl 0)
  have hring := h.ring
  rw [← List.dropLast_append_getLast hne, ← List.append_assoc] at hring
  refine ⟨⟨hring.erase.head, hring.erase.tail, hring.erase.room, hring.erase.contents⟩, ⟨h.tokens.count, h.tokens.waiting⟩,
    ?_, h.delivered, h.nodup, h.calls⟩
  show s.tty.cursorPos - 1 = e.line.dropLast.length
  rw [h.cursor, List.length_dropLast]

def append (t : TtyCtrlBlk) (byte : UInt8) : TtyCtrlBlk :=
  { t with
    rxBuf := Function.update t.rxBuf t.rxTail byte
    rxTail := (t.rxTail + 1) % ttyBufSize
    cursorPos := t.cursorPos + 1 }

theorem Holds.append (h : Holds s e bytes) (hr : (bytes ++ e.line).length + 1 < ttyBufSize) (byte : UInt8) :
    Holds { s with tty := append s.tty byte } { e with line := e.line ++ [byte] } bytes := by
  have hring := h.ring.push hr byte
  rw [List.append_assoc] at hring
  refine ⟨⟨hring.head, hring.tail, hring.room, hring.contents⟩, ⟨h.tokens.count, h.tokens.waiting⟩, ?_, h.delivered,
    h.nodup, h.calls⟩
  show s.tty.cursorPos + 1 = (e.line ++ [byte]).length
  rw [h.cursor, List.length_append]
  rfl

theorem Holds.write (h : Holds s e bytes) (buf : List UInt8) : Holds { s with tty := ldiscWrite s.tty buf } e bytes :=
  ⟨⟨h.ring.head, h.ring.tail, h.ring.room, h.ring.contents⟩, ⟨h.tokens.count, h.tokens.waiting⟩, h.cursor, h.delivered,
    h.nodup, h.calls⟩

theorem Holds.commit (h : Holds s e bytes) : ∃ t', s.tty.signaln s.tty.cursorPos = some t' ∧
    Holds { s with tty := { t' with cursorPos := 0 } } ⟨e.committed ++ e.line, []⟩ (bytes ++ e.line) := by
  have hring := h.ring
  have hroom := hring.room
  rw [List.length_append] at hroom
  obtain ⟨t', ht', htok, hframe, hperm⟩ := h.tokens.signal (n := s.tty.cursorPos) (by rw [h.cursor]; exact hroom)
  simp only [Prod.mk.injEq] at hframe
  obtain ⟨hbuf, hhead, htail⟩ := hframe
  refine ⟨t', ht', ⟨?_, ?_, ?_, ?_⟩, ⟨?_, htok.waiting⟩, rfl, ?_, hperm.nodup_iff.mpr h.nodup, fun p hp => ?_⟩
  · rw [hhead]
    exact hring.head
  · simp only [hhead, htail, List.append_nil]
    exact hring.tail
  · rw [List.append_nil]
    exact hring.room
  · simp only [hhead, hbuf, List.append_nil]
    exact hring.contents
  · rw [List.length_append, ← h.cursor]
    exact htok.count
  · rw [← List.append_assoc, h.delivered]
  · exact h.calls p (hperm.mem_iff.mp hp)

theorem Holds.recv (h : Holds s e bytes) (byte : UInt8) : ∃ t' bytes', ldiscRecvByte s.tty byte = some t' ∧
    Holds { s with tty := t' } (follow s.consumed.length e (.recv byte)) bytes' := by
  rw [ldiscRecvByte, follow, edit, h.held]
  generalize (if byte = 0x0D then 0x0A else byte) = byte
  by_cases hdel : byte = 0x7F
  · rw [if_pos hdel, if_pos hdel]
    by_cases hc : s.tty.cursorPos > 0
    · rw [if_pos hc]
      exact ⟨_, bytes, rfl, h.erase hc⟩
    · rw [if_neg hc]
      have hnil : e.line = [] := List.length_eq_zero_iff.mp (by rw [← h.cursor]; omega)
      have hline : e.line.dropLast = e.line := by rw [hnil]; rfl
      rw [hline]
      exact ⟨_, bytes, rfl, h⟩
  · rw [if_neg hdel, if_neg hdel]
    have hroom := h.ring.room
    by_cases hfull : (bytes ++ e.line).length = ttyBufSize - 1
    · rw [if_pos (h.ring.full_iff.mpr hfull), if_pos (Nat.le_of_eq hfull.symm)]
      exact ⟨_, bytes, rfl, h⟩
    · have hlt : (bytes ++ e.line).length + 1 < ttyBufSize := by omega
      have happ := h.append hlt byte
      have hle : ¬ ttyBufSize - 1 ≤ (bytes ++ e.line).length := by omega
      rw [if_neg (fun hh => hfull (h.ring.full_iff.mp hh)), if_neg hle]
      by_cases hnl : byte = 0x0A
      · rw [if_pos hnl, if_pos hnl]
        obtain ⟨t', ht', hc⟩ := happ.commit
        refine ⟨ldiscWrite { t' with cursorPos := 0 } [byte], bytes ++ (e.line ++ [byte]), ?_, hc.write [byte]⟩
        exact Option.bind_eq_some_iff.mpr ⟨t', ht', rfl⟩
      · rw [if_neg hnl, if_neg hnl]
        exact ⟨_, bytes, rfl, happ.write [byte]⟩

/-- A reader that holds a token takes the first byte of a complete line. -/
theorem Holds.take {call : Call} (hring : Ring s.tty (byte :: bytes ++ e.line)) (htok : Tokens s.tty bytes.length)
    (hcur : s.tty.cursorPos = e.line.length) (hdel : s.consumed ++ byte :: bytes = e.committed)
    (hnd : (s.tty.waitQueue ++ s.tty.woken).Nodup) (hp : p ∉ s.tty.waitQueue ++ s.tty.woken)
    (hcalls : ∀ q ∈ s.tty.waitQueue ++ s.tty.woken, (s.reading q).isSome) : Holds (take s p call) e bytes := by
  obtain ⟨hb, hr⟩ := hring.take
  refine ⟨⟨hr.head, hr.tail, hr.room, hr.contents⟩, ⟨htok.count, htok.waiting⟩, hcur, ?_, hnd, fun q hq => ?_⟩
  · show (s.consumed ++ [s.tty.rxBuf s.tty.rxHead]) ++ bytes = e.committed
    rw [hb, List.append_assoc]
    exact hdel
  · have hqp : q ≠ p := by
      rintro rfl
      exact hp hq
    show (Function.update s.reading p _ q).isSome
    rw [Function.update_of_ne hqp]
    exact hcalls q hq

theorem Holds.read (h : Holds s e bytes) (hp : s.reading p = none) (call : Option Call) :
    Holds { s with reading := Function.update s.reading p call } e bytes := by
  refine ⟨h.ring, h.tokens, h.cursor, h.delivered, h.nodup, fun q hq => ?_⟩
  have hqp : q ≠ p := by
    rintro rfl
    exact absurd (h.calls q hq) (by simp [hp])
  show (Function.update s.reading p call q).isSome
  rw [Function.update_of_ne hqp]
  exact h.calls q hq

theorem Holds.wait (h : Holds s e bytes) (ha : Allowed s (.wait p)) :
    ∃ s' bytes', exec s (.wait p) = some s' ∧ Holds s' e bytes' := by
  obtain ⟨hcall, hq, hwk, hv⟩ := ha
  obtain ⟨call, hcall⟩ := Option.isSome_iff_exists.mp hcall
  have hdecr : decr s.tty.val = some (s.tty.val - 1) := if_pos hv
  have hp : p ∉ s.tty.waitQueue ++ s.tty.woken := by
    rw [List.mem_append]
    exact not_or.mpr ⟨hq, hwk⟩
  have hcount := h.tokens.count
  have hwait := h.tokens.waiting
  simp only [exec, hcall, hdecr, Option.bind_eq_bind, Option.bind_some]
  by_cases hneg : s.tty.val - 1 < 0
  · rw [if_pos hneg]
    refine ⟨_, bytes, rfl, ⟨h.ring.head, h.ring.tail, h.ring.room, h.ring.contents⟩, ⟨?_, ?_⟩, h.cursor, h.delivered, ?_,
      fun q hq => ?_⟩
    · show bytes.length = (s.tty.val - 1).toNat + s.tty.woken.length
      omega
    · show (s.tty.waitQueue ++ [p]).length = (-(s.tty.val - 1)).toNat
      rw [List.length_append, List.length_singleton]
      omega
    · show (s.tty.waitQueue ++ [p] ++ s.tty.woken).Nodup
      rw [List.append_assoc, List.singleton_append, List.perm_middle.nodup_iff, List.nodup_cons]
      exact ⟨hp, h.nodup⟩
    · have hq' : q = p ∨ q ∈ s.tty.waitQueue ++ s.tty.woken := by
        have hm : q ∈ s.tty.waitQueue ++ [p] ++ s.tty.woken := hq
        simp only [List.mem_append, List.mem_singleton] at hm ⊢
        tauto
      rcases hq' with rfl | hq'
      · exact Option.isSome_iff_exists.mpr ⟨call, hcall⟩
      · exact h.calls q hq'
  · rw [if_neg hneg]
    cases bytes with
    | nil =>
        rw [List.length_nil] at hcount
        omega
    | cons byte bytes =>
        rw [List.length_cons] at hcount
        refine ⟨_, bytes, rfl, Holds.take ⟨h.ring.head, h.ring.tail, h.ring.room, h.ring.contents⟩ ⟨?_, ?_⟩ h.cursor
          h.delivered h.nodup hp h.calls⟩
        · show bytes.length = (s.tty.val - 1).toNat + s.tty.woken.length
          omega
        · show s.tty.waitQueue.length = (-(s.tty.val - 1)).toNat
          omega

theorem Holds.resume (h : Holds s e bytes) (hw : p ∈ s.tty.woken) :
    ∃ s' bytes', exec s (.resume p) = some s' ∧ Holds s' e bytes' := by
  obtain ⟨call, hcall⟩ := Option.isSome_iff_exists.mp (h.calls p (List.mem_append_right _ hw))
  have hcount := h.tokens.count
  have hlen := List.length_erase_of_mem hw
  have hpos : 0 < s.tty.woken.length := List.length_pos_of_mem hw
  have hnd := h.nodup
  have hperm : (s.tty.waitQueue ++ s.tty.woken).Perm (p :: (s.tty.waitQueue ++ s.tty.woken.erase p)) :=
    ((List.perm_cons_erase hw).append_left _).trans List.perm_middle
  rw [hperm.nodup_iff, List.nodup_cons] at hnd
  simp only [exec, hcall, Option.bind_eq_bind, Option.bind_some]
  cases bytes with
  | nil =>
      rw [List.length_nil] at hcount
      omega
  | cons byte bytes =>
      rw [List.length_cons] at hcount
      refine ⟨_, bytes, rfl, Holds.take ⟨h.ring.head, h.ring.tail, h.ring.room, h.ring.contents⟩ ⟨?_, h.tokens.waiting⟩
        h.cursor h.delivered hnd.2 hnd.1 fun q hq => h.calls q (hperm.mem_iff.mpr (List.mem_cons_of_mem p hq))⟩
      show bytes.length = s.tty.val.toNat + (s.tty.woken.erase p).length
      omega

/-- Every operation that may come is carried out, and the editor follows. -/
theorem exec_holds {op : Op} (h : Holds s e bytes) (ha : Allowed s op) :
    ∃ s' bytes', exec s op = some s' ∧ Holds s' (follow s.consumed.length e op) bytes' := by
  cases op with
  | recv byte =>
      obtain ⟨t', bytes', ht', h'⟩ := h.recv byte
      exact ⟨_, bytes', Option.bind_eq_some_iff.mpr ⟨t', ht', rfl⟩, h'⟩
  | read p size => exact ⟨_, bytes, rfl, h.read ha _⟩
  | wait p => exact h.wait ha
  | resume p => exact h.resume ha

section Kernel

open KernelModel SchedInvariant SemHistory

/-- The semaphore of the terminal is this one of the kernel. -/
structure Projects (a : Model) (sem : SemRef) (t : TtyCtrlBlk) : Prop where
  val : t.val = a.semVal sem
  waitQueue : t.waitQueue = a.queue (.waitQueue sem)

variable {a : Model} {sem : SemRef}

/-- The signals of the terminal are those of the kernel, and the processes that
they wake become ready there. -/
theorem Projects.signal (h : Projects a sem t) (hi : Scheduled a) (hs : a.semInited sem)
    (hv : a.semVal sem + n ≤ i32Max) : ∃ t' woken, t.signaln n = some t' ∧ Projects (a.semSignaln sem n) sem t' ∧
      t'.woken = t.woken ++ woken ∧ ∀ p ∈ woken, ((a.semSignaln sem n).procs p).state = .ready := by
  have hsig := semSignaln_signalled hi hs n
  have hw : t.waitQueue.length = (-t.val).toNat := by rw [h.waitQueue, h.val, hi.count sem hs]
  refine ⟨_, t.waitQueue.take n, signaln_eq hw (by rw [h.val]; exact hv), ⟨?_, ?_⟩, rfl, fun p hp => ?_⟩
  · rw [hsig.val, Function.update_self, h.val]
  · rw [hsig.waiting, h.waitQueue]
  · rw [h.waitQueue] at hp
    rw [hsig.state, if_pos hp]

theorem Projects.wait (h : Projects a sem s.tty) (hx : exec s (.wait p) = some s') :
    Projects (a.semWait sem p) sem s'.tty := by
  obtain ⟨hval, -, hq⟩ := semWait_waiting a sem p
  obtain ⟨call, -, hx⟩ := Option.bind_eq_some_iff.mp hx
  obtain ⟨val, hd, hx⟩ := Option.bind_eq_some_iff.mp hx
  have hd' : s.tty.val - 1 = val := by
    rw [decr] at hd
    split at hd
    · exact Option.some.inj hd
    · cases hd
  have hb : (a.semWait sem p).semVal sem = val := by rw [hval, Function.update_self, ← h.val, hd']
  dsimp only at hx
  split at hx
  · cases hx
    refine ⟨hb.symm, ?_⟩
    rw [hq, if_pos ⟨rfl, by rw [← h.val]; omega⟩, ← h.waitQueue]
  · cases hx
    refine ⟨hb.symm, ?_⟩
    rw [hq, if_neg fun hn => by rw [← h.val] at hn; omega, ← h.waitQueue]
    rfl

end Kernel

theorem start_holds (h : Start s) : Holds s ⟨[], []⟩ [] := by
  refine ⟨⟨?_, ?_, by decide, rfl⟩, ⟨?_, ?_⟩, h.cursorPos, ?_, ?_, ?_⟩
  · rw [h.rxHead]
    decide
  · rw [h.rxHead, h.rxTail]
    rfl
  · rw [h.val, h.woken]
    rfl
  · rw [h.val, h.waitQueue]
    rfl
  · rw [h.consumed]
    rfl
  · rw [h.waitQueue, h.woken]
    exact List.nodup_nil
  · rw [h.waitQueue, h.woken]
    exact fun p hp => absurd hp List.not_mem_nil

theorem reached_exec (h : Reached (s, e)) (op : Op) (ha : Allowed s op) (hx : exec s op = some s') :
    Reached (s', follow s.consumed.length e op) := .next op h ⟨⟨ha, hx⟩, rfl⟩

theorem reached_holds (h : Reached (s, e)) : ∃ bytes, Holds s e bytes := by
  refine Reachable.invariant (I := fun x : Machine × Editor => ∃ bytes, Holds x.1 x.2 bytes) ?_ ?_ h
  · rintro ⟨s, e⟩ ⟨hs, rfl⟩
    exact ⟨[], start_holds hs⟩
  · rintro ⟨s, e⟩ op ⟨s', e'⟩ ⟨bytes, hb⟩ ⟨⟨ha, hx⟩, rfl⟩
    obtain ⟨s₁, bytes', hs₁, h'⟩ := exec_holds hb ha
    obtain rfl := Option.some.inj (hs₁.symm.trans hx)
    exact ⟨bytes', h'⟩

theorem Holds.unread_eq (h : Holds s e bytes) : unread s.tty = bytes := by
  have hc := h.ring.contents
  have hsub : used s.tty - s.tty.cursorPos = bytes.length := by
    rw [h.used_eq, h.cursor, List.length_append]
    omega
  rw [List.length_append, contents_add] at hc
  rw [unread, hsub]
  exact (List.append_inj hc (length_contents ..)).1

section Readers

structure Got where
  taken : List (ProcRef × UInt8)
  returned : List (ProcRef × List UInt8)

def Got.input (g : Got) (p : ProcRef) : List UInt8 := (g.taken.filter (·.1 = p)).map Prod.snd

def Got.buffers (g : Got) (p : ProcRef) : List (List UInt8) := (g.returned.filter (·.1 = p)).map Prod.snd

def Got.take (g : Got) (p : ProcRef) (call : Call) (byte : UInt8) : Got where
  taken := g.taken ++ [(p, byte)]
  returned :=
    if byte = 0x0A ∨ call.buf.length + 1 = call.size then g.returned ++ [(p, call.buf ++ [byte])] else g.returned

def record (s : Machine) (g : Got) : Op → Got
  | .recv _ | .read _ _ => g
  | .wait p => if 0 < s.tty.val then (s.reading p).elim g (g.take p · (s.tty.rxBuf s.tty.rxHead)) else g
  | .resume p => (s.reading p).elim g (g.take p · (s.tty.rxBuf s.tty.rxHead))

/-- The bytes of each process are those of its returned buffers, one after the
other, and of the buffer that it is filling. -/
structure Handed (s : Machine) (g : Got) : Prop where
  consumed : s.consumed = g.taken.map Prod.snd
  input (p : ProcRef) : g.input p = (g.buffers p).flatten ++ (s.reading p).elim [] Call.buf

variable {g : Got} {call : Call} {op : Op}

theorem Handed.take (h : Handed s g) (hc : s.reading p = some call) (t : TtyCtrlBlk) :
    Handed (Tty.take { s with tty := t } p call) (g.take p call (t.rxBuf t.rxHead)) := by
  constructor
  · rw [Got.take, List.map_append, ← h.consumed]
    rfl
  · intro q
    have hq := h.input q
    rw [Got.input, Got.buffers] at hq
    rw [take_reading, Got.input, Got.buffers, Got.take, List.filter_append, List.map_append, hq]
    by_cases hqp : q = p
    · subst hqp
      rw [hc]
      by_cases hdone : t.rxBuf t.rxHead = 0x0A ∨ call.buf.length + 1 = call.size
      · simp [hdone]
      · simp [hdone]
    · have hne : ¬ p = q := Ne.symm hqp
      by_cases hdone : t.rxBuf t.rxHead = 0x0A ∨ call.buf.length + 1 = call.size
      · simp [hdone, hqp, hne]
      · simp [hdone, hqp, hne]

theorem step_handed (h : Handed s g) (hs : Step s op s') : Handed s' (record s g op) := by
  obtain ⟨ha, hx⟩ := hs
  cases op with
  | recv byte =>
      obtain ⟨tty, -, hx⟩ := Option.bind_eq_some_iff.mp hx
      cases hx
      exact ⟨h.consumed, h.input⟩
  | read q size =>
      have hq : s.reading q = none := ha
      cases hx
      refine ⟨h.consumed, fun p => (h.input p).trans ?_⟩
      -- A call begins with an empty buffer.
      by_cases hpq : p = q
      · subst hpq
        show _ = _ ++ (Function.update s.reading p _ p).elim [] Call.buf
        rw [hq, Function.update_self]
        split
        · rfl
        · rfl
      · show _ = _ ++ (Function.update s.reading q _ p).elim [] Call.buf
        rw [Function.update_of_ne hpq]
        rfl
  | wait q =>
      obtain ⟨call, hc, ⟨hval, rfl⟩ | ⟨hval, rfl⟩⟩ := exec_wait hx
      · rw [record, if_neg (Int.not_lt.mpr hval)]
        exact ⟨h.consumed, h.input⟩
      · rw [record, if_pos hval, hc]
        exact h.take hc _
  | resume q =>
      obtain ⟨call, hc, rfl⟩ := exec_resume hx
      rw [record, hc]
      exact h.take hc _

def Served : Machine × Editor × Got → Prop :=
  Reachable (fun x => Start x.1 ∧ x.2 = (⟨[], []⟩, ⟨[], []⟩)) fun x op x' =>
    Step x.1 op x'.1 ∧ x'.2 = (follow x.1.consumed.length x.2.1 op, record x.1 x.2.2 op)

/-- In every run what the editor has committed has been taken by readers, or is still
unread, in this order. Each reader finds the bytes that it took in the buffers of
its calls. -/
theorem readers_handed (h : Served (s, e, g)) : g.taken.map Prod.snd ++ unread s.tty = e.committed ∧
    ∀ p, g.input p = (g.buffers p).flatten ++ (s.reading p).elim [] Call.buf := by
  have hboth : (∃ bytes, Holds s e bytes) ∧ Handed s g := by
    refine Reachable.invariant (I := fun x : Machine × Editor × Got => (∃ bytes, Holds x.1 x.2.1 bytes) ∧ Handed x.1 x.2.2)
      ?_ ?_ h
    · rintro ⟨s, e, g⟩ ⟨hs, hg⟩
      cases hg
      refine ⟨⟨[], start_holds hs⟩, hs.consumed, fun p => ?_⟩
      show [] = [] ++ (s.reading p).elim [] Call.buf
      rw [hs.reading]
      rfl
    · rintro ⟨s, e, g⟩ op ⟨s', e', g'⟩ ⟨⟨bytes, hb⟩, hg⟩ ⟨hs, hnext⟩
      cases hnext
      obtain ⟨s₁, bytes', hs₁, h'⟩ := exec_holds hb hs.1
      obtain rfl := Option.some.inj (hs₁.symm.trans hs.2)
      exact ⟨⟨bytes', h'⟩, step_handed hg hs⟩
  obtain ⟨⟨bytes, hb⟩, hg⟩ := hboth
  rw [← hg.consumed, hb.unread_eq]
  exact ⟨hb.delivered, hg.input⟩

end Readers

/-- In every run the bytes that readers have taken, followed by the complete
lines in the ring, are what the line editor has made of the input. What is left
in the ring is its current line, there is a token for each byte of a complete
line, and every operation that may come is carried out. -/
theorem tty_delivers (h : Reached (s, e)) :
    s.consumed ++ unread s.tty = e.committed ∧
    contents ttyBufSize s.tty.rxBuf s.tty.rxHead (used s.tty) = unread s.tty ++ e.line ∧
    (used s.tty : Int) = s.tty.cursorPos + max s.tty.val 0 + s.tty.woken.length ∧
    ∀ op, Allowed s op → ∃ s', Step s op s' := by
  obtain ⟨bytes, hb⟩ := reached_holds h
  have hring := hb.ring
  have hused := hb.used_eq
  have hunread := hb.unread_eq
  refine ⟨by rw [hunread, hb.delivered], by rw [hunread, hused, hring.contents], ?_, fun op ha => ?_⟩
  · have hcount := hb.tokens.count
    rw [hused, hb.cursor, List.length_append]
    omega
  · obtain ⟨s', -, hs', -⟩ := exec_holds hb ha
    exact ⟨s', ha, hs'⟩

def blank : Machine := ⟨⟨fun _ => 0, 0, 0, 0, 0, [], [], []⟩, fun _ => none, []⟩

theorem blank_start : Start blank := ⟨rfl, rfl, rfl, rfl, rfl, rfl, fun _ => rfl, rfl⟩

/-- The init process blocks in `read`. The bytes `a` and carriage return come in,
and it takes the first of the two bytes of the line. -/
theorem tty_delivers_line : ∃ s e, Reached (s, e) ∧ e.committed = [0x61, 0x0A] ∧ s.consumed = [0x61] ∧
    s.consumed ++ unread s.tty = e.committed := by
  have h₀ : Reached (blank, ⟨[], []⟩) := .start ⟨blank_start, rfl⟩
  have h₁ := reached_exec h₀ (.read .initProc 8) rfl rfl
  have h₂ := reached_exec h₁ (.wait .initProc) ⟨rfl, nofun, nofun, by decide⟩ rfl
  have h₃ := reached_exec h₂ (.recv 0x61) trivial rfl
  have h₄ := reached_exec h₃ (.recv 0x0D) trivial rfl
  have h₅ := reached_exec h₄ (.resume .initProc) List.mem_cons_self rfl
  exact ⟨_, _, h₅, rfl, rfl, (tty_delivers h₅).1⟩

end Karg.TtyDelivery
