import Karg.Log
import Karg.RingBuffer
import Mathlib.Data.List.DropRight

namespace Karg.LogFlush

open Log RingBuffer

structure Start (l : State) : Prop where
  inited : l.inited = false
  head : l.logHead = 0
  tail : l.logTail = 0
  devWrites : l.devWrites = []

def newest (logged : List UInt8) : List UInt8 := logged.rtake (logBufSize - 1)

def used (n : Nat) : Nat := min n (logBufSize - 1)

theorem used_le (n : Nat) : used n ≤ n := Nat.min_le_left ..

theorem used_lt (n : Nat) : used n < logBufSize := Nat.lt_of_le_of_lt (Nat.min_le_right ..) (by decide)

structure Kept (l : State) (logged : List UInt8) : Prop where
  inited : l.inited = false
  tail : l.logTail = logged.length % logBufSize
  head : l.logHead = (logged.length - used logged.length) % logBufSize
  buf : contents logBufSize l.logBuf l.logHead (used logged.length) = newest logged
  devWrites : l.devWrites = []

variable {l : State} {logged : List UInt8}

theorem Start.kept (h : Start l) : Kept l [] where
  inited := h.inited
  tail := h.tail
  head := h.head
  buf := by simp [used, newest]
  devWrites := h.devWrites

theorem Kept.head_lt (h : Kept l logged) : l.logHead < logBufSize := by
  rw [h.head]
  exact Nat.mod_lt _ (by decide)

theorem Kept.tail_eq (h : Kept l logged) : l.logTail = (l.logHead + used logged.length) % logBufSize := by
  rw [h.tail, h.head, Nat.mod_add_mod, Nat.sub_add_cancel (used_le _)]

theorem newest_room (h : logged.length ≤ logBufSize - 1) : newest logged = logged := by
  rw [newest, List.rtake, Nat.sub_eq_zero_of_le h, List.drop_zero]

theorem newest_full (byte : UInt8) (h : logBufSize - 1 ≤ logged.length) :
    newest (logged ++ [byte]) = (newest logged ++ [byte]).tail := by
  have he : (logged ++ [byte]).length - (logBufSize - 1) = logged.length - (logBufSize - 1) + 1 := by
    rw [List.length_append, List.length_singleton]
    omega
  rw [newest, List.rtake, he, ← List.drop_drop, List.drop_append_of_le_length (Nat.sub_le ..), List.drop_one]
  rfl

theorem Kept.tail_succ (h : Kept l logged) : (l.logTail + 1) % logBufSize = (logged.length + 1) % logBufSize := by
  rw [h.tail, Nat.mod_add_mod]

theorem writeByte_room (h : Kept l logged) (byte : UInt8) (hroom : logged.length < logBufSize - 1) :
    Kept (writeByte l byte) (logged ++ [byte]) := by
  have hu : used logged.length = logged.length := Nat.min_eq_left (Nat.le_of_lt hroom)
  have hu' : used (logged ++ [byte]).length = (logged ++ [byte]).length := by
    rw [List.length_append]
    exact Nat.min_eq_left hroom
  have hhead : l.logHead = 0 := by rw [h.head, hu, Nat.sub_self, Nat.zero_mod]
  have hne : (l.logTail + 1) % logBufSize ≠ l.logHead := by
    rw [h.tail_succ, hhead, Nat.mod_eq_of_lt (Nat.add_lt_of_lt_sub hroom)]
    exact Nat.succ_ne_zero _
  rw [writeByte, if_neg hne]
  constructor
  · exact h.inited
  · rw [List.length_append]
    exact h.tail_succ
  · rw [hu', Nat.sub_self]
    exact hhead
  · have hpush : contents logBufSize (Function.update l.logBuf ((l.logHead + used logged.length) % logBufSize) byte)
        l.logHead (used logged.length + 1) = _ := contents_push (used_lt logged.length) byte
    rw [← h.tail_eq, h.buf, newest_room (Nat.le_of_lt hroom), hu] at hpush
    rw [hu', newest_room (by rw [List.length_append]; exact hroom), List.length_append]
    exact hpush
  · exact h.devWrites

theorem writeByte_full (h : Kept l logged) (byte : UInt8) (hfull : logBufSize - 1 ≤ logged.length) :
    Kept (writeByte l byte) (logged ++ [byte]) := by
  have hsize : logBufSize = 4096 := rfl
  have hu : used logged.length = logBufSize - 1 := Nat.min_eq_right hfull
  have hu' : used (logged ++ [byte]).length = used logged.length := by
    rw [hu, List.length_append]
    exact Nat.min_eq_right (Nat.le_succ_of_le hfull)
  have heq : (l.logTail + 1) % logBufSize = l.logHead := by
    rw [h.tail_succ, h.head, hu]
    rw [hsize] at hfull ⊢
    omega
  rw [writeByte, if_pos heq]
  constructor
  · exact h.inited
  · rw [List.length_append]
    exact h.tail_succ
  · have hhead : (l.logHead + 1) % logBufSize = (logged.length + 1 - used logged.length) % logBufSize := by
      rw [h.head, Nat.mod_add_mod, Nat.sub_add_comm (used_le _)]
    rw [hu', List.length_append]
    exact hhead
  · rw [hu', newest_full byte hfull, ← h.buf, ← contents_shift h.head_lt (used_lt _), ← h.tail_eq]
  · exact h.devWrites

theorem writeByte_kept (h : Kept l logged) (byte : UInt8) : Kept (writeByte l byte) (logged ++ [byte]) := by
  rcases Nat.lt_or_ge logged.length (logBufSize - 1) with hroom | hfull
  · exact writeByte_room h byte hroom
  · exact writeByte_full h byte hfull

theorem foldl_writeByte_kept (h : Kept l logged) (str : List UInt8) : Kept (str.foldl writeByte l) (logged ++ str) := by
  induction str generalizing l logged with
  | nil => simpa using h
  | cons byte str ih =>
      have hrest := ih (writeByte_kept h byte)
      rwa [List.append_assoc, List.singleton_append] at hrest

theorem write_kept (h : Kept l logged) (str : List UInt8) : Kept (write l str) (logged ++ str) := by
  rw [write, h.inited]
  exact foldl_writeByte_kept h str

theorem writes_kept (h : Kept l logged) (strs : List (List UInt8)) :
    Kept (strs.foldl write l) (logged ++ strs.flatten) := by
  induction strs generalizing l logged with
  | nil => simpa using h
  | cons str strs ih =>
      have hrest := ih (write_kept h str)
      rwa [List.append_assoc] at hrest

theorem Start.writes (h : Start l) (strs : List (List UInt8)) : Kept (strs.foldl write l) strs.flatten := by
  have hk := writes_kept h.kept strs
  rwa [List.nil_append] at hk

def held (l : State) : List UInt8 :=
  contents logBufSize l.logBuf l.logHead ((l.logTail + logBufSize - l.logHead) % logBufSize)

structure Newest (l : State) (logged : List UInt8) : Prop where
  head : l.logHead < logBufSize
  tail : l.logTail < logBufSize
  held : held l = logged.rtake (min logged.length (logBufSize - 1))

theorem Kept.tail_lt (h : Kept l logged) : l.logTail < logBufSize := by
  rw [h.tail]
  exact Nat.mod_lt _ (by decide)

/-- A full ring and an empty one differ, since one slot stays unused. -/
theorem Kept.count (h : Kept l logged) : (l.logTail + logBufSize - l.logHead) % logBufSize = used logged.length := by
  rw [h.tail_eq]
  exact used_eq h.head_lt (used_lt _)

theorem newest_eq (logged : List UInt8) : newest logged = logged.rtake (used logged.length) := by
  rcases Nat.le_total logged.length (logBufSize - 1) with hle | hge
  · rw [newest_room hle, used, Nat.min_eq_left hle, List.rtake, Nat.sub_self, List.drop_zero]
  · rw [newest, used, Nat.min_eq_right hge]

theorem Kept.holds_newest (h : Kept l logged) : Newest l logged where
  head := h.head_lt
  tail := h.tail_lt
  held := by
    rw [held, h.count, h.buf]
    exact newest_eq logged

/-- The buffer holds the newest bytes after any calls of `write`, and also while the
bytes of another call are being written. -/
theorem log_ring_newest (l : State) (h : Start l) (strs : List (List UInt8)) :
    Newest (strs.foldl write l) strs.flatten ∧
      ∀ part, Newest (part.foldl writeByte (strs.foldl write l)) (strs.flatten ++ part) := by
  have hk := h.writes strs
  exact ⟨hk.holds_newest, fun part => (foldl_writeByte_kept hk part).holds_newest⟩

def blank : State := ⟨false, fun _ => 0, 0, 0, []⟩

theorem blank_start : Start blank := ⟨rfl, rfl, rfl, rfl⟩

/-- Two calls of which the first alone fills the array. -/
theorem log_ring_newest_wrapped : held ([List.replicate logBufSize 1, [2]].foldl write blank) =
    List.replicate (logBufSize - 2) 1 ++ [2] := by
  have hflat : [List.replicate logBufSize (1 : UInt8), [2]].flatten = List.replicate logBufSize 1 ++ [2] := rfl
  have hdrop : logBufSize + 1 - min (logBufSize + 1) (logBufSize - 1) = 2 := by decide
  rw [(log_ring_newest blank blank_start [List.replicate logBufSize 1, [2]]).1.held, hflat, List.rtake,
    List.length_append, List.length_replicate, List.length_singleton, hdrop, List.drop_append_of_le_length,
    List.drop_replicate]
  rw [List.length_replicate]
  decide

theorem flush_two (hw : l.logTail < l.logHead) : (flush l).devWrites.flatten = l.devWrites.flatten ++
    (List.range' l.logHead (logBufSize - l.logHead)).map l.logBuf ++ (List.range l.logTail).map l.logBuf := by
  have he : flush l = devWrite (devWrite l ((List.range' l.logHead (logBufSize - l.logHead)).map l.logBuf))
      ((List.range l.logTail).map l.logBuf) := if_pos hw
  simp only [he, devWrite, List.flatten_append, List.flatten_singleton]

theorem flush_one (hw : ¬ l.logTail < l.logHead) : (flush l).devWrites.flatten = l.devWrites.flatten ++
    (List.range' l.logHead (logBufSize - l.logHead)).map l.logBuf := by
  have he : flush l = devWrite l ((List.range' l.logHead (logBufSize - l.logHead)).map l.logBuf) := if_neg hw
  simp only [he, devWrite, List.flatten_append, List.flatten_singleton]

theorem Kept.flush_wrapped (h : Kept l logged) (hw : l.logTail < l.logHead) :
    (flush l).devWrites.flatten = newest logged := by
  have hhead := h.head_lt
  have hused : used logged.length = logBufSize - l.logHead + l.logTail := by
    rw [← h.count, Nat.mod_eq_of_lt (by omega)]
    omega
  have hend : (l.logHead + (logBufSize - l.logHead)) % logBufSize = 0 := by
    rw [Nat.add_sub_cancel' (Nat.le_of_lt hhead), Nat.mod_self]
  rw [flush_two hw, h.devWrites, ← h.buf, hused, contents_add, hend, contents_unwrapped (by omega),
    contents_unwrapped (by omega), List.range_eq_range']
  rfl

theorem Kept.flush_long (h : Kept l logged) (hw : ¬ l.logTail < l.logHead) :
    (newest logged).length < (flush l).devWrites.flatten.length := by
  have htail := h.tail_lt
  have hnew : (newest logged).length = l.logTail - l.logHead := by
    rw [← h.buf, length_contents, ← h.count, Nat.sub_add_comm (Nat.le_of_not_lt hw), Nat.add_mod_right,
      Nat.mod_eq_of_lt (by omega)]
  rw [flush_one hw, h.devWrites, hnew]
  simp only [List.flatten_nil, List.nil_append, List.length_map, List.length_range']
  omega

theorem Kept.wrapped_iff (h : Kept l logged) : l.logTail < l.logHead ↔
    logBufSize ≤ logged.length ∧ logged.length % logBufSize ≠ logBufSize - 1 := by
  have hsize : logBufSize = 4096 := rfl
  rw [h.tail, h.head, used, hsize]
  omega

/-- Whatever the sizes of the calls of `write`, the bytes that `flush` hands over
are those kept exactly when the buffer runs over the end of its array. -/
theorem flush_newest_iff (l : State) (h : Start l) (strs : List (List UInt8)) :
    (flush (strs.foldl write l)).devWrites.flatten = newest strs.flatten ↔
      logBufSize ≤ strs.flatten.length ∧ strs.flatten.length % logBufSize ≠ logBufSize - 1 := by
  have hk := h.writes strs
  rw [← hk.wrapped_iff]
  constructor
  · intro he
    by_contra hw
    exact absurd (congrArg List.length he) (Nat.ne_of_gt (hk.flush_long hw))
  · exact hk.flush_wrapped

theorem flush_newest_iff_wrapped :
    (flush ([List.replicate logBufSize 1].foldl write blank)).devWrites.flatten =
      newest [List.replicate logBufSize 1].flatten := by
  refine (flush_newest_iff blank blank_start [List.replicate logBufSize 1]).mpr ?_
  rw [List.flatten_singleton, List.length_replicate]
  decide

/-- One byte is logged, and the whole array is handed over. -/
theorem flush_whole_array : (newest [[0x41]].flatten).length = 1 ∧
    (flush ([[0x41]].foldl write blank)).devWrites.flatten.length = logBufSize := by
  have hhead : ([[0x41]].foldl write blank).logHead = 0 := by decide
  have hw : ¬ ([[0x41]].foldl write blank).logTail < ([[0x41]].foldl write blank).logHead := by
    rw [hhead]
    exact Nat.not_lt_zero _
  constructor
  · rw [newest_room (by decide)]
    rfl
  · rw [flush_one hw, hhead, List.length_append, List.length_map, List.length_range']
    rfl

end Karg.LogFlush
