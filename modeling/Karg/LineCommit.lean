import Karg.TtyDelivery

namespace Karg.LineCommit

open Process Execution Tty TtyDelivery KernelModel SchedInvariant SemHistory

structure Commits (line : Nat) (t t' : TtyCtrlBlk) : Prop where
  cursorPos : t'.cursorPos = 0
  signalled : t.val + line ≤ t'.val
  reader (p : ProcRef) (rest : List ProcRef) : t.waitQueue = p :: rest → p ∈ t'.woken

def ended (t : TtyCtrlBlk) : TtyCtrlBlk :=
  ldiscWrite { append t 0x0A with
    cursorPos := 0
    val := t.val + (t.cursorPos + 1 : Nat)
    waitQueue := t.waitQueue.drop (t.cursorPos + 1)
    woken := t.woken ++ t.waitQueue.take (t.cursorPos + 1) } [0x0A]

variable {s : Machine} {e : Editor} {t : TtyCtrlBlk} {bytes : List UInt8} {byte : UInt8}

theorem ended_commits (t : TtyCtrlBlk) : Commits (t.cursorPos + 1) t (ended t) where
  cursorPos := rfl
  signalled := Int.le_refl _
  reader p rest hq := by
    show p ∈ t.woken ++ t.waitQueue.take (t.cursorPos + 1)
    rw [hq, List.take_succ_cons]
    exact List.mem_append_right _ List.mem_cons_self

theorem Commits.less {line : Nat} {t' : TtyCtrlBlk} (h : Commits (line + 1) t t') : Commits line t t' where
  cursorPos := h.cursorPos
  signalled := by
    have hs := h.signalled
    omega
  reader := h.reader

theorem recv_ended (h : Holds s e bytes) (hb : byte = 0x0D ∨ byte = 0x0A) (hn : used s.tty ≠ ttyBufSize - 1) :
    ldiscRecvByte s.tty byte = some (ended s.tty) := by
  have hbyte : (if byte = 0x0D then 0x0A else byte) = 0x0A := by
    rcases hb with rfl | rfl <;> rfl
  have hroom : ¬ (s.tty.rxTail + 1) % ttyBufSize = s.tty.rxHead := by
    rw [h.ring.full_iff, ← h.used_eq]
    exact hn
  have hval := h.val_lt
  have hsig : (append s.tty 0x0A).signaln (s.tty.cursorPos + 1) = some { append s.tty 0x0A with
      val := s.tty.val + (s.tty.cursorPos + 1 : Nat)
      waitQueue := s.tty.waitQueue.drop (s.tty.cursorPos + 1)
      woken := s.tty.woken ++ s.tty.waitQueue.take (s.tty.cursorPos + 1) } :=
    signaln_eq h.tokens.waiting (by simp only [append, ttyBufSize, i32Max] at hval ⊢; omega)
  rw [ldiscRecvByte]
  simp only [hbyte]
  rw [if_neg (by decide), if_neg hroom, if_pos trivial]
  exact Option.bind_eq_some_iff.mpr ⟨_, hsig, rfl⟩

/-- A full ring takes no byte, not even the end of a line. -/
theorem recv_full (h : Holds s e bytes) (hb : byte = 0x0D ∨ byte = 0x0A) (hn : used s.tty = ttyBufSize - 1) :
    ldiscRecvByte s.tty byte = some s.tty := by
  have hbyte : (if byte = 0x0D then 0x0A else byte) = 0x0A := by
    rcases hb with rfl | rfl <;> rfl
  rw [h.used_eq] at hn
  rw [ldiscRecvByte]
  simp only [hbyte]
  rw [if_neg (by decide), if_pos (h.ring.full_iff.mpr hn)]

theorem commits_same_iff (h : Holds s e bytes) {line : Nat} :
    Commits line s.tty s.tty ↔ line = 0 ∧ s.tty.cursorPos = 0 ∧ s.tty.waitQueue = [] := by
  constructor
  · intro hc
    have hs := hc.signalled
    refine ⟨by omega, hc.cursorPos, ?_⟩
    cases hq : s.tty.waitQueue with
    | nil => rfl
    | cons p rest => exact absurd (hc.reader p rest hq) (h.waiting_not_woken (by rw [hq]; exact List.mem_cons_self))
  · rintro ⟨rfl, hc, hq⟩
    refine ⟨hc, Int.le_of_eq (Int.add_zero _), fun p rest hp => ?_⟩
    rw [hq] at hp
    cases hp

/-- The end of a line is always taken by the terminal. It commits what has been
typed unless the ring is full and something has been typed or a reader waits; it
commits the line with its end unless the ring is full. -/
theorem end_of_line_commits_iff (s : Machine) (e : Editor) (byte : UInt8) (h : Reached (s, e))
    (hb : byte = 0x0D ∨ byte = 0x0A) : ∃ t', ldiscRecvByte s.tty byte = some t' ∧
      (Commits s.tty.cursorPos s.tty t' ↔
        used s.tty ≠ ttyBufSize - 1 ∨ s.tty.cursorPos = 0 ∧ s.tty.waitQueue = []) ∧
      (Commits (s.tty.cursorPos + 1) s.tty t' ↔ used s.tty ≠ ttyBufSize - 1) ∧
      ∀ a sem, Projects a sem s.tty → Scheduled a → a.semInited sem → used s.tty ≠ ttyBufSize - 1 →
        ∀ p rest, s.tty.waitQueue = p :: rest →
          ((a.semSignaln sem (s.tty.cursorPos + 1)).procs p).state = .ready := by
  obtain ⟨bytes, hh⟩ := reached_holds h
  by_cases hn : used s.tty = ttyBufSize - 1
  · refine ⟨s.tty, recv_full hh hb hn, ?_, ?_, fun a sem _ _ _ hne => absurd hn hne⟩
    · rw [commits_same_iff hh]
      simp [hn]
    · rw [commits_same_iff hh]
      simp [hn]
  · refine ⟨ended s.tty, recv_ended hh hb hn, ?_, ?_, ?_⟩
    · exact iff_of_true (ended_commits s.tty).less (.inl hn)
    · exact iff_of_true (ended_commits s.tty) hn
    · intro a sem hproj hs hi _ p rest hq
      rw [(semSignaln_signalled hs hi _).state, ← hproj.waitQueue, hq, List.take_succ_cons, if_pos List.mem_cons_self]

theorem typed_reached (n : Nat) (hn : n < ttyBufSize) :
    ∃ s, Reached (s, ⟨[], List.replicate n 0x61⟩) ∧ s.tty.waitQueue = [.initProc] := by
  have hcr : (if (0x61 : UInt8) = 0x0D then 0x0A else 0x61) = (0x61 : UInt8) := rfl
  have hdel : (0x61 : UInt8) ≠ 0x7F := by decide
  have hnl : (0x61 : UInt8) ≠ 0x0A := by decide
  induction n with
  | zero =>
      have h₀ : Reached (blank, ⟨[], []⟩) := .start ⟨blank_start, rfl⟩
      have h₁ := reached_exec h₀ (.read .initProc 8) rfl rfl
      have h₂ := reached_exec h₁ (.wait .initProc) ⟨rfl, nofun, nofun, by decide⟩ rfl
      exact ⟨_, h₂, rfl⟩
  | succ n ih =>
      obtain ⟨s, hs, hq⟩ := ih (Nat.lt_of_succ_lt hn)
      obtain ⟨bytes, hh⟩ := reached_holds hs
      obtain ⟨-, rfl⟩ := List.append_eq_nil_iff.mp hh.delivered
      have hlen : ([] ++ List.replicate n (0x61 : UInt8)).length = n := List.length_replicate
      have hroom : ¬ (s.tty.rxTail + 1) % ttyBufSize = s.tty.rxHead := by
        rw [hh.ring.full_iff, hlen]
        omega
      have hx : exec s (.recv 0x61) = some { s with tty := ldiscWrite (append s.tty 0x61) [0x61] } := by
        simp only [exec, ldiscRecvByte, hcr]
        rw [if_neg hdel, if_neg hroom, if_neg hnl]
        rfl
      have hnext := reached_exec hs (.recv 0x61) trivial hx
      have hedit : follow s.consumed.length ⟨[], List.replicate n 0x61⟩ (.recv 0x61) =
          ⟨[], List.replicate (n + 1) 0x61⟩ := by
        simp only [follow, hh.held, hlen, edit, hcr, List.replicate_succ']
        rw [if_neg hdel, if_neg (Nat.not_le_of_lt (Nat.lt_sub_of_add_lt hn)), if_neg hnl]
      rw [hedit] at hnext
      exact ⟨_, hnext, hq⟩

theorem end_of_line_commits_iff_typed : ∃ s e t', Reached (s, e) ∧ ldiscRecvByte s.tty 0x0D = some t' ∧
    Commits (s.tty.cursorPos + 1) s.tty t' := by
  obtain ⟨s, hs, -⟩ := typed_reached 1 (by decide)
  obtain ⟨bytes, hh⟩ := reached_holds hs
  obtain ⟨-, rfl⟩ := List.append_eq_nil_iff.mp hh.delivered
  obtain ⟨t', ht', -, hc, -⟩ := end_of_line_commits_iff s _ 0x0D hs (.inl rfl)
  refine ⟨s, _, t', hs, ht', hc.mpr ?_⟩
  rw [hh.used_eq]
  decide

/-- The init process waits for a line, 127 bytes are typed, and then its end. -/
theorem end_of_line_lost : ∃ s e, Reached (s, e) ∧ s.tty.waitQueue = [.initProc] ∧ s.tty.cursorPos = 127 ∧
    ldiscRecvByte s.tty 0x0A = some s.tty := by
  obtain ⟨s, hs, hq⟩ := typed_reached 127 (by decide)
  obtain ⟨bytes, hh⟩ := reached_holds hs
  obtain ⟨-, rfl⟩ := List.append_eq_nil_iff.mp hh.delivered
  refine ⟨s, _, hs, hq, ?_, recv_full hh (.inr rfl) ?_⟩
  · rw [hh.cursor, List.length_replicate]
  · rw [hh.used_eq, List.nil_append, List.length_replicate]
    rfl

end Karg.LineCommit
