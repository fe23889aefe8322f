import Karg.Execution

namespace Karg.Uart

open Execution

def lsrThre : UInt8 := 0x20

inductive Access
  | lsr (val : UInt8)
  | thr (val : UInt8)

/-- A device: what the reads of LSR find, one after the other, how many there
have been, and all accesses so far. -/
structure Line where
  lsr : Nat → UInt8
  reads : Nat
  log : List Access

def ready (val : UInt8) : Bool := val &&& lsrThre ≠ 0

def Line.readLsr (l : Line) : Line := { l with reads := l.reads + 1, log := l.log ++ [.lsr (l.lsr l.reads)] }

def Line.writeThr (l : Line) (val : UInt8) : Line := { l with log := l.log ++ [.thr val] }

def waitThre (l : Line) : Nat → Option Line
  | 0 => none
  | fuel + 1 => if ready (l.lsr l.reads) then some l.readLsr else waitThre l.readLsr fuel

def write (fuel : Nat) (l : Line) : List UInt8 → Option Line
  | [] => some l
  | byte :: buf => do
      let l ← waitThre l fuel
      write fuel (l.writeThr byte) buf

/-- The accesses that send `buf` from the read number `i` on: before each byte
LSR is read until it says that the transmitter is empty. -/
inductive Paced (lsr : Nat → UInt8) : Nat → List Access → List UInt8 → Prop
  | done (i) : Paced lsr i [] []
  | wait {i log buf} (hb : ready (lsr i) = false) (h : Paced lsr (i + 1) log buf) :
      Paced lsr i (.lsr (lsr i) :: log) buf
  | send {i log buf} (byte) (hr : ready (lsr i)) (h : Paced lsr (i + 1) log buf) :
      Paced lsr i (.lsr (lsr i) :: .thr byte :: log) (byte :: buf)

def readyReads (lsr : Nat → UInt8) (i n : Nat) : Nat := (List.range' i n).countP fun j => ready (lsr j)

variable {l l' : Line} {fuel n i : Nat} {buf : List UInt8} {log : List Access} {lsr : Nat → UInt8}

theorem readyReads_succ (lsr : Nat → UInt8) (i n : Nat) :
    readyReads lsr i (n + 1) = readyReads lsr (i + 1) n + if ready (lsr i) then 1 else 0 := by
  rw [readyReads, List.range'_succ, List.countP_cons, readyReads]

theorem waitThre_lsr (hw : waitThre l fuel = some l') : l'.lsr = l.lsr := by
  induction fuel generalizing l with
  | zero => cases hw
  | succ fuel ih =>
      rw [waitThre] at hw
      split at hw
      next =>
        cases hw
        rfl
      next => exact ih (l := l.readLsr) hw

theorem write_lsr (hw : write fuel l buf = some l') : l'.lsr = l.lsr := by
  induction buf generalizing l with
  | nil =>
      cases hw
      rfl
  | cons byte buf ih =>
      rw [write, Option.bind_eq_bind, Option.bind_eq_some_iff] at hw
      obtain ⟨l₁, hwait, hw⟩ := hw
      have hlsr : l₁.lsr = l.lsr := waitThre_lsr hwait
      exact (ih hw).trans hlsr

theorem waitThre_paced (hw : waitThre l fuel = some l') (byte : UInt8) {next : List Access}
    (h : Paced l.lsr l'.reads next buf) :
    ∃ log, l'.log = l.log ++ log ∧ Paced l.lsr l.reads (log ++ .thr byte :: next) (byte :: buf) := by
  induction fuel generalizing l with
  | zero => cases hw
  | succ fuel ih =>
      rw [waitThre] at hw
      split at hw
      next hr =>
        cases hw
        exact ⟨[.lsr (l.lsr l.reads)], rfl, .send byte hr h⟩
      next hr =>
        obtain ⟨log, hlog, hp⟩ := ih hw h
        refine ⟨.lsr (l.lsr l.reads) :: log, ?_, .wait (by simpa using hr) hp⟩
        rw [hlog, Line.readLsr, List.append_assoc, List.singleton_append]

theorem write_paced (hw : write fuel l buf = some l') :
    ∃ log, l'.log = l.log ++ log ∧ Paced l.lsr l.reads log buf := by
  induction buf generalizing l with
  | nil =>
      cases hw
      exact ⟨[], (List.append_nil _).symm, .done _⟩
  | cons byte buf ih =>
      rw [write, Option.bind_eq_bind, Option.bind_eq_some_iff] at hw
      obtain ⟨l₁, hwait, hw⟩ := hw
      obtain ⟨next, hnext, hp⟩ := ih hw
      obtain ⟨log, hlog, hp'⟩ := waitThre_paced hwait byte (waitThre_lsr hwait ▸ hp)
      refine ⟨log ++ .thr byte :: next, ?_, hp'⟩
      rw [hnext, Line.writeThr, hlog, List.append_assoc, List.append_assoc, List.singleton_append]

theorem Paced.ready_reads (h : Paced lsr i log buf) : ∃ n, buf.length ≤ readyReads lsr i n := by
  induction h with
  | done i => exact ⟨0, Nat.le_refl _⟩
  | wait hb _ ih =>
      obtain ⟨n, hn⟩ := ih
      refine ⟨n + 1, ?_⟩
      rw [readyReads_succ, hb]
      exact hn
  | send byte hr _ ih =>
      obtain ⟨n, hn⟩ := ih
      refine ⟨n + 1, ?_⟩
      rw [readyReads_succ, if_pos hr, List.length_cons]
      omega

theorem waitThre_converges (h : 0 < readyReads l.lsr l.reads n) : ∃ l', Converges (waitThre l) l' ∧ l'.lsr = l.lsr ∧
    ∃ n', readyReads l.lsr l.reads n = readyReads l.lsr l'.reads n' + 1 := by
  induction n generalizing l with
  | zero => exact absurd h (Nat.lt_irrefl 0)
  | succ n ih =>
      rw [readyReads_succ] at h ⊢
      by_cases hr : ready (l.lsr l.reads)
      · refine ⟨l.readLsr, ⟨1, fun fuel hfuel => ?_⟩, rfl, n, by rw [if_pos hr]; rfl⟩
        obtain ⟨fuel, rfl⟩ := Nat.exists_eq_add_of_le' hfuel
        rw [waitThre, if_pos hr]
      · rw [if_neg hr] at h ⊢
        obtain ⟨l', ⟨N, hN⟩, hlsr, n', hn'⟩ := ih (l := l.readLsr) h
        refine ⟨l', ⟨N + 1, fun fuel hfuel => ?_⟩, hlsr, n', hn'⟩
        obtain ⟨fuel, rfl⟩ := Nat.exists_eq_add_of_le' (Nat.le_trans (Nat.le_add_left 1 N) hfuel)
        rw [waitThre, if_neg hr]
        exact hN fuel (by omega)

theorem write_converges (h : buf.length ≤ readyReads l.lsr l.reads n) :
    ∃ l', Converges (fun fuel => write fuel l buf) l' := by
  induction buf generalizing l n with
  | nil => exact ⟨l, .of_forall fun _ => rfl⟩
  | cons byte buf ih =>
      rw [List.length_cons] at h
      obtain ⟨l₁, hwait, hlsr, n', hn'⟩ := waitThre_converges (Nat.lt_of_lt_of_le (Nat.succ_pos _) h)
      have hrest : buf.length ≤ readyReads l₁.lsr l₁.reads n' := by
        rw [hlsr]
        omega
      obtain ⟨l', hl'⟩ := ih (l := l₁.writeThr byte) hrest
      exact ⟨l', hwait.bind (g := fun fuel (x : Line) => write fuel (x.writeThr byte) buf) hl'⟩

/-- `write` sends the bytes of its buffer in order, none of them before a read of LSR
has found the transmitter empty, and it returns exactly when so many reads of LSR
do find it empty. -/
theorem uart_write_paced (l : Line) (buf : List UInt8) :
    (∀ l', Converges (fun fuel => write fuel l buf) l' →
      ∃ log, l'.log = l.log ++ log ∧ Paced l.lsr l.reads log buf) ∧
    ((∃ l', Converges (fun fuel => write fuel l buf) l') ↔ ∃ n, buf.length ≤ readyReads l.lsr l.reads n) := by
  have hpaced : ∀ l', Converges (fun fuel => write fuel l buf) l' →
      ∃ log, l'.log = l.log ++ log ∧ Paced l.lsr l.reads log buf := by
    rintro l' ⟨N, hN⟩
    exact write_paced (hN N (Nat.le_refl _))
  refine ⟨hpaced, ?_, ?_⟩
  · rintro ⟨l', hl'⟩
    obtain ⟨log, -, hp⟩ := hpaced l' hl'
    exact hp.ready_reads
  · rintro ⟨n, hn⟩
    exact write_converges hn

end Karg.Uart
