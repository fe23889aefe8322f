import Karg.TtyDelivery

namespace Karg.EchoDisplay

open Process Execution Tty TtyDelivery

/-- A display with the cursor in its last row, without an end to the right. -/
structure Screen where
  rows : List (List UInt8)
  left : List UInt8
  right : List UInt8

def blank : Screen := ⟨[], [], []⟩

/-- Newline starts a row, backspace moves the cursor, other bytes fill the cell
under the cursor and move on. -/
def put (s : Screen) (byte : UInt8) : Screen :=
  if byte = 0x0A then ⟨s.rows ++ [s.left ++ s.right], [], []⟩
  else if byte = 0x08 then
    match s.left.getLast? with
    | none => s
    | some c => { s with left := s.left.dropLast, right := c :: s.right }
  else { s with left := s.left ++ [byte], right := s.right.tail }

def display (echo : List UInt8) : Screen := echo.foldl put blank

def Typable (byte : UInt8) : Prop := 0x20 ≤ byte ∧ byte ≤ 0x7F ∨ byte = 0x0D ∨ byte = 0x0A

instance (byte : UInt8) : Decidable (Typable byte) := inferInstanceAs (Decidable (_ ∨ _))

def OpTypable : Op → Prop
  | .recv byte => Typable byte
  | .read _ _ | .wait _ | .resume _ => True

/-- The runs of a terminal, with the line editor beside it, on which only such bytes are typed. -/
def Typed : Machine × Editor → Prop :=
  Reachable (fun x => Start x.1 ∧ x.1.tty.echo = [] ∧ x.2 = ⟨[], []⟩) fun x op x' =>
    OpTypable op ∧ Step x.1 op x'.1 ∧ x'.2 = follow x.1.consumed.length x.2 op

def RowShows (row line : List UInt8) : Prop := ∃ k, row = line ++ List.replicate k 0x20

structure Shows (s : Screen) (e : Editor) : Prop where
  rows : ∃ lines, e.committed = lines.flatMap (· ++ [0x0A]) ∧ (∀ line ∈ lines, 0x0A ∉ line) ∧
    List.Forall₂ RowShows s.rows lines
  left : s.left = e.line
  right : ∃ k, s.right = List.replicate k 0x20
  line : 0x0A ∉ e.line

variable {s : Screen} {e : Editor} {byte : UInt8} {m m' : Machine} {t t' : TtyCtrlBlk} {bytes : List UInt8}

theorem blank_shows : Shows blank ⟨[], []⟩ := ⟨⟨[], rfl, by simp, .nil⟩, rfl, ⟨0, rfl⟩, by simp⟩

theorem Shows.text (h : Shows s e) (hnl : byte ≠ 0x0A) (hbs : byte ≠ 0x08) :
    Shows (put s byte) { e with line := e.line ++ [byte] } := by
  obtain ⟨k, hk⟩ := h.right
  rw [put, if_neg hnl, if_neg hbs]
  refine ⟨h.rows, by rw [h.left], ⟨k - 1, ?_⟩, ?_⟩
  · rw [hk, List.tail_replicate]
  · have hline := h.line
    simp [hline, Ne.symm hnl]

theorem Shows.newline (h : Shows s e) : Shows (put s 0x0A) ⟨e.committed ++ (e.line ++ [0x0A]), []⟩ := by
  obtain ⟨lines, hlines, hno, hrows⟩ := h.rows
  obtain ⟨k, hk⟩ := h.right
  rw [put, if_pos rfl]
  refine ⟨⟨lines ++ [e.line], ?_, ?_, ?_⟩, rfl, ⟨0, rfl⟩, by simp⟩
  · rw [hlines, List.flatMap_append]
    simp
  · intro line hl
    rcases List.mem_append.mp hl with hl | hl
    · exact hno line hl
    · rw [List.mem_singleton.mp hl]
      exact h.line
  · exact List.rel_append hrows (.cons ⟨k, by rw [h.left, hk]⟩ .nil)

theorem put_back {line : List UInt8} {c : UInt8} (h : s.left = line ++ [c]) :
    put s 0x08 = ⟨s.rows, line, c :: s.right⟩ := by
  have hnl : (0x08 : UInt8) ≠ 0x0A := by decide
  rw [put, if_neg hnl, if_pos rfl, h, List.getLast?_concat]
  simp only [List.dropLast_concat]

theorem put_blank (s : Screen) : put s 0x20 = { s with left := s.left ++ [0x20], right := s.right.tail } := by
  have hnl : (0x20 : UInt8) ≠ 0x0A := by decide
  have hbs : (0x20 : UInt8) ≠ 0x08 := by decide
  rw [put, if_neg hnl, if_neg hbs]

/-- The echo of delete: the last byte becomes a blank, with the cursor before it. -/
theorem Shows.delete (h : Shows s e) (hne : e.line ≠ []) :
    Shows ([0x08, 0x20, 0x08].foldl put s) { e with line := e.line.dropLast } := by
  rcases List.eq_nil_or_concat' e.line with hnil | ⟨line, c, hline⟩
  · exact absurd hnil hne
  obtain ⟨k, hk⟩ := h.right
  have hleft := h.left
  have hno := h.line
  rw [hline] at hleft hno
  have hback : put ⟨s.rows, line ++ [0x20], s.right⟩ 0x08 = ⟨s.rows, line, 0x20 :: s.right⟩ := put_back rfl
  rw [List.foldl_cons, List.foldl_cons, List.foldl_cons, List.foldl_nil, put_back hleft, put_blank, List.tail_cons, hback,
    hline, List.dropLast_concat]
  refine ⟨h.rows, rfl, ⟨k + 1, ?_⟩, fun hin => hno (List.mem_append_left _ hin)⟩
  rw [hk, List.replicate_succ]

section Steps

theorem signal_echo (h : t.signal = some t') : t'.echo = t.echo := by
  rw [TtyCtrlBlk.signal, Option.bind_eq_bind, Option.bind_eq_some_iff] at h
  obtain ⟨val, -, h⟩ := h
  split at h
  · cases hq : t.waitQueue with
    | nil =>
        rw [hq] at h
        cases h
    | cons p rest =>
        rw [hq] at h
        cases h
        rfl
  · cases h
    rfl

theorem signaln_echo {n : Nat} (h : t.signaln n = some t') : t'.echo = t.echo := by
  induction n generalizing t with
  | zero =>
      cases h
      rfl
  | succ n ih =>
      rw [TtyCtrlBlk.signaln, Option.bind_eq_bind, Option.bind_eq_some_iff] at h
      obtain ⟨t₁, h₁, h⟩ := h
      exact (ih h).trans (signal_echo h₁)

theorem display_append (echo echo' : List UInt8) : display (echo ++ echo') = echo'.foldl put (display echo) :=
  List.foldl_append

/-- A byte that is typed appears on the display just as the line editor takes it. -/
theorem recv_shows (h : Holds m e bytes) (hs : Shows (display m.tty.echo) e) (ht : Typable byte)
    (hx : ldiscRecvByte m.tty byte = some t') :
    Shows (display t'.echo) (follow m.consumed.length e (.recv byte)) := by
  have hbs : (if byte = 0x0D then 0x0A else byte) ≠ 0x08 := by
    split
    · decide
    · rintro rfl
      revert ht
      decide
  rw [ldiscRecvByte] at hx
  rw [follow, edit, h.held]
  generalize (if byte = 0x0D then 0x0A else byte) = byte at hx hbs ⊢
  by_cases hdel : byte = 0x7F
  · simp only [if_pos hdel] at hx ⊢
    by_cases hc : m.tty.cursorPos > 0
    · rw [if_pos hc] at hx
      cases hx
      have hne : e.line ≠ [] := by
        intro hnil
        rw [h.cursor, hnil] at hc
        exact absurd hc (Nat.lt_irrefl 0)
      rw [ldiscWrite, display_append]
      exact hs.delete hne
    · rw [if_neg hc] at hx
      cases hx
      have hnil : e.line = [] := List.length_eq_zero_iff.mp (by rw [← h.cursor]; omega)
      have hline : e.line.dropLast = e.line := by rw [hnil]; rfl
      rw [hline]
      exact hs
  · simp only [if_neg hdel] at hx ⊢
    have hroom := h.ring.room
    by_cases hfull : (bytes ++ e.line).length = ttyBufSize - 1
    · -- The byte is dropped without an echo.
      rw [if_pos (h.ring.full_iff.mpr hfull)] at hx
      rw [if_pos (Nat.le_of_eq hfull.symm)]
      cases hx
      exact hs
    · have hle : ¬ ttyBufSize - 1 ≤ (bytes ++ e.line).length := by omega
      rw [if_neg fun hh => hfull (h.ring.full_iff.mp hh)] at hx
      rw [if_neg hle]
      by_cases hnl : byte = 0x0A
      · rw [if_pos hnl, Option.bind_eq_bind, Option.bind_eq_some_iff] at hx
        obtain ⟨t₁, h₁, hx⟩ := hx
        cases hx
        rw [if_pos hnl, hnl, ldiscWrite, display_append]
        have hecho := signaln_echo h₁
        show Shows ([0x0A].foldl put (display t₁.echo)) _
        rw [hecho]
        exact hs.newline
      · rw [if_neg hnl] at hx
        cases hx
        rw [if_neg hnl, ldiscWrite, display_append]
        exact hs.text hnl hbs

theorem exec_echo {op : Op} (hr : ∀ byte, op ≠ .recv byte) (hx : exec m op = some m') : m'.tty.echo = m.tty.echo := by
  cases op with
  | recv byte => exact absurd rfl (hr byte)
  | read p size =>
      cases hx
      rfl
  | wait p =>
      obtain ⟨call, -, ⟨-, rfl⟩ | ⟨-, rfl⟩⟩ := exec_wait hx
      · rfl
      · rfl
  | resume p =>
      obtain ⟨call, -, rfl⟩ := exec_resume hx
      rfl

theorem step_shows {op : Op} (h : Holds m e bytes) (hs : Shows (display m.tty.echo) e) (ht : OpTypable op)
    (hx : exec m op = some m') : Shows (display m'.tty.echo) (follow m.consumed.length e op) := by
  cases op with
  | recv byte =>
      rw [exec, Option.bind_eq_bind, Option.bind_eq_some_iff] at hx
      obtain ⟨t', ht', hx⟩ := hx
      cases hx
      exact recv_shows h hs ht ht'
  | read p size =>
      rw [exec_echo (by simp) hx]
      exact hs
  | wait p =>
      rw [exec_echo (by simp) hx]
      exact hs
  | resume p =>
      rw [exec_echo (by simp) hx]
      exact hs

end Steps

/-- While only text, carriage return, newline and delete are typed and no process
writes, the display of the line shows the line editor: each complete line in a row
of its own and then the current line up to the cursor, with blanks behind both. -/
theorem echo_shows_lines (h : Typed (m, e)) : Shows (display m.tty.echo) e := by
  refine (Reachable.invariant (I := fun x : Machine × Editor => Reached x ∧ Shows (display x.1.tty.echo) x.2) ?_ ?_ h).2
  · rintro ⟨m, e⟩ ⟨hs, hecho, rfl⟩
    refine ⟨.start ⟨hs, rfl⟩, ?_⟩
    rw [hecho]
    exact blank_shows
  · rintro ⟨m, e⟩ op ⟨m', e'⟩ ⟨hr, hs⟩ ⟨ht, ⟨ha, hx⟩, rfl⟩
    obtain ⟨bytes, hb⟩ := reached_holds hr
    exact ⟨reached_exec hr op ha hx, step_shows hb hs ht hx⟩

/-- The bytes `a`, `b`, delete and carriage return are typed. -/
theorem echo_shows_lines_typed : ∃ m e, Typed (m, e) ∧ e.committed = [0x61, 0x0A] ∧
    (display m.tty.echo).rows = [[0x61, 0x20]] ∧ Shows (display m.tty.echo) e := by
  have next : ∀ {m e m'} byte, Typed (m, e) → Typable byte → exec m (.recv byte) = some m' →
      Typed (m', follow m.consumed.length e (.recv byte)) := fun byte h ht hx =>
    .next (.recv byte) h ⟨ht, ⟨trivial, hx⟩, rfl⟩
  have h₀ : Typed (TtyDelivery.blank, ⟨[], []⟩) := .start ⟨blank_start, rfl, rfl⟩
  have h₁ := next 0x61 h₀ (by decide) rfl
  have h₂ := next 0x62 h₁ (by decide) rfl
  have h₃ := next 0x7F h₂ (by decide) rfl
  have h₄ := next 0x0D h₃ (by decide) rfl
  exact ⟨_, _, h₄, rfl, rfl, echo_shows_lines h₄⟩

end Karg.EchoDisplay
