import Karg.InterruptRouting

namespace Karg.Terminals

open KernelMemory Kalloc Execution Uart Devices InterruptRouting
open Tty (TtyCtrlBlk)

/-- An interrupt with the bytes that the lines hold, a call of `dev_write` for a
terminal, and what the readers of a terminal do to its ring and its semaphore. -/
inductive Op
  | interrupt (irq : Nat) (rbr : Nat → UInt8)
  | write (num : Nat) (buf : List UInt8)
  | readers (num : Nat) (tty : TtyCtrlBlk)

def setTty (b : Board) (num : Nat) (tty : TtyCtrlBlk) : Board :=
  b.setTerminal (b.ttyCtrlBlks num) { b.terminals (b.ttyCtrlBlks num) with tty := tty }

def exec (fuel : Nat) (b : Board) : Op → Option Board
  | .interrupt irq rbr => extIntr fuel b irq rbr
  | .write num buf => (devWrite b ⟨.tty, num⟩ buf fuel).map (·.1)
  | .readers num tty => some (setTty b num tty)

inductive Ran (b : Board) : List Op → Board → Prop
  | nil : Ran b [] b
  | next {ops b' op b''} (h : Ran b ops b') (hc : Converges (fun fuel => exec fuel b' op) b'') : Ran b (ops ++ [op]) b''

def sent : List Access → List UInt8
  | [] => []
  | .thr val :: log => val :: sent log
  | .lsr _ :: log => sent log

structure View where
  tty : TtyCtrlBlk
  sent : List UInt8

inductive Act
  | recv (byte : UInt8)
  | write (buf : List UInt8)
  | readers (tty : TtyCtrlBlk)

def act (v : View) : Act → Option View
  | .recv byte => do
      let tty ← Tty.ldiscRecvByte v.tty byte
      some ⟨tty, v.sent ++ tty.echo.drop v.tty.echo.length⟩
  | .write buf => some { v with sent := v.sent ++ buf }
  | .readers tty => some { v with tty := tty }

def view (b : Board) (num : Nat) : View :=
  ⟨(b.terminals (b.ttyCtrlBlks num)).tty, Terminals.sent (b.lines num).log⟩

def target (devs : List (DevNode × Int)) : Op → Option (Nat × Act)
  | .interrupt irq rbr => (devs.findIdx? fun d => d.1.irq = irq).map fun num => (num, .recv (rbr num))
  | .write num buf => some (num, .write buf)
  | .readers num tty => some (num, .readers tty)

def actOf (devs : List (DevNode × Int)) (num : Nat) (op : Op) : Option Act :=
  (target devs op).bind fun t => if t.1 = num then some t.2 else none

def acts (devs : List (DevNode × Int)) (num : Nat) (ops : List Op) : List Act := ops.filterMap (actOf devs num)

structure Wired (b : Board) (devs : List (DevNode × Int)) : Prop where
  route (irq : Nat) : intrIsr b.isrs irq = (devs.findIdx? fun d => d.1.irq = irq).map fun num => (.uart, num)
  present (num : Nat) : b.ttyCtrlBlks num ≠ nullptr → num < driverDevCapacity ∧ Present b num
  apart (num num' : Nat) : b.ttyCtrlBlks num ≠ nullptr → b.ttyCtrlBlks num = b.ttyCtrlBlks num' → num = num'

variable {sym : Symbols} {b b' : Board} {devs : List (DevNode × Int)} {num k fuel : Nat} {buf : List UInt8} {byte : UInt8}
  {op : Op} {ops : List Op} {tty : TtyCtrlBlk} {l l' : Line} {node : DevNode}

theorem inited_wired (h : Inited sym b devs) : Wired b devs := by
  obtain ⟨live, hr⟩ := inited_routed h
  refine ⟨hr.intrIsr_eq, fun num hn => ?_, hr.apart⟩
  have hlt : num < devs.length := by
    by_contra hge
    exact hn (hr.absent num (Nat.le_of_not_lt hge))
  refine ⟨Nat.lt_of_lt_of_le hlt hr.capacity, ?_⟩
  rcases hr.present num _ (List.getElem?_eq_getElem hlt) with ⟨-, hp⟩ | ⟨-, hnull⟩
  · exact hp
  · exact absurd hnull hn

theorem inited_ptr (h : Inited sym b devs) (hd : devs[num]? = some (node, 0)) : b.ttyCtrlBlks num ≠ nullptr := by
  obtain ⟨live, hrouted⟩ := inited_routed h
  rcases hrouted.present num _ hd with ⟨-, hp⟩ | ⟨hres, -⟩
  · exact hp.ptr
  · cases hres

theorem sent_append (log log' : List Access) : sent (log ++ log') = sent log ++ sent log' := by
  induction log with
  | nil => rfl
  | cons a log ih =>
      cases a with
      | thr val => exact congrArg (val :: ·) ih
      | lsr val => exact ih

theorem Paced.sent_eq {lsr : Nat → UInt8} {i : Nat} {log : List Access} (h : Paced lsr i log buf) : sent log = buf := by
  induction h with
  | done => rfl
  | wait _ _ ih => exact ih
  | send byte _ _ ih => exact congrArg (byte :: ·) ih

theorem write_sent (h : Uart.write fuel l buf = some l') : sent l'.log = sent l.log ++ buf := by
  obtain ⟨log, hlog, hp⟩ := write_paced h
  rw [hlog, sent_append, Paced.sent_eq hp]

section Present

theorem ldiscWrite_present (h : Present b num) (fuel : Nat) (buf : List UInt8) :
    ldiscWrite (fuel + 1) b num buf = (Uart.write (fuel + 1) (b.lines num) buf).map fun line =>
      ({ b with lines := Function.update b.lines num line }, (buf.length : Int)) := by
  have hlen : ¬ (buf.length : Int) < 0 := Int.not_lt.mpr (Int.natCast_nonneg _)
  rw [ldiscWrite, h.nrSinks, sinkLoop, h.sink, devWrite]
  cases Uart.write (fuel + 1) (b.lines num) buf with
  | none => rfl
  | some line => simp only [Option.bind_eq_bind, Option.bind_some, Option.map_some, hlen, if_false, sinkLoop]

theorem devWrite_present (h : Present b num) (hnum : num < driverDevCapacity) (fuel : Nat) (buf : List UInt8) :
    devWrite b ⟨.tty, num⟩ buf (fuel + 2) = ldiscWrite (fuel + 1) b num buf := by
  rw [devWrite, ldiscWrite]
  exact if_neg (by simp [Nat.not_le.mpr hnum, h.ptr])

def echoed (v : View) (tty : TtyCtrlBlk) : List UInt8 := tty.echo.drop v.tty.echo.length

theorem ldiscRecvByte_eq (hn : b.ttyCtrlBlks num ≠ nullptr) (htty : Tty.ldiscRecvByte (view b num).tty byte = some tty)
    (fuel : Nat) : Devices.ldiscRecvByte fuel b num byte = if echoed (view b num) tty = [] then some (setTty b num tty)
      else (Devices.ldiscWrite fuel (setTty b num tty) num (echoed (view b num) tty)).map (·.1) := by
  have htty' : Tty.ldiscRecvByte (b.terminals (b.ttyCtrlBlks num)).tty byte = some tty := htty
  rw [Devices.ldiscRecvByte, if_neg hn]
  simp only [htty', Option.bind_eq_bind, Option.bind_some]
  by_cases hecho : echoed (view b num) tty = []
  · rw [if_pos hecho]
    exact if_pos hecho
  · rw [if_neg hecho]
    refine (if_neg hecho).trans ?_
    show (Devices.ldiscWrite fuel (setTty b num tty) num (echoed (view b num) tty)).bind _ = _
    cases Devices.ldiscWrite fuel (setTty b num tty) num (echoed (view b num) tty) <;> rfl

theorem act_recv {v : View} (htty : Tty.ldiscRecvByte v.tty byte = some tty) :
    act v (.recv byte) = some ⟨tty, v.sent ++ echoed v tty⟩ := by
  rw [act, htty]
  rfl

/-- A terminal that is not there takes no byte, and nobody is told. -/
theorem devWrite_absent (h : b.ttyCtrlBlks num = nullptr) (fuel : Nat) (buf : List UInt8) :
    devWrite b ⟨.tty, num⟩ buf (fuel + 1) = some (b, -enxio) := by
  rw [devWrite]
  exact if_pos (.inr h)

end Present

section Wiring

theorem present_congr (h : Present b num) (hblk : b'.ttyCtrlBlks = b.ttyCtrlBlks)
    (hsrc : ∀ p, (b'.terminals p).src = (b.terminals p).src) (hn : ∀ p, (b'.terminals p).nrSinks = (b.terminals p).nrSinks)
    (hs : ∀ p, (b'.terminals p).sinks = (b.terminals p).sinks) : Present b' num := by
  refine ⟨?_, ?_, ?_, ?_⟩
  · rw [hblk]
    exact h.ptr
  · rw [hblk, hsrc]
    exact h.src
  · rw [hblk, hn]
    exact h.nrSinks
  · rw [hblk, hs]
    exact h.sink

theorem setTty_present (h : Present b k) (num : Nat) (tty : TtyCtrlBlk) : Present (setTty b num tty) k := by
  apply present_congr h (show (Terminals.setTty b num tty).ttyCtrlBlks = b.ttyCtrlBlks from rfl)
  all_goals
    intro p
    simp only [setTty, Board.setTerminal, Function.update_apply]
    split
    · next hp => rw [hp]
    · rfl

theorem Wired.setTty (h : Wired b devs) (num : Nat) (tty : TtyCtrlBlk) : Wired (setTty b num tty) devs :=
  ⟨h.route, fun k hk => ⟨(h.present k hk).1, setTty_present (h.present k hk).2 num tty⟩, h.apart⟩

theorem Wired.setLine (h : Wired b devs) (num : Nat) (line : Line) :
    Wired { b with lines := Function.update b.lines num line } devs :=
  ⟨h.route, fun k hk => ⟨(h.present k hk).1,
    present_congr (h.present k hk).2 rfl (fun _ => rfl) (fun _ => rfl) fun _ => rfl⟩,
    h.apart⟩

theorem view_setTty (h : Wired b devs) (hk : b.ttyCtrlBlks k ≠ nullptr) (num : Nat) (tty : TtyCtrlBlk) :
    view (setTty b num tty) k = if k = num then ⟨tty, (view b k).sent⟩ else view b k := by
  by_cases hkn : k = num
  · subst hkn
    rw [if_pos rfl]
    simp [view, Terminals.setTty, Board.setTerminal]
  · have hne : b.ttyCtrlBlks k ≠ b.ttyCtrlBlks num := fun he => hkn (h.apart k num hk he)
    rw [if_neg hkn]
    simp [view, Terminals.setTty, Board.setTerminal, Function.update_of_ne hne]

theorem view_setLine (b : Board) (num k : Nat) (line : Line) :
    view { b with lines := Function.update b.lines num line } k =
      if k = num then ⟨(view b k).tty, sent line.log⟩ else view b k := by
  by_cases hkn : k = num
  · subst hkn
    rw [if_pos rfl]
    simp [view]
  · rw [if_neg hkn]
    simp [view, Function.update_of_ne hkn]

end Wiring

section Steps

structure Follows (devs : List (DevNode × Int)) (op : Op) (b b' : Board) : Prop where
  wired : Wired b' devs
  blks : b'.ttyCtrlBlks = b.ttyCtrlBlks
  lsr (k : Nat) : (b'.lines k).lsr = (b.lines k).lsr
  view (k : Nat) : b.ttyCtrlBlks k ≠ nullptr →
    ((actOf devs k op).toList).foldlM act (view b k) = some (Terminals.view b' k)

theorem follows_none (hw : Wired b devs) (ht : target devs op = none) : Follows devs op b b := by
  refine ⟨hw, rfl, fun _ => rfl, fun k _ => ?_⟩
  rw [actOf, ht]
  rfl

/-- It is enough to look at the terminal that the operation is for, if the others are as before. -/
theorem follows_some {a : Act} (hw : Wired b' devs) (hblk : b'.ttyCtrlBlks = b.ttyCtrlBlks)
    (hlsr : ∀ k, (b'.lines k).lsr = (b.lines k).lsr) (ht : target devs op = some (num, a))
    (hself : b.ttyCtrlBlks num ≠ nullptr → act (view b num) a = some (view b' num))
    (hother : ∀ k, b.ttyCtrlBlks k ≠ nullptr → k ≠ num → view b' k = view b k) : Follows devs op b b' := by
  refine ⟨hw, hblk, hlsr, fun k hk => ?_⟩
  rw [actOf, ht, Option.bind_some]
  by_cases hkn : num = k
  · subst hkn
    rw [if_pos rfl]
    simpa using hself hk
  · rw [if_neg hkn, hother k hk (Ne.symm hkn)]
    rfl

theorem setLine_lsr {line : Line} (h : Uart.write fuel (b.lines num) buf = some line) (k : Nat) :
    (Function.update b.lines num line k).lsr = (b.lines k).lsr := by
  by_cases hk : k = num
  · subst hk
    rw [Function.update_self, write_lsr h]
  · rw [Function.update_of_ne hk]

theorem Converges.at_succ {α : Type} {f : Nat → Option α} {x : α} (h : Converges f x) (n : Nat) :
    ∃ fuel, f (fuel + n) = some x := by
  obtain ⟨N, hN⟩ := h
  exact ⟨N, hN (N + n) (Nat.le_add_right _ _)⟩

theorem write_follows (hw : Wired b devs) (hc : Converges (fun fuel => exec fuel b (.write num buf)) b') :
    Follows devs (.write num buf) b b' := by
  obtain ⟨fuel, hf⟩ := Converges.at_succ hc 2
  rw [exec, Option.map_eq_some_iff] at hf
  obtain ⟨⟨b₁, res⟩, hf, rfl⟩ := hf
  by_cases hnull : b.ttyCtrlBlks num = nullptr
  · rw [devWrite_absent hnull] at hf
    obtain ⟨rfl, -⟩ := Prod.mk.inj (Option.some.inj hf)
    exact follows_some hw rfl (fun _ => rfl) rfl (fun hno => absurd hnull hno) fun _ _ _ => rfl
  · obtain ⟨hnum, hp⟩ := hw.present num hnull
    rw [devWrite_present hp hnum, ldiscWrite_present hp, Option.map_eq_some_iff] at hf
    obtain ⟨line, hline, he⟩ := hf
    obtain ⟨rfl, -⟩ := Prod.mk.inj he
    refine follows_some (hw.setLine num line) rfl (setLine_lsr hline) rfl (fun _ => ?_) fun k _ hk => ?_
    · rw [view_setLine, if_pos rfl, write_sent hline]
      rfl
    · rw [view_setLine, if_neg hk]

theorem recv_follows (hw : Wired b devs) (hp : Present b num) {irq : Nat} {rbr : Nat → UInt8}
    (ht : target devs (.interrupt irq rbr) = some (num, .recv byte))
    (hf : Devices.ldiscRecvByte (fuel + 1) b num byte = some b') : Follows devs (.interrupt irq rbr) b b' := by
  cases htty : Tty.ldiscRecvByte (view b num).tty byte with
  | none =>
      have hnone : Devices.ldiscRecvByte (fuel + 1) b num byte = none := by
        rw [Devices.ldiscRecvByte, if_neg hp.ptr]
        exact congrArg (Option.bind · _) htty
      rw [hnone] at hf
      cases hf
  | some tty =>
      have hview : ∀ {k}, b.ttyCtrlBlks k ≠ nullptr → k ≠ num → view (setTty b num tty) k = view b k := by
        intro k hk hkn
        rw [view_setTty hw hk, if_neg hkn]
      rw [ldiscRecvByte_eq hp.ptr htty] at hf
      split at hf
      next hecho =>
        cases hf
        refine follows_some (hw.setTty num tty) rfl (fun _ => rfl) ht (fun hn => ?_) fun k hk hkn => hview hk hkn
        rw [act_recv htty, hecho, List.append_nil, view_setTty hw hn, if_pos rfl]
      next hecho =>
        rw [Option.map_eq_some_iff] at hf
        obtain ⟨⟨b₁, res⟩, hwrite, rfl⟩ := hf
        rw [ldiscWrite_present (setTty_present hp num tty), Option.map_eq_some_iff] at hwrite
        obtain ⟨line, hline, he⟩ := hwrite
        obtain ⟨rfl, -⟩ := Prod.mk.inj he
        refine follows_some ((hw.setTty num tty).setLine num line) rfl (setLine_lsr hline) ht (fun hn => ?_)
          fun k hk hkn => ?_
        · rw [act_recv htty, view_setLine, if_pos rfl, view_setTty hw hn, if_pos rfl, write_sent hline]
          rfl
        · rw [view_setLine, if_neg hkn, hview hk hkn]

theorem step_follows (hw : Wired b devs) (hc : Converges (fun fuel => exec fuel b op) b') : Follows devs op b b' := by
  cases op with
  | interrupt irq rbr =>
      obtain ⟨fuel, hf⟩ := Converges.at_succ hc 1
      rw [exec, extIntr, hw.route] at hf
      cases hidx : devs.findIdx? fun d => d.1.irq = irq with
      | none =>
          rw [hidx] at hf
          cases hf
          exact follows_none hw (by rw [target, hidx]; rfl)
      | some num =>
          rw [hidx] at hf
          have hf' : Devices.ldiscRecvByte (fuel + 1) b num (rbr num) = some b' := hf
          have hptr : b.ttyCtrlBlks num ≠ nullptr := by
            intro hnull
            rw [Devices.ldiscRecvByte, if_pos hnull] at hf'
            cases hf'
          exact recv_follows hw (hw.present num hptr).2 (by rw [target, hidx]; rfl) hf'
  | write num buf => exact write_follows hw hc
  | readers num tty =>
      obtain rfl := hc.unique (.of_forall fun _ => rfl)
      refine follows_some (hw.setTty num tty) rfl (fun _ => rfl) rfl (fun hn => ?_) fun k hk hkn => ?_
      · rw [view_setTty hw hn, if_pos rfl]
        rfl
      · rw [view_setTty hw hk, if_neg hkn]

end Steps

section Progress

def Drains (l : Line) : Prop := ∀ i, ∃ n, i ≤ n ∧ ready (l.lsr n)

theorem readyReads_mono (lsr : Nat → UInt8) (i : Nat) {n n' : Nat} (h : n ≤ n') :
    readyReads lsr i n ≤ readyReads lsr i n' := by
  obtain ⟨k, rfl⟩ := Nat.exists_eq_add_of_le h
  rw [readyReads, readyReads, ← List.range'_append_1, List.countP_append]
  exact Nat.le_add_right _ _

theorem Drains.ready_reads (h : Drains l) (i k : Nat) : ∃ n, k ≤ readyReads l.lsr i n := by
  induction k with
  | zero => exact ⟨0, Nat.zero_le _⟩
  | succ k ih =>
      obtain ⟨n, hn⟩ := ih
      obtain ⟨j, hj, hr⟩ := h (i + n)
      obtain ⟨d, rfl⟩ := Nat.exists_eq_add_of_le hj
      have hmono := readyReads_mono l.lsr i (Nat.le_add_right n d)
      refine ⟨n + d + 1, ?_⟩
      have hlast : readyReads l.lsr i (n + d + 1) = readyReads l.lsr i (n + d) + 1 := by
        rw [readyReads, List.range'_concat, List.countP_append, Nat.one_mul, ← Nat.add_assoc]
        simp [readyReads, hr]
      rw [hlast]
      omega

theorem Drains.write (h : Drains l) (buf : List UInt8) : ∃ l', Converges (fun fuel => Uart.write fuel l buf) l' := by
  obtain ⟨n, hn⟩ := h.ready_reads l.reads buf.length
  exact write_converges hn

theorem ldiscWrite_progress (hp : Present b num) (hl : Drains (b.lines num)) (buf : List UInt8) :
    ∃ r, Converges (fun fuel => Devices.ldiscWrite fuel b num buf) r := by
  obtain ⟨line, N, hN⟩ := hl.write buf
  refine ⟨({ b with lines := Function.update b.lines num line }, buf.length), N + 1, fun fuel hfuel => ?_⟩
  obtain ⟨fuel, rfl⟩ := Nat.exists_eq_add_of_le' (Nat.le_trans (Nat.le_add_left 1 N) hfuel)
  have hline : Uart.write (fuel + 1) (b.lines num) buf = some line := hN (fuel + 1) (by omega)
  show Devices.ldiscWrite (fuel + 1) b num buf = _
  rw [ldiscWrite_present hp, hline, Option.map_some]

theorem exec_progress (hw : Wired b devs) (hn : b.ttyCtrlBlks num ≠ nullptr) (hl : Drains (b.lines num)) {a : Act}
    (ht : target devs op = some (num, a)) (ha : act (view b num) a ≠ none) :
    ∃ b', Converges (fun fuel => exec fuel b op) b' := by
  obtain ⟨hnum, hp⟩ := hw.present num hn
  cases op with
  | interrupt irq rbr =>
      rw [target, Option.map_eq_some_iff] at ht
      obtain ⟨k, hk, he⟩ := ht
      obtain ⟨rfl, rfl⟩ := Prod.mk.inj he
      have hexec : ∀ fuel, exec fuel b (.interrupt irq rbr) = Devices.ldiscRecvByte fuel b k (rbr k) := by
        intro fuel
        rw [exec, extIntr, hw.route, hk]
        rfl
      cases htty : Tty.ldiscRecvByte (view b k).tty (rbr k) with
      | none =>
          rw [act, htty] at ha
          exact absurd rfl ha
      | some tty =>
          obtain ⟨r, N, hN⟩ := ldiscWrite_progress (setTty_present hp k tty) hl (echoed (view b k) tty)
          by_cases hecho : echoed (view b k) tty = []
          · refine ⟨setTty b k tty, .of_forall fun fuel => ?_⟩
            rw [hexec, ldiscRecvByte_eq hn htty, if_pos hecho]
          · refine ⟨r.1, N, fun fuel hfuel => ?_⟩
            have hwrite : Devices.ldiscWrite fuel (setTty b k tty) k (echoed (view b k) tty) = some r := hN fuel hfuel
            show exec fuel b (.interrupt irq rbr) = _
            rw [hexec, ldiscRecvByte_eq hn htty, if_neg hecho, hwrite, Option.map_some]
  | write k buf =>
      obtain ⟨rfl, rfl⟩ := Prod.mk.inj (Option.some.inj ht)
      obtain ⟨r, N, hN⟩ := ldiscWrite_progress hp hl buf
      refine ⟨r.1, N + 2, fun fuel hfuel => ?_⟩
      obtain ⟨fuel, rfl⟩ := Nat.exists_eq_add_of_le' (Nat.le_trans (Nat.le_add_left 2 N) hfuel)
      have hwrite : Devices.ldiscWrite (fuel + 1) b k buf = some r := hN (fuel + 1) (by omega)
      show exec (fuel + 2) b (.write k buf) = _
      rw [exec, devWrite_present hp hnum, hwrite, Option.map_some]
  | readers k tty => exact ⟨_, .of_forall fun _ => rfl⟩

end Progress

theorem ran_follows (hw : Wired b devs) (hr : Ran b ops b') : Wired b' devs ∧ b'.ttyCtrlBlks = b.ttyCtrlBlks ∧
    (∀ k, (b'.lines k).lsr = (b.lines k).lsr) ∧
    ∀ k, b.ttyCtrlBlks k ≠ nullptr → (acts devs k ops).foldlM act (view b k) = some (view b' k) := by
  induction hr with
  | nil => exact ⟨hw, rfl, fun _ => rfl, fun _ _ => rfl⟩
  | @next ops b' op b'' _ hc ih =>
      obtain ⟨hw', hblk, hlsr, hview⟩ := ih
      have hf := step_follows hw' hc
      refine ⟨hf.wired, hf.blks.trans hblk, fun k => (hf.lsr k).trans (hlsr k), fun k hk => ?_⟩
      have hlast : acts devs k [op] = (actOf devs k op).toList := by
        rw [acts, List.filterMap_cons]
        cases actOf devs k op <;> rfl
      have happ : acts devs k (ops ++ [op]) = acts devs k ops ++ acts devs k [op] := List.filterMap_append
      rw [happ, List.foldlM_append, hview k hk, hlast]
      exact hf.view k (hblk ▸ hk)

/-- The terminals do not disturb each other. In every run of interrupts, writes and
readers the state of a terminal and the bytes that its line has sent are what the
terminal makes by itself of the operations that are for it: a byte from the line
whose interrupt it is, with the echo that it causes, and the bytes written to it.
While its transmitter gets empty again and again, all that it can do by itself is
carried out. -/
theorem terminals_independent (h : Inited sym b devs) (hr : Ran b ops b') (hd : devs[num]? = some (node, 0)) :
    (acts devs num ops).foldlM act (view b num) = some (view b' num) ∧
      (Drains (b'.lines num) → ∀ op a, target devs op = some (num, a) → act (view b' num) a ≠ none →
        ∃ b'', Ran b (ops ++ [op]) b'') := by
  have hptr := inited_ptr h hd
  obtain ⟨hw, hblk, -, hview⟩ := ran_follows (inited_wired h) hr
  refine ⟨hview num hptr, fun hl op a ht ha => ?_⟩
  obtain ⟨b'', hc⟩ := exec_progress hw (hblk ▸ hptr) hl ht ha
  exact ⟨b'', hr.next hc⟩

section Boot

theorem boot_terminals (nodes : List DevNode) (hn : nodes.length ≤ driverDevCapacity)
    (hirq : ∀ node ∈ nodes, node.irq < 1024) : ∃ b,
      Inited ⟨0x80300000, 0x80300010⟩ b (nodes.map fun node => (node, 0)) ∧ ∀ k, Drains (b.lines k) := by
  obtain ⟨b, hinit, hlines⟩ := boot_lines nodes hn hirq
  have hready : ready lsrThre := by decide
  refine ⟨b, hinit, fun k => ?_⟩
  rw [hlines]
  exact fun i => ⟨i, Nat.le_refl i, hready⟩

theorem Drains.ran (h : Drains (b.lines k)) (hw : Wired b devs) (hr : Ran b ops b') : Drains (b'.lines k) := by
  obtain ⟨-, -, hlsr, -⟩ := ran_follows hw hr
  rwa [Drains, hlsr]

theorem act_letter (v : View) (hcr : byte ≠ 0x0D) (hlf : byte ≠ 0x0A) (hdel : byte ≠ 0x7F) : act v (.recv byte) ≠ none := by
  have hrecv : Tty.ldiscRecvByte v.tty byte ≠ none := by
    simp only [Tty.ldiscRecvByte, hcr, hlf, hdel, if_false]
    split
    · simp
    · simp
  obtain ⟨tty, htty⟩ := Option.ne_none_iff_exists'.mp hrecv
  rw [act_recv htty]
  simp

end Boot

/-- Of the two lines found after boot the first one gets the byte `a`, and then the
second one the byte `b`. -/
theorem terminals_independent_two : ∃ b b',
    Inited ⟨0x80300000, 0x80300010⟩ b [(⟨0, 0x10000000, 10, 1⟩, 0), (⟨0, 0x10000100, 11, 1⟩, 0)] ∧
    Ran b [.interrupt 10 fun _ => 0x61, .interrupt 11 fun _ => 0x62] b' ∧
    act (view b 0) (.recv 0x61) = some (view b' 0) ∧ act (view b 1) (.recv 0x62) = some (view b' 1) := by
  obtain ⟨b, hinit, hdrains⟩ := boot_terminals [⟨0, 0x10000000, 10, 1⟩, ⟨0, 0x10000100, 11, 1⟩] (by decide) (by decide)
  have hfirst : [((⟨0, 0x10000000, 10, 1⟩ : DevNode), (0 : Int)), (⟨0, 0x10000100, 11, 1⟩, 0)][0]? = some _ := rfl
  have hsecond : [((⟨0, 0x10000000, 10, 1⟩ : DevNode), (0 : Int)), (⟨0, 0x10000100, 11, 1⟩, 0)][1]? = some _ := rfl
  obtain ⟨b₁, hr₁⟩ := (terminals_independent hinit .nil hfirst).2 (hdrains 0) (.interrupt 10 fun _ => 0x61) (.recv 0x61) rfl
    (act_letter _ (by decide) (by decide) (by decide))
  obtain ⟨b', hr⟩ := (terminals_independent hinit hr₁ hsecond).2 ((hdrains 1).ran (inited_wired hinit) hr₁)
    (.interrupt 11 fun _ => 0x62) (.recv 0x62) rfl (act_letter _ (by decide) (by decide) (by decide))
  have hview₀ : [Act.recv 0x61].foldlM act (view b 0) = some (view b' 0) := (terminals_independent hinit hr hfirst).1
  have hview₁ : [Act.recv 0x62].foldlM act (view b 1) = some (view b' 1) := (terminals_independent hinit hr hsecond).1
  exact ⟨b, b', hinit, hr, by simpa using hview₀, by simpa using hview₁⟩

end Karg.Terminals
