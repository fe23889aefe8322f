import Karg.Devices
import Karg.HeapTiling

namespace Karg.InterruptRouting

open ByteMemory KernelMemory PageAlloc Kalloc HeapRuns HeapTiling Execution Devices ProcTable Vm

/-- What no driver has touched yet: PLIC alone has been initialised, and the heap
has been used in any way. -/
structure Start (sym : Symbols) (b : Board) : Prop where
  heap : ∃ live, Reached sym ⟨b.heap, live⟩
  isrs : b.isrs.nrIsrs = 0
  devs : b.nrDevs = 0
  blks (num : Nat) : b.ttyCtrlBlks num = nullptr
  base : b.plic.baseAddr + 0x202000 < 2 ^ 64
  threshold : b.plic.regs (b.plic.reg prioThreshold) = 0

/-- Serial lines have been found, with the results of `init_dev`. Once the
capacity has been reached, others are refused. -/
inductive Inited (sym : Symbols) : Board → List (DevNode × Int) → Prop
  | start {b} (h : Start sym b) : Inited sym b []
  | accept {b devs node b' res} (h : Inited sym b devs) (hcap : b.nrDevs < driverDevCapacity) (hirq : node.irq < 1024)
      (hc : Converges (fun fuel => uartInitDev sym fuel b node) (b', res)) : Inited sym b' (devs ++ [(node, res)])
  | refuse {b devs node b' res} (h : Inited sym b devs) (hcap : driverDevCapacity ≤ b.nrDevs)
      (hc : Converges (fun fuel => uartInitDev sym fuel b node) (b', res)) : Inited sym b' devs

structure Present (b : Board) (num : Nat) : Prop where
  ptr : b.ttyCtrlBlks num ≠ nullptr
  src : (b.terminals (b.ttyCtrlBlks num)).src = ⟨.uart, num⟩
  nrSinks : (b.terminals (b.ttyCtrlBlks num)).nrSinks = 1
  sink : (b.terminals (b.ttyCtrlBlks num)).sinks 0 = ⟨.uart, num⟩

structure Routed (sym : Symbols) (b : Board) (devs : List (DevNode × Int)) (live : Nat → Option Nat) : Prop where
  heap : Reached sym ⟨b.heap, live⟩
  count : b.nrDevs = devs.length
  nrIsrs : b.isrs.nrIsrs = devs.length
  capacity : devs.length ≤ driverDevCapacity
  isr (num : Nat) (d : DevNode × Int) : devs[num]? = some d → b.isrs.isrs num = ⟨d.1.irq, .uart, num⟩
  ctrlBlk (num : Nat) (d : DevNode × Int) : devs[num]? = some d → b.ctrlBlks num = ⟨d.1.addr, d.1.regSize⟩
  present (num : Nat) (d : DevNode × Int) : devs[num]? = some d →
    d.2 = 0 ∧ Present b num ∨ d.2 = -enomem ∧ b.ttyCtrlBlks num = nullptr
  absent (num : Nat) : devs.length ≤ num → b.ttyCtrlBlks num = nullptr
  live (num : Nat) : b.ttyCtrlBlks num ≠ nullptr → live (b.ttyCtrlBlks num) ≠ none
  apart (num num' : Nat) : b.ttyCtrlBlks num ≠ nullptr → b.ttyCtrlBlks num = b.ttyCtrlBlks num' → num = num'

variable {sym : Symbols} {b b' : Board} {devs : List (DevNode × Int)} {live live' : Nat → Option Nat} {heap : Heap}
  {n num irq : Nat} {node : DevNode} {res : Int} {d : DevNode × Int}

section Plic

variable {p : Plic}

end Plic

section Registration

theorem kmalloc_step (h : Reached sym ⟨heap, live⟩) (hn : n + headerSize < 2 ^ 64) :
    ∃ heap' ptr, Converges (fun fuel => kmalloc sym fuel heap n) (heap', ptr) ∧ Reached sym ⟨heap', grant live ptr n⟩ ∧
      (ptr ≠ nullptr → live ptr = none) := by
  obtain ⟨a, ha⟩ := reached_simulated h
  obtain ⟨heap', ptr, -, hc, -, hfresh⟩ := kmalloc_simulates ha hn
  exact ⟨heap', ptr, hc, h.next (.kmalloc n) ⟨hn, hc.map _⟩, fun hp => (hfresh hp).1⟩

theorem grant_keeps {p : Nat} (ptr n : Nat) (h : live p ≠ none) : grant live ptr n p ≠ none := by
  rw [grant]
  split
  · exact h
  · rw [Function.update_apply]
    split
    · simp
    · exact h

structure Extends (sym : Symbols) (live : Nat → Option Nat) (b : Board) (heap : Heap) (terminals : Nat → Terminal)
    (live' : Nat → Option Nat) : Prop where
  reached : Reached sym ⟨heap, live'⟩
  still (p : Nat) : live p ≠ none → live' p ≠ none
  same (p : Nat) : live p ≠ none → terminals p = b.terminals p

def cleared (t : Terminal) : Terminal := { t with nrSinks := 0, tty := { t.tty with cursorPos := 0 } }

def opened (t : Terminal) : Terminal :=
  { cleared t with tty := { (cleared t).tty with rxHead := 0, rxTail := 0, val := 0, waitQueue := [] } }

/-- `lazy_init_ctrl_blk` for a terminal that is not there yet, given what its two
calls of `kmalloc` return. -/
theorem lazyInit_converges {heap₁ heap₂ : Heap} {ptr rxBuf : Nat} (hnum : num < driverDevCapacity)
    (hnull : b.ttyCtrlBlks num = nullptr) (hp : ptr ≠ nullptr)
    (hc₁ : Converges (fun fuel => kmalloc sym fuel b.heap ttyCtrlBlkSize) (heap₁, ptr))
    (hc₂ : Converges (fun fuel => kmalloc sym fuel heap₁ Tty.ttyBufSize) (heap₂, rxBuf)) :
    Converges (fun fuel => lazyInitCtrlBlk sym fuel b num) (if rxBuf = nullptr then
        ({ b with heap := heap₂, terminals := Function.update b.terminals ptr (cleared (b.terminals ptr)) }, -enomem)
      else ({ b with
        heap := heap₂
        terminals := Function.update b.terminals ptr (opened (b.terminals ptr))
        ttyCtrlBlks := Function.update b.ttyCtrlBlks num ptr }, 0)) := by
  obtain ⟨N₁, hN₁⟩ := hc₁
  obtain ⟨N₂, hN₂⟩ := hc₂
  refine ⟨max N₁ N₂, fun fuel hfuel => ?_⟩
  have h₁ := hN₁ fuel (Nat.le_trans (Nat.le_max_left _ _) hfuel)
  have h₂ := hN₂ fuel (Nat.le_trans (Nat.le_max_right _ _) hfuel)
  by_cases hq : rxBuf = nullptr
  · rw [if_pos hq]
    simp [lazyInitCtrlBlk, Nat.not_le.mpr hnum, hnull, h₁, hp, ttyInitCtrlBlk, Board.setTerminal, h₂, hq, enomem]
    rfl
  · rw [if_neg hq]
    simp [lazyInitCtrlBlk, Nat.not_le.mpr hnum, hnull, h₁, hp, ttyInitCtrlBlk, Board.setTerminal, h₂, hq]
    rfl

theorem lazyInit_outcome (h : Reached sym ⟨b.heap, live⟩) (hnum : num < driverDevCapacity)
    (hnull : b.ttyCtrlBlks num = nullptr) : ∃ heap terminals live', Extends sym live b heap terminals live' ∧
      (Converges (fun fuel => lazyInitCtrlBlk sym fuel b num)
          ({ b with heap := heap, terminals := terminals }, -enomem) ∨
        ∃ ptr, ptr ≠ nullptr ∧ live ptr = none ∧ live' ptr ≠ none ∧ (terminals ptr).nrSinks = 0 ∧
          Converges (fun fuel => lazyInitCtrlBlk sym fuel b num)
            ({ b with heap := heap, terminals := terminals, ttyCtrlBlks := Function.update b.ttyCtrlBlks num ptr }, 0)) := by
  obtain ⟨heap₁, ptr, hc₁, hr₁, hfresh⟩ := kmalloc_step (n := ttyCtrlBlkSize) h (by decide)
  by_cases hp : ptr = nullptr
  · obtain ⟨N, hN⟩ := hc₁
    refine ⟨heap₁, b.terminals, _, ⟨hr₁, fun p => grant_keeps _ _, fun _ _ => rfl⟩, .inl ⟨N, fun fuel hfuel => ?_⟩⟩
    simp [lazyInitCtrlBlk, Nat.not_le.mpr hnum, hnull, hN fuel hfuel, hp]
  obtain ⟨heap₂, rxBuf, hc₂, hr₂, -⟩ := kmalloc_step (n := Tty.ttyBufSize) hr₁ (by decide)
  have hlazy := lazyInit_converges hnum hnull hp hc₁ hc₂
  have hnew : grant live ptr ttyCtrlBlkSize ptr ≠ none := by
    rw [grant, if_neg hp, Function.update_self]
    simp
  have hx : ∀ t, Extends sym live b heap₂ (Function.update b.terminals ptr t)
      (grant (grant live ptr ttyCtrlBlkSize) rxBuf Tty.ttyBufSize) := by
    refine fun t => ⟨hr₂, fun p hl => grant_keeps _ _ (grant_keeps _ _ hl), fun p hl => ?_⟩
    apply Function.update_of_ne
    rintro rfl
    exact hl (hfresh hp)
  by_cases hq : rxBuf = nullptr
  · rw [if_pos hq] at hlazy
    exact ⟨_, _, _, hx _, .inl hlazy⟩
  · rw [if_neg hq] at hlazy
    refine ⟨_, _, _, hx _, .inr ⟨ptr, hp, hfresh hp, grant_keeps _ _ hnew, ?_, hlazy⟩⟩
    rw [Function.update_self]
    rfl

def attached (b : Board) (node : DevNode) : Board :=
  let ctrlBlks := Function.update b.ctrlBlks b.nrDevs ⟨node.addr, node.regSize⟩
  { b with
    nrDevs := b.nrDevs + 1
    ctrlBlks := ctrlBlks
    regs := Function.update b.regs ({ b with ctrlBlks := ctrlBlks }.reg b.nrDevs ier) ierErbfi
    plic := plicEnableIrq b.plic node.irq
    isrs := ⟨Function.update b.isrs.isrs b.isrs.nrIsrs ⟨node.irq, .uart, b.nrDevs⟩, b.isrs.nrIsrs + 1⟩ }

theorem uartInitDev_eq (hcap : b.nrDevs < driverDevCapacity) (hisrs : b.isrs.nrIsrs < intrIsrCapacity) (fuel : Nat) :
    uartInitDev sym fuel b node = (ldiscRegisterSrc sym fuel (attached b node) b.nrDevs ⟨.uart, b.nrDevs⟩).bind fun r =>
      if r.2 < 0 then some r
      else (ldiscRegisterSink sym fuel r.1 b.nrDevs ⟨.uart, b.nrDevs⟩).bind fun r =>
        if r.2 < 0 then some r else some (r.1, 0) := by
  rw [uartInitDev, if_neg (Nat.not_le.mpr hcap)]
  simp only [intrRegisterIsr, ge_iff_le, Nat.not_le.mpr hisrs, if_false, Int.lt_irrefl]
  rfl

theorem uartInitDev_failed (hcap : b.nrDevs < driverDevCapacity) (hisrs : b.isrs.nrIsrs < intrIsrCapacity) (hres : res < 0)
    (hc : Converges (fun fuel => lazyInitCtrlBlk sym fuel (attached b node) b.nrDevs) (b', res)) :
    Converges (fun fuel => uartInitDev sym fuel b node) (b', res) := by
  obtain ⟨N, hN⟩ := hc
  refine ⟨N, fun fuel hfuel => ?_⟩
  have hlazy : lazyInitCtrlBlk sym fuel (attached b node) b.nrDevs = some (b', res) := hN fuel hfuel
  show uartInitDev sym fuel b node = _
  rw [uartInitDev_eq hcap hisrs, ldiscRegisterSrc, hlazy]
  simp [hres]

def wired (t : Terminal) (dev : Dev) : Terminal :=
  { t with src := dev, sinks := Function.update t.sinks 0 dev, nrSinks := 1 }

theorem uartInitDev_done {heap : Heap} {terminals : Nat → Terminal} {ptr : Nat} (hcap : b.nrDevs < driverDevCapacity)
    (hisrs : b.isrs.nrIsrs < intrIsrCapacity) (hp : ptr ≠ nullptr) (hsinks : (terminals ptr).nrSinks = 0)
    (hc : Converges (fun fuel => lazyInitCtrlBlk sym fuel (attached b node) b.nrDevs) ({ attached b node with
      heap := heap, terminals := terminals, ttyCtrlBlks := Function.update b.ttyCtrlBlks b.nrDevs ptr }, 0)) :
    Converges (fun fuel => uartInitDev sym fuel b node) ({ attached b node with
      heap := heap
      terminals := Function.update terminals ptr (wired (terminals ptr) ⟨.uart, b.nrDevs⟩)
      ttyCtrlBlks := Function.update b.ttyCtrlBlks b.nrDevs ptr }, 0) := by
  obtain ⟨N, hN⟩ := hc
  refine ⟨N, fun fuel hfuel => ?_⟩
  have hlazy : lazyInitCtrlBlk sym fuel (attached b node) b.nrDevs = some _ := hN fuel hfuel
  show uartInitDev sym fuel b node = _
  rw [uartInitDev_eq hcap hisrs, ldiscRegisterSrc, hlazy]
  simp [Board.setTerminal, ldiscRegisterSink, lazyInitCtrlBlk, Nat.not_le.mpr hcap, hp, hsinks, ttySinkCapacity]
  rfl

/-- The terminal gets its source and its sink with its control block, or it gets none. -/
theorem uartInitDev_outcome (h : Reached sym ⟨b.heap, live⟩) (hcap : b.nrDevs < driverDevCapacity)
    (hisrs : b.isrs.nrIsrs < intrIsrCapacity) (hnull : b.ttyCtrlBlks b.nrDevs = nullptr) (node : DevNode) :
    ∃ heap terminals live', Extends sym live b heap terminals live' ∧
      (Converges (fun fuel => uartInitDev sym fuel b node)
          ({ attached b node with heap := heap, terminals := terminals }, -enomem) ∨
        ∃ ptr, ptr ≠ nullptr ∧ live ptr = none ∧ live' ptr ≠ none ∧ (terminals ptr).src = ⟨.uart, b.nrDevs⟩ ∧
          (terminals ptr).nrSinks = 1 ∧ (terminals ptr).sinks 0 = ⟨.uart, b.nrDevs⟩ ∧
          Converges (fun fuel => uartInitDev sym fuel b node)
            ({ attached b node with
              heap := heap, terminals := terminals, ttyCtrlBlks := Function.update b.ttyCtrlBlks b.nrDevs ptr }, 0)) := by
  obtain ⟨heap, terminals, live', hx, hc | ⟨ptr, hp, hfresh, hlive, hsinks, hc⟩⟩ :=
    lazyInit_outcome (b := attached b node) h hcap hnull
  · exact ⟨heap, terminals, live', ⟨hx.reached, hx.still, hx.same⟩, .inl (uartInitDev_failed hcap hisrs (by decide) hc)⟩
  · refine ⟨heap, Function.update terminals ptr (wired (terminals ptr) ⟨.uart, b.nrDevs⟩), live',
      ⟨hx.reached, hx.still, fun p hl => ?_⟩,
      .inr ⟨ptr, hp, hfresh, hlive, ?_, ?_, ?_, uartInitDev_done hcap hisrs hp hsinks hc⟩⟩
    · rw [Function.update_of_ne]
      · exact hx.same p hl
      · rintro rfl
        exact hl hfresh
    · rw [Function.update_self]
      rfl
    · rw [Function.update_self]
      rfl
    · rw [Function.update_self]
      exact Function.update_self 0 _ (terminals ptr).sinks

theorem uartInitDev_served {a : HeapModel.Model} (h : Reached sym ⟨b.heap, live⟩) (ha : Simulated sym ⟨b.heap, live⟩ a)
    (hfree : 2 ≤ a.free.length) (hcap : b.nrDevs < driverDevCapacity) (hisrs : b.isrs.nrIsrs < intrIsrCapacity)
    (hnull : b.ttyCtrlBlks b.nrDevs = nullptr) (node : DevNode) :
    ∃ b' live' a', Converges (fun fuel => uartInitDev sym fuel b node) (b', 0) ∧ b'.lines = b.lines ∧
      Reached sym ⟨b'.heap, live'⟩ ∧ Simulated sym ⟨b'.heap, live'⟩ a' ∧ a.free.length ≤ a'.free.length + 2 := by
  obtain ⟨heap₁, ptr, a₁, hp, hc₁, hr₁, ha₁, hle₁⟩ := kmalloc_served (n := ttyCtrlBlkSize) h ha (by decide)
    (List.ne_nil_of_length_pos (by omega))
  obtain ⟨heap₂, rxBuf, a₂, hq, hc₂, hr₂, ha₂, hle₂⟩ := kmalloc_served (n := Tty.ttyBufSize) hr₁ ha₁ (by decide)
    (List.ne_nil_of_length_pos (by omega))
  have hlazy := lazyInit_converges (b := attached b node) hcap hnull hp hc₁ hc₂
  rw [if_neg hq] at hlazy
  have hsinks : (Function.update b.terminals ptr (opened (b.terminals ptr)) ptr).nrSinks = 0 := by
    rw [Function.update_self]
    rfl
  exact ⟨_, _, a₂, uartInitDev_done hcap hisrs hp hsinks hlazy, rfl, hr₂, ha₂, by omega⟩

end Registration

section Runs

theorem Start.routed (h : Start sym b) : ∃ live, Routed sym b [] live := by
  obtain ⟨live, hlive⟩ := h.heap
  refine ⟨live, hlive, h.devs, h.isrs, Nat.zero_le _, ?_, ?_, ?_, fun num _ => h.blks num, ?_, ?_⟩
  · simp
  · simp
  · simp
  · exact fun num hn => absurd (h.blks num) hn
  · exact fun num _ hn => absurd (h.blks num) hn

theorem getElem?_found (h : (devs ++ [(node, res)])[num]? = some d) :
    devs[num]? = some d ∧ num < devs.length ∨ num = devs.length ∧ d = (node, res) := by
  rcases Nat.lt_trichotomy num devs.length with hlt | rfl | hgt
  · rw [List.getElem?_append_left hlt] at h
    exact .inl ⟨h, hlt⟩
  · rw [List.getElem?_concat_length] at h
    exact .inr ⟨rfl, (Option.some.inj h).symm⟩
  · rw [List.getElem?_eq_none (by simp; omega)] at h
    cases h

theorem attached_tables (h : Routed sym b devs live) (hd : (devs ++ [(node, res)])[num]? = some d) :
    (attached b node).isrs.isrs num = ⟨d.1.irq, .uart, num⟩ ∧
      (attached b node).ctrlBlks num = ⟨d.1.addr, d.1.regSize⟩ := by
  have hcount := h.count
  have hisrs := h.nrIsrs
  rcases getElem?_found hd with ⟨hd, hlt⟩ | ⟨rfl, rfl⟩
  · constructor
    · exact (Function.update_of_ne (by omega) _ _).trans (h.isr num d hd)
    · exact (Function.update_of_ne (by omega) _ _).trans (h.ctrlBlk num d hd)
  · constructor
    · rw [attached, hisrs, hcount]
      exact Function.update_self ..
    · rw [attached, hcount]
      exact Function.update_self ..

theorem Present.extends (hp : Present b num) {heap : Heap} {terminals : Nat → Terminal}
    (hl : live (b.ttyCtrlBlks num) ≠ none)
    (hx : Extends sym live b heap terminals live') (hblk : b'.ttyCtrlBlks num = b.ttyCtrlBlks num)
    (ht : b'.terminals = terminals) : Present b' num := by
  have hsame := hx.same _ hl
  rw [← ht] at hsame
  refine ⟨?_, ?_, ?_, ?_⟩
  · rw [hblk]
    exact hp.ptr
  · rw [hblk, hsame]
    exact hp.src
  · rw [hblk, hsame]
    exact hp.nrSinks
  · rw [hblk, hsame]
    exact hp.sink

theorem accept_routed (h : Routed sym b devs live) (hcap : b.nrDevs < driverDevCapacity)
    (hc : Converges (fun fuel => uartInitDev sym fuel b node) (b', res)) :
    ∃ live', Routed sym b' (devs ++ [(node, res)]) live' := by
  have hcount := h.count
  have hisrs := h.nrIsrs
  have hlen : devs.length < driverDevCapacity := hcount ▸ hcap
  have hroom : b.isrs.nrIsrs < intrIsrCapacity := by
    rw [driverDevCapacity] at hlen
    rw [intrIsrCapacity]
    omega
  obtain ⟨heap, terminals, live', hx, hout⟩ :=
    uartInitDev_outcome h.heap hcap hroom (h.absent _ (Nat.le_of_eq hcount.symm)) node
  refine ⟨live', ?_⟩
  rcases hout with hout | ⟨ptr, hp, hfresh, hlive, hsrc, hsinks, hsink, hout⟩
  · obtain ⟨rfl, rfl⟩ := Prod.mk.inj (hc.unique hout)
    refine ⟨hx.reached, by simp [attached, hcount], by simp [attached, hisrs], by rw [List.length_append]; exact hlen,
      fun num d hd => (attached_tables h hd).1, fun num d hd => (attached_tables h hd).2, fun num d hd => ?_,
      fun num hn => h.absent num ?_, fun num hn => hx.still _ (h.live num hn), h.apart⟩
    · rcases getElem?_found hd with ⟨hd, -⟩ | ⟨rfl, rfl⟩
      · rcases h.present num d hd with ⟨hz, hpres⟩ | hnone
        · exact .inl ⟨hz, hpres.extends (h.live num hpres.ptr) hx rfl rfl⟩
        · exact .inr hnone
      · exact .inr ⟨rfl, h.absent _ (Nat.le_refl _)⟩
    · rw [List.length_append] at hn
      omega
  · obtain ⟨rfl, rfl⟩ := Prod.mk.inj (hc.unique hout)
    have hblk : ∀ {k}, k ≠ devs.length → Function.update b.ttyCtrlBlks b.nrDevs ptr k = b.ttyCtrlBlks k := fun hk =>
      Function.update_of_ne (by omega) _ _
    have hself : Function.update b.ttyCtrlBlks b.nrDevs ptr devs.length = ptr := by
      rw [hcount]
      exact Function.update_self ..
    -- `kmalloc` does not return a block that some terminal has.
    have hold : ∀ {k}, b.ttyCtrlBlks k ≠ nullptr → b.ttyCtrlBlks k ≠ ptr := by
      rintro k hk rfl
      exact h.live k hk hfresh
    refine ⟨hx.reached, by simp [attached, hcount], by simp [attached, hisrs], by rw [List.length_append]; exact hlen,
      fun num d hd => (attached_tables h hd).1, fun num d hd => (attached_tables h hd).2, fun num d hd => ?_,
      fun num hn => ?_, fun num hn => ?_, fun num num' hn he => ?_⟩
    · rcases getElem?_found hd with ⟨hd, hlt⟩ | ⟨rfl, rfl⟩
      · rcases h.present num d hd with ⟨hz, hpres⟩ | ⟨hz, hnone⟩
        · exact .inl ⟨hz, hpres.extends (h.live num hpres.ptr) hx (hblk (Nat.ne_of_lt hlt)) rfl⟩
        · exact .inr ⟨hz, (hblk (Nat.ne_of_lt hlt)).trans hnone⟩
      · refine .inl ⟨rfl, ?_, ?_, ?_, ?_⟩
        · exact fun hnull => hp (hself.symm.trans hnull)
        · exact (congrArg (fun p => (terminals p).src) hself).trans (hcount ▸ hsrc)
        · exact (congrArg (fun p => (terminals p).nrSinks) hself).trans hsinks
        · exact (congrArg (fun p => (terminals p).sinks 0) hself).trans (hcount ▸ hsink)
    · rw [List.length_append, List.length_singleton] at hn
      exact (hblk (by omega)).trans (h.absent num (by omega))
    · by_cases hk : num = devs.length
      · subst hk
        show live' (Function.update b.ttyCtrlBlks b.nrDevs ptr devs.length) ≠ none
        rw [hself]
        exact hlive
      · show live' (Function.update b.ttyCtrlBlks b.nrDevs ptr num) ≠ none
        have hn' : Function.update b.ttyCtrlBlks b.nrDevs ptr num ≠ nullptr := hn
        rw [hblk hk] at hn' ⊢
        exact hx.still _ (h.live num hn')
    · have hn' : Function.update b.ttyCtrlBlks b.nrDevs ptr num ≠ nullptr := hn
      have he' : Function.update b.ttyCtrlBlks b.nrDevs ptr num = Function.update b.ttyCtrlBlks b.nrDevs ptr num' := he
      by_cases hk : num = devs.length <;> by_cases hk' : num' = devs.length
      · rw [hk, hk']
      · rw [hk, hself, hblk hk'] at he'
        exact absurd he'.symm (hold (he' ▸ hp))
      · rw [hk', hself, hblk hk] at he'
        exact absurd he' (hold (he' ▸ hp))
      · rw [hblk hk] at hn'
        rw [hblk hk, hblk hk'] at he'
        exact h.apart num num' hn' he'

theorem refuse_converges (hcap : driverDevCapacity ≤ b.nrDevs) (node : DevNode) :
    Converges (fun fuel => uartInitDev sym fuel b node) (b, -eagain) :=
  .of_forall fun _ => if_pos hcap

theorem refuse_same (hcap : driverDevCapacity ≤ b.nrDevs)
    (hc : Converges (fun fuel => uartInitDev sym fuel b node) (b', res)) : b' = b :=
  (Prod.mk.inj (hc.unique (refuse_converges hcap node))).1

theorem inited_routed (h : Inited sym b devs) : ∃ live, Routed sym b devs live := by
  induction h with
  | start h => exact h.routed
  | accept _ hcap _ hc ih =>
      obtain ⟨live, hr⟩ := ih
      exact accept_routed hr hcap hc
  | refuse _ hcap hc ih => rwa [refuse_same hcap hc]

/-- `intr_isr` serves the first of the lines that share an interrupt. -/
theorem Routed.intrIsr_eq (h : Routed sym b devs live) (irq : Nat) :
    intrIsr b.isrs irq = (devs.findIdx? fun d => d.1.irq = irq).map fun num => (.uart, num) := by
  have hirq : ∀ {num d}, devs[num]? = some d → (b.isrs.isrs num).irq = d.1.irq := by
    intro num d hd
    rw [h.isr num d hd]
  have hfind : ((List.range devs.length).find? fun i => (b.isrs.isrs i).irq = irq) =
      devs.findIdx? fun d => d.1.irq = irq := by
    ext num
    rw [List.find?_range_eq_some, List.findIdx?_eq_some_iff_getElem]
    constructor
    · rintro ⟨hp, hmem, hmin⟩
      have hlt := List.mem_range.mp hmem
      refine ⟨hlt, ?_, fun j hj => ?_⟩
      · rw [← hirq (List.getElem?_eq_getElem hlt)]
        exact hp
      · have hj' := hmin j hj
        rw [hirq (List.getElem?_eq_getElem (Nat.lt_trans hj hlt))] at hj'
        simpa using hj'
    · rintro ⟨hlt, hp, hmin⟩
      refine ⟨?_, List.mem_range.mpr hlt, fun j hj => ?_⟩
      · rw [hirq (List.getElem?_eq_getElem hlt)]
        exact hp
      · rw [hirq (List.getElem?_eq_getElem (Nat.lt_trans hj hlt))]
        simpa using hmin j hj
  rw [intrIsr, h.nrIsrs, hfind]
  cases hidx : devs.findIdx? fun d => d.1.irq = irq with
  | none => rfl
  | some num =>
      have hlt := (List.findIdx?_eq_some_iff_getElem.mp hidx).1
      rw [Option.map_some, Option.map_some, h.isr num _ (List.getElem?_eq_getElem hlt)]

end Runs

def bootBoard (m : Memory) : Board where
  plic := ⟨0x0C000000, fun _ => 0, csrSieSeie⟩
  isrs := ⟨fun _ => ⟨0, .uart, 0⟩, 0⟩
  ctrlBlks _ := ⟨0, 0⟩
  nrDevs := 0
  regs _ := 0
  lines _ := ⟨fun _ => Uart.lsrThre, 0, []⟩
  heap := ⟨m, []⟩
  ttyCtrlBlks _ := nullptr
  terminals _ := ⟨⟨.uart, 0⟩, fun _ => ⟨.uart, 0⟩, 0, ⟨fun _ => 0, 0, 0, 0, 0, [], [], []⟩⟩

theorem bootBoard_start : ∃ m a, Start ⟨0x80300000, 0x80300010⟩ (bootBoard m) ∧
    Reached ⟨0x80300000, 0x80300010⟩ ⟨(bootBoard m).heap, fun _ => none⟩ ∧
    Simulated ⟨0x80300000, 0x80300010⟩ ⟨(bootBoard m).heap, fun _ => none⟩ a ∧ 2 * driverDevCapacity ≤ a.free.length := by
  obtain ⟨m, hstart, ha⟩ := boot_start
  have hbase : 0x0C000000 + 0x202000 < 2 ^ 64 := by decide
  refine ⟨m, _, ⟨⟨_, .start hstart⟩, rfl, rfl, fun _ => rfl, hbase, rfl⟩, .start hstart, ha, ?_⟩
  rw [heapPages, List.length_map, List.length_range]
  decide

theorem bootBoard_init (node : DevNode) : ∃ m b, Start ⟨0x80300000, 0x80300010⟩ (bootBoard m) ∧
    Converges (fun fuel => uartInitDev ⟨0x80300000, 0x80300010⟩ fuel (bootBoard m) node) (b, 0) := by
  obtain ⟨m, a, hm, hr, ha, hfree⟩ := bootBoard_start
  have hcap : 0 < driverDevCapacity := by decide
  have hroom : 0 < intrIsrCapacity := by decide
  obtain ⟨b, -, -, hc, -⟩ := uartInitDev_served hr ha (by omega) hcap hroom rfl node
  exact ⟨m, b, hm, hc⟩

theorem boot_lines (nodes : List DevNode) (hn : nodes.length ≤ driverDevCapacity) (hirq : ∀ node ∈ nodes, node.irq < 1024) :
    ∃ b, Inited ⟨0x80300000, 0x80300010⟩ b (nodes.map fun node => (node, 0)) ∧
      b.lines = fun _ => ⟨fun _ => Uart.lsrThre, 0, []⟩ := by
  -- Two pages are enough for one more line.
  suffices h : ∃ b live a, Inited ⟨0x80300000, 0x80300010⟩ b (nodes.map fun node => (node, 0)) ∧
      b.lines = (fun _ => ⟨fun _ => Uart.lsrThre, 0, []⟩) ∧ Reached ⟨0x80300000, 0x80300010⟩ ⟨b.heap, live⟩ ∧
      Simulated ⟨0x80300000, 0x80300010⟩ ⟨b.heap, live⟩ a ∧ 2 * (driverDevCapacity - nodes.length) ≤ a.free.length by
    obtain ⟨b, -, -, hinit, hlines, -⟩ := h
    exact ⟨b, hinit, hlines⟩
  induction nodes using List.reverseRecOn with
  | nil =>
      obtain ⟨m, a, hm, hr, ha, hfree⟩ := bootBoard_start
      exact ⟨bootBoard m, _, a, .start hm, rfl, hr, ha, hfree⟩
  | append_singleton nodes node ih =>
      rw [List.length_append, List.length_singleton] at hn
      obtain ⟨b, live, a, hinit, hlines, hr, ha, hfree⟩ :=
        ih (by omega) fun d hd => hirq d (List.mem_append_left _ hd)
      obtain ⟨_, hrouted⟩ := inited_routed hinit
      have hcount := hrouted.count
      rw [List.length_map] at hcount
      have hcap : b.nrDevs < driverDevCapacity := by omega
      have hroom : b.isrs.nrIsrs < intrIsrCapacity := by
        rw [hrouted.nrIsrs, List.length_map]
        exact Nat.lt_of_lt_of_le hn (by decide)
      obtain ⟨b', live', a', hc, hsame, hr', ha', hfree'⟩ := uartInitDev_served hr ha (by omega) hcap hroom
        (hrouted.absent _ (Nat.le_of_eq hrouted.count.symm)) node
      refine ⟨b', live', a', ?_, hsame.trans hlines, hr', ha', ?_⟩
      · rw [List.map_append]
        exact .accept hinit hcap (hirq node (List.mem_append_right _ List.mem_cons_self)) hc
      · rw [List.length_append, List.length_singleton]
        omega

end Karg.InterruptRouting
