import Karg.ContextFrames
import Karg.InitProcess

namespace Karg.TrapTranslation

open ByteMemory PageAlloc Vm TableTree VmRefinement PageTableMap Translation PagePermissions ElfImage ProcStack AddressSpaces
  Riscv TrapCode InitProcess

inductive Access
  | fetch | load | store
  deriving DecidableEq

def Access.flag : Access → UInt8
  | .fetch => pteFlagX
  | .load => pteFlagR
  | .store => pteFlagW

/-- The physical address that supervisor mode reaches under this `satp`. Pages
for user mode are not for it. -/
def reach (m : Memory) (satp : BitVec 64) (access : Access) (a : Nat) : Option Nat :=
  if satpMode satp.toNat = 0 then some a
  else if a < 2 ^ 38 then do
    let phys ← walk m (satpRoot satp.toNat) a
    let f ← leafFlags m (satpRoot satp.toNat) a
    if f &&& pteFlagU = 0 ∧ f &&& access.flag ≠ 0 then some phys else none
  else none

def stepAt (c : Cpu) : Instr → Option Cpu
  | .ld rd offset rs => do
      let a ← reach c.mem (c.csr .satp) .load (c.addr rs offset)
      some (c.set rd (word c.mem a))
  | .sd rs₂ offset rs₁ => do
      let a ← reach c.mem (c.csr .satp) .store (c.addr rs₁ offset)
      some { c with mem := setWord c.mem a (c.get rs₂) }
  | i => some (step c i)

/-- Instructions that stand each at its physical address, and are fetched from
the same virtual one. -/
def execAt (c : Cpu) : List (Nat × Instr) → Option Cpu
  | [] => some c
  | (pc, i) :: code =>
      if reach c.mem (c.csr .satp) .fetch pc = some pc then do
        let c ← stepAt c i
        execAt c code
      else none

def Lies (page : Nat) (code : List (Nat × Instr)) (instrs : List Instr) : Prop :=
  code.map Prod.snd = instrs ∧ ∀ p ∈ code, p.1 / pageSize = page / pageSize

def plain : Instr → Bool
  | .ld _ _ _ | .sd _ _ _ => false
  | _ => true

def inFrame : Instr → Bool
  | .ld rd offset .sp => rd ≠ .sp && offset + 8 ≤ 176
  | .sd _ offset .sp => offset + 8 ≤ 176
  | .add rd _ _ | .mv rd _ | .csrr rd _ => rd ≠ .sp
  | .csrw _ _ | .sfenceVma _ _ => true
  | _ => false

/-- The trap code and the stack are reached where they are, whatever is written
outside of the bytes `tables`. -/
structure Window (satp : BitVec 64) (tables : Set Nat) (m₀ : Memory) (page stack : Nat) : Prop where
  fetch {m : Memory} {pc : Nat} : Same tables m₀ m → pc / pageSize = page / pageSize → reach m satp .fetch pc = some pc
  data {m : Memory} {a : Nat} (access : Access) : Same tables m₀ m → access ≠ .fetch → a ∈ place stack pageSize →
    reach m satp access a = some a

variable {satp : BitVec 64} {tables : Set Nat} {m₀ : Memory} {page stack b : Nat} {c : Cpu} {i : Instr}
  {code : List (Nat × Instr)} {instrs instrs' : List Instr}

section Code

theorem set_mem (c : Cpu) (r : Reg) (v : BitVec 64) : (c.set r v).mem = c.mem := by
  cases r <;> rfl

theorem set_sp (c : Cpu) {r : Reg} (hr : r ≠ .sp) (v : BitVec 64) : (c.set r v).x .sp = c.x .sp := by
  cases r <;> first | rfl | exact absurd rfl hr

theorem step_csr (h : i.keeps .satp) (c : Cpu) : (step c i).csr .satp = c.csr .satp := by
  have hone : ∀ j ∈ [i], j.keeps .satp := List.forall_mem_singleton.mpr h
  exact exec_keeps hone c

theorem Lies.split (h : Lies page code (instrs ++ instrs')) :
    ∃ code₁ code₂, code = code₁ ++ code₂ ∧ Lies page code₁ instrs ∧ Lies page code₂ instrs' := by
  obtain ⟨hmap, hpc⟩ := h
  obtain ⟨code₁, code₂, rfl, h₁, h₂⟩ := List.map_eq_append_iff.mp hmap
  exact ⟨code₁, code₂, rfl, ⟨h₁, fun p hp => hpc p (List.mem_append_left _ hp)⟩,
    h₂, fun p hp => hpc p (List.mem_append_right _ hp)⟩

theorem execAt_append (c : Cpu) (code code' : List (Nat × Instr)) :
    execAt c (code ++ code') = (execAt c code).bind fun c => execAt c code' := by
  induction code generalizing c with
  | nil => rfl
  | cons p code ih =>
      obtain ⟨pc, i⟩ := p
      rw [List.cons_append, execAt, execAt]
      split
      · cases stepAt c i with
        | none => rfl
        | some c => exact ih c
      · rfl

/-- Code of which each instruction does the same through the page table, and
keeps what the next one needs for it. -/
theorem execAt_eq {I : Cpu → Prop} (hl : Lies page code instrs) (hc : I c)
    (hfetch : ∀ c pc, I c → pc / pageSize = page / pageSize → reach c.mem (c.csr .satp) .fetch pc = some pc)
    (hstep : ∀ i ∈ instrs, ∀ c, I c → stepAt c i = some (step c i) ∧ I (step c i)) :
    execAt c code = some (exec instrs c) ∧ I (exec instrs c) := by
  obtain ⟨rfl, hpc⟩ := hl
  induction code generalizing c with
  | nil => exact ⟨rfl, hc⟩
  | cons p code ih =>
      obtain ⟨hp, hpc⟩ := List.forall_mem_cons.mp hpc
      obtain ⟨hi, hstep⟩ := List.forall_mem_cons.mp hstep
      obtain ⟨hone, hkeep⟩ := hi c hc
      have hrest := ih hkeep hpc hstep
      rw [execAt, if_pos (hfetch c p.1 hc hp), hone]
      exact hrest

theorem stepAt_plain (h : plain i) (c : Cpu) : stepAt c i = some (step c i) ∧ (step c i).mem = c.mem := by
  cases i with
  | ld | sd => cases h
  | add | mv | csrr | csrrw => exact ⟨rfl, set_mem ..⟩
  | csrw | sfenceVma => exact ⟨rfl, rfl⟩

theorem stepAt_frame (h : inFrame i) (hsp : c.x .sp = BitVec.ofNat 64 b) (hb : b + 176 < 2 ^ 64)
    (hdata : ∀ access a, access ≠ .fetch → a ∈ place b 176 → reach c.mem (c.csr .satp) access a = some a) :
    stepAt c i = some (step c i) ∧ (step c i).x .sp = c.x .sp ∧ Only (place b 176) c.mem (step c i).mem := by
  have haddr : ∀ o, o + 8 ≤ 176 → c.addr .sp o = b + o := by
    intro o ho
    have hbase : (c.x .sp).toNat = b := by rw [hsp, BitVec.toNat_ofNat, Nat.mod_eq_of_lt (by omega)]
    show (c.x .sp + BitVec.ofNat 64 o).toNat = b + o
    rw [toNat_add_ofNat (by omega), hbase]
  have hin : ∀ o, o + 8 ≤ 176 → c.addr .sp o ∈ place b 176 := by
    intro o ho
    rw [haddr o ho, mem_place]
    omega
  cases i with
  | ld rd o rs =>
      cases rs with
      | sp =>
          simp only [inFrame, Bool.and_eq_true, decide_eq_true_eq] at h
          refine ⟨?_, set_sp c h.1 _, ?_⟩
          · rw [stepAt, hdata .load _ (by decide) (hin o h.2)]
            rfl
          · rw [step, set_mem]
            exact Only.refl _ _
      | _ => cases h
  | sd rs₂ o rs₁ =>
      cases rs₁ with
      | sp =>
          simp only [inFrame, decide_eq_true_eq] at h
          refine ⟨?_, rfl, ?_⟩
          · rw [stepAt, hdata .store _ (by decide) (hin o h)]
            rfl
          · apply (setWord_only c.mem (c.addr .sp o) _).mono
            rw [haddr o h]
            exact place_subset_place (by omega) (by omega)
      | _ => cases h
  | add rd | mv rd | csrr rd =>
      simp only [inFrame, decide_eq_true_eq] at h
      refine ⟨rfl, set_sp c h _, ?_⟩
      rw [step, set_mem]
      exact Only.refl _ _
  | csrw | sfenceVma => exact ⟨rfl, rfl, Only.refl _ _⟩
  | csrrw => cases h

end Code

section Windows

theorem bare_window (tables : Set Nat) (m₀ : Memory) (page stack : Nat) : Window 0 tables m₀ page stack :=
  ⟨fun _ _ => rfl, fun _ _ _ _ => rfl⟩

theorem Window.plain (hw : Window satp tables m₀ page stack) (hl : Lies page code instrs)
    (hi : ∀ i ∈ instrs, plain i && i.keeps .satp) (hsatp : c.csr .satp = satp) (hm : Same tables m₀ c.mem) :
    execAt c code = some (exec instrs c) ∧ (exec instrs c).csr .satp = satp ∧ Same tables m₀ (exec instrs c).mem := by
  apply execAt_eq (I := fun c => c.csr .satp = satp ∧ Same tables m₀ c.mem) hl ⟨hsatp, hm⟩
  · rintro c pc ⟨hs, hsame⟩ hpc
    rw [hs]
    exact hw.fetch hsame hpc
  · rintro i hmem c ⟨hs, hsame⟩
    obtain ⟨hplain, hkeeps⟩ := Bool.and_eq_true_iff.mp (hi i hmem)
    obtain ⟨hstep, heq⟩ := stepAt_plain hplain c
    refine ⟨hstep, (step_csr hkeeps c).trans hs, ?_⟩
    rw [heq]
    exact hsame

theorem Window.frame (hw : Window satp tables m₀ page stack) (hl : Lies page code instrs)
    (hi : ∀ i ∈ instrs, inFrame i && i.keeps .satp) (hsatp : c.csr .satp = satp) (hm : Same tables m₀ c.mem)
    (hd : Disjoint tables (place stack pageSize)) (hsp : c.x .sp = BitVec.ofNat 64 b)
    (hb : place b 176 ⊆ place stack pageSize) (hlt : b + 176 < 2 ^ 64) :
    execAt c code = some (exec instrs c) ∧ (exec instrs c).csr .satp = satp ∧ Same tables m₀ (exec instrs c).mem ∧
      (exec instrs c).x .sp = BitVec.ofNat 64 b := by
  apply execAt_eq (I := fun c => c.csr .satp = satp ∧ Same tables m₀ c.mem ∧ c.x .sp = BitVec.ofNat 64 b) hl
    ⟨hsatp, hm, hsp⟩
  · rintro c pc ⟨hs, hsame, -⟩ hpc
    rw [hs]
    exact hw.fetch hsame hpc
  · rintro i hmem c ⟨hs, hsame, hsp⟩
    obtain ⟨hframe, hkeeps⟩ := Bool.and_eq_true_iff.mp (hi i hmem)
    obtain ⟨hstep, hsp', honly⟩ := stepAt_frame hframe hsp hlt fun access a ha hin => by
      rw [hs]
      exact hw.data access hsame ha (hb hin)
    exact ⟨hstep, (step_csr hkeeps c).trans hs, hsame.trans (honly.same (hd.mono_right hb)), hsp'.trans hsp⟩

/-- The write to `satp` is the last instruction under the old one. -/
theorem Window.turn (hw : Window satp tables m₀ page stack) {rs : Reg} (hl : Lies page code [.csrw .satp rs])
    (hsatp : c.csr .satp = satp) (hm : Same tables m₀ c.mem) :
    ∃ c', execAt c code = some c' ∧ exec [.csrw .satp rs] c = c' ∧ c'.csr .satp = c.get rs ∧ c'.mem = c.mem ∧
      c'.x = c.x := by
  obtain ⟨hmap, hpc⟩ := hl
  obtain ⟨p, rfl, hp⟩ := List.map_eq_singleton_iff.mp hmap
  have hfetch : reach c.mem (c.csr .satp) .fetch p.1 = some p.1 := by
    rw [hsatp]
    exact hw.fetch hm (hpc p List.mem_cons_self)
  have hset : (Function.update c.csr .satp (c.get rs)) .satp = c.get rs := Function.update_self ..
  refine ⟨_, ?_, rfl, hset, rfl, rfl⟩
  rw [execAt, if_pos hfetch, hp]
  rfl

theorem frame_subset (stack : Nat) : place (stack + pageSize - 176) 176 ⊆ place stack pageSize := by
  have hsize : pageSize = 4096 := rfl
  exact place_subset_place (by omega) (by omega)

/-- `trampoline` takes its stack, fills its frame, and turns translation off. -/
theorem trampoline_parts : ∃ first mid last, trampoline = first ++ (mid ++ ([.csrw .satp .zero] ++ last)) ∧
    (∀ i ∈ first, plain i && i.keeps .satp) ∧ (∀ i ∈ mid, inFrame i && i.keeps .satp) ∧
    (∀ i ∈ last, plain i && i.keeps .satp) ∧
    ∀ c, (exec first c).x .sp = c.csr .sscratch + BitVec.ofInt 64 (-176) :=
  ⟨trampoline.take 2, (trampoline.drop 2).take 30, trampoline.drop 33, rfl, by decide, by decide, by decide, fun _ => rfl⟩

/-- `proc_entry` turns translation on, loads from its frame, and gives up its stack. -/
theorem procEntry_parts : ∃ first mid last, procEntry = first ++ ([.csrw .satp .t0] ++ (mid ++ last)) ∧
    (∀ i ∈ first, inFrame i && i.keeps .satp) ∧ (∀ i ∈ mid, inFrame i && i.keeps .satp) ∧
    (∀ i ∈ last, plain i && i.keeps .satp) ∧ ∀ c, (exec first c).get .t0 = word c.mem (c.addr .sp 0) :=
  ⟨procEntry.take 2, (procEntry.drop 3).take 23, procEntry.drop 26, rfl, by decide, by decide, by decide, fun _ => rfl⟩

theorem trampoline_translated (hw : Window satp tables m₀ page stack) (hl : Lies page code trampoline)
    (hsatp : c.csr .satp = satp) (hm : Same tables m₀ c.mem) (hd : Disjoint tables (place stack pageSize))
    (hscratch : c.csr .sscratch = BitVec.ofNat 64 (stack + pageSize)) (hlt : stack + pageSize < 2 ^ 64) :
    execAt c code = some (exec trampoline c) := by
  have hsize : pageSize = 4096 := rfl
  obtain ⟨first, mid, last, hsplit, hfirst, hmid, hlast, hsp⟩ := trampoline_parts
  rw [hsplit] at hl ⊢
  obtain ⟨code₁, rest, rfl, hl₁, hl⟩ := hl.split
  obtain ⟨code₂, rest, rfl, hl₂, hl⟩ := hl.split
  obtain ⟨code₃, code₄, rfl, hl₃, hl₄⟩ := hl.split
  obtain ⟨hrun₁, hsatp₁, hm₁⟩ := hw.plain hl₁ hfirst hsatp hm
  have hframe : (exec first c).x .sp = BitVec.ofNat 64 (stack + pageSize - 176) := by
    have htop : (c.csr .sscratch).toNat = stack + pageSize := by
      rw [hscratch, BitVec.toNat_ofNat, Nat.mod_eq_of_lt hlt]
    have hsub : (c.csr .sscratch + BitVec.ofInt 64 (-(176 : Nat))).toNat = (c.csr .sscratch).toNat - 176 :=
      ContextFrames.toNat_add_neg (by omega)
    apply BitVec.eq_of_toNat_eq
    rw [hsp, BitVec.toNat_ofNat, Nat.mod_eq_of_lt (by omega), ← htop]
    exact hsub
  obtain ⟨hrun₂, hsatp₂, hm₂, -⟩ := hw.frame hl₂ hmid hsatp₁ hm₁ hd hframe (frame_subset stack) (by omega)
  obtain ⟨c', hrun₃, hturn, hbare, hm₃, -⟩ := hw.turn hl₃ hsatp₂ hm₂
  obtain ⟨hrun₄, -⟩ := (bare_window tables m₀ page stack).plain hl₄ hlast hbare (hm₃ ▸ hm₂)
  rw [execAt_append, hrun₁, Option.bind_some, execAt_append, hrun₂, Option.bind_some, execAt_append, hrun₃,
    Option.bind_some, hrun₄, exec_append, exec_append, exec_append, hturn]

theorem procEntry_translated (hw : Window satp tables m₀ page stack) (hl : Lies page code procEntry)
    (hbare : c.csr .satp = 0) (hm : Same tables m₀ c.mem) (hd : Disjoint tables (place stack pageSize))
    (hsp : c.x .sp = BitVec.ofNat 64 (stack + pageSize - 176)) (hlt : stack + pageSize < 2 ^ 64)
    (hsatp : word c.mem (stack + pageSize - 176) = satp) : execAt c code = some (exec procEntry c) := by
  have hsize : pageSize = 4096 := rfl
  obtain ⟨first, mid, last, hsplit, hfirst, hmid, hlast, ht₀⟩ := procEntry_parts
  rw [hsplit] at hl ⊢
  obtain ⟨code₁, rest, rfl, hl₁, hl⟩ := hl.split
  obtain ⟨code₂, rest, rfl, hl₂, hl⟩ := hl.split
  obtain ⟨code₃, code₄, rfl, hl₃, hl₄⟩ := hl.split
  have hb := bare_window tables m₀ page stack
  obtain ⟨hrun₁, hsatp₁, hm₁, hsp₁⟩ := hb.frame hl₁ hfirst hbare hm hd hsp (frame_subset stack) (by omega)
  obtain ⟨c', hrun₂, hturn, hsatp₂, hm₂, hx₂⟩ := hb.turn hl₂ hsatp₁ hm₁
  have haddr : c.addr .sp 0 = stack + pageSize - 176 := by
    rw [Cpu.addr_zero c .sp (by decide), hsp, BitVec.toNat_ofNat, Nat.mod_eq_of_lt (by omega)]
  rw [ht₀, haddr, hsatp] at hsatp₂
  obtain ⟨hrun₃, hsatp₃, hm₃, -⟩ := hw.frame hl₃ hmid hsatp₂ (hm₂ ▸ hm₁) hd (hx₂ ▸ hsp₁) (frame_subset stack) (by omega)
  obtain ⟨hrun₄, -⟩ := hw.plain hl₄ hlast hsatp₃ hm₃
  rw [execAt_append, hrun₁, Option.bind_some, execAt_append, hrun₂, Option.bind_some, execAt_append, hrun₃,
    Option.bind_some, hrun₄, exec_append, exec_append, hturn, exec_append]

end Windows

def tableBytes (tables : List Nat) : Set Nat := { x | ∃ t ∈ tables, x ∈ place t pageSize }

section Spaces

variable {l : Layout} {img m : Memory} {root v size : Nat} {calls : List Call} {d : Call} {s : Space}
  {tab : List Nat → Option Nat} {leaf : List Nat → Pte} {free pool : List Nat} {ms ms' : AddressSpaces.Machine}

theorem initialSatp_decode (hr : Frame root) :
    satpMode (initialSatp root).toNat = 8 ∧ satpRoot (initialSatp root).toNat = root := by
  have ha := hr.aligned
  have hlt := hr.lt
  rw [pageSize] at ha
  have hpage : root / pageSize < 2 ^ 60 := by
    rw [pageSize]
    omega
  have hor : (initialSatp root).toNat = 2 ^ 60 * 8 + root / pageSize := by
    have height : (8 <<< 60 : BitVec 64).toNat = 2 ^ 60 * 8 := by decide
    rw [initialSatp, BitVec.toNat_or, height, BitVec.toNat_ofNat, Nat.mod_eq_of_lt (by omega),
      Nat.two_pow_add_eq_or_of_lt hpage]
  rw [hor, satpMode, satpRoot, pageSize]
  omega

theorem reach_call (h : Tree m root tab (leafOf calls)) (hv : ∀ c ∈ calls, c.virt < 2 ^ 39)
    (hp : calls.Pairwise fun c d => c.virt / pageSize ≠ d.virt / pageSize) (hd : d ∈ calls) (hid : d.phys = d.virt)
    (hlt : v < 2 ^ 38) (hpage : d.virt / pageSize = v / pageSize) {access : Access}
    (hflags : pteFlags d.flags &&& pteFlagU = 0 ∧ pteFlags d.flags &&& access.flag ≠ 0) :
    reach m (initialSatp root) access v = some v := by
  obtain ⟨hmode, hroot⟩ := initialSatp_decode (h.frame h.root)
  obtain ⟨hw, hl⟩ := tree_call h hv hp hd (v := v) (by omega) hpage
  have haddr : d.phys / pageSize % 2 ^ 44 * pageSize + v % pageSize = v := by
    rw [hid, hpage, pageSize]
    omega
  have hon : ¬ (8 : Nat) = 0 := by decide
  rw [haddr] at hw
  rw [reach, hmode, hroot, if_neg hon, if_pos hlt, hw, hl]
  exact if_pos hflags

theorem tree_same (h : Mapped l.freeList root s tab leaf free) (hm : Same (tableBytes s.tables) s.mem m) :
    Tree m root tab leaf := by
  have honly : Only (tableBytes s.tables)ᶜ s.mem m := fun x hx => hm x (Set.notMem_compl_iff.mp hx)
  apply h.tree.only honly
  intro p t ht
  rw [Set.disjoint_compl_right_iff_subset]
  exact fun x hx => ⟨t, (h.tables t).mpr ⟨p, ht⟩, hx⟩

theorem tableBytes_disjoint (h : Mapped l.freeList root s tab leaf free) {p : Nat}
    (hu : Unused l.freeList s.tables free p) : Disjoint (tableBytes s.tables) (place p pageSize) := by
  rw [Set.disjoint_left]
  rintro x ⟨t, ht, hx⟩ hxp
  obtain ⟨q, hq⟩ := (h.tables t).mp ht
  have hne : t ≠ p := fun he => hu.tables (he ▸ ht)
  exact Set.disjoint_left.mp (frame_disjoint (h.tree.frame hq) hu.frame hne) hx hxp

theorem trampoline_flags : pteFlags (vmFlagReadable ||| vmFlagExecutable) &&& pteFlagU = 0 ∧
    pteFlags (vmFlagReadable ||| vmFlagExecutable) &&& Access.fetch.flag ≠ 0 := by decide

theorem stack_flags (access : Access) (h : access ≠ .fetch) :
    pteFlags (vmFlagReadable ||| vmFlagWritable) &&& pteFlagU = 0 ∧
      pteFlags (vmFlagReadable ||| vmFlagWritable) &&& access.flag ≠ 0 := by
  cases access with
  | fetch => exact absurd rfl h
  | load | store => decide

/-- The address space of the init process has a window for the trap code. -/
theorem created_window {size : Nat} (hc : Created l img ms ms' root) (h : FreePages l.freeList ms.space.mem pool)
    (hf : ∀ p ∈ pool, Frame p ∧ p < 2 ^ 38) (hl : Loadable img size) (ht : l.trampoline < 2 ^ 38)
    (hclear : Clear l img pool) :
    Window (initialSatp root) (tableBytes ms'.space.tables) ms'.space.mem l.trampoline (ms'.proc .initProc).kernStack ∧
      Disjoint (tableBytes ms'.space.tables) (place (ms'.proc .initProc).kernStack pageSize) ∧
      (ms'.proc .initProc).kernStack + pageSize < 2 ^ 64 := by
  have hf' : ∀ p ∈ pool, Frame p ∧ p < 2 ^ 39 := fun p hp => ⟨(hf p hp).1, by have hlt := (hf p hp).2; omega⟩
  obtain ⟨bs, tab, free, hbs, hm, hpages, hnodup⟩ := created_mapped hc h hf' hl.top (by omega)
  generalize ms'.proc .initProc = proc at hm hpages hnodup ⊢
  obtain ⟨hkpool, hkun⟩ := hpages _ List.mem_cons_self
  obtain ⟨hupool, -⟩ := hpages _ (List.mem_cons_of_mem _ List.mem_cons_self)
  have hne : proc.kernStack ≠ proc.userStack :=
    fun he => (List.nodup_cons.mp hnodup).1 (he ▸ List.mem_cons_self)
  have hp := calls_apart hl hclear hbs hkpool hupool hf' hne
  have hv : ∀ c ∈ stackCalls l proc ++ bs.map Backed.call, c.virt < 2 ^ 39 := by
    rw [List.forall_mem_append]
    exact ⟨stackCalls_virt (by omega) (hf' _ hkpool).2 (hf' _ hupool).2, (pieces_backed hl hbs).2.2.1⟩
  have hk := (hf _ hkpool).2
  have haligned := (hf _ hkpool).1.aligned
  have hsize : pageSize = 4096 := rfl
  refine ⟨⟨?_, ?_⟩, tableBytes_disjoint hm hkun, by omega⟩
  · intro m pc hsame hpc
    rw [hsize] at hpc
    apply reach_call (d := ⟨l.trampoline, l.trampoline, vmFlagReadable ||| vmFlagExecutable⟩) (tree_same hm hsame) hv hp
    · exact List.mem_append_left _ (by simp [stackCalls])
    · rfl
    · omega
    · exact hpc.symm
    · exact trampoline_flags
  · intro m a access hsame ha hin
    rw [mem_place] at hin
    rw [hsize] at haligned hin
    apply reach_call (d := ⟨proc.kernStack, proc.kernStack, vmFlagReadable ||| vmFlagWritable⟩) (tree_same hm hsame) hv hp
    · exact List.mem_append_left _ (by simp [stackCalls])
    · rfl
    · omega
    · show proc.kernStack / pageSize = a / pageSize
      rw [hsize]
      omega
    · exact stack_flags access ha

/-- The code of `trap.S` does for the init process what it would do on physical
memory. It is fetched, and its frame is found, through the page table until it
turns translation off, and again from where it turns it on, whatever has been
written to other pages than the tables. -/
theorem trap_code_translated (hc : Created l img ms ms' root) (h : FreePages l.freeList ms.space.mem pool)
    (hf : ∀ p ∈ pool, Frame p ∧ p < 2 ^ 38) (hl : Loadable img size) (ht : l.trampoline < 2 ^ 38)
    (hclear : Clear l img pool) (hm : Same (tableBytes ms'.space.tables) ms'.space.mem c.mem) :
    (c.csr .satp = initialSatp root →
      c.csr .sscratch = BitVec.ofNat 64 ((ms'.proc .initProc).kernStack + pageSize) →
      ∀ code, Lies l.trampoline code trampoline → execAt c code = some (exec trampoline c)) ∧
    (c.csr .satp = 0 → c.x .sp = BitVec.ofNat 64 ((ms'.proc .initProc).kernStack + pageSize - 176) →
      word c.mem ((ms'.proc .initProc).kernStack + pageSize - 176) = initialSatp root →
      ∀ code, Lies l.trampoline code procEntry → execAt c code = some (exec procEntry c)) := by
  obtain ⟨hw, hd, hlt⟩ := created_window hc h hf hl ht hclear
  constructor
  · exact fun hsatp hscratch code hlies => trampoline_translated hw hlies hsatp hm hd hscratch hlt
  · exact fun hbare hsp hword code hlies => procEntry_translated hw hlies hbare hm hd hsp hlt hword

def trapCsr (satp sscratch : BitVec 64) : Csr → BitVec 64
  | .satp => satp
  | .sscratch => sscratch
  | _ => 0

/-- The first trap of the init process that is made from the small image. -/
theorem trap_code_translated_boot : ∃ (ms' : AddressSpaces.Machine) (root : Nat) (c : Cpu), c.mem = ms'.space.mem ∧
    c.csr .satp = initialSatp root ∧
    execAt c (trampoline.zipIdx.map fun p => (0x80200000 + 4 * p.2, p.1)) = some (exec trampoline c) := by
  obtain ⟨m, hfree⟩ := boot_pages
  obtain ⟨kernStack, userStack, rest, hdrop, hle⟩ := boot_demand
  have hblank : FreePages bootLayout.freeList (blank m).space.mem (heapPages 0x80400000) := hfree
  have hlow : ∀ p ∈ heapPages 0x80400000, Frame p ∧ p < 2 ^ 38 := by
    intro p hp
    refine ⟨(boot_frames p hp).1, ?_⟩
    obtain ⟨i, hi, rfl⟩ := mem_heapPages.mp hp
    simp only [kheapSize, pageSize] at hi ⊢
    omega
  obtain ⟨ms', root, hc⟩ := created_of_pages hblank boot_frames tinyElf_loadable.top (by decide) (by decide) hdrop hle
  let c : Cpu := ⟨fun _ => 0, trapCsr (initialSatp root) (BitVec.ofNat 64 ((ms'.proc .initProc).kernStack + pageSize)),
    ms'.space.mem⟩
  have hsame : Same (tableBytes ms'.space.tables) ms'.space.mem c.mem := fun _ _ => rfl
  have htrans := trap_code_translated hc hblank hlow tinyElf_loadable (by decide) boot_clear hsame
  have hlies : Lies bootLayout.trampoline (trampoline.zipIdx.map fun p => (0x80200000 + 4 * p.2, p.1)) trampoline :=
    ⟨rfl, by decide⟩
  exact ⟨ms', root, c, rfl, rfl, htrans.1 rfl rfl _ hlies⟩

end Spaces

end Karg.TrapTranslation
