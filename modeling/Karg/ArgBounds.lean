import Karg.StackPages

namespace Karg.ArgBounds

open ByteMemory KernelMemory PageAlloc ProcStack StackArgs StackPages AddressSpaces

/-- What the loop of `init_stacks` writes through the user stack, in this order,
each with its address and its size. Without the fuel to measure a string the list
ends before it. -/
def argWrites (fuel argv newArgv : Nat) (m : Memory) (usp i : Nat) : Nat → List (Nat × Nat)
  | 0 => []
  | n + 1 =>
      let arg := load m (argv + 8 * i) 8
      match strLen fuel m arg with
      | none => []
      | some len =>
          let usp := usizeSub usp (len + 1)
          let m := store m (newArgv + 8 * i) 8 usp
          (newArgv + 8 * i, 8) :: (usp, len + 1) ::
            argWrites fuel argv newArgv (memCopy m usp arg (len + 1)) usp (i + 1) n

def stackWrites (l : Layout) (fuel : Nat) (m : Memory) (argc : Int) (argv : Nat) : List (Nat × Nat) :=
  let (m, kernStack) := pageAlloc l.freeList m
  let (m, userStack) := pageAlloc l.freeList m
  if kernStack = nullptr ∨ userStack = nullptr then []
  else
    let usp := usizeSub (usizeAdd userStack pageSize) (usizeMul (BitVec.ofInt 64 (argc + 1)).toNat 8)
    let newArgv := usp
    let last := usizeAdd newArgv (BitVec.ofInt 64 (8 * argc)).toNat
    (last, 8) :: argWrites fuel argv newArgv (store m last 8 nullptr) usp 0 argc.toNat

variable {l : Layout} {m m' : Memory} {src : Set Nat} {argv newArgv usp i a len fuel lo kernStack userStack : Nat}
  {args : List (Nat × Nat)} {free : List Nat}

theorem copyArgs_only_writes {n usp' : Nat} (h : copyArgs fuel argv newArgv m usp i n = some (m', usp')) :
    Only { x | ∃ w ∈ argWrites fuel argv newArgv m usp i n, x ∈ place w.1 w.2 } m m' := by
  induction n generalizing m usp i with
  | zero =>
      cases h
      exact Only.refl _ _
  | succ n ih =>
      obtain ⟨len, hlen, h⟩ := Option.bind_eq_some_iff.mp h
      simp only [argWrites, hlen]
      refine Only.trans ((copyArg_only _ _ _ _ _ _ _).mono ?_) ((ih h).mono ?_)
      · rintro x (hx | hx)
        · exact ⟨_, List.mem_cons_of_mem _ List.mem_cons_self, hx⟩
        · exact ⟨_, List.mem_cons_self, hx⟩
      · rintro x ⟨w, hw, hx⟩
        exact ⟨w, List.mem_cons_of_mem _ (List.mem_cons_of_mem _ hw), hx⟩

/-- The room that the rest of the loop has: the strings so far end at `usp`, above
`lo`, and the vector ends inside the page. -/
structure Space (lo newArgv usp n : Nat) : Prop where
  low : lo ≤ usp
  top : usp ≤ newArgv
  vector : newArgv + 8 * n ≤ lo + pageSize
  page : lo + pageSize < 2 ^ 64

theorem Space.entry {n : Nat} (h : Space lo newArgv usp n) (hi : i < n) :
    place (newArgv + 8 * i) 8 ⊆ place lo pageSize := by
  have h₁ := h.low
  have h₂ := h.top
  have h₃ := h.vector
  exact place_subset_place (by omega) (by omega)

theorem Space.text {n : Nat} (h : Space lo newArgv usp n) (hfit : lo + (len + 1) ≤ usp) :
    place (usp - (len + 1)) (len + 1) ⊆ place lo pageSize := by
  have h₂ := h.top
  have h₃ := h.vector
  exact place_subset_place (by omega) (by omega)

theorem Space.sub {n : Nat} (h : Space lo newArgv usp n) (hfit : lo + (len + 1) ≤ usp) :
    usizeSub usp (len + 1) = usp - (len + 1) := by
  have h₂ := h.top
  have h₃ := h.vector
  have h₄ := h.page
  exact usizeSub_of_le (by omega) (by omega)

theorem Space.next {n : Nat} (h : Space lo newArgv usp n) (hfit : lo + (len + 1) ≤ usp) :
    Space lo newArgv (usp - (len + 1)) n :=
  ⟨Nat.le_sub_of_add_le hfit, (Nat.sub_le ..).trans h.top, h.vector, h.page⟩

theorem argsAt_round {n : Nat} (h : ArgsAt m src argv (i + 1) args) (hout : Disjoint src (place lo pageSize))
    (hs : Space lo newArgv usp n) (hi : i < n) (hfit : lo + (len + 1) ≤ usp) (v : Nat) :
    ArgsAt (memCopy (store m (newArgv + 8 * i) 8 v) (usp - (len + 1)) a (len + 1)) src argv (i + 1) args := by
  apply h.same
  apply (copyArg_only m newArgv i (usp - (len + 1)) a len v).same
  exact hout.mono_right (Set.union_subset (hs.text hfit) (hs.entry hi))

theorem argWrites_inside (fuel : Nat) (h : ArgsAt m src argv i args) (hout : Disjoint src (place lo pageSize))
    (hs : Space lo newArgv usp (i + args.length)) (hsize : lo + argsSize args ≤ usp) :
    ∀ w ∈ argWrites fuel argv newArgv m usp i args.length, place w.1 w.2 ⊆ place lo pageSize := by
  induction args generalizing m usp i with
  | nil => exact fun w hw => absurd hw List.not_mem_nil
  | cons arg args ih =>
      obtain ⟨a, len⟩ := arg
      obtain ⟨hload, -, hstr, -, hrest⟩ := h
      rw [argsSize_cons] at hsize
      have hfit : lo + (len + 1) ≤ usp := by omega
      have hi : i < i + (args.length + 1) := by omega
      simp only [List.length_cons, argWrites, hload]
      cases hlen : strLen fuel m a with
      | none => exact fun w hw => absurd hw List.not_mem_nil
      | some n =>
          obtain rfl := strLen_unique hstr hlen
          have hnext := hs.next hfit
          rw [List.length_cons, ← Nat.add_assoc, Nat.add_right_comm] at hnext
          simp only [hs.sub hfit, List.forall_mem_cons]
          exact ⟨hs.entry hi, hs.text hfit, ih (argsAt_round hrest hout hs hi hfit _) hnext (by omega)⟩

theorem copy_outside (hlo : lo ≤ usp) (hpage : pageSize ≤ lo) (hend : usp < 2 ^ 64) (hbig : usp < lo + (len + 1)) :
    ¬ place (usizeSub usp (len + 1)) (len + 1) ⊆ place lo pageSize := by
  intro hsub
  have hfirst := hsub (mem_place.mpr ⟨Nat.le_refl _, Nat.lt_add_of_pos_right (Nat.succ_pos len)⟩)
  have hlast := hsub (mem_place.mpr ⟨Nat.le_add_right _ len, Nat.lt_succ_self _⟩)
  rw [mem_place] at hfirst hlast
  by_cases hle : len + 1 ≤ usp
  · rw [usizeSub_of_le hle hend] at hfirst
    omega
  · omega

theorem argWrites_outside (fuel : Nat) (h : ArgsAt m src argv i args) (hout : Disjoint src (place lo pageSize))
    (hs : Space lo newArgv usp (i + args.length)) (hpage : pageSize ≤ lo) (hsize : usp < lo + argsSize args)
    (hfuel : ∀ a ∈ args, a.2 < fuel) :
    ∃ w ∈ argWrites fuel argv newArgv m usp i args.length, ¬ place w.1 w.2 ⊆ place lo pageSize := by
  induction args generalizing m usp i with
  | nil => exact absurd hs.low (Nat.not_le_of_lt hsize)
  | cons arg args ih =>
      obtain ⟨a, len⟩ := arg
      obtain ⟨hload, -, hstr, -, hrest⟩ := h
      obtain ⟨hlen, hfuel⟩ := List.forall_mem_cons.mp hfuel
      rw [argsSize_cons] at hsize
      simp only [List.length_cons, argWrites, hload, strLen_eq hstr hlen]
      by_cases hfit : lo + (len + 1) ≤ usp
      · have hi : i < i + (args.length + 1) := by omega
        have hnext := hs.next hfit
        rw [List.length_cons, ← Nat.add_assoc, Nat.add_right_comm] at hnext
        rw [hs.sub hfit]
        obtain ⟨w, hw, hnot⟩ := ih (argsAt_round hrest hout hs hi hfit _) hnext (by omega) hfuel
        exact ⟨w, List.mem_cons_of_mem _ (List.mem_cons_of_mem _ hw), hnot⟩
      · have hend : usp < 2 ^ 64 := by
          have h₁ := hs.top
          have h₂ := hs.vector
          have h₃ := hs.page
          omega
        exact ⟨_, List.mem_cons_of_mem _ List.mem_cons_self, copy_outside hs.low hpage hend (Nat.lt_of_not_le hfit)⟩

def vectorAt (userStack n : Nat) : Nat := usizeSub (userStack + pageSize) (8 * (n + 1))

theorem vectorAt_eq {n : Nat} (hu : Page userStack) (hn : 8 * (n + 1) ≤ pageSize) :
    vectorAt userStack n = userStack + pageSize - 8 * (n + 1) :=
  usizeSub_of_le (Nat.le_add_left_of_le hn) hu.end_lt

theorem vectorAt_outside {n : Nat} (hu : Page userStack) (hn : n < 2 ^ 31) (hbig : pageSize < 8 * (n + 1)) :
    vectorAt userStack n ∉ place userStack pageSize := by
  have hend := hu.end_lt
  rw [mem_place, vectorAt, usizeSub]
  omega

theorem vectorAt_last {n : Nat} (hu : Page userStack) (hn : n < 2 ^ 31) :
    usizeAdd (vectorAt userStack n) (8 * n) = userStack + pageSize - 8 := by
  have hend := hu.end_lt
  rw [pageSize] at hend
  rw [usizeAdd, vectorAt, usizeSub, pageSize]
  omega

theorem stackWrites_eq (hp : FreePages l.freeList m (kernStack :: userStack :: free)) {n : Nat} (hn : n < 2 ^ 31)
    (fuel argv : Nat) : stackWrites l fuel m n argv = (userStack + pageSize - 8, 8) ::
      argWrites fuel argv (vectorAt userStack n) (store (taken l.freeList m) (userStack + pageSize - 8) 8 nullptr)
        (vectorAt userStack n) 0 n := by
  obtain ⟨m₁, hm₁, hm₂, hkn, hun⟩ := pageAlloc_taken hp
  have hu := hp.page userStack (List.mem_cons_of_mem _ List.mem_cons_self)
  obtain ⟨hmul, hwords⟩ := vector_size (n := n) (by omega)
  have hvec : usizeSub (userStack + pageSize) (8 * (n + 1)) = vectorAt userStack n := rfl
  simp only [stackWrites, hm₁, hm₂, hkn, hun, or_self, if_false, hwords, hmul, usizeAdd_of_lt hu.end_lt, hvec,
    vectorAt_last hu hn, Int.toNat_natCast]

/-- With its two pages `init_stacks` does not fail. From there on it writes what the
list tells, and the frame on the stack of the kernel. -/
theorem initStacks_writes {sstatus : BitVec 64} {proc proc' : Proc} {entry : Nat} {argc res : Int}
    (hp : FreePages l.freeList m (kernStack :: userStack :: free))
    (h : initStacks l sstatus fuel m proc entry argc argv = some (m', proc', res)) : res = 0 ∧
      Only ({ x | ∃ w ∈ stackWrites l fuel m argc argv, x ∈ place w.1 w.2 } ∪ frameBytes (kernStack + pageSize - 304))
        (taken l.freeList m) m' := by
  obtain ⟨m₁, hm₁, hm₂, hkn, hun⟩ := pageAlloc_taken hp
  have hk := hp.page kernStack List.mem_cons_self
  simp only [initStacks, hm₁, hm₂, hkn, hun, or_self, if_false] at h
  obtain ⟨⟨m₃, usp⟩, hcopy, h⟩ := Option.bind_eq_some_iff.mp h
  have hsize : 304 ≤ kernStack + pageSize := by
    rw [pageSize]
    omega
  have hsp : usizeSub (usizeAdd kernStack pageSize) (8 * 38) = kernStack + pageSize - 304 := by
    rw [usizeAdd_of_lt hk.end_lt, usizeSub_of_le hsize hk.end_lt]
  obtain ⟨hmem, hrest⟩ := Prod.mk.inj (Option.some.inj h)
  have hframe : Only (frameBytes (kernStack + pageSize - 304)) m₃ m' := by
    rw [← hmem]
    apply procFillStack_only
    exact hsp
  refine ⟨(congrArg Prod.snd hrest).symm, Only.trans ?_ (hframe.mono Set.subset_union_right)⟩
  simp only [stackWrites, hm₁, hm₂, hkn, hun, or_self, if_false]
  refine Only.mono ?_ Set.subset_union_left
  refine Only.trans ((store_only _ _ _ _).mono ?_) ((copyArgs_only_writes hcopy).mono ?_)
  · exact fun x hx => ⟨_, List.mem_cons_self, hx⟩
  · rintro x ⟨w, hw, hx⟩
    exact ⟨w, List.mem_cons_of_mem _ hw, hx⟩

theorem stackWrites_inside_iff (hp : FreePages l.freeList m (kernStack :: userStack :: free))
    (hargs : ArgsAt (taken l.freeList m) src argv 0 args) (hsrc : Disjoint src (place userStack pageSize))
    (hn : args.length < 2 ^ 31) : (∀ fuel, ∀ w ∈ stackWrites l fuel m args.length argv,
      place w.1 w.2 ⊆ place userStack pageSize) ↔ Room args := by
  have hu := hp.page userStack (List.mem_cons_of_mem _ List.mem_cons_self)
  have hlast : place (userStack + pageSize - 8) 8 ⊆ place userStack pageSize := by
    rw [pageSize]
    exact place_subset_place (by omega) (by omega)
  have hargs' := hargs.same (((store_only _ _ 8 nullptr).mono hlast).same hsrc)
  have hpage : pageSize ≤ userStack := Nat.le_of_dvd hu.pos (Nat.dvd_of_mod_eq_zero hu.aligned)
  by_cases hvec : 8 * (args.length + 1) ≤ pageSize
  · have hat := vectorAt_eq hu hvec
    have hspace : Space userStack (vectorAt userStack args.length) (vectorAt userStack args.length) (0 + args.length) := by
      refine ⟨?_, Nat.le_refl _, ?_, hu.end_lt⟩ <;> omega
    constructor
    · intro hall
      rw [Room]
      by_contra hroom
      obtain ⟨w, hw, hnot⟩ := argWrites_outside (argsSize args) hargs' hsrc hspace hpage (by omega)
        fun a ha => lt_argsSize ha
      refine hnot (hall (argsSize args) w ?_)
      rw [stackWrites_eq hp hn]
      exact List.mem_cons_of_mem _ hw
    · intro hroom fuel
      rw [Room] at hroom
      rw [stackWrites_eq hp hn, List.forall_mem_cons]
      exact ⟨hlast, argWrites_inside fuel hargs' hsrc hspace (by omega)⟩
  · -- The first entry of such a vector lies below the page.
    have hroom : ¬ Room args := by
      rw [Room]
      omega
    refine iff_of_false (fun hall => ?_) hroom
    cases args with
    | nil => exact hvec (by decide)
    | cons arg args =>
        obtain ⟨a, len⟩ := arg
        obtain ⟨hload, -, hstr, -⟩ := hargs'
        have hw := hall (len + 1)
        rw [stackWrites_eq hp hn] at hw
        simp only [List.length_cons, argWrites, hload, strLen_eq hstr (Nat.lt_succ_self len), List.forall_mem_cons] at hw
        have hfirst := hw.2.1 (mem_place.mpr ⟨Nat.le_refl _, by omega⟩)
        rw [Nat.mul_zero, Nat.add_zero] at hfirst
        exact vectorAt_outside hu hn (Nat.lt_of_not_le hvec) hfirst

/-- With its two pages `init_stacks` never fails, and it stays in the stack of the
user exactly when the arguments have room there. -/
theorem init_stacks_confined_iff (l : Layout) (sstatus : BitVec 64) (m : Memory) (proc : Proc) (entry argv : Nat)
    (src : Set Nat) (args : List (Nat × Nat)) (kernStack userStack : Nat) (free : List Nat)
    (hp : FreePages l.freeList m (kernStack :: userStack :: free))
    (hargs : ArgsAt (taken l.freeList m) src argv 0 args) (hsrc : Disjoint src (place userStack pageSize))
    (hn : args.length < 2 ^ 31) :
    ((∃ fuel m' proc' res, initStacks l sstatus fuel m proc entry args.length argv = some (m', proc', res) ∧ res < 0) ∨
      ∀ fuel, ∀ w ∈ stackWrites l fuel m args.length argv, place w.1 w.2 ⊆ place userStack pageSize) ↔ Room args := by
  rw [← stackWrites_inside_iff hp hargs hsrc hn]
  constructor
  · rintro (⟨fuel, m', proc', res, hrun, hres⟩ | hall)
    · rw [(initStacks_writes hp hrun).1] at hres
      exact absurd hres (Int.lt_irrefl 0)
    · exact hall
  · exact .inr

section Boot

def argMemory (m : Memory) (len : Nat) : Memory :=
  ⟨fun x => if 0x1000 ≤ x ∧ x < 0x1000 + len then 0x41 else if 0x3000 ≤ x ∧ x < 0x3003 then 0x42
    else if x = 0x4001 then 0x10 else if x = 0x4009 then 0x30
    else if 0x1000 ≤ x ∧ x < 0x5000 then 0 else m.byte x⟩

theorem argMemory_only (m : Memory) {len : Nat} (hlen : len ≤ 0x1000) :
    Only (place 0x1000 0x4000) m (argMemory m len) := by
  intro x hx
  rw [mem_place] at hx
  have h₁ : ¬ (0x1000 ≤ x ∧ x < 0x1000 + len) := by omega
  have h₂ : ¬ (0x3000 ≤ x ∧ x < 0x3003) := by omega
  have h₃ : x ≠ 0x4001 := by omega
  have h₄ : x ≠ 0x4009 := by omega
  simp only [argMemory, if_neg h₁, if_neg h₂, if_neg h₃, if_neg h₄, if_neg hx]

theorem argMemory_args (m : Memory) {len : Nat} (hlen : len ≤ 0x1000) :
    ArgsAt (argMemory m len) (place 0x1000 0x4000) 0x4000 0 [(0x1000, len), (0x3000, 3)] := by
  have hbyte : ∀ x, 0x1000 + len ≤ x → x < 0x5000 → (argMemory m len).byte x =
      if 0x3000 ≤ x ∧ x < 0x3003 then 0x42 else if x = 0x4001 then 0x10 else if x = 0x4009 then 0x30 else 0 := by
    intro x hx hx'
    have h₁ : ¬ (0x1000 ≤ x ∧ x < 0x1000 + len) := by omega
    have h₂ : 0x1000 ≤ x ∧ x < 0x5000 := by omega
    simp only [argMemory, if_neg h₁, if_pos h₂]
  have hend : (argMemory m len).byte (0x1000 + len) = 0 := by
    rw [hbyte _ (Nat.le_refl _) (by omega), if_neg (by omega), if_neg (by omega), if_neg (by omega)]
  have hvec : ∀ x, 0x4000 ≤ x → x < 0x4010 → (argMemory m len).byte x =
      if x = 0x4001 then 0x10 else if x = 0x4009 then 0x30 else 0 := by
    intro x hx hx'
    rw [hbyte x (by omega) (by omega), if_neg (by omega)]
  refine ⟨?_, ?_, ⟨fun j hj => ?_, hend⟩, ?_, ?_, ?_, ⟨fun j hj => ?_, ?_⟩, ?_, trivial⟩
  · simp [load, hvec]
  · exact place_subset_place (by omega) (by omega)
  · have h₁ : 0x1000 ≤ 0x1000 + j ∧ 0x1000 + j < 0x1000 + len := by omega
    simp only [argMemory, if_pos h₁]
    decide
  · exact place_subset_place (by omega) (by omega)
  · simp [load, hvec]
  · exact place_subset_place (by omega) (by omega)
  · rw [hbyte _ (by omega) (by omega), if_pos (by omega)]
    decide
  · rw [hbyte _ (by omega) (by omega)]
    rfl
  · exact place_subset_place (by omega) (by omega)

theorem boot_args (len : Nat) (hlen : len ≤ 0x1000) : ∃ m free,
    FreePages bootLayout.freeList m (0x80400000 :: 0x80401000 :: free) ∧
    ArgsAt (taken bootLayout.freeList m) (place 0x1000 0x4000) 0x4000 0 [(0x1000, len), (0x3000, 3)] := by
  obtain ⟨m, hm⟩ := boot_pages
  have hoff : Disjoint (place 0x1000 0x4000) (nodes (0x80300010 :: heapPages 0x80400000)) := by
    apply boot_off (by decide)
    intro i
    rw [pageSize]
    omega
  have hm := hm.frame (argMemory_only m hlen) hoff.symm
  obtain ⟨rest, hrest⟩ := heapPages_three
  rw [hrest] at hm hoff
  have hoff := hoff.mono_right (nodes_rest 0x80300010 0x80400000 _)
  exact ⟨argMemory m len, 0x80402000 :: rest, hm, (argMemory_args m hlen).same ((taken_pages hm).2.same hoff)⟩

theorem room_two : Room [(0x1000, 5), (0x3000, 3)] := by
  rw [Room]
  decide

theorem init_stacks_confined_iff_short : ∃ m free,
    FreePages bootLayout.freeList m (0x80400000 :: 0x80401000 :: free) ∧
    ∀ fuel, ∀ w ∈ stackWrites bootLayout fuel m 2 0x4000, place w.1 w.2 ⊆ place 0x80401000 pageSize := by
  obtain ⟨m, free, hp, hargs⟩ := boot_args 5 (by decide)
  have hsrc : Disjoint (place 0x1000 0x4000) (place 0x80401000 pageSize) := disjoint_place (by decide)
  have hiff := init_stacks_confined_iff bootLayout 0 m ⟨0, 0, 0, 0, 0⟩ 0 0x4000 _ _ _ _ free hp hargs hsrc (by decide)
  rcases hiff.mpr room_two with ⟨_, _, _, _, hrun, hres⟩ | hall
  · rw [(initStacks_writes hp hrun).1] at hres
    exact absurd hres (Int.lt_irrefl 0)
  · exact ⟨m, free, hp, hall⟩

/-- One argument of 4080 letters. Its copy starts one byte below the stack of the
user, in the page that holds the stack of the kernel. -/
theorem init_stacks_below : ∃ m free, FreePages bootLayout.freeList m (0x80400000 :: 0x80401000 :: free) ∧
    ArgsAt (taken bootLayout.freeList m) (place 0x1000 0x4000) 0x4000 0 [(0x1000, 4080)] ∧
    ∀ fuel, 4080 < fuel → (0x80400FFF, 4081) ∈ stackWrites bootLayout fuel m 1 0x4000 := by
  obtain ⟨m, free, hp, hentry, hvec, hletters, hletters', -⟩ := boot_args 4080 (by decide)
  have hargs : ArgsAt (taken bootLayout.freeList m) (place 0x1000 0x4000) 0x4000 0 [(0x1000, 4080)] :=
    ⟨hentry, hvec, hletters, hletters', trivial⟩
  refine ⟨m, free, hp, hargs, fun fuel hfuel => ?_⟩
  have hsrc : Disjoint (place 0x1000 0x4000) (place (0x80401000 + pageSize - 8) 8) := disjoint_place (by decide)
  obtain ⟨hload, -, hstr, -⟩ := hargs.same ((store_only _ _ 8 nullptr).same hsrc)
  have hw := stackWrites_eq hp (by decide : 1 < 2 ^ 31) fuel 0x4000
  simp only [argWrites, hload, strLen_eq hstr hfuel] at hw
  rw [show ((1 : Nat) : Int) = 1 from rfl] at hw
  rw [hw]
  exact List.mem_cons_of_mem _ (List.mem_cons_of_mem _ List.mem_cons_self)

end Boot

end Karg.ArgBounds
