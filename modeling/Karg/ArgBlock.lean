import Karg.ArgBounds

namespace Karg.ArgBlock

open ByteMemory KernelMemory PageAlloc ProcStack StackArgs StackPages ArgBounds Riscv ContextFrames AddressSpaces Execution

/-- Entries of the new vector from the `i`-th on, and the strings below `usp` that
they point to, as they were in `orig`. -/
def Copied (orig m : Memory) (vec : Nat) : Nat → Nat → List (Nat × Nat) → Prop
  | _, _, [] => True
  | usp, i, (a, len) :: args => load m (vec + 8 * i) 8 = usp - (len + 1) ∧
      (∀ j ≤ len, m.byte (usp - (len + 1) + j) = orig.byte (a + j)) ∧
      Copied orig m vec (usp - (len + 1)) (i + 1) args

variable {orig orig' m m' : Memory} {src s : Set Nat} {argv vec usp i a len lo n : Nat} {args : List (Nat × Nat)}

theorem Copied.source (h : Copied orig m vec usp i args) (ha : ArgsAt orig src argv i args)
    (hs : Same src orig' orig) : Copied orig' m vec usp i args := by
  induction args generalizing usp i with
  | nil => trivial
  | cons arg args ih =>
      obtain ⟨hword, hbytes, hrest⟩ := h
      obtain ⟨-, -, -, hsrc, ha⟩ := ha
      refine ⟨hword, fun j hj => (hbytes j hj).trans (hs _ (hsrc ?_)), ih hrest ha⟩
      rw [mem_place]
      omega

theorem Copied.only (h : Copied orig m vec usp i args) (hsize : argsSize args ≤ usp) (hm : Only s m m')
    (hd : Disjoint (written vec usp i args) s) : Copied orig m' vec usp i args := by
  induction args generalizing usp i with
  | nil => trivial
  | cons arg args ih =>
      obtain ⟨a, len⟩ := arg
      obtain ⟨hword, hbytes, hrest⟩ := h
      rw [written_cons vec i hsize, Set.disjoint_union_left, Set.disjoint_union_left] at hd
      rw [argsSize_cons] at hsize
      refine ⟨(hm.load_eq hd.1.2).trans hword, fun j hj => ?_, ih hrest (by omega) hd.2⟩
      refine (hm.same hd.1.1 _ ?_).trans (hbytes j hj)
      rw [mem_place]
      omega

theorem round_copied (m : Memory) (hsrc : place a (len + 1) ⊆ src) (hout : Disjoint src (place lo pageSize))
    (hs : Space lo vec usp n) (hi : i < n) (hfit : lo + (len + 1) ≤ usp) {r : Memory}
    (hr : r = memCopy (store m (vec + 8 * i) 8 (usp - (len + 1))) (usp - (len + 1)) a (len + 1)) :
    load r (vec + 8 * i) 8 = usp - (len + 1) ∧ ∀ j ≤ len, r.byte (usp - (len + 1) + j) = m.byte (a + j) := by
  have htop := hs.top
  have hlt : usp - (len + 1) < 256 ^ 8 := by
    have hv := hs.vector
    have hp := hs.page
    omega
  constructor
  · rw [hr, (memCopy_only _ _ _ _).load_eq (disjoint_place (by omega)), load_store_of_lt _ _ hlt]
  · intro j hj
    rw [hr, memCopy_disjoint ((hout.mono_left hsrc).mono_right (hs.text hfit)), memCopyFrom_byte, if_pos (by omega),
      Nat.add_sub_cancel_left]
    refine store_only _ _ _ _ _ fun hx => ?_
    exact Set.disjoint_left.mp hout (hsrc (mem_place.mpr ⟨Nat.le_add_right a j, by omega⟩)) (hs.entry hi hx)

theorem copyArgs_copied (h : ArgsAt m src argv i args) (hout : Disjoint src (place lo pageSize))
    (hs : Space lo vec usp (i + args.length)) (hsize : lo + argsSize args ≤ usp) :
    ∃ m₁, (∀ fuel, (∀ a ∈ args, a.2 < fuel) →
        copyArgs fuel argv vec m usp i args.length = some (m₁, usp - argsSize args)) ∧
      Only (written vec usp i args) m m₁ ∧ Copied m m₁ vec usp i args := by
  induction args generalizing m usp i with
  | nil => exact ⟨m, fun fuel _ => rfl, Only.refl _ _, trivial⟩
  | cons arg args ih =>
      obtain ⟨a, len⟩ := arg
      obtain ⟨hload, -, hstr, hsrc, hrest⟩ := h
      have hall := written_cons vec i (Nat.le_trans (Nat.le_add_left _ lo) hsize)
      rw [argsSize_cons] at hsize
      have hfit : lo + (len + 1) ≤ usp := by omega
      have hi : i < i + (args.length + 1) := by omega
      have hnext := hs.next hfit
      rw [List.length_cons, ← Nat.add_assoc, Nat.add_right_comm] at hnext
      obtain ⟨r, hr⟩ : ∃ r, r = memCopy (store m (vec + 8 * i) 8 (usp - (len + 1))) (usp - (len + 1)) a (len + 1) :=
        ⟨_, rfl⟩
      have hone : Only (place (usp - (len + 1)) (len + 1) ∪ place (vec + 8 * i) 8) m r := by
        rw [hr]
        exact copyArg_only _ _ _ _ _ _ _
      have hrest' : ArgsAt r src argv (i + 1) args := by
        rw [hr]
        exact argsAt_round hrest hout hs hi hfit _
      have hapart : Disjoint (place (usp - (len + 1)) (len + 1) ∪ place (vec + 8 * i) 8)
          (written vec (usp - (len + 1)) (i + 1) args) := written_apart (by omega) hs.top
      obtain ⟨m₁, hrun, honly, hcopied⟩ := ih hrest' hnext (by omega)
      obtain ⟨hword, hbytes⟩ := round_copied m hsrc hout hs hi hfit hr
      refine ⟨m₁, fun fuel hfuel => ?_, ?_, ?_, fun j hj => ?_, ?_⟩
      · obtain ⟨hlen, hfuel⟩ := List.forall_mem_cons.mp hfuel
        have hend : usp - argsSize ((a, len) :: args) = usp - (len + 1) - argsSize args := by
          rw [argsSize_cons, Nat.sub_add_eq]
        simp only [List.length_cons, copyArgs, hload, strLen_eq hstr hlen, Option.bind_eq_bind, Option.bind_some,
          hs.sub hfit, ← hr, hrun fuel hfuel, hend]
      · rw [hall]
        exact (hone.mono Set.subset_union_left).trans (honly.mono Set.subset_union_right)
      · exact (honly.load_eq (hapart.mono_left Set.subset_union_right)).trans hword
      · refine (honly.same (hapart.mono_left Set.subset_union_left) _ ?_).trans (hbytes j hj)
        rw [mem_place]
        omega
      · exact hcopied.source hrest' (hone.same (hout.mono_right (Set.union_subset (hs.text hfit) (hs.entry hi))))

def copyAt (usp : Nat) (args : List (Nat × Nat)) (k : Nat) : Nat := usp - argsSize (args.take (k + 1))

theorem Copied.get {k : Nat} (h : Copied orig m vec usp i args) (hk : args[k]? = some (a, len)) :
    load m (vec + 8 * (i + k)) 8 = copyAt usp args k ∧
      ∀ j ≤ len, m.byte (copyAt usp args k + j) = orig.byte (a + j) := by
  induction args generalizing usp i k with
  | nil => cases hk
  | cons arg args ih =>
      obtain ⟨b, n⟩ := arg
      obtain ⟨hword, hbytes, hrest⟩ := h
      cases k with
      | zero =>
          cases hk
          have hat : copyAt usp ((a, len) :: args) 0 = usp - (len + 1) := by
            rw [copyAt, List.take_succ_cons, argsSize_cons]
            rfl
          rw [hat]
          exact ⟨hword, hbytes⟩
      | succ k =>
          have hat : copyAt usp ((b, n) :: args) (k + 1) = copyAt (usp - (n + 1)) args k := by
            rw [copyAt, List.take_succ_cons, argsSize_cons, Nat.sub_add_eq, copyAt]
          have hi : i + (k + 1) = i + 1 + k := by omega
          rw [hat, hi]
          exact ih hrest hk

theorem argsAt_get {k : Nat} (h : ArgsAt m src argv i args) (hk : args[k]? = some (a, len)) : Str m a len := by
  induction args generalizing i k with
  | nil => cases hk
  | cons arg args ih =>
      obtain ⟨-, -, hstr, -, hrest⟩ := h
      cases k with
      | zero =>
          cases hk
          exact hstr
      | succ k => exact ih hrest hk

theorem argsSize_take_succ {k : Nat} (hk : args[k]? = some (a, len)) :
    argsSize (args.take (k + 1)) = argsSize (args.take k) + (len + 1) := by
  rw [argsSize, List.take_add_one, hk, List.map_append, List.sum_append]
  rfl

theorem argsSize_take_mono {k k' : Nat} (h : k ≤ k') : argsSize (args.take k) ≤ argsSize (args.take k') := by
  obtain ⟨d, rfl⟩ := Nat.exists_eq_add_of_le h
  rw [argsSize, argsSize, List.take_add, List.map_append, List.sum_append]
  exact Nat.le_add_right _ _

theorem argsSize_take_le (args : List (Nat × Nat)) (k : Nat) : argsSize (args.take k) ≤ argsSize args := by
  have hle : argsSize (args.take k) ≤ argsSize (args.take (max k args.length)) :=
    argsSize_take_mono (Nat.le_max_left ..)
  rwa [List.take_of_length_le (Nat.le_max_right ..)] at hle

theorem copyAt_end {k : Nat} (hsize : argsSize args ≤ usp) (hk : args[k]? = some (a, len)) :
    copyAt usp args k + (len + 1) = usp - argsSize (args.take k) := by
  have hle := argsSize_take_le args (k + 1)
  rw [argsSize_take_succ hk] at hle
  rw [copyAt, argsSize_take_succ hk]
  omega

theorem toNat_and_not (x y : BitVec 64) : (x &&& ~~~y).toNat = x.toNat - (x &&& y).toNat := by
  have hor : (x &&& y) ||| (x &&& ~~~y) = x := by
    ext i
    simp only [BitVec.getElem_or, BitVec.getElem_and, BitVec.getElem_not]
    cases x[i] <;> cases y[i] <;> rfl
  have hand : (x &&& y) &&& (x &&& ~~~y) = 0#64 := by
    ext i
    simp only [BitVec.getElem_and, BitVec.getElem_not, BitVec.getElem_zero]
    cases x[i] <;> cases y[i] <;> rfl
  have hsum := BitVec.toNat_add_of_and_eq_zero hand
  rw [BitVec.add_eq_or_of_and_eq_zero _ _ hand, hor] at hsum
  omega

theorem toNat_align {usp : Nat} (h : usp < 2 ^ 64) : (BitVec.ofNat 64 usp &&& ~~~0xF).toNat = usp - usp % 16 := by
  have hand : (BitVec.ofNat 64 usp &&& 0xF).toNat = usp % 16 := by
    rw [BitVec.toNat_and, BitVec.toNat_ofNat, Nat.mod_eq_of_lt h]
    exact Nat.and_two_pow_sub_one_eq_mod usp 4
  rw [toNat_and_not, hand, BitVec.toNat_ofNat, Nat.mod_eq_of_lt h]

theorem load_of_word {v : BitVec 64} (h : word m a = v) : load m a 8 = v.toNat := by
  rw [← h, word, BitVec.toNat_ofNat, Nat.mod_eq_of_lt]
  exact load_lt m a 8

/-- The arguments on the stack of a new process: a vector `vec` that ends with a null
pointer, copies of the strings, and the stack pointer below them. -/
structure Block (orig m : Memory) (userStack vec sp : Nat) (args : List (Nat × Nat)) : Prop where
  null : load m (vec + 8 * args.length) 8 = nullptr
  vector : place vec (8 * (args.length + 1)) ⊆ place userStack pageSize
  string (k a len : Nat) : args[k]? = some (a, len) → Str m (load m (vec + 8 * k) 8) len ∧
    ∀ j ≤ len, m.byte (load m (vec + 8 * k) 8 + j) = orig.byte (a + j)
  inside (k a len : Nat) : args[k]? = some (a, len) →
    place (load m (vec + 8 * k) 8) (len + 1) ⊆ place userStack pageSize
  off_vector (k a len : Nat) : args[k]? = some (a, len) →
    Disjoint (place (load m (vec + 8 * k) 8) (len + 1)) (place vec (8 * (args.length + 1)))
  apart (k k' a len a' len' : Nat) : k ≠ k' → args[k]? = some (a, len) → args[k']? = some (a', len') →
    Disjoint (place (load m (vec + 8 * k) 8) (len + 1)) (place (load m (vec + 8 * k') 8) (len' + 1))
  aligned : sp % 16 = 0
  sp_inside : userStack ≤ sp ∧ sp < userStack + pageSize
  below_vector : sp ≤ vec
  below (k a len : Nat) : args[k]? = some (a, len) → sp ≤ load m (vec + 8 * k) 8

theorem str_copied {b : Nat} (h : Str orig a len) (hb : ∀ j ≤ len, m.byte (b + j) = orig.byte (a + j)) : Str m b len where
  before j hj := by
    rw [hb j (Nat.le_of_lt hj)]
    exact h.before j hj
  last := by
    rw [hb len (Nat.le_refl len)]
    exact h.last

theorem copies_apart {k k' a' len' : Nat} (hsize : argsSize args ≤ usp) (hlt : k < k')
    (hk' : args[k']? = some (a', len')) (len : Nat) :
    Disjoint (place (copyAt usp args k) (len + 1)) (place (copyAt usp args k') (len' + 1)) := by
  have hend := copyAt_end hsize hk'
  have hmono : argsSize (args.take (k + 1)) ≤ argsSize (args.take k') := argsSize_take_mono hlt
  apply disjoint_place
  right
  rw [hend, copyAt]
  omega

theorem Copied.block {userStack sp : Nat} (h : Copied orig m vec vec 0 args) (ha : ArgsAt orig src argv 0 args)
    (hroom : Room args) (hvec : vec = StackPages.newArgv userStack args)
    (hnull : load m (vec + 8 * args.length) 8 = nullptr) (hu : userStack % 16 = 0)
    (hsp : sp = stackTop userStack args - stackTop userStack args % 16) :
    Block orig m userStack vec sp args := by
  obtain ⟨hle, hsize, hend⟩ := stackTop_le userStack hroom
  rw [← hvec] at hsize hend
  have hfit : argsSize args ≤ vec := by omega
  have hget : ∀ {k a len}, args[k]? = some (a, len) → load m (vec + 8 * k) 8 = copyAt vec args k ∧
      ∀ j ≤ len, m.byte (copyAt vec args k + j) = orig.byte (a + j) := by
    intro k a len hk
    have hg := h.get hk
    rwa [Nat.zero_add] at hg
  have hbounds : ∀ {k a len}, args[k]? = some (a, len) → stackTop userStack args ≤ copyAt vec args k ∧
      copyAt vec args k + (len + 1) ≤ vec := by
    intro k a len hk
    have hlow := argsSize_take_le args (k + 1)
    have hhigh := copyAt_end hfit hk
    refine ⟨?_, by omega⟩
    rw [copyAt]
    omega
  constructor
  · exact hnull
  · exact place_subset_place (by omega) (by omega)
  · intro k a len hk
    obtain ⟨hword, hbytes⟩ := hget hk
    rw [hword]
    exact ⟨str_copied (argsAt_get ha hk) hbytes, hbytes⟩
  · intro k a len hk x hx
    obtain ⟨hlow, hhigh⟩ := hbounds hk
    rw [(hget hk).1, mem_place] at hx
    rw [mem_place]
    omega
  · intro k a len hk
    rw [(hget hk).1]
    exact disjoint_place (.inl (hbounds hk).2)
  · intro k k' a len a' len' hne hk hk'
    rw [(hget hk).1, (hget hk').1]
    rcases Nat.lt_or_gt_of_ne hne with hlt | hlt
    · exact copies_apart hfit hlt hk' len
    · exact (copies_apart hfit hlt hk len').symm
  · rw [hsp]
    omega
  · rw [hsp]
    omega
  · rw [hsp]
    omega
  · intro k a len hk
    obtain ⟨hlow, -⟩ := hbounds hk
    rw [(hget hk).1, hsp]
    omega

section Frame

variable {l : Layout} {kernStack userStack : Nat} {free : List Nat} {m₁ : Memory}

theorem written_off_frame (hp : FreePages l.freeList m (kernStack :: userStack :: free)) (hroom : Room args) :
    Disjoint (written (newArgv userStack args) (newArgv userStack args) 0 args)
      (frameBytes (kernStack + pageSize - 304)) := by
  obtain ⟨-, hsize, hvec⟩ := stackTop_le userStack hroom
  refine (frame_apart hp hroom).mono_left ?_
  apply written_subset (Nat.le_of_eq hsize) (Nat.le_refl _)
  omega

/-- The end of the vector is written neither by the loop nor with the frame. -/
theorem ended_null (hp : FreePages l.freeList m (kernStack :: userStack :: free)) (hroom : Room args)
    (hloop : Only (written (newArgv userStack args) (newArgv userStack args) 0 args) (ended l.freeList userStack args m) m₁)
    (hframe : Only (frameBytes (kernStack + pageSize - 304)) m₁ m') :
    load m' (newArgv userStack args + 8 * args.length) 8 = nullptr := by
  obtain ⟨hle, hsize, hvec⟩ := stackTop_le userStack hroom
  have hlast : place (newArgv userStack args + 8 * args.length) 8 ⊆
      place (stackTop userStack args) (userStack + pageSize - stackTop userStack args) :=
    place_subset_place (by omega) (by omega)
  rw [hframe.load_eq ((frame_apart hp hroom).mono_left hlast), hloop.load_eq, ended, load_store_of_lt _ _ (by decide)]
  rw [Set.disjoint_left]
  intro x hx hw
  rw [mem_place] at hx
  rw [mem_written] at hw
  omega

end Frame

/-- `init_stacks` lays out the arguments on the stack of the user, and hands their
vector and the stack pointer below them to the new process. -/
theorem init_stacks_block (l : Layout) (sstatus : BitVec 64) (m : Memory) (proc : Proc) (entry argv : Nat)
    (src : Set Nat) (args : List (Nat × Nat)) (kernStack userStack : Nat) (free : List Nat)
    (hp : FreePages l.freeList m (kernStack :: userStack :: free))
    (hargs : ArgsAt (taken l.freeList m) src argv 0 args) (hsrc : Disjoint src (place userStack pageSize))
    (hroom : Room args) : ∃ m' proc',
      Converges (fun fuel => initStacks l sstatus fuel m proc entry args.length argv) (m', proc', 0) ∧
      proc'.userStack = userStack ∧ load m' (proc'.sp + 8 * 31) 8 = newArgv userStack args ∧
      Block (taken l.freeList m) m' userStack (newArgv userStack args) (load m' (proc'.sp + 8 * 25) 8) args := by
  obtain ⟨hle, hsize, hvec⟩ := stackTop_le userStack hroom
  have hu := hp.page userStack (List.mem_cons_of_mem _ List.mem_cons_self)
  have hended : Same src (taken l.freeList m) (ended l.freeList userStack args m) :=
    ((ended_only hroom m).mono (top_subset hroom)).same hsrc
  have hargs' := hargs.same hended
  have hspace : Space userStack (newArgv userStack args) (newArgv userStack args) (0 + args.length) := by
    refine ⟨?_, Nat.le_refl _, ?_, hu.end_lt⟩ <;> omega
  obtain ⟨m₁, hrun, honly, hcopied⟩ := copyArgs_copied hargs' hsrc hspace (by omega)
  obtain ⟨hproc, hfills, hframe⟩ := procFillStack_fills sstatus proc entry (hp.page kernStack List.mem_cons_self) hroom
    honly rfl
  generalize hr : procFillStack l.procEntry sstatus m₁ _ entry (stackTop userStack args) args.length
    (newArgv userStack args) = r at hproc hfills hframe
  have hlt : ∀ {v}, v ≤ newArgv userStack args → v < 2 ^ 64 := by
    have hend := hu.end_lt
    omega
  have hargv : word r.1 (kernStack + pageSize - 304 + 8 * 31) = BitVec.ofNat 64 (newArgv userStack args) :=
    hfills.frame (248, BitVec.ofNat 64 (newArgv userStack args)) List.mem_cons_self
  have husp : word r.1 (kernStack + pageSize - 304 + 8 * 25) = BitVec.ofNat 64 (stackTop userStack args) &&& ~~~0xF :=
    hfills.frame (200, _) (by simp [startFrame, firstStart])
  refine ⟨r.1, r.2, ⟨argsSize args, fun fuel hfuel => ?_⟩, by rw [hproc], ?_, ?_⟩
  · have henough : ∀ a ∈ args, a.2 < fuel := fun a ha => Nat.lt_of_lt_of_le (lt_argsSize ha) hfuel
    have hstack : newArgv userStack args - argsSize args = stackTop userStack args := rfl
    simp only [initStacks_eq hp hroom, hrun fuel henough, hstack, Option.bind_some, hr]
  · rw [hproc, load_of_word hargv, BitVec.toNat_ofNat]
    exact Nat.mod_eq_of_lt (hlt (Nat.le_refl _))
  · refine Copied.block ((hcopied.only (by omega) hframe (written_off_frame hp hroom)).source hargs' ?_) hargs hroom rfl
      (ended_null hp hroom honly hframe) ?_ ?_
    · exact hended
    · have haligned := hu.aligned
      rw [pageSize] at haligned
      omega
    · rw [hproc, load_of_word husp]
      exact toNat_align (hlt (by omega))

/-- Arguments of five and of three letters on a machine that has started. -/
theorem init_stacks_block_two : ∃ m free m' proc' sp,
    FreePages bootLayout.freeList m (0x80400000 :: 0x80401000 :: free) ∧
    ArgsAt (taken bootLayout.freeList m) (place 0x1000 0x4000) 0x4000 0 [(0x1000, 5), (0x3000, 3)] ∧
    Converges (fun fuel => initStacks bootLayout 0 fuel m ⟨0, 0, 0, 0, 0⟩ 0 2 0x4000) (m', proc', 0) ∧
    Block (taken bootLayout.freeList m) m' 0x80401000 0x80401FE8 sp [(0x1000, 5), (0x3000, 3)] := by
  obtain ⟨m, free, hp, hargs⟩ := boot_args 5 (by decide)
  have hsrc : Disjoint (place 0x1000 0x4000) (place 0x80401000 pageSize) := disjoint_place (by decide)
  obtain ⟨m', proc', hrun, -, -, hblock⟩ := init_stacks_block bootLayout 0 m ⟨0, 0, 0, 0, 0⟩ 0 0x4000 _ _ _ _ free hp hargs
    hsrc room_two
  exact ⟨m, free, m', proc', _, hp, hargs, hrun, hblock⟩

end Karg.ArgBlock
