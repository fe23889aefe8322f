import Karg.ProcStack

namespace Karg.StackArgs

open ByteMemory KernelMemory ProcStack

structure Str (m : Memory) (a len : Nat) : Prop where
  before (j : Nat) : j < len → m.byte (a + j) ≠ 0
  last : m.byte (a + len) = 0

def ArgsAt (m : Memory) (src : Set Nat) (argv : Nat) : Nat → List (Nat × Nat) → Prop
  | _, [] => True
  | i, (a, len) :: args => load m (argv + 8 * i) 8 = a ∧ place (argv + 8 * i) 8 ⊆ src ∧ Str m a len ∧
      place a (len + 1) ⊆ src ∧ ArgsAt m src argv (i + 1) args

def argsSize (args : List (Nat × Nat)) : Nat := (args.map fun a => a.2 + 1).sum

def written (newArgv usp i : Nat) (args : List (Nat × Nat)) : Set Nat :=
  place (usp - argsSize args) (argsSize args) ∪ place (newArgv + 8 * i) (8 * args.length)

variable {m m' : Memory} {src : Set Nat} {argv newArgv usp i a len fuel lo : Nat} {args : List (Nat × Nat)}

theorem Str.rest (h : Str m a (len + 1)) : Str m (a + 1) len := by
  constructor
  · intro j hj
    rw [Nat.add_assoc, Nat.add_comm 1]
    exact h.before (j + 1) (Nat.succ_lt_succ hj)
  · rw [Nat.add_assoc, Nat.add_comm 1]
    exact h.last

theorem strLen_eq (h : Str m a len) (hf : len < fuel) : strLen fuel m a = some len := by
  induction fuel generalizing a len with
  | zero => cases hf
  | succ fuel ih =>
      cases len with
      | zero => exact if_pos h.last
      | succ len =>
          have hne : m.byte a ≠ 0 := h.before 0 (Nat.succ_pos len)
          rw [strLen, if_neg hne, ih h.rest (Nat.lt_of_succ_lt_succ hf)]
          rfl

theorem strLen_unique {n : Nat} (h : Str m a len) (hn : strLen fuel m a = some n) : n = len := by
  induction fuel generalizing a len n with
  | zero => cases hn
  | succ fuel ih =>
      rw [strLen] at hn
      cases len with
      | zero =>
          have h0 : m.byte a = 0 := h.last
          rw [if_pos h0] at hn
          cases hn
          rfl
      | succ len =>
          have hne : m.byte a ≠ 0 := h.before 0 (Nat.succ_pos len)
          rw [if_neg hne] at hn
          obtain ⟨n', hn', rfl⟩ := Option.map_eq_some_iff.mp hn
          rw [ih h.rest hn']

theorem Str.same (h : Str m a len) (hs : Same src m m') (ha : place a (len + 1) ⊆ src) : Str m' a len := by
  have hbyte : ∀ j < len + 1, m'.byte (a + j) = m.byte (a + j) := by
    intro j hj
    apply hs
    apply ha
    rw [mem_place]
    omega
  constructor
  · intro j hj
    rw [hbyte j (Nat.lt_succ_of_lt hj)]
    exact h.before j hj
  · rw [hbyte len (Nat.lt_succ_self len)]
    exact h.last

theorem ArgsAt.same (h : ArgsAt m src argv i args) (hs : Same src m m') : ArgsAt m' src argv i args := by
  induction args generalizing i with
  | nil => trivial
  | cons arg args ih =>
      obtain ⟨hload, hvec, hstr, hsrc, hrest⟩ := h
      exact ⟨(hs.load_eq hvec).trans hload, hvec, hstr.same hs hsrc, hsrc, ih hrest⟩

theorem argsSize_cons (a len : Nat) (args : List (Nat × Nat)) :
    argsSize ((a, len) :: args) = len + 1 + argsSize args := by
  rw [argsSize, List.map_cons, List.sum_cons, argsSize]

theorem lt_argsSize {arg : Nat × Nat} (h : arg ∈ args) : arg.2 < argsSize args := by
  induction args with
  | nil => cases h
  | cons b args ih =>
      rw [argsSize_cons]
      rcases List.mem_cons.mp h with rfl | h
      · omega
      · have := ih h
        omega

theorem mem_written {x : Nat} : x ∈ written newArgv usp i args ↔
    usp - argsSize args ≤ x ∧ x < usp - argsSize args + argsSize args ∨
      newArgv + 8 * i ≤ x ∧ x < newArgv + 8 * i + 8 * args.length := by
  rw [written, Set.mem_union, mem_place, mem_place]

theorem written_cons (newArgv i : Nat) (hsize : argsSize ((a, len) :: args) ≤ usp) :
    written newArgv usp i ((a, len) :: args) =
    (place (usp - (len + 1)) (len + 1) ∪ place (newArgv + 8 * i) 8) ∪
      written newArgv (usp - (len + 1)) (i + 1) args := by
  rw [argsSize_cons] at hsize
  ext x
  rw [Set.mem_union, Set.mem_union, mem_place, mem_place, mem_written, mem_written, argsSize_cons, List.length_cons]
  omega

theorem written_subset (hsize : lo + argsSize args ≤ usp) (husp : usp ≤ newArgv) {hi : Nat}
    (hvec : newArgv + 8 * (i + args.length) ≤ hi) : written newArgv usp i args ⊆ place lo (hi - lo) := by
  rintro x (hx | hx)
  · rw [mem_place] at hx ⊢
    omega
  · rw [mem_place] at hx ⊢
    omega

theorem copyArg_same (hs : Same src m m') (ha : place a (len + 1) ⊆ src) (hvec : Disjoint src (place (newArgv + 8 * i) 8))
    (hdst : Disjoint src (place usp (len + 1))) (husp : usp + (len + 1) ≤ newArgv) (v : Nat) :
    Same (place usp (len + 1) ∪ place (newArgv + 8 * i) 8)
      (memCopy (store m (newArgv + 8 * i) 8 v) usp a (len + 1))
      (memCopy (store m' (newArgv + 8 * i) 8 v) usp a (len + 1)) := by
  have hs₂ := hs.only (store_only m (newArgv + 8 * i) 8 v) (store_only m' (newArgv + 8 * i) 8 v) hvec
  rintro x (hx | hx)
  · rw [mem_place] at hx
    have hd := hdst.mono_left ha
    rw [memCopy_disjoint hd, memCopy_disjoint hd, memCopyFrom_byte, memCopyFrom_byte, if_pos hx, if_pos hx]
    apply hs₂
    apply ha
    rw [mem_place]
    omega
  · have hv := store_same m m' (newArgv + 8 * i) 8 v
    refine hv.only (memCopy_only _ _ _ _) (memCopy_only _ _ _ _) ?_ x hx
    apply disjoint_place
    omega

theorem copyArg_only (m : Memory) (newArgv i usp a len : Nat) (v : Nat) :
    Only (place usp (len + 1) ∪ place (newArgv + 8 * i) 8) m
      (memCopy (store m (newArgv + 8 * i) 8 v) usp a (len + 1)) := by
  have hstore := (store_only m (newArgv + 8 * i) 8 v).mono (Set.subset_union_right (s := place usp (len + 1)))
  exact hstore.trans ((memCopy_only _ _ _ _).mono Set.subset_union_left)

theorem written_apart (hsize : len + 1 + argsSize args ≤ usp) (husp : usp ≤ newArgv) :
    Disjoint (place (usp - (len + 1)) (len + 1) ∪ place (newArgv + 8 * i) 8)
      (written newArgv (usp - (len + 1)) (i + 1) args) := by
  rw [Set.disjoint_left]
  intro x hx hw
  rw [Set.mem_union, mem_place, mem_place] at hx
  rw [mem_written] at hw
  omega

/-- The loop copies the arguments, and in two memories with the same arguments it
writes the same bytes. -/
theorem copyArgs_spec (h : ArgsAt m src argv i args) (hs : Same src m m') {hi : Nat}
    (hout : Disjoint src (place lo (hi - lo)))
    (hsize : lo + argsSize args ≤ usp) (husp : usp ≤ newArgv) (hvec : newArgv + 8 * (i + args.length) ≤ hi)
    (hhi : hi ≤ 2 ^ 64) :
    ∃ m₁ m₁', (∀ fuel, (∀ a ∈ args, a.2 < fuel) →
        copyArgs fuel argv newArgv m usp i args.length = some (m₁, usp - argsSize args) ∧
        copyArgs fuel argv newArgv m' usp i args.length = some (m₁', usp - argsSize args)) ∧
      Only (written newArgv usp i args) m m₁ ∧ Only (written newArgv usp i args) m' m₁' ∧
      Same (written newArgv usp i args) m₁ m₁' := by
  induction args generalizing m m' usp i with
  | nil =>
      refine ⟨m, m', fun fuel _ => ⟨rfl, rfl⟩, Only.refl _ _, Only.refl _ _, ?_⟩
      rintro x (hx | hx)
      · rw [mem_place, argsSize, List.map_nil, List.sum_nil] at hx
        omega
      · rw [mem_place, List.length_nil] at hx
        omega
  | cons arg args ih =>
      obtain ⟨a, len⟩ := arg
      obtain ⟨hload, hvm, hstr, hsrc, hrest⟩ := h
      have hall := written_cons newArgv i (Nat.le_trans (Nat.le_add_left _ lo) hsize)
      have hlo := written_subset hsize husp hvec
      rw [hall] at hlo ⊢
      rw [argsSize_cons] at hsize
      rw [List.length_cons] at hvec
      have hsub : usizeSub usp (len + 1) = usp - (len + 1) := usizeSub_of_le (by omega) (by omega)
      have hend : usp - argsSize ((a, len) :: args) = usp - (len + 1) - argsSize args := by
        rw [argsSize_cons, Nat.sub_add_eq]
      have hone := fun m => copyArg_only m newArgv i (usp - (len + 1)) a len (usp - (len + 1))
      have hkeep := hout.mono_right (Set.subset_union_left.trans hlo)
      have hroom : usp - (len + 1) + (len + 1) ≤ newArgv := by omega
      have hsize' : lo + argsSize args ≤ usp - (len + 1) := by omega
      have hsame₁ := copyArg_same hs hsrc (hkeep.mono_right Set.subset_union_right)
        (hkeep.mono_right Set.subset_union_left) hroom (usp - (len + 1))
      -- The arguments lie outside of what is written, so the next round finds them as they were.
      obtain ⟨m₁, m₁', hrun, hm₁, hm₁', hsame⟩ := ih (hrest.same ((hone m).same hkeep))
        (hs.only (hone m) (hone m') hkeep) hsize' (by omega) (by omega)
      refine ⟨m₁, m₁', fun fuel hfuel => ?_, ?_, ?_, ?_⟩
      · obtain ⟨hlen, hfuel⟩ := List.forall_mem_cons.mp hfuel
        have hload' : load m' (argv + 8 * i) 8 = a := (hs.load_eq hvm).trans hload
        simp only [List.length_cons, copyArgs, hload, hload', strLen_eq hstr hlen, strLen_eq (hstr.same hs hsrc) hlen,
          Option.bind_eq_bind, Option.bind_some, hsub, hend]
        exact hrun fuel hfuel
      · exact ((hone m).mono Set.subset_union_left).trans (hm₁.mono Set.subset_union_right)
      · exact ((hone m').mono Set.subset_union_left).trans (hm₁'.mono Set.subset_union_right)
      · rintro x (hx | hx)
        · exact hsame₁.only hm₁ hm₁' (written_apart (Nat.le_trans (Nat.le_add_left _ lo) hsize) husp) x hx
        · exact hsame x hx

end Karg.StackArgs
