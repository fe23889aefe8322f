import Karg.ByteMemory
import Karg.ListNode

namespace Karg.KernelMemory

open LinkStore CircularList ListFamily ListNode ByteMemory

def usizeAdd (a b : Nat) : Nat := (a + b) % 2 ^ 64

def usizeSub (a b : Nat) : Nat := (a + 2 ^ 64 - b) % 2 ^ 64

def usizeMul (a b : Nat) : Nat := a * b % 2 ^ 64

def nullptr : Nat := 0

def memSet (m : Memory) (dst : Nat) (val : UInt8) (size : Nat) : Memory :=
  (List.range size).foldl (fun m i => setByte m (dst + i) val) m

def memCopy (m : Memory) (dst src size : Nat) : Memory :=
  (List.range size).foldl (fun m i => setByte m (dst + i) (m.byte (src + i))) m

def memCopyFrom (m : Memory) (dst : Nat) (srcMem : Memory) (src size : Nat) : Memory :=
  (List.range size).foldl (fun m i => setByte m (dst + i) (srcMem.byte (src + i))) m

/-- Where the byte comes from that `mem_copy` copies in the round `i`. A destination
behind the start of the source is read again, in periods of their distance. -/
def origin (dst src i : Nat) : Nat := if src < dst then src + i % (dst - src) else src + i

structure Ring (m : Memory) (h : Nat) (xs : List Nat) : Prop where
  circular : Circular m h xs
  apart : (h :: xs).Pairwise (Apart Memory)
  valid (x : Nat) : x ∈ h :: xs → x < 2 ^ 64

def nodes (xs : List Nat) : Set Nat := { y | ∃ x ∈ xs, y ∈ place x 16 }

variable {m m' : Memory} {s : Set Nat} {h x : Nat} {xs l r : List Nat}

theorem usizeAdd_of_lt {a b : Nat} (h : a + b < 2 ^ 64) : usizeAdd a b = a + b := Nat.mod_eq_of_lt h

theorem usizeSub_of_le {a b : Nat} (h : b ≤ a) (ha : a < 2 ^ 64) : usizeSub a b = a - b := by
  rw [usizeSub]
  omega

theorem usizeMul_of_lt {a b : Nat} (h : a * b < 2 ^ 64) : usizeMul a b = a * b := Nat.mod_eq_of_lt h

theorem foldl_setByte (m : Memory) (dst : Nat) (f : Nat → UInt8) (size y : Nat) :
    ((List.range size).foldl (fun m i => setByte m (dst + i) (f i)) m).byte y =
      if dst ≤ y ∧ y < dst + size then f (y - dst) else m.byte y := by
  induction size with
  | zero =>
      rw [if_neg (by omega)]
      rfl
  | succ size ih =>
      rw [List.range_succ, List.foldl_append]
      by_cases hy : y = dst + size
      · subst hy
        rw [if_pos (by omega), Nat.add_sub_cancel_left]
        exact Function.update_self ..
      · have hmem : dst ≤ y ∧ y < dst + (size + 1) ↔ dst ≤ y ∧ y < dst + size := by omega
        simp only [hmem, ← ih]
        exact Function.update_of_ne hy ..

theorem memSet_byte (m : Memory) (dst : Nat) (val : UInt8) (size y : Nat) :
    (memSet m dst val size).byte y = if dst ≤ y ∧ y < dst + size then val else m.byte y :=
  foldl_setByte m dst (fun _ => val) size y

theorem memSet_only (m : Memory) (dst : Nat) (val : UInt8) (size : Nat) :
    Only (place dst size) m (memSet m dst val size) := by
  intro y hy
  rw [mem_place] at hy
  rw [memSet_byte, if_neg hy]

theorem memCopyFrom_byte (m : Memory) (dst : Nat) (srcMem : Memory) (src size y : Nat) :
    (memCopyFrom m dst srcMem src size).byte y =
      if dst ≤ y ∧ y < dst + size then srcMem.byte (src + (y - dst)) else m.byte y :=
  foldl_setByte m dst (fun i => srcMem.byte (src + i)) size y

theorem memCopyFrom_only (m : Memory) (dst : Nat) (srcMem : Memory) (src size : Nat) :
    Only (place dst size) m (memCopyFrom m dst srcMem src size) := by
  intro y hy
  rw [mem_place] at hy
  rw [memCopyFrom_byte, if_neg hy]

theorem memCopy_byte (m : Memory) (dst src size y : Nat) : (memCopy m dst src size).byte y =
    if dst ≤ y ∧ y < dst + size then m.byte (origin dst src (y - dst)) else m.byte y := by
  induction size generalizing y with
  | zero =>
      rw [if_neg (by omega)]
      rfl
  | succ size ih =>
      have hstep : memCopy m dst src (size + 1) =
          setByte (memCopy m dst src size) (dst + size) ((memCopy m dst src size).byte (src + size)) := by
        rw [memCopy, List.range_succ, List.foldl_append]
        rfl
      rw [hstep]
      by_cases hy : y = dst + size
      · subst hy
        have hself : (setByte (memCopy m dst src size) (dst + size)
            ((memCopy m dst src size).byte (src + size))).byte (dst + size) =
            (memCopy m dst src size).byte (src + size) := Function.update_self ..
        have hin : dst ≤ dst + size ∧ dst + size < dst + (size + 1) := by omega
        rw [hself, ih, if_pos hin, Nat.add_sub_cancel_left]
        -- The source byte has been overwritten exactly if it lies in the part already copied.
        by_cases hover : dst ≤ src + size ∧ src + size < dst + size
        · have hback : src + size - dst = size - (dst - src) := by omega
          have hlt : src < dst := by omega
          rw [if_pos hover, hback, origin, origin, if_pos hlt, if_pos hlt, ← Nat.mod_eq_sub_mod (by omega)]
        · rw [if_neg hover, origin]
          by_cases hlt : src < dst
          · rw [if_pos hlt, Nat.mod_eq_of_lt (by omega)]
          · rw [if_neg hlt]
      · have hmem : dst ≤ y ∧ y < dst + (size + 1) ↔ dst ≤ y ∧ y < dst + size := by omega
        simp only [hmem, ← ih]
        exact Function.update_of_ne hy ..

theorem memCopy_only (m : Memory) (dst src size : Nat) : Only (place dst size) m (memCopy m dst src size) := by
  intro y hy
  rw [mem_place] at hy
  rw [memCopy_byte, if_neg hy]

/-- A destination that does not start within the source behind its first byte gets
the bytes that the source had. -/
theorem memCopy_eq_from {dst src size : Nat} (h : ¬ (src < dst ∧ dst < src + size)) (m : Memory) :
    memCopy m dst src size = memCopyFrom m dst m src size := by
  have hbyte : (memCopy m dst src size).byte = (memCopyFrom m dst m src size).byte := by
    funext y
    rw [memCopy_byte, memCopyFrom_byte]
    by_cases hy : dst ≤ y ∧ y < dst + size
    · rw [if_pos hy, if_pos hy, origin]
      by_cases hlt : src < dst
      · rw [if_pos hlt, Nat.mod_eq_of_lt (by omega)]
      · rw [if_neg hlt]
    · rw [if_neg hy, if_neg hy]
  exact congrArg Memory.mk hbyte

theorem memCopy_disjoint {dst src size : Nat} (hd : Disjoint (place src size) (place dst size)) (m : Memory) :
    memCopy m dst src size = memCopyFrom m dst m src size := by
  apply memCopy_eq_from
  rintro ⟨hlt, hin⟩
  exact Set.disjoint_left.mp hd (mem_place.mpr ⟨Nat.le_of_lt hlt, hin⟩) (mem_place.mpr ⟨Nat.le_refl dst, by omega⟩)

theorem nodes_mono {ys : List Nat} (h : ∀ x ∈ xs, x ∈ ys) : nodes xs ⊆ nodes ys := fun _ ⟨x, hx, hy⟩ => ⟨x, h x hx, hy⟩

theorem nodes_rest (head n : Nat) (rest : List Nat) : nodes (head :: rest) ⊆ nodes (head :: n :: rest) :=
  nodes_mono (List.cons_subset_cons head (List.subset_cons_self n rest))

theorem disjoint_nodes {a n : Nat} (h : ∀ x ∈ xs, a + n ≤ x ∨ x + 16 ≤ a) : Disjoint (place a n) (nodes xs) := by
  rw [Set.disjoint_left]
  rintro y hy ⟨x, hx, hyx⟩
  exact Set.disjoint_left.mp (disjoint_place (h x hx)) hy hyx

theorem setNext_only (m : Memory) (a v : Nat) : Only (place a 16) m (setNext m a v) := by
  apply (store_only m (a + 8) 8 v).mono
  exact place_subset_place (by omega) (by omega)

theorem setPrev_only (m : Memory) (a v : Nat) : Only (place a 16) m (setPrev m a v) := by
  apply (store_only m a 8 v).mono
  exact place_subset_place (by omega) (by omega)

theorem place_subset_nodes (hx : x ∈ xs) : place x 16 ⊆ nodes xs := fun _ hy => ⟨x, hx, hy⟩

theorem listInsert_only {pos node : Nat} (hb : prev m pos ∈ xs) (hn : node ∈ xs) (hp : pos ∈ xs) :
    Only (nodes xs) m (listInsert m pos node) := by
  apply Only.trans ((setNext_only m _ _).mono (place_subset_nodes hb))
  apply Only.trans ((setPrev_only _ node _).mono (place_subset_nodes hn))
  apply Only.trans ((setNext_only _ node _).mono (place_subset_nodes hn))
  exact (setPrev_only _ pos _).mono (place_subset_nodes hp)

theorem listRemove_only {node : Nat} (hb : prev m node ∈ xs)
    (ha : next (setNext m (prev m node) (next m node)) node ∈ xs) : Only (nodes xs) m (listRemove m node) := by
  apply Only.trans ((setNext_only m _ _).mono (place_subset_nodes hb))
  exact (setPrev_only _ _ _).mono (place_subset_nodes ha)

theorem Ring.family (hr : Ring m h xs) : Family m (· = h) (fun _ => xs) where
  circular := by rintro _ rfl; exact hr.circular
  apart := by rintro _ rfl; exact hr.apart
  disjoint := by rintro h₁ h₂ rfl rfl hne; exact absurd rfl hne
  valid := by rintro _ rfl; exact hr.valid

theorem Ring.of_family {F : Nat → List Nat} (hf : Family m (· = h) F) : Ring m h (F h) :=
  ⟨hf.circular h rfl, hf.apart h rfl, hf.valid h rfl⟩

theorem Ring.frame (hr : Ring m h xs) (hm : Only s m m') (hs : Disjoint (nodes (h :: xs)) s) : Ring m' h xs := by
  refine ⟨circular_transport hr.circular fun x hx => ?_, hr.apart, hr.valid⟩
  have hd : Disjoint (place x 16) s := hs.mono_left (place_subset_nodes hx)
  constructor
  · apply hm.load_eq (hd.mono_left _)
    exact place_subset_place (by omega) (by omega)
  · apply hm.load_eq (hd.mono_left _)
    exact place_subset_place (by omega) (by omega)

theorem Ring.front (hr : Ring m h xs) : listFront m h = xs.headD h := circular_next hr.circular

theorem Ring.insert (hr : Ring m h (l ++ r)) (hx : ∀ y ∈ h :: (l ++ r), Apart Memory x y) (hv : x < 2 ^ 64) :
    Ring (listInsert m (r.headD h) x) h (l ++ x :: r) ∧
      Only (nodes (x :: h :: (l ++ r))) m (listInsert m (r.headD h) x) := by
  have hfresh : Fresh Memory (· = h) (fun _ => l ++ r) x := by
    rintro _ rfl
    exact hx
  constructor
  · have hf := Ring.of_family (family_listInsert hr.family rfl rfl hfresh hv)
    rwa [Function.update_self] at hf
  · obtain ⟨hb, ha⟩ := gap_mem (h := h) (l := l) (r := r)
    apply listInsert_only
    · rw [family_prev hr.family rfl rfl]
      exact List.mem_cons_of_mem _ hb
    · exact List.mem_cons_self
    · exact List.mem_cons_of_mem _ ha

theorem Ring.initHead (m : Memory) (hv : h < 2 ^ 64) :
    Ring (listInitHead m h) h [] ∧ Only (nodes [h]) m (listInitHead m h) := by
  have hx : h ∈ [h] := List.mem_singleton_self h
  refine ⟨⟨List.isChain_cons_cons.mpr ⟨⟨next_setNext _ hv, ?_⟩, .singleton h⟩, List.pairwise_singleton _ _, ?_⟩, ?_⟩
  · rw [listInitHead, prev_setNext _ _ (.inl rfl), prev_setPrev _ hv]
  · intro x hx
    rwa [List.mem_singleton.mp hx]
  · apply Only.trans ((setPrev_only m h h).mono (place_subset_nodes hx))
    exact (setNext_only _ h h).mono (place_subset_nodes hx)

theorem Ring.pushBack (hr : Ring m h xs) (hx : ∀ y ∈ h :: xs, Apart Memory x y) (hv : x < 2 ^ 64) :
    Ring (listPushBack m h x) h (xs ++ [x]) ∧ Only (nodes (x :: h :: xs)) m (listPushBack m h x) := by
  rw [← List.append_nil xs] at hr hx
  have hi := hr.insert hx hv
  rwa [List.append_nil] at hi

theorem Ring.remove (hr : Ring m h (l ++ x :: r)) :
    Ring (listRemove m x) h (l ++ r) ∧ Only (nodes (h :: (l ++ r))) m (listRemove m x) := by
  constructor
  · have hf := Ring.of_family (family_listRemove hr.family rfl rfl)
    rwa [Function.update_self] at hf
  · obtain ⟨hb, ha⟩ := gap_mem (h := h) (l := l) (r := r)
    have hprev := circular_prev_mem hr.circular
    have hnext := circular_next_mem hr.circular
    have hfresh := hr.family.fresh_unlink rfl rfl h rfl
    rw [Function.update_self] at hfresh
    apply listRemove_only
    · rwa [hprev]
    · rwa [hprev, hnext, next_setNext_apart _ _ (apart_symm (hfresh _ hb)), hnext]

theorem Ring.popFront (hr : Ring m h (x :: r)) :
    Ring (listPopFront m h) h r ∧ Only (nodes (h :: r)) m (listPopFront m h) := by
  rw [listPopFront, hr.front]
  exact Ring.remove (l := []) hr

theorem Ring.listEmpty (hr : Ring m h xs) : listEmpty m h = xs.isEmpty := family_listEmpty hr.family rfl

end Karg.KernelMemory
