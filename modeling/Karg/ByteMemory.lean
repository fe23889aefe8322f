import Karg.CircularList
import Mathlib.Algebra.GroupWithZero.Nat
import Mathlib.Data.Set.BooleanAlgebra
import Mathlib.Order.CompletePartialOrder
import Mathlib.Order.Interval.Set.Basic

namespace Karg.ByteMemory

open LinkStore

structure Memory where
  byte : Nat → UInt8

def setByte (m : Memory) (a : Nat) (v : UInt8) : Memory := ⟨Function.update m.byte a v⟩

def load (m : Memory) (a : Nat) : Nat → Nat
  | 0 => 0
  | n + 1 => (m.byte a).toNat + 256 * load m (a + 1) n

def store (m : Memory) (a : Nat) : Nat → Nat → Memory
  | 0, _ => m
  | n + 1, v => store (setByte m a (UInt8.ofNat v)) (a + 1) n (v / 256)

def place (a n : Nat) : Set Nat := Set.Ico a (a + n)

/-- The memories differ at most in the bytes of `s`. -/
def Only (s : Set Nat) (m m' : Memory) : Prop := ∀ x, x ∉ s → m'.byte x = m.byte x

@[simp] theorem mem_place {x a n : Nat} : x ∈ place a n ↔ a ≤ x ∧ x < a + n := Set.mem_Ico

theorem place_subset_place {a b n k : Nat} (h : b ≤ a) (h' : a + n ≤ b + k) : place a n ⊆ place b k :=
  Set.Ico_subset_Ico h h'

theorem singleton_subset_place {a b n : Nat} (h : b ≤ a) (h' : a < b + n) : {a} ⊆ place b n :=
  Set.singleton_subset_iff.mpr ⟨h, h'⟩

theorem disjoint_place {a b n k : Nat} (h : a + n ≤ b ∨ b + k ≤ a) : Disjoint (place a n) (place b k) := by
  rw [Set.disjoint_left]
  intro x hx hy
  rw [mem_place] at hx hy
  omega

variable {m m' m'' : Memory} {s t : Set Nat} {a b n k v : Nat}

theorem Only.refl (s : Set Nat) (m : Memory) : Only s m m := fun _ _ => rfl

theorem Only.trans (h : Only s m m') (h' : Only s m' m'') : Only s m m'' := fun x hx =>
  (h' x hx).trans (h x hx)

theorem Only.mono (h : Only s m m') (hs : s ⊆ t) : Only t m m' := fun x hx => h x fun hm => hx (hs hm)

theorem setByte_only (m : Memory) (a : Nat) (v : UInt8) : Only {a} m (setByte m a v) := fun _ hx =>
  Function.update_of_ne hx ..

theorem load_congr (h : ∀ x ∈ place a n, m'.byte x = m.byte x) : load m' a n = load m a n := by
  induction n generalizing a with
  | zero => rfl
  | succ n ih =>
      have ha : m'.byte a = m.byte a := by
        apply h
        rw [mem_place]
        omega
      have hn : load m' (a + 1) n = load m (a + 1) n := by
        apply ih
        intro x hx
        apply h
        rw [mem_place] at hx ⊢
        omega
      rw [load, load, ha, hn]

theorem load_zero (h : ∀ x ∈ place a n, m.byte x = 0) : load m a n = 0 := by
  induction n generalizing a with
  | zero => rfl
  | succ n ih =>
      have ha : m.byte a = 0 := by
        apply h
        rw [mem_place]
        omega
      have hn : load m (a + 1) n = 0 := by
        apply ih
        intro x hx
        apply h
        rw [mem_place] at hx ⊢
        omega
      rw [load, ha, hn]
      rfl

theorem Only.load_eq (h : Only s m m') (hs : Disjoint (place a n) s) : load m' a n = load m a n :=
  load_congr fun x hx => h x (Set.disjoint_left.mp hs hx)

theorem load_lt (m : Memory) (a n : Nat) : load m a n < 256 ^ n := by
  induction n generalizing a with
  | zero => exact Nat.one_pos
  | succ n ih =>
      have hb := (m.byte a).toNat_lt
      have hn := ih (a + 1)
      rw [load, Nat.pow_succ]
      omega

theorem store_only (m : Memory) (a n v : Nat) : Only (place a n) m (store m a n v) := by
  induction n generalizing m a v with
  | zero => exact Only.refl _ m
  | succ n ih =>
      have hbyte : Only (place a (n + 1)) m (setByte m a (UInt8.ofNat v)) := by
        apply (setByte_only m a _).mono
        exact singleton_subset_place (by omega) (by omega)
      apply hbyte.trans
      apply (ih _ (a + 1) (v / 256)).mono
      exact place_subset_place (by omega) (by omega)

theorem load_store (m : Memory) (a n v : Nat) : load (store m a n v) a n = v % 256 ^ n := by
  induction n generalizing m a v with
  | zero => simp [load, Nat.mod_one]
  | succ n ih =>
      have ha : (store (setByte m a (UInt8.ofNat v)) (a + 1) n (v / 256)).byte a = UInt8.ofNat v := by
        rw [store_only _ (a + 1) n (v / 256) a (by rw [mem_place]; omega)]
        exact Function.update_self ..
      rw [load, store, ha, ih, Nat.pow_succ, Nat.mul_comm _ 256, Nat.mod_mul, UInt8.toNat_ofNat']

theorem load_store_of_lt (m : Memory) (a : Nat) (h : v < 256 ^ n) : load (store m a n v) a n = v := by
  rw [load_store, Nat.mod_eq_of_lt h]

theorem load_store_apart (m : Memory) (v : Nat) (h : a + n ≤ b ∨ b + k ≤ a) :
    load (store m b k v) a n = load m a n :=
  (store_only m b k v).load_eq (disjoint_place h)

section Same

def Same (s : Set Nat) (m m' : Memory) : Prop := ∀ x ∈ s, m'.byte x = m.byte x

theorem Same.mono (h : Same s m m') (hs : t ⊆ s) : Same t m m' := fun x hx => h x (hs hx)

theorem Same.load_eq (h : Same s m m') (hs : place a n ⊆ s) : load m' a n = load m a n := load_congr (h.mono hs)

theorem Only.same (h : Only s m m') (hs : Disjoint t s) : Same t m m' := fun x hx => h x (Set.disjoint_left.mp hs hx)

theorem Only.same_compl (h : Only tᶜ m m') : Same t m m' := h.same disjoint_compl_right

theorem Same.trans (h : Same t m m') (h' : Same t m' m'') : Same t m m'' := fun x hx => (h' x hx).trans (h x hx)

theorem Same.only {m₁ m₁' : Memory} (h : Same t m m') (hm : Only s m m₁) (hm' : Only s m' m₁') (hs : Disjoint t s) :
    Same t m₁ m₁' := fun x hx => (hm'.same hs x hx).trans ((h x hx).trans (hm.same hs x hx).symm)

theorem same_of_load (h : load m' a n = load m a n) : Same (place a n) m m' := by
  induction n generalizing a with
  | zero =>
      intro x hx
      rw [mem_place] at hx
      omega
  | succ n ih =>
      have hb := (m.byte a).toNat_lt
      have hb' := (m'.byte a).toNat_lt
      rw [load, load] at h
      intro x hx
      by_cases hxa : x = a
      · rw [hxa]
        apply UInt8.toNat_inj.mp
        omega
      · apply ih (a := a + 1) (by omega)
        rw [mem_place] at hx ⊢
        omega

theorem store_same (m m' : Memory) (a n v : Nat) : Same (place a n) (store m a n v) (store m' a n v) :=
  same_of_load ((load_store m' a n v).trans (load_store m a n v).symm)

end Same

/-- Links in memory: two words of eight bytes, the backward link first. -/
instance : Store Memory Nat where
  next m a := load m (a + 8) 8
  prev m a := load m a 8
  setNext m a v := store m (a + 8) 8 v
  setPrev m a v := store m a 8 v

instance : LawfulStore Memory Nat where
  Apart a b := a + 16 ≤ b ∨ b + 16 ≤ a
  Valid a := a < 2 ^ 64
  apart_symm := Or.symm
  apart_irrefl a h := by omega
  next_setNext m a v hv := load_store_of_lt m (a + 8) hv
  prev_setPrev m a v hv := load_store_of_lt m a hv
  next_setNext_apart m a b v h := load_store_apart m v (by omega)
  prev_setPrev_apart m a b v h := load_store_apart m v (by omega)
  prev_setNext m a b v h := load_store_apart m v (by omega)
  next_setPrev m a b v h := load_store_apart m v (by omega)

end Karg.ByteMemory
