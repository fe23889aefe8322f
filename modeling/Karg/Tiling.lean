import Mathlib.Algebra.GroupWithZero.Nat
import Mathlib.Data.List.Chain
import Mathlib.Data.List.Nodup

namespace Karg.Tiling

structure Segment where
  addr : Nat
  size : Nat
  deriving DecidableEq

def bytes (segs : List Segment) : List Nat := segs.flatMap fun s => List.range' s.addr s.size

def Segment.Apart (s t : Segment) : Prop := s.addr + s.size ≤ t.addr ∨ t.addr + t.size ≤ s.addr

theorem mem_middle {α : Type} {x y : α} {l r : List α} : x ∈ l ++ y :: r ↔ x = y ∨ x ∈ l ++ r :=
  List.perm_middle.mem_iff.trans List.mem_cons

variable {segs l r : List Segment} {s t : Segment}

theorem Segment.Apart.symm (h : s.Apart t) : t.Apart s := Or.symm h

@[simp] theorem bytes_nil : bytes [] = [] := rfl

@[simp] theorem bytes_cons : bytes (s :: segs) = List.range' s.addr s.size ++ bytes segs := List.flatMap_cons

@[simp] theorem bytes_append : bytes (l ++ r) = bytes l ++ bytes r := List.flatMap_append

theorem mem_bytes {x : Nat} : x ∈ bytes segs ↔ ∃ s ∈ segs, s.addr ≤ x ∧ x < s.addr + s.size := by
  simp only [bytes, List.mem_flatMap, List.mem_range'_1]

theorem length_bytes (segs : List Segment) : (bytes segs).length = (segs.map Segment.size).sum := by
  induction segs with
  | nil => rfl
  | cons s segs ih => simp [ih]

theorem bytes_split (a n k : Nat) : bytes [⟨a, n⟩, ⟨a + n, k⟩] = bytes [⟨a, n + k⟩] := by
  simp only [bytes_cons, bytes_nil, List.append_nil]
  have h : List.range' a n ++ List.range' (a + 1 * n) k = List.range' a (n + k) := List.range'_append
  rwa [Nat.one_mul] at h

theorem apart_of_nodup (h : (bytes segs).Nodup) (hpos : ∀ s ∈ segs, 0 < s.size) : segs.Pairwise Segment.Apart := by
  induction segs with
  | nil => exact .nil
  | cons s segs ih =>
      rw [bytes_cons, List.nodup_append] at h
      obtain ⟨-, hs, hd⟩ := h
      apply List.pairwise_cons.mpr
      constructor
      · intro t ht
        have h1 := hpos s List.mem_cons_self
        have h2 := hpos t (List.mem_cons_of_mem _ ht)
        by_contra hno
        rw [Segment.Apart, not_or] at hno
        have hx : max s.addr t.addr ∈ List.range' s.addr s.size := by
          rw [List.mem_range'_1]
          omega
        have hy : max s.addr t.addr ∈ bytes segs := by
          rw [mem_bytes]
          refine ⟨t, ht, ?_⟩
          omega
        exact hd _ hx _ hy rfl
      · exact ih hs fun t ht => hpos t (List.mem_cons_of_mem _ ht)

theorem nodup_of_apart (h : segs.Pairwise Segment.Apart) : (bytes segs).Nodup := by
  induction segs with
  | nil => exact List.nodup_nil
  | cons s segs ih =>
      obtain ⟨hs, hp⟩ := List.pairwise_cons.mp h
      rw [bytes_cons, List.nodup_append]
      refine ⟨List.nodup_range', ih hp, ?_⟩
      rintro x hx y hy rfl
      obtain ⟨t, ht, hxt⟩ := mem_bytes.mp hy
      have hst := hs t ht
      rw [List.mem_range'_1] at hx
      rw [Segment.Apart] at hst
      omega

def Segment.Meets (s t : Segment) : Prop := s.addr + s.size = t.addr

theorem size_le_of_bytes_eq (h : bytes (s :: l) = bytes (t :: r)) (hl : (s :: l).IsChain (¬ Segment.Meets · ·))
    (hpos : ∀ u ∈ l, 0 < u.size) (ha : s.addr = t.addr) : t.size ≤ s.size := by
  by_contra hlt
  have hget := congrArg (·[s.size]?) h
  simp only [bytes_cons] at hget
  rw [List.getElem?_append_right (by simp), List.getElem?_append_left (by simpa using hlt)] at hget
  simp only [List.length_range', Nat.sub_self] at hget
  rw [List.getElem?_range' (by omega)] at hget
  cases l with
  | nil => cases hget
  | cons u l =>
      have hu := hpos u List.mem_cons_self
      rw [bytes_cons, List.getElem?_append_left (by simpa using hu), List.getElem?_range' hu] at hget
      have hmeet := (List.isChain_cons_cons.mp hl).1
      rw [Segment.Meets] at hmeet
      have hval := Option.some.inj hget
      omega

/-- Segments none of which meets the next one are determined by their bytes. -/
theorem segments_unique (hl : l.IsChain (¬ Segment.Meets · ·)) (hr : r.IsChain (¬ Segment.Meets · ·))
    (hlp : ∀ s ∈ l, 0 < s.size) (hrp : ∀ s ∈ r, 0 < s.size) (h : bytes l = bytes r) : l = r := by
  induction l generalizing r with
  | nil =>
      cases r with
      | nil => rfl
      | cons t r =>
          have hpos := hrp t List.mem_cons_self
          have hlen := congrArg List.length h
          simp only [bytes_nil, bytes_cons, List.length_nil, List.length_append, List.length_range'] at hlen
          omega
  | cons s l ih =>
      have hs := hlp s List.mem_cons_self
      cases r with
      | nil =>
          have hlen := congrArg List.length h
          simp only [bytes_nil, bytes_cons, List.length_nil, List.length_append, List.length_range'] at hlen
          omega
      | cons t r =>
          have ht := hrp t List.mem_cons_self
          have hl' := fun u hu => hlp u (List.mem_cons_of_mem s hu)
          have hr' := fun u hu => hrp u (List.mem_cons_of_mem t hu)
          have ha : s.addr = t.addr := by
            have hget := congrArg (·[0]?) h
            simp only [bytes_cons] at hget
            rw [List.getElem?_append_left (by simpa using hs), List.getElem?_append_left (by simpa using ht),
              List.getElem?_range' hs, List.getElem?_range' ht] at hget
            simpa using hget
          have hsize : s.size = t.size :=
            Nat.le_antisymm (size_le_of_bytes_eq h.symm hr hr' ha.symm) (size_le_of_bytes_eq h hl hl' ha)
          have hst : s = t := by
            cases s
            cases t
            simp_all
          subst hst
          rw [bytes_cons, bytes_cons, List.append_cancel_left_eq] at h
          exact congrArg (s :: ·) (ih hl.tail hr.tail hl' hr' h)

theorem meets_of_next (hn : (bytes (l ++ s :: r)).Nodup) (hs : 0 < s.size) (hr : ∀ t ∈ r, 0 < t.size)
    (h : [s.addr + s.size - 1, s.addr + s.size] <:+: bytes (l ++ s :: r)) : ∃ t r', r = t :: r' ∧ s.Meets t := by
  obtain ⟨k, hk⟩ := Nat.exists_eq_add_of_lt hs
  rw [Nat.zero_add] at hk
  obtain ⟨u, v, huv⟩ := h
  have hmid : bytes (l ++ s :: r) = (bytes l ++ List.range' s.addr k) ++ (s.addr + s.size - 1) :: bytes r := by
    rw [bytes_append, bytes_cons, hk, List.range'_1_concat]
    simp
  rw [hmid] at hn huv
  have hnot := (List.nodup_cons.mp (List.nodup_middle.mp hn)).1
  rw [List.mem_append, not_or] at hnot
  have hsplit : (bytes l ++ List.range' s.addr k) ++ (s.addr + s.size - 1) :: bytes r =
      u ++ (s.addr + s.size - 1) :: ((s.addr + s.size) :: v) := by
    rw [← huv]
    simp
  obtain ⟨-, -, hnext⟩ := (List.append_cons_inj_of_notMem hnot.1 hnot.2).mp hsplit
  cases r with
  | nil => cases hnext
  | cons t r =>
      obtain ⟨j, hj⟩ := Nat.exists_eq_add_of_lt (hr t List.mem_cons_self)
      rw [bytes_cons, hj, Nat.zero_add, List.range'_succ, List.cons_append] at hnext
      exact ⟨t, r, rfl, (List.cons.inj hnext).1.symm⟩

end Karg.Tiling
