import Karg.Kalloc
import Karg.Tiling

namespace Karg.HeapModel

open PageAlloc Kalloc Tiling

structure Block extends Segment where
  allocated : Bool
  deriving DecidableEq

/-- The heap as a sequence of blocks, with the pages it has got from the page
allocator and those still there. -/
structure Model where
  blocks : List Block
  pages : List Nat
  free : List Nat

def page (p : Nat) : Segment := ⟨p, pageSize⟩

def split (b : Block) (sz : Nat) : List Block :=
  if headerSize < b.size - sz then [⟨⟨b.addr, sz⟩, true⟩, ⟨⟨b.addr + sz, b.size - sz⟩, false⟩]
  else [{ b with allocated := true }]

def join (b c : Block) : Block := ⟨⟨b.addr, b.size + c.size⟩, false⟩

def joins (b c : Block) : Bool := !b.allocated && !c.allocated && b.addr + b.size = c.addr

def joinPrev (l : List Block) (b : Block) : List Block × Block :=
  match l.getLast? with
  | some p => if joins p b then (l.dropLast, join p b) else (l, b)
  | none => (l, b)

def joinNext (b : Block) (r : List Block) : List Block :=
  match r with
  | q :: r => if joins b q then join b q :: r else b :: q :: r
  | [] => [b]

def usable (sz : Nat) (b : Block) : Bool := !b.allocated && sz ≤ b.size

/-- First fit, with a new page if no block is large enough. The size is that of
the whole block, and the result is the address behind its header. -/
inductive Kmalloc (a : Model) (sz : Nat) : Option Nat → Model → Prop
  | fit (l) (b) (r) (hb : a.blocks = l ++ b :: r) (hl : ∀ c ∈ l, usable sz c = false) (hu : usable sz b) :
      Kmalloc a sz (some (b.addr + headerSize)) { a with blocks := l ++ (split b sz ++ r) }
  | grow (p) (free) (hl : ∀ c ∈ a.blocks, usable sz c = false) (hf : a.free = p :: free) :
      Kmalloc a sz (some (p + headerSize)) ⟨a.blocks ++ split ⟨page p, false⟩ sz, a.pages ++ [p], free⟩
  | full (hl : ∀ c ∈ a.blocks, usable sz c = false) (hf : a.free = []) : Kmalloc a sz none a

inductive Kfree (a : Model) : Nat → Model → Prop
  | free (l) (b) (r) (hb : a.blocks = l ++ b :: r) :
      Kfree a (b.addr + headerSize)
        { a with
          blocks := (joinPrev l { b with allocated := false }).1 ++
            joinNext (joinPrev l { b with allocated := false }).2 r }

variable {sz : Nat} {l r : List Block} {c d : Block}

section Split

theorem split_bytes (hsz : sz ≤ c.size) : bytes ((split c sz).map Block.toSegment) = bytes [c.toSegment] := by
  rw [split]
  split
  · have h := bytes_split c.addr sz (c.size - sz)
    rwa [Nat.add_sub_cancel' hsz] at h
  · rfl

theorem split_size (h : headerSize ≤ sz) (hc : headerSize ≤ c.size) (hd : d ∈ split c sz) : headerSize ≤ d.size := by
  rw [split] at hd
  split at hd
  · simp only [List.mem_cons, List.not_mem_nil, or_false] at hd
    rcases hd with rfl | rfl
    · exact h
    · exact Nat.le_of_lt ‹_›
  · rw [List.mem_singleton] at hd
    rw [hd]
    exact hc

theorem split_allocated (hd : d ∈ split c sz) (ha : d.allocated) : d.addr = c.addr := by
  rw [split] at hd
  split at hd
  · simp only [List.mem_cons, List.not_mem_nil, or_false] at hd
    rcases hd with rfl | rfl
    · rfl
    · cases ha
  · rw [List.mem_singleton] at hd
    rw [hd]

theorem split_mem (hsz : sz ≤ c.size) : ∃ d ∈ split c sz, d.allocated ∧ d.addr = c.addr ∧ sz ≤ d.size := by
  rw [split]
  split
  · exact ⟨_, List.mem_cons_self, rfl, rfl, Nat.le_refl sz⟩
  · exact ⟨_, List.mem_singleton_self _, rfl, rfl, hsz⟩

end Split

section Join

theorem join_bytes (h : joins c d) : bytes [(join c d).toSegment] = bytes [c.toSegment, d.toSegment] := by
  simp only [joins, Bool.and_eq_true, decide_eq_true_eq] at h
  have hs := bytes_split c.addr c.size d.size
  rw [h.2] at hs
  exact hs.symm

theorem joinPrev_bytes (l : List Block) (c : Block) :
    bytes ((joinPrev l c).1.map Block.toSegment) ++ bytes [(joinPrev l c).2.toSegment] =
      bytes (l.map Block.toSegment) ++ bytes [c.toSegment] := by
  rcases List.eq_nil_or_concat' l with rfl | ⟨l, p, rfl⟩
  · rfl
  · simp only [joinPrev, List.getLast?_concat, List.dropLast_concat]
    split
    · next h =>
      rw [join_bytes h]
      simp
    · rfl

theorem joinNext_bytes (c : Block) (r : List Block) :
    bytes ((joinNext c r).map Block.toSegment) = bytes ((c :: r).map Block.toSegment) := by
  cases r with
  | nil => rfl
  | cons q r =>
      simp only [joinNext]
      split
      · next h =>
        have hj := join_bytes h
        simp only [bytes_cons, bytes_nil, List.append_nil] at hj
        simp only [List.map_cons, bytes_cons, hj, List.append_assoc]
      · rfl

theorem joinPrev_free (hc : c.allocated = false) : (joinPrev l c).2.allocated = false := by
  rw [joinPrev]
  split
  · split
    · rfl
    · exact hc
  · exact hc

theorem mem_joinPrev (hd : d.allocated) : d ∈ (joinPrev l c).1 ↔ d ∈ l := by
  rcases List.eq_nil_or_concat' l with rfl | ⟨l, p, rfl⟩
  · rfl
  · simp only [joinPrev, List.getLast?_concat, List.dropLast_concat]
    split
    · next h =>
      have hp : d ≠ p := by
        rintro rfl
        simp [joins, hd] at h
      simp [hp]
    · rfl

theorem mem_joinNext (hc : c.allocated = false) (hd : d.allocated) : d ∈ joinNext c r ↔ d ∈ r := by
  have hne : ∀ x : Block, x.allocated = false → d ≠ x := by
    rintro x hx rfl
    exact absurd (hx.symm.trans hd) (by simp)
  cases r with
  | nil => simpa [joinNext] using hne c hc
  | cons q r =>
      rw [joinNext]
      split
      · next h =>
        have hq : q.allocated = false := by
          simp only [joins, Bool.and_eq_true, Bool.not_eq_true'] at h
          exact h.1.2
        simp [hne _ hq, hne (join c q) rfl]
      · simp [hne c hc]

theorem joinPrev_size (hl : ∀ d ∈ l, headerSize ≤ d.size) (hc : headerSize ≤ c.size) :
    (∀ d ∈ (joinPrev l c).1, headerSize ≤ d.size) ∧ headerSize ≤ (joinPrev l c).2.size := by
  rcases List.eq_nil_or_concat' l with rfl | ⟨l, p, rfl⟩
  · exact ⟨hl, hc⟩
  · simp only [joinPrev, List.getLast?_concat, List.dropLast_concat]
    split
    · refine ⟨fun d hd => hl d (List.mem_append_left _ hd), ?_⟩
      simp only [join]
      omega
    · exact ⟨hl, hc⟩

theorem joinNext_size (hr : ∀ d ∈ r, headerSize ≤ d.size) (hc : headerSize ≤ c.size) (hd : d ∈ joinNext c r) :
    headerSize ≤ d.size := by
  cases r with
  | nil =>
      rw [joinNext, List.mem_singleton] at hd
      rwa [hd]
  | cons q r =>
      rw [joinNext] at hd
      split at hd
      · rcases List.mem_cons.mp hd with rfl | hd
        · simp only [join]
          omega
        · exact hr d (List.mem_cons_of_mem q hd)
      · rcases List.mem_cons.mp hd with rfl | hd
        · exact hc
        · exact hr d hd

end Join

section Unique

theorem first_unique {α : Type} {p : α → Bool} {l l' r r' : List α} {x x' : α} (h : l ++ x :: r = l' ++ x' :: r')
    (hl : ∀ y ∈ l, p y = false) (hl' : ∀ y ∈ l', p y = false) (hx : p x) (hx' : p x') : l = l' ∧ x = x' ∧ r = r' := by
  induction l generalizing l' with
  | nil =>
      cases l' with
      | nil => exact ⟨rfl, List.cons.inj h⟩
      | cons y l' =>
          obtain ⟨rfl, -⟩ := List.cons.inj h
          rw [hl' x List.mem_cons_self] at hx
          cases hx
  | cons y l ih =>
      cases l' with
      | nil =>
          obtain ⟨rfl, -⟩ := List.cons.inj h
          rw [hl y List.mem_cons_self] at hx'
          cases hx'
      | cons z l' =>
          obtain ⟨rfl, ht⟩ := List.cons.inj h
          obtain ⟨rfl, hrest⟩ := ih ht (List.forall_mem_cons.mp hl).2 (List.forall_mem_cons.mp hl').2
          exact ⟨rfl, hrest⟩

theorem Kmalloc.unique {a b b' : Model} {out out' : Option Nat} (h : Kmalloc a sz out b) (h' : Kmalloc a sz out' b') :
    out = out' ∧ b = b' := by
  have hno : ∀ {l c r}, a.blocks = l ++ c :: r → usable sz c → ¬ ∀ d ∈ a.blocks, usable sz d = false := by
    intro l c r hb hu hall
    rw [hall c (hb ▸ mem_middle.mpr (.inl rfl))] at hu
    cases hu
  cases h with
  | fit l c r hb hl hu =>
      cases h' with
      | fit l' c' r' hb' hl' hu' =>
          obtain ⟨rfl, rfl, rfl⟩ := first_unique (hb.symm.trans hb') hl hl' hu hu'
          exact ⟨rfl, rfl⟩
      | grow p free hl' | full hl' => exact absurd hl' (hno hb hu)
  | grow p free hl hf =>
      cases h' with
      | fit l' c' r' hb' hl' hu' => exact absurd hl (hno hb' hu')
      | grow p' free' hl' hf' =>
          obtain ⟨rfl, rfl⟩ := List.cons.inj (hf.symm.trans hf')
          exact ⟨rfl, rfl⟩
      | full hl' hf' => cases hf.symm.trans hf'
  | full hl hf =>
      cases h' with
      | fit l' c' r' hb' hl' hu' => exact absurd hl (hno hb' hu')
      | grow p' free' hl' hf' => cases hf'.symm.trans hf
      | full => exact ⟨rfl, rfl⟩

end Unique

end Karg.HeapModel
