import Karg.Execution
import Karg.KernelMemory
import Mathlib.Data.List.Nodup

namespace Karg.PageAlloc

open LinkStore CircularList ListNode ByteMemory KernelMemory Execution

def pageSize : Nat := 4096

def kheapSize : Nat := 0x800000

def initLoop (freeList bound : Nat) (fuel : Nat) (m : Memory) (node : Nat) : Option Memory :=
  match fuel with
  | 0 => none
  | fuel + 1 =>
      if node < bound then initLoop freeList bound fuel (listPushBack m freeList node) (usizeAdd node pageSize)
      else some m

def init (freeList heapStart : Nat) (fuel : Nat) (m : Memory) : Option Memory :=
  initLoop freeList (usizeAdd heapStart kheapSize) fuel m heapStart

def pageAlloc (freeList : Nat) (m : Memory) : Memory × Nat :=
  if listEmpty m freeList then (m, nullptr)
  else
    let res := listFront m freeList
    (listPopFront m freeList, res)

def pageFree (freeList : Nat) (m : Memory) (ptr : Nat) : Memory :=
  if ptr = nullptr then m else listPushBack m freeList ptr

structure Page (p : Nat) : Prop where
  aligned : p % pageSize = 0
  pos : 0 < p
  end_lt : p + pageSize < 2 ^ 64

structure FreePages (freeList : Nat) (m : Memory) (free : List Nat) : Prop where
  ring : Ring m freeList free
  page (p : Nat) : p ∈ free → Page p
  off (p : Nat) : p ∈ free → freeList + 16 ≤ p ∨ p + pageSize ≤ freeList

variable {freeList p q : Nat} {m m' : Memory} {free : List Nat}

theorem Page.apart (hp : Page p) (hq : Page q) (h : p ≠ q) : p + pageSize ≤ q ∨ q + pageSize ≤ p := by
  have hpa := hp.aligned
  have hqa := hq.aligned
  rw [pageSize] at hpa hqa ⊢
  omega

theorem FreePages.nodup (h : FreePages freeList m free) : free.Nodup := by
  apply (List.pairwise_cons.mp h.ring.apart).2.imp
  rintro p _ ha rfl
  exact apart_irrefl p ha

theorem FreePages.unique {free' : List Nat} (h : FreePages freeList m free) (h' : FreePages freeList m free') :
    free = free' := by
  have hnot : ∀ {free}, FreePages freeList m free → freeList ∉ free := by
    intro free h hin
    exact apart_irrefl freeList ((List.pairwise_cons.mp h.ring.apart).1 freeList hin)
  exact circular_unique h.ring.circular h'.ring.circular (hnot h) (hnot h')

theorem FreePages.frame (h : FreePages freeList m free) {s : Set Nat} (hm : Only s m m')
    (hs : Disjoint (nodes (freeList :: free)) s) : FreePages freeList m' free :=
  ⟨h.ring.frame hm hs, h.page, h.off⟩

theorem FreePages.disjoint (h : FreePages freeList m free) (hp : Page p)
    (ho : freeList + 16 ≤ p ∨ p + pageSize ≤ freeList) (hn : p ∉ free) :
    Disjoint (place p pageSize) (nodes (freeList :: free)) := by
  apply disjoint_nodes
  intro q hq
  rcases List.mem_cons.mp hq with rfl | hq
  · exact ho.symm
  · have hap := hp.apart (h.page q hq) fun he => hn (he ▸ hq)
    rw [pageSize] at hap ⊢
    omega

theorem pageAlloc_nil (h : FreePages freeList m []) : pageAlloc freeList m = (m, nullptr) := by
  rw [pageAlloc, h.ring.listEmpty]
  rfl

theorem pageAlloc_cons (h : FreePages freeList m (p :: free)) : ∃ m', pageAlloc freeList m = (m', p) ∧
    FreePages freeList m' free ∧ Only (nodes (freeList :: free)) m m' := by
  obtain ⟨hr, hm⟩ := h.ring.popFront
  refine ⟨listPopFront m freeList, ?_, ⟨hr, ?_, ?_⟩, hm⟩
  · rw [pageAlloc, h.ring.listEmpty, h.ring.front]
    rfl
  · intro q hq
    exact h.page q (List.mem_cons_of_mem p hq)
  · intro q hq
    exact h.off q (List.mem_cons_of_mem p hq)

theorem pageAlloc_null (h : FreePages freeList m free) : (pageAlloc freeList m).2 = nullptr ↔ free = [] := by
  cases free with
  | nil => simp [pageAlloc_nil h]
  | cons p free =>
      obtain ⟨m', hm, -⟩ := pageAlloc_cons h
      have hp := (h.page p List.mem_cons_self).pos
      simp [hm, nullptr, Nat.ne_of_gt hp]

theorem push_refines (h : FreePages freeList m free) (hp : Page p)
    (ho : freeList + 16 ≤ p ∨ p + pageSize ≤ freeList) (hn : p ∉ free) :
    FreePages freeList (listPushBack m freeList p) (free ++ [p]) ∧
      Only (nodes (p :: freeList :: free)) m (listPushBack m freeList p) := by
  have hend := hp.end_lt
  have hap : ∀ q ∈ freeList :: free, Apart Memory p q := by
    intro q hq
    show p + 16 ≤ q ∨ q + 16 ≤ p
    rcases List.mem_cons.mp hq with rfl | hq
    · rw [pageSize] at ho
      omega
    · have hpq := hp.apart (h.page q hq) fun he => hn (he ▸ hq)
      rw [pageSize] at hpq
      omega
  obtain ⟨hr, hm⟩ := h.ring.pushBack hap (by omega)
  refine ⟨⟨hr, fun q hq => ?_, fun q hq => ?_⟩, hm⟩
  · rcases List.mem_append.mp hq with hq | hq
    · exact h.page q hq
    · rwa [List.mem_singleton.mp hq]
  · rcases List.mem_append.mp hq with hq | hq
    · exact h.off q hq
    · rwa [List.mem_singleton.mp hq]

theorem pageFree_refines (h : FreePages freeList m free) (hp : Page p)
    (ho : freeList + 16 ≤ p ∨ p + pageSize ≤ freeList) (hn : p ∉ free) :
    FreePages freeList (pageFree freeList m p) (free ++ [p]) ∧
      Only (nodes (p :: freeList :: free)) m (pageFree freeList m p) := by
  have hne : p ≠ nullptr := Nat.ne_of_gt hp.pos
  rw [pageFree, if_neg hne]
  exact push_refines h hp ho hn

section Init

variable {heapStart : Nat}

def heapPages (heapStart : Nat) : List Nat :=
  (List.range (kheapSize / pageSize)).map fun i => heapStart + pageSize * i

structure Region (freeList heapStart : Nat) : Prop where
  aligned : heapStart % pageSize = 0
  pos : 0 < heapStart
  end_lt : heapStart + kheapSize < 2 ^ 64
  head_lt : freeList < 2 ^ 64
  off : freeList + 16 ≤ heapStart ∨ heapStart + kheapSize ≤ freeList

theorem mem_heapPages : p ∈ heapPages heapStart ↔ ∃ i < kheapSize / pageSize, heapStart + pageSize * i = p := by
  simp [heapPages]

theorem heapPages_cons (heapStart : Nat) : heapPages heapStart =
    heapStart :: (List.range (kheapSize / pageSize - 1)).map fun i => heapStart + pageSize * (i + 1) := by
  have hk : kheapSize / pageSize = (kheapSize / pageSize - 1) + 1 := by decide
  rw [heapPages, hk, List.range_succ_eq_map, List.map_cons, List.map_map]
  rfl

theorem heapPages_nodup (heapStart : Nat) : (heapPages heapStart).Nodup := by
  apply List.Nodup.map _ List.nodup_range
  intro i j hij
  simp only [pageSize] at hij
  omega

theorem Region.page (hr : Region freeList heapStart) (hp : p ∈ heapPages heapStart) :
    Page p ∧ (freeList + 16 ≤ p ∨ p + pageSize ≤ freeList) := by
  obtain ⟨i, hi, rfl⟩ := mem_heapPages.mp hp
  have ha := hr.aligned
  have hpos := hr.pos
  have hend := hr.end_lt
  have ho := hr.off
  simp only [pageSize, kheapSize] at hi ha hend ho
  refine ⟨⟨?_, ?_, ?_⟩, ?_⟩ <;> simp only [pageSize] <;> omega

theorem initLoop_refines (hr : Region freeList heapStart) {n k : Nat} (hk : n + k = kheapSize / pageSize)
    (h : FreePages freeList m ((List.range n).map fun i => heapStart + pageSize * i)) :
    ∃ m', (∀ fuel, k < fuel → initLoop freeList (heapStart + kheapSize) fuel m (heapStart + pageSize * n) = some m') ∧
      FreePages freeList m' (heapPages heapStart) ∧ Only (nodes (freeList :: heapPages heapStart)) m m' := by
  -- `k` pages are still to come; those before them are on the list.
  induction k generalizing n m with
  | zero =>
      rw [Nat.add_zero] at hk
      subst hk
      refine ⟨m, fun fuel hf => ?_, h, Only.refl _ m⟩
      obtain ⟨fuel, rfl⟩ := Nat.exists_eq_succ_of_ne_zero (Nat.ne_zero_of_lt hf)
      exact if_neg (Nat.lt_irrefl _)
  | succ k ih =>
      have hmem : heapStart + pageSize * n ∈ heapPages heapStart := mem_heapPages.mpr ⟨n, by omega, rfl⟩
      obtain ⟨hp, ho⟩ := hr.page hmem
      have hnew : heapStart + pageSize * n ∉ (List.range n).map fun i => heapStart + pageSize * i := by
        intro hin
        obtain ⟨i, hi, he⟩ := List.mem_map.mp hin
        rw [List.mem_range] at hi
        rw [pageSize] at he
        omega
      obtain ⟨hf, hm⟩ := push_refines h hp ho hnew
      have hrange : ((List.range (n + 1)).map fun i => heapStart + pageSize * i) =
          ((List.range n).map fun i => heapStart + pageSize * i) ++ [heapStart + pageSize * n] := by
        rw [List.range_succ, List.map_append]
        rfl
      rw [← hrange] at hf
      obtain ⟨m', hrun, hf', hm'⟩ := ih (by omega) hf
      refine ⟨m', fun fuel hfuel => ?_, hf', Only.trans (hm.mono ?_) hm'⟩
      · obtain ⟨fuel, rfl⟩ := Nat.exists_eq_succ_of_ne_zero (Nat.ne_zero_of_lt hfuel)
        have hlt : heapStart + pageSize * n < heapStart + kheapSize := by
          simp only [pageSize, kheapSize] at hk ⊢
          omega
        have hnext : usizeAdd (heapStart + pageSize * n) pageSize = heapStart + pageSize * (n + 1) := by
          rw [usizeAdd_of_lt hp.end_lt, Nat.mul_succ, Nat.add_assoc]
        rw [initLoop, if_pos hlt, hnext]
        exact hrun fuel (Nat.lt_of_succ_lt_succ hfuel)
      · apply nodes_mono
        intro x hx
        rcases List.mem_cons.mp hx with rfl | hx
        · exact List.mem_cons_of_mem _ hmem
        · rcases List.mem_cons.mp hx with rfl | hx
          · exact List.mem_cons_self
          · obtain ⟨i, hi, rfl⟩ := List.mem_map.mp hx
            rw [List.mem_range] at hi
            exact List.mem_cons_of_mem _ (mem_heapPages.mpr ⟨i, by omega, rfl⟩)

/-- After `init` the free list holds the whole heap. -/
theorem init_refines (hr : Region freeList heapStart) (h : Ring m freeList []) :
    ∃ m', Converges (fun fuel => init freeList heapStart fuel m) m' ∧
      FreePages freeList m' (heapPages heapStart) ∧ Only (nodes (freeList :: heapPages heapStart)) m m' := by
  obtain ⟨m', hrun, hf, hm⟩ := initLoop_refines (n := 0) hr (Nat.zero_add _) ⟨h, by simp, by simp⟩
  refine ⟨m', ⟨kheapSize / pageSize + 1, fun fuel hfuel => ?_⟩, hf, hm⟩
  show initLoop freeList (usizeAdd heapStart kheapSize) fuel m heapStart = some m'
  rw [usizeAdd_of_lt hr.end_lt]
  exact hrun fuel hfuel

end Init

theorem boot_region : Region 0x80300010 0x80400000 := by
  refine ⟨?_, ?_, ?_, ?_, ?_⟩ <;> decide

theorem boot_pages : ∃ m, FreePages 0x80300010 m (heapPages 0x80400000) := by
  obtain ⟨hf, -⟩ := Ring.initHead ⟨fun _ => 0⟩ boot_region.head_lt
  obtain ⟨m, -, hpages, -⟩ := init_refines boot_region hf
  exact ⟨m, hpages⟩

theorem boot_off {a n : Nat} (hl : a + n ≤ 0x80300010 ∨ 0x80300010 + 16 ≤ a)
    (hp : ∀ i, a + n ≤ 0x80400000 + pageSize * i ∨ 0x80400000 + pageSize * i + 16 ≤ a) :
    Disjoint (place a n) (nodes (0x80300010 :: heapPages 0x80400000)) := by
  apply disjoint_nodes
  intro q hq
  rcases List.mem_cons.mp hq with rfl | hq
  · exact hl
  · obtain ⟨i, -, rfl⟩ := mem_heapPages.mp hq
    exact hp i

theorem heapPages_three : ∃ rest, heapPages 0x80400000 = 0x80400000 :: 0x80401000 :: 0x80402000 :: rest := by
  have hk : kheapSize / pageSize = 2045 + 1 + 1 + 1 := by decide
  rw [heapPages, hk, List.range_succ_eq_map, List.range_succ_eq_map, List.range_succ_eq_map]
  exact ⟨_, rfl⟩

end Karg.PageAlloc
