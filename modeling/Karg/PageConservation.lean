import Karg.PageAlloc

namespace Karg.PageConservation

open LinkStore CircularList ListNode ByteMemory KernelMemory PageAlloc Execution

/-- The memory, with the pages that are outstanding and two records: the pages
that have entered the free list, and those that have been issued. -/
structure Run where
  mem : Memory
  outstanding : List Nat
  entered : List Nat
  issued : List Nat

inductive Op
  | alloc
  | free (ptr : Nat)
  | write (ptr i : Nat) (val : UInt8)

def exec (freeList : Nat) (s : Run) : Op → Run
  | .alloc =>
      let (m, res) := pageAlloc freeList s.mem
      if res = nullptr then { s with mem := m }
      else { s with mem := m, outstanding := res :: s.outstanding, issued := s.issued ++ [res] }
  | .free ptr =>
      let m := pageFree freeList s.mem ptr
      if ptr = nullptr then { s with mem := m }
      else { s with mem := m, outstanding := s.outstanding.erase ptr, entered := s.entered ++ [ptr] }
  | .write ptr i val => { s with mem := setByte s.mem (ptr + i) val }

/-- Only outstanding pages or null are freed, and only bytes of outstanding
pages are written. -/
def Allowed (s : Run) : Op → Prop
  | .alloc => True
  | .free ptr => ptr = nullptr ∨ ptr ∈ s.outstanding
  | .write ptr i _ => ptr ∈ s.outstanding ∧ i < pageSize

def Step (freeList : Nat) (s : Run) (op : Op) (s' : Run) : Prop := Allowed s op ∧ s' = exec freeList s op

structure Start (freeList heapStart : Nat) (s : Run) : Prop where
  region : Region freeList heapStart
  mem : ∃ m, Ring m freeList [] ∧ Converges (fun fuel => init freeList heapStart fuel m) s.mem
  outstanding : s.outstanding = []
  entered : s.entered = heapPages heapStart
  issued : s.issued = []

def Reached (freeList heapStart : Nat) : Run → Prop := Reachable (Start freeList heapStart) (Step freeList)

structure Invariant (freeList heapStart : Nat) (s : Run) (free : List Nat) : Prop where
  region : Region freeList heapStart
  pages : FreePages freeList s.mem free
  perm : (free ++ s.outstanding).Perm (heapPages heapStart)
  fifo : s.entered = s.issued ++ free

variable {freeList heapStart p : Nat} {s s' : Run} {op : Op} {free : List Nat}

theorem reached_exec (h : Reached freeList heapStart s) (op : Op) (ha : Allowed s op) :
    Reached freeList heapStart (exec freeList s op) := .next op h ⟨ha, rfl⟩

theorem Invariant.nodup (h : Invariant freeList heapStart s free) : (free ++ s.outstanding).Nodup :=
  h.perm.nodup_iff.mpr (heapPages_nodup heapStart)

theorem Invariant.mem_heapPages (h : Invariant freeList heapStart s free) (hp : p ∈ s.outstanding) :
    p ∈ heapPages heapStart := h.perm.subset (List.mem_append_right _ hp)

/-- The bytes of an outstanding page are no links of the free list. -/
theorem Invariant.off (h : Invariant freeList heapStart s free) (hp : p ∈ s.outstanding) :
    Disjoint (nodes (freeList :: free)) (place p pageSize) := by
  obtain ⟨hpage, hoff⟩ := h.region.page (h.mem_heapPages hp)
  apply Disjoint.symm
  exact h.pages.disjoint hpage hoff fun hin => (List.nodup_append.mp h.nodup).2.2 p hin p hp rfl

theorem start_invariant (h : Start freeList heapStart s) :
    Invariant freeList heapStart s (heapPages heapStart) := by
  obtain ⟨m, hm, hrun⟩ := h.mem
  obtain ⟨m', hrun', hf, -⟩ := init_refines h.region hm
  obtain rfl := hrun.unique hrun'
  refine ⟨h.region, hf, ?_, ?_⟩
  · rw [h.outstanding, List.append_nil]
  · rw [h.entered, h.issued, List.nil_append]

theorem alloc_invariant (h : Invariant freeList heapStart s free) :
    Invariant freeList heapStart (exec freeList s .alloc) free.tail := by
  have hpages := h.pages
  cases free with
  | nil =>
      simp only [exec, pageAlloc_nil hpages, if_true]
      exact h
  | cons p free =>
      obtain ⟨m', hrun, hf, -⟩ := pageAlloc_cons hpages
      have hp : p ≠ nullptr := Nat.ne_of_gt (hpages.page p List.mem_cons_self).pos
      simp only [exec, hrun, hp, if_false]
      refine ⟨h.region, hf, List.perm_middle.trans h.perm, ?_⟩
      rw [h.fifo]
      simp

theorem free_invariant (h : Invariant freeList heapStart s free) (hp : p ∈ s.outstanding) :
    Invariant freeList heapStart (exec freeList s (.free p)) (free ++ [p]) := by
  obtain ⟨hpage, hoff⟩ := h.region.page (h.mem_heapPages hp)
  have hnew : p ∉ free := fun hin => (List.nodup_append.mp h.nodup).2.2 p hin p hp rfl
  have hne : p ≠ nullptr := Nat.ne_of_gt hpage.pos
  simp only [exec, hne, if_false]
  refine ⟨h.region, (pageFree_refines h.pages hpage hoff hnew).1, ?_, ?_⟩
  · rw [List.append_assoc]
    exact ((List.perm_cons_erase hp).symm.append_left free).trans h.perm
  · rw [h.fifo, List.append_assoc]

theorem write_invariant (h : Invariant freeList heapStart s free) (hp : p ∈ s.outstanding) {i : Nat} (hi : i < pageSize)
    (val : UInt8) : Invariant freeList heapStart (exec freeList s (.write p i val)) free := by
  have hm : Only (place p pageSize) s.mem (setByte s.mem (p + i) val) := by
    apply (setByte_only s.mem (p + i) val).mono
    exact singleton_subset_place (by omega) (by omega)
  exact ⟨h.region, h.pages.frame hm (h.off hp), h.perm, h.fifo⟩

theorem exec_invariant (h : Invariant freeList heapStart s free) (ha : Allowed s op) :
    ∃ free', Invariant freeList heapStart (exec freeList s op) free' := by
  cases op with
  | alloc => exact ⟨_, alloc_invariant h⟩
  | free ptr =>
      rcases ha with rfl | hp
      · exact ⟨free, h⟩
      · exact ⟨_, free_invariant h hp⟩
  | write ptr i val => exact ⟨free, write_invariant h ha.1 ha.2 val⟩

theorem reached_invariant (h : Reached freeList heapStart s) : ∃ free, Invariant freeList heapStart s free := by
  induction h with
  | start h => exact ⟨_, start_invariant h⟩
  | next op _ hs ih =>
      obtain ⟨free, hi⟩ := ih
      rw [hs.2]
      exact exec_invariant hi hs.1

theorem pageAlloc_result (h : Invariant freeList heapStart s free) :
    ((pageAlloc freeList s.mem).2 = nullptr ↔ s.outstanding.length = kheapSize / pageSize) ∧
      ((pageAlloc freeList s.mem).2 ≠ nullptr → free.head? = some (pageAlloc freeList s.mem).2) := by
  have hlen := h.perm.length_eq
  rw [List.length_append, heapPages, List.length_map, List.length_range] at hlen
  have hpages := h.pages
  cases free with
  | nil =>
      rw [pageAlloc_nil hpages]
      simpa using hlen
  | cons p free =>
      obtain ⟨m', hrun, -⟩ := pageAlloc_cons hpages
      have hp : p ≠ nullptr := Nat.ne_of_gt (hpages.page p List.mem_cons_self).pos
      rw [hrun]
      rw [List.length_cons] at hlen
      refine ⟨⟨fun h0 => absurd h0 hp, fun ho => ?_⟩, fun _ => rfl⟩
      omega

/-- In every state of a run the free list is a circular list of exactly the heap
pages that are not outstanding, the pages that have been issued are the first
ones of those that have entered it, and the next page comes from its front. -/
theorem page_conservation (h : Reached freeList heapStart s) :
    ∃ free, Ring s.mem freeList free ∧ free.Nodup ∧ s.outstanding.Nodup ∧
      (∀ p, p ∈ free ↔ p ∈ heapPages heapStart ∧ p ∉ s.outstanding) ∧
      (∀ p ∈ s.outstanding, p ∈ heapPages heapStart) ∧ s.entered = s.issued ++ free ∧
      ((pageAlloc freeList s.mem).2 = nullptr ↔ s.outstanding.length = kheapSize / pageSize) ∧
      ∀ res, (pageAlloc freeList s.mem).2 = res → res ≠ nullptr →
        free.head? = some res ∧ res % pageSize = 0 ∧ res ∈ heapPages heapStart ∧ res ∉ s.outstanding := by
  obtain ⟨free, hi⟩ := reached_invariant h
  obtain ⟨hfree, hout, hdisj⟩ := List.nodup_append.mp hi.nodup
  have hmem : ∀ p, p ∈ free ↔ p ∈ heapPages heapStart ∧ p ∉ s.outstanding := by
    intro p
    rw [← hi.perm.mem_iff, List.mem_append]
    constructor
    · intro hp
      exact ⟨.inl hp, fun hp' => hdisj p hp p hp' rfl⟩
    · rintro ⟨hp | hp, hno⟩
      · exact hp
      · exact absurd hp hno
  obtain ⟨hnull, hfront⟩ := pageAlloc_result hi
  refine ⟨free, hi.pages.ring, hfree, hout, hmem, fun p => hi.mem_heapPages, hi.fifo, hnull, ?_⟩
  rintro res rfl hres
  have hhead := hfront hres
  have hin : (pageAlloc freeList s.mem).2 ∈ free := List.mem_of_mem_head? hhead
  exact ⟨hhead, (hi.pages.page _ hin).aligned, (hmem _).mp hin⟩

/-- After `init` over the eight megabytes from 0x80400000 on, a page is issued,
overwritten and freed. -/
theorem page_conservation_reuse : ∃ s, Reached 0x80300000 0x80400000 s ∧ s.issued = [0x80400000] ∧
    ∃ free, Ring s.mem 0x80300000 free ∧ s.entered = s.issued ++ free := by
  have hregion : Region 0x80300000 0x80400000 := by
    refine ⟨?_, ?_, ?_, ?_, ?_⟩ <;> decide
  obtain ⟨hring, -⟩ := Ring.initHead (h := 0x80300000) ⟨fun _ => 0⟩ (by decide)
  obtain ⟨m, hrun, hf, -⟩ := init_refines hregion hring
  obtain ⟨pages, hpages⟩ : ∃ pages, pages = heapPages 0x80400000 := ⟨_, rfl⟩
  have h₀ : Reached 0x80300000 0x80400000 ⟨m, [], pages, []⟩ := .start ⟨hregion, ⟨_, hring, hrun⟩, rfl, hpages, rfl⟩
  rw [heapPages_cons] at hf
  obtain ⟨m', hm', -⟩ := pageAlloc_cons hf
  have h₁ := reached_exec h₀ .alloc trivial
  have hex : exec 0x80300000 ⟨m, [], pages, []⟩ .alloc = ⟨m', [0x80400000], pages, [0x80400000]⟩ := by
    simp only [exec, hm']
    rfl
  rw [hex] at h₁
  have h₂ := reached_exec h₁ (.write 0x80400000 8 255) ⟨List.mem_singleton_self _, by decide⟩
  have h₃ := reached_exec h₂ (.free 0x80400000) (.inr (List.mem_singleton_self _))
  obtain ⟨free, hring, -, -, -, -, hfifo, -⟩ := page_conservation h₃
  exact ⟨_, h₃, rfl, free, hring, hfifo⟩

end Karg.PageConservation
