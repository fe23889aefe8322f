import Karg.Execution
import Karg.KfreeRefinement

namespace Karg.HeapRuns

open LinkStore CircularList ListNode ByteMemory KernelMemory PageAlloc Kalloc HeapModel HeapInvariant BlockHeaders
  KallocRefinement KfreeRefinement Execution

structure Run where
  heap : Heap
  live : Nat → Option Nat

inductive Op
  | kmalloc (sz : Nat)
  | kcalloc (sz n : Nat)
  | kfree (ptr : Nat)
  | write (ptr i : Nat) (val : UInt8)
  | other (mem : Memory)

def grant (live : Nat → Option Nat) (ptr sz : Nat) : Nat → Option Nat :=
  if ptr = nullptr then live else Function.update live ptr (some sz)

def exec (sym : Symbols) (fuel : Nat) (s : Run) : Op → Option Run
  | .kmalloc sz => (kmalloc sym fuel s.heap sz).map fun r => ⟨r.1, grant s.live r.2 sz⟩
  | .kcalloc sz n => (kcalloc sym fuel s.heap sz n).map fun r => ⟨r.1, grant s.live r.2 (sz * n)⟩
  | .kfree ptr => some ⟨kfree sym s.heap ptr, Function.update s.live ptr none⟩
  | .write ptr i val => some ⟨⟨setByte s.heap.mem (ptr + i) val, s.heap.pages⟩, s.live⟩
  | .other mem => some ⟨⟨mem, s.heap.pages⟩, s.live⟩

/-- What other code may do: use the page allocator, which never hands out a page
of the heap, and write to memory that is not of the heap. -/
structure Elsewhere (sym : Symbols) (h : Heap) (mem : Memory) : Prop where
  only : Only (extent sym.blockList h.pages)ᶜ h.mem mem
  free : ∃ free, FreePages sym.freeList mem free ∧ (∀ p ∈ free, p ∉ h.pages) ∧
    ∀ p ∈ free, sym.blockList + 16 ≤ p ∨ p + pageSize ≤ sym.blockList

/-- Sizes do not wrap, only live pointers or null are freed, and owners write to
the bytes that they asked for. -/
def Allowed (sym : Symbols) (s : Run) : Op → Prop
  | .kmalloc sz => sz + headerSize < 2 ^ 64
  | .kcalloc sz n => sz * n + headerSize < 2 ^ 64
  | .kfree ptr => ptr = nullptr ∨ (s.live ptr).isSome
  | .write ptr i _ => ∃ sz, s.live ptr = some sz ∧ i < sz
  | .other mem => Elsewhere sym s.heap mem

def Step (sym : Symbols) (s : Run) (op : Op) (s' : Run) : Prop :=
  Allowed sym s op ∧ Converges (fun fuel => exec sym fuel s op) s'

structure Start (sym : Symbols) (s : Run) : Prop where
  blockList : Ring s.heap.mem sym.blockList []
  pages : s.heap.pages = []
  live (ptr : Nat) : s.live ptr = none
  heads : sym.blockList + 16 ≤ sym.freeList ∨ sym.freeList + 16 ≤ sym.blockList
  free : ∃ free, FreePages sym.freeList s.heap.mem free ∧
    ∀ p ∈ free, sym.blockList + 16 ≤ p ∨ p + pageSize ≤ sym.blockList

def Reached (sym : Symbols) : Run → Prop := Reachable (Start sym) (Step sym)

structure Simulated (sym : Symbols) (s : Run) (a : Model) : Prop where
  represents : Represents sym s.heap a
  wellFormed : WellFormed a
  owned : Owned a s.live
  coalesced : Coalesced a.blocks

variable {sym : Symbols} {s s' : Run} {a : Model} {live : Nat → Option Nat} {op : Op} {ptr sz : Nat} {m : Memory}
  {b : Block}

theorem start_simulated (h : Start sym s) {free : List Nat} (hf : FreePages sym.freeList s.heap.mem free)
    (hoff : ∀ p ∈ free, sym.blockList + 16 ≤ p ∨ p + pageSize ≤ sym.blockList) : Simulated sym s ⟨[], [], free⟩ := by
  refine ⟨⟨⟨h.blockList, ?_, .nil, ?_⟩, hf, h.pages, h.heads, ?_⟩, ⟨?_, rfl, hf.page, hf.nodup⟩,
    ⟨?_, ?_⟩, .nil⟩
  · simp
  · simp
  · exact fun p hp => ⟨hoff p hp, hf.off p hp⟩
  · simp
  · intro ptr n hn
    rw [h.live] at hn
    cases hn
  · simp

theorem payload_off (hw : WellFormed a) (ho : Owned a live) (hl : live ptr = some sz) (hb : b ∈ a.blocks) :
    Disjoint (place ptr sz) (place b.addr headerSize) := by
  obtain ⟨c, hc, -, rfl, hsz⟩ := ho.block ptr sz hl
  have hsize := hw.size b hb
  apply disjoint_place
  by_cases hcb : c = b
  · subst hcb
    omega
  · have hap := hw.apart_of_ne hc hb hcb
    rw [Tiling.Segment.Apart] at hap
    omega

theorem payload_subset (hw : WellFormed a) (ho : Owned a live) (hl : live ptr = some sz) :
    place ptr sz ⊆ extent sym.blockList a.pages := by
  obtain ⟨c, hc, -, rfl, hsz⟩ := ho.block ptr sz hl
  apply Set.Subset.trans _ (place_subset_extent hw hc)
  exact place_subset_place (by omega) (by omega)

theorem payload_represents {h : Heap} (hr : Represents sym h a) (hw : WellFormed a) (ho : Owned a live)
    (hl : live ptr = some sz) (hm : Only (place ptr sz) h.mem m) : Represents sym ⟨m, h.pages⟩ a := by
  refine ⟨hr.headers.frame hm ?_, hr.free.frame hm ?_, hr.pages, hr.layout⟩
  · rw [Set.disjoint_left]
    rintro x (hx | ⟨b, hb, hx⟩) hy
    · obtain ⟨c, hc, -, rfl, hsz⟩ := ho.block ptr sz hl
      have hoff := head_off hr.layout hw hc
      rw [mem_place] at hx hy
      omega
    · exact Set.disjoint_left.mp (payload_off hw ho hl hb) hy hx
  · exact (free_disjoint hr.layout hw).mono_right (payload_subset hw ho hl)

theorem grant_eq (live : Nat → Option Nat) {out : Option Nat} (h : ∀ ptr, out = some ptr → ptr ≠ nullptr) (sz : Nat) :
    grant live (out.getD nullptr) sz = out.elim live fun ptr => Function.update live ptr (some sz) := by
  cases out with
  | none => exact if_pos rfl
  | some ptr => exact if_neg (h ptr rfl)

theorem kmalloc_ne_null {out : Option Nat} {a' : Model} (h : Kmalloc a sz out a') :
    ∀ ptr, out = some ptr → ptr ≠ nullptr := by
  rintro _ rfl
  cases h with
  | fit l b r => exact Nat.ne_of_gt (Nat.add_pos_right _ (by decide))
  | grow p => exact Nat.ne_of_gt (Nat.add_pos_right _ (by decide))

/-- The step of the model says what `kmalloc` does. -/
theorem kmalloc_follows (hs : Simulated sym s a) (hl : headerSize + sz ≤ pageSize) {out : Option Nat} {a' : Model}
    (hk : Kmalloc a (headerSize + sz) out a') :
    ∃ h', Converges (fun fuel => kmalloc sym fuel s.heap sz) (h', out.getD nullptr) ∧
      Simulated sym ⟨h', grant s.live (out.getD nullptr) sz⟩ a' := by
  obtain ⟨h', out₁, a₁, he, hk₁, hr'⟩ := kmalloc_refines hs.represents hs.wellFormed hl
  obtain ⟨rfl, rfl⟩ := hk.unique hk₁
  refine ⟨h', ⟨a.blocks.length + 1, he⟩, hr', ?_, ?_, ?_⟩
  · exact kmalloc_wellFormed hs.wellFormed (Nat.le_add_right _ _) hl hk
  · rw [grant_eq s.live (kmalloc_ne_null hk)]
    exact kmalloc_owned hs.owned hl hk
  · exact kmalloc_coalesced hs.coalesced hl hk

theorem kmalloc_simulates (hs : Simulated sym s a) (hsz : sz + headerSize < 2 ^ 64) :
    ∃ h' ptr a', Converges (fun fuel => kmalloc sym fuel s.heap sz) (h', ptr) ∧
      Simulated sym ⟨h', grant s.live ptr sz⟩ a' ∧
      (ptr ≠ nullptr → s.live ptr = none ∧ grant s.live ptr sz ptr = some sz) := by
  have hgrant : ∀ ptr, ptr ≠ nullptr → grant s.live ptr sz ptr = some sz := by
    intro ptr hp
    rw [grant, if_neg hp, Function.update_self]
  by_cases hl : headerSize + sz ≤ pageSize
  · obtain ⟨-, out, a', -, hk, -⟩ := kmalloc_refines hs.represents hs.wellFormed hl
    obtain ⟨h', hc, hs'⟩ := kmalloc_follows hs hl hk
    refine ⟨h', out.getD nullptr, a', hc, hs', fun hp => ⟨?_, hgrant _ hp⟩⟩
    cases out with
    | none => exact absurd rfl hp
    | some ptr => exact kmalloc_fresh hs.wellFormed hs.owned hk
  · have hlarge : pageSize < usizeAdd sz headerSize := by
      rw [usizeAdd_of_lt hsz, Nat.add_comm]
      exact Nat.lt_of_not_le hl
    refine ⟨s.heap, nullptr, a, .of_forall (kmalloc_too_large hlarge · s.heap), ?_, fun hp => absurd rfl hp⟩
    rw [grant, if_pos rfl]
    exact hs

/-- `kcalloc` is `kmalloc` of the product, whose bytes are then cleared. -/
theorem kcalloc_converges {h h₁ : Heap} {n : Nat}
    (hc : Converges (fun fuel => kmalloc sym fuel h (usizeMul sz n)) (h₁, ptr)) :
    Converges (fun fuel => kcalloc sym fuel h sz n)
      (if ptr = nullptr then (h₁, ptr) else ({ h₁ with mem := memSet h₁.mem ptr 0 (usizeMul sz n) }, ptr)) := by
  obtain ⟨N, hN⟩ := hc
  refine ⟨N, fun fuel hfuel => ?_⟩
  simp only [kcalloc, hN fuel hfuel, Option.bind_eq_bind, Option.bind_some]
  split <;> rfl

theorem kcalloc_follows {h₁ : Heap} {n : Nat} (hsz : sz * n < 2 ^ 64)
    (hc : Converges (fun fuel => kmalloc sym fuel s.heap (sz * n)) (h₁, ptr))
    (hs : Simulated sym ⟨h₁, grant s.live ptr (sz * n)⟩ a) :
    ∃ h', Converges (fun fuel => kcalloc sym fuel s.heap sz n) (h', ptr) ∧
      Simulated sym ⟨h', grant s.live ptr (sz * n)⟩ a := by
  have hmul : usizeMul sz n = sz * n := usizeMul_of_lt hsz
  rw [← hmul] at hc
  have hconv := kcalloc_converges hc
  by_cases hp : ptr = nullptr
  · rw [if_pos hp] at hconv
    exact ⟨h₁, hconv, hs⟩
  · rw [if_neg hp, hmul] at hconv
    refine ⟨_, hconv, ?_, hs.wellFormed, hs.owned, hs.coalesced⟩
    have hl : grant s.live ptr (sz * n) ptr = some (sz * n) := by
      rw [grant, if_neg hp, Function.update_self]
    exact payload_represents hs.represents hs.wellFormed hs.owned hl (memSet_only h₁.mem ptr 0 (sz * n))

theorem kcalloc_simulates (hs : Simulated sym s a) {n : Nat} (hsz : sz * n + headerSize < 2 ^ 64) :
    ∃ h' ptr a', Converges (fun fuel => kcalloc sym fuel s.heap sz n) (h', ptr) ∧
      Simulated sym ⟨h', grant s.live ptr (sz * n)⟩ a' ∧ (ptr ≠ nullptr → s.live ptr = none) := by
  obtain ⟨h₁, ptr, a', hc, hs', hptr⟩ := kmalloc_simulates hs hsz
  obtain ⟨h', hc', hs''⟩ := kcalloc_follows (Nat.lt_of_le_of_lt (Nat.le_add_right _ _) hsz) hc hs'
  exact ⟨h', ptr, a', hc', hs'', fun hp => (hptr hp).1⟩

theorem kfree_simulates (hs : Simulated sym s a) (hl : s.live ptr = some sz) :
    ∃ a', Kfree a ptr a' ∧ Simulated sym ⟨kfree sym s.heap ptr, Function.update s.live ptr none⟩ a' := by
  obtain ⟨b, hb, -, hp, -⟩ := hs.owned.block ptr sz hl
  obtain ⟨l, r, hlr⟩ := List.append_of_mem hb
  obtain ⟨a', hk, hr'⟩ := kfree_refines hs.represents hs.wellFormed hlr
  rw [← hp] at hk hr'
  exact ⟨a', hk, hr', kfree_wellFormed hs.wellFormed hk, kfree_owned hs.wellFormed hs.owned hk,
    kfree_coalesced hs.coalesced hk⟩

theorem null_not_live (hs : Simulated sym s a) : s.live nullptr = none := by
  by_contra hno
  obtain ⟨sz, hsz⟩ := Option.ne_none_iff_exists'.mp hno
  obtain ⟨b, -, -, hb, -⟩ := hs.owned.block nullptr sz hsz
  have hpos : 0 < b.addr + headerSize := Nat.add_pos_right _ (by decide)
  exact Nat.ne_of_lt hpos hb

theorem other_simulates (hs : Simulated sym s a) (h : Elsewhere sym s.heap m) :
    ∃ free, Simulated sym ⟨⟨m, s.heap.pages⟩, s.live⟩ { a with free := free } := by
  obtain ⟨free, hf, hnew, hoff⟩ := h.free
  have hr := hs.represents
  have hpages := hr.pages
  have hold : ∀ p ∈ a.pages, p ∈ a.pages ++ a.free := fun p hp => List.mem_append_left _ hp
  have hheaders : Headers sym.blockList m a.blocks := by
    apply hr.headers.frame h.only
    rw [hpages]
    exact (Set.disjoint_compl_right_iff_subset).mpr (footprint_subset_extent _ hs.wellFormed)
  refine ⟨free, ⟨hheaders, hf, hpages, hr.layout.heads, ?_⟩, ⟨hs.wellFormed.size, hs.wellFormed.tiles, ?_, ?_⟩,
    ⟨hs.owned.block, hs.owned.live⟩, hs.coalesced⟩
  · intro p hp
    rcases List.mem_append.mp hp with hp | hp
    · exact hr.layout.off p (hold p hp)
    · exact ⟨hoff p hp, hf.off p hp⟩
  · intro p hp
    rcases List.mem_append.mp hp with hp | hp
    · exact hs.wellFormed.valid p (hold p hp)
    · exact hf.page p hp
  · refine List.nodup_append.mpr ⟨(List.nodup_append.mp hs.wellFormed.nodup).1, hf.nodup, ?_⟩
    rintro p hp _ hp' rfl
    exact hnew p hp' (hpages ▸ hp)

theorem write_simulates (hs : Simulated sym s a) (hl : s.live ptr = some sz) {i : Nat} (hi : i < sz) (val : UInt8) :
    Simulated sym ⟨⟨setByte s.heap.mem (ptr + i) val, s.heap.pages⟩, s.live⟩ a := by
  have hm : Only (place ptr sz) s.heap.mem (setByte s.heap.mem (ptr + i) val) := by
    apply (setByte_only s.heap.mem (ptr + i) val).mono
    exact singleton_subset_place (by omega) (by omega)
  exact ⟨payload_represents hs.represents hs.wellFormed hs.owned hl hm, hs.wellFormed, hs.owned, hs.coalesced⟩

theorem exec_kfree_null (hs : Simulated sym s a) (fuel : Nat) : exec sym fuel s (.kfree nullptr) = some s := by
  rw [exec, kfree, if_pos rfl, ← null_not_live hs, Function.update_eq_self]

/-- Every operation that may come is carried out, and the blocks stay in order. -/
theorem exec_simulates (hs : Simulated sym s a) (ha : Allowed sym s op) :
    ∃ s' a', Converges (fun fuel => exec sym fuel s op) s' ∧ Simulated sym s' a' := by
  cases op with
  | kmalloc sz =>
      obtain ⟨h', ptr, a', hc, hs', -⟩ := kmalloc_simulates hs ha
      exact ⟨_, a', hc.map _, hs'⟩
  | kcalloc sz n =>
      obtain ⟨h', ptr, a', hc, hs', -⟩ := kcalloc_simulates hs ha
      exact ⟨_, a', hc.map _, hs'⟩
  | kfree ptr =>
      rcases ha with rfl | hl
      · exact ⟨s, a, .of_forall (exec_kfree_null hs), hs⟩
      · obtain ⟨sz, hsz⟩ := Option.isSome_iff_exists.mp hl
        obtain ⟨a', -, hs'⟩ := kfree_simulates hs hsz
        exact ⟨_, a', .of_forall fun _ => rfl, hs'⟩
  | write ptr i val =>
      obtain ⟨sz, hsz, hi⟩ := ha
      exact ⟨_, a, .of_forall fun _ => rfl, write_simulates hs hsz hi val⟩
  | other mem =>
      obtain ⟨free, hs'⟩ := other_simulates hs ha
      exact ⟨_, _, .of_forall fun _ => rfl, hs'⟩

theorem reached_simulated (h : Reached sym s) : ∃ a, Simulated sym s a := by
  induction h with
  | start h =>
      obtain ⟨free, hf, hoff⟩ := h.free
      exact ⟨_, start_simulated h hf hoff⟩
  | next op _ hs ih =>
      obtain ⟨a, ha⟩ := ih
      obtain ⟨s', a', hc, hs'⟩ := exec_simulates ha hs.1
      obtain rfl := hc.unique hs.2
      exact ⟨a', hs'⟩

end Karg.HeapRuns
