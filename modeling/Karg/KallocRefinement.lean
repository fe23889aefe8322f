import Karg.BlockHeaders
import Mathlib.Data.List.Find

namespace Karg.KallocRefinement

open LinkStore CircularList ListNode ByteMemory KernelMemory PageAlloc Kalloc Tiling HeapModel HeapInvariant
  BlockHeaders Execution

variable {head sz : Nat} {m : Memory} {l r : List Block} {b c : Block} {t : Set Nat}

theorem linkRest_refines (h : Headers head m (l ++ b :: r)) (hmin : headerSize ≤ sz) (hrem : headerSize < b.size - sz)
    (hend : b.addr + b.size < 2 ^ 64) (hoff : head + 16 ≤ b.addr ∨ b.addr + b.size ≤ head)
    (hin : ∀ c ∈ l ++ r, b.addr + b.size ≤ c.addr ∨ c.addr + headerSize ≤ b.addr)
    (ht : footprint head (l ++ b :: r) ⊆ t) (htb : place b.addr b.size ⊆ t) :
    ∃ m₂ m₃ m₄, setAllocated m (b.addr + sz) false = m₂ ∧ setSize m₂ (b.addr + sz) (b.size - sz) = m₃ ∧
      size m₂ b.addr = b.size ∧ listInsert m₃ (next m₃ b.addr) (b.addr + sz) = m₄ ∧
      Headers head (setSize m₄ b.addr sz)
        (l ++ ⟨⟨b.addr, sz⟩, b.allocated⟩ :: ⟨⟨b.addr + sz, b.size - sz⟩, false⟩ :: r) ∧
      Only t m (setSize m₄ b.addr sz) := by
  have hinner : place (b.addr + sz) headerSize ⊆ t := by
    intro x hx
    apply htb
    rw [mem_place] at hx ⊢
    omega
  have hfields : place (b.addr + sz + 16) 16 ⊆ t := by
    intro x hx
    apply hinner
    rw [mem_place] at hx ⊢
    rw [headerSize]
    omega
  have hapart : ∀ c ∈ l ++ b :: r, b.addr + sz + headerSize ≤ c.addr ∨ c.addr + headerSize ≤ b.addr + sz := by
    intro c hc
    rcases mem_middle.mp hc with rfl | hc
    · omega
    · have := hin c hc
      omega
  have hdisj : Disjoint (footprint head (l ++ b :: r)) (place (b.addr + sz + 16) 16) := by
    rw [Set.disjoint_left]
    rintro x (hx | ⟨c, hc, hx⟩) hy
    · rw [mem_place] at hx hy
      rw [headerSize] at hrem
      omega
    · have := hapart c hc
      rw [mem_place] at hx hy
      rw [headerSize] at hrem hx this
      omega
  -- The fields of the new header are written while it is still inside the old block.
  have h₂ := h.frame (setAllocated_only m (b.addr + sz) false) hdisj
  have h₃ := h₂.frame (setSize_only _ (b.addr + sz) (b.size - sz)) hdisj
  have hheader : Header (setSize (setAllocated m (b.addr + sz) false) (b.addr + sz) (b.size - sz))
      ⟨⟨b.addr + sz, b.size - sz⟩, false⟩ := by
    constructor
    · exact (allocated_setSize _ _ _).trans (allocated_setAllocated _ _ _)
    · exact size_setSize _ _ (by omega)
  have hnext := h₃.next_eq
  have hoff' : head + 16 ≤ b.addr + sz ∨ b.addr + sz + headerSize ≤ head := by omega
  have hv : b.addr + sz < 2 ^ 64 := by omega
  rw [List.append_cons] at h₃
  obtain ⟨h₄, hm₄⟩ := h₃.insert hheader (fun c hc => hapart c (by simpa using hc)) hoff' hv
  rw [← List.append_cons] at h₄
  refine ⟨_, _, _, rfl, rfl, (h₂.header b (by simp)).size, rfl, ?_, ?_⟩
  · rw [hnext]
    exact h₄.setSize _ (by omega)
  · rw [hnext]
    have hfoot : footprint head (l ++ [b] ++ ⟨⟨b.addr + sz, b.size - sz⟩, false⟩ :: r) ⊆ t := by
      rintro x (hx | ⟨c, hc, hx⟩)
      · exact ht (.inl hx)
      · rcases mem_middle.mp hc with rfl | hc
        · exact hinner hx
        · exact ht (.inr ⟨c, by simpa using hc, hx⟩)
    apply Only.trans ((setAllocated_only m _ _).mono hfields)
    apply Only.trans ((setSize_only _ _ _).mono hfields)
    apply Only.trans (hm₄.mono hfoot)
    exact (setSize_only _ _ _).mono ((fields_subset (by simp)).trans ht)

theorem kmallocSplit_refines (h : Headers head m (l ++ b :: r)) (hmin : headerSize ≤ sz) (hsz : sz ≤ b.size)
    (hend : b.addr + b.size < 2 ^ 64) (hoff : head + 16 ≤ b.addr ∨ b.addr + b.size ≤ head)
    (hin : ∀ c ∈ l ++ r, b.addr + b.size ≤ c.addr ∨ c.addr + headerSize ≤ b.addr)
    (ht : footprint head (l ++ b :: r) ⊆ t) (htb : place b.addr b.size ⊆ t) :
    Headers head (kmallocSplit m b.addr sz) (l ++ (split b sz ++ r)) ∧ Only t m (kmallocSplit m b.addr sz) := by
  have h₁ := h.setAllocated true
  have hs₁ : size (setAllocated m b.addr true) b.addr = b.size := (h₁.header { b with allocated := true } (by simp)).size
  have hsub : usizeSub b.size sz = b.size - sz := usizeSub_of_le hsz (by omega)
  have hfb : place (b.addr + 16) 16 ⊆ t := (fields_subset (by simp)).trans ht
  have hm₁ : Only t m (setAllocated m b.addr true) := (setAllocated_only m b.addr true).mono hfb
  by_cases hrem : headerSize < b.size - sz
  · rw [split, if_pos hrem]
    have hrem' : usizeAdd b.addr sz = b.addr + sz := usizeAdd_of_lt (by omega)
    have hup : footprint head (l ++ { b with allocated := true } :: r) ⊆ footprint head (l ++ b :: r) :=
      footprint_update rfl
    obtain ⟨m₂, m₃, m₄, he₂, he₃, hs₂, he₄, h₅, hm₅⟩ := linkRest_refines h₁ hmin hrem hend hoff hin (hup.trans ht) htb
    have he : kmallocSplit m b.addr sz = setSize m₄ b.addr sz := by
      simp only [kmallocSplit, hs₁, hsub, gt_iff_lt, hrem, if_true, hrem', he₂, hs₂, he₃, he₄]
    rw [he]
    exact ⟨by simpa using h₅, hm₁.trans hm₅⟩
  · have he : kmallocSplit m b.addr sz = setAllocated m b.addr true := by
      simp only [kmallocSplit, hs₁, hsub, gt_iff_lt, hrem, if_false]
    rw [he, split, if_neg hrem]
    exact ⟨by simpa using h₁, hm₁⟩

def extent (head : Nat) (pages : List Nat) : Set Nat :=
  { x | x ∈ place head 16 ∨ ∃ p ∈ pages, x ∈ place p pageSize }

structure Layout (sym : Symbols) (a : Model) : Prop where
  heads : sym.blockList + 16 ≤ sym.freeList ∨ sym.freeList + 16 ≤ sym.blockList
  off (p : Nat) : p ∈ a.pages ++ a.free → (sym.blockList + 16 ≤ p ∨ p + pageSize ≤ sym.blockList) ∧
    (sym.freeList + 16 ≤ p ∨ p + pageSize ≤ sym.freeList)

structure Represents (sym : Symbols) (h : Heap) (a : Model) : Prop where
  headers : Headers sym.blockList h.mem a.blocks
  free : FreePages sym.freeList h.mem a.free
  pages : h.pages = a.pages
  layout : Layout sym a

variable {sym : Symbols} {h : Heap} {a : Model} {fuel n : Nat}

theorem place_subset_extent (hw : WellFormed a) (hb : b ∈ a.blocks) :
    place b.addr b.size ⊆ extent head a.pages := by
  intro x hx
  rw [mem_place] at hx
  obtain ⟨p, hp, hxp⟩ := hw.mem_page hb hx.1 hx.2
  exact .inr ⟨p, hp, mem_place.mpr hxp⟩

theorem footprint_subset_extent (head : Nat) (hw : WellFormed a) : footprint head a.blocks ⊆ extent head a.pages := by
  rintro x (hx | ⟨b, hb, hx⟩)
  · exact .inl hx
  · apply place_subset_extent hw hb
    have hs := hw.size b hb
    rw [mem_place] at hx ⊢
    omega

theorem free_disjoint (hr : Layout sym a) (hw : WellFormed a) :
    Disjoint (nodes (sym.freeList :: a.free)) (extent sym.blockList a.pages) := by
  rw [Set.disjoint_left]
  rintro x ⟨y, hy, hx⟩ hext
  have hdisj := (List.nodup_append.mp hw.nodup).2.2
  have hheads := hr.heads
  rw [mem_place] at hx
  rcases List.mem_cons.mp hy with rfl | hy
  · rcases hext with hx' | ⟨p, hp, hx'⟩
    · rw [mem_place] at hx'
      omega
    · have ho := (hr.off p (List.mem_append_left _ hp)).2
      rw [mem_place] at hx'
      omega
  · have hyp := hw.valid y (List.mem_append_right _ hy)
    rcases hext with hx' | ⟨p, hp, hx'⟩
    · have ho := (hr.off y (List.mem_append_right _ hy)).1
      rw [mem_place] at hx'
      rw [pageSize] at ho
      omega
    · have hap := (hw.valid p (List.mem_append_left _ hp)).apart hyp (hdisj p hp y hy)
      rw [mem_place] at hx'
      rw [pageSize] at hap hx'
      omega

theorem head_off (hr : Layout sym a) (hw : WellFormed a) (hb : b ∈ a.blocks) :
    sym.blockList + 16 ≤ b.addr ∨ b.addr + b.size ≤ sym.blockList := by
  have hs := hw.size b hb
  rw [headerSize] at hs
  by_contra hno
  obtain ⟨p, hp, hxp⟩ := hw.mem_page hb (x := max b.addr sym.blockList) (by omega) (by omega)
  have ho := (hr.off p (List.mem_append_left _ hp)).1
  omega

theorem find_block (hh : Headers head m l) (sz : Nat) :
    (l.map (·.addr)).find? (fits m sz) = (l.find? (usable sz)).map (·.addr) := by
  rw [List.find?_map]
  congr 1
  apply List.find?_congr
  intro b hb
  have hf := hh.header b hb
  simp only [Function.comp_apply, fits, usable, hf.allocated, hf.size, ge_iff_le]

theorem loop_refines (hr : Represents sym h a) (hfuel : a.blocks.length < fuel) (sz : Nat) :
    listForEach fuel h.mem sym.blockList (fits h.mem sz) (listFront h.mem sym.blockList) =
      some (((a.blocks.find? (usable sz)).map (·.addr)).getD sym.blockList) := by
  have hring := hr.headers.ring
  rw [hring.front, ← find_block hr.headers]
  exact family_listForEach hring.family rfl _ (l := []) rfl (by rwa [List.length_map])

theorem kmalloc_fit (hr : Represents sym h a) (hw : WellFormed a) (hmin : headerSize ≤ sz)
    (hb : a.blocks = l ++ b :: r) (hu : usable sz b) :
    ∃ m', kmallocTake h b.addr sz = (⟨m', h.pages⟩, b.addr + headerSize) ∧
      Represents sym ⟨m', h.pages⟩ { a with blocks := l ++ (split b sz ++ r) } ∧
      Only (footprint sym.blockList a.blocks ∪ place b.addr b.size) h.mem m' := by
  have hmem : b ∈ a.blocks := hb ▸ mem_middle.mpr (.inl rfl)
  have hh := hr.headers
  have hfoot : footprint sym.blockList a.blocks ⊆ footprint sym.blockList a.blocks ∪ place b.addr b.size :=
    Set.subset_union_left
  have hext := Set.union_subset (footprint_subset_extent sym.blockList hw) (place_subset_extent hw hmem)
  rw [hb] at hh
  nth_rewrite 1 [hb] at hfoot
  simp only [usable, Bool.and_eq_true, decide_eq_true_eq] at hu
  have hin : ∀ c ∈ l ++ r, b.addr + b.size ≤ c.addr ∨ c.addr + headerSize ≤ b.addr := by
    intro c hc
    have hap := hw.around hb c hc
    have hs := hw.size c (hb ▸ mem_middle.mpr (.inr hc))
    rw [Segment.Apart] at hap
    omega
  have hsize := hw.size b hmem
  have hend := (hw.bounds hmem).2
  obtain ⟨hh', hm⟩ := kmallocSplit_refines hh hmin hu.2 hend
    (head_off hr.layout hw hmem) hin hfoot Set.subset_union_right
  refine ⟨kmallocSplit h.mem b.addr sz, ?_, ⟨hh', ?_, hr.pages, hr.layout.heads, hr.layout.off⟩, hm⟩
  · rw [kmallocTake, usizeAdd_of_lt (by omega)]
  · exact hr.free.frame (hm.mono hext) (free_disjoint hr.layout hw)

theorem addPage_refines (hh : Headers head m l) {p : Nat} (hp : Page p)
    (hoff : head + 16 ≤ p ∨ p + pageSize ≤ head)
    (hap : ∀ c ∈ l, p + pageSize ≤ c.addr ∨ c.addr + headerSize ≤ p) (ht : footprint head l ⊆ t)
    (htp : place p pageSize ⊆ t) :
    Headers head (listPushBack (setSize (setAllocated m p false) p pageSize) head p) (l ++ [⟨page p, false⟩]) ∧
      Only t m (listPushBack (setSize (setAllocated m p false) p pageSize) head p) := by
  have hend := hp.end_lt
  rw [pageSize] at hend
  have hfields : place (p + 16) 16 ⊆ t := by
    intro x hx
    apply htp
    rw [mem_place] at hx ⊢
    rw [pageSize]
    omega
  have hdisj : Disjoint (footprint head l) (place (p + 16) 16) := by
    rw [Set.disjoint_left]
    rintro x (hx | ⟨c, hc, hx⟩) hy
    · rw [mem_place] at hx hy
      rw [pageSize] at hoff
      omega
    · have hpc := hap c hc
      rw [mem_place] at hx hy
      rw [pageSize] at hpc
      omega
  have h₂ := hh.frame (setAllocated_only m p false) hdisj
  have h₃ := h₂.frame (setSize_only _ p pageSize) hdisj
  have hheader : Header (setSize (setAllocated m p false) p pageSize) ⟨page p, false⟩ := by
    constructor
    · exact (allocated_setSize _ _ _).trans (allocated_setAllocated _ _ _)
    · exact size_setSize _ _ (by decide)
  have hapart : ∀ c ∈ l ++ [], HeadersApart ⟨page p, false⟩ c := by
    intro c hc
    have hpc := hap c (by simpa using hc)
    rw [pageSize] at hpc
    show p + headerSize ≤ c.addr ∨ c.addr + headerSize ≤ p
    rw [headerSize] at hpc ⊢
    omega
  have hoff' : head + 16 ≤ p ∨ p + headerSize ≤ head := by
    rw [pageSize] at hoff
    rw [headerSize]
    omega
  have hv : p < 2 ^ 64 := by omega
  rw [← List.append_nil l] at h₃
  obtain ⟨h₄, hm₄⟩ := h₃.insert hheader hapart hoff' hv
  refine ⟨h₄, ?_⟩
  apply Only.trans ((setAllocated_only m _ _).mono hfields)
  apply Only.trans ((setSize_only _ _ _).mono hfields)
  apply hm₄.mono
  rintro x (hx | ⟨c, hc, hx⟩)
  · exact ht (.inl hx)
  · rcases mem_middle.mp hc with rfl | hc
    · apply htp
      rw [mem_place] at hx ⊢
      rw [headerSize] at hx
      rw [pageSize]
      exact ⟨hx.1, Nat.lt_of_lt_of_le hx.2 (by show p + 32 ≤ p + 4096; omega)⟩
    · exact ht (.inr ⟨c, by simpa using hc, hx⟩)

theorem kmallocPage_refines (hr : Represents sym h a) (hw : WellFormed a) {p : Nat} {free : List Nat}
    (hf : a.free = p :: free) : ∃ m', kmallocPage sym h = (⟨m', h.pages ++ [p]⟩, p) ∧
      Represents sym ⟨m', h.pages ++ [p]⟩ ⟨a.blocks ++ [⟨page p, false⟩], a.pages ++ [p], free⟩ ∧
      Only (nodes (sym.freeList :: free) ∪ (footprint sym.blockList a.blocks ∪ place p pageSize)) h.mem m' := by
  have hw₁ := addPage_wellFormed hw hf
  have hfree := hr.free
  have hdisj := free_disjoint hr.layout hw
  rw [hf] at hfree hdisj
  obtain ⟨m₁, hm₁, hfree₁, honly₁⟩ := pageAlloc_cons hfree
  have hpage : Page p := hfree.page p List.mem_cons_self
  have hfoot := footprint_subset_extent sym.blockList hw
  have hsub : nodes (sym.freeList :: free) ⊆ nodes (sym.freeList :: p :: free) :=
    nodes_rest sym.freeList p free
  have hh₁ := hr.headers.frame honly₁ ((hdisj.mono hsub hfoot).symm)
  have hlayout₁ : Layout sym ⟨a.blocks ++ [⟨page p, false⟩], a.pages ++ [p], free⟩ := by
    refine ⟨hr.layout.heads, fun q hq => hr.layout.off q ?_⟩
    rw [hf]
    simpa using hq
  have hp := hlayout₁.off p (by simp)
  have hap : ∀ c ∈ a.blocks, p + pageSize ≤ c.addr ∨ c.addr + headerSize ≤ p := by
    intro c hc
    have hapart := hw₁.around (l := a.blocks) (r := []) rfl c (by simpa using hc)
    have hs := hw.size c hc
    rw [Segment.Apart] at hapart
    simp only [page] at hapart
    omega
  have hext : footprint sym.blockList a.blocks ∪ place p pageSize ⊆ extent sym.blockList (a.pages ++ [p]) := by
    rintro x (hx | hx)
    · rcases hfoot hx with hx | ⟨q, hq, hx⟩
      · exact .inl hx
      · exact .inr ⟨q, List.mem_append_left _ hq, hx⟩
    · exact .inr ⟨p, List.mem_append_right _ List.mem_cons_self, hx⟩
  obtain ⟨hh₂, honly₂⟩ := addPage_refines hh₁ hpage hp.1 hap Set.subset_union_left Set.subset_union_right
  have hpos : p ≠ nullptr := Nat.ne_of_gt hpage.pos
  refine ⟨listPushBack (setSize (setAllocated m₁ p false) p pageSize) sym.blockList p, ?_, ⟨hh₂,
    hfree₁.frame (honly₂.mono hext) (free_disjoint hlayout₁ hw₁), by rw [hr.pages], hlayout₁⟩,
    (honly₁.mono Set.subset_union_left).trans (honly₂.mono Set.subset_union_right)⟩
  simp only [kmallocPage, hm₁, hpos, if_false]

theorem kmallocPage_null (hr : Represents sym h a) (hf : a.free = []) : kmallocPage sym h = (h, nullptr) := by
  have hfree := hr.free
  rw [hf] at hfree
  simp only [kmallocPage, pageAlloc_nil hfree, if_true]

section Search

theorem kmalloc_found (hr : Represents sym h a) (hn : usizeAdd n headerSize ≤ pageSize)
    (hfind : a.blocks.find? (usable (usizeAdd n headerSize)) = some b) (hfuel : a.blocks.length < fuel) :
    kmalloc sym fuel h n = some (kmallocTake h b.addr (usizeAdd n headerSize)) := by
  have hne : b.addr ≠ sym.blockList := by
    have hoff := hr.headers.off b (List.mem_of_find?_eq_some hfind)
    rw [headerSize] at hoff
    omega
  rw [kmalloc, if_neg (Nat.not_lt.mpr hn), loop_refines hr hfuel, hfind, Option.bind_eq_bind, Option.bind_some,
    Option.map_some, Option.getD_some, if_neg hne]

/-- The loop of `kmalloc` gets back to the list head, and a page is asked for. -/
theorem kmalloc_ended (hr : Represents sym h a) (hn : usizeAdd n headerSize ≤ pageSize)
    (hfind : a.blocks.find? (usable (usizeAdd n headerSize)) = none) (hfuel : a.blocks.length < fuel) :
    kmalloc sym fuel h n = if (kmallocPage sym h).2 = nullptr then some ((kmallocPage sym h).1, nullptr)
      else some (kmallocTake (kmallocPage sym h).1 (kmallocPage sym h).2 (usizeAdd n headerSize)) := by
  rw [kmalloc, if_neg (Nat.not_lt.mpr hn), loop_refines hr hfuel, hfind, Option.bind_eq_bind, Option.bind_some,
    Option.map_none, Option.getD_none, if_pos rfl]

theorem kmalloc_full (hr : Represents sym h a) (hn : usizeAdd n headerSize ≤ pageSize)
    (hfind : a.blocks.find? (usable (usizeAdd n headerSize)) = none) (hf : a.free = [])
    (hfuel : a.blocks.length < fuel) : kmalloc sym fuel h n = some (h, nullptr) := by
  rw [kmalloc_ended hr hn hfind hfuel, kmallocPage_null hr hf, if_pos rfl]

theorem kmalloc_grown (hr : Represents sym h a) (hn : usizeAdd n headerSize ≤ pageSize)
    (hfind : a.blocks.find? (usable (usizeAdd n headerSize)) = none) {h₁ : Heap} {p : Nat}
    (hpage : kmallocPage sym h = (h₁, p)) (hp : p ≠ nullptr) (hfuel : a.blocks.length < fuel) :
    kmalloc sym fuel h n = some (kmallocTake h₁ p (usizeAdd n headerSize)) := by
  rw [kmalloc_ended hr hn hfind hfuel, hpage, if_neg hp]

theorem kmalloc_too_large (hn : pageSize < usizeAdd n headerSize) (fuel : Nat) (h : Heap) :
    kmalloc sym fuel h n = some (h, nullptr) := if_pos hn

def Refuses (a : Model) (sz : Nat) : Prop :=
  pageSize < sz ∨ (∀ b ∈ a.blocks, usable sz b = false) ∧ a.free = []

theorem kmallocTake_ne_null {block : Nat} (hb : block + headerSize < 2 ^ 64) (h : Heap) (sz : Nat) :
    (kmallocTake h block sz).2 ≠ nullptr := by
  rw [kmallocTake, usizeAdd_of_lt hb]
  exact Nat.ne_of_gt (Nat.add_pos_right block (by decide))

/-- `kmalloc` returns for every size, and null for the requests that it refuses. -/
theorem kmalloc_total (hr : Represents sym h a) (hw : WellFormed a) (n : Nat) :
    ∃ r, Converges (fun fuel => kmalloc sym fuel h n) r ∧ (r.2 = nullptr → r.1 = h) ∧
      (r.2 = nullptr ↔ Refuses a (usizeAdd n headerSize)) := by
  by_cases hn : usizeAdd n headerSize ≤ pageSize
  · cases hfind : a.blocks.find? (usable (usizeAdd n headerSize)) with
    | some b =>
        have hb := List.mem_of_find?_eq_some hfind
        have hs := hw.size b hb
        have hend := (hw.bounds hb).2
        have hne := kmallocTake_ne_null (Nat.lt_of_le_of_lt (Nat.add_le_add_left hs b.addr) hend) h
          (usizeAdd n headerSize)
        refine ⟨_, ⟨a.blocks.length + 1, fun fuel hfuel => kmalloc_found hr hn hfind hfuel⟩, fun h => absurd h hne,
          fun h => absurd h hne, ?_⟩
        rintro (hl | ⟨hl, -⟩)
        · exact absurd hn (Nat.not_le.mpr hl)
        · have hu := List.find?_some hfind
          rw [hl b hb] at hu
          cases hu
    | none =>
        have hl : ∀ c ∈ a.blocks, usable (usizeAdd n headerSize) c = false := by
          simpa using List.find?_eq_none.mp hfind
        cases hf : a.free with
        | nil =>
            refine ⟨_, ⟨a.blocks.length + 1, fun fuel hfuel => kmalloc_full hr hn hfind hf hfuel⟩, fun _ => rfl, ?_⟩
            exact iff_of_true rfl (.inr ⟨hl, hf⟩)
        | cons p free =>
            obtain ⟨m₁, hm₁, -⟩ := kmallocPage_refines hr hw hf
            have hp := hr.free.page p (by simp [hf])
            have hpos : p ≠ nullptr := Nat.ne_of_gt hp.pos
            have hend : p + headerSize < 2 ^ 64 := by
              have hlt := hp.end_lt
              rw [pageSize] at hlt
              rw [headerSize]
              omega
            have hne := kmallocTake_ne_null hend ⟨m₁, h.pages ++ [p]⟩ (usizeAdd n headerSize)
            refine ⟨_, ⟨a.blocks.length + 1, fun fuel hfuel => kmalloc_grown hr hn hfind hm₁ hpos hfuel⟩,
              fun h => absurd h hne, fun h => absurd h hne, ?_⟩
            rintro (hl | ⟨-, hno⟩)
            · exact absurd hn (Nat.not_le.mpr hl)
            · rw [hno] at hf
              cases hf
  · have hlarge := Nat.lt_of_not_le hn
    exact ⟨_, .of_forall (kmalloc_too_large hlarge · h), fun _ => rfl, iff_of_true rfl (.inl hlarge)⟩

theorem kmalloc_fits_page {h' : Heap} {ptr : Nat} (hlt : n + headerSize < 2 ^ 64)
    (hc : Converges (fun fuel => kmalloc sym fuel h n) (h', ptr)) (hp : ptr ≠ nullptr) : n + headerSize ≤ pageSize := by
  by_contra hlarge
  rw [← usizeAdd_of_lt hlt] at hlarge
  have hnull := hc.unique (.of_forall (kmalloc_too_large (Nat.lt_of_not_le hlarge) · h))
  exact hp (congrArg Prod.snd hnull)

end Search

theorem kmalloc_refines (hr : Represents sym h a) (hw : WellFormed a) (hn : headerSize + n ≤ pageSize) :
    ∃ h' out b, (∀ fuel, a.blocks.length < fuel → kmalloc sym fuel h n = some (h', out.getD nullptr)) ∧
      Kmalloc a (headerSize + n) out b ∧ Represents sym h' b := by
  have hsz : usizeAdd n headerSize = headerSize + n := by
    rw [usizeAdd_of_lt (by rw [pageSize] at hn; omega), Nat.add_comm]
  have hmin : headerSize ≤ headerSize + n := Nat.le_add_right _ _
  have hn' : usizeAdd n headerSize ≤ pageSize := hsz ▸ hn
  cases hfind : a.blocks.find? (usable (headerSize + n)) with
  | some b =>
      obtain ⟨hu, l, r, hb, hl⟩ := List.find?_eq_some_iff_append.mp hfind
      obtain ⟨m', hm', hr', -⟩ := kmalloc_fit hr hw hmin hb hu
      refine ⟨_, some (b.addr + headerSize), _, fun fuel hfuel => ?_, .fit l b r hb (by simpa using hl) hu, hr'⟩
      rw [kmalloc_found hr hn' (hsz ▸ hfind) hfuel, hsz, hm', Option.getD_some]
  | none =>
      have hl : ∀ c ∈ a.blocks, usable (headerSize + n) c = false := by
        simpa using List.find?_eq_none.mp hfind
      cases hf : a.free with
      | nil =>
          refine ⟨h, none, a, fun fuel hfuel => ?_, .full hl hf, hr⟩
          rw [kmalloc_full hr hn' (hsz ▸ hfind) hf hfuel, Option.getD_none]
      | cons p free =>
          obtain ⟨m₁, hm₁, hr₁, -⟩ := kmallocPage_refines hr hw hf
          have hpos : p ≠ nullptr := Nat.ne_of_gt (hr.free.page p (by simp [hf])).pos
          have hu : usable (headerSize + n) ⟨page p, false⟩ := decide_eq_true hn
          obtain ⟨m', hm', hr', -⟩ := kmalloc_fit (r := []) hr₁ (addPage_wellFormed hw hf) hmin rfl hu
          rw [List.append_nil] at hr'
          refine ⟨_, some (p + headerSize), _, fun fuel hfuel => ?_, .grow p free hl hf, hr'⟩
          rw [kmalloc_grown hr hn' (hsz ▸ hfind) hm₁ hpos hfuel, hsz]
          exact congrArg some hm'

end Karg.KallocRefinement
