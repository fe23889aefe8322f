import Karg.HeapRuns

namespace Karg.HeapTiling

open LinkStore CircularList ListNode ByteMemory KernelMemory PageAlloc Kalloc Tiling HeapModel HeapInvariant BlockHeaders
  KallocRefinement Execution HeapRuns

def readBlocks (m : Memory) (head : Nat) (fuel node : Nat) : Option (List Block) :=
  match fuel with
  | 0 => none
  | fuel + 1 =>
      if node = head then some []
      else (readBlocks m head fuel (next m node)).map (⟨⟨node, size m node⟩, allocated m node⟩ :: ·)

def BlockList (sym : Symbols) (m : Memory) (bs : List Block) : Prop :=
  Converges (fun fuel => readBlocks m sym.blockList fuel (listFront m sym.blockList)) bs

variable {sym : Symbols} {m : Memory} {head : Nat} {bs l r : List Block} {s : Run} {a : Model} {ptr ptr' n n' : Nat}

theorem readBlocks_headers (h : Headers head m bs) (hlr : bs = l ++ r) {fuel : Nat} (hfuel : r.length < fuel) :
    readBlocks m head fuel ((r.map (·.addr)).headD head) = some r := by
  induction r generalizing l fuel with
  | nil =>
      obtain ⟨fuel, rfl⟩ := Nat.exists_eq_succ_of_ne_zero (Nat.ne_zero_of_lt hfuel)
      exact if_pos rfl
  | cons b r ih =>
      obtain ⟨fuel, rfl⟩ := Nat.exists_eq_succ_of_ne_zero (Nat.ne_zero_of_lt hfuel)
      have hb : b ∈ bs := hlr ▸ mem_middle.mpr (.inl rfl)
      have hoff := h.off b hb
      have hne : b.addr ≠ head := by
        rw [headerSize] at hoff
        omega
      have hring := h.ring.circular
      rw [hlr, List.map_append, List.map_cons] at hring
      have hrest := ih (l := l ++ [b]) (by simpa using hlr) (Nat.lt_of_succ_lt_succ hfuel)
      simp only [List.map_cons, List.headD_cons, readBlocks, hne, if_false, circular_next_mem hring, hrest,
        Option.map_some, (h.header b hb).size, (h.header b hb).allocated]

theorem blockList_of_headers (h : Headers sym.blockList m bs) : BlockList sym m bs := by
  refine ⟨bs.length + 1, fun fuel hfuel => ?_⟩
  rw [h.ring.front]
  exact readBlocks_headers (l := []) h rfl hfuel

theorem blockList_of_simulated (h : Simulated sym s a) : BlockList sym s.heap.mem a.blocks :=
  blockList_of_headers h.represents.headers

theorem payload_apart (hw : WellFormed a) (ho : Owned a s.live) (hl : s.live ptr = some n) (hl' : s.live ptr' = some n')
    (hne : ptr ≠ ptr') : Disjoint (place ptr n) (place ptr' n') := by
  obtain ⟨b, hb, -, rfl, hn⟩ := ho.block ptr n hl
  obtain ⟨c, hc, -, rfl, hn'⟩ := ho.block ptr' n' hl'
  have hap := hw.apart_of_ne hb hc fun he => hne (by rw [he])
  apply disjoint_place
  rw [Segment.Apart] at hap
  omega

theorem sizes_sum (hw : WellFormed a) : (a.blocks.map (·.size)).sum = pageSize * a.pages.length := by
  have hlen := congrArg List.length hw.tiles
  rw [length_bytes, length_bytes, List.map_map, List.map_map] at hlen
  calc (a.blocks.map (·.size)).sum = ((a.pages.map fun _ => pageSize)).sum := hlen
    _ = pageSize * a.pages.length := by rw [List.map_const', List.sum_replicate_nat, Nat.mul_comm]

/-- In every state of a run the blocks, in list order, are the bytes of the pages
in the order in which these were got, each byte once, and the bytes that the
owners asked for overlap neither each other nor a header. An allocation never
returns a live address, and every operation that may come is carried out. -/
theorem heap_tiling (h : Reached sym s) :
    (∃ bs, BlockList sym s.heap.mem bs ∧
      bytes (bs.map Block.toSegment) = bytes (s.heap.pages.map page) ∧ (bytes (bs.map Block.toSegment)).Nodup ∧
      (bs.map (·.size)).sum = pageSize * s.heap.pages.length ∧ (∀ b ∈ bs, headerSize ≤ b.size) ∧
      ∀ ptr n, s.live ptr = some n → (∀ b ∈ bs, Disjoint (place ptr n) (place b.addr headerSize)) ∧
        ∀ ptr' n', s.live ptr' = some n' → ptr ≠ ptr' → Disjoint (place ptr n) (place ptr' n')) ∧
      (∀ sz h' ptr, sz + headerSize < 2 ^ 64 → Converges (fun fuel => kmalloc sym fuel s.heap sz) (h', ptr) →
        ptr ≠ nullptr → s.live ptr = none) ∧
      (∀ sz n h' ptr, sz * n + headerSize < 2 ^ 64 → Converges (fun fuel => kcalloc sym fuel s.heap sz n) (h', ptr) →
        ptr ≠ nullptr → s.live ptr = none) ∧
      ∀ op, Allowed sym s op → ∃ s', Step sym s op s' := by
  obtain ⟨a, ha⟩ := reached_simulated h
  have hw := ha.wellFormed
  have hpages := ha.represents.pages
  refine ⟨⟨a.blocks, blockList_of_simulated ha, ?_, ?_, ?_, hw.size, fun ptr n hl => ⟨?_, ?_⟩⟩, ?_, ?_, ?_⟩
  · rw [hpages, hw.tiles]
  · rw [hw.tiles]
    exact hw.pages_nodup
  · rw [hpages, sizes_sum hw]
  · exact fun b hb => payload_off hw ha.owned hl hb
  · exact fun ptr' n' hl' hne => payload_apart hw ha.owned hl hl' hne
  · intro sz h' ptr hsz hc hne
    obtain ⟨h₁, ptr₁, -, hc₁, -, hfresh⟩ := kmalloc_simulates ha hsz
    cases hc.unique hc₁
    exact (hfresh hne).1
  · intro sz n h' ptr hsz hc hne
    obtain ⟨h₁, ptr₁, -, hc₁, -, hfresh⟩ := kcalloc_simulates ha hsz
    cases hc.unique hc₁
    exact hfresh hne
  · intro op hop
    obtain ⟨s', -, hc, -⟩ := exec_simulates ha hop
    exact ⟨s', hop, hc⟩

section Boot

theorem heads_init (hb : sym.blockList < 2 ^ 64) (hf : sym.freeList < 2 ^ 64)
    (hh : sym.blockList + 16 ≤ sym.freeList ∨ sym.freeList + 16 ≤ sym.blockList) :
    ∃ m, Ring m sym.blockList [] ∧ Ring m sym.freeList [] := by
  obtain ⟨hring, -⟩ := Ring.initHead ⟨fun _ => 0⟩ hb
  obtain ⟨hring', hm⟩ := Ring.initHead (listInitHead ⟨fun _ => 0⟩ sym.blockList) hf
  refine ⟨_, hring.frame hm ?_, hring'⟩
  rw [Set.disjoint_left]
  rintro x ⟨y, hy, hx⟩
  rw [List.mem_singleton.mp hy] at hx
  apply Set.disjoint_left.mp (disjoint_nodes _) hx
  simpa using hh

/-- The heap as it is when `init` of the page allocator has run. -/
theorem start_of_init {heapStart : Nat} (hr : Region sym.freeList heapStart)
    (hh : sym.blockList + 16 ≤ sym.freeList ∨ sym.freeList + 16 ≤ sym.blockList) (hlt : sym.blockList < 2 ^ 64)
    (ho : sym.blockList + 16 ≤ heapStart ∨ heapStart + kheapSize ≤ sym.blockList) :
    ∃ m, Start sym ⟨⟨m, []⟩, fun _ => none⟩ ∧
      Simulated sym ⟨⟨m, []⟩, fun _ => none⟩ ⟨[], [], heapPages heapStart⟩ := by
  obtain ⟨m₀, hb, hf⟩ := heads_init hlt hr.head_lt hh
  obtain ⟨m, -, hpages, hm⟩ := init_refines hr hf
  have hoff : ∀ p ∈ heapPages heapStart, sym.blockList + 16 ≤ p ∨ p + pageSize ≤ sym.blockList := by
    intro p hp
    obtain ⟨i, hi, rfl⟩ := mem_heapPages.mp hp
    simp only [pageSize, kheapSize] at hi ho ⊢
    omega
  have hd : Disjoint (nodes [sym.blockList]) (nodes (sym.freeList :: heapPages heapStart)) := by
    rw [Set.disjoint_left]
    rintro x ⟨y, hy, hx⟩
    rw [List.mem_singleton] at hy
    subst hy
    apply Set.disjoint_left.mp (disjoint_nodes _) hx
    intro z hz
    rcases List.mem_cons.mp hz with rfl | hz
    · exact hh
    · have hz' := hoff z hz
      rw [pageSize] at hz'
      omega
  have hstart : Start sym ⟨⟨m, []⟩, fun _ => none⟩ := ⟨hb.frame hm hd, rfl, fun _ => rfl, hh, _, hpages, hoff⟩
  exact ⟨m, hstart, start_simulated hstart hpages hoff⟩

theorem kmalloc_reached (h : Reached sym s) (hs : Simulated sym s a) (hn : headerSize + n ≤ pageSize) {a' : Model}
    (hk : Kmalloc a (headerSize + n) (some ptr) a') :
    ∃ h', Converges (fun fuel => kmalloc sym fuel s.heap n) (h', ptr) ∧ h'.pages = a'.pages ∧
      Reached sym ⟨h', Function.update s.live ptr (some n)⟩ ∧
      Simulated sym ⟨h', Function.update s.live ptr (some n)⟩ a' := by
  obtain ⟨h', hc, hs'⟩ := kmalloc_follows hs hn hk
  rw [Option.getD_some, grant, if_neg (kmalloc_ne_null hk ptr rfl)] at hs'
  refine ⟨h', hc, hs'.represents.pages, h.next (.kmalloc n) ⟨?_, ?_⟩, hs'⟩
  · show n + headerSize < 2 ^ 64
    rw [pageSize] at hn
    omega
  · obtain ⟨N, hN⟩ := hc
    refine ⟨N, fun fuel hfuel => ?_⟩
    simp only [exec, hN fuel hfuel, Option.map_some, Option.getD_some, grant, if_neg (kmalloc_ne_null hk ptr rfl)]

/-- While there is a free page `kmalloc` does not fail, and it takes at most one. -/
theorem kmalloc_served (h : Reached sym s) (hs : Simulated sym s a) (hn : headerSize + n ≤ pageSize)
    (hfree : a.free ≠ []) : ∃ h' ptr a', ptr ≠ nullptr ∧ Converges (fun fuel => kmalloc sym fuel s.heap n) (h', ptr) ∧
      Reached sym ⟨h', Function.update s.live ptr (some n)⟩ ∧
      Simulated sym ⟨h', Function.update s.live ptr (some n)⟩ a' ∧ a.free.length ≤ a'.free.length + 1 := by
  obtain ⟨-, out, a', -, hk, -⟩ := kmalloc_refines hs.represents hs.wellFormed hn
  obtain ⟨ptr, rfl, hle⟩ : ∃ ptr, out = some ptr ∧ a.free.length ≤ a'.free.length + 1 := by
    cases hk with
    | fit l b r => exact ⟨_, rfl, Nat.le_succ _⟩
    | grow p free hl hf =>
        rw [hf]
        exact ⟨_, rfl, Nat.le_refl _⟩
    | full hl hf => exact absurd hf hfree
  obtain ⟨h', hc, -, hreach, hsim⟩ := kmalloc_reached h hs hn hk
  exact ⟨h', ptr, a', kmalloc_ne_null hk ptr rfl, hc, hreach, hsim, hle⟩

theorem kmalloc_first {heapStart : Nat} (hs : Start sym ⟨⟨m, []⟩, fun _ => none⟩)
    (ha : Simulated sym ⟨⟨m, []⟩, fun _ => none⟩ ⟨[], [], heapPages heapStart⟩) (hn : headerSize + n ≤ pageSize) :
    ∃ m', Converges (fun fuel => kmalloc sym fuel ⟨m, []⟩ n) (⟨m', [heapStart]⟩, heapStart + headerSize) ∧
      Reached sym ⟨⟨m', [heapStart]⟩, Function.update (fun _ => none) (heapStart + headerSize) (some n)⟩ ∧
      Simulated sym ⟨⟨m', [heapStart]⟩, Function.update (fun _ => none) (heapStart + headerSize) (some n)⟩
        ⟨split ⟨page heapStart, false⟩ (headerSize + n), [heapStart], (heapPages heapStart).tail⟩ := by
  have hk : Kmalloc ⟨[], [], heapPages heapStart⟩ (headerSize + n) (some (heapStart + headerSize))
      ⟨[] ++ split ⟨page heapStart, false⟩ (headerSize + n), [] ++ [heapStart], (heapPages heapStart).tail⟩ :=
    .grow heapStart _ (by simp) (by rw [heapPages_cons, List.tail_cons])
  obtain ⟨⟨m', pages⟩, hc, rfl, hreach, hs'⟩ := kmalloc_reached (.start hs) ha hn hk
  exact ⟨m', hc, hreach, hs'⟩

theorem boot_start : ∃ m, Start ⟨0x80300000, 0x80300010⟩ ⟨⟨m, []⟩, fun _ => none⟩ ∧
    Simulated ⟨0x80300000, 0x80300010⟩ ⟨⟨m, []⟩, fun _ => none⟩ ⟨[], [], heapPages 0x80400000⟩ :=
  @start_of_init ⟨0x80300000, 0x80300010⟩ 0x80400000 boot_region (by decide) (by decide) (by decide)

theorem kmalloc_second {m₁ : Memory} {live : Nat → Option Nat} {free : List Nat}
    (h : Reached ⟨0x80300000, 0x80300010⟩ ⟨⟨m₁, [0x80400000]⟩, live⟩)
    (hs : Simulated ⟨0x80300000, 0x80300010⟩ ⟨⟨m₁, [0x80400000]⟩, live⟩
      ⟨split ⟨page 0x80400000, false⟩ (headerSize + 100), [0x80400000], free⟩) : ∃ m₂,
    Converges (fun fuel => kmalloc ⟨0x80300000, 0x80300010⟩ fuel ⟨m₁, [0x80400000]⟩ 200) (⟨m₂, [0x80400000]⟩, 0x804000A4) ∧
      Reached ⟨0x80300000, 0x80300010⟩ ⟨⟨m₂, [0x80400000]⟩, Function.update live 0x804000A4 (some 200)⟩ := by
  have hblocks : split ⟨page 0x80400000, false⟩ (headerSize + 100) =
      [⟨⟨0x80400000, 132⟩, true⟩, ⟨⟨0x80400084, 3964⟩, false⟩] := by decide
  rw [hblocks] at hs
  have hk : Kmalloc ⟨[⟨⟨0x80400000, 132⟩, true⟩, ⟨⟨0x80400084, 3964⟩, false⟩], [0x80400000], free⟩ (headerSize + 200)
      (some 0x804000A4) _ :=
    .fit [⟨⟨0x80400000, 132⟩, true⟩] ⟨⟨0x80400084, 3964⟩, false⟩ [] rfl (by decide) (by decide)
  obtain ⟨⟨m₂, pages⟩, hc, rfl, hreach, -⟩ := kmalloc_reached h hs (by decide) hk
  exact ⟨m₂, hc, hreach⟩

theorem few_pages (free : List Nat) (hfree : free = [] ∨ free = [0x80400000]) : ∃ m,
    Start ⟨0x80300000, 0x80300010⟩ ⟨⟨m, []⟩, fun _ => none⟩ ∧ FreePages 0x80300010 m free ∧ load m 0x1000 8 = 0 := by
  obtain ⟨m, hb, hf⟩ := @heads_init ⟨0x80300000, 0x80300010⟩ (by decide) (by decide) (by decide)
  have hnone : FreePages 0x80300010 m [] := ⟨hf, by simp, by simp⟩
  have hpage : Page 0x80400000 := ⟨by decide, by decide, by decide⟩
  obtain ⟨hone, honly⟩ := push_refines hnone hpage (.inl (by decide)) (by simp)
  obtain ⟨m₁, hb₁, hf₁⟩ : ∃ m₁, Ring m₁ 0x80300000 [] ∧ FreePages 0x80300010 m₁ free := by
    rcases hfree with rfl | rfl
    · exact ⟨m, hb, hnone⟩
    · refine ⟨_, hb.frame honly ?_, hone⟩
      rw [Set.disjoint_left]
      rintro x ⟨y, hy, hx⟩
      rw [List.mem_singleton.mp hy] at hx
      exact Set.disjoint_left.mp (disjoint_nodes (by decide)) hx
  have hoff : ∀ p ∈ free, 0x80400000 ≤ p := by
    rcases hfree with rfl | rfl <;> simp
  have hstore := store_only m₁ 0x1000 8 0
  have hlow : ∀ nodes : List Nat, (∀ x ∈ nodes, 0x80300000 ≤ x) → Disjoint (KernelMemory.nodes nodes) (place 0x1000 8) :=
    fun nodes hn => (disjoint_nodes fun x hx => .inl (Nat.le_trans (by decide) (hn x hx))).symm
  have hfree' : FreePages 0x80300010 (store m₁ 0x1000 8 0) free := by
    apply hf₁.frame hstore
    apply hlow
    intro x hx
    rcases List.mem_cons.mp hx with rfl | hx
    · decide
    · exact Nat.le_trans (by decide) (hoff x hx)
  refine ⟨store m₁ 0x1000 8 0, ⟨hb₁.frame hstore (hlow _ (by simp)), rfl, fun _ => rfl, by decide, free, hfree', ?_⟩,
    hfree', load_store_of_lt m₁ 0x1000 (by decide)⟩
  exact fun p hp => .inl (Nat.le_trans (by decide) (hoff p hp))

end Boot

/-- After boot `kmalloc(100)` and `kmalloc(200)` return addresses on the first page. -/
theorem heap_tiling_two : ∃ s, Reached ⟨0x80300000, 0x80300010⟩ s ∧ s.live 0x80400020 = some 100 ∧
    s.live 0x804000A4 = some 200 ∧ Disjoint (place 0x80400020 100) (place 0x804000A4 200) ∧
    ∃ bs, BlockList ⟨0x80300000, 0x80300010⟩ s.heap.mem bs ∧
      bytes (bs.map Block.toSegment) = bytes (s.heap.pages.map page) := by
  obtain ⟨m, hstart, ha⟩ := boot_start
  obtain ⟨m₁, -, hreach₁, hs₁⟩ := kmalloc_first (n := 100) hstart ha (by decide)
  obtain ⟨m₂, -, hreach⟩ := kmalloc_second hreach₁ hs₁
  obtain ⟨⟨bs, hbs, htiles, -, -, -, hlive⟩, -⟩ := heap_tiling hreach
  have hfirst : Function.update (Function.update (fun _ => none) (0x80400000 + headerSize) (some 100)) 0x804000A4
      (some 200) 0x80400020 = some 100 := by decide
  have hsecond : Function.update (Function.update (fun _ => none) (0x80400000 + headerSize) (some 100)) 0x804000A4
      (some 200) 0x804000A4 = some 200 := Function.update_self ..
  exact ⟨_, hreach, hfirst, hsecond, (hlive _ _ hfirst).2 _ _ hsecond (by decide), bs, hbs, htiles⟩

end Karg.HeapTiling
