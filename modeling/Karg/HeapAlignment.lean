import Karg.HeapTiling

namespace Karg.HeapAlignment

open LinkStore CircularList ListNode ByteMemory KernelMemory PageAlloc Kalloc Tiling HeapModel HeapInvariant BlockHeaders
  KallocRefinement KfreeRefinement Execution HeapRuns HeapTiling

structure Aligned (sym : Symbols) (s : Run) : Prop where
  headers : ∃ bs, BlockList sym s.heap.mem bs ∧ ∀ b ∈ bs, b.addr % 8 = 0
  live (ptr sz : Nat) : s.live ptr = some sz → ptr % 8 = 0

def Cuts (sym : Symbols) (m : Memory) (sz : Nat) : Prop :=
  headerSize + sz ≤ pageSize ∧ ∃ bs, BlockList sym m bs ∧
    match bs.find? (usable (headerSize + sz)) with
    | some b => headerSize < b.size - (headerSize + sz)
    | none => (pageAlloc sym.freeList m).2 ≠ nullptr ∧ headerSize < pageSize - (headerSize + sz)

/-- Where a block or a page is cut, the size asked for is a multiple of 8. -/
def Keeps (sym : Symbols) (s : Run) : Op → Prop
  | .kmalloc sz => Cuts sym s.heap.mem sz → sz % 8 = 0
  | .kcalloc sz n => Cuts sym s.heap.mem (sz * n) → sz * n % 8 = 0
  | _ => True

variable {sym : Symbols} {s s' : Run} {a a' : Model} {b c : Block} {l r : List Block} {op : Op} {sz n ptr : Nat}

theorem aligned_iff (hs : Simulated sym s a) : Aligned sym s ↔ ∀ b ∈ a.blocks, b.addr % 8 = 0 := by
  constructor
  · rintro ⟨⟨bs, hbs, ha⟩, -⟩
    obtain rfl := hbs.unique (blockList_of_simulated hs)
    exact ha
  · intro ha
    refine ⟨⟨_, blockList_of_simulated hs, ha⟩, fun ptr sz hl => ?_⟩
    obtain ⟨b, hb, -, hp, -⟩ := hs.owned.block ptr sz hl
    have hba := ha b hb
    rw [headerSize] at hp
    omega

theorem split_aligned (hb : b.addr % 8 = 0) :
    (∀ d ∈ split b (headerSize + sz), d.addr % 8 = 0) ↔ (headerSize < b.size - (headerSize + sz) → sz % 8 = 0) := by
  rw [split]
  split
  · next hrem =>
    simp only [hrem, forall_const, List.mem_cons, List.not_mem_nil, or_false, forall_eq_or_imp, forall_eq, hb, true_and]
    rw [headerSize]
    omega
  · next hrem => simp [hrem, hb]

theorem cuts_iff (hs : Simulated sym s a) (hl : headerSize + sz ≤ pageSize) : Cuts sym s.heap.mem sz ↔
    match a.blocks.find? (usable (headerSize + sz)) with
    | some b => headerSize < b.size - (headerSize + sz)
    | none => a.free ≠ [] ∧ headerSize < pageSize - (headerSize + sz) := by
  have hlist := blockList_of_simulated hs
  rw [Cuts, and_iff_right hl, Ne, pageAlloc_null hs.represents.free]
  constructor
  · rintro ⟨bs, hbs, hcut⟩
    obtain rfl := hbs.unique hlist
    exact hcut
  · exact fun hcut => ⟨_, hlist, hcut⟩

theorem kmalloc_aligned (hs : Simulated sym s a) (ha : ∀ b ∈ a.blocks, b.addr % 8 = 0)
    (hl : headerSize + sz ≤ pageSize) {out : Option Nat} (hk : Kmalloc a (headerSize + sz) out a') :
    (∀ b ∈ a'.blocks, b.addr % 8 = 0) ↔ (Cuts sym s.heap.mem sz → sz % 8 = 0) := by
  rw [cuts_iff hs hl]
  cases hk with
  | fit l b r hb hno hu =>
      have hfind : a.blocks.find? (usable (headerSize + sz)) = some b :=
        List.find?_eq_some_iff_append.mpr ⟨hu, l, r, hb, by simpa using hno⟩
      have hmem : b ∈ a.blocks := List.mem_of_find?_eq_some hfind
      rw [hfind, ← split_aligned (ha b hmem)]
      constructor
      · exact fun hall d hd => hall d (by simp [hd])
      · intro hsplit d hd
        simp only [List.mem_append] at hd
        rcases hd with hd | hd | hd
        · exact ha d (by simp [hb, hd])
        · exact hsplit d hd
        · exact ha d (by simp [hb, hd])
  | grow p free hno hf =>
      have hfind : a.blocks.find? (usable (headerSize + sz)) = none :=
        List.find?_eq_none.mpr (by simpa using hno)
      have hp := (hs.represents.free.page p (by simp [hf])).aligned
      have hpage : (page p).addr % 8 = 0 := by
        show p % 8 = 0
        rw [pageSize] at hp
        omega
      rw [hfind, hf]
      simp only [ne_eq, reduceCtorEq, not_false_eq_true, true_and]
      refine Iff.trans ?_ (split_aligned (b := ⟨page p, false⟩) hpage)
      constructor
      · exact fun hall d hd => hall d (List.mem_append_right _ hd)
      · intro hsplit d hd
        rcases List.mem_append.mp hd with hd | hd
        · exact ha d hd
        · exact hsplit d hd
  | full hno hf =>
      have hfind : a.blocks.find? (usable (headerSize + sz)) = none :=
        List.find?_eq_none.mpr (by simpa using hno)
      rw [hfind, hf]
      simpa using ha

theorem joinNext_addr : ∀ d ∈ joinNext c r, ∃ d' ∈ c :: r, d'.addr = d.addr := by
  cases r with
  | nil => exact fun d hd => ⟨d, hd, rfl⟩
  | cons q r =>
      rw [joinNext]
      split
      · intro d hd
        rcases List.mem_cons.mp hd with rfl | hd
        · exact ⟨c, List.mem_cons_self, rfl⟩
        · exact ⟨d, by simp [hd], rfl⟩
      · exact fun d hd => ⟨d, hd, rfl⟩

theorem kfree_aligned (ha : ∀ b ∈ a.blocks, b.addr % 8 = 0) (hk : Kfree a ptr a') : ∀ b ∈ a'.blocks, b.addr % 8 = 0 := by
  cases hk with
  | free l c r hb =>
      intro d hd
      have hold : ∀ e ∈ (joinPrev l { c with allocated := false }).1 ++ (joinPrev l { c with allocated := false }).2 :: r,
          e.addr % 8 = 0 := by
        intro e he
        obtain ⟨f, hf, hfe⟩ := joinPrev_addr e he
        rw [← hfe]
        rcases mem_middle.mp hf with rfl | hf
        · exact ha c (by simp [hb])
        · exact ha f (hb ▸ mem_middle.mpr (.inr hf))
      rcases List.mem_append.mp hd with hd | hd
      · exact hold d (List.mem_append_left _ hd)
      · obtain ⟨e, he, hed⟩ := joinNext_addr d hd
        rw [← hed]
        exact hold e (List.mem_append_right _ he)

theorem kmalloc_keeps (hs : Simulated sym s a) (ha : ∀ b ∈ a.blocks, b.addr % 8 = 0) (hsz : sz + headerSize < 2 ^ 64) :
    ∃ h' ptr a', Converges (fun fuel => kmalloc sym fuel s.heap sz) (h', ptr) ∧
      Simulated sym ⟨h', grant s.live ptr sz⟩ a' ∧
      ((∀ b ∈ a'.blocks, b.addr % 8 = 0) ↔ (Cuts sym s.heap.mem sz → sz % 8 = 0)) := by
  by_cases hl : headerSize + sz ≤ pageSize
  · obtain ⟨-, out, a', -, hk, -⟩ := kmalloc_refines hs.represents hs.wellFormed hl
    obtain ⟨h', hc, hs'⟩ := kmalloc_follows hs hl hk
    exact ⟨h', out.getD nullptr, a', hc, hs', kmalloc_aligned hs ha hl hk⟩
  · have hlarge : pageSize < usizeAdd sz headerSize := by
      rw [usizeAdd_of_lt hsz, Nat.add_comm]
      exact Nat.lt_of_not_le hl
    refine ⟨s.heap, nullptr, a, .of_forall (kmalloc_too_large hlarge · s.heap), ?_, iff_of_true ha ?_⟩
    · rw [grant, if_pos rfl]
      exact hs
    · exact fun hcut => absurd hcut.1 hl

theorem step_aligned (hs : Simulated sym s a) (ha : ∀ b ∈ a.blocks, b.addr % 8 = 0) (hstep : Step sym s op s') :
    Aligned sym s' ↔ Keeps sym s op := by
  obtain ⟨hop, hc⟩ := hstep
  cases op with
  | kmalloc sz =>
      obtain ⟨h', ptr, a', hk, hs', hiff⟩ := kmalloc_keeps hs ha hop
      obtain rfl := hc.unique (hk.map _)
      rw [aligned_iff hs', hiff, Keeps]
  | kcalloc sz n =>
      obtain ⟨h₁, ptr, a', hk, hs₁, hiff⟩ := kmalloc_keeps hs ha hop
      obtain ⟨h', hk', hs'⟩ := kcalloc_follows (Nat.lt_of_le_of_lt (Nat.le_add_right _ _) hop) hk hs₁
      obtain rfl := hc.unique (hk'.map _)
      rw [aligned_iff hs', hiff, Keeps]
  | kfree ptr =>
      refine iff_of_true ?_ trivial
      rcases hop with rfl | hl
      · obtain rfl := hc.unique (.of_forall (exec_kfree_null hs))
        exact (aligned_iff hs).mpr ha
      · obtain ⟨sz, hsz⟩ := Option.isSome_iff_exists.mp hl
        obtain ⟨a', hk, hs'⟩ := kfree_simulates hs hsz
        obtain rfl := hc.unique (.of_forall fun _ => rfl)
        exact (aligned_iff hs').mpr (kfree_aligned ha hk)
  | write ptr i val =>
      obtain ⟨sz, hsz, hi⟩ := hop
      obtain rfl := hc.unique (.of_forall fun _ => rfl)
      exact iff_of_true ((aligned_iff (write_simulates hs hsz hi val)).mpr ha) trivial
  | other mem =>
      obtain ⟨free, hs'⟩ := other_simulates hs hop
      obtain rfl := hc.unique (.of_forall fun _ => rfl)
      exact iff_of_true ((aligned_iff hs').mpr ha) trivial

/-- In every run whose requests are multiples of 8 wherever they cut a block or a
page, all headers and pointers are aligned, and the first other request
leaves a header that is not. -/
theorem heap_alignment :
    (∀ s, Reachable (Start sym) (fun s op s' => Step sym s op s' ∧ Keeps sym s op) s → Aligned sym s) ∧
      ∀ s op s', Reached sym s → Aligned sym s → Step sym s op s' → (Aligned sym s' ↔ Keeps sym s op) := by
  have hstep : ∀ s op s', Reached sym s → Aligned sym s → Step sym s op s' → (Aligned sym s' ↔ Keeps sym s op) := by
    intro s op s' h ha hs
    obtain ⟨a, hsim⟩ := reached_simulated h
    exact step_aligned hsim ((aligned_iff hsim).mp ha) hs
  refine ⟨fun s h => ?_, hstep⟩
  have hboth : Reached sym s ∧ Aligned sym s := by
    induction h with
    | start h =>
        obtain ⟨free, hf, hoff⟩ := h.free
        exact ⟨.start h, (aligned_iff (start_simulated h hf hoff)).mpr (by simp)⟩
    | next op _ hs ih => exact ⟨ih.1.next op hs.1, (hstep _ op _ ih.1 ih.2 hs.1).mpr hs.2⟩
  exact hboth.2

/-- After boot `kmalloc(8)` cuts the first page and keeps the headers aligned. -/
theorem heap_alignment_eight : ∃ s s', Reached ⟨0x80300000, 0x80300010⟩ s ∧
    Step ⟨0x80300000, 0x80300010⟩ s (.kmalloc 8) s' ∧ s'.live 0x80400020 = some 8 ∧
    Aligned ⟨0x80300000, 0x80300010⟩ s' := by
  obtain ⟨m, hstart, ha⟩ := boot_start
  obtain ⟨m', hc, -, -⟩ := kmalloc_first (n := 8) hstart ha (by decide)
  have hstep : Step ⟨0x80300000, 0x80300010⟩ ⟨⟨m, []⟩, fun _ => none⟩ (.kmalloc 8) _ :=
    ⟨(by decide : 8 + headerSize < 2 ^ 64), hc.map _⟩
  have hal := heap_alignment.1 _ (.next (.kmalloc 8) (.start hstart) ⟨hstep, fun _ => rfl⟩)
  exact ⟨_, _, .start hstart, hstep, by simp [grant, nullptr, headerSize], hal⟩

/-- After `kmalloc(1)` the rest of the first page starts at an odd address, which
`kmalloc(8)` returns. -/
theorem heap_alignment_odd : ∃ s h', Reached ⟨0x80300000, 0x80300010⟩ s ∧ s.live 0x80400020 = some 1 ∧
    ¬ Aligned ⟨0x80300000, 0x80300010⟩ s ∧
    Converges (fun fuel => kmalloc ⟨0x80300000, 0x80300010⟩ fuel s.heap 8) (h', 0x80400041) := by
  obtain ⟨m, hstart, ha⟩ := boot_start
  obtain ⟨m', -, hreach, hs⟩ := kmalloc_first (n := 1) hstart ha (by decide)
  have hblocks : split ⟨page 0x80400000, false⟩ (headerSize + 1) =
      [⟨⟨0x80400000, 33⟩, true⟩, ⟨⟨0x80400021, 4063⟩, false⟩] := by decide
  rw [hblocks] at hs
  have hk : Kmalloc ⟨[⟨⟨0x80400000, 33⟩, true⟩, ⟨⟨0x80400021, 4063⟩, false⟩], [0x80400000],
      (heapPages 0x80400000).tail⟩ (headerSize + 8) (some 0x80400041) _ :=
    .fit [⟨⟨0x80400000, 33⟩, true⟩] ⟨⟨0x80400021, 4063⟩, false⟩ [] rfl (by decide) (by decide)
  obtain ⟨h', hc, -⟩ := kmalloc_reached hreach hs (by decide) hk
  refine ⟨_, h', hreach, by simp [headerSize], fun hal => ?_, hc⟩
  have hodd := (aligned_iff hs).mp hal ⟨⟨0x80400021, 4063⟩, false⟩ (by simp)
  exact absurd hodd (by decide)

end Karg.HeapAlignment
