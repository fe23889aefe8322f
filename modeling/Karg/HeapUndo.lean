import Karg.HeapTiling

namespace Karg.HeapUndo

open LinkStore CircularList ListNode ByteMemory KernelMemory PageAlloc Kalloc Tiling HeapModel HeapInvariant BlockHeaders
  KallocRefinement KfreeRefinement Execution HeapRuns HeapTiling

variable {sym : Symbols} {s : Run} {a : Model} {h' : Heap} {l r : List Block} {b c : Block} {sz n ptr : Nat}

/-- A block that the one before it could not be joined with is left alone, whatever its size. -/
theorem joinPrev_of_coalesced (h : Coalesced (l ++ [c])) (hc : c.allocated = false) (hb : b.allocated = false)
    (ha : b.addr = c.addr) : joinPrev l b = (l, b) := by
  rcases List.eq_nil_or_concat' l with rfl | ⟨l, p, rfl⟩
  · rfl
  · obtain ⟨-, -, hpc⟩ := List.isChain_append.mp h
    have hno := hpc p (by simp) c rfl
    have hpb : joins p b = joins p c := by
      rw [Bool.eq_iff_iff, joins_iff, joins_iff, hc, hb, ha]
    rw [joinPrev, List.getLast?_concat]
    simp only [hpb, hno, Bool.false_eq_true, if_false]

theorem joinNext_of_coalesced (h : Coalesced (c :: r)) : joinNext c r = c :: r := by
  cases r with
  | nil => rfl
  | cons q r =>
      have hno := (List.isChain_cons_cons.mp h).1
      simp only [joinNext, hno, Bool.false_eq_true, if_false]

/-- The parts of a split block are joined to the block again. -/
theorem joinNext_split (h : Coalesced (c :: r)) (hc : c.allocated = false) (hsz : sz ≤ c.size) :
    ∃ d rest, split c sz = d :: rest ∧ d.addr = c.addr ∧ joinNext { d with allocated := false } (rest ++ r) = c :: r := by
  rw [split]
  split
  · refine ⟨_, _, rfl, rfl, ?_⟩
    have hj : joins ⟨⟨c.addr, sz⟩, false⟩ ⟨⟨c.addr + sz, c.size - sz⟩, false⟩ := joins_iff.mpr ⟨rfl, rfl, rfl⟩
    simp only [List.cons_append, List.nil_append, joinNext, hj, if_true, join, Nat.add_sub_cancel' hsz]
    rw [← hc]
  · refine ⟨_, _, rfl, rfl, ?_⟩
    have hsame : ({ c with allocated := false } : Block) = c := by
      rw [← hc]
    rw [List.nil_append, hsame]
    exact joinNext_of_coalesced h

/-- `kfree` of what `kmalloc` has just returned gives back the blocks as they were,
with their addresses, sizes, flags and order and with correct links, unless
`kmalloc` has taken a page. -/
theorem kfree_undoes_kmalloc (h : Reached sym s) (hn : n + headerSize < 2 ^ 64)
    (hk : Converges (fun fuel => kmalloc sym fuel s.heap n) (h', ptr)) (hp : ptr ≠ nullptr)
    (hpages : h'.pages = s.heap.pages) :
    ∃ bs, BlockList sym s.heap.mem bs ∧ Ring s.heap.mem sym.blockList (bs.map (·.addr)) ∧
      BlockList sym (kfree sym h' ptr).mem bs ∧ Ring (kfree sym h' ptr).mem sym.blockList (bs.map (·.addr)) := by
  obtain ⟨a, ha⟩ := reached_simulated h
  have hl : headerSize + n ≤ pageSize := Nat.add_comm n _ ▸ kmalloc_fits_page hn hk hp
  obtain ⟨h₁, out, a', he, hm, hr⟩ := kmalloc_refines ha.represents ha.wellFormed hl
  obtain ⟨rfl, rfl⟩ := Prod.mk.inj (hk.unique ⟨a.blocks.length + 1, he⟩)
  have hw' := kmalloc_wellFormed ha.wellFormed (Nat.le_add_right _ _) hl hm
  have hold := ha.represents.headers
  cases hm with
  | fit l c r hb hl hu =>
      simp only [usable, Bool.and_eq_true, Bool.not_eq_true', decide_eq_true_eq] at hu
      have hco := ha.coalesced
      rw [hb] at hco hold
      obtain ⟨d, rest, hd, hda, hjoin⟩ := joinNext_split (List.isChain_append.mp hco).2.1 hu.1 hu.2
      have hprev : Coalesced (l ++ [c]) := by
        rw [List.append_cons] at hco
        exact (List.isChain_append.mp hco).1
      have hfree := kfree_represents (l := l) (b := d) (r := rest ++ r) hr hw' (by rw [hd, List.cons_append])
      have hleave : joinPrev l { d with allocated := false } = (l, { d with allocated := false }) :=
        joinPrev_of_coalesced hprev hu.1 rfl hda
      rw [hleave, hjoin, hda] at hfree
      exact ⟨l ++ c :: r, blockList_of_headers hold, hold.ring, blockList_of_headers hfree.headers, hfree.headers.ring⟩
  | grow p free hl hf =>
      rw [hr.pages, ha.represents.pages] at hpages
      exact absurd hpages (by simp)
  | full => exact absurd rfl hp

/-- After `kmalloc(100)` the rest of the first page is there for `kmalloc(50)`, and
freeing that leaves the same two blocks. -/
theorem kfree_undoes_kmalloc_second : ∃ s h', Reached ⟨0x80300000, 0x80300010⟩ s ∧
    Converges (fun fuel => kmalloc ⟨0x80300000, 0x80300010⟩ fuel s.heap 50) (h', 0x804000a4) ∧
    BlockList ⟨0x80300000, 0x80300010⟩ (kfree ⟨0x80300000, 0x80300010⟩ h' 0x804000a4).mem
      [⟨⟨0x80400000, 132⟩, true⟩, ⟨⟨0x80400084, 3964⟩, false⟩] := by
  obtain ⟨m, hstart, ha⟩ := boot_start
  obtain ⟨m', -, hreach, hs⟩ := kmalloc_first (n := 100) hstart ha (by decide)
  have hblocks : split ⟨page 0x80400000, false⟩ (headerSize + 100) =
      [⟨⟨0x80400000, 132⟩, true⟩, ⟨⟨0x80400084, 3964⟩, false⟩] := by decide
  rw [hblocks] at hs
  have hk : Kmalloc ⟨[⟨⟨0x80400000, 132⟩, true⟩, ⟨⟨0x80400084, 3964⟩, false⟩], [0x80400000],
      (heapPages 0x80400000).tail⟩ (headerSize + 50) (some 0x804000a4) _ :=
    .fit [⟨⟨0x80400000, 132⟩, true⟩] ⟨⟨0x80400084, 3964⟩, false⟩ [] rfl (by decide) (by decide)
  obtain ⟨h', hc, hpages, -⟩ := kmalloc_reached hreach hs (by decide) hk
  obtain ⟨bs, hold, -, hnew, -⟩ := kfree_undoes_kmalloc hreach (by decide) hc (by decide) hpages
  obtain rfl := hold.unique (blockList_of_simulated hs)
  exact ⟨_, h', hreach, hc, hnew⟩

end Karg.HeapUndo
