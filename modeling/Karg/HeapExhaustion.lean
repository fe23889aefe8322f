import Karg.HeapTiling

namespace Karg.HeapExhaustion

open LinkStore CircularList ListNode ByteMemory KernelMemory PageAlloc Kalloc Tiling HeapModel HeapInvariant BlockHeaders
  KallocRefinement Execution HeapRuns HeapTiling

/-- The `k` bytes from `x` on are free, and they follow each other in the order of
the list as they do in memory. -/
structure FreeRun (bs : List Block) (x k : Nat) : Prop where
  order : List.range' x k <:+: bytes (bs.map Block.toSegment)
  free (y : Nat) : y ∈ place x k → ∃ b ∈ bs, b.allocated = false ∧ y ∈ place b.addr b.size

variable {sym : Symbols} {s : Run} {a : Model} {h h' : Heap} {x k n : Nat} {b c d : Block}

theorem range'_pair {y : Nat} (hx : x ≤ y) (hy : y + 1 < x + k) : [y, y + 1] <:+: List.range' x k := by
  have hsplit : List.range' x k = List.range' x (y - x) ++ [y, y + 1] ++ List.range' (y + 2) (k - (y - x) - 2) := by
    have hpair : List.range' y 2 = [y, y + 1] := rfl
    rw [← hpair]
    nth_rewrite 2 [show y = x + (y - x) by omega]
    rw [List.range'_append_1, show y + 2 = x + (y - x + 2) by omega, List.range'_append_1]
    congr 1
    omega
  rw [hsplit]
  exact List.infix_append _ _ _

theorem block_unique (hw : WellFormed a) (hc : c ∈ a.blocks) (hd : d ∈ a.blocks) (hx : x ∈ place c.addr c.size)
    (hy : x ∈ place d.addr d.size) : c = d := by
  by_contra hne
  have hap := hw.apart_of_ne hc hd hne
  rw [Segment.Apart] at hap
  rw [mem_place] at hx hy
  omega

/-- Free bytes that follow each other belong to one block. -/
theorem FreeRun.block (hw : WellFormed a) (hc : Coalesced a.blocks) (hr : FreeRun a.blocks x k) (hk : 0 < k) :
    ∃ b ∈ a.blocks, b.allocated = false ∧ k ≤ b.size := by
  obtain ⟨b, hb, hfree, hx⟩ := hr.free x (mem_place.mpr (by omega))
  refine ⟨b, hb, hfree, ?_⟩
  by_contra hlt
  rw [mem_place] at hx
  obtain ⟨l, r, hlr⟩ := List.append_of_mem hb
  have hpos : ∀ t ∈ a.blocks, 0 < t.size := fun t ht => Nat.lt_of_lt_of_le (by decide) (hw.size t ht)
  have hbytes : bytes (a.blocks.map Block.toSegment) =
      bytes (l.map Block.toSegment ++ b.toSegment :: r.map Block.toSegment) := by
    rw [hlr, List.map_append, List.map_cons]
  have hnodup := hw.pages_nodup
  rw [← hw.tiles, hbytes] at hnodup
  have hpair : [b.addr + b.size - 1, b.addr + b.size - 1 + 1] <:+: bytes (a.blocks.map Block.toSegment) :=
    (range'_pair (by omega) (by omega)).trans hr.order
  rw [Nat.sub_add_cancel (by omega), hbytes] at hpair
  have hposr : ∀ t ∈ r.map Block.toSegment, 0 < t.size := by
    rw [List.forall_mem_map]
    exact fun t ht => hpos t (hlr ▸ mem_middle.mpr (.inr (List.mem_append_right _ ht)))
  obtain ⟨t, r', hr', hmeets⟩ := meets_of_next hnodup (hpos b hb) hposr hpair
  obtain ⟨c, r'', rfl, rfl, -⟩ := List.map_eq_cons_iff.mp hr'
  have hcm : c ∈ a.blocks := hlr ▸ mem_middle.mpr (.inr (List.mem_append_right _ List.mem_cons_self))
  obtain ⟨d, hd, hdfree, hy⟩ := hr.free (b.addr + b.size) (mem_place.mpr (by omega))
  rw [Segment.Meets] at hmeets
  have hcx : b.addr + b.size ∈ place c.addr c.size := by
    have hcp := hpos c hcm
    rw [mem_place]
    omega
  obtain rfl := block_unique hw hcm hd hcx hy
  rw [hlr] at hc
  obtain ⟨-, hbc, -⟩ := List.isChain_append.mp hc
  have hno := (List.isChain_cons_cons.mp hbc).1
  rw [joins_iff.mpr ⟨hfree, hdfree, hmeets⟩] at hno
  cases hno

/-- For every size that fits on a page `kmalloc` returns, and it returns null only if
there is no free page and every run of free bytes is shorter than the size with a
header. Whenever it returns null the memory is as before. -/
theorem heap_exhaustion (h : Reached sym s) :
    (∃ bs, BlockList sym s.heap.mem bs ∧ ∀ n, n + headerSize ≤ pageSize → ∃ h' ptr,
      Converges (fun fuel => kmalloc sym fuel s.heap n) (h', ptr) ∧
        (ptr = nullptr → (pageAlloc sym.freeList s.heap.mem).2 = nullptr ∧
          ∀ x k, FreeRun bs x k → k < n + headerSize)) ∧
      ∀ n h', Converges (fun fuel => kmalloc sym fuel s.heap n) (h', nullptr) → h' = s.heap := by
  obtain ⟨a, ha⟩ := reached_simulated h
  refine ⟨⟨a.blocks, blockList_of_simulated ha, fun n hn => ?_⟩, fun n h' hk => ?_⟩
  · obtain ⟨⟨h', ptr⟩, hc, -, hnull⟩ := kmalloc_total ha.represents ha.wellFormed n
    refine ⟨h', ptr, hc, fun hp => ?_⟩
    have hadd : usizeAdd n headerSize = n + headerSize := by
      apply usizeAdd_of_lt
      rw [pageSize] at hn
      omega
    rcases hnull.mp hp with hl | ⟨hl, hf⟩
    · rw [hadd] at hl
      exact absurd hn (Nat.not_le.mpr hl)
    · have hfree := ha.represents.free
      rw [hf] at hfree
      refine ⟨by rw [pageAlloc_nil hfree], fun x k hr => ?_⟩
      rcases Nat.eq_zero_or_pos k with rfl | hk
      · exact Nat.add_pos_right n (by decide)
      · obtain ⟨b, hb, hbf, hsize⟩ := hr.block ha.wellFormed ha.coalesced hk
        have hu := hl b hb
        simp only [usable, hbf, hadd, Bool.not_false, Bool.true_and, decide_eq_false_iff_not] at hu
        omega
  · obtain ⟨r, hc, hsame, -⟩ := kmalloc_total ha.represents ha.wellFormed n
    obtain rfl := hk.unique hc
    exact hsame rfl

/-- The only page has been given away but for 64 bytes. That is enough for
`kmalloc(16)`, but `kmalloc(100)` returns null. -/
theorem heap_exhaustion_short : ∃ s h', Reached ⟨0x80300000, 0x80300010⟩ s ∧ s.live 0x80400020 = some 4000 ∧
    Converges (fun fuel => kmalloc ⟨0x80300000, 0x80300010⟩ fuel s.heap 16) (h', 0x80400FE0) ∧
    Converges (fun fuel => kmalloc ⟨0x80300000, 0x80300010⟩ fuel s.heap 100) (s.heap, nullptr) ∧
    (pageAlloc 0x80300010 s.heap.mem).2 = nullptr := by
  obtain ⟨m, hstart, hf, -⟩ := few_pages [0x80400000] (.inr rfl)
  have hsim := start_simulated hstart hf (by decide)
  have hgrow : Kmalloc ⟨[], [], [0x80400000]⟩ (headerSize + 4000) (some 0x80400020) _ :=
    .grow 0x80400000 [] (by simp) rfl
  obtain ⟨h, -, -, hreach, hs⟩ := kmalloc_reached (.start hstart) hsim (by decide) hgrow
  have hblocks : split ⟨page 0x80400000, false⟩ (headerSize + 4000) =
      [⟨⟨0x80400000, 4032⟩, true⟩, ⟨⟨0x80400FC0, 64⟩, false⟩] := by decide
  rw [hblocks] at hs
  have hfit : Kmalloc ⟨[⟨⟨0x80400000, 4032⟩, true⟩, ⟨⟨0x80400FC0, 64⟩, false⟩], [0x80400000], []⟩ (headerSize + 16)
      (some 0x80400FE0) _ :=
    .fit [⟨⟨0x80400000, 4032⟩, true⟩] ⟨⟨0x80400FC0, 64⟩, false⟩ [] rfl (by decide) (by decide)
  obtain ⟨h', hsmall, -⟩ := kmalloc_follows hs (by decide) hfit
  have hconv : Converges (fun fuel => kmalloc ⟨0x80300000, 0x80300010⟩ fuel h 100) (h, nullptr) :=
    ⟨3, fun fuel hfuel => kmalloc_full hs.represents (by decide) rfl rfl hfuel⟩
  obtain ⟨⟨bs, -, hnull⟩, hsame⟩ := heap_exhaustion hreach
  obtain ⟨h₁, ptr, hc, hp⟩ := hnull 100 (by decide)
  obtain ⟨-, rfl⟩ := Prod.mk.inj (hc.unique hconv)
  exact ⟨_, h', hreach, by simp, hsmall, hsame 100 h₁ hc ▸ hc, (hp rfl).1⟩

end Karg.HeapExhaustion
