import Karg.HeapTiling
import Mathlib.Data.List.SplitBy

namespace Karg.HeapCoalescing

open PageAlloc Kalloc Tiling HeapModel HeapInvariant Execution HeapRuns HeapTiling

def runBlock (run : List Nat) : Block := ⟨⟨run.headD 0, pageSize * run.length⟩, false⟩

def pageRuns (pages : List Nat) : List Block := (pages.splitBy fun p q => p + pageSize == q).map runBlock

variable {sym sym' : Symbols} {s t : Run} {a : Model} {run : List Nat}

theorem runBlock_end {p : Nat} (h : (p :: run).IsChain fun p q => (p + pageSize == q) = true) :
    p + pageSize * run.length = (p :: run).getLast (List.cons_ne_nil p run) := by
  induction run generalizing p with
  | nil => rfl
  | cons q run ih =>
      obtain ⟨hpq, hr⟩ := List.isChain_cons_cons.mp h
      rw [List.getLast_cons (List.cons_ne_nil q run), ← ih hr, ← eq_of_beq hpq, List.length_cons, Nat.mul_succ]
      omega

theorem runBlock_bytes (hne : run ≠ []) (h : run.IsChain fun p q => (p + pageSize == q) = true) :
    bytes [(runBlock run).toSegment] = bytes (run.map page) := by
  induction run with
  | nil => exact absurd rfl hne
  | cons p run ih =>
      cases run with
      | nil => rfl
      | cons q run =>
          obtain ⟨hpq, hr⟩ := List.isChain_cons_cons.mp h
          have hih := ih (List.cons_ne_nil q run) hr
          have hsplit := bytes_split p pageSize (pageSize * (q :: run).length)
          rw [eq_of_beq hpq, Nat.add_comm pageSize, ← Nat.mul_succ] at hsplit
          calc bytes [(runBlock (p :: q :: run)).toSegment]
              = bytes [page p, (runBlock (q :: run)).toSegment] := hsplit.symm
            _ = bytes [page p] ++ bytes [(runBlock (q :: run)).toSegment] := bytes_append (l := [page p])
            _ = bytes [page p] ++ bytes ((q :: run).map page) := by rw [hih]
            _ = bytes ((p :: q :: run).map page) := (bytes_append (l := [page p])).symm

theorem pageRuns_bytes (pages : List Nat) : bytes ((pageRuns pages).map Block.toSegment) = bytes (pages.map page) := by
  have hgen : ∀ runs : List (List Nat), (∀ run ∈ runs, run ≠ [] ∧ run.IsChain fun p q => (p + pageSize == q) = true) →
      bytes ((runs.map runBlock).map Block.toSegment) = bytes (runs.flatten.map page) := by
    intro runs
    induction runs with
    | nil => exact fun _ => rfl
    | cons run runs ih =>
        intro h
        obtain ⟨⟨hne, hc⟩, hruns⟩ := List.forall_mem_cons.mp h
        have hrun := runBlock_bytes hne hc
        rw [bytes_cons, bytes_nil, List.append_nil] at hrun
        rw [List.map_cons, List.map_cons, bytes_cons, List.flatten_cons, List.map_append, bytes_append, ih hruns, hrun]
  rw [pageRuns, hgen, List.flatten_splitBy]
  intro run hrun
  exact ⟨List.ne_nil_of_mem_splitBy hrun, List.isChain_of_mem_splitBy hrun⟩

theorem pageRuns_apart (pages : List Nat) : ((pageRuns pages).map Block.toSegment).IsChain (¬ Segment.Meets · ·) := by
  rw [pageRuns, List.isChain_map, List.isChain_map]
  refine (List.isChain_getLast_head_splitBy _ pages).imp_of_mem_imp ?_
  rintro run run' hrun hrun' ⟨hne, hne', hr⟩ hmeets
  apply ne_of_beq_false hr
  obtain ⟨p, run, rfl⟩ := List.exists_cons_of_ne_nil hne
  obtain ⟨q, run', rfl⟩ := List.exists_cons_of_ne_nil hne'
  rw [← runBlock_end (List.isChain_of_mem_splitBy hrun)]
  simp only [Segment.Meets, runBlock, List.headD_cons, List.length_cons, Nat.mul_succ] at hmeets
  rw [List.head_cons, ← hmeets, Nat.add_assoc]

theorem eq_of_segments {bs cs : List Block} (hb : ∀ b ∈ bs, b.allocated = false) (hc : ∀ c ∈ cs, c.allocated = false)
    (h : bs.map Block.toSegment = cs.map Block.toSegment) : bs = cs := by
  have hfree : ∀ ds : List Block, (∀ d ∈ ds, d.allocated = false) →
      (ds.map Block.toSegment).map (fun s => (⟨s, false⟩ : Block)) = ds := by
    intro ds hd
    rw [List.map_map]
    refine (List.map_congr_left fun d hmem => ?_).trans (List.map_id ds)
    rw [Function.comp_apply, ← hd d hmem]
    rfl
  rw [← hfree bs hb, h, hfree cs hc]

theorem mem_pageRuns {pages : List Nat} {b : Block} (h : b ∈ pageRuns pages) : b.allocated = false ∧ 0 < b.size := by
  obtain ⟨run, hrun, rfl⟩ := List.mem_map.mp h
  exact ⟨rfl, Nat.mul_pos (by decide) (List.length_pos_of_ne_nil (List.ne_nil_of_mem_splitBy hrun))⟩

/-- Free blocks that cannot be joined are the runs of the pages. -/
theorem blocks_eq_pageRuns (hw : WellFormed a) (hc : Coalesced a.blocks) (hf : ∀ b ∈ a.blocks, b.allocated = false) :
    a.blocks = pageRuns a.pages := by
  apply eq_of_segments hf fun b hb => (mem_pageRuns hb).1
  apply segments_unique
  · rw [List.isChain_map]
    refine hc.imp_of_mem_imp ?_
    intro b c hb hc hj hm
    rw [joins_iff.mpr ⟨hf b hb, hf c hc, hm⟩] at hj
    cases hj
  · exact pageRuns_apart a.pages
  · rw [List.forall_mem_map]
    exact fun b hb => Nat.lt_of_lt_of_le (by decide) (hw.size b hb)
  · rw [List.forall_mem_map]
    exact fun b hb => (mem_pageRuns hb).2
  · rw [hw.tiles, pageRuns_bytes]

theorem blockList_pageRuns (h : Reached sym s) (hl : ∀ ptr, s.live ptr = none) :
    BlockList sym s.heap.mem (pageRuns s.heap.pages) := by
  obtain ⟨a, ha⟩ := reached_simulated h
  have hf : ∀ b ∈ a.blocks, b.allocated = false := by
    intro b hb
    by_contra hno
    obtain ⟨n, hn⟩ := ha.owned.live b hb (by simpa using hno)
    rw [hl] at hn
    cases hn
  rw [ha.represents.pages, ← blocks_eq_pageRuns ha.wellFormed ha.coalesced hf]
  exact blockList_of_simulated ha

/-- In every state of a run no two consecutive blocks are free and adjacent, and
two runs that have got the same pages and have no live allocation left end with
the same list of blocks. -/
theorem heap_coalescing (hs : Reached sym s) (ht : Reached sym' t) :
    (∃ bs, BlockList sym s.heap.mem bs ∧
      bs.IsChain fun b c => ¬ (b.allocated = false ∧ c.allocated = false ∧ b.addr + b.size = c.addr)) ∧
      (s.heap.pages = t.heap.pages → (∀ ptr, s.live ptr = none) → (∀ ptr, t.live ptr = none) →
        BlockList sym s.heap.mem (pageRuns s.heap.pages) ∧ BlockList sym' t.heap.mem (pageRuns s.heap.pages)) := by
  constructor
  · obtain ⟨a, ha⟩ := reached_simulated hs
    refine ⟨a.blocks, blockList_of_simulated ha, ha.coalesced.imp ?_⟩
    intro b c hj
    rw [← joins_iff, hj]
    decide
  · intro hp hl hl'
    refine ⟨blockList_pageRuns hs hl, ?_⟩
    rw [hp]
    exact blockList_pageRuns ht hl'

/-- An allocation of 100 bytes and one of 200 bytes leave the same block when they
have been freed. -/
theorem heap_coalescing_free : ∃ s t, Reached ⟨0x80300000, 0x80300010⟩ s ∧ Reached ⟨0x80300000, 0x80300010⟩ t ∧
    BlockList ⟨0x80300000, 0x80300010⟩ s.heap.mem [⟨⟨0x80400000, 4096⟩, false⟩] ∧
    BlockList ⟨0x80300000, 0x80300010⟩ t.heap.mem [⟨⟨0x80400000, 4096⟩, false⟩] := by
  obtain ⟨m, hstart, ha⟩ := boot_start
  have hfree : ∀ n, headerSize + n ≤ pageSize → ∃ s, Reached ⟨0x80300000, 0x80300010⟩ s ∧
      s.heap.pages = [0x80400000] ∧ ∀ ptr, s.live ptr = none := by
    intro n hn
    obtain ⟨m', -, hreach, -⟩ := kmalloc_first hstart ha hn
    refine ⟨_, hreach.next (.kfree (0x80400000 + headerSize)) ⟨.inr ?_, .of_forall fun _ => rfl⟩, ?_, ?_⟩
    · simp
    · rw [kfree]
      split <;> rfl
    · intro ptr
      rw [Function.update_idem, Function.update_eq_self_iff.mpr rfl]
  obtain ⟨s, hs, hp, hl⟩ := hfree 100 (by decide)
  obtain ⟨t, ht, hp', hl'⟩ := hfree 200 (by decide)
  have hboth := (heap_coalescing hs ht).2 (hp.trans hp'.symm) hl hl'
  rw [hp] at hboth
  exact ⟨s, t, hs, ht, hboth⟩

end Karg.HeapCoalescing
