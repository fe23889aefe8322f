import Karg.ElfImage
import Karg.TableDemand

namespace Karg.ElfOutcome

open ByteMemory KernelMemory PageAlloc Vm TableTree VmRefinement PageTableMap Elf ElfImage Execution Demand TableDemand

def loadPiece (freeList : Nat) (img : Memory) (root : Nat) (s : Space) (b : Piece) : Space × Int :=
  let (m, page) := pageAlloc freeList s.mem
  if page = nullptr then (⟨m, s.tables⟩, -enomem)
  else vmMapPage freeList ⟨fillPage img b.hdr m page b.offset, s.tables⟩ root b.virt page (vmFlags b.hdr)

def loadAll (freeList : Nat) (img : Memory) (root : Nat) (s : Space) : List Piece → Space × Int
  | [] => (s, 0)
  | b :: bs =>
      let (s, res) := loadPiece freeList img root s b
      if res < 0 then (s, res) else loadAll freeList img root s bs

def cost (present : Finset (List Nat)) (bs : List Piece) : Nat := bs.length + demand present (needsOf (bs.map Piece.virt))

def pageDemand (img : Memory) : Nat :=
  (pieces (progHdrs img)).length + tableCount ((pieces (progHdrs img)).map Piece.virt)

def supported (img : Memory) : Bool := checkCompat img && load img 16 2 = 2

variable {freeList root : Nat} {img m : Memory} {s : Space} {free : List Nat} {hdr : ProgHdr} {hdrs : List ProgHdr}
  {tab : List Nat → Option Nat} {present : Finset (List Nat)} {leaf : List Nat → Pte} {bs cs : List Piece} {b : Piece}

section Loops

theorem loadAll_append (s : Space) (bs cs : List Piece) : loadAll freeList img root s (bs ++ cs) =
    if (loadAll freeList img root s bs).2 < 0 then loadAll freeList img root s bs
    else loadAll freeList img root (loadAll freeList img root s bs).1 cs := by
  induction bs generalizing s with
  | nil => rfl
  | cons b bs ih =>
      rw [List.cons_append, loadAll, loadAll]
      by_cases hres : (loadPiece freeList img root s b).2 < 0
      · simp only [hres, if_true]
      · simp only [hres, if_false]
        exact ih _

/-- The inner loop makes a round for each piece that is left. -/
theorem loadPages_eq (htop : hdr.vaddr + hdr.memsz ≤ 2 ^ 39) {j k fuel : Nat} (hk : k + j = pageCount hdr) (hj : j < fuel)
    (s : Space) : loadPages freeList img root hdr fuel s (pageSize * k) =
      some (loadAll freeList img root s (piecesFrom hdr k)) := by
  induction j generalizing k fuel s with
  | zero =>
      have hend : ¬ pageSize * k < hdr.memsz := by
        intro hlt
        have := lt_pageCount.mpr hlt
        omega
      have hnil : piecesFrom hdr k = [] := by
        have hzero : pageCount hdr - k = 0 := by omega
        rw [piecesFrom, hzero]
        rfl
      obtain ⟨fuel, rfl⟩ := Nat.exists_eq_succ_of_ne_zero (Nat.ne_zero_of_lt hj)
      rw [loadPages, if_neg hend, hnil]
      rfl
  | succ j ih =>
      have hlt : pageSize * k < hdr.memsz := lt_pageCount.mp (by omega)
      have hvirt : usizeAdd hdr.vaddr (pageSize * k) = hdr.vaddr + pageSize * k := usizeAdd_of_lt (by omega)
      have hnext : usizeAdd (pageSize * k) pageSize = pageSize * (k + 1) := by
        rw [usizeAdd_of_lt, Nat.mul_succ]
        rw [pageSize] at hlt ⊢
        omega
      obtain ⟨fuel, rfl⟩ := Nat.exists_eq_succ_of_ne_zero (Nat.ne_zero_of_lt hj)
      rw [piecesFrom_succ (by omega), loadAll, loadPages, if_pos hlt, loadPiece]
      by_cases hpage : (pageAlloc freeList s.mem).2 = nullptr
      · have hneg : -enomem < 0 := by decide
        simp only [hpage, if_true, hneg]
      · simp only [hpage, if_false, hvirt, hnext, Piece.virt]
        split
        · rfl
        · exact ih (by omega) (by omega) _

/-- Both loops together make a round for each piece of the image. -/
theorem loadSegments_eq (htop : ∀ hdr ∈ hdrs, hdr.type = ptLoad → hdr.vaddr + hdr.memsz ≤ 2 ^ 39) (s : Space) :
    Converges (fun fuel => loadSegments freeList img root fuel s hdrs) (loadAll freeList img root s (pieces hdrs)) := by
  induction hdrs generalizing s with
  | nil => exact .of_forall fun _ => rfl
  | cons hdr hdrs ih =>
      obtain ⟨hhdr, htop⟩ := List.forall_mem_cons.mp htop
      rw [pieces_cons]
      by_cases hl : hdr.type = ptLoad
      · obtain ⟨N, hN⟩ := ih htop (loadAll freeList img root s (piecesFrom hdr 0)).1
        refine ⟨max N (pageCount hdr + 1), fun fuel hfuel => ?_⟩
        have hone : loadPages freeList img root hdr fuel s 0 = some (loadAll freeList img root s (piecesFrom hdr 0)) :=
          loadPages_eq (k := 0) (hhdr hl) (Nat.zero_add _) (by omega) s
        have hrest := hN fuel (by omega)
        simp only [loadSegments, hl, ne_eq, not_true, if_false, hone, Option.bind_eq_bind, Option.bind_some, if_true,
          loadAll_append]
        split
        · rfl
        · exact hrest
      · obtain ⟨N, hN⟩ := ih htop s
        refine ⟨N, fun fuel hfuel => ?_⟩
        simp only [loadSegments, hl, ne_eq, not_false_eq_true, if_true, if_false]
        exact hN fuel hfuel

end Loops

theorem cost_cons (present : Finset (List Nat)) (b : Piece) (bs : List Piece) :
    cost present (b :: bs) = 1 + demand present (needs b.virt) + cost (present ∪ (needs b.virt).toFinset) bs := by
  have hneeds : needsOf ((b :: bs).map Piece.virt) = needs b.virt ++ needsOf (bs.map Piece.virt) := rfl
  rw [cost, cost, hneeds, demand_append, List.length_cons]
  omega

theorem counted_fill {n : Nat} (h : Counted freeList root s tab present leaf (n :: free)) (img : Memory)
    (hdr : ProgHdr) (offset : Nat) :
    ∃ m, pageAlloc freeList s.mem = (m, n) ∧ n ≠ nullptr ∧
      Counted freeList root ⟨fillPage img hdr m n offset, s.tables⟩ tab present leaf free := by
  obtain ⟨m, hrun, hfree, honly⟩ := pageAlloc_cons h.pages
  have hn := h.frames n List.mem_cons_self
  have hfill := fillPage_only img hdr m n offset
  have hdisj := hfree.disjoint hn.toPage (h.pages.off n List.mem_cons_self) (List.nodup_cons.mp h.pages.nodup).1
  have honly' : Only (nodes (freeList :: free) ∪ place n pageSize) s.mem (fillPage img hdr m n offset) :=
    Only.trans (honly.mono Set.subset_union_left) (hfill.mono Set.subset_union_right)
  exact ⟨m, hrun, Nat.ne_of_gt hn.pos, h.toMapped.take (hfree.frame hfill hdisj.symm) honly', h.mem, h.count⟩

/-- A round takes its page and the tables that are missing, or all that is left. -/
theorem loadPiece_counted (h : Counted freeList root s tab present leaf free) (img : Memory) (hv : b.virt < 2 ^ 39) :
    (∃ s' tab' leaf', loadPiece freeList img root s b = (s', 0) ∧ 1 + demand present (needs b.virt) ≤ free.length ∧
      Counted freeList root s' tab' (present ∪ (needs b.virt).toFinset) leaf'
        (free.drop (1 + demand present (needs b.virt)))) ∨
    ∃ s' tab' present', loadPiece freeList img root s b = (s', -enomem) ∧
      free.length < 1 + demand present (needs b.virt) ∧ Counted freeList root s' tab' present' leaf [] := by
  cases free with
  | nil =>
      refine .inr ⟨s, tab, present, ?_, ?_, h⟩
      · simp only [loadPiece, pageAlloc_nil h.pages, if_true]
      · rw [List.length_nil]
        omega
  | cons n free =>
      obtain ⟨m, hrun, hne, hc⟩ := counted_fill h img b.hdr b.offset
      have heq : loadPiece freeList img root s b =
          vmMapPage freeList ⟨fillPage img b.hdr m n b.offset, s.tables⟩ root b.virt n (vmFlags b.hdr) := by
        simp only [loadPiece, hrun, hne, if_false]
      rw [heq, List.length_cons, Nat.add_comm 1, List.drop_succ_cons]
      rcases mapPage_counted hc hv n (vmFlags b.hdr) with ⟨s', tab', hmap, hle, hc'⟩ | ⟨s', tab', present', hmap, hlt, hc'⟩
      · exact .inl ⟨s', tab', _, hmap, by omega, hc'⟩
      · exact .inr ⟨s', tab', present', hmap, by omega, hc'⟩

theorem loadAll_counted (h : Counted freeList root s tab present leaf free) (img : Memory)
    (hv : ∀ b ∈ bs, b.virt < 2 ^ 39) :
    (∃ s' tab' leaf', loadAll freeList img root s bs = (s', 0) ∧ cost present bs ≤ free.length ∧
      Counted freeList root s' tab' (present ∪ (needsOf (bs.map Piece.virt)).toFinset) leaf'
        (free.drop (cost present bs))) ∨
    ∃ s' tab' present' leaf', loadAll freeList img root s bs = (s', -enomem) ∧ free.length < cost present bs ∧
      Counted freeList root s' tab' present' leaf' [] := by
  induction bs generalizing s tab leaf free present with
  | nil =>
      have hzero : cost present [] = 0 := (Nat.zero_add _).trans (demand_nil present)
      rw [hzero]
      refine .inl ⟨s, tab, leaf, rfl, Nat.zero_le _, ?_⟩
      show Counted freeList root s tab (present ∪ ∅) leaf free
      rwa [Finset.union_empty]
  | cons b bs ih =>
      have hneeds : needsOf ((b :: bs).map Piece.virt) = needs b.virt ++ needsOf (bs.map Piece.virt) := rfl
      rw [cost_cons, loadAll, hneeds, union_append]
      rcases loadPiece_counted h img (hv b List.mem_cons_self) with
        ⟨s₁, tab₁, leaf₁, hrun₁, hle₁, hc₁⟩ | ⟨s₁, tab₁, present₁, hrun₁, hlt₁, hc₁⟩
      · have hlen := List.length_drop (i := 1 + demand present (needs b.virt)) (l := free)
        simp only [hrun₁, Int.lt_irrefl, if_false]
        rcases ih hc₁ fun c hc => hv c (List.mem_cons_of_mem b hc) with
          ⟨s₂, tab₂, leaf₂, hrun₂, hle₂, hc₂⟩ | ⟨s₂, tab₂, present₂, leaf₂, hrun₂, hlt₂, hc₂⟩
        · rw [List.drop_drop] at hc₂
          exact .inl ⟨s₂, tab₂, leaf₂, hrun₂, by omega, hc₂⟩
        · exact .inr ⟨s₂, tab₂, present₂, leaf₂, hrun₂, by omega, hc₂⟩
      · have hneg : -enomem < 0 := by decide
        simp only [hrun₁, hneg, if_true]
        exact .inr ⟨s₁, tab₁, present₁, leaf, rfl, by omega, hc₁⟩

def result (img : Memory) (pages : Nat) : Int :=
  if !checkIdent img then -eacces
  else if !supported img then -einval
  else if pages < pageDemand img then -enomem
  else 0

theorem pieces_virt_lt (htop : ∀ hdr ∈ segments img, hdr.vaddr + hdr.memsz ≤ 2 ^ 39) :
    ∀ v ∈ (pieces (progHdrs img)).map Piece.virt, v < 2 ^ 39 := by
  intro v hv
  obtain ⟨b, hb, rfl⟩ := List.mem_map.mp hv
  exact piece_virt_lt htop hb

theorem cost_pieces (htop : ∀ hdr ∈ segments img, hdr.vaddr + hdr.memsz ≤ 2 ^ 39) :
    cost {[]} (pieces (progHdrs img)) + 1 = pageDemand img := by
  have hcount := demand_needsOf (pieces_virt_lt htop)
  rw [cost, pageDemand]
  omega

theorem elfLoad_refused (h : ¬ (checkIdent img && supported img)) (m : Memory) (r : ElfLoadRes) (pages : Nat) :
    Converges (fun fuel => elfLoad freeList img fuel m r) (⟨m, []⟩, ⟨entry img, r.pageTable⟩, result img pages) := by
  refine .of_forall fun fuel => ?_
  by_cases hid : checkIdent img
  · have hsup : supported img = false := by simpa [hid] using h
    have hcompat : (!checkCompat img || decide (load img 16 2 ≠ 2)) = true := by
      rw [supported, Bool.and_eq_false_iff, decide_eq_false_iff_not] at hsup
      rcases hsup with hsup | hsup
      · rw [hsup]
        rfl
      · rw [decide_eq_true hsup, Bool.or_true]
    simp only [elfLoad, result, hid, hsup, hcompat, Bool.not_true, Bool.not_false, Bool.false_eq_true, if_false, if_true]
  · simp only [elfLoad, result, hid, Bool.not_false, if_true]

theorem result_refused (h : ¬ (checkIdent img && supported img)) (pages : Nat) : result img pages < 0 := by
  by_cases hid : checkIdent img
  · have hsup : supported img = false := by simpa [hid] using h
    simp only [result, hid, hsup, Bool.not_true, Bool.not_false, Bool.false_eq_true, if_false, if_true]
    decide
  · simp only [result, hid, Bool.not_false, if_true]
    decide

theorem elfLoad_eq {n : Nat} (hid : checkIdent img) (hsup : supported img)
    (hcreate : vmCreatePageTable freeList ⟨m, []⟩ = (s, n)) (hne : n ≠ nullptr)
    (htop : ∀ hdr ∈ segments img, hdr.vaddr + hdr.memsz ≤ 2 ^ 39) (r : ElfLoadRes) :
    Converges (fun fuel => elfLoad freeList img fuel m r)
      ((loadAll freeList img n s (pieces (progHdrs img))).1, ⟨entry img, n⟩,
        (loadAll freeList img n s (pieces (progHdrs img))).2) := by
  rw [supported, Bool.and_eq_true, decide_eq_true_eq] at hsup
  obtain ⟨hcompat, htype⟩ := hsup
  have hhdrs : ∀ hdr ∈ progHdrs img, hdr.type = ptLoad → hdr.vaddr + hdr.memsz ≤ 2 ^ 39 :=
    fun hdr hmem hl => htop hdr (List.mem_filter.mpr ⟨hmem, decide_eq_true hl⟩)
  obtain ⟨N, hN⟩ : Converges (fun fuel => loadSegments freeList img n fuel s (progHdrs img)) _ := loadSegments_eq hhdrs s
  refine ⟨N, fun fuel hfuel => ?_⟩
  simp only [elfLoad, hid, hcompat, htype, hcreate, hne, hN fuel hfuel, Bool.not_true, Bool.false_eq_true, if_false,
    ne_eq, not_true, decide_false, Bool.or_false, Option.bind_eq_bind, Option.bind_some]

theorem elfLoad_null (hid : checkIdent img) (hsup : supported img) (h : FreePages freeList m []) (r : ElfLoadRes) :
    Converges (fun fuel => elfLoad freeList img fuel m r) (⟨m, []⟩, ⟨entry img, nullptr⟩, -enomem) := by
  rw [supported, Bool.and_eq_true, decide_eq_true_eq] at hsup
  obtain ⟨hcompat, htype⟩ := hsup
  refine .of_forall fun fuel => ?_
  simp only [elfLoad, hid, hcompat, htype, createPageTable_null (s := ⟨m, []⟩) h, Bool.not_true, Bool.false_eq_true,
    if_false, ne_eq, not_true, decide_false, Bool.or_false, if_true]

theorem result_supported (hid : checkIdent img) (hsup : supported img) (pages : Nat) :
    result img pages = if pages < pageDemand img then -enomem else 0 := by
  simp only [result, hid, hsup, Bool.not_true, Bool.false_eq_true, if_false]

theorem elfLoad_counted (hid : checkIdent img) (hsup : supported img) (h : FreePages freeList m free)
    (hf : ∀ p ∈ free, Frame p) (htop : ∀ hdr ∈ segments img, hdr.vaddr + hdr.memsz ≤ 2 ^ 39) (r : ElfLoadRes) :
    (∃ s n tab leaf, Converges (fun fuel => elfLoad freeList img fuel m r) (s, ⟨entry img, n⟩, 0) ∧
      pageDemand img ≤ free.length ∧
      Counted freeList n s tab ({[]} ∪ (needsOf ((pieces (progHdrs img)).map Piece.virt)).toFinset) leaf
        (free.drop (pageDemand img))) ∨
    ∃ s n, Converges (fun fuel => elfLoad freeList img fuel m r) (s, ⟨entry img, n⟩, -enomem) ∧
      free.length < pageDemand img ∧ FreePages freeList s.mem [] := by
  have hcost := cost_pieces htop
  cases free with
  | nil =>
      refine .inr ⟨⟨m, []⟩, nullptr, elfLoad_null hid hsup h r, ?_, h⟩
      rw [List.length_nil]
      omega
  | cons n free =>
      obtain ⟨m', tab, hcreate, hc⟩ := create_counted h hf
      have hne : n ≠ nullptr := Nat.ne_of_gt (hf n List.mem_cons_self).pos
      have hrun := elfLoad_eq hid hsup hcreate hne htop r
      rw [← hcost, List.length_cons, List.drop_succ_cons]
      rcases loadAll_counted hc img fun b hb => piece_virt_lt htop hb with
        ⟨s', tab', leaf', hload, hle, hc'⟩ | ⟨s', tab', present', leaf', hload, hlt, hc'⟩
      · rw [hload] at hrun
        exact .inl ⟨s', n, tab', leaf', hrun, Nat.succ_le_succ hle, hc'⟩
      · rw [hload] at hrun
        exact .inr ⟨s', n, hrun, Nat.succ_lt_succ hlt, hc'.pages⟩

/-- The result of `elf_load` is decided by the header of the image and by the
number of free pages. An image that is refused costs nothing. One that is loaded
costs a page for each page of its segments and those of its page table, and one
for which there are too few pages costs them all. -/
theorem elf_load_outcome (h : FreePages freeList m free) (hf : ∀ p ∈ free, Frame p)
    (htop : ∀ hdr ∈ segments img, hdr.vaddr + hdr.memsz ≤ 2 ^ 39) (r : ElfLoadRes) :
    ∃ s r', Converges (fun fuel => elfLoad freeList img fuel m r) (s, r', result img free.length) ∧
      r'.entry = entry img ∧
      if checkIdent img && supported img then FreePages freeList s.mem (free.drop (pageDemand img)) else s.mem = m := by
  by_cases hok : checkIdent img && supported img
  · obtain ⟨hid, hsup⟩ := Bool.and_eq_true_iff.mp hok
    simp only [if_pos hok, result_supported hid hsup]
    rcases elfLoad_counted hid hsup h hf htop r with ⟨s, n, tab, leaf, hrun, hle, hc⟩ | ⟨s, n, hrun, hlt, hpages⟩
    · rw [if_neg (Nat.not_lt.mpr hle)]
      exact ⟨s, ⟨entry img, n⟩, hrun, rfl, hc.pages⟩
    · rw [if_pos hlt, List.drop_eq_nil_of_le (Nat.le_of_lt hlt)]
      exact ⟨s, ⟨entry img, n⟩, hrun, rfl, hpages⟩
  · simp only [if_neg hok]
    exact ⟨⟨m, []⟩, ⟨entry img, r.pageTable⟩, elfLoad_refused hok m r free.length, rfl, rfl⟩

theorem tinyElf_demand : pageDemand tinyElf = 4 := by
  have hpieces : pieces (progHdrs tinyElf) = (segments tinyElf).flatMap fun hdr => piecesFrom hdr 0 := rfl
  rw [pageDemand, hpieces, tinyElf_segments]
  decide

/-- The small image takes four of the pages that the machine has. -/
theorem elf_load_outcome_tiny : ∃ m s r', FreePages 0x80300010 m (heapPages 0x80400000) ∧
    Converges (fun fuel => elfLoad 0x80300010 tinyElf fuel m ⟨0, 0⟩) (s, r', 0) ∧
    FreePages 0x80300010 s.mem ((heapPages 0x80400000).drop 4) := by
  obtain ⟨m, hfree⟩ := boot_pages
  obtain ⟨s, r', hrun, -, hpages⟩ := elf_load_outcome hfree (fun p hp => heap_frame boot_region (by decide) hp)
    tinyElf_loadable.top ⟨0, 0⟩
  have hok : checkIdent tinyElf && supported tinyElf := by decide
  obtain ⟨hid, hsup⟩ := Bool.and_eq_true_iff.mp hok
  rw [result_supported hid hsup, tinyElf_demand, length_heapPages, if_neg (by decide)] at hrun
  rw [if_pos hok, tinyElf_demand] at hpages
  exact ⟨m, s, r', hfree, hrun, hpages⟩

end Karg.ElfOutcome
