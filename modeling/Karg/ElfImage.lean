import Karg.Elf
import Karg.Translation

namespace Karg.ElfImage

open ByteMemory KernelMemory PageAlloc Vm TableTree VmRefinement PageTableMap Translation Elf Execution

structure Piece where
  hdr : ProgHdr
  offset : Nat

structure Backed extends Piece where
  page : Nat

def Piece.virt (b : Piece) : Nat := b.hdr.vaddr + b.offset

def Backed.call (b : Backed) : Call := ⟨b.virt, b.page, vmFlags b.hdr⟩

/-- The byte of a loaded segment at an offset: that of the file, or zero behind it. -/
def content (img : Memory) (hdr : ProgHdr) (i : Nat) : UInt8 := if i < hdr.filesz then img.byte (hdr.offset + i) else 0

def pageCount (hdr : ProgHdr) : Nat := (hdr.memsz + (pageSize - 1)) / pageSize

def piecesFrom (hdr : ProgHdr) (k : Nat) : List Piece :=
  (List.range' k (pageCount hdr - k)).map fun j => ⟨hdr, pageSize * j⟩

def pieces (hdrs : List ProgHdr) : List Piece :=
  (hdrs.filter fun hdr => hdr.type = ptLoad).flatMap fun hdr => piecesFrom hdr 0

structure Loaded (freeList root : Nat) (img : Memory) (s : Space) (bs : List Backed) (free : List Nat) : Prop where
  mapped : ∃ tab, Mapped freeList root s tab (leafOf (bs.map Backed.call)) free
  nodup : (bs.map (·.page)).Nodup
  unused (b : Backed) : b ∈ bs → Unused freeList s.tables free b.page
  content (b : Backed) : b ∈ bs → ∀ i < pageSize, s.mem.byte (b.page + i) = content img b.hdr (b.offset + i)

variable {freeList root n offset : Nat} {img m m' : Memory} {s s' : Space} {bs : List Backed} {free free' : List Nat}
  {hdr : ProgHdr} {hdrs : List ProgHdr} {t : Set Nat}

theorem fillPage_only (img : Memory) (hdr : ProgHdr) (m : Memory) (page offset : Nat) :
    Only (place page pageSize) m (fillPage img hdr m page offset) := by
  rw [fillPage]
  apply Only.trans (memSet_only m page 0 pageSize)
  split
  · apply (memCopyFrom_only _ page img (hdr.offset + offset) _).mono
    intro x hx
    rw [mem_place] at hx ⊢
    split at hx <;> omega
  · exact Only.refl _ _

theorem fillPage_content (m : Memory) (page : Nat) (hf : hdr.filesz < 2 ^ 64) {i : Nat} (hi : i < pageSize) :
    (fillPage img hdr m page offset).byte (page + i) = content img hdr (offset + i) := by
  have hset : (memSet m page 0 pageSize).byte (page + i) = 0 := by
    rw [memSet_byte, if_pos (by omega)]
  rw [fillPage, content]
  by_cases ho : offset < hdr.filesz
  · rw [if_pos ho, usizeSub_of_le (Nat.le_of_lt ho) hf, memCopyFrom_byte, hset]
    by_cases hfi : offset + i < hdr.filesz
    · rw [if_pos hfi, if_pos (by split <;> omega), Nat.add_sub_cancel_left, Nat.add_assoc]
    · rw [if_neg hfi, if_neg (by split <;> omega)]
  · rw [if_neg ho, if_neg (by omega), hset]

theorem Loaded.content_only (h : Loaded freeList root img s bs free) (hm : Only t s.mem m)
    (ht : ∀ b ∈ bs, Disjoint (place b.page pageSize) t) {b : Backed} (hb : b ∈ bs) {i : Nat} (hi : i < pageSize) :
    m.byte (b.page + i) = ElfImage.content img b.hdr (b.offset + i) := by
  rw [hm _ (Set.disjoint_left.mp (ht b hb) (mem_place.mpr (by omega)))]
  exact h.content b hb i hi

theorem page_loaded (hdr : ProgHdr) (offset : Nat) (h : Loaded freeList root img s bs (n :: free))
    (hv : hdr.vaddr + offset < 2 ^ 39)
    (hf : hdr.filesz < 2 ^ 64) : ∃ m₁ s' res free', pageAlloc freeList s.mem = (m₁, n) ∧ n ≠ nullptr ∧
      vmMapPage freeList ⟨fillPage img hdr m₁ n offset, s.tables⟩ root (hdr.vaddr + offset) n (vmFlags hdr) = (s', res) ∧
      (res = 0 ∧ free.length ≤ free'.length + 2 ∧ Loaded freeList root img s' (⟨⟨hdr, offset⟩, n⟩ :: bs) free' ∨
        res = -enomem ∧ free.length < 2) := by
  obtain ⟨tab, hm⟩ := h.mapped
  obtain ⟨m₁, hrun, hfree₁, honly₁⟩ := pageAlloc_cons hm.pages
  have hn := hm.frames n List.mem_cons_self
  have hnfree : n ∉ free := (List.nodup_cons.mp hm.pages.nodup).1
  have hfill := fillPage_only img hdr m₁ n offset
  have honly₂ : Only (nodes (freeList :: free) ∪ place n pageSize) s.mem (fillPage img hdr m₁ n offset) :=
    Only.trans (honly₁.mono Set.subset_union_left) (hfill.mono Set.subset_union_right)
  have hoff := hm.pages.off n List.mem_cons_self
  have hfree₂ := hfree₁.frame hfill (hfree₁.disjoint hn.toPage hoff hnfree).symm
  have hm₂ := hm.take hfree₂ honly₂
  obtain ⟨s', res, tab', free', hmap, hg, hcases⟩ := mapPage_refines hm₂ hv n (vmFlags hdr)
  refine ⟨m₁, s', res, free', hrun, Nat.ne_of_gt hn.pos, hmap, ?_⟩
  rcases hcases with ⟨hres, hlen, hm'⟩ | ⟨hres, hlt, -⟩
  · have hnew : ∀ b ∈ bs, b.page ≠ n := fun b hb he => (h.unused b hb).free (he ▸ List.mem_cons_self)
    have hn₂ : Unused freeList s.tables free n := ⟨hn, hm.fresh n List.mem_cons_self, hnfree, hoff⟩
    have hb₂ : ∀ b ∈ bs, Unused freeList s.tables free b.page := by
      intro b hb
      have hu := h.unused b hb
      exact ⟨hu.frame, hu.tables, fun hf => hu.free (List.mem_cons_of_mem n hf), hu.off⟩
    refine .inl ⟨hres, hlen, ⟨tab', hm'⟩, List.nodup_cons.mpr ⟨?_, h.nodup⟩, ?_, ?_⟩
    · intro hin
      obtain ⟨b, hb, he⟩ := List.mem_map.mp hin
      exact hnew b hb he
    · exact List.forall_mem_cons.mpr ⟨hg.unused hn₂, fun b hb => hg.unused (hb₂ b hb)⟩
    · have hkeep : ∀ p, Unused freeList s.tables free p → ∀ i < pageSize,
          s'.mem.byte (p + i) = (fillPage img hdr m₁ n offset).byte (p + i) := by
        intro p hp i hi
        exact hg.only _ (Set.disjoint_left.mp (hg.disjoint hm₂ hm' hp) (mem_place.mpr (by omega)))
      refine List.forall_mem_cons.mpr ⟨fun i hi => ?_, fun b hb i hi => ?_⟩
      · rw [hkeep n hn₂ i hi]
        exact fillPage_content m₁ n hf hi
      · rw [hkeep b.page (hb₂ b hb) i hi]
        apply h.content_only honly₂ (fun b hb => ?_) hb hi
        rw [Set.disjoint_union_right]
        exact ⟨hfree₁.disjoint (hb₂ b hb).frame.toPage (hb₂ b hb).off (hb₂ b hb).free,
          frame_disjoint (hb₂ b hb).frame hn (hnew b hb)⟩
  · exact .inr ⟨hres, hlt⟩

theorem piecesFrom_succ {k : Nat} (hk : k < pageCount hdr) :
    piecesFrom hdr k = ⟨hdr, pageSize * k⟩ :: piecesFrom hdr (k + 1) := by
  have hcount : pageCount hdr - k = pageCount hdr - (k + 1) + 1 := by omega
  rw [piecesFrom, hcount, List.range'_succ, List.map_cons]
  rfl

theorem lt_pageCount {k : Nat} : k < pageCount hdr ↔ pageSize * k < hdr.memsz := by
  rw [pageCount, pageSize]
  omega

theorem loadPages_loaded (htop : hdr.vaddr + hdr.memsz ≤ 2 ^ 39) (hf : hdr.filesz < 2 ^ 64) {j k : Nat}
    (hk : k + j = pageCount hdr) (h : Loaded freeList root img s bs free) :
    ∃ s' res, (∀ fuel, j < fuel → loadPages freeList img root hdr fuel s (pageSize * k) = some (s', res)) ∧
      (res = 0 ∧ (∃ bs' free', bs'.map Backed.toPiece = (piecesFrom hdr k).reverse ++ bs.map Backed.toPiece ∧
          free.length ≤ free'.length + 3 * j ∧ Loaded freeList root img s' bs' free') ∨
        res = -enomem ∧ free.length < 3 * j) := by
  induction j generalizing k s bs free with
  | zero =>
      have hend : ¬ pageSize * k < hdr.memsz := fun hlt => by
        have := lt_pageCount.mpr hlt
        omega
      refine ⟨s, 0, fun fuel hfuel => ?_, .inl ⟨rfl, bs, free, ?_, Nat.le_refl _, h⟩⟩
      · obtain ⟨fuel, rfl⟩ := Nat.exists_eq_succ_of_ne_zero (Nat.ne_zero_of_lt hfuel)
        rw [loadPages, if_neg hend]
      · have hk' : pageCount hdr - k = 0 := by omega
        rw [piecesFrom, hk']
        rfl
  | succ j ih =>
      have hlt : pageSize * k < hdr.memsz := lt_pageCount.mp (by omega)
      have hsucc : piecesFrom hdr k = ⟨hdr, pageSize * k⟩ :: piecesFrom hdr (k + 1) := piecesFrom_succ (by omega)
      have hvirt : usizeAdd hdr.vaddr (pageSize * k) = hdr.vaddr + pageSize * k := usizeAdd_of_lt (by omega)
      have hnext : usizeAdd (pageSize * k) pageSize = pageSize * (k + 1) := by
        rw [usizeAdd_of_lt, Nat.mul_succ]
        rw [pageSize] at hlt ⊢
        omega
      -- A round takes up to three pages: its own and two tables.
      cases free with
      | nil =>
          obtain ⟨tab, hm⟩ := h.mapped
          refine ⟨s, -enomem, fun fuel hfuel => ?_, .inr ⟨rfl, by simp⟩⟩
          obtain ⟨fuel, rfl⟩ := Nat.exists_eq_succ_of_ne_zero (Nat.ne_zero_of_lt hfuel)
          simp only [loadPages, hlt, if_true, pageAlloc_nil hm.pages]
      | cons n free =>
          obtain ⟨m₁, s₁, res, free₁, hrun, hne, hmap, ⟨rfl, hlen, h₁⟩ | ⟨rfl, hlen⟩⟩ :=
            page_loaded hdr (pageSize * k) h (by omega) hf
          · obtain ⟨s', res, hloop, hres⟩ := ih (k := k + 1) (by omega) h₁
            refine ⟨s', res, fun fuel hfuel => ?_, ?_⟩
            · obtain ⟨fuel, rfl⟩ := Nat.exists_eq_succ_of_ne_zero (Nat.ne_zero_of_lt hfuel)
              simp only [loadPages, hlt, if_true, hrun, hne, if_false, hvirt, hmap, Int.lt_irrefl, hnext]
              exact hloop fuel (Nat.lt_of_succ_lt_succ hfuel)
            · rw [List.length_cons]
              rcases hres with ⟨rfl, bs', free', hbs, hlen', hl⟩ | ⟨rfl, hlen'⟩
              · refine .inl ⟨rfl, bs', free', ?_, by omega, hl⟩
                rw [hbs, hsucc, List.reverse_cons, List.append_assoc]
                rfl
              · exact .inr ⟨rfl, by omega⟩
          · refine ⟨s₁, -enomem, fun fuel hfuel => ?_, .inr ⟨rfl, by rw [List.length_cons]; omega⟩⟩
            obtain ⟨fuel, rfl⟩ := Nat.exists_eq_succ_of_ne_zero (Nat.ne_zero_of_lt hfuel)
            have hneg : -enomem < 0 := by decide
            simp only [loadPages, hlt, if_true, hrun, hne, if_false, hvirt, hmap, hneg]

theorem pieces_cons (hdr : ProgHdr) (hdrs : List ProgHdr) :
    pieces (hdr :: hdrs) = if hdr.type = ptLoad then piecesFrom hdr 0 ++ pieces hdrs else pieces hdrs := by
  rw [pieces, List.filter_cons]
  split
  · next h => rw [if_pos (of_decide_eq_true h), List.flatMap_cons, pieces]
  · next h => rw [if_neg (fun he => h (decide_eq_true he)), pieces]

theorem length_piecesFrom (hdr : ProgHdr) : (piecesFrom hdr 0).length = pageCount hdr := by simp [piecesFrom]

theorem loadSegments_loaded
    (hs : ∀ hdr ∈ hdrs, hdr.type = ptLoad → hdr.vaddr + hdr.memsz ≤ 2 ^ 39 ∧ hdr.filesz < 2 ^ 64)
    (h : Loaded freeList root img s bs free) :
    ∃ s' res, Converges (fun fuel => loadSegments freeList img root fuel s hdrs) (s', res) ∧
      (res = 0 ∧ (∃ bs' free', bs'.map Backed.toPiece = (pieces hdrs).reverse ++ bs.map Backed.toPiece ∧
          Loaded freeList root img s' bs' free') ∨
        res = -enomem ∧ free.length < 3 * (pieces hdrs).length) := by
  induction hdrs generalizing s bs free with
  | nil => exact ⟨s, 0, .of_forall fun _ => rfl, .inl ⟨rfl, bs, free, rfl, h⟩⟩
  | cons hdr hdrs ih =>
      obtain ⟨hhdr, hs⟩ := List.forall_mem_cons.mp hs
      rw [pieces_cons]
      by_cases hl : hdr.type = ptLoad
      · obtain ⟨htop, hfile⟩ := hhdr hl
        obtain ⟨s₁, res, hrun, hres⟩ := loadPages_loaded htop hfile (Nat.zero_add _) h
        have hlen := length_piecesFrom hdr
        rw [if_pos hl, List.length_append, hlen]
        rcases hres with ⟨rfl, bs₁, free₁, hbs₁, hlen₁, h₁⟩ | ⟨rfl, hlt⟩
        · obtain ⟨s', res, ⟨N, hN⟩, hres⟩ := ih hs h₁
          refine ⟨s', res, ⟨max N (pageCount hdr + 1), fun fuel hfuel => ?_⟩, ?_⟩
          · have hone := hrun fuel (by omega)
            rw [Nat.mul_zero] at hone
            simp only [loadSegments, hl, ne_eq, not_true, if_false, hone, Option.bind_eq_bind, Option.bind_some,
              Int.lt_irrefl]
            exact hN fuel (by omega)
          · rcases hres with ⟨rfl, bs', free', hbs', h'⟩ | ⟨rfl, hlt⟩
            · refine .inl ⟨rfl, bs', free', ?_, h'⟩
              rw [hbs', hbs₁, List.reverse_append, List.append_assoc]
            · exact .inr ⟨rfl, by omega⟩
        · refine ⟨s₁, -enomem, ⟨pageCount hdr + 1, fun fuel hfuel => ?_⟩, .inr ⟨rfl, by omega⟩⟩
          have hone := hrun fuel (by omega)
          rw [Nat.mul_zero] at hone
          have hneg : -enomem < 0 := by decide
          simp only [loadSegments, hl, ne_eq, not_true, if_false, hone, Option.bind_eq_bind, Option.bind_some, hneg,
            if_true]
      · rw [if_neg hl]
        obtain ⟨s', res, ⟨N, hN⟩, hres⟩ := ih hs h
        refine ⟨s', res, ⟨N, fun fuel hfuel => ?_⟩, hres⟩
        simp only [loadSegments, hl, ne_eq, not_false_eq_true, if_true]
        exact hN fuel hfuel

def segments (img : Memory) : List ProgHdr := (progHdrs img).filter fun hdr => hdr.type = ptLoad

def Touches (hdr : ProgHdr) (virt : Nat) : Prop := ∃ i < hdr.memsz, (hdr.vaddr + i) / pageSize = virt / pageSize

/-- What is asked of an image of this size. -/
structure Loadable (img : Memory) (size : Nat) : Prop where
  aligned (hdr : ProgHdr) : hdr ∈ segments img → hdr.vaddr % pageSize = 0
  top (hdr : ProgHdr) : hdr ∈ segments img → hdr.vaddr + hdr.memsz ≤ 2 ^ 39
  filesz (hdr : ProgHdr) : hdr ∈ segments img → hdr.filesz ≤ hdr.memsz
  inside (hdr : ProgHdr) : hdr ∈ segments img → hdr.offset + hdr.filesz ≤ size
  disjoint : (segments img).Pairwise fun hdr hdr' => ∀ virt, ¬ (Touches hdr virt ∧ Touches hdr' virt)

variable {size : Nat} {r r' : ElfLoadRes}

theorem mem_pieces {b : Piece} : b ∈ pieces (progHdrs img) ↔
    b.hdr ∈ segments img ∧ ∃ k < pageCount b.hdr, b.offset = pageSize * k := by
  rw [pieces, List.mem_flatMap]
  constructor
  · rintro ⟨hdr, hdr_mem, hb⟩
    obtain ⟨k, hk, rfl⟩ := List.mem_map.mp hb
    exact ⟨hdr_mem, k, by simpa using hk, rfl⟩
  · rintro ⟨hmem, k, hk, ho⟩
    refine ⟨b.hdr, hmem, List.mem_map.mpr ⟨k, by simpa using hk, ?_⟩⟩
    rw [← ho]

theorem piece_touches {b : Piece} (hb : b ∈ pieces (progHdrs img)) : Touches b.hdr b.virt := by
  obtain ⟨-, k, hk, ho⟩ := mem_pieces.mp hb
  exact ⟨b.offset, by rw [ho]; exact lt_pageCount.mp hk, rfl⟩

theorem piece_virt_lt (htop : ∀ hdr ∈ segments img, hdr.vaddr + hdr.memsz ≤ 2 ^ 39) {b : Piece}
    (hb : b ∈ pieces (progHdrs img)) : b.virt < 2 ^ 39 := by
  obtain ⟨hmem, k, hk, ho⟩ := mem_pieces.mp hb
  have htop := htop b.hdr hmem
  have hlt := lt_pageCount.mp hk
  rw [Piece.virt, ho]
  omega

theorem pieces_apart (hl : Loadable img size) :
    (pieces (progHdrs img)).Pairwise fun b c => b.virt / pageSize ≠ c.virt / pageSize := by
  rw [pieces, List.pairwise_flatMap]
  constructor
  · intro hdr hmem
    have ha := hl.aligned hdr hmem
    rw [piecesFrom, List.pairwise_map]
    refine List.Pairwise.imp ?_ (List.pairwise_lt_range' ..)
    intro i j hij
    simp only [Piece.virt, pageSize] at ha ⊢
    omega
  · refine hl.disjoint.imp_of_mem ?_
    intro hdr hdr' hmem hmem' hd b hb c hc he
    obtain ⟨k, hk, rfl⟩ := List.mem_map.mp hb
    obtain ⟨k', hk', rfl⟩ := List.mem_map.mp hc
    have htb : Touches hdr (hdr.vaddr + pageSize * k) := ⟨pageSize * k, lt_pageCount.mp (by simpa using hk), rfl⟩
    have htc : Touches hdr' (hdr'.vaddr + pageSize * k') := ⟨pageSize * k', lt_pageCount.mp (by simpa using hk'), rfl⟩
    obtain ⟨i, hi, hti⟩ := htc
    exact hd _ ⟨htb, i, hi, hti.trans he.symm⟩

theorem filesz_lt (h : hdr ∈ progHdrs img) : hdr.filesz < 2 ^ 64 := by
  obtain ⟨i, -, rfl⟩ := List.mem_map.mp h
  exact load_lt img _ 8

theorem elfLoad_body (img : Memory) (r : ElfLoadRes) (hid : checkIdent img) (hcompat : checkCompat img)
    (htype : load img 16 2 = 2)
    (hfree : FreePages freeList m (n :: free)) (hframes : ∀ p ∈ n :: free, Frame p)
    (htop : ∀ hdr ∈ segments img, hdr.vaddr + hdr.memsz ≤ 2 ^ 39) :
    ∃ s res, Converges (fun fuel => elfLoad freeList img fuel m r) (s, ⟨entry img, n⟩, res) ∧
      (res = 0 ∧ (∃ bs free', bs.map Backed.toPiece = (pieces (progHdrs img)).reverse ∧
          Loaded freeList n img s bs free') ∨
        res = -enomem ∧ free.length < 3 * (pieces (progHdrs img)).length) := by
  obtain ⟨m', hrun, hm, -⟩ := create_mapped hfree hframes
  have hne : n ≠ nullptr := Nat.ne_of_gt (hframes n List.mem_cons_self).pos
  have hstart : Loaded freeList n img ⟨m', [n]⟩ [] free := by
    refine ⟨⟨_, hm⟩, List.nodup_nil, ?_, ?_⟩
    · simp
    · simp
  have hhdrs : ∀ hdr ∈ progHdrs img, hdr.type = ptLoad →
      hdr.vaddr + hdr.memsz ≤ 2 ^ 39 ∧ hdr.filesz < 2 ^ 64 := fun hdr hmem hload =>
    ⟨htop hdr (List.mem_filter.mpr ⟨hmem, decide_eq_true hload⟩), filesz_lt hmem⟩
  obtain ⟨s, res, ⟨N, hN⟩, hres⟩ := loadSegments_loaded hhdrs hstart
  refine ⟨s, res, ⟨N, fun fuel hfuel => ?_⟩, ?_⟩
  · simp only [elfLoad, hid, hcompat, htype, hrun, hne, hN fuel hfuel, Bool.not_true, Bool.false_eq_true, if_false,
      ne_eq, not_true, decide_false, Bool.or_false, Option.bind_eq_bind, Option.bind_some]
  · rcases hres with ⟨rfl, bs, free', hbs, hloaded⟩ | hres
    · rw [List.map_nil, List.append_nil] at hbs
      exact .inl ⟨rfl, bs, free', hbs, hloaded⟩
    · exact .inr hres

/-- A load that returns zero has made a table for all pieces. -/
theorem elfLoad_loaded (hfree : FreePages freeList m free) (hframes : ∀ p ∈ free, Frame p)
    (htop : ∀ hdr ∈ segments img, hdr.vaddr + hdr.memsz ≤ 2 ^ 39)
    (hrun : Converges (fun fuel => elfLoad freeList img fuel m r) (s, r', 0)) :
    ∃ bs free', bs.map Backed.toPiece = (pieces (progHdrs img)).reverse ∧
      Loaded freeList r'.pageTable img s bs free' := by
  obtain ⟨N, hN⟩ := hrun
  have hone := hN N (Nat.le_refl N)
  by_cases hid : checkIdent img
  · by_cases hcompat : checkCompat img ∧ load img 16 2 = 2
    · cases free with
      | nil =>
          simp only [elfLoad, hid, hcompat, createPageTable_null (s := ⟨m, []⟩) hfree, Bool.not_true, Bool.false_eq_true,
            if_false, if_true, ne_eq, not_true, decide_false, Bool.or_false, Option.some.injEq, Prod.mk.injEq] at hone
          exact absurd hone.2.2 (by decide)
      | cons n free =>
          obtain ⟨s₁, res, hconv, hres⟩ := elfLoad_body img r hid hcompat.1 hcompat.2 hfree hframes htop
          have heq := Converges.unique ⟨N, hN⟩ hconv
          simp only [Prod.mk.injEq] at heq
          obtain ⟨rfl, rfl, rfl⟩ := heq
          rcases hres with ⟨-, hloaded⟩ | ⟨hres, -⟩
          · exact hloaded
          · exact absurd hres (by decide)
    · have hbad : (!checkCompat img || decide (load img 16 2 ≠ 2)) = true := by
        rw [not_and_or] at hcompat
        simpa using hcompat
      simp only [elfLoad, hid, hbad, Bool.not_true, Bool.false_eq_true, if_false, if_true, Option.some.injEq,
        Prod.mk.injEq] at hone
      exact absurd hone.2.2 (by decide)
  · simp only [elfLoad, hid, Bool.not_false, if_true, Option.some.injEq, Prod.mk.injEq] at hone
    exact absurd hone.2.2 (by decide)

theorem pieces_backed (hl : Loadable img size)
    (hbs : bs.map Backed.toPiece = (pieces (progHdrs img)).reverse) :
    (∀ b ∈ bs, b.toPiece ∈ pieces (progHdrs img)) ∧ (∀ b ∈ pieces (progHdrs img), ∃ c ∈ bs, c.toPiece = b) ∧
      (∀ c ∈ bs.map Backed.call, c.virt < 2 ^ 39) ∧
      (bs.map Backed.call).Pairwise fun c d => c.virt / pageSize ≠ d.virt / pageSize := by
  have hmem : ∀ b ∈ bs, b.toPiece ∈ pieces (progHdrs img) := by
    intro b hb
    rw [← List.mem_reverse, ← hbs]
    exact List.mem_map_of_mem hb
  refine ⟨hmem, fun b hb => ?_, ?_, ?_⟩
  · rw [← List.mem_reverse, ← hbs] at hb
    exact List.mem_map.mp hb
  · rw [List.forall_mem_map]
    exact fun b hb => piece_virt_lt hl.top (hmem b hb)
  · have hp := pieces_apart hl
    rw [← List.pairwise_reverse, ← hbs, List.pairwise_map] at hp
    rw [List.pairwise_map]
    exact hp.imp Ne.symm

theorem segment_loaded (h : Loaded freeList root img s bs free) (hl : Loadable img size)
    (hbs : bs.map Backed.toPiece = (pieces (progHdrs img)).reverse) (hmem : hdr ∈ segments img) {i : Nat}
    (hi : i < pageSize * pageCount hdr) : ∃ a, walk s.mem root (hdr.vaddr + i) = some a ∧
      s.mem.byte a = content img hdr i ∧ leafFlags s.mem root (hdr.vaddr + i) = some (pteFlags (vmFlags hdr)) := by
  obtain ⟨-, hof, hvirt, hapart⟩ := pieces_backed hl hbs
  obtain ⟨tab, hm⟩ := h.mapped
  have ha := hl.aligned hdr hmem
  have htop := hl.top hdr hmem
  have hk : i / pageSize < pageCount hdr := Nat.div_lt_of_lt_mul hi
  obtain ⟨b, hb, hpiece⟩ := hof ⟨hdr, pageSize * (i / pageSize)⟩ (mem_pieces.mpr ⟨hmem, _, hk, rfl⟩)
  have hbv : b.virt = hdr.vaddr + pageSize * (i / pageSize) := by rw [hpiece]; rfl
  have hv : hdr.vaddr + i < 2 ^ 39 := by
    rw [pageCount, pageSize] at hi
    rw [pageSize] at ha
    omega
  have hcall : b.call ∈ bs.map Backed.call := List.mem_map_of_mem hb
  have hpath : path (hdr.vaddr + i) = path b.call.virt := by
    refine (path_eq_iff hv (hvirt _ hcall)).mpr ?_
    show _ = b.virt / pageSize
    rw [hbv]
    rw [pageSize] at ha ⊢
    omega
  have hframe := (h.unused b hb).frame
  have hleaf : leafOf (bs.map Backed.call) (path (hdr.vaddr + i)) =
      ⟨pteFlags (vmFlags hdr), b.page / pageSize % 2 ^ 44⟩ := by
    rw [hpath, leafOf_mem hvirt hapart hcall]
    show Pte.mk (pteFlags (vmFlags b.hdr)) _ = _
    rw [hpiece]
    rfl
  have hvalid : pteFlags (vmFlags hdr) &&& pteFlagV ≠ 0 := by
    rw [← UInt8.zero_or (a := pteFlags (vmFlags hdr))]
    exact or_pteFlags_valid 0 _
  refine ⟨b.page + i % pageSize, ?_, ?_, ?_⟩
  · rw [hm.tree.walk hv, hleaf, target, if_neg hvalid, page_of_aligned hframe.aligned hframe.lt_phys]
    rw [pageSize] at ha ⊢
    congr 2
    omega
  · have hc := h.content b hb (i % pageSize) (Nat.mod_lt _ (by decide))
    rw [hpiece] at hc
    rw [hc, Nat.div_add_mod]
  · rw [tree_leafFlags hm.tree hv, hleaf]
    rw [hleaf]
    intro he
    have hzero : pteFlags (vmFlags hdr) = 0 := congrArg Pte.flags he
    exact hvalid (by rw [hzero]; rfl)

theorem vmFlags_bits (hdr : ProgHdr) : pteFlags (vmFlags hdr) &&& pteFlagU ≠ 0 ∧
    (pteFlags (vmFlags hdr) &&& pteFlagR ≠ 0 ↔ hdr.flags &&& pfR ≠ 0) ∧
    (pteFlags (vmFlags hdr) &&& pteFlagW ≠ 0 ↔ hdr.flags &&& pfW ≠ 0) ∧
    (pteFlags (vmFlags hdr) &&& pteFlagX ≠ 0 ↔ hdr.flags &&& pfX ≠ 0) := by
  by_cases hx : hdr.flags &&& pfX = 0 <;> by_cases hw : hdr.flags &&& pfW = 0 <;>
    by_cases hr : hdr.flags &&& pfR = 0 <;>
    simp only [vmFlags, hx, hw, hr, ne_eq, not_true, not_false_eq_true, if_true, if_false] <;> decide

/-- The walk finds the piece that has been loaded last at a virtual page. -/
theorem Loaded.walk_eq (h : Loaded freeList root img s bs free)
    (hvirt : ∀ c ∈ bs.map Backed.call, c.virt < 2 ^ 39) {v : Nat}
    (hv : v < 2 ^ 39) : walk s.mem root v =
      (bs.find? fun b => b.virt / pageSize = v / pageSize).map fun b => b.page + v % pageSize := by
  obtain ⟨tab, hm⟩ := h.mapped
  have hphys : ∀ c ∈ bs.map Backed.call, c.phys % pageSize = 0 ∧ c.phys < 2 ^ 56 := by
    rw [List.forall_mem_map]
    exact fun b hb => ⟨(h.unused b hb).frame.aligned, (h.unused b hb).frame.lt_phys⟩
  rw [hm.tree.walk hv, target_leafOf hvirt hphys hv, PageTableMap.translate, lastCall, List.find?_map, Option.map_map]
  rfl

/-- A page that is mapped is one that has been loaded. -/
theorem walk_loaded (h : Loaded freeList root img s bs free) (hl : Loadable img size)
    (hbs : bs.map Backed.toPiece = (pieces (progHdrs img)).reverse) {v a : Nat} (hv : v < 2 ^ 39)
    (ha : walk s.mem root v = some a) :
    ∃ b ∈ bs, b.virt / pageSize = v / pageSize ∧ a / pageSize * pageSize = b.page := by
  obtain ⟨-, -, hvirt, -⟩ := pieces_backed hl hbs
  rw [h.walk_eq hvirt hv, Option.map_eq_some_iff] at ha
  obtain ⟨b, hfind, rfl⟩ := ha
  have hb := List.mem_of_find?_eq_some hfind
  have hvb := List.find?_some hfind
  refine ⟨b, hb, of_decide_eq_true hvb, ?_⟩
  have hal := (h.unused b hb).frame.aligned
  show (b.page + v % pageSize) / pageSize * pageSize = b.page
  rw [pageSize] at hal ⊢
  omega

/-- A load that returns zero realises the image: each segment has its bytes of
the file and then zeros up to the end of its last page, with the flags of its
header, no two virtual pages share a page, and nothing else is mapped. -/
theorem elf_load_image (hfree : FreePages freeList m free) (hframes : ∀ p ∈ free, Frame p) (hl : Loadable img size)
    (hrun : Converges (fun fuel => elfLoad freeList img fuel m r) (s, r', 0)) :
    (∀ hdr ∈ segments img, ∀ i < pageSize * pageCount hdr, ∃ a f, walk s.mem r'.pageTable (hdr.vaddr + i) = some a ∧
      s.mem.byte a = (if i < hdr.filesz then img.byte (hdr.offset + i) else 0) ∧
      leafFlags s.mem r'.pageTable (hdr.vaddr + i) = some f ∧ f &&& pteFlagU ≠ 0 ∧
      (f &&& pteFlagR ≠ 0 ↔ hdr.flags &&& pfR ≠ 0) ∧ (f &&& pteFlagW ≠ 0 ↔ hdr.flags &&& pfW ≠ 0) ∧
      (f &&& pteFlagX ≠ 0 ↔ hdr.flags &&& pfX ≠ 0)) ∧
    (∀ v < 2 ^ 39, ∀ w < 2 ^ 39, ∀ a b, walk s.mem r'.pageTable v = some a → walk s.mem r'.pageTable w = some b →
      v / pageSize ≠ w / pageSize → a / pageSize ≠ b / pageSize) ∧
    ∀ v < 2 ^ 39, (∀ hdr ∈ segments img, ¬ Touches hdr v) → walk s.mem r'.pageTable v = none := by
  obtain ⟨bs, free', hbs, h⟩ := elfLoad_loaded hfree hframes hl.top hrun
  refine ⟨fun hdr hmem i hi => ?_, fun v hv w hw a b ha hb hne hab => ?_, fun v hv hno => ?_⟩
  · obtain ⟨a, hwalk, hbyte, hflags⟩ := segment_loaded h hl hbs hmem hi
    exact ⟨a, _, hwalk, hbyte, hflags, vmFlags_bits hdr⟩
  · obtain ⟨c, hc, hcv, hca⟩ := walk_loaded h hl hbs hv ha
    obtain ⟨d, hd, hdw, hdb⟩ := walk_loaded h hl hbs hw hb
    have hpage : c.page = d.page := by rw [← hca, ← hdb, hab]
    have hcd : c = d := List.inj_on_of_nodup_map h.nodup hc hd hpage
    rw [hcd, hdw] at hcv
    exact hne hcv.symm
  · cases hw : walk s.mem r'.pageTable v with
    | none => rfl
    | some a =>
        obtain ⟨b, hb, hbv, -⟩ := walk_loaded h hl hbs hv hw
        have hpiece := (pieces_backed hl hbs).1 b hb
        obtain ⟨i, hi, he⟩ := piece_touches hpiece
        exact absurd ⟨i, hi, he.trans hbv⟩ (hno _ (mem_pieces.mp hpiece).1)

section Example

def tinyElf : Memory where
  byte i := [0x7F, 0x45, 0x4C, 0x46, 2, 1, 1, 0, 0, 0, 0, 0, 0, 0, 0, 0, 2, 0, 0xF3, 0, 1, 0, 0, 0,
    0, 0, 1, 0, 0, 0, 0, 0, 0x40, 0, 0, 0, 0, 0, 0, 0, 0, 0, 0, 0, 0, 0, 0, 0,
    0, 0, 0, 0, 0x40, 0, 0x38, 0, 1, 0, 0, 0, 0, 0, 0, 0, 1, 0, 0, 0, 5, 0, 0, 0,
    0, 0, 0, 0, 0, 0, 0, 0, 0, 0, 1, 0, 0, 0, 0, 0, 0, 0, 1, 0, 0, 0, 0, 0, 4, 0, 0, 0, 0, 0, 0, 0,
    8, 0, 0, 0, 0, 0, 0, 0].getD i 0

theorem tinyElf_segments : segments tinyElf = [⟨ptLoad, 5, 0, 0x10000, 4, 8⟩] := by decide

theorem tinyElf_loadable : Loadable tinyElf 112 := by
  have hall : ∀ {P : ProgHdr → Prop}, P ⟨ptLoad, 5, 0, 0x10000, 4, 8⟩ → ∀ hdr ∈ segments tinyElf, P hdr := by
    intro P hp hdr h
    rw [tinyElf_segments, List.mem_singleton] at h
    rwa [h]
  refine ⟨hall (by decide), hall (by decide), hall (by decide), hall (by decide), ?_⟩
  rw [tinyElf_segments]
  exact List.pairwise_singleton _ _

/-- The image is loaded after boot: its first byte is that of the file, the fifth
one is zero. -/
theorem elf_load_image_tiny : ∃ m s r', Converges (fun fuel => elfLoad 0x80300010 tinyElf fuel m ⟨0, 0⟩) (s, r', 0) ∧
    (∃ a, walk s.mem r'.pageTable 0x10000 = some a ∧ s.mem.byte a = 0x7F) ∧
    (∃ a, walk s.mem r'.pageTable 0x10004 = some a ∧ s.mem.byte a = 0) ∧ walk s.mem r'.pageTable 0x20000 = none := by
  obtain ⟨m, hpages⟩ := boot_pages
  have hframes := fun p hp => heap_frame boot_region (by decide) (p := p) hp
  rw [heapPages_cons] at hpages hframes
  have hlen : (pieces (progHdrs tinyElf)).length = 1 := by decide
  obtain ⟨s, res, hrun, ⟨rfl, -⟩ | ⟨-, hlt⟩⟩ := elfLoad_body tinyElf ⟨0, 0⟩ (by decide) (by decide)
    (by decide) hpages hframes tinyElf_loadable.top
  · obtain ⟨hseg, -, hnone⟩ := elf_load_image hpages hframes tinyElf_loadable hrun
    rw [tinyElf_segments, List.forall_mem_singleton] at hseg
    obtain ⟨a, -, ha, hbyte, -⟩ := hseg 0 (by decide)
    obtain ⟨b, -, hb, hbyte', -⟩ := hseg 4 (by decide)
    refine ⟨m, s, _, hrun, ⟨a, ha, hbyte⟩, ⟨b, hb, hbyte'⟩, hnone 0x20000 (by decide) ?_⟩
    rw [tinyElf_segments, List.forall_mem_singleton]
    rintro ⟨i, hi, he⟩
    simp only [pageSize] at hi he
    omega
  · rw [hlen, List.length_map, List.length_range] at hlt
    exact absurd hlt (by decide)

end Example

end Karg.ElfImage
