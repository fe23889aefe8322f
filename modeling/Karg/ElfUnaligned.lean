import Karg.ElfImage

namespace Karg.ElfUnaligned

open ByteMemory PageAlloc Vm TableTree PageTableMap Translation Elf ElfImage Execution

def extent (hdr : ProgHdr) : Nat := max hdr.filesz hdr.memsz

def ReadsImage (img m : Memory) (root : Nat) : Prop :=
  ∀ hdr ∈ segments img, ∀ i < extent hdr, ∃ a, walk m root (hdr.vaddr + i) = some a ∧ m.byte a = content img hdr i

def lastPiece (img : Memory) (virt : Nat) : Option Piece :=
  (pieces (progHdrs img)).reverse.find? fun b => b.virt / pageSize = virt / pageSize

/-- A segment may start anywhere in a page, at an offset of the file that lies as far
into a page. Two segments have no byte in common, though they may share a page. -/
structure Wellformed (img : Memory) : Prop where
  unaligned : ∃ hdr ∈ segments img, hdr.vaddr % pageSize ≠ 0
  congruent (hdr : ProgHdr) : hdr ∈ segments img → hdr.vaddr % pageSize = hdr.offset % pageSize
  disjoint : (segments img).Pairwise fun hdr hdr' =>
    Disjoint (place hdr.vaddr hdr.memsz) (place hdr'.vaddr hdr'.memsz)
  top (hdr : ProgHdr) : hdr ∈ segments img → hdr.vaddr + extent hdr ≤ 2 ^ 39

variable {freeList root : Nat} {img : Memory} {s : Space} {bs : List Backed} {free : List Nat}

/-- The byte at an address is that of the piece loaded last there, counted from the
start of its page. -/
theorem read_eq (h : Loaded freeList root img s bs free)
    (htop : ∀ hdr ∈ segments img, hdr.vaddr + hdr.memsz ≤ 2 ^ 39)
    (hbs : bs.map Backed.toPiece = (pieces (progHdrs img)).reverse) {v : Nat} (hv : v < 2 ^ 39) (x : UInt8) :
    (∃ a, walk s.mem root v = some a ∧ s.mem.byte a = x) ↔
      ∃ b, lastPiece img v = some b ∧ content img b.hdr (b.offset + v % pageSize) = x := by
  have hvirt : ∀ c ∈ bs.map Backed.call, c.virt < 2 ^ 39 := by
    rw [List.forall_mem_map]
    intro b hb
    apply piece_virt_lt htop
    rw [← List.mem_reverse, ← hbs]
    exact List.mem_map_of_mem hb
  have hlast : lastPiece img v = (bs.find? fun b => b.virt / pageSize = v / pageSize).map Backed.toPiece := by
    rw [lastPiece, ← hbs, List.find?_map]
    rfl
  rw [hlast, h.walk_eq hvirt hv]
  cases hf : bs.find? fun b => b.virt / pageSize = v / pageSize with
  | none => simp
  | some b =>
      have hc := h.content b (List.mem_of_find?_eq_some hf) (v % pageSize) (Nat.mod_lt _ (by decide))
      simp only [Option.map_some, Option.some.injEq, exists_eq_left']
      rw [hc]

/-- A load that returns zero makes the segments readable exactly when, for each of
their bytes, the page that was loaded last there has that byte at its place. -/
theorem elf_load_reads_iff (freeList : Nat) (img m : Memory) (free : List Nat) (s : Space) (r r' : ElfLoadRes)
    (hfree : FreePages freeList m free) (hframes : ∀ p ∈ free, Frame p) (hw : Wellformed img)
    (hrun : Converges (fun fuel => elfLoad freeList img fuel m r) (s, r', 0)) :
    ReadsImage img s.mem r'.pageTable ↔ ∀ hdr ∈ segments img, ∀ i < extent hdr, ∃ b,
      lastPiece img (hdr.vaddr + i) = some b ∧
      content img b.hdr (b.offset + (hdr.vaddr + i) % pageSize) = content img hdr i := by
  have htop : ∀ hdr ∈ segments img, hdr.vaddr + hdr.memsz ≤ 2 ^ 39 := fun hdr hmem =>
    Nat.le_trans (Nat.add_le_add_left (Nat.le_max_right ..) _) (hw.top hdr hmem)
  obtain ⟨bs, free', hbs, h⟩ := elfLoad_loaded hfree hframes htop hrun
  refine forall₂_congr fun hdr hmem => forall₂_congr fun i hi => ?_
  have hv := hw.top hdr hmem
  exact read_eq h htop hbs (by omega) _

section Example

def unalignedElf (filesz : UInt8) : Memory where
  byte i := [0x7F, 0x45, 0x4C, 0x46, 2, 1, 1, 0, 0, 0, 0, 0, 0, 0, 0, 0, 2, 0, 0xF3, 0, 1, 0, 0, 0,
    0x10, 0, 1, 0, 0, 0, 0, 0, 0x40, 0, 0, 0, 0, 0, 0, 0, 0, 0, 0, 0, 0, 0, 0, 0,
    0, 0, 0, 0, 0x40, 0, 0x38, 0, 1, 0, 0, 0, 0, 0, 0, 0, 1, 0, 0, 0, 5, 0, 0, 0,
    0x10, 0, 0, 0, 0, 0, 0, 0, 0x10, 0, 1, 0, 0, 0, 0, 0, 0x10, 0, 1, 0, 0, 0, 0, 0, filesz, 0, 0, 0, 0, 0, 0, 0,
    8, 0, 0, 0, 0, 0, 0, 0].getD i 0

theorem unaligned_segments : segments (unalignedElf 0) = [⟨ptLoad, 5, 0x10, 0x10010, 0, 8⟩] ∧
    segments (unalignedElf 4) = [⟨ptLoad, 5, 0x10, 0x10010, 4, 8⟩] := by decide

theorem unaligned_wellformed {n : Nat} (hn : n ≤ 8) (h : segments img = [⟨ptLoad, 5, 0x10, 0x10010, n, 8⟩]) :
    Wellformed img := by
  have hext : extent ⟨ptLoad, 5, 0x10, 0x10010, n, 8⟩ = 8 := Nat.max_eq_right hn
  have hoff : 0x10010 % pageSize ≠ 0 := by decide
  have hmod : 0x10010 % pageSize = 0x10 % pageSize := by decide
  have hend : 0x10010 + 8 ≤ 2 ^ 39 := by decide
  refine ⟨⟨_, by rw [h]; exact List.mem_cons_self, hoff⟩, ?_, ?_, ?_⟩
  · rw [h, List.forall_mem_singleton]
    exact hmod
  · rw [h]
    exact List.pairwise_singleton _ _
  · rw [h, List.forall_mem_singleton, hext]
    exact hend

theorem unaligned_pieces {n : Nat} (h : segments img = [⟨ptLoad, 5, 0x10, 0x10010, n, 8⟩]) :
    pieces (progHdrs img) = [⟨⟨ptLoad, 5, 0x10, 0x10010, n, 8⟩, 0⟩] := by
  have hone : (8 + (pageSize - 1)) / pageSize = 1 := by decide
  have hcount : pageCount ⟨ptLoad, 5, 0x10, 0x10010, n, 8⟩ = 1 := hone
  show (segments img).flatMap _ = _
  rw [h, List.flatMap_singleton, piecesFrom, hcount]
  rfl

theorem unaligned_last {n : Nat} (h : segments img = [⟨ptLoad, 5, 0x10, 0x10010, n, 8⟩]) {v : Nat}
    (hv : v / pageSize = 0x10) : lastPiece img v = some ⟨⟨ptLoad, 5, 0x10, 0x10010, n, 8⟩, 0⟩ := by
  have hpage : (0x10010 + 0) / pageSize = 0x10 := by decide
  rw [lastPiece, unaligned_pieces h, hv, List.reverse_singleton]
  exact List.find?_cons_of_pos (decide_eq_true hpage)

theorem unaligned_loads {n : Nat} (hid : checkIdent img) (hcompat : checkCompat img) (htype : load img 16 2 = 2)
    (h : segments img = [⟨ptLoad, 5, 0x10, 0x10010, n, 8⟩]) : ∃ m free s r', FreePages 0x80300010 m free ∧
      (∀ p ∈ free, Frame p) ∧ Converges (fun fuel => elfLoad 0x80300010 img fuel m ⟨0, 0⟩) (s, r', 0) := by
  obtain ⟨m, hpages⟩ := boot_pages
  have hframes := fun p hp => heap_frame boot_region (by decide) (p := p) hp
  rw [heapPages_cons] at hpages hframes
  have hend : 0x10010 + 8 ≤ 2 ^ 39 := by decide
  obtain ⟨s, res, hrun, ⟨rfl, -⟩ | ⟨-, hlt⟩⟩ := elfLoad_body img ⟨0, 0⟩ hid hcompat htype hpages hframes
    (by rw [h, List.forall_mem_singleton]; exact hend)
  · exact ⟨m, _, s, _, hpages, hframes, hrun⟩
  · rw [unaligned_pieces h, List.length_singleton, List.length_map, List.length_range] at hlt
    exact absurd hlt (by decide)

/-- A segment of zeros is read as such wherever it starts. -/
theorem elf_load_reads_iff_zeros : ∃ m s r', Converges (fun fuel => elfLoad 0x80300010 (unalignedElf 0) fuel m ⟨0, 0⟩)
    (s, r', 0) ∧ ReadsImage (unalignedElf 0) s.mem r'.pageTable := by
  have hseg := unaligned_segments.1
  obtain ⟨m, free, s, r', hfree, hframes, hrun⟩ := unaligned_loads (by decide) (by decide) (by decide) hseg
  refine ⟨m, s, r', hrun, (elf_load_reads_iff _ _ m free s _ r' hfree hframes
    (unaligned_wellformed (Nat.zero_le 8) hseg) hrun).mpr ?_⟩
  rw [hseg, List.forall_mem_singleton]
  intro i hi
  have hlt : i < 8 := hi
  refine ⟨_, unaligned_last hseg ?_, rfl⟩
  show (0x10010 + i) / 4096 = 0x10
  omega

/-- The first byte of the segment is 2 in the file. It is read as zero, which is what
the page holds sixteen bytes behind its start. -/
theorem unaligned_misread : Wellformed (unalignedElf 4) ∧
    content (unalignedElf 4) ⟨ptLoad, 5, 0x10, 0x10010, 4, 8⟩ 0 = 2 ∧
    ∃ m s r', Converges (fun fuel => elfLoad 0x80300010 (unalignedElf 4) fuel m ⟨0, 0⟩) (s, r', 0) ∧
      ∃ a, walk s.mem r'.pageTable 0x10010 = some a ∧ s.mem.byte a = 0 := by
  have hseg := unaligned_segments.2
  have hw := unaligned_wellformed (by decide) hseg
  have htop : ∀ hdr ∈ segments (unalignedElf 4), hdr.vaddr + hdr.memsz ≤ 2 ^ 39 := by
    rw [hseg, List.forall_mem_singleton]
    decide
  obtain ⟨m, free, s, r', hfree, hframes, hrun⟩ := unaligned_loads (by decide) (by decide) (by decide) hseg
  obtain ⟨bs, free', hbs, h⟩ := elfLoad_loaded hfree hframes htop hrun
  refine ⟨hw, by decide, m, s, r', hrun, (read_eq h htop hbs (by decide) 0).mpr ⟨_, unaligned_last hseg (by decide), ?_⟩⟩
  decide

end Example

end Karg.ElfUnaligned
