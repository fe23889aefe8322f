import Karg.HeapTiling

namespace Karg.HeapSizes

open LinkStore CircularList ListNode ByteMemory KernelMemory PageAlloc Kalloc Tiling HeapModel HeapInvariant BlockHeaders
  KallocRefinement Execution HeapRuns HeapTiling

def Granted (sym : Symbols) (m : Memory) (ptr sz : Nat) : Prop :=
  ∃ bs b, BlockList sym m bs ∧ b ∈ bs ∧ b.allocated ∧ ptr = b.addr + headerSize ∧ sz + headerSize ≤ b.size

/-- What is asked for with its header is no more than a page, and it is there. -/
def KmallocSafe (sym : Symbols) (h : Heap) (sz : Nat) : Prop :=
  ∀ h' ptr, Converges (fun fuel => kmalloc sym fuel h sz) (h', ptr) → ptr ≠ nullptr →
    sz + headerSize ≤ pageSize ∧ Granted sym h'.mem ptr sz

/-- The same for the product, whose bytes are zero and the only ones to have been
cleared after `kmalloc`. -/
def KcallocSafe (sym : Symbols) (h : Heap) (sz n : Nat) : Prop :=
  ∀ h' ptr, Converges (fun fuel => kcalloc sym fuel h sz n) (h', ptr) → ptr ≠ nullptr →
    sz * n + headerSize ≤ pageSize ∧ Granted sym h'.mem ptr (sz * n) ∧
      ∃ h₁, Converges (fun fuel => kmalloc sym fuel h (usizeMul sz n)) (h₁, ptr) ∧
        ∀ x, h'.mem.byte x = if ptr ≤ x ∧ x < ptr + sz * n then 0 else h₁.mem.byte x

def Refused (sym : Symbols) (m : Memory) (sz : Nat) : Prop :=
  pageSize < sz ∨ (∃ bs, BlockList sym m bs ∧ ∀ b ∈ bs, usable sz b = false) ∧ (pageAlloc sym.freeList m).2 = nullptr

variable {sym : Symbols} {s : Run} {a : Model} {h' : Heap} {sz n ptr : Nat}

theorem refuses_iff (hs : Simulated sym s a) : Refuses a sz ↔ Refused sym s.heap.mem sz := by
  have hlist := blockList_of_simulated hs
  rw [Refuses, Refused, pageAlloc_null hs.represents.free]
  constructor
  · rintro (hl | ⟨hl, hf⟩)
    · exact .inl hl
    · exact .inr ⟨⟨_, hlist, hl⟩, hf⟩
  · rintro (hl | ⟨⟨bs, hbs, hl⟩, hf⟩)
    · exact .inl hl
    · obtain rfl := hbs.unique hlist
      exact .inr ⟨hl, hf⟩

theorem granted_of_live (hs : Simulated sym s a) (hl : s.live ptr = some sz) : Granted sym s.heap.mem ptr sz := by
  obtain ⟨b, hb, hba, hp, hsize⟩ := hs.owned.block ptr sz hl
  exact ⟨a.blocks, b, blockList_of_simulated hs, hb, hba, hp, by rwa [Nat.add_comm]⟩

theorem kmallocSafe_iff (hs : Simulated sym s a) (sz : Nat) : KmallocSafe sym s.heap sz ↔
    sz + headerSize < 2 ^ 64 ∨ Refused sym s.heap.mem (usizeAdd sz headerSize) := by
  obtain ⟨⟨h₁, p⟩, hc, -, hnull⟩ := kmalloc_total hs.represents hs.wellFormed sz
  rw [refuses_iff hs] at hnull
  constructor
  · intro hsafe
    by_contra hno
    rw [not_or] at hno
    have hle := (hsafe h₁ p hc fun hp => hno.2 (hnull.mp hp)).1
    rw [pageSize] at hle
    omega
  · intro hcond h' ptr hc' hp
    obtain ⟨rfl, rfl⟩ := Prod.mk.inj (hc.unique hc')
    rcases hcond with hlt | href
    · obtain ⟨h₂, p₂, a', hc₂, hs', hfresh⟩ := kmalloc_simulates hs hlt
      obtain ⟨rfl, rfl⟩ := Prod.mk.inj (hc.unique hc₂)
      exact ⟨kmalloc_fits_page hlt hc hp, granted_of_live hs' (hfresh hp).2⟩
    · exact absurd (hnull.mpr href) hp

theorem kcallocSafe_iff (hs : Simulated sym s a) (sz n : Nat) : KcallocSafe sym s.heap sz n ↔
    sz * n + headerSize < 2 ^ 64 ∨ Refused sym s.heap.mem (usizeAdd (usizeMul sz n) headerSize) := by
  obtain ⟨⟨h₁, p⟩, hc, -, hnull⟩ := kmalloc_total hs.represents hs.wellFormed (usizeMul sz n)
  rw [refuses_iff hs] at hnull
  have hcalloc := kcalloc_converges hc
  constructor
  · intro hsafe
    by_contra hno
    rw [not_or] at hno
    have hp : p ≠ nullptr := fun hp => hno.2 (hnull.mp hp)
    rw [if_neg hp] at hcalloc
    have hle := (hsafe _ p hcalloc hp).1
    rw [pageSize] at hle
    omega
  · intro hcond h' ptr hc' hp
    have hres := hcalloc.unique hc'
    by_cases hp₁ : p = nullptr
    · rw [if_pos hp₁] at hres
      exact absurd ((congrArg Prod.snd hres).symm.trans hp₁) hp
    rw [if_neg hp₁] at hres
    obtain ⟨rfl, rfl⟩ := Prod.mk.inj hres
    rcases hcond with hlt | href
    · have hmul : usizeMul sz n = sz * n := usizeMul_of_lt (by omega)
      obtain ⟨h₂, p₂, a', hc₂, hs', hfresh⟩ := kmalloc_simulates hs hlt
      rw [← hmul] at hc₂
      obtain ⟨rfl, rfl⟩ := Prod.mk.inj (hc.unique hc₂)
      rw [hmul] at hc hc' ⊢
      obtain ⟨h₃, hc₃, hs₃⟩ := kcalloc_follows (Nat.lt_of_le_of_lt (Nat.le_add_right _ _) hlt) hc hs'
      obtain ⟨rfl, -⟩ := Prod.mk.inj (hc'.unique hc₃)
      exact ⟨kmalloc_fits_page hlt hc hp, granted_of_live hs₃ (hfresh hp).2, h₁, hc, memSet_byte h₁.mem p 0 (sz * n)⟩
    · exact absurd (hnull.mpr href) hp₁

/-- `kmalloc` and `kcalloc` are safe for the sizes that do not wrap, and for those
that wrap only as long as they are refused. -/
theorem heap_sizes (h : Reached sym s) :
    (∀ sz, KmallocSafe sym s.heap sz ↔
      sz + headerSize < 2 ^ 64 ∨ Refused sym s.heap.mem (usizeAdd sz headerSize)) ∧
    ∀ sz n, KcallocSafe sym s.heap sz n ↔
      sz * n + headerSize < 2 ^ 64 ∨ Refused sym s.heap.mem (usizeAdd (usizeMul sz n) headerSize) := by
  obtain ⟨a, ha⟩ := reached_simulated h
  exact ⟨kmallocSafe_iff ha, kcallocSafe_iff ha⟩

theorem heap_sizes_boot : ∃ s, Reached ⟨0x80300000, 0x80300010⟩ s ∧
    KmallocSafe ⟨0x80300000, 0x80300010⟩ s.heap 100 ∧ KcallocSafe ⟨0x80300000, 0x80300010⟩ s.heap 100 2 := by
  obtain ⟨m, hstart, -⟩ := boot_start
  obtain ⟨hm, hc⟩ := heap_sizes (.start hstart)
  exact ⟨_, .start hstart, (hm 100).mpr (.inl (by decide)), (hc 100 2).mpr (.inl (by decide))⟩

/-- Any size that passes the check, wrapped or not, gets the first page after boot. -/
theorem kmalloc_boot {m : Memory} {heapStart : Nat}
    (hs : Simulated sym ⟨⟨m, []⟩, fun _ => none⟩ ⟨[], [], heapPages heapStart⟩)
    (hn : usizeAdd n headerSize ≤ pageSize) :
    ∃ h', Converges (fun fuel => kmalloc sym fuel ⟨m, []⟩ n) (h', heapStart + headerSize) := by
  have hf : (⟨[], [], heapPages heapStart⟩ : Model).free = heapStart :: (heapPages heapStart).tail := by
    rw [heapPages_cons, List.tail_cons]
  obtain ⟨m₁, hm₁, -⟩ := kmallocPage_refines hs.represents hs.wellFormed hf
  have hp := hs.represents.free.page heapStart (hf ▸ List.mem_cons_self)
  have hend : heapStart + headerSize < 2 ^ 64 := Nat.lt_trans (Nat.add_lt_add_left (by decide) heapStart) hp.end_lt
  refine ⟨⟨kmallocSplit m₁ heapStart (usizeAdd n headerSize), [] ++ [heapStart]⟩, 1, fun fuel hfuel => ?_⟩
  have hgrown := kmalloc_grown hs.represents hn rfl hm₁ (Nat.ne_of_gt hp.pos) hfuel
  rwa [kmallocTake, usizeAdd_of_lt hend] at hgrown

/-- After boot `kmalloc(2^64 - 32)` and `kcalloc(2^32, 2^32)` return a block of the first page. -/
theorem heap_sizes_wrapped : ∃ s h₁ h₂, Reached ⟨0x80300000, 0x80300010⟩ s ∧
    Converges (fun fuel => kmalloc ⟨0x80300000, 0x80300010⟩ fuel s.heap (2 ^ 64 - 32)) (h₁, 0x80400020) ∧
    Converges (fun fuel => kcalloc ⟨0x80300000, 0x80300010⟩ fuel s.heap (2 ^ 32) (2 ^ 32)) (h₂, 0x80400020) ∧
    ¬ KmallocSafe ⟨0x80300000, 0x80300010⟩ s.heap (2 ^ 64 - 32) ∧
    ¬ KcallocSafe ⟨0x80300000, 0x80300010⟩ s.heap (2 ^ 32) (2 ^ 32) := by
  obtain ⟨m, hstart, hs⟩ := boot_start
  obtain ⟨h₁, hc₁⟩ := kmalloc_boot hs (n := 2 ^ 64 - 32) (by decide)
  obtain ⟨h₂, hc₂⟩ := kmalloc_boot hs (n := usizeMul (2 ^ 32) (2 ^ 32)) (by decide)
  have hc₃ := kcalloc_converges hc₂
  rw [if_neg (by decide)] at hc₃
  refine ⟨_, h₁, _, .start hstart, hc₁, hc₃, fun hsafe => ?_, fun hsafe => ?_⟩
  · exact absurd (hsafe _ _ hc₁ (by decide)).1 (by decide)
  · exact absurd (hsafe _ _ hc₃ (by decide)).1 (by decide)

end Karg.HeapSizes
