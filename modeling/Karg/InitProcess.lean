import Karg.ElfOutcome
import Karg.PagePermissions
import Karg.StackPages

namespace Karg.InitProcess

open ByteMemory KernelMemory PageAlloc Vm TableTree VmRefinement PageTableMap Translation PagePermissions Elf ElfImage
  Execution Demand TableDemand ElfOutcome ProcStack AddressSpaces StackPages Process

def userPage (m : Memory) (root virt : Nat) : Option (Nat × UInt8) := do
  let a ← walk m root virt
  let f ← leafFlags m root virt
  if f &&& pteFlagU = 0 then none else some (a / pageSize * pageSize, f)

def stackCalls (l : Layout) (proc : ProcStack.Proc) : List Call :=
  [⟨proc.userStack, proc.userStack, vmFlagReadable ||| vmFlagWritable ||| vmFlagUser⟩,
    ⟨proc.kernStack, proc.kernStack, vmFlagReadable ||| vmFlagWritable⟩,
    ⟨l.trampoline, l.trampoline, vmFlagReadable ||| vmFlagExecutable⟩]

structure Placed (freeList root : Nat) (pool : List Nat) (s : Space) (bs : List Backed) (free : List Nat) : Prop where
  mapped : ∃ tab, Mapped freeList root s tab (leafOf (bs.map Backed.call)) free
  subset : free ⊆ pool
  pool (b : Backed) : b ∈ bs → b.page ∈ pool
  unused (b : Backed) : b ∈ bs → Unused freeList s.tables free b.page
  nodup : (bs.map (·.page)).Nodup

variable {freeList root n v : Nat} {img m : Memory} {s s' : Space} {bs : List Backed} {free pool : List Nat}
  {tab : List Nat → Option Nat} {leaf : List Nat → Pte} {b : Piece} {ps : List Piece} {calls : List Call} {c : Call}
  {l : Layout} {proc : ProcStack.Proc} {r r' : ElfLoadRes}

section Image

theorem loadPiece_placed (h : Placed freeList root pool s bs free) (img : Memory) (hv : b.virt < 2 ^ 39) :
    (∃ s' page free', loadPiece freeList img root s b = (s', 0) ∧
      Placed freeList root pool s' (⟨b, page⟩ :: bs) free') ∨
    ∃ s', loadPiece freeList img root s b = (s', -enomem) := by
  obtain ⟨tab, hm⟩ := h.mapped
  cases free with
  | nil =>
      refine .inr ⟨s, ?_⟩
      simp only [loadPiece, pageAlloc_nil hm.pages, if_true]
  | cons n free =>
      obtain ⟨m, halloc, hfree, honly⟩ := pageAlloc_cons hm.pages
      have hn := hm.frames n List.mem_cons_self
      have hoff := hm.pages.off n List.mem_cons_self
      have hnfree : n ∉ free := (List.nodup_cons.mp hm.pages.nodup).1
      have hfill := fillPage_only img b.hdr m n b.offset
      have honly' : Only (nodes (freeList :: free) ∪ place n pageSize) s.mem (fillPage img b.hdr m n b.offset) :=
        Only.trans (honly.mono Set.subset_union_left) (hfill.mono Set.subset_union_right)
      have hm' := hm.take (hfree.frame hfill (hfree.disjoint hn.toPage hoff hnfree).symm) honly'
      have hne : n ≠ nullptr := Nat.ne_of_gt hn.pos
      simp only [loadPiece, halloc, hne, if_false]
      obtain ⟨s₁, res, tab', free', hmap, hg, ⟨rfl, -, hmapped⟩ | ⟨rfl, -⟩⟩ := mapPage_refines hm' hv n (vmFlags b.hdr)
      · have hnew : ∀ d ∈ bs, d.page ≠ n := fun d hd he => (h.unused d hd).free (he ▸ List.mem_cons_self)
        refine .inl ⟨s₁, n, free', hmap, ⟨tab', hmapped⟩, ?_, ?_, ?_, ?_⟩
        · exact fun p hp => h.subset (List.mem_cons_of_mem n (hg.suffix.subset hp))
        · exact List.forall_mem_cons.mpr ⟨h.subset List.mem_cons_self, h.pool⟩
        · refine List.forall_mem_cons.mpr ⟨hg.unused ⟨hn, hm.fresh n List.mem_cons_self, hnfree, hoff⟩, fun d hd => ?_⟩
          have hu := h.unused d hd
          exact hg.unused ⟨hu.frame, hu.tables, fun hf => hu.free (List.mem_cons_of_mem n hf), hu.off⟩
        · refine List.nodup_cons.mpr ⟨fun hin => ?_, h.nodup⟩
          obtain ⟨d, hd, he⟩ := List.mem_map.mp hin
          exact hnew d hd he
      · exact .inr ⟨s₁, hmap⟩

theorem loadAll_placed (h : Placed freeList root pool s bs free) (img : Memory) (hv : ∀ b ∈ ps, b.virt < 2 ^ 39) :
    (∃ s' bs' free', loadAll freeList img root s ps = (s', 0) ∧
      bs'.map Backed.toPiece = ps.reverse ++ bs.map Backed.toPiece ∧ Placed freeList root pool s' bs' free') ∨
    ∃ s', loadAll freeList img root s ps = (s', -enomem) := by
  induction ps generalizing s bs free with
  | nil => exact .inl ⟨s, bs, free, rfl, rfl, h⟩
  | cons b ps ih =>
      rw [loadAll]
      rcases loadPiece_placed h img (hv b List.mem_cons_self) with ⟨s₁, page, free₁, hrun, h₁⟩ | ⟨s₁, hrun⟩
      · simp only [hrun, Int.lt_irrefl, if_false]
        rcases ih h₁ fun c hc => hv c (List.mem_cons_of_mem b hc) with ⟨s₂, bs₂, free₂, hrun₂, hbs, h₂⟩ | hrun₂
        · refine .inl ⟨s₂, bs₂, free₂, hrun₂, ?_, h₂⟩
          rw [hbs, List.reverse_cons, List.append_assoc]
          rfl
        · exact .inr hrun₂
      · have hneg : -enomem < 0 := by decide
        simp only [hrun, hneg, if_true]
        exact .inr ⟨s₁, rfl⟩

/-- A load that returns zero has put all pieces into pages that were free. -/
theorem elfLoad_placed (h : FreePages freeList m pool) (hf : ∀ p ∈ pool, Frame p)
    (htop : ∀ hdr ∈ segments img, hdr.vaddr + hdr.memsz ≤ 2 ^ 39)
    (hrun : Converges (fun fuel => elfLoad freeList img fuel m r) (s, r', 0)) :
    ∃ bs free, bs.map Backed.toPiece = (pieces (progHdrs img)).reverse ∧
      Placed freeList r'.pageTable pool s bs free := by
  by_cases hok : checkIdent img && supported img
  · obtain ⟨hid, hsup⟩ := Bool.and_eq_true_iff.mp hok
    have hneg : (0 : Int) ≠ -enomem := by decide
    cases pool with
    | nil =>
        have heq := hrun.unique (elfLoad_null hid hsup h r)
        exact absurd (congrArg (·.2.2) heq) hneg
    | cons n pool =>
        obtain ⟨m', hcreate, hm, -⟩ := create_mapped h hf
        have hne : n ≠ nullptr := Nat.ne_of_gt (hf n List.mem_cons_self).pos
        have heq := hrun.unique (elfLoad_eq hid hsup hcreate hne htop r)
        have hstart : Placed freeList n (n :: pool) ⟨m', [n]⟩ [] pool :=
          ⟨⟨_, hm⟩, List.subset_cons_self n pool, by simp, by simp, List.nodup_nil⟩
        rcases loadAll_placed hstart img fun b hb => piece_virt_lt htop hb with
          ⟨s₁, bs, free, hload, hbs, hplaced⟩ | ⟨s₁, hload⟩
        · rw [hload] at heq
          obtain ⟨rfl, heq⟩ := Prod.mk.inj heq
          obtain ⟨rfl, -⟩ := Prod.mk.inj heq
          rw [List.map_nil, List.append_nil] at hbs
          exact ⟨bs, free, hbs, hplaced⟩
        · rw [hload] at heq
          exact absurd (congrArg (·.2.2) heq) hneg
  · have heq := hrun.unique (elfLoad_refused hok m r 0)
    have hlt := result_refused hok 0
    exact absurd (congrArg (·.2.2) heq) (Int.ne_of_gt hlt)

end Image

section Entries

theorem tree_call (h : Tree m root tab (leafOf calls)) (hv : ∀ c ∈ calls, c.virt < 2 ^ 39)
    (hp : calls.Pairwise fun c d => c.virt / pageSize ≠ d.virt / pageSize) (hc : c ∈ calls) (hlt : v < 2 ^ 39)
    (hpage : c.virt / pageSize = v / pageSize) :
    walk m root v = some (c.phys / pageSize % 2 ^ 44 * pageSize + v % pageSize) ∧
      leafFlags m root v = some (pteFlags c.flags) := by
  have hpath : path c.virt = path v := (path_eq_iff (hv c hc) hlt).mpr hpage
  have hleaf : leafOf calls (path v) = ⟨pteFlags c.flags, c.phys / pageSize % 2 ^ 44⟩ := by
    rw [← hpath]
    exact leafOf_mem hv hp hc
  have hvalid : pteFlags c.flags &&& pteFlagV ≠ 0 := by
    have hor := or_pteFlags_valid 0 c.flags
    rwa [UInt8.zero_or] at hor
  constructor
  · rw [h.walk hlt, hleaf, target, if_neg hvalid]
  · rw [tree_leafFlags h hlt, hleaf]
    rw [hleaf]
    intro hno
    have hzero : pteFlags c.flags = 0 := congrArg Pte.flags hno
    rw [hzero] at hvalid
    exact hvalid rfl

theorem userPage_some_iff (h : Mapped freeList root s tab (leafOf calls) free) (hv : ∀ c ∈ calls, c.virt < 2 ^ 39)
    (hp : calls.Pairwise fun c d => c.virt / pageSize ≠ d.virt / pageSize) (hlt : v < 2 ^ 39) {page : Nat} {f : UInt8} :
    userPage s.mem root v = some (page, f) ↔ ∃ c ∈ calls, c.virt / pageSize = v / pageSize ∧
      c.flags &&& vmFlagUser ≠ 0 ∧ page = c.phys / pageSize % 2 ^ 44 * pageSize ∧ f = pteFlags c.flags := by
  have hbit : ∀ c : Call, pteFlags c.flags &&& pteFlagU ≠ 0 ↔ c.flags &&& vmFlagUser ≠ 0 :=
    fun c => pteFlags_bit c.flags (p := (vmFlagUser, pteFlagU)) (by decide)
  have hcall : ∀ c ∈ calls, c.virt / pageSize = v / pageSize → userPage s.mem root v =
      if pteFlags c.flags &&& pteFlagU = 0 then none
      else some (c.phys / pageSize % 2 ^ 44 * pageSize, pteFlags c.flags) := by
    intro c hc hpage
    obtain ⟨hw, hl⟩ := tree_call h.tree hv hp hc hlt hpage
    have hdiv : (c.phys / pageSize % 2 ^ 44 * pageSize + v % pageSize) / pageSize = c.phys / pageSize % 2 ^ 44 := by
      rw [pageSize]
      omega
    simp only [userPage, hw, hl, Option.bind_eq_bind, Option.bind_some, hdiv]
  constructor
  · intro hsome
    by_cases hex : ∃ c ∈ calls, c.virt / pageSize = v / pageSize
    · obtain ⟨c, hc, hpage⟩ := hex
      rw [hcall c hc hpage] at hsome
      split at hsome
      · cases hsome
      · next hu =>
          obtain ⟨rfl, rfl⟩ := Prod.mk.inj (Option.some.inj hsome)
          exact ⟨c, hc, hpage, (hbit c).mp hu, rfl, rfl⟩
    · have hnone : leafOf calls (path v) = noPte :=
        leafOf_none hlt fun c hc => ⟨hv c hc, fun he => hex ⟨c, hc, he.symm⟩⟩
      have hw : walk s.mem root v = none := by
        rw [h.tree.walk hlt, hnone]
        rfl
      rw [userPage, hw] at hsome
      cases hsome
  · rintro ⟨c, hc, hpage, hu, rfl, rfl⟩
    rw [hcall c hc hpage, if_neg ((hbit c).mpr hu)]

theorem userPage_kernel (h : Mapped freeList root s tab (leafOf calls) free) (hv : ∀ c ∈ calls, c.virt < 2 ^ 39)
    (hp : calls.Pairwise fun c d => c.virt / pageSize ≠ d.virt / pageSize) (hc : c ∈ calls) (hid : c.phys = c.virt)
    (hu : c.flags &&& vmFlagUser = 0) :
    walk s.mem root c.virt = some c.virt ∧ userPage s.mem root c.virt = none := by
  have hlt := hv c hc
  obtain ⟨hw, hl⟩ := tree_call h.tree hv hp hc hlt rfl
  have haddr : c.phys / pageSize % 2 ^ 44 * pageSize + c.virt % pageSize = c.virt := by
    rw [hid, pageSize]
    omega
  have hbit : pteFlags c.flags &&& pteFlagU = 0 := by
    by_contra hno
    exact (pteFlags_bit c.flags (p := (vmFlagUser, pteFlagU)) (by decide)).mp hno hu
  rw [haddr] at hw
  refine ⟨hw, ?_⟩
  simp only [userPage, hw, hl, Option.bind_eq_bind, Option.bind_some, hbit, if_true]

end Entries

section Stacks

theorem mapPages_mapped (h : Mapped freeList root s tab (leafOf calls) free) {cs : List Call}
    (hv : ∀ c ∈ cs, c.virt < 2 ^ 39) :
    (∃ s' tab' free', mapPages freeList root s cs = (s', 0) ∧
      Mapped freeList root s' tab' (leafOf (cs.reverse ++ calls)) free' ∧ Grown freeList s free s' free') ∨
    ∃ s', mapPages freeList root s cs = (s', -enomem) := by
  induction cs generalizing s tab free calls with
  | nil => exact .inl ⟨s, tab, free, rfl, h, .refl freeList s free⟩
  | cons c cs ih =>
      rw [mapPages]
      obtain ⟨s₁, res, tab₁, free₁, hrun, hg, ⟨rfl, -, h₁⟩ | ⟨rfl, -⟩⟩ :=
        mapPage_refines h (hv c List.mem_cons_self) c.phys c.flags
      · simp only [hrun, Int.lt_irrefl, if_false]
        have h₁' : Mapped freeList root s₁ tab₁ (leafOf (c :: calls)) free₁ := h₁
        rcases ih h₁' fun d hd => hv d (List.mem_cons_of_mem c hd) with ⟨s₂, tab₂, free₂, hrun₂, h₂, hg₂⟩ | hrun₂
        · refine .inl ⟨s₂, tab₂, free₂, hrun₂, ?_, hg.trans hg₂⟩
          rwa [List.reverse_cons, List.append_assoc]
        · exact .inr hrun₂
      · have hneg : -enomem < 0 := by decide
        simp only [hrun, hneg, if_true]
        exact .inr ⟨s₁, rfl⟩

theorem initStacks_inside {sstatus : BitVec 64} {fuel entry kernStack userStack : Nat} {m' : Memory} {res : Int}
    {proc' : ProcStack.Proc} (h : FreePages l.freeList m (kernStack :: userStack :: free))
    (hrun : initStacks l sstatus fuel m proc entry 0 nullptr = some (m', proc', res)) :
    Only (place kernStack pageSize ∪ place userStack pageSize) (taken l.freeList m) m' := by
  have hargs : StackArgs.ArgsAt m ∅ nullptr 0 [] := trivial
  obtain ⟨m₁, m₂, hspec, hfills, -⟩ := initStacks_spec sstatus proc entry h h hargs (fun _ _ => rfl) (Set.empty_disjoint _)
    (Set.empty_disjoint _) room_nil
  have hone := hspec fuel (fun a ha => absurd ha List.not_mem_nil) (m, m₁) List.mem_cons_self
  obtain rfl : m₁ = m' := congrArg Prod.fst (Option.some.inj (hone.symm.trans hrun))
  exact hfills.only.mono (filled_subset kernStack userStack room_nil)

theorem stackCalls_virt (ht : l.trampoline < 2 ^ 39) (hk : proc.kernStack < 2 ^ 39) (hu : proc.userStack < 2 ^ 39) :
    ∀ c ∈ stackCalls l proc, c.virt < 2 ^ 39 := by
  simp only [stackCalls, List.mem_cons, List.not_mem_nil, or_false]
  rintro c (rfl | rfl | rfl)
  · exact hu
  · exact hk
  · exact ht

theorem mapStacks_eq (l : Layout) (s : Space) (proc : ProcStack.Proc) :
    mapStacks l s proc = mapPages l.freeList proc.pageTable s (stackCalls l proc).reverse := rfl

end Stacks

/-- `elf_load` and `proc_init` for the init process, as `kmain` calls them. -/
def Created (l : Layout) (img : Memory) (s s' : Machine) (root : Nat) : Prop :=
  ∃ r₀ r space sstatus, Converges (fun fuel => elfLoad l.freeList img fuel s.space.mem r₀) (space, r, 0) ∧
    r.pageTable = root ∧
    Converges (fun fuel => AddressSpaces.procInit l sstatus fuel { s with space := space } .initProc r.entry 0 0 nullptr root)
      (s', 0)

variable {ms ms' : Machine}

theorem created_mapped (hc : Created l img ms ms' root) (h : FreePages l.freeList ms.space.mem pool)
    (hf : ∀ p ∈ pool, Frame p ∧ p < 2 ^ 39) (htop : ∀ hdr ∈ segments img, hdr.vaddr + hdr.memsz ≤ 2 ^ 39)
    (ht : l.trampoline < 2 ^ 39) : ∃ (bs : List Backed) (tab : List Nat → Option Nat) (free : List Nat),
      bs.map Backed.toPiece = (pieces (progHdrs img)).reverse ∧
      Mapped l.freeList root ms'.space tab (leafOf (stackCalls l (ms'.proc .initProc) ++ bs.map Backed.call)) free ∧
      (∀ p ∈ (ms'.proc .initProc).kernStack :: (ms'.proc .initProc).userStack :: bs.map (·.page),
        p ∈ pool ∧ Unused l.freeList ms'.space.tables free p) ∧
      ((ms'.proc .initProc).kernStack :: (ms'.proc .initProc).userStack :: bs.map (·.page)).Nodup := by
  obtain ⟨r₀, r, space, sstatus, hload, rfl, hproc⟩ := hc
  obtain ⟨bs, free, hbs, hplaced⟩ := elfLoad_placed h (fun p hp => (hf p hp).1) htop hload
  obtain ⟨tab, hm⟩ := hplaced.mapped
  obtain ⟨N, hN⟩ := hproc
  obtain ⟨m, res', hinit, hres, ⟨-, hmap⟩ | ⟨hk, -⟩⟩ := procInit_cases (hN N (Nat.le_refl N)) (by decide)
  · obtain ⟨hroot, rest, rfl⟩ := initStacks_pages hm.pages hinit hres
    have hinside := initStacks_inside hm.pages hinit
    obtain ⟨hm₁, huk, huu, hne⟩ := mapped_stacks hm hinside
    have hkmem := hplaced.subset List.mem_cons_self
    have humem := hplaced.subset (List.mem_cons_of_mem _ List.mem_cons_self)
    have hcalls := stackCalls_virt ht (hf _ hkmem).2 (hf _ humem).2
    rw [mapStacks_eq, hroot] at hmap
    rcases mapPages_mapped hm₁ (fun c hc => hcalls c (List.mem_reverse.mp hc)) with
      ⟨s', tab', free', hrun, hm', hg⟩ | ⟨s', hrun⟩
    · obtain rfl : s' = ms'.space := congrArg Prod.fst (hrun.symm.trans hmap)
      rw [List.reverse_reverse] at hm'
      have hold : ∀ b ∈ bs, Unused l.freeList space.tables rest b.page := by
        intro b hb
        have hu := hplaced.unused b hb
        exact ⟨hu.frame, hu.tables, fun hr => hu.free (List.mem_cons_of_mem _ (List.mem_cons_of_mem _ hr)), hu.off⟩
      refine ⟨bs, tab', free', hbs, hm', ?_, ?_⟩
      · rw [List.forall_mem_cons, List.forall_mem_cons, List.forall_mem_map]
        exact ⟨⟨hkmem, hg.unused huk⟩, ⟨humem, hg.unused huu⟩, fun b hb => ⟨hplaced.pool b hb, hg.unused (hold b hb)⟩⟩
      · have hout : ∀ p ∈ (ms'.proc .initProc).kernStack :: (ms'.proc .initProc).userStack :: rest,
            p ∉ bs.map (·.page) := by
          intro p hp hin
          obtain ⟨b, hb, rfl⟩ := List.mem_map.mp hin
          exact (hplaced.unused b hb).free hp
        refine List.nodup_cons.mpr ⟨?_, List.nodup_cons.mpr ⟨?_, hplaced.nodup⟩⟩
        · rw [List.mem_cons, not_or]
          exact ⟨hne, hout _ List.mem_cons_self⟩
        · exact hout _ (List.mem_cons_of_mem _ List.mem_cons_self)
    · have hbad : (0 : Int) = -enomem := congrArg Prod.snd (hmap.symm.trans hrun)
      exact absurd hbad (by decide)
  · exact absurd rfl hk

structure Isolated (l : Layout) (img : Memory) (pool : List Nat) (s : Machine) (root : Nat) (free : List Nat) : Prop where
  pages : FreePages l.freeList s.space.mem free
  reach {v : Nat} : v < 2 ^ 39 → ((∃ e, userPage s.space.mem root v = some e) ↔
    v / pageSize = (s.proc .initProc).userStack / pageSize ∨ ∃ hdr ∈ segments img, Touches hdr v)
  flags {v page : Nat} {f : UInt8} : v < 2 ^ 39 → userPage s.space.mem root v = some (page, f) →
    page = (s.proc .initProc).userStack ∧ f = pteFlagV ||| pteFlagR ||| pteFlagW ||| pteFlagU ∨
      ∃ hdr ∈ segments img, Touches hdr v ∧ f = pteFlags (vmFlags hdr)
  frame {v page : Nat} {f : UInt8} : v < 2 ^ 39 → userPage s.space.mem root v = some (page, f) →
    page ∈ pool ∧ page ∉ s.space.tables ∧ page ∉ free ∧ page ≠ (s.proc .initProc).kernStack
  alone {v w page : Nat} {f g : UInt8} : v < 2 ^ 39 → w < 2 ^ 39 → userPage s.space.mem root v = some (page, f) →
    userPage s.space.mem root w = some (page, g) → v / pageSize = w / pageSize
  trap (a : Nat) : a ∈ [l.trampoline, (s.proc .initProc).kernStack] → walk s.space.mem root a = some a ∧
    userPage s.space.mem root a = none

theorem touches_piece {hdr : ProgHdr} {size : Nat} (hl : Loadable img size) (hmem : hdr ∈ segments img)
    (ht : Touches hdr v) :
    ∃ b ∈ pieces (progHdrs img), b.hdr = hdr ∧ b.virt / pageSize = v / pageSize := by
  obtain ⟨i, hi, hpage⟩ := ht
  have hle : pageSize * (i / pageSize) ≤ i := Nat.mul_div_le i pageSize
  have haligned := hl.aligned hdr hmem
  refine ⟨⟨hdr, pageSize * (i / pageSize)⟩,
    mem_pieces.mpr ⟨hmem, i / pageSize, lt_pageCount.mpr (hle.trans_lt hi), rfl⟩, rfl, ?_⟩
  rw [← hpage, Piece.virt]
  simp only [pageSize] at haligned ⊢
  omega

theorem touches_same {hdr : ProgHdr} {w : Nat} (h : Touches hdr v) (hp : v / pageSize = w / pageSize) : Touches hdr w := by
  obtain ⟨i, hi, hpage⟩ := h
  exact ⟨i, hi, hpage.trans hp⟩

/-- The segments lie neither where the trampoline is nor where pages of the heap are. -/
structure Clear (l : Layout) (img : Memory) (pool : List Nat) : Prop where
  trampoline : ∀ hdr ∈ segments img, ¬ Touches hdr l.trampoline
  heap : ∀ hdr ∈ segments img, ∀ p ∈ pool, ¬ Touches hdr p
  outside : l.trampoline / pageSize * pageSize ∉ pool

theorem frame_page_ne {p q : Nat} (hp : Frame p) (hq : Frame q) (h : p ≠ q) : p / pageSize ≠ q / pageSize := by
  have ha := hp.aligned
  have hb := hq.aligned
  simp only [pageSize] at ha hb ⊢
  omega

theorem calls_apart {size : Nat} (hl : Loadable img size) (hclear : Clear l img pool)
    (hbs : bs.map Backed.toPiece = (pieces (progHdrs img)).reverse) (hk : proc.kernStack ∈ pool) (hu : proc.userStack ∈ pool)
    (hf : ∀ p ∈ pool, Frame p ∧ p < 2 ^ 39) (hne : proc.kernStack ≠ proc.userStack) :
    (stackCalls l proc ++ bs.map Backed.call).Pairwise fun c d => c.virt / pageSize ≠ d.virt / pageSize := by
  obtain ⟨hpieces, -, -, hpair⟩ := pieces_backed hl hbs
  have htramp : ∀ p ∈ pool, p / pageSize ≠ l.trampoline / pageSize := by
    intro p hp he
    apply hclear.outside
    rw [← he, Nat.div_mul_cancel (Nat.dvd_of_mod_eq_zero (hf p hp).1.aligned)]
    exact hp
  have huk := frame_page_ne (hf _ hu).1 (hf _ hk).1 hne.symm
  have hstack : ∀ c ∈ stackCalls l proc, ∀ hdr ∈ segments img, ¬ Touches hdr c.virt := by
    simp only [stackCalls, List.mem_cons, List.not_mem_nil, or_false]
    rintro c (rfl | rfl | rfl) hdr hmem
    · exact hclear.heap hdr hmem _ hu
    · exact hclear.heap hdr hmem _ hk
    · exact hclear.trampoline hdr hmem
  rw [List.pairwise_append]
  refine ⟨?_, hpair, ?_⟩
  · simp only [stackCalls, List.pairwise_cons, List.mem_cons, List.not_mem_nil, or_false, forall_eq_or_imp, forall_eq,
      false_implies, implies_true, List.Pairwise.nil, and_true]
    exact ⟨⟨huk, htramp _ hu⟩, htramp _ hk⟩
  · intro c hc d hd he
    obtain ⟨b, hb, rfl⟩ := List.mem_map.mp hd
    have hpiece := hpieces b hb
    exact hstack c hc b.hdr (mem_pieces.mp hpiece).1 (touches_same (piece_touches hpiece) he.symm)

theorem kern_flags : (vmFlagReadable ||| vmFlagWritable) &&& vmFlagUser = 0 ∧
    (vmFlagReadable ||| vmFlagExecutable) &&& vmFlagUser = 0 := by decide

/-- The entries for user mode are that of the stack of the user and those of the image. -/
theorem user_entries (hm : Mapped l.freeList root s tab (leafOf (stackCalls l proc ++ bs.map Backed.call)) free)
    (hv : ∀ c ∈ stackCalls l proc ++ bs.map Backed.call, c.virt < 2 ^ 39)
    (hp : (stackCalls l proc ++ bs.map Backed.call).Pairwise fun c d => c.virt / pageSize ≠ d.virt / pageSize)
    (hu : Frame proc.userStack) (hf : ∀ b ∈ bs, Frame b.page) (hlt : v < 2 ^ 39) {page : Nat} {f : UInt8} :
    userPage s.mem root v = some (page, f) ↔
      proc.userStack / pageSize = v / pageSize ∧ page = proc.userStack ∧
        f = pteFlagV ||| pteFlagR ||| pteFlagW ||| pteFlagU ∨
      ∃ b ∈ bs, b.virt / pageSize = v / pageSize ∧ page = b.page ∧ f = pteFlags (vmFlags b.hdr) := by
  have hstack : pteFlags (vmFlagReadable ||| vmFlagWritable ||| vmFlagUser) =
    pteFlagV ||| pteFlagR ||| pteFlagW ||| pteFlagU := by decide
  have hyes : (vmFlagReadable ||| vmFlagWritable ||| vmFlagUser) &&& vmFlagUser ≠ 0 := by decide
  rw [userPage_some_iff hm hv hp hlt]
  constructor
  · rintro ⟨c, hc, hpage, huser, rfl, rfl⟩
    rcases List.mem_append.mp hc with hc | hc
    · simp only [stackCalls, List.mem_cons, List.not_mem_nil, or_false] at hc
      rcases hc with rfl | rfl | rfl
      · exact .inl ⟨hpage, page_of_aligned hu.aligned hu.lt_phys, hstack⟩
      · exact absurd kern_flags.1 huser
      · exact absurd kern_flags.2 huser
    · obtain ⟨b, hb, rfl⟩ := List.mem_map.mp hc
      exact .inr ⟨b, hb, hpage, page_of_aligned (hf b hb).aligned (hf b hb).lt_phys, rfl⟩
  · rintro (⟨hpage, rfl, rfl⟩ | ⟨b, hb, hpage, rfl, rfl⟩)
    · refine ⟨_, List.mem_append_left _ List.mem_cons_self, hpage, hyes, ?_, hstack.symm⟩
      exact (page_of_aligned hu.aligned hu.lt_phys).symm
    · refine ⟨b.call, List.mem_append_right _ (List.mem_map_of_mem hb), hpage, ?_, ?_, rfl⟩
      · exact (pteFlags_bit (vmFlags b.hdr) (p := (vmFlagUser, pteFlagU)) (by decide)).mp (vmFlags_bits b.hdr).1
      · exact (page_of_aligned (hf b hb).aligned (hf b hb).lt_phys).symm

/-- In the address space of the init process, user mode reaches the segments of
the image and the stack of the user and nothing else. The pages that it reaches
were free before, each at one address only, and none is a table, free now or the
stack of the kernel. The trap code finds that stack and itself where they are. -/
theorem init_process_isolated {size : Nat} (hc : Created l img ms ms' root) (h : FreePages l.freeList ms.space.mem pool)
    (hf : ∀ p ∈ pool, Frame p ∧ p < 2 ^ 39) (hl : Loadable img size) (ht : l.trampoline < 2 ^ 39)
    (hclear : Clear l img pool) : ∃ free, Isolated l img pool ms' root free := by
  obtain ⟨bs, tab, free, hbs, hm, hpages, hnodup⟩ := created_mapped hc h hf hl.top ht
  generalize hproc : ms'.proc .initProc = proc at hm hpages hnodup
  obtain ⟨hkpool, hkun⟩ := hpages _ List.mem_cons_self
  obtain ⟨hupool, huun⟩ := hpages _ (List.mem_cons_of_mem _ List.mem_cons_self)
  have hbpages : ∀ b ∈ bs, b.page ∈ pool ∧ Unused l.freeList ms'.space.tables free b.page := fun b hb =>
    hpages _ (List.mem_cons_of_mem _ (List.mem_cons_of_mem _ (List.mem_map_of_mem hb)))
  obtain ⟨hknot, hnodup⟩ := List.nodup_cons.mp hnodup
  obtain ⟨hunot, hinj⟩ := List.nodup_cons.mp hnodup
  rw [List.mem_cons, not_or] at hknot
  obtain ⟨hpieces, hall, hvirt, -⟩ := pieces_backed hl hbs
  have hp := calls_apart hl hclear hbs hkpool hupool hf hknot.1
  have hv : ∀ c ∈ stackCalls l proc ++ bs.map Backed.call, c.virt < 2 ^ 39 := by
    rw [List.forall_mem_append]
    exact ⟨stackCalls_virt ht (hf _ hkpool).2 (hf _ hupool).2, hvirt⟩
  have huser := fun {v page f} (hlt : v < 2 ^ 39) =>
    @user_entries root v ms'.space bs free tab l proc hm hv hp huun.frame (fun b hb => (hbpages b hb).2.frame) hlt page f
  have htouch : ∀ b ∈ bs, ∀ v, b.virt / pageSize = v / pageSize → b.hdr ∈ segments img ∧ Touches b.hdr v :=
    fun b hb v hpage =>
    ⟨(mem_pieces.mp (hpieces b hb)).1, touches_same (piece_touches (hpieces b hb)) hpage⟩
  refine ⟨free, hm.pages, fun {v} hlt => ?_, fun {v page f} hlt he => ?_, fun {v page f} hlt he => ?_,
    fun {v w page f g} hlt hlt' he he' => ?_, fun a ha => ?_⟩
  · rw [hproc]
    constructor
    · rintro ⟨⟨page, f⟩, he⟩
      rcases (huser hlt).mp he with ⟨hpage, -⟩ | ⟨b, hb, hpage, -⟩
      · exact .inl hpage.symm
      · exact .inr ⟨b.hdr, htouch b hb v hpage⟩
    · rintro (hpage | ⟨hdr, hmem, ht⟩)
      · exact ⟨_, (huser hlt).mpr (.inl ⟨hpage.symm, rfl, rfl⟩)⟩
      · obtain ⟨b, hb, -, hpage⟩ := touches_piece hl hmem ht
        obtain ⟨d, hd, rfl⟩ := hall b hb
        exact ⟨_, (huser hlt).mpr (.inr ⟨d, hd, hpage, rfl, rfl⟩)⟩
  · rw [hproc]
    rcases (huser hlt).mp he with ⟨-, rfl, rfl⟩ | ⟨b, hb, hpage, -, rfl⟩
    · exact .inl ⟨rfl, rfl⟩
    · obtain ⟨hmem, ht⟩ := htouch b hb v hpage
      exact .inr ⟨b.hdr, hmem, ht, rfl⟩
  · rw [hproc]
    rcases (huser hlt).mp he with ⟨-, rfl, -⟩ | ⟨b, hb, -, rfl, -⟩
    · exact ⟨hupool, huun.tables, huun.free, Ne.symm hknot.1⟩
    · obtain ⟨hpool, hun⟩ := hbpages b hb
      exact ⟨hpool, hun.tables, hun.free, fun hk => hknot.2 (hk ▸ List.mem_map_of_mem hb)⟩
  · rcases (huser hlt).mp he with ⟨hpage, rfl, -⟩ | ⟨b, hb, hpage, rfl, -⟩
    · rcases (huser hlt').mp he' with ⟨hpage', -⟩ | ⟨d, hd, -, hd', -⟩
      · exact hpage.symm.trans hpage'
      · exact absurd (hd' ▸ List.mem_map_of_mem hd) hunot
    · rcases (huser hlt').mp he' with ⟨-, hb', -⟩ | ⟨d, hd, hpage', hd', -⟩
      · exact absurd (hb' ▸ List.mem_map_of_mem hb) hunot
      · rw [List.inj_on_of_nodup_map hinj hb hd hd'] at hpage
        exact hpage.symm.trans hpage'
  · have hkern : ∀ {c}, c ∈ stackCalls l proc → c.phys = c.virt → c.flags &&& vmFlagUser = 0 →
        walk ms'.space.mem root c.virt = some c.virt ∧ userPage ms'.space.mem root c.virt = none := fun hmem =>
      userPage_kernel hm hv hp (List.mem_append_left _ hmem)
    rw [hproc, List.mem_cons, List.mem_singleton] at ha
    rcases ha with rfl | rfl
    · exact hkern (c := ⟨l.trampoline, l.trampoline, vmFlagReadable ||| vmFlagExecutable⟩) (by simp [stackCalls]) rfl
        kern_flags.2
    · exact hkern (c := ⟨proc.kernStack, proc.kernStack, vmFlagReadable ||| vmFlagWritable⟩) (by simp [stackCalls]) rfl
        kern_flags.1

section Demand

def bootDemand (l : Layout) (img : Memory) (kernStack userStack : Nat) : Nat :=
  (pieces (progHdrs img)).length + 2 +
    tableCount ((pieces (progHdrs img)).map Piece.virt ++ [l.trampoline, kernStack, userStack])

variable {present : Finset (List Nat)}

theorem counted_stacks {kernStack userStack : Nat}
    (h : Counted l.freeList root s tab present leaf (kernStack :: userStack :: free))
    (hm : Only (place kernStack pageSize ∪ place userStack pageSize) (taken l.freeList s.mem) m) :
    Counted l.freeList root ⟨m, s.tables⟩ tab present leaf free :=
  ⟨(mapped_stacks h.toMapped hm).1, h.mem, h.count⟩

theorem mapStacks_counted (h : Counted l.freeList proc.pageTable s tab present leaf free)
    (hv : ∀ c ∈ stackCalls l proc, c.virt < 2 ^ 39) :
    (∃ s', mapStacks l s proc = (s', 0) ∧
      demand present (needsOf [l.trampoline, proc.kernStack, proc.userStack]) ≤ free.length) ∨
    ∃ s', mapStacks l s proc = (s', -enomem) ∧
      free.length < demand present (needsOf [l.trampoline, proc.kernStack, proc.userStack]) := by
  rw [mapStacks_eq]
  rcases mapPages_counted h (fun c hc => hv c (List.mem_reverse.mp hc)) with
    ⟨s', -, hrun, hle, -⟩ | ⟨s', -, -, -, hrun, hlt, -⟩
  · exact .inl ⟨s', hrun, hle⟩
  · exact .inr ⟨s', hrun, hlt⟩

theorem bootDemand_eq {kernStack userStack : Nat} (htop : ∀ hdr ∈ segments img, hdr.vaddr + hdr.memsz ≤ 2 ^ 39)
    (ht : l.trampoline < 2 ^ 39) (hk : kernStack < 2 ^ 39) (hu : userStack < 2 ^ 39) :
    bootDemand l img kernStack userStack = pageDemand img + 2 +
      demand ({[]} ∪ (needsOf ((pieces (progHdrs img)).map Piece.virt)).toFinset)
        (needsOf [l.trampoline, kernStack, userStack]) := by
  have hnew : ∀ v ∈ [l.trampoline, kernStack, userStack], v < 2 ^ 39 := by
    simp only [List.mem_cons, List.not_mem_nil, or_false]
    rintro v (rfl | rfl | rfl)
    · exact ht
    · exact hk
    · exact hu
  rw [bootDemand, pageDemand, tableCount_append (pieces_virt_lt htop) hnew]
  omega

theorem procInit_converges {kernStack userStack : Nat} (s : Machine) (entry : Nat)
    (h : Counted l.freeList root s.space tab present leaf (kernStack :: userStack :: free))
    (ht : l.trampoline < 2 ^ 39) (hk : kernStack < 2 ^ 39) (hu : userStack < 2 ^ 39)
    (hlen : demand present (needsOf [l.trampoline, kernStack, userStack]) ≤ free.length) :
    ∃ s', Converges (fun fuel => AddressSpaces.procInit l 0 fuel s .initProc entry 0 0 nullptr root) (s', 0) := by
  have hargs : StackArgs.ArgsAt s.space.mem ∅ nullptr 0 [] := trivial
  obtain ⟨m, m', hspec, hfills, -⟩ := initStacks_spec 0 { s.proc .initProc with flags := 0, pageTable := root } entry h.pages
    h.pages hargs (fun _ _ => rfl) (Set.empty_disjoint _) (Set.empty_disjoint _) room_nil
  have hc := counted_stacks h (hfills.only.mono (filled_subset kernStack userStack room_nil))
  obtain ⟨proc, hinit, hroot, hkern, husr⟩ : ∃ proc : ProcStack.Proc,
      (∀ fuel, initStacks l 0 fuel s.space.mem { s.proc .initProc with flags := 0, pageTable := root } entry 0 nullptr =
        some (m, proc, 0)) ∧ proc.pageTable = root ∧ proc.kernStack = kernStack ∧ proc.userStack = userStack :=
    ⟨_, fun fuel => hspec fuel (fun a ha => absurd ha List.not_mem_nil) (s.space.mem, m) List.mem_cons_self, rfl, rfl, rfl⟩
  rw [← hkern] at hk
  rw [← husr] at hu
  rw [← hkern, ← husr] at hlen
  rw [← hroot] at hc
  rcases mapStacks_counted hc (stackCalls_virt ht hk hu) with ⟨space, hmap, -⟩ | ⟨space, -, hlt⟩
  · obtain ⟨s', hs', -⟩ := procInit_user s .initProc (rfl : (0 : UInt32) &&& procFlagKern = 0) (hinit 0) hmap
    refine ⟨s', .of_forall fun fuel => ?_⟩
    apply Eq.trans _ hs'
    rw [AddressSpaces.procInit, AddressSpaces.procInit, hinit, hinit]
  · exact absurd hlen (Nat.not_le.mpr hlt)

theorem stacks_drop {kernStack userStack : Nat} {rest : List Nat} (hf : ∀ p ∈ pool, Frame p ∧ p < 2 ^ 39)
    (hdrop : pool.drop n = kernStack :: userStack :: rest) :
    kernStack < 2 ^ 39 ∧ userStack < 2 ^ 39 ∧ pool.length = n + 2 + rest.length := by
  have hsub : ∀ p ∈ kernStack :: userStack :: rest, p ∈ pool := fun p hp => List.mem_of_mem_drop (hdrop ▸ hp)
  have hlen := congrArg List.length hdrop
  rw [List.length_drop, List.length_cons, List.length_cons] at hlen
  exact ⟨(hf _ (hsub _ List.mem_cons_self)).2, (hf _ (hsub _ (List.mem_cons_of_mem _ List.mem_cons_self))).2, by omega⟩

theorem created_of_pages {kernStack userStack : Nat} {rest : List Nat} (h : FreePages l.freeList ms.space.mem pool)
    (hf : ∀ p ∈ pool, Frame p ∧ p < 2 ^ 39) (htop : ∀ hdr ∈ segments img, hdr.vaddr + hdr.memsz ≤ 2 ^ 39)
    (ht : l.trampoline < 2 ^ 39) (hok : checkIdent img && supported img)
    (hdrop : pool.drop (pageDemand img) = kernStack :: userStack :: rest)
    (hle : bootDemand l img kernStack userStack ≤ pool.length) : ∃ ms' root, Created l img ms ms' root := by
  obtain ⟨hid, hsup⟩ := Bool.and_eq_true_iff.mp hok
  obtain ⟨hk, hu, hlen⟩ := stacks_drop hf hdrop
  rw [bootDemand_eq htop ht hk hu] at hle
  rcases elfLoad_counted hid hsup h (fun p hp => (hf p hp).1) htop ⟨0, 0⟩ with
    ⟨s, n, tab, leaf, hrun, -, hc⟩ | ⟨s, n, -, hlt, -⟩
  · rw [hdrop] at hc
    obtain ⟨ms', hproc⟩ := procInit_converges { ms with space := s } (entry img) hc ht hk hu (by omega)
    exact ⟨ms', n, ⟨0, 0⟩, ⟨entry img, n⟩, s, 0, hrun, rfl, hproc⟩
  · omega

theorem created_pages (hc : Created l img ms ms' root) (h : FreePages l.freeList ms.space.mem pool)
    (hf : ∀ p ∈ pool, Frame p ∧ p < 2 ^ 39) (htop : ∀ hdr ∈ segments img, hdr.vaddr + hdr.memsz ≤ 2 ^ 39)
    (ht : l.trampoline < 2 ^ 39) : (checkIdent img && supported img) ∧ ∃ kernStack userStack rest,
      pool.drop (pageDemand img) = kernStack :: userStack :: rest ∧
        bootDemand l img kernStack userStack ≤ pool.length := by
  have hneg : (0 : Int) ≠ -enomem := by decide
  obtain ⟨r₀, r, space, sstatus, hload, rfl, hproc⟩ := hc
  have hok : checkIdent img && supported img := by
    by_contra hno
    have hres := congrArg (·.2.2) (hload.unique (elfLoad_refused hno ms.space.mem r₀ 0))
    exact absurd hres (Int.ne_of_gt (result_refused hno 0))
  obtain ⟨hid, hsup⟩ := Bool.and_eq_true_iff.mp hok
  rcases elfLoad_counted hid hsup h (fun p hp => (hf p hp).1) htop r₀ with
    ⟨s, n, tab, leaf, hrun, -, hc⟩ | ⟨s, n, hrun, -⟩
  · obtain ⟨rfl, heq⟩ := Prod.mk.inj (hload.unique hrun)
    obtain ⟨rfl, -⟩ := Prod.mk.inj heq
    obtain ⟨N, hN⟩ := hproc
    obtain ⟨m, res', hinit, hres, ⟨-, hmap⟩ | ⟨hk, -⟩⟩ := procInit_cases (hN N (Nat.le_refl N)) (by decide)
    · obtain ⟨hroot, rest, hdrop⟩ := initStacks_pages hc.pages hinit hres
      rw [hdrop] at hc
      obtain ⟨hk, hu, hlen⟩ := stacks_drop hf hdrop
      have hc₁ := counted_stacks hc (initStacks_inside hc.pages hinit)
      have hroot' : (ms'.proc .initProc).pageTable = n := hroot
      rw [← hroot'] at hc₁
      refine ⟨hok, _, _, rest, hdrop, ?_⟩
      rw [bootDemand_eq htop ht hk hu]
      rcases mapStacks_counted hc₁ (stackCalls_virt ht hk hu) with ⟨s', hrun', hle⟩ | ⟨s', hrun', -⟩
      · omega
      · exact absurd (congrArg Prod.snd (hmap.symm.trans hrun')) hneg
    · exact absurd rfl hk
  · exact absurd (congrArg (·.2.2) (hload.unique hrun)) hneg

/-- The init process can be created if and only if the header of the image is
accepted and there are enough free pages: for the image, for both stacks, and for
a page table that maps these and the trampoline. -/
theorem init_process_demand (h : FreePages l.freeList ms.space.mem pool) (hf : ∀ p ∈ pool, Frame p ∧ p < 2 ^ 39)
    (htop : ∀ hdr ∈ segments img, hdr.vaddr + hdr.memsz ≤ 2 ^ 39) (ht : l.trampoline < 2 ^ 39) :
    (∃ ms' root, Created l img ms ms' root) ↔ (checkIdent img && supported img) ∧ ∃ kernStack userStack rest,
      pool.drop (pageDemand img) = kernStack :: userStack :: rest ∧
        bootDemand l img kernStack userStack ≤ pool.length := by
  constructor
  · rintro ⟨ms', root, hc⟩
    exact created_pages hc h hf htop ht
  · rintro ⟨hok, kernStack, userStack, rest, hdrop, hle⟩
    exact created_of_pages h hf htop ht hok hdrop hle

end Demand

section Boot

theorem boot_frames : ∀ p ∈ heapPages 0x80400000, Frame p ∧ p < 2 ^ 39 := by
  intro p hp
  refine ⟨heap_frame boot_region (by decide) hp, ?_⟩
  obtain ⟨i, hi, rfl⟩ := mem_heapPages.mp hp
  simp only [kheapSize, pageSize] at hi ⊢
  omega

theorem boot_demand : ∃ kernStack userStack rest,
    (heapPages 0x80400000).drop (pageDemand tinyElf) = kernStack :: userStack :: rest ∧
      bootDemand bootLayout tinyElf kernStack userStack ≤ (heapPages 0x80400000).length := by
  have hlen : ((heapPages 0x80400000).drop (pageDemand tinyElf)).length = 2044 := by
    rw [List.length_drop, length_heapPages, tinyElf_demand]
  rcases hdrop : (heapPages 0x80400000).drop (pageDemand tinyElf) with - | ⟨kernStack, - | ⟨userStack, rest⟩⟩
  · rw [hdrop] at hlen
    cases hlen
  · rw [hdrop] at hlen
    cases hlen
  · refine ⟨kernStack, userStack, rest, rfl, ?_⟩
    obtain ⟨hk, hu, -⟩ := stacks_drop boot_frames hdrop
    have hle := demand_le ({[]} ∪ (needsOf ((pieces (progHdrs tinyElf)).map Piece.virt)).toFinset)
      (needsOf [bootLayout.trampoline, kernStack, userStack])
    have hsix : (needsOf [bootLayout.trampoline, kernStack, userStack]).length = 6 := rfl
    rw [bootDemand_eq tinyElf_loadable.top (by decide) hk hu, tinyElf_demand, length_heapPages]
    omega

theorem boot_clear : Clear bootLayout tinyElf (heapPages 0x80400000) := by
  have hall : ∀ hdr ∈ segments tinyElf, ∀ v, 0x11000 ≤ v → ¬ Touches hdr v := by
    rw [tinyElf_segments, List.forall_mem_singleton]
    rintro v hv ⟨i, hi, hpage⟩
    simp only [pageSize] at hi hpage
    omega
  have hheap : ∀ p ∈ heapPages 0x80400000, 0x80400000 ≤ p := by
    intro p hp
    obtain ⟨i, hi, rfl⟩ := mem_heapPages.mp hp
    exact Nat.le_add_right _ _
  refine ⟨fun hdr hmem => hall hdr hmem _ (by decide), fun hdr hmem p hp => hall hdr hmem p ?_, fun hmem => ?_⟩
  · exact Nat.le_trans (by decide) (hheap p hp)
  · exact absurd (hheap _ hmem) (by decide)

end Boot

/-- The machine can create an init process from the small image. -/
theorem init_process_demand_boot : ∃ m ms' root, FreePages bootLayout.freeList m (heapPages 0x80400000) ∧
    Created bootLayout tinyElf (blank m) ms' root := by
  obtain ⟨m, hfree⟩ := boot_pages
  have hblank : FreePages bootLayout.freeList (blank m).space.mem (heapPages 0x80400000) := hfree
  have hiff := init_process_demand hblank boot_frames tinyElf_loadable.top (by decide)
  obtain ⟨ms', root, hc⟩ := hiff.mpr ⟨by decide, boot_demand⟩
  exact ⟨m, ms', root, hfree, hc⟩

/-- User mode reaches the small image at 0x10000. -/
theorem init_process_isolated_boot : ∃ ms' root free, Isolated bootLayout tinyElf (heapPages 0x80400000) ms' root free ∧
    ∃ e, userPage ms'.space.mem root 0x10000 = some e := by
  obtain ⟨m, hfree⟩ := boot_pages
  obtain ⟨kernStack, userStack, rest, hdrop, hle⟩ := boot_demand
  have hblank : FreePages bootLayout.freeList (blank m).space.mem (heapPages 0x80400000) := hfree
  obtain ⟨ms', root, hc⟩ := created_of_pages hblank boot_frames tinyElf_loadable.top (by decide) (by decide) hdrop hle
  obtain ⟨free, hi⟩ := init_process_isolated hc hblank boot_frames tinyElf_loadable (by decide) boot_clear
  refine ⟨ms', root, free, hi, (hi.reach (by decide)).mpr (.inr ⟨⟨ptLoad, 5, 0, 0x10000, 4, 8⟩, ?_, 0, by decide, rfl⟩)⟩
  rw [tinyElf_segments]
  exact List.mem_singleton_self _

end Karg.InitProcess
