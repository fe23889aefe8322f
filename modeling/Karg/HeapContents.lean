import Karg.HeapTiling

namespace Karg.HeapContents

open LinkStore CircularList ListNode ByteMemory KernelMemory PageAlloc Kalloc Tiling HeapModel HeapInvariant BlockHeaders
  KallocRefinement KfreeRefinement Execution HeapRuns HeapTiling

def returned (sym : Symbols) (fuel : Nat) (s : Run) : Op → Option Nat
  | .kmalloc sz => (kmalloc sym fuel s.heap sz).map (·.2)
  | .kcalloc sz n => (kcalloc sym fuel s.heap sz n).map (·.2)
  | _ => some nullptr

/-- The states of the runs, with the calls that have been made and what they
returned, the latest one first. -/
inductive Traced (sym : Symbols) : List (Op × Nat) → Run → Prop
  | start {s : Run} (h : Start sym s) : Traced sym [] s
  | next {log : List (Op × Nat)} {s s' : Run} {op : Op} {res : Nat} (h : Traced sym log s) (hs : Step sym s op s')
      (hr : Converges (fun fuel => returned sym fuel s op) res) : Traced sym ((op, res) :: log) s'

/-- What an allocation holds: bytes that are known, and bytes that nobody has
written yet. -/
abbrev Objects := Nat → Option (List (Option UInt8))

def allocate (o : Objects) (ptr : Nat) (bytes : List (Option UInt8)) : Objects :=
  if ptr = nullptr then o else Function.update o ptr (some bytes)

def call (o : Objects) (res : Nat) : Op → Objects
  | .kmalloc sz => allocate o res (List.replicate sz none)
  | .kcalloc sz n => allocate o res (List.replicate (sz * n) (some 0))
  | .kfree ptr => Function.update o ptr none
  | .write ptr i val => Function.update o ptr ((o ptr).map fun bytes => bytes.set i (some val))
  | .other _ => o

def objects (log : List (Op × Nat)) : Objects := log.foldr (fun e o => call o e.2 e.1) fun _ => none

def Holds (m : Memory) (ptr : Nat) (bytes : List (Option UInt8)) : Prop :=
  ∀ i v, bytes[i]? = some (some v) → m.byte (ptr + i) = v

structure Kept (s : Run) (o : Objects) : Prop where
  live (ptr : Nat) : s.live ptr = (o ptr).map List.length
  holds (ptr : Nat) (bytes : List (Option UInt8)) : o ptr = some bytes → Holds s.heap.mem ptr bytes

variable {sym : Symbols} {s s' : Run} {a : Model} {h h' : Heap} {live : Nat → Option Nat} {m m' : Memory}
  {l r : List Block} {b : Block} {o : Objects} {bytes : List (Option UInt8)} {op : Op} {ptr res sz n : Nat}

section Frame

/-- The list head and the headers hold no byte that an owner asked for. -/
theorem footprint_off (hr : Represents sym h a) (hw : WellFormed a) (ho : Owned a live) (hl : live ptr = some n) :
    footprint sym.blockList a.blocks ⊆ (place ptr n)ᶜ := by
  rintro x (hx | ⟨b, hb, hx⟩) hp
  · obtain ⟨c, hc, -, rfl, hn⟩ := ho.block ptr n hl
    have hoff := head_off hr.layout hw hc
    rw [mem_place] at hx hp
    omega
  · exact Set.disjoint_left.mp (payload_off hw ho hl hb) hp hx

theorem free_off (hw : WellFormed a) (ho : Owned a live) (hl : live ptr = some n) (hb : b ∈ a.blocks)
    (hf : b.allocated = false) : place b.addr b.size ⊆ (place ptr n)ᶜ := by
  obtain ⟨c, hc, hca, rfl, hn⟩ := ho.block ptr n hl
  have hne : c ≠ b := by
    rintro rfl
    rw [hf] at hca
    cases hca
  have hap := hw.apart_of_ne hc hb hne
  intro x hx hp
  rw [Segment.Apart] at hap
  rw [mem_place] at hx hp
  omega

theorem kmallocTake_keeps (hr : Represents sym h a) (hw : WellFormed a) (ho : Owned a live) (hl : live ptr = some n)
    (hmin : headerSize ≤ sz) (hb : a.blocks = l ++ b :: r) (hu : usable sz b) :
    Same (place ptr n) h.mem (kmallocTake h b.addr sz).1.mem := by
  have hmem : b ∈ a.blocks := hb ▸ mem_middle.mpr (.inl rfl)
  obtain ⟨m', he, -, hm⟩ := kmalloc_fit hr hw hmin hb hu
  simp only [usable, Bool.and_eq_true, Bool.not_eq_true'] at hu
  rw [he]
  exact Only.same_compl (hm.mono (Set.union_subset (footprint_off hr hw ho hl) (free_off hw ho hl hmem hu.1)))

theorem addPage_owned (ho : Owned a live) (p : Nat) (free : List Nat) :
    Owned ⟨a.blocks ++ [⟨page p, false⟩], a.pages ++ [p], free⟩ live := by
  refine ⟨fun ptr n hl => ?_, fun b hb ha => ?_⟩
  · obtain ⟨b, hb, hrest⟩ := ho.block ptr n hl
    exact ⟨b, List.mem_append_left _ hb, hrest⟩
  · rcases List.mem_append.mp hb with hb | hb
    · exact ho.live b hb ha
    · rw [List.mem_singleton.mp hb] at ha
      cases ha

theorem kmallocPage_keeps (hr : Represents sym h a) (hw : WellFormed a) (ho : Owned a live) (hl : live ptr = some n)
    {p : Nat} {free : List Nat} (hf : a.free = p :: free) : Same (place ptr n) h.mem (kmallocPage sym h).1.mem := by
  obtain ⟨m', he, -, hm⟩ := kmallocPage_refines hr hw hf
  have hdisj := free_disjoint hr.layout hw
  rw [hf] at hdisj
  have hfree := (hdisj.mono (nodes_rest sym.freeList p free) (payload_subset hw ho hl)).subset_compl_right
  have hnew : place p pageSize ⊆ (place ptr n)ᶜ := free_off (addPage_wellFormed hw hf) (addPage_owned ho p free) hl
    (List.mem_append_right _ List.mem_cons_self) rfl
  rw [he]
  exact Only.same_compl (hm.mono (Set.union_subset hfree (Set.union_subset (footprint_off hr hw ho hl) hnew)))

theorem page_usable (p : Nat) (hsz : sz ≤ pageSize) : usable sz ⟨page p, false⟩ := decide_eq_true hsz

theorem kmalloc_keeps (hs : Simulated sym s a) (hl : s.live ptr = some n) (hsz : sz + headerSize < 2 ^ 64)
    (hc : Converges (fun fuel => kmalloc sym fuel s.heap sz) (h', res)) : Same (place ptr n) s.heap.mem h'.mem := by
  have hr := hs.represents
  have hmin : headerSize ≤ usizeAdd sz headerSize := by
    rw [usizeAdd_of_lt hsz]
    exact Nat.le_add_left _ _
  have hlast : ∀ {x : Heap × Nat}, (∀ fuel, a.blocks.length < fuel → kmalloc sym fuel s.heap sz = some x) →
      Same (place ptr n) s.heap.mem x.1.mem → Same (place ptr n) s.heap.mem h'.mem := by
    intro x hx hkeep
    obtain rfl := hc.unique ⟨a.blocks.length + 1, hx⟩
    exact hkeep
  have hsame : Same (place ptr n) s.heap.mem s.heap.mem := fun _ _ => rfl
  by_cases hn : usizeAdd sz headerSize ≤ pageSize
  · cases hfind : a.blocks.find? (usable (usizeAdd sz headerSize)) with
    | some b =>
        obtain ⟨hu, l, r, hb, -⟩ := List.find?_eq_some_iff_append.mp hfind
        exact hlast (fun _ => kmalloc_found hr hn hfind)
          (kmallocTake_keeps hr hs.wellFormed hs.owned hl hmin hb hu)
    | none =>
        cases hf : a.free with
        | nil => exact hlast (fun _ => kmalloc_full hr hn hfind hf) hsame
        | cons p free =>
            obtain ⟨m₁, hm₁, hr₁, -⟩ := kmallocPage_refines hr hs.wellFormed hf
            have hpos : p ≠ nullptr := Nat.ne_of_gt (hr.free.page p (by simp [hf])).pos
            have hkeep₁ := kmallocPage_keeps hr hs.wellFormed hs.owned hl hf
            rw [hm₁] at hkeep₁
            have hkeep₂ := kmallocTake_keeps (r := []) hr₁ (addPage_wellFormed hs.wellFormed hf)
              (addPage_owned hs.owned p free) hl hmin rfl (page_usable p hn)
            exact hlast (fun _ => kmalloc_grown hr hn hfind hm₁ hpos) (hkeep₁.trans hkeep₂)
  · exact hlast (fun fuel _ => kmalloc_too_large (Nat.lt_of_not_le hn) fuel s.heap) hsame

theorem kfree_keeps (hs : Simulated sym s a) (hl : s.live ptr = some n) (hq : (s.live res).isSome) :
    Same (place ptr n) s.heap.mem (kfree sym s.heap res).mem := by
  obtain ⟨k, hk⟩ := Option.isSome_iff_exists.mp hq
  obtain ⟨b, hb, -, rfl, -⟩ := hs.owned.block res k hk
  obtain ⟨l, r, hlr⟩ := List.append_of_mem hb
  obtain ⟨m', he, -, hm⟩ := kfree_headers hs.represents hs.wellFormed hlr
  rw [he]
  exact Only.same_compl (hm.mono (footprint_off hs.represents hs.wellFormed hs.owned hl))

end Frame

section Steps

theorem Holds.same (h : Holds m ptr bytes) (hm : Same (place ptr bytes.length) m m') : Holds m' ptr bytes := by
  intro i v hi
  have hlt := (List.getElem?_eq_some_iff.mp hi).1
  rw [hm (ptr + i) (by rw [mem_place]; omega)]
  exact h i v hi

theorem holds_unknown (m : Memory) (ptr sz : Nat) : Holds m ptr (List.replicate sz none) := by
  intro i v hi
  have he := List.eq_of_mem_replicate (List.mem_of_getElem? hi)
  cases he

/-- Any step that keeps the bytes of the live allocations may free some of them. -/
theorem Kept.frame (hk : Kept s o) (hkeep : ∀ ptr n, s.live ptr = some n → Same (place ptr n) s.heap.mem m)
    {ptr : Nat} (ho : o ptr = some bytes) : Holds m ptr bytes := by
  apply (hk.holds ptr bytes ho).same
  apply hkeep
  rw [hk.live, ho, Option.map_some]

theorem Kept.allocate (hk : Kept s o) (hkeep : ∀ ptr n, s.live ptr = some n → Same (place ptr n) s.heap.mem h'.mem)
    (hnew : res ≠ nullptr → Holds h'.mem res bytes) : Kept ⟨h', grant s.live res bytes.length⟩ (allocate o res bytes) := by
  rw [grant, HeapContents.allocate]
  by_cases hres : res = nullptr
  · rw [if_pos hres, if_pos hres]
    exact ⟨hk.live, fun _ _ ho => hk.frame hkeep ho⟩
  · rw [if_neg hres, if_neg hres]
    refine ⟨fun ptr => ?_, fun ptr bytes' ho => ?_⟩
    · by_cases hp : ptr = res
      · subst hp
        simp only [Function.update_self, Option.map_some]
      · simp only [Function.update_of_ne hp]
        exact hk.live ptr
    · by_cases hp : ptr = res
      · subst hp
        rw [Function.update_self] at ho
        cases ho
        exact hnew hres
      · rw [Function.update_of_ne hp] at ho
        exact hk.frame hkeep ho

theorem kcalloc_keeps (hs : Simulated sym s a) (hsz : sz * n + headerSize < 2 ^ 64)
    (hc : Converges (fun fuel => kcalloc sym fuel s.heap sz n) (h', res)) :
    (∀ ptr k, s.live ptr = some k → Same (place ptr k) s.heap.mem h'.mem) ∧
      (res ≠ nullptr → Holds h'.mem res (List.replicate (sz * n) (some 0))) := by
  have hmul : usizeMul sz n = sz * n := usizeMul_of_lt (by omega)
  obtain ⟨h₁, p, a₁, hc₁, hs₁, hfresh⟩ := kmalloc_simulates hs hsz
  have hconv := hc.unique (kcalloc_converges (hmul ▸ hc₁))
  by_cases hp : p = nullptr
  · rw [if_pos hp] at hconv
    obtain ⟨rfl, rfl⟩ := Prod.mk.inj hconv
    exact ⟨fun ptr k hl => kmalloc_keeps hs hl hsz hc₁, fun hne => absurd hp hne⟩
  · rw [if_neg hp, hmul] at hconv
    obtain ⟨rfl, rfl⟩ := Prod.mk.inj hconv
    obtain ⟨hnone, hlive⟩ := hfresh hp
    refine ⟨fun ptr k hl => ?_, fun _ i v hi => ?_⟩
    · have hne : ptr ≠ res := by
        rintro rfl
        rw [hnone] at hl
        cases hl
      have hl' : grant s.live res (sz * n) ptr = some k := by
        rw [grant, if_neg hp, Function.update_of_ne hne]
        exact hl
      have hap := payload_apart hs₁.wellFormed hs₁.owned hl' hlive hne
      exact (kmalloc_keeps hs hl hsz hc₁).trans ((memSet_only h₁.mem res 0 (sz * n)).same hap)
    · have hlt := (List.getElem?_eq_some_iff.mp hi).1
      have he := List.eq_of_mem_replicate (List.mem_of_getElem? hi)
      rw [List.length_replicate] at hlt
      rw [memSet_byte, if_pos (by omega)]
      exact (Option.some.inj he).symm

theorem write_kept (hs : Simulated sym s a) (hk : Kept s o) (hl : s.live ptr = some n)
    {i : Nat} (hi : i < n) (val : UInt8) :
    Kept ⟨⟨setByte s.heap.mem (ptr + i) val, s.heap.pages⟩, s.live⟩ (call o res (.write ptr i val)) := by
  refine ⟨fun q => ?_, fun q bytes' ho => ?_⟩
  · rw [hk.live, call]
    by_cases hq : q = ptr
    · subst hq
      simp [Function.comp_def]
    · rw [Function.update_of_ne hq]
  · rw [call] at ho
    by_cases hq : q = ptr
    · subst hq
      rw [Function.update_self, Option.map_eq_some_iff] at ho
      obtain ⟨bytes, ho, rfl⟩ := ho
      intro j v hj
      by_cases hji : j = i
      · subst hji
        have hlt := (List.getElem?_eq_some_iff.mp hj).1
        rw [List.length_set] at hlt
        rw [List.getElem?_set_self hlt] at hj
        cases hj
        exact Function.update_self ..
      · rw [List.getElem?_set_ne (Ne.symm hji)] at hj
        have hne : q + j ≠ q + i := by omega
        exact (Function.update_of_ne hne _ _).trans (hk.holds q bytes ho j v hj)
    · rw [Function.update_of_ne hq] at ho
      have hlive : s.live q = some bytes'.length := by
        rw [hk.live, ho, Option.map_some]
      have hap := payload_apart hs.wellFormed hs.owned hlive hl hq
      apply (hk.holds q bytes' ho).same
      apply (setByte_only s.heap.mem (ptr + i) val).same
      exact hap.mono_right (singleton_subset_place (by omega) (by omega))

theorem step_kept (hs : Simulated sym s a) (hk : Kept s o) (hstep : Step sym s op s')
    (hres : Converges (fun fuel => returned sym fuel s op) res) : Kept s' (call o res op) := by
  obtain ⟨ha, hconv⟩ := hstep
  cases op with
  | kmalloc sz =>
      obtain ⟨h', ptr, -, hc, -⟩ := kmalloc_simulates hs ha
      obtain rfl := hconv.unique (hc.map _)
      obtain rfl := hres.unique (hc.map _)
      have hnew := hk.allocate (fun _ _ hl => kmalloc_keeps hs hl ha hc) fun _ => holds_unknown h'.mem res sz
      rwa [List.length_replicate] at hnew
  | kcalloc sz n =>
      obtain ⟨h', ptr, -, hc, -⟩ := kcalloc_simulates hs ha
      obtain rfl := hconv.unique (hc.map _)
      obtain rfl := hres.unique (hc.map _)
      obtain ⟨hkeep, hzero⟩ := kcalloc_keeps hs ha hc
      have hnew := hk.allocate hkeep hzero
      rwa [List.length_replicate] at hnew
  | kfree ptr =>
      have hkeep : ∀ q n, s.live q = some n → Same (place q n) s.heap.mem (kfree sym s.heap ptr).mem := by
        intro q n hl
        rcases ha with rfl | ha
        · rw [kfree, if_pos rfl]
          exact fun _ _ => rfl
        · exact kfree_keeps hs hl ha
      obtain rfl := hconv.unique (.of_forall fun _ => rfl)
      refine ⟨fun q => ?_, fun q bytes ho => ?_⟩
      · by_cases hq : q = ptr
        · subst hq
          simp [call]
        · simp only [call, Function.update_of_ne hq]
          exact hk.live q
      · by_cases hq : q = ptr
        · subst hq
          simp [call] at ho
        · rw [call, Function.update_of_ne hq] at ho
          exact hk.frame hkeep ho
  | write ptr i val =>
      obtain ⟨n, hl, hi⟩ := ha
      obtain rfl := hconv.unique (.of_forall fun _ => rfl)
      exact write_kept hs hk hl hi val
  | other mem =>
      obtain rfl := hconv.unique (.of_forall fun _ => rfl)
      refine ⟨hk.live, fun q bytes ho => hk.frame (fun ptr n hl => ?_) ho⟩
      have hsub : place ptr n ⊆ extent sym.blockList a.pages := payload_subset hs.wellFormed hs.owned hl
      apply Same.mono _ hsub
      rw [← hs.represents.pages]
      exact ha.only.same_compl

end Steps

theorem traced_reached {log : List (Op × Nat)} (h : Traced sym log s) : Reached sym s := by
  induction h with
  | start h => exact .start h
  | next _ hs _ ih => exact ih.next _ hs

theorem traced_kept {log : List (Op × Nat)} (h : Traced sym log s) : Kept s (objects log) := by
  induction h with
  | start h => exact ⟨h.live, fun ptr bytes ho => by cases ho⟩
  | next ht hs hr ih =>
      obtain ⟨a, ha⟩ := reached_simulated (traced_reached ht)
      exact step_kept ha ih hs hr

/-- In every run the live allocations are those that the calls have returned and
not freed yet, with the sizes asked for, and each byte of them is what its owner
has last stored there, or zero if it comes from `kcalloc`. What is in a block is
still there when `kfree` returns. -/
theorem allocation_contents {log : List (Op × Nat)} (h : Traced sym log s) :
    (∀ ptr, s.live ptr = (objects log ptr).map List.length) ∧
      ∀ ptr bytes, objects log ptr = some bytes → ∀ i v, bytes[i]? = some (some v) →
        s.heap.mem.byte (ptr + i) = v ∧ (kfree sym s.heap ptr).mem.byte (ptr + i) = v := by
  have hk := traced_kept h
  obtain ⟨a, ha⟩ := reached_simulated (traced_reached h)
  refine ⟨hk.live, fun ptr bytes ho i v hi => ⟨hk.holds ptr bytes ho i v hi, ?_⟩⟩
  have hlive : s.live ptr = some bytes.length := by
    rw [hk.live, ho, Option.map_some]
  exact (hk.holds ptr bytes ho).same (kfree_keeps ha hlive (by rw [hlive]; rfl)) i v hi

section Boot

theorem Traced.write {log : List (Op × Nat)} (h : Traced sym log s) (hl : s.live ptr = some sz) {i : Nat} (hi : i < sz)
    (val : UInt8) : Traced sym ((.write ptr i val, nullptr) :: log)
      ⟨⟨setByte s.heap.mem (ptr + i) val, s.heap.pages⟩, s.live⟩ :=
  h.next ⟨⟨sz, hl, hi⟩, .of_forall fun _ => rfl⟩ (.of_forall fun _ => rfl)

theorem Traced.kfree {log : List (Op × Nat)} (h : Traced sym log s) (hl : s.live ptr = some sz) :
    Traced sym ((.kfree ptr, nullptr) :: log) ⟨Kalloc.kfree sym s.heap ptr, Function.update s.live ptr none⟩ :=
  h.next ⟨.inr (Option.isSome_of_mem hl), .of_forall fun _ => rfl⟩ (.of_forall fun _ => rfl)

theorem traced_two : ∃ s, Traced ⟨0x80300000, 0x80300010⟩
    [(.write 0x804000A4 0 9, nullptr), (.write 0x80400020 3 7, nullptr),
      (.kmalloc 200, 0x804000A4), (.kmalloc 100, 0x80400020)] s ∧
    s.live 0x80400020 = some 100 ∧ s.live 0x804000A4 = some 200 := by
  obtain ⟨m, hstart, ha⟩ := boot_start
  obtain ⟨m₁, hc₁, hreach, hs⟩ := kmalloc_first (n := 100) hstart ha (by decide)
  obtain ⟨m₂, hc₂, -⟩ := kmalloc_second hreach hs
  rw [show 0x80400000 + headerSize = 0x80400020 from rfl] at hc₁
  have hsz : 100 + headerSize < 2 ^ 64 ∧ 200 + headerSize < 2 ^ 64 := by decide
  have hfirst : Traced ⟨0x80300000, 0x80300010⟩ [(.kmalloc 100, 0x80400020)]
      ⟨⟨m₁, [0x80400000]⟩, grant (fun _ => none) 0x80400020 100⟩ :=
    (Traced.start hstart).next ⟨hsz.1, hc₁.map _⟩ (hc₁.map _)
  have hsecond : Traced ⟨0x80300000, 0x80300010⟩ [(.kmalloc 200, 0x804000A4), (.kmalloc 100, 0x80400020)]
      ⟨⟨m₂, [0x80400000]⟩, grant (grant (fun _ => none) 0x80400020 100) 0x804000A4 200⟩ :=
    hfirst.next ⟨hsz.2, hc₂.map _⟩ (hc₂.map _)
  have hlive₁ : grant (grant (fun _ => none) 0x80400020 100) 0x804000A4 200 0x80400020 = some 100 := by
    simp [grant, nullptr]
  have hlive₂ : grant (grant (fun _ => none) 0x80400020 100) 0x804000A4 200 0x804000A4 = some 200 := by
    simp [grant, nullptr]
  exact ⟨_, (hsecond.write hlive₁ (by decide) 7).write hlive₂ (by decide) 9, hlive₁, hlive₂⟩

end Boot

/-- 7 is stored in the fourth byte of the first allocation and 9 in the first byte of
the second one, and then the first one is given back. -/
theorem allocation_contents_two : ∃ log s s', Traced ⟨0x80300000, 0x80300010⟩ log s ∧
    s.heap.mem.byte (0x80400020 + 3) = 7 ∧ s.heap.mem.byte (0x804000A4 + 0) = 9 ∧
    Traced ⟨0x80300000, 0x80300010⟩ ((.kfree 0x80400020, nullptr) :: log) s' ∧
    s'.live 0x80400020 = none ∧ s'.live 0x804000A4 = some 200 ∧
    s'.heap.mem.byte (0x80400020 + 3) = 7 ∧ s'.heap.mem.byte (0x804000A4 + 0) = 9 := by
  obtain ⟨s, hwritten, hl₁, hl₂⟩ := traced_two
  have hfreed := hwritten.kfree hl₁
  obtain ⟨-, hbefore⟩ := allocation_contents hwritten
  obtain ⟨-, hafter⟩ := allocation_contents hfreed
  have hone := hbefore 0x80400020 ((List.replicate 100 none).set 3 (some 7))
    (by simp [objects, call, allocate, nullptr]) 3 7 (by decide)
  have htwo := hbefore 0x804000A4 ((List.replicate 200 none).set 0 (some 9))
    (by simp [objects, call, allocate, nullptr]) 0 9 (by decide)
  have hkept := hafter 0x804000A4 ((List.replicate 200 none).set 0 (some 9))
    (by simp [objects, call, allocate, nullptr]) 0 9 (by decide)
  refine ⟨_, _, _, hwritten, hone.1, htwo.1, hfreed, ?_, ?_, ?_, hkept.1⟩
  · simp
  · simp [hl₂]
  · dsimp only
    exact hone.2

end Karg.HeapContents
