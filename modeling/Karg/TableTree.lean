import Karg.Vm

namespace Karg.TableTree

open ByteMemory KernelMemory PageAlloc Vm

/-- A page that `vm.c` finds again from an entry, where its address has 44 bits. -/
structure Frame (p : Nat) : Prop extends Page p where
  lt : p < 2 ^ 44

def noPte : Pte := ⟨0, 0⟩

def pointer (t : Nat) : Pte := ⟨pteFlagV, t / pageSize⟩

def path (virt : Nat) : List Nat := [idx2 virt, idx1 virt, idx0 virt]

/-- The tables of three levels in memory. A table is found by the indices that
lead to it, and so is an entry of the last level. -/
structure Tree (m : Memory) (root : Nat) (tab : List Nat → Option Nat) (leaf : List Nat → Pte) : Prop where
  root : tab [] = some root
  depth {p : List Nat} {t : Nat} : tab p = some t → p.length ≤ 2
  up {p : List Nat} (i : Nat) : tab p = none → tab (i :: p) = none
  inj {p q : List Nat} {t : Nat} : tab p = some t → tab q = some t → p = q
  frame {p : List Nat} {t : Nat} : tab p = some t → Frame t
  inner {p : List Nat} {t i : Nat} : tab p = some t → p.length < 2 → i < 512 →
    readPte m (t + 8 * i) = (tab (i :: p)).elim noPte pointer
  last {p : List Nat} {t i : Nat} : tab p = some t → p.length = 2 → i < 512 → readPte m (t + 8 * i) = leaf (i :: p)
  bare {p : List Nat} (i : Nat) : tab p = none → leaf (i :: p) = noPte

variable {m m' : Memory} {root t t' i j v w n : Nat} {tab : List Nat → Option Nat} {leaf : List Nat → Pte}
  {p q : List Nat} {s : Set Nat}

theorem Frame.lt_phys (h : Frame t) : t < 2 ^ 56 := h.lt.trans (by decide)

theorem entry_subset (hi : i < 512) : place (t + 8 * i) 8 ⊆ place t pageSize := by
  intro x hx
  rw [mem_place] at hx ⊢
  rw [pageSize]
  omega

theorem frame_disjoint (ht : Frame t) (ht' : Frame t') (h : t ≠ t') : Disjoint (place t pageSize) (place t' pageSize) :=
  disjoint_place (ht.toPage.apart ht'.toPage h)

theorem idx0_eq (h : v < 2 ^ 39) : idx0 v = v / 2 ^ 30 := by
  rw [idx0]
  omega

theorem idx_lt (h : v < 2 ^ 39) : idx0 v < 512 ∧ idx1 v < 512 ∧ idx2 v < 512 := by
  rw [idx0, idx1, idx2]
  omega

/-- Two addresses have the same entry when they lie in the same page. -/
theorem path_eq_iff (hv : v < 2 ^ 39) (hw : w < 2 ^ 39) : path v = path w ↔ v / pageSize = w / pageSize := by
  rw [path, path, pageSize, List.cons.injEq, List.cons.injEq, List.cons.injEq, idx2, idx1, idx0, idx2, idx1, idx0]
  constructor
  · rintro ⟨h2, h1, h0, -⟩
    omega
  · intro h
    refine ⟨?_, ?_, ?_, rfl⟩ <;> omega

theorem Tree.only (h : Tree m root tab leaf) (hm : Only s m m')
    (hs : ∀ p t, tab p = some t → Disjoint (place t pageSize) s) : Tree m' root tab leaf := by
  refine ⟨h.root, h.depth, h.up, h.inj, h.frame, fun {p t i} ht hp hi => ?_, fun {p t i} ht hp hi => ?_, h.bare⟩
  · rw [readPte_only hm ((hs p t ht).mono_left (entry_subset hi))]
    exact h.inner ht hp hi
  · rw [readPte_only hm ((hs p t ht).mono_left (entry_subset hi))]
    exact h.last ht hp hi

theorem Tree.entry_ne (h : Tree m root tab leaf) (hm : Only (place (t + 8 * i) 8) m m') (ht : tab p = some t)
    (hi : i < 512) (hq : tab q = some t') (hj : j < 512) (hne : j :: q ≠ i :: p) :
    readPte m' (t' + 8 * j) = readPte m (t' + 8 * j) := by
  apply readPte_only hm
  by_cases htt : t' = t
  · subst htt
    obtain rfl := h.inj hq ht
    apply disjoint_place
    have hji : j ≠ i := fun he => hne (by rw [he])
    omega
  · exact (frame_disjoint (h.frame hq) (h.frame ht) htt).mono (entry_subset hj) (entry_subset hi)

theorem Tree.setLeaf (h : Tree m root tab leaf) (hm : Only (place (t + 8 * i) 8) m m') (ht : tab p = some t)
    (hp : p.length = 2) (hi : i < 512) :
    Tree m' root tab (Function.update leaf (i :: p) (readPte m' (t + 8 * i))) := by
  refine ⟨h.root, h.depth, h.up, h.inj, h.frame, fun {q t' j} hq hlen hj => ?_, fun {q t' j} hq hlen hj => ?_,
    fun {q} j hq => ?_⟩
  · have hne : j :: q ≠ i :: p := by
      rintro he
      obtain ⟨-, rfl⟩ := List.cons.inj he
      omega
    rw [h.entry_ne hm ht hi hq hj hne]
    exact h.inner hq hlen hj
  · by_cases he : j :: q = i :: p
    · obtain ⟨rfl, rfl⟩ := List.cons.inj he
      rw [ht] at hq
      obtain rfl := Option.some.inj hq
      rw [Function.update_self]
    · rw [Function.update_of_ne he, h.entry_ne hm ht hi hq hj he]
      exact h.last hq hlen hj
  · have hne : j :: q ≠ i :: p := by
      rintro he
      obtain ⟨-, rfl⟩ := List.cons.inj he
      rw [ht] at hq
      cases hq
    rw [Function.update_of_ne hne]
    exact h.bare j hq

theorem Tree.addTable (h : Tree m root tab leaf) (hn : Frame n) (hnew : ∀ q, tab q ≠ some n)
    (hzero : ∀ x ∈ place n pageSize, m.byte x = 0) (hm : Only (place (t + 8 * i) 8) m m') (ht : tab p = some t)
    (hp : p.length < 2) (hi : i < 512) (hnone : tab (i :: p) = none) (hpte : readPte m' (t + 8 * i) = pointer n) :
    Tree m' root (Function.update tab (i :: p) (some n)) leaf := by
  have hold : ∀ {q t'}, q ≠ i :: p → Function.update tab (i :: p) (some n) q = some t' → tab q = some t' := by
    intro q t' hq ht'
    rwa [Function.update_of_ne hq] at ht'
  have hfresh : ∀ j, j < 512 → readPte m' (n + 8 * j) = noPte := by
    intro j hj
    have hdisj := (frame_disjoint hn (h.frame ht) fun he => hnew p (he ▸ ht)).mono (entry_subset hj) (entry_subset hi)
    rw [readPte_only hm hdisj]
    exact readPte_zero fun x hx => hzero x (entry_subset hj hx)
  -- Nothing hangs below the new table: its own path led nowhere before.
  have hchild : ∀ j, Function.update tab (i :: p) (some n) (j :: i :: p) = none := by
    intro j
    have hne : j :: i :: p ≠ i :: p := fun he => by simpa using congrArg List.length he
    rw [Function.update_of_ne hne]
    exact h.up j hnone
  refine ⟨?_, fun {q t'} hq => ?_, fun {q} j hq => ?_, fun {q q' t'} hq hq' => ?_, fun {q t'} hq => ?_,
    fun {q t' j} hq hlen hj => ?_, fun {q t' j} hq hlen hj => ?_, fun {q} j hq => ?_⟩
  · rw [Function.update_of_ne (List.cons_ne_nil i p).symm]
    exact h.root
  · by_cases he : q = i :: p
    · rw [he, List.length_cons]
      omega
    · exact h.depth (hold he hq)
  · by_cases he : j :: q = i :: p
    · obtain ⟨-, rfl⟩ := List.cons.inj he
      have hne : q ≠ i :: q := fun hc => by simpa using congrArg List.length hc
      rw [Function.update_of_ne hne, ht] at hq
      cases hq
    · by_cases hqe : q = i :: p
      · subst hqe
        exact hchild j
      · rw [Function.update_of_ne hqe] at hq
        rw [Function.update_of_ne he]
        exact h.up j hq
  · by_cases he : q = i :: p
    · by_cases he' : q' = i :: p
      · rw [he, he']
      · rw [he, Function.update_self] at hq
        obtain rfl := Option.some.inj hq
        exact absurd (hold he' hq') (hnew q')
    · by_cases he' : q' = i :: p
      · rw [he', Function.update_self] at hq'
        obtain rfl := Option.some.inj hq'
        exact absurd (hold he hq) (hnew q)
      · exact h.inj (hold he hq) (hold he' hq')
  · by_cases he : q = i :: p
    · rw [he, Function.update_self] at hq
      obtain rfl := Option.some.inj hq
      exact hn
    · exact h.frame (hold he hq)
  · by_cases he : q = i :: p
    · subst he
      rw [Function.update_self] at hq
      obtain rfl := Option.some.inj hq
      rw [hfresh j hj, hchild j]
      rfl
    · by_cases hje : j :: q = i :: p
      · obtain ⟨rfl, rfl⟩ := List.cons.inj hje
        have htt := hold he hq
        rw [ht] at htt
        obtain rfl := Option.some.inj htt
        rw [hpte, Function.update_self]
        rfl
      · rw [h.entry_ne hm ht hi (hold he hq) hj hje, Function.update_of_ne hje]
        exact h.inner (hold he hq) hlen hj
  · by_cases he : q = i :: p
    · subst he
      rw [Function.update_self] at hq
      obtain rfl := Option.some.inj hq
      rw [hfresh j hj, h.bare j hnone]
    · have hje : j :: q ≠ i :: p := by
        intro hc
        obtain ⟨-, rfl⟩ := List.cons.inj hc
        omega
      rw [h.entry_ne hm ht hi (hold he hq) hj hje]
      exact h.last (hold he hq) hlen hj
  · by_cases he : q = i :: p
    · rw [he, Function.update_self] at hq
      cases hq
    · rw [Function.update_of_ne he] at hq
      exact h.bare j hq

def target (e : Pte) (virt : Nat) : Option Nat :=
  if e.flags &&& pteFlagV = 0 then none else some (e.ppn * pageSize + virt % pageSize)

theorem pointer_page (ht : Frame t) : (pointer t).ppn * pageSize = t := by
  have ha := ht.aligned
  simp only [pointer, pageSize] at ha ⊢
  omega

theorem Tree.entryPage (h : Tree m root tab leaf) (ht : tab p = some t) (hp : p.length < 2) (hi : i < 512) :
    entryPage m (t + 8 * i) = tab (i :: p) := by
  have he := h.inner ht hp hi
  rw [readPte] at he
  cases hc : tab (i :: p) with
  | none =>
      rw [hc] at he
      rw [Vm.entryPage, show flags m (t + 8 * i) = 0 from congrArg Pte.flags he]
      rfl
  | some t' =>
      rw [hc] at he
      have hppn : ppn m (t + 8 * i) = (pointer t').ppn := congrArg Pte.ppn he
      rw [Vm.entryPage, show flags m (t + 8 * i) = pteFlagV from congrArg Pte.flags he, hppn,
        pointer_page (h.frame hc)]
      rfl

/-- What `vm.c` reads from the entry of a table is the table. -/
theorem Tree.ppnPage (h : Tree m root tab leaf) (ht : tab p = some t) (hp : p.length < 2) (hi : i < 512)
    (hc : tab (i :: p) = some t') : ppnPage m (t + 8 * i) = t' := by
  have he := h.inner ht hp hi
  rw [readPte, hc] at he
  have hppn : ppn m (t + 8 * i) = (pointer t').ppn := congrArg Pte.ppn he
  have hlow : (pointer t').ppn < 2 ^ 32 := Nat.div_lt_of_lt_mul (h.frame hc).lt
  rw [ppnPage_low (hppn ▸ hlow), hppn, pointer_page (h.frame hc)]

/-- The walk depends on the entry of the last level alone. -/
theorem Tree.walk (h : Tree m root tab leaf) (hv : v < 2 ^ 39) : walk m root v = target (leaf (path v)) v := by
  obtain ⟨h0, h1, h2⟩ := idx_lt hv
  have hnone : tab [idx1 v, idx0 v] = none → target (leaf (path v)) v = none := by
    intro hn
    rw [path, h.bare _ hn]
    rfl
  rw [Vm.walk, ← idx0_eq hv, h.entryPage h.root (by decide) h0]
  cases ht1 : tab [idx0 v] with
  | none => exact (hnone (h.up _ ht1)).symm
  | some t1 =>
      show (Vm.entryPage m (t1 + 8 * idx1 v)).bind _ = _
      rw [h.entryPage ht1 (Nat.lt_succ_self 1) h1]
      cases ht2 : tab [idx1 v, idx0 v] with
      | none => exact (hnone ht2).symm
      | some t2 =>
          have he := h.last ht2 rfl h2
          show (Vm.entryPage m (t2 + 8 * idx2 v)).bind _ = _
          rw [path, ← he, target, Vm.entryPage, readPte]
          by_cases hf : flags m (t2 + 8 * idx2 v) &&& pteFlagV = 0
          · rw [if_pos hf, if_pos hf, Option.bind_none]
          · rw [if_neg hf, if_neg hf, Option.bind_some]
            rfl

end Karg.TableTree
