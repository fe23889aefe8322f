import Karg.ProcInvariant

namespace Karg.TreeInvariant

open Process ProcTable KernelModel QueueInvariant ProcInvariant

inductive Descends (d : Data) (dead : ProcRef → Prop) : ProcRef → Prop
  | init : Descends d dead .initProc
  | child {p parent : ProcRef} (hp : (d.procs p).parent = some parent) (hl : d.live parent)
      (hd : ¬ dead parent) (h : Descends d dead parent) : Descends d dead p

def Belongs (d : Data) (dead : ProcRef → Prop) (p : ProcRef) : TreeNode → Prop
  | .children parent => (d.procs p).parent = some parent ∧ ¬ dead p
  | .zombieChildren parent => (d.procs p).parent = some parent ∧ dead p
  | .treeNode _ => False

/-- The process table and the process tree, when the processes `dead` have exited. -/
structure Tree (a : Model) (dead : ProcRef → Prop) : Prop where
  table (pid : Nat) (p : ProcRef) : a.procTable pid = some p → a.live p ∧ (a.procs p).pid = pid
  entry (p : ProcRef) : a.live p → ∃ pid < procTableSize, a.procTable pid = some p
  idle : (a.procs .idleProc).pid = 0 ∧ (a.procs .idleProc).parent = none ∧ ¬ dead .idleProc
  init : (a.procs .initProc).pid = 1 ∧ (a.procs .initProc).parent = none ∧ ¬ dead .initProc
  mem (h : TreeNode) (p : ProcRef) : p ∈ a.kin h ↔ a.live p ∧ Belongs a.toData dead p h
  nodup (h : TreeNode) : (a.kin h).Nodup
  descends (p : ProcRef) : a.live p → p ≠ .idleProc → Descends a.toData dead p
  lastPid : a.lastPid < procTableSize

variable {a b : Model} {dead dead' : ProcRef → Prop} {p q parent : ProcRef}

theorem Belongs.unique {d : Data} {h h' : TreeNode} (hb : Belongs d dead p h) (hb' : Belongs d dead p h') :
    h = h' := by
  cases h with
  | treeNode => exact hb.elim
  | children | zombieChildren =>
      cases h' with
      | treeNode => exact hb'.elim
      | children | zombieChildren => grind [Belongs]

theorem Descends.mono {d d' : Data} (h : Descends d dead p) (hlive : d.live p)
    (hp : ∀ q, d.live q → (d'.procs q).parent = (d.procs q).parent ∨ (d'.procs q).parent = some .initProc)
    (hl : ∀ q, d.live q → ¬ dead q → d'.live q ∧ ¬ dead' q) (hi : ¬ dead' .initProc) : Descends d' dead' p := by
  induction h with
  | init => exact .init
  | @child p parent hpar hl' hd _ ih =>
      rcases hp p hlive with he | he
      · exact .child (he.trans hpar) (hl parent hl' hd).1 (hl parent hl' hd).2 (ih hl')
      · exact .child he rfl hi .init

theorem Tree.transfer (ht : Tree a dead) (hd : ∀ q, dead' q ↔ dead q)
    (hp : ∀ q, (b.procs q).pid = (a.procs q).pid ∧ (b.procs q).parent = (a.procs q).parent)
    (hv : (b.procTable, b.lastPid, b.allocated, b.kin) = (a.procTable, a.lastPid, a.allocated, a.kin)) :
    Tree b dead' := by
  simp only [Prod.mk.injEq] at hv
  obtain ⟨htab, hlast, hal, hkin⟩ := hv
  obtain rfl : dead' = dead := funext fun q => propext (hd q)
  have hlive : ∀ q, b.live q = a.live q := Data.live_congr hal
  constructor
  · intro pid q; rw [htab, hlive, (hp q).1]; exact ht.table pid q
  · intro q; rw [htab, hlive]; exact ht.entry q
  · rw [(hp _).1, (hp _).2]; exact ht.idle
  · rw [(hp _).1, (hp _).2]; exact ht.init
  · intro h q
    rw [hkin, hlive, ht.mem h q]
    cases h <;> simp only [Belongs, (hp q).2]
  · intro h; rw [hkin]; exact ht.nodup h
  · intro q hq hne
    refine (ht.descends q (hlive q ▸ hq) hne).mono (hlive q ▸ hq) (fun q _ => .inl (hp q).2) ?_ ht.init.2.2
    exact fun q hq hd => ⟨(hlive q).symm ▸ hq, hd⟩
  · rw [hlast]; exact ht.lastPid

theorem Tree.exists_parent (ht : Tree a dead) (hl : a.live p) (hi : p ≠ .idleProc) (hn : p ≠ .initProc) :
    ∃ parent, (a.procs p).parent = some parent ∧ a.live parent ∧ ¬ dead parent ∧ parent ≠ .idleProc := by
  cases ht.descends p hl hi with
  | init => exact absurd rfl hn
  | @child _ parent hp hlive hd h =>
      refine ⟨parent, hp, hlive, hd, ?_⟩
      rintro rfl
      cases h with
      | child hp' => exact absurd (ht.idle.2.1.symm.trans hp') nofun

theorem Tree.orphan (ht : Tree a dead) (hp : (a.procs p).parent = none) (h : TreeNode) : p ∉ a.kin h := by
  intro hm
  have hb := ((ht.mem h p).mp hm).2
  cases h with
  | children | zombieChildren => exact absurd (hp.symm.trans hb.1) nofun
  | treeNode => exact hb

section Adopt

variable {src dst : TreeNode}

def Adoptive (p : ProcRef) (src dst : TreeNode) : Prop :=
  src = .children p ∧ dst = .children .initProc ∨ src = .zombieChildren p ∧ dst = .zombieChildren .initProc

theorem Adoptive.ne (hs : Adoptive p src dst) (hp : p ≠ .initProc) : src ≠ dst := by
  rcases hs with ⟨rfl, rfl⟩ | ⟨rfl, rfl⟩ <;> simpa using hp

theorem adopt_procs_mem (dst : TreeNode) (hq : q ∈ a.kin src) :
    (a.adopt src dst .initProc).procs q = { a.procs q with parent := some .initProc } := if_pos hq

theorem adopt_procs_not_mem (dst : TreeNode) (hq : q ∉ a.kin src) :
    (a.adopt src dst .initProc).procs q = a.procs q := if_neg hq

theorem adopt_belongs (ht : Tree a dead) (hs : Adoptive p src dst) (hp : p ≠ .initProc) (hl : a.live q)
    (h : TreeNode) : Belongs (a.adopt src dst .initProc).toData dead q h ↔
      h ≠ src ∧ (Belongs a.toData dead q h ∨ h = dst ∧ q ∈ a.kin src) := by
  by_cases hq : q ∈ a.kin src
  · have hb := ((ht.mem src q).mp hq).2
    have hd : Belongs (a.adopt src dst .initProc).toData dead q dst := by
      rcases hs with ⟨rfl, rfl⟩ | ⟨rfl, rfl⟩ <;> exact ⟨by rw [adopt_procs_mem _ hq], hb.2⟩
    constructor
    · intro hh
      obtain rfl := hh.unique hd
      exact ⟨(hs.ne hp).symm, .inr ⟨rfl, hq⟩⟩
    · rintro ⟨hne, hh | ⟨rfl, -⟩⟩
      · exact absurd (hh.unique hb) hne
      · exact hd
  · have he : Belongs (a.adopt src dst .initProc).toData dead q h ↔ Belongs a.toData dead q h := by
      cases h <;> simp only [Belongs, adopt_procs_not_mem _ hq]
    rw [he]
    constructor
    · refine fun hh => ⟨?_, .inl hh⟩
      rintro rfl
      exact hq ((ht.mem h q).mpr ⟨hl, hh⟩)
    · rintro ⟨-, hh | hh⟩
      · exact hh
      · exact absurd hh.2 hq

theorem adopt_tree (ht : Tree a dead) (hs : Adoptive p src dst) (hp : p ≠ .initProc) :
    Tree (a.adopt src dst .initProc) dead := by
  have hpid : ∀ q, ((a.adopt src dst .initProc).procs q).pid = (a.procs q).pid := by
    intro q
    simp only [Model.adopt]
    split <;> rfl
  have hkin : ∀ h, (a.adopt src dst .initProc).kin h =
      if h = src then [] else if h = dst then a.kin dst ++ a.kin src else a.kin h := by
    intro h
    simp only [Model.adopt, Function.update_apply]
  constructor
  · intro pid q; rw [hpid]; exact ht.table pid q
  · exact ht.entry
  · rw [adopt_procs_not_mem _ (ht.orphan ht.idle.2.1 src)]; exact ht.idle
  · rw [adopt_procs_not_mem _ (ht.orphan ht.init.2.1 src)]; exact ht.init
  · intro h q
    rw [hkin]
    by_cases hsrc : h = src
    · rw [if_pos hsrc]
      refine ⟨fun hm => absurd hm List.not_mem_nil, fun hm => ?_⟩
      exact absurd hsrc ((adopt_belongs ht hs hp hm.1 h).mp hm.2).1
    · rw [if_neg hsrc]
      have hb := fun hl => adopt_belongs ht hs hp (q := q) hl h
      by_cases hdst : h = dst
      · rw [if_pos hdst, List.mem_append, ← hdst, ht.mem h q]
        constructor
        · rintro (hm | hm)
          · exact ⟨hm.1, (hb hm.1).mpr ⟨hsrc, .inl hm.2⟩⟩
          · have hl := ((ht.mem src q).mp hm).1
            exact ⟨hl, (hb hl).mpr ⟨hsrc, .inr ⟨hdst, hm⟩⟩⟩
        · rintro ⟨hl, hm⟩
          exact (((hb hl).mp hm).2.imp (fun hm => ⟨hl, hm⟩) fun hm => hm.2)
      · rw [if_neg hdst, ht.mem h q]
        refine and_congr_right fun hl => ?_
        rw [hb hl]
        exact ⟨fun hm => ⟨hsrc, .inl hm⟩, fun hm => hm.2.resolve_right fun hd => hdst hd.1⟩
  · intro h
    rw [hkin]
    split
    · exact List.nodup_nil
    · split
      · refine List.nodup_append.mpr ⟨ht.nodup dst, ht.nodup src, ?_⟩
        rintro q hq _ hq' rfl
        exact hs.ne hp (((ht.mem src q).mp hq').2.unique ((ht.mem dst q).mp hq).2)
      · exact ht.nodup h
  · -- The chain of parents of an adopted process now ends one step above it.
    intro q hq hne
    refine (ht.descends q hq hne).mono hq (fun q _ => ?_) (fun q hl hd => ⟨hl, hd⟩) ht.init.2.2
    by_cases hm : q ∈ a.kin src
    · exact .inr (by rw [adopt_procs_mem _ hm])
    · exact .inl (by rw [adopt_procs_not_mem _ hm])
  · exact ht.lastPid

end Adopt

end Karg.TreeInvariant
