import Karg.TreeInvariant

namespace Karg.TreeSteps

open Process ProcTable KernelModel QueueInvariant ProcInvariant TreeInvariant

variable {a : Model} {dead : ProcRef → Prop} {p q parent : ProcRef}

section Bury

theorem descends_bury (ht : Tree a dead)
    (hk : a.kin (.children p) = [] ∧ a.kin (.zombieChildren p) = []) (hq : a.live q) (hqi : q ≠ .idleProc) :
    Descends a.toData (fun q => q = p ∨ dead q) q := by
  have hfree : ∀ q, a.live q → (a.procs q).parent ≠ some p := by
    intro q hq hqp
    by_cases hdq : dead q
    · have hm := (ht.mem (.zombieChildren p) q).mpr ⟨hq, hqp, hdq⟩
      rw [hk.2] at hm
      exact List.not_mem_nil hm
    · have hm := (ht.mem (.children p) q).mpr ⟨hq, hqp, hdq⟩
      rw [hk.1] at hm
      exact List.not_mem_nil hm
  have h := ht.descends q hq hqi
  induction h with
  | init => exact .init
  | @child q parent hp hl hd h ih =>
      refine .child hp hl ?_ (ih hl ?_)
      · rintro (rfl | hdead)
        · exact hfree q hq hp
        · exact hd hdead
      · rintro rfl
        cases h with
        | child hp' => exact absurd (ht.idle.2.1.symm.trans hp') nofun

theorem bury_belongs (hd : ¬ dead p) (hp : (a.procs p).parent = some parent) (h : TreeNode) :
    Belongs a.toData (fun q => q = p ∨ dead q) q h ↔
      q = p ∧ h = .zombieChildren parent ∨ q ≠ p ∧ Belongs a.toData dead q h := by
  by_cases hq : q = p
  · subst hq
    cases h <;> simp [Belongs, hp, eq_comm]
  · cases h <;> simp [Belongs, hq]

theorem bury_tree (ht : Tree a dead) (hl : a.live p) (hd : ¬ dead p) (hi : p ≠ .idleProc) (hn : p ≠ .initProc)
    (hp : (a.procs p).parent = some parent) (hk : a.kin (.children p) = [] ∧ a.kin (.zombieChildren p) = []) :
    Tree (a.bury p parent) (fun q => q = p ∨ dead q) := by
  have hch : TreeNode.children parent ≠ .zombieChildren parent := by simp
  have hpm : ∀ h, p ∈ a.kin h → h = .children parent := fun h hm =>
    ((ht.mem h p).mp hm).2.unique ⟨hp, hd⟩
  -- As `p` is on one list only, it may be erased from all of them.
  have hkin : ∀ h, (a.bury p parent).kin h =
      if h = .zombieChildren parent then a.kin h ++ [p] else (a.kin h).erase p := by
    intro h
    by_cases hz : h = .zombieChildren parent
    · subst hz
      simp only [Model.bury, Function.update_self, Function.update_of_ne hch.symm, if_pos]
    · rw [if_neg hz]
      simp only [Model.bury, Function.update_of_ne hz]
      by_cases hc : h = .children parent
      · subst hc; rw [Function.update_self]
      · rw [Function.update_of_ne hc, List.erase_of_not_mem fun hm => hc (hpm h hm)]
  refine ⟨ht.table, ht.entry, ?_, ?_, ?_, ?_, fun q hq hqi => descends_bury (a := a) ht hk hq hqi, ht.lastPid⟩
  · exact ⟨ht.idle.1, ht.idle.2.1, fun h => h.elim (fun he => hi he.symm) ht.idle.2.2⟩
  · exact ⟨ht.init.1, ht.init.2.1, fun h => h.elim (fun he => hn he.symm) ht.init.2.2⟩
  · intro h q
    show _ ↔ a.live q ∧ Belongs a.toData _ q h
    rw [hkin, bury_belongs hd hp]
    split
    · next hz =>
      subst hz
      rw [List.mem_append, List.mem_singleton, ht.mem]
      constructor
      · rintro (hm | rfl)
        · refine ⟨hm.1, .inr ⟨?_, hm.2⟩⟩
          rintro rfl
          exact hd hm.2.2
        · exact ⟨hl, .inl ⟨rfl, rfl⟩⟩
      · rintro ⟨hq, ⟨rfl, -⟩ | ⟨-, hb⟩⟩
        · exact .inr rfl
        · exact .inl ⟨hq, hb⟩
    · next hz =>
      rw [(ht.nodup h).mem_erase_iff, ht.mem]
      constructor
      · exact fun hm => ⟨hm.2.1, .inr ⟨hm.1, hm.2.2⟩⟩
      · rintro ⟨hq, ⟨-, he⟩ | ⟨hne, hb⟩⟩
        · exact absurd he hz
        · exact ⟨hne, hq, hb⟩
  · intro h
    rw [hkin]
    split
    · next hz =>
      refine List.nodup_append.mpr ⟨ht.nodup h, List.pairwise_singleton _ p, ?_⟩
      rintro q hq _ hq' rfl
      rw [List.mem_singleton.mp hq'] at hq
      exact hch ((hpm h hq).symm.trans hz)
    · exact (ht.nodup h).erase p

end Bury

section Spawn

variable {addr pid : Nat}

theorem newPid_spec {d : Data} (hl : d.lastPid < procTableSize) (h : newPid d = some pid) :
    pid < procTableSize ∧ d.procTable pid = none := by
  simp only [newPid, Option.orElse_eq_orElse, Option.orElse_eq_or, Option.or_eq_some_iff] at h
  rcases h with h | ⟨-, h⟩
  · have hm := List.mem_of_find?_eq_some h
    have hn := List.find?_some h
    rw [List.mem_range'_1] at hm
    exact ⟨by omega, Option.isNone_iff_eq_none.mp hn⟩
  · have hm := List.mem_of_find?_eq_some h
    have hn := List.find?_some h
    rw [List.mem_range] at hm
    exact ⟨by omega, Option.isNone_iff_eq_none.mp hn⟩

theorem spawn_procs_ne (hq : q ≠ .heap addr) : (a.spawn addr pid parent).procs q = a.procs q := by
  show ((a.create (.heap addr) pid (some parent)).setState _ .ready).procs q = _
  rw [Data.setState, setProc_procs_ne _ _ hq, create_procs_ne hq]

theorem spawn_procs_self : ((a.spawn addr pid parent).procs (.heap addr)).pid = pid ∧
    ((a.spawn addr pid parent).procs (.heap addr)).parent = some parent := by
  simp [Model.spawn, Model.wake, Model.push, Model.create, Data.setState, Data.setProc, Data.setResume]

theorem spawn_belongs (h : TreeNode) :
    Belongs (a.spawn addr pid parent).toData (fun q => q ≠ .heap addr ∧ dead q) q h ↔
      q = .heap addr ∧ h = .children parent ∨ q ≠ .heap addr ∧ Belongs a.toData dead q h := by
  by_cases hq : q = .heap addr
  · subst hq
    cases h <;> simp [Belongs, spawn_procs_self.2, eq_comm]
  · cases h <;> simp [Belongs, hq, spawn_procs_ne hq]

theorem spawn_tree (ht : Tree a dead) (hf : a.allocated addr = false) (hl : a.live parent) (hd : ¬ dead parent)
    (hi : parent ≠ .idleProc) (hp : newPid a.toData = some pid) :
    Tree (a.spawn addr pid parent) (fun q => q ≠ .heap addr ∧ dead q) := by
  obtain ⟨hlt, hnone⟩ := newPid_spec ht.lastPid hp
  have hdead : ¬ a.live (.heap addr) := by simp [Data.live, hf]
  have hlive := spawn_live a addr pid parent
  have hold : ∀ h, .heap addr ∉ a.kin h := fun h hm => hdead ((ht.mem h _).mp hm).1
  have htab : (a.spawn addr pid parent).procTable = Function.update a.procTable pid (some (.heap addr)) := rfl
  have hkin : (a.spawn addr pid parent).kin =
    Function.update a.kin (.children parent) (a.kin (.children parent) ++ [.heap addr]) := rfl
  constructor
  · intro k q hk
    rw [htab] at hk
    by_cases hkp : k = pid
    · subst hkp
      rw [Function.update_self] at hk
      cases hk
      exact ⟨(hlive _).mpr (.inl rfl), spawn_procs_self.1⟩
    · rw [Function.update_of_ne hkp] at hk
      obtain ⟨hq, hpid⟩ := ht.table k q hk
      refine ⟨(hlive q).mpr (.inr hq), ?_⟩
      rw [spawn_procs_ne, hpid]
      rintro rfl
      exact hdead hq
  · intro q hq
    rcases (hlive q).mp hq with rfl | hq
    · exact ⟨pid, hlt, by rw [htab, Function.update_self]⟩
    · obtain ⟨k, hk, hkq⟩ := ht.entry q hq
      refine ⟨k, hk, ?_⟩
      rw [htab, Function.update_of_ne, hkq]
      rintro rfl
      cases hnone.symm.trans hkq
  · rw [spawn_procs_ne (by simp)]
    exact ⟨ht.idle.1, ht.idle.2.1, fun h => ht.idle.2.2 h.2⟩
  · rw [spawn_procs_ne (by simp)]
    exact ⟨ht.init.1, ht.init.2.1, fun h => ht.init.2.2 h.2⟩
  · intro h q
    have hmem : q ∈ (a.spawn addr pid parent).kin h ↔ q = .heap addr ∧ h = .children parent ∨ q ∈ a.kin h := by
      rw [hkin]
      by_cases hh : h = .children parent
      · subst hh
        simp only [Function.update_self, List.mem_append, List.mem_singleton, and_true]
        exact or_comm
      · simp only [Function.update_of_ne hh, hh, and_false, false_or]
    rw [hmem, hlive, spawn_belongs, ht.mem]
    by_cases hq : q = .heap addr
    · subst hq
      simp [hdead]
    · simp [hq]
  · intro h
    rw [hkin]
    by_cases hh : h = .children parent
    · subst hh
      rw [Function.update_self]
      refine List.nodup_append.mpr ⟨ht.nodup _, List.pairwise_singleton _ _, ?_⟩
      rintro q hq _ hq' rfl
      exact hold _ (List.mem_singleton.mp hq' ▸ hq)
    · rw [Function.update_of_ne hh]
      exact ht.nodup h
  · have hdesc : ∀ q, a.live q → q ≠ .idleProc →
        Descends (a.spawn addr pid parent).toData (fun q => q ≠ .heap addr ∧ dead q) q := by
      intro q hq hne
      refine (ht.descends q hq hne).mono hq (fun q hq => .inl ?_) ?_ fun h => ht.init.2.2 h.2
      · rw [spawn_procs_ne]
        rintro rfl
        exact hdead hq
      · exact fun q hq hd => ⟨(hlive q).mpr (.inr hq), fun h => hd h.2⟩
    intro q hq hne
    rcases (hlive q).mp hq with rfl | hq
    · exact .child spawn_procs_self.2 ((hlive _).mpr (.inr hl)) (fun h => hd h.2) (hdesc parent hl hi)
    · exact hdesc q hq hne
  · exact hlt

end Spawn

section Reap

variable {addr : Nat}

theorem reap_tree (ht : Tree a dead) (hz : .heap addr ∈ a.kin (.zombieChildren p)) : Tree (a.reap p addr) dead := by
  obtain ⟨hl, hb⟩ := (ht.mem _ _).mp hz
  obtain ⟨k, -, hk⟩ := ht.entry _ hl
  have hpid : (a.procs (.heap addr)).pid.toNat = k := by rw [(ht.table k _ hk).2, Int.toNat_natCast]
  have htab : ∀ k', (a.reap p addr).procTable k' = if k' = k then none else a.procTable k' := by
    intro k'
    simp only [Model.reap, hpid, Function.update_apply]
  have hkin : ∀ h, (a.reap p addr).kin h = (a.kin h).erase (.heap addr) := by
    intro h
    by_cases hh : h = .zombieChildren p
    · subst hh; simp only [Model.reap, Function.update_self]
    · simp only [Model.reap, Function.update_of_ne hh]
      rw [List.erase_of_not_mem]
      exact fun hm => hh (((ht.mem h _).mp hm).2.unique hb)
  constructor
  · intro k' q hq
    rw [htab] at hq
    split at hq
    · cases hq
    · next hne =>
      obtain ⟨hql, hqp⟩ := ht.table k' q hq
      refine ⟨(reap_live a p addr q).mpr ⟨?_, hql⟩, hqp⟩
      rintro rfl
      have hkk := (ht.table k _ hk).2.symm.trans hqp
      exact hne (Int.ofNat_inj.mp hkk).symm
  · intro q hq
    obtain ⟨hne, hq⟩ := (reap_live a p addr q).mp hq
    obtain ⟨k', hlt, hk'⟩ := ht.entry q hq
    refine ⟨k', hlt, ?_⟩
    rw [htab, if_neg, hk']
    rintro rfl
    exact hne (Option.some.inj (hk'.symm.trans hk))
  · exact ht.idle
  · exact ht.init
  · intro h q
    rw [hkin, (ht.nodup h).mem_erase_iff, ht.mem, reap_live, and_assoc]
    exact Iff.rfl
  · intro h
    rw [hkin]
    exact (ht.nodup h).erase _
  · intro q hq hne
    have hq' := (reap_live a p addr q).mp hq
    refine (ht.descends q hq'.2 hne).mono hq'.2 (fun q _ => .inl rfl) ?_ ht.init.2.2
    intro q hq hd
    refine ⟨(reap_live a p addr q).mpr ⟨?_, hq⟩, hd⟩
    rintro rfl
    exact hd hb.2
  · exact ht.lastPid

end Reap

end Karg.TreeSteps
