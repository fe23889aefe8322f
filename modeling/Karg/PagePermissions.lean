import Karg.Translation

namespace Karg.PagePermissions

open ByteMemory PageAlloc Vm TableTree VmRefinement PageTableMap Translation

def permissions : List (UInt32 × UInt8) :=
  [(vmFlagReadable, pteFlagR), (vmFlagWritable, pteFlagW), (vmFlagExecutable, pteFlagX), (vmFlagUser, pteFlagU)]

def HasPermissions (m : Memory) (root : Nat) (c : Call) : Prop :=
  ∃ f, leafFlags m root c.virt = some f ∧ f &&& pteFlagV ≠ 0 ∧ ∀ p ∈ permissions, f &&& p.2 ≠ 0 ↔ c.flags &&& p.1 ≠ 0

def Within (d c : Call) : Prop := ∀ p ∈ permissions, d.flags &&& p.1 ≠ 0 → c.flags &&& p.1 ≠ 0

variable {freeList v : Nat} {s : Run} {calls : List Call} {c : Call} {p : UInt32 × UInt8}

theorem pteFlags_bit (fl : UInt32) (hp : p ∈ permissions) : pteFlags fl &&& p.2 ≠ 0 ↔ fl &&& p.1 ≠ 0 := by
  have hall : ∀ p ∈ permissions, pteFlags fl &&& p.2 ≠ 0 ↔ fl &&& p.1 ≠ 0 := by
    by_cases hr : fl &&& vmFlagReadable = 0 <;> by_cases hw : fl &&& vmFlagWritable = 0 <;>
      by_cases hx : fl &&& vmFlagExecutable = 0 <;> by_cases hu : fl &&& vmFlagUser = 0 <;>
      simp only [permissions, pteFlags, hr, hw, hx, hu, List.forall_mem_cons, List.not_mem_nil, false_implies,
        implies_true, and_true, ne_eq, not_true, not_false_eq_true, if_true, if_false] <;> decide
  exact hall p hp

/-- An entry collects the permissions of all calls for its page. -/
theorem leafOf_bit (hcalls : ∀ c ∈ calls, c.virt < 2 ^ 39) (hv : v < 2 ^ 39) (hp : p ∈ permissions) :
    (leafOf calls (path v)).flags &&& p.2 ≠ 0 ↔
      ∃ d ∈ calls, d.virt / pageSize = v / pageSize ∧ d.flags &&& p.1 ≠ 0 := by
  induction calls with
  | nil =>
      have hzero : (leafOf [] (path v)).flags &&& p.2 = 0 := UInt8.zero_and
      simpa using hzero
  | cons d calls ih =>
      obtain ⟨hd, hcalls⟩ := List.forall_mem_cons.mp hcalls
      have hleaf : leafOf (d :: calls) = mapLeaf (leafOf calls) d.virt d.phys d.flags := rfl
      rw [List.exists_mem_cons_iff, hleaf, mapLeaf, ← ih hcalls]
      by_cases he : d.virt / pageSize = v / pageSize
      · have hpath : path v = path d.virt := (path_eq_iff hv hd).mpr he.symm
        rw [hpath, Function.update_self, Ne, or_and_eq_zero, not_and_or, ← pteFlags_bit d.flags hp, ← hpath]
        exact (or_congr_right (and_iff_right he).symm).trans or_comm
      · have hpath : path v ≠ path d.virt := fun hp => he ((path_eq_iff hv hd).mp hp).symm
        rw [Function.update_of_ne hpath]
        exact (or_iff_right fun h => he h.1).symm

/-- After a call that succeeds the entry for its page has the permissions of this
call if and only if no call before it for the same page asked for more. -/
theorem permissions_last_iff (h : Reached freeList s) (hc : c.virt < 2 ^ 39) {space : Space}
    (hrun : vmMapPage freeList s.space s.root c.virt c.phys c.flags = (space, 0)) :
    HasPermissions space.mem s.root c ↔ ∀ d ∈ s.calls, d.virt / pageSize = c.virt / pageSize → Within d c := by
  have hi : Invariant freeList (exec freeList s (.mapPage c)) := mapPage_invariant (reached_invariant h) hc
  have hexec : exec freeList s (.mapPage c) = ⟨space, s.root, c :: s.calls⟩ := by simp only [exec, hrun, if_true]
  rw [hexec] at hi
  obtain ⟨tab, free, hm⟩ := hi.mapped
  have hvalid : (leafOf (c :: s.calls) (path c.virt)).flags &&& pteFlagV ≠ 0 := by
    have hself : leafOf (c :: s.calls) (path c.virt) = _ := Function.update_self ..
    rw [hself]
    exact or_pteFlags_valid _ _
  have hne : leafOf (c :: s.calls) (path c.virt) ≠ noPte := fun he => hvalid (by rw [he]; rfl)
  have hflags := tree_leafFlags hm.tree hc hne
  have hbit : ∀ p ∈ permissions, (leafOf (c :: s.calls) (path c.virt)).flags &&& p.2 ≠ 0 ↔ c.flags &&& p.1 ≠ 0 ∨
      ∃ d ∈ s.calls, d.virt / pageSize = c.virt / pageSize ∧ d.flags &&& p.1 ≠ 0 := by
    intro p hp
    rw [leafOf_bit hi.virt hc hp, List.exists_mem_cons_iff, and_iff_right rfl]
  constructor
  · rintro ⟨f, hf, -, hperm⟩ d hd hpage p hp hdp
    obtain rfl := Option.some.inj (hf.symm.trans hflags)
    exact (hperm p hp).mp ((hbit p hp).mpr (.inr ⟨d, hd, hpage, hdp⟩))
  · intro hall
    refine ⟨_, hflags, hvalid, fun p hp => ?_⟩
    rw [hbit p hp]
    refine or_iff_left_of_imp ?_
    rintro ⟨d, hd, hpage, hdp⟩
    exact hall d hd hpage p hp hdp

theorem within_or (virt phys phys' : Nat) (fl fl' : UInt32) : Within ⟨virt, phys, fl⟩ ⟨virt, phys', fl ||| fl'⟩ := by
  intro p _ hfl he
  have hdist : (fl ||| fl') &&& p.1 = fl &&& p.1 ||| fl' &&& p.1 := by
    apply UInt32.toNat_inj.mp
    simp only [UInt32.toNat_and, UInt32.toNat_or, Nat.and_or_distrib_right]
  rw [hdist, UInt32.or_eq_zero_iff] at he
  exact hfl he.1

section Boot

theorem mapped_again (fl : UInt32) (c : Call) (hc : c.virt < 2 ^ 39) : ∃ s space, Reached 0x80300010 s ∧
    s.calls = [⟨0x1000, 0x80800000, fl⟩] ∧ vmMapPage 0x80300010 s.space s.root c.virt c.phys c.flags = (space, 0) := by
  obtain ⟨s, hs, tab, free, hm, hlen⟩ := start_of_init boot_region (by decide)
  have hlow : 0x1000 < 2 ^ 39 := by decide
  obtain ⟨s₁, res, tab₁, free₁, hrun, -, ⟨rfl, hlen₁, hm₁⟩ | ⟨-, hlt, -⟩⟩ := mapPage_refines hm hlow 0x80800000 fl
  · obtain ⟨s₂, res, tab₂, free₂, hrun₂, -, ⟨rfl, -⟩ | ⟨-, hlt, -⟩⟩ := mapPage_refines hm₁ hc c.phys c.flags
    · have hexec : exec 0x80300010 s (.mapPage ⟨0x1000, 0x80800000, fl⟩) = ⟨s₁, s.root, [⟨0x1000, 0x80800000, fl⟩]⟩ := by
        simp only [exec, hrun, if_true, hs.calls]
      have hreach : Reached 0x80300010 (exec 0x80300010 s (.mapPage ⟨0x1000, 0x80800000, fl⟩)) :=
        reached_exec (.start hs) hlow
      rw [hexec] at hreach
      exact ⟨_, s₂, hreach, rfl, hrun₂⟩
    · omega
  · omega

end Boot

/-- A page that was readable is made readable and writable. -/
theorem permissions_last_iff_more : ∃ s space, Reached 0x80300010 s ∧
    vmMapPage 0x80300010 s.space s.root 0x1000 0x80801000 (vmFlagReadable ||| vmFlagWritable) = (space, 0) ∧
    HasPermissions space.mem s.root ⟨0x1000, 0x80801000, vmFlagReadable ||| vmFlagWritable⟩ := by
  have hlow : 0x1000 < 2 ^ 39 := by decide
  obtain ⟨s, space, hs, hcalls, hrun⟩ :=
    mapped_again vmFlagReadable ⟨0x1000, 0x80801000, vmFlagReadable ||| vmFlagWritable⟩ hlow
  refine ⟨s, space, hs, hrun, (permissions_last_iff hs hlow hrun).mpr ?_⟩
  rw [hcalls, List.forall_mem_singleton]
  exact fun _ => within_or 0x1000 _ _ _ _

/-- A page that was readable and writable is made readable only, and stays writable. -/
theorem permissions_kept : ∃ s space, Reached 0x80300010 s ∧
    s.calls = [⟨0x1000, 0x80800000, vmFlagReadable ||| vmFlagWritable⟩] ∧
    vmMapPage 0x80300010 s.space s.root 0x1000 0x80801000 vmFlagReadable = (space, 0) ∧
    leafFlags space.mem s.root 0x1000 = some (pteFlagV ||| pteFlagR ||| pteFlagW) ∧
    ¬ HasPermissions space.mem s.root ⟨0x1000, 0x80801000, vmFlagReadable⟩ := by
  have hlow : 0x1000 < 2 ^ 39 := by decide
  obtain ⟨s, space, hs, hcalls, hrun⟩ :=
    mapped_again (vmFlagReadable ||| vmFlagWritable) ⟨0x1000, 0x80801000, vmFlagReadable⟩ hlow
  have hi : Invariant 0x80300010 (exec 0x80300010 s (.mapPage ⟨0x1000, 0x80801000, vmFlagReadable⟩)) :=
    mapPage_invariant (reached_invariant hs) hlow
  simp only [exec, hrun, if_true, hcalls] at hi
  obtain ⟨tab, free, hm⟩ := hi.mapped
  have hleaf : leafOf [⟨0x1000, 0x80801000, vmFlagReadable⟩, ⟨0x1000, 0x80800000, vmFlagReadable ||| vmFlagWritable⟩]
      (path 0x1000) = ⟨pteFlagV ||| pteFlagR ||| pteFlagW, 0x80801⟩ := by decide
  have hflags : leafFlags space.mem s.root 0x1000 = some (pteFlagV ||| pteFlagR ||| pteFlagW) := by
    have hne : leafOf [⟨0x1000, 0x80801000, vmFlagReadable⟩, ⟨0x1000, 0x80800000, vmFlagReadable ||| vmFlagWritable⟩]
        (path 0x1000) ≠ noPte := by decide
    have hread := tree_leafFlags hm.tree hlow hne
    exact hread.trans (congrArg (fun e => some e.flags) hleaf)
  refine ⟨s, space, hs, hcalls, hrun, hflags, ?_⟩
  rintro ⟨f, hf, -, hperm⟩
  obtain rfl := Option.some.inj (hflags.symm.trans hf)
  have hw := hperm (vmFlagWritable, pteFlagW) (by decide)
  exact absurd hw (by decide)

end Karg.PagePermissions
