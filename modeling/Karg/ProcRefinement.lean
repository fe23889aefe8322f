import Karg.KernelRefinement

namespace Karg.ProcRefinement

open LinkStore ListFamily ListNode TimerService TimerQueue Process ProcTable Syscalls KernelModel KernelRefinement

variable {E : TimerRef → Prop} {k : Kernel} {a : Model} {p init : ProcRef} {src dst : TreeNode} {l r : List ProcRef}

section Init

variable {pid : Nat}

theorem initHead_tree {s : Links TreeNode} {H : TreeNode → Prop} {kin : TreeNode → List ProcRef}
    (h : Family s H fun g => (kin g).map .treeNode) {g : TreeNode} (hg : ¬ H g) (ht : ∀ q, g ≠ .treeNode q)
    (hk : kin g = []) : Family (listInitHead s g) (fun g' => g' = g ∨ H g') fun g => (kin g).map .treeNode := by
  have hfresh : Fresh (Links TreeNode) H (fun g => (kin g).map .treeNode) g := by
    intro g' hg' y hy
    rcases List.mem_cons.mp hy with rfl | hy
    · rintro rfl
      exact hg hg'
    · obtain ⟨q, -, rfl⟩ := List.mem_map.mp hy
      exact ht q
  refine (family_initHead h hfresh trivial).congr fun g' _ => ?_
  by_cases he : g' = g
  · subst he; rw [Function.update_self, hk]; rfl
  · rw [Function.update_of_ne he]

theorem initLists_refines (h : Refines E k a) (hE : ¬ E (.proc p)) (hs : .proc p ∉ a.sleepers)
    (hc : a.kin (.children p) = [] ∧ a.kin (.zombieChildren p) = []) :
    Refines (fun t => t = .proc p ∨ E t)
      { k with
        tree := listInitHead (listInitHead k.tree (.children p)) (.zombieChildren p)
        timers := timerInit k.timers (.proc p) } a := by
  refine ⟨h.data, h.queues, ?_, timerInit_holds h.timers hs, h.timer, h.timerFreq⟩
  have h₁ := initHead_tree h.tree (g := .children p) hE (by simp) hc.1
  have h₂ := initHead_tree h₁ (g := .zombieChildren p) (by simpa [TreeHead] using hE) (by simp) hc.2
  refine h₂.restrict ?_
  intro g hg
  cases g with
  | children q =>
      rcases hg with hg | hg
      · cases hg; exact .inr (.inl rfl)
      · exact .inr (.inr hg)
  | zombieChildren q =>
      rcases hg with hg | hg
      · cases hg; exact .inl rfl
      · exact .inr (.inr hg)
  | treeNode => exact hg.elim

theorem procInit_refines (h : Refines E k a) (hp : newPid a.toData = some pid) (hE : ¬ E (.proc p))
    (hs : .proc p ∉ a.sleepers) (hk : ∀ g, p ∉ a.kin g)
    (hc : a.kin (.children p) = [] ∧ a.kin (.zombieChildren p) = [])
    (parent : Option ProcRef) (hpar : ∀ q, parent = some q → E (.proc q)) :
    ∃ k', procInit k p parent 0 = (k', 0) ∧
      Refines (fun t => t = .proc p ∨ E t) k' (a.create p pid parent) := by
  have hinit := initLists_refines h hE hs hc
  have hset := hinit.setData (d := (a.create p pid parent).toData) rfl
  cases parent with
  | none =>
      refine ⟨_, ?_, hset⟩
      rw [procInit, h.data, hp]
      rfl
  | some q =>
      refine ⟨_, ?_, hset.treePushBack (g := .children q) (.inr (hpar q rfl)) fun g _ => hk g⟩
      rw [procInit, h.data, hp]
      rfl

end Init

section Adopt

def Kind (a : Model) (list : ProcRef → TreeNode) (p : ProcRef) : Prop :=
  list = .children ∧ (a.procs p).state ≠ .zombie ∨ list = .zombieChildren ∧ (a.procs p).state = .zombie

variable {list : ProcRef → TreeNode}

def adoptFirst (a : Model) (src dst : TreeNode) (init p : ProcRef) (rest : List ProcRef) : Model :=
  { a with
    toData := a.setProc p { a.procs p with parent := some init }
    kin := Function.update (Function.update a.kin src rest) dst (Function.update a.kin src rest dst ++ [p]) }

theorem procAdopt_refines (h : Refines E k a) (hs : TreeHead E src) (hE : E (.proc init)) (hk : a.kin src = p :: r)
    (hp : Kind a list p) : Refines E (procAdopt k init p) (adoptFirst a src (list init) init p r) := by
  have hset := h.setData (d := a.setProc p { a.procs p with parent := some init }) rfl
  have hmove := hset.treeMove (l := []) hs (list init)
    (by rcases hp with ⟨rfl, -⟩ | ⟨rfl, -⟩ <;> exact hE) hk
  simp only [procAdopt, h.data, setProc_procs_self]
  rcases hp with ⟨rfl, hz⟩ | ⟨rfl, hz⟩
  · rw [if_pos hz]; exact hmove
  · rw [if_neg (by simpa using hz)]; exact hmove

theorem adoptFirst_state (q : ProcRef) : ((adoptFirst a src dst init p r).procs q).state = (a.procs q).state := by
  by_cases hq : q = p
  · subst hq
    simp only [adoptFirst, setProc_procs_self]
  · simp only [adoptFirst, setProc_procs_ne _ _ hq]

theorem adoptFirst_adopt (hne : src ≠ dst) (hk : a.kin src = p :: r) :
    (adoptFirst a src dst init p r).adopt src dst init = a.adopt src dst init := by
  have hsrc : (adoptFirst a src dst init p r).kin src = r := by
    simp only [adoptFirst, Function.update_of_ne hne, Function.update_self]
  have hdst : (adoptFirst a src dst init p r).kin dst = a.kin dst ++ [p] := by
    simp only [adoptFirst, Function.update_self, Function.update_of_ne hne.symm]
  have hprocs : ((adoptFirst a src dst init p r).adopt src dst init).procs = (a.adopt src dst init).procs := by
    funext q
    simp only [Model.adopt, hsrc, hk, List.mem_cons]
    by_cases hq : q = p
    · subst hq
      simp [adoptFirst]
    · simp only [adoptFirst, setProc_procs_ne _ _ hq, hq, false_or]
  have hkin : ((adoptFirst a src dst init p r).adopt src dst init).kin = (a.adopt src dst init).kin := by
    funext g
    simp only [Model.adopt, hsrc, hdst, hk]
    by_cases hg : g = src
    · subst hg; simp only [Function.update_self]
    · simp only [Function.update_of_ne hg]
      by_cases hd : g = dst
      · subst hd; simp only [Function.update_self, List.append_assoc, List.singleton_append]
      · simp only [Function.update_of_ne hd, adoptFirst, Function.update_of_ne hg]
  exact congrArg₂ (fun procs kin => ({ a with procs := procs, kin := kin } : Model)) hprocs hkin

theorem adoptLoop_done (h : Refines E k a) (list : ProcRef → TreeNode) (hs : TreeHead E (list p))
    (hk : a.kin (list p) = []) (fuel : Nat) :
    adoptLoop list p (fuel + 1) k = some k := by
  rw [adoptLoop, h.tree_empty hs, hk]
  rfl

theorem adoptLoop_cons (h : Refines E k a) {x : ProcRef} {xs : List ProcRef} (hs : TreeHead E (list p))
    (hone : a.procTable 1 = some init) (hk : a.kin (list p) = x :: xs) (fuel : Nat) :
    adoptLoop list p (fuel + 1) k = adoptLoop list p fuel (procAdopt k init x) := by
  have hfront : listFront k.tree (list p) = .treeNode x := by
    rw [h.tree_front hs, hk]
    rfl
  rw [adoptLoop, h.tree_empty hs, hk, hfront, h.data]
  simp only [List.isEmpty_cons, Bool.false_eq_true, if_false, entryTreeNode, Option.bind_eq_bind, Option.bind_some, hone]

theorem adoptLoop_refines (h : Refines E k a) (hp : E (.proc p)) (init : ProcRef) (hE : E (.proc init))
    (hne : list p ≠ list init)
    (hinit : a.procTable 1 = some init) (hk : ∀ q ∈ a.kin (list p), Kind a list q)
    (hl : list = .children ∨ list = .zombieChildren) :
    ∃ k', (∀ fuel, (a.kin (list p)).length < fuel → adoptLoop list p fuel k = some k') ∧
      Refines E k' (a.adopt (list p) (list init) init) := by
  have hs : TreeHead E (list p) := by
    rcases hl with rfl | rfl <;> exact hp
  generalize hxs : a.kin (list p) = xs
  induction xs generalizing k a with
  | nil =>
      refine ⟨k, fun fuel hfuel => ?_, ?_⟩
      · obtain ⟨fuel, rfl⟩ := Nat.exists_eq_succ_of_ne_zero (Nat.ne_zero_of_lt hfuel)
        exact adoptLoop_done h list hs hxs fuel
      · have he : a.adopt (list p) (list init) init = a := by
          simp only [Model.adopt, hxs, List.not_mem_nil, if_false, List.append_nil, Function.update_eq_self]
          rw [← hxs, Function.update_eq_self]
        rwa [he]
  | cons x xs ih =>
      have hx := hk x (by rw [hxs]; exact List.mem_cons_self)
      have h₁ := procAdopt_refines h hs hE hxs hx
      have hsrc : (adoptFirst a (list p) (list init) init x xs).kin (list p) = xs := by
        simp only [adoptFirst, Function.update_of_ne hne, Function.update_self]
      have hkind : ∀ q ∈ xs, Kind (adoptFirst a (list p) (list init) init x xs) list q := by
        intro q hq
        rw [Kind, adoptFirst_state]
        exact hk q (by rw [hxs]; exact List.mem_cons_of_mem _ hq)
      obtain ⟨k', hk', h'⟩ := ih h₁ hinit (by rw [hsrc]; exact hkind) hsrc
      rw [adoptFirst_adopt hne hxs] at h'
      refine ⟨k', fun fuel hfuel => ?_, h'⟩
      obtain ⟨fuel, rfl⟩ := Nat.exists_eq_succ_of_ne_zero (Nat.ne_zero_of_lt hfuel)
      rw [adoptLoop_cons h hs hinit hxs]
      exact hk' fuel (by simpa using hfuel)

end Adopt

end Karg.ProcRefinement
