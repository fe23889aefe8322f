import Karg.KernelModel
import Karg.TimerQueue

namespace Karg.KernelRefinement

open LinkStore CircularList ListFamily ListNode TimerService TimerQueue Process KernelModel

def QueueHead (d : Data) : QueueNode → Prop
  | .readyQueue => True
  | .waitQueue sem => d.semInited sem
  | .node _ => False

def TreeHead (E : TimerRef → Prop) : TreeNode → Prop
  | .children p | .zombieChildren p => E (.proc p)
  | .treeNode _ => False

/-- The kernel's links spell out the sequences of the model. The timers `E`, and
the processes that own them, are initialised. -/
structure Refines (E : TimerRef → Prop) (k : Kernel) (a : Model) : Prop where
  data : k.toData = a.toData
  queues : Family k.queues (QueueHead a.toData) fun h => (a.queue h).map .node
  tree : Family k.tree (TreeHead E) fun h => (a.kin h).map .treeNode
  timers : Holds k.timers E a.sleepers
  timer : k.timers.timers = a.timer
  timerFreq : k.timers.timerFreq = a.timerFreq

variable {E : TimerRef → Prop} {k : Kernel} {a : Model} {p q : ProcRef} {l r : List ProcRef}

theorem map_update {α β γ : Type} [DecidableEq α] (f : β → γ) (F : α → List β) (x : α) (l : List β) :
    (fun y => (Function.update F x l y).map f) = Function.update (fun y => (F y).map f) x (l.map f) := by
  funext y
  by_cases hy : y = x
  · subst hy; simp only [Function.update_self]
  · simp only [Function.update_of_ne hy]

theorem Refines.setData (h : Refines E k a) {d : Data} (hd : d.semInited = a.semInited) :
    Refines E { k with toData := d } { a with toData := d } where
  data := rfl
  queues := by
    have hh : QueueHead d = QueueHead a.toData := by
      funext g
      cases g <;> simp only [QueueHead, hd]
    rw [hh]
    exact h.queues
  tree := h.tree
  timers := h.timers
  timer := h.timer
  timerFreq := h.timerFreq

theorem Refines.state_eq (h : Refines E k a) (p : ProcRef) : (k.procs p).state = (a.procs p).state := by
  rw [h.data]

theorem Refines.restrict (h : Refines E k a) {E' : TimerRef → Prop} (hE : ∀ t, E' t → E t) : Refines E' k a where
  data := h.data
  queues := h.queues
  tree := h.tree.restrict fun g hg => by
    cases g with
    | children | zombieChildren => exact hE _ hg
    | treeNode => exact hg
  timers := h.timers.mono fun t _ => hE t
  timer := h.timer
  timerFreq := h.timerFreq

section Queues

variable {g : QueueNode}

theorem Refines.fresh (hp : ∀ g, QueueHead a.toData g → p ∉ a.queue g) :
    Fresh (Links QueueNode) (QueueHead a.toData) (fun h => (a.queue h).map .node) (.node p) :=
  fresh_map (fun _ _ => QueueNode.node.inj) (fun hg => hg) hp

theorem Refines.front (h : Refines E k a) (hg : QueueHead a.toData g) :
    listFront k.queues g = ((a.queue g).map .node).headD g :=
  circular_next (h.queues.circular g hg)

theorem Refines.pushFront (h : Refines E k a) (hg : QueueHead a.toData g)
    (hp : ∀ g, QueueHead a.toData g → p ∉ a.queue g) :
    Refines E { k with queues := listPushFront k.queues g (.node p) }
      { a with queue := Function.update a.queue g (p :: a.queue g) } := by
  refine ⟨h.data, ?_, h.tree, h.timers, h.timer, h.timerFreq⟩
  rw [map_update]
  exact family_listPushFront h.queues hg (Refines.fresh hp) trivial

theorem Refines.pushBack (h : Refines E k a) (hg : QueueHead a.toData g)
    (hp : ∀ g, QueueHead a.toData g → p ∉ a.queue g) :
    Refines E { k with queues := listPushBack k.queues g (.node p) }
      { a with queue := Function.update a.queue g (a.queue g ++ [p]) } := by
  refine ⟨h.data, ?_, h.tree, h.timers, h.timer, h.timerFreq⟩
  rw [map_update, List.map_append]
  exact family_listPushBack h.queues hg (Refines.fresh hp) trivial

theorem Refines.removeFront (h : Refines E k a) (hg : QueueHead a.toData g) (hq : a.queue g = p :: r) :
    Refines E { k with queues := listRemove k.queues (.node p) }
      { a with queue := Function.update a.queue g r } := by
  refine ⟨h.data, ?_, h.tree, h.timers, h.timer, h.timerFreq⟩
  rw [map_update]
  exact family_listRemove h.queues (l := []) hg (by simp only [hq, List.map_cons, List.nil_append])

end Queues

section Tree

variable {g src dst : TreeNode}

theorem Refines.tree_front (h : Refines E k a) (hg : TreeHead E g) :
    listFront k.tree g = ((a.kin g).map .treeNode).headD g :=
  circular_next (h.tree.circular g hg)

theorem Refines.tree_empty (h : Refines E k a) (hg : TreeHead E g) : listEmpty k.tree g = (a.kin g).isEmpty := by
  rw [family_listEmpty h.tree hg]
  cases a.kin g <;> rfl

theorem Refines.tree_fresh (hp : ∀ g, TreeHead E g → p ∉ a.kin g) :
    Fresh (Links TreeNode) (TreeHead E) (fun h => (a.kin h).map .treeNode) (.treeNode p) :=
  fresh_map (fun _ _ => TreeNode.treeNode.inj) (fun hg => hg) hp

theorem Refines.treePushBack (h : Refines E k a) (hg : TreeHead E g) (hp : ∀ g, TreeHead E g → p ∉ a.kin g) :
    Refines E { k with tree := listPushBack k.tree g (.treeNode p) }
      { a with kin := Function.update a.kin g (a.kin g ++ [p]) } := by
  refine ⟨h.data, h.queues, ?_, h.timers, h.timer, h.timerFreq⟩
  rw [map_update, List.map_append]
  exact family_listPushBack h.tree hg (Refines.tree_fresh hp) trivial

theorem Refines.treeRemove (h : Refines E k a) (hg : TreeHead E g) (hk : a.kin g = l ++ p :: r) :
    Refines E { k with tree := listRemove k.tree (.treeNode p) }
      { a with kin := Function.update a.kin g (l ++ r) } := by
  refine ⟨h.data, h.queues, ?_, h.timers, h.timer, h.timerFreq⟩
  rw [map_update, List.map_append]
  exact family_listRemove h.tree hg (by simp only [hk, List.map_append, List.map_cons])

theorem Refines.treeMove (h : Refines E k a) (hs : TreeHead E src) (dst : TreeNode) (hd : TreeHead E dst)
    (hk : a.kin src = l ++ p :: r) :
    Refines E { k with tree := listPushBack (listRemove k.tree (.treeNode p)) dst (.treeNode p) }
      { a with
        kin := Function.update (Function.update a.kin src (l ++ r)) dst
          (Function.update a.kin src (l ++ r) dst ++ [p]) } := by
  have hF : (fun g => (a.kin g).map TreeNode.treeNode) src = l.map .treeNode ++ .treeNode p :: r.map .treeNode := by
    simp only [hk, List.map_append, List.map_cons]
  have hfresh := h.tree.fresh_unlink hs hF
  have hrem := h.treeRemove hs hk
  rw [← List.map_append, ← map_update] at hfresh
  refine ⟨h.data, h.queues, ?_, h.timers, h.timer, h.timerFreq⟩
  rw [map_update _ (Function.update a.kin src (l ++ r)), List.map_append]
  exact family_listPushBack hrem.tree hd hfresh trivial

end Tree

end Karg.KernelRefinement
