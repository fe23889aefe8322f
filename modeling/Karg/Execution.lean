import Mathlib.Data.Nat.Basic

namespace Karg.Execution

variable {α β σ ι ε : Type}

/-- A computation that is given rounds of its loops as fuel returns `a` from
some amount of fuel on. -/
def Converges (f : Nat → Option α) (a : α) : Prop := ∃ n, ∀ fuel, n ≤ fuel → f fuel = some a

theorem Converges.unique {f : Nat → Option α} {a b : α} (ha : Converges f a) (hb : Converges f b) : a = b := by
  obtain ⟨n, hn⟩ := ha
  obtain ⟨m, hm⟩ := hb
  have h := hn (max n m) (Nat.le_max_left _ _)
  rw [hm (max n m) (Nat.le_max_right _ _)] at h
  exact (Option.some.inj h).symm

theorem Converges.of_forall {f : Nat → Option α} {a : α} (h : ∀ fuel, f fuel = some a) : Converges f a :=
  ⟨0, fun fuel _ => h fuel⟩

theorem Converges.bind {f : Nat → Option α} {g : Nat → α → Option β} {a : α} {b : β}
    (hf : Converges f a) (hg : Converges (fun fuel => g fuel a) b) :
    Converges (fun fuel => (f fuel).bind (g fuel)) b := by
  obtain ⟨n, hn⟩ := hf
  obtain ⟨m, hm⟩ := hg
  refine ⟨max n m, fun fuel hfuel => ?_⟩
  simp only [hn fuel (Nat.le_trans (Nat.le_max_left _ _) hfuel), Option.bind_some]
  exact hm fuel (Nat.le_trans (Nat.le_max_right _ _) hfuel)

theorem Converges.map {f : Nat → Option α} {a : α} (hf : Converges f a) (g : α → β) :
    Converges (fun fuel => (f fuel).map g) (g a) := by
  obtain ⟨n, hn⟩ := hf
  exact ⟨n, fun fuel hfuel => congrArg (Option.map g) (hn fuel hfuel)⟩

theorem Converges.common {f : Nat → Option α} {g : Nat → Option β} {a : α} {b : β} (hf : Converges f a)
    (hg : Converges g b) : ∃ fuel, f fuel = some a ∧ g fuel = some b := by
  obtain ⟨n, hn⟩ := hf
  obtain ⟨m, hm⟩ := hg
  exact ⟨max n m, hn _ (Nat.le_max_left _ _), hm _ (Nat.le_max_right _ _)⟩

inductive Reachable (init : σ → Prop) (step : σ → ι → σ → Prop) : σ → Prop
  | start {s : σ} (h : init s) : Reachable init step s
  | next {s s' : σ} (i : ι) (h : Reachable init step s) (hs : step s i s') : Reachable init step s'

theorem Reachable.invariant {init : σ → Prop} {step : σ → ι → σ → Prop} {I : σ → Prop}
    (hinit : ∀ s, init s → I s) (hstep : ∀ s i s', I s → step s i s' → I s') {s : σ}
    (h : Reachable init step s) : I s := by
  induction h with
  | start h => exact hinit _ h
  | next i _ hs ih => exact hstep _ i _ ih hs

/-- An event of the first kind has happened, with this past, and since then only
events of the second kind. A history starts with its latest event. -/
def Since (P : ε → List ε → Prop) (Q : ε → Prop) (log : List ε) : Prop :=
  ∃ recent e older, log = recent ++ e :: older ∧ P e older ∧ ∀ x ∈ recent, Q x

theorem since_cons {P : ε → List ε → Prop} {Q : ε → Prop} {e : ε} {log : List ε} :
    Since P Q (e :: log) ↔ P e log ∨ Q e ∧ Since P Q log := by
  constructor
  · rintro ⟨recent, x, older, he, hx, hr⟩
    cases recent with
    | nil =>
        obtain ⟨rfl, rfl⟩ := List.cons_eq_cons.mp he
        exact .inl hx
    | cons y recent =>
        obtain ⟨rfl, rfl⟩ := List.cons_eq_cons.mp he
        exact .inr ⟨hr e List.mem_cons_self, recent, x, older, rfl, hx, fun y hy => hr y (List.mem_cons_of_mem _ hy)⟩
  · rintro (h | ⟨hq, recent, x, older, rfl, hx, hr⟩)
    · exact ⟨[], e, log, rfl, h, by simp⟩
    · exact ⟨e :: recent, x, older, rfl, hx, List.forall_mem_cons.mpr ⟨hq, hr⟩⟩

/-- An event of neither kind is followed by one of the first kind. -/
theorem Since.after {P : ε → List ε → Prop} {Q : ε → Prop} {e : ε} {older : List ε} (hp : ¬ P e older) (hq : ¬ Q e)
    {recent : List ε} (h : Since P Q (recent ++ e :: older)) : ∃ x ∈ recent, ∃ past, P x past := by
  induction recent with
  | nil =>
      rcases since_cons.mp h with h | h
      · exact absurd h hp
      · exact absurd h.1 hq
  | cons x recent ih =>
      rcases since_cons.mp h with h | h
      · exact ⟨x, List.mem_cons_self, _, h⟩
      · obtain ⟨y, hy, hpast⟩ := ih h.2
        exact ⟨y, List.mem_cons_of_mem _ hy, hpast⟩

end Karg.Execution
