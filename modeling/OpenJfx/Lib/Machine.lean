/-
  OpenJfx.Lib.Machine

  Machines whose steps are named by actions: `step s a` is the state after the
  action `a`, or none where the action is not enabled.  A run is a list of
  actions that are all enabled in turn.
-/

import Mathlib.Data.List.Basic
import Mathlib.Tactic.Ring

namespace OpenJfx

open Option

variable {σ α : Type}

/-- The state after a run. -/
def runActions (step : σ → α → Option σ) (s : σ) (actions : List α) : Option σ :=
  actions.foldlM step s

theorem runActions_cons (step : σ → α → Option σ) (s : σ) (a : α) (actions : List α) :
    runActions step s (a :: actions) = (step s a).bind (runActions step · actions) :=
  List.foldlM_cons

theorem runActions_invariant {step : σ → α → Option σ} {P : σ → Prop}
    (hstep : ∀ s a s', P s → step s a = some s' → P s') {s s' : σ} {actions : List α}
    (hs : P s) (h : runActions step s actions = some s') : P s' := by
  induction actions generalizing s with
  | nil =>
    cases h
    exact hs
  | cons a actions ih =>
    rw [runActions_cons] at h
    obtain ⟨s1, h1, hrest⟩ := bind_eq_some_iff.mp h
    exact ih (hstep s a s1 hs h1) hrest

/-- Every step of a run meets a condition on the state before it. -/
def AllSteps (C : σ → α → Prop) (step : σ → α → Option σ) : σ → List α → Prop
  | _, [] => True
  | s, a :: actions => C s a ∧ ∀ s₁, step s a = some s₁ → AllSteps C step s₁ actions

instance AllSteps.decidable {C : σ → α → Prop} [∀ s a, Decidable (C s a)] (step : σ → α → Option σ) :
    (s : σ) → (actions : List α) → Decidable (AllSteps C step s actions)
  | _, [] => .isTrue trivial
  | s, a :: actions =>
    match h : step s a with
    | none => decidable_of_iff (C s a)
        ⟨fun hc => ⟨hc, fun _ h₁ => by rw [h] at h₁; cases h₁⟩, And.left⟩
    | some s₁ =>
      have : Decidable (AllSteps C step s₁ actions) := AllSteps.decidable step s₁ actions
      decidable_of_iff (C s a ∧ AllSteps C step s₁ actions)
        (and_congr_right fun _ => ⟨fun hall _ h₁ => some.inj (h.symm.trans h₁) ▸ hall,
          fun hall => hall s₁ h⟩)

theorem runActions_append (step : σ → α → Option σ) (s : σ) (xs ys : List α) :
    runActions step s (xs ++ ys) = (runActions step s xs).bind (runActions step · ys) :=
  List.foldlM_append

variable {C : σ → α → Prop} {step : σ → α → Option σ} {actions : List α}

theorem AllSteps.of_append {s : σ} {xs ys : List α} (h : AllSteps C step s (xs ++ ys)) :
    AllSteps C step s xs ∧ ∀ s1, runActions step s xs = some s1 → AllSteps C step s1 ys := by
  induction xs generalizing s with
  | nil =>
    refine ⟨trivial, fun s1 h1 => ?_⟩
    cases h1
    exact h
  | cons x xs ih =>
    obtain ⟨hx, hrest⟩ := h
    refine ⟨⟨hx, fun s1 h1 => (ih (hrest s1 h1)).1⟩, fun s2 h2 => ?_⟩
    rw [runActions_cons] at h2
    obtain ⟨s1, h1, h2⟩ := bind_eq_some_iff.mp h2
    exact (ih (hrest s1 h1)).2 s2 h2

theorem runActions_invariant_of {P : σ → Prop}
    (hstep : ∀ s a s', P s → C s a → step s a = some s' → P s') {s s' : σ}
    (hs : P s) (hall : AllSteps C step s actions) (h : runActions step s actions = some s') :
    P s' := by
  induction actions generalizing s with
  | nil =>
    cases h
    exact hs
  | cons a actions ih =>
    rw [runActions_cons] at h
    obtain ⟨s1, h1, hrest⟩ := bind_eq_some_iff.mp h
    exact ih (hstep s a s1 hs hall.1 h1) (hall.2 s1 h1) hrest

theorem runActions_progress_of {P : σ → Prop}
    (hstep : ∀ s a, P s → C s a → ∃ s', step s a = some s' ∧ P s') {s : σ}
    (hs : P s) (hall : AllSteps C step s actions) :
    ∃ s', runActions step s actions = some s' ∧ P s' := by
  induction actions generalizing s with
  | nil => exact ⟨s, rfl, hs⟩
  | cons a actions ih =>
    obtain ⟨s1, h1, hs1⟩ := hstep s a hs hall.1
    obtain ⟨s', h', hs'⟩ := ih hs1 (hall.2 s1 h1)
    exact ⟨s', by rw [runActions_cons, h1, bind_some, h'], hs'⟩

/-- Where every step is enabled and preserves `P`, every run is and does. -/
theorem runActions_progress {P : σ → Prop} (hstep : ∀ s a, P s → ∃ s', step s a = some s' ∧ P s')
    {s : σ} (hs : P s) (actions : List α) : ∃ s', runActions step s actions = some s' ∧ P s' := by
  induction actions generalizing s with
  | nil => exact ⟨s, rfl, hs⟩
  | cons a actions ih =>
    obtain ⟨s1, h1, hs1⟩ := hstep s a hs
    obtain ⟨s', h', hs'⟩ := ih hs1
    exact ⟨s', by rw [runActions_cons, h1, bind_some, h'], hs'⟩

end OpenJfx
