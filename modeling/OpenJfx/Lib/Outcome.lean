/-
  OpenJfx.Lib.Outcome

  How a call of mutually recursive methods on a shared state ends when the depth of
  the stack is given: it returns, it throws, or the stack was too small.
-/

import OpenJfx.Lib.JavaM

namespace OpenJfx

variable {σ α β : Type}

/-- What a call ends with, `overflows` being the overflow of the stack. -/
inductive Outcome (σ α : Type) where
  | returns (a : α) (s : σ)
  | throws (e : JavaException) (s : σ)
  | overflows

namespace Outcome

/-- The next call, if this one returns. -/
def andThen : Outcome σ α → (α → σ → Outcome σ β) → Outcome σ β
  | returns a s, f => f a s
  | throws e s, _ => throws e s
  | overflows, _ => overflows

/-- An exception that the caller reports and swallows. -/
def reported : Outcome σ Unit → Outcome σ Unit
  | throws _ s => returns () s
  | outcome => outcome

/-- The state left, whichever way the call ends. -/
def state : Outcome σ α → Option σ
  | returns _ s => some s
  | throws _ s => some s
  | overflows => none

/-- One call for each element of a list. -/
def forEach (f : β → σ → Outcome σ Unit) : List β → σ → Outcome σ Unit
  | [], s => returns () s
  | b :: bs, s => (f b s).andThen fun _ s => forEach f bs s

@[simp] theorem andThen_returns (a : α) (s : σ) (f : α → σ → Outcome σ β) :
    (returns a s).andThen f = f a s := rfl

@[simp] theorem reported_returns (s : σ) : (returns () s).reported = returns () s := rfl

@[simp] theorem state_returns (a : α) (s : σ) : (returns a s).state = some s := rfl

theorem forEach_spec {f : β → σ → Outcome σ Unit} {P : List β → σ → Prop}
    (hstep : ∀ b bs s, P (b :: bs) s → ∃ s', f b s = returns () s' ∧ P bs s') {l : List β} {s : σ}
    (h : P l s) : ∃ s', forEach f l s = returns () s' ∧ P [] s' := by
  induction l generalizing s with
  | nil => exact ⟨s, rfl, h⟩
  | cons b bs ih =>
    obtain ⟨s1, h1, hP⟩ := hstep b bs s h
    obtain ⟨s', h', hdone⟩ := ih hP
    refine ⟨s', ?_, hdone⟩
    rw [forEach, h1, andThen_returns, h']

end Outcome

end OpenJfx
