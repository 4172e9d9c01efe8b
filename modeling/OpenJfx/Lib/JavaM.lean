/-
  OpenJfx.Lib.JavaM

  Methods of a mutable object that may throw.  The mutations made so far stay, so the state comes
  back with the exception too.  `JavaM σ α` is core's `EStateM`; added are running a method on a
  part of the state (`zoom`) and the rules for a call that returns.
-/

import Mathlib.Data.List.Basic
import Mathlib.Tactic.Ring

namespace OpenJfx

/-- The exceptions the modelled code throws, some with their text. -/
inductive JavaException where
  | illegalState (message : Option String)
  | nullPointer
  | indexOutOfBounds
  | illegalArgument
  | concurrentModification
  | noSuchElement
  | unsupportedOperation
  | negativeArraySize
  deriving DecidableEq, Repr

/-- A method on state `σ` with result `α`. -/
abbrev JavaM (σ α : Type) := EStateM JavaException σ α

namespace JavaM

variable {σ τ α β : Type}

/-- Run a method of a component inside its owner. -/
def zoom (get : σ → τ) (put : τ → σ → σ) (m : JavaM τ α) : JavaM σ α := fun s =>
  match m (get s) with
  | .ok a t => .ok a (put t s)
  | .error e t => .error e (put t s)

/-- A computation on local variables: it leaves the object as it is. -/
def ofExcept (x : Except JavaException α) : JavaM σ α := fun s =>
  match x with
  | .ok a => .ok a s
  | .error e => .error e s

/-- `m` returns `a` from `s` and leaves `t`. -/
def Returns (m : JavaM σ α) (s : σ) (a : α) (t : σ) : Prop :=
  m s = .ok a t

variable {m : JavaM σ α} {f : α → JavaM σ β} {s t : σ} {a : α} {fin : JavaM σ Unit} {P : σ → Prop}

theorem Returns.bind {u : σ} {b : β}
    (h1 : Returns m s a t) (h2 : Returns (f a) t b u) : Returns (m >>= f) s b u := by
  simp only [Returns, EStateM.bind, Bind.bind] at *
  rw [h1]
  exact h2

theorem Returns.of_bind {u : σ} {b : β}
    (h : Returns (m >>= f) s b u) : ∃ a t, Returns m s a t ∧ Returns (f a) t b u := by
  simp only [Returns, EStateM.bind, Bind.bind] at *
  split at h
  · exact ⟨_, _, ‹_›, h⟩
  · cases h

theorem Returns.zoom {get : σ → τ} {put : τ → σ → σ} {m : JavaM τ α} {t : τ}
    (h : Returns m (get s) a t) : Returns (zoom get put m) s a (put t s) := by
  simp only [Returns, JavaM.zoom] at *
  rw [h]

theorem Returns.unique {t' : σ} {a' : α}
    (h : Returns m s a t) (h' : Returns m s a' t') : a = a' ∧ t = t' := by
  simp only [Returns] at *
  rw [h] at h'
  cases h'
  exact ⟨rfl, rfl⟩

theorem Returns.discard (h : Returns m s a t) :
    Returns (discard m) s () t := by
  simp only [Returns, Functor.discard, Functor.mapConst, EStateM.map, Function.comp] at *
  rw [h]

/-- `try { m } finally { fin }`. -/
def withFinally (m : JavaM σ α) (fin : JavaM σ Unit) : JavaM σ α := fun s =>
  match m s with
  | .ok a t => (fin >>= fun _ => pure a) t
  | .error e t => (fin >>= fun _ => throw e) t

theorem Returns.withFinally {u : σ}
    (h : Returns m s a t) (hfin : Returns fin t () u) : Returns (withFinally m fin) s a u := by
  simp only [Returns, JavaM.withFinally, Bind.bind, EStateM.bind, show m s = _ from h,
    show fin t = _ from hfin]
  rfl

/-! ## Postconditions for both ways to end -/

/-- By returning or throwing, in a state with `P`. -/
def Ends (m : JavaM σ α) (s : σ) (P : σ → Prop) : Prop :=
  match m s with
  | .ok _ t => P t
  | .error _ t => P t

/-- The state `m` leaves, whichever way it ends. -/
def exec (m : JavaM σ α) (s : σ) : σ :=
  match m s with
  | .ok _ t => t
  | .error _ t => t

/-- What `m` throws, if it does. -/
def thrown (m : JavaM σ α) (s : σ) : Option JavaException :=
  match m s with
  | .ok _ _ => none
  | .error e _ => some e

theorem Returns.exec_eq (h : Returns m s a t) :
    exec m s = t := by
  rw [exec, show m s = _ from h]

theorem exec_throws {e : JavaException} (h : m s = .error e t) :
    exec m s = t := by
  rw [exec, h]

@[simp] theorem exec_discard (m : JavaM σ α) (s : σ) :
    exec (Functor.discard m) s = exec m s := by
  simp only [exec, Functor.discard, Functor.mapConst, EStateM.map, Function.comp]
  cases m s <;> rfl

theorem Ends.exec (h : Ends m s P) : P (m.exec s) := by
  rw [Ends] at h
  rw [JavaM.exec]
  split at h <;> exact h

theorem Ends.bind
    (h : ∀ a t, Returns m s a t → Ends (f a) t P) (herr : ∀ e t, m s = .error e t → P t) :
    Ends (m >>= f) s P := by
  simp only [Ends, Bind.bind, EStateM.bind] at *
  cases hm : m s with
  | ok a t => exact h a t hm
  | error e t => exact herr e t hm

theorem Returns.ends (h : Returns m s a t) (hP : P t) : Ends m s P := by
  simp only [Ends, show m s = _ from h]
  exact hP

theorem Returns.then_ends (h : Returns m s a t) (hf : Ends (f a) t P) : Ends (m >>= f) s P := by
  simp only [Ends, Bind.bind, EStateM.bind, show m s = _ from h] at *
  exact hf

theorem Ends.then_pure (b : β) (h : Ends m s P) :
    Ends (m >>= fun _ => pure b) s P := by
  refine Ends.bind (fun a t hm => ?_) (fun e t hm => ?_)
  · simp only [Ends, show m s = _ from hm] at h
    exact h
  · simp only [Ends, hm] at h
    exact h

theorem Ends.mono {Q : σ → Prop} (h : Ends m s P) (himp : ∀ t, P t → Q t) : Ends m s Q := by
  simp only [Ends] at *
  split at h <;> exact himp _ h

theorem Ends.withFinally {Q : σ → Prop}
    (h : Ends m s P) (hfin : ∀ t, P t → ∃ u, Returns fin t () u ∧ Q u) :
    Ends (withFinally m fin) s Q := by
  simp only [Ends, JavaM.withFinally] at *
  cases hm : m s with
  | ok a t | error e t =>
    rw [hm] at h
    obtain ⟨u, hu, hQ⟩ := hfin t h
    simp only [Bind.bind, EStateM.bind, show fin t = _ from hu]
    exact hQ

theorem Ends.discard (h : Ends m s P) :
    Ends (discard m) s P := by
  simp only [Ends, Functor.discard, Functor.mapConst, EStateM.map, Function.comp] at *
  cases hm : m s with
  | ok a t | error e t => rw [hm] at h; exact h

end JavaM

end OpenJfx
