/-
  OpenJfx.Lib.ParentMap

  A map from indices to indices that is read as a forest: an index that is mapped to itself is
  a root, and every other one is mapped to its parent.  `Resolves map i r k` says that `r` is the
  root above `i`, `k` steps away.

  The one update is to put a root below another root (`Resolves.link`).
-/

import Mathlib.Data.List.Basic

namespace OpenJfx

/-- The loop that follows the parents up to the root. -/
def resolveParent (map : List Nat) : Nat → Nat → Option Nat
  | 0, _ => none
  | fuel + 1, idx =>
    match map[idx]? with
    | none => none
    | some parent => if parent = idx then some idx else resolveParent map fuel parent

/-- The parents of an index lead to the root `r` in so many steps. -/
inductive Resolves (map : List Nat) : Nat → Nat → Nat → Prop where
  | root {r : Nat} (hr : map[r]? = some r) : Resolves map r r 0
  | step {i j r k : Nat} (hi : map[i]? = some j) (hne : j ≠ i) (hj : Resolves map j r k) :
      Resolves map i r (k + 1)

namespace Resolves

variable {map : List Nat} {i r k : Nat}

theorem isRoot (h : Resolves map i r k) : map[r]? = some r := by
  induction h with
  | root hr => exact hr
  | step _ _ _ ih => exact ih

theorem resolveParent_eq (h : Resolves map i r k) {fuel : Nat} (hfuel : k < fuel) :
    resolveParent map fuel i = some r := by
  induction h generalizing fuel with
  | root hr =>
    rcases fuel with _ | fuel
    · omega
    rw [resolveParent, hr]
    exact if_pos rfl
  | step hi hne _ ih =>
    rcases fuel with _ | fuel
    · omega
    rw [resolveParent, hi]
    exact (if_neg hne).trans (ih (by omega))

theorem link (h : Resolves map i r k) {a b : Nat} (ha : map[a]? = some a)
    (hb : map[b]? = some b) (hne : a ≠ b) :
    ∃ k', k' ≤ k + 1 ∧ Resolves (map.set b a) i (if r = b then a else r) k' := by
  have hother : ∀ j, j ≠ b → (map.set b a)[j]? = map[j]? := fun j hj =>
    List.getElem?_set_ne (Ne.symm hj)
  have hself : (map.set b a)[b]? = some a := by
    rw [List.getElem?_set_self (List.getElem?_eq_some_iff.1 hb).1]
  induction h with
  | @root r hr =>
    by_cases hrb : r = b
    · subst hrb
      rw [if_pos rfl]
      exact ⟨1, by omega, .step hself hne (.root ((hother a hne).trans ha))⟩
    · rw [if_neg hrb]
      exact ⟨0, by omega, .root ((hother r hrb).trans hr)⟩
  | @step i j r k hi hij _ ih =>
    obtain ⟨k', hk', hres⟩ := ih
    have hib : i ≠ b := by
      rintro rfl
      rw [hb] at hi
      exact hij (Option.some.inj hi).symm
    exact ⟨k' + 1, by omega, .step ((hother i hib).trans hi) hij hres⟩

end Resolves

theorem resolves_range {n i : Nat} (h : i < n) : Resolves (List.range n) i i 0 :=
  .root (by rw [List.getElem?_range h])

end OpenJfx
