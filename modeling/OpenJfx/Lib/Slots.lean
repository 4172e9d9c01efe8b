/-
  OpenJfx.Lib.Slots

  A list of slots is a list in which some elements are given and the others are
  still to come: `fillSlots S K` puts the elements of `K` into the empty slots,
  in order.  `weave t F total` is the list of slots described by the elements
  `F`, each with the number of empty slots before it; `t` of the `total` empty
  slots are already behind.
-/

import Mathlib.Data.List.Perm.Basic

namespace OpenJfx

open List

variable {α β : Type}

def fillSlots : List (Option α) → List α → List α
  | [], _ => []
  | some x :: S, K => x :: fillSlots S K
  | none :: S, [] => fillSlots S []
  | none :: S, k :: K => k :: fillSlots S K

@[simp] theorem fillSlots_some (x : α) (S : List (Option α)) (K : List α) :
    fillSlots (some x :: S) K = x :: fillSlots S K := rfl

@[simp] theorem fillSlots_none_cons (k : α) (S : List (Option α)) (K : List α) :
    fillSlots (none :: S) (k :: K) = k :: fillSlots S K := rfl

theorem fillSlots_given (xs : List α) (S : List (Option α)) (K : List α) :
    fillSlots (xs.map some ++ S) K = xs ++ fillSlots S K := by
  induction xs with
  | nil => rfl
  | cons x xs ih => rw [map_cons, cons_append, fillSlots_some, ih, cons_append]

theorem fillSlots_empty (K1 : List α) (S : List (Option α)) (K2 : List α) :
    fillSlots (List.replicate K1.length none ++ S) (K1 ++ K2) = K1 ++ fillSlots S K2 := by
  induction K1 with
  | nil => rfl
  | cons k K1 ih =>
    rw [length_cons, replicate_succ, cons_append, cons_append, fillSlots_none_cons, ih, cons_append]

theorem fillSlots_map (f : α → β) (S : List (Option α)) (K : List α) :
    (fillSlots S K).map f = fillSlots (S.map (Option.map f)) (K.map f) := by
  induction S generalizing K with
  | nil => rfl
  | cons s S ih =>
    cases s with
    | some x => simp [ih]
    | none =>
      cases K with
      | nil => simpa [fillSlots] using ih []
      | cons k K => simp [ih]

variable {S : List (Option α)} {K : List α}

theorem fillSlots_length
    (h : S.countP (·.isNone) = K.length) : (fillSlots S K).length = S.length := by
  induction S generalizing K with
  | nil => rfl
  | cons s S ih =>
    cases s with
    | some x => simpa using ih (K := K) (by simpa using h)
    | none =>
      cases K with
      | nil => simp at h
      | cons k K => simpa using ih (K := K) (by simpa using h)

theorem fillSlots_perm_append (h : S.countP (·.isNone) = K.length) :
    (fillSlots S K).Perm (S.filterMap id ++ K) := by
  induction S generalizing K with
  | nil =>
    obtain rfl := length_eq_zero_iff.mp h.symm
    exact List.Perm.refl _
  | cons s S ih =>
    cases s with
    | some x =>
      have h' : S.countP (·.isNone) = K.length := by simpa using h
      simpa using ih h'
    | none =>
      cases K with
      | nil => simp at h
      | cons k K =>
        have h' : S.countP (·.isNone) = K.length := by simpa using h
        refine List.Perm.trans (List.Perm.cons k (ih h')) ?_
        simpa using (perm_middle (a := k)).symm

theorem fillSlots_perm {K' : List α} (h : S.countP (·.isNone) = K.length) (hperm : K.Perm K') :
    (fillSlots S K).Perm (fillSlots S K') :=
  (fillSlots_perm_append h).trans ((hperm.append_left _).trans
    (fillSlots_perm_append (h.trans hperm.length_eq)).symm)

/-! ## Slots by counts -/

/-- The values in order, with gaps up to the place of each. -/
def weave : Nat → List (Nat × α) → Nat → List (Option α)
  | t, [], total => List.replicate (total - t) none
  | t, (k, x) :: F, total => List.replicate (k - t) none ++ some x :: weave k F total

theorem weave_block {t k : Nat} (htk : t ≤ k) (xs : List α) {F : List (Nat × α)} {total : Nat}
    (hF : ∀ p ∈ F, k ≤ p.1) (htotal : k ≤ total) :
    weave t (xs.map (fun x => (k, x)) ++ F) total
      = List.replicate (k - t) none ++ (xs.map some ++ weave k F total) := by
  induction xs generalizing t with
  | nil =>
    cases F with
    | nil =>
      simp only [map_nil, nil_append, weave, replicate_append_replicate]
      congr 1
      omega
    | cons p F =>
      have hp : k ≤ p.1 := hF p mem_cons_self
      simp only [map_nil, nil_append, weave, ← append_assoc, replicate_append_replicate]
      congr 2
      omega
  | cons x xs ih =>
    rw [map_cons, cons_append, weave, ih (Nat.le_refl k), Nat.sub_self]
    simp

end OpenJfx
