/-
  OpenJfx.Lib.TrueIndices

  The positions of the `true` entries of a list of flags, in ascending order,
  counted from `i`.  An index array that selects some elements of a list is such
  a list of positions; editing the flags edits it at the place the number of
  `true` entries before the edit says.
-/

import Mathlib.Data.List.Perm.Basic

namespace OpenJfx

open List

/-- The places of the trues, from `i` on. -/
def trueIndices (i : Int) : List Bool → List Int
  | [] => []
  | true :: F => i :: trueIndices (i + 1) F
  | false :: F => trueIndices (i + 1) F

theorem trueIndices_append (i : Int) (F G : List Bool) :
    trueIndices i (F ++ G) = trueIndices i F ++ trueIndices (i + F.length) G := by
  induction F generalizing i with
  | nil => simp [trueIndices]
  | cons b F ih =>
    have hi : i + 1 + (F.length : Int) = i + ((F.length + 1 : Nat) : Int) := by omega
    cases b <;> simp only [cons_append, trueIndices, ih, length_cons, hi]

theorem trueIndices_shift (i d : Int) (F : List Bool) :
    trueIndices (i + d) F = (trueIndices i F).map (· + d) := by
  induction F generalizing i with
  | nil => rfl
  | cons b F ih =>
    have hi : i + d + 1 = i + 1 + d := by omega
    cases b <;> simp only [trueIndices, map_cons, hi, ih]

theorem trueIndices_length (i : Int) (F : List Bool) : (trueIndices i F).length = F.count true := by
  induction F generalizing i with
  | nil => rfl
  | cons b F ih => cases b <;> simp [trueIndices, ih]

theorem mem_trueIndices {i x : Int} {F : List Bool} :
    x ∈ trueIndices i F ↔ i ≤ x ∧ F[(x - i).toNat]? = some true := by
  induction F generalizing i with
  | nil => simp [trueIndices]
  | cons b F ih =>
    have hstep : ∀ y, i + 1 ≤ y → (y - i).toNat = (y - (i + 1)).toNat + 1 := by omega
    have hrest : (i + 1 ≤ x ∧ F[(x - (i + 1)).toNat]? = some true) ↔
        (i < x ∧ (b :: F)[(x - i).toNat]? = some true) := by
      constructor
      · rintro ⟨h1, h2⟩
        exact ⟨by omega, by rw [hstep x h1, getElem?_cons_succ]; exact h2⟩
      · rintro ⟨h1, h2⟩
        rw [hstep x (by omega), getElem?_cons_succ] at h2
        exact ⟨by omega, h2⟩
    cases b with
    | true =>
      rw [trueIndices, mem_cons, ih, hrest]
      constructor
      · rintro (rfl | ⟨h1, h2⟩)
        · exact ⟨Int.le_refl _, by simp⟩
        · exact ⟨by omega, h2⟩
      · rintro ⟨h1, h2⟩
        by_cases hx : x = i
        · exact Or.inl hx
        · exact Or.inr ⟨by omega, h2⟩
    | false =>
      rw [trueIndices, ih, hrest]
      constructor
      · rintro ⟨h1, h2⟩
        exact ⟨by omega, h2⟩
      · rintro ⟨h1, h2⟩
        refine ⟨?_, h2⟩
        by_contra hx
        obtain rfl : x = i := by omega
        simp at h2

theorem trueIndices_bounds {i x : Int} {F : List Bool} (h : x ∈ trueIndices i F) :
    i ≤ x ∧ x < i + F.length := by
  obtain ⟨h1, h2⟩ := mem_trueIndices.mp h
  have := (List.getElem?_eq_some_iff.mp h2).1
  omega

theorem trueIndices_sorted (i : Int) (F : List Bool) : (trueIndices i F).Pairwise (· < ·) := by
  induction F generalizing i with
  | nil => exact List.Pairwise.nil
  | cons b F ih =>
    cases b with
    | true =>
      refine pairwise_cons.mpr ⟨?_, ih (i + 1)⟩
      intro x hx
      have := trueIndices_bounds hx
      omega
    | false => exact ih (i + 1)

theorem trueIndices_filter {α : Type} (p : α → Bool) (L : List α) (i : Int) :
    (trueIndices i (L.map p)).map (fun x => L[(x - i).toNat]?) = (L.filter p).map some := by
  induction L generalizing i with
  | nil => rfl
  | cons a L ih =>
    have hrest : (trueIndices (i + 1) (L.map p)).map (fun x => (a :: L)[(x - i).toNat]?)
        = (L.filter p).map some := by
      rw [← ih (i + 1)]
      apply map_congr_left
      intro x hx
      have := trueIndices_bounds hx
      have hx' : (x - i).toNat = (x - (i + 1)).toNat + 1 := by omega
      rw [hx', getElem?_cons_succ]
    cases hp : p a with
    | true =>
      rw [map_cons, hp, trueIndices, map_cons, hrest, filter_cons_of_pos hp]
      simp
    | false =>
      rw [map_cons, hp, trueIndices, hrest, filter_cons_of_neg (by simp [hp])]

end OpenJfx
