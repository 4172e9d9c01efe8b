/-
  OpenJfx.Graphics.DirtyRegionContainer.Regions

  Unions, containment and intersections of regions that are not empty.
-/

import OpenJfx.Graphics.DirtyRegionContainer.Basic

namespace OpenJfx.Graphics

/-! ## The area of a union -/

namespace RectBounds

variable {K : Type} [LinearOrder K]

/-- The bounds that `unifiedRegionArea` computes. -/
def hull (r0 r1 : RectBounds K) : RectBounds K :=
  ⟨min r0.minX r1.minX, min r0.minY r1.minY, max r0.maxX r1.maxX, max r0.maxY r1.maxY⟩

/-- The area of a pair, for a measure of rectangles. -/
def unifiedArea (measure : RectBounds K → Int) (r0 r1 : RectBounds K) : Int :=
  measure (r0.hull r1)

theorem isEmpty_eq_false_iff {r : RectBounds K} :
    r.isEmpty = false ↔ r.minX ≤ r.maxX ∧ r.minY ≤ r.maxY := by
  simp [isEmpty]

variable {r0 r1 : RectBounds K}

theorem unionWith_eq_hull (h0 : r0.isEmpty = false) (h1 : r1.isEmpty = false) :
    r0.unionWith r1 = r0.hull r1 := by
  rw [unionWith, h0, h1]
  rfl

theorem hull_isEmpty (h0 : r0.isEmpty = false) : (r0.hull r1).isEmpty = false := by
  rw [isEmpty_eq_false_iff] at *
  exact ⟨(min_le_left _ _).trans (h0.1.trans (le_max_left _ _)),
    (min_le_left _ _).trans (h0.2.trans (le_max_left _ _))⟩

theorem unionWith_isEmpty (h0 : r0.isEmpty = false) (h1 : r1.isEmpty = false) :
    (r0.unionWith r1).isEmpty = false := by
  rw [unionWith_eq_hull h0 h1]
  exact hull_isEmpty h0

theorem hull_self (r : RectBounds K) : r.hull r = r := by
  simp [hull]

theorem unifiedArea_unionWith (measure : RectBounds K → Int) (h0 : r0.isEmpty = false)
    (h1 : r1.isEmpty = false) :
    unifiedArea measure (r0.unionWith r1) (r0.unionWith r1) = unifiedArea measure r0 r1 := by
  rw [unionWith_eq_hull h0 h1, unifiedArea, hull_self, unifiedArea]

/-! ## Containment -/

theorem contains_eq_true_iff :
    r0.contains r1 = true ↔ r0.isEmpty = false ∧ r1.isEmpty = false ∧ r0.minX ≤ r1.minX ∧
      r1.maxX ≤ r0.maxX ∧ r0.minY ≤ r1.minY ∧ r1.maxY ≤ r0.maxY := by
  rw [contains]
  cases r0.isEmpty <;> cases r1.isEmpty <;> simp

theorem contains_refl (h : r0.isEmpty = false) : r0.contains r0 = true :=
  contains_eq_true_iff.mpr ⟨h, h, le_refl _, le_refl _, le_refl _, le_refl _⟩

theorem contains_trans {r2 : RectBounds K} (h0 : r0.contains r1 = true)
    (h1 : r1.contains r2 = true) : r0.contains r2 = true := by
  rw [contains_eq_true_iff] at *
  obtain ⟨he0, -, hx, hx', hy, hy'⟩ := h0
  obtain ⟨-, he2, hx2, hx2', hy2, hy2'⟩ := h1
  exact ⟨he0, he2, hx.trans hx2, hx2'.trans hx', hy.trans hy2, hy2'.trans hy'⟩

theorem unionWith_contains_left (h0 : r0.isEmpty = false) (h1 : r1.isEmpty = false) :
    (r0.unionWith r1).contains r0 = true := by
  rw [contains_eq_true_iff, unionWith_eq_hull h0 h1]
  exact ⟨hull_isEmpty h0, h0, min_le_left _ _, le_max_left _ _, min_le_left _ _, le_max_left _ _⟩

theorem unionWith_contains_right (h0 : r0.isEmpty = false) (h1 : r1.isEmpty = false) :
    (r0.unionWith r1).contains r1 = true := by
  rw [contains_eq_true_iff, unionWith_eq_hull h0 h1]
  exact ⟨hull_isEmpty h0, h1, min_le_right _ _, le_max_right _ _, min_le_right _ _,
    le_max_right _ _⟩

/-! ## Intersections -/

theorem intersects_eq_true_iff :
    r0.intersects r1 = true ↔ r0.isEmpty = false ∧ r1.isEmpty = false ∧ r0.minX ≤ r1.maxX ∧
      r0.minY ≤ r1.maxY ∧ r1.minX ≤ r0.maxX ∧ r1.minY ≤ r0.maxY := by
  rw [intersects]
  cases r0.isEmpty <;> cases r1.isEmpty <;> simp

theorem intersects_symm (h : r0.intersects r1 = true) : r1.intersects r0 = true := by
  rw [intersects_eq_true_iff] at *
  obtain ⟨h0, h1, hx, hy, hx', hy'⟩ := h
  exact ⟨h1, h0, hx', hy', hx, hy⟩

theorem misses_symm (h : r0.intersects r1 = false) : r1.intersects r0 = false := by
  cases hmeets : r1.intersects r0 with
  | false => rfl
  | true =>
    rw [intersects_symm hmeets] at h
    cases h

theorem intersects_of_contains {d : RectBounds K} (h : r0.contains r1 = true)
    (hd : r1.intersects d = true) : r0.intersects d = true := by
  rw [contains_eq_true_iff] at h
  rw [intersects_eq_true_iff] at *
  obtain ⟨he, -, hx, hx', hy, hy'⟩ := h
  obtain ⟨-, hde, h1, h2, h3, h4⟩ := hd
  exact ⟨he, hde, hx.trans h1, hy.trans h2, h3.trans hx', h4.trans hy'⟩

end RectBounds

end OpenJfx.Graphics
