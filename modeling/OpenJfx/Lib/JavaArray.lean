/-
  OpenJfx.Lib.JavaArray

  Arrays with checked indices.  An array is the list of its contents, of fixed
  length; reading or writing outside of it is an `ArrayIndexOutOfBoundsException`,
  and `System.arraycopy` checks both ranges before it copies.
-/

import OpenJfx.Lib.JavaM

namespace OpenJfx.JavaArray

open List

variable {α : Type}

def get (a : List α) (i : Int) : Except JavaException α :=
  if 0 ≤ i then
    match a[i.toNat]? with
    | some x => .ok x
    | none => .error .indexOutOfBounds
  else .error .indexOutOfBounds

/-- `a[i] = x`. -/
def set (a : List α) (i : Int) (x : α) : Except JavaException (List α) :=
  if 0 ≤ i ∧ i < a.length then .ok (a.set i.toNat x) else .error .indexOutOfBounds

/-- `System.arraycopy(src, srcPos, dest, destPos, length)`. -/
def copy (src : List α) (srcPos : Int) (dest : List α) (destPos length : Int) :
    Except JavaException (List α) :=
  if 0 ≤ srcPos ∧ 0 ≤ destPos ∧ 0 ≤ length ∧ srcPos + length ≤ src.length ∧
      destPos + length ≤ dest.length then
    .ok (dest.take destPos.toNat ++ (src.drop srcPos.toNat).take length.toNat ++
      dest.drop (destPos + length).toNat)
  else .error .indexOutOfBounds

/-- `new T[n]`, filled with `x`. -/
def new (n : Int) (x : α) : Except JavaException (List α) :=
  if 0 ≤ n then .ok (List.replicate n.toNat x) else .error .negativeArraySize

theorem get_eq_ok {a : List α} {i : Int} {x : α} (h0 : 0 ≤ i) (h : a[i.toNat]? = some x) :
    get a i = .ok x := by
  rw [get, if_pos h0, h]

theorem set_eq_ok {a : List α} {i : Int} (h0 : 0 ≤ i) (h : i < a.length) (x : α) :
    set a i x = .ok (a.set i.toNat x) := if_pos ⟨h0, h⟩

theorem new_eq_ok {n : Int} (h : 0 ≤ n) (x : α) : new n x = .ok (List.replicate n.toNat x) :=
  if_pos h

/-! ## At a seam -/

theorem get_seam (X : List α) (x : α) (Y : List α) : get (X ++ x :: Y) X.length = .ok x :=
  get_eq_ok (by omega) (by simp)

theorem set_seam (X : List α) (x y : α) (Y : List α) :
    set (X ++ x :: Y) X.length y = .ok (X ++ y :: Y) := by
  rw [set_eq_ok (by omega) (by simp only [length_append, length_cons]; omega)]
  simp

theorem copy_eq_ok {src dest : List α} {srcPos destPos length : Int} (h1 : 0 ≤ srcPos)
    (h2 : 0 ≤ destPos) (h3 : 0 ≤ length) (h4 : srcPos + length ≤ src.length)
    (h5 : destPos + length ≤ dest.length) :
    copy src srcPos dest destPos length
      = .ok (dest.take destPos.toNat ++ (src.drop srcPos.toNat).take length.toNat ++
          dest.drop (destPos + length).toNat) :=
  if_pos ⟨h1, h2, h3, h4, h5⟩

theorem copy_left (X R Y G : List α) :
    ∃ G', copy (X ++ R ++ Y ++ G) (X ++ R).length (X ++ R ++ Y ++ G) X.length Y.length
        = .ok (X ++ Y ++ G') ∧ G'.length = R.length + G.length := by
  rw [copy_eq_ok (by omega) (by omega) (by omega) (by simp only [length_append]; omega)
    (by simp only [length_append]; omega)]
  refine ⟨(X ++ R ++ Y ++ G).drop (X.length + Y.length), ?_, ?_⟩
  · have h1 : (X ++ R ++ Y ++ G).take X.length = X := by simp
    have h2 : ((X ++ R ++ Y ++ G).drop (X ++ R).length).take Y.length = Y := by
      rw [append_assoc (X ++ R), drop_left, take_left]
    have h3 : ((X.length : Int) + (Y.length : Int)).toNat = X.length + Y.length := by omega
    simp only [Int.toNat_natCast, h1, h2, h3]
  · simp only [length_drop, length_append]
    omega

theorem copy_right (X Y : List α) (g : α) (G : List α) :
    ∃ z, copy (X ++ Y ++ g :: G) X.length (X ++ Y ++ g :: G) (X.length + 1) Y.length
        = .ok (X ++ z :: Y ++ G) := by
  rw [copy_eq_ok (by omega) (by omega) (by omega)
    (by simp only [length_append, length_cons]; omega)
    (by simp only [length_append, length_cons]; omega)]
  obtain ⟨z, Z, hz⟩ : ∃ z Z, Y ++ g :: G = z :: Z := by
    cases Y with
    | nil => exact ⟨g, G, rfl⟩
    | cons y Y => exact ⟨y, Y ++ g :: G, rfl⟩
  refine ⟨z, ?_⟩
  have h1 : (X ++ Y ++ g :: G).take (X.length + 1) = X ++ [z] := by
    rw [append_assoc, hz, append_cons, take_left' (by simp)]
  have h2 : ((X ++ Y ++ g :: G).drop X.length).take Y.length = Y := by
    rw [append_assoc, drop_left, take_left]
  have h3 : (X ++ Y ++ g :: G).drop (X.length + 1 + Y.length) = G := by
    rw [append_cons, drop_left' (by simp; omega)]
  have h4 : ((X.length : Int) + 1).toNat = X.length + 1 := by omega
  have h5 : ((X.length : Int) + 1 + (Y.length : Int)).toNat = X.length + 1 + Y.length := by omega
  rw [h4, h5, Int.toNat_natCast, Int.toNat_natCast, h1, h2, h3]
  simp

end OpenJfx.JavaArray
