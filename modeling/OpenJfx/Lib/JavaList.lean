/-
  OpenJfx.Lib.JavaList

  The operations of `java.util.List` on a range of indices.  `Removal` is a method
  that removes a range when the range is inside the list.
-/

import OpenJfx.Lib.JavaM

namespace OpenJfx.JavaList

open List Int

variable {α : Type}

/-- `list.subList(from, to)`. -/
def subList (from_ to_ : Int) (list : List α) : Except JavaException (List α) :=
  if from_ < 0 ∨ to_ > list.length then .error .indexOutOfBounds
  else if from_ > to_ then .error .illegalArgument
  else .ok ((list.drop from_.toNat).take (to_ - from_).toNat)

/-- `list.subList(from, to).clear()`. -/
def clearSubList (from_ to_ : Int) (list : List α) : Except JavaException (List α) :=
  if from_ < 0 ∨ to_ > list.length then .error .indexOutOfBounds
  else if from_ > to_ then .error .illegalArgument
  else .ok (list.take from_.toNat ++ list.drop to_.toNat)

def removeAt (index : Int) (list : List α) : Except JavaException (List α) :=
  if 0 ≤ index ∧ index < list.length then .ok (list.eraseIdx index.toNat)
  else .error .indexOutOfBounds

/-- `for (int i = from; i < to; ++i) list.remove(from)`. -/
def removeEach (from_ to_ : Int) (list : List α) : Except JavaException (List α) :=
  (List.replicate (to_ - from_).toNat ()).foldlM (fun list _ => removeAt from_ list) list

/-- `list.addAll(index, elements)`. -/
def addAll (index : Int) (elements list : List α) : Except JavaException (List α) :=
  if 0 ≤ index ∧ index ≤ list.length then
    .ok (list.take index.toNat ++ elements ++ list.drop index.toNat)
  else .error .indexOutOfBounds

/-- `remove` takes a range out of a list. -/
def Removal (remove : Int → Int → List α → Except JavaException (List α)) : Prop :=
  ∀ X Y Z : List α, remove X.length (X.length + Y.length) (X ++ Y ++ Z) = .ok (X ++ Z)

theorem subList_eq_ok (X Y Z : List α) :
    subList X.length (X.length + Y.length) (X ++ Y ++ Z) = .ok Y := by
  have hlen : ((X ++ Y ++ Z).length : Int) = X.length + Y.length + Z.length := by
    simp only [length_append, natCast_add]
  have hcnt : ((X.length : Int) + Y.length - X.length).toNat = Y.length := by omega
  rw [subList, if_neg (by omega), if_neg (by omega), hcnt, toNat_natCast,
    append_assoc, drop_left, take_left]

theorem subList_eq_error {from_ to_ : Int} {list : List α} (h : list.length < to_) :
    subList from_ to_ list = .error .indexOutOfBounds := if_pos (.inr h)

theorem clearSubList_removal : @Removal α clearSubList := by
  intro X Y Z
  have hlen : ((X ++ Y ++ Z).length : Int) = X.length + Y.length + Z.length := by
    simp only [length_append, natCast_add]
  have hto : ((X.length : Int) + Y.length).toNat = (X ++ Y).length := by
    rw [length_append]
    omega
  rw [clearSubList, if_neg (by omega), if_neg (by omega), hto, toNat_natCast, drop_left,
    append_assoc, take_left]

theorem removeEach_removal : @Removal α removeEach := by
  intro X Y Z
  have hcnt : ((X.length : Int) + Y.length - X.length).toNat = Y.length := by omega
  rw [removeEach, hcnt]
  induction Y with
  | nil => simp [pure, Except.pure]
  | cons y Y ih =>
    have hstep : removeAt X.length (X ++ (y :: Y) ++ Z) = .ok (X ++ Y ++ Z) := by
      rw [removeAt, if_pos (by simp only [length_append, length_cons]; omega),
        toNat_natCast, append_assoc, cons_append,
        eraseIdx_append_of_length_le (Nat.le_refl _), Nat.sub_self, eraseIdx_zero,
        tail_cons, append_assoc]
    rw [length_cons, replicate_succ, foldlM_cons, hstep]
    exact ih (by omega)

theorem addAll_eq_ok (X Y Z : List α) :
    addAll X.length Y (X ++ Z) = .ok (X ++ Y ++ Z) := by
  rw [addAll, if_pos (by simp only [length_append]; omega), toNat_natCast,
    take_left, drop_left]

end OpenJfx.JavaList
