/-
  OpenJfx.Collections.SortHelper.Range

  `SortHelper.sort(int[], int, int)`: a range of an array is sorted in place.
  The auxiliary array holds the range only, from index 0 on, so that the merge
  sort runs with `off = -fromIndex`.
-/

import OpenJfx.Collections.SortHelper
import OpenJfx.Lib.JavaM

namespace OpenJfx.Collections.SortHelper

open List

/-- `Integer.compareTo`. -/
def compareTo (x y : Int) : Int := if x < y then -1 else if x = y then 0 else 1

/-- `rangeCheck`, without its texts. -/
def rangeCheck (arrayLen : Nat) (fromIndex toIndex : Int) : Except JavaException Unit :=
  if fromIndex > toIndex then .error .illegalArgument
  else if fromIndex < 0 then .error .indexOutOfBounds
  else if toIndex > arrayLen then .error .indexOutOfBounds
  else .ok ()

/-- `sort(int[] a, int fromIndex, int toIndex)`, with the permutation of the range. -/
def sortRange (a : List Int) (fromIndex toIndex : Int) :
    Except JavaException (List Int × List Int) := do
  rangeCheck a.length fromIndex toIndex
  let length := (toIndex - fromIndex).toNat
  let x : Int → Int := fun i => a.getD i.toNat 0
  let aux : Int → Int := fun i => x (i + fromIndex)
  let (_, dest, s) := mergeSort compareTo (length + 1) aux x initPermutation fromIndex length
    (-fromIndex)
  pure (segment dest 0 a.length, segment s.permutation fromIndex length)

theorem before_compareTo (x y : Int) : Before compareTo (· ≤ ·) x y := by
  rw [Before, compareTo]
  split
  · omega
  · split <;> omega

theorem isComparator_compareTo : IsComparator compareTo where
  antisymm a b := by
    rw [compareTo, compareTo]
    split <;> split <;> omega
  trans a b d := by
    rw [compareTo, compareTo, compareTo]
    split <;> split <;> split <;> omega

theorem segment_getD {T : Type} (d : T) {X M Z : List T} {low : Int} (hlow : low = X.length) :
    segment (fun i => (X ++ M ++ Z).getD i.toNat d) low M.length = M := by
  apply ext_getElem?
  intro k
  by_cases hk : k < M.length
  · have hidx : (low + (k : Int)).toNat = X.length + k := by omega
    rw [segment_getElem? _ _ _ _ hk, hidx, append_assoc, getD_eq_getElem?_getD,
      getElem?_append_right (Nat.le_add_right _ _), Nat.add_sub_cancel_left,
      getElem?_append_left hk, getElem?_eq_getElem hk]
    rfl
  · rw [getElem?_eq_none (by rw [segment_length]; omega), getElem?_eq_none (by omega)]

theorem segment_of_same_outside {T : Type} (d : T) {X M Z : List T} {dest : Int → T}
    (hout : ∀ i : Int, i < X.length ∨ (X.length : Int) + M.length ≤ i →
      dest i = (X ++ M ++ Z).getD i.toNat d) :
    segment dest 0 (X ++ M ++ Z).length = X ++ segment dest X.length M.length ++ Z := by
  have hX : segment (fun i => (X ++ M ++ Z).getD i.toNat d) 0 X.length = X := by
    have := @segment_getD T d [] X (M ++ Z) 0 rfl
    simpa using this
  have hZ : segment (fun i => (X ++ M ++ Z).getD i.toNat d) (X.length + M.length) Z.length = Z := by
    have := @segment_getD T d (X ++ M) Z [] (X.length + M.length) (by simp)
    simpa using this
  have hXM : (0 : Int) + (X.length : Int) = X.length := Int.zero_add _
  rw [length_append, length_append, segment_add, segment_add, hXM]
  congr 1
  · congr 1
    conv_rhs => rw [← hX]
    exact segment_congr fun i h1 h2 => hout i (Or.inl (by omega))
  · have hend : (0 : Int) + ((X.length + M.length : Nat) : Int) = X.length + M.length := by omega
    rw [hend]
    conv_rhs => rw [← hZ]
    exact segment_congr fun i h1 h2 => hout i (Or.inr (by omega))

theorem sortRange_spec (X M Z : List Int) :
    ∃ M' perm, sortRange (X ++ M ++ Z) X.length (X.length + M.length) = .ok (X ++ M' ++ Z, perm) ∧
      M'.Perm M ∧ M'.Pairwise (· ≤ ·) ∧ perm.length = M.length := by
  have hlen : ((X.length : Int) + M.length - X.length).toNat = M.length := by omega
  obtain ⟨hp, hsort, hout, -⟩ := @mergeSort_spec _ compareTo (· ≤ ·) (fun _ _ _ => Int.le_trans)
      (M.length + 1) (fun i => (X ++ M ++ Z).getD (i + (X.length : Int)).toNat 0) _ initPermutation
      _ _ _ (Nat.lt_succ_self _) (fun i _ _ => by rw [Int.add_assoc, Int.add_left_neg,
      Int.add_zero]) (pairwise_of_forall fun x y => before_compareTo x y)
  rw [segment_getD 0 rfl] at hp
  generalize hr : mergeSort compareTo (M.length + 1)
    (fun i => (X ++ M ++ Z).getD (i + (X.length : Int)).toNat 0)
    (fun i => (X ++ M ++ Z).getD i.toNat 0) initPermutation X.length M.length (-X.length) = r
    at hp hsort hout
  obtain ⟨src, dest, s⟩ := r
  refine ⟨segment dest X.length M.length, segment s.permutation X.length M.length, ?_, hp, hsort,
    segment_length _ _ _⟩
  rw [sortRange, rangeCheck, if_neg (by omega), if_neg (by omega),
    if_neg (by simp only [length_append]; omega)]
  simp only [bind, Except.bind, pure, Except.pure, hlen, hr]
  rw [segment_of_same_outside 0 hout]

end OpenJfx.Collections.SortHelper
