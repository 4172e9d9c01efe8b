/-
  OpenJfx.Lib.BinarySearch

  Binary search as in `java.util.Arrays.binarySearch` and its copies: the probe is the middle of
  `low .. high`, and a miss reports the insertion point.  `ord` tells where an element lies
  relative to the key.
-/

import Mathlib.Data.List.Basic

namespace OpenJfx

open List

variable {α : Type}

/-- A hit at an index, or a miss with its insertion point. -/
inductive SearchResult where
  | found (idx : Nat)
  | notFound (insertion : Nat)
  deriving DecidableEq, Repr

/-- The search loop on `[lo, hi)` (`high` of the Java loop is `hi - 1`), of at most `fuel`
    probes. -/
def binarySearchLoop (ord : α → Ordering) (list : List α) : Nat → Nat → Nat → SearchResult
  | 0, lo, _ => .notFound lo
  | fuel + 1, lo, hi =>
    if lo < hi then
      match list[(lo + (hi - 1)) / 2]? with
      | none => .notFound lo
      | some mid =>
        match ord mid with
        | .lt => binarySearchLoop ord list fuel ((lo + (hi - 1)) / 2 + 1) hi
        | .gt => binarySearchLoop ord list fuel lo ((lo + (hi - 1)) / 2)
        | .eq => .found ((lo + (hi - 1)) / 2)
    else .notFound lo

/-- Binary search over the whole list. -/
def binarySearch (ord : α → Ordering) (list : List α) : SearchResult :=
  binarySearchLoop ord list list.length 0 list.length

/-- Everything before the key comes before the rest. -/
def SortedAround (ord : α → Ordering) (list : List α) : Prop :=
  list.Pairwise fun a b => (ord b = .lt → ord a = .lt) ∧ (ord a = .gt → ord b = .gt)

/-- A hit is an element on the key. -/
def IsHit (ord : α → Ordering) (list : List α) (i : Nat) : Prop :=
  ∃ a, list[i]? = some a ∧ ord a = .eq

/-- What is before the key is on its left, the rest right. -/
def IsInsertion (ord : α → Ordering) (list : List α) (i : Nat) : Prop :=
  i ≤ list.length ∧ (∀ a ∈ list.take i, ord a = .lt) ∧ (∀ a ∈ list.drop i, ord a = .gt)

variable {ord : α → Ordering} {list : List α}

theorem binarySearchLoop_found :
    ∀ {fuel lo hi i : Nat}, binarySearchLoop ord list fuel lo hi = .found i →
      IsHit ord list i := by
  intro fuel
  induction fuel with
  | zero => intro lo hi i h; simp [binarySearchLoop] at h
  | succ fuel ih =>
    intro lo hi i h
    rw [binarySearchLoop] at h
    split at h
    · split at h
      · cases h
      · next mid hmid =>
        split at h
        · exact ih h
        · exact ih h
        · next heq =>
          cases h
          exact ⟨mid, hmid, heq⟩
    · cases h

theorem SortedAround.lt_before (hs : SortedAround ord list)
    {m : Nat} {mid : α} (hm : list[m]? = some mid) (hlt : ord mid = .lt) :
    ∀ a ∈ list.take (m + 1), ord a = .lt := by
  intro a ha
  obtain ⟨j, hj, rfl⟩ := mem_iff_getElem.mp ha
  rw [length_take] at hj
  rw [getElem_take]
  obtain ⟨hml, rfl⟩ := List.getElem?_eq_some_iff.mp hm
  by_cases hjm : j = m
  · subst hjm; exact hlt
  · exact (pairwise_iff_getElem.mp hs j m (by omega) hml (by omega)).1 hlt

theorem SortedAround.gt_after (hs : SortedAround ord list)
    {m : Nat} {mid : α} (hm : list[m]? = some mid) (hgt : ord mid = .gt) :
    ∀ a ∈ list.drop m, ord a = .gt := by
  intro a ha
  obtain ⟨j, hj, rfl⟩ := mem_iff_getElem.mp ha
  rw [length_drop] at hj
  rw [getElem_drop]
  obtain ⟨hml, rfl⟩ := List.getElem?_eq_some_iff.mp hm
  by_cases hj0 : j = 0
  · subst hj0; exact hgt
  · exact (pairwise_iff_getElem.mp hs m (m + j) hml (by omega) (by omega)).2 hgt

theorem binarySearchLoop_notFound (hs : SortedAround ord list) :
    ∀ {fuel lo hi i : Nat}, hi - lo ≤ fuel → lo ≤ hi → hi ≤ list.length →
      (∀ a ∈ list.take lo, ord a = .lt) → (∀ a ∈ list.drop hi, ord a = .gt) →
      binarySearchLoop ord list fuel lo hi = .notFound i → IsInsertion ord list i := by
  intro fuel
  induction fuel with
  | zero =>
    intro lo hi i hfuel hle hhi hl hg h
    simp only [binarySearchLoop, SearchResult.notFound.injEq] at h
    obtain rfl : lo = hi := by omega
    subst h
    exact ⟨hhi, hl, hg⟩
  | succ fuel ih =>
    intro lo hi i hfuel hle hhi hl hg h
    rw [binarySearchLoop] at h
    split at h
    · next hlt =>
      have hin : (lo + (hi - 1)) / 2 < list.length := by omega
      rw [getElem?_eq_getElem hin] at h
      dsimp only at h
      have hmid : list[(lo + (hi - 1)) / 2]? = some list[(lo + (hi - 1)) / 2] :=
        getElem?_eq_getElem hin
      split at h
      · next hord =>
        exact ih (by omega) (by omega) hhi (hs.lt_before hmid hord) hg h
      · next hord =>
        exact ih (by omega) (by omega) (by omega) hl (hs.gt_after hmid hord) h
      · cases h
    · cases h
      obtain rfl : lo = hi := by omega
      exact ⟨hhi, hl, hg⟩

theorem binarySearch_found {i : Nat} (h : binarySearch ord list = .found i) : IsHit ord list i :=
  binarySearchLoop_found h

theorem binarySearch_notFound {i : Nat}
    (hs : SortedAround ord list) (h : binarySearch ord list = .notFound i) :
    IsInsertion ord list i := by
  refine binarySearchLoop_notFound hs (by omega) (Nat.zero_le _) (Nat.le_refl _) ?_ ?_ h
  · simp
  · simp

end OpenJfx
