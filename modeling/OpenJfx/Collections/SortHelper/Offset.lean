/-
  OpenJfx.Collections.SortHelper.Offset

  `SortHelper.sort` of a range.
-/

import OpenJfx.Collections.SortHelper.Range
import OpenJfx.Collections.SortHelper.Result

namespace OpenJfx.Collections.SortHelper

open Function List

variable {T : Type} {c : T → T → Int}

/-- `sort(T[], int, int, Comparator)`, with its permutation. -/
def sortRangeOf (c : T → T → Int) (null : T) (a : List T) (fromIndex toIndex : Int) :
    Except JavaException (List T × List Int) := do
  rangeCheck a.length fromIndex toIndex
  let length := (toIndex - fromIndex).toNat
  let x : Int → T := fun i => a.getD i.toNat null
  let aux : Int → T := fun i => x (i + fromIndex)
  let (_, dest, s) := mergeSort c (length + 1) aux x initPermutation fromIndex length (-fromIndex)
  pure (segment dest 0 a.length, segment s.permutation fromIndex length)

/-- The array with the range stably sorted. -/
def sortedRange (c : T → T → Int) (a : List T) (fromIndex toIndex : Nat) : List T :=
  a.take fromIndex ++ ((a.drop fromIndex).take (toIndex - fromIndex)).mergeSort (fun x y => c x y ≤ 0)
    ++ a.drop toIndex

/-- `perm` leads from the range of `a` to that of `sorted`. -/
structure Leads (a sorted : List T) (fromIndex toIndex : Nat) (perm : List Int) : Prop where
  length : perm.length = toIndex - fromIndex
  isPermutation : IsPermutation fromIndex perm
  moves : ∀ (i : Nat) (k : Int), perm[i]? = some k → sorted[k.toNat]? = a[fromIndex + i]?

/-- The call sorts the range stably and returns a permutation that leads there. -/
def SortsRange (c : T → T → Int) (null : T) (a : List T) (fromIndex toIndex : Nat) : Prop :=
  ∃ perm, sortRangeOf c null a fromIndex toIndex = .ok (sortedRange c a fromIndex toIndex, perm) ∧
    Leads a (sortedRange c a fromIndex toIndex) fromIndex toIndex perm

/-! ## Writes at the right places

A part of the recursion sorts into the array or into the auxiliary array, in turn.  The permutation
arrays are written by the swaps in short parts and by merges, at positions of the one or of both. -/

/-- Short parts that are sorted in the auxiliary array are in order, and no halves need a merge: all
    that is written are swaps in the array. -/
def NoMisplacedWrite (c : T → T → Int) : Nat → Bool → List T → Prop
  | 0, _, _ => True
  | fuel + 1, inArray, l =>
    if l.length < insertionSortThreshold then inArray = true ∨ l.Pairwise (fun x y => c x y ≤ 0)
    else (∀ x ∈ l.take (l.length / 2), ∀ y ∈ l.drop (l.length / 2), c x y ≤ 0) ∧
      NoMisplacedWrite c fuel (!inArray) (l.take (l.length / 2)) ∧
      NoMisplacedWrite c fuel (!inArray) (l.drop (l.length / 2))

instance decidableNoMisplacedWrite (c : T → T → Int) : (fuel : Nat) → (inArray : Bool) →
    (l : List T) → Decidable (NoMisplacedWrite c fuel inArray l)
  | 0, _, _ => isTrue trivial
  | fuel + 1, inArray, l =>
    have := decidableNoMisplacedWrite c fuel (!inArray)
    inferInstanceAs (Decidable (if l.length < insertionSortThreshold then
        inArray = true ∨ l.Pairwise (fun x y => c x y ≤ 0)
      else (∀ x ∈ l.take (l.length / 2), ∀ y ∈ l.drop (l.length / 2), c x y ≤ 0) ∧
        NoMisplacedWrite c fuel (!inArray) (l.take (l.length / 2)) ∧
        NoMisplacedWrite c fuel (!inArray) (l.drop (l.length / 2))))

theorem noMisplacedWrite_map {U : Type} {f : U → T} {fuel : Nat} {inArray : Bool} {l : List U} :
    NoMisplacedWrite c fuel inArray (l.map f) ↔
      NoMisplacedWrite (fun a b => c (f a) (f b)) fuel inArray l := by
  induction fuel generalizing inArray l with
  | zero => exact Iff.rfl
  | succ fuel ih =>
    simp only [NoMisplacedWrite, length_map, pairwise_map, ← map_take, ← map_drop, ih, forall_mem_map]

theorem insertDown_of_le (k : Nat) {j : Int} {s : Sorting T}
    (h : 0 < k → c (s.1 (j - 1)) (s.1 j) ≤ 0) : insertDown c k j s = s := by
  cases k with
  | zero => rfl
  | succ k => rw [insertDown, if_neg (Int.not_lt.mpr (h (Nat.succ_pos k)))]

variable {low : Int} {n fromIndex : Nat} {d : Int → T × Int}

theorem insertionSort_of_sorted (n : Nat) {i : Int} {s : Sorting T} (hi : low ≤ i)
    (hs : ∀ j, low < j → j < i + n → c (s.1 (j - 1)) (s.1 j) ≤ 0) :
    insertionSort c low n i s = s := by
  induction n generalizing i with
  | zero => rfl
  | succ n ih =>
    rw [insertionSort, insertDown_of_le _ fun hk => hs i (by omega) (by omega)]
    exact ih (by omega) fun j hj hj' => hs j hj (by omega)

theorem arraycopy_of_mem {src dest : Int → T} {low off : Int} {i : Int} (hi : low ≤ i)
    (hi' : i < low + n) : arraycopy src (low + off) dest low n i = src (i + off) := by
  rw [arraycopy, if_pos ⟨hi, hi'⟩]
  congr 1
  omega

theorem noMisplacedWrite_append {fuel : Nat} {inArray : Bool} {l1 l2 : List T}
    (h7 : insertionSortThreshold ≤ l1.length + l2.length)
    (hm : l1.length = (l1.length + l2.length) / 2) :
    NoMisplacedWrite c (fuel + 1) inArray (l1 ++ l2) ↔ (∀ x ∈ l1, ∀ y ∈ l2, c x y ≤ 0) ∧
      NoMisplacedWrite c fuel (!inArray) l1 ∧ NoMisplacedWrite c fuel (!inArray) l2 := by
  rw [NoMisplacedWrite, length_append, if_neg (Nat.not_lt.mpr h7), ← hm, take_left, drop_left]

/-- A part whose halves need no merge: `src1` and `dest1` are the arrays after the first half,
    `src2` and `dest2` those after the second one, which is copied. -/
structure Halves (c : T → T → Int) (fuel : Nat) (src dest : Int → T) (s : Perms) (low off : Int)
    (m1 m2 : Nat) (src1 dest1 : Int → T) (s1 : Perms) (src2 dest2 : Int → T) (s2 : Perms) : Prop where
  first : mergeSort c fuel dest src s (low + off) m1 (-off) = (dest1, src1, s1)
  second : mergeSort c fuel dest1 src1 s1 (low + off + m1) m2 (-off) = (dest2, src2, s2)
  both : mergeSort c (fuel + 1) src dest s low (m1 + m2) off =
    (src2, arraycopy src2 (low + off) dest2 low (m1 + m2), s2)
  perm : (segment src1 (low + off) m1).Perm (segment src (low + off) m1)
  src1_eq : ∀ i, i < low + off ∨ low + off + m1 ≤ i → src1 i = src i
  dest1_eq : ∀ i, i < low ∨ low + m1 ≤ i → dest1 i = dest i
  src2_eq : ∀ i, i < low + off + m1 → src2 i = src1 i
  dest2_eq : ∀ i, i < low + m1 → dest2 i = dest1 i

theorem exists_halves (fuel : Nat) {src dest : Int → T} {s : Perms} {low off : Int} {m1 m2 : Nat}
    (hfuel : m1 + m2 ≤ fuel) (h7 : insertionSortThreshold ≤ m1 + m2) (hm : m1 = (m1 + m2) / 2)
    (hsrc : ∀ i, low + off ≤ i → i < low + off + (m1 + m2 : Nat) → src i = dest (i + -off))
    (hcross : ∀ x ∈ segment src (low + off) m1, ∀ y ∈ segment src (low + off + m1) m2, c x y ≤ 0) :
    ∃ src1 dest1 s1 src2 dest2 s2,
      Halves c fuel src dest s low off m1 m2 src1 dest1 s1 src2 dest2 s2 := by
  have h7' : 7 ≤ m1 + m2 := h7
  have hmid : (low + off + (low + off + ((m1 + m2 : Nat) : Int))) / 2 = low + off + m1 := by omega
  have e1 : (low + off + (m1 : Int) - (low + off)).toNat = m1 := by omega
  have e2 : (low + off + ((m1 + m2 : Nat) : Int) - (low + off + (m1 : Int))).toNat = m2 := by omega
  obtain ⟨hp1, hd1, he1⟩ := @mergeSort_perm _ c fuel dest src s (low + off) m1 (-off) (by omega)
    fun i hi hi' => hsrc i hi (by omega)
  rcases hms1 : mergeSort c fuel dest src s (low + off) m1 (-off) with ⟨dest1, src1, s1⟩
  rw [hms1] at hp1 hd1 he1
  dsimp only at hp1 hd1 he1
  obtain ⟨hp2, hd2, he2⟩ := @mergeSort_perm _ c fuel dest1 src1 s1 (low + off + m1) m2 (-off)
    (by omega) fun i hi hi' => by
      rw [hd1 i (by omega), he1 (i + -off) (by omega), hsrc i (by omega) (by omega)]
  rcases hms2 : mergeSort c fuel dest1 src1 s1 (low + off + m1) m2 (-off) with ⟨dest2, src2, s2⟩
  rw [hms2] at hp2 hd2 he2
  dsimp only at hp2 hd2 he2
  -- the elements on both sides of the middle are from the two halves
  have hle : c (src2 (low + off + m1 - 1)) (src2 (low + off + m1)) ≤ 0 := by
    refine hcross _ (hp1.mem_iff.mp ?_) _ ?_
    · exact mem_segment.mpr ⟨low + off + m1 - 1, by omega, by omega, (hd2 _ (by omega)).symm⟩
    · rw [← segment_congr fun i hi _ => hd1 i (by omega), ← hp2.mem_iff]
      exact mem_segment.mpr ⟨low + off + m1, by omega, by omega, rfl⟩
  refine ⟨src1, dest1, s1, src2, dest2, s2, hms1, hms2, ?_, hp1, fun i hi => hd1 i (by omega),
    fun i hi => he1 i (by omega), fun i hi => hd2 i (by omega), fun i hi => he2 i (by omega)⟩
  rw [mergeSort, if_neg (Nat.not_lt.mpr h7)]
  simp only [hmid, e1, e2, hms1, hms2]
  rw [if_pos hle]

section Tags

variable {U : Type} {x y : Int → U × Int} {s : Perms}

/-- Nothing has moved yet. -/
def Fresh (x : Int → U × Int) (s : Perms) (low : Int) (n : Nat) : Prop :=
  ∀ i, low ≤ i → i < low + n → (x i).2 = i ∧ s.permutation i = i ∧ s.reversePermutation i = i

theorem Fresh.tracked (h : Fresh x s low n) : Tracked (x, s) low n := by
  intro i hi hi'
  obtain ⟨htag, hperm, hrev⟩ := h i hi hi'
  exact ⟨hrev.trans htag.symm, by rw [htag, hperm]⟩

theorem Fresh.closed (h : Fresh x s low n) (hp : (segment y low n).Perm (segment x low n)) :
    Closed y low n :=
  (tags_of_perm hp fun i hi hi' => (h i hi hi').1).1

theorem Fresh.rest {t : Perms} {m1 m2 : Nat} (h : Fresh x s low (m1 + m2))
    (hout : SameOutside s t low m1) (hsame : ∀ i, low + m1 ≤ i → y i = x i) :
    Fresh y t (low + m1) m2 := by
  intro i hi hi'
  rw [hsame i hi, (hout i (by omega)).1, (hout i (by omega)).2]
  exact h i (by omega) (by omega)

theorem Tracked.congr (h : Tracked (x, s) low n) (hxy : ∀ i, low ≤ i → i < low + n → y i = x i) :
    Tracked (y, s) low n := by
  intro i hi hi'
  dsimp only
  rw [hxy i hi hi']
  exact h i hi hi'

/-- Without misplaced writes the permutation arrays follow the array; a part that is sorted in the
    auxiliary array ends in both. -/
theorem mergeSort_inPlace {c : U × Int → U × Int → Int} (fuel : Nat) {src dest : Int → U × Int}
    {s : Perms} {low : Int} {length : Nat} {off : Int} (hfuel : length < fuel)
    (hsrc : ∀ i, low ≤ i → i < low + length → dest i = src (i + off)) :
    let run := mergeSort c fuel src dest s low length off
    (NoMisplacedWrite c fuel true (segment dest low length) → Fresh dest s low length →
      Tracked run.2 low length ∧ SameOutside s run.2.2 low length) ∧
    (NoMisplacedWrite c fuel false (segment dest low length) → Fresh src s (low + off) length →
      (∀ i, low ≤ i → i < low + length → run.2.1 i = run.1 (i + off)) ∧
      Tracked (run.1, run.2.2) (low + off) length ∧ SameOutside s run.2.2 (low + off) length) := by
  induction fuel generalizing src dest s low length off with
  | zero => omega
  | succ fuel ih =>
    by_cases hshort : length < insertionSortThreshold
    · rw [mergeSort, if_pos hshort]
      simp only [NoMisplacedWrite, segment_length, if_pos hshort, true_or, true_implies,
        Bool.false_eq_true, false_or]
      refine ⟨fun hfresh => ?_, fun hle hfresh => ?_⟩
      · exact insertionSort_tracked length ⟨Int.le_refl _, Int.le_refl _⟩ hfresh.tracked
          (hfresh.closed (List.Perm.refl _))
      · rw [insertionSort_of_sorted length (Int.le_refl low) fun j hj hj' =>
          segment_pairwise.mp hle _ _ (by omega) (by omega) hj']
        exact ⟨hsrc, hfresh.tracked, fun _ _ => ⟨rfl, rfl⟩⟩
    · have h7 : 7 ≤ length := Nat.le_of_not_lt hshort
      obtain ⟨m1, m2, rfl, hm⟩ : ∃ m1 m2 : Nat, length = m1 + m2 ∧ m1 = length / 2 :=
        ⟨length / 2, length - length / 2, by omega, rfl⟩
      have hback : ∀ i, low + off ≤ i → i < low + off + (m1 + m2 : Nat) → src i = dest (i + -off) := by
        intro i hi hi'
        rw [hsrc (i + -off) (by omega) (by omega), Int.neg_add_cancel_right]
      have hlow : low + off + -off = low := Int.add_neg_cancel_right low off
      have hlow' : low + off + m1 + -off = low + m1 := by omega
      rw [segment_shift hsrc, segment_add]
      have hl1 : (segment src (low + off) m1).length = m1 := segment_length _ _ _
      have hl2 : (segment src (low + off + m1) m2).length = m2 := segment_length _ _ _
      rw [noMisplacedWrite_append (by rw [hl1, hl2]; exact h7) (by rw [hl1, hl2]; exact hm),
        noMisplacedWrite_append (by rw [hl1, hl2]; exact h7) (by rw [hl1, hl2]; exact hm)]
      constructor <;> rintro ⟨hcross, h1, h2⟩ hfresh
      all_goals
        obtain ⟨src1, dest1, s1, src2, dest2, s2, hh⟩ :=
          exists_halves fuel (s := s) (by omega) h7 hm hback hcross
        have ih1 := @ih dest src s (low + off) m1 (-off) (by omega)
          fun i hi hi' => hback i hi (by omega)
        have ih2 := @ih dest1 src1 s1 (low + off + m1) m2 (-off) (by omega) fun i hi hi' => by
          rw [hh.src1_eq i (by omega), hh.dest1_eq (i + -off) (by omega)]
          exact hback i (by omega) (by omega)
        rw [hh.first, hlow] at ih1
        rw [hh.second, hlow', segment_congr fun i hi _ => hh.src1_eq i (by omega)] at ih2
        rw [hh.both]
        dsimp only at ih1 ih2 ⊢
      · -- the halves are sorted in the auxiliary array and end in both
        have hfresh1 : Fresh dest s low m1 := fun i hi hi' => hfresh i hi (by omega)
        obtain ⟨hsame1, ht1, ho1⟩ := ih1.2 h1 hfresh1
        obtain ⟨hsame2, ht2, ho2⟩ := ih2.2 h2
          (hfresh.rest ho1 fun i hi => hh.dest1_eq i (by omega))
        have hp1 := hh.perm
        rw [segment_shift hsame1, segment_shift fun i hi hi' => hback i hi (by omega), hlow] at hp1
        refine ⟨Tracked.congr (ht1.append (hfresh1.closed hp1) ht2 ho2
          fun i hi hi' => hh.dest2_eq i hi') fun i hi hi' => ?_, ho1.append ho2⟩
        rw [arraycopy_of_mem hi hi']
        by_cases hfst : i < low + m1
        · rw [hh.src2_eq _ (by omega), hsame1 _ (by omega) (by omega), Int.add_neg_cancel_right,
            hh.dest2_eq i hfst]
        · rw [hsame2 _ (by omega) (by omega), Int.add_neg_cancel_right]
      · obtain ⟨ht1, ho1⟩ := ih1.1 h1 fun i hi hi' => hfresh i hi (by omega)
        obtain ⟨ht2, ho2⟩ := ih2.1 h2 (hfresh.rest ho1 fun i hi => hh.src1_eq i (by omega))
        have hfresh1 : Fresh src s (low + off) m1 := fun i hi hi' => hfresh i hi (by omega)
        exact ⟨fun i hi hi' => arraycopy_of_mem hi hi', ht1.append (hfresh1.closed hh.perm) ht2 ho2
          fun i hi hi' => hh.src2_eq i hi', ho1.append ho2⟩

end Tags

/-! ## A run on elements with their positions -/

/-- The run on `x` is one on elements that carry their old position. -/
theorem mergeSort_tagged (hc : IsComparator c) (x : Int → T) (low : Int) (n : Nat) :
    ∃ (d : Int → T × Int) (s : Perms),
      (mergeSort c (n + 1) (fun i => x (i + low)) x initPermutation low n (-low)).2
          = (fun i => (d i).1, s) ∧
      (segment d low n).Perm (segment (fun i => (x i, i)) low n) ∧
      (segment d low n).Pairwise (lexLt c) ∧
      (∀ i, i < low ∨ low + n ≤ i → d i = (x i, i)) ∧
      (low = 0 ∨ NoMisplacedWrite c (n + 1) true (segment x low n) → Tracked (d, s) low n) := by
  let X : Int → T × Int := fun i => (x i, i)
  let ct : T × Int → T × Int → Int := fun u v => c u.1 v.1
  have hsrc : ∀ i, low ≤ i → i < low + n → X i = X (i + -low + low) := fun i _ _ => by
    rw [Int.neg_add_cancel_right]
  have hmap := mergeSort_map (f := Prod.fst) (c := c) (n + 1) (fun i => X (i + low)) X
    initPermutation low n (-low)
  obtain ⟨hp, hsort, hout, -⟩ := @mergeSort_spec _ ct (lexLt c) hc.lexLt_trans (n + 1)
    (fun i => X (i + low)) X initPermutation low n (-low) (Nat.lt_succ_self n) hsrc
    (hc.segment_before x low n)
  have hinit : Fresh X initPermutation low n := fun i _ _ => ⟨rfl, rfl, rfl⟩
  have htracked : low = 0 ∨ NoMisplacedWrite c (n + 1) true (segment x low n) →
      Tracked (mergeSort ct (n + 1) (fun i => X (i + low)) X initPermutation low n (-low)).2 low n := by
    rintro (rfl | hw)
    · simp only [Int.add_zero, Int.neg_zero]
      exact (@mergeSort_tracked _ ct (n + 1) X X initPermutation 0 n (Nat.lt_succ_self n)
        (fun _ _ _ => rfl) (fun _ _ _ => rfl) fun _ _ _ => ⟨rfl, rfl⟩).1
    · have hfst : segment x low n = (segment X low n).map Prod.fst := segment_map Prod.fst X low n
      rw [hfst, noMisplacedWrite_map] at hw
      exact ((mergeSort_inPlace (n + 1) (Nat.lt_succ_self n) hsrc).1 hw hinit).1
  generalize mergeSort ct (n + 1) (fun i => X (i + low)) X initPermutation low n (-low) = r at *
  obtain ⟨src, d, s⟩ := r
  exact ⟨d, s, congrArg Prod.snd hmap, hp, hsort, hout, htracked⟩

theorem tagged_segment (x : Int → T) (low : Int) (n : Nat) :
    (segment (fun i => (x i, i)) low n).map (fun u => (u.1, u.2 - low)) = tagged (segment x low n) := by
  apply ext_getElem?
  intro k
  by_cases hk : k < n
  · rw [getElem?_map, segment_getElem? _ _ _ _ hk, tagged, getElem?_map,
      getElem?_zipIdx, segment_getElem? _ _ _ _ hk]
    have hidx : low + (k : Int) - low = k := by omega
    simp [hidx]
  · rw [getElem?_eq_none (by simpa using hk), getElem?_eq_none (by simpa [tagged] using hk)]

/-- The contents of the range: the stable sort of what was there. -/
theorem segment_eq_mergeSort (hc : IsComparator c) {x : Int → T} (hp : (segment d low n).Perm
    (segment (fun i => (x i, i)) low n))
    (hlex : (segment d low n).Pairwise (lexLt c)) :
    segment (fun i => (d i).1) low n = (segment x low n).mergeSort fun u v => c u v ≤ 0 := by
  have hperm := hp.map fun u : T × Int => (u.1, u.2 - low)
  rw [tagged_segment] at hperm
  rw [← map_fst_eq_mergeSort hc hperm ?_, map_map, segment_map]
  · rfl
  · refine pairwise_map.mpr (hlex.imp ?_)
    rintro u v (hlt | ⟨heq, htag⟩)
    · exact Or.inl hlt
    · exact Or.inr ⟨heq, by dsimp only; omega⟩

/-- Where the permutation arrays follow the tags, they say where each element went. -/
theorem Tracked.moves {x : Int → T} {s : Perms} (ht : Tracked (d, s) low n)
    (hp : (segment d low n).Perm (segment (fun i => (x i, i)) low n)) :
    (segment s.permutation low n).Perm (segment id low n) ∧
      ∀ j, low ≤ j → j < low + n → low ≤ s.permutation j ∧ s.permutation j < low + n ∧
        (d (s.permutation j)).1 = x j := by
  refine ⟨?_, ?_⟩
  · -- read along the tags, `permutation` gives all positions in order
    have htags : (segment (fun i => (d i).2) low n).Perm (segment id low n) := by
      have := hp.map Prod.snd
      rwa [← segment_map, ← segment_map] at this
    have hread := htags.map s.permutation
    rw [← segment_map, ← segment_map] at hread
    rw [segment_congr fun i hi hi' => (ht i hi hi').2] at hread
    exact hread.symm
  · intro j hj hj'
    obtain ⟨-, -, hsurj⟩ := tags_of_perm hp fun _ _ _ => rfl
    obtain ⟨i, hi, hi', rfl⟩ := hsurj j hj hj'
    have hmem : d i ∈ segment (fun i => (x i, i)) low n :=
      hp.mem_iff.mp (mem_segment.mpr ⟨i, hi, hi', rfl⟩)
    obtain ⟨k, -, -, hk⟩ := mem_segment.mp hmem
    rw [(ht i hi hi').2]
    exact ⟨hi, hi', by rw [← hk]⟩

/-! ## What the call returns -/

theorem sortRangeOf_eq (c : T → T → Int) (null : T) (X M Z : List T) :
    sortRangeOf c null (X ++ M ++ Z) X.length (X.length + M.length) =
      let run := mergeSort c (M.length + 1)
        (fun i => (X ++ M ++ Z).getD (i + (X.length : Int)).toNat null)
        (fun i => (X ++ M ++ Z).getD i.toNat null) initPermutation X.length M.length (-X.length)
      .ok (segment run.2.1 0 (X ++ M ++ Z).length, segment run.2.2.permutation X.length M.length) := by
  have hlen : ((X.length : Int) + M.length - X.length).toNat = M.length := by omega
  rw [sortRangeOf, rangeCheck, if_neg (by omega), if_neg (by omega),
    if_neg (by simp only [length_append]; omega)]
  simp only [bind, Except.bind, pure, Except.pure, hlen]

theorem sortRangeOf_spec (hc : IsComparator c) (null : T) (X M Z : List T) :
    ∃ perm, sortRangeOf c null (X ++ M ++ Z) X.length (X.length + M.length)
        = .ok (X ++ M.mergeSort (fun u v => c u v ≤ 0) ++ Z, perm) ∧
      (X = [] ∨ NoMisplacedWrite c (M.length + 1) true M →
        perm.length = M.length ∧ IsPermutation X.length perm ∧
        ∀ (i : Nat) (k : Int), perm[i]? = some k →
          X.length ≤ k ∧ (M.mergeSort (fun u v => c u v ≤ 0))[(k - X.length).toNat]? = M[i]?) := by
  let x : Int → T := fun i => (X ++ M ++ Z).getD i.toNat null
  have hM : segment x X.length M.length = M := segment_getD null rfl
  obtain ⟨d, s, hrun, hp, hlex, hout, htracked⟩ := mergeSort_tagged hc x X.length M.length
  have hsort := segment_eq_mergeSort hc hp hlex
  rw [hM] at hsort
  refine ⟨segment s.permutation X.length M.length, ?_, ?_⟩
  · rw [sortRangeOf_eq]
    dsimp only
    rw [hrun]
    dsimp only
    rw [segment_of_same_outside null fun i hi => by rw [hout i hi], hsort]
  · intro h
    have hw : X.length = (0 : Int) ∨
        NoMisplacedWrite c (M.length + 1) true (segment x X.length M.length) := by
      rw [hM]
      exact h.imp_left fun hX => by rw [hX]; rfl
    obtain ⟨hperm, hmoves⟩ := (htracked hw).moves hp
    refine ⟨segment_length _ _ _, by rw [IsPermutation, segment_length]; exact hperm, ?_⟩
    intro i k hk
    obtain ⟨hi, rfl⟩ := segment_getElem?_eq_some.mp hk
    obtain ⟨hlow, hhigh, hval⟩ := hmoves (X.length + i) (by omega) (by omega)
    refine ⟨hlow, ?_⟩
    have hpos : (X.length : Int) + ((s.permutation (X.length + i) - X.length).toNat : Int)
        = s.permutation (X.length + i) := by omega
    have hget := segment_getElem? x X.length M.length i hi
    rw [hM] at hget
    rw [← hsort, segment_getElem? _ _ _ _ (by omega), hpos, hval, hget]

variable {toIndex : Nat}

theorem take_append_range_append_drop (a : List T) (h : fromIndex ≤ toIndex) :
    a.take fromIndex ++ (a.drop fromIndex).take (toIndex - fromIndex) ++ a.drop toIndex = a := by
  have hdrop : a.drop toIndex = (a.drop fromIndex).drop (toIndex - fromIndex) := by
    rw [drop_drop, Nat.add_sub_cancel' h]
  rw [hdrop, append_assoc, take_append_drop, take_append_drop]

theorem sortRangeOf_leads (hc : IsComparator c) (null : T) (a : List T)
    (h : fromIndex ≤ toIndex) (hto : toIndex ≤ a.length) :
    ∃ perm, sortRangeOf c null a fromIndex toIndex = .ok (sortedRange c a fromIndex toIndex, perm) ∧
      (fromIndex = 0 ∨ NoMisplacedWrite c (toIndex - fromIndex + 1) true
          ((a.drop fromIndex).take (toIndex - fromIndex)) →
        Leads a (sortedRange c a fromIndex toIndex) fromIndex toIndex perm) := by
  have hparts := take_append_range_append_drop a h
  have hX : (a.take fromIndex).length = fromIndex := by rw [length_take]; omega
  have hM : ((a.drop fromIndex).take (toIndex - fromIndex)).length = toIndex - fromIndex := by
    rw [length_take, length_drop]
    omega
  obtain ⟨perm, hrun, hleads⟩ := sortRangeOf_spec hc null (a.take fromIndex)
    ((a.drop fromIndex).take (toIndex - fromIndex)) (a.drop toIndex)
  have hend : (fromIndex : Int) + ((toIndex - fromIndex : Nat) : Int) = toIndex := by omega
  rw [hparts, hX, hM, hend] at hrun
  rw [hX, hM] at hleads
  refine ⟨perm, hrun, fun hcond => ?_⟩
  obtain ⟨hlen, hperm, hmoves⟩ := hleads (hcond.imp_left fun h0 => by rw [h0, take_zero])
  refine ⟨hlen, hperm, fun i k hk => ?_⟩
  obtain ⟨hlow, hget⟩ := hmoves i k hk
  have hi : i < toIndex - fromIndex := by
    rw [← hlen]
    exact (List.getElem?_eq_some_iff.mp hk).1
  obtain ⟨k', hk'⟩ : ∃ k' : Nat, k.toNat = fromIndex + k' := ⟨k.toNat - fromIndex, by omega⟩
  have hkk : (k - fromIndex).toNat = k' := by omega
  have hai : ((a.drop fromIndex).take (toIndex - fromIndex))[i]? = a[fromIndex + i]? := by
    rw [getElem?_take_of_lt hi, getElem?_drop]
  rw [hkk, hai] at hget
  -- the element found lies in the sorted part
  have hk'lt : k' < toIndex - fromIndex := by
    by_contra hge
    rw [getElem?_eq_none (by rw [length_mergeSort, hM]; omega),
      eq_comm, List.getElem?_eq_none_iff] at hget
    omega
  rw [sortedRange, hk', append_assoc, getElem?_append_right (by rw [hX]; omega), hX,
    Nat.add_sub_cancel_left,
    getElem?_append_left (by rw [length_mergeSort, hM]; exact hk'lt), hget]

/-- The array is always sorted; from 0 on, and wherever nothing is written in the wrong place, the
    permutation is the right one. -/
theorem sortsRange_of_noMisplacedWrite (hc : IsComparator c) (null : T) (a : List T)
    (h : fromIndex ≤ toIndex) (hto : toIndex ≤ a.length) :
    (∃ perm, sortRangeOf c null a fromIndex toIndex = .ok (sortedRange c a fromIndex toIndex, perm)) ∧
      (fromIndex = 0 ∨ NoMisplacedWrite c (toIndex - fromIndex + 1) true
          ((a.drop fromIndex).take (toIndex - fromIndex)) →
        SortsRange c null a fromIndex toIndex) := by
  obtain ⟨perm, hrun, hleads⟩ := sortRangeOf_leads hc null a h hto
  exact ⟨⟨perm, hrun⟩, fun hcond => ⟨perm, hrun, hleads hcond⟩⟩

/-- From 1 on, 24 elements of which the first two are swapped: the quarters are sorted in the array. -/
theorem sortsRange_of_noMisplacedWrite_swapped :
    SortsRange compareTo 0 (0 :: 2 :: 1 :: (List.range 22).map fun i => (i + 3 : Int)) 1 25 :=
  (sortsRange_of_noMisplacedWrite isComparator_compareTo 0
    (0 :: 2 :: 1 :: (List.range 22).map fun i => (i + 3 : Int)) (by decide) (by decide)).2
    (Or.inr (by decide))

/-- From 1 on the last element is said to stay where it is. -/
theorem sortsRange_fails : ¬ SortsRange compareTo 0 [0, 2, 2, 2, 1, 1, 1, 1] 1 8 := by
  have hrun : sortRangeOf compareTo 0 [0, 2, 2, 2, 1, 1, 1, 1] ((1 : Nat) : Int) ((8 : Nat) : Int)
      = .ok ([0, 1, 1, 1, 1, 2, 2, 2], [6, 7, 1, 2, 3, 4, 7]) := by decide
  rintro ⟨perm, hrun', hleads⟩
  rw [hrun] at hrun'
  obtain ⟨hsort, rfl⟩ := Prod.mk.inj (Except.ok.inj hrun')
  rw [← hsort] at hleads
  exact absurd (hleads.moves 6 7 rfl) (by decide)

end OpenJfx.Collections.SortHelper
