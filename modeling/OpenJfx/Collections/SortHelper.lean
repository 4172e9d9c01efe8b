/-
  OpenJfx.Collections.SortHelper

  `SortHelper`: a merge sort with insertion sort on short ranges that records where each element
  goes.  Arrays are functions on positions; `Perms` is the pair `permutation` and
  `reversePermutation`.  The copies of `mergeSort` are one definition with the comparison `c` and
  the offset `off` from `dest` to `src`.
-/

import OpenJfx.Lib.Segment

namespace OpenJfx.Collections

open Function List Prod

variable {low : Int} {n : Nat} {T : Type} {c : T → T → Int}

namespace SortHelper

/-- The two permutations that the sort keeps. -/
structure Perms where
  permutation : Int → Int
  reversePermutation : Int → Int

/-- An array being sorted and the permutation so far. -/
abbrev Sorting (T : Type) := (Int → T) × Perms

/-- `INSERTIONSORT_THRESHOLD`. -/
def insertionSortThreshold : Nat := 7

/-- Nothing has moved. -/
def initPermutation : Perms := ⟨fun i => i, fun i => i⟩

/-- `swap(x, a, b)`. -/
def swap (a b : Int) (s : Sorting T) : Sorting T :=
  let x := s.1
  let p := s.2.permutation
  let r := s.2.reversePermutation
  (update (update x a (x b)) b (x a),
    ⟨update (update p (r a) b) (r b) a, update (update r a (r b)) b (r a)⟩)

/-- `for (j = i; j > low && c(dest[j-1], dest[j]) > 0; j--) swap(dest, j, j-1);`
    with `k = j - low`. -/
def insertDown (c : T → T → Int) : Nat → Int → Sorting T → Sorting T
  | 0, _, s => s
  | k + 1, j, s =>
    if c (s.1 (j - 1)) (s.1 j) > 0 then insertDown c k (j - 1) (swap j (j - 1) s) else s

/-- The outer loop from `i` on, with `n` positions to go. -/
def insertionSort (c : T → T → Int) (low : Int) : Nat → Int → Sorting T → Sorting T
  | 0, _, s => s
  | n + 1, i, s => insertionSort c low n (i + 1) (insertDown c (i - low).toNat i s)

/-- `dest[i] = src[j]; permutation[reversePermutation[j]] = i;`. -/
def place (src : Int → T) (i j : Int) (s : Sorting T) : Sorting T :=
  (update s.1 i (src j),
    ⟨update s.2.permutation (s.2.reversePermutation j) i, s.2.reversePermutation⟩)

/-- The merge loop, with `n = destHigh - i`. -/
def mergeLoop (c : T → T → Int) (src : Int → T) (mid high : Int) :
    Nat → Int → Int → Int → Sorting T → Sorting T
  | 0, _, _, _, s => s
  | n + 1, i, p, q, s =>
    if q ≥ high ∨ (p < mid ∧ c (src p) (src q) ≤ 0) then
      mergeLoop c src mid high n (i + 1) (p + 1) q (place src i p s)
    else mergeLoop c src mid high n (i + 1) p (q + 1) (place src i q s)

/-- `for (i = destLow; i < destHigh; ++i) reversePermutation[permutation[i]] = i;`. -/
def reverseLoop : Nat → Int → Perms → Perms
  | 0, _, s => s
  | n + 1, i, s =>
    reverseLoop n (i + 1)
      { s with reversePermutation := update s.reversePermutation (s.permutation i) i }

/-- `System.arraycopy(src, low, dest, destLow, length)`. -/
def arraycopy (src : Int → T) (low : Int) (dest : Int → T) (destLow : Int) (length : Nat) : Int → T :=
  fun i => if destLow ≤ i ∧ i < destLow + length then src (low + (i - destLow)) else dest i

/-- `mergeSort(src, dest, low, high, off, c)`, with the depth of the recursion and `length = high -
    low`. -/
def mergeSort (c : T → T → Int) :
    Nat → (Int → T) → (Int → T) → Perms → Int → Nat → Int → (Int → T) × (Int → T) × Perms
  | 0, src, dest, s, _, _, _ => (src, dest, s)
  | fuel + 1, src, dest, s, low, length, off =>
    if length < insertionSortThreshold then
      let (dest, s) := insertionSort c low length low (dest, s)
      (src, dest, s)
    else
      let destLow := low
      let low := low + off
      let high := low + length
      let mid := (low + high) / 2
      let (dest, src, s) := mergeSort c fuel dest src s low (mid - low).toNat (-off)
      let (dest, src, s) := mergeSort c fuel dest src s mid (high - mid).toNat (-off)
      if c (src (mid - 1)) (src mid) ≤ 0 then (src, arraycopy src low dest destLow length, s)
      else
        let (dest, s) := mergeLoop c src mid high length destLow low mid (dest, s)
        (src, dest, reverseLoop length destLow s)

@[simp] theorem swap_left (a b : Int) (s : Sorting T) (h : a ≠ b) : (swap a b s).1 a = s.1 b := by
  simp [swap, h]

@[simp] theorem swap_right (a b : Int) (s : Sorting T) : (swap a b s).1 b = s.1 a := by
  simp [swap]

theorem swap_of_ne {a b i : Int} (s : Sorting T) (ha : i ≠ a) (hb : i ≠ b) :
    (swap a b s).1 i = s.1 i := by
  simp [swap, ha, hb]

@[simp] theorem place_self (src : Int → T) (i j : Int) (s : Sorting T) :
    (place src i j s).1 i = src j := by
  simp [place]

theorem place_of_ne (src : Int → T) {i k : Int} (j : Int) (s : Sorting T) (h : k ≠ i) :
    (place src i j s).1 k = s.1 k := by
  simp [place, h]

/-! ## The contents

`lt` is the order the result is sorted in, and `Before c lt a b` is what has to
hold of an element `a` that stands before `b` at the start: the comparison
decides between them as `lt` does.  With the plain order this says nothing more
than that `c` is a comparator; with a tie broken by the old position it makes
the sort stable. -/

/-- The comparator decides the order. -/
def Before (c : T → T → Int) (lt : T → T → Prop) (a b : T) : Prop :=
  (c a b ≤ 0 → lt a b) ∧ (0 < c a b → lt b a)

section Contents

variable {c : T → T → Int} {lt : T → T → Prop} (htrans : ∀ a b d, lt a b → lt b d → lt a d)

include htrans

/-- The inner loop inserts the element behind a sorted segment into it. -/
theorem insertDown_spec (k : Nat) (low : Int) (s : Sorting T) (hs : (segment s.1 low k).Pairwise lt)
    (hb : ∀ a ∈ segment s.1 low k, Before c lt a (s.1 (low + k))) :
    (segment (insertDown c k (low + k) s).1 low (k + 1)).Perm (segment s.1 low (k + 1)) ∧
      (segment (insertDown c k (low + k) s).1 low (k + 1)).Pairwise lt ∧
      ∀ i, i < low ∨ low + k < i → (insertDown c k (low + k) s).1 i = s.1 i := by
  induction k generalizing s with
  | zero => exact ⟨List.Perm.refl _, pairwise_singleton _ _, fun _ _ => rfl⟩
  | succ k ih =>
    have hj : low + ((k + 1 : Nat) : Int) - 1 = low + k := by omega
    rw [segment_concat] at hs hb
    obtain ⟨hs0, -, hlast⟩ := pairwise_append.mp hs
    have hy := hb (s.1 (low + k)) (by simp)
    rw [insertDown, hj]
    by_cases hc : c (s.1 (low + k)) (s.1 (low + ((k + 1 : Nat) : Int))) > 0
    · rw [if_pos hc]
      -- after the swap the element stands one lower, and the larger one behind it
      have hlow : ∀ i, i < low + k → (swap (low + ((k + 1 : Nat) : Int)) (low + k) s).1 i = s.1 i := by
        intro i hi
        exact swap_of_ne s (by omega) (by omega)
      have hz : (swap (low + ((k + 1 : Nat) : Int)) (low + k) s).1 (low + k)
          = s.1 (low + ((k + 1 : Nat) : Int)) := swap_right _ _ s
      have hseg : segment (swap (low + ((k + 1 : Nat) : Int)) (low + k) s).1 low k
          = segment s.1 low k := segment_congr fun i _ hi => hlow i hi
      obtain ⟨hp, hsorted, hout⟩ := ih (swap (low + ((k + 1 : Nat) : Int)) (low + k) s)
        (by rw [hseg]; exact hs0)
        (by rw [hseg, hz]; exact fun a ha => hb a (by simp [ha]))
      have htop : (insertDown c k (low + k) (swap (low + ((k + 1 : Nat) : Int)) (low + k) s)).1
          (low + ((k + 1 : Nat) : Int)) = s.1 (low + k) := by
        rw [hout _ (by omega), swap_left _ _ s (by omega)]
      rw [segment_concat (swap (low + ((k + 1 : Nat) : Int)) (low + k) s).1, hseg, hz] at hp
      refine ⟨?_, ?_, ?_⟩
      · rw [segment_concat, htop, segment_concat s.1, segment_concat s.1, append_assoc]
        refine (hp.append_right _).trans ?_
        rw [append_assoc]
        exact List.Perm.append_left _ (List.Perm.swap _ _ _)
      · rw [segment_concat, htop]
        refine pairwise_append.mpr ⟨hsorted, pairwise_singleton _ _, ?_⟩
        intro a ha b hb'
        rw [mem_singleton.mp hb']
        rcases mem_append.mp (hp.mem_iff.mp ha) with ha | ha
        · exact hlast a ha _ (by simp)
        · rw [mem_singleton.mp ha]
          exact hy.2 hc
      · intro i hi
        rw [hout i (by omega), swap_of_ne s (by omega) (by omega)]
    · rw [if_neg hc]
      have hlt := hy.1 (Int.not_lt.mp hc)
      refine ⟨List.Perm.refl _, ?_, fun _ _ => rfl⟩
      rw [segment_concat s.1 low (k + 1), segment_concat]
      refine pairwise_append.mpr ⟨hs, pairwise_singleton _ _, ?_⟩
      intro a ha b hb'
      rw [mem_singleton.mp hb']
      rcases mem_append.mp ha with ha | ha
      · exact htrans _ _ _ (hlast a ha _ (by simp)) hlt
      · rw [mem_singleton.mp ha]
        exact hlt

/-- The outer loop, with the segment in front of `i` already sorted. -/
theorem insertionSort_spec (n k : Nat) (low : Int) (s : Sorting T)
    (hs : (segment s.1 low k).Pairwise lt)
    (hb : ∀ a ∈ segment s.1 low k, ∀ b ∈ segment s.1 (low + k) n, Before c lt a b)
    (hr : (segment s.1 (low + k) n).Pairwise (Before c lt)) :
    (segment (insertionSort c low n (low + k) s).1 low (k + n)).Perm (segment s.1 low (k + n)) ∧
      (segment (insertionSort c low n (low + k) s).1 low (k + n)).Pairwise lt ∧
      ∀ i, i < low ∨ low + (k + n : Nat) ≤ i → (insertionSort c low n (low + k) s).1 i = s.1 i := by
  induction n generalizing k s with
  | zero => exact ⟨List.Perm.refl _, hs, fun _ _ => rfl⟩
  | succ n ih =>
    have hk : (low + (k : Int) - low).toNat = k := by omega
    rw [insertionSort, hk]
    rw [segment_succ] at hb hr
    obtain ⟨hp, hsorted, hout⟩ := insertDown_spec htrans k low s hs
      fun a ha => hb a ha _ mem_cons_self
    have hrest : segment (insertDown c k (low + k) s).1 (low + k + 1) n
        = segment s.1 (low + k + 1) n := segment_congr fun i hi _ => hout i (by omega)
    have hnxt : low + (k : Int) + 1 = low + ((k + 1 : Nat) : Int) := by omega
    obtain ⟨hr0, hr⟩ := pairwise_cons.mp hr
    rw [hnxt] at hrest hr0 hr hb ⊢
    have hmem : ∀ a, a ∈ segment (insertDown c k (low + k) s).1 low (k + 1) →
        a ∈ segment s.1 low k ∨ a = s.1 (low + k) := by
      intro a ha
      have := hp.mem_iff.mp ha
      rw [segment_concat] at this
      simpa using this
    obtain ⟨hp', hsorted', hout'⟩ := ih (k + 1) (insertDown c k (low + k) s) hsorted (by
        rw [hrest]
        intro a ha b hb'
        rcases hmem a ha with ha | rfl
        · exact hb a ha b (.tail _ hb')
        · exact hr0 b hb')
      (by rw [hrest]; exact hr)
    have hlen : k + 1 + n = k + (n + 1) := by omega
    rw [hlen] at hp' hsorted' hout'
    refine ⟨hp'.trans ?_, hsorted', ?_⟩
    · rw [← hlen, segment_add, segment_add s.1, hrest]
      exact hp.append_right _
    · intro i hi
      rw [hout' i hi, hout i (by omega)]

theorem mergeLoop_spec (src : Int → T) {mid high : Int} (n a b : Nat) (hn : n = a + b)
    {i p q : Int} (s : Sorting T) (hp : p + a = mid) (hq : q + b = high)
    (hA : (segment src p a).Pairwise lt) (hB : (segment src q b).Pairwise lt)
    (hb : ∀ x ∈ segment src p a, ∀ y ∈ segment src q b, Before c lt x y) :
    (segment (mergeLoop c src mid high n i p q s).1 i n).Perm (segment src p a ++ segment src q b) ∧
      (segment (mergeLoop c src mid high n i p q s).1 i n).Pairwise lt ∧
      ∀ j, j < i ∨ i + n ≤ j → (mergeLoop c src mid high n i p q s).1 j = s.1 j := by
  induction n generalizing a b i p q s with
  | zero =>
    obtain ⟨rfl, rfl⟩ : a = 0 ∧ b = 0 := by omega
    exact ⟨List.Perm.refl _, List.Pairwise.nil, fun _ _ => rfl⟩
  | succ n ih =>
    rw [mergeLoop]
    split
    · -- the next element comes from the left run
      rename_i hleft
      rcases a with _ | a
      · omega
      rw [segment_succ] at hA hb ⊢
      obtain ⟨hA0, hA⟩ := pairwise_cons.mp hA
      obtain ⟨hperm, hsorted, hout⟩ := ih (i := i + 1) (p := p + 1) (q := q) a b (by omega)
        (place src i p s)
        (by omega) hq hA hB fun x hx y hy => hb x (.tail _ hx) y hy
      have hhead : (mergeLoop c src mid high n (i + 1) (p + 1) q (place src i p s)).1 i = src p := by
        rw [hout i (by omega), place_self]
      rw [segment_succ, hhead]
      refine ⟨hperm.cons _, pairwise_cons.mpr ⟨?_, hsorted⟩, ?_⟩
      · intro y hy
        rcases mem_append.mp (hperm.mem_iff.mp hy) with hy | hy
        · exact hA0 y hy
        · -- the first of the right run is not smaller, and the others follow it
          cases b with
          | zero => cases hy
          | succ b =>
            rw [segment_succ] at hy hB hb
            have hle : c (src p) (src q) ≤ 0 := by
              rcases hleft with hge | hle
              · omega
              · exact hle.2
            have hfst : lt (src p) (src q) := (hb _ (by simp) _ (by simp)).1 hle
            rcases mem_cons.mp hy with rfl | hy
            · exact hfst
            · exact htrans _ _ _ hfst ((pairwise_cons.mp hB).1 y hy)
      · intro j hj
        rw [hout j (by omega), place_of_ne src _ s (by omega)]
    · -- the next element comes from the right run
      rename_i hright
      rcases b with _ | b
      · omega
      rw [segment_succ] at hB hb
      obtain ⟨hB0, hB⟩ := pairwise_cons.mp hB
      obtain ⟨hperm, hsorted, hout⟩ := ih (i := i + 1) (p := p) (q := q + 1) a b (by omega)
        (place src i q s)
        hp (by omega) hA hB fun x hx y hy => hb x hx y (.tail _ hy)
      have hhead : (mergeLoop c src mid high n (i + 1) p (q + 1) (place src i q s)).1 i = src q := by
        rw [hout i (by omega), place_self]
      rw [segment_succ, segment_succ src q, hhead]
      refine ⟨(hperm.cons _).trans perm_middle.symm, pairwise_cons.mpr ⟨?_, hsorted⟩, ?_⟩
      · intro x hx
        rcases mem_append.mp (hperm.mem_iff.mp hx) with hx | hx
        · cases a with
          | zero => cases hx
          | succ a =>
            rw [segment_succ] at hx hA hb
            have hgt : 0 < c (src p) (src q) := by
              by_contra hle
              exact hright (Or.inr ⟨by omega, Int.not_lt.mp hle⟩)
            have hfst : lt (src q) (src p) := (hb _ (by simp) _ (by simp)).2 hgt
            rcases mem_cons.mp hx with rfl | hx
            · exact hfst
            · exact htrans _ _ _ hfst ((pairwise_cons.mp hA).1 x hx)
        · exact hB0 x hx
      · intro j hj
        rw [hout j (by omega), place_of_ne src _ s (by omega)]

theorem mergeSort_spec (fuel : Nat) {src dest : Int → T} (s : Perms) {low : Int} {length : Nat}
    {off : Int} (hfuel : length < fuel)
    (hsrc : ∀ i, low ≤ i → i < low + length → dest i = src (i + off))
    (hr : (segment dest low length).Pairwise (Before c lt)) :
    (segment (mergeSort c fuel src dest s low length off).2.1 low length).Perm
        (segment dest low length) ∧
      (segment (mergeSort c fuel src dest s low length off).2.1 low length).Pairwise lt ∧
      (∀ i, i < low ∨ low + length ≤ i →
        (mergeSort c fuel src dest s low length off).2.1 i = dest i) ∧
      ∀ i, i < low + off ∨ low + off + length ≤ i →
        (mergeSort c fuel src dest s low length off).1 i = src i := by
  induction fuel generalizing src dest s low length off with
  | zero => omega
  | succ fuel ih =>
    rw [mergeSort]
    by_cases hshort : length < insertionSortThreshold
    · rw [if_pos hshort]
      obtain ⟨hp, hsorted, hout⟩ := insertionSort_spec htrans (c := c) length 0 low (dest, s)
        List.Pairwise.nil (fun a ha => by cases ha) (by simpa using hr)
      simp only [Nat.zero_add, Int.add_zero, Int.natCast_zero] at hp hsorted hout
      exact ⟨hp, hsorted, hout, fun _ _ => rfl⟩
    · rw [if_neg hshort]
      have h7 : 7 ≤ length := Nat.le_of_not_lt hshort
      -- the two halves, as lengths
      obtain ⟨m1, m2, hlen, hm1, hm2, hmid⟩ : ∃ m1 m2 : Nat, length = m1 + m2 ∧ 0 < m1 ∧ 0 < m2 ∧
          (low + off + (low + off + length)) / 2 = low + off + m1 :=
        ⟨length / 2, length - length / 2, by omega, by omega, by omega, by omega⟩
      subst hlen
      simp only [hmid]
      have e1 : (low + off + (m1 : Int) - (low + off)).toNat = m1 := by omega
      have e2 : (low + off + ((m1 + m2 : Nat) : Int) - (low + off + (m1 : Int))).toNat = m2 := by omega
      rw [e1, e2]
      -- the halves of `dest`, which `src` holds too
      have hseg : segment dest low (m1 + m2) = segment src (low + off) m1 ++
          segment src (low + off + m1) m2 := by
        rw [segment_shift hsrc, segment_add]
      rw [hseg] at hr
      obtain ⟨hr1, hr2, hcross⟩ := pairwise_append.mp hr
      -- first half
      generalize hms1 : mergeSort c fuel dest src s (low + off) m1 (-off) = ms1
      obtain ⟨hp1, hs1, hd1, he1⟩ := @ih dest _ s _ _ _ (by omega)
        (fun i hi hi' => by rw [hsrc (i + -off) (by omega) (by omega)]; congr 1; omega) hr1
      rw [hms1] at hp1 hs1 hd1 he1
      obtain ⟨dest1, src1, s1⟩ := ms1
      dsimp only at hp1 hs1 hd1 he1 ⊢
      -- second half
      generalize hms2 : mergeSort c fuel dest1 src1 s1 (low + off + m1) m2 (-off) = ms2
      have hsrc1 : segment src1 (low + off + m1) m2 = segment src (low + off + m1) m2 :=
        segment_congr fun i hi hi' => hd1 i (by omega)
      obtain ⟨hp2, hs2, hd2, he2⟩ := @ih dest1 src1 s1 (low + off + m1) m2 _ (by omega)
        (fun i hi hi' => by
          rw [hd1 i (by omega), he1 (i + -off) (by omega), hsrc (i + -off) (by omega) (by omega)]
          congr 1
          omega)
        (by rw [hsrc1]; exact hr2)
      rw [hms2] at hp2 hs2 hd2 he2
      obtain ⟨dest2, src2, s2⟩ := ms2
      dsimp only at hp2 hs2 hd2 he2 ⊢
      rw [hsrc1] at hp2
      -- both runs now stand in `src2`
      have hrun1 : segment src2 (low + off) m1 = segment src1 (low + off) m1 :=
        segment_congr fun i hi hi' => hd2 i (by omega)
      rw [← hrun1] at hp1 hs1
      have hperm : (segment src2 (low + off) m1 ++ segment src2 (low + off + m1) m2).Perm
          (segment dest low (m1 + m2)) := by
        rw [hseg]
        exact hp1.append hp2
      have hbef : ∀ x ∈ segment src2 (low + off) m1, ∀ y ∈ segment src2 (low + off + m1) m2,
          Before c lt x y := fun x hx y hy =>
        hcross x (hp1.mem_iff.mp hx) y (hp2.mem_iff.mp hy)
      have hsrcOut : ∀ i, i < low + off ∨ low + off + ((m1 + m2 : Nat) : Int) ≤ i → src2 i = src i :=
        fun i hi => by rw [hd2 i (by omega), hd1 i (by omega)]
      have hdestOut : ∀ i, i < low ∨ low + ((m1 + m2 : Nat) : Int) ≤ i → dest2 i = dest i :=
        fun i hi => by rw [he2 i (by omega), he1 i (by omega)]
      split
      · -- already in order: copied
        rename_i hle
        have hcopy : segment (arraycopy src2 (low + off) dest2 low (m1 + m2)) low (m1 + m2)
            = segment src2 (low + off) m1 ++ segment src2 (low + off + m1) m2 := by
          rw [← segment_add]
          refine segment_shift fun i hi hi' => ?_
          rw [arraycopy, if_pos ⟨hi, hi'⟩]
          congr 1
          omega
        refine ⟨by rw [hcopy]; exact hperm, ?_, ?_, hsrcOut⟩
        · rw [hcopy]
          refine pairwise_append.mpr ⟨hs1, hs2, ?_⟩
          rcases m1 with _ | k1
          · omega
          rcases m2 with _ | k2
          · omega
          have hlast : low + off + ((k1 + 1 : Nat) : Int) - 1 = low + off + k1 := by omega
          rw [hlast] at hle
          rw [segment_concat src2 (low + off)] at hs1 hbef ⊢
          rw [segment_succ src2 (low + off + ((k1 + 1 : Nat) : Int))] at hs2 hbef ⊢
          have hmiddle := (hbef _ (by simp) _ (by simp)).1 hle
          intro x hx y hy
          have hx' : x = src2 (low + off + k1) ∨ lt x (src2 (low + off + k1)) := by
            rcases mem_append.mp hx with hx | hx
            · exact Or.inr ((pairwise_append.mp hs1).2.2 x hx _ (by simp))
            · exact Or.inl (mem_singleton.mp hx)
          have hxy : lt x (src2 (low + off + ((k1 + 1 : Nat) : Int))) := by
            rcases hx' with rfl | hx'
            · exact hmiddle
            · exact htrans _ _ _ hx' hmiddle
          rcases mem_cons.mp hy with rfl | hy
          · exact hxy
          · exact htrans _ _ _ hxy ((pairwise_cons.mp hs2).1 y hy)
        · intro i hi
          have hne : ¬ (low ≤ i ∧ i < low + ((m1 + m2 : Nat) : Int)) := by omega
          exact (if_neg hne).trans (hdestOut i hi)
      · -- merged
        obtain ⟨hp, hsorted, hout⟩ := @mergeLoop_spec _ c _ htrans src2 _
          (low + off + ((m1 + m2 : Nat) : Int)) (m1 + m2) m1 m2 rfl low (low + off)
          (low + off + m1) (dest2, s2) rfl (by omega) hs1 hs2 hbef
        refine ⟨hp.trans hperm, hsorted, ?_, hsrcOut⟩
        intro i hi
        exact (hout i hi).trans (hdestOut i hi)

end Contents

/-! ## The permutation

For `off = 0`, the only case in which positions in `src` and `dest` agree.  The
elements carry their old position as a tag, and `reversePermutation` follows the
tags. -/

section Permutation

variable {U : Type}

/-- The permutation arrays describe the tags in `[low, low + n)`. -/
def Tracked (s : Sorting (U × Int)) (low : Int) (n : Nat) : Prop :=
  ∀ i, low ≤ i → i < low + n →
    s.2.reversePermutation i = (s.1 i).2 ∧ s.2.permutation (s.1 i).2 = i

/-- All tags in `[low, low + n)` are from that range. -/
def Closed (x : Int → U × Int) (low : Int) (n : Nat) : Prop :=
  ∀ i, low ≤ i → i < low + n → low ≤ (x i).2 ∧ (x i).2 < low + n

/-- Nothing outside of the range has changed. -/
def SameOutside (s t : Perms) (low : Int) (n : Nat) : Prop :=
  ∀ i, i < low ∨ low + n ≤ i →
    t.permutation i = s.permutation i ∧ t.reversePermutation i = s.reversePermutation i

theorem SameOutside.trans {s t u : Perms} (h1 : SameOutside s t low n)
    (h2 : SameOutside t u low n) : SameOutside s u low n := fun i hi =>
  ⟨(h2 i hi).1.trans (h1 i hi).1, (h2 i hi).2.trans (h1 i hi).2⟩

theorem SameOutside.append {s t u : Perms} {m1 m2 : Nat} (h1 : SameOutside s t low m1)
    (h2 : SameOutside t u (low + m1) m2) : SameOutside s u low (m1 + m2) := by
  intro i hi
  rw [(h2 i (by omega)).1, (h2 i (by omega)).2]
  exact h1 i (by omega)

/-- The halves are tracked one after the other. -/
theorem Tracked.append {x y : Int → U × Int} {s t : Perms} {m1 m2 : Nat}
    (h1 : Tracked (x, s) low m1) (hclosed : Closed x low m1)
    (h2 : Tracked (y, t) (low + m1) m2) (hout : SameOutside s t (low + m1) m2)
    (hsame : ∀ i, low ≤ i → i < low + m1 → y i = x i) : Tracked (y, t) low (m1 + m2) := by
  intro i hi hi'
  by_cases hfst : i < low + m1
  · obtain ⟨hr, hperm⟩ := h1 i hi hfst
    have hcl := hclosed i hi hfst
    dsimp only at hr hperm ⊢
    rw [hsame i hi hfst, (hout i (by omega)).2, (hout (x i).2 (by omega)).1]
    exact ⟨hr, hperm⟩
  · exact h2 i (by omega) (by omega)

variable {s : Sorting (U × Int)} {c : U × Int → U × Int → Int}

theorem swap_tracked (ht : Tracked s low n)
    (hc : Closed s.1 low n) {a b : Int} (hab : a ≠ b) (ha : low ≤ a ∧ a < low + n)
    (hb : low ≤ b ∧ b < low + n) :
    Tracked (swap a b s) low n ∧ Closed (swap a b s).1 low n ∧
      SameOutside s.2 (swap a b s).2 low n := by
  obtain ⟨hra, hpa⟩ := ht a ha.1 ha.2
  obtain ⟨hrb, hpb⟩ := ht b hb.1 hb.2
  have hca := hc a ha.1 ha.2
  have hcb := hc b hb.1 hb.2
  -- the tags of different positions differ
  have htag : ∀ i j, low ≤ i → i < low + n → low ≤ j → j < low + n → i ≠ j →
      (s.1 i).2 ≠ (s.1 j).2 := by
    intro i j hi hi' hj hj' hne heq
    have h1 := (ht i hi hi').2
    rw [heq, (ht j hj hj').2] at h1
    exact hne h1.symm
  refine ⟨?_, ?_, ?_⟩
  · intro i hi hi'
    by_cases hia : i = a
    · subst hia
      rw [swap_left _ _ _ hab]
      simp [swap, hab, hra, hrb]
    · by_cases hib : i = b
      · subst hib
        rw [swap_right]
        have hne := htag a i ha.1 ha.2 hi hi' hab
        simp [swap, hra, hrb, hne]
      · rw [swap_of_ne _ hia hib]
        have h1 := htag i a hi hi' ha.1 ha.2 hia
        have h2 := htag i b hi hi' hb.1 hb.2 hib
        simp [swap, hia, hib, hra, hrb, h1, h2, ht i hi hi']
  · intro i hi hi'
    by_cases hia : i = a
    · rw [hia, swap_left _ _ _ hab]
      exact hcb
    · by_cases hib : i = b
      · rw [hib, swap_right]
        exact hca
      · rw [swap_of_ne _ hia hib]
        exact hc i hi hi'
  · intro i hi
    have h1 : i ≠ a := by omega
    have h2 : i ≠ b := by omega
    have h3 : i ≠ (s.1 a).2 := by omega
    have h4 : i ≠ (s.1 b).2 := by omega
    simp [swap, h1, h2, hra, hrb, h3, h4]

theorem insertDown_tracked (k : Nat) {j : Int}
    (hj : low ≤ j - k ∧ j < low + n) (ht : Tracked s low n)
    (hc : Closed s.1 low n) :
    Tracked (insertDown c k j s) low n ∧ Closed (insertDown c k j s).1 low n ∧
      SameOutside s.2 (insertDown c k j s).2 low n := by
  induction k generalizing j s with
  | zero => exact ⟨ht, hc, fun _ _ => ⟨rfl, rfl⟩⟩
  | succ k ih =>
    rw [insertDown]
    split
    · obtain ⟨ht', hc', ho'⟩ := swap_tracked ht hc (a := j) (b := j - 1) (by omega) (by omega)
        (by omega)
      obtain ⟨ht'', hc'', ho''⟩ := ih (j := j - 1) (by omega) ht' hc'
      exact ⟨ht'', hc'', ho'.trans ho''⟩
    · exact ⟨ht, hc, fun _ _ => ⟨rfl, rfl⟩⟩

theorem insertionSort_tracked (m : Nat) {i : Int}
    (hi : low ≤ i ∧ i + m ≤ low + n) (ht : Tracked s low n)
    (hc : Closed s.1 low n) :
    Tracked (insertionSort c low m i s) low n ∧
      SameOutside s.2 (insertionSort c low m i s).2 low n := by
  induction m generalizing i s with
  | zero => exact ⟨ht, fun _ _ => ⟨rfl, rfl⟩⟩
  | succ m ih =>
    rw [insertionSort]
    obtain ⟨ht', hc', ho'⟩ := insertDown_tracked (c := c) (i - low).toNat (j := i) (by omega) ht hc
    obtain ⟨ht'', ho''⟩ := ih (i := i + 1) (by omega) ht' hc'
    exact ⟨ht'', ho'.trans ho''⟩

theorem mergeLoop_tracked {c : U × Int → U × Int → Int} (src : Int → U × Int) {mid high : Int}
    (n a b : Nat) (hn : n = a + b) {i p q : Int} (s : Sorting (U × Int)) (hp : p + a = mid)
    (hq : q + b = high)
    (hrev : ∀ x, (p ≤ x ∧ x < mid) ∨ (q ≤ x ∧ x < high) → s.2.reversePermutation x = (src x).2)
    (hnodup : ((segment src p a ++ segment src q b).map snd).Nodup) :
    (mergeLoop c src mid high n i p q s).2.reversePermutation = s.2.reversePermutation ∧
      (∀ j, i ≤ j → j < i + n → (mergeLoop c src mid high n i p q s).2.permutation
        ((mergeLoop c src mid high n i p q s).1 j).2 = j) ∧
      ∀ t, t ∉ (segment src p a ++ segment src q b).map snd →
        (mergeLoop c src mid high n i p q s).2.permutation t = s.2.permutation t := by
  induction n generalizing a b i p q s with
  | zero => exact ⟨rfl, fun j h1 h2 => by omega, fun _ _ => rfl⟩
  | succ n ih =>
    -- one element `src x` is placed at `i`; the rest of the loop places the others
    have hstep : ∀ (x : Int) (a' b' : Nat) (p' q' : Int), n = a' + b' → p' + a' = mid →
        q' + b' = high →
        ((segment src p a ++ segment src q b).map snd).Perm
          ((src x).2 :: (segment src p' a' ++ segment src q' b').map snd) →
        p ≤ p' → q ≤ q' → ((p ≤ x ∧ x < mid) ∨ (q ≤ x ∧ x < high)) →
        (mergeLoop c src mid high n (i + 1) p' q' (place src i x s)).2.reversePermutation
            = s.2.reversePermutation ∧
          (∀ j, i ≤ j → j < i + (n + 1 : Nat) →
            (mergeLoop c src mid high n (i + 1) p' q' (place src i x s)).2.permutation
              ((mergeLoop c src mid high n (i + 1) p' q' (place src i x s)).1 j).2 = j) ∧
          ∀ t, t ∉ (segment src p a ++ segment src q b).map snd →
            (mergeLoop c src mid high n (i + 1) p' q' (place src i x s)).2.permutation t
              = s.2.permutation t := by
      intro x a' b' p' q' hn' hp' hq' hperm hpp hqq hx
      have hnd := hperm.nodup_iff.mp hnodup
      obtain ⟨hfresh, hnd'⟩ := nodup_cons.mp hnd
      have hrx := hrev x hx
      obtain ⟨h1, h2, h3⟩ := ih a' b' hn' (i := i + 1) (p := p') (q := q') (place src i x s) hp' hq'
        (fun y hy => hrev y (by omega)) hnd'
      have hhead : (mergeLoop c src mid high n (i + 1) p' q' (place src i x s)).1 i = src x := by
        obtain ⟨-, -, hout⟩ := mergeLoop_spec (c := c)
          (fun _ _ _ _ _ => trivial) src n a' b' hn' (i := i + 1) (place src i x s) hp' hq'
          (pairwise_of_forall fun _ _ => trivial) (pairwise_of_forall fun _ _ => trivial)
          (fun _ _ _ _ => ⟨fun _ => trivial, fun _ => trivial⟩)
        rw [hout i (by omega), place_self]
      refine ⟨h1, ?_, ?_⟩
      · intro j hj hj'
        by_cases hji : j = i
        · rw [hji, hhead, h3 _ hfresh]
          simp [place, hrx]
        · exact h2 j (by omega) (by omega)
      · intro t ht
        have ht' := mt hperm.mem_iff.mpr ht
        rw [mem_cons, not_or] at ht'
        rw [h3 t ht'.2]
        simp [place, hrx, ht'.1]
    rw [mergeLoop]
    split
    · rcases a with _ | a
      · omega
      refine hstep p a b (p + 1) q (by omega) (by omega) hq ?_ (by omega) (by omega) (Or.inl (by omega))
      rw [segment_succ]
      exact List.Perm.refl _
    · rcases b with _ | b
      · omega
      refine hstep q a b p (q + 1) (by omega) hp (by omega) ?_ (by omega) (by omega) (Or.inr (by omega))
      rw [segment_succ src q]
      simp

theorem reverseLoop_spec (n : Nat) (i : Int) (s : Perms)
    (hinj : ∀ o o', i ≤ o → o < i + n → i ≤ o' → o' < i + n →
      s.permutation o = s.permutation o' → o = o') :
    (reverseLoop n i s).permutation = s.permutation ∧
      (∀ o, i ≤ o → o < i + n → (reverseLoop n i s).reversePermutation (s.permutation o) = o) ∧
      ∀ j, (∀ o, i ≤ o → o < i + n → s.permutation o ≠ j) →
        (reverseLoop n i s).reversePermutation j = s.reversePermutation j := by
  induction n generalizing i s with
  | zero => exact ⟨rfl, fun o h1 h2 => by omega, fun _ _ => rfl⟩
  | succ n ih =>
    rw [reverseLoop]
    obtain ⟨h1, h2, h3⟩ := ih (i + 1)
      { s with reversePermutation := update s.reversePermutation (s.permutation i) i }
      fun o o' ho ho' hp hp' => hinj o o' (by omega) (by omega) (by omega) (by omega)
    refine ⟨h1, ?_, ?_⟩
    · intro o ho ho'
      by_cases hoi : o = i
      · subst hoi
        have hlast := h3 (s.permutation o) fun o' hp hp' heq =>
          absurd (hinj o' o (by omega) (by omega) (by omega) (by omega) heq) (by omega)
        rw [hlast]
        simp
      · exact h2 o (by omega) (by omega)
    · intro j hj
      rw [h3 j fun o ho ho' => hj o (by omega) (by omega)]
      simp [Ne.symm (hj i (by omega) (by omega))]

theorem segment_id_nodup (low : Int) (n : Nat) : (segment (fun i => i) low n).Nodup := by
  induction n generalizing low with
  | zero => exact nodup_nil
  | succ n ih =>
    refine nodup_cons.mpr ⟨?_, ih (low + 1)⟩
    rw [mem_segment]
    rintro ⟨i, h1, -, rfl⟩
    omega

theorem tags_of_perm {x y : Int → U × Int} (hp : (segment x low n).Perm (segment y low n))
    (hy : ∀ i, low ≤ i → i < low + n → (y i).2 = i) :
    Closed x low n ∧ ((segment x low n).map snd).Nodup ∧
      ∀ o, low ≤ o → o < low + n → ∃ i, low ≤ i ∧ i < low + n ∧ (x i).2 = o := by
  have hmap : ((segment x low n).map snd).Perm (segment (fun i => i) low n) := by
    refine (hp.map snd).trans (List.Perm.of_eq ?_)
    rw [← segment_map]
    exact segment_congr hy
  refine ⟨?_, hmap.nodup_iff.mpr (segment_id_nodup low n), ?_⟩
  · intro i hi hi'
    have hmem : (x i).2 ∈ (segment x low n).map snd :=
      mem_map_of_mem (mem_segment.mpr ⟨i, hi, hi', rfl⟩)
    obtain ⟨j, h1, h2, h3⟩ := mem_segment.mp (hmap.mem_iff.mp hmem)
    omega
  · intro o ho ho'
    have hmem := hmap.mem_iff.mpr (mem_segment.mpr ⟨o, ho, ho', rfl⟩)
    obtain ⟨e, he, rfl⟩ := mem_map.mp hmem
    obtain ⟨i, h1, h2, rfl⟩ := mem_segment.mp he
    exact ⟨i, h1, h2, rfl⟩

theorem mergeSort_perm {c : T → T → Int} (fuel : Nat) {src dest : Int → T} (s : Perms) {low : Int}
    {length : Nat} {off : Int} (hfuel : length < fuel)
    (hsrc : ∀ i, low ≤ i → i < low + length → dest i = src (i + off)) :
    (segment (mergeSort c fuel src dest s low length off).2.1 low length).Perm
        (segment dest low length) ∧
      (∀ i, i < low ∨ low + length ≤ i →
        (mergeSort c fuel src dest s low length off).2.1 i = dest i) ∧
      ∀ i, i < low + off ∨ low + off + length ≤ i →
        (mergeSort c fuel src dest s low length off).1 i = src i := by
  obtain ⟨h1, -, h2, h3⟩ := mergeSort_spec (c := c) (fun _ _ _ _ _ => trivial) fuel s hfuel hsrc
    (pairwise_of_forall fun _ _ => ⟨fun _ => trivial, fun _ => trivial⟩)
  exact ⟨h1, h2, h3⟩

/-- The merge of two tracked halves, and the loop behind it. -/
theorem merge_tracked {c : U × Int → U × Int → Int} {src dest dest' : Int → U × Int} {s : Perms}
    {m1 m2 : Nat} (htracked : Tracked (src, s) low (m1 + m2))
    (hperm : (segment src low (m1 + m2)).Perm (segment dest' low (m1 + m2)))
    (htag : ∀ i, low ≤ i → i < low + (m1 + m2 : Nat) → (dest' i).2 = i) :
    let merged := mergeLoop c src (low + m1) (low + ((m1 + m2 : Nat) : Int)) (m1 + m2) low low
      (low + m1) (dest, s)
    Tracked (merged.1, reverseLoop (m1 + m2) low merged.2) low (m1 + m2) ∧
      SameOutside s (reverseLoop (m1 + m2) low merged.2) low (m1 + m2) := by
  obtain ⟨hclosed, hnodup, -⟩ := tags_of_perm hperm htag
  rw [segment_add] at hnodup
  obtain ⟨hrev, hwrite, hrest⟩ := @mergeLoop_tracked _ c src _
      (low + ((m1 + m2 : Nat) : Int)) (m1 + m2) m1 m2 rfl low low
    (low + m1) (dest, s) rfl (by omega)
    (fun x hx => (htracked x (by omega) (by omega)).1) hnodup
  obtain ⟨hpm, -, -⟩ := @mergeLoop_spec _ c _ (fun _ _ _ _ _ => trivial) src _
      (low + ((m1 + m2 : Nat) : Int)) (m1 + m2) m1 m2 rfl low low
    (low + m1) (dest, s) rfl (by omega)
    (pairwise_of_forall fun _ _ => trivial) (pairwise_of_forall fun _ _ => trivial)
    (fun _ _ _ _ => ⟨fun _ => trivial, fun _ => trivial⟩)
  rw [← segment_add] at hpm
  obtain ⟨hclosed', -, hsurj⟩ := tags_of_perm (hpm.trans hperm) htag
  generalize mergeLoop c src (low + m1) (low + ((m1 + m2 : Nat) : Int)) (m1 + m2) low low
    (low + m1) (dest, s) = ml at *
  obtain ⟨d, t⟩ := ml
  dsimp only at hrev hwrite hrest hclosed' hsurj ⊢
  -- every old position is the tag of some position, which is where `permutation` puts it
  obtain ⟨hpsame, hback, hother⟩ := reverseLoop_spec (m1 + m2) low t
    fun o o' ho ho' hp hp' heq => by
      obtain ⟨i, hi, hi', rfl⟩ := hsurj o ho ho'
      obtain ⟨j, hj, hj', rfl⟩ := hsurj o' hp hp'
      rw [hwrite i hi hi', hwrite j hj hj'] at heq
      rw [heq]
  refine ⟨?_, ?_⟩
  · intro i hi hi'
    have hcl := hclosed' i hi hi'
    have hw := hwrite i hi hi'
    have hb := hback (d i).2 hcl.1 hcl.2
    rw [hw] at hb
    dsimp only
    rw [hpsame]
    exact ⟨hb, hw⟩
  · intro i hi
    have hout : i ∉ (segment src low m1 ++ segment src (low + m1) m2).map snd := by
      rw [← segment_add]
      intro hmem
      obtain ⟨e, he, rfl⟩ := mem_map.mp hmem
      obtain ⟨j, hj, hj', rfl⟩ := mem_segment.mp he
      have := hclosed j hj hj'
      omega
    rw [hpsame, hrest i hout, hother i fun o ho ho' heq => by
      obtain ⟨j, hj, hj', rfl⟩ := hsurj o ho ho'
      rw [hwrite j hj hj'] at heq
      omega, hrev]
    exact ⟨rfl, rfl⟩

/-- The permutation arrays after `mergeSort` describe the tags in `dest`. -/
theorem mergeSort_tracked {c : U × Int → U × Int → Int} (fuel : Nat) {src dest : Int → U × Int}
    (s : Perms) {low : Int} {length : Nat} (hfuel : length < fuel)
    (hsrc : ∀ i, low ≤ i → i < low + length → dest i = src i)
    (htag : ∀ i, low ≤ i → i < low + length → (dest i).2 = i)
    (hid : ∀ i, low ≤ i → i < low + length →
      s.permutation i = i ∧ s.reversePermutation i = i) :
    Tracked (mergeSort c fuel src dest s low length 0).2 low length ∧
      SameOutside s (mergeSort c fuel src dest s low length 0).2.2 low length := by
  induction fuel generalizing src dest s low length with
  | zero => omega
  | succ fuel ih =>
    rw [mergeSort]
    by_cases hshort : length < insertionSortThreshold
    · rw [if_pos hshort]
      refine insertionSort_tracked length (i := low) (by omega) ?_ ?_
      · intro i hi hi'
        rw [htag i hi hi']
        exact ⟨(hid i hi hi').2, (hid i hi hi').1⟩
      · intro i hi hi'
        have := htag i hi hi'
        dsimp only
        omega
    · rw [if_neg hshort]
      have h7 : 7 ≤ length := Nat.le_of_not_lt hshort
      obtain ⟨m1, m2, hlen, hm1, hm2, hmid⟩ : ∃ m1 m2 : Nat, length = m1 + m2 ∧ 0 < m1 ∧ 0 < m2 ∧
          (low + (low + length)) / 2 = low + m1 :=
        ⟨length / 2, length - length / 2, by omega, by omega, by omega, by omega⟩
      subst hlen
      simp only [Int.add_zero, Int.neg_zero, hmid]
      have e1 : (low + (m1 : Int) - low).toNat = m1 := by omega
      have e2 : (low + ((m1 + m2 : Nat) : Int) - (low + (m1 : Int))).toNat = m2 := by omega
      rw [e1, e2]
      -- first half
      have hpre1 : ∀ i, low ≤ i → i < low + m1 → src i = dest (i + 0) := fun i hi hi' => by
        rw [Int.add_zero, hsrc i hi (by omega)]
      have htag1 : ∀ i, low ≤ i → i < low + (m1 : Int) → (src i).2 = i := fun i hi hi' => by
        rw [← hsrc i hi (by omega)]
        exact htag i hi (by omega)
      obtain ⟨hp1, hd1, he1⟩ := mergeSort_perm (c := c) fuel s (by omega) hpre1
      obtain ⟨ht1, ho1⟩ := ih s (by omega)
        (fun i hi hi' => (hsrc i hi (by omega)).symm) htag1 fun i hi hi' => hid i hi (by omega)
      generalize mergeSort c fuel dest src s low m1 0 = ms1 at *
      obtain ⟨dest1, src1, s1⟩ := ms1
      dsimp only at hp1 hd1 he1 ht1 ho1 ⊢
      simp only [Int.add_zero] at he1
      -- second half
      have hpre2 : ∀ i, low + m1 ≤ i → i < low + m1 + m2 → src1 i = dest1 i := fun i hi hi' => by
        rw [hd1 i (by omega), he1 i (by omega), hsrc i (by omega) (by omega)]
      have htag2 : ∀ i, low + m1 ≤ i → i < low + m1 + (m2 : Int) → (src1 i).2 = i :=
        fun i hi hi' => by
          rw [hd1 i (by omega), ← hsrc i (by omega) (by omega)]
          exact htag i (by omega) (by omega)
      obtain ⟨hp2, hd2, he2⟩ := @mergeSort_perm _ c fuel dest1 src1 s1 _ m2 _ (by omega)
        fun i hi hi' => by rw [Int.add_zero]; exact hpre2 i hi hi'
      obtain ⟨ht2, ho2⟩ := ih s1 (by omega) hpre2 htag2 fun i hi hi' => by
          rw [(ho1 i (by omega)).1, (ho1 i (by omega)).2]
          exact hid i (by omega) (by omega)
      generalize mergeSort c fuel dest1 src1 s1 (low + m1) m2 0 = ms2 at *
      obtain ⟨dest2, src2, s2⟩ := ms2
      dsimp only at hp2 hd2 he2 ht2 ho2 ⊢
      -- the arrays describe the whole of `src2`
      obtain ⟨hclosed1, -, -⟩ := tags_of_perm hp1 htag1
      have htracked : Tracked (src2, s2) low (m1 + m2) :=
        ht1.append hclosed1 ht2 ho2 fun i hi hi' => hd2 i (by omega)
      have hsame : SameOutside s s2 low (m1 + m2) := ho1.append ho2
      have hperm : (segment src2 low (m1 + m2)).Perm (segment dest low (m1 + m2)) := by
        have h1 : segment src2 low m1 = segment src1 low m1 :=
          segment_congr fun i hi hi' => hd2 i (by omega)
        have h2 : segment src1 (low + m1) m2 = segment src (low + m1) m2 :=
          segment_congr fun i hi hi' => hd1 i (by omega)
        rw [segment_add, segment_congr hsrc, segment_add src, h1]
        rw [h2] at hp2
        exact hp1.append hp2
      split
      · -- copied: the same contents
        refine ⟨?_, hsame⟩
        intro i hi hi'
        have hcopy : arraycopy src2 low dest2 low (m1 + m2) i = src2 i := by
          rw [arraycopy, if_pos ⟨hi, hi'⟩]
          congr 1
          omega
        dsimp only
        rw [hcopy]
        exact htracked i hi hi'
      · obtain ⟨ht, ho⟩ := @merge_tracked low _ c src2 dest2 dest s2 m1 m2 htracked hperm htag
        exact ⟨ht, hsame.trans ho⟩

end Permutation

/-! ## Forgetting the tags

The sort moves elements and compares them, nothing else: on elements seen
through `f` it does the same. -/

section Map

variable {U : Type} {f : U → T} {c : T → T → Int}

/-- The array seen through `f`. -/
def Sorting.map (f : U → T) (s : Sorting U) : Sorting T := (fun i => f (s.1 i), s.2)

theorem swap_map (a b : Int) (s : Sorting U) : swap a b (s.map f) = (swap a b s).map f := by
  refine Prod.ext ?_ rfl
  funext i
  by_cases hb : i = b
  · subst hb; simp [swap, Sorting.map]
  · by_cases ha : i = a
    · subst ha; simp [swap, Sorting.map, hb]
    · simp [swap, Sorting.map, ha, hb]

theorem insertDown_map (k : Nat) (j : Int) (s : Sorting U) :
    insertDown c k j (s.map f) = (insertDown (fun a b => c (f a) (f b)) k j s).map f := by
  induction k generalizing j s with
  | zero => rfl
  | succ k ih =>
    rw [insertDown, insertDown, swap_map, ih]
    exact (apply_ite _ _ _ _).symm

theorem insertionSort_map (low : Int) (n : Nat) (i : Int) (s : Sorting U) :
    insertionSort c low n i (s.map f)
      = (insertionSort (fun a b => c (f a) (f b)) low n i s).map f := by
  induction n generalizing i s with
  | zero => rfl
  | succ n ih => rw [insertionSort, insertionSort, insertDown_map, ih]

theorem place_map (src : Int → U) (i j : Int) (s : Sorting U) :
    place (fun i => f (src i)) i j (s.map f) = (place src i j s).map f := by
  refine Prod.ext ?_ rfl
  funext k
  by_cases hk : k = i
  · subst hk; simp [place, Sorting.map]
  · simp [place, Sorting.map, hk]

theorem mergeLoop_map (src : Int → U) (mid high : Int) (n : Nat) (i p q : Int) (s : Sorting U) :
    mergeLoop c (fun i => f (src i)) mid high n i p q (s.map f)
      = (mergeLoop (fun a b => c (f a) (f b)) src mid high n i p q s).map f := by
  induction n generalizing i p q s with
  | zero => rfl
  | succ n ih =>
    rw [mergeLoop, mergeLoop, place_map, place_map, ih, ih]
    exact (apply_ite _ _ _ _).symm

theorem mergeSort_map (fuel : Nat) (src dest : Int → U) (s : Perms) (low : Int) (length : Nat)
    (off : Int) :
    mergeSort c fuel (fun i => f (src i)) (fun i => f (dest i)) s low length off =
      (fun i => f ((mergeSort (fun a b => c (f a) (f b)) fuel src dest s low length off).1 i),
        Sorting.map f (mergeSort (fun a b => c (f a) (f b)) fuel src dest s low length off).2) := by
  induction fuel generalizing src dest s low length off with
  | zero => rfl
  | succ fuel ih =>
    rw [mergeSort, mergeSort]
    by_cases hshort : length < insertionSortThreshold
    · rw [if_pos hshort, if_pos hshort]
      have h := insertionSort_map (f := f) (c := c) low length low (dest, s)
      exact Prod.ext rfl h
    · rw [if_neg hshort, if_neg hshort]
      dsimp only
      rw [ih]
      generalize mergeSort (fun a b => c (f a) (f b)) fuel dest src s (low + off)
        ((low + off + (low + off + length)) / 2 - (low + off)).toNat (-off) = ms1
      obtain ⟨dest1, src1, s1⟩ := ms1
      have h2 := ih dest1 src1 s1 ((low + off + (low + off + length)) / 2)
        (low + off + length - (low + off + (low + off + length)) / 2).toNat (-off)
      simp only [Sorting.map] at h2 ⊢
      simp only [h2]
      generalize mergeSort (fun a b => c (f a) (f b)) fuel dest1 src1 s1 _ _ (-off) = ms2
      obtain ⟨dest2, src2, s2⟩ := ms2
      dsimp only
      split
      · refine Prod.ext rfl (Prod.ext ?_ rfl)
        funext i
        simp only [arraycopy]
        exact (apply_ite f _ _ _).symm
      · have h := mergeLoop_map (f := f) (c := c) src2 ((low + off + (low + off + length)) / 2)
          (low + off + length) length low (low + off) ((low + off + (low + off + length)) / 2)
          (dest2, s2)
        simp only [Sorting.map] at h
        rw [h]

end Map

/-! ## `sort` -/

/-- `sort(List, Comparator)`: the new content of the list and the permutation. -/
def sort (c : T → T → Int) : List T → List T × List Int
  | [] => ([], [])
  | e :: rest =>
    let n := rest.length + 1
    let a : Int → T := fun i => (e :: rest).getD i.toNat e
    let (_, dest, s) := mergeSort c (n + 1) a a initPermutation 0 n 0
    (segment dest 0 n, segment s.permutation 0 n)

theorem sort_perm (c : T → T → Int) (list : List T) : (sort c list).1.Perm list := by
  cases list with
  | nil => exact List.Perm.refl _
  | cons e rest =>
    obtain ⟨hp, -⟩ := @mergeSort_perm _ c (rest.length + 2) _ _ initPermutation _ (rest.length + 1)
        _ (by omega) fun i _ _ => by rw [Int.add_zero]
    refine List.Perm.trans hp (List.Perm.of_eq ?_)
    refine ext_getElem? fun k => ?_
    by_cases hk : k < rest.length + 1
    · have hk' : k < (e :: rest).length := hk
      rw [segment_getElem? _ _ _ _ hk, getElem?_eq_getElem hk']
      simp [getElem?_eq_getElem hk']
    · rw [getElem?_eq_none (by simp; omega), getElem?_eq_none (by simp; omega)]

/-- A comparator as `java.util.Comparator` demands it. -/
structure IsComparator (c : T → T → Int) : Prop where
  antisymm : ∀ a b, 0 < c a b ↔ c b a < 0
  trans : ∀ a b d, c a b ≤ 0 → c b d ≤ 0 → c a d ≤ 0

/-- Sorted by `c`, ties in the order of the tags. -/
def lexLt (c : T → T → Int) (a b : T × Int) : Prop :=
  c a.1 b.1 < 0 ∨ (c a.1 b.1 = 0 ∧ a.2 < b.2)

theorem IsComparator.lexLt_trans (h : IsComparator c) (x y z : T × Int)
    (h1 : lexLt c x y) (h2 : lexLt c y z) : lexLt c x z := by
  have hle : c x.1 z.1 ≤ 0 := by
    refine h.trans x.1 y.1 z.1 ?_ ?_
    · rcases h1 with h1 | h1 <;> omega
    · rcases h2 with h2 | h2 <;> omega
  by_cases hlt : c x.1 z.1 < 0
  · exact Or.inl hlt
  · -- a tie between the ends is a tie all along
    have hzx : c z.1 x.1 ≤ 0 := by
      have := h.antisymm z.1 x.1
      omega
    have hyx : c y.1 x.1 ≤ 0 := h.trans _ _ _ (by rcases h2 with h2 | h2 <;> omega) hzx
    have hzy : c z.1 y.1 ≤ 0 := h.trans _ _ _ hzx (by rcases h1 with h1 | h1 <;> omega)
    have a1 := h.antisymm y.1 x.1
    have a2 := h.antisymm z.1 y.1
    rcases h1 with h1 | h1
    · omega
    · rcases h2 with h2 | h2
      · omega
      · exact Or.inr ⟨by omega, by omega⟩

/-- Elements with their positions: those in front have the smaller tag. -/
theorem IsComparator.segment_before (h : IsComparator c) (x : Int → T) (low : Int)
    (n : Nat) : (segment (fun i => (x i, i)) low n).Pairwise
      (Before (fun u v => c u.1 v.1) (lexLt c)) := by
  have hidx : (segment (fun i => (x i, i)) low n).Pairwise fun u v => u.2 < v.2 := by
    induction n generalizing low with
    | zero => exact List.Pairwise.nil
    | succ n ih =>
      refine pairwise_cons.mpr ⟨?_, ih (low + 1)⟩
      intro v hv
      obtain ⟨i, hi, -, rfl⟩ := mem_segment.mp hv
      show low < i
      omega
  refine hidx.imp ?_
  intro u v huv
  refine ⟨fun hle => ?_, fun hgt => Or.inl ((h.antisymm u.1 v.1).mp hgt)⟩
  by_cases hlt : c u.1 v.1 < 0
  · exact Or.inl hlt
  · have hle' : c u.1 v.1 ≤ 0 := hle
    exact Or.inr ⟨by omega, huv⟩

/-- The elements of a list with their indices. -/
def tagged (list : List T) : List (T × Int) := list.zipIdx.map fun p => (p.1, (p.2 : Int))

theorem tagged_eq_segment (e : T) (rest : List T) : tagged (e :: rest)
      = segment (fun i => ((e :: rest).getD i.toNat e, i)) 0 (rest.length + 1) := by
  refine ext_getElem? fun k => ?_
  by_cases hk : k < rest.length + 1
  · rw [segment_getElem? _ _ _ _ hk]
    have hk' : k < (e :: rest).length := hk
    rw [tagged, getElem?_map, getElem?_zipIdx, getElem?_eq_getElem hk']
    simp [getElem?_eq_getElem hk']
  · rw [getElem?_eq_none (by simp [tagged]; omega), getElem?_eq_none (by simp; omega)]

theorem sort_spec (hc : IsComparator c) (list : List T) :
    ∃ z : List (T × Int), z.Perm (tagged list) ∧ z.Pairwise (lexLt c) ∧
      (sort c list).1 = z.map fst ∧ (sort c list).2.length = list.length ∧
      ∀ k (h : k < z.length), (sort c list).2[(z.get ⟨k, h⟩).2.toNat]? = some (k : Int) := by
  cases list with
  | nil => exact ⟨[], List.Perm.refl _, List.Pairwise.nil, rfl, rfl, fun k h => by cases h⟩
  | cons e rest =>
    let a : Int → T := fun i => (e :: rest).getD i.toNat e
    let x : Int → T × Int := fun i => (a i, i)
    let n := rest.length + 1
    have hmap := mergeSort_map (f := fst) (c := c) (n + 1) x x initPermutation 0 n 0
    obtain ⟨hp, hsorted, -, -⟩ := mergeSort_spec (c := fun u v => c u.1 v.1)
      hc.lexLt_trans (n + 1) initPermutation
      (Nat.lt_succ_self n) (fun i _ _ => by rw [Int.add_zero])
      (hc.segment_before a 0 n)
    obtain ⟨htracked, -⟩ := @mergeSort_tracked _ (fun u v => c u.1 v.1) (n + 1) x _ initPermutation
        _ _ (Nat.lt_succ_self n) (fun _ _ _ => rfl) (fun _ _ _ => rfl) (fun _ _ _ => ⟨rfl, rfl⟩)
    generalize mergeSort (fun u v => c u.1 v.1) (n + 1) x x initPermutation 0 n 0 = ms at *
    obtain ⟨src', dest', s'⟩ := ms
    dsimp only [Sorting.map] at hmap hp hsorted htracked
    have hsort : sort c (e :: rest)
        = (segment (fun i => (dest' i).1) 0 n, segment s'.permutation 0 n) := by
      have hms : mergeSort c (n + 1) a a initPermutation 0 n 0 = _ := hmap
      simp only [sort]
      rw [hms]
    obtain ⟨hclosed, -, -⟩ := tags_of_perm hp fun _ _ _ => rfl
    refine ⟨segment dest' 0 n, ?_, hsorted, ?_, ?_, ?_⟩
    · rw [tagged_eq_segment]
      exact hp
    · rw [hsort]
      exact segment_map fst dest' 0 n
    · rw [hsort]
      simp [n]
    · intro k hk
      rw [segment_length] at hk
      have hget : (segment dest' 0 n).get ⟨k, by simpa using hk⟩ = dest' k := by
        have h := segment_getElem? dest' 0 n k hk
        rw [getElem?_eq_getElem (by simpa using hk)] at h
        simpa using h
      have hcl := hclosed k (by omega) (by omega)
      rw [hget, hsort]
      dsimp only
      rw [segment_getElem? _ _ _ _ (by omega)]
      have htk : s'.permutation (dest' k).2 = k := (htracked k (by omega) (by omega)).2
      have hpos : (0 : Int) + ((dest' k).2.toNat : Int) = (dest' k).2 := by omega
      rw [hpos, htk]

end SortHelper

end OpenJfx.Collections
