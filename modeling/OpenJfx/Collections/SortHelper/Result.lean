/-
  OpenJfx.Collections.SortHelper.Result

  What `SortHelper.sort` returns, in the terms its callers use: the list is the
  stable sort of the old one, and the array is the permutation that leads there.
-/

import OpenJfx.Collections.SortHelper
import OpenJfx.Collections.Permutation
import Mathlib.Data.List.Sort

namespace OpenJfx.Collections.SortHelper

open List

variable {T : Type} {c : T → T → Int}

/-! ## The comparator as an order -/

theorem IsComparator.le_trans (hc : IsComparator c) (x y z : T)
    (h1 : decide (c x y ≤ 0) = true) (h2 : decide (c y z ≤ 0) = true) :
    decide (c x z ≤ 0) = true := by
  rw [decide_eq_true_iff] at *
  exact hc.trans x y z h1 h2

theorem IsComparator.le_total (hc : IsComparator c) (x y : T) :
    (decide (c x y ≤ 0) || decide (c y x ≤ 0)) = true := by
  have := hc.antisymm x y
  rw [Bool.or_eq_true, decide_eq_true_iff, decide_eq_true_iff]
  omega

theorem lexLt_of_zipIdxLE (hc : IsComparator c) {a b : T × Nat} (hne : a.2 ≠ b.2)
    (h : List.zipIdxLE (fun x y => decide (c x y ≤ 0)) a b = true) :
    lexLt c (a.1, (a.2 : Int)) (b.1, (b.2 : Int)) := by
  have hanti := hc.antisymm b.1 a.1
  simp only [List.zipIdxLE, decide_eq_true_eq] at h
  split at h
  · rename_i hle
    split at h
    · rename_i hge
      have htag : a.2 ≤ b.2 := by simpa using h
      by_cases hlt : c a.1 b.1 < 0
      · exact Or.inl hlt
      · exact Or.inr ⟨by dsimp only; omega, by dsimp only; omega⟩
    · exact Or.inl (by dsimp only; omega)
  · cases h

/-! ## The sorted list -/

theorem tagged_tags (list : List T) : (tagged list).map Prod.snd = segment id 0 list.length := by
  apply ext_getElem?
  intro k
  by_cases hk : k < list.length
  · rw [segment_getElem? _ _ _ _ hk]
    simp [tagged, hk]
  · rw [getElem?_eq_none (by simpa [tagged] using hk), getElem?_eq_none (by simpa using hk)]

section

variable (hc : IsComparator c)
include hc

/-- Elements with their tags in the order of `lexLt` are the stable sort. -/
theorem map_fst_eq_mergeSort {list : List T} {z : List (T × Int)}
    (hperm : z.Perm (tagged list)) (hlex : z.Pairwise (lexLt c)) :
    z.map Prod.fst = list.mergeSort fun x y => c x y ≤ 0 := by
  let le : T → T → Bool := fun x y => decide (c x y ≤ 0)
  let sorted := list.zipIdx.mergeSort (List.zipIdxLE le)
  let f : T × Nat → T × Int := fun p => (p.1, (p.2 : Int))
  have hsortedPerm : sorted.Perm list.zipIdx := List.mergeSort_perm _ _
  -- the tags are distinct
  have hdistinct : sorted.Pairwise fun a b => a.2 ≠ b.2 := by
    have hnd : (list.zipIdx.map Prod.snd).Nodup := by
      rw [zipIdx_map_snd]
      exact nodup_range'
    have := (hsortedPerm.map Prod.snd).nodup_iff.mpr hnd
    exact pairwise_map.mp this
  have hpair : sorted.Pairwise fun a b => lexLt c (f a) (f b) := by
    have hle : sorted.Pairwise fun a b => List.zipIdxLE le a b = true :=
      pairwise_mergeSort (zipIdxLE_trans hc.le_trans) (zipIdxLE_total hc.le_total) _
    refine (hle.and hdistinct).imp ?_
    rintro a b ⟨h1, h2⟩
    exact lexLt_of_zipIdxLE hc h2 h1
  have heq : z = sorted.map f := by
    refine List.Perm.eq_of_pairwise ?_ hlex (pairwise_map.mpr hpair)
      (hperm.trans (hsortedPerm.map f).symm)
    -- nothing precedes what it follows
    intro a b _ _ hab hba
    have := hc.antisymm a.1 b.1
    have := hc.antisymm b.1 a.1
    rcases hab with hab | hab <;> rcases hba with hba | hba <;> omega
  rw [heq, map_map, ← mergeSort_zipIdx]
  rfl

theorem sort_eq_mergeSort (list : List T) :
    (sort c list).1 = list.mergeSort fun x y => c x y ≤ 0 := by
  obtain ⟨z, hperm, hlex, hcont, -, -⟩ := sort_spec hc list
  rw [hcont]
  exact map_fst_eq_mergeSort hc hperm hlex

/-! ## The permutation -/

theorem sort_moves (list : List T) :
    ∃ z : List (T × Int), z.Perm (tagged list) ∧ z.length = list.length ∧
      (sort c list).1 = z.map Prod.fst ∧ (sort c list).2.length = list.length ∧
      ∀ i : Nat, i < list.length → ∃ k : Nat, k < z.length ∧
        (sort c list).2[i]? = some (k : Int) ∧ (z[k]?).map Prod.fst = list[i]? := by
  obtain ⟨z, hperm, -, hcont, hlen, hpos⟩ := sort_spec hc list
  have hz : z.length = list.length := by
    rw [hperm.length_eq]
    simp [tagged]
  refine ⟨z, hperm, hz, hcont, hlen, ?_⟩
  intro i hi
  -- the element tagged `i` stands somewhere
  have hmem : (list[i], (i : Int)) ∈ z := by
    rw [hperm.mem_iff, tagged, mem_map]
    exact ⟨(list[i], i), mk_mem_zipIdx_iff_getElem?.mpr (by simp [hi]), rfl⟩
  obtain ⟨k, hk, hget⟩ := getElem_of_mem hmem
  refine ⟨k, hk, ?_, ?_⟩
  · have := hpos k hk
    rw [get_eq_getElem, hget, Int.toNat_natCast] at this
    exact this
  · rw [getElem?_eq_getElem hk, hget, getElem?_eq_getElem hi]
    rfl

theorem sort_isPermutation (list : List T) :
    IsPermutation 0 (sort c list).2 := by
  obtain ⟨z, hperm, -, -, hlen, hpos⟩ := sort_spec hc list
  have hz : z.length = list.length := by
    rw [hperm.length_eq]
    simp [tagged]
  let p := (sort c list).2
  have hplen : p.length = list.length := hlen
  let read : Int → Int := fun i => p.getD i.toNat 0
  -- reading the array along the tags gives all positions in order
  have hread : (z.map Prod.snd).map read = segment id 0 p.length := by
    apply ext_getElem?
    intro k
    by_cases hk : k < z.length
    · rw [segment_getElem? _ _ _ _ (by omega)]
      have := hpos k hk
      rw [get_eq_getElem] at this
      simp [hk, read, p, getD_eq_getElem?_getD, this]
    · rw [getElem?_eq_none (by simpa using hk),
        getElem?_eq_none (by rw [segment_length]; omega)]
  have hself : p = (segment id 0 p.length).map read := by
    apply ext_getElem?
    intro k
    by_cases hk : k < p.length
    · rw [getElem?_map, segment_getElem? _ _ _ _ hk]
      simp [read, getD_eq_getElem?_getD, hk]
    · rw [getElem?_eq_none (by omega),
        getElem?_eq_none (by rw [length_map, segment_length]; omega)]
  have htags : (z.map Prod.snd).Perm (segment id 0 p.length) := by
    have := hperm.map Prod.snd
    rw [tagged_tags] at this
    rwa [hplen]
  have hp : p.Perm ((z.map Prod.snd).map read) := by
    have := (htags.map read).symm
    rwa [← hself] at this
  rw [IsPermutation]
  rwa [hread] at hp

theorem permuted_sort (list : List T) :
    permuted 0 (sort c list).2 list = (sort c list).1 := by
  obtain ⟨z, hperm, hz, hcont, hlen, hmove⟩ := sort_moves hc list
  refine (sort_isPermutation hc list).permuted_eq (Int.le_refl 0) (by omega) ?_ ?_
  · rw [hcont, length_map, hz]
  · intro i hi
    obtain ⟨k, hk, hpos, hget⟩ := hmove i hi
    have himg : image 0 (sort c list).2 i = k := by
      rw [image_eq_getElem (by omega) (by omega) (by omega)]
      have := List.getElem?_eq_some_iff.mp hpos
      simpa using this.2
    rw [himg, Int.toNat_natCast, hcont, getElem?_map, hget]

end

end OpenJfx.Collections.SortHelper
