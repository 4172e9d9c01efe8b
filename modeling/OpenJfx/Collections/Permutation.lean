/-
  OpenJfx.Collections.Permutation

  The permutations of `ListChangeListener.Change` and `SortHelper`: `perm` for `[from, from +
  perm.length)` says that the element at `from + i` moves to `perm[i]`.  `image` is where a
  position goes, `source` where the element there came from, `permuted` the rearranged list.
-/

import Mathlib.Data.List.Nodup
import OpenJfx.Lib.JavaArray
import OpenJfx.Lib.ListAt
import OpenJfx.Lib.Segment

namespace OpenJfx.Collections

open List

variable {E : Type}

/-- Where the element at `p` goes. -/
def image (from_ : Int) (perm : List Int) (p : Int) : Int :=
  if from_ ≤ p ∧ p < from_ + perm.length then perm.getD (p - from_).toNat p else p

/-- Where the element that goes to `p` comes from. -/
def source (from_ : Int) (perm : List Int) (p : Int) : Int :=
  if from_ ≤ p ∧ p < from_ + perm.length then from_ + perm.idxOf p else p

/-- `perm` maps its range onto itself. -/
def IsPermutation (from_ : Int) (perm : List Int) : Prop :=
  perm.Perm (segment id from_ perm.length)

instance (from_ : Int) (perm : List Int) : Decidable (IsPermutation from_ perm) :=
  inferInstanceAs (Decidable (List.Perm _ _))

/-- The list after the permutation. -/
def permuted (from_ : Int) (perm : List Int) (L : List E) : List E :=
  (List.range L.length).filterMap fun (k : Nat) => L[(source from_ perm k).toNat]?

/-! ## The two maps are inverse to each other -/

theorem segment_id_nodup (low : Int) (n : Nat) : (segment id low n).Nodup := by
  induction n generalizing low with
  | zero => exact nodup_nil
  | succ n ih =>
    rw [segment_succ, nodup_cons]
    refine ⟨?_, ih (low + 1)⟩
    rw [mem_segment]
    rintro ⟨i, hi, -, rfl⟩
    exact absurd hi (by simp only [id]; omega)

section Maps

variable {from_ p : Int} {perm : List Int}

theorem IsPermutation.nodup (h : IsPermutation from_ perm) : perm.Nodup :=
  h.nodup_iff.mpr (segment_id_nodup _ _)

theorem IsPermutation.mem_iff (h : IsPermutation from_ perm) :
    p ∈ perm ↔ from_ ≤ p ∧ p < from_ + perm.length := by
  rw [List.Perm.mem_iff h, mem_segment]
  constructor
  · rintro ⟨i, h1, h2, rfl⟩
    exact ⟨h1, h2⟩
  · rintro ⟨h1, h2⟩
    exact ⟨p, h1, h2, rfl⟩

theorem image_of_not_range (h : ¬ (from_ ≤ p ∧ p < from_ + perm.length)) :
    image from_ perm p = p := if_neg h

theorem image_eq_getElem (h1 : from_ ≤ p) (h2 : p < from_ + perm.length)
    (hlt : (p - from_).toNat < perm.length) : image from_ perm p = perm[(p - from_).toNat] := by
  rw [image, if_pos ⟨h1, h2⟩, getD_eq_getElem?_getD, getElem?_eq_getElem hlt, Option.getD_some]

theorem get_eq_image (h1 : from_ ≤ p) (h2 : p < from_ + perm.length) :
    JavaArray.get perm (p - from_) = .ok (image from_ perm p) := by
  have hlt : (p - from_).toNat < perm.length := by omega
  rw [image_eq_getElem h1 h2 hlt]
  exact JavaArray.get_eq_ok (by omega) (getElem?_eq_getElem hlt)

section

variable (h : IsPermutation from_ perm)
include h

theorem IsPermutation.image_range (h1 : from_ ≤ p) (h2 : p < from_ + perm.length) :
    from_ ≤ image from_ perm p ∧ image from_ perm p < from_ + perm.length := by
  rw [image_eq_getElem h1 h2 (by omega)]
  exact h.mem_iff.mp (getElem_mem _)

theorem IsPermutation.image_in :
    (from_ ≤ image from_ perm p ∧ image from_ perm p < from_ + perm.length) ↔
      (from_ ≤ p ∧ p < from_ + perm.length) := by
  by_cases hp : from_ ≤ p ∧ p < from_ + perm.length
  · exact ⟨fun _ => hp, fun _ => h.image_range hp.1 hp.2⟩
  · rw [image_of_not_range hp]

theorem IsPermutation.source_image :
    source from_ perm (image from_ perm p) = p := by
  by_cases hp : from_ ≤ p ∧ p < from_ + perm.length
  · rw [source, if_pos (h.image_in.mpr hp), image_eq_getElem hp.1 hp.2 (by omega),
      h.nodup.idxOf_getElem]
    omega
  · rw [image_of_not_range hp, source, if_neg hp]

theorem IsPermutation.source_range (h1 : from_ ≤ p) (h2 : p < from_ + perm.length) :
    from_ ≤ source from_ perm p ∧ source from_ perm p < from_ + perm.length := by
  have hlt := idxOf_lt_length_of_mem (h.mem_iff.mpr ⟨h1, h2⟩)
  rw [source, if_pos ⟨h1, h2⟩]
  omega

theorem IsPermutation.image_source :
    image from_ perm (source from_ perm p) = p := by
  by_cases hp : from_ ≤ p ∧ p < from_ + perm.length
  · have hlt := idxOf_lt_length_of_mem (h.mem_iff.mpr hp)
    obtain ⟨h1, h2⟩ := h.source_range hp.1 hp.2
    rw [image_eq_getElem h1 h2 (by omega)]
    have hidx : (source from_ perm p - from_).toNat = perm.idxOf p := by
      rw [source, if_pos hp]
      omega
    simp only [hidx]
    exact getElem_idxOf hlt
  · have hsource : source from_ perm p = p := if_neg hp
    rw [hsource, image_of_not_range hp]

theorem IsPermutation.image_injective {q : Int}
    (heq : image from_ perm p = image from_ perm q) : p = q := by
  have := congrArg (source from_ perm) heq
  rwa [h.source_image, h.source_image] at this

end

end Maps

/-! ## The rearranged list -/

section Lists

variable {from_ : Int} {perm : List Int} {A B : List E}

section

variable (h : IsPermutation from_ perm) (h₀ : 0 ≤ from_)
include h h₀

theorem IsPermutation.image_bounds {n : Nat}
    (hle : from_ + perm.length ≤ n) {p : Int} (hp : 0 ≤ p) (hp' : p < n) :
    0 ≤ image from_ perm p ∧ image from_ perm p < n := by
  by_cases hr : from_ ≤ p ∧ p < from_ + perm.length
  · have := h.image_range hr.1 hr.2
    omega
  · rw [image_of_not_range hr]
    exact ⟨hp, hp'⟩

theorem IsPermutation.source_bounds {n : Nat}
    (hle : from_ + perm.length ≤ n) {p : Int} (hp : 0 ≤ p) (hp' : p < n) :
    0 ≤ source from_ perm p ∧ source from_ perm p < n := by
  by_cases hr : from_ ≤ p ∧ p < from_ + perm.length
  · have := h.source_range hr.1 hr.2
    omega
  · have hsource : source from_ perm p = p := if_neg hr
    rw [hsource]
    exact ⟨hp, hp'⟩

section

variable (hle : from_ + perm.length ≤ A.length)
include hle

/-- A list that has every element where `image` says is the rearranged list. -/
theorem IsPermutation.permuted_eq (hlen : B.length = A.length)
    (hB : ∀ i : Nat, i < A.length → B[(image from_ perm i).toNat]? = A[i]?) :
    permuted from_ perm A = B := by
  have hread : B = (List.range B.length).filterMap fun k => B[k]? := by
    rw [ListAt.filterMap_range_getElem?]
  rw [hread, hlen]
  apply filterMap_congr
  intro k hk
  have hk' := mem_range.mp hk
  obtain ⟨h1, h2⟩ := h.source_bounds h₀ hle (p := k) (by omega) (by omega)
  have hsrc := hB (source from_ perm k).toNat (by omega)
  rw [Int.toNat_of_nonneg h1, h.image_source, Int.toNat_natCast] at hsrc
  exact hsrc.symm

theorem IsPermutation.permuted_length : (permuted from_ perm A).length = A.length := by
  rw [permuted, ListAt.length_filterMap_of_isSome, length_range]
  intro k hk
  have hk' := mem_range.mp hk
  obtain ⟨h1, h2⟩ := h.source_bounds h₀ hle (p := k) (by omega) (by omega)
  rw [getElem?_eq_getElem (by omega)]
  rfl

theorem IsPermutation.permuted_getElem? {k : Nat} (hk : k < A.length) :
    (permuted from_ perm A)[k]? = A[(source from_ perm k).toNat]? := by
  rw [permuted, ListAt.getElem?_filterMap_of_isSome, getElem?_range hk]
  · rfl
  · intro j hj
    have hj' := mem_range.mp hj
    obtain ⟨h1, h2⟩ := h.source_bounds h₀ hle (p := j) (by omega) (by omega)
    rw [getElem?_eq_getElem (by omega)]
    rfl

theorem IsPermutation.permuted_getElem?_image {i : Nat} (hi : i < A.length) :
    (permuted from_ perm A)[(image from_ perm i).toNat]? = A[i]? := by
  obtain ⟨h1, h2⟩ := h.image_bounds h₀ hle (p := i) (by omega) (by omega)
  rw [h.permuted_getElem? h₀ hle (by omega), Int.toNat_of_nonneg h1, h.source_image,
    Int.toNat_natCast]

theorem IsPermutation.permuted_perm : (permuted from_ perm A).Perm A := by
  have hsources : ((List.range A.length).map fun (k : Nat) => (source from_ perm k).toNat).Perm
      (List.range A.length) := by
    apply List.Subperm.perm_of_length_le
    · apply subperm_of_subset
      · apply List.Nodup.map_on _ nodup_range
        intro i hi j hj hij
        rw [mem_range] at hi hj
        have hi' := h.source_bounds h₀ hle (p := i) (by omega) (by omega)
        have hj' := h.source_bounds h₀ hle (p := j) (by omega) (by omega)
        have hsource : source from_ perm i = source from_ perm j := by omega
        have himg := congrArg (image from_ perm) hsource
        rw [h.image_source, h.image_source] at himg
        omega
      · intro k hk
        obtain ⟨i, hi, rfl⟩ := mem_map.mp hk
        rw [mem_range] at hi ⊢
        have := h.source_bounds h₀ hle (p := i) (by omega) (by omega)
        omega
    · simp
  have hperm := hsources.filterMap fun k => A[k]?
  rw [filterMap_map, ListAt.filterMap_range_getElem?] at hperm
  exact hperm

theorem IsPermutation.permuted_zip {F : Type} {C : List F} (hlen : C.length = A.length) :
    permuted from_ perm (A.zip C) = (permuted from_ perm A).zip (permuted from_ perm C) := by
  have hzip : (A.zip C).length = A.length := by
    rw [length_zip, hlen, Nat.min_self]
  have hle' : from_ + perm.length ≤ C.length := by omega
  apply h.permuted_eq h₀ (by rw [hzip]; exact hle)
  · rw [length_zip, h.permuted_length h₀ hle, h.permuted_length h₀ hle', hzip, hlen, Nat.min_self]
  · intro i hi
    rw [hzip] at hi
    simp only [List.zip, getElem?_zipWith, h.permuted_getElem?_image h₀ hle hi,
      h.permuted_getElem?_image h₀ hle' (i := i) (by omega)]

end

end

theorem permuted_map {F : Type} (f : E → F) (from_ : Int) (perm : List Int) (L : List E) :
    permuted from_ perm (L.map f) = (permuted from_ perm L).map f := by
  rw [permuted, permuted, length_map, map_filterMap]
  apply filterMap_congr
  intro k _
  rw [getElem?_map]

end Lists

end OpenJfx.Collections
