/-
  OpenJfx.Transformation.FilteredList.Steps

  The array operations of `FilteredList`.  `Showing cap n A s`: the array, of length `cap`, starts
  with `A`, `size` is `n`, and a change block is open whose builder takes any report.
-/

import OpenJfx.Transformation.FilteredList.Basic
import OpenJfx.Collections.ListChangeBuilder.Total
import OpenJfx.Lib.TrueIndices

namespace OpenJfx.Transformation.FilteredList

open OpenJfx.Collections JavaM List

variable {E : Type}

/-- The first `n` entries are `A`, in an array of this capacity. -/
structure Showing (src : List E) (p : Option (E → Bool)) (cap : Nat) (n : Int) (A : List Int)
    (s : FilteredList E) : Prop where
  source : s.source = src
  predicate : s.predicate = p
  size : s.size = n
  filtered : ∃ G, s.filtered = A ++ G
  capacity : s.filtered.length = cap
  sound : s.builder.Sound
  lock : s.builder.changeLock = 1

variable {X Y : List Int}

section Operations

variable {src : List E} {p : Option (E → Bool)} {cap : Nat} {n : Int} {A : List Int}
  {s : FilteredList E}

theorem Showing.read {x : Int} (h : Showing src p cap n (X ++ x :: Y) s) :
    Returns (readFiltered X.length) s x s := by
  obtain ⟨G, hG⟩ := h.filtered
  simp only [Returns, readFiltered, onFiltered, JavaM.ofExcept]
  rw [hG, append_assoc, cons_append, JavaArray.get_seam]

theorem Showing.store {a B : List Int} (h : Showing src p cap n A s) (hcap : a.length = cap)
    (ha : ∃ G, a = B ++ G) :
    Returns (setFiltered a) s () { s with filtered := a } ∧
      Showing src p cap n B { s with filtered := a } :=
  ⟨rfl, h.source, h.predicate, h.size, ha, hcap, h.sound, h.lock⟩

theorem onFiltered_returns {α : Type} {f : List Int → Except JavaException α} {a : α}
    (h : f s.filtered = .ok a) : Returns (onFiltered f) s a s := by
  simp only [Returns, onFiltered, JavaM.ofExcept, h]

theorem Showing.write {x : Int} (h : Showing src p cap n (X ++ x :: Y) s) (y : Int) :
    ∃ s', Returns (writeFiltered X.length y) s () s' ∧
      Showing src p cap n (X ++ y :: Y) s' := by
  obtain ⟨G, hG⟩ := h.filtered
  have hcap := h.capacity
  have hset : JavaArray.set s.filtered X.length y = .ok (X ++ y :: (Y ++ G)) := by
    rw [hG, append_assoc, cons_append, JavaArray.set_seam]
  obtain ⟨hstore, h'⟩ := h.store (a := X ++ y :: (Y ++ G)) (B := X ++ y :: Y) (by
      rw [hG] at hcap
      rw [← hcap]
      simp)
    ⟨G, by simp⟩
  exact ⟨_, (onFiltered_returns (f := fun a => JavaArray.set a X.length y) hset).bind hstore, h'⟩

theorem writeFiltered_builder {i y : Int} {s' : FilteredList E}
    (h : Returns (writeFiltered i y) s () s') : s'.builder = s.builder := by
  obtain ⟨a, t, hread, hstore⟩ := Returns.of_bind h
  simp only [Returns, onFiltered, JavaM.ofExcept] at hread
  split at hread
  · cases hread
    cases hstore
    rfl
  · cases hread

theorem Showing.copyRight (h : Showing src p cap n (X ++ Y) s) (hroom : (X ++ Y).length < cap) :
    ∃ z s', Returns (copyFiltered X.length (X.length + 1) Y.length) s () s' ∧
      Showing src p cap n (X ++ z :: Y) s' := by
  obtain ⟨G, hG⟩ := h.filtered
  have hcap := h.capacity
  rw [hG, length_append] at hcap
  obtain ⟨g, G, rfl⟩ : ∃ g G', G = g :: G' := by
    cases G with
    | nil =>
      rw [length_nil] at hcap
      omega
    | cons g G => exact ⟨g, G, rfl⟩
  obtain ⟨z, hcopy⟩ := JavaArray.copy_right X Y g G
  rw [← hG] at hcopy
  obtain ⟨hstore, h'⟩ := h.store (a := X ++ z :: Y ++ G) (B := X ++ z :: Y) (by
      simp only [length_append, length_cons] at hcap ⊢
      omega)
    ⟨G, rfl⟩
  exact ⟨z, _, (onFiltered_returns
    (f := fun a => JavaArray.copy a X.length a (X.length + 1) Y.length) hcopy).bind hstore, h'⟩

theorem Showing.copyLeft {R : List Int} (h : Showing src p cap n (X ++ R ++ Y) s) :
    ∃ s', Returns (copyFiltered (X ++ R).length X.length Y.length) s () s' ∧
      Showing src p cap n (X ++ Y) s' := by
  obtain ⟨G, hG⟩ := h.filtered
  have hcap := h.capacity
  obtain ⟨G', hcopy, hlen⟩ := JavaArray.copy_left X R Y G
  rw [← hG] at hcopy
  obtain ⟨hstore, h'⟩ := h.store (a := X ++ Y ++ G') (B := X ++ Y) (by
      rw [hG] at hcap
      simp only [length_append] at hcap ⊢
      omega)
    ⟨G', rfl⟩
  exact ⟨_, (onFiltered_returns
    (f := fun a => JavaArray.copy a (X ++ R).length a X.length Y.length) hcopy).bind hstore, h'⟩

section

variable (h : Showing src p cap n A s)
include h

theorem Showing.addSize (d : Int) :
    ∃ s', Returns (addSize d) s () s' ∧ Showing src p cap (n + d) A s' :=
  ⟨{ s with size := s.size + d }, rfl, h.source, h.predicate, by rw [← h.size], h.filtered,
    h.capacity, h.sound, h.lock⟩

theorem Showing.report {m : JavaM (ListChangeBuilder E) Unit}
    (hm : ∃ b', Returns m s.builder () b' ∧ b'.Sound ∧ b'.changeLock = s.builder.changeLock) :
    ∃ s', Returns (onBuilder m) s () s' ∧ Showing src p cap n A s' := by
  obtain ⟨b', hb', hsound, hlock⟩ := hm
  exact ⟨{ s with builder := b' }, Returns.zoom hb', h.source, h.predicate, h.size, h.filtered,
    h.capacity, hsound, hlock.trans h.lock⟩

theorem Showing.nextAdd (from_ to_ : Int) :
    ∃ s', Returns (onBuilder (ListChangeBuilder.nextAdd from_ to_)) s () s' ∧
      Showing src p cap n A s' :=
  h.report (h.sound.nextAdd (by rw [h.lock]; omega) from_ to_)

theorem Showing.nextRemove (idx : Int) (e : E) :
    ∃ s', Returns (onBuilder (ListChangeBuilder.nextRemove idx e)) s () s' ∧
      Showing src p cap n A s' :=
  h.report (h.sound.nextRemove (by rw [h.lock]; omega) idx e)

theorem Showing.nextUpdate (idx : Int) :
    ∃ s', Returns (onBuilder (ListChangeBuilder.nextUpdate idx)) s () s' ∧
      Showing src p cap n A s' :=
  h.report (h.sound.nextUpdate (by rw [h.lock]; omega) idx)

theorem Showing.listIterator {U V : List E} (hsrc : src = U ++ V) :
    Returns (listIterator U.length) s V s := by
  have hlen : (U.length : Int) ≤ s.source.length := by
    rw [h.source, hsrc, length_append]
    omega
  simp only [Returns, FilteredList.listIterator, if_pos (show 0 ≤ (U.length : Int) ∧
    (U.length : Int) ≤ s.source.length from ⟨by omega, hlen⟩), Int.toNat_natCast]
  rw [h.source, hsrc, drop_left]

end

/-! ## `findPosition` -/

theorem filter_lt_eq {q : Int} (hX : ∀ x ∈ X, x < q) (hY : ∀ y ∈ Y, q ≤ y) :
    (X ++ Y).filter (fun x => decide (x < q)) = X := by
  rw [filter_append, filter_eq_self.mpr (by simpa using hX),
    filter_eq_nil_iff.mpr (by simpa using hY), append_nil]

theorem binarySearch_position {A : List Int} (hA : A.Pairwise (· < ·)) (q : Int) :
    binarySearch (fun v => compare v q) A = .found (A.filter (· < q)).length ∨
      binarySearch (fun v => compare v q) A = .notFound (A.filter (· < q)).length := by
  have hsort : SortedAround (fun v => compare v q) A := by
    apply hA.imp
    intro x y hxy
    simp only [Int.compare_eq_lt, Int.compare_eq_gt]
    omega
  cases hsearch : binarySearch (fun v => compare v q) A with
  | found i =>
    obtain ⟨x, hx, hord⟩ := binarySearch_found hsearch
    obtain ⟨hi, rfl⟩ := List.getElem?_eq_some_iff.mp hx
    have hord := Int.compare_eq_eq.mp hord
    left
    have hspl : A = A.take i ++ A[i] :: A.drop (i + 1) := by
      rw [← drop_eq_getElem_cons hi, take_append_drop]
    have hA' := hA
    rw [hspl] at hA'
    obtain ⟨-, hpost, hpre⟩ := pairwise_append.mp hA'
    have hfilt : A.filter (fun x => decide (x < q)) = A.take i := by
      conv_lhs => rw [hspl]
      apply filter_lt_eq
      · intro x hx
        have := hpre x hx A[i] mem_cons_self
        omega
      · intro y hy
        rcases mem_cons.mp hy with rfl | hy
        · omega
        · have := (pairwise_cons.mp hpost).1 y hy
          omega
    rw [hfilt, length_take, Nat.min_eq_left (by omega)]
  | notFound i =>
    obtain ⟨hi, hlt, hgt⟩ := binarySearch_notFound hsort hsearch
    right
    have hfilt : A.filter (fun x => decide (x < q)) = A.take i := by
      conv_lhs => rw [← take_append_drop i A]
      apply filter_lt_eq
      · intro x hx
        exact Int.compare_eq_lt.mp (hlt x hx)
      · intro y hy
        exact Int.le_of_lt (Int.compare_eq_gt.mp (hgt y hy))
    rw [hfilt, length_take, Nat.min_eq_left hi]

theorem Showing.findPosition (h : Showing src p cap A.length A s) (hA : A.Pairwise (· < ·))
    (hpos : ∀ x ∈ A, 0 ≤ x) (q : Int) :
    Returns (findPosition q) s ((A.filter (· < q)).length : Int) s := by
  obtain ⟨G, hG⟩ := h.filtered
  have hsz := h.size
  have hlen : s.filtered.length = A.length + G.length := by rw [hG, length_append]
  simp only [Returns, FilteredList.findPosition]
  by_cases hemp : s.filtered.length = 0
  · obtain rfl : A = [] := length_eq_zero_iff.mp (by omega)
    rw [if_pos hemp]
    rfl
  rw [if_neg hemp]
  by_cases hq : q = 0
  · have hnone : A.filter (fun x => decide (x < q)) = [] := by
      rw [filter_eq_nil_iff]
      intro x hx
      have := hpos x hx
      simp only [decide_eq_true_eq]
      omega
    rw [if_pos hq, hnone]
    rfl
  · rw [if_neg hq, if_neg (by omega), if_neg (by omega), hsz, Int.toNat_natCast, hG,
      take_left]
    rcases binarySearch_position hA q with hfound | hnotFound
    · rw [hfound]
    · rw [hnotFound]

/-- The entries before a position are those of the flags before it. -/
theorem filter_trueIndices {K F : List Bool} :
    (trueIndices 0 (K ++ F)).filter (fun x => decide (x < (K.length : Int))) = trueIndices 0 K := by
  rw [trueIndices_append]
  apply filter_lt_eq
  · intro x hx
    have := trueIndices_bounds hx
    omega
  · intro x hx
    have := trueIndices_bounds hx
    omega

theorem Showing.findPosition_flags {K F : List Bool}
    (h : Showing src p cap (trueIndices 0 (K ++ F)).length (trueIndices 0 (K ++ F)) s) :
    Returns (FilteredList.findPosition (K.length : Int)) s ((trueIndices 0 K).length : Int) s := by
  have := h.findPosition (trueIndices_sorted _ _)
    (fun x hx => (trueIndices_bounds hx).1) (K.length : Int)
  rwa [filter_trueIndices] at this

end Operations

end OpenJfx.Transformation.FilteredList
