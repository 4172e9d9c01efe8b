/-
  OpenJfx.Lib.JavaBitSet

  `java.util.BitSet`: bits in reserved words of 64, all false beyond them.  `size()` counts
  the reserved bits; it grows when a bit beyond them is set and shrinks when the set is
  cloned.

  The set bits in ascending order are `rows`.  The bit searches find their place in this
  list by counting the set bits before it.
-/

import Mathlib.Data.List.Range
import Mathlib.Data.List.Sort

namespace OpenJfx

open List

/-! ## Ascending lists -/

namespace Ascending

variable {L : List Nat}

section

variable (h : L.Pairwise (· < ·))
include h

theorem filter_lt_eq_take (v : Nat) :
    L.filter (fun r => r < v) = L.take (L.countP fun r => r < v) := by
  induction L with
  | nil => rfl
  | cons a L ih =>
    obtain ⟨ha, hL⟩ := pairwise_cons.1 h
    by_cases hav : a < v
    · simp [hav, ih hL]
    · have hnone : ∀ r ∈ L, ¬ r < v := fun r hr => by
        have := ha r hr
        omega
      have hfilt : L.filter (fun r => r < v) = [] := filter_eq_nil_iff.2 (by simpa using hnone)
      have hcnt : L.countP (fun r => r < v) = 0 := countP_eq_zero.2 (by simpa using hnone)
      simp [hav, hfilt, hcnt]

theorem find?_ge (v : Nat) : L.find? (fun r => v ≤ r) = L[L.countP fun r => r < v]? := by
  induction L with
  | nil => rfl
  | cons a L ih =>
    obtain ⟨ha, hL⟩ := pairwise_cons.1 h
    by_cases hav : a < v
    · have hnot : ¬ v ≤ a := by omega
      simp [hav, hnot, ih hL]
    · have hnone : ∀ r ∈ L, ¬ r < v := fun r hr => by
        have := ha r hr
        omega
      have hcnt : L.countP (fun r => r < v) = 0 := countP_eq_zero.2 (by simpa using hnone)
      have hle : v ≤ a := by omega
      simp [hav, hle, hcnt]

theorem getLast?_lt (v : Nat) : (L.filter fun r => r < v).getLast? =
      if L.countP (fun r => r < v) = 0 then none else L[L.countP (fun r => r < v) - 1]? := by
  have hle : L.countP (fun r => r < v) ≤ L.length := countP_le_length
  rw [filter_lt_eq_take h, getLast?_eq_getElem?, length_take, Nat.min_eq_left hle]
  split
  · next hzero => simp [hzero]
  · rw [getElem?_take_of_lt (by omega)]

theorem countP_lt_getElem {i r : Nat} (hi : L[i]? = some r) :
    L.countP (fun x => x < r) = i := by
  obtain ⟨hlt, hr⟩ := List.getElem?_eq_some_iff.1 hi
  have hfind : L.find? (fun x => r ≤ x) = some r := by
    rw [find?_eq_some_iff_getElem]
    refine ⟨by simp, i, hlt, hr, fun j hj => ?_⟩
    have hsort := pairwise_iff_getElem.1 h j i (by omega) hlt hj
    simp only [Bool.not_eq_true', decide_eq_false_iff_not]
    omega
  rw [find?_ge h] at hfind
  obtain ⟨hlt', hr'⟩ := List.getElem?_eq_some_iff.1 hfind
  have hnd : L.Nodup := h.imp fun hlt => Nat.ne_of_lt hlt
  exact (hnd.getElem_inj_iff).1 (hr'.trans hr.symm)

/-- As many elements as its position says are up to the one at `i`. -/
theorem countP_le_getElem {i r : Nat} (hi : L[i]? = some r) :
    L.countP (fun x => x < r + 1) = i + 1 := by
  obtain ⟨hlt, hr⟩ := List.getElem?_eq_some_iff.1 hi
  have hspl : L = L.take i ++ r :: L.drop (i + 1) := by
    rw [← hr, getElem_cons_drop, take_append_drop]
  have hsort := h
  rw [hspl, pairwise_append, pairwise_cons] at hsort
  obtain ⟨-, ⟨hafter, -⟩, hbef⟩ := hsort
  have hleft : (L.take i).countP (fun x => x < r + 1) = i := by
    rw [countP_eq_length.2, length_take, Nat.min_eq_left (by omega)]
    intro x hx
    have hxr := hbef x hx r mem_cons_self
    simp only [decide_eq_true_eq]
    omega
  have hright : (L.drop (i + 1)).countP (fun x => x < r + 1) = 0 := by
    rw [countP_eq_zero]
    intro x hx
    have hxr := hafter x hx
    simp only [decide_eq_true_eq]
    omega
  rw [hspl, countP_append, countP_cons, hleft, hright]
  simp

theorem length_le {n : Nat} (hlt : ∀ r ∈ L, r < n) : L.length ≤ n := by
  have hnd : L.Nodup := h.imp fun h => Nat.ne_of_lt h
  have hsub : L ⊆ List.range n := fun r hr => mem_range.2 (hlt r hr)
  have hle := (subperm_of_subset hnd hsub).length_le
  rwa [length_range] at hle

end

end Ascending

/-! ## The bits -/

/-- The bits, all of them inside the words. -/
structure JavaBitSet where
  words : Nat
  bit : Nat → Bool
  inside : ∀ i, bit i = true → i < 64 * words

namespace JavaBitSet

variable {b : JavaBitSet} {i j : Nat}

def new : JavaBitSet := ⟨1, fun _ => false, by simp⟩

def size (b : JavaBitSet) : Nat := 64 * b.words

/-- The set bits in ascending order. -/
def rows (b : JavaBitSet) : List Nat := (List.range b.size).filter b.bit

def cardinality (b : JavaBitSet) : Nat := b.rows.length

def isEmpty (b : JavaBitSet) : Bool := b.rows.isEmpty

/-- One more than the last set bit. -/
def length (b : JavaBitSet) : Nat := (b.rows.getLast?.map (· + 1)).getD 0

/-- -1 where there is none. -/
def nextSetBit (b : JavaBitSet) (fromIndex : Nat) : Int :=
  ((b.rows.find? fun r => fromIndex ≤ r).map Int.ofNat).getD (-1)

/-- -1 where there is none. -/
def previousSetBit (b : JavaBitSet) (fromIndex : Nat) : Int :=
  (((b.rows.filter fun r => r < fromIndex + 1).getLast?).map Int.ofNat).getD (-1)

/-- The words that `expandTo` reserves for bit `i`. -/
def expanded (b : JavaBitSet) (i : Nat) : Nat :=
  if i / 64 < b.words then b.words else max (2 * b.words) (i / 64 + 1)

theorem words_le_expanded (b : JavaBitSet) (i : Nat) : b.words ≤ b.expanded i := by
  unfold expanded
  split <;> omega

theorem lt_expanded (b : JavaBitSet) (i : Nat) : i < 64 * b.expanded i := by
  unfold expanded
  split <;> omega

/-- The words are doubled, if need be. -/
def set (b : JavaBitSet) (i : Nat) : JavaBitSet where
  words := b.expanded i
  bit := Function.update b.bit i true
  inside := by
    intro j hj
    by_cases hji : j = i
    · subst hji
      exact b.lt_expanded j
    · rw [Function.update_of_ne hji] at hj
      have hj := b.inside j hj
      have hle := b.words_le_expanded i
      omega

def clear (b : JavaBitSet) (i : Nat) : JavaBitSet where
  words := b.words
  bit := Function.update b.bit i false
  inside := by
    intro j hj
    by_cases hji : j = i
    · subst hji
      simp at hj
    · rw [Function.update_of_ne hji] at hj
      exact b.inside j hj

/-- `set(i, value)`. -/
def setTo (b : JavaBitSet) (i : Nat) (value : Bool) : JavaBitSet :=
  if value then b.set i else b.clear i

def clearAll (b : JavaBitSet) : JavaBitSet := ⟨b.words, fun _ => false, by simp⟩

/-- `set(0, toIndex, true)`. -/
def setBelow (b : JavaBitSet) (toIndex : Nat) : JavaBitSet :=
  if h : toIndex = 0 then b
  else
    { words := b.expanded (toIndex - 1)
      bit := fun j => decide (j < toIndex) || b.bit j
      inside := by
        intro j hj
        rcases Bool.or_eq_true _ _ ▸ hj with hj | hj
        · have hlt := b.lt_expanded (toIndex - 1)
          have hj := of_decide_eq_true hj
          omega
        · have hle := b.words_le_expanded (toIndex - 1)
          have hj := b.inside j hj
          omega }

/-! ## The rows -/

@[simp] theorem mem_rows : i ∈ b.rows ↔ b.bit i = true := by
  rw [rows, mem_filter, mem_range]
  exact ⟨fun h => h.2, fun h => ⟨b.inside i h, h⟩⟩

theorem rows_sorted (b : JavaBitSet) : b.rows.Pairwise (· < ·) := pairwise_lt_range.filter _

theorem rows_nodup (b : JavaBitSet) : b.rows.Nodup := b.rows_sorted.imp fun h => Nat.ne_of_lt h

theorem rows_eq {L : List Nat} (hL : L.Pairwise (· < ·)) (hmem : ∀ i, i ∈ L ↔ b.bit i = true) :
    b.rows = L := by
  have hnd : L.Nodup := hL.imp fun h => Nat.ne_of_lt h
  have hperm : b.rows.Perm L := (perm_ext_iff_of_nodup b.rows_nodup hnd).2 fun i => by
    rw [mem_rows, hmem]
  exact hperm.eq_of_pairwise (fun _ _ _ _ h h' => absurd h (Nat.lt_asymm h')) b.rows_sorted hL

theorem bit_eq_false_of_size_le (b : JavaBitSet) (hi : b.size ≤ i) : b.bit i = false := by
  by_contra hne
  exact absurd (b.inside i (Bool.eq_true_of_not_eq_false hne)) (Nat.not_lt.2 hi)

theorem isEmpty_iff : b.isEmpty = true ↔ ∀ i, b.bit i = false := by
  rw [isEmpty, List.isEmpty_iff, eq_nil_iff_forall_not_mem]
  simp

theorem lt_length (hi : b.bit i = true) : i < b.length := by
  have hmem : i ∈ b.rows := mem_rows.2 hi
  obtain ⟨l, hl⟩ : ∃ l, b.rows.getLast? = some l := by
    rw [← Option.isSome_iff_exists, getLast?_isSome]
    exact ne_nil_of_mem hmem
  have hle : i ≤ l := by
    obtain ⟨L, hL⟩ := getLast?_eq_some_iff.1 hl
    rw [hL] at hmem
    have hsort := b.rows_sorted
    rw [hL, pairwise_append] at hsort
    rcases mem_append.1 hmem with hi | hi
    · exact Nat.le_of_lt (hsort.2.2 i hi l (mem_singleton.2 rfl))
    · exact (mem_singleton.1 hi).le
  rw [length, hl]
  exact Nat.lt_succ_of_le hle

/-- What `clone()` leaves of the set itself: no more words than needed. -/
def trimmed (b : JavaBitSet) : JavaBitSet where
  words := (b.length + 63) / 64
  bit := b.bit
  inside := by
    intro i hi
    have hlt := lt_length hi
    omega

theorem nextSetBit_eq (b : JavaBitSet) (i : Nat) :
    b.nextSetBit i = ((b.rows[b.rows.countP fun r => r < i]?).map Int.ofNat).getD (-1) := by
  rw [nextSetBit, Ascending.find?_ge b.rows_sorted]

theorem previousSetBit_eq (b : JavaBitSet) (i : Nat) :
    b.previousSetBit i = ((if b.rows.countP (fun r => r < i + 1) = 0 then none
      else b.rows[b.rows.countP (fun r => r < i + 1) - 1]?).map Int.ofNat).getD (-1) := by
  rw [previousSetBit, Ascending.getLast?_lt b.rows_sorted]

/-! ## The bits after an operation -/

@[simp] theorem bit_new : new.bit i = false := rfl

@[simp] theorem bit_set : (b.set i).bit j = (decide (j = i) || b.bit j) := by
  by_cases h : j = i
  · subst h
    simp [set]
  · simp [set, h]

@[simp] theorem bit_clear : (b.clear i).bit j = (!decide (j = i) && b.bit j) := by
  by_cases h : j = i
  · subst h
    simp [clear]
  · simp [clear, h]

@[simp] theorem bit_setTo {value : Bool} :
    (b.setTo i value).bit j = if j = i then value else b.bit j := by
  unfold setTo
  cases value <;> by_cases h : j = i <;> simp [h]

@[simp] theorem bit_clearAll : b.clearAll.bit i = false := rfl

@[simp] theorem bit_setBelow : (b.setBelow i).bit j = (decide (j < i) || b.bit j) := by
  unfold setBelow
  split
  · next h => simp [h]
  · rfl

@[simp] theorem bit_trimmed : b.trimmed.bit i = b.bit i := rfl

@[simp] theorem size_clear : (b.clear i).size = b.size := rfl

end JavaBitSet

end OpenJfx
