/-
  OpenJfx.Lib.WordBits

  A set of natural numbers kept in an array of 64-bit words: the number
  `64 * n + k` is in the set when bit `k` of word `n` is set.  Words beyond the
  end of the array count as zero, so arrays of different length can hold the
  same set.
-/

import Mathlib.Data.Finset.Card
import Mathlib.Data.List.Range
import Mathlib.Data.List.Flatten

namespace OpenJfx

open List

variable {ws vs : List Word}

abbrev Word := BitVec 64

/-- The word at `n`, zero beyond the end. -/
def wordAt (ws : List Word) (n : Nat) : Word := ws.getD n 0#64

/-- Bit `i` of the array. -/
def bitAt (ws : List Word) (i : Nat) : Bool := (wordAt ws (i / 64)).getLsbD (i % 64)

/-- The numbers whose bits are set, in ascending order. -/
def setBits (ws : List Word) : List Nat :=
  (List.range ws.length).flatMap fun n =>
    ((List.range 64).filter (wordAt ws n).getLsbD).map (64 * n + ·)

/-- The set an array stands for. -/
def members (ws : List Word) : Finset Nat := (setBits ws).toFinset

/-! ## Words -/

variable {n i : Nat}

theorem wordAt_of_le (h : ws.length ≤ n) : wordAt ws n = 0#64 := by
  rw [wordAt, getD_eq_getElem?_getD, getElem?_eq_none h, Option.getD_none]

theorem wordAt_eq_getElem (h : n < ws.length) : wordAt ws n = ws[n] := by
  rw [wordAt, getD_eq_getElem?_getD, getElem?_eq_getElem h, Option.getD_some]

theorem wordAt_map_range (f : Nat → Word) (max n : Nat) :
    wordAt ((List.range max).map f) n = if n < max then f n else 0#64 := by
  split
  · next h => rw [wordAt_eq_getElem (by simpa using h), getElem_map, getElem_range]
  · next h => exact wordAt_of_le (by simpa using h)

theorem wordAt_set {m : Nat} (h : m < ws.length) (w : Word) (n : Nat) :
    wordAt (ws.set m w) n = if n = m then w else wordAt ws n := by
  rw [wordAt, wordAt, getD_eq_getElem?_getD, getD_eq_getElem?_getD, getElem?_set]
  split
  · next heq =>
    subst heq
    rw [if_pos rfl, Option.getD_some]
  · next hne => rw [if_neg fun heq => hne heq.symm]

theorem word_ext {v w : Word} (h : ∀ k, k < 64 → v.getLsbD k = w.getLsbD k) : v = w :=
  BitVec.eq_of_getLsbD_eq h

theorem getLsbD_mask {k j : Nat} (hk : k < 64) : (1#64 <<< k).getLsbD j = decide (j = k) := by
  rw [← BitVec.twoPow_eq, BitVec.getLsbD_twoPow]
  simp only [hk, decide_true, Bool.true_and, decide_eq_decide]
  exact eq_comm

theorem mask_and_eq_iff {w : Word} {k : Nat} (hk : k < 64) :
    1#64 <<< k &&& w = 1#64 <<< k ↔ w.getLsbD k = true := by
  constructor
  · intro h
    have := congrArg (BitVec.getLsbD · k) h
    simpa [getLsbD_mask hk] using this
  · intro h
    apply word_ext
    intro j _
    rw [BitVec.getLsbD_and, getLsbD_mask hk]
    by_cases hj : j = k
    · subst hj
      simp [h]
    · simp [hj]

/-! ## Bits -/

theorem bitAt_of_le (h : 64 * ws.length ≤ i) : bitAt ws i = false := by
  rw [bitAt, wordAt_of_le (by omega)]
  exact BitVec.getLsbD_zero

theorem lt_of_bitAt (h : bitAt ws i = true) : i / 64 < ws.length := by
  by_contra hle
  rw [bitAt_of_le (by omega)] at h
  cases h

theorem getLsbD_wordAt (ws : List Word) {k : Nat} (hk : k < 64) :
    (wordAt ws n).getLsbD k = bitAt ws (64 * n + k) := by
  rw [bitAt, show (64 * n + k) / 64 = n by omega, show (64 * n + k) % 64 = k by omega]

theorem wordAt_congr (h : ∀ i, bitAt vs i = bitAt ws i) (n : Nat) :
    wordAt vs n = wordAt ws n := by
  apply word_ext
  intro k hk
  rw [getLsbD_wordAt vs hk, getLsbD_wordAt ws hk, h]

theorem words_ext (hlen : vs.length = ws.length) (h : ∀ i, bitAt vs i = bitAt ws i) : vs = ws := by
  apply ext_getElem hlen
  intro n h1 h2
  rw [← wordAt_eq_getElem h1, ← wordAt_eq_getElem h2, wordAt_congr h]

theorem wordAt_eq_zero_iff :
    wordAt ws n = 0#64 ↔ ∀ k, k < 64 → bitAt ws (64 * n + k) = false := by
  constructor
  · intro h k hk
    rw [← getLsbD_wordAt ws hk, h]
    exact BitVec.getLsbD_zero
  · intro h
    apply word_ext
    intro k hk
    rw [getLsbD_wordAt ws hk, h k hk]
    exact BitVec.getLsbD_zero.symm

/-! ## The set -/

theorem mem_setBits : i ∈ setBits ws ↔ bitAt ws i = true := by
  simp only [setBits, mem_flatMap, mem_range, mem_map, mem_filter]
  constructor
  · rintro ⟨n, -, k, ⟨hk, hbit⟩, rfl⟩
    rwa [getLsbD_wordAt ws hk] at hbit
  · intro h
    exact ⟨i / 64, lt_of_bitAt h, i % 64, ⟨by omega, h⟩, by omega⟩

theorem setBits_nodup (ws : List Word) : (setBits ws).Nodup := by
  refine nodup_flatMap.mpr ⟨?_, ?_⟩
  · intro n _
    refine List.Nodup.map ?_ (nodup_range.filter _)
    intro a b hab
    simpa using hab
  · apply nodup_range.imp
    intro m n hne
    simp only [Function.onFun, disjoint_left, mem_map, mem_filter, mem_range]
    rintro _ ⟨k, ⟨hk, -⟩, rfl⟩ ⟨j, ⟨hj, -⟩, heq⟩
    exact hne (by omega)

@[simp] theorem mem_members {ws : List Word} {i : Nat} : i ∈ members ws ↔ bitAt ws i = true := by
  rw [members, mem_toFinset, mem_setBits]

theorem card_members (ws : List Word) : (members ws).card = (setBits ws).length :=
  toFinset_card_of_nodup (setBits_nodup ws)

theorem members_eq_iff :
    members vs = members ws ↔ ∀ i, bitAt vs i = bitAt ws i := by
  rw [Finset.ext_iff]
  apply forall_congr'
  intro i
  rw [mem_members, mem_members]
  exact Bool.eq_iff_iff.symm

theorem members_subset_iff :
    members vs ⊆ members ws ↔ ∀ i, bitAt vs i = true → bitAt ws i = true := by
  simp only [Finset.subset_iff, mem_members]

end OpenJfx
