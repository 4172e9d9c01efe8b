/-
  OpenJfx.Controls.MultipleSelectionModel.ShiftSelection

  `shiftSelection` moves the bits from the last one down, or from the first one up.  Its loop ends
  at the reserved size, so a removed row keeps its bit if its replacement is beyond that; and its
  first test skips the move to row 0.
-/

import OpenJfx.Controls.MultipleSelectionModel.Basic

namespace OpenJfx.Controls.MultipleSelectionModelBase

open List

variable {position : Nat}

variable {T : Type}

/-! ## The loops -/

section Loops

variable {x : JavaBitSet × List Int} {j : Nat}

theorem moveBit_bit {k target : Nat} {note : Int} : (moveBit k target note x).1.bit j =
      if j = target then x.1.bit k else (decide (j ≠ k) && x.1.bit j) := by
  simp [moveBit]

theorem moveBit_notes {k target : Nat} {note : Int} :
    (moveBit k target note x).2 = [] ↔ x.2 = [] ∧ x.1.bit k = false := by
  cases h : x.1.bit k <;> simp [moveBit, h]

theorem shiftUp_bit {d n : Nat} (hd : 0 < d) : (shiftUp position d n x).1.bit j =
      if position + d ≤ j ∧ j < n + d then x.1.bit (j - d)
      else if position ≤ j ∧ j < n then false
      else x.1.bit j := by
  induction n generalizing x with
  | zero =>
    have h1 : ¬ (position + d ≤ j ∧ j < 0 + d) := by omega
    have h2 : ¬ (position ≤ j ∧ j < 0) := by omega
    rw [shiftUp, if_neg h1, if_neg h2]
  | succ n ih =>
    rw [shiftUp]
    by_cases hn : position ≤ n
    · rw [if_pos hn, ih, moveBit_bit, moveBit_bit]
      -- the bit read is below `n`, so the last move has not touched it
      by_cases h1 : position + d ≤ j ∧ j < n + d
      · have hne : ¬ j - d = n + d := by omega
        have hne' : j - d ≠ n := by omega
        rw [if_pos h1, if_neg hne, if_pos (by omega)]
        simp [hne']
      · rw [if_neg h1]
        by_cases htarget : j = n + d
        · have hj : ¬ (position ≤ j ∧ j < n) := by omega
          rw [if_neg hj, if_pos htarget, if_pos (by omega), htarget]
          simp
        · rw [if_neg htarget, if_neg (c := position + d ≤ j ∧ j < n + 1 + d) (by omega)]
          by_cases hlt : position ≤ j ∧ j < n
          · rw [if_pos hlt, if_pos (by omega)]
          · rw [if_neg hlt]
            by_cases hjn : j = n
            · subst hjn
              rw [if_pos (by omega)]
              simp
            · rw [if_neg (by omega)]
              simp [hjn]
    · rw [if_neg hn, if_neg (by omega), if_neg (by omega)]

theorem shiftUp_notes {d n : Nat} (hd : 0 < d) : (shiftUp position d n x).2 = [] ↔
      x.2 = [] ∧ ∀ k, position ≤ k → k < n → x.1.bit k = false := by
  induction n generalizing x with
  | zero => simp [shiftUp]
  | succ n ih =>
    rw [shiftUp]
    by_cases hn : position ≤ n
    · rw [if_pos hn, ih, moveBit_notes]
      constructor
      · rintro ⟨⟨hx, hbit⟩, hrest⟩
        refine ⟨hx, fun k hk hlt => ?_⟩
        by_cases hkn : k = n
        · rw [hkn, hbit]
        · have hk' := hrest k hk (by omega)
          rw [moveBit_bit, if_neg (by omega)] at hk'
          simpa [hkn] using hk'
      · rintro ⟨hx, hall⟩
        refine ⟨⟨hx, hall n hn (by omega)⟩, fun k hk hlt => ?_⟩
        rw [moveBit_bit, if_neg (by omega), hall k hk (by omega), Bool.and_false]
    · rw [if_neg hn]
      exact ⟨fun h => ⟨h, fun k hk hlt => by omega⟩, fun h => h.1⟩

/-- The tests at the start of a round: the bit is one that moves. -/
theorem shiftDown_cons {i : Nat} {is : List Nat} {m : Nat} :
    shiftDown position (-(m : Int)) (i :: is) x =
      if max position 1 + m ≤ i + 1 then
        shiftDown position (-(m : Int)) is (moveBit (i + 1) (i + 1 - m) i x)
      else shiftDown position (-(m : Int)) is x := by
  rw [shiftDown]
  by_cases h1 : (i : Int) + -(m : Int) < 0
  · rw [if_pos h1, if_neg (by omega)]
  · rw [if_neg h1]
    by_cases h2 : (i : Int) + 1 + -(m : Int) < position
    · rw [if_pos h2, if_neg (by omega)]
    · rw [if_neg h2, if_pos (by omega)]
      congr 2
      omega

theorem shiftDown_bit {i n m : Nat} (hm : 0 < m) :
    (shiftDown position (-(m : Int)) (List.range' i n) x).1.bit j =
      if max position 1 ≤ j ∧ i + 1 ≤ j + m ∧ j + m ≤ i + n then x.1.bit (j + m)
      else if max position 1 + m ≤ j ∧ i + 1 ≤ j ∧ j ≤ i + n then false
      else x.1.bit j := by
  induction n generalizing i x with
  | zero =>
    rw [range'_zero, shiftDown, if_neg (by omega), if_neg (by omega)]
  | succ n ih =>
    rw [range'_succ, shiftDown_cons]
    by_cases hmove : max position 1 + m ≤ i + 1
    · rw [if_pos hmove, ih, moveBit_bit, moveBit_bit]
      by_cases h1 : max position 1 ≤ j ∧ i + 1 + 1 ≤ j + m ∧ j + m ≤ i + 1 + n
      · have hne : ¬ j + m = i + 1 - m := by omega
        have hne' : j + m ≠ i + 1 := by omega
        rw [if_pos h1, if_neg hne, if_pos (by omega)]
        simp [hne']
      · rw [if_neg h1]
        by_cases htarget : j = i + 1 - m
        · have hsum : j + m = i + 1 := by omega
          rw [if_neg (by omega), if_pos htarget, if_pos (by omega), hsum]
        · rw [if_neg htarget,
            if_neg (c := max position 1 ≤ j ∧ i + 1 ≤ j + m ∧ j + m ≤ i + (n + 1)) (by omega)]
          by_cases hlt : max position 1 + m ≤ j ∧ i + 1 + 1 ≤ j ∧ j ≤ i + 1 + n
          · rw [if_pos hlt, if_pos (by omega)]
          · rw [if_neg hlt]
            by_cases hji : j = i + 1
            · rw [if_pos (by omega)]
              simp [hji]
            · rw [if_neg (by omega)]
              simp [hji]
    · rw [if_neg hmove, ih]
      have h1 : (max position 1 ≤ j ∧ i + 1 + 1 ≤ j + m ∧ j + m ≤ i + 1 + n) ↔
          (max position 1 ≤ j ∧ i + 1 ≤ j + m ∧ j + m ≤ i + (n + 1)) := by omega
      have h2 : (max position 1 + m ≤ j ∧ i + 1 + 1 ≤ j ∧ j ≤ i + 1 + n) ↔
          (max position 1 + m ≤ j ∧ i + 1 ≤ j ∧ j ≤ i + (n + 1)) := by omega
      simp only [h1, h2]

theorem shiftDown_notes {i n m : Nat} (hm : 0 < m) :
    (shiftDown position (-(m : Int)) (List.range' i n) x).2 = [] ↔
      x.2 = [] ∧ ∀ k, max position 1 + m ≤ k → i + 1 ≤ k → k ≤ i + n → x.1.bit k = false := by
  induction n generalizing i x with
  | zero =>
    rw [range'_zero, shiftDown]
    refine ⟨fun h => ⟨h, fun k _ _ _ => by omega⟩, fun h => h.1⟩
  | succ n ih =>
    rw [range'_succ, shiftDown_cons]
    by_cases hmove : max position 1 + m ≤ i + 1
    · rw [if_pos hmove, ih, moveBit_notes]
      constructor
      · rintro ⟨⟨hx, hbit⟩, hrest⟩
        refine ⟨hx, fun k hk hlo hhi => ?_⟩
        by_cases hki : k = i + 1
        · rw [hki, hbit]
        · have hk' := hrest k hk (by omega) (by omega)
          rw [moveBit_bit, if_neg (by omega)] at hk'
          simpa [hki] using hk'
      · rintro ⟨hx, hall⟩
        refine ⟨⟨hx, hall (i + 1) hmove (by omega) (by omega)⟩, fun k hk hlo hhi => ?_⟩
        rw [moveBit_bit, if_neg (by omega), hall k hk (by omega) (by omega), Bool.and_false]
    · rw [if_neg hmove, ih]
      refine and_congr_right fun _ => ⟨fun h k hk hlo hhi => ?_, fun h k hk hlo hhi => ?_⟩
      · exact h k hk (by omega) (by omega)
      · exact h k hk (by omega) (by omega)

end Loops

/-! ## The bits after the loops -/

section Bits

variable {bits : JavaBitSet} {position j : Nat}

theorem shiftBits_up {d : Nat} (hd : 0 < d) : (shiftBits bits position d).1.bit j =
        (if j < position then bits.bit j else decide (position + d ≤ j) && bits.bit (j - d)) ∧
      ((shiftBits bits position d).2 = [] ↔ ∀ k, position ≤ k → bits.bit k = false) := by
  have hpos : (0 : Int) < d := by omega
  have hbeyond : ∀ k, bits.size ≤ k → bits.bit k = false := fun k =>
    bits.bit_eq_false_of_size_le
  rw [shiftBits, if_pos hpos, Int.toNat_natCast]
  constructor
  · rw [JavaBitSet.bit_clear, shiftUp_bit hd]
    by_cases hj : j < position
    · have hne : ¬ j = position := by omega
      rw [if_neg (by omega), if_neg (by omega), if_pos hj]
      simp [hne]
    · rw [if_neg hj]
      by_cases hmoved : position + d ≤ j
      · have hne : ¬ j = position := by omega
        by_cases hlt : j < bits.size + d
        · rw [if_pos ⟨hmoved, hlt⟩]
          simp [hne, hmoved]
        · rw [if_neg (by omega), if_neg (by omega), hbeyond j (by omega), hbeyond (j - d) (by omega)]
          simp
      · rw [if_neg (by omega)]
        by_cases hlt : j < bits.size
        · rw [if_pos (by omega)]
          simp [hmoved]
        · rw [if_neg (by omega), hbeyond j (by omega)]
          simp [hmoved]
  · rw [shiftUp_notes hd]
    refine ⟨fun h k hk => ?_, fun h => ⟨rfl, fun k hk _ => h k hk⟩⟩
    by_cases hlt : k < bits.size
    · exact h.2 k hk hlt
    · exact hbeyond k (by omega)

theorem shiftBits_down {m : Nat} (hm : 0 < m) : (shiftBits bits position (-(m : Int))).1.bit j =
        (if max position 1 ≤ j ∧ j + m ≤ bits.size then bits.bit (j + m)
        else decide (j < max position 1 + m) && bits.bit j) ∧
      ((shiftBits bits position (-(m : Int))).2 = [] ↔
        ∀ k, max position 1 + m ≤ k → bits.bit k = false) := by
  have hneg : ¬ (0 : Int) < -(m : Int) := by omega
  have hbeyond : ∀ k, bits.size ≤ k → bits.bit k = false := fun k =>
    bits.bit_eq_false_of_size_le
  rw [shiftBits, if_neg hneg]
  constructor
  · rw [shiftDown_bit hm]
    by_cases hmoved : max position 1 ≤ j ∧ j + m ≤ bits.size
    · rw [if_pos (by omega), if_pos hmoved]
    · rw [if_neg (by omega), if_neg hmoved]
      by_cases hlt : j < max position 1 + m
      · rw [if_neg (by omega)]
        simp [hlt]
      · by_cases hin : j ≤ bits.size
        · rw [if_pos (by omega)]
          simp [hlt]
        · rw [if_neg (by omega), hbeyond j (by omega)]
          simp
  · rw [shiftDown_notes hm]
    refine ⟨fun h k hk => ?_, fun h => ⟨rfl, fun k hk _ _ => h k hk⟩⟩
    by_cases hlt : k < bits.size
    · exact h.2 k hk (by omega) (by omega)
    · exact hbeyond k (by omega)

end Bits

/-! ## The selection afterwards -/

section Shift

variable (s : MultipleSelectionModelBase T) (position : Nat) (shift : Int)

/-- The row the lead moves to. -/
def newLead : Nat := (max 0 (s.selectedIndex + shift)).toNat

/-- Where the rows from `position` on should go. -/
def Moved (j : Nat) : Prop :=
  (j < position ∧ s.selectedIndices.bit j = true) ∨
    ∃ r : Nat, s.selectedIndices.bit r = true ∧
      (if 0 < shift then (position : Int) ≤ r else position - shift ≤ r) ∧ (j : Int) = r + shift

/-- The rows that should be selected after the shift. -/
def ShiftedTo (j : Nat) : Prop :=
  s.Moved position shift j ∨
    ((position : Int) ≤ s.selectedIndex ∧ (j : Int) = max 0 (s.selectedIndex + shift))

/-- The loops leave this row wrong: row 0, or a removed row replaced from beyond the reserved
    size. -/
def Misplaced (j : Nat) : Prop :=
  shift < 0 ∧
    ((position = 0 ∧ j = 0 ∧ s.selectedIndices.bit 0 ≠ s.selectedIndices.bit shift.natAbs) ∨
      (s.selectedIndices.bit j = true ∧ max position 1 ≤ j ∧ j < max position 1 + shift.natAbs ∧
        s.selectedIndices.size < j + shift.natAbs))

/-- The loops move a selected row. -/
def Moves : Prop :=
  ∃ k, s.selectedIndices.bit k = true ∧
    (if 0 < shift then position else max position 1 + shift.natAbs) ≤ k

/-- The row stays selected if the loops move nothing. -/
def Stays (j : Nat) : Prop :=
  s.selectedIndices.bit j = true ∧
    (0 < shift ∨ j < max position 1 ∨
      (j < max position 1 + shift.natAbs ∧ s.selectedIndices.size < j + shift.natAbs))

/-- The lead is selected by `select`, which drops all other rows. -/
def Replaced : Prop :=
  s.selectionMode = .single ∧ (position : Int) ≤ s.selectedIndex ∧ ¬ s.Moves position shift ∧
    s.newLead shift < s.getItemCount ∧ ¬ s.Stays position shift (s.newLead shift)

/-- When the selection is shifted as it should be. -/
structure ShiftsRight : Prop where
  empty : s.selectedIndices.isEmpty = true → s.selectedIndex < position
  placed : ¬ s.Replaced position shift → ∀ j, s.Misplaced position shift j →
    (position : Int) ≤ s.selectedIndex ∧ j = s.newLead shift
  lead : s.selectedIndices.isEmpty = false → (position : Int) ≤ s.selectedIndex →
    ¬ s.Moves position shift →
    s.newLead shift < s.getItemCount ∨ s.Stays position shift (s.newLead shift)
  replaced : s.selectedIndices.isEmpty = false → s.Replaced position shift →
    ∀ j, s.Moved position shift j → j = s.newLead shift

end Shift

section Result

variable {s : MultipleSelectionModelBase T} {position : Nat} {shift : Int} {j : Nat}

theorem shift_cases (hshift : shift ≠ 0) :
    (∃ m : Nat, shift = -(m : Int) ∧ 0 < m) ∨ ∃ d : Nat, shift = d ∧ 0 < d := by
  rcases lt_or_gt_of_ne hshift with hneg | hpos
  · exact .inl ⟨shift.natAbs, by omega, by omega⟩
  · exact .inr ⟨shift.natAbs, by omega, by omega⟩

theorem shiftBits_iff_moved (hshift : shift ≠ 0) :
    ((shiftBits s.selectedIndices position shift).1.bit j = true ↔ s.Moved position shift j) ↔
      ¬ s.Misplaced position shift j := by
  obtain ⟨m, rfl, hm⟩ | ⟨d, rfl, hd⟩ := shift_cases hshift
  · have hmoved : s.Moved position (-(m : Int)) j ↔
        (j < position ∧ s.selectedIndices.bit j = true) ∨
          (position ≤ j ∧ s.selectedIndices.bit (j + m) = true) := by
      refine or_congr_right ⟨?_, fun h => ⟨j + m, h.2, ?_, by omega⟩⟩
      · rintro ⟨r, hr, hle, hj⟩
        rw [if_neg (by omega)] at hle
        obtain rfl : r = j + m := by omega
        exact ⟨by omega, hr⟩
      · rw [if_neg (by omega)]
        omega
    have habs : (-(m : Int)).natAbs = m := by omega
    rw [(shiftBits_down hm).1, hmoved, Misplaced, habs]
    by_cases hj : max position 1 ≤ j
    · by_cases hin : j + m ≤ s.selectedIndices.size
      · -- the row is replaced by the one that should come
        rw [if_pos ⟨hj, hin⟩]
        refine iff_of_true ⟨fun h => .inr ⟨by omega, h⟩, ?_⟩ (by omega)
        rintro (h | h)
        · omega
        · exact h.2
      · rw [if_neg (by omega), s.selectedIndices.bit_eq_false_of_size_le (i := j + m) (by omega)]
        have h1 : ¬ j < position := by omega
        have h2 : ¬ (position = 0 ∧ j = 0 ∧
            s.selectedIndices.bit 0 ≠ s.selectedIndices.bit m) := by omega
        have h3 : s.selectedIndices.size < j + m := by omega
        rw [Bool.and_eq_true, decide_eq_true_eq]
        simp only [h1, false_and, Bool.false_eq_true, and_false, or_self, iff_false,
          show -(m : Int) < 0 by omega, true_and, h2, false_or, hj, h3, and_true]
        rw [and_comm]
    · rw [if_neg (by omega)]
      have hlt : j < max position 1 + m := by omega
      by_cases hp : position = 0
      · obtain rfl : j = 0 := by omega
        subst hp
        have hpos : 0 < 1 + m := by omega
        simp [hm, hpos]
      · have hjp : j < position := by omega
        have hle : ¬ position ≤ j := by omega
        simp [hlt, hjp, hle, hp]
  · have hright : ¬ s.Misplaced position (d : Int) j := fun h => by
      have hlt := h.1
      omega
    rw [(shiftBits_up hd).1]
    refine iff_of_true ?_ hright
    simp only [Moved, Int.natCast_pos.mpr hd, if_true]
    by_cases hj : j < position
    · rw [if_pos hj]
      refine ⟨fun h => .inl ⟨hj, h⟩, ?_⟩
      rintro (h | ⟨r, hr, hle, hjr⟩)
      · exact h.2
      · omega
    · rw [if_neg hj, Bool.and_eq_true, decide_eq_true_eq]
      constructor
      · rintro ⟨hle, hbit⟩
        exact .inr ⟨j - d, hbit, by omega, by omega⟩
      · rintro (h | ⟨r, hr, hle, hjr⟩)
        · exact absurd h.1 hj
        · obtain rfl : r = j - d := by omega
          exact ⟨by omega, hr⟩

theorem shiftBits_notes (hshift : shift ≠ 0) :
    (shiftBits s.selectedIndices position shift).2 = [] ↔ ¬ s.Moves position shift := by
  have hcnt : ∀ n, (∀ k, n ≤ k → s.selectedIndices.bit k = false) ↔
      ¬ ∃ k, s.selectedIndices.bit k = true ∧ n ≤ k := by
    intro n
    simp only [not_exists, not_and', Bool.not_eq_true]
  obtain ⟨m, rfl, hm⟩ | ⟨d, rfl, hd⟩ := shift_cases hshift
  · have habs : (-(m : Int)).natAbs = m := by omega
    rw [(shiftBits_down (j := 0) hm).2, Moves, if_neg (by omega), habs, hcnt]
  · rw [(shiftBits_up (j := 0) hd).2, Moves, if_pos (by omega), hcnt]

theorem shiftBits_stays (hshift : shift ≠ 0) (hmoves : ¬ s.Moves position shift) :
    (shiftBits s.selectedIndices position shift).1.bit j = true ↔ s.Stays position shift j := by
  have hnone : ∀ k, (if 0 < shift then position else max position 1 + shift.natAbs) ≤ k →
      s.selectedIndices.bit k = false := by
    intro k hk
    by_contra hne
    exact hmoves ⟨k, Bool.eq_true_of_not_eq_false hne, hk⟩
  obtain ⟨m, rfl, hm⟩ | ⟨d, rfl, hd⟩ := shift_cases hshift
  · have habs : (-(m : Int)).natAbs = m := by omega
    rw [if_neg (by omega), habs] at hnone
    rw [(shiftBits_down hm).1, Stays, habs]
    by_cases hin : max position 1 ≤ j ∧ j + m ≤ s.selectedIndices.size
    · rw [if_pos hin, hnone (j + m) (by omega)]
      refine iff_of_false (by simp) ?_
      rintro ⟨-, h⟩
      omega
    · rw [if_neg hin, Bool.and_eq_true, decide_eq_true_eq, and_comm]
      refine and_congr_right fun _ => ?_
      omega
  · rw [if_pos (by omega)] at hnone
    rw [(shiftBits_up hd).1, Stays]
    by_cases hj : j < position
    · rw [if_pos hj]
      exact ⟨fun h => ⟨h, .inl (by omega)⟩, fun h => h.1⟩
    · rw [if_neg hj, hnone j (by omega)]
      refine iff_of_false ?_ (by simp)
      rw [Bool.and_eq_true, decide_eq_true_eq]
      rintro ⟨hle, hbit⟩
      rw [hnone (j - d) (by omega)] at hbit
      cases hbit

variable (equals : T → Option T → Bool)

theorem shiftSelection_of_empty (h : s.selectedIndices.isEmpty = true) :
    s.shiftSelection equals position shift = s := by
  have hcard : s.selectedIndices.cardinality = 0 := by
    rw [JavaBitSet.cardinality, length_eq_zero_iff, ← List.isEmpty_iff]
    exact h
  rw [shiftSelection]
  simp [hcard]

/-- The state after the loops, with the lead at `index`. -/
def shiftedBits (s : MultipleSelectionModelBase T) (position : Nat) (shift : Int) (index : Int) :
    MultipleSelectionModelBase T :=
  { s with selectedIndices := (shiftBits s.selectedIndices position shift).1 }.setSelectedIndex index

section

variable (hshift : shift ≠ 0) (hne : s.selectedIndices.isEmpty = false)
include hshift hne

theorem shiftSelection_eq :
    ∃ fired, s.shiftSelection equals position shift = { (if (position : Int) ≤ s.selectedIndex then
        if (shiftBits s.selectedIndices position shift).2 = [] then
          (s.shiftedBits position shift (s.newLead shift)).select equals (s.newLead shift)
        else (s.shiftedBits position shift (s.newLead shift)).setBit (s.newLead shift)
      else { s with selectedIndices := (shiftBits s.selectedIndices position shift).1 }) with
      fired := fired } := by
  have hcard : ¬ s.selectedIndices.cardinality = 0 := by
    rw [JavaBitSet.cardinality, length_eq_zero_iff, ← List.isEmpty_iff]
    simpa [JavaBitSet.isEmpty] using hne
  have hpos : ¬ (position : Int) < 0 := by omega
  have hlead : ((s.newLead shift : Nat) : Int) = max 0 (s.selectedIndex + shift) := by
    rw [newLead]
    omega
  rw [shiftSelection, if_neg hpos, if_neg hshift, if_neg hcard, Int.toNat_natCast, hlead]
  dsimp only
  by_cases hat : (position : Int) ≤ s.selectedIndex
  · have hat' : (position : Int) ≤ s.selectedIndex ∧ -1 < s.selectedIndex := ⟨hat, by omega⟩
    rw [if_pos hat', if_pos hat]
    by_cases hnotes : (shiftBits s.selectedIndices position shift).2 = []
    · rw [if_pos hnotes, hnotes]
      exact ⟨_, rfl⟩
    · rw [if_neg hnotes, List.isEmpty_eq_false_iff.2 hnotes]
      exact ⟨_, rfl⟩
  · have hat' : ¬ ((position : Int) ≤ s.selectedIndex ∧ -1 < s.selectedIndex) := fun h => hat h.1
    rw [if_neg hat', if_neg hat]
    by_cases hnotes : (shiftBits s.selectedIndices position shift).2 = []
    · rw [hnotes]
      exact ⟨_, rfl⟩
    · rw [List.isEmpty_eq_false_iff.2 hnotes]
      exact ⟨_, rfl⟩

theorem shiftSelection_below (hlead : ¬ (position : Int) ≤ s.selectedIndex) :
    (s.shiftSelection equals position shift).selectedIndices.bit j = true ↔
      (shiftBits s.selectedIndices position shift).1.bit j = true := by
  obtain ⟨fired, h⟩ := shiftSelection_eq equals hshift hne
  rw [h, if_neg hlead]

theorem shiftSelection_moves
    (hlead : (position : Int) ≤ s.selectedIndex) (hmoves : s.Moves position shift) :
    (s.shiftSelection equals position shift).selectedIndices.bit j = true ↔
      j = s.newLead shift ∨ (shiftBits s.selectedIndices position shift).1.bit j = true := by
  obtain ⟨fired, h⟩ := shiftSelection_eq equals hshift hne
  have hnotes : ¬ (shiftBits s.selectedIndices position shift).2 = [] := fun hnil =>
    (shiftBits_notes hshift).1 hnil hmoves
  rw [h, if_pos hlead, if_neg hnotes]
  simp [setBit, shiftedBits]

theorem shiftSelection_selects
    (hlead : (position : Int) ≤ s.selectedIndex) (hmoves : ¬ s.Moves position shift) :
    (s.shiftSelection equals position shift).selectedIndices.bit j = true ↔
      (s.Replaced position shift ∧ j = s.newLead shift) ∨
        (¬ s.Replaced position shift ∧ (s.Stays position shift j ∨
          (s.newLead shift < s.getItemCount ∧ j = s.newLead shift))) := by
  obtain ⟨fired, h⟩ := shiftSelection_eq equals hshift hne
  have hnotes := (shiftBits_notes hshift).2 hmoves
  have hstays : ∀ i, (s.shiftedBits position shift (s.newLead shift)).selectedIndices.bit i = true ↔
      s.Stays position shift i := by
    intro i
    rw [← shiftBits_stays hshift hmoves, shiftedBits, setSelectedIndex_selectedIndices]
  rw [h, if_pos hlead, if_pos hnotes]
  show ((s.shiftedBits position shift (s.newLead shift)).select equals
    (s.newLead shift)).selectedIndices.bit j = true ↔ _
  set t := s.shiftedBits position shift (s.newLead shift) with ht
  have hcnt : t.getItemCount = s.getItemCount := by rw [ht, shiftedBits, setSelectedIndex_eq]; rfl
  have hmode : t.selectionMode = s.selectionMode := by rw [ht, shiftedBits, setSelectedIndex_eq]
  by_cases hin : s.newLead shift < s.getItemCount
  · rw [select_eq equals (by omega) (by rw [hcnt]; omega)]
    show (t.bitsWith _).bit j = true ↔ _
    rw [bit_bitsWith, Int.toNat_natCast, hstays, hstays, hmode]
    have hrep : s.Replaced position shift ↔
        s.selectionMode = .single ∧ ¬ s.Stays position shift (s.newLead shift) :=
      ⟨fun h => ⟨h.1, h.2.2.2.2⟩, fun h => ⟨h.1, hlead, hmoves, hin, h.2⟩⟩
    rw [hrep]
    tauto
  · have hrep : ¬ s.Replaced position shift := fun h => hin h.2.2.2.1
    rw [select_of_not equals (by omega) (by rw [hcnt]; omega), hstays]
    simp [hrep, hin]

end

/-- The selection is shifted as it should be exactly when `ShiftsRight` holds. -/
theorem shiftSelection_iff (s : MultipleSelectionModelBase T) (position : Nat) (shift : Int)
    (hshift : shift ≠ 0) :
    (∀ j, (s.shiftSelection equals position shift).selectedIndices.bit j = true ↔
        s.ShiftedTo position shift j) ↔ s.ShiftsRight position shift := by
  have hplace := fun j => @shiftBits_iff_moved _ s position _ j hshift
  have hlead : ∀ j : Nat, (j : Int) = max 0 (s.selectedIndex + shift) ↔ j = s.newLead shift := by
    intro j
    rw [newLead]
    omega
  simp only [ShiftedTo, hlead]
  cases hemp : s.selectedIndices.isEmpty with
  | true =>
    -- nothing is selected, and nothing happens
    have hnone := JavaBitSet.isEmpty_iff.1 hemp
    have hmoved : ∀ j, ¬ s.Moved position shift j := by
      rintro j (⟨-, hj⟩ | ⟨r, hr, -⟩)
      · rw [hnone j] at hj
        cases hj
      · rw [hnone r] at hr
        cases hr
    rw [shiftSelection_of_empty equals hemp]
    constructor
    · intro h
      refine ⟨fun _ => ?_, fun _ j hj => ?_, fun hne => ?_, fun hne => ?_⟩
      · by_contra hat
        have hbit := (h (s.newLead shift)).2 (.inr ⟨by omega, rfl⟩)
        rw [hnone] at hbit
        cases hbit
      · rcases hj.2 with ⟨-, -, hne⟩ | ⟨hbit, -⟩
        · exact absurd ((hnone 0).trans (hnone _).symm) hne
        · rw [hnone] at hbit
          cases hbit
      · rw [hemp] at hne
        cases hne
      · rw [hemp] at hne
        cases hne
    · intro h j
      refine iff_of_false (by rw [hnone]; exact Bool.false_ne_true) ?_
      rintro (hj | ⟨hat, -⟩)
      · exact hmoved j hj
      · have hlt := h.empty hemp
        omega
  | false =>
    have hsome : ¬ s.selectedIndices.isEmpty = true := by simp [hemp]
    by_cases hat : (position : Int) ≤ s.selectedIndex
    · by_cases hmoves : s.Moves position shift
      · -- the lead is set whatever the loops have done there
        have hrep : ¬ s.Replaced position shift := fun h => h.2.2.1 hmoves
        have heach : ∀ j, ((s.shiftSelection equals position shift).selectedIndices.bit j = true ↔
            s.Moved position shift j ∨ (position : Int) ≤ s.selectedIndex ∧ j = s.newLead shift) ↔
            (s.Misplaced position shift j → j = s.newLead shift) := by
          intro j
          rw [shiftSelection_moves equals hshift hemp hat hmoves]
          by_cases hj : j = s.newLead shift
          · simp [hj, hat]
          · simp only [hj, false_or, and_false, or_false, imp_false]
            exact hplace j
        rw [forall_congr' heach]
        exact ⟨fun h => ⟨fun h' => absurd h' hsome, fun _ j hj => ⟨hat, h j hj⟩,
          fun _ _ h' => absurd hmoves h', fun _ h' => absurd h' hrep⟩,
          fun h j hj => (h.placed hrep j hj).2⟩
      · have hselects := fun j => shiftSelection_selects (j := j) equals hshift hemp hat hmoves
        by_cases hrep : s.Replaced position shift
        · have heach : ∀ j, ((s.shiftSelection equals position shift).selectedIndices.bit j = true ↔
              s.Moved position shift j ∨ (position : Int) ≤ s.selectedIndex ∧ j = s.newLead shift) ↔
              (s.Moved position shift j → j = s.newLead shift) := by
            intro j
            rw [hselects]
            by_cases hj : j = s.newLead shift
            · simp [hj, hat, hrep]
            · simp [hj, hrep]
          rw [forall_congr' heach]
          exact ⟨fun h => ⟨fun h' => absurd h' hsome, fun h' => absurd hrep h',
            fun _ _ _ => .inl hrep.2.2.2.1, fun _ _ => h⟩, fun h => h.replaced hemp hrep⟩
        · have heach : ∀ j, ((s.shiftSelection equals position shift).selectedIndices.bit j = true ↔
              s.Moved position shift j ∨ (position : Int) ≤ s.selectedIndex ∧ j = s.newLead shift) ↔
              (s.Misplaced position shift j → j = s.newLead shift) ∧ (j = s.newLead shift →
                s.newLead shift < s.getItemCount ∨ s.Stays position shift (s.newLead shift)) := by
            intro j
            rw [hselects]
            by_cases hj : j = s.newLead shift
            · subst hj
              simp only [hat, hrep, true_and, false_or, not_false_eq_true, and_true,
                or_true, iff_true, implies_true, true_implies]
              exact or_comm
            · simp only [hj, hrep, false_or, not_false_eq_true, true_and, and_false,
                or_false, imp_false, false_implies, and_true]
              rw [← shiftBits_stays hshift hmoves]
              exact hplace j
          rw [forall_congr' heach]
          exact ⟨fun h => ⟨fun h' => absurd h' hsome, fun _ j hj => ⟨hat, (h j).1 hj⟩,
            fun _ _ _ => (h _).2 rfl, fun _ h' => absurd h' hrep⟩,
            fun h j => ⟨fun hj => (h.placed hrep j hj).2, fun _ => h.lead hemp hat hmoves⟩⟩
    · have hrep : ¬ s.Replaced position shift := fun h => hat h.2.1
      have heach : ∀ j, ((s.shiftSelection equals position shift).selectedIndices.bit j = true ↔
          s.Moved position shift j ∨ (position : Int) ≤ s.selectedIndex ∧ j = s.newLead shift) ↔
          ¬ s.Misplaced position shift j := by
        intro j
        rw [shiftSelection_below equals hshift hemp hat]
        simp only [hat, false_and, or_false]
        exact hplace j
      rw [forall_congr' heach]
      exact ⟨fun h => ⟨fun h' => absurd h' hsome, fun _ j hj => absurd hj (h j),
        fun _ h' => absurd h' hat, fun _ h' => absurd h' hrep⟩,
        fun h j hj => hat (h.placed hrep j hj).1⟩

end Result

/-- A model in multiple mode with the given rows selected, the last one being the lead. -/
def withSelected (itemCount : Nat) (rows : List Int) : MultipleSelectionModelBase Unit :=
  rows.foldl (fun s row => s.select (fun _ _ => true) row) (new .multiple (List.replicate itemCount none))

/-- A row is inserted at row 2. -/
theorem shiftSelection_iff_inserted : (1 : Int) ≠ 0 ∧
      ((∀ j, ((withSelected 10 [1, 5]).shiftSelection (fun _ _ => true) (2 : Nat) 1).selectedIndices.bit j = true ↔
        (withSelected 10 [1, 5]).ShiftedTo 2 1 j) ↔ (withSelected 10 [1, 5]).ShiftsRight 2 1) :=
  ⟨by decide, shiftSelection_iff _ _ 2 1 (by decide)⟩

/-- Row 1 is lost when row 0 is removed; row 63 stays. -/
theorem shiftSelection_fails :
    (¬ ∀ j, ((withSelected 10 [1, 5]).shiftSelection (fun _ _ => true) (0 : Nat) (-1)).selectedIndices.bit j = true ↔
        (withSelected 10 [1, 5]).ShiftedTo 0 (-1) j) ∧
      ¬ ∀ j, ((withSelected 70 [63, 5]).shiftSelection (fun _ _ => true) (60 : Nat) (-10)).selectedIndices.bit j = true ↔
        (withSelected 70 [63, 5]).ShiftedTo 60 (-10) j := by
  constructor
  · intro h
    have hrow := (h 0).2 (.inl (.inr ⟨1, by decide, by decide, by decide⟩))
    revert hrow
    decide +kernel
  · intro h
    have hrow : (withSelected 70 [63, 5]).ShiftedTo 60 (-10) 63 := (h 63).1 (by decide)
    have hlead : ¬ (60 : Int) ≤ (withSelected 70 [63, 5]).selectedIndex := by decide
    have hbit : (withSelected 70 [63, 5]).selectedIndices.bit 73 = false := by decide
    generalize withSelected 70 [63, 5] = s at hrow hlead hbit
    rcases hrow with (hrow | ⟨r, hr, -, hj⟩) | hrow
    · exact absurd hrow.1 (by decide)
    · obtain rfl : r = 73 := by omega
      rw [hbit] at hr
      cases hr
    · exact hlead hrow.1

end OpenJfx.Controls.MultipleSelectionModelBase
