/-
  OpenJfx.Lib.BitString

  Numbers as strings of bits, the lowest first.  A bit buffer that fills from
  above and is emptied from below is the number of its string: shifting right
  drops bits, masking takes them, and a byte is put in with a shift and an or.
-/

import Mathlib.Data.List.Basic
import Mathlib.Tactic.Ring

namespace OpenJfx

open Nat

/-- The number of a string of bits. -/
def ofBits : List Bool → Nat
  | [] => 0
  | b :: bits => b.toNat + 2 * ofBits bits

/-- The lowest `width` bits of a number. -/
def natBits : (width n : Nat) → List Bool
  | 0, _ => []
  | width + 1, n => (n % 2 == 1) :: natBits width (n / 2)

@[simp] theorem length_natBits (width n : Nat) : (natBits width n).length = width := by
  induction width generalizing n with
  | zero => rfl
  | succ width ih => rw [natBits, List.length_cons, ih]

theorem ofBits_natBits {width n : Nat} (h : n < 2 ^ width) : ofBits (natBits width n) = n := by
  induction width generalizing n with
  | zero =>
    rw [Nat.pow_zero, lt_one_iff] at h
    exact h.symm
  | succ width ih =>
    rw [Nat.pow_succ] at h
    rw [natBits, ofBits, ih (by omega)]
    rcases mod_two_eq_zero_or_one n with hn | hn <;> rw [hn] <;> simp <;> omega

theorem ofBits_append (bits1 bits2 : List Bool) :
    ofBits (bits1 ++ bits2) = ofBits bits1 + 2 ^ bits1.length * ofBits bits2 := by
  induction bits1 with
  | nil => simp [ofBits]
  | cons b bits1 ih =>
    rw [List.cons_append, ofBits, ofBits, ih, List.length_cons, Nat.pow_succ]
    ring

theorem ofBits_lt (bits : List Bool) : ofBits bits < 2 ^ bits.length := by
  induction bits with
  | nil => exact Nat.one_pos
  | cons b bits ih =>
    have hb := Bool.toNat_lt b
    rw [ofBits, List.length_cons, Nat.pow_succ]
    omega

theorem ofBits_append_mod (bits1 bits2 : List Bool) :
    ofBits (bits1 ++ bits2) % 2 ^ bits1.length = ofBits bits1 := by
  rw [ofBits_append, add_mul_mod_self_left, mod_eq_of_lt (ofBits_lt bits1)]

theorem ofBits_append_div (bits1 bits2 : List Bool) :
    ofBits (bits1 ++ bits2) / 2 ^ bits1.length = ofBits bits2 := by
  rw [ofBits_append, add_mul_div_left _ _ (Nat.two_pow_pos _),
    div_eq_of_lt (ofBits_lt bits1), Nat.zero_add]

theorem ofBits_or_shiftLeft (bits : List Bool) {width n : Nat} (h : n < 2 ^ width) :
    ofBits bits ||| n <<< bits.length = ofBits (bits ++ natBits width n) := by
  rw [ofBits_append, ofBits_natBits h, Nat.or_comm, ← shiftLeft_add_eq_or_of_lt (ofBits_lt bits),
    shiftLeft_eq]
  ring

end OpenJfx
