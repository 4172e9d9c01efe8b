/-
  OpenJfx.Iio.Bytes

  Byte arrays and `int` arithmetic of the image loaders.
-/

import Mathlib.Tactic.Ring

namespace OpenJfx.Iio

open Int

variable {buf : List UInt8}

/-- What reading throws. -/
inductive Failure where
  | eof
  | negativeArraySize
  | arrayIndexOutOfBounds
  deriving DecidableEq, Repr

/-- The value of an `int` computation. -/
def toInt (n : Int) : Int := n.bmod (2 ^ 32)

/-- An unsigned byte; the end of the buffer throws. -/
def getByte (buf : List UInt8) (pos : Nat) : Except Failure Nat :=
  match buf[pos]? with
  | some b => .ok b.toNat
  | none => .error .arrayIndexOutOfBounds

def arrayLoad (buf : List UInt8) (index : Nat) : Except Failure UInt8 :=
  match buf[index]? with
  | some b => .ok b
  | none => .error .arrayIndexOutOfBounds

def arrayStore (buf : List UInt8) (index : Int) (b : UInt8) : Except Failure (List UInt8) :=
  if 0 ≤ index ∧ index < buf.length then .ok (buf.set index.toNat b)
  else .error .arrayIndexOutOfBounds

@[simp] theorem ok_bind {α β : Type} (a : α) (f : α → Except Failure β) :
    (Except.ok a >>= f) = f a := rfl

theorem bind_eq_ok {α β : Type} {x : Except Failure α} {f : α → Except Failure β} {b : β}
    (h : x >>= f = .ok b) : ∃ a, x = .ok a ∧ f a = .ok b := by
  cases x with
  | error e => cases h
  | ok a => exact ⟨a, rfl, h⟩

theorem toInt_toInt_add (a b : Int) : toInt (toInt a + b) = toInt (a + b) := bmod_add_bmod ..

theorem toInt_toInt_mul (a b : Int) : toInt (toInt a * b) = toInt (a * b) := bmod_mul_bmod ..

theorem toInt_add_toInt (a b : Int) : toInt (a + toInt b) = toInt (a + b) := add_bmod_bmod ..

theorem getByte_of_getElem? {pos : Nat} {b : UInt8} (h : buf[pos]? = some b) :
    getByte buf pos = .ok b.toNat := by
  rw [getByte, h]

theorem toInt_lt (n : Int) : toInt n < 2 ^ 31 := by
  rw [toInt, bmod_def]
  split
  · omega
  · omega

theorem toInt_of_lt {n : Nat} (h : n < 2 ^ 31) : toInt n = n := by
  rw [toInt, bmod_def]
  omega

theorem arrayStore_of_lt {index : Nat} (h : index < buf.length) (b : UInt8) :
    arrayStore buf index b = .ok (buf.set index b) :=
  if_pos ⟨natCast_nonneg index, ofNat_lt.mpr h⟩

theorem arrayLoad_of_lt {index : Nat} (h : index < buf.length) :
    arrayLoad buf index = .ok ((buf[index]?).getD 0) := by
  rw [arrayLoad, List.getElem?_eq_getElem h]
  rfl

end OpenJfx.Iio
