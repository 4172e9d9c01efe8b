/-
  OpenJfx.Lib.DataStream

  The integers of `DataOutputStream` and `DataInputStream`.  The writers are lists of bytes, the
  readers a state monad over the bytes left.  `Decodes r bs a`: `r` reads exactly `bs` and returns
  `a`.  `Yields r P`: whatever `r` returns has `P`.  Both go through a reader bind by bind.
-/

import OpenJfx.Lib.JavaM
import Mathlib.Data.Int.ModEq

namespace OpenJfx.DataStream

open Int DataStream

/-- What stops a reader or a writer. -/
inductive Throwable where
  | io
  | exception (e : JavaException)
  | classCast
  | internalError
  | outOfMemory
  | stackOverflow
  deriving DecidableEq, Repr

/-! ## Output -/

/-- The low `width` bytes of `n`, the most significant one first. -/
def bigEndian : Nat → Nat → List UInt8
  | 0, _ => []
  | width + 1, n => UInt8.ofNat (n / 256 ^ width) :: bigEndian width n

@[simp] theorem bigEndian_length (width n : Nat) : (bigEndian width n).length = width := by
  induction width with
  | zero => rfl
  | succ width ih => simp [bigEndian, ih]

def writeByte (v : Int) : List UInt8 := bigEndian 1 (v % 2 ^ 8).toNat

def writeShort (v : Int) : List UInt8 := bigEndian 2 (v % 2 ^ 16).toNat

def writeInt (v : Int) : List UInt8 := bigEndian 4 (v % 2 ^ 32).toNat

def writeLong (v : BitVec 64) : List UInt8 := bigEndian 8 v.toNat

def writeBoolean (v : Bool) : List UInt8 := writeByte (if v then 1 else 0)

@[simp] theorem writeByte_length (v : Int) : (writeByte v).length = 1 := bigEndian_length ..

@[simp] theorem writeShort_length (v : Int) : (writeShort v).length = 2 := bigEndian_length ..

@[simp] theorem writeInt_length (v : Int) : (writeInt v).length = 4 := bigEndian_length ..

@[simp] theorem writeBoolean_length (v : Bool) : (writeBoolean v).length = 1 := bigEndian_length ..

/-! ## Input -/

/-- A reader. -/
abbrev DataInput (α : Type) := StateT (List UInt8) (Except Throwable) α

/-- The next byte; `EOFException` when there is none. -/
def read : DataInput UInt8 := fun bytes =>
  match bytes with
  | [] => .error .io
  | b :: bytes => .ok (b, bytes)

/-- So many bytes, the highest first. -/
def readUnsigned : Nat → DataInput Nat
  | 0 => pure 0
  | width + 1 => do
    let b ← read
    let n ← readUnsigned width
    return b.toNat * 256 ^ width + n

def readByte : DataInput Int := do
  let n ← readUnsigned 1
  return (n : Int).bmod (2 ^ 8)

def readShort : DataInput Int := do
  let n ← readUnsigned 2
  return (n : Int).bmod (2 ^ 16)

def readInt : DataInput Int := do
  let n ← readUnsigned 4
  return (n : Int).bmod (2 ^ 32)

def readLong : DataInput (BitVec 64) := do
  let n ← readUnsigned 8
  return BitVec.ofNat 64 n

def readBoolean : DataInput Bool := do
  let b ← readByte
  return b ≠ 0

/-- `readFully` of a buffer of `n` bytes. -/
def readFully (n : Nat) : DataInput (List UInt8) := fun bytes =>
  if n ≤ bytes.length then .ok (bytes.take n, bytes.drop n) else .error .io

/-- A loop that reads `n` elements. -/
def readMany {α : Type} (r : DataInput α) : Nat → DataInput (List α)
  | 0 => pure []
  | n + 1 => do
    let a ← r
    let as ← readMany r n
    return a :: as

variable {α β : Type}

/-! ## What is read back -/

/-- `r` reads exactly `bs` and returns `a`. -/
def Decodes (r : DataInput α) (bs : List UInt8) (a : α) : Prop :=
  ∀ rest, r.run (bs ++ rest) = .ok (a, rest)

variable {r : DataInput α} {f : α → DataInput β} {bs : List UInt8} {n : Nat}

namespace Decodes

theorem pure (a : α) : Decodes (Pure.pure a) [] a := fun _ => rfl

theorem bind {bs' : List UInt8} {a : α} {b : β}
    (h1 : Decodes r bs a) (h2 : Decodes (f a) bs' b) : Decodes (r >>= f) (bs ++ bs') b := by
  intro rest
  rw [List.append_assoc, StateT.run_bind, h1]
  exact h2 rest

theorem map {a : α} {b : β}
    (h1 : Decodes r bs a) (h2 : Decodes (f a) [] b) : Decodes (r >>= f) bs b := by
  have h := h1.bind h2
  rwa [List.append_nil] at h

theorem read (b : UInt8) : Decodes DataStream.read [b] b := fun _ => rfl

theorem readUnsigned (width n : Nat) :
    Decodes (DataStream.readUnsigned width) (bigEndian width n) (n % 256 ^ width) := by
  induction width with
  | zero =>
    rw [pow_zero, Nat.mod_one]
    exact Decodes.pure 0
  | succ width ih =>
    have hval : (UInt8.ofNat (n / 256 ^ width)).toNat * 256 ^ width + n % 256 ^ width =
        n % 256 ^ (width + 1) := by
      have hbyte : (UInt8.ofNat (n / 256 ^ width)).toNat = n / 256 ^ width % 256 := by
        simp
      rw [hbyte, pow_succ, Nat.mod_mul, Nat.mul_comm, Nat.add_comm]
    rw [← hval]
    exact (Decodes.read _).bind (ih.map (Decodes.pure _))

theorem signed (width : Nat) (v : Int) {r : DataInput Int}
    (hr : r = DataStream.readUnsigned width >>= fun n =>
      Pure.pure ((n : Int).bmod (256 ^ width))) :
    Decodes r (bigEndian width (v % 256 ^ width).toNat) (v.bmod (256 ^ width)) := by
  have hpos : (0 : Int) < 256 ^ width := Int.pow_pos (by decide)
  have hnat : (((v % 256 ^ width).toNat % 256 ^ width : Nat) : Int) = v % 256 ^ width := by
    rw [natCast_mod, toNat_of_nonneg (emod_nonneg v hpos.ne')]
    push_cast
    exact emod_emod_of_dvd v (dvd_refl _)
  have hmod : (((v % 256 ^ width).toNat % 256 ^ width : Nat) : Int).bmod (256 ^ width) =
      v.bmod (256 ^ width) := by
    rw [hnat]
    have hcast : ((256 : Int) ^ width) = ((256 ^ width : Nat) : Int) := by push_cast; rfl
    rw [hcast, emod_bmod]
  rw [hr, ← hmod]
  exact (Decodes.readUnsigned width _).map (Decodes.pure _)

theorem readByte (v : Int) : Decodes DataStream.readByte (writeByte v) (v.bmod (2 ^ 8)) :=
  signed 1 v rfl

theorem readShort (v : Int) : Decodes readShort (writeShort v) (v.bmod (2 ^ 16)) := signed 2 v rfl

theorem readInt (v : Int) : Decodes readInt (writeInt v) (v.bmod (2 ^ 32)) := signed 4 v rfl

theorem readLong (v : BitVec 64) : Decodes DataStream.readLong (writeLong v) v := by
  have h := (Decodes.readUnsigned 8 v.toNat).map (f := fun n =>
    (Pure.pure (BitVec.ofNat 64 n) : DataInput (BitVec 64))) (Decodes.pure _)
  have hlt : v.toNat < 256 ^ 8 := v.isLt
  rw [Nat.mod_eq_of_lt hlt, BitVec.ofNat_toNat, BitVec.setWidth_eq] at h
  exact h

theorem readBoolean (v : Bool) : Decodes DataStream.readBoolean (writeBoolean v) v := by
  cases v with
  | false => exact (readByte 0).map (Decodes.pure false)
  | true => exact (readByte 1).map (Decodes.pure true)

theorem readFully (hn : bs.length = n) :
    Decodes (readFully n) bs bs := by
  intro rest
  subst hn
  simp [readFully, StateT.run]

end Decodes

theorem bmod_short (h : n < 2 ^ 15) : (n : Int).bmod (2 ^ 16) = n := by
  rw [bmod_def]
  omega

theorem bmod_int (h : n < 2 ^ 31) : (n : Int).bmod (2 ^ 32) = n := by
  rw [bmod_def]
  omega

/-! ## What can be read at all -/

theorem run_bind_eq_ok {bytes : List UInt8} {b : β}
    {rest : List UInt8} (h : (r >>= f).run bytes = .ok (b, rest)) :
    ∃ a bytes', r.run bytes = .ok (a, bytes') ∧ (f a).run bytes' = .ok (b, rest) := by
  rw [StateT.run_bind] at h
  cases hr : r.run bytes with
  | error e =>
    rw [hr] at h
    cases h
  | ok result =>
    rw [hr] at h
    exact ⟨result.1, result.2, rfl, h⟩

/-- Whatever `r` returns has the property `P`. -/
def Yields (r : DataInput α) (P : α → Prop) : Prop :=
  ∀ bytes a rest, r.run bytes = .ok (a, rest) → P a

namespace Yields

variable {P Q : α → Prop} {R : β → Prop}

theorem pure {a : α} (h : P a) : Yields (Pure.pure a) P := by
  intro bytes b rest hrun
  cases hrun
  exact h

theorem throw (e : Throwable) : Yields (MonadExcept.throw e : DataInput α) P := by
  intro bytes a rest hrun
  cases hrun

theorem bind (h1 : Yields r P) (h2 : ∀ a, P a → Yields (f a) R) : Yields (r >>= f) R := by
  intro bytes b rest hrun
  obtain ⟨a, bytes', hr, hf⟩ := run_bind_eq_ok hrun
  exact h2 a (h1 bytes a bytes' hr) bytes' b rest hf

theorem imp (h : Yields r P) (hPQ : ∀ a, P a → Q a) : Yields r Q :=
  fun bytes a rest hrun => hPQ a (h bytes a rest hrun)

theorem trivial (r : DataInput α) : Yields r fun _ => True := fun _ _ _ _ => True.intro

theorem skip (h : ∀ a, Yields (f a) R) : Yields (r >>= f) R := (trivial r).bind fun a _ => h a

theorem ite {c : Prop} [Decidable c] {r' : DataInput α} (h : c → Yields r P)
    (h' : ¬ c → Yields r' P) : Yields (if c then r else r') P := by
  split
  · next hc => exact h hc
  · next hc => exact h' hc

theorem readShort : Yields readShort fun v => v < 2 ^ 15 :=
  skip fun _ => pure (by rw [bmod_def]; split <;> omega)

theorem readInt : Yields readInt fun v => v < 2 ^ 31 :=
  skip fun _ => pure (by rw [bmod_def]; split <;> omega)

theorem readMany (h : Yields r P) (n : Nat) :
    Yields (DataStream.readMany r n) fun as => as.length = n ∧ ∀ a ∈ as, P a := by
  induction n with
  | zero => exact pure ⟨rfl, by simp⟩
  | succ n ih =>
    refine h.bind fun a ha => ih.bind fun as has => pure ⟨by simp [has.1], ?_⟩
    intro b hb
    rcases List.mem_cons.1 hb with rfl | hb
    · exact ha
    · exact has.2 b hb

end Yields

end OpenJfx.DataStream
