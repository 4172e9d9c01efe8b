/-
  OpenJfx.Lib.ModifiedUtf8

  `writeUTF` and `readUTF` of the Java data streams.  A string is written as its UTF-16
  code units, each in one to three bytes, after the number of bytes as an unsigned
  `short`.

  A lone surrogate is no character of a `String` here, so `readUTF` refuses it where
  Java returns a string that contains it.
-/

import OpenJfx.Lib.DataStream

namespace OpenJfx.ModifiedUtf8

open OpenJfx.DataStream List

/-! ## Code units -/

/-- The UTF-16 code units of a character. -/
def codeUnits (c : Char) : List Nat :=
  if c.toNat < 0x10000 then [c.toNat]
  else [0xD800 + (c.toNat - 0x10000) / 0x400, 0xDC00 + (c.toNat - 0x10000) % 0x400]

/-- The characters of a list of code units. -/
def characters : List Nat → Option (List Char)
  | [] => some []
  | [u] => if 0xD800 ≤ u ∧ u < 0xE000 then none else some [Char.ofNat u]
  | u :: u' :: rest =>
    if 0xD800 ≤ u ∧ u < 0xDC00 then
      if 0xDC00 ≤ u' ∧ u' < 0xE000 then
        (characters rest).map (Char.ofNat (0x10000 + (u - 0xD800) * 0x400 + (u' - 0xDC00)) :: ·)
      else none
    else if 0xDC00 ≤ u ∧ u < 0xE000 then none
    else (characters (u' :: rest)).map (Char.ofNat u :: ·)

variable {u : Nat}

theorem characters_cons (h : u < 0xD800 ∨ 0xE000 ≤ u) (rest : List Nat) :
    characters (u :: rest) = (characters rest).map (Char.ofNat u :: ·) := by
  cases rest with
  | nil =>
    have hu : ¬ (0xD800 ≤ u ∧ u < 0xE000) := by omega
    simp [characters, hu]
  | cons u' rest =>
    have hu : ¬ (0xD800 ≤ u ∧ u < 0xDC00) := by omega
    have hu' : ¬ (0xDC00 ≤ u ∧ u < 0xE000) := by omega
    rw [characters, if_neg hu, if_neg hu']

theorem characters_codeUnits (c : Char) (rest : List Nat) :
    characters (codeUnits c ++ rest) = (characters rest).map (c :: ·) := by
  have hvalid : c.toNat < 0xD800 ∨ (0xDFFF < c.toNat ∧ c.toNat < 0x110000) := c.valid
  unfold codeUnits
  split
  · next h =>
    rw [cons_append, nil_append, characters_cons (by omega), Char.ofNat_toNat]
  · next h =>
    have hhigh : 0xD800 ≤ 0xD800 + (c.toNat - 0x10000) / 0x400 ∧
        0xD800 + (c.toNat - 0x10000) / 0x400 < 0xDC00 := by omega
    have hlow : 0xDC00 ≤ 0xDC00 + (c.toNat - 0x10000) % 0x400 ∧
        0xDC00 + (c.toNat - 0x10000) % 0x400 < 0xE000 := by omega
    have hval : 0x10000 + (0xD800 + (c.toNat - 0x10000) / 0x400 - 0xD800) * 0x400 +
        (0xDC00 + (c.toNat - 0x10000) % 0x400 - 0xDC00) = c.toNat := by omega
    simp only [cons_append, nil_append, characters, if_pos hhigh, if_pos hlow, hval,
      Char.ofNat_toNat]

theorem characters_flatMap (cs : List Char) : characters (cs.flatMap codeUnits) = some cs := by
  induction cs with
  | nil => rfl
  | cons c cs ih => rw [flatMap_cons, characters_codeUnits, ih, Option.map_some]

/-! ## Bytes -/

def encodeUnit (u : Nat) : List UInt8 :=
  if 1 ≤ u ∧ u ≤ 0x7F then [UInt8.ofNat u]
  else if u ≤ 0x7FF then [UInt8.ofNat (0xC0 + u / 64), UInt8.ofNat (0x80 + u % 64)]
  else [UInt8.ofNat (0xE0 + u / 4096), UInt8.ofNat (0x80 + u / 64 % 64),
    UInt8.ofNat (0x80 + u % 64)]

/-- The loop of `readUTF`. -/
def decodeUnits : List UInt8 → Option (List Nat)
  | [] => some []
  | [b] => if b.toNat / 128 = 0 then some [b.toNat] else none
  | [b, b'] =>
    if b.toNat / 128 = 0 then (decodeUnits [b']).map (b.toNat :: ·)
    else if b.toNat / 32 = 6 ∧ b'.toNat / 64 = 2 then
      some [b.toNat % 32 * 64 + b'.toNat % 64]
    else none
  | b :: b' :: b'' :: rest =>
    if b.toNat / 128 = 0 then (decodeUnits (b' :: b'' :: rest)).map (b.toNat :: ·)
    else if b.toNat / 32 = 6 ∧ b'.toNat / 64 = 2 then
      (decodeUnits (b'' :: rest)).map ((b.toNat % 32 * 64 + b'.toNat % 64) :: ·)
    else if b.toNat / 16 = 14 ∧ b'.toNat / 64 = 2 ∧ b''.toNat / 64 = 2 then
      (decodeUnits rest).map ((b.toNat % 16 * 4096 + b'.toNat % 64 * 64 + b''.toNat % 64) :: ·)
    else none

theorem decodeUnits_one {b : UInt8} (h : b.toNat < 128) (rest : List UInt8) :
    decodeUnits (b :: rest) = (decodeUnits rest).map (b.toNat :: ·) := by
  have hb : b.toNat / 128 = 0 := by omega
  match rest with
  | [] | [b'] => simp [decodeUnits, hb]
  | b' :: b'' :: rest => rw [decodeUnits, if_pos hb]

theorem decodeUnits_two {b b' : UInt8} (h : b.toNat / 32 = 6) (h' : b'.toNat / 64 = 2)
    (rest : List UInt8) :
    decodeUnits (b :: b' :: rest) =
      (decodeUnits rest).map ((b.toNat % 32 * 64 + b'.toNat % 64) :: ·) := by
  have hb : ¬ b.toNat / 128 = 0 := by omega
  match rest with
  | [] => simp [decodeUnits, hb, h, h']
  | b'' :: rest => rw [decodeUnits, if_neg hb, if_pos ⟨h, h'⟩]

theorem decodeUnits_three {b b' b'' : UInt8} (h : b.toNat / 16 = 14) (h' : b'.toNat / 64 = 2)
    (h'' : b''.toNat / 64 = 2) (rest : List UInt8) :
    decodeUnits (b :: b' :: b'' :: rest) =
      (decodeUnits rest).map
        ((b.toNat % 16 * 4096 + b'.toNat % 64 * 64 + b''.toNat % 64) :: ·) := by
  have hb : ¬ b.toNat / 128 = 0 := by omega
  have hb' : ¬ (b.toNat / 32 = 6 ∧ b'.toNat / 64 = 2) := by omega
  rw [decodeUnits, if_neg hb, if_neg hb', if_pos ⟨h, h', h''⟩]

theorem decodeUnits_encodeUnit (hu : u < 0x10000) (rest : List UInt8) :
    decodeUnits (encodeUnit u ++ rest) = (decodeUnits rest).map (u :: ·) := by
  have hbyte : ∀ n, n < 256 → (UInt8.ofNat n).toNat = n := fun n hn => by
    simp [Nat.mod_eq_of_lt hn]
  unfold encodeUnit
  split
  · next h =>
    have hb := hbyte u (by omega)
    rw [cons_append, nil_append, decodeUnits_one (by omega), hb]
  · next h =>
    split
    · next h2 =>
      have hb := hbyte (0xC0 + u / 64) (by omega)
      have hb' := hbyte (0x80 + u % 64) (by omega)
      have hval : (0xC0 + u / 64) % 32 * 64 + (0x80 + u % 64) % 64 = u := by omega
      rw [cons_append, cons_append, nil_append,
        decodeUnits_two (by omega) (by omega), hb, hb', hval]
    · next h3 =>
      have hb := hbyte (0xE0 + u / 4096) (by omega)
      have hb' := hbyte (0x80 + u / 64 % 64) (by omega)
      have hb'' := hbyte (0x80 + u % 64) (by omega)
      have hval : (0xE0 + u / 4096) % 16 * 4096 + (0x80 + u / 64 % 64) % 64 * 64 +
          (0x80 + u % 64) % 64 = u := by omega
      rw [cons_append, cons_append, cons_append, nil_append,
        decodeUnits_three (by omega) (by omega) (by omega), hb, hb', hb'', hval]

theorem decodeUnits_flatMap {us : List Nat} (hus : ∀ u ∈ us, u < 0x10000) :
    decodeUnits (us.flatMap encodeUnit) = some us := by
  induction us with
  | nil => rfl
  | cons u us ih =>
    rw [flatMap_cons, decodeUnits_encodeUnit (hus u mem_cons_self),
      ih fun u' hu' => hus u' (mem_cons_of_mem u hu'), Option.map_some]

theorem codeUnits_lt {c : Char} (hu : u ∈ codeUnits c) : u < 0x10000 := by
  have hvalid : c.toNat < 0xD800 ∨ (0xDFFF < c.toNat ∧ c.toNat < 0x110000) := c.valid
  unfold codeUnits at hu
  split at hu
  · next h =>
    rw [mem_singleton] at hu
    omega
  · next h =>
    simp only [mem_cons, not_mem_nil, or_false] at hu
    omega

/-! ## Strings -/

/-- The bytes of a string, without their number. -/
def utfBytes (s : String) : List UInt8 := (s.toList.flatMap codeUnits).flatMap encodeUnit

/-- `UTFDataFormatException` when the bytes cannot be counted in 16 bits. -/
def writeUTF (s : String) : Except Throwable (List UInt8) :=
  if (utfBytes s).length ≤ 65535 then
    .ok (bigEndian 2 (utfBytes s).length ++ utfBytes s)
  else .error .io

def readUTF : DataInput String := do
  let n ← readUnsigned 2
  let bytes ← readFully n
  match (decodeUnits bytes).bind characters with
  | some cs => return String.ofList cs
  | none => throw .io

theorem decode_utfBytes (s : String) :
    (decodeUnits (utfBytes s)).bind characters = some s.toList := by
  have hunits : decodeUnits (utfBytes s) = some (s.toList.flatMap codeUnits) := by
    apply decodeUnits_flatMap
    intro u hu
    obtain ⟨c, _, hc⟩ := mem_flatMap.1 hu
    exact codeUnits_lt hc
  rw [hunits, Option.bind_some, characters_flatMap]

theorem decodes_readUTF {s : String} {bytes : List UInt8} (h : writeUTF s = .ok bytes) :
    Decodes readUTF bytes s := by
  unfold writeUTF at h
  split at h
  · next hle =>
    cases h
    have hn : (utfBytes s).length % 256 ^ 2 = (utfBytes s).length := Nat.mod_eq_of_lt (by omega)
    have hcnt := Decodes.readUnsigned 2 (utfBytes s).length
    rw [hn] at hcnt
    refine hcnt.bind ((Decodes.readFully rfl).map ?_)
    rw [decode_utfBytes]
    show Decodes (pure (String.ofList s.toList)) [] s
    rw [String.ofList_toList]
    exact Decodes.pure s
  · cases h

end OpenJfx.ModifiedUtf8
