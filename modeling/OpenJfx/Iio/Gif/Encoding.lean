/-
  OpenJfx.Iio.Gif.Encoding

  What GIF image data is: palette indices cut into strings, each sent as a code of the table built
  since the last clear code.  The encoder's table is one entry ahead of the decoder's.  Codes are
  packed lowest bit first, and the bytes split into sub-blocks.
-/

import Mathlib.Data.Nat.Size
import OpenJfx.Iio.Gif.Basic

namespace OpenJfx.Iio.Gif

/-- What is sent before the end code. -/
inductive Item where
  | clear
  | data (code : Nat)
  deriving DecidableEq, Repr

/-! ## Codes -/

section Codes

variable (size : Nat)

/-- The code of the first entry behind the clear and the end code. -/
def firstEntry : Nat := 2 ^ size + 2

/-- The string of a code: an index, or an entry. -/
def codeString (entries : List (List UInt8)) (code : Nat) : Option (List UInt8) :=
  if code < 2 ^ size then some [UInt8.ofNat code]
  else if code < firstEntry size then none
  else entries[code - firstEntry size]?

/-- The table with one more; a full one stays. -/
def enter (entries : List (List UInt8)) (string rest : List UInt8) : List (List UInt8) :=
  match rest with
  | [] => entries
  | next :: _ =>
    if firstEntry size + entries.length < tableSize then entries ++ [string ++ [next]] else entries

/-- The items may be sent, and the table cleared. -/
inductive Encodes : (entries : List (List UInt8)) → (sequence : List UInt8) → List Item → Prop where
  | done {entries : List (List UInt8)} : Encodes entries [] []
  | clear {entries : List (List UInt8)} {sequence : List UInt8} {items : List Item}
      (h : Encodes [] sequence items) : Encodes entries sequence (.clear :: items)
  | data {entries : List (List UInt8)} {string rest : List UInt8} {code : Nat} {items : List Item}
      (hcode : codeString size entries code = some string)
      (h : Encodes (enter size entries string rest) rest items) :
      Encodes entries (string ++ rest) (.data code :: items)

/-- The width of the next code after `sent` codes. -/
def codeWidth (sent : Nat) : Nat := min 12 (Nat.size (firstEntry size + (sent - 1)))

/-- The bits of the items and of the end code behind them. -/
def itemBits : (sent : Nat) → List Item → List Bool
  | sent, [] => natBits (codeWidth size sent) (2 ^ size + 1)
  | sent, .clear :: items => natBits (codeWidth size sent) (2 ^ size) ++ itemBits 0 items
  | sent, .data code :: items => natBits (codeWidth size sent) code ++ itemBits (sent + 1) items

end Codes

/-! ## Bytes -/

/-- The lowest bit comes first. -/
def byteBits (bytes : List UInt8) : List Bool := bytes.flatMap fun b => natBits 8 b.toNat

/-- The sub-blocks of GIF data, each behind its length. -/
def blockBytes (blocks : List (List UInt8)) : List UInt8 :=
  blocks.flatMap fun block => UInt8.ofNat block.length :: block

/-- The code size, and sub-blocks with the codes. -/
structure ImageData (size : Nat) (items : List Item) where
  blocks : List (List UInt8)
  padding : List Bool
  behind : List UInt8
  length_blocks : ∀ block ∈ blocks, 1 ≤ block.length ∧ block.length ≤ 255
  bits : byteBits blocks.flatten = itemBits size 0 (.clear :: items) ++ padding

/-- The code size, the blocks and their terminator. -/
def ImageData.bytes {size : Nat} {items : List Item} (data : ImageData size items) : List UInt8 :=
  UInt8.ofNat size :: (blockBytes data.blocks ++ data.behind)

/-! ## What the decoder gets right -/

/-- `cleared`: the last code was a clear code. -/
def NoClearTwice : (cleared : Bool) → List Item → Prop
  | _, [] => True
  | cleared, .clear :: items => cleared = false ∧ NoClearTwice true items
  | _, .data _ :: items => NoClearTwice false items

/-- Every code but a first one finds room in the table. -/
def RoomForAll (size : Nat) : (sent : Nat) → List Item → Prop
  | _, [] => True
  | _, .clear :: items => RoomForAll size 0 items
  | sent, .data _ :: items =>
    firstEntry size + (sent - 1) < tableSize ∧ RoomForAll size (sent + 1) items

end OpenJfx.Iio.Gif
