/-
  OpenJfx.Iio.Bmp.Basic

  Run-length encoded bitmaps (`BMPImageLoader.readRLE`).

  The loop keeps the place it writes to as a line and an offset into the image
  bytes.  Both are `int`s, and offsets are not checked before the array store.
-/

import OpenJfx.Iio.Bytes

namespace OpenJfx.Iio.Bmp

/-! ## The loader -/

/-- What `readRLE` reads of `BMPImageLoader` and its `BitmapInfoHeader`. -/
structure BMPImageLoader where
  bfSize : Int
  bfOffBits : Int
  bgraPalette : List UInt8
  biHeight : Int
  biSizeImage : Int

/-- `setRGBFromPalette`: the image and the offset behind the pixel. -/
def setRGBFromPalette (bgraPalette image : List UInt8) (dstOffset : Int) (index : Nat) :
    Except Failure (List UInt8 × Int) := do
  let index := index * 4
  let image ← arrayStore image dstOffset (← arrayLoad bgraPalette (index + 2))
  let dstOffset := toInt (dstOffset + 1)
  let image ← arrayStore image dstOffset (← arrayLoad bgraPalette (index + 1))
  let dstOffset := toInt (dstOffset + 1)
  let image ← arrayStore image dstOffset (← arrayLoad bgraPalette index)
  let dstOffset := toInt (dstOffset + 1)
  return (image, dstOffset)

/-- The variables of `readRLE` that its loop changes. -/
structure Cursor where
  i : Nat
  line : Int
  dstOffset : Int
  image : List UInt8

section Loop

variable (bgraPalette imgData : List UInt8) (isRLE4 : Bool)

/-- Pixel `p`, the position behind it and a shared byte. -/
def readIndex (p indexData i : Nat) : Except Failure (Nat × Nat × Nat) :=
  if isRLE4 then
    if p &&& 1 = 0 then do
      let indexData ← getByte imgData i
      return (i + 1, indexData, (indexData &&& 0xf0) >>> 4)
    else return (i, indexData, indexData &&& 0x0f)
  else do
    let index ← getByte imgData i
    return (i + 1, indexData, index)

/-- The loop over the pixels of an absolute run, from pixel `p` on. -/
def absoluteLoop : (remaining p indexData : Nat) → Cursor → Except Failure Cursor
  | 0, _, _, cursor => .ok cursor
  | remaining + 1, p, indexData, cursor => do
    let (i, indexData, index) ← readIndex imgData isRLE4 p indexData cursor.i
    let (image, dstOffset) ← setRGBFromPalette bgraPalette cursor.image cursor.dstOffset index
    absoluteLoop remaining (p + 1) indexData { cursor with i, dstOffset, image }

/-- The loop over the pixels of an encoded run. -/
def encodedLoop (b2 : Nat) : (remaining p : Nat) → Cursor → Except Failure Cursor
  | 0, _, cursor => .ok cursor
  | remaining + 1, p, cursor => do
    let index :=
      if isRLE4 then
        if p &&& 1 = 0 then (b2 &&& 0xf0) >>> 4 else b2 &&& 0x0f
      else b2
    let (image, dstOffset) ← setRGBFromPalette bgraPalette cursor.image cursor.dstOffset index
    encodedLoop b2 remaining (p + 1) { cursor with dstOffset, image }

/-- One turn of the loop of `readRLE`; none at the end of the bitmap. -/
def readCommand (rowLength : Int) (isBottomUp : Bool) (cursor : Cursor) :
    Except Failure (Option Cursor) := do
  let b1 ← getByte imgData cursor.i
  let b2 ← getByte imgData (cursor.i + 1)
  let cursor := { cursor with i := cursor.i + 2 }
  if b1 = 0 then
    match b2 with
    | 0 =>
      let line := toInt (cursor.line + if isBottomUp then -1 else 1)
      return some { cursor with line, dstOffset := toInt (line * rowLength) }
    | 1 => return none
    | 2 =>
      let deltaX ← getByte imgData cursor.i
      let deltaY ← getByte imgData (cursor.i + 1)
      let line := toInt (cursor.line + deltaY)
      let dstOffset := toInt (cursor.dstOffset + toInt (deltaY * rowLength))
      let dstOffset := toInt (dstOffset + deltaX * 3)
      return some { cursor with i := cursor.i + 2, line, dstOffset }
    | _ =>
      let cursor ← absoluteLoop bgraPalette imgData isRLE4 b2 0 0 cursor
      let padded := if isRLE4 then b2 &&& 3 = 1 ∨ b2 &&& 3 = 2 else b2 &&& 1 = 1
      return some { cursor with i := if padded then cursor.i + 1 else cursor.i }
  else
    return some (← encodedLoop bgraPalette isRLE4 b2 b1 0 cursor)

/-- The loop of `readRLE`. Every turn reads two bytes at least. -/
def readLoop (rowLength : Int) (isBottomUp : Bool) :
    (fuel : Nat) → Cursor → Except Failure (List UInt8)
  | 0, cursor => .ok cursor.image
  | fuel + 1, cursor =>
    if cursor.i < imgData.length then do
      match ← readCommand bgraPalette imgData isRLE4 rowLength isBottomUp cursor with
      | none => return cursor.image
      | some cursor => readLoop rowLength isBottomUp fuel cursor
    else .ok cursor.image

end Loop

/-- The size of the data, from the headers. -/
def BMPImageLoader.imgSize (loader : BMPImageLoader) : Int :=
  if loader.biSizeImage = 0 then toInt (loader.bfSize - loader.bfOffBits) else loader.biSizeImage

/-- `readRLE`, on the bytes of the input behind the headers. -/
def readRLE (loader : BMPImageLoader) (input image : List UInt8) (rowLength hght : Int)
    (isRLE4 : Bool) : Except Failure (List UInt8) :=
  let imgSize := loader.imgSize
  if imgSize < 0 then .error .negativeArraySize
  else if input.length < imgSize.toNat then .error .eof
  else
    let imgData := input.take imgSize.toNat
    let isBottomUp := decide (loader.biHeight > 0)
    let line := if isBottomUp then toInt (hght - 1) else 0
    readLoop loader.bgraPalette imgData isRLE4 rowLength isBottomUp (imgData.length + 1)
      ⟨0, line, toInt (line * rowLength), image⟩

end OpenJfx.Iio.Bmp
