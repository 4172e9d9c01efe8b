/-
  OpenJfx.Iio.Png.Basic

  The pixel data of PNG images (`PNGImageLoader2.load(byte[], InputStream)`):
  filters, the conversion of scan lines to eight bits, and the seven passes of
  interlaced images.

  The input is the inflated data.  A read from it returns all the bytes asked
  for as long as there are enough.
-/

import OpenJfx.Iio.Bytes

namespace OpenJfx.Iio.Png

/-! ## The loader -/

/-- The colour types of the header. -/
inductive ColorType where
  | gray
  | rgb
  | palette
  | grayAlpha
  | rgbAlpha
  deriving DecidableEq, Repr

/-- `numBandsPerColorType`. -/
def ColorType.numBands : ColorType → Nat
  | gray => 1
  | rgb => 3
  | palette => 1
  | grayAlpha => 2
  | rgbAlpha => 4

/-- What decoding reads of `PNGImageLoader2`. -/
structure PNGImageLoader where
  width : Nat
  height : Nat
  bitDepth : Nat
  colorType : ColorType
  isInterlaced : Bool
  trnsGrayRgb : Bool
  trnsR : Int
  trnsG : Int
  trnsB : Int

namespace PNGImageLoader

/-- A transparent colour adds a band. -/
def bpp (l : PNGImageLoader) : Nat := l.colorType.numBands + if l.trnsGrayRgb then 1 else 0

def bytesPerColor (l : PNGImageLoader) : Nat := if l.bitDepth = 16 then 2 else 1

end PNGImageLoader

/-! ## Filters -/

/-- Add to the bytes of a line, from index `i` on. -/
def addLoop (addend : List UInt8 → Nat → UInt8) :
    (remaining i : Nat) → List UInt8 → Except Failure (List UInt8)
  | 0, _, line => .ok line
  | remaining + 1, i, line => do
    let b ← arrayLoad line i
    let line ← arrayStore line i (b + addend line i)
    addLoop addend remaining (i + 1) line

/-- `addLoop` from index `bpp` to the end, which a shorter line runs over. -/
def addFrom (bpp : Nat) (addend : List UInt8 → Nat → UInt8) (line : List UInt8) :
    Except Failure (List UInt8) :=
  if line.length < bpp then .error .arrayIndexOutOfBounds
  else addLoop addend (line.length - bpp) bpp line

def byteAt (bytes : List UInt8) (i : Nat) : UInt8 := (bytes[i]?).getD 0

/-- The byte of the pixel on the left is added. -/
def doSubFilter (line : List UInt8) (bpp : Nat) : Except Failure (List UInt8) :=
  addFrom bpp (fun line i => byteAt line (i - bpp)) line

/-- The byte above is added. -/
def doUpFilter (line pline : List UInt8) : Except Failure (List UInt8) :=
  addLoop (fun _ i => byteAt pline i) line.length 0 line

/-- Half the sum of both is added. -/
def doAvrgFilter (line pline : List UInt8) (bpp : Nat) : Except Failure (List UInt8) := do
  let line ← addLoop (fun _ i => UInt8.ofNat ((byteAt pline i).toNat / 2)) bpp 0 line
  addFrom bpp (fun line i =>
    UInt8.ofNat (((byteAt line (i - bpp)).toNat + (byteAt pline i).toNat) / 2)) line

/-- The neighbour next to `a + b - c`. -/
def paethPr (a b c : Int) : Int :=
  let pa := (b - c).natAbs
  let pb := (a - c).natAbs
  let pc := (b - c + a - c).natAbs
  if pa ≤ pb ∧ pa ≤ pc then a else if pb ≤ pc then b else c

def doPaethFilter (line pline : List UInt8) (bpp : Nat) : Except Failure (List UInt8) := do
  let line ← addLoop (fun _ i => byteAt pline i) bpp 0 line
  addFrom bpp (fun line i =>
    UInt8.ofNat (paethPr (byteAt line (i - bpp)).toNat (byteAt pline i).toNat
      (byteAt pline (i - bpp)).toNat).toNat) line

/-- The filter of the line's type; another type is ignored. -/
def doFilter (line pline : List UInt8) (fType bpp : Nat) : Except Failure (List UInt8) :=
  match fType with
  | 1 => doSubFilter line bpp
  | 2 => doUpFilter line pline
  | 3 => doAvrgFilter line pline bpp
  | 4 => doPaethFilter line pline bpp
  | _ => .ok line

/-! ## Scan lines -/

/-- Store bytes at an offset and behind it. -/
def storeBytes (image : List UInt8) (oPos : Int) : List UInt8 → Except Failure (List UInt8)
  | [] => .ok image
  | b :: bytes => do
    let image ← arrayStore image oPos b
    storeBytes image (toInt (oPos + 1)) bytes

/-- The loop over the pixels of a line, with the offset moved by a stride. -/
def pixelLoop (bytes : Nat → Except Failure (List UInt8)) (stride : Nat) :
    (remaining i : Nat) → (oPos : Int) → List UInt8 → Except Failure (List UInt8)
  | 0, _, _, image => .ok image
  | remaining + 1, i, oPos, image => do
    let image ← storeBytes image oPos (← bytes i)
    pixelLoop bytes stride remaining (i + 1) (toInt (oPos + stride)) image

/-- Two bytes as a `short`. -/
def toShort (high low : UInt8) : Int := ((high.toNat * 256 + low.toNat : Nat) : Int).bmod 65536

/-- The alpha byte: the transparent colour has none. -/
def alphaOf (transparent : Bool) : UInt8 := if transparent then 0 else 255

/-- The low byte of an `int`. -/
def toByte (n : Int) : UInt8 := UInt8.ofNat (n % 256).toNat

section Lines

variable (l : PNGImageLoader) (line image : List UInt8) (pos : Int) (step : Nat)

/-- The alpha byte compares all 16 bits. -/
def downsample16to8TrnsGray : Except Failure (List UInt8) :=
  pixelLoop (fun i => do
    let high ← arrayLoad line (i * 2)
    let low ← arrayLoad line (i * 2 + 1)
    return [high, alphaOf (toShort high low = l.trnsG)]) (step * 2) (line.length / 2) 0 pos image

/-- As in gray, with three samples. -/
def downsample16to8TrnsRgb : Except Failure (List UInt8) :=
  pixelLoop (fun i => do
    let r ← arrayLoad line (i * 6)
    let r' ← arrayLoad line (i * 6 + 1)
    let g ← arrayLoad line (i * 6 + 2)
    let g' ← arrayLoad line (i * 6 + 3)
    let b ← arrayLoad line (i * 6 + 4)
    let b' ← arrayLoad line (i * 6 + 5)
    return [r, g, b, alphaOf (toShort r r' = l.trnsR ∧ toShort g g' = l.trnsG ∧
      toShort b b' = l.trnsB)]) (step * 4) (line.length / 2 / 3) 0 pos image

/-- The bytes at `bpp` indices. -/
def loadEach (line : List UInt8) (index : Nat → Nat) (bpp : Nat) : Except Failure (List UInt8) :=
  (List.range bpp).mapM fun b => arrayLoad line (index b)

/-- The high bytes are kept. -/
def downsample16to8Plain (bpp : Nat) : Except Failure (List UInt8) :=
  pixelLoop (fun i => loadEach line (fun b => (i * bpp + b) * 2) bpp) (step * bpp)
    (line.length / 2 / bpp) 0 pos image

def downsample16to8 (bpp : Nat) : Except Failure (List UInt8) :=
  if ¬ l.trnsGrayRgb then downsample16to8Plain line image pos step bpp
  else if l.colorType = .gray then downsample16to8TrnsGray l line image pos step
  else if l.colorType = .rgb then downsample16to8TrnsRgb l line image pos step
  else .ok image

/-- The alpha byte is 0 for the transparent gray. -/
def copyTrnsGray : Except Failure (List UInt8) :=
  pixelLoop (fun i => do
    let gray ← arrayLoad line i
    return [gray, alphaOf (gray = toByte l.trnsG)]) (2 * step) line.length 0 pos image

/-- The alpha byte is 0 for the transparent colour. -/
def copyTrnsRgb : Except Failure (List UInt8) :=
  pixelLoop (fun i => do
    let r ← arrayLoad line (i * 3)
    let g ← arrayLoad line (i * 3 + 1)
    let b ← arrayLoad line (i * 3 + 2)
    return [r, g, b, alphaOf (r = toByte l.trnsR ∧ g = toByte l.trnsG ∧ b = toByte l.trnsB)])
    (step * 4) (line.length / 3) 0 pos image

/-- The loop runs over the end of a broken line. -/
def copyPlain (bpp : Nat) : Except Failure (List UInt8) :=
  pixelLoop (fun i => loadEach line (fun b => i * bpp + b) bpp) (step * bpp)
    ((line.length + bpp - 1) / bpp) 0 pos image

/-- `System.arraycopy(line, 0, image, pos, line.length)`. -/
def arraycopy : Except Failure (List UInt8) :=
  if 0 ≤ pos ∧ pos + line.length ≤ image.length then
    .ok (image.take pos.toNat ++ line ++ image.drop (pos.toNat + line.length))
  else .error .arrayIndexOutOfBounds

def copy (resultBpp : Nat) : Except Failure (List UInt8) :=
  if ¬ l.trnsGrayRgb then
    if step = 1 then arraycopy line image pos else copyPlain line image pos step resultBpp
  else if l.colorType = .gray then copyTrnsGray l line image pos step
  else if l.colorType = .rgb then copyTrnsRgb l line image pos step
  else .ok image

end Lines

section Upsample

variable (bitDepth : Nat) (bytes : Nat → List UInt8) (pos : Int) (stride : Nat)

/-- From the last to the first sample of a byte. -/
def sampleLoop (i : Nat) : (pp : Nat) → (inByte : Int) → List UInt8 → Except Failure (List UInt8)
  | 0, _, image => .ok image
  | pp + 1, inByte, image => do
    let image ← storeBytes image (toInt (pos + ((i + pp) * stride : Nat)))
      (bytes (inByte % 2 ^ bitDepth).toNat)
    sampleLoop i pp (inByte / 2 ^ bitDepth) image

/-- A byte is sign-extended. -/
def byteLoop (line : List UInt8) (w : Nat) : (fuel k : Nat) → List UInt8 → Except Failure (List UInt8)
  | 0, _, image => .ok image
  | fuel + 1, k, image =>
    let samplesInByte := 8 / bitDepth
    let i := k * samplesInByte
    if i < w then do
      let p := if w - i < samplesInByte then w - i else samplesInByte
      let b ← arrayLoad line k
      let inByte := (b.toNat : Int).bmod 256 / 2 ^ ((samplesInByte - p) * bitDepth)
      let image ← sampleLoop bitDepth bytes pos stride i p inByte image
      byteLoop line w fuel (k + 1) image
    else .ok image

end Upsample

section UpsampleTo8

variable (l : PNGImageLoader) (line image : List UInt8) (pos : Int) (w step : Nat)

/-- A gray value of few bits as a byte, rounded. -/
def grayOf (bitDepth value : Nat) : UInt8 :=
  let maxV := 2 ^ bitDepth - 1
  UInt8.ofNat ((value * 255 + maxV / 2) / maxV)

/-- Indices stay as they are. -/
def upsampleTo8Palette : Except Failure (List UInt8) :=
  byteLoop l.bitDepth (fun value => [UInt8.ofNat value]) pos step line w (w + 1) 0 image

/-- Gray values are spread over a byte. -/
def upsampleTo8Gray : Except Failure (List UInt8) :=
  byteLoop l.bitDepth (fun value => [grayOf l.bitDepth value]) pos step line w (w + 1) 0 image

def upsampleTo8GrayTrns : Except Failure (List UInt8) :=
  byteLoop l.bitDepth (fun value => [grayOf l.bitDepth value, alphaOf (value = l.trnsG)]) pos
    (step * 2) line w (w + 1) 0 image

def upsampleTo8 (bpp : Nat) : Except Failure (List UInt8) :=
  if l.colorType = .palette then upsampleTo8Palette l line image pos w step
  else if bpp = 1 then upsampleTo8Gray l line image pos w step
  else if l.trnsGrayRgb ∧ bpp = 2 then upsampleTo8GrayTrns l line image pos w step
  else .ok image

end UpsampleTo8

/-! ## Passes -/

/-- `starting_y`. -/
def startingY (mip : Nat) : Nat := [0, 0, 4, 0, 2, 0, 1, 0].getD mip 0
/-- `starting_x`. -/
def startingX (mip : Nat) : Nat := [0, 4, 0, 2, 0, 1, 0, 0].getD mip 0
/-- `increment_y`. -/
def incrementY (mip : Nat) : Nat := [8, 8, 8, 4, 4, 2, 2, 1].getD mip 1
/-- `increment_x`. -/
def incrementX (mip : Nat) : Nat := [8, 8, 4, 4, 2, 2, 1, 1].getD mip 1

/-- The rows or columns of a pass, in `int` arithmetic. -/
def mipSize (size start increment : Nat) : Int :=
  (toInt (toInt (toInt ((size : Int) - start) + increment) - 1)).tdiv increment

namespace PNGImageLoader

variable (l : PNGImageLoader)

def mipWidth (mip : Nat) : Int := mipSize l.width (startingX mip) (incrementX mip)

def mipHeight (mip : Nat) : Int := mipSize l.height (startingY mip) (incrementY mip)

/-- The bytes of a line, in `int` arithmetic. -/
def scanLineSize (mip : Nat) : Int :=
  (toInt (toInt (toInt (l.mipWidth mip * l.bitDepth) * l.colorType.numBands) + 7)).tdiv 8

/-- The place of the first pixel of row `y` of a pass. -/
def rowPos (mip y : Nat) : Int :=
  let mipPos := toInt (startingY mip + toInt (y * incrementY mip))
  toInt (toInt (toInt (mipPos * l.width) + startingX mip) * l.bpp)

/-- One line into the image, from `pos` on. -/
def convert (scanLine image : List UInt8) (pos : Int) (mip : Nat) : Except Failure (List UInt8) :=
  let step := incrementX mip
  if l.bitDepth = 16 then downsample16to8 l scanLine image pos step l.bpp
  else if l.bitDepth < 8 then upsampleTo8 l scanLine image pos (l.mipWidth mip).toNat step l.bpp
  else copy l scanLine image pos step l.bpp

/-- The loop of `loadMip`, which ends at the latest when the data does. -/
def rowLoop (mip scanLineSize : Nat) : (fuel y : Nat) → (scanLine1 image data : List UInt8) →
    Except Failure (List UInt8 × List UInt8)
  | 0, _, _, _, _ => .error .eof
  | fuel + 1, y, scanLine1, image, data =>
    if y = l.mipHeight mip then .ok (image, data)
    else
      match data with
      | [] => .error .eof
      | filterByte :: data => do
        if data.length < scanLineSize then .error .eof
        else
          let scanLine0 ← doFilter (data.take scanLineSize) scanLine1 filterByte.toNat
            (l.colorType.numBands * l.bytesPerColor)
          let image ← l.convert scanLine0 image (l.rowPos mip y) mip
          rowLoop mip scanLineSize fuel (y + 1) scanLine0 image (data.drop scanLineSize)

/-- One pass. -/
def loadMip (image data : List UInt8) (mip : Nat) : Except Failure (List UInt8 × List UInt8) :=
  if l.scanLineSize mip < 0 then .error .negativeArraySize
  else
    l.rowLoop mip (l.scanLineSize mip).toNat (data.length + 1) 0
      (List.replicate (l.scanLineSize mip).toNat 0) image data

/-- The passes of an interlaced image, from `mip` on. -/
def loadPasses : (remaining mip : Nat) → (image data : List UInt8) →
    Except Failure (List UInt8 × List UInt8)
  | 0, _, image, data => .ok (image, data)
  | remaining + 1, mip, image, data => do
    let (image, data) ←
      if l.width > startingX mip ∧ l.height > startingY mip then l.loadMip image data mip
      else .ok (image, data)
    loadPasses remaining (mip + 1) image data

/-- `load(byte[], InputStream)`. -/
def load (image data : List UInt8) : Except Failure (List UInt8) :=
  if l.isInterlaced then (l.loadPasses 7 0 image data).map Prod.fst
  else (l.loadMip image data 7).map Prod.fst

end PNGImageLoader

end OpenJfx.Iio.Png
