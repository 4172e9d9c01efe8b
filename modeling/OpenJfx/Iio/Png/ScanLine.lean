/-
  OpenJfx.Iio.Png.ScanLine

  A scan line holds the samples of its pixels, packed from the highest bit on.
  Whatever the colour type and the bit depth, the conversion of a scan line
  stores for each pixel the bytes that its samples stand for.

  The output is described pixel by pixel: which pixels show their value, all
  others being as before.
-/

import OpenJfx.Iio.Png.Basic
import OpenJfx.Lib.Raster

namespace OpenJfx.Iio.Png

open OpenJfx.Lib.Raster List

variable {image : List UInt8}

/-! ## Samples -/

/-- Sample `k` of a scan line. -/
def sampleAt (bitDepth : Nat) (line : List UInt8) (k : Nat) : Nat :=
  if bitDepth = 16 then (byteAt line (k * 2)).toNat * 256 + (byteAt line (k * 2 + 1)).toNat
  else (byteAt line (k * bitDepth / 8)).toNat / 2 ^ (8 - bitDepth - k * bitDepth % 8) % 2 ^ bitDepth

namespace PNGImageLoader

variable (l : PNGImageLoader)

/-- The colour types, bit depths and transparency that the headers allow. -/
structure Supported : Prop where
  bitDepth : l.bitDepth ∈ [1, 2, 4, 8, 16]
  low : l.bitDepth < 8 → l.colorType = .palette ∨ l.colorType = .gray
  palette : l.colorType = .palette → l.bitDepth ≠ 16
  trns : l.trnsGrayRgb → l.colorType = .gray ∨ l.colorType = .rgb

/-- `n` pixels; the last bits are free. -/
structure IsLine (line : List UInt8) (n : Nat) (samples : Nat → List Nat) : Prop where
  length_line : line.length = (n * l.bitDepth * l.colorType.numBands + 7) / 8
  length_samples : ∀ i < n, (samples i).length = l.colorType.numBands
  sample : ∀ i < n, ∀ c s, (samples i)[c]? = some s →
    sampleAt l.bitDepth line (i * l.colorType.numBands + c) = s

/-- A sample is that of the transparent colour. -/
def isTransparent (sample : Nat) (trns : Int) : Bool :=
  if l.bitDepth = 16 then (sample : Int).bmod 65536 = trns
  else if l.bitDepth = 8 then UInt8.ofNat sample = toByte trns
  else (sample : Int) = trns

/-- The transparent colour. -/
def transparent : List Nat → Bool
  | [g] => l.isTransparent g l.trnsG
  | [r, g, b] => l.isTransparent r l.trnsR && (l.isTransparent g l.trnsG && l.isTransparent b l.trnsB)
  | _ => false

/-- The high byte of a 16-bit sample. -/
def sampleByte (sample : Nat) : UInt8 :=
  if l.bitDepth = 16 then UInt8.ofNat (sample / 256)
  else if l.bitDepth = 8 ∨ l.colorType = .palette then UInt8.ofNat sample
  else grayOf l.bitDepth sample

/-- The bytes of a pixel in the output. -/
def pixelBytes (samples : List Nat) : List UInt8 :=
  samples.map l.sampleByte ++ if l.trnsGrayRgb then [alphaOf (l.transparent samples)] else []

theorem length_pixelBytes {samples : List Nat} (h : samples.length = l.colorType.numBands) :
    (l.pixelBytes samples).length = l.bpp := by
  rw [pixelBytes, length_append, length_map, h, bpp]
  cases l.trnsGrayRgb <;> rfl

end PNGImageLoader

/-! ## Stores -/

theorem storeBytes_eq {bytes : List UInt8} {offset : Nat}
    (h : offset + bytes.length ≤ image.length) (hsz : image.length < 2 ^ 31) :
    storeBytes image (toInt offset) bytes = .ok (putAll image offset bytes) := by
  induction bytes generalizing image offset with
  | nil => rfl
  | cons b bytes ih =>
    rw [length_cons] at h
    have hoff : toInt (offset : Int) = (offset : Nat) := toInt_of_lt (by omega)
    have hnxt : toInt (toInt (offset : Int) + 1) = toInt ((offset + 1 : Nat) : Int) :=
      toInt_toInt_add ..
    rw [storeBytes, hnxt]
    simp only [hoff]
    rw [arrayStore_of_lt (by omega)]
    exact ih (by rw [length_set]; omega) (by rwa [length_set])

theorem arraycopy_eq {line : List UInt8} {pos : Nat} (h : pos + line.length ≤ image.length) :
    arraycopy line image (pos : Nat) = .ok (putAll image pos line) := by
  unfold arraycopy
  rw [if_pos ⟨Int.natCast_nonneg _, by omega⟩, Int.toNat_natCast]
  congr 1
  apply ext_getElem?
  intro k
  rw [getElem?_putAll h]
  have htake : (image.take pos).length = pos := by
    rw [length_take]
    omega
  by_cases hlow : k < pos
  · rw [if_neg (by omega), append_assoc, getElem?_append_left (by omega),
      getElem?_take_of_lt hlow]
  · by_cases hline : k < pos + line.length
    · rw [if_pos ⟨Nat.not_lt.mp hlow, hline⟩, append_assoc,
        getElem?_append_right (by omega), htake, getElem?_append_left (by omega)]
    · rw [if_neg (by omega), getElem?_append_right (by rw [length_append]; omega),
        length_append, htake, getElem?_drop]
      congr 1
      omega

variable {P : Nat → Nat → Prop} {bytes : Nat → Except Failure (List UInt8)}

namespace PNGImageLoader

/-- The output array. -/
structure IsRaster (l : PNGImageLoader) (image : List UInt8) : Prop where
  length_eq : image.length = l.width * l.height * l.bpp
  length_lt : image.length < 2 ^ 31

/-- What has been done to the output array. -/
def Paints (l : PNGImageLoader) (samples : Nat → Nat → List Nat) :
    (P : Nat → Nat → Prop) → (image image' : List UInt8) → Prop :=
  Lib.Raster.Paints l.width l.height l.bpp fun x y => l.pixelBytes (samples x y)

/-- A computation that paints the pixels of `P`. -/
def Writes (l : PNGImageLoader) (samples : Nat → Nat → List Nat) (P : Nat → Nat → Prop)
    (image : List UInt8) (result : Except Failure (List UInt8)) : Prop :=
  ∃ image', result = .ok image' ∧ l.Paints samples P image image'

/-- In row `y₀`, from `x₀` on, `step` apart. -/
structure IsRow (l : PNGImageLoader) (samples : Nat → Nat → List Nat) (line : List UInt8)
    (x₀ y₀ step n : Nat) : Prop where
  isLine : l.IsLine line n fun i => samples (x₀ + i * step) y₀
  n_pos : 0 < n
  x_lt : ∀ i < n, x₀ + i * step < l.width
  y_lt : y₀ < l.height

/-- Pixels `i` to `n` of such a line. -/
def rowPart (x₀ y₀ step i n x y : Nat) : Prop := y = y₀ ∧ ∃ j, i ≤ j ∧ j < n ∧ x = x₀ + j * step

section Row

variable {l : PNGImageLoader} {samples : Nat → Nat → List Nat} {line : List UInt8}
  {x₀ y₀ step n : Nat}

theorem IsRaster.of_paints {image' : List UInt8}
    (himg : l.IsRaster image) (hpaints : l.Paints samples P image image') : l.IsRaster image' :=
  ⟨hpaints.length_eq.trans himg.length_eq, hpaints.length_eq ▸ himg.length_lt⟩

theorem Writes.bind {Q R : Nat → Nat → Prop}
    {result : Except Failure (List UInt8)} {next : List UInt8 → Except Failure (List UInt8)}
    (himg : l.IsRaster image) (hresult : l.Writes samples P image result)
    (hnxt : ∀ image', l.IsRaster image' → l.Writes samples Q image' (next image'))
    (hR : ∀ x y, R x y ↔ P x y ∨ Q x y) : l.Writes samples R image (result >>= next) := by
  obtain ⟨image', rfl, hpaints⟩ := hresult
  obtain ⟨image'', hok, hpaints'⟩ := hnxt image' (himg.of_paints hpaints)
  exact ⟨image'', hok, hpaints.trans hpaints' fun x y _ _ => hR x y⟩

theorem Writes.nothing (hP : ∀ x y, ¬ P x y) : l.Writes samples P image (.ok image) :=
  ⟨image, rfl, .refl fun x y _ _ => hP x y⟩

theorem IsRow.storeBytes (hrow : l.IsRow samples line x₀ y₀ step n) {i : Nat} (hi : i < n)
    (himg : l.IsRaster image) :
    l.Writes samples (rowPart x₀ y₀ step i (i + 1)) image
      (storeBytes image (toInt (pixelOffset l.width l.bpp (x₀ + i * step) y₀ : Nat))
        (l.pixelBytes (samples (x₀ + i * step) y₀))) := by
  have hval := l.length_pixelBytes (hrow.isLine.length_samples i hi)
  have hroom : pixelOffset l.width l.bpp (x₀ + i * step) y₀ + l.bpp ≤ image.length := by
    rw [himg.length_eq]
    exact pixelOffset_add_le (hrow.x_lt i hi) hrow.y_lt
  refine ⟨_, storeBytes_eq (by rwa [hval]) himg.length_lt, ?_⟩
  apply (Lib.Raster.Paints.putAll (hrow.x_lt i hi) hrow.y_lt himg.length_eq hval).congr
  intro x y _ _
  constructor
  · rintro ⟨hy, j, hij, hj, hx⟩
    obtain rfl : j = i := by omega
    exact ⟨hx, hy⟩
  · rintro ⟨hx, hy⟩
    exact ⟨hy, i, Nat.le_refl i, Nat.lt_succ_self i, hx⟩

theorem rowPart_self (x y i : Nat) : ¬ rowPart x₀ y₀ step i i x y := by
  rintro ⟨_, j, hij, hj, _⟩
  omega

theorem rowPart_split {i j : Nat} (hij : i ≤ j) (hj : j ≤ n) (x y : Nat) :
    rowPart x₀ y₀ step i n x y ↔ rowPart x₀ y₀ step i j x y ∨ rowPart x₀ y₀ step j n x y := by
  constructor
  · rintro ⟨hy, k, hik, hk, hx⟩
    by_cases hkj : k < j
    · exact .inl ⟨hy, k, hik, hkj, hx⟩
    · exact .inr ⟨hy, k, by omega, hk, hx⟩
  · rintro (⟨hy, k, hik, hk, hx⟩ | ⟨hy, k, hik, hk, hx⟩)
    · exact ⟨hy, k, hik, by omega, hx⟩
    · exact ⟨hy, k, by omega, hk, hx⟩

theorem toInt_pixelOffset_add (x y k : Nat) :
    toInt (toInt (pixelOffset l.width l.bpp x y : Nat) + (k * l.bpp : Nat)) =
      toInt (pixelOffset l.width l.bpp (x + k) y : Nat) := by
  rw [toInt_toInt_add, ← Int.natCast_add, pixelOffset, pixelOffset, ← Nat.add_mul, Nat.add_assoc]

section

variable (hrow : l.IsRow samples line x₀ y₀ step n)
  (hbytes : ∀ i < n, bytes i = .ok (l.pixelBytes (samples (x₀ + i * step) y₀)))
include hrow hbytes

theorem IsRow.pixelLoop {remaining i : Nat} (hi : i + remaining = n) (himg : l.IsRaster image) :
    l.Writes samples (rowPart x₀ y₀ step i n) image (pixelLoop bytes (step * l.bpp) remaining i
        (toInt (pixelOffset l.width l.bpp (x₀ + i * step) y₀ : Nat)) image) := by
  induction remaining generalizing i image with
  | zero =>
    obtain rfl : i = n := by omega
    exact .nothing fun x y => rowPart_self x y i
  | succ remaining ih =>
    have hin : i < n := by omega
    have hrest : i + 1 + remaining = n := by omega
    have hnxt : x₀ + i * step + step = x₀ + (i + 1) * step := by ring
    rw [Png.pixelLoop, toInt_pixelOffset_add, hnxt, hbytes i hin, ok_bind]
    exact (hrow.storeBytes hin himg).bind himg (fun image' himg' => ih hrest himg')
      (rowPart_split (Nat.le_succ i) hin)

theorem IsRow.pixelLoop_all (himg : l.IsRaster image) :
    l.Writes samples (rowPart x₀ y₀ step 0 n) image
      (Png.pixelLoop bytes (step * l.bpp) n 0 (toInt (pixelOffset l.width l.bpp x₀ y₀ : Nat))
        image) := by
  have hloop := hrow.pixelLoop hbytes (Nat.zero_add n) himg
  rwa [Nat.zero_mul, Nat.add_zero] at hloop

end

end Row

end PNGImageLoader

end OpenJfx.Iio.Png
