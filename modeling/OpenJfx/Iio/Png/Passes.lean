/-
  OpenJfx.Iio.Png.Passes

  The passes of an image.  `loadMip` takes the scan lines of a pass off the data
  and paints the pixels of that pass, provided that no size overflows.
-/

import OpenJfx.Iio.Png.Convert

namespace OpenJfx.Iio.Png

open OpenJfx.Lib.Raster List Nat

/-! ## Sizes -/

/-- How many places, `increment` apart from `start` on, lie below `size`. -/
def passSize (size start increment : Nat) : Nat := (size - start + increment - 1) / increment

variable {increment size start : Nat}

theorem lt_passSize_iff (hinc : 0 < increment) (hst : start < size) (i : Nat) :
    i < passSize size start increment ↔ start + i * increment < size := by
  rw [passSize, lt_iff_add_one_le, Nat.le_div_iff_mul_le hinc, succ_mul]
  omega

theorem passSize_le (hinc : 0 < increment)
    (hst : start < size) : passSize size start increment ≤ size := by
  by_contra hlt
  have hlast := (lt_passSize_iff hinc hst size).mp (Nat.lt_of_not_le hlt)
  have hle : size ≤ size * increment := Nat.le_mul_of_pos_right size hinc
  omega

/-- `mipSize` before the division, with one overflow in place of three. -/
theorem mipSize_eq {size start increment : Nat} (hinc : 0 < increment)
    (hst : start < size) :
    mipSize size start increment =
      (toInt ((size - start + increment - 1 : Nat) : Int)).tdiv increment := by
  have hsum : ((size : Int) - start) + increment + (-1 : Int) =
      ((size - start + increment - 1 : Nat) : Int) := by
    omega
  have hone : toInt ((size : Int) - start + increment) - 1 =
      toInt ((size : Int) - start + increment) + (-1) := Int.sub_eq_add_neg
  rw [mipSize, toInt_toInt_add, hone, toInt_toInt_add, hsum]

theorem mipSize_of_lt (hinc : 0 < increment)
    (hst : start < size) (hsz : size + increment - 1 < 2 ^ 31) :
    mipSize size start increment = passSize size start increment := by
  rw [mipSize_eq hinc hst, toInt_of_lt (by omega), ← Int.ofNat_tdiv, passSize]

theorem incrementX_pos (mip : Nat) : 0 < incrementX mip ∧ incrementX mip ≤ 8 := by
  match mip with
  | 0 | 1 | 2 | 3 | 4 | 5 | 6 | 7 => decide
  | _ + 8 => exact ⟨Nat.one_pos, Nat.le_add_left 1 7⟩

theorem incrementY_pos (mip : Nat) : 0 < incrementY mip ∧ incrementY mip ≤ 8 := by
  match mip with
  | 0 | 1 | 2 | 3 | 4 | 5 | 6 | 7 => decide
  | _ + 8 => exact ⟨Nat.one_pos, Nat.le_add_left 1 7⟩

namespace PNGImageLoader

/-- No size overflows: neither the bits of a scan line nor the height. -/
structure NoOverflow (l : PNGImageLoader) : Prop where
  line : l.width * l.bitDepth * l.colorType.numBands + 7 < 2 ^ 31
  height : l.height + 7 < 2 ^ 31

/-- The pass is not left out. -/
def HasPass (l : PNGImageLoader) (mip : Nat) : Prop :=
  l.width > startingX mip ∧ l.height > startingY mip

instance (l : PNGImageLoader) (mip : Nat) : Decidable (l.HasPass mip) :=
  inferInstanceAs (Decidable (_ ∧ _))

/-- The columns of a pass, in integers. -/
def passWidth (l : PNGImageLoader) (mip : Nat) : Nat :=
  passSize l.width (startingX mip) (incrementX mip)

/-- The rows of a pass, in integers. -/
def passHeight (l : PNGImageLoader) (mip : Nat) : Nat :=
  passSize l.height (startingY mip) (incrementY mip)

section Sizes

variable {l : PNGImageLoader} {mip : Nat} (hfits : l.NoOverflow) (hpass : l.HasPass mip)
  (hl : l.Supported)

include hfits hpass

theorem mipHeight_eq : l.mipHeight mip = l.passHeight mip := by
  have hinc := incrementY_pos mip
  have hheight := hfits.height
  exact mipSize_of_lt hinc.1 hpass.2 (by omega)

include hl

omit hfits hpass in
theorem width_le_bits : l.width ≤ l.width * l.bitDepth * l.colorType.numBands := by
  have hdepth : 0 < l.bitDepth := by
    have hmem := hl.bitDepth
    simp only [mem_cons, not_mem_nil, or_false] at hmem
    omega
  exact Nat.le_trans (Nat.le_mul_of_pos_right _ hdepth)
    (Nat.le_mul_of_pos_right _ l.colorType.numBands_pos)

theorem mipWidth_eq : l.mipWidth mip = l.passWidth mip := by
  have hinc := incrementX_pos mip
  have hwidth := width_le_bits hl
  have hline := hfits.line
  exact mipSize_of_lt hinc.1 hpass.1 (by omega)

theorem scanLineSize_eq :
    l.scanLineSize mip = ((l.passWidth mip * l.bitDepth * l.colorType.numBands + 7) / 8 : Nat) := by
  have hbits : l.passWidth mip * l.bitDepth * l.colorType.numBands ≤
      l.width * l.bitDepth * l.colorType.numBands :=
    Nat.mul_le_mul_right _ (Nat.mul_le_mul_right _ (passSize_le (incrementX_pos mip).1 hpass.1))
  have hline := hfits.line
  have hcast : ((l.passWidth mip : Int) * l.bitDepth * l.colorType.numBands + 7) =
      ((l.passWidth mip * l.bitDepth * l.colorType.numBands + 7 : Nat) : Int) := rfl
  rw [scanLineSize, mipWidth_eq hfits hpass hl, toInt_toInt_mul, toInt_toInt_add, hcast,
    toInt_of_lt (by omega)]
  exact (Int.ofNat_tdiv ..).symm

end Sizes

theorem rowPos_eq (l : PNGImageLoader) (mip y : Nat) :
    l.rowPos mip y = toInt (pixelOffset l.width l.bpp (startingX mip)
      (startingY mip + y * incrementY mip) : Nat) := by
  rw [rowPos, toInt_add_toInt, toInt_toInt_mul _ (l.width : Int), toInt_toInt_add, toInt_toInt_mul]
  rfl

/-! ## Scan lines -/

/-- The scan lines of a pass. -/
structure IsPass (l : PNGImageLoader) (samples : Nat → Nat → List Nat) (mip : Nat)
    (lines : List (List UInt8)) : Prop where
  length_eq : lines.length = l.passHeight mip
  isLine : ∀ y line, lines[y]? = some line → l.IsLine line (l.passWidth mip) fun i =>
    samples (startingX mip + i * incrementX mip) (startingY mip + y * incrementY mip)

/-- Unfiltered data: every line behind a filter byte of zero. -/
def unfiltered (lines : List (List UInt8)) : List UInt8 := lines.flatMap (0 :: ·)

theorem length_le_unfiltered (lines : List (List UInt8)) :
    lines.length ≤ (unfiltered lines).length := by
  induction lines with
  | nil => exact Nat.le_refl 0
  | cons line lines ih =>
    rw [unfiltered] at ih ⊢
    rw [flatMap_cons, length_append, length_cons, length_cons]
    omega

/-- The pixels of a pass, from its row `k` on. -/
def passPart (l : PNGImageLoader) (mip k x y : Nat) : Prop :=
  ∃ j, k ≤ j ∧ j < l.passHeight mip ∧
    rowPart (startingX mip) (startingY mip + j * incrementY mip) (incrementX mip) 0
      (l.passWidth mip) x y

section Rows

variable {l : PNGImageLoader} {samples : Nat → Nat → List Nat} {mip : Nat} (hfits : l.NoOverflow)
  (hpass : l.HasPass mip) (hl : l.Supported)

theorem passPart_succ {k : Nat} (hk : k < l.passHeight mip) (x y : Nat) : l.passPart mip k x y ↔
      rowPart (startingX mip) (startingY mip + k * incrementY mip) (incrementX mip) 0
        (l.passWidth mip) x y ∨ l.passPart mip (k + 1) x y := by
  constructor
  · rintro ⟨j, hkj, hj, hrow⟩
    by_cases hjk : j = k
    · subst hjk
      exact .inl hrow
    · exact .inr ⟨j, by omega, hj, hrow⟩
  · rintro (hrow | ⟨j, hkj, hj, hrow⟩)
    · exact ⟨k, Nat.le_refl k, hk, hrow⟩
    · exact ⟨j, by omega, hj, hrow⟩

theorem rowLoop_done {fuel y : Nat} {scanLine1 image data : List UInt8}
    (hy : (y : Int) = l.mipHeight mip) :
    l.rowLoop mip size (fuel + 1) y scanLine1 image data = .ok (image, data) := by
  rw [rowLoop.eq_def]
  exact if_pos hy

theorem rowLoop_step {fuel y : Nat} {scanLine1 image line rest : List UInt8}
    (hy : ¬ (y : Int) = l.mipHeight mip) :
    l.rowLoop mip line.length (fuel + 1) y scanLine1 image (0 :: (line ++ rest)) =
      l.convert line image (l.rowPos mip y) mip >>= fun image =>
        l.rowLoop mip line.length fuel (y + 1) line image rest := by
  rw [rowLoop.eq_def]
  dsimp only
  rw [if_neg hy, if_neg (by rw [length_append]; omega), take_left, drop_left]
  rfl

include hpass

theorem isRow_of_isLine {line : List UInt8} {y : Nat} (hy : y < l.passHeight mip)
    (hline : l.IsLine line (l.passWidth mip) fun i =>
      samples (startingX mip + i * incrementX mip) (startingY mip + y * incrementY mip)) :
    l.IsRow samples line (startingX mip) (startingY mip + y * incrementY mip) (incrementX mip)
      (l.passWidth mip) where
  isLine := hline
  n_pos := (lt_passSize_iff (incrementX_pos mip).1 hpass.1 0).mpr (by have := hpass.1; omega)
  x_lt i hi := (lt_passSize_iff (incrementX_pos mip).1 hpass.1 i).mp hi
  y_lt := (lt_passSize_iff (incrementY_pos mip).1 hpass.2 y).mp hy

include hfits hl

theorem rowLoop_eq {lines : List (List UInt8)} {y : Nat} (hlen : y + lines.length = l.passHeight mip)
    (hlines : ∀ k line, lines[k]? = some line → l.IsLine line (l.passWidth mip) fun i =>
      samples (startingX mip + i * incrementX mip) (startingY mip + (y + k) * incrementY mip))
    {fuel : Nat} (hfuel : lines.length < fuel) {scanLine1 image rest : List UInt8}
    (himg : l.IsRaster image) :
    ∃ image', l.rowLoop mip ((l.passWidth mip * l.bitDepth * l.colorType.numBands + 7) / 8) fuel y
        scanLine1 image (unfiltered lines ++ rest) = .ok (image', rest) ∧
      l.Paints samples (l.passPart mip y) image image' := by
  induction lines generalizing y fuel scanLine1 image with
  | nil =>
    obtain ⟨fuel, rfl⟩ := exists_eq_add_one_of_ne_zero (Nat.ne_of_gt hfuel)
    have hdone : y = l.passHeight mip := hlen
    refine ⟨image, rowLoop_done (by rw [mipHeight_eq hfits hpass, hdone]), .refl ?_⟩
    rintro x y' - - ⟨j, hj, hlt, -⟩
    omega
  | cons line lines ih =>
    obtain ⟨fuel, rfl⟩ := exists_eq_add_one_of_ne_zero (Nat.ne_of_gt (zero_lt_of_lt hfuel))
    rw [length_cons] at hlen hfuel
    have hline := hlines 0 line rfl
    have hsz := hline.length_line
    have hdata : unfiltered (line :: lines) ++ rest = 0 :: (line ++ (unfiltered lines ++ rest)) := by
      rw [unfiltered, flatMap_cons, cons_append, cons_append, append_assoc]
      rfl
    obtain ⟨image1, hok, hpaints⟩ := (isRow_of_isLine hpass (by omega) hline).convert hl
      (mipWidth_eq hfits hpass hl) himg
    have hnot : ¬ (y : Int) = l.mipHeight mip := by
      rw [mipHeight_eq hfits hpass]
      omega
    rw [Nat.add_zero] at hok hpaints
    have hrest : ∀ k line, lines[k]? = some line → l.IsLine line (l.passWidth mip) fun i =>
        samples (startingX mip + i * incrementX mip)
          (startingY mip + (y + 1 + k) * incrementY mip) := by
      intro k line hk
      have hline := hlines (k + 1) line hk
      rwa [Nat.add_comm k 1, ← Nat.add_assoc] at hline
    obtain ⟨image2, hok', hpaints'⟩ := @ih (y + 1) (by omega) hrest fuel (by omega) line image1
      (himg.of_paints hpaints)
    refine ⟨image2, ?_, hpaints.trans hpaints' fun x y' _ _ => passPart_succ (by omega) x y'⟩
    rw [hdata, ← hsz, rowLoop_step hnot, rowPos_eq, hok, ok_bind, hsz, hok']

/-- A pass paints its pixels, and takes its lines off the data. -/
theorem loadMip_eq {lines : List (List UInt8)} (hlines : l.IsPass samples mip lines)
    {image rest : List UInt8} (himg : l.IsRaster image) :
    ∃ image', l.loadMip image (unfiltered lines ++ rest) mip = .ok (image', rest) ∧
      l.Paints samples (l.passPart mip 0) image image' := by
  have hfuel : lines.length < (unfiltered lines ++ rest).length + 1 := by
    have hle := length_le_unfiltered lines
    rw [length_append]
    omega
  obtain ⟨image', hok, hpaints⟩ := @rowLoop_eq l samples mip hfits hpass hl lines 0
    (by rw [Nat.zero_add, hlines.length_eq])
    (fun k line hk => by rw [Nat.zero_add]; exact hlines.isLine k line hk) _ hfuel
    (List.replicate ((l.passWidth mip * l.bitDepth * l.colorType.numBands + 7) / 8) 0) image rest
    himg
  refine ⟨image', ?_, hpaints⟩
  rw [loadMip, scanLineSize_eq hfits hpass hl, if_neg (by omega), Int.toNat_natCast, hok]

end Rows

end PNGImageLoader

end OpenJfx.Iio.Png
