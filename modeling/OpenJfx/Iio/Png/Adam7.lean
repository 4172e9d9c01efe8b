/-
  OpenJfx.Iio.Png.Adam7

  The seven passes tile the image: every pixel belongs to exactly one of them.
  So the passes of an interlaced image paint all of it, as the lines of a plain
  image do, and the two decode to the same array.
-/

import OpenJfx.Iio.Png.Passes

namespace OpenJfx.Iio.Png

open OpenJfx.Lib.Raster Nat

/-! ## The tiling -/

/-- The pixels of a pass, by their place in the tiles of eight by eight. -/
def InTile (mip x y : Nat) : Prop :=
  x % incrementX mip = startingX mip ∧ y % incrementY mip = startingY mip

instance (mip x y : Nat) : Decidable (InTile mip x y) := inferInstanceAs (Decidable (_ ∧ _))

theorem startingX_lt : ∀ {mip : Nat}, mip < 8 → startingX mip < incrementX mip := by
  decide

theorem startingY_lt : ∀ {mip : Nat}, mip < 8 → startingY mip < incrementY mip := by
  decide

theorem increment_dvd : ∀ {mip : Nat}, mip < 8 → incrementX mip ∣ 8 ∧ incrementY mip ∣ 8 := by
  decide

variable {mip : Nat}

theorem inTile_mod_eight (h : mip < 8) (x y : Nat) :
    InTile mip x y ↔ InTile mip (x % 8) (y % 8) := by
  obtain ⟨hx, hy⟩ := increment_dvd h
  rw [InTile, InTile, mod_mod_of_dvd x hx, mod_mod_of_dvd y hy]

theorem tile_cases : ∀ x < 8, ∀ y < 8, ∃ mip < 7, ∀ m < 7, InTile m x y ↔ m = mip := by
  decide

theorem exists_inTile_iff (x y : Nat) : ∃ mip < 7, ∀ m < 7, InTile m x y ↔ m = mip := by
  obtain ⟨mip, hmip, h⟩ := tile_cases (x % 8) (mod_lt x (by decide)) (y % 8)
    (mod_lt y (by decide))
  exact ⟨mip, hmip, fun m hm => (inTile_mod_eight (by omega) x y).trans (h m hm)⟩

namespace PNGImageLoader

variable {l : PNGImageLoader} {samples : Nat → Nat → List Nat}

theorem passPart_iff {x y : Nat} (hmip : mip < 8) (hx : x < l.width) (hy : y < l.height) :
    l.passPart mip 0 x y ↔ InTile mip x y := by
  have hix := (incrementX_pos mip).1
  have hiy := (incrementY_pos mip).1
  constructor
  · rintro ⟨j, -, hj, rfl, i, -, hi, rfl⟩
    rw [InTile, add_mul_mod_self_right, add_mul_mod_self_right,
      mod_eq_of_lt (startingX_lt hmip), mod_eq_of_lt (startingY_lt hmip)]
    exact ⟨rfl, rfl⟩
  · rintro ⟨hxmod, hymod⟩
    have hxdiv : startingX mip + x / incrementX mip * incrementX mip = x := by
      rw [← hxmod, Nat.mul_comm, mod_add_div]
    have hydiv : startingY mip + y / incrementY mip * incrementY mip = y := by
      rw [← hymod, Nat.mul_comm, mod_add_div]
    refine ⟨y / incrementY mip, Nat.zero_le _, ?_, hydiv.symm, x / incrementX mip, Nat.zero_le _,
      ?_, hxdiv.symm⟩
    · apply (lt_passSize_iff hiy (by omega) _).mpr
      rwa [hydiv]
    · apply (lt_passSize_iff hix (by omega) _).mpr
      rwa [hxdiv]

theorem not_inTile_of_not_hasPass {x y : Nat} (hpass : ¬ l.HasPass mip) (hx : x < l.width)
    (hy : y < l.height) : ¬ InTile mip x y := by
  rintro ⟨hxmod, hymod⟩
  have hxle := mod_le x (incrementX mip)
  have hyle := mod_le y (incrementY mip)
  exact hpass ⟨by omega, by omega⟩

/-! ## All passes -/

/-- The unfiltered data of an interlaced image, passes `mip` and on. -/
def passData (l : PNGImageLoader) (lines : Nat → List (List UInt8)) : (remaining mip : Nat) → List UInt8
  | 0, _ => []
  | remaining + 1, mip =>
    (if l.HasPass mip then unfiltered (lines mip) else []) ++ passData l lines remaining (mip + 1)

section Passes

variable (hfits : l.NoOverflow) (hl : l.Supported)

include hfits hl

theorem loadPasses_eq {lines : Nat → List (List UInt8)}
    (hlines : ∀ mip < 7, l.HasPass mip → l.IsPass samples mip (lines mip)) {remaining : Nat}
    (hmip : mip + remaining = 7) {image : List UInt8} (himg : l.IsRaster image) :
    ∃ image', l.loadPasses remaining mip image (l.passData lines remaining mip) = .ok (image', []) ∧
      l.Paints samples (fun x y => ∃ m, mip ≤ m ∧ m < 7 ∧ InTile m x y) image image' := by
  induction remaining generalizing mip image with
  | zero =>
    refine ⟨image, rfl, .refl ?_⟩
    rintro x y - - ⟨m, hm, hlt, -⟩
    omega
  | succ remaining ih =>
    have hspl : ∀ x y, (∃ m, mip ≤ m ∧ m < 7 ∧ InTile m x y) ↔
        InTile mip x y ∨ ∃ m, mip + 1 ≤ m ∧ m < 7 ∧ InTile m x y := by
      intro x y
      constructor
      · rintro ⟨m, hm, hlt, htile⟩
        by_cases heq : m = mip
        · exact .inl (heq ▸ htile)
        · exact .inr ⟨m, by omega, hlt, htile⟩
      · rintro (htile | ⟨m, hm, hlt, htile⟩)
        · exact ⟨mip, Nat.le_refl mip, by omega, htile⟩
        · exact ⟨m, by omega, hlt, htile⟩
    rw [loadPasses, passData]
    by_cases hpass : l.width > startingX mip ∧ l.height > startingY mip
    · obtain ⟨image1, hok, hpaints⟩ := @loadMip_eq l samples mip hfits hpass hl _
        (hlines mip (by omega) hpass) image (l.passData lines remaining (mip + 1)) himg
      obtain ⟨image2, hok', hpaints'⟩ := @ih (mip + 1) (by omega) image1 (himg.of_paints hpaints)
      refine ⟨image2, ?_, hpaints.trans hpaints' fun x y hx hy => ?_⟩
      · rw [if_pos hpass, if_pos (show l.HasPass mip from hpass), hok, ok_bind]
        exact hok'
      · rw [passPart_iff (by omega) hx hy]
        exact hspl x y
    · obtain ⟨image2, hok', hpaints'⟩ := @ih (mip + 1) (by omega) image himg
      refine ⟨image2, ?_, hpaints'.congr fun x y hx hy => ?_⟩
      · rw [if_neg hpass, if_neg (show ¬ l.HasPass mip from hpass), List.nil_append, ok_bind]
        exact hok'
      · rw [hspl x y, or_iff_right (not_inTile_of_not_hasPass hpass hx hy)]

theorem loadMip_seven {lines : List (List UInt8)} (hlines : l.IsPass samples 7 lines)
    (hpass : l.HasPass 7) {image : List UInt8} (himg : l.IsRaster image) :
    ∃ image', l.loadMip image (unfiltered lines) 7 = .ok (image', []) ∧
      l.Paints samples (fun _ _ => True) image image' := by
  obtain ⟨image', hok, hpaints⟩ := @loadMip_eq l samples 7 hfits hpass hl lines hlines image [] himg
  rw [List.append_nil] at hok
  refine ⟨image', hok, hpaints.congr fun x y hx hy => ?_⟩
  rw [passPart_iff (by decide) hx hy]
  exact iff_of_true trivial ⟨mod_one x, mod_one y⟩

end Passes

/-! ## Both kinds of images -/

/-- The data of the seven passes. -/
def IsInterlacedData (l : PNGImageLoader) (samples : Nat → Nat → List Nat) (data : List UInt8) :
    Prop :=
  ∃ lines : Nat → List (List UInt8),
    (∀ mip < 7, l.HasPass mip → l.IsPass samples mip (lines mip)) ∧ data = l.passData lines 7 0

/-- The data of one pass over the whole image. -/
def IsPlainData (l : PNGImageLoader) (samples : Nat → Nat → List Nat) (data : List UInt8) : Prop :=
  ∃ lines : List (List UInt8), l.IsPass samples 7 lines ∧ data = unfiltered lines

/-- Pixel `i` of row `j` of a pass is that at `x` and `y`. -/
structure Visits (l : PNGImageLoader) (mip j i x y : Nat) : Prop where
  hasPass : l.HasPass mip
  row_lt : (j : Int) < l.mipHeight mip
  column_lt : (i : Int) < l.mipWidth mip
  x_eq : x = startingX mip + i * incrementX mip
  y_eq : y = startingY mip + j * incrementY mip

def withInterlaced (l : PNGImageLoader) (isInterlaced : Bool) : PNGImageLoader :=
  { l with isInterlaced := isInterlaced }

section WithInterlaced

variable (b : Bool)

theorem convert_withInterlaced : (l.withInterlaced b).convert = l.convert := rfl

theorem rowLoop_withInterlaced (mip size fuel y : Nat) (scanLine1 image data : List UInt8) :
    (l.withInterlaced b).rowLoop mip size fuel y scanLine1 image data =
      l.rowLoop mip size fuel y scanLine1 image data := by
  induction fuel generalizing y scanLine1 image data with
  | zero => rfl
  | succ fuel ih =>
    rw [rowLoop.eq_def, rowLoop.eq_def l]
    simp only [convert_withInterlaced, ih]
    rfl

theorem loadMip_withInterlaced (image data : List UInt8) (mip : Nat) :
    (l.withInterlaced b).loadMip image data mip = l.loadMip image data mip := by
  rw [loadMip, loadMip, rowLoop_withInterlaced]
  rfl

theorem loadPasses_withInterlaced (remaining mip : Nat) (image data : List UInt8) :
    (l.withInterlaced b).loadPasses remaining mip image data =
      l.loadPasses remaining mip image data := by
  induction remaining generalizing mip image data with
  | zero => rfl
  | succ remaining ih =>
    rw [loadPasses, loadPasses]
    simp only [loadMip_withInterlaced, ih]
    rfl

theorem load_withInterlaced_true (image data : List UInt8) :
    (l.withInterlaced true).load image data = (l.loadPasses 7 0 image data).map Prod.fst := by
  rw [← loadPasses_withInterlaced true]
  rfl

theorem load_withInterlaced_false (image data : List UInt8) :
    (l.withInterlaced false).load image data = (l.loadMip image data 7).map Prod.fst := by
  rw [← loadMip_withInterlaced false]
  rfl

end WithInterlaced

/-- They agree, and the passes write every pixel once. -/
structure Agrees (l : PNGImageLoader) : Prop where
  load_eq : ∀ samples interlaced plain image₁ image₂, l.IsInterlacedData samples interlaced →
    l.IsPlainData samples plain → l.IsRaster image₁ → l.IsRaster image₂ →
    ∃ image', (l.withInterlaced true).load image₁ interlaced = .ok image' ∧
      (l.withInterlaced false).load image₂ plain = .ok image' ∧
      ∀ x < l.width, ∀ y < l.height, ∀ c < l.bpp,
        image'[pixelOffset l.width l.bpp x y + c]? = (l.pixelBytes (samples x y))[c]?
  pass_eq : ∀ mip < 7, l.HasPass mip → ∀ samples lines image rest, l.IsPass samples mip lines →
    l.IsRaster image →
    ∃ image', l.loadMip image (unfiltered lines ++ rest) mip = .ok (image', rest) ∧
      l.Paints samples (fun x y => ∃ j i, l.Visits mip j i x y) image image'
  visited : ∀ x < l.width, ∀ y < l.height,
    ∃! p : Nat × Nat × Nat, p.1 < 7 ∧ l.Visits p.1 p.2.1 p.2.2 x y

section Agrees

variable (hfits : l.NoOverflow) (hl : l.Supported)

include hfits hl

theorem visits_iff {j i x y : Nat} :
    l.Visits mip j i x y ↔ l.HasPass mip ∧ j < l.passHeight mip ∧ i < l.passWidth mip ∧
      x = startingX mip + i * incrementX mip ∧ y = startingY mip + j * incrementY mip := by
  constructor
  · rintro ⟨hpass, hj, hi, hx, hy⟩
    rw [mipHeight_eq hfits hpass] at hj
    rw [mipWidth_eq hfits hpass hl] at hi
    exact ⟨hpass, by omega, by omega, hx, hy⟩
  · rintro ⟨hpass, hj, hi, hx, hy⟩
    refine ⟨hpass, ?_, ?_, hx, hy⟩
    · rw [mipHeight_eq hfits hpass]
      omega
    · rw [mipWidth_eq hfits hpass hl]
      omega

theorem exists_visits_iff {x y : Nat} (hpass : l.HasPass mip) :
    (∃ j i, l.Visits mip j i x y) ↔ l.passPart mip 0 x y := by
  simp only [visits_iff hfits hl, passPart, rowPart]
  constructor
  · rintro ⟨j, i, -, hj, hi, hx, hy⟩
    exact ⟨j, Nat.zero_le j, hj, hy, i, Nat.zero_le i, hi, hx⟩
  · rintro ⟨j, -, hj, hy, i, -, hi, hx⟩
    exact ⟨j, i, hpass, hj, hi, hx, hy⟩

theorem exists_unique_visits {x y : Nat} (hx : x < l.width) (hy : y < l.height) :
    ∃! p : Nat × Nat × Nat, p.1 < 7 ∧ l.Visits p.1 p.2.1 p.2.2 x y := by
  obtain ⟨mip, hmip, htile⟩ := exists_inTile_iff x y
  have hin := (htile mip hmip).mpr rfl
  have hpass : l.HasPass mip := by
    by_contra hno
    exact not_inTile_of_not_hasPass hno hx hy hin
  obtain ⟨j, i, hvisits⟩ := (exists_visits_iff hfits hl hpass).mpr
    ((passPart_iff (by omega) hx hy).mpr hin)
  refine ⟨(mip, j, i), ⟨hmip, hvisits⟩, ?_⟩
  rintro ⟨m, j', i'⟩ ⟨hm, hvisits'⟩
  have hin' := (passPart_iff (by omega) hx hy).mp
    ((exists_visits_iff hfits hl hvisits'.hasPass).mp ⟨j', i', hvisits'⟩)
  obtain rfl := (htile m hm).mp hin'
  have hj : j' * incrementY m = j * incrementY m := by
    have h1 := hvisits.y_eq
    have h2 := hvisits'.y_eq
    dsimp only at h2
    omega
  have hi : i' * incrementX m = i * incrementX m := by
    have h1 := hvisits.x_eq
    have h2 := hvisits'.x_eq
    dsimp only at h2
    omega
  rw [eq_of_mul_eq_mul_right (incrementY_pos m).1 hj,
    eq_of_mul_eq_mul_right (incrementX_pos m).1 hi]

theorem agrees_of_noOverflow (hw : 0 < l.width) (hh : 0 < l.height) : l.Agrees where
  load_eq := by
    rintro samples _ _ image1 image2 ⟨lines, hlines, rfl⟩ ⟨plain, hplain, rfl⟩ himage1 himage2
    obtain ⟨image', hok1, hpaints1⟩ := loadPasses_eq hfits hl hlines (Nat.zero_add 7) himage1
    obtain ⟨image'', hok2, hpaints2⟩ := loadMip_seven hfits hl hplain ⟨hw, hh⟩ himage2
    have hall : ∀ x y, x < l.width → y < l.height → ∃ m, 0 ≤ m ∧ m < 7 ∧ InTile m x y := by
      intro x y _ _
      obtain ⟨mip, hmip, htile⟩ := exists_inTile_iff x y
      exact ⟨mip, Nat.zero_le mip, hmip, (htile mip hmip).mpr rfl⟩
    obtain rfl : image' = image'' := hpaints1.eq_of_all hpaints2 hall (fun _ _ _ _ => trivial)
      himage1.length_eq himage2.length_eq
    refine ⟨image', ?_, ?_, fun x hx y hy c hc => hpaints2.written x y hx hy trivial c hc⟩
    · rw [load_withInterlaced_true, hok1]
      rfl
    · rw [load_withInterlaced_false, hok2]
      rfl
  pass_eq mip hmip hpass samples lines image rest hlines himg := by
    obtain ⟨image', hok, hpaints⟩ := @loadMip_eq l samples mip hfits hpass hl lines hlines image rest
      himg
    exact ⟨image', hok, hpaints.congr fun x y _ _ => exists_visits_iff hfits hl hpass⟩
  visited x hx y hy := exists_unique_visits hfits hl hx hy

end Agrees

end PNGImageLoader

end OpenJfx.Iio.Png
