/-
  OpenJfx.Iio.Png.Convert

  The conversion of a scan line paints the pixels of that line, for every
  colour type and bit depth: samples of two bytes, of one byte, and samples
  packed into bytes.
-/

import OpenJfx.Iio.Png.ScanLine

namespace OpenJfx.Iio.Png

open OpenJfx.Lib.Raster List Nat

variable {i c s : Nat} {pixels : Nat → List Nat} {image line : List UInt8}

theorem mul_add_lt_mul {n b : Nat} (hi : i < n) (hc : c < b) : i * b + c < n * b := by
  calc i * b + c < i * b + b := Nat.add_lt_add_left hc _
    _ = (i + 1) * b := by ring
    _ ≤ n * b := mul_le_mul_right b hi

theorem arrayLoad_eq {k : Nat} (h : k < line.length) :
    arrayLoad line k = .ok (byteAt line k) := arrayLoad_of_lt h

theorem loadEach_eq {index : Nat → Nat} {b : Nat} (h : ∀ k < b, index k < line.length) :
    loadEach line index b = .ok ((List.range b).map fun k => byteAt line (index k)) := by
  rw [loadEach]
  induction b with
  | zero => rfl
  | succ b ih =>
    have hinit := ih fun k hk => h k (Nat.lt_succ_of_lt hk)
    rw [range_succ, mapM_append, hinit, ok_bind, mapM_cons,
      arrayLoad_eq (h b (Nat.lt_succ_self b)), map_append]
    rfl

theorem ColorType.numBands_pos (c : ColorType) : 0 < c.numBands := by
  cases c <;> decide

namespace PNGImageLoader

variable {l : PNGImageLoader} {samples : Nat → Nat → List Nat} {line : List UInt8}
  {x₀ y₀ step n : Nat}

theorem bpp_of_plain (htrns : l.trnsGrayRgb = false) : l.bpp = l.colorType.numBands := by
  rw [bpp, htrns]
  rfl

/-- Without a transparent colour a pixel is its samples. -/
theorem pixelBytes_of_plain (htrns : l.trnsGrayRgb = false) {pixel : List Nat}
    (hlen : pixel.length = l.colorType.numBands) {f : Nat → UInt8}
    (hf : ∀ c s, pixel[c]? = some s → f c = l.sampleByte s) :
    (List.range l.bpp).map f = l.pixelBytes pixel := by
  rw [pixelBytes, htrns, if_neg (by decide), append_nil]
  apply ext_getElem?
  intro c
  rw [getElem?_map, getElem?_map]
  rw [← bpp_of_plain htrns] at hlen
  by_cases hc : c < l.bpp
  · have hs : pixel[c]? = some pixel[c] := getElem?_eq_getElem (by omega)
    rw [getElem?_range hc, hs, Option.map_some, Option.map_some, hf c _ hs]
  · rw [getElem?_eq_none (by rw [length_range]; omega),
      getElem?_eq_none (by omega)]
    rfl

/-! ## Samples of two bytes -/

section Sixteen

variable (hd : l.bitDepth = 16)

include hd

section

variable (hline : l.IsLine line n pixels)
include hline

theorem IsLine.length_sixteen :
    line.length = n * l.colorType.numBands * 2 := by
  have hbits : n * l.bitDepth * l.colorType.numBands = n * l.colorType.numBands * 2 * 8 := by
    rw [hd]
    ring
  rw [hline.length_line, hbits]
  omega

theorem IsLine.sample_sixteen (hi : i < n) (hs : (pixels i)[c]? = some s) :
    (byteAt line ((i * l.colorType.numBands + c) * 2)).toNat * 256 +
      (byteAt line ((i * l.colorType.numBands + c) * 2 + 1)).toNat = s := by
  have hsample := hline.sample i hi c s hs
  rwa [sampleAt, if_pos hd] at hsample

theorem IsLine.byteAt_sixteen (hi : i < n) (hs : (pixels i)[c]? = some s) :
    byteAt line ((i * l.colorType.numBands + c) * 2) = l.sampleByte s := by
  have hsample := hline.sample_sixteen hd hi hs
  have hlow := (byteAt line ((i * l.colorType.numBands + c) * 2 + 1)).toNat_lt
  rw [sampleByte, if_pos hd, ← hsample, mul_comm _ 256, Nat.mul_add_div (by decide),
    Nat.div_eq_of_lt hlow, add_zero, UInt8.ofNat_toNat]

theorem IsLine.toShort_eq (hi : i < n) (hs : (pixels i)[c]? = some s) :
    toShort (byteAt line ((i * l.colorType.numBands + c) * 2))
      (byteAt line ((i * l.colorType.numBands + c) * 2 + 1)) = (s : Int).bmod 65536 := by
  exact congrArg (fun sample : Nat => (sample : Int).bmod 65536) (hline.sample_sixteen hd hi hs)

end

section

variable (hrow : l.IsRow samples line x₀ y₀ step n)
include hrow

theorem IsRow.downsample16to8Plain (htrns : l.trnsGrayRgb = false) (himg : l.IsRaster image) :
    l.Writes samples (rowPart x₀ y₀ step 0 n) image
      (downsample16to8Plain line image (toInt (pixelOffset l.width l.bpp x₀ y₀ : Nat)) step
        l.bpp) := by
  have hbpp := bpp_of_plain htrns
  have hlen := hrow.isLine.length_sixteen hd
  have hcnt : line.length / 2 / l.bpp = n := by
    rw [hlen, hbpp, Nat.mul_div_cancel _ (by decide), Nat.mul_div_cancel _ l.colorType.numBands_pos]
  rw [Png.downsample16to8Plain, hcnt]
  apply hrow.pixelLoop_all _ himg
  intro i hi
  have hidx : ∀ k < l.bpp, (i * l.bpp + k) * 2 < line.length := by
    intro k hk
    rw [hbpp] at hk ⊢
    have hlt := mul_add_lt_mul hi hk
    omega
  rw [loadEach_eq hidx, pixelBytes_of_plain htrns (hrow.isLine.length_samples i hi)]
  intro c s hs
  rw [hbpp]
  exact hrow.isLine.byteAt_sixteen hd hi hs

theorem IsRow.downsample16to8TrnsGray (htrns : l.trnsGrayRgb = true) (hcolor : l.colorType = .gray)
    (himg : l.IsRaster image) :
    l.Writes samples (rowPart x₀ y₀ step 0 n) image
      (downsample16to8TrnsGray l line image (toInt (pixelOffset l.width l.bpp x₀ y₀ : Nat))
        step) := by
  have hbands : l.colorType.numBands = 1 := by rw [hcolor]; rfl
  have hstride : step * 2 = step * l.bpp := by rw [bpp, htrns, hbands]; rfl
  have hlen := hrow.isLine.length_sixteen hd
  rw [hbands, mul_one] at hlen
  have hcnt : line.length / 2 = n := by omega
  rw [Png.downsample16to8TrnsGray, hcnt, hstride]
  apply hrow.pixelLoop_all _ himg
  intro i hi
  obtain ⟨g, hg⟩ := length_eq_one_iff.mp ((hrow.isLine.length_samples i hi).trans hbands)
  have hs : (samples (x₀ + i * step) y₀)[0]? = some g := by rw [hg]; rfl
  have hhigh := hrow.isLine.byteAt_sixteen hd hi hs
  have hshort := hrow.isLine.toShort_eq hd hi hs
  rw [hbands, mul_one, add_zero] at hhigh hshort
  rw [arrayLoad_eq (by omega), arrayLoad_eq (by omega), ok_bind, ok_bind, hg, pixelBytes, htrns,
    transparent, isTransparent, if_pos hd, hshort, hhigh]
  rfl

theorem IsRow.downsample16to8TrnsRgb (htrns : l.trnsGrayRgb = true) (hcolor : l.colorType = .rgb)
    (himg : l.IsRaster image) :
    l.Writes samples (rowPart x₀ y₀ step 0 n) image
      (downsample16to8TrnsRgb l line image (toInt (pixelOffset l.width l.bpp x₀ y₀ : Nat))
        step) := by
  have hbands : l.colorType.numBands = 3 := by rw [hcolor]; rfl
  have hstride : step * 4 = step * l.bpp := by rw [bpp, htrns, hbands]; rfl
  have hlen := hrow.isLine.length_sixteen hd
  rw [hbands] at hlen
  have hcnt : line.length / 2 / 3 = n := by omega
  rw [Png.downsample16to8TrnsRgb, hcnt, hstride]
  apply hrow.pixelLoop_all _ himg
  intro i hi
  obtain ⟨r, g, b, hpixel⟩ := length_eq_three.mp ((hrow.isLine.length_samples i hi).trans hbands)
  have hr : (samples (x₀ + i * step) y₀)[0]? = some r := by rw [hpixel]; rfl
  have hg : (samples (x₀ + i * step) y₀)[1]? = some g := by rw [hpixel]; rfl
  have hb : (samples (x₀ + i * step) y₀)[2]? = some b := by rw [hpixel]; rfl
  have hhighR := hrow.isLine.byteAt_sixteen hd hi hr
  have hhighG := hrow.isLine.byteAt_sixteen hd hi hg
  have hhighB := hrow.isLine.byteAt_sixteen hd hi hb
  have hshortR := hrow.isLine.toShort_eq hd hi hr
  have hshortG := hrow.isLine.toShort_eq hd hi hg
  have hshortB := hrow.isLine.toShort_eq hd hi hb
  have hi0 : (i * 3 + 0) * 2 = i * 6 := by omega
  have hi1 : (i * 3 + 1) * 2 = i * 6 + 2 := by omega
  have hi2 : (i * 3 + 2) * 2 = i * 6 + 4 := by omega
  rw [hbands, hi0] at hhighR hshortR
  rw [hbands, hi1] at hhighG hshortG
  rw [hbands, hi2] at hhighB hshortB
  iterate 6 rw [arrayLoad_eq (by omega), ok_bind]
  rw [hpixel, pixelBytes, htrns, transparent, isTransparent, if_pos hd, isTransparent, if_pos hd,
    isTransparent, if_pos hd, hshortR, hshortG, hshortB, hhighR, hhighG, hhighB, Bool.decide_and,
    Bool.decide_and]
  rfl

/-- Samples of 16 bits: the high bytes, with an alpha byte for a transparent colour. -/
theorem IsRow.downsample16to8 (hl : l.Supported) (himg : l.IsRaster image) :
    l.Writes samples (rowPart x₀ y₀ step 0 n) image
      (downsample16to8 l line image (toInt (pixelOffset l.width l.bpp x₀ y₀ : Nat)) step
        l.bpp) := by
  rw [Png.downsample16to8]
  cases htrns : l.trnsGrayRgb with
  | false =>
    rw [if_pos (by decide)]
    exact hrow.downsample16to8Plain hd htrns himg
  | true =>
    rw [if_neg (by decide)]
    cases hl.trns htrns with
    | inl hgray =>
      rw [if_pos hgray]
      exact hrow.downsample16to8TrnsGray hd htrns hgray himg
    | inr hrgb =>
      rw [if_neg (by rw [hrgb]; decide), if_pos hrgb]
      exact hrow.downsample16to8TrnsRgb hd htrns hrgb himg

end

end Sixteen

/-! ## Samples of one byte -/

section Eight

variable (hd : l.bitDepth = 8)

include hd

theorem IsLine.length_eight (hline : l.IsLine line n pixels) :
    line.length = n * l.colorType.numBands := by
  have hbits : n * l.bitDepth * l.colorType.numBands = n * l.colorType.numBands * 8 := by
    rw [hd]
    ring
  rw [hline.length_line, hbits]
  omega

theorem IsLine.byteAt_eight (hline : l.IsLine line n pixels) (hi : i < n) (hs :
    (pixels i)[c]? = some s) :
    byteAt line (i * l.colorType.numBands + c) = UInt8.ofNat s := by
  have hsample := hline.sample i hi c s hs
  have hbyte := (byteAt line (i * l.colorType.numBands + c)).toNat_lt
  rw [sampleAt, hd, if_neg (by decide), Nat.mul_div_cancel _ (by decide), Nat.mul_mod_left,
    Nat.pow_zero, Nat.div_one, Nat.mod_eq_of_lt hbyte] at hsample
  rw [← hsample, UInt8.ofNat_toNat]

theorem sampleByte_eight (s : Nat) : l.sampleByte s = UInt8.ofNat s := by
  rw [sampleByte, if_neg (by omega), if_pos (.inl hd)]

theorem isTransparent_eight (s : Nat) (trns : Int) :
    l.isTransparent s trns = decide (UInt8.ofNat s = toByte trns) := by
  rw [isTransparent, if_neg (by omega), if_pos hd]

section

variable (hrow : l.IsRow samples line x₀ y₀ step n) (htrns : l.trnsGrayRgb = false)
include hrow htrns

theorem IsRow.lt_length_eight (hi : i < n) (hc : c < l.bpp) :
    i * l.bpp + c < line.length := by
  rw [hrow.isLine.length_eight hd, ← bpp_of_plain htrns]
  exact mul_add_lt_mul hi hc

theorem IsRow.bytes_eight (hi : i < n) :
    (List.range l.bpp).map (fun b => byteAt line (i * l.bpp + b)) =
      l.pixelBytes (samples (x₀ + i * step) y₀) := by
  apply pixelBytes_of_plain htrns (hrow.isLine.length_samples i hi)
  intro c s hs
  rw [bpp_of_plain htrns, hrow.isLine.byteAt_eight hd hi hs, sampleByte_eight hd]

theorem IsRow.copyPlain (himg : l.IsRaster image) :
    l.Writes samples (rowPart x₀ y₀ step 0 n) image
      (copyPlain line image (toInt (pixelOffset l.width l.bpp x₀ y₀ : Nat)) step l.bpp) := by
  have hbpp := bpp_of_plain htrns
  have hbpos : 0 < l.bpp := hbpp ▸ l.colorType.numBands_pos
  have hcnt : (line.length + l.bpp - 1) / l.bpp = n := by
    rw [hrow.isLine.length_eight hd, ← hbpp, Nat.add_sub_assoc hbpos, mul_comm,
      Nat.mul_add_div hbpos, Nat.div_eq_of_lt (Nat.sub_lt hbpos Nat.one_pos), add_zero]
  rw [Png.copyPlain, hcnt]
  apply hrow.pixelLoop_all _ himg
  intro i hi
  rw [loadEach_eq fun k hk => hrow.lt_length_eight hd htrns hi hk, hrow.bytes_eight hd htrns hi]

end

/-- A line without gaps is copied in one piece. -/
theorem IsRow.arraycopy (hrow : l.IsRow samples line x₀ y₀ 1 n) (htrns : l.trnsGrayRgb = false)
    (himg : l.IsRaster image) :
    l.Writes samples (rowPart x₀ y₀ 1 0 n) image
      (arraycopy line image (toInt (pixelOffset l.width l.bpp x₀ y₀ : Nat))) := by
  have hlen : line.length = n * l.bpp := by
    rw [hrow.isLine.length_eight hd, bpp_of_plain htrns]
  have hmove : ∀ j c, pixelOffset l.width l.bpp (x₀ + j * 1) y₀ + c =
      pixelOffset l.width l.bpp x₀ y₀ + (j * l.bpp + c) := by
    intro j c
    rw [pixelOffset, pixelOffset]
    ring
  have hroom : pixelOffset l.width l.bpp x₀ y₀ + line.length ≤ image.length := by
    have hlast := @pixelOffset_add_le l.width l.height l.bpp _ _
      (hrow.x_lt (n - 1) (Nat.sub_lt hrow.n_pos Nat.one_pos)) hrow.y_lt
    have hn : (n - 1) * l.bpp + l.bpp = n * l.bpp := by
      rw [← succ_mul, Nat.succ_eq_add_one, Nat.sub_add_cancel hrow.n_pos]
    rw [hmove, hn] at hlast
    rwa [hlen, himg.length_eq]
  have hpos : pixelOffset l.width l.bpp x₀ y₀ < 2 ^ 31 := by
    have := himg.length_lt
    omega
  rw [toInt_of_lt hpos]
  refine ⟨_, arraycopy_eq hroom, length_putAll .., ?_, ?_⟩
  · rintro x y - - ⟨rfl, j, -, hj, rfl⟩ c hc
    have hin : j * l.bpp + c < line.length := hrow.lt_length_eight hd htrns hj hc
    rw [getElem?_putAll hroom, hmove, if_pos (by omega), Nat.add_sub_cancel_left,
      ← hrow.bytes_eight hd htrns hj, getElem?_map, getElem?_range hc, Option.map_some,
      byteAt, getElem?_eq_getElem hin, Option.getD_some]
  · intro x y hx hy hout c hc
    rw [getElem?_putAll hroom, if_neg]
    rintro ⟨hle, hlt⟩
    obtain ⟨d, hd⟩ := Nat.exists_eq_add_of_le hle
    have hdn : d / l.bpp < n := Nat.div_lt_of_lt_mul (by rw [mul_comm]; omega)
    have hspl : d / l.bpp * l.bpp + d % l.bpp = d := by rw [mul_comm, Nat.div_add_mod]
    have hsame := hmove (d / l.bpp) (d % l.bpp)
    rw [hspl, ← hd] at hsame
    obtain ⟨rfl, rfl, _⟩ := pixelOffset_inj hx (hrow.x_lt _ hdn) hc
      (Nat.mod_lt _ (Nat.zero_lt_of_lt hc)) hsame.symm
    exact hout ⟨rfl, _, Nat.zero_le _, hdn, rfl⟩

section

variable (hrow : l.IsRow samples line x₀ y₀ step n)
include hrow

theorem IsRow.copyTrnsGray (htrns : l.trnsGrayRgb = true) (hcolor : l.colorType = .gray)
    (himg : l.IsRaster image) :
    l.Writes samples (rowPart x₀ y₀ step 0 n) image
      (copyTrnsGray l line image (toInt (pixelOffset l.width l.bpp x₀ y₀ : Nat)) step) := by
  have hbands : l.colorType.numBands = 1 := by rw [hcolor]; rfl
  have hstride : 2 * step = step * l.bpp := by rw [bpp, htrns, hbands, mul_comm]; rfl
  have hlen := hrow.isLine.length_eight hd
  rw [hbands, mul_one] at hlen
  rw [Png.copyTrnsGray, hlen, hstride]
  apply hrow.pixelLoop_all _ himg
  intro i hi
  obtain ⟨g, hg⟩ := length_eq_one_iff.mp ((hrow.isLine.length_samples i hi).trans hbands)
  have hs : (samples (x₀ + i * step) y₀)[0]? = some g := by rw [hg]; rfl
  have hbyte := hrow.isLine.byteAt_eight hd hi hs
  rw [hbands, mul_one, add_zero] at hbyte
  rw [arrayLoad_eq (by omega), ok_bind, hg, pixelBytes, htrns, transparent, isTransparent_eight hd,
    hbyte, ← sampleByte_eight hd]
  rfl

theorem IsRow.copyTrnsRgb (htrns : l.trnsGrayRgb = true) (hcolor : l.colorType = .rgb)
    (himg : l.IsRaster image) :
    l.Writes samples (rowPart x₀ y₀ step 0 n) image
      (copyTrnsRgb l line image (toInt (pixelOffset l.width l.bpp x₀ y₀ : Nat)) step) := by
  have hbands : l.colorType.numBands = 3 := by rw [hcolor]; rfl
  have hstride : step * 4 = step * l.bpp := by rw [bpp, htrns, hbands]; rfl
  have hlen := hrow.isLine.length_eight hd
  rw [hbands] at hlen
  have hcnt : line.length / 3 = n := by omega
  rw [Png.copyTrnsRgb, hcnt, hstride]
  apply hrow.pixelLoop_all _ himg
  intro i hi
  obtain ⟨r, g, b, hpixel⟩ := length_eq_three.mp ((hrow.isLine.length_samples i hi).trans hbands)
  have hr : (samples (x₀ + i * step) y₀)[0]? = some r := by rw [hpixel]; rfl
  have hg : (samples (x₀ + i * step) y₀)[1]? = some g := by rw [hpixel]; rfl
  have hb : (samples (x₀ + i * step) y₀)[2]? = some b := by rw [hpixel]; rfl
  have hbyteR := hrow.isLine.byteAt_eight hd hi hr
  have hbyteG := hrow.isLine.byteAt_eight hd hi hg
  have hbyteB := hrow.isLine.byteAt_eight hd hi hb
  rw [hbands] at hbyteR hbyteG hbyteB
  rw [add_zero] at hbyteR
  iterate 3 rw [arrayLoad_eq (by omega), ok_bind]
  rw [hpixel, pixelBytes, htrns, transparent, isTransparent_eight hd, isTransparent_eight hd,
    isTransparent_eight hd, hbyteR, hbyteG, hbyteB, Bool.decide_and, Bool.decide_and, map_cons,
    map_cons, map_cons, sampleByte_eight hd, sampleByte_eight hd, sampleByte_eight hd]
  rfl

/-- Samples of 8 bits are copied. -/
theorem IsRow.copy (hl : l.Supported) (himg : l.IsRaster image) :
    l.Writes samples (rowPart x₀ y₀ step 0 n) image
      (copy l line image (toInt (pixelOffset l.width l.bpp x₀ y₀ : Nat)) step l.bpp) := by
  rw [Png.copy]
  cases htrns : l.trnsGrayRgb with
  | false =>
    rw [if_pos (by decide)]
    by_cases hstep : step = 1
    · subst hstep
      rw [if_pos rfl]
      exact hrow.arraycopy hd htrns himg
    · rw [if_neg hstep]
      exact hrow.copyPlain hd htrns himg
  | true =>
    rw [if_neg (by decide)]
    cases hl.trns htrns with
    | inl hgray =>
      rw [if_pos hgray]
      exact hrow.copyTrnsGray hd htrns hgray himg
    | inr hrgb =>
      rw [if_neg (by rw [hrgb]; decide), if_pos hrgb]
      exact hrow.copyTrnsRgb hd htrns hrgb himg

end

end Eight

/-! ## Samples packed into bytes -/

/-- Sign extension does not show in the bits of the byte itself. -/
theorem signed_div_mod (b : UInt8) {d : Nat} (h : s + d ≤ 8) :
    ((b.toNat : Int).bmod 256 / 2 ^ s % 2 ^ d).toNat = b.toNat / 2 ^ s % 2 ^ d := by
  have hb := b.toNat_lt
  have hpow : (2 : Int) ^ d * 2 ^ (8 - s - d) * 2 ^ s = 256 := by
    rw [← pow_add, ← pow_add, show d + (8 - s - d) + s = 8 by omega]
    rfl
  have hpos : (2 : Int) ^ s ≠ 0 := pow_ne_zero s (by decide)
  obtain ⟨q, hq⟩ : ∃ q : Int, (b.toNat : Int).bmod 256 = b.toNat + q * 256 := by
    rw [Int.bmod_def]
    split
    · exact ⟨0, by omega⟩
    · exact ⟨-1, by omega⟩
  have hspl : q * 256 = 2 ^ d * (q * 2 ^ (8 - s - d)) * 2 ^ s := by
    rw [← hpow]
    ring
  have hbits : (b.toNat : Int).bmod 256 / 2 ^ s % 2 ^ d = (b.toNat : Int) / 2 ^ s % 2 ^ d := by
    rw [hq, hspl, Int.add_mul_ediv_right _ _ hpos, Int.add_mul_emod_self_left]
  rw [hbits]
  exact_mod_cast Int.toNat_natCast (b.toNat / 2 ^ s % 2 ^ d)

/-- A packed sample is a digit of its byte, the first being the highest. -/
theorem sampleAt_of_lt_eight {d spb : Nat} (hspb : spb * d = 8) (hd : d < 8) (line : List UInt8)
    (k : Nat) {pp : Nat} (hpp : pp < spb) :
    sampleAt d line (k * spb + pp) =
      (byteAt line k).toNat / 2 ^ ((spb - (pp + 1)) * d) % 2 ^ d := by
  have hbit : (k * spb + pp) * d = k * 8 + pp * d := by
    rw [Nat.add_mul, mul_assoc, hspb]
  have hlast : pp * d + d ≤ 8 := by
    rw [← hspb, ← succ_mul]
    exact mul_le_mul_right d hpp
  have hpos : 0 < d := pos_of_ne_zero (by rintro rfl; omega)
  have hshift : (spb - (pp + 1)) * d = 8 - d - pp * d := by
    rw [Nat.sub_mul, hspb, Nat.add_mul, Nat.one_mul]
    omega
  have hbyte : (k * 8 + pp * d) / 8 = k := by omega
  have hin : (k * 8 + pp * d) % 8 = pp * d := by omega
  rw [sampleAt, if_neg (by omega), hbit, hbyte, hin, hshift]

section Packed

variable {bytes : Nat → List UInt8} {spb : Nat} (hspb : spb * l.bitDepth = 8) (hd : l.bitDepth < 8)
  (hrow : l.IsRow samples line x₀ y₀ step n)
  (hbytes : ∀ i < n, bytes (sampleAt l.bitDepth line i) = l.pixelBytes (samples (x₀ + i * step) y₀))

include hspb hd hrow hbytes

/-- The first `pp` samples of the byte `k`. -/
theorem IsRow.sampleLoop (k : Nat) {pp : Nat} (hpp : pp ≤ spb) (hn : k * spb + pp ≤ n)
    (himg : l.IsRaster image) :
    l.Writes samples (rowPart x₀ y₀ step (k * spb) (k * spb + pp)) image
      (sampleLoop l.bitDepth bytes (toInt (pixelOffset l.width l.bpp x₀ y₀ : Nat)) (step * l.bpp)
        (k * spb) pp (((byteAt line k).toNat : Int).bmod 256 / 2 ^ ((spb - pp) * l.bitDepth)) image) := by
  induction pp generalizing image with
  | zero => exact .nothing fun x y => rowPart_self x y _
  | succ pp ih =>
    -- the loop goes from the last sample to the first, and shifts the byte on
    have hin : k * spb + pp < n := by omega
    have hoff : (k * spb + pp) * (step * l.bpp) = (k * spb + pp) * step * l.bpp :=
      (mul_assoc ..).symm
    have hbits : (spb - (pp + 1)) * l.bitDepth + l.bitDepth ≤ 8 := by
      rw [← hspb, ← succ_mul]
      exact mul_le_mul_right _ (by omega)
    have hnxt : (spb - (pp + 1)) * l.bitDepth + l.bitDepth = (spb - pp) * l.bitDepth := by
      rw [← succ_mul]
      congr 1
      omega
    rw [Png.sampleLoop, hoff, toInt_pixelOffset_add, signed_div_mod _ hbits,
      ← sampleAt_of_lt_eight hspb hd line k (by omega), hbytes _ hin,
      Int.ediv_ediv_of_nonneg (Int.pow_nonneg (by decide)), ← pow_add, hnxt]
    refine (hrow.storeBytes hin himg).bind himg
      (fun image' himg' => ih (by omega) (Nat.le_of_lt hin) himg') fun x y => ?_
    exact (rowPart_split (Nat.le_add_right ..) (Nat.le_succ _) x y).trans or_comm

/-- The bytes from `k` on, of which the last may be partly used. -/
theorem IsRow.byteLoop (hlen : line.length = (n * l.bitDepth + 7) / 8) (fuel k : Nat)
    (hfuel : n ≤ k * spb + fuel) (himg : l.IsRaster image) :
    l.Writes samples (rowPart x₀ y₀ step (k * spb) n) image
      (byteLoop l.bitDepth bytes (toInt (pixelOffset l.width l.bpp x₀ y₀ : Nat)) (step * l.bpp)
        line n fuel k image) := by
  have hdone : ∀ {k : Nat}, n ≤ k * spb → ∀ x y, ¬ rowPart x₀ y₀ step (k * spb) n x y := by
    rintro k hk x y ⟨_, j, hkj, hj, _⟩
    omega
  have hdpos : 0 < l.bitDepth := pos_of_ne_zero fun h0 => by rw [h0] at hspb; omega
  have hdiv : 8 / l.bitDepth = spb := by rw [← hspb, Nat.mul_div_cancel _ hdpos]
  have hspos : 0 < spb := pos_of_ne_zero (by rintro rfl; omega)
  induction fuel generalizing k image with
  | zero => exact .nothing (hdone hfuel)
  | succ fuel ih =>
    rw [Png.byteLoop, hdiv]
    dsimp only
    by_cases hk : k * spb < n
    · have hbyte : k < line.length := by
        have hbits : k * 8 + l.bitDepth ≤ n * l.bitDepth := by
          rw [← hspb, ← mul_assoc, ← succ_mul]
          exact mul_le_mul_right _ hk
        omega
      have hnxt : (k + 1) * spb = k * spb + spb := succ_mul ..
      have hrest : n ≤ (k + 1) * spb + fuel := by omega
      rw [if_pos hk, arrayLoad_eq hbyte, ok_bind]
      -- The last byte may hold fewer samples.
      by_cases hlast : n - k * spb < spb
      · rw [if_pos hlast]
        have hend : k * spb + (n - k * spb) = n := by omega
        apply (hrow.sampleLoop hspb hd hbytes k (Nat.le_of_lt hlast) (Nat.le_of_eq hend) himg).bind
          himg (fun image' himg' => ih (k + 1) hrest himg')
        intro x y
        rw [hend]
        exact (or_iff_left (hdone (by omega) x y)).symm
      · rw [if_neg hlast]
        apply (hrow.sampleLoop hspb hd hbytes k (Nat.le_refl _) (by omega) himg).bind
          himg (fun image' himg' => ih (k + 1) hrest himg')
        intro x y
        rw [hnxt]
        exact rowPart_split (by omega) (by omega) x y
    · rw [if_neg hk]
      exact .nothing (hdone (by omega))

end Packed

section Upsample

variable (hd : l.bitDepth < 8) (hl : l.Supported)

include hd hl

theorem Supported.samplesInByte : 8 / l.bitDepth * l.bitDepth = 8 := by
  have hmem := hl.bitDepth
  simp only [mem_cons, not_mem_nil, or_false] at hmem
  obtain h | h | h | h | h := hmem
  · rw [h]
  · rw [h]
  · rw [h]
  · omega
  · omega

theorem Supported.numBands_eq_one : l.colorType.numBands = 1 := by
  cases hl.low hd with
  | inl h | inr h => rw [h]; rfl

section

variable (hrow : l.IsRow samples line x₀ y₀ step n)
include hrow

theorem IsRow.bytes_packed {bytes : Nat → List UInt8}
    (hbytes : ∀ sample, bytes sample = l.pixelBytes [sample]) (hi : i < n) :
    bytes (sampleAt l.bitDepth line i) = l.pixelBytes (samples (x₀ + i * step) y₀) := by
  have hbands := hl.numBands_eq_one hd
  obtain ⟨s, hs⟩ := length_eq_one_iff.mp ((hrow.isLine.length_samples i hi).trans hbands)
  have hsample := hrow.isLine.sample i hi 0 s (by rw [hs]; rfl)
  rw [hbands, mul_one, add_zero] at hsample
  rw [hsample, hbytes, hs]

theorem IsRow.upsample {bytes : Nat → List UInt8}
    (hbytes : ∀ sample, bytes sample = l.pixelBytes [sample]) {image : List UInt8}
    (himg : l.IsRaster image) :
    l.Writes samples (rowPart x₀ y₀ step 0 n) image
      (Png.byteLoop l.bitDepth bytes (toInt (pixelOffset l.width l.bpp x₀ y₀ : Nat))
        (step * l.bpp) line n (n + 1) 0 image) := by
  have hlen := hrow.isLine.length_line
  rw [hl.numBands_eq_one hd, mul_one] at hlen
  have hloop := hrow.byteLoop (hl.samplesInByte hd) hd
    (fun i hi => hrow.bytes_packed hd hl hbytes hi) hlen (n + 1) 0 (by omega) himg
  rwa [Nat.zero_mul] at hloop

/-- Samples packed into bytes: palette indices, gray values, or gray values with alpha. -/
theorem IsRow.upsampleTo8 (himg : l.IsRaster image) :
    l.Writes samples (rowPart x₀ y₀ step 0 n) image
      (upsampleTo8 l line image (toInt (pixelOffset l.width l.bpp x₀ y₀ : Nat)) n step l.bpp) := by
  have hbands := hl.numBands_eq_one hd
  have h16 : l.bitDepth ≠ 16 := by omega
  have h8 : l.bitDepth ≠ 8 := by omega
  rw [Png.upsampleTo8]
  cases hl.low hd with
  | inl hpalette =>
    -- a palette image has no transparent colour
    have htrns : l.trnsGrayRgb = false := by
      cases h : l.trnsGrayRgb with
      | false => rfl
      | true =>
        have hcolor := hl.trns h
        rw [hpalette] at hcolor
        exact absurd hcolor (by decide)
    have hstride : step * l.bpp = step := by rw [bpp_of_plain htrns, hbands, mul_one]
    have hup := @IsRow.upsample l samples line x₀ y₀ step n hd hl hrow
      (fun value => [UInt8.ofNat value])
      (fun s => by simp [pixelBytes, htrns, sampleByte, h16, hpalette]) image himg
    rw [hstride] at hup
    rwa [if_pos hpalette]
  | inr hgray =>
    have hsample : ∀ s, l.sampleByte s = grayOf l.bitDepth s := by
      intro s
      rw [sampleByte, if_neg h16, if_neg (by rw [hgray]; simp [h8])]
    rw [if_neg (by rw [hgray]; decide)]
    cases htrns : l.trnsGrayRgb with
    | false =>
      have hbpp : l.bpp = 1 := (bpp_of_plain htrns).trans hbands
      have hstride : step * l.bpp = step := by rw [hbpp, mul_one]
      have hup := @IsRow.upsample l samples line x₀ y₀ step n hd hl hrow
        (fun value => [grayOf l.bitDepth value])
        (fun s => by simp [pixelBytes, htrns, hsample]) image himg
      rw [hstride] at hup
      rwa [if_pos hbpp]
    | true =>
      have hbpp : l.bpp = 2 := by rw [bpp, hbands, htrns]; rfl
      have hstride : step * l.bpp = step * 2 := by rw [hbpp]
      have hup := @IsRow.upsample l samples line x₀ y₀ step n hd hl hrow
        (fun value => [grayOf l.bitDepth value, alphaOf (value = l.trnsG)])
        (fun s => by simp [pixelBytes, htrns, hsample, transparent, isTransparent, h16, h8])
        image himg
      rw [hstride] at hup
      rwa [if_neg (by omega), if_pos ⟨rfl, hbpp⟩]

end

end Upsample

/-! ## All of them -/

/-- Whatever the depth, a line becomes the pixels of its row. -/
theorem IsRow.convert {mip : Nat} (hrow : l.IsRow samples line x₀ y₀ (incrementX mip) n)
    (hl : l.Supported) (hn : l.mipWidth mip = n) (himg : l.IsRaster image) :
    l.Writes samples (rowPart x₀ y₀ (incrementX mip) 0 n) image
      (l.convert line image (toInt (pixelOffset l.width l.bpp x₀ y₀ : Nat)) mip) := by
  rw [PNGImageLoader.convert]
  by_cases h16 : l.bitDepth = 16
  · rw [if_pos h16]
    exact hrow.downsample16to8 h16 hl himg
  · rw [if_neg h16]
    by_cases hlow : l.bitDepth < 8
    · rw [if_pos hlow, hn, Int.toNat_natCast]
      exact hrow.upsampleTo8 hlow hl himg
    · have h8 : l.bitDepth = 8 := by
        have hmem := hl.bitDepth
        simp only [mem_cons, not_mem_nil, or_false] at hmem
        omega
      rw [if_neg hlow]
      exact hrow.copy h8 hl himg

end PNGImageLoader

end OpenJfx.Iio.Png
