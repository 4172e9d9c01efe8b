/-
  OpenJfx.Iio.Png.Overflow

  Where the bits of a scan line do not fit an `int`, the line read is too short,
  or of negative size: the last byte of the first row is never written.  Where
  the height of the first pass overflows, its loop runs over the end of the
  data.  In all other images interlaced and plain decoding agree.
-/

import OpenJfx.Iio.Png.Adam7

namespace OpenJfx.Iio.Png

open OpenJfx.Lib.Raster List Nat Option

/-! ## What short lines leave alone -/

/-- All that changed lies from `low` on and below `high`. -/
structure KeepsOutside (low high : Nat) (image image' : List UInt8) : Prop where
  length_eq : image'.length = image.length
  kept : ∀ k, k < low ∨ high ≤ k → image'[k]? = image[k]?

namespace KeepsOutside

variable {low mid high : Nat} {image image' image'' : List UInt8}

theorem refl : KeepsOutside low high image image := ⟨rfl, fun _ _ => rfl⟩

theorem trans (h1 : KeepsOutside low mid image image') (h2 : KeepsOutside mid high image' image'')
    (hlow : low ≤ mid) (hhigh : mid ≤ high) : KeepsOutside low high image image'' where
  length_eq := h2.length_eq.trans h1.length_eq
  kept k hk := (h2.kept k (by omega)).trans (h1.kept k (by omega))

end KeepsOutside

variable {image image' line : List UInt8} {bytes : Nat → Except Failure (List UInt8)}

theorem storeBytes_keepsOutside {bytes : List UInt8} {o : Nat}
    (hsz : image.length < 2 ^ 31) (hok : storeBytes image o bytes = .ok image') :
    KeepsOutside o (o + bytes.length) image image' ∧
      (bytes ≠ [] → o + bytes.length ≤ image.length) := by
  induction bytes generalizing image o with
  | nil =>
    cases hok
    exact ⟨.refl, fun h => (h rfl).elim⟩
  | cons b bytes ih =>
    rw [storeBytes] at hok
    by_cases ho : o < image.length
    · have hnxt : toInt ((o : Int) + 1) = (o + 1 : Nat) := toInt_of_lt (n := o + 1) (by omega)
      rw [arrayStore_of_lt ho, ok_bind, hnxt] at hok
      obtain ⟨hkeeps, hroom⟩ := ih (by rwa [length_set]) hok
      rw [length_set] at hroom
      refine ⟨⟨hkeeps.length_eq.trans length_set, fun k hk => ?_⟩, fun _ => ?_⟩
      · rw [length_cons] at hk
        rw [hkeeps.kept k (by omega), getElem?_set_ne (by omega)]
      · rw [length_cons]
        by_cases hnil : bytes = []
        · subst hnil
          exact ho
        · have := hroom hnil
          omega
    · rw [arrayStore, if_neg (by omega)] at hok
      cases hok

theorem pixelLoop_keepsOutside {b : Nat} (hb : 0 < b)
    (hbytes : ∀ i bs, bytes i = .ok bs → bs.length = b) {remaining i o : Nat}
    (hsz : image.length < 2 ^ 31)
    (hok : pixelLoop bytes b remaining i o image = .ok image') :
    KeepsOutside o (o + remaining * b) image image' := by
  induction remaining generalizing i o image with
  | zero =>
    cases hok
    exact .refl
  | succ remaining ih =>
    rw [pixelLoop] at hok
    obtain ⟨bs, hbs, hok⟩ := bind_eq_ok hok
    obtain ⟨image1, hstore, hok⟩ := bind_eq_ok hok
    have hlen := hbytes i bs hbs
    obtain ⟨hkeeps, hroom⟩ := storeBytes_keepsOutside hsz hstore
    rw [hlen] at hkeeps hroom
    have hfits := hroom (by rintro rfl; rw [length_nil] at hlen; omega)
    have hnxt : toInt ((o : Int) + b) = (o + b : Nat) := toInt_of_lt (n := o + b) (by omega)
    rw [hnxt] at hok
    have hrest := ih (by rw [hkeeps.length_eq]; exact hsz) hok
    have hend : o + b + remaining * b = o + (remaining + 1) * b := by ring
    rw [hend] at hrest
    exact hkeeps.trans hrest (by omega) (by rw [← hend]; omega)

theorem arraycopy_keepsOutside {o : Nat}
    (hok : arraycopy line image o = .ok image') : KeepsOutside o (o + line.length) image image' := by
  by_cases hroom : o + line.length ≤ image.length
  · rw [arraycopy_eq hroom] at hok
    cases hok
    refine ⟨length_putAll .., fun k hk => ?_⟩
    rw [getElem?_putAll hroom, if_neg (by omega)]
  · rw [arraycopy, if_neg (by omega)] at hok
    cases hok

theorem byteLoop_lt_length {d stride w : Nat} {bytes : Nat → List UInt8} {pos : Int}
    (hd : 0 < 8 / d) {fuel k : Nat}
    (hfuel : w ≤ k * (8 / d) + fuel)
    (hok : byteLoop d bytes pos stride line w fuel k image = .ok image') {j : Nat} (hkj : k ≤ j)
    (hj : j * (8 / d) < w) : j < line.length := by
  have hle : k * (8 / d) ≤ j * (8 / d) := Nat.mul_le_mul_right _ hkj
  induction fuel generalizing k image with
  | zero => omega
  | succ fuel ih =>
    rw [byteLoop] at hok
    dsimp only at hok
    rw [if_pos (by omega)] at hok
    by_cases hk : k < line.length
    · by_cases heq : j = k
      · exact heq ▸ hk
      · have hsucc : (k + 1) * (8 / d) = k * (8 / d) + 8 / d := succ_mul ..
        rw [arrayLoad_eq hk, ok_bind] at hok
        obtain ⟨image1, -, hok⟩ := bind_eq_ok hok
        exact ih (by omega) hok (by omega) (Nat.mul_le_mul_right _ (by omega))
    · rw [arrayLoad, getElem?_eq_none (by omega)] at hok
      cases hok

theorem length_of_mapM {α β : Type} {f : α → Except Failure β} {xs : List α} {ys : List β}
    (h : xs.mapM f = .ok ys) : ys.length = xs.length := by
  induction xs generalizing ys with
  | nil =>
    cases h
    rfl
  | cons x xs ih =>
    rw [mapM_cons] at h
    obtain ⟨y, -, h⟩ := bind_eq_ok h
    obtain ⟨ys', hxs, h⟩ := bind_eq_ok h
    cases h
    rw [length_cons, length_cons, ih hxs]

theorem length_of_loadEach {bs : List UInt8} {index : Nat → Nat} {b : Nat}
    (h : loadEach line index b = .ok bs) : bs.length = b :=
  (length_of_mapM h).trans length_range

namespace PNGImageLoader

variable {l : PNGImageLoader} {line image image' : List UInt8} {o : Nat}

theorem bpp_pos : 0 < l.bpp := Nat.lt_of_lt_of_le l.colorType.numBands_pos (Nat.le_add_right ..)

theorem keepsOutside_of_lt (hsz : image.length < 2 ^ 31) {stride : Nat} (hstride : stride = l.bpp)
    (hbytes : ∀ i bs, bytes i = .ok bs → bs.length = stride) {remaining : Nat}
    (hremaining : remaining < l.width)
    (hok : pixelLoop bytes stride remaining 0 o image = .ok image') :
    KeepsOutside o (o + l.width * l.bpp - 1) image image' := by
  have hb : 0 < l.bpp := bpp_pos
  have hrow : (remaining + 1) * l.bpp ≤ l.width * l.bpp := Nat.mul_le_mul_right _ hremaining
  have hsucc : (remaining + 1) * l.bpp = remaining * l.bpp + l.bpp := succ_mul ..
  subst hstride
  have hkeeps := pixelLoop_keepsOutside hb hbytes hsz hok
  exact ⟨hkeeps.length_eq, fun k hk => hkeeps.kept k (by omega)⟩

section Short

variable (hl : l.Supported) (hsz : image.length < 2 ^ 31)
  (hshort : line.length < (l.width * l.bitDepth * l.colorType.numBands + 7) / 8)

include hl hsz hshort

theorem downsample16to8_keepsOutside (hd : l.bitDepth = 16)
    (hok : downsample16to8 l line image o 1 l.bpp = .ok image') :
    KeepsOutside o (o + l.width * l.bpp - 1) image image' := by
  have hhalf : line.length / 2 < l.width * l.colorType.numBands := by
    have hbits : l.width * l.bitDepth * l.colorType.numBands =
        l.width * l.colorType.numBands * 16 := by
      rw [hd]
      ring
    omega
  rw [downsample16to8] at hok
  cases htrns : l.trnsGrayRgb with
  | false =>
    rw [htrns, if_pos (by decide), downsample16to8Plain, Nat.one_mul] at hok
    refine keepsOutside_of_lt hsz rfl (fun i bs h => length_of_loadEach h) ?_ hok
    rw [bpp_of_plain htrns]
    exact Nat.div_lt_of_lt_mul (by rwa [Nat.mul_comm])
  | true =>
    rw [htrns, if_neg (by decide)] at hok
    cases hl.trns htrns with
    | inl hgray =>
      rw [if_pos hgray] at hok
      rw [hgray, show ColorType.gray.numBands = 1 from rfl] at hhalf
      refine keepsOutside_of_lt hsz (by rw [bpp, htrns, hgray]; rfl) ?_ (by omega) hok
      intro i bs h
      obtain ⟨_, -, h⟩ := bind_eq_ok h
      obtain ⟨_, -, h⟩ := bind_eq_ok h
      cases h
      rfl
    | inr hrgb =>
      rw [if_neg (by rw [hrgb]; decide), if_pos hrgb] at hok
      rw [hrgb, show ColorType.rgb.numBands = 3 from rfl] at hhalf
      refine keepsOutside_of_lt hsz (by rw [bpp, htrns, hrgb]; rfl) ?_ (by omega) hok
      intro i bs h
      iterate 6 obtain ⟨_, -, h⟩ := bind_eq_ok h
      cases h
      rfl

theorem copy_keepsOutside (hd : l.bitDepth = 8) (hok : copy l line image o 1 l.bpp = .ok image') :
    KeepsOutside o (o + l.width * l.bpp - 1) image image' := by
  have hlen : line.length < l.width * l.colorType.numBands := by
    have hbits : l.width * l.bitDepth * l.colorType.numBands =
        l.width * l.colorType.numBands * 8 := by
      rw [hd]
      ring
    omega
  rw [copy] at hok
  cases htrns : l.trnsGrayRgb with
  | false =>
    rw [htrns, if_pos (by decide), if_pos rfl] at hok
    rw [← bpp_of_plain htrns] at hlen
    have hkeeps := arraycopy_keepsOutside hok
    exact ⟨hkeeps.length_eq, fun k hk => hkeeps.kept k (by omega)⟩
  | true =>
    rw [htrns, if_neg (by decide)] at hok
    cases hl.trns htrns with
    | inl hgray =>
      rw [if_pos hgray] at hok
      rw [hgray, show ColorType.gray.numBands = 1 from rfl] at hlen
      refine keepsOutside_of_lt hsz (by rw [bpp, htrns, hgray]; rfl) ?_ (by omega) hok
      intro i bs h
      obtain ⟨_, -, h⟩ := bind_eq_ok h
      cases h
      rfl
    | inr hrgb =>
      rw [if_neg (by rw [hrgb]; decide), if_pos hrgb] at hok
      rw [hrgb, show ColorType.rgb.numBands = 3 from rfl] at hlen
      refine keepsOutside_of_lt hsz (by rw [bpp, htrns, hrgb]; rfl) ?_ (by omega) hok
      intro i bs h
      iterate 3 obtain ⟨_, -, h⟩ := bind_eq_ok h
      cases h
      rfl

omit hsz in
/-- Samples packed into bytes run over the end of a short line. -/
theorem upsampleTo8_short (hd : l.bitDepth < 8) :
    upsampleTo8 l line image o l.width 1 l.bpp ≠ .ok image' := by
  intro hok
  have hspb := hl.samplesInByte hd
  have hbands := hl.numBands_eq_one hd
  rw [hbands, Nat.mul_one] at hshort
  have hspos : 0 < 8 / l.bitDepth := Nat.pos_of_ne_zero fun h0 => by rw [h0] at hspb; omega
  have hin : line.length * (8 / l.bitDepth) < l.width := by
    apply Nat.lt_of_mul_lt_mul_right (a := l.bitDepth)
    rw [Nat.mul_assoc, hspb]
    omega
  have hnever : ∀ {bytes : Nat → List UInt8} {stride : Nat},
      byteLoop l.bitDepth bytes o stride line l.width (l.width + 1) 0 image ≠ .ok image' := by
    intro bytes stride hloop
    exact Nat.lt_irrefl _ (byteLoop_lt_length hspos (by omega) hloop (Nat.zero_le _) hin)
  rw [upsampleTo8] at hok
  split at hok
  · exact hnever hok
  · split at hok
    · exact hnever hok
    · split at hok
      · exact hnever hok
      · rename_i hpalette hone htwo
        cases htrns : l.trnsGrayRgb with
        | false => exact hone ((bpp_of_plain htrns).trans hbands)
        | true => exact htwo ⟨htrns, by rw [bpp, hbands, htrns]; rfl⟩

theorem convert_keepsOutside (hwidth : l.mipWidth 7 = l.width)
    (hok : l.convert line image o 7 = .ok image') :
    KeepsOutside o (o + l.width * l.bpp - 1) image image' := by
  rw [convert] at hok
  split at hok
  · rename_i h16
    exact downsample16to8_keepsOutside hl hsz hshort h16 hok
  · split at hok
    · rename_i hlow
      rw [hwidth, Int.toNat_natCast] at hok
      exact (upsampleTo8_short hl hshort hlow hok).elim
    · rename_i h16 hlow
      have h8 : l.bitDepth = 8 := by
        have hmem := hl.bitDepth
        simp only [mem_cons, not_mem_nil, or_false] at hmem
        omega
      exact copy_keepsOutside hl hsz hshort h8 hok

end Short

/-! ## Overflow -/

theorem toNat_tdiv_toInt_lt {bits : Nat} (h : 2147483648 ≤ bits) :
    ((toInt bits).tdiv 8).toNat < bits / 8 := by
  have hlt : toInt (bits : Int) < 2147483648 := toInt_lt bits
  have hle : (toInt (bits : Int)).tdiv 8 ≤ (2147483647 : Int).tdiv 8 :=
    Int.tdiv_le_tdiv (by decide) (by omega)
  rw [show (2147483647 : Int).tdiv 8 = 268435455 from rfl] at hle
  omega

theorem passSize_one (size : Nat) : passSize size 0 1 = size := by
  rw [passSize, Nat.div_one]
  omega

theorem width_lt (hh : 0 < l.height) (hraster : l.width * l.height * l.bpp < 2 ^ 31) :
    l.width < 2 ^ 31 := by
  calc l.width ≤ l.width * l.height := Nat.le_mul_of_pos_right _ hh
    _ ≤ l.width * l.height * l.bpp := Nat.le_mul_of_pos_right _ bpp_pos
    _ < 2 ^ 31 := hraster

theorem height_lt (hw : 0 < l.width) (hraster : l.width * l.height * l.bpp < 2 ^ 31) :
    l.height < 2 ^ 31 := by
  calc l.height ≤ l.width * l.height := Nat.le_mul_of_pos_left _ hw
    _ ≤ l.width * l.height * l.bpp := Nat.le_mul_of_pos_right _ bpp_pos
    _ < 2 ^ 31 := hraster

theorem rowLoop_ne_ok {mip size fuel y : Nat} {scanLine1 data : List UInt8}
    {result : List UInt8 × List UInt8} (hheight : l.mipHeight mip < 0) :
    l.rowLoop mip size fuel y scanLine1 image data ≠ .ok result := by
  induction fuel generalizing y scanLine1 image data with
  | zero => exact nofun
  | succ fuel ih =>
    intro hok
    rw [rowLoop.eq_def] at hok
    dsimp only at hok
    rw [if_neg (by omega)] at hok
    split at hok
    · cases hok
    · split at hok
      · cases hok
      · obtain ⟨_, -, hok⟩ := bind_eq_ok hok
        obtain ⟨_, -, hok⟩ := bind_eq_ok hok
        exact ih hok

section Raster

variable (hw : 0 < l.width) (hh : 0 < l.height) (hraster : l.width * l.height * l.bpp < 2 ^ 31)

include hw hh hraster

theorem mipWidth_seven : l.mipWidth 7 = l.width := by
  have hlt := width_lt hh hraster
  exact (mipSize_of_lt Nat.one_pos hw (by omega)).trans (congrArg Nat.cast (passSize_one l.width))

theorem mipHeight_seven : l.mipHeight 7 = l.height := by
  have hlt := height_lt hw hraster
  exact (mipSize_of_lt Nat.one_pos hh (by omega)).trans (congrArg Nat.cast (passSize_one l.height))

/-- The last byte of the first row is kept when all lines are short. -/
theorem rowLoop_keeps (hl : l.Supported) {size : Nat}
    (hshort : size < (l.width * l.bitDepth * l.colorType.numBands + 7) / 8) {fuel y : Nat}
    {scanLine1 data rest : List UInt8} (himg : l.IsRaster image) (hy : y ≤ l.height)
    (hdata : ∀ b ∈ data, b = 0)
    (hok : l.rowLoop 7 size fuel y scanLine1 image data = .ok (image', rest)) :
    image'[l.width * l.bpp - 1]? = image[l.width * l.bpp - 1]? := by
  induction fuel generalizing y scanLine1 image data with
  | zero => cases hok
  | succ fuel ih =>
    rw [rowLoop.eq_def, mipHeight_seven hw hh hraster] at hok
    dsimp only at hok
    split at hok
    · cases hok
      rfl
    · rename_i hlast
      split at hok
      · cases hok
      · rename_i filterByte data
        split at hok
        · cases hok
        · rename_i hlen
          obtain rfl : filterByte = 0 := hdata _ mem_cons_self
          have htake : (data.take size).length = size := by
            rw [length_take]
            omega
          have hpos : pixelOffset l.width l.bpp 0 y < 2 ^ 31 := by
            have hlt := @pixelOffset_add_lt l.width l.height l.bpp 0 y 0 hw (by omega) bpp_pos
            omega
          have hrow : pixelOffset l.width l.bpp 0 y = y * (l.width * l.bpp) := by
            rw [pixelOffset, Nat.add_zero, Nat.mul_assoc]
          have hrowPos : l.rowPos 7 y = (pixelOffset l.width l.bpp 0 y : Nat) := by
            rw [rowPos_eq]
            change toInt (pixelOffset l.width l.bpp 0 (0 + y * 1) : Nat) = _
            rw [Nat.zero_add, Nat.mul_one, toInt_of_lt hpos]
          rw [show doFilter _ _ (0 : UInt8).toNat _ = .ok (data.take size) from rfl, ok_bind,
            hrowPos] at hok
          obtain ⟨image1, hconvert, hok⟩ := bind_eq_ok hok
          have hkeeps := convert_keepsOutside hl himg.length_lt (by rwa [htake])
            (mipWidth_seven hw hh hraster) hconvert
          have himage1 : l.IsRaster image1 :=
            ⟨hkeeps.length_eq.trans himg.length_eq, hkeeps.length_eq ▸ himg.length_lt⟩
          have hdata' : ∀ b ∈ data.drop size, b = 0 := fun b hb =>
            hdata b (.tail _ (mem_of_mem_drop hb))
          rw [ih himage1 (by omega) hdata' hok, hkeeps.kept]
          rw [hrow]
          -- The last byte of row `y` is spared, and the first row ends before all others.
          cases y with
          | zero => omega
          | succ y =>
            have hpos : 0 < l.width * l.bpp := Nat.mul_pos hw bpp_pos
            rw [succ_mul]
            omega

end Raster

/-! ## The black image -/

/-- The lines of an image whose samples are all zero. -/
def blackLines (l : PNGImageLoader) (mip : Nat) : List (List UInt8) :=
  List.replicate (l.passHeight mip)
    (List.replicate ((l.passWidth mip * l.bitDepth * l.colorType.numBands + 7) / 8) 0)

def blackSamples (l : PNGImageLoader) (_ _ : Nat) : List Nat :=
  List.replicate l.colorType.numBands 0

theorem byteAt_replicate (n k : Nat) : byteAt (List.replicate n 0) k = 0 := by
  rw [byteAt, getElem?_replicate]
  by_cases hk : k < n
  · rw [if_pos hk, Option.getD_some]
  · rw [if_neg hk, Option.getD_none]

theorem sampleAt_replicate (d n k : Nat) : sampleAt d (List.replicate n 0) k = 0 := by
  rw [sampleAt, byteAt_replicate, byteAt_replicate, byteAt_replicate]
  split
  · rfl
  · exact (congrArg (· % 2 ^ d) (Nat.zero_div _)).trans (zero_mod _)

theorem isPass_blackLines (l : PNGImageLoader) (mip : Nat) :
    l.IsPass l.blackSamples mip (l.blackLines mip) where
  length_eq := length_replicate
  isLine y line hline := by
    rw [blackLines, getElem?_replicate] at hline
    split at hline
    · cases hline
      refine ⟨length_replicate, fun i _ => length_replicate, fun i _ c s hs => ?_⟩
      rw [blackSamples, getElem?_replicate] at hs
      split at hs
      · cases hs
        exact sampleAt_replicate ..
      · cases hs
    · cases hline

theorem zero_of_mem_unfiltered_blackLines (l : PNGImageLoader) (mip : Nat) :
    ∀ b ∈ unfiltered (l.blackLines mip), b = 0 := by
  intro b hb
  obtain ⟨line, hline, hmem⟩ := mem_flatMap.mp hb
  rw [eq_of_mem_replicate hline] at hmem
  cases mem_cons.mp hmem with
  | inl h => exact h
  | inr h => exact eq_of_mem_replicate h

theorem exists_ne_byte (b : UInt8) : ∃ b' : UInt8, b' ≠ b := by
  by_cases h : b = 0
  · exact ⟨1, by rw [h]; decide⟩
  · exact ⟨0, Ne.symm h⟩

section Agrees

variable (hl : l.Supported) (hw : 0 < l.width) (hh : 0 < l.height)
  (hraster : l.width * l.height * l.bpp < 2 ^ 31)

include hw hh hraster

theorem scanLineSize_short (hline : 2 ^ 31 ≤ l.width * l.bitDepth * l.colorType.numBands + 7) :
    (l.scanLineSize 7).toNat < (l.width * l.bitDepth * l.colorType.numBands + 7) / 8 := by
  have hcast : (l.width : Int) * l.bitDepth * l.colorType.numBands + 7 =
      ((l.width * l.bitDepth * l.colorType.numBands + 7 : Nat) : Int) := rfl
  rw [scanLineSize, mipWidth_seven hw hh hraster, toInt_toInt_mul, toInt_toInt_add, hcast]
  exact toNat_tdiv_toInt_lt hline

theorem height_of_agrees (hagr : l.Agrees) : l.height + 7 < 2 ^ 31 := by
  by_contra hheight
  have hlt := height_lt hw hraster
  have hneg : l.mipHeight 0 < 0 := by
    obtain ⟨m, hm⟩ : ∃ m : Nat, toInt ((l.height - 0 + 8 - 1 : Nat) : Int) = -(m : Int) ∧ 8 ≤ m := by
      refine ⟨2 ^ 32 - (l.height + 7), ?_, by omega⟩
      rw [toInt, Int.bmod_def]
      omega
    have hmip : l.mipHeight 0 = -((m / 8 : Nat) : Int) := by
      have hsz := @mipSize_eq l.height 0 8 (by decide) hh
      rw [hm.1, Int.neg_tdiv] at hsz
      exact hsz
    omega
  have himg : l.IsRaster (List.replicate (l.width * l.height * l.bpp) 0) :=
    ⟨length_replicate, by rw [length_replicate]; exact hraster⟩
  obtain ⟨image', hinterlaced, -⟩ := hagr.load_eq l.blackSamples (l.passData l.blackLines 7 0)
    (unfiltered (l.blackLines 7)) _ _ ⟨l.blackLines, fun mip _ _ => l.isPass_blackLines mip, rfl⟩
    ⟨l.blackLines 7, l.isPass_blackLines 7, rfl⟩ himg himg
  rw [load_withInterlaced_true, loadPasses, if_pos ⟨hw, hh⟩, loadMip] at hinterlaced
  split at hinterlaced
  · cases hinterlaced
  · generalize hloop : l.rowLoop 0 _ _ _ _ _ _ = result at hinterlaced
    cases result with
    | error e => cases hinterlaced
    | ok result => exact rowLoop_ne_ok hneg hloop

include hl

theorem line_of_agrees (hagr : l.Agrees) :
    l.width * l.bitDepth * l.colorType.numBands + 7 < 2 ^ 31 := by
  by_contra hline
  have hshort := scanLineSize_short hw hh hraster (by omega)
  clear hline
  have hb : 0 < l.bpp := bpp_pos
  have hlen : (l.pixelBytes (l.blackSamples (l.width - 1) 0)).length = l.bpp :=
    l.length_pixelBytes length_replicate
  obtain ⟨e, he⟩ : ∃ e, (l.pixelBytes (l.blackSamples (l.width - 1) 0))[l.bpp - 1]? = some e :=
    ⟨_, getElem?_eq_getElem (by rw [hlen]; exact sub_lt hb Nat.one_pos)⟩
  obtain ⟨b, hne⟩ := exists_ne_byte e
  have himg : l.IsRaster (List.replicate (l.width * l.height * l.bpp) b) :=
    ⟨length_replicate, by rw [length_replicate]; exact hraster⟩
  obtain ⟨image', -, hplain, hshows⟩ := hagr.load_eq l.blackSamples (l.passData l.blackLines 7 0)
    (unfiltered (l.blackLines 7)) _ _ ⟨l.blackLines, fun mip _ _ => l.isPass_blackLines mip, rfl⟩
    ⟨l.blackLines 7, l.isPass_blackLines 7, rfl⟩ himg himg
  have hshown := hshows (l.width - 1) (by omega) 0 hh (l.bpp - 1) (by omega)
  have hplace : pixelOffset l.width l.bpp (l.width - 1) 0 + (l.bpp - 1) = l.width * l.bpp - 1 := by
    have hrow : (l.width - 1) * l.bpp + l.bpp = l.width * l.bpp := by
      rw [← succ_mul, succ_eq_add_one, Nat.sub_add_cancel hw]
    rw [pixelOffset, Nat.zero_mul, Nat.zero_add]
    omega
  have hin : l.width * l.bpp - 1 < l.width * l.height * l.bpp := by
    rw [← hplace]
    exact pixelOffset_add_lt (by omega) hh (by omega)
  rw [hplace, he] at hshown
  rw [load_withInterlaced_false, loadMip] at hplain
  split at hplain
  · cases hplain
  · generalize hloop : l.rowLoop 7 _ _ _ _ _ _ = result at hplain
    cases result with
    | error e => cases hplain
    | ok result =>
      obtain ⟨image1, rest⟩ := result
      have hkept := rowLoop_keeps hw hh hraster hl hshort himg (Nat.zero_le _)
        (l.zero_of_mem_unfiltered_blackLines 7) hloop
      cases hplain
      rw [hshown, getElem?_replicate, if_pos hin] at hkept
      exact hne (some.inj hkept).symm

end Agrees

/-- Interlaced and plain decoding agree exactly when no size overflows. -/
theorem agrees_iff (hl : l.Supported) (hw : 0 < l.width) (hh : 0 < l.height)
    (hraster : l.width * l.height * l.bpp < 2 ^ 31) : l.Agrees ↔ l.NoOverflow := by
  constructor
  · intro hagr
    exact ⟨line_of_agrees hl hw hh hraster hagr, height_of_agrees hw hh hraster hagr⟩
  · intro hfits
    exact agrees_of_noOverflow hfits hl hw hh

/-- Three by two pixels of three colours, one of them transparent. -/
def smallRgb : PNGImageLoader where
  width := 3
  height := 2
  bitDepth := 8
  colorType := .rgb
  isInterlaced := true
  trnsGrayRgb := true
  trnsR := 255
  trnsG := 0
  trnsB := 0

theorem supported_smallRgb : smallRgb.Supported where
  bitDepth := by decide
  low h := absurd h (by decide)
  palette h := absurd h (by decide)
  trns _ := .inr rfl

theorem agrees_smallRgb : smallRgb.Supported ∧ smallRgb.NoOverflow ∧ smallRgb.Agrees := by
  have hfits : smallRgb.NoOverflow := ⟨by decide, by decide⟩
  exact ⟨supported_smallRgb, hfits,
    (agrees_iff supported_smallRgb (by decide) (by decide) (by decide)).mpr hfits⟩

/-- A row of `2 ^ 28` gray pixels: its bits do not fit an `int`. -/
def wideGray : PNGImageLoader where
  width := 268435456
  height := 1
  bitDepth := 8
  colorType := .gray
  isInterlaced := false
  trnsGrayRgb := false
  trnsR := 0
  trnsG := 0
  trnsB := 0

theorem supported_wideGray : wideGray.Supported where
  bitDepth := by decide
  low h := absurd h (by decide)
  palette h := absurd h (by decide)
  trns h := absurd h (by decide)

/-- The number of bits in a line overflows. -/
theorem load_wideGray : wideGray.Supported ∧
    (∀ image data, (wideGray.withInterlaced false).load image data = .error .negativeArraySize) ∧
    ¬ wideGray.Agrees := by
  refine ⟨supported_wideGray, fun image data => ?_, fun hagr => ?_⟩
  · have hsz : wideGray.scanLineSize 7 < 0 := by decide
    rw [load_withInterlaced_false, loadMip, if_pos hsz]
    rfl
  · exact absurd (line_of_agrees supported_wideGray (by decide) (by decide) (by decide) hagr)
      (by decide)

end PNGImageLoader

end OpenJfx.Iio.Png
