/-
  OpenJfx.Iio.Bmp.RunLength

  What a run-length encoded stream denotes, and when `readRLE` draws it.

  A pixel is in the row that the line ends and the downward moves before it lead to, from the top
  or from the bottom.
-/

import OpenJfx.Iio.Bmp.Reader

namespace OpenJfx.Iio.Bmp

open List Int

variable {bgraPalette image image' : List UInt8} {offset : Int} {index : Nat}

/-! ## The image a stream denotes -/

/-- The row of the image that a pixel is in. -/
def Pixel.row (px : Pixel) (isBottomUp : Bool) (hght : Nat) : Nat :=
  if isBottomUp then hght - 1 - (px.lineEnds + px.downs) else px.lineEnds + px.downs

/-- The image with the palette colour of a pixel at a row and column. -/
def drawAt (bgraPalette : List UInt8) (width row column index : Nat) (image : List UInt8) :
    List UInt8 :=
  let offset := row * (width * 3) + column * 3
  ((image.set offset ((bgraPalette[index * 4 + 2]?).getD 0)).set (offset + 1)
    ((bgraPalette[index * 4 + 1]?).getD 0)).set (offset + 2) ((bgraPalette[index * 4]?).getD 0)

/-- The image with every pixel of a list at its place, in turn. -/
def drawn (bgraPalette : List UInt8) (isBottomUp : Bool) (width hght : Nat) (pixels : List Pixel)
    (image : List UInt8) : List UInt8 :=
  pixels.foldl
    (fun image px => drawAt bgraPalette width (px.row isBottomUp hght) px.column px.index image) image

/-! ## Drawing -/

theorem place_of_stores {image1 image2 image3 : List UInt8}
    (hidx : index * 4 + 2 < bgraPalette.length)
    (h0 : arrayStore image (toInt offset) ((bgraPalette[index * 4 + 2]?).getD 0) = .ok image1)
    (h1 : arrayStore image1 (toInt (offset + 1)) ((bgraPalette[index * 4 + 1]?).getD 0) = .ok image2)
    (h2 : arrayStore image2 (toInt (offset + 1 + 1)) ((bgraPalette[index * 4]?).getD 0) = .ok image3) :
    place bgraPalette image offset index = .ok image3 := by
  simp only [place, setRGBFromPalette, arrayLoad_of_lt hidx, toInt_toInt_add, h0, h1, h2,
    arrayLoad_of_lt (by omega : index * 4 + 1 < bgraPalette.length),
    arrayLoad_of_lt (by omega : index * 4 < bgraPalette.length), bind, Except.bind, pure,
    Except.pure, Except.map]

variable {width column row hght : Nat} {pixels : List Pixel} {isRLE4 : Bool}

theorem place_of_inside
    (hlen : row * (width * 3) + column * 3 + 3 ≤ image.length) (hsz : image.length < 2 ^ 31)
    (hidx : index * 4 + 2 < bgraPalette.length) :
    place bgraPalette image (row * (width * 3) + column * 3 : Nat) index =
      .ok (drawAt bgraPalette width row column index image) := by
  unfold drawAt
  generalize row * (width * 3) + column * 3 = offset at hlen ⊢
  have h0 : toInt offset = (offset : Nat) := toInt_of_lt (by omega)
  have h1 : toInt ((offset : Int) + 1) = (offset + 1 : Nat) := by
    rw [toInt, bmod_def]
    omega
  have h2 : toInt ((offset : Int) + 1 + 1) = (offset + 2 : Nat) := by
    rw [toInt, bmod_def]
    omega
  refine place_of_stores hidx (h0 ▸ arrayStore_of_lt (by omega) _)
    (h1 ▸ arrayStore_of_lt ?_ _) (h2 ▸ arrayStore_of_lt ?_ _)
  · rw [length_set]
    omega
  · rw [length_set, length_set]
    omega

theorem length_drawAt (bgraPalette : List UInt8) (width row column index : Nat)
    (image : List UInt8) :
    (drawAt bgraPalette width row column index image).length = image.length := by
  simp only [drawAt, length_set]

theorem length_drawn (bgraPalette : List UInt8) (isBottomUp : Bool) (width hght : Nat)
    (pixels : List Pixel) (image : List UInt8) :
    (drawn bgraPalette isBottomUp width hght pixels image).length = image.length := by
  induction pixels generalizing image with
  | nil => rfl
  | cons px pixels ih => exact (ih _).trans (length_drawAt ..)

theorem offset_le (hrow : row < hght) (hcolumn : column < width) :
    row * (width * 3) + column * 3 + 3 ≤ 3 * width * hght := by
  have hmul : (row + 1) * (width * 3) ≤ hght * (width * 3) := Nat.mul_le_mul_right _ hrow
  rw [Nat.succ_mul] at hmul
  rw [Nat.mul_comm (3 * width) hght, Nat.mul_comm 3 width]
  omega

section Drawing

variable {bgraPalette : List UInt8} {isBottomUp : Bool} {width hght : Nat}

/-- The line the reader starts in. -/
def topLine (isBottomUp : Bool) (hght : Nat) : Int := if isBottomUp then hght - 1 else 0

theorem foldlM_placePixel
    (hinside : ∀ px ∈ pixels, px.column < width ∧ px.lineEnds + px.downs < hght)
    (hidx : ∀ px ∈ pixels, px.index * 4 + 2 < bgraPalette.length)
    (hdowns : isBottomUp → ∀ px ∈ pixels, px.downs = 0) (hsz : 3 * width * hght < 2 ^ 31)
    (hlen : image.length = 3 * width * hght) :
    pixels.foldlM (placePixel bgraPalette isBottomUp (width * 3 : Nat) (topLine isBottomUp hght))
        image =
      .ok (drawn bgraPalette isBottomUp width hght pixels image) := by
  induction pixels generalizing image with
  | nil => rfl
  | cons px pixels ih =>
    obtain ⟨hcolumn, hrow⟩ := hinside px mem_cons_self
    have hline : readerLine isBottomUp (topLine isBottomUp hght) px.lineEnds px.downs =
        (px.row isBottomUp hght : Nat) := by
      cases isBottomUp with
      | false => simp [readerLine, topLine, Pixel.row]
      | true =>
        have hzero := hdowns rfl px mem_cons_self
        simp only [readerLine, topLine, Pixel.row, if_true]
        omega
    have hrow' : px.row isBottomUp hght < hght := by
      unfold Pixel.row
      split <;> omega
    have hplace := place_of_inside (hlen ▸ offset_le hrow' hcolumn) (hlen ▸ hsz)
      (hidx px mem_cons_self)
    have hstep : placePixel bgraPalette isBottomUp (width * 3 : Nat) (topLine isBottomUp hght) image
        px = .ok (drawAt bgraPalette width (px.row isBottomUp hght) px.column px.index image) := by
      rw [placePixel, hline, ← hplace]
      simp only [natCast_add, natCast_mul]
      rfl
    rw [foldlM_cons, hstep]
    exact ih (fun q hq => hinside q (.tail _ hq))
      (fun q hq => hidx q (.tail _ hq))
      (fun hb q hq => hdowns hb q (.tail _ hq)) ((length_drawAt ..).trans hlen)

end Drawing

/-! ## A delta in a bottom-up image -/

theorem arrayStore_inv {buf buf' : List UInt8} {index : Int} {b : UInt8}
    (h : arrayStore buf index b = .ok buf') :
    0 ≤ index ∧ index < buf.length ∧ buf' = buf.set index.toNat b := by
  unfold arrayStore at h
  split at h
  · next hidx => exact ⟨hidx.1, hidx.2, (Except.ok.inj h).symm⟩
  · cases h

theorem place_inv (h : place bgraPalette image offset index = .ok image') :
    ∃ r g b image1 image2, arrayStore image (toInt offset) r = .ok image1 ∧
      arrayStore image1 (toInt (offset + 1)) g = .ok image2 ∧
      arrayStore image2 (toInt (offset + 1 + 1)) b = .ok image' := by
  unfold place setRGBFromPalette at h
  simp only [toInt_toInt_add, bind, Except.bind] at h
  cases hr : arrayLoad bgraPalette (index * 4 + 2) with
  | error e => simp [hr, Except.map] at h
  | ok r =>
    cases h1 : arrayStore image (toInt offset) r with
    | error e => simp [hr, h1, Except.map] at h
    | ok image1 =>
      cases hg : arrayLoad bgraPalette (index * 4 + 1) with
      | error e => simp [hr, h1, hg, Except.map] at h
      | ok g =>
        cases h2 : arrayStore image1 (toInt (offset + 1)) g with
        | error e => simp [hr, h1, hg, h2, Except.map] at h
        | ok image2 =>
          cases hb : arrayLoad bgraPalette (index * 4) with
          | error e => simp [hr, h1, hg, h2, hb, Except.map] at h
          | ok b =>
            cases h3 : arrayStore image2 (toInt (offset + 1 + 1)) b with
            | error e => simp [hr, h1, hg, h2, hb, h3, Except.map] at h
            | ok image3 =>
              simp only [hr, h1, hg, h2, hb, h3, Except.map, pure, Except.pure,
                Except.ok.injEq] at h
              subst h
              exact ⟨r, g, b, image1, image2, h1, h2, h3⟩

theorem arrayStore_before {buf buf' : List UInt8} {b : UInt8}
    (h : arrayStore buf (toInt offset) b = .ok buf') (hoff : offset < 2 ^ 32) {k : Nat}
    (hk : k < offset) : buf'[k]? = buf[k]? ∧ buf'.length = buf.length := by
  obtain ⟨hnn, -, rfl⟩ := arrayStore_inv h
  refine ⟨getElem?_set_ne ?_, length_set⟩
  rw [toInt, bmod_def] at hnn ⊢
  omega

theorem place_before
    (h : place bgraPalette image offset index = .ok image') (hoff : offset + 2 < 2 ^ 32) {k : Nat}
    (hk : k < offset) : image'[k]? = image[k]? ∧ image'.length = image.length := by
  obtain ⟨r, g, b, image1, image2, h0, h1, h2⟩ := place_inv h
  have hbefore0 := arrayStore_before h0 (by omega) hk
  have hbefore1 := arrayStore_before h1 (by omega) (by omega : (k : Int) < offset + 1)
  have hbefore2 := arrayStore_before h2 (by omega) (by omega : (k : Int) < offset + 1 + 1)
  exact ⟨hbefore2.1.trans (hbefore1.1.trans hbefore0.1),
    hbefore2.2.trans (hbefore1.2.trans hbefore0.2)⟩

theorem pixelsFrom_ge {lineEnds downs : Nat} {commands : List Command}
    {px : Pixel} (h : px ∈ pixelsFrom isRLE4 lineEnds downs column commands) :
    lineEnds ≤ px.lineEnds ∧ downs ≤ px.downs := by
  fun_induction pixelsFrom with
  | case1 => exact (not_mem_nil h).elim
  | case2 lineEnds downs column commands ih
  | case3 lineEnds downs column deltaX deltaY commands ih =>
    have := ih h
    omega
  | case4 lineEnds downs column command commands _ _ ih =>
    obtain h | h := mem_append.mp h
    · obtain ⟨p, -, rfl⟩ := mem_map.mp h
      exact ⟨Nat.le_refl _, Nat.le_refl _⟩
    · exact ih h

theorem pairwise_pixelsFrom (isRLE4 : Bool) (lineEnds downs column : Nat)
    (commands : List Command) :
    (pixelsFrom isRLE4 lineEnds downs column commands).Pairwise
      fun a b => a.lineEnds ≤ b.lineEnds ∧ a.downs ≤ b.downs := by
  fun_induction pixelsFrom with
  | case1 => exact List.Pairwise.nil
  | case2 lineEnds downs column commands ih
  | case3 lineEnds downs column deltaX deltaY commands ih => exact ih
  | case4 lineEnds downs column command commands _ _ ih =>
    rw [pairwise_append]
    refine ⟨?_, ih, ?_⟩
    · rw [runPixels, pairwise_map]
      exact pairwise_of_forall fun _ _ => ⟨Nat.le_refl _, Nat.le_refl _⟩
    · intro a ha b hb
      obtain ⟨p, -, rfl⟩ := mem_map.mp ha
      exact pixelsFrom_ge hb

theorem foldlM_placePixel_before
    (hsz : 3 * width * hght < 2 ^ 31) {last : Pixel} (hlast : 0 < last.downs)
    (hinside : last.lineEnds + last.downs < hght) (hcolumn : column < width)
    (hpixels : ∀ px ∈ pixels, px.lineEnds ≤ last.lineEnds ∧
      px.column < width ∧ px.lineEnds + px.downs < hght)
    (h : pixels.foldlM (placePixel bgraPalette true (width * 3 : Nat) (topLine true hght)) image =
      .ok image') :
    image'[last.row true hght * (width * 3) + column * 3]? =
      image[last.row true hght * (width * 3) + column * 3]? := by
  induction pixels generalizing image with
  | nil =>
    cases h
    rfl
  | cons px pixels ih =>
    rw [foldlM_cons] at h
    cases hplace : placePixel bgraPalette true (width * 3 : Nat) (topLine true hght) image px with
    | error e =>
      rw [hplace] at h
      cases h
    | ok image1 =>
      rw [hplace] at h
      obtain ⟨hends, hcol, hrow⟩ := hpixels px mem_cons_self
      have hrest := ih (fun q hq => hpixels q (mem_cons_of_mem _ hq)) h
      -- the reader's line, between the row of the last pixel and twice the height
      obtain ⟨n, hn⟩ : ∃ n : Nat, readerLine true (topLine true hght) px.lineEnds px.downs = n ∧
          last.row true hght < n ∧ n + 1 < 2 * hght := by
        refine ⟨hght - 1 - px.lineEnds + px.downs, ?_, ?_, ?_⟩
        · simp only [readerLine, topLine, if_true]
          omega
        · simp only [Pixel.row, if_true]
          omega
        · omega
      have hline := hn.1
      have hlow : (last.row true hght + 1) * (width * 3) ≤ n * (width * 3) :=
        Nat.mul_le_mul_right _ hn.2.1
      have hhigh : (n + 1) * (width * 3) ≤ 2 * hght * (width * 3) :=
        Nat.mul_le_mul_right _ (Nat.le_of_lt hn.2.2)
      have htotal : 2 * hght * (width * 3) = 2 * (3 * width * hght) := by
        rw [Nat.mul_assoc, Nat.mul_comm hght, Nat.mul_comm 3 width]
      rw [Nat.succ_mul] at hlow hhigh
      have hoff : readerLine true (topLine true hght) px.lineEnds px.downs * (width * 3 : Nat) +
          px.column * 3 = (n * (width * 3) + px.column * 3 : Nat) := by
        rw [hline, natCast_add, natCast_mul, natCast_mul px.column 3]
        rfl
      have hbef := place_before (k := last.row true hght * (width * 3) + column * 3) hplace
        (by rw [hoff]; omega) (by rw [hoff]; omega)
      exact hrest.trans hbef.1

theorem drawn_append_singleton (bgraPalette : List UInt8) (isBottomUp : Bool) (width hght : Nat)
    (pixels : List Pixel) (px : Pixel) (image : List UInt8) :
    drawn bgraPalette isBottomUp width hght (pixels ++ [px]) image =
      drawAt bgraPalette width (px.row isBottomUp hght) px.column px.index
        (drawn bgraPalette isBottomUp width hght pixels image) := by
  rw [drawn, foldl_append]
  rfl

theorem getElem?_drawAt (h : row * (width * 3) + column * 3 < image.length) :
    (drawAt bgraPalette width row column index image)[row * (width * 3) + column * 3]? =
      some ((bgraPalette[index * 4 + 2]?).getD 0) := by
  rw [drawAt, getElem?_set_ne (by omega), getElem?_set_ne (by omega),
    getElem?_set_self h]

theorem exists_image_spoilt {bgraPalette : List UInt8} {isRLE4 : Bool} {width hght : Nat}
    {commands : List Command} (hsz : 3 * width * hght < 2 ^ 31)
    (hinside : ∀ px ∈ pixelsFrom isRLE4 0 0 0 commands,
      px.column < width ∧ px.lineEnds + px.downs < hght)
    {px : Pixel} (hpx : px ∈ pixelsFrom isRLE4 0 0 0 commands) (hdowns : px.downs ≠ 0) :
    ∃ image : List UInt8, image.length = 3 * width * hght ∧
      (pixelsFrom isRLE4 0 0 0 commands).foldlM
          (placePixel bgraPalette true (width * 3 : Nat) (topLine true hght)) image ≠
        .ok (drawn bgraPalette true width hght (pixelsFrom isRLE4 0 0 0 commands) image) := by
  have hpairwise := pairwise_pixelsFrom isRLE4 0 0 0 commands
  revert hinside hpx hpairwise
  generalize pixelsFrom isRLE4 0 0 0 commands = pixels
  intro hinside hpx hpairwise
  obtain rfl | ⟨init, last, rfl⟩ := eq_nil_or_concat pixels
  · exact (not_mem_nil hpx).elim
  rw [concat_eq_append] at *
  have hle : ∀ q ∈ init ++ [last], q.lineEnds ≤ last.lineEnds ∧ q.downs ≤ last.downs := by
    intro q hq
    obtain hq | hq := mem_append.mp hq
    · exact (pairwise_append.mp hpairwise).2.2 q hq last (mem_singleton.mpr rfl)
    · rw [mem_singleton.mp hq]
      exact ⟨Nat.le_refl _, Nat.le_refl _⟩
  have hlast : 0 < last.downs := by
    have := (hle px hpx).2
    omega
  obtain ⟨hcolumn, hrow⟩ := hinside last (mem_append_right _ (mem_singleton.mpr rfl))
  have hrow' : last.row true hght < hght := by
    simp only [Pixel.row, if_true]
    omega
  have hoff := offset_le hrow' hcolumn
  refine ⟨List.replicate (3 * width * hght) ((bgraPalette[last.index * 4 + 2]?).getD 0 + 1),
    length_replicate, fun heq => ?_⟩
  have hbef := foldlM_placePixel_before hsz hlast hrow hcolumn
    (fun q hq => ⟨(hle q hq).1, hinside q hq⟩) heq
  rw [drawn_append_singleton, getElem?_drawAt (by rw [length_drawn, length_replicate]; omega),
    getElem?_replicate_of_lt (by omega), Option.some.injEq] at hbef
  revert hbef
  generalize (bgraPalette[last.index * 4 + 2]?).getD 0 = b
  intro hbef
  have hnat := congrArg UInt8.toNat hbef
  rw [UInt8.toNat_add] at hnat
  simp only [UInt8.reduceToNat] at hnat
  omega

/-! ## readRLE -/

theorem RleStream.length_commands_le (stream : RleStream isRLE4) :
    stream.commands.length ≤ (stream.commands.flatMap Command.bytes).length := by
  induction stream.commands with
  | nil => exact Nat.le_refl _
  | cons command commands ih =>
    have hpos : 1 ≤ command.bytes.length := by
      cases command <;> simp [Command.bytes]
    rw [flatMap_cons, length_append, length_cons]
    omega

theorem readRLE_eq (loader : BMPImageLoader) (stream : RleStream isRLE4)
    (hbytes : loader.imgSize = stream.bytes.length) (rest : List UInt8)
    (image : List UInt8) :
    readRLE loader (stream.bytes ++ rest) image (width * 3 : Nat) hght isRLE4 =
      stream.pixels.foldlM (placePixel loader.bgraPalette (decide (loader.biHeight > 0))
        (width * 3 : Nat) (topLine (decide (loader.biHeight > 0)) hght)) image := by
  generalize hbottomUp : decide (loader.biHeight > 0) = isBottomUp
  have htake : (stream.bytes ++ rest).take (loader.imgSize.toNat) = stream.bytes := by
    rw [hbytes, toNat_natCast, take_left]
  have hnn : ¬ loader.imgSize < 0 := by omega
  have henough : ¬ (stream.bytes ++ rest).length < loader.imgSize.toNat := by
    rw [hbytes, toNat_natCast, length_append]
    omega
  have hst : (⟨0, if isBottomUp then toInt (hght - 1) else 0,
      toInt ((if isBottomUp then toInt (hght - 1) else 0) * (width * 3 : Nat)), image⟩ : Cursor) =
      readerAt isBottomUp (width * 3 : Nat) (topLine isBottomUp hght) ([] : List UInt8).length 0 0 0
        image := by
    have hline : (if isBottomUp then toInt (hght - 1) else 0) =
        toInt (readerLine isBottomUp (topLine isBottomUp hght) 0 0) := by
      cases isBottomUp <;> simp [readerLine, topLine, toInt]
    rw [readerAt, hline, toInt_toInt_mul]
    simp
  have hread : readRLE loader (stream.bytes ++ rest) image (width * 3 : Nat) hght isRLE4 =
      readLoop loader.bgraPalette stream.bytes isRLE4 (width * 3 : Nat) isBottomUp
        (stream.bytes.length + 1) ⟨0, if isBottomUp then toInt (hght - 1) else 0,
          toInt ((if isBottomUp then toInt (hght - 1) else 0) * (width * 3 : Nat)), image⟩ := by
    unfold readRLE
    simp only [if_neg hnn, if_neg henough, htake, hbottomUp]
  rw [hread, hst]
  refine readLoop_eq stream.commands stream.wellFormed ?_ [] _ 0 0 0 ?_ image
  · cases stream.behindEnd with
    | none => exact .inl rfl
    | some rest => exact .inr ⟨rest, rfl⟩
  · have hle := stream.length_commands_le
    rw [RleStream.bytes, length_append]
    omega

/-- For every conforming stream inside the image, `readRLE` draws exactly its pixels, whatever the
    image held before, if and only if it is top-down or no pixel comes after a delta that moves
    down. -/
theorem readRLE_iff (loader : BMPImageLoader) {isRLE4 : Bool} (stream : RleStream isRLE4)
    (hbytes : loader.imgSize = stream.bytes.length) (rest : List UInt8) {width hght : Nat}
    (hsz : 3 * width * hght < 2 ^ 31) (hinside : stream.Inside width hght)
    (hidx : ∀ px ∈ stream.pixels, px.index * 4 + 2 < loader.bgraPalette.length) :
    (∀ image : List UInt8, image.length = 3 * width * hght →
      readRLE loader (stream.bytes ++ rest) image (width * 3 : Nat) hght isRLE4 =
        .ok (drawn loader.bgraPalette (decide (loader.biHeight > 0)) width hght stream.pixels
          image)) ↔
      (loader.biHeight > 0 → ∀ px ∈ stream.pixels, px.downs = 0) := by
  constructor
  · intro h hbottomUp px hpx
    by_contra hdowns
    obtain ⟨image, hlen, hne⟩ := @exists_image_spoilt loader.bgraPalette _ _ _ _ hsz hinside
      _ hpx hdowns
    have heq := h image hlen
    rw [readRLE_eq loader stream hbytes rest image, decide_eq_true hbottomUp] at heq
    exact hne heq
  · intro hdowns image hlen
    rw [readRLE_eq loader stream hbytes rest image]
    exact foldlM_placePixel hinside hidx (fun hb => hdowns (of_decide_eq_true hb)) hsz hlen

-- One pixel behind two line ends and a delta, in an image of four rows.
def movedDown : RleStream false where
  commands := [.endOfLine, .endOfLine, .delta 0 1, .encoded 1 0]
  wellFormed := by simp [Command.WellFormed]
  behindEnd := some []

def columnLoader (biHeight : Int) : BMPImageLoader := ⟨70, 58, [10, 20, 30, 0], biHeight, 0⟩

/-- A bitmap stored from the top. -/
theorem readRLE_iff_topDown :
    (columnLoader (-4)).imgSize = movedDown.bytes.length ∧ movedDown.Inside 1 4 ∧
      ∀ image : List UInt8, image.length = 12 →
        readRLE (columnLoader (-4)) (movedDown.bytes ++ []) image 3 4 false =
          .ok (drawn [10, 20, 30, 0] false 1 4 [⟨2, 1, 0, 0⟩] image) :=
  ⟨rfl, by decide, (@readRLE_iff (columnLoader (-4)) false movedDown rfl [] 1 4 (by decide)
    (by decide) (by decide)).mpr (fun h => absurd h (by decide))⟩

/-- The reader draws the pixel two rows below its row. -/
theorem readRLE_movedDown :
    (columnLoader 4).imgSize = movedDown.bytes.length ∧ movedDown.Inside 1 4 ∧
      readRLE (columnLoader 4) movedDown.bytes (List.replicate 12 0) 3 4 false =
        .ok [0, 0, 0, 0, 0, 0, 30, 20, 10, 0, 0, 0] ∧
      .ok (drawn [10, 20, 30, 0] true 1 4 movedDown.pixels (List.replicate 12 0)) ≠
        readRLE (columnLoader 4) movedDown.bytes (List.replicate 12 0) 3 4 false :=
  ⟨rfl, by decide, rfl, fun h => absurd (Except.ok.inj h) (by decide)⟩

end OpenJfx.Iio.Bmp
