/-
  OpenJfx.Iio.Bmp.Reader

  Conforming run-length streams, as lists of commands, and the pixels they
  define.  On the bytes of a stream the loop of `readRLE` draws its pixels in
  turn, each at the line it has counted to: it counts lines from the bottom of
  a bottom-up image at a line end, but not at a delta.
-/

import OpenJfx.Iio.Bmp.Basic

namespace OpenJfx.Iio.Bmp

open List

/-! ## Streams -/

/-- A command of the run-length code. -/
inductive Command where
  | encoded (count value : UInt8)
  | absolute (count : UInt8) (data padding : List UInt8)
  | endOfLine
  | delta (deltaX deltaY : UInt8)
  deriving DecidableEq, Repr

namespace Command

/-- An absolute run has three pixels at least, and an even number of bytes. -/
def WellFormed (isRLE4 : Bool) : Command → Prop
  | encoded count _ => count ≠ 0
  | absolute count data padding =>
    3 ≤ count.toNat ∧
      data.length = (if isRLE4 then (count.toNat + 1) / 2 else count.toNat) ∧
      padding.length = data.length % 2
  | endOfLine => True
  | delta _ _ => True

def bytes : Command → List UInt8
  | encoded count value => [count, value]
  | absolute count data padding => 0 :: count :: (data ++ padding)
  | endOfLine => [0, 0]
  | delta deltaX deltaY => [0, 2, deltaX, deltaY]

/-- The number of pixels a run defines. -/
def count : Command → Nat
  | encoded count _ => count.toNat
  | absolute count _ _ => count.toNat
  | endOfLine => 0
  | delta _ _ => 0

/-- Two pixels of RLE4 share a byte, the first in the high half. -/
def half (p b : Nat) : Nat := if p % 2 = 0 then b / 16 else b % 16

/-- The palette index of pixel `p` of a run. -/
def indexAt (isRLE4 : Bool) (p : Nat) : Command → Nat
  | encoded _ value => if isRLE4 then half p value.toNat else value.toNat
  | absolute _ data _ =>
    if isRLE4 then half p ((data[p / 2]?).getD 0).toNat else ((data[p]?).getD 0).toNat
  | endOfLine => 0
  | delta _ _ => 0

end Command

/-- Lines and deltas before it, column and index. -/
structure Pixel where
  lineEnds : Nat
  downs : Nat
  column : Nat
  index : Nat
  deriving DecidableEq, Repr

/-- The pixels of a run, from pixel `p` on. -/
def runPixels (isRLE4 : Bool) (command : Command) (lineEnds downs column : Nat) (p remaining : Nat) :
    List Pixel :=
  (List.range' p remaining).map fun p => ⟨lineEnds, downs, column + p, command.indexAt isRLE4 p⟩

/-- The pixels that commands define, from a place in the stream on. -/
def pixelsFrom (isRLE4 : Bool) (lineEnds downs column : Nat) : List Command → List Pixel
  | [] => []
  | .endOfLine :: commands => pixelsFrom isRLE4 (lineEnds + 1) downs 0 commands
  | .delta deltaX deltaY :: commands =>
    pixelsFrom isRLE4 lineEnds (downs + deltaY.toNat) (column + deltaX.toNat) commands
  | command :: commands =>
    runPixels isRLE4 command lineEnds downs column 0 command.count ++
      pixelsFrom isRLE4 lineEnds downs (column + command.count) commands

/-- A conforming stream. Behind the end of the bitmap anything may follow. -/
structure RleStream (isRLE4 : Bool) where
  commands : List Command
  wellFormed : ∀ command ∈ commands, command.WellFormed isRLE4
  behindEnd : Option (List UInt8)

namespace RleStream

variable {isRLE4 : Bool} (stream : RleStream isRLE4)

def bytes : List UInt8 :=
  stream.commands.flatMap Command.bytes ++
    match stream.behindEnd with
    | none => []
    | some rest => 0 :: 1 :: rest

def pixels : List Pixel := pixelsFrom isRLE4 0 0 0 stream.commands

/-- The stream stays inside the image. -/
def Inside (width hght : Nat) : Prop :=
  ∀ px ∈ stream.pixels, px.column < width ∧ px.lineEnds + px.downs < hght

instance (width hght : Nat) : Decidable (stream.Inside width hght) :=
  inferInstanceAs (Decidable (∀ px ∈ stream.pixels, _))

end RleStream

/-! ## The runs -/

/-- Draw a pixel at an offset. -/
def place (bgraPalette image : List UInt8) (offset : Int) (index : Nat) :
    Except Failure (List UInt8) :=
  (setRGBFromPalette bgraPalette image (toInt offset) index).map Prod.fst

theorem setRGBFromPalette_eq (bgraPalette image : List UInt8) (offset : Int) (index : Nat) :
    setRGBFromPalette bgraPalette image (toInt offset) index =
      (place bgraPalette image offset index).map (·, toInt (offset + 3)) := by
  have hoff : toInt (toInt (toInt (toInt offset + 1) + 1) + 1) = toInt (offset + 3) := by
    simp only [toInt_toInt_add, Int.add_assoc]
    rfl
  unfold place setRGBFromPalette
  simp only [hoff]
  cases arrayLoad bgraPalette (index * 4 + 2) with
  | error e => rfl
  | ok r =>
    simp only [bind, Except.bind]
    cases arrayStore image (toInt offset) r with
    | error e => rfl
    | ok image =>
      cases arrayLoad bgraPalette (index * 4 + 1) with
      | error e => rfl
      | ok g =>
        simp only
        cases arrayStore image (toInt (toInt offset + 1)) g with
        | error e => rfl
        | ok image =>
          cases arrayLoad bgraPalette (index * 4) with
          | error e => rfl
          | ok b =>
            simp only
            cases arrayStore image (toInt (toInt (toInt offset + 1) + 1)) b <;> rfl

/-- Draw a run from an offset on. -/
def placeRun (bgraPalette : List UInt8) (offset : Int) (index : Nat → Nat) (p remaining : Nat)
    (image : List UInt8) : Except Failure (List UInt8) :=
  (List.range' p remaining).foldlM
    (fun image (p : Nat) => place bgraPalette image (offset + p * 3) (index p)) image

theorem placeRun_succ (bgraPalette : List UInt8) (offset : Int) (index : Nat → Nat)
    (p remaining : Nat) (image : List UInt8) :
    placeRun bgraPalette offset index p (remaining + 1) image =
      place bgraPalette image (offset + p * 3) (index p) >>=
        placeRun bgraPalette offset index (p + 1) remaining := by
  rw [placeRun, range'_succ, foldlM_cons]
  rfl

theorem half_and_one (p b : Nat) (hb : b < 256) :
    (if p &&& 1 = 0 then (b &&& 0xf0) >>> 4 else b &&& 0x0f) = Command.half p b := by
  have hlow (b : Nat) : b &&& 0x0f = b % 16 := Nat.and_two_pow_sub_one_eq_mod b 4
  have hhigh : (b &&& 0xf0) >>> 4 = b / 16 := by
    rw [Nat.shiftRight_and_distrib, Nat.shiftRight_eq_div_pow]
    exact (hlow (b / 16)).trans (Nat.mod_eq_of_lt (by omega))
  rw [Nat.and_one_is_mod, hhigh, hlow, Command.half]

theorem encodedLoop_eq (bgraPalette : List UInt8) (isRLE4 : Bool) (value count : UInt8)
    (i : Nat) (line offset : Int) (remaining p : Nat) (image : List UInt8) :
    encodedLoop bgraPalette isRLE4 value.toNat remaining p ⟨i, line, toInt (offset + p * 3), image⟩ =
      (placeRun bgraPalette offset (Command.indexAt isRLE4 · (.encoded count value)) p remaining
        image).map (⟨i, line, toInt (offset + (p + remaining : Nat) * 3), ·⟩) := by
  induction remaining generalizing p image with
  | zero => rfl
  | succ remaining ih =>
    have hidx : (if isRLE4 then
        if p &&& 1 = 0 then (value.toNat &&& 0xf0) >>> 4 else value.toNat &&& 0x0f
      else value.toNat) = Command.indexAt isRLE4 p (.encoded count value) := by
      rw [half_and_one p _ (UInt8.toNat_lt value)]
      rfl
    have hnxt : offset + (p : Int) * 3 + 3 = offset + ((p + 1 : Nat) : Int) * 3 := by
      rw [Int.natCast_add]
      omega
    rw [encodedLoop, placeRun_succ]
    simp only [hidx, setRGBFromPalette_eq, hnxt]
    cases hplace : place bgraPalette image (offset + p * 3)
        (Command.indexAt isRLE4 p (.encoded count value)) with
    | error e => rfl
    | ok image =>
      show encodedLoop bgraPalette isRLE4 value.toNat remaining (p + 1) _ = _
      rw [ih (p + 1) image, Nat.add_right_comm p 1 remaining]
      rfl

/-- The bytes read before pixel `p` of an absolute run. -/
def bytesBefore (isRLE4 : Bool) (p : Nat) : Nat := if isRLE4 then (p + 1) / 2 else p

theorem readIndex_eq {imgData data : List UInt8} {isRLE4 : Bool} {start p indexData : Nat}
    (count : UInt8) (padding : List UInt8)
    (hdata : ∀ k b, data[k]? = some b → imgData[start + k]? = some b)
    (hlen : bytesBefore isRLE4 (p + 1) ≤ data.length)
    (hshared : isRLE4 → p % 2 = 1 → indexData = ((data[p / 2]?).getD 0).toNat) :
    ∃ indexData', (isRLE4 → (p + 1) % 2 = 1 → indexData' = ((data[(p + 1) / 2]?).getD 0).toNat) ∧
      readIndex imgData isRLE4 p indexData (start + bytesBefore isRLE4 p) =
        .ok (start + bytesBefore isRLE4 (p + 1), indexData',
          Command.indexAt isRLE4 p (.absolute count data padding)) := by
  unfold readIndex
  cases isRLE4 with
  | false =>
    simp only [bytesBefore, Bool.false_eq_true, if_false] at hlen ⊢
    have hp : data[p]? = some data[p] := getElem?_eq_getElem hlen
    refine ⟨indexData, nofun, ?_⟩
    rw [getByte_of_getElem? (hdata p _ hp)]
    simp [Command.indexAt, bind, Except.bind, pure, Except.pure, Nat.add_assoc, hp]
  | true =>
    simp only [bytesBefore, if_true] at hlen ⊢
    have hp : data[p / 2]? = some data[p / 2] := getElem?_eq_getElem (by omega)
    have hidx := half_and_one p data[p / 2].toNat (UInt8.toNat_lt _)
    rw [Nat.and_one_is_mod] at hidx ⊢
    by_cases heven : p % 2 = 0
    · have hbef : (p + 1) / 2 = p / 2 := by omega
      have hafter : (p + 1 + 1) / 2 = p / 2 + 1 := by omega
      refine ⟨data[p / 2].toNat, fun _ hodd => ?_, ?_⟩
      · rw [hbef, hp]
        rfl
      · rw [if_pos heven] at hidx ⊢
        rw [hbef, hafter, getByte_of_getElem? (hdata _ _ hp)]
        simp [Command.indexAt, bind, Except.bind, pure, Except.pure, Nat.add_assoc, hp, hidx]
    · have hafter : (p + 1 + 1) / 2 = (p + 1) / 2 := by omega
      refine ⟨indexData, fun _ hodd => by omega, ?_⟩
      have hshared := hshared rfl (by omega)
      rw [hp, Option.getD_some] at hshared
      rw [if_neg heven] at hidx ⊢
      rw [hafter]
      simp [Command.indexAt, pure, Except.pure, hp, ← hidx, hshared]

theorem absoluteLoop_eq (bgraPalette : List UInt8) {imgData data : List UInt8} {isRLE4 : Bool}
    {start : Nat} (count : UInt8) (padding : List UInt8)
    (hdata : ∀ k b, data[k]? = some b → imgData[start + k]? = some b) (line offset : Int)
    (remaining p indexData : Nat) (hlen : bytesBefore isRLE4 (p + remaining) ≤ data.length)
    (hshared : isRLE4 → p % 2 = 1 → indexData = ((data[p / 2]?).getD 0).toNat)
    (image : List UInt8) :
    absoluteLoop bgraPalette imgData isRLE4 remaining p indexData
        ⟨start + bytesBefore isRLE4 p, line, toInt (offset + p * 3), image⟩ =
      (placeRun bgraPalette offset (Command.indexAt isRLE4 · (.absolute count data padding)) p
        remaining image).map (⟨start + bytesBefore isRLE4 (p + remaining), line,
          toInt (offset + (p + remaining : Nat) * 3), ·⟩) := by
  induction remaining generalizing p indexData image with
  | zero => rfl
  | succ remaining ih =>
    have hnxt : offset + (p : Int) * 3 + 3 = offset + ((p + 1 : Nat) : Int) * 3 := by
      rw [Int.natCast_add]
      omega
    have hmono : bytesBefore isRLE4 (p + 1) ≤ bytesBefore isRLE4 (p + (remaining + 1)) := by
      unfold bytesBefore
      split <;> omega
    obtain ⟨indexData', hshared', hread⟩ :=
      readIndex_eq count padding hdata (Nat.le_trans hmono hlen) hshared
    rw [absoluteLoop, placeRun_succ]
    simp only [hread, bind, Except.bind, setRGBFromPalette_eq, hnxt]
    cases hplace : place bgraPalette image (offset + p * 3)
        (Command.indexAt isRLE4 p (.absolute count data padding)) with
    | error e => rfl
    | ok image =>
      have hsum : p + (remaining + 1) = p + 1 + remaining := by omega
      rw [hsum] at hlen ⊢
      exact ih _ _ hlen hshared' image

/-! ## The reader -/

section Reader

variable (bgraPalette : List UInt8) (isRLE4 isBottomUp : Bool) (rowLength top : Int)

/-- The line the reader is in: at a delta it counts downwards always. -/
def readerLine (lineEnds downs : Nat) : Int :=
  top + (if isBottomUp then -(lineEnds : Int) else lineEnds) + downs

/-- The reader at a place in the stream. -/
def readerAt (i lineEnds downs column : Nat) (image : List UInt8) : Cursor :=
  ⟨i, toInt (readerLine isBottomUp top lineEnds downs),
    toInt (readerLine isBottomUp top lineEnds downs * rowLength + column * 3), image⟩

/-- The reader draws a pixel. -/
def placePixel (image : List UInt8) (px : Pixel) : Except Failure (List UInt8) :=
  place bgraPalette image
    (readerLine isBottomUp top px.lineEnds px.downs * rowLength + px.column * 3) px.index

variable {bgraPalette isRLE4 isBottomUp rowLength top}

theorem placeRun_eq (command : Command) (lineEnds downs column p remaining : Nat)
    (image : List UInt8) :
    placeRun bgraPalette (readerLine isBottomUp top lineEnds downs * rowLength + column * 3)
        (Command.indexAt isRLE4 · command) p remaining image =
      (runPixels isRLE4 command lineEnds downs column p remaining).foldlM
        (placePixel bgraPalette isBottomUp rowLength top) image := by
  rw [placeRun, runPixels, foldlM_map]
  congr 1
  funext image p
  show place _ _ _ _ = place _ _ _ _
  congr 1
  simp only [Int.natCast_add]
  omega

variable {imgData : List UInt8} {i lineEnds downs column : Nat} {image : List UInt8}

theorem readCommand_endOfLine (h0 : imgData[i]? = some 0) (h1 : imgData[i + 1]? = some 0) :
    readCommand bgraPalette imgData isRLE4 rowLength isBottomUp
        (readerAt isBottomUp rowLength top i lineEnds downs column image) =
      .ok (some (readerAt isBottomUp rowLength top (i + 2) (lineEnds + 1) downs 0 image)) := by
  have hline : readerLine isBottomUp top lineEnds downs + (if isBottomUp then -1 else 1) =
      readerLine isBottomUp top (lineEnds + 1) downs := by
    cases isBottomUp <;> simp only [readerLine, Int.natCast_add, Bool.false_eq_true, if_false,
      if_true] <;> omega
  simp only [readCommand, readerAt, getByte_of_getElem? h0, getByte_of_getElem? h1, bind,
    Except.bind, UInt8.toNat_zero, if_true, pure, Except.pure, toInt_toInt_add, toInt_toInt_mul,
    hline]
  simp

theorem readCommand_delta {deltaX deltaY : UInt8} (h0 : imgData[i]? = some 0)
    (h1 : imgData[i + 1]? = some 2) (h2 : imgData[i + 2]? = some deltaX)
    (h3 : imgData[i + 3]? = some deltaY) :
    readCommand bgraPalette imgData isRLE4 rowLength isBottomUp
        (readerAt isBottomUp rowLength top i lineEnds downs column image) =
      .ok (some (readerAt isBottomUp rowLength top (i + 4) lineEnds (downs + deltaY.toNat)
        (column + deltaX.toNat) image)) := by
  have hline : readerLine isBottomUp top lineEnds downs + (deltaY.toNat : Int) =
      readerLine isBottomUp top lineEnds (downs + deltaY.toNat) := by
    simp only [readerLine, Int.natCast_add]
    omega
  have hoff : readerLine isBottomUp top lineEnds downs * rowLength + column * 3 +
      deltaY.toNat * rowLength + deltaX.toNat * 3 =
      readerLine isBottomUp top lineEnds (downs + deltaY.toNat) * rowLength +
        ((column + deltaX.toNat : Nat) : Int) * 3 := by
    rw [← hline, Int.natCast_add, Int.add_mul, Int.add_mul]
    omega
  simp only [readCommand, readerAt, getByte_of_getElem? h0, getByte_of_getElem? h1, bind,
    Except.bind, UInt8.toNat_zero, if_true, pure, Except.pure, UInt8.reduceToNat, Nat.add_assoc,
    getByte_of_getElem? h2, getByte_of_getElem? h3, toInt_toInt_add, toInt_add_toInt, hline,
    hoff, Nat.reduceAdd]

theorem readerAt_behindRun (i lineEnds downs column count : Nat) (image : List UInt8) :
    (⟨i, toInt (readerLine isBottomUp top lineEnds downs), toInt (readerLine isBottomUp top lineEnds
      downs * rowLength + column * 3 + (0 + count : Nat) * 3), image⟩ : Cursor) =
      readerAt isBottomUp rowLength top i lineEnds downs (column + count) image := by
  rw [readerAt]
  congr 2
  simp only [Int.natCast_add]
  omega

theorem readCommand_encoded {count value : UInt8} (hcnt : count ≠ 0)
    (h0 : imgData[i]? = some count) (h1 : imgData[i + 1]? = some value) :
    readCommand bgraPalette imgData isRLE4 rowLength isBottomUp
        (readerAt isBottomUp rowLength top i lineEnds downs column image) =
      ((runPixels isRLE4 (.encoded count value) lineEnds downs column 0 count.toNat).foldlM
        (placePixel bgraPalette isBottomUp rowLength top) image).map
        (fun image => some (readerAt isBottomUp rowLength top (i + 2) lineEnds downs
          (column + count.toNat) image)) := by
  have hne : count.toNat ≠ 0 := fun heq => hcnt (UInt8.toNat_inj.mp heq)
  have hrun := encodedLoop_eq bgraPalette isRLE4 value count (i + 2)
    (toInt (readerLine isBottomUp top lineEnds downs))
    (readerLine isBottomUp top lineEnds downs * rowLength + column * 3) count.toNat 0 image
  simp only [Int.natCast_zero, Int.zero_mul, Int.add_zero, readerAt_behindRun, placeRun_eq] at hrun
  simp only [readCommand, readerAt, getByte_of_getElem? h0, getByte_of_getElem? h1, bind,
    Except.bind, if_neg hne, hrun]
  cases List.foldlM (placePixel bgraPalette isBottomUp rowLength top) image
    (runPixels isRLE4 (.encoded count value) lineEnds downs column 0 count.toNat) <;> rfl

theorem readCommand_absolute {count : UInt8} {data padding : List UInt8}
    (hwf : (Command.absolute count data padding).WellFormed isRLE4)
    (h0 : imgData[i]? = some 0) (h1 : imgData[i + 1]? = some count)
    (hdata : ∀ k b, data[k]? = some b → imgData[i + 2 + k]? = some b) :
    readCommand bgraPalette imgData isRLE4 rowLength isBottomUp
        (readerAt isBottomUp rowLength top i lineEnds downs column image) =
      ((runPixels isRLE4 (.absolute count data padding) lineEnds downs column 0 count.toNat).foldlM
        (placePixel bgraPalette isBottomUp rowLength top) image).map
        (fun image => some (readerAt isBottomUp rowLength top
          (i + (2 + (data ++ padding).length)) lineEnds downs (column + count.toNat) image)) := by
  obtain ⟨hcnt, hlen, hpadding⟩ := hwf
  have hbytes : bytesBefore isRLE4 (0 + count.toNat) = data.length := by
    rw [Nat.zero_add, hlen]
    rfl
  have hrun := absoluteLoop_eq bgraPalette count padding hdata
    (toInt (readerLine isBottomUp top lineEnds downs))
    (readerLine isBottomUp top lineEnds downs * rowLength + column * 3)
    count.toNat 0 0 (Nat.le_of_eq hbytes) (fun _ h => nomatch h) image
  have hst : i + 2 + bytesBefore isRLE4 0 = i + 2 := by
    cases isRLE4 <;> rfl
  simp only [Int.natCast_zero, Int.zero_mul, Int.add_zero, hbytes, hst, readerAt_behindRun,
    placeRun_eq] at hrun
  have hpadded : (if (if isRLE4 then count.toNat &&& 3 = 1 ∨ count.toNat &&& 3 = 2
      else count.toNat &&& 1 = 1) then i + 2 + data.length + 1 else i + 2 + data.length) =
      i + (2 + (data ++ padding).length) := by
    have hmod : count.toNat &&& 3 = count.toNat % 4 := Nat.and_two_pow_sub_one_eq_mod _ 2
    rw [hmod, Nat.and_one_is_mod, length_append, hpadding, hlen]
    cases isRLE4 <;> simp only [Bool.false_eq_true, if_false, if_true] <;> split <;> omega
  obtain ⟨n, hn⟩ := Nat.exists_eq_add_of_le' hcnt
  rw [hn] at hrun hpadded ⊢
  simp only [readCommand, readerAt, getByte_of_getElem? h0, getByte_of_getElem? h1, bind,
    Except.bind, UInt8.toNat_zero, if_true, hn, hrun, pure, Except.pure]
  cases List.foldlM (placePixel bgraPalette isBottomUp rowLength top) image
    (runPixels isRLE4 (.absolute count data padding) lineEnds downs column 0 (n + 3)) with
  | error e => rfl
  | ok image =>
    simp only [Except.map]
    rw [hpadded]

theorem getElem?_behind (pre rest : List UInt8) (k : Nat) :
    (pre ++ rest)[pre.length + k]? = rest[k]? := by
  rw [getElem?_append_right (Nat.le_add_right ..), Nat.add_sub_cancel_left]

theorem readCommand_eq {command : Command} (hwf : command.WellFormed isRLE4)
    (hbytes : ∀ k b, command.bytes[k]? = some b → imgData[i + k]? = some b) :
    ∃ px lineEnds' downs' column',
      (∀ commands, pixelsFrom isRLE4 lineEnds downs column (command :: commands) =
        px ++ pixelsFrom isRLE4 lineEnds' downs' column' commands) ∧
      readCommand bgraPalette imgData isRLE4 rowLength isBottomUp
          (readerAt isBottomUp rowLength top i lineEnds downs column image) =
        (px.foldlM (placePixel bgraPalette isBottomUp rowLength top) image).map
          (fun image => some (readerAt isBottomUp rowLength top (i + command.bytes.length)
            lineEnds' downs' column' image)) := by
  have hfst : ∀ b, command.bytes[0]? = some b → imgData[i]? = some b := hbytes 0
  cases command with
  | encoded count value =>
    exact ⟨_, _, _, _, fun _ => rfl, readCommand_encoded hwf (hfst _ rfl) (hbytes 1 _ rfl)⟩
  | absolute count data padding =>
    have hdata : ∀ k b, data[k]? = some b → imgData[i + 2 + k]? = some b := by
      intro k b hk
      rw [Nat.add_assoc]
      refine hbytes (2 + k) b ?_
      rw [Nat.add_comm 2 k]
      exact (getElem?_append_left (List.getElem?_eq_some_iff.mp hk).1).trans hk
    refine ⟨_, _, _, _, fun _ => rfl, ?_⟩
    rw [readCommand_absolute hwf (hfst _ rfl) (hbytes 1 _ rfl) hdata, Nat.add_comm 2]
    rfl
  | endOfLine =>
    exact ⟨[], _, _, _, fun _ => rfl, readCommand_endOfLine (hfst _ rfl) (hbytes 1 _ rfl)⟩
  | delta deltaX deltaY =>
    exact ⟨[], _, _, _, fun _ => rfl, readCommand_delta (hfst _ rfl) (hbytes 1 _ rfl)
      (hbytes 2 _ rfl) (hbytes 3 _ rfl)⟩

theorem readLoop_eq (commands : List Command) (hwf : ∀ c ∈ commands, c.WellFormed isRLE4)
    {tail : List UInt8} (htail : tail = [] ∨ ∃ rest, tail = 0 :: 1 :: rest) (pre : List UInt8)
    (fuel lineEnds downs column : Nat) (hfuel : commands.length < fuel) (image : List UInt8) :
    readLoop bgraPalette (pre ++ (commands.flatMap Command.bytes ++ tail)) isRLE4 rowLength
        isBottomUp fuel (readerAt isBottomUp rowLength top pre.length lineEnds downs column image) =
      (pixelsFrom isRLE4 lineEnds downs column commands).foldlM
        (placePixel bgraPalette isBottomUp rowLength top) image := by
  induction commands generalizing pre fuel lineEnds downs column image with
  | nil =>
    obtain ⟨fuel, rfl⟩ : ∃ n, fuel = n + 1 := ⟨fuel - 1, by simp at hfuel; omega⟩
    rw [readLoop]
    obtain rfl | ⟨rest, rfl⟩ := htail
    · rw [if_neg (by simp [readerAt])]
      rfl
    · rw [if_pos (by simp [readerAt])]
      have h0 : (pre ++ 0 :: 1 :: rest)[pre.length]? = some 0 := getElem?_behind pre _ 0
      have h1 : (pre ++ 0 :: 1 :: rest)[pre.length + 1]? = some 1 := getElem?_behind pre _ 1
      simp only [flatMap_nil, nil_append, readCommand, readerAt, getByte_of_getElem? h0,
        getByte_of_getElem? h1, bind, Except.bind, UInt8.toNat_zero, if_true, UInt8.reduceToNat]
      rfl
  | cons command commands ih =>
    rcases fuel with _ | fuel
    · omega
    have hcommand := hwf command mem_cons_self
    have hnxt := ih (fun c hc => hwf c (mem_cons_of_mem _ hc))
    have hspl : pre ++ ((command :: commands).flatMap Command.bytes ++ tail) =
        pre ++ command.bytes ++ (commands.flatMap Command.bytes ++ tail) := by
      simp only [flatMap_cons, append_assoc]
    have hlen : (pre ++ command.bytes).length = pre.length + command.bytes.length :=
      length_append
    have hlt : (readerAt isBottomUp rowLength top pre.length lineEnds downs column image).i <
        (pre ++ command.bytes ++ (commands.flatMap Command.bytes ++ tail)).length := by
      rw [length_append, hlen, readerAt]
      cases command <;> simp only [Command.bytes, length_cons] <;> omega
    have hbehind : ∀ k b, command.bytes[k]? = some b →
        (pre ++ command.bytes ++ (commands.flatMap Command.bytes ++ tail))[pre.length + k]? =
          some b := by
      intro k b hk
      rw [append_assoc, getElem?_behind, getElem?_append_left]
      · exact hk
      · exact (List.getElem?_eq_some_iff.mp hk).1
    obtain ⟨px, lineEnds', downs', column', hpixels, hread⟩ := readCommand_eq hcommand hbehind
    rw [hspl, readLoop, if_pos hlt, hread, hpixels, foldlM_append]
    cases List.foldlM (placePixel bgraPalette isBottomUp rowLength top) image px with
    | error e => rfl
    | ok image =>
      have hrest := hnxt (pre ++ command.bytes) fuel lineEnds' downs' column' (by simpa using hfuel)
        image
      rw [hlen] at hrest
      exact hrest

end Reader

end OpenJfx.Iio.Bmp
