/-
  OpenJfx.Iio.Png.Filtering

  The filters of the PNG format, and that `doFilter` undoes them.

  A filter subtracts from each byte one that is predicted from the bytes before it and the line
  above.
-/

import OpenJfx.Iio.Png.Passes

namespace OpenJfx.Iio.Png

open List Nat

/-! ## The filters -/

/-- The first one closest to `left + up - upLeft`. -/
def paethPredictor (left up upLeft : Int) : Int :=
  let p := left + up - upLeft
  let distance := fun n : Int => (p - n).natAbs
  if distance left ≤ distance up ∧ distance left ≤ distance upLeft then left
  else if distance up ≤ distance upLeft then up
  else upLeft

/-- Bytes outside of the image are 0. -/
def predicted (fType bpp : Nat) (line pline : List UInt8) (i : Nat) : UInt8 :=
  let left := if i < bpp then 0 else byteAt line (i - bpp)
  let up := byteAt pline i
  let upLeft := if i < bpp then 0 else byteAt pline (i - bpp)
  match fType with
  | 1 => left
  | 2 => up
  | 3 => UInt8.ofNat ((left.toNat + up.toNat) / 2)
  | 4 => UInt8.ofNat (paethPredictor left.toNat up.toNat upLeft.toNat).toNat
  | _ => 0

/-- What an encoder writes for the line. -/
def filterLine (fType bpp : Nat) (line pline : List UInt8) : List UInt8 :=
  line.mapIdx fun i b => b - predicted fType bpp line pline i

/-- Filter lines, each with its own filter type. -/
def filterLines (bpp : Nat) : (pline : List UInt8) → (rows : List (Nat × List UInt8)) →
    List (Nat × List UInt8)
  | _, [] => []
  | pline, (fType, line) :: rows =>
    (fType, filterLine fType bpp line pline) :: filterLines bpp line rows

/-- The bytes of filtered lines, each behind its filter type. -/
def filteredBytes (rows : List (Nat × List UInt8)) : List UInt8 :=
  rows.flatMap fun row => UInt8.ofNat row.1 :: row.2

/-- The lines that the loop of `loadMip` restores. -/
def restoreLines (bpp : Nat) : (pline : List UInt8) → List (Nat × List UInt8) →
    Except Failure (List (List UInt8))
  | _, [] => .ok []
  | pline, (fType, line) :: rows => do
    let line ← doFilter line pline fType bpp
    let lines ← restoreLines bpp line rows
    return line :: lines

/-- The conversion of the lines of a pass, from line `y` on. -/
def PNGImageLoader.convertLines (l : PNGImageLoader) (mip : Nat) :
    (y : Nat) → List (List UInt8) → (image : List UInt8) → Except Failure (List UInt8)
  | _, [], image => .ok image
  | y, line :: lines, image => do
    let image ← l.convert line image (l.rowPos mip y) mip
    l.convertLines mip (y + 1) lines image

/-! ## One line -/

theorem paethPr_eq (a b c : Int) : paethPr a b c = paethPredictor a b c := by
  have hleft : a + b - c - a = b - c := by omega
  have hup : a + b - c - b = a - c := by omega
  have hupLeft : a + b - c - c = b - c + a - c := by omega
  simp only [paethPr, paethPredictor, hleft, hup, hupLeft]

theorem length_filterLine (fType bpp : Nat) (line pline : List UInt8) :
    (filterLine fType bpp line pline).length = line.length := length_mapIdx

variable {addend : List UInt8 → Nat → UInt8} {rows : List (Nat × List UInt8)}

section Line

variable {fType bpp : Nat} {line pline : List UInt8}

/-- The line restored up to index `i`. -/
def restoredTo (fType bpp : Nat) (line pline : List UInt8) (i : Nat) : List UInt8 :=
  line.take i ++ (filterLine fType bpp line pline).drop i

theorem restoredTo_zero : restoredTo fType bpp line pline 0 = filterLine fType bpp line pline := rfl

theorem restoredTo_length : restoredTo fType bpp line pline line.length = line := by
  rw [restoredTo, take_length, drop_of_length_le (by rw [length_filterLine]), append_nil]

theorem length_restoredTo {i : Nat} (hi : i ≤ line.length) :
    (restoredTo fType bpp line pline i).length = line.length := by
  rw [restoredTo, length_append, length_take, length_drop, length_filterLine]
  omega

theorem byteAt_restoredTo {i j : Nat} (hji : j < i) (hi : i ≤ line.length) :
    byteAt (restoredTo fType bpp line pline i) j = byteAt line j := by
  rw [byteAt, byteAt, restoredTo, getElem?_append_left (by rw [length_take]; omega),
    getElem?_take_of_lt hji]

theorem restoredTo_succ {i : Nat} (hi : i < line.length) :
    ∃ b, (restoredTo fType bpp line pline i)[i]? = some b ∧
      (restoredTo fType bpp line pline i).set i (b + predicted fType bpp line pline i) =
        restoredTo fType bpp line pline (i + 1) := by
  have htake : (line.take i).length = i := by rw [length_take]; omega
  have hdrop : (filterLine fType bpp line pline).drop i =
      ((line)[i] - predicted fType bpp line pline i) :: (filterLine fType bpp line pline).drop (i + 1) := by
    rw [drop_eq_getElem_cons (by rwa [length_filterLine])]
    congr 1
    exact getElem_mapIdx ..
  refine ⟨(line)[i] - predicted fType bpp line pline i, ?_, ?_⟩
  · rw [restoredTo, getElem?_append_right (by rw [htake]), htake, Nat.sub_self, hdrop]
    rfl
  · rw [restoredTo, set_append_right _ _ (by rw [htake]), htake, Nat.sub_self, hdrop,
      set_cons_zero, UInt8.sub_add_cancel, restoredTo, take_succ_eq_append_getElem hi,
      append_assoc]
    rfl

theorem addLoop_restores {remaining i : Nat} (hlen : i + remaining ≤ line.length)
    (hadd : ∀ j, i ≤ j → j < i + remaining →
      addend (restoredTo fType bpp line pline j) j = predicted fType bpp line pline j) :
    addLoop addend remaining i (restoredTo fType bpp line pline i) =
      .ok (restoredTo fType bpp line pline (i + remaining)) := by
  induction remaining generalizing i with
  | zero => rfl
  | succ remaining ih =>
    obtain ⟨b, hb, hset⟩ := @restoredTo_succ fType bpp line pline i (by omega)
    have hload : arrayLoad (restoredTo fType bpp line pline i) i = .ok b := by rw [arrayLoad, hb]
    rw [addLoop, hload, ok_bind, hadd i (le_refl i) (by omega),
      arrayStore_of_lt (by rw [length_restoredTo (by omega)]; omega), ok_bind, hset,
      ih (by omega) fun j hj hlt => hadd j (by omega) (by omega), Nat.add_assoc, Nat.add_comm 1]

theorem addFrom_restores (hbpp : bpp ≤ line.length) (hadd : ∀ j, bpp ≤ j → j < line.length →
      addend (restoredTo fType bpp line pline j) j = predicted fType bpp line pline j) :
    addFrom bpp addend (restoredTo fType bpp line pline bpp) = .ok line := by
  have hrest : bpp + (line.length - bpp) = line.length := by omega
  rw [addFrom, length_restoredTo hbpp, if_neg (by omega), addLoop_restores (Nat.le_of_eq hrest)
    (fun j hj hlt => hadd j hj (by omega)), hrest, restoredTo_length]

/-- Bytes for which nothing is predicted are as they were filtered. -/
theorem restoredTo_eq {k : Nat} (hzero : ∀ i < k, predicted fType bpp line pline i = 0) :
    restoredTo fType bpp line pline k = filterLine fType bpp line pline := by
  have htake : (filterLine fType bpp line pline).take k = line.take k := by
    apply ext_getElem?
    intro i
    rw [getElem?_take, getElem?_take]
    split
    · rename_i hi
      rw [filterLine, getElem?_mapIdx, hzero i hi]
      cases (line)[i]? <;> simp
    · rfl
  rw [restoredTo, ← htake, take_append_drop]

theorem doFilter_filterLine (hpos : 0 < bpp) (hbpp : bpp ≤ line.length) (fType : Nat) :
    doFilter (filterLine fType bpp line pline) pline fType bpp = .ok line := by
  have hleft : ∀ fType j, bpp ≤ j → j < line.length →
      byteAt (restoredTo fType bpp line pline j) (j - bpp) = byteAt line (j - bpp) :=
    fun fType j hj hlt => byteAt_restoredTo (by omega) (Nat.le_of_lt hlt)
  unfold doFilter
  split
  · have hzero : ∀ i < bpp, predicted 1 bpp line pline i = 0 := fun i hi => if_pos hi
    rw [doSubFilter, ← restoredTo_eq hzero]
    exact addFrom_restores hbpp fun j hj hlt => by
      simp only [predicted, if_neg (not_lt.mpr hj), hleft 1 j hj hlt]
  · rw [doUpFilter, ← restoredTo_zero, length_restoredTo (Nat.zero_le _),
      addLoop_restores (by omega) (fun _ _ _ => rfl), zero_add, restoredTo_length]
  · rw [doAvrgFilter, ← restoredTo_zero, addLoop_restores (by omega) fun j _ hlt => by
      simp only [predicted, if_pos (show j < bpp by omega), UInt8.toNat_zero, zero_add], ok_bind,
      zero_add]
    exact addFrom_restores hbpp fun j hj hlt => by
      simp only [predicted, if_neg (not_lt.mpr hj), hleft 3 j hj hlt]
  · rw [doPaethFilter, ← restoredTo_zero, addLoop_restores (by omega) fun j _ hlt => ?_, ok_bind,
      zero_add]
    · exact addFrom_restores hbpp fun j hj hlt => by
        simp only [predicted, if_neg (not_lt.mpr hj), hleft 4 j hj hlt, paethPr_eq]
    · have hup : paethPredictor 0 (byteAt pline j).toNat 0 = (byteAt pline j).toNat := by
        simp only [paethPredictor]
        split <;> omega
      simp only [predicted, if_pos (show j < bpp by omega), UInt8.toNat_zero, Int.natCast_zero, hup,
        Int.toNat_natCast, UInt8.ofNat_toNat]
  · have hnone : ∀ i, predicted fType bpp line pline i = 0 := fun i => by
      simp only [predicted]
    rw [← restoredTo_eq (fun i _ => hnone i), restoredTo_length]

end Line

/-! ## All lines -/

/-- The lines of an image, each with a filter type. -/
def AreRows (size : Nat) (rows : List (Nat × List UInt8)) : Prop :=
  ∀ row ∈ rows, row.1 ≤ 4 ∧ row.2.length = size

theorem restoreLines_filterLines {bpp size : Nat} (hpos : 0 < bpp) (hbpp : bpp ≤ size)
    (hrows : AreRows size rows) (pline : List UInt8) :
    restoreLines bpp pline (filterLines bpp pline rows) = .ok (rows.map Prod.snd) := by
  induction rows generalizing pline with
  | nil => rfl
  | cons row rows ih =>
    obtain ⟨⟨-, hsz⟩, hrows⟩ := forall_mem_cons.mp hrows
    rw [filterLines, restoreLines, doFilter_filterLine hpos (hsz ▸ hbpp), ok_bind, ih hrows]
    rfl

theorem length_le_filteredBytes (bpp : Nat) (pline : List UInt8) (rows : List (Nat × List UInt8)) :
    rows.length ≤ (filteredBytes (filterLines bpp pline rows)).length := by
  induction rows generalizing pline with
  | nil => exact le_refl 0
  | cons row rows ih =>
    have hrest := ih row.2
    rw [filteredBytes] at hrest
    rw [filterLines, filteredBytes, flatMap_cons, cons_append, length_cons,
      length_cons, length_append]
    omega

namespace PNGImageLoader

variable {l : PNGImageLoader} {mip size : Nat}

theorem rowLoop_filterLines (hrows : AreRows size rows)
    (hpos : 0 < l.colorType.numBands * l.bytesPerColor)
    (hbpp : l.colorType.numBands * l.bytesPerColor ≤ size) {y fuel : Nat}
    (hlen : l.mipHeight mip = (y + rows.length : Nat)) (hfuel : rows.length < fuel)
    (pline image rest : List UInt8) :
    l.rowLoop mip size fuel y pline image
        (filteredBytes (filterLines (l.colorType.numBands * l.bytesPerColor) pline rows) ++ rest) =
      (l.convertLines mip y (rows.map Prod.snd) image).map (·, rest) := by
  induction rows generalizing y fuel pline image with
  | nil =>
    obtain ⟨fuel, rfl⟩ := Nat.exists_eq_succ_of_ne_zero (Nat.ne_of_gt hfuel)
    rw [rowLoop.eq_def]
    exact if_pos hlen.symm
  | cons row rows ih =>
    obtain ⟨⟨htype, hsz⟩, hrows⟩ := forall_mem_cons.mp hrows
    obtain ⟨fuel, rfl⟩ := Nat.exists_eq_succ_of_ne_zero (Nat.ne_of_gt (Nat.zero_lt_of_lt hfuel))
    rw [length_cons] at hlen hfuel
    have hnot : ¬ (y : Int) = l.mipHeight mip := by omega
    have hline : (filterLine row.1 (l.colorType.numBands * l.bytesPerColor) row.2 pline).length = size := by
      rw [length_filterLine, hsz]
    have hbyte : (UInt8.ofNat row.1).toNat = row.1 := by
      rw [UInt8.toNat_ofNat']
      omega
    rw [rowLoop.eq_def]
    simp only [if_neg hnot, filterLines, filteredBytes, flatMap_cons, cons_append,
      append_assoc, length_append, hline]
    rw [if_neg (by omega), take_left' hline, drop_left' hline, hbyte,
      doFilter_filterLine hpos (hsz ▸ hbpp), ok_bind, map_cons, convertLines]
    cases l.convert row.2 image (l.rowPos mip y) mip with
    | error e => rfl
    | ok image => exact ih hrows (by omega) (by omega) row.2 image

end PNGImageLoader

/-- `loadMip` restores the lines that were filtered. -/
theorem restoreLines_and_loadMip_filterLines {bpp size : Nat} (hpos : 1 ≤ bpp) (hbpp : bpp ≤ size)
    {rows : List (Nat × List UInt8)} (hrows : AreRows size rows) :
    restoreLines bpp (List.replicate size 0) (filterLines bpp (List.replicate size 0) rows) =
        .ok (rows.map Prod.snd) ∧
      ∀ (l : PNGImageLoader) (mip : Nat) (image rest : List UInt8),
        l.colorType.numBands * l.bytesPerColor = bpp → l.scanLineSize mip = size →
        l.mipHeight mip = rows.length →
        l.loadMip image (filteredBytes (filterLines bpp (List.replicate size 0) rows) ++ rest) mip =
          (l.convertLines mip 0 (rows.map Prod.snd) image).map (·, rest) := by
  refine ⟨restoreLines_filterLines hpos hbpp hrows _, ?_⟩
  rintro l mip image rest rfl hsz hheight
  rw [PNGImageLoader.loadMip, hsz, if_neg (by omega), Int.toNat_natCast]
  apply PNGImageLoader.rowLoop_filterLines hrows hpos hbpp (by rw [hheight, zero_add])
  have hle := length_le_filteredBytes (l.colorType.numBands * l.bytesPerColor)
    (List.replicate size 0) rows
  rw [length_append]
  omega

/-- Two lines of a gray image, with two filters. -/
theorem restoreLines_and_loadMip_filterLines_gray :
    restoreLines 1 [0, 0] [(4, [10, 190]), (3, [2, 152])] = .ok [[10, 200], [7, 255]] ∧
      PNGImageLoader.loadMip ⟨2, 2, 8, .gray, false, false, 0, 0, 0⟩ [0, 0, 0, 0]
        [4, 10, 190, 3, 2, 152] 7 = .ok ([10, 200, 7, 255], []) := by
  obtain ⟨hlines, hload⟩ := restoreLines_and_loadMip_filterLines (le_refl 1) (Nat.le_succ 1)
    (show AreRows 2 [(4, [10, 200]), (3, [7, 255])] by
      simp only [AreRows]
      decide)
  exact ⟨hlines, hload ⟨2, 2, 8, .gray, false, false, 0, 0, 0⟩ 7 [0, 0, 0, 0] [] rfl rfl rfl⟩

end OpenJfx.Iio.Png
