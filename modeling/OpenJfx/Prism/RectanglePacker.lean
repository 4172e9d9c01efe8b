/-
  OpenJfx.Prism.RectanglePacker

  `RectanglePacker` as the glyph caches use it: origin (0, 0), horizontal levels, kept by
  increasing height and found by a binary search.  Wherever the search starts, a rectangle is
  placed in the free part of one strip or in a new one, so it meets no other.
-/

import Mathlib.Data.List.Perm.Basic

namespace OpenJfx.Prism

open List

variable {levels : List Level} {p : RectanglePacker} {level' : Level} {rect r : Rectangle}

/-- `com.sun.javafx.geom.Rectangle`. -/
structure Rectangle where
  x : Nat
  y : Nat
  width : Nat
  height : Nat
  deriving DecidableEq, Repr

def Rectangle.Contains (r : Rectangle) (texel : Nat × Nat) : Prop :=
  r.x ≤ texel.1 ∧ texel.1 < r.x + r.width ∧ r.y ≤ texel.2 ∧ texel.2 < r.y + r.height

instance (r : Rectangle) (texel : Nat × Nat) : Decidable (r.Contains texel) :=
  inferInstanceAs (Decidable (_ ∧ _))

/-- `com.sun.prism.impl.packrect.Level`. -/
structure Level where
  length : Nat
  size : Nat
  sizeOffset : Nat
  lengthOffset : Nat
  deriving DecidableEq, Repr

/-- `Level.add`: the rectangle at its place and the level after it. -/
def Level.add (level : Level) (rect : Rectangle) : Option (Rectangle × Level) :=
  if level.lengthOffset + rect.width ≤ level.length ∧ rect.height ≤ level.size then
    some ({ rect with x := level.lengthOffset, y := level.sizeOffset },
      { level with lengthOffset := level.lengthOffset + rect.width })
  else none

/-- `RectanglePacker`. -/
structure RectanglePacker where
  levels : List Level
  recentUsedLevelIndex : Nat
  length : Nat
  size : Nat
  sizeOffset : Nat
  deriving DecidableEq, Repr

variable {level : Level} {j : Nat}

namespace RectanglePacker

/-- The minimum size of a level. -/
def MIN_SIZE : Nat := 8

/-- Sizes are rounded up to multiples of this. -/
def ROUND_UP : Nat := 4

def new (width height : Nat) : RectanglePacker where
  levels := []
  recentUsedLevelIndex := 0
  length := width
  size := height
  sizeOffset := 0

def clear (p : RectanglePacker) : RectanglePacker :=
  { p with levels := [], sizeOffset := 0, recentUsedLevelIndex := 0 }

/-! ## Finding a level -/

/-- Levels `[from_, to_)`, with the last probe. -/
def searchLoop (levels : List Level) (key : Nat) : Nat → Nat → Nat → Nat × Nat → Nat × Nat
  | 0, _, _, probe => probe
  | fuel + 1, from_, to_, probe =>
    if from_ < to_ then
      let mid := (from_ + (to_ - 1)) / 2
      let midSize := (levels.map Level.size).getD mid 0
      if key < midSize then searchLoop levels key fuel from_ mid (mid, midSize)
      else searchLoop levels key fuel (mid + 1) to_ (mid, midSize)
    else probe

/-- Where the search for a level of this size ends. -/
def binarySearch (levels : List Level) (k : Nat) : Nat :=
  if levels.length = 0 then 0
  else
    let (mid, midSize) := searchLoop levels (k + 1) levels.length 0 levels.length (0, 0)
    if midSize < k then mid + 1
    else if midSize > k then if mid > 0 then mid - 1 else 0
    else mid

/-- The level from `i` on that takes the rectangle. -/
def addToLevels (newSize : Nat) (newLevelFlag : Bool) (rect : Rectangle) :
    Nat → List Level → Option (Nat × Rectangle × Level)
  | _, [] => none
  | i, level :: rest =>
    if level.size > newSize + ROUND_UP * 2 ∧ newLevelFlag = true then none
    else
      match level.add rect with
      | some (rect, level) => some (i, rect, level)
      | none => addToLevels newSize newLevelFlag rect (i + 1) rest

/-- The requested size, at least `MIN_SIZE` and rounded up. -/
def roundedSize (requestedSize : Nat) : Nat :=
  let newSize := if MIN_SIZE > requestedSize then MIN_SIZE else requestedSize
  (newSize + ROUND_UP - 1) - (newSize - 1) % ROUND_UP

/-- The level that the loop of `add` starts at. -/
def startIndex (p : RectanglePacker) (newSize : Nat) : Nat :=
  match p.levels[p.recentUsedLevelIndex]? with
  | some level => if level.size ≠ newSize then binarySearch p.levels newSize else p.recentUsedLevelIndex
  | none => p.recentUsedLevelIndex

/-- `add`; none where the code returns false. -/
def add (p : RectanglePacker) (rect : Rectangle) : Option Rectangle × RectanglePacker :=
  if rect.width > p.length then (none, p)
  else if rect.height > p.size then (none, p)
  else
    let newSize := roundedSize rect.height
    let newIndex := p.startIndex newSize
    let newLevelFlag : Bool := p.sizeOffset + newSize ≤ p.size
    match addToLevels newSize newLevelFlag rect newIndex (p.levels.drop newIndex) with
    | some (i, rect, level) =>
      (some rect, { p with levels := p.levels.set i level, recentUsedLevelIndex := i })
    | none =>
      if newLevelFlag = false then (none, p)
      else
        let newLevel : Level := ⟨p.length, newSize, p.sizeOffset, 0⟩
        let index :=
          match p.levels[newIndex]? with
          | some level => if level.size ≤ newSize then newIndex + 1 else newIndex
          | none => newIndex
        match newLevel.add rect with
        | some (rect, level) =>
          (some rect, { p with
            levels := p.levels.insertIdx index level
            sizeOffset := p.sizeOffset + newSize
            recentUsedLevelIndex := index })
        | none =>
          (none, { p with
            levels := p.levels.insertIdx index newLevel
            sizeOffset := p.sizeOffset + newSize
            recentUsedLevelIndex := index })

/-! ## The levels -/

/-- Two strips have no row in common. -/
def Level.Apart (a b : Level) : Prop :=
  a.sizeOffset + a.size ≤ b.sizeOffset ∨ b.sizeOffset + b.size ≤ a.sizeOffset

/-- Apart, inside, and the index is one of theirs. -/
structure Valid (p : RectanglePacker) : Prop where
  apart : p.levels.Pairwise Level.Apart
  inside : ∀ level ∈ p.levels, level.sizeOffset + level.size ≤ p.sizeOffset
  filled : ∀ level ∈ p.levels, level.lengthOffset ≤ level.length
  length_eq : ∀ level ∈ p.levels, level.length = p.length
  sizeOffset_le : p.sizeOffset ≤ p.size
  recent_le : p.recentUsedLevelIndex ≤ p.levels.length

/-- The rectangle is in the filled part of a level. -/
def Placed (p : RectanglePacker) (r : Rectangle) : Prop :=
  ∃ level ∈ p.levels, r.x + r.width ≤ level.lengthOffset ∧ level.sizeOffset ≤ r.y ∧
    r.y + r.height ≤ level.sizeOffset + level.size

theorem valid_new (width height : Nat) : Valid (new width height) :=
  ⟨List.Pairwise.nil, nofun, nofun, nofun, Nat.zero_le _, Nat.le_refl _⟩

theorem valid_clear (p : RectanglePacker) : Valid p.clear :=
  ⟨List.Pairwise.nil, nofun, nofun, nofun, Nat.zero_le _, Nat.le_refl _⟩

theorem add_dimensions (p : RectanglePacker) (rect : Rectangle) :
    (p.add rect).2.length = p.length ∧ (p.add rect).2.size = p.size := by
  rw [add]
  split
  · exact ⟨rfl, rfl⟩
  split
  · exact ⟨rfl, rfl⟩
  simp only []
  split
  · exact ⟨rfl, rfl⟩
  split
  · exact ⟨rfl, rfl⟩
  split <;> exact ⟨rfl, rfl⟩

theorem searchLoop_lt {key fuel from_ to_ n : Nat} {probe : Nat × Nat}
    (hto : to_ ≤ n) (hprobe : probe.1 < n) :
    (searchLoop levels key fuel from_ to_ probe).1 < n := by
  induction fuel generalizing from_ to_ probe with
  | zero => exact hprobe
  | succ fuel ih =>
    rw [searchLoop]
    split
    · have hmid : (from_ + (to_ - 1)) / 2 < n := by omega
      simp only []
      split
      · exact ih (by omega) hmid
      · exact ih hto hmid
    · exact hprobe

theorem binarySearch_le (levels : List Level) (k : Nat) :
    binarySearch levels k ≤ levels.length := by
  rw [binarySearch]
  split
  · exact Nat.zero_le _
  · have hlt : (searchLoop levels (k + 1) levels.length 0 levels.length (0, 0)).1 < levels.length :=
      searchLoop_lt (Nat.le_refl _) (by omega)
    simp only []
    split
    · omega
    · split
      · split <;> omega
      · omega

theorem Valid.startIndex_le (h : Valid p) (newSize : Nat) :
    p.startIndex newSize ≤ p.levels.length := by
  have hrecent := h.recent_le
  rw [startIndex]
  split
  · split
    · exact binarySearch_le ..
    · exact hrecent
  · exact hrecent

/-! ## Placing a rectangle -/

theorem Level.add_eq_some (h : level.add rect = some (r, level')) :
    level.lengthOffset + rect.width ≤ level.length ∧ rect.height ≤ level.size ∧
      r = { rect with x := level.lengthOffset, y := level.sizeOffset } ∧
      level' = { level with lengthOffset := level.lengthOffset + rect.width } := by
  rw [Level.add] at h
  split at h
  · rename_i hfits
    cases h
    exact ⟨hfits.1, hfits.2, rfl, rfl⟩
  · cases h

/-- The loop finds a level of the list that takes the rectangle. -/
theorem addToLevels_eq_some {newSize : Nat} {flag : Bool} {i : Nat}
    (h : addToLevels newSize flag rect i levels = some (j, r, level')) :
    ∃ level k, levels[k]? = some level ∧ j = i + k ∧ level.add rect = some (r, level') := by
  induction levels generalizing i with
  | nil => cases h
  | cons level rest ih =>
    rw [addToLevels] at h
    split at h
    · cases h
    · split at h
      · rename_i hadd
        cases h
        exact ⟨level, 0, rfl, rfl, hadd⟩
      · obtain ⟨level1, k, hk, rfl, hadd⟩ := ih h
        exact ⟨level1, k + 1, hk, by omega, hadd⟩

/-- As large as requested, away from the others. -/
structure Places (p : RectanglePacker) (rect r : Rectangle) (p' : RectanglePacker) : Prop where
  valid : Valid p'
  width : r.width = rect.width
  height : r.height = rect.height
  placed : Placed p' r
  kept : ∀ r₀, Placed p r₀ → Placed p' r₀
  apart : ∀ r₀, Placed p r₀ → ∀ texel, r₀.Contains texel → ¬ r.Contains texel
  length : p'.length = p.length
  size : p'.size = p.size
  right_le : r.x + r.width ≤ p.length
  bottom_le : r.y + r.height ≤ p.size

theorem Level.Apart.symm {a b : Level} (h : Level.Apart a b) : Level.Apart b a := Or.symm h

theorem Valid.apart_of_ne (h : Valid p) {a b : Level} {i : Nat}
    (ha : p.levels[i]? = some a) (hb : p.levels[j]? = some b) (hne : i ≠ j) : Level.Apart a b := by
  obtain ⟨hi, rfl⟩ := List.getElem?_eq_some_iff.mp ha
  obtain ⟨hj, rfl⟩ := List.getElem?_eq_some_iff.mp hb
  have hpairs := pairwise_iff_getElem.mp h.apart
  obtain hlt | hlt := Nat.lt_or_gt_of_ne hne
  · exact hpairs i j hi hj hlt
  · exact (hpairs j i hj hi hlt).symm

theorem pairwise_apart_set
    (h : levels.Pairwise Level.Apart) (hj : levels[j]? = some level) (lengthOffset : Nat) :
    (levels.set j { level with lengthOffset := lengthOffset }).Pairwise Level.Apart := by
  let strip : Level → Nat × Nat := fun l => (l.sizeOffset, l.size)
  let R : Nat × Nat → Nat × Nat → Prop := fun a b => a.1 + a.2 ≤ b.1 ∨ b.1 + b.2 ≤ a.1
  obtain ⟨hlt, hget⟩ := List.getElem?_eq_some_iff.mp hj
  have hmap : (levels.map strip).Pairwise R := pairwise_map.mpr h
  have hsame : (levels.set j { level with lengthOffset := lengthOffset }).map strip = levels.map strip := by
    rw [map_set]
    have hlt : j < (levels.map strip).length := by rwa [length_map]
    have hstrip : strip { level with lengthOffset := lengthOffset } = (levels.map strip)[j] := by
      rw [getElem_map, hget]
    rw [hstrip, set_getElem_self]
  have hset : ((levels.set j { level with lengthOffset := lengthOffset }).map strip).Pairwise R := by
    rw [hsame]
    exact hmap
  have hpairs := pairwise_map.mp hset
  exact hpairs

theorem Valid.places_in_level (h : Valid p) (hj : p.levels[j]? = some level)
    (hadd : level.add rect = some (r, level')) :
    Places p rect r { p with levels := p.levels.set j level', recentUsedLevelIndex := j } := by
  obtain ⟨hlen, hsz, rfl, rfl⟩ := Level.add_eq_some hadd
  obtain ⟨hlt, hget⟩ := List.getElem?_eq_some_iff.mp hj
  have hmem : level ∈ p.levels := mem_of_getElem? hj
  have hinside := h.inside level hmem
  have hset : ∀ l ∈ p.levels.set j { level with lengthOffset := level.lengthOffset + rect.width },
      l ∈ p.levels ∨ l = { level with lengthOffset := level.lengthOffset + rect.width } :=
    fun l hl => mem_or_eq_of_mem_set hl
  refine ⟨⟨?_, fun l hl => ?_, fun l hl => ?_, fun l hl => ?_, h.sizeOffset_le, ?_⟩, rfl, rfl, ?_,
    fun r0 h0 => ?_, fun r0 h0 texel hin hin' => ?_, rfl, rfl, ?_, ?_⟩
  · exact pairwise_apart_set h.apart hj _
  · cases hset l hl with
    | inl hl => exact h.inside l hl
    | inr hl => rw [hl]; exact hinside
  · cases hset l hl with
    | inl hl => exact h.filled l hl
    | inr hl => rw [hl]; exact hlen
  · cases hset l hl with
    | inl hl => exact h.length_eq l hl
    | inr hl => rw [hl]; exact h.length_eq level hmem
  · rw [length_set]
    exact Nat.le_of_lt hlt
  · exact ⟨_, mem_set hlt _, Nat.le_refl _, Nat.le_refl _, Nat.add_le_add_left hsz _⟩
  · obtain ⟨level0, hmem0, hx, hy, hbottom⟩ := h0
    obtain ⟨i, hi⟩ := mem_iff_getElem?.mp hmem0
    by_cases hij : i = j
    · subst hij
      cases hj.symm.trans hi
      exact ⟨_, mem_set hlt _, Nat.le_trans hx (Nat.le_add_right ..), hy, hbottom⟩
    · have hi' : (p.levels.set j { level with
          lengthOffset := level.lengthOffset + rect.width })[i]? = some level0 := by
        rw [getElem?_set_ne (Ne.symm hij), hi]
      exact ⟨level0, mem_of_getElem? hi', hx, hy, hbottom⟩
  · obtain ⟨level0, hmem0, hx, hy, hbottom⟩ := h0
    obtain ⟨i, hi⟩ := mem_iff_getElem?.mp hmem0
    simp only [Rectangle.Contains] at hin hin'
    by_cases hij : i = j
    · subst hij
      cases hj.symm.trans hi
      omega
    · have hapart := h.apart_of_ne hi hj hij
      simp only [Level.Apart] at hapart
      omega
  · rw [← h.length_eq level hmem]
    exact hlen
  · have := h.sizeOffset_le
    simp only []
    omega

theorem Valid.places_in_new_level (h : Valid p)
    {newSize index : Nat} (hspace : p.sizeOffset + newSize ≤ p.size)
    (hidx : index ≤ p.levels.length)
    (hadd : (⟨p.length, newSize, p.sizeOffset, 0⟩ : Level).add rect = some (r, level')) :
    Places p rect r { p with
      levels := p.levels.insertIdx index level'
      sizeOffset := p.sizeOffset + newSize
      recentUsedLevelIndex := index } := by
  obtain ⟨hlen, hsz, rfl, rfl⟩ := Level.add_eq_some hadd
  simp only [Nat.zero_add] at hlen
  simp only [Nat.zero_add]
  have hmem : ∀ l, l ∈ p.levels.insertIdx index ⟨p.length, newSize, p.sizeOffset, rect.width⟩ ↔
      l = ⟨p.length, newSize, p.sizeOffset, rect.width⟩ ∨ l ∈ p.levels :=
    fun l => mem_insertIdx hidx
  refine ⟨⟨?_, fun l hl => ?_, fun l hl => ?_, fun l hl => ?_, hspace, ?_⟩, rfl, rfl,
    ⟨_, (hmem _).mpr (.inl rfl), ?_, Nat.le_refl _, Nat.add_le_add_left hsz _⟩,
    fun r0 h0 => ?_, fun r0 h0 texel hin hin' => ?_, rfl, rfl, ?_, ?_⟩
  · have hperm := perm_insertIdx (⟨p.length, newSize, p.sizeOffset, rect.width⟩ : Level)
      p.levels hidx
    refine (hperm.pairwise_iff Level.Apart.symm).mpr (pairwise_cons.mpr ⟨fun l hl => ?_, h.apart⟩)
    exact .inr (h.inside l hl)
  · cases (hmem l).mp hl with
    | inl hl => exact Nat.le_of_eq (by rw [hl])
    | inr hl => exact Nat.le_trans (h.inside l hl) (Nat.le_add_right ..)
  · cases (hmem l).mp hl with
    | inl hl => rw [hl]; exact hlen
    | inr hl => exact h.filled l hl
  · cases (hmem l).mp hl with
    | inl hl => rw [hl]
    | inr hl => exact h.length_eq l hl
  · rw [length_insertIdx_of_le_length hidx]
    exact Nat.le_succ_of_le hidx
  · simp only [Nat.zero_add, Nat.le_refl]
  · obtain ⟨level0, hmem0, hplace⟩ := h0
    exact ⟨level0, (hmem level0).mpr (.inr hmem0), hplace⟩
  · obtain ⟨level0, hmem0, hx, hy, hbottom⟩ := h0
    have hinside := h.inside level0 hmem0
    have hrow : texel.2 < r0.y + r0.height := hin.2.2.2
    have hrow' : p.sizeOffset ≤ texel.2 := hin'.2.2.1
    omega
  · simp only [Nat.zero_add]
    exact hlen
  · have hsz : rect.height ≤ newSize := hsz
    simp only []
    omega

theorem le_roundedSize (requestedSize : Nat) : requestedSize ≤ roundedSize requestedSize := by
  have hmin : MIN_SIZE = 8 := rfl
  have hround : ROUND_UP = 4 := rfl
  simp only [roundedSize]
  split
  · rw [hmin, hround]
    omega
  · rw [hround]
    omega

theorem Valid.add_some {p' : RectanglePacker} (h : Valid p)
    (hadd : p.add rect = (some r, p')) : Places p rect r p' := by
  rw [add] at hadd
  split at hadd
  · cases hadd
  split at hadd
  · cases hadd
  simp only [] at hadd
  split at hadd
  · rename_i i r' level' hfound
    obtain ⟨level, k, hk, rfl, hlevel⟩ := addToLevels_eq_some hfound
    rw [getElem?_drop] at hk
    cases hadd
    exact h.places_in_level hk hlevel
  · split at hadd
    · cases hadd
    · rename_i hflag
      have hspace : p.sizeOffset + roundedSize rect.height ≤ p.size := by simpa using hflag
      have hst := h.startIndex_le (roundedSize rect.height)
      split at hadd
      · rename_i hlevel
        cases hadd
        refine h.places_in_new_level hspace ?_ hlevel
        split
        · rename_i hget
          have hlt := (List.getElem?_eq_some_iff.mp hget).1
          split
          · exact hlt
          · exact hst
        · exact hst
      · cases hadd

theorem add_isSome (hlen : rect.width ≤ p.length)
    (hsz : rect.height ≤ p.size) (hspace : p.sizeOffset + roundedSize rect.height ≤ p.size) :
    ∃ r p', p.add rect = (some r, p') := by
  rw [add, if_neg (by omega), if_neg (by omega)]
  simp only []
  split
  · exact ⟨_, _, rfl⟩
  · rw [if_neg (by simpa using hspace), Level.add, if_pos ⟨by simpa using hlen, le_roundedSize _⟩]
    exact ⟨_, _, rfl⟩

theorem add_clear_isSome (p : RectanglePacker) (rect : Rectangle)
    (hlen : rect.width ≤ p.length) (hsz : rect.height ≤ p.size) (hmin : MIN_SIZE ≤ p.size) (hround : ROUND_UP ∣ p.size) :
    ∃ r p', p.clear.add rect = (some r, p') := by
  refine add_isSome hlen hsz ?_
  have hmin' : MIN_SIZE = 8 := rfl
  have hround' : ROUND_UP = 4 := rfl
  simp only [clear, roundedSize]
  rw [hmin'] at hmin
  rw [hround'] at hround
  split
  · rw [hmin', hround']
    omega
  · rw [hround']
    omega

end RectanglePacker

end OpenJfx.Prism
