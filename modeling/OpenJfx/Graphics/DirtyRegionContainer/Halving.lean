/-
  OpenJfx.Graphics.DirtyRegionContainer.Halving

  When `compress_heap` halves a full container: one pair is merged, so at most three regions can
  be halved.  The pair is one of least area among those that have an entry; after an earlier
  compression slots may share one.  A heap made for fewer regions is too small.
-/

import OpenJfx.Graphics.DirtyRegionContainer.Compress

namespace OpenJfx.Graphics.DirtyRegionContainer

open List Option

/-! ## The statement -/

section

variable {K : Type} [LinearOrder K] (area : RectBounds K → RectBounds K → Int)

/-- No space, and a heap for as many regions or fewer. -/
structure Full (s : DirtyRegionContainer K) : Prop where
  two : 2 ≤ s.dirtyRegions.length
  full : s.emptyIndex = s.dirtyRegions.length
  regions : ∀ r ∈ s.dirtyRegions, r.isEmpty = false
  heap : ∀ h, s.heap = some h → ∃ m ≤ s.dirtyRegions.length, h.slots.length = m * (m - 1) / 2

/-- Two current regions whose union has the least area become one. -/
def MergesLeast (c c' : Compression K) : Prop :=
  ∃ (i j : Nat) (ri rj : RectBounds K), i ≠ j ∧ IsRoot c.map i ∧ IsRoot c.map j ∧ c.regions[i]? = some ri ∧
    c.regions[j]? = some rj ∧
    (∀ (i' j' : Nat) (ri' rj' : RectBounds K), i' ≠ j' → IsRoot c.map i' → IsRoot c.map j' → c.regions[i']? = some ri' →
      c.regions[j']? = some rj' → area ri rj ≤ area ri' rj') ∧
    c'.regions = c.regions.set i (ri.unionWith rj) ∧ c'.map = c.map.set j i

/-- Each round merges two; half of them are left. -/
def Halves (s : DirtyRegionContainer K) : Prop :=
  ∃ heap s', prepare area s = some heap ∧
    (∀ k < s.dirtyRegions.length / 2, ∃ c c', mergeRounds area k (s.start heap) = some c ∧
      mergeMin area c = some c' ∧ MergesLeast area c c') ∧
    compressHeap area s = some s' ∧
    s'.emptyIndex = s.dirtyRegions.length - s.dirtyRegions.length / 2

/-- A pair of least area has an entry of its own. -/
def LeastKept (s : DirtyRegionContainer K) : Prop :=
  ∃ (i j : Nat) (ri rj : RectBounds K), s.Kept i j ∧ s.dirtyRegions[i]? = some ri ∧ s.dirtyRegions[j]? = some rj ∧
    ∀ (i' j' : Nat) (ri' rj' : RectBounds K), i' ≠ j' → s.dirtyRegions[i']? = some ri' →
      s.dirtyRegions[j']? = some rj' → area ri rj ≤ area ri' rj'

end

/-- The area of the union of two regions. -/
def unionArea : RectBounds Int → RectBounds Int → Int :=
  RectBounds.unifiedArea fun r => (r.maxX - r.minX) * (r.maxY - r.minY)

/-! ## A heap that is too small -/

variable {K : Type} [LinearOrder K] {area : RectBounds K → RectBounds K → Int}
  {s : DirtyRegionContainer K}

omit [LinearOrder K] in
theorem fill_eq_none {regions : List (RectBounds K)} {pairs : List (Nat × Nat)} {k : Nat} {h : Heap}
    (hsz : h.slots.length < k + pairs.length) (hk : k ≤ h.slots.length) :
    fill area regions pairs k h = none := by
  induction pairs generalizing k h with
  | nil =>
    rw [length_nil] at hsz
    omega
  | cons p pairs ih =>
    obtain ⟨i, j⟩ := p
    rw [length_cons] at hsz
    rw [fill]
    rcases Nat.lt_or_ge k h.slots.length with hlt | hge
    · rw [getElem?_eq_getElem hlt, bind_eq_bind, bind_some]
      refine bind_eq_none_iff.mpr fun a _ => ?_
      refine ih ?_ ?_
      · show h.slots.length < k + 1 + pairs.length
        omega
      · show k + 1 ≤ h.slots.length
        omega
    · rw [getElem?_eq_none hge]
      rfl

omit [LinearOrder K] in
/-- The compression gets past filling the heap only when it fits. -/
theorem HeapFits.of_prepare {heap : Heap} (hprepare : prepare area s = some heap)
    (hheap : ∀ h, s.heap = some h → ∃ m ≤ s.dirtyRegions.length, h.slots.length = m * (m - 1) / 2) :
    s.HeapFits := by
  obtain ⟨filled, hfill, -⟩ := bind_eq_some_iff.mp hprepare
  have hpairs := length_indexPairs s.dirtyRegions.length
  have hle : s.dirtyRegions.length * (s.dirtyRegions.length - 1) / 2 ≤ s.oldHeap.slots.length := by
    by_contra hlt
    rw [fill_eq_none (by omega) (Nat.zero_le _)] at hfill
    cases hfill
  refine Nat.le_antisymm ?_ hle
  cases hs : s.heap with
  | none =>
    rw [oldHeap, hs]
    exact Nat.le_of_eq length_range
  | some h =>
    obtain ⟨m, hm, hlen⟩ := hheap h hs
    rw [oldHeap, hs, getD_some, hlen]
    exact Nat.div_le_div_right (Nat.mul_le_mul hm (by omega))

/-! ## The first round -/

theorem set_range_inj {n i j i' j' : Nat} (hj : j < n) (hij : i ≠ j)
    (heq : (List.range n).set j i = (List.range n).set j' i') : i' = i ∧ j' = j := by
  have hget := congrArg (fun l : List Nat => l[j]?) heq
  have hlt : j < (List.range n).length := by rwa [length_range]
  rw [getElem?_set_self hlt, getElem?_set] at hget
  split at hget
  · next hjj =>
    rw [if_pos (hjj ▸ hlt), Option.some.injEq] at hget
    exact ⟨hget.symm, hjj⟩
  · rw [getElem?_range hj, Option.some.injEq] at hget
    exact absurd hget hij

theorem Prepared.mergesLeast_iff {heap : Heap} (h : Prepared area s heap)
    (hpos : 0 < heap.slots.length)
    (harea : ∀ r0 ∈ s.dirtyRegions, ∀ r1 ∈ s.dirtyRegions,
      area (r0.unionWith r1) (r0.unionWith r1) = area r0 r1) :
    (∃ c', DirtyRegionContainer.mergeMin area (s.start heap) = some c' ∧
      MergesLeast area (s.start heap) c') ↔ LeastKept area s := by
  obtain ⟨i, j, ri, rj, c, ⟨hij, hkept, hri, hrj, hleast⟩, hmin, -, hregs, hmap, -⟩ :=
    h.mergeMin hpos harea
  have hroot : ∀ {k : Nat} {r : RectBounds K}, s.dirtyRegions[k]? = some r →
      IsRoot (s.start heap).map k := fun hk =>
    getElem?_range (List.getElem?_eq_some_iff.mp hk).1
  have hjlt : j < s.dirtyRegions.length := (List.getElem?_eq_some_iff.mp hrj).1
  constructor
  · rintro ⟨c', hc', i', j', ri', rj', hne, -, -, hri', hrj', hall, -, hmap'⟩
    rw [hmin] at hc'
    cases hc'
    obtain ⟨rfl, rfl⟩ := set_range_inj hjlt (by omega) (hmap.symm.trans hmap')
    rw [show (s.start heap).regions = s.dirtyRegions from rfl] at hri' hrj' hall
    exact ⟨i', j', ri', rj', hkept, hri', hrj', fun a b ra rb hab ha hb =>
      hall a b ra rb hab (hroot ha) (hroot hb) ha hb⟩
  · rintro ⟨i0, j0, r₀, r₁, hkept0, hr0, hr1, hall⟩
    refine ⟨c, hmin, i, j, ri, rj, by omega, hroot hri, hroot hrj, hri, hrj,
      fun a b ra rb hab _ _ ha hb => ?_, hregs, hmap⟩
    exact Int.le_trans (hleast i0 j0 r₀ r₁ hkept0 hr0 hr1) (hall a b ra rb hab ha hb)

/-- A full container is halved exactly when its heap fits, it has three regions at most, and a
    pair of least area keeps its entry. -/
theorem Full.halves_iff (hs : Full s) (harea : ∀ r0 ∈ s.dirtyRegions, ∀ r1 ∈ s.dirtyRegions,
      area (r0.unionWith r1) (r0.unionWith r1) = area r0 r1) :
    Halves area s ↔ s.HeapFits ∧ s.dirtyRegions.length ≤ 3 ∧ LeastKept area s := by
  have htwo := hs.two
  have hpos : ∀ {heap}, Prepared area s heap → 0 < heap.slots.length := by
    intro heap hprep
    rw [hprep.length]
    have : 2 * 1 ≤ s.dirtyRegions.length * (s.dirtyRegions.length - 1) :=
      Nat.mul_le_mul htwo (by omega)
    omega
  constructor
  · rintro ⟨heap, s', hprepare, hrounds, hcompress, hsz⟩
    have hfits := HeapFits.of_prepare hprepare hs.heap
    obtain ⟨heap', hprepare', hprep⟩ := Prepared.of_prepare area hfits
    rw [hprepare] at hprepare'
    cases hprepare'
    obtain ⟨s1, _, _, _, _, hcompress1, hmerged⟩ := compressHeap_spec htwo hs.full hfits harea
    have hsize1 := hmerged.size
    rw [hcompress] at hcompress1
    cases hcompress1
    refine ⟨hfits, by omega, (hprep.mergesLeast_iff (hpos hprep) harea).mp ?_⟩
    obtain ⟨c, c', hc, hmin, hleast⟩ := hrounds 0 (by omega)
    cases hc
    exact ⟨c', hmin, hleast⟩
  · rintro ⟨hfits, hthree, hleast⟩
    obtain ⟨heap, hprepare, hprep⟩ := Prepared.of_prepare area hfits
    obtain ⟨s', _, _, _, _, hcompress, hmerged⟩ := compressHeap_spec htwo hs.full hfits harea
    have hsz := hmerged.size
    obtain ⟨c', hmin, hmerges⟩ := (hprep.mergesLeast_iff (hpos hprep) harea).mpr hleast
    refine ⟨heap, s', hprepare, fun k hk => ?_, hcompress, by omega⟩
    obtain rfl : k = 0 := by omega
    exact ⟨s.start heap, c', rfl, hmin, hmerges⟩

/-- The same for the area of the union. -/
theorem compressHeap_halves_iff {s : DirtyRegionContainer Int} (hs : Full s) :
    Halves unionArea s ↔ s.HeapFits ∧ s.dirtyRegions.length ≤ 3 ∧ LeastKept unionArea s :=
  hs.halves_iff fun r0 h₀ r1 h₁ =>
    RectBounds.unifiedArea_unionWith _ (hs.regions r0 h₀) (hs.regions r1 h₁)

/-- Three squares in a row, of which the first two are nearest. -/
theorem compressHeap_halves_iff_threeSquares :
    Halves unionArea ⟨[⟨0, 0, 1, 1⟩, ⟨3, 0, 4, 1⟩, ⟨9, 0, 10, 1⟩], 3, none⟩ := by
  refine (compressHeap_halves_iff ⟨by decide, by decide, by decide, fun h hh => by cases hh⟩).mpr
    ⟨rfl, by decide, 0, 1, ⟨0, 0, 1, 1⟩, ⟨3, 0, 4, 1⟩, ⟨0, 0, rfl, rfl, ?_⟩, rfl, rfl, ?_⟩
  · intro k' hk' hget
    obtain ⟨hlt, heq⟩ := List.getElem?_eq_some_iff.mp hget
    have hk : k' = 0 := (getElem_range hlt).symm.trans heq
    omega
  · intro i' j' ri' rj' hne hi hj
    have hilt := (List.getElem?_eq_some_iff.mp hi).1
    have hjlt := (List.getElem?_eq_some_iff.mp hj).1
    simp only [length_cons, length_nil] at hilt hjlt
    obtain rfl | rfl | rfl : i' = 0 ∨ i' = 1 ∨ i' = 2 := by omega
    all_goals obtain rfl | rfl | rfl : j' = 0 ∨ j' = 1 ∨ j' = 2 := by omega
    all_goals cases hi; cases hj
    all_goals first | exact absurd rfl hne | decide

/-- Of four squares that have been added, three are left. -/
theorem compressHeap_fails : ∃ s : DirtyRegionContainer Int,
    run unionArea (new 4) [.addDirtyRegion ⟨0, 0, 1, 1⟩, .addDirtyRegion ⟨3, 0, 4, 1⟩,
      .addDirtyRegion ⟨9, 0, 10, 1⟩, .addDirtyRegion ⟨12, 0, 13, 1⟩] = some s ∧
    Full s ∧ ¬ Halves unionArea s := by
  refine ⟨⟨[⟨0, 0, 1, 1⟩, ⟨3, 0, 4, 1⟩, ⟨9, 0, 10, 1⟩, ⟨12, 0, 13, 1⟩], 4, none⟩, rfl,
    ⟨by decide, rfl, by decide, fun h hh => by cases hh⟩, ?_⟩
  rintro ⟨heap, s', -, -, hcompress, hsz⟩
  have hthree : (compressHeap unionArea ⟨[⟨0, 0, 1, 1⟩, ⟨3, 0, 4, 1⟩, ⟨9, 0, 10, 1⟩,
      ⟨12, 0, 13, 1⟩], 4, none⟩).map (·.emptyIndex) = some 3 := by
    decide
  rw [hcompress, map_some, hsz] at hthree
  exact absurd (some.inj hthree) (by decide)

end OpenJfx.Graphics.DirtyRegionContainer
