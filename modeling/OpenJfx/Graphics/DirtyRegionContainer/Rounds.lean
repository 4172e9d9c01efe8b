/-
  OpenJfx.Graphics.DirtyRegionContainer.Rounds

  The rounds of the compression, for any area: each ends, and the region at the root above an
  index contains the region that was there before.  The loop of `takeMinWithMap` is bounded by the
  number of wrong areas, then by the right area of the top.
-/

import OpenJfx.Graphics.DirtyRegionContainer.Compress

namespace OpenJfx.Graphics.DirtyRegionContainer

open List Option Nat Function Finset

variable {K : Type} [LinearOrder K] {area : RectBounds K → RectBounds K → Int}

@[simp] theorem setEntry_self (h : Heap) (x : Nat) (e : Entry) : (h.setEntry x e).entries x = e := by
  show Function.update h.entries x e x = e
  exact update_self _ _ _

theorem setEntry_of_ne (h : Heap) {x y : Nat} (e : Entry) (hne : y ≠ x) :
    (h.setEntry x e).entries y = h.entries y := by
  show Function.update h.entries x e y = h.entries y
  exact update_of_ne hne _ _

/-! ## The rank of a heap -/

section Rank

variable {right : Nat → Int} {size : Nat} {h h' : Heap}

/-- The entries that do not have the right area. -/
def wrong (right : Nat → Int) (size : Nat) (h : Heap) : Finset Nat :=
  (Finset.range size).filter fun x => (h.entries x).area ≠ right x

/-- The entries whose right area is below `a`. -/
def below (right : Nat → Int) (size : Nat) (a : Int) : Finset Nat :=
  (Finset.range size).filter fun x => right x < a

/-- The rank, with the entry `top` at the top. -/
def rank (right : Nat → Int) (size : Nat) (h : Heap) (top : Nat) : Nat :=
  (wrong right size h).card * (size + 2) +
    if (h.entries top).area = right top then (below right size (right top)).card + 1 else 0

theorem rank_lt (top : Nat) : rank right size h top < (size + 1) * (size + 2) := by
  have hwrong : (wrong right size h).card ≤ size := (card_filter_le _ _).trans (card_range size).le
  have hbelow : (below right size (right top)).card ≤ size :=
    (card_filter_le _ _).trans (card_range size).le
  have hmul := Nat.mul_le_mul_right (size + 2) hwrong
  rw [rank, Nat.add_mul, Nat.one_mul]
  split <;> omega

theorem rank_lt_of_wrong {top x : Nat} {e : Entry} (htop : top < size)
    (hwrong : (h.entries top).area ≠ right top) (he : e.area = right top)
    (hent : h'.entries = (h.setEntry top e).entries) :
    rank right size h' x < rank right size h top := by
  have hcard : (wrong right size h').card < (wrong right size h).card := by
    refine card_lt_card ((ssubset_iff_of_subset fun y hy => ?_).mpr
      ⟨top, Finset.mem_filter.mpr ⟨Finset.mem_range.mpr htop, hwrong⟩, fun hin => ?_⟩)
    · obtain ⟨hlt, hy⟩ := Finset.mem_filter.mp hy
      refine Finset.mem_filter.mpr ⟨hlt, fun heq => hy ?_⟩
      rw [hent]
      by_cases hyt : y = top
      · rw [hyt]
        rw [setEntry_self]
        exact he
      · rw [setEntry_of_ne h e hyt]
        exact heq
    · refine (Finset.mem_filter.mp hin).2 ?_
      rw [hent, setEntry_self]
      exact he
  have hbelow : (below right size (right x)).card ≤ size :=
    (card_filter_le _ _).trans (card_range size).le
  have hmul := Nat.mul_le_mul_right (size + 2) (succ_le_of_lt hcard)
  rw [succ_mul] at hmul
  rw [rank, rank, if_neg hwrong]
  split <;> omega

theorem rank_lt_of_right {top x : Nat} (hx : x < size)
    (hright : (h.entries top).area = right top) (hent : h'.entries = h.entries)
    (hlt : (h.entries x).area < right top) : rank right size h' x < rank right size h top := by
  have hsame : wrong right size h' = wrong right size h := by rw [wrong, wrong, hent]
  rw [rank, rank, hsame, hent, if_pos hright]
  split
  · next hxright =>
    rw [hxright] at hlt
    have hcard : (below right size (right x)).card < (below right size (right top)).card := by
      refine card_lt_card ((ssubset_iff_of_subset fun y hy => ?_).mpr
        ⟨x, Finset.mem_filter.mpr ⟨Finset.mem_range.mpr hx, hlt⟩, fun hin => ?_⟩)
      · obtain ⟨hys, hy⟩ := Finset.mem_filter.mp hy
        exact Finset.mem_filter.mpr ⟨hys, hy.trans hlt⟩
      · exact lt_irrefl _ (Finset.mem_filter.mp hin).2
    omega
  · omega

end Rank

/-! ## Taking an entry -/

/-- The same pairs, in slots that refer to entries from among the old ones. -/
structure SamePairs (h h' : Heap) : Prop where
  i : ∀ x, (h'.entries x).i = (h.entries x).i
  j : ∀ x, (h'.entries x).j = (h.entries x).j
  length : h'.slots.length = h.slots.length
  mem : ∀ x ∈ h'.slots, x ∈ h.slots

theorem SamePairs.refl (h : Heap) : SamePairs h h :=
  ⟨fun _ => rfl, fun _ => rfl, rfl, fun _ hx => hx⟩

variable {h h' : Heap} {c : Compression K}

theorem SamePairs.trans {h'' : Heap} (h1 : SamePairs h h') (h2 : SamePairs h' h'') :
    SamePairs h h'' :=
  ⟨fun x => (h2.i x).trans (h1.i x), fun x => (h2.j x).trans (h1.j x),
    h2.length.trans h1.length, fun x hx => h1.mem x (h2.mem x hx)⟩

theorem SamePairs.of_sifted {i : Nat} (hs : Heap.Sifted h h' i) : SamePairs h h' :=
  ⟨fun x => by rw [hs.entries], fun x => by rw [hs.entries], hs.length, hs.mem⟩

theorem samePairs_setEntry (h : Heap) (x : Nat) (a : Int) :
    SamePairs h (h.setEntry x { h.entries x with area := a }) := by
  have hsame : ∀ {β : Type} (f : Entry → β), f { h.entries x with area := a } = f (h.entries x) →
      ∀ y, f ((h.setEntry x { h.entries x with area := a }).entries y) = f (h.entries y) := by
    intro β f hf y
    by_cases hy : y = x
    · rw [hy, setEntry_self]
      exact hf
    · rw [setEntry_of_ne h _ hy]
  exact ⟨hsame Entry.i rfl, hsame Entry.j rfl, rfl, fun _ hy => hy⟩

/-- Each index has a root, and a region there. -/
def Readable (c : Compression K) (h : Heap) : Prop :=
  ∀ x ∈ h.slots, ∃ r0 r1, resolveMap c.map (h.entries x).i = some r0 ∧
    resolveMap c.map (h.entries x).j = some r1 ∧ r0 < c.regions.length ∧ r1 < c.regions.length

omit [LinearOrder K] in
theorem Readable.of_samePairs (hread : Readable c h) (hsame : SamePairs h h') : Readable c h' := by
  intro x hx
  rw [hsame.i, hsame.j]
  exact hread x (hsame.mem x hx)

/-- The area that an entry should have. -/
def rightArea (area : RectBounds K → RectBounds K → Int) (c : Compression K) (h : Heap) (x : Nat) :
    Int :=
  (do
    let r0 ← resolveMap c.map (h.entries x).i
    let r1 ← resolveMap c.map (h.entries x).j
    unifiedRegionArea area c.regions r0 r1 : Option Int).getD 0

omit [LinearOrder K] in
theorem rightArea_congr (hsame : SamePairs h h') :
    rightArea area c h' = rightArea area c h := by
  funext x
  rw [rightArea, rightArea, hsame.i, hsame.j]

omit [LinearOrder K] in
theorem recompute_ends {size fuel : Nat} {top : Nat}
    (hok : h.Ok size) (hsz : c.heapSize ≤ size) (hread : Readable c h)
    (htop : h.slots[0]? = some top) (hfuel : rank (rightArea area c h) size h top < fuel) :
    ∃ temp h', recompute area c fuel h = some (temp, h') ∧ h'.slots[0]? = some temp ∧
      SamePairs h h' := by
  induction fuel generalizing h top with
  | zero => exact absurd hfuel (Nat.not_lt_zero _)
  | succ fuel ih =>
    rw [recompute, htop]
    simp only [bind_eq_bind, bind_some]
    split
    · obtain ⟨r0, r1, hr0, hr1, hlt0, hlt1⟩ := hread top (mem_of_getElem? htop)
      obtain ⟨u0, hu0⟩ : ∃ u, c.regions[r0]? = some u := ⟨_, getElem?_eq_getElem hlt0⟩
      obtain ⟨u1, hu1⟩ : ∃ u, c.regions[r1]? = some u := ⟨_, getElem?_eq_getElem hlt1⟩
      have hright : rightArea area c h top = area u0 u1 := by
        rw [rightArea, hr0, hr1, bind_eq_bind, bind_some, bind_some,
          unifiedRegionArea_eq hu0 hu1, getD_some]
      have hset := samePairs_setEntry h top (area u0 u1)
      obtain ⟨h2, hsift, hs⟩ := @Heap.siftDown_sifted
        (h.setEntry top { h.entries top with area := area u0 u1 }) c.heapSize (c.heapSize + 1) 0
        (hsz.trans hok.length.ge) (succ_pos _) (by omega)
      have hsame : SamePairs h h2 := hset.trans (SamePairs.of_sifted hs)
      have hok2 : h2.Ok size := ⟨hsame.length.trans hok.length, fun x hx => hok.mem x (hsame.mem x hx)⟩
      have hpos : 0 < h2.slots.length := by
        rw [hsame.length]
        exact (List.getElem?_eq_some_iff.mp htop).1
      obtain ⟨top2, htop2⟩ : ∃ x, h2.slots[0]? = some x := ⟨_, getElem?_eq_getElem hpos⟩
      simp only [hr0, hr1, bind_some, unifiedRegionArea_eq hu0 hu1, hsift, htop2]
      split
      · next heq => exact ⟨top, h2, rfl, heq ▸ htop2, hsame⟩
      · next hne =>
        -- another entry came up, and it has a smaller area than the right one of `top`
        have hlt : ((h.setEntry top { h.entries top with area := area u0 u1 }).entries top2).area <
            area u0 u1 := by
          rcases hs.top rfl with heq | ⟨x, y, hx, hy, hxy⟩
          · rw [htop2] at heq
            exact absurd (some.inj (heq.trans htop)) hne
          · rw [htop2, Option.some.injEq] at hx
            rw [show (h.setEntry top _).slots = h.slots from rfl, htop, Option.some.injEq] at hy
            rw [← hx, ← hy] at hxy
            rw [setEntry_self] at hxy
            exact hxy
        have hrank : rank (rightArea area c h2) size h2 top2 < fuel := by
          rw [rightArea_congr hsame]
          refine Nat.lt_of_lt_of_le ?_ (Nat.lt_succ_iff.mp hfuel)
          by_cases hwrong : (h.entries top).area = rightArea area c h top
          · have hsameEntries : (h.setEntry top { h.entries top with area := area u0 u1 }).entries =
                h.entries := by
              rw [Heap.setEntry, ← hright, ← hwrong, update_eq_self]
            rw [hsameEntries, ← hright] at hlt
            exact rank_lt_of_right (hok2.mem _ (mem_of_getElem? htop2)) hwrong
              (hs.entries.trans hsameEntries) hlt
          · exact rank_lt_of_wrong (hok.mem _ (mem_of_getElem? htop)) hwrong hright.symm hs.entries
        obtain ⟨temp, h', hrun, htemp, hsame'⟩ := ih hok2 (hread.of_samePairs hsame) htop2 hrank
        exact ⟨temp, h', hrun, htemp, hsame.trans hsame'⟩
    · exact ⟨top, h, rfl, htop, SamePairs.refl h⟩

omit [LinearOrder K] in
variable (area) in
theorem takeMinWithMap_ends {size : Nat} (hok : c.heap.Ok size)
    (hpos : 0 < c.heapSize) (hsz : c.heapSize ≤ size) (hread : Readable c c.heap) :
    ∃ e x h', takeMinWithMap area c =
        some (e, { c with heap := h', heapSize := c.heapSize - 1 }) ∧
      x ∈ c.heap.slots ∧ e.i = (c.heap.entries x).i ∧ e.j = (c.heap.entries x).j ∧
      SamePairs c.heap h' := by
  have hlen := hok.length
  obtain ⟨top, htop⟩ : ∃ x, c.heap.slots[0]? = some x := ⟨_, getElem?_eq_getElem (by omega)⟩
  have hfuel : rank (rightArea area c c.heap) size c.heap top < recomputeFuel c.heap := by
    rw [recomputeFuel, hlen]
    exact rank_lt top
  obtain ⟨temp, h1, hrun, htemp, hsame⟩ := recompute_ends hok hsz hread htop hfuel
  have hlength1 : h1.slots.length = size := hsame.length.trans hlen
  obtain ⟨last, hlast⟩ : ∃ x, h1.slots[c.heapSize - 1]? = some x :=
    ⟨_, getElem?_eq_getElem (by omega)⟩
  have htempmem : temp ∈ h1.slots := mem_of_getElem? htemp
  have hset : SamePairs h1 { h1 with slots := h1.slots.set (c.heapSize - 1) temp } := by
    refine ⟨fun _ => rfl, fun _ => rfl, length_set, fun x hx => ?_⟩
    rcases mem_or_eq_of_mem_set hx with hx | rfl
    · exact hx
    · exact htempmem
  obtain ⟨h2, hsift, hs⟩ := @Heap.siftDown_sifted
    { h1 with slots := h1.slots.set (c.heapSize - 1) temp } c.heapSize (c.heapSize + 1) 0
    (by rw [length_set, hlength1]; exact hsz) (succ_pos _) (by omega)
  have hsame2 := (hsame.trans hset).trans (SamePairs.of_sifted hs)
  refine ⟨h2.entries temp, temp, h2, ?_, hsame.mem temp htempmem, hsame2.i temp, hsame2.j temp, hsame2⟩
  rw [takeMinWithMap, hrun]
  simp only [bind_eq_bind, bind_some, hlast, hsift]
  rfl

/-! ## Merging -/

/-- The region at the root contains the one it had. -/
structure Merging (s : DirtyRegionContainer K) (c : Compression K) (m : Nat) : Prop where
  regions_length : c.regions.length = s.dirtyRegions.length
  map_length : c.map.length = s.dirtyRegions.length
  nonempty : ∀ r ∈ c.regions, r.isEmpty = false
  covers : ∀ (i : Nat) (r : RectBounds K), s.dirtyRegions[i]? = some r → ∃ root k u,
    Resolves c.map i root k ∧ k ≤ m ∧ c.regions[root]? = some u ∧ u.contains r = true
  heap : c.heap.Ok (s.dirtyRegions.length * (s.dirtyRegions.length - 1) / 2)
  entries : ∀ x ∈ c.heap.slots, (c.heap.entries x).i < (c.heap.entries x).j ∧
    (c.heap.entries x).j < s.dirtyRegions.length
  size : c.heapSize + m = s.dirtyRegions.length * (s.dirtyRegions.length - 1) / 2

section Merging

variable {s : DirtyRegionContainer K} {c : Compression K} {m : Nat}

theorem Merging.resolve (h : Merging s c m) (hm : m ≤ s.dirtyRegions.length) {i : Nat}
    (hi : i < s.dirtyRegions.length) :
    ∃ root u, resolveMap c.map i = some root ∧ IsRoot c.map root ∧ c.regions[root]? = some u := by
  obtain ⟨root, k, u, hres, hk, hu, -⟩ := h.covers i _ (getElem?_eq_getElem hi)
  exact ⟨root, u, hres.resolveParent_eq (by rw [h.map_length]; omega), hres.isRoot, hu⟩

theorem Merging.readable (h : Merging s c m) (hm : m ≤ s.dirtyRegions.length) :
    Readable c c.heap := by
  intro x hx
  obtain ⟨hij, hj⟩ := h.entries x hx
  obtain ⟨r0, u0, hr0, -, hu0⟩ := h.resolve hm (hij.trans hj)
  obtain ⟨r1, u1, hr1, -, hu1⟩ := h.resolve hm hj
  exact ⟨r0, r1, hr0, hr1, (List.getElem?_eq_some_iff.mp hu0).1, (List.getElem?_eq_some_iff.mp hu1).1⟩

theorem Merging.merged {idx0 idx1 : Nat} {r0 r1 : RectBounds K} (h : Merging s c m)
    (hroot0 : IsRoot c.map idx0) (hroot1 : IsRoot c.map idx1) (hne : idx0 ≠ idx1)
    (hr0 : c.regions[idx0]? = some r0) (hr1 : c.regions[idx1]? = some r1)
    (hsame : SamePairs c.heap h') (hpos : 0 < c.heapSize) (mask : BitVec 64) :
    Merging s { c with
      regions := c.regions.set idx0 (r0.unionWith r1)
      map := c.map.set idx1 idx0
      invalidMask := mask
      heap := h'
      heapSize := c.heapSize - 1 } (m + 1) := by
  have hne0 : r0.isEmpty = false := h.nonempty r0 (mem_of_getElem? hr0)
  have hne1 : r1.isEmpty = false := h.nonempty r1 (mem_of_getElem? hr1)
  have hidx0 : idx0 < c.regions.length := (List.getElem?_eq_some_iff.mp hr0).1
  refine ⟨length_set.trans h.regions_length, length_set.trans h.map_length, ?_, ?_,
    ⟨hsame.length.trans h.heap.length, fun x hx => h.heap.mem x (hsame.mem x hx)⟩, ?_, ?_⟩
  · intro r hr
    rcases mem_or_eq_of_mem_set hr with hr | rfl
    · exact h.nonempty r hr
    · exact RectBounds.unionWith_isEmpty hne0 hne1
  · intro i r hi
    obtain ⟨root, k, u, hres, hk, hu, hcontains⟩ := h.covers i r hi
    obtain ⟨k', hk', hres'⟩ := hres.link hroot0 hroot1 hne
    by_cases hroot : root = idx1
    · -- the root is put below `idx0`
      rw [if_pos hroot] at hres'
      rw [hroot, hr1, Option.some.injEq] at hu
      refine ⟨idx0, k', r0.unionWith r1, hres', by omega, getElem?_set_self hidx0, ?_⟩
      exact RectBounds.contains_trans (RectBounds.unionWith_contains_right hne0 hne1) (hu ▸ hcontains)
    · rw [if_neg hroot] at hres'
      by_cases hroot' : root = idx0
      · rw [hroot', hr0, Option.some.injEq] at hu
        refine ⟨root, k', r0.unionWith r1, hres', by omega, ?_, ?_⟩
        · rw [hroot']
          exact getElem?_set_self hidx0
        · exact RectBounds.contains_trans (RectBounds.unionWith_contains_left hne0 hne1)
            (hu ▸ hcontains)
      · refine ⟨root, k', u, hres', by omega, ?_, hcontains⟩
        show (c.regions.set idx0 _)[root]? = some u
        rw [getElem?_set_ne (Ne.symm hroot'), hu]
  · intro x hx
    show (h'.entries x).i < (h'.entries x).j ∧ (h'.entries x).j < _
    rw [hsame.i, hsame.j]
    exact h.entries x (hsame.mem x hx)
  · have := h.size
    show c.heapSize - 1 + (m + 1) = _
    omega

variable (area) in
theorem Merging.mergeMin (h : Merging s c m) (hm : m < s.dirtyRegions.length / 2) :
    ∃ c', mergeMin area c = some c' ∧ Merging s c' (m + 1) ∧
      (∀ k, ¬ IsRoot c.map k → ¬ IsRoot c'.map k) ∧
      (c.map = List.range s.dirtyRegions.length → ∃ k < s.dirtyRegions.length, ¬ IsRoot c'.map k) := by
  have hsz := h.size
  have hlt : s.dirtyRegions.length / 2 ≤
      s.dirtyRegions.length * (s.dirtyRegions.length - 1) / 2 :=
    Nat.div_le_div_right (Nat.le_mul_of_pos_right _ (by omega))
  obtain ⟨e, x, h', htake, hx, hi, hj, hsame⟩ := takeMinWithMap_ends area h.heap
    (by omega) (by omega) (h.readable (by omega))
  obtain ⟨hij, hjlt⟩ := h.entries x hx
  rw [← hi, ← hj] at hij
  rw [← hj] at hjlt
  obtain ⟨idx0, r0, hidx0, hroot0, hr0⟩ := h.resolve (by omega) (hij.trans hjlt)
  obtain ⟨idx1, r1, hidx1, hroot1, hr1⟩ := h.resolve (by omega) hjlt
  rw [DirtyRegionContainer.mergeMin, htake]
  simp only [bind_eq_bind, bind_some, hidx0, hidx1]
  by_cases hne : idx0 = idx1
  · rw [if_neg (not_not_intro hne)]
    refine ⟨_, rfl, ⟨h.regions_length, h.map_length, h.nonempty, ?_, ⟨hsame.length.trans h.heap.length,
      fun y hy => h.heap.mem y (hsame.mem y hy)⟩, ?_, ?_⟩, fun k hk => hk, fun hrng => ?_⟩
    · intro i r hr
      obtain ⟨root, k, u, hres, hk, hu⟩ := h.covers i r hr
      exact ⟨root, k, u, hres, by omega, hu⟩
    · intro y hy
      show (h'.entries y).i < (h'.entries y).j ∧ (h'.entries y).j < _
      rw [hsame.i, hsame.j]
      exact h.entries y (hsame.mem y hy)
    · show c.heapSize - 1 + (m + 1) = _
      omega
    · -- before any merge each index is its own root
      have hown : ∀ {k root : Nat}, k < s.dirtyRegions.length →
          resolveMap c.map k = some root → root = k := by
        intro k root hk hroot
        rw [hrng, resolveMap, (resolves_range hk).resolveParent_eq (succ_pos _)] at hroot
        exact (some.inj hroot).symm
      have h0 := hown (hij.trans hjlt) hidx0
      have h1 := hown hjlt hidx1
      omega
  · rw [if_pos hne]
    simp only [hr0, hr1, bind_some]
    have hidx1lt : idx1 < c.map.length := (List.getElem?_eq_some_iff.mp hroot1).1
    have hlost : ¬ IsRoot (c.map.set idx1 idx0) idx1 := by
      rw [IsRoot, getElem?_set_self hidx1lt, Option.some.injEq]
      exact hne
    refine ⟨_, rfl, h.merged hroot0 hroot1 hne hr0 hr1 hsame (by omega) _, fun k hk => ?_,
      fun _ => ⟨idx1, by rw [← h.map_length]; exact hidx1lt, hlost⟩⟩
    show ¬ IsRoot (c.map.set idx1 idx0) k
    have hkne : k ≠ idx1 := by
      rintro rfl
      exact hk hroot1
    rw [isRoot_set_of_ne hkne]
    exact hk

variable (area) in
theorem Merging.mergeRounds (h : Merging s c m) {n : Nat} (hn : m + n ≤ s.dirtyRegions.length / 2) :
    ∃ c', mergeRounds area n c = some c' ∧ Merging s c' (m + n) ∧
      (∀ k, ¬ IsRoot c.map k → ¬ IsRoot c'.map k) := by
  induction n generalizing c m with
  | zero => exact ⟨c, rfl, h, fun _ hk => hk⟩
  | succ n ih =>
    obtain ⟨c1, hc1, h1, hlost1, -⟩ := h.mergeMin area (by omega)
    obtain ⟨c', hc', h', hlost⟩ := ih h1 (by omega)
    refine ⟨c', ?_, ?_, fun k hk => hlost k (hlost1 k hk)⟩
    · rw [DirtyRegionContainer.mergeRounds, hc1]
      exact hc'
    · rw [show m + (n + 1) = m + 1 + n by omega]
      exact h'

end Merging

end OpenJfx.Graphics.DirtyRegionContainer
