/-
  OpenJfx.Graphics.DirtyRegionContainer.Coverage

  No dirty region is lost, for any area that ranks the pairs.

  Each call leaves for every region that was stored a stored region that contains it.  So the
  regions that have been added since the last reset stay contained in stored ones.
-/

import OpenJfx.Graphics.DirtyRegionContainer.Absorb
import OpenJfx.Graphics.DirtyRegionContainer.Rounds

namespace OpenJfx.Graphics.DirtyRegionContainer

open List Option RectBounds

variable {K : Type} [LinearOrder K] {area : RectBounds K → RectBounds K → Int}

/-- Each region of `l` is contained in one of `l'`. -/
def CoveredBy (l l' : List (RectBounds K)) : Prop :=
  ∀ d ∈ l, ∃ d' ∈ l', d'.contains d = true

variable {l added : List (RectBounds K)}

theorem CoveredBy.refl (hne : ∀ d ∈ l, d.isEmpty = false) : CoveredBy l l :=
  fun d hd => ⟨d, hd, contains_refl (hne d hd)⟩

theorem CoveredBy.trans {l' l'' : List (RectBounds K)} (h1 : CoveredBy l l')
    (h2 : CoveredBy l' l'') : CoveredBy l l'' := by
  intro d hd
  obtain ⟨d', hd', hcontains⟩ := h1 d hd
  obtain ⟨d'', hd'', hcontains'⟩ := h2 d' hd'
  exact ⟨d'', hd'', contains_trans hcontains' hcontains⟩

/-- The state between two calls. -/
structure Sound (s : DirtyRegionContainer K) : Prop where
  pos : 0 < s.dirtyRegions.length
  size : s.emptyIndex ≤ s.dirtyRegions.length
  nonempty : ∀ d ∈ s.stored, d.isEmpty = false
  heap : s.oldHeap.Ok (s.dirtyRegions.length * (s.dirtyRegions.length - 1) / 2)

variable {s : DirtyRegionContainer K}

/-! ## The compression -/

theorem Sound.start {heap : Heap} (h : Sound s) (hprep : Prepared area s heap)
    (hfull : s.emptyIndex = s.dirtyRegions.length) : Merging s (s.start heap) 0 := by
  have hne : ∀ d ∈ s.dirtyRegions, d.isEmpty = false := by
    have hall : s.stored = s.dirtyRegions := by rw [stored, hfull, take_length]
    exact hall ▸ h.nonempty
  refine ⟨rfl, length_range, hne, fun i r hi => ?_, ⟨hprep.length, fun x hx =>
    h.heap.mem x (hprep.mem x hx)⟩, fun x hx => ?_, hprep.length⟩
  · exact ⟨i, 0, r, resolves_range (List.getElem?_eq_some_iff.mp hi).1, Nat.le_refl 0, hi,
      contains_refl (hne r (mem_of_getElem? hi))⟩
  · obtain ⟨⟨hij, _, _, -, hrj, -⟩, -⟩ := hprep.pairs x hx
    exact ⟨hij, (List.getElem?_eq_some_iff.mp hrj).1⟩

variable (area) in
/-- A full container of two regions at least has space afterwards. -/
theorem Sound.compressHeap (h : Sound s) (hfull : s.emptyIndex = s.dirtyRegions.length)
    (htwo : 2 ≤ s.dirtyRegions.length) :
    ∃ s', compressHeap area s = some s' ∧ Sound s' ∧ CoveredBy s.stored s'.stored ∧
      s'.dirtyRegions.length = s.dirtyRegions.length ∧
      s'.emptyIndex < s'.dirtyRegions.length := by
  obtain ⟨heap, hprepare, hprep⟩ := Prepared.of_prepare area (show s.HeapFits from h.heap.length)
  have hst := h.start hprep hfull
  obtain ⟨n, hn⟩ : ∃ n, s.dirtyRegions.length / 2 = n + 1 :=
    ⟨s.dirtyRegions.length / 2 - 1, by omega⟩
  obtain ⟨c1, hmin, hmerging1, -, hfst⟩ := hst.mergeMin area (by omega)
  obtain ⟨lost, hlost, hnot1⟩ := hfst rfl
  have hle : 0 + 1 + n ≤ s.dirtyRegions.length / 2 := by omega
  obtain ⟨c, hrounds, hmerging, hnever⟩ := hmerging1.mergeRounds area hle
  have hnot : ¬ IsRoot c.map lost := hnever lost hnot1
  have hrun : mergeRounds area (s.dirtyRegions.length / 2) (s.start heap) = some c := by
    rw [hn, mergeRounds, hmin]
    exact hrounds
  have hregs := hmerging.regions_length
  obtain ⟨root, u, -, hroot, hu⟩ := hmerging.resolve (by omega) h.pos
  obtain ⟨regions, e, hmove, hlen, -, hperm⟩ := @moveUnused_spec _ c.map c.regions
    s.dirtyRegions.length s.dirtyRegions.length 0 (hmerging.map_length.trans hregs.symm)
    (Nat.le_of_eq hregs.symm) ⟨root, by
      rw [← hregs]
      exact (List.getElem?_eq_some_iff.mp hu).1, hroot⟩ (Nat.le_refl _)
    (fun k hk => absurd hk (Nat.not_lt_zero k))
  have hmem : ∀ r, r ∈ regions.take e → r ∈ c.regions := by
    intro r hr
    obtain ⟨k, -, hk⟩ := mem_filterMap.mp (hperm.mem_iff.mp hr)
    by_cases hkroot : IsRoot c.map k
    · rw [atRoot_of_isRoot hkroot] at hk
      exact mem_of_getElem? hk
    · rw [atRoot_of_not_isRoot hkroot] at hk
      cases hk
  have hspace : e < s.dirtyRegions.length := by
    have hlt : (rootRegions c.map c.regions s.dirtyRegions.length).length <
        (List.range s.dirtyRegions.length).length :=
      length_filterMap_lt_length_iff_exists.mpr
        ⟨lost, mem_range.mpr hlost, atRoot_of_not_isRoot hnot⟩
    rw [length_range, ← hperm.length_eq, length_take] at hlt
    omega
  refine ⟨⟨regions, e, some c.heap⟩, ?_, ⟨?_, ?_, fun d hd => hmerging.nonempty d (hmem d hd), ?_⟩,
    fun d hd => ?_, hlen.trans hregs, ?_⟩
  · rw [compressHeap_of_prepare hprepare (hprep.length.trans h.heap.length.symm), hrun, hfull]
    simp only [bind_eq_bind, bind_some, hmove]
    rfl
  · show 0 < regions.length
    rw [hlen, hregs]
    exact h.pos
  · show e ≤ regions.length
    rw [hlen, hregs]
    exact hspace.le
  · show c.heap.Ok (regions.length * (regions.length - 1) / 2)
    rw [hlen, hregs]
    exact hmerging.heap
  · obtain ⟨i, hi⟩ := mem_iff_getElem?.mp (mem_of_mem_take hd)
    obtain ⟨root, k, u, hres, -, hu, hcontains⟩ := hmerging.covers i d hi
    refine ⟨u, hperm.mem_iff.mpr (mem_filterMap.mpr ⟨root, ?_, ?_⟩), hcontains⟩
    · rw [mem_range, ← hregs]
      exact (List.getElem?_eq_some_iff.mp hu).1
    · rw [atRoot_of_isRoot hres.isRoot, hu]
  · show e < regions.length
    rw [hlen, hregs]
    exact hspace

/-! ## One call -/

section Call

variable {s' : DirtyRegionContainer K} {region region' : RectBounds K}
  {caught : List (RectBounds K)}

theorem Sound.heap_of_eq (h : Sound s) (hlen : s'.dirtyRegions.length = s.dirtyRegions.length)
    (hheap : s'.heap = s.heap) :
    s'.oldHeap.Ok (s'.dirtyRegions.length * (s'.dirtyRegions.length - 1) / 2) := by
  have hold : s'.oldHeap = s.oldHeap := by rw [oldHeap, oldHeap, hlen, hheap]
  rw [hold, hlen]
  exact h.heap

theorem Sound.absorbed (h : Sound s) (ha : Absorbed region region' s s' [] s.stored caught) :
    Sound s' := by
  refine ⟨?_, ha.size, ha.stored_nonempty h.nonempty, h.heap_of_eq ha.length ha.heap⟩
  rw [ha.length]
  exact h.pos

theorem Absorbed.coveredBy (ha : Absorbed region region' s s' [] s.stored caught)
    (hall : ∀ d ∈ s.stored, d.isEmpty = false) :
    CoveredBy (s.stored ++ [region]) (s'.stored ++ [region']) := by
  intro d hd
  rcases mem_append.mp hd with hd | hd
  · rcases mem_append.mp (ha.perm.mem_iff.mp hd) with hd' | hd'
    · exact ⟨d, mem_append_left _ hd', contains_refl (hall d hd)⟩
    · exact ⟨region', mem_append_right _ (mem_singleton_self _), ha.covers d hd'⟩
  · rw [mem_singleton.mp hd]
    exact ⟨region', mem_append_right _ (mem_singleton_self _), ha.grown⟩

theorem Sound.store (h : Sound s) (hreg : region.isEmpty = false)
    (hspace : s.emptyIndex < s.dirtyRegions.length) :
    Sound { s with
      dirtyRegions := s.dirtyRegions.set s.emptyIndex region
      emptyIndex := s.emptyIndex + 1 } := by
  have hlen : (s.dirtyRegions.set s.emptyIndex region).length = s.dirtyRegions.length :=
    length_set
  refine ⟨?_, ?_, fun d hd => ?_, h.heap_of_eq hlen rfl⟩
  · show 0 < (s.dirtyRegions.set s.emptyIndex region).length
    rw [hlen]
    exact h.pos
  · show s.emptyIndex + 1 ≤ (s.dirtyRegions.set s.emptyIndex region).length
    rw [hlen]
    exact hspace
  · rw [stored_set region hspace] at hd
    rcases mem_append.mp hd with hd | hd
    · exact h.nonempty d hd
    · rw [mem_singleton.mp hd]
      exact hreg

variable [Zero K] [One K] [Neg K]

/-- What a call that adds `region` leaves. -/
structure Adds (s : DirtyRegionContainer K) (region : RectBounds K) (s' : DirtyRegionContainer K) :
    Prop where
  sound : Sound s'
  length : s'.dirtyRegions.length = s.dirtyRegions.length
  old : CoveredBy s.stored s'.stored
  new : region.isEmpty = false → ∃ d ∈ s'.stored, d.contains region = true

omit [Zero K] [One K] [Neg K] in
theorem CoveredBy.split {l' : List (RectBounds K)} (h : CoveredBy (l ++ [region]) l') :
    CoveredBy l l' ∧ ∃ d ∈ l', d.contains region = true :=
  ⟨fun d hd => h d (mem_append_left _ hd),
    h region (mem_append_right _ (mem_singleton_self region))⟩

variable (area) in
theorem Sound.adds_of_space (fuel : Nat) (h : Sound s) (hreg : region.isEmpty = false)
    (hrun : absorb s.emptyIndex region 0 s = some (region', s'))
    (ha : Absorbed region region' s s' [] s.stored caught)
    (hspace : s'.emptyIndex < s'.dirtyRegions.length) :
    ∃ s'', addDirtyRegionFuel area (fuel + 1) s region = some s'' ∧ Adds s region s'' := by
  have hcovered := ha.coveredBy h.nonempty
  rw [← stored_set region' hspace] at hcovered
  refine ⟨_, addDirtyRegionFuel_store hreg hrun ha.nonempty hspace,
    (h.absorbed ha).store ha.nonempty hspace, ?_, hcovered.split.1, fun _ => hcovered.split.2⟩
  show (s'.dirtyRegions.set s'.emptyIndex region').length = s.dirtyRegions.length
  rw [length_set, ha.length]

omit [Zero K] [One K] [Neg K] in
theorem Sound.union_only (h : Sound s) (hreg : region.isEmpty = false) {d : RectBounds K}
    (hd : s.dirtyRegions = [d]) (hfull : s.emptyIndex = 1) :
    Sound { s with dirtyRegions := [d.unionWith region] } ∧
      CoveredBy (s.stored ++ [region]) [d.unionWith region] := by
  have hsto : s.stored = [d] := by rw [stored, hd, hfull]; rfl
  have hne : d.isEmpty = false := h.nonempty d (by rw [hsto]; exact mem_singleton_self d)
  refine ⟨⟨Nat.zero_lt_one, hfull.le, fun x hx => ?_, h.heap_of_eq (by rw [hd]; rfl) rfl⟩,
    fun x hx => ?_⟩
  · have hx' : x ∈ [d.unionWith region] := mem_of_mem_take hx
    rw [mem_singleton.mp hx']
    exact unionWith_isEmpty hne hreg
  · rw [hsto] at hx
    refine ⟨_, mem_singleton_self _, ?_⟩
    rcases mem_append.mp hx with hx | hx
    · rw [mem_singleton.mp hx]
      exact unionWith_contains_left hne hreg
    · rw [mem_singleton.mp hx]
      exact unionWith_contains_right hne hreg

variable (area) in
theorem Sound.addDirtyRegion (h : Sound s) (region : RectBounds K) :
    ∃ s', s.addDirtyRegion area region = some s' ∧ Adds s region s' := by
  cases hreg : region.isEmpty with
  | true =>
    refine ⟨s, ?_, h, rfl, CoveredBy.refl h.nonempty, fun hne => ?_⟩
    · rw [DirtyRegionContainer.addDirtyRegion, addDirtyRegionFuel, hreg, if_pos rfl]
    · rw [hreg] at hne
      cases hne
  | false =>
    obtain ⟨region', s1, caught, hrun, ha⟩ := absorb_stored h.size hreg h.nonempty
    rcases Nat.lt_or_ge s1.emptyIndex s1.dirtyRegions.length with hspace | hge
    · exact h.adds_of_space area _ hreg hrun ha hspace
    · have h1 := h.absorbed ha
      have hfull : s1.emptyIndex = s1.dirtyRegions.length := Nat.le_antisymm ha.size hge
      have hcovered := ha.coveredBy h.nonempty
      rw [DirtyRegionContainer.addDirtyRegion, addDirtyRegionFuel, hreg, if_neg (by simp), hrun]
      simp only [bind_eq_bind, bind_some]
      rw [if_neg (by omega)]
      by_cases hone : s1.dirtyRegions.length = 1
      · obtain ⟨d, hd⟩ : ∃ d, s1.dirtyRegions = [d] := length_eq_one_iff.mp hone
        obtain ⟨hsound, hcovered1⟩ := h1.union_only ha.nonempty hd (hfull.trans hone)
        have hsto : stored { s1 with dirtyRegions := [d.unionWith region'] } =
            [d.unionWith region'] := by
          show [d.unionWith region'].take s1.emptyIndex = _
          rw [hfull, hone, take_of_length_le (Nat.le_refl 1)]
        have hall := hcovered.trans (hsto ▸ hcovered1)
        rw [if_pos hone, hd]
        refine ⟨{ s1 with dirtyRegions := [d.unionWith region'] }, rfl, hsound, ?_, hall.split.1,
          fun _ => hall.split.2⟩
        show 1 = s.dirtyRegions.length
        rw [← ha.length, hone]
      · have hpos := h1.pos
        obtain ⟨s2, hcompress, h2, hcovered2, hlength2, hspace2⟩ :=
          h1.compressHeap area hfull (by omega)
        obtain ⟨region'', s3, caught2, hrun2, ha2⟩ := absorb_stored h2.size ha.nonempty h2.nonempty
        have hspace3 : s3.emptyIndex < s3.dirtyRegions.length := by
          have hle : s3.stored.length ≤ s2.stored.length := by
            rw [ha2.perm.length_eq, length_append]
            omega
          rw [length_stored ha2.size, length_stored h2.size] at hle
          rw [ha2.length]
          omega
        obtain ⟨s', hadd, hadds⟩ := h2.adds_of_space area 0 ha.nonempty hrun2 ha2 hspace3
        have hall : CoveredBy (s.stored ++ [region]) s'.stored := by
          refine hcovered.trans fun d hd => ?_
          rcases mem_append.mp hd with hd | hd
          · exact (hcovered2.trans hadds.old) d hd
          · rw [mem_singleton.mp hd]
            exact hadds.new ha.nonempty
        rw [if_neg hone, hcompress, bind_some]
        exact ⟨s', hadd, hadds.sound, hadds.length.trans (hlength2.trans ha.length), hall.split.1,
          fun _ => hall.split.2⟩

end Call

/-! ## Runs -/

variable [Zero K] [One K] [Neg K] {count : Nat}

/-- No region of `added` is lost. -/
structure Covers (count : Nat) (s : DirtyRegionContainer K) (added : List (RectBounds K)) :
    Prop where
  sound : Sound s
  length : s.dirtyRegions.length = count
  covered : ∀ r ∈ added, r.isEmpty = false → ∃ d ∈ s.stored, d.contains r = true

variable (area) in
theorem Covers.addDirtyRegion (h : Covers count s added) (region : RectBounds K) :
    ∃ s', s.addDirtyRegion area region = some s' ∧ Covers count s' (added ++ [region]) := by
  obtain ⟨s', hs', hadds⟩ := h.sound.addDirtyRegion area region
  refine ⟨s', hs', hadds.sound, hadds.length.trans h.length, fun r hr hne => ?_⟩
  rcases mem_append.mp hr with hr | hr
  · obtain ⟨d, hd, hcontains⟩ := h.covered r hr hne
    obtain ⟨d', hd', hcontains'⟩ := hadds.old d hd
    exact ⟨d', hd', contains_trans hcontains' hcontains⟩
  · rw [mem_singleton.mp hr] at hne ⊢
    exact hadds.new hne

variable (area) in
theorem Covers.merge (h : Covers count s added) (other : List (RectBounds K)) :
    ∃ s', s.merge area other = some s' ∧ Covers count s' (added ++ other) := by
  induction other generalizing s added with
  | nil => exact ⟨s, rfl, by rw [append_nil]; exact h⟩
  | cons region other ih =>
    obtain ⟨s1, hs1, h1⟩ := h.addDirtyRegion area region
    obtain ⟨s', hs', h'⟩ := ih h1
    refine ⟨s', ?_, ?_⟩
    · rw [DirtyRegionContainer.merge, hs1]
      exact hs'
    · rw [append_assoc] at h'
      exact h'

omit [Zero K] [One K] [Neg K] in
theorem Covers.reset (h : Covers count s added) : Covers count s.reset [] :=
  ⟨⟨h.sound.pos, Nat.zero_le _, fun _ hd => absurd hd not_mem_nil, h.sound.heap⟩, h.length,
    fun _ hr => absurd hr not_mem_nil⟩

variable (area) in
theorem Covers.run (h : Covers count s added) (ops : List (Op K)) :
    ∃ s', run area s ops = some s' ∧ Covers count s' (addedSince added ops) := by
  induction ops generalizing s added with
  | nil => exact ⟨s, rfl, h⟩
  | cons op ops ih =>
    rw [DirtyRegionContainer.run]
    cases op with
    | addDirtyRegion region =>
      obtain ⟨s1, hs1, h1⟩ := h.addDirtyRegion area region
      obtain ⟨s', hs', h'⟩ := ih h1
      rw [step, hs1]
      exact ⟨s', hs', h'⟩
    | merge other =>
      obtain ⟨s1, hs1, h1⟩ := h.merge area other
      obtain ⟨s', hs', h'⟩ := ih h1
      rw [step, hs1]
      exact ⟨s', hs', h'⟩
    | reset => exact ih h.reset

/-- Every region added since the last reset is covered. -/
theorem run_covers (area : RectBounds K → RectBounds K → Int) (hcnt : 0 < count)
    (ops : List (Op K)) :
    ∃ s, run area (new count) ops = some s ∧ s.emptyIndex ≤ count ∧
      s.dirtyRegions.length = count ∧
      ∀ r ∈ addedSince [] ops, r.isEmpty = false → ∃ d ∈ s.stored, d.contains r = true := by
  have hlen : (new count : DirtyRegionContainer K).dirtyRegions.length = count :=
    length_replicate
  have hnew : Covers count (new count : DirtyRegionContainer K) [] := by
    refine ⟨⟨?_, Nat.zero_le _, fun d hd => ?_, Heap.new_ok _⟩, hlen, fun r hr => by cases hr⟩
    · rw [hlen]
      exact hcnt
    · rw [stored, show (new count : DirtyRegionContainer K).emptyIndex = 0 from rfl,
        take_zero] at hd
      cases hd
  obtain ⟨s, hs, h⟩ := hnew.run area ops
  exact ⟨s, hs, h.length ▸ h.sound.size, h.length, h.covered⟩

/-- Three regions in a container of two, with an area that ranks all pairs alike. -/
theorem run_covers_threeRegions : ∃ s, run (fun _ _ => 0) (new 2 : DirtyRegionContainer Int)
        [.addDirtyRegion ⟨0, 0, 1, 1⟩, .addDirtyRegion ⟨3, 0, 4, 1⟩,
          .addDirtyRegion ⟨9, 0, 10, 1⟩] = some s ∧ s.emptyIndex ≤ 2 ∧ s.dirtyRegions.length = 2 ∧
      ∀ r ∈ ([⟨0, 0, 1, 1⟩, ⟨3, 0, 4, 1⟩, ⟨9, 0, 10, 1⟩] : List (RectBounds Int)),
        r.isEmpty = false → ∃ d ∈ s.stored, d.contains r = true :=
  run_covers (fun _ _ => 0) (by decide) [.addDirtyRegion ⟨0, 0, 1, 1⟩,
    .addDirtyRegion ⟨3, 0, 4, 1⟩, .addDirtyRegion ⟨9, 0, 10, 1⟩]

end OpenJfx.Graphics.DirtyRegionContainer
