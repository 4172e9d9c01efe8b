/-
  OpenJfx.Graphics.DirtyRegionContainer.Disjoint

  When the stored regions stay apart from each other.

  Two things can go wrong when a region is added.  It is compared once with each stored region,
  so that it may grow over one that it has passed.  And the compression merges two regions
  without comparing the union with the others.
-/

import OpenJfx.Graphics.DirtyRegionContainer.Absorb
import OpenJfx.Graphics.DirtyRegionContainer.Compress

namespace OpenJfx.Graphics.DirtyRegionContainer

open List RectBounds Option

variable {K : Type} [LinearOrder K]

/-! ## Regions that are apart -/

/-- No two of the regions meet. -/
def Apart (l : List (RectBounds K)) : Prop :=
  l.Pairwise fun a b => a.intersects b = false

theorem Apart.of_perm {l l' : List (RectBounds K)} (h : Apart l) (hperm : l.Perm l') : Apart l' :=
  (hperm.pairwise_iff fun hab => misses_symm hab).mp h

theorem Apart.left {l caught : List (RectBounds K)} (h : Apart (l ++ caught)) : Apart l :=
  (pairwise_append.mp h).1

theorem Apart.concat {l : List (RectBounds K)} {region : RectBounds K} (h : Apart l)
    (hmisses : ∀ d ∈ l, region.intersects d = false) : Apart (l ++ [region]) := by
  refine pairwise_append.mpr ⟨h, pairwise_singleton _ _, fun d hd r hr => ?_⟩
  rw [mem_singleton.mp hr]
  exact misses_symm (hmisses d hd)

/-! ## The condition on a step -/

/-- The regions at `i` and `j` can be merged into `u` before `region` is added: if it does not meet
    `u`, no other stored region does, and if it does, it can go over the slots left. -/
structure MergeClear (s : DirtyRegionContainer K) (region : RectBounds K) (i j : Nat)
    (u : RectBounds K) : Prop where
  union : region.intersects u = false → ∀ (k : Nat) (d : RectBounds K), k ≠ i → k ≠ j →
    s.dirtyRegions[k]? = some d → u.intersects d = false
  pass : PassClear region [] (mergedSlots s.dirtyRegions i j u)

/-- It can go over them, or each pair can be merged. -/
structure StepClear (area : RectBounds K → RectBounds K → Int) (s : DirtyRegionContainer K)
    (region : RectBounds K) : Prop where
  pass : PassClear region [] s.stored
  merge : s.emptyIndex = s.dirtyRegions.length → 2 ≤ s.dirtyRegions.length →
    (∀ d ∈ s.stored, region.intersects d = false) →
    ∀ i j ri rj, LeastOfKept area s i j ri rj → MergeClear s region i j (ri.unionWith rj)

/-- The state between two calls. -/
structure Tidy (s : DirtyRegionContainer K) : Prop where
  pos : 0 < s.dirtyRegions.length
  size : s.emptyIndex ≤ s.dirtyRegions.length
  nonempty : ∀ d ∈ s.stored, d.isEmpty = false
  apart : Apart s.stored
  fits : s.HeapFits

/-! ## A pass that is clear -/

section Pass

variable {s s' : DirtyRegionContainer K} {region region' : RectBounds K}
  {ahead caught : List (RectBounds K)}

/-- A region that meets the new one is caught, when the pass is clear. -/
theorem Absorbed.mem_caught {d : RectBounds K} (ha : Absorbed region region' s s' [] ahead caught)
    (hclear : PassClear region [] ahead) (hd : d ∈ s.stored)
    (hmeets : region.intersects d = true) : d ∉ s'.stored ∧ d ∈ caught := by
  have hout : d ∉ s'.stored := by
    intro hin
    have hmisses := ha.misses hclear (fun p hp => by cases hp) d hin
    rw [intersects_of_contains ha.grown hmeets] at hmisses
    cases hmisses
  exact ⟨hout, (mem_append.mp (ha.perm.mem_iff.mp hd)).resolve_left hout⟩

theorem Absorbed.tidy (ha : Absorbed region region' s s' [] s.stored caught)
    (hpos : 0 < s.dirtyRegions.length) (hall : ∀ d ∈ s.stored, d.isEmpty = false)
    (hfits : s.HeapFits) (hclear : PassClear region [] s.stored) (hapart : Apart s'.stored)
    (hspace : s'.emptyIndex < s'.dirtyRegions.length) :
    Tidy { s' with
      dirtyRegions := s'.dirtyRegions.set s'.emptyIndex region'
      emptyIndex := s'.emptyIndex + 1 } := by
  have hsto := stored_set region' hspace
  constructor
  · show 0 < (s'.dirtyRegions.set s'.emptyIndex region').length
    rw [length_set, ha.length]
    exact hpos
  · show s'.emptyIndex + 1 ≤ (s'.dirtyRegions.set s'.emptyIndex region').length
    rw [length_set]
    exact hspace
  · intro d hd
    rw [hsto] at hd
    rcases mem_append.mp hd with hd | hd
    · exact ha.stored_nonempty hall d hd
    · rw [mem_singleton.mp hd]
      exact ha.nonempty
  · rw [hsto]
    exact hapart.concat (ha.misses hclear fun p hp => by cases hp)
  · refine hfits.of_eq ?_ ha.heap
    show (s'.dirtyRegions.set s'.emptyIndex region').length = s.dirtyRegions.length
    rw [length_set, ha.length]

end Pass

/-! ## One step -/

variable {measure : RectBounds K → Int} {s : DirtyRegionContainer K} {region : RectBounds K}

theorem MergedFrom.apart {s1 : DirtyRegionContainer K} {i j : Nat} {ri rj : RectBounds K}
    {region2 : RectBounds K} {s2 : DirtyRegionContainer K} {caught : List (RectBounds K)}
    (h : MergedFrom (unifiedArea measure) s s1 i j ri rj)
    (hclear : MergeClear s region i j (ri.unionWith rj)) (hapart : Apart s.dirtyRegions)
    (ha : Absorbed region region2 s1 s2 [] s1.stored caught) : Apart s2.stored := by
  obtain ⟨rest, hrest, hother, hslots⟩ := @mergedSlots_perm _ s.dirtyRegions i j ri rj
    (ri.unionWith rj) h.pair.lt h.pair.left h.pair.right
  have hperm := h.stored ▸ hslots
  have hrestApart : Apart rest := by
    have := hapart.of_perm hrest
    exact (pairwise_cons.mp (pairwise_cons.mp this).2).2
  cases hmeets : region.intersects (ri.unionWith rj) with
  | false =>
    have hall : Apart (ri.unionWith rj :: rest) := by
      refine pairwise_cons.mpr ⟨fun d hd => ?_, hrestApart⟩
      obtain ⟨k, hki, hkj, hk⟩ := hother d hd
      exact hclear.union hmeets k d hki hkj hk
    exact ((hall.of_perm hperm.symm).of_perm ha.perm).left
  | true =>
    -- the merged region is caught, and the others were apart before
    have hmem : ri.unionWith rj ∈ s1.stored := hperm.mem_iff.mpr mem_cons_self
    have hpass : PassClear region [] s1.stored := h.stored ▸ hclear.pass
    obtain ⟨-, hcaught⟩ := ha.mem_caught hpass hmem hmeets
    obtain ⟨caught', hcaught'⟩ : ∃ c, caught.Perm (ri.unionWith rj :: c) :=
      ⟨_, perm_cons_erase hcaught⟩
    have hspl : (ri.unionWith rj :: rest).Perm (ri.unionWith rj :: (s2.stored ++ caught')) :=
      (hperm.symm.trans ha.perm).trans
        (((perm_append_left_iff s2.stored).mpr hcaught').trans perm_middle)
    exact (hrestApart.of_perm ((perm_cons _).mp hspl)).left

variable [Zero K] [One K] [Neg K]

theorem Tidy.compress (fuel : Nat) (h : Tidy s)
    (hclear : StepClear (unifiedArea measure) s region) (hreg : region.isEmpty = false)
    (hmisses : ∀ d ∈ s.stored, region.intersects d = false)
    (hfull : s.emptyIndex = s.dirtyRegions.length) (htwo : 2 ≤ s.dirtyRegions.length) :
    ∃ s1 s', compressHeap (unifiedArea measure) s = some s1 ∧
      addDirtyRegionFuel (unifiedArea measure) (fuel + 1) s1 region = some s' ∧
      Tidy s' := by
  have hall : s.stored = s.dirtyRegions := by rw [stored, hfull, take_length]
  have hne : ∀ d ∈ s.dirtyRegions, d.isEmpty = false := hall ▸ h.nonempty
  obtain ⟨s1, i, j, ri, rj, hcompress, hmerged⟩ := compressHeap_spec htwo hfull h.fits
    fun r0 h0 r1 h1 => unifiedArea_unionWith measure (hne r0 h0) (hne r1 h1)
  obtain ⟨rest, hrest, -, hslots⟩ := @mergedSlots_perm _ s.dirtyRegions i j ri rj
    (ri.unionWith rj) hmerged.pair.lt hmerged.pair.left hmerged.pair.right
  have hperm := hmerged.stored ▸ hslots
  have hne1 : ∀ d ∈ s1.stored, d.isEmpty = false := by
    intro d hd
    rcases mem_cons.mp (hperm.mem_iff.mp hd) with rfl | hd
    · exact unionWith_isEmpty (hne _ (mem_of_getElem? hmerged.pair.left))
        (hne _ (mem_of_getElem? hmerged.pair.right))
    · exact hne d (hrest.mem_iff.mpr (.tail _ (.tail _ hd)))
  have hsz : s1.emptyIndex + 1 = s1.dirtyRegions.length := hmerged.size.trans hmerged.length.symm
  have hmerge := hclear.merge hfull htwo hmisses i j ri rj hmerged.pair
  obtain ⟨region2, s2, caught, hrun, ha⟩ := absorb_stored (by omega) hreg hne1
  have hspace : s2.emptyIndex < s2.dirtyRegions.length := by
    have hle : s2.stored.length ≤ s1.stored.length := by
      rw [ha.perm.length_eq, length_append]
      omega
    rw [length_stored ha.size, length_stored (by omega)] at hle
    rw [ha.length]
    omega
  exact ⟨s1, _, hcompress, addDirtyRegionFuel_store hreg hrun ha.nonempty hspace,
    ha.tidy (by omega) hne1 hmerged.fits (hmerged.stored ▸ hmerge.pass)
      (hmerged.apart hmerge (hall ▸ h.apart) ha) hspace⟩

theorem Tidy.addDirtyRegion (h : Tidy s) (hclear : StepClear (unifiedArea measure) s region)
    (hreg : region.isEmpty = false) :
    ∃ s', s.addDirtyRegion (unifiedArea measure) region = some s' ∧ Tidy s' := by
  have hsz := h.size
  by_cases hmisses : ∀ d ∈ s.stored, region.intersects d = false
  · have hrun : absorb s.emptyIndex region 0 s = some (region, s) :=
      absorb_of_misses (by omega) hsz hmisses
    obtain ⟨region', s', caught, hrun', ha⟩ := absorb_stored hsz hreg h.nonempty
    rw [hrun] at hrun'
    obtain ⟨rfl, rfl⟩ := Prod.mk.injEq _ _ _ _ ▸ some.inj hrun'
    rcases Nat.lt_or_ge s.emptyIndex s.dirtyRegions.length with hspace | hfull
    · exact ⟨_, addDirtyRegionFuel_store hreg hrun hreg hspace,
        ha.tidy h.pos h.nonempty h.fits hclear.pass h.apart hspace⟩
    · have hfull' : s.emptyIndex = s.dirtyRegions.length := by omega
      rw [DirtyRegionContainer.addDirtyRegion, addDirtyRegionFuel, hreg, if_neg (by simp), hrun]
      simp only [Option.bind_eq_bind, Option.bind_some]
      rw [if_neg (by omega)]
      by_cases hone : s.dirtyRegions.length = 1
      · obtain ⟨d, hd⟩ : ∃ d, s.dirtyRegions = [d] := length_eq_one_iff.mp hone
        have hsto : s.stored = [d] := by rw [stored, hfull', take_length, hd]
        have hd0 : d.isEmpty = false := h.nonempty d (by rw [hsto]; exact mem_singleton_self d)
        rw [if_pos hone, hd]
        refine ⟨_, rfl, ?_⟩
        have hsto' : stored { s with dirtyRegions := [d.unionWith region] } = [d.unionWith region] := by
          show [d.unionWith region].take s.emptyIndex = _
          rw [hfull', hone, take_of_length_le (Nat.le_refl 1)]
        refine ⟨Nat.zero_lt_one, hfull'.le.trans hone.le, fun x hx => ?_, ?_,
          h.fits.of_eq (Eq.symm hone) rfl⟩
        · rw [set_cons_zero, hsto', mem_singleton] at hx
          rw [hx]
          exact unionWith_isEmpty hd0 hreg
        · rw [set_cons_zero, hsto']
          exact pairwise_singleton _ _
      · obtain ⟨s1, s', hcompress, hadd, htidy⟩ :=
          h.compress 0 hclear hreg hmisses hfull' (by have := h.pos; omega)
        rw [if_neg hone, hcompress, Option.bind_some]
        exact ⟨s', hadd, htidy⟩
  · -- a region is caught, so that there is space
    obtain ⟨d, hd⟩ := not_forall.mp hmisses
    obtain ⟨hd, hmeets⟩ := Classical.not_imp.mp hd
    rw [Bool.not_eq_false] at hmeets
    obtain ⟨region', s', caught, hrun, ha⟩ := absorb_stored hsz hreg h.nonempty
    have hcaught := (ha.mem_caught hclear.pass hd hmeets).2
    have hspace : s'.emptyIndex < s'.dirtyRegions.length := by
      have hlt : s'.stored.length < s.stored.length := by
        have := length_pos_of_mem hcaught
        rw [ha.perm.length_eq, length_append]
        omega
      rw [length_stored ha.size, length_stored hsz] at hlt
      rw [ha.length]
      omega
    exact ⟨_, addDirtyRegionFuel_store hreg hrun ha.nonempty hspace,
      ha.tidy h.pos h.nonempty h.fits hclear.pass (h.apart.of_perm ha.perm).left hspace⟩

/-! ## Runs -/

/-- Each call of the run meets the condition. -/
def ClearRun (area : RectBounds K → RectBounds K → Int) :
    DirtyRegionContainer K → List (RectBounds K) → Prop
  | _, [] => True
  | s, region :: regions => StepClear area s region ∧
      ∀ s', s.addDirtyRegion area region = some s' → ClearRun area s' regions

theorem new_tidy {count : Nat} (hcnt : 0 < count) :
    Tidy (new count : DirtyRegionContainer K) := by
  refine ⟨?_, Nat.zero_le _, fun d hd => ?_, ?_, ?_⟩
  · show 0 < (List.replicate count empty).length
    rw [length_replicate]
    exact hcnt
  · rw [stored, show (new count : DirtyRegionContainer K).emptyIndex = 0 from rfl, take_zero] at hd
    cases hd
  · exact List.Pairwise.nil
  · exact length_range

theorem Tidy.run {regions : List (RectBounds K)} (h : Tidy s)
    (hne : ∀ r ∈ regions, r.isEmpty = false)
    (hclear : ClearRun (unifiedArea measure) s regions) (pre suf : List (RectBounds K))
    (hspl : regions = pre ++ suf) :
    ∃ s', run (unifiedArea measure) s (pre.map .addDirtyRegion) = some s' ∧ Tidy s' := by
  induction pre generalizing s regions with
  | nil => exact ⟨s, rfl, h⟩
  | cons r pre ih =>
    subst hspl
    obtain ⟨hstep, hrest⟩ := hclear
    obtain ⟨s1, hs1, htidy⟩ := h.addDirtyRegion hstep (hne r mem_cons_self)
    obtain ⟨s', hs', htidy'⟩ := ih htidy (fun x hx => hne x (mem_cons_of_mem r hx))
      (hrest s1 hs1) rfl
    refine ⟨s', ?_, htidy'⟩
    rw [map_cons, DirtyRegionContainer.run, step, hs1]
    exact hs'

/-- Apart after each call that meets the condition. -/
theorem run_apart (measure : RectBounds K → Int) {count : Nat} (hcnt : 0 < count)
    {regions : List (RectBounds K)} (hne : ∀ r ∈ regions, r.isEmpty = false)
    (hclear : ClearRun (unifiedArea measure) (new count) regions)
    (pre suf : List (RectBounds K)) (hspl : regions = pre ++ suf) :
    ∃ s, run (unifiedArea measure) (new count) (pre.map .addDirtyRegion) = some s ∧
      Apart s.stored := by
  obtain ⟨s, hs, htidy⟩ := (new_tidy hcnt).run hne hclear pre suf hspl
  exact ⟨s, hs, htidy.apart⟩

/-- Three regions in a container of two, where the third has the others merged. -/
theorem run_apart_twoRegions : ∃ s, run (unifiedArea fun r => (r.maxX - r.minX) * (r.maxY - r.minY))
      (new 2 : DirtyRegionContainer Int)
      [.addDirtyRegion ⟨0, 0, 1, 1⟩, .addDirtyRegion ⟨2, 0, 3, 1⟩,
        .addDirtyRegion ⟨9, 0, 10, 1⟩] = some s ∧ Apart s.stored := by
  refine @run_apart Int _ _ _ _ (fun r => (r.maxX - r.minX) * (r.maxY - r.minY)) 2 (by decide)
    [⟨0, 0, 1, 1⟩, ⟨2, 0, 3, 1⟩, ⟨9, 0, 10, 1⟩] (by decide)
    ⟨⟨.done, fun hfull => absurd hfull (by decide)⟩, fun s₁ hs₁ => ?_⟩
    [⟨0, 0, 1, 1⟩, ⟨2, 0, 3, 1⟩, ⟨9, 0, 10, 1⟩] [] rfl
  cases hs₁
  refine ⟨⟨.miss rfl .done, fun hfull => absurd hfull (by decide)⟩, fun s₂ hs₂ => ?_⟩
  cases hs₂
  refine ⟨⟨.miss rfl (.miss rfl .done), fun _ _ _ i j ri rj hleast => ?_⟩, fun _ _ => trivial⟩
  -- the container is full, and has one pair
  have hj : j < 2 := (List.getElem?_eq_some_iff.1 hleast.right).1
  have hlt := hleast.lt
  obtain rfl : i = 0 := by omega
  obtain rfl : j = 1 := by omega
  cases hleast.left
  cases hleast.right
  refine ⟨fun _ k d hk0 hk1 hd => ?_, .miss rfl .done⟩
  have hk : k < 2 := (List.getElem?_eq_some_iff.1 hd).1
  omega

/-- The third region meets a union, not its parts. -/
theorem run_apart_fails : ∃ s, run (unifiedArea fun r => (r.maxX - r.minX) * (r.maxY - r.minY))
      (new 3 : DirtyRegionContainer Int)
      [.addDirtyRegion ⟨0, 0, 1, 1⟩, .addDirtyRegion ⟨3, 0, 4, 5⟩,
        .addDirtyRegion ⟨0, 3, 3, 4⟩] = some s ∧ ¬ Apart s.stored := by
  refine ⟨⟨[⟨0, 0, 1, 1⟩, ⟨0, 0, 4, 5⟩, empty], 2, none⟩, rfl, ?_⟩
  show ¬ List.Pairwise _ _
  decide

end OpenJfx.Graphics.DirtyRegionContainer
