/-
  OpenJfx.Graphics.DirtyRegionContainer.Absorb

  The loop of `addDirtyRegion` that takes the stored regions into the new one.

  The regions are compared in the order of the slots, but one that is caught changes places with
  the last one ahead.  The region that grows is not compared again with those that it has
  passed.
-/

import OpenJfx.Graphics.DirtyRegionContainer.Regions
import Mathlib.Data.List.Perm.Basic

namespace OpenJfx.Graphics.DirtyRegionContainer

open List Option RectBounds

/-! ## The order of the pass -/

section

variable {α : Type} {l : List α} {x d : α}

/-- The last element is put in front. -/
def lastFirst (l : List α) : List α :=
  match l.getLast? with
  | none => []
  | some x => x :: l.dropLast

theorem lastFirst_concat (l : List α) (x : α) : lastFirst (l ++ [x]) = x :: l := by
  rw [lastFirst, getLast?_concat, dropLast_concat]

theorem lastFirst_perm (l : List α) : (lastFirst l).Perm l := by
  rcases eq_nil_or_concat l with rfl | ⟨l, x, rfl⟩
  · exact List.Perm.refl _
  · rw [concat_eq_append, lastFirst_concat]
    exact @perm_append_comm _ [x] _

theorem swap_take {regions passed ahead : List α} {e : Nat}
    (hsto : regions.take e = passed ++ d :: ahead) (he : e ≤ regions.length) :
    ∃ regions', swap regions passed.length (e - 1) = some regions' ∧
      regions'.take (e - 1) = passed ++ lastFirst ahead ∧ regions'.length = regions.length := by
  obtain ⟨rest, hrest⟩ : ∃ rest, regions = passed ++ d :: ahead ++ rest :=
    ⟨regions.drop e, by rw [← hsto, take_append_drop]⟩
  have hlen : e = passed.length + (ahead.length + 1) := by
    have := congrArg List.length hsto
    rw [length_take, length_append, length_cons] at this
    omega
  have hd : regions[passed.length]? = some d := by
    rw [hrest, append_assoc, getElem?_append_right (Nat.le_refl _), Nat.sub_self]
    rfl
  rcases eq_nil_or_concat ahead with rfl | ⟨l, x, rfl⟩
  · have hlast : e - 1 = passed.length := by rw [hlen, length_nil]; omega
    have hset : (regions.set passed.length d).set passed.length d = regions := by
      obtain ⟨hlt, hget⟩ := List.getElem?_eq_some_iff.mp hd
      rw [set_set, ← hget, set_getElem_self]
    refine ⟨regions, ?_, ?_, rfl⟩
    · rw [hlast, swap, hd]
      exact congrArg some hset
    · rw [hlast, hrest, append_assoc, take_left' rfl]
      exact (append_nil passed).symm
  · rw [concat_eq_append] at hrest hlen ⊢
    have hlast : e - 1 = passed.length + (l.length + 1) := by
      rw [hlen, length_append, length_singleton]
      omega
    have hx : regions[e - 1]? = some x := by
      rw [hlast, hrest, append_assoc, getElem?_append_right (by omega)]
      simp
    refine ⟨(regions.set passed.length x).set (e - 1) d, ?_, ?_, by simp⟩
    · rw [swap, hd, hx]
      rfl
    · rw [lastFirst_concat, take_set_of_le (Nat.le_refl _), hrest, hlast]
      simp only [append_assoc, set_append_right _ _ (Nat.le_refl _), Nat.sub_self,
        cons_append, set_cons_zero, take_length_add_append, take_succ_cons,
        take_left' rfl]

end

/-! ## The pass -/

variable {K : Type} [LinearOrder K]

/-- A growing region never meets one that it has passed. -/
inductive PassClear : RectBounds K → List (RectBounds K) → List (RectBounds K) → Prop where
  | done {region : RectBounds K} {passed : List (RectBounds K)} : PassClear region passed []
  | miss {region d : RectBounds K} {passed ahead : List (RectBounds K)}
      (hmiss : region.intersects d = false) (hrest : PassClear region (passed ++ [d]) ahead) :
      PassClear region passed (d :: ahead)
  | hit {region d : RectBounds K} {passed ahead : List (RectBounds K)}
      (hhit : region.intersects d = true)
      (hclear : ∀ p ∈ passed, (region.unionWith d).intersects p = false)
      (hrest : PassClear (region.unionWith d) passed (lastFirst ahead)) :
      PassClear region passed (d :: ahead)

/-- Those not caught, and one grown over the rest. -/
structure Absorbed (region region' : RectBounds K) (s s' : DirtyRegionContainer K)
    (passed ahead caught : List (RectBounds K)) : Prop where
  perm : s.stored.Perm (s'.stored ++ caught)
  grown : region'.contains region = true
  covers : ∀ d ∈ caught, region'.contains d = true
  misses : PassClear region passed ahead → (∀ d ∈ passed, region.intersects d = false) →
    ∀ d ∈ s'.stored, region'.intersects d = false
  length : s'.dirtyRegions.length = s.dirtyRegions.length
  heap : s'.heap = s.heap
  size : s'.emptyIndex ≤ s'.dirtyRegions.length

variable {region : RectBounds K} {s : DirtyRegionContainer K}

/-- One pass over the regions ahead. -/
theorem absorb_spec {n : Nat}
    {passed ahead : List (RectBounds K)} (hsto : s.stored = passed ++ ahead)
    (hn : ahead.length = n) (hsz : s.emptyIndex ≤ s.dirtyRegions.length)
    (hreg : region.isEmpty = false) (hall : ∀ d ∈ s.stored, d.isEmpty = false) :
    ∃ region' s' caught, absorb n region passed.length s = some (region', s') ∧
      Absorbed region region' s s' passed ahead caught := by
  induction n generalizing region s passed ahead with
  | zero =>
    obtain rfl := length_eq_zero_iff.mp hn
    rw [append_nil] at hsto
    refine ⟨region, s, [], rfl, ?_, contains_refl hreg, ?_, ?_, rfl, rfl, hsz⟩
    · rw [append_nil]
    · intro d hd
      cases hd
    · intro _ hmisses d hd
      rw [hsto] at hd
      exact hmisses d hd
  | succ n ih =>
    cases ahead with
    | nil => cases hn
    | cons d ahead =>
      rw [length_cons, Nat.add_right_cancel_iff] at hn
      have hd : s.dirtyRegions[passed.length]? = some d := by
        have hget : s.stored[passed.length]? = some d := by
          rw [hsto, getElem?_append_right (Nat.le_refl _), Nat.sub_self]
          rfl
        rw [stored, getElem?_take] at hget
        split at hget
        · exact hget
        · cases hget
      have hdne : d.isEmpty = false := hall d (by rw [hsto]; simp)
      rw [absorb, hd]
      simp only [bind_eq_bind, bind_some]
      -- a region that is met is taken in, and the last one ahead takes its place
      cases hmeets : region.intersects d with
      | false =>
        rw [if_neg (by simp)]
        have hsto' : s.stored = (passed ++ [d]) ++ ahead := by rw [hsto, append_assoc]; rfl
        obtain ⟨region', s', caught, hrun, ha⟩ := ih hsto' hn hsz hreg hall
        rw [length_append, length_singleton] at hrun
        refine ⟨region', s', caught, hrun, ha.perm, ha.grown, ha.covers, fun hclear hmisses => ?_,
          ha.length, ha.heap, ha.size⟩
        have hrest : PassClear region (passed ++ [d]) ahead := by
          cases hclear with
          | miss _ hrest => exact hrest
          | hit hhit _ _ =>
            rw [hmeets] at hhit
            cases hhit
        refine ha.misses hrest fun p hp => ?_
        rcases mem_append.mp hp with hp | hp
        · exact hmisses p hp
        · rw [mem_singleton.mp hp]
          exact hmeets
      | true =>
        rw [if_pos rfl]
        obtain ⟨regions, hswap, htake, hlen⟩ := swap_take hsto hsz
        have hsto' : stored { s with dirtyRegions := regions, emptyIndex := s.emptyIndex - 1 } =
            passed ++ lastFirst ahead := htake
        have hperm : s.stored.Perm (d :: (passed ++ lastFirst ahead)) := by
          rw [hsto]
          exact perm_middle.trans ((perm_cons d).mpr
            ((perm_append_left_iff passed).mpr (lastFirst_perm ahead).symm))
        have hunion := unionWith_contains_left hreg hdne
        obtain ⟨region', s', caught, hrun, ha⟩ := @ih (region.unionWith d)
          { s with dirtyRegions := regions, emptyIndex := s.emptyIndex - 1 } passed (lastFirst ahead)
          hsto' ((lastFirst_perm ahead).length_eq.trans hn)
          (by
            show s.emptyIndex - 1 ≤ regions.length
            omega)
          (unionWith_isEmpty hreg hdne)
          (fun p hp => by
            rw [hsto'] at hp
            exact hall p (hperm.mem_iff.mpr (mem_cons_of_mem d hp)))
        have hperm' := ha.perm
        rw [hsto'] at hperm'
        refine ⟨region', s', d :: caught, ?_, ?_, contains_trans ha.grown hunion, ?_, ?_,
          ha.length.trans hlen, ha.heap, ha.size⟩
        · rw [hswap, bind_some]
          exact hrun
        · exact hperm.trans (((perm_cons d).mpr hperm').trans perm_middle.symm)
        · intro p hp
          rcases mem_cons.mp hp with rfl | hp
          · exact contains_trans ha.grown (unionWith_contains_right hreg hdne)
          · exact ha.covers p hp
        · intro hclear hmisses
          cases hclear with
          | miss hmiss _ =>
            rw [hmeets] at hmiss
            cases hmiss
          | hit _ hclear hrest => exact ha.misses hrest hclear

theorem absorb_stored
    (hsz : s.emptyIndex ≤ s.dirtyRegions.length) (hreg : region.isEmpty = false)
    (hall : ∀ d ∈ s.stored, d.isEmpty = false) :
    ∃ region' s' caught, absorb s.emptyIndex region 0 s = some (region', s') ∧
      Absorbed region region' s s' [] s.stored caught :=
  absorb_spec (nil_append _).symm (by rw [stored, length_take]; omega) hsz hreg hall

theorem absorb_of_misses {n tempIndex : Nat}
    (hn : tempIndex + n ≤ s.emptyIndex) (hsz : s.emptyIndex ≤ s.dirtyRegions.length)
    (hmisses : ∀ d ∈ s.stored, region.intersects d = false) :
    absorb n region tempIndex s = some (region, s) := by
  induction n generalizing tempIndex with
  | zero => rfl
  | succ n ih =>
    obtain ⟨d, hd⟩ : ∃ d, s.dirtyRegions[tempIndex]? = some d := ⟨_, getElem?_eq_getElem (by omega)⟩
    have hmem : d ∈ s.stored := by
      refine mem_of_getElem? (i := tempIndex) ?_
      rw [stored, getElem?_take_of_lt (by omega), hd]
    rw [absorb, hd, bind_eq_bind, bind_some, if_neg (by simp [hmisses d hmem])]
    exact ih (by omega)

/-! ## A region that is put at the end -/

variable {area : RectBounds K → RectBounds K → Int} {s s' : DirtyRegionContainer K}
  {region region' : RectBounds K} {passed ahead caught : List (RectBounds K)}

omit [LinearOrder K] in
theorem length_stored (hsz : s.emptyIndex ≤ s.dirtyRegions.length) :
    s.stored.length = s.emptyIndex := by
  rw [stored, length_take, Nat.min_eq_left hsz]

omit [LinearOrder K] in
theorem stored_set (r : RectBounds K) (hspace : s.emptyIndex < s.dirtyRegions.length) :
    stored { s with
      dirtyRegions := s.dirtyRegions.set s.emptyIndex r
      emptyIndex := s.emptyIndex + 1 } = s.stored ++ [r] := by
  show (s.dirtyRegions.set s.emptyIndex r).take (s.emptyIndex + 1) = _
  rw [take_add_one, take_set_of_le (Nat.le_refl _), getElem?_set_self hspace]
  rfl

theorem Absorbed.nonempty (ha : Absorbed region region' s s' passed ahead caught) :
    region'.isEmpty = false :=
  (contains_eq_true_iff.mp ha.grown).1

theorem Absorbed.stored_nonempty (ha : Absorbed region region' s s' passed ahead caught)
    (hall : ∀ d ∈ s.stored, d.isEmpty = false) : ∀ d ∈ s'.stored, d.isEmpty = false :=
  fun d hd => hall d (ha.perm.mem_iff.mpr (mem_append_left _ hd))

variable [Zero K] [One K] [Neg K]

theorem addDirtyRegionFuel_store {fuel : Nat} (hreg : region.isEmpty = false)
    (hrun : absorb s.emptyIndex region 0 s = some (region', s')) (hne : region'.isEmpty = false)
    (hspace : s'.emptyIndex < s'.dirtyRegions.length) :
    addDirtyRegionFuel area (fuel + 1) s region = some { s' with
      dirtyRegions := s'.dirtyRegions.set s'.emptyIndex region'
      emptyIndex := s'.emptyIndex + 1 } := by
  rw [addDirtyRegionFuel, hreg, if_neg (by simp), hrun]
  simp only [bind_eq_bind, bind_some]
  rw [if_pos hspace, newBounds, hne, if_neg (by simp)]
  rfl

end OpenJfx.Graphics.DirtyRegionContainer
