/-
  OpenJfx.Graphics.DirtyRegionContainer.Compaction

  The last loop of `heapCompress` leaves the regions at the roots of the map and nothing else.  A
  region moved into a gap makes its new index a root, so every index passed is a root, and the
  regions below `emptyIndex` stay the same up to order.
-/

import OpenJfx.Graphics.DirtyRegionContainer.Basic
import Mathlib.Data.List.Perm.Basic

namespace OpenJfx.Graphics.DirtyRegionContainer

open List Option Nat

variable {α : Type} {map : List Nat} {regions : List α} {e : Nat}

/-- The region has not been merged into another. -/
def IsRoot (map : List Nat) (k : Nat) : Prop := map[k]? = some k

instance (map : List Nat) (k : Nat) : Decidable (IsRoot map k) :=
  inferInstanceAs (Decidable (map[k]? = some k))

/-- The region at `k`, when `k` is a root. -/
def atRoot (map : List Nat) (regions : List α) (k : Nat) : Option α :=
  if IsRoot map k then regions[k]? else none

/-- The regions at the roots below `e`. -/
def rootRegions (map : List Nat) (regions : List α) (e : Nat) : List α :=
  (List.range e).filterMap (atRoot map regions)

variable {k : Nat}

theorem atRoot_of_isRoot (hk : IsRoot map k) : atRoot map regions k = regions[k]? := if_pos hk

theorem atRoot_of_not_isRoot (hk : ¬ IsRoot map k) : atRoot map regions k = none := if_neg hk

theorem isRoot_set_of_ne {i m : Nat} (hne : k ≠ i) : IsRoot (map.set i m) k ↔ IsRoot map k := by
  rw [IsRoot, IsRoot, getElem?_set_ne (Ne.symm hne)]

theorem atRoot_congr {map' : List Nat} {regions' : List α}
    (hroot : IsRoot map k ↔ IsRoot map' k) (hreg : regions[k]? = regions'[k]?) :
    atRoot map regions k = atRoot map' regions' k := by
  by_cases hk : IsRoot map k
  · rw [atRoot_of_isRoot hk, atRoot_of_isRoot (hroot.mp hk), hreg]
  · rw [atRoot_of_not_isRoot hk, atRoot_of_not_isRoot fun h => hk (hroot.mpr h)]

theorem filterMap_range_getElem? (regions : List α) (he : e ≤ regions.length) :
    (List.range e).filterMap (fun k => regions[k]?) = regions.take e := by
  induction e with
  | zero => rfl
  | succ e ih =>
    rw [range_succ, filterMap_append, ih (by omega), take_add_one,
      getElem?_eq_getElem (by omega)]
    simp [getElem?_eq_getElem (show e < regions.length by omega)]

theorem rootRegions_of_all (he : e ≤ regions.length) (hroots : ∀ k < e, IsRoot map k) :
    rootRegions map regions e = regions.take e := by
  rw [rootRegions, ← filterMap_range_getElem? regions he]
  refine filterMap_congr fun k hk => ?_
  exact atRoot_of_isRoot (hroots k (mem_range.mp hk))

theorem filterMap_range_perm {f g : Nat → Option α} {m i : Nat} {v : α} (hi : i < m)
    (hf : f i = none) (hg : g i = some v) (hsame : ∀ k < m, k ≠ i → f k = g k) :
    ((List.range m).filterMap g).Perm (v :: (List.range m).filterMap f) := by
  have herase := perm_cons_erase (mem_range.mpr hi)
  have hrest : ((List.range m).erase i).filterMap f = ((List.range m).erase i).filterMap g := by
    refine filterMap_congr fun k hk => ?_
    obtain ⟨hne, hkm⟩ := (nodup_range.mem_erase_iff).mp hk
    exact hsame k (mem_range.mp hkm) hne
  have hf' := herase.filterMap f
  have hg' := herase.filterMap g
  rw [filterMap_cons, hf] at hf'
  rw [filterMap_cons, hg] at hg'
  dsimp only at hf' hg'
  rw [hrest] at hf'
  exact hg'.trans ((perm_cons v).mpr hf'.symm)

theorem trim_spec (hlen : e ≤ map.length) (hroot : ∃ k < e, IsRoot map k) :
    ∃ last < e, trim map e = some (last + 1) ∧ IsRoot map last ∧
      ∀ k < e, last < k → ¬ IsRoot map k := by
  induction e with
  | zero =>
    obtain ⟨k, hk, -⟩ := hroot
    exact absurd hk (Nat.not_lt_zero k)
  | succ e ih =>
    obtain ⟨m, hm⟩ : ∃ m, map[e]? = some m := ⟨_, getElem?_eq_getElem (by omega)⟩
    rw [trim, hm]
    by_cases hme : m = e
    · rw [hme] at hm
      exact ⟨e, Nat.lt_succ_self e, if_pos hme, hm, fun k hk hek => by omega⟩
    · have hnot : ¬ IsRoot map e := by
        rw [IsRoot, hm, Option.some.injEq]
        exact hme
      obtain ⟨k, hk, hkroot⟩ := hroot
      have hke : k ≠ e := fun h => hnot (h ▸ hkroot)
      obtain ⟨last, hlast, htrim, hlroot, hafter⟩ := ih (by omega) ⟨k, by omega, hkroot⟩
      refine ⟨last, by omega, (if_neg hme).trans htrim, hlroot, fun k hk hlk => ?_⟩
      by_cases hke : k = e
      · rw [hke]
        exact hnot
      · exact hafter k (by omega) hlk

theorem rootRegions_trim {last : Nat} (hlast : last < e)
    (hafter : ∀ k < e, last < k → ¬ IsRoot map k) :
    rootRegions map regions e = rootRegions map regions (last + 1) := by
  obtain ⟨d, rfl⟩ : ∃ d, e = last + 1 + d := ⟨e - (last + 1), by omega⟩
  rw [rootRegions, range_add, filterMap_append]
  have hnone : ((List.range d).map (last + 1 + ·)).filterMap (atRoot map regions) = [] := by
    rw [filterMap_eq_nil_iff]
    intro k hk
    obtain ⟨j, hj, rfl⟩ := mem_map.mp hk
    have := mem_range.mp hj
    exact atRoot_of_not_isRoot (hafter _ (by omega) (by omega))
  rw [hnone, append_nil, rootRegions]

theorem rootRegions_move {i last : Nat} {x y : α} (hi : i < last) (hgap : ¬ IsRoot map i)
    (hlast : IsRoot map last) (hlen : map.length = regions.length) (hx : regions[i]? = some x)
    (hy : regions[last]? = some y) :
    (rootRegions (map.set i i) ((regions.set i y).set last x) last).Perm
      (rootRegions map regions (last + 1)) := by
  have hilt : i < regions.length := (List.getElem?_eq_some_iff.mp hx).1
  have hmoved := @filterMap_range_perm α (atRoot map regions)
    (atRoot (map.set i i) ((regions.set i y).set last x)) last i y hi
    (atRoot_of_not_isRoot hgap) (by
      rw [atRoot_of_isRoot (getElem?_set_self (by omega)), getElem?_set_ne (by omega),
        getElem?_set_self hilt]) (fun k hk hki => by
      refine atRoot_congr (isRoot_set_of_ne hki).symm ?_
      rw [getElem?_set_ne (by omega), getElem?_set_ne (Ne.symm hki)])
  refine hmoved.trans ?_
  rw [rootRegions, range_succ, filterMap_append]
  simp only [filterMap_cons, atRoot_of_isRoot hlast, hy, filterMap_nil]
  exact @perm_append_comm _ [y] _

theorem rootRegions_merged {i j : Nat} {ri rj u : α} (hij : i ≠ j) (hi : regions[i]? = some ri)
    (hj : regions[j]? = some rj) :
    ∃ rest, regions.Perm (ri :: rj :: rest) ∧
      (∀ d ∈ rest, ∃ k, k ≠ i ∧ k ≠ j ∧ regions[k]? = some d) ∧
      (rootRegions ((List.range regions.length).set j i) (regions.set i u) regions.length).Perm
        (u :: rest) := by
  have hilt : i < regions.length := (List.getElem?_eq_some_iff.mp hi).1
  have hjlt : j < regions.length := (List.getElem?_eq_some_iff.mp hj).1
  have hjmem : j ∈ (List.range regions.length).erase i :=
    nodup_range.mem_erase_iff.mpr ⟨Ne.symm hij, mem_range.mpr hjlt⟩
  have hperm : (List.range regions.length).Perm (i :: j :: ((List.range regions.length).erase i).erase j) :=
    (perm_cons_erase (mem_range.mpr hilt)).trans ((perm_cons i).mpr (perm_cons_erase hjmem))
  refine ⟨(((List.range regions.length).erase i).erase j).filterMap (fun k => regions[k]?), ?_,
    fun d hd => ?_, ?_⟩
  · have hregs := hperm.filterMap fun k => regions[k]?
    rw [filterMap_range_getElem? regions (le_refl _), take_length] at hregs
    simpa only [filterMap_cons, hi, hj] using hregs
  · obtain ⟨k, hk, hd⟩ := mem_filterMap.mp hd
    obtain ⟨hkj, hk⟩ := (nodup_range.erase i).mem_erase_iff.mp hk
    exact ⟨k, (nodup_range.mem_erase_iff.mp hk).1, hkj, hd⟩
  · have hroots := hperm.filterMap (atRoot ((List.range regions.length).set j i) (regions.set i u))
    have hiroot : IsRoot ((List.range regions.length).set j i) i :=
      (isRoot_set_of_ne hij).mpr (getElem?_range hilt)
    have hjroot : ¬ IsRoot ((List.range regions.length).set j i) j := by
      rw [IsRoot, getElem?_set_self (by rw [length_range]; exact hjlt), Option.some.injEq]
      exact hij
    have hrest : (((List.range regions.length).erase i).erase j).filterMap
          (atRoot ((List.range regions.length).set j i) (regions.set i u)) =
        (((List.range regions.length).erase i).erase j).filterMap fun k => regions[k]? := by
      refine filterMap_congr fun k hk => ?_
      obtain ⟨hkj, hk⟩ := (nodup_range.erase i).mem_erase_iff.mp hk
      obtain ⟨hki, hk⟩ := nodup_range.mem_erase_iff.mp hk
      rw [atRoot_of_isRoot ((isRoot_set_of_ne hkj).mpr (getElem?_range (mem_range.mp hk))),
        getElem?_set_ne (Ne.symm hki)]
    rw [← hrest, rootRegions]
    simpa only [filterMap_cons, atRoot_of_isRoot hiroot, atRoot_of_not_isRoot hjroot,
      getElem?_set_self hilt] using hroots

/-- The loop, from index `i` on, with a root at every index before it. -/
theorem moveUnused_spec {fuel i : Nat} (hlength : map.length = regions.length)
    (he : e ≤ regions.length) (hroot : ∃ k < e, IsRoot map k) (hfuel : e ≤ fuel + i)
    (hpassed : ∀ k < i, k < e → IsRoot map k) :
    ∃ regions' e', moveUnused fuel i map regions e = some (regions', e') ∧
      regions'.length = regions.length ∧ e' ≤ e ∧
      (regions'.take e').Perm (rootRegions map regions e) := by
  induction fuel generalizing i map regions e with
  | zero =>
    refine ⟨regions, e, rfl, rfl, le_refl e, ?_⟩
    rw [rootRegions_of_all he fun k hk => hpassed k (by omega) hk]
  | succ fuel ih =>
    rw [moveUnused]
    by_cases hie : i < e
    · obtain ⟨m, hm⟩ : ∃ m, map[i]? = some m := ⟨_, getElem?_eq_getElem (by omega)⟩
      simp only [if_pos hie, hm, bind_eq_bind, bind_some]
      by_cases hmi : m = i
      · rw [if_neg (not_not_intro hmi)]
        rw [hmi] at hm
        refine ih hlength he hroot (by omega) fun k hk hke => ?_
        by_cases hki : k = i
        · rw [hki]
          exact hm
        · exact hpassed k (by omega) hke
      · have hgap : ¬ IsRoot map i := by
          rw [IsRoot, hm, Option.some.injEq]
          exact hmi
        obtain ⟨last, hlast, htrim, hlroot, hafter⟩ := trim_spec (by omega) hroot
        rw [if_pos hmi, htrim]
        simp only [bind_some, Nat.add_sub_cancel]
        have hne : i ≠ last := fun h => hgap (h ▸ hlroot)
        rw [rootRegions_trim hlast hafter]
        by_cases hilast : i < last
        · obtain ⟨x, hx⟩ : ∃ x, regions[i]? = some x := ⟨_, getElem?_eq_getElem (by omega)⟩
          obtain ⟨y, hy⟩ : ∃ y, regions[last]? = some y := ⟨_, getElem?_eq_getElem (by omega)⟩
          have hswap : swap regions i last = some ((regions.set i y).set last x) := by
            rw [swap, hx, hy]
            rfl
          have hroot' : IsRoot (map.set i i) i := getElem?_set_self (by omega)
          rw [if_pos hilast, hswap, bind_some]
          obtain ⟨regions', e', hrun, hlen, hle, hperm⟩ := @ih (map.set i i)
            ((regions.set i y).set last x) last (i + 1) (by simpa using hlength)
            (by rw [length_set, length_set]; omega) ⟨i, hilast, hroot'⟩ (by omega)
            (fun k hk hke => by
              by_cases hki : k = i
              · rw [hki]
                exact hroot'
              · exact (isRoot_set_of_ne hki).mpr (hpassed k (by omega) (by omega)))
          refine ⟨regions', e', hrun, ?_, by omega,
            hperm.trans (rootRegions_move hilast hgap hlroot hlength hx hy)⟩
          rw [hlen, length_set, length_set]
        · rw [if_neg hilast]
          obtain ⟨regions', e', hrun, hlen, hle, hperm⟩ := @ih map regions (last + 1) (i + 1) hlength
            (by omega) ⟨last, by omega, hlroot⟩ (by omega) (fun k hk hke =>
              hpassed k (by omega) (by omega))
          exact ⟨regions', e', hrun, hlen, by omega, hperm⟩
    · rw [if_neg hie]
      refine ⟨regions, e, rfl, rfl, le_refl e, ?_⟩
      rw [rootRegions_of_all he fun k hk => hpassed k (by omega) hk]

/-! ## After one merge -/

theorem moveUnused_skip {d fuel i : Nat} (hroots : ∀ k, i ≤ k → k < i + d → IsRoot map k)
    (he : i + d ≤ e) :
    moveUnused (d + fuel) i map regions e = moveUnused fuel (i + d) map regions e := by
  induction d generalizing i with
  | zero => rw [Nat.zero_add, Nat.add_zero]
  | succ d ih =>
    have hi : map[i]? = some i := hroots i (le_refl i) (by omega)
    rw [show d + 1 + fuel = d + fuel + 1 by omega, moveUnused, if_pos (by omega), hi,
      bind_eq_bind, bind_some, if_neg (not_not_intro rfl),
      ih (fun k hk hlt => hroots k (by omega) (by omega)) (by omega),
      show i + 1 + d = i + (d + 1) by omega]

theorem moveUnused_done {fuel i : Nat} (hroots : ∀ k, i ≤ k → k < e → IsRoot map k) :
    moveUnused fuel i map regions e = some (regions, e) := by
  induction fuel generalizing i with
  | zero => rfl
  | succ fuel ih =>
    rw [moveUnused]
    split
    · next hi =>
      have hroot : map[i]? = some i := hroots i (le_refl i) hi
      rw [hroot, bind_eq_bind, bind_some, if_neg (not_not_intro rfl)]
      exact ih fun k hk hke => hroots k (by omega) hke
    · rfl

/-- The last region is put in place of the second. -/
def mergedSlots (regions : List α) (i j : Nat) (u : α) : List α :=
  match regions.getLast? with
  | none => []
  | some last => ((regions.set i u).set j last).take (regions.length - 1)

theorem moveUnused_merged {i j : Nat} {u : α} (hij : i < j) (hj : j < regions.length) :
    ∃ regions', moveUnused regions.length 0 ((List.range regions.length).set j i)
        (regions.set i u) regions.length = some (regions', regions.length - 1) ∧
      regions'.length = regions.length ∧
      regions'.take (regions.length - 1) = mergedSlots regions i j u := by
  set map := (List.range regions.length).set j i with hmap
  obtain ⟨n, hn⟩ : ∃ n, regions.length = n + 1 := ⟨regions.length - 1, by omega⟩
  have hlen : map.length = n + 1 := by rw [hmap, length_set, length_range, hn]
  have hroot : ∀ k ≤ n, k ≠ j → IsRoot map k := fun k hk hkj =>
    (isRoot_set_of_ne hkj).mpr (getElem?_range (by omega))
  have hjmap : map[j]? = some i := by
    rw [hmap, getElem?_set_self (by rw [length_range]; exact hj)]
  obtain ⟨last, hlast⟩ : ∃ x, regions[n]? = some x := ⟨_, getElem?_eq_getElem (by omega)⟩
  have hslots : mergedSlots regions i j u = ((regions.set i u).set j last).take n := by
    rw [mergedSlots, getLast?_eq_getElem?, hn, Nat.add_sub_cancel, hlast]
  have hskip := @moveUnused_skip _ map (regions.set i u) (n + 1) j (n - j + 1) 0
    (fun k _ hk => hroot k (by omega) (by omega)) (by omega)
  rw [show j + (n - j + 1) = n + 1 by omega, Nat.zero_add] at hskip
  obtain ⟨l, hl, htrim, hlroot, hafter⟩ := trim_spec (Nat.le_of_eq hlen.symm)
    ⟨i, by omega, hroot i (by omega) (by omega)⟩
  rw [hslots, hn, hskip, moveUnused, if_pos (by omega), hjmap, bind_eq_bind,
    bind_some, if_pos (by omega), htrim, bind_eq_bind, bind_some,
    Nat.add_sub_cancel, Nat.add_sub_cancel]
  by_cases hjn : j = n
  · -- the last slot itself was merged into another one
    have hln : l + 1 = n := by
      by_contra hne
      have hlj : l ≠ j := by
        rintro rfl
        rw [IsRoot, hjmap, Option.some.injEq] at hlroot
        omega
      exact hafter (n - 1) (by omega) (by omega) (hroot (n - 1) (by omega) (by omega))
    rw [if_neg (by omega), moveUnused_done fun k hk hkl => by omega, hln]
    refine ⟨_, rfl, by rw [length_set, hn], ?_⟩
    rw [hjn, take_set_of_le (le_refl n)]
  · have hln : l = n := by
      by_contra hne
      exact hafter n (by omega) (by omega) (hroot n (le_refl n) (Ne.symm hjn))
    obtain ⟨x, hx⟩ : ∃ x, (regions.set i u)[j]? = some x :=
      ⟨_, getElem?_eq_getElem (by rw [length_set]; exact hj)⟩
    have hy : (regions.set i u)[l]? = some last := by
      rw [hln, getElem?_set_ne (by omega), hlast]
    rw [if_pos (by omega), swap, hx, hy]
    simp only [bind_eq_bind, bind_some, Option.pure_def]
    rw [moveUnused_done fun k hk hkl => by
      rw [isRoot_set_of_ne (by omega)]
      exact hroot k (by omega) (by omega), hln]
    refine ⟨_, rfl, by rw [length_set, length_set, length_set, hn], ?_⟩
    rw [take_set_of_le (le_refl n)]

theorem mergedSlots_perm {i j : Nat} {ri rj u : α} (hij : i < j) (hi : regions[i]? = some ri)
    (hj : regions[j]? = some rj) :
    ∃ rest, regions.Perm (ri :: rj :: rest) ∧
      (∀ d ∈ rest, ∃ k, k ≠ i ∧ k ≠ j ∧ regions[k]? = some d) ∧
      (mergedSlots regions i j u).Perm (u :: rest) := by
  have hilt : i < regions.length := (List.getElem?_eq_some_iff.mp hi).1
  have hjlt : j < regions.length := (List.getElem?_eq_some_iff.mp hj).1
  have hlen : (regions.set i u).length = regions.length := length_set
  obtain ⟨rest, hrest, hother, hroots⟩ :=
    @rootRegions_merged _ regions i j ri rj u (Nat.ne_of_lt hij) hi hj
  obtain ⟨regions', hmove, -, hslots⟩ := @moveUnused_merged _ regions i j u hij hjlt
  obtain ⟨_, _, hmove', -, -, hperm⟩ := @moveUnused_spec _ ((List.range regions.length).set j i)
    (regions.set i u) regions.length regions.length 0
    (by rw [hlen, length_set, length_range]) (Nat.le_of_eq hlen.symm)
    ⟨i, hilt, (isRoot_set_of_ne (Nat.ne_of_lt hij)).mpr (getElem?_range hilt)⟩
    (le_refl _) (fun k hk => absurd hk (Nat.not_lt_zero k))
  rw [hmove] at hmove'
  obtain ⟨rfl, rfl⟩ := Prod.mk.injEq _ _ _ _ ▸ some.inj hmove'
  rw [hslots] at hperm
  exact ⟨rest, hrest, hother, hperm.trans hroots⟩

end OpenJfx.Graphics.DirtyRegionContainer
