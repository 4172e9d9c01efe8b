/-
  OpenJfx.Graphics.DirtyRegionContainer.Compress

  What `compress_heap` does to a full container when the area of a pair is that of its union: it
  merges one pair.  `takeMinWithMap` leaves the entry it takes at the top, and in the next round
  both of its indices stand for the merged region, so it is taken again.
-/

import OpenJfx.Graphics.DirtyRegionContainer.Compaction
import OpenJfx.Graphics.DirtyRegionContainer.HeapOrder
import OpenJfx.Graphics.DirtyRegionContainer.Regions
import Mathlib.Algebra.BigOperators.Group.List.Basic

namespace OpenJfx.Graphics

open List

variable {heap : Heap}

namespace DirtyRegionContainer

/-! ## Filling the heap -/

theorem length_indexPairs (n : Nat) : (indexPairs n).length = n * (n - 1) / 2 := by
  have hsum : ∀ m, ((List.range m).map fun i => m - i).sum * 2 = m * (m + 1) := by
    intro m
    induction m with
    | zero => rfl
    | succ m ih =>
      have hmap : ((List.range m).map Nat.succ).map (fun i => m + 1 - i) =
          (List.range m).map fun i => m - i := by
        rw [map_map]
        refine map_congr_left fun i _ => ?_
        show m + 1 - (i + 1) = m - i
        omega
      rw [range_succ_eq_map, map_cons, sum_cons, hmap, Nat.add_mul, ih,
        Nat.mul_comm m, Nat.sub_zero, ← Nat.mul_add, Nat.add_comm 2 m]
  rw [indexPairs, length_flatMap]
  simp only [length_map, length_range']
  have := hsum (n - 1)
  cases n with
  | zero => rfl
  | succ n =>
    rw [Nat.add_sub_cancel] at this ⊢
    rw [Nat.mul_comm (n + 1) n, ← this]
    omega

theorem mem_indexPairs {n i j : Nat} : (i, j) ∈ indexPairs n ↔ i < j ∧ j < n := by
  simp only [indexPairs, mem_flatMap, mem_range, mem_map, mem_range'_1, Prod.mk.injEq]
  constructor
  · rintro ⟨i', hi', j', ⟨hj1, hj2⟩, rfl, rfl⟩
    omega
  · rintro ⟨hij, hj⟩
    exact ⟨i, by omega, j, ⟨by omega, by omega⟩, rfl, rfl⟩

variable {K : Type} [LinearOrder K] {area : RectBounds K → RectBounds K → Int}
  {regions : List (RectBounds K)} {h h' : Heap}

omit [LinearOrder K] in
theorem unifiedRegionArea_eq {i j : Nat} {ri rj : RectBounds K} (hi : regions[i]? = some ri)
    (hj : regions[j]? = some rj) : unifiedRegionArea area regions i j = some (area ri rj) := by
  rw [unifiedRegionArea, hi, hj]
  rfl

/-- The entry of a pair of regions. -/
def IsPair (area : RectBounds K → RectBounds K → Int) (regions : List (RectBounds K)) (e : Entry) :
    Prop :=
  e.i < e.j ∧ ∃ ri rj, regions[e.i]? = some ri ∧ regions[e.j]? = some rj ∧ e.area = area ri rj

omit [LinearOrder K] in
theorem fill_spec {pairs : List (Nat × Nat)} {k : Nat}
    (hpairs : ∀ p ∈ pairs, p.1 < p.2 ∧ p.2 < regions.length)
    (hsz : k + pairs.length ≤ h.slots.length) :
    ∃ h', fill area regions pairs k h = some h' ∧ h'.slots = h.slots ∧
      (∀ x, (∀ m < pairs.length, h.slots[k + m]? ≠ some x) → h'.entries x = h.entries x) ∧
      ∀ m i j x, pairs[m]? = some (i, j) → h.slots[k + m]? = some x →
        (∀ m' > m, m' < pairs.length → h.slots[k + m']? ≠ some x) →
        IsPair area regions (h'.entries x) ∧ (h'.entries x).i = i ∧ (h'.entries x).j = j := by
  induction pairs generalizing k h with
  | nil => exact ⟨h, rfl, rfl, fun _ _ => rfl, by simp⟩
  | cons p pairs ih =>
    obtain ⟨i, j⟩ := p
    obtain ⟨hij, hj⟩ := hpairs (i, j) mem_cons_self
    rw [length_cons] at hsz
    obtain ⟨entry, hentry⟩ : ∃ x, h.slots[k]? = some x := ⟨_, getElem?_eq_getElem (by omega)⟩
    obtain ⟨ri, hri⟩ : ∃ r, regions[i]? = some r := ⟨_, getElem?_eq_getElem (by omega)⟩
    obtain ⟨rj, hrj⟩ : ∃ r, regions[j]? = some r := ⟨_, getElem?_eq_getElem (by omega)⟩
    obtain ⟨h', hfill, hslots, hother, hlast⟩ := @ih (h.setEntry entry ⟨area ri rj, i, j⟩) (k + 1)
      (fun p hp => hpairs p (.tail _ hp)) (by
        show k + 1 + pairs.length ≤ h.slots.length
        omega)
    have hshift : ∀ m, k + 1 + m = k + (m + 1) := fun m => by omega
    refine ⟨h', ?_, hslots, ?_, ?_⟩
    · rw [fill, hentry, unifiedRegionArea_eq hri hrj]
      exact hfill
    · intro x hx
      rw [hother x fun m hm => ?_]
      · refine Function.update_of_ne ?_ _ _
        rintro rfl
        exact hx 0 (by simp) hentry
      · rw [hshift]
        exact hx (m + 1) (by rw [length_cons]; omega)
    · intro m i' j' x hp hx hlater
      cases m with
      | zero =>
        cases hp
        rw [Nat.add_zero, hentry] at hx
        cases hx
        have hent : h'.entries entry = ⟨area ri rj, i, j⟩ := by
          rw [hother entry fun m hm => ?_]
          · exact Function.update_self _ _ _
          · rw [hshift]
            exact hlater (m + 1) (by omega) (by rw [length_cons]; omega)
        rw [hent]
        exact ⟨⟨hij, ri, rj, hri, hrj, rfl⟩, rfl, rfl⟩
      | succ m =>
        rw [← hshift] at hx
        refine hlast m i' j' x hp hx fun m' hm' hlen => ?_
        show h.slots[k + 1 + m']? ≠ some x
        rw [hshift]
        exact hlater (m' + 1) (by omega) (by rw [length_cons]; omega)

theorem exists_last {α : Type} {l : List α} {x : α} (hx : x ∈ l) :
    ∃ m : Nat, l[m]? = some x ∧ ∀ m' > m, l[m']? ≠ some x := by
  induction l with
  | nil => cases hx
  | cons a l ih =>
    by_cases hl : x ∈ l
    · obtain ⟨m, hm, hlater⟩ := ih hl
      refine ⟨m + 1, hm, fun m' hm' => ?_⟩
      obtain ⟨m', rfl⟩ : ∃ j, m' = j + 1 := ⟨m' - 1, by omega⟩
      exact hlater m' (by omega)
    · obtain rfl := (mem_cons.mp hx).resolve_right hl
      refine ⟨0, rfl, fun m' hm' hmem => ?_⟩
      obtain ⟨m', rfl⟩ : ∃ j, m' = j + 1 := ⟨m' - 1, by omega⟩
      exact hl (mem_of_getElem? hmem)

/-- The heap that is filled. -/
def oldHeap (s : DirtyRegionContainer K) : Heap :=
  s.heap.getD (Heap.new (s.dirtyRegions.length * (s.dirtyRegions.length - 1) / 2))

/-- The heap before the first round. -/
def prepare (area : RectBounds K → RectBounds K → Int) (s : DirtyRegionContainer K) :
    Option Heap := do
  let filled ← fill area s.dirtyRegions (indexPairs s.dirtyRegions.length) 0 s.oldHeap
  filled.heapify s.oldHeap.slots.length (s.oldHeap.slots.length / 2)

/-- The state before the first round. -/
def start (s : DirtyRegionContainer K) (heap : Heap) : Compression K :=
  ⟨s.dirtyRegions, List.range s.dirtyRegions.length, 0, heap, heap.slots.length⟩

/-- The heap has a slot for each pair. -/
def HeapFits (s : DirtyRegionContainer K) : Prop :=
  s.oldHeap.slots.length = s.dirtyRegions.length * (s.dirtyRegions.length - 1) / 2

variable {s : DirtyRegionContainer K} {c : Compression K}

omit [LinearOrder K] in
theorem HeapFits.of_eq {s' : DirtyRegionContainer K} (h : s.HeapFits)
    (hlength : s'.dirtyRegions.length = s.dirtyRegions.length) (hheap : s'.heap = s.heap) :
    s'.HeapFits := by
  rw [HeapFits, oldHeap] at *
  rw [hheap, hlength]
  exact h

/-- The entry of the pair is not written over by that of a later pair. -/
def Kept (s : DirtyRegionContainer K) (i j : Nat) : Prop :=
  ∃ k x : Nat, (indexPairs s.dirtyRegions.length)[k]? = some (i, j) ∧ s.oldHeap.slots[k]? = some x ∧
    ∀ k' > k, s.oldHeap.slots[k']? ≠ some x

/-- The pairs that are kept, a least one at the top. -/
structure Prepared (area : RectBounds K → RectBounds K → Int) (s : DirtyRegionContainer K)
    (h : Heap) : Prop where
  length : h.slots.length = s.dirtyRegions.length * (s.dirtyRegions.length - 1) / 2
  mem : ∀ x ∈ h.slots, x ∈ s.oldHeap.slots
  pairs : ∀ x ∈ h.slots, IsPair area s.dirtyRegions (h.entries x) ∧
    s.Kept (h.entries x).i (h.entries x).j
  kept : ∀ i j, s.Kept i j → ∃ x ∈ h.slots, (h.entries x).i = i ∧ (h.entries x).j = j
  top : ∀ x ∈ h.slots, h.areaAt 0 ≤ (h.entries x).area

/-- The pair has the least area of those that are kept. -/
structure LeastOfKept (area : RectBounds K → RectBounds K → Int) (s : DirtyRegionContainer K)
    (i j : Nat) (ri rj : RectBounds K) : Prop where
  lt : i < j
  kept : s.Kept i j
  left : s.dirtyRegions[i]? = some ri
  right : s.dirtyRegions[j]? = some rj
  least : ∀ (i' j' : Nat) (ri' rj' : RectBounds K), s.Kept i' j' → s.dirtyRegions[i']? = some ri' →
    s.dirtyRegions[j']? = some rj' → area ri rj ≤ area ri' rj'

omit [LinearOrder K] in
variable (area) in
theorem exists_filled (hfits : s.HeapFits) :
    ∃ filled, fill area s.dirtyRegions (indexPairs s.dirtyRegions.length) 0 s.oldHeap = some filled ∧
      filled.slots = s.oldHeap.slots ∧
      ∀ k i j x : Nat, (indexPairs s.dirtyRegions.length)[k]? = some (i, j) →
        s.oldHeap.slots[k]? = some x → (∀ k' > k, s.oldHeap.slots[k']? ≠ some x) →
        IsPair area s.dirtyRegions (filled.entries x) ∧ (filled.entries x).i = i ∧
          (filled.entries x).j = j := by
  have hpairs := length_indexPairs s.dirtyRegions.length
  obtain ⟨filled, hfill, hslots, -, hlast⟩ := @fill_spec _ area s.dirtyRegions s.oldHeap
    (indexPairs s.dirtyRegions.length) 0 (fun p hp => mem_indexPairs.mp hp)
    (by rw [hpairs, Nat.zero_add]; exact Nat.le_of_eq hfits.symm)
  refine ⟨filled, hfill, hslots, fun k i j x hk hx hlater => ?_⟩
  refine hlast k i j x hk (by rwa [Nat.zero_add]) fun k' hk' _ => ?_
  rw [Nat.zero_add]
  exact hlater k' hk'

omit [LinearOrder K] in
variable (area) in
theorem Prepared.of_prepare (hfits : s.HeapFits) :
    ∃ heap, prepare area s = some heap ∧ Prepared area s heap := by
  obtain ⟨filled, hfill, hslots, hlast⟩ := exists_filled area hfits
  obtain ⟨heap, hheapify, hent, hperm⟩ :=
    @Heap.heapify_moves filled s.oldHeap.slots.length (s.oldHeap.slots.length / 2)
      (Nat.le_of_eq (congrArg List.length hslots).symm)
  have hlength : heap.slots.length = s.oldHeap.slots.length := by rw [hperm.length_eq, hslots]
  have hmem : ∀ x, x ∈ heap.slots ↔ x ∈ s.oldHeap.slots := fun x => by
    rw [hperm.mem_iff, hslots]
  refine ⟨heap, Option.bind_eq_some_iff.mpr ⟨filled, hfill, hheapify⟩, ⟨hlength.trans hfits,
    fun x hx => (hmem x).mp hx, fun x hx => ?_, fun i j hkept => ?_, fun x hx => ?_⟩⟩
  · obtain ⟨k, hk, hlater⟩ := exists_last ((hmem x).mp hx)
    obtain ⟨p, hp⟩ : ∃ p, (indexPairs s.dirtyRegions.length)[k]? = some p := by
      refine ⟨_, getElem?_eq_getElem ?_⟩
      rw [length_indexPairs, ← hfits]
      exact (List.getElem?_eq_some_iff.mp hk).1
    obtain ⟨hpair, hi, hj⟩ := hlast k p.1 p.2 x hp hk hlater
    rw [hent, hi, hj]
    exact ⟨hpair, k, x, hp, hk, hlater⟩
  · obtain ⟨k, x, hp, hk, hlater⟩ := hkept
    obtain ⟨-, hi, hj⟩ := hlast k i j x hp hk hlater
    rw [hent]
    exact ⟨x, (hmem x).mpr (mem_of_getElem? hk), hi, hj⟩
  · obtain ⟨i, hi⟩ := mem_iff_getElem?.mp hx
    rw [← Heap.areaAt_of_getElem? hi]
    refine Heap.heapify_top_le (congrArg List.length hslots).symm hheapify ?_
    rw [← hlength]
    exact (List.getElem?_eq_some_iff.mp hi).1

/-! ## The rounds -/

omit [LinearOrder K] in
/-- The loop of `takeMinWithMap` ends at once when the top is right. -/
theorem recompute_of_top {temp : Nat} {fuel : Nat} (hsz : c.heapSize ≤ h.slots.length)
    (htemp : h.slots[0]? = some temp)
    (htop : ∀ x ∈ h.slots, h.areaAt 0 ≤ (h.entries x).area)
    (hright : c.isInvalid (h.entries temp) = true → ∃ r0 r1,
      resolveMap c.map (h.entries temp).i = some r0 ∧ resolveMap c.map (h.entries temp).j = some r1 ∧
        unifiedRegionArea area c.regions r0 r1 = some (h.entries temp).area) :
    recompute area c (fuel + 1) h = some (temp, h) := by
  rw [recompute, htemp]
  simp only [Option.bind_eq_bind, Option.bind_some]
  cases hinv : c.isInvalid (h.entries temp) with
  | false => rfl
  | true =>
    obtain ⟨r0, r1, h0, h1, harea⟩ := hright hinv
    have hsame : h.setEntry temp (h.entries temp) = h := by
      rw [Heap.setEntry, Function.update_eq_self]
    rw [h0, h1]
    simp only [Option.bind_some, harea, hsame, if_true, Heap.siftDown_of_top_le hsz htop, htemp]
    rfl

/-- A top that is put in place of the last slot is still the top. -/
theorem areaAt_set_top {h : Heap} {temp m : Nat} (htemp : h.slots[0]? = some temp)
    (htop : ∀ x ∈ h.slots, h.areaAt 0 ≤ (h.entries x).area) :
    (h.slots.set m temp)[0]? = some temp ∧
      ∀ x ∈ h.slots.set m temp, Heap.areaAt { h with slots := h.slots.set m temp } 0 ≤
        (h.entries x).area := by
  have htemp' : (h.slots.set m temp)[0]? = some temp := by
    rw [getElem?_set]
    split
    · next hzero => simp [hzero, (List.getElem?_eq_some_iff.mp htemp).1]
    · exact htemp
  refine ⟨htemp', fun x hx => ?_⟩
  rw [Heap.areaAt_of_getElem? htemp']
  rw [Heap.areaAt_of_getElem? htemp] at htop
  rcases mem_or_eq_of_mem_set hx with hx | rfl
  · exact htop x hx
  · exact Int.le_refl _

omit [LinearOrder K] in
variable (area) in
/-- The entry that is taken stays at the top, and in place of the last one. -/
theorem takeMinWithMap_of_top {c : Compression K} {temp : Nat}
    (hsz : c.heapSize ≤ c.heap.slots.length) (htemp : c.heap.slots[0]? = some temp)
    (htop : ∀ x ∈ c.heap.slots, c.heap.areaAt 0 ≤ (c.heap.entries x).area)
    (hright : c.isInvalid (c.heap.entries temp) = true → ∃ r0 r1,
      resolveMap c.map (c.heap.entries temp).i = some r0 ∧
        resolveMap c.map (c.heap.entries temp).j = some r1 ∧
          unifiedRegionArea area c.regions r0 r1 = some (c.heap.entries temp).area) :
    takeMinWithMap area c = some (c.heap.entries temp, { c with
      heap := { c.heap with slots := c.heap.slots.set (c.heapSize - 1) temp }
      heapSize := c.heapSize - 1 }) := by
  have hpos : 0 < c.heap.slots.length := (List.getElem?_eq_some_iff.mp htemp).1
  obtain ⟨fuel, hfuel⟩ : ∃ fuel, recomputeFuel c.heap = fuel + 1 :=
    ⟨recomputeFuel c.heap - 1, by rw [recomputeFuel, Nat.add_mul]; omega⟩
  obtain ⟨last, hlast⟩ : ∃ x, c.heap.slots[c.heapSize - 1]? = some x :=
    ⟨_, getElem?_eq_getElem (by omega)⟩
  have hsift := @Heap.siftDown_of_top_le
    { c.heap with slots := c.heap.slots.set (c.heapSize - 1) temp } c.heapSize c.heapSize
    (by rw [length_set]; exact hsz) (areaAt_set_top htemp htop).2
  rw [takeMinWithMap, hfuel, recompute_of_top hsz htemp htop hright]
  simp only [Option.bind_eq_bind, Option.bind_some, hlast, hsift]
  rfl

/-- The top entry stands for one region only, with its area. -/
structure Stuck (area : RectBounds K → RectBounds K → Int) (c : Compression K) : Prop where
  size : c.heapSize ≤ c.heap.slots.length
  merged : ∃ temp r u k₁ k₂, c.heap.slots[0]? = some temp ∧
    Resolves c.map (c.heap.entries temp).i r k₁ ∧ Resolves c.map (c.heap.entries temp).j r k₂ ∧
    k₁ ≤ c.map.length ∧ k₂ ≤ c.map.length ∧ c.regions[r]? = some u ∧
    area u u = (c.heap.entries temp).area
  top : ∀ x ∈ c.heap.slots, c.heap.areaAt 0 ≤ (c.heap.entries x).area

/-- What the rounds leave as it is. -/
structure Unmerged (c c' : Compression K) : Prop where
  regions : c'.regions = c.regions
  map : c'.map = c.map
  length : c'.heap.slots.length = c.heap.slots.length

theorem Stuck.mergeMin (h : Stuck area c) :
    ∃ c', mergeMin area c = some c' ∧ Unmerged c c' ∧ Stuck area c' ∧
      c'.heapSize = c.heapSize - 1 := by
  obtain ⟨temp, r, u, k1, k2, htemp, hi, hj, hk1, hk2, hu, harea⟩ := h.merged
  have hri : resolveMap c.map (c.heap.entries temp).i = some r := hi.resolveParent_eq (by omega)
  have hrj : resolveMap c.map (c.heap.entries temp).j = some r := hj.resolveParent_eq (by omega)
  have htake := takeMinWithMap_of_top area h.size htemp h.top fun _ =>
    ⟨r, r, hri, hrj, by rw [unifiedRegionArea_eq hu hu, harea]⟩
  obtain ⟨htemp', htop'⟩ := areaAt_set_top (m := c.heapSize - 1) htemp h.top
  refine ⟨{ c with
      heap := { c.heap with slots := c.heap.slots.set (c.heapSize - 1) temp }
      heapSize := c.heapSize - 1 }, ?_, ⟨rfl, rfl, length_set⟩,
    ⟨?_, ⟨temp, r, u, k1, k2, htemp', hi, hj, hk1, hk2, hu, harea⟩, htop'⟩, rfl⟩
  · rw [DirtyRegionContainer.mergeMin, htake]
    simp only [Option.bind_eq_bind, Option.bind_some, hri, hrj]
    rw [if_neg (by simp)]
    rfl
  · have := h.size
    show c.heapSize - 1 ≤ (c.heap.slots.set (c.heapSize - 1) temp).length
    rw [length_set]
    omega

theorem Stuck.mergeRounds (h : Stuck area c) (n : Nat) :
    ∃ c', mergeRounds area n c = some c' ∧ Unmerged c c' := by
  induction n generalizing c with
  | zero => exact ⟨c, rfl, rfl, rfl, rfl⟩
  | succ n ih =>
    obtain ⟨c1, hc1, hun, hstuck, -⟩ := h.mergeMin
    obtain ⟨c', hc', hun'⟩ := ih hstuck
    refine ⟨c', ?_, hun'.regions.trans hun.regions, hun'.map.trans hun.map,
      hun'.length.trans hun.length⟩
    rw [DirtyRegionContainer.mergeRounds, hc1]
    exact hc'

/-- One round merges a pair of least area. -/
theorem Prepared.mergeMin (h : Prepared area s heap) (hpos : 0 < heap.slots.length)
    (harea : ∀ r0 ∈ s.dirtyRegions, ∀ r1 ∈ s.dirtyRegions,
      area (r0.unionWith r1) (r0.unionWith r1) = area r0 r1) :
    ∃ i j ri rj c', LeastOfKept area s i j ri rj ∧
      mergeMin area (s.start heap) = some c' ∧ Stuck area c' ∧
      c'.regions = s.dirtyRegions.set i (ri.unionWith rj) ∧
      c'.map = (List.range s.dirtyRegions.length).set j i ∧
      c'.heap.slots.length = heap.slots.length := by
  obtain ⟨temp, htemp⟩ : ∃ x, heap.slots[0]? = some x := ⟨_, getElem?_eq_getElem hpos⟩
  obtain ⟨⟨hij, ri, rj, hri, hrj, hentry⟩, hkept⟩ := h.pairs temp (mem_of_getElem? htemp)
  generalize he : heap.entries temp = e at hij hri hrj hentry hkept
  obtain ⟨ar, i, j⟩ := e
  dsimp only at hij hri hrj hentry hkept
  subst hentry
  have hilt : i < s.dirtyRegions.length := (List.getElem?_eq_some_iff.mp hri).1
  have hjlt : j < s.dirtyRegions.length := (List.getElem?_eq_some_iff.mp hrj).1
  have hvalid : (s.start heap).isInvalid (heap.entries temp) = false := by
    simp [Compression.isInvalid, start]
  have htake := @takeMinWithMap_of_top _ area (s.start heap) temp (Nat.le_refl _) htemp h.top
    (fun hinv => absurd hinv (by
      show ¬ (s.start heap).isInvalid (heap.entries temp) = true
      rw [hvalid]
      simp))
  have hresolve : ∀ k < s.dirtyRegions.length,
      resolveMap (List.range s.dirtyRegions.length) k = some k := fun k hk =>
    (resolves_range hk).resolveParent_eq (Nat.succ_pos _)
  have hroot : ∀ k < s.dirtyRegions.length, (List.range s.dirtyRegions.length)[k]? = some k :=
    fun k hk => getElem?_range hk
  obtain ⟨htemp', htop'⟩ := areaAt_set_top (m := heap.slots.length - 1) htemp h.top
  refine ⟨i, j, ri, rj, {
      regions := s.dirtyRegions.set i (ri.unionWith rj)
      map := (List.range s.dirtyRegions.length).set j i
      invalidMask := 0 ||| bit i ||| bit j
      heap := { heap with slots := heap.slots.set (heap.slots.length - 1) temp }
      heapSize := heap.slots.length - 1 }, ⟨hij, hkept, hri, hrj, ?_⟩, ?_, ?_, rfl, rfl,
    length_set⟩
  · intro i' j' ri' rj' hkept' hri' hrj'
    obtain ⟨x, hx, rfl, rfl⟩ := h.kept i' j' hkept'
    obtain ⟨⟨-, r₀, r₁, hr0, hr1, hxarea⟩, -⟩ := h.pairs x hx
    rw [hr0, Option.some.injEq] at hri'
    rw [hr1, Option.some.injEq] at hrj'
    have htop := h.top x hx
    rw [Heap.areaAt_of_getElem? htemp, he, hxarea, hri', hrj'] at htop
    exact htop
  · rw [DirtyRegionContainer.mergeMin, htake]
    simp only [start, he, Option.bind_eq_bind, Option.bind_some, hresolve i hilt, hresolve j hjlt,
      hri, hrj]
    rw [if_pos (by omega)]
    rfl
  · obtain ⟨k1, hk1, hi⟩ := (resolves_range hilt).link (hroot i hilt) (hroot j hjlt) (by omega)
    obtain ⟨k2, hk2, hj⟩ := (resolves_range hjlt).link (hroot i hilt) (hroot j hjlt) (by omega)
    rw [if_neg (by omega)] at hi
    rw [if_pos rfl] at hj
    refine ⟨?_, ⟨temp, i, ri.unionWith rj, k1, k2, htemp', ?_, ?_, ?_, ?_, ?_, ?_⟩, htop'⟩
    · show heap.slots.length - 1 ≤ (heap.slots.set (heap.slots.length - 1) temp).length
      rw [length_set]
      omega
    · show Resolves _ (heap.entries temp).i i k1
      rw [he]
      exact hi
    · show Resolves _ (heap.entries temp).j i k2
      rw [he]
      exact hj
    · rw [length_set, length_range]
      omega
    · rw [length_set, length_range]
      omega
    · exact getElem?_set_self hilt
    · show _ = (heap.entries temp).area
      rw [he]
      exact harea ri (mem_of_getElem? hri) rj (mem_of_getElem? hrj)

theorem Prepared.mergeRounds (h : Prepared area s heap) (hpos : 0 < heap.slots.length)
    (harea : ∀ r0 ∈ s.dirtyRegions, ∀ r1 ∈ s.dirtyRegions,
      area (r0.unionWith r1) (r0.unionWith r1) = area r0 r1) (n : Nat) :
    ∃ i j ri rj c', LeastOfKept area s i j ri rj ∧
      mergeRounds area (n + 1) (s.start heap) = some c' ∧
      c'.regions = s.dirtyRegions.set i (ri.unionWith rj) ∧
      c'.map = (List.range s.dirtyRegions.length).set j i ∧
      c'.heap.slots.length = heap.slots.length := by
  obtain ⟨i, j, ri, rj, c1, hleast, hmin, hstuck, hregs, hmap, hlength⟩ := h.mergeMin hpos harea
  obtain ⟨c', hrounds, hun⟩ := hstuck.mergeRounds n
  refine ⟨i, j, ri, rj, c', hleast, ?_, hun.regions.trans hregs, hun.map.trans hmap,
    hun.length.trans hlength⟩
  rw [DirtyRegionContainer.mergeRounds, hmin]
  exact hrounds

/-! ## The container afterwards -/

theorem compressHeap_of_prepare (hprepare : prepare area s = some heap)
    (hlength : heap.slots.length = s.oldHeap.slots.length) :
    compressHeap area s = do
      let c ← mergeRounds area (s.dirtyRegions.length / 2) (s.start heap)
      let (regions, emptyIndex) ← moveUnused s.emptyIndex 0 c.map c.regions s.emptyIndex
      return ⟨regions, emptyIndex, some c.heap⟩ := by
  obtain ⟨filled, hfill, hheapify⟩ := Option.bind_eq_some_iff.mp hprepare
  rw [start, hlength]
  show (fill area s.dirtyRegions (indexPairs s.dirtyRegions.length) 0 s.oldHeap >>= _) = _
  rw [hfill]
  show (filled.heapify s.oldHeap.slots.length (s.oldHeap.slots.length / 2) >>= _) = _
  rw [hheapify]
  rfl

/-- `s'` is what is left of `s` when the regions at `i` and `j` are merged. -/
structure MergedFrom (area : RectBounds K → RectBounds K → Int) (s s' : DirtyRegionContainer K)
    (i j : Nat) (ri rj : RectBounds K) : Prop where
  pair : LeastOfKept area s i j ri rj
  stored : s'.stored = mergedSlots s.dirtyRegions i j (ri.unionWith rj)
  size : s'.emptyIndex + 1 = s.dirtyRegions.length
  length : s'.dirtyRegions.length = s.dirtyRegions.length
  fits : s'.HeapFits

theorem compressHeap_spec (htwo : 2 ≤ s.dirtyRegions.length)
    (hfull : s.emptyIndex = s.dirtyRegions.length) (hfits : s.HeapFits)
    (harea : ∀ r0 ∈ s.dirtyRegions, ∀ r1 ∈ s.dirtyRegions,
      area (r0.unionWith r1) (r0.unionWith r1) = area r0 r1) :
    ∃ s' i j ri rj, compressHeap area s = some s' ∧ MergedFrom area s s' i j ri rj := by
  obtain ⟨heap, hprepare, hprep⟩ := Prepared.of_prepare area hfits
  have hpos : 0 < heap.slots.length := by
    rw [hprep.length]
    have : 2 * 1 ≤ s.dirtyRegions.length * (s.dirtyRegions.length - 1) :=
      Nat.mul_le_mul htwo (by omega)
    omega
  obtain ⟨n, hn⟩ : ∃ n, s.dirtyRegions.length / 2 = n + 1 :=
    ⟨s.dirtyRegions.length / 2 - 1, by omega⟩
  obtain ⟨i, j, ri, rj, c, hleast, hrounds, hregs, hmap, hlength⟩ :=
    hprep.mergeRounds hpos harea n
  obtain ⟨regions, hmove, hlength', hsto⟩ := @moveUnused_merged _ s.dirtyRegions i j
    (ri.unionWith rj) hleast.lt (List.getElem?_eq_some_iff.mp hleast.right).1
  refine ⟨⟨regions, s.dirtyRegions.length - 1, some c.heap⟩, i, j, ri, rj, ?_, hleast, hsto, ?_,
    hlength', ?_⟩
  · rw [compressHeap_of_prepare hprepare (hprep.length.trans hfits.symm), hn, hrounds, hfull]
    simp only [Option.bind_eq_bind, Option.bind_some, hmap, hregs, hmove]
    rfl
  · show s.dirtyRegions.length - 1 + 1 = s.dirtyRegions.length
    omega
  · show c.heap.slots.length = regions.length * (regions.length - 1) / 2
    rw [hlength, hprep.length, hlength']

end DirtyRegionContainer

end OpenJfx.Graphics
