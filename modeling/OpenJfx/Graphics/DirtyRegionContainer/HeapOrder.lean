/-
  OpenJfx.Graphics.DirtyRegionContainer.HeapOrder

  `heapify` puts an entry of least area at the top.

  The order is one of the areas in the slots.
-/

import OpenJfx.Graphics.DirtyRegionContainer.Heap
import OpenJfx.Lib.HeapOrder

namespace OpenJfx.Graphics.Heap

open OpenJfx.HeapOrder List Option

variable {h h' : Heap} {heapSize k i : Nat}

/-- The area in a slot. -/
def areaAt (h : Heap) (i : Nat) : Int := (h.entries (h.slots.getD i 0)).area

theorem areaAt_of_getElem? {x : Nat} (hx : h.slots[i]? = some x) :
    h.areaAt i = (h.entries x).area := by
  rw [areaAt, getD_eq_getElem?_getD, hx, getD_some]

theorem areaAt_swap {child above below : Nat} (hne : i ≠ child) (hi : h.slots[i]? = some above)
    (hchild : h.slots[child]? = some below) :
    Exchanged h.areaAt (areaAt { h with slots := (h.slots.set child above).set i below }) i child := by
  intro j
  have hilt := (List.getElem?_eq_some_iff.mp hi).1
  have hclt := (List.getElem?_eq_some_iff.mp hchild).1
  split
  · next hj =>
    rw [areaAt_of_getElem? hchild, hj]
    exact areaAt_of_getElem? (getElem?_set_self (by rw [length_set]; exact hilt))
  · next hj =>
    split
    · next hj' =>
      rw [areaAt_of_getElem? hi, hj']
      refine areaAt_of_getElem? ?_
      show ((h.slots.set child above).set i below)[child]? = some above
      rw [getElem?_set_ne hne, getElem?_set_self hclt]
    · next hj' =>
      rw [areaAt, areaAt, getD_eq_getElem?_getD, getD_eq_getElem?_getD]
      show (h.entries (((h.slots.set child above).set i below)[j]?.getD 0)).area = _
      rw [getElem?_set_ne (Ne.symm hj), getElem?_set_ne (Ne.symm hj')]

theorem smallerChild_spec (hsz : heapSize ≤ h.slots.length) (hi : i < heapSize / 2) :
    ∃ child, h.smallerChild heapSize (2 * i + 1) = some child ∧ child < heapSize ∧
      IsChild child i ∧ ∀ c < heapSize, IsChild c i → h.areaAt child ≤ h.areaAt c := by
  obtain ⟨left, hleft⟩ : ∃ x, h.slots[2 * i + 1]? = some x := ⟨_, getElem?_eq_getElem (by omega)⟩
  rw [smallerChild, hleft]
  show ∃ child, (if 2 * i + 1 + 1 < heapSize then _ else _) = some child ∧ _
  by_cases hright : 2 * i + 1 + 1 < heapSize
  · obtain ⟨right, hr⟩ : ∃ x, h.slots[2 * i + 1 + 1]? = some x :=
      ⟨_, getElem?_eq_getElem (by omega)⟩
    rw [if_pos hright, hr]
    have hl' := areaAt_of_getElem? hleft
    have hr' := areaAt_of_getElem? hr
    refine ⟨_, rfl, ?_⟩
    split
    · refine ⟨hright, Or.inr rfl, ?_⟩
      rintro c - (rfl | rfl)
      · omega
      · exact Int.le_refl _
    · refine ⟨by omega, Or.inl rfl, ?_⟩
      rintro c - (rfl | rfl)
      · exact Int.le_refl _
      · show h.areaAt (2 * i + 1) ≤ h.areaAt (2 * i + 1 + 1)
        omega
  · rw [if_neg hright]
    refine ⟨_, rfl, by omega, Or.inl rfl, ?_⟩
    rintro c hc (rfl | rfl)
    · exact Int.le_refl _
    · omega

theorem siftDown_ordered {fuel : Nat} (h0 : TooLarge h.areaAt heapSize k i) (hik : k ≤ i)
    (hsz : heapSize ≤ h.slots.length) (hrun : h.siftDown heapSize fuel i = some h') :
    OrderedFrom h'.areaAt heapSize k := by
  induction fuel generalizing h i with
  | zero => cases hrun
  | succ fuel ih =>
    rw [siftDown] at hrun
    split at hrun
    · next hi =>
      obtain ⟨child, hsc, hlt, hchild, hsmall⟩ := smallerChild_spec hsz hi
      obtain ⟨below, hbelow⟩ : ∃ x, h.slots[child]? = some x := ⟨_, getElem?_eq_getElem (by omega)⟩
      obtain ⟨above, habove⟩ : ∃ x, h.slots[i]? = some x := ⟨_, getElem?_eq_getElem (by omega)⟩
      rw [hsc] at hrun
      simp only [bind_eq_bind, bind_some, hbelow, habove] at hrun
      rw [← areaAt_of_getElem? hbelow, ← areaAt_of_getElem? habove] at hrun
      split at hrun
      · next hle =>
        cases hrun
        exact h0.done fun c hcs hci => Int.le_trans hle (hsmall c hcs hci)
      · next hlarger =>
        have hgt := hchild.lt
        refine ih (h0.move hik hchild hlt hsmall (by omega) (areaAt_swap (by omega) habove hbelow))
          (by omega) ?_ hrun
        · rw [length_set, length_set]
          exact hsz
    · next hi =>
      cases hrun
      refine h0.done fun c hcs hci => ?_
      rcases hci with rfl | rfl <;> omega

theorem siftDown_perm {fuel : Nat} (hrun : h.siftDown heapSize fuel i = some h') :
    h'.slots.Perm h.slots := by
  induction fuel generalizing h i with
  | zero => cases hrun
  | succ fuel ih =>
    rw [siftDown] at hrun
    split at hrun
    · obtain ⟨child, -, hrun⟩ := bind_eq_some_iff.mp hrun
      obtain ⟨below, hbelow, hrun⟩ := bind_eq_some_iff.mp hrun
      obtain ⟨above, habove, hrun⟩ := bind_eq_some_iff.mp hrun
      split at hrun
      · cases hrun
        exact List.Perm.refl _
      · obtain ⟨hc, rfl⟩ := List.getElem?_eq_some_iff.mp hbelow
        obtain ⟨hi, rfl⟩ := List.getElem?_eq_some_iff.mp habove
        exact (ih hrun).trans (set_set_perm hc hi)
    · cases hrun
      exact List.Perm.refl _

theorem heapify_moves (hsz : heapSize ≤ h.slots.length) :
    ∃ h', h.heapify heapSize i = some h' ∧ h'.entries = h.entries ∧ h'.slots.Perm h.slots := by
  induction i generalizing h with
  | zero =>
    obtain ⟨h', hsift, hs⟩ := @siftDown_sifted h heapSize (heapSize + 1) 0 hsz (by omega) (by omega)
    exact ⟨h', hsift, hs.entries, siftDown_perm hsift⟩
  | succ i ih =>
    obtain ⟨h1, hsift, hs⟩ := @siftDown_sifted h heapSize (heapSize + 1) (i + 1) hsz (by omega)
      (by omega)
    obtain ⟨h', hrest, hent, hperm⟩ := @ih h1 (by rw [hs.length]; exact hsz)
    refine ⟨h', ?_, hent.trans hs.entries, hperm.trans (siftDown_perm hsift)⟩
    rw [heapify, hsift]
    exact hrest

theorem heapify_ordered (h0 : OrderedFrom h.areaAt heapSize (i + 1))
    (hsz : heapSize ≤ h.slots.length) (hrun : h.heapify heapSize i = some h') :
    OrderedFrom h'.areaAt heapSize 0 := by
  have hexcept : ∀ {h : Heap} {i : Nat}, OrderedFrom h.areaAt heapSize (i + 1) →
      TooLarge h.areaAt heapSize i i := by
    intro h i h0
    refine ⟨fun p hp hne c hcs hcp => h0 p (by omega) c hcs hcp, fun p hp hip => ?_⟩
    have := hip.lt
    omega
  induction i generalizing h with
  | zero => exact siftDown_ordered (hexcept h0) (Nat.le_refl 0) hsz hrun
  | succ i ih =>
    rw [heapify] at hrun
    obtain ⟨h1, hsift, hrest⟩ := bind_eq_some_iff.mp hrun
    obtain ⟨h2, hsift2, hs⟩ := @siftDown_sifted h heapSize (heapSize + 1) (i + 1) hsz (by omega)
      (by omega)
    rw [hsift] at hsift2
    cases hsift2
    exact ih (siftDown_ordered (hexcept h0) (Nat.le_refl _) hsz hsift)
      (by rw [hs.length]; exact hsz) hrest

theorem heapify_top_le (hsz : heapSize = h.slots.length)
    (hrun : h.heapify heapSize (heapSize / 2) = some h') (hi : i < heapSize) :
    h'.areaAt 0 ≤ h'.areaAt i := by
  have hst : OrderedFrom h.areaAt heapSize (heapSize / 2 + 1) := by
    intro p hp c hcs hcp
    rcases hcp with rfl | rfl <;> omega
  exact (heapify_ordered hst (Nat.le_of_eq hsz) hrun).top_le hi

theorem siftDown_of_top_le {fuel : Nat} (hsz : heapSize ≤ h.slots.length)
    (htop : ∀ x ∈ h.slots, h.areaAt 0 ≤ (h.entries x).area) :
    h.siftDown heapSize (fuel + 1) 0 = some h := by
  rw [siftDown]
  split
  · next hi =>
    obtain ⟨child, hsc, hlt, -⟩ := smallerChild_spec hsz hi
    obtain ⟨below, hbelow⟩ : ∃ x, h.slots[child]? = some x := ⟨_, getElem?_eq_getElem (by omega)⟩
    obtain ⟨above, habove⟩ : ∃ x, h.slots[0]? = some x := ⟨_, getElem?_eq_getElem (by omega)⟩
    rw [Nat.mul_zero, Nat.zero_add] at hsc
    rw [Nat.mul_zero, Nat.zero_add, hsc]
    simp only [bind_eq_bind, bind_some, hbelow, habove]
    have hle := htop below (mem_of_getElem? hbelow)
    rw [areaAt_of_getElem? habove] at hle
    rw [if_pos hle]
    rfl
  · rfl

end OpenJfx.Graphics.Heap
