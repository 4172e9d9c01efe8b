/-
  OpenJfx.Graphics.DirtyRegionContainer.Heap

  The loops of the compression end and stay in the heap, and what is taken out was put in.  A
  round of `takeMinWithMap` sets the area of the top right and goes on only with a smaller entry:
  then the right area of the top has become smaller, or there is one wrong area less.
-/

import OpenJfx.Graphics.DirtyRegionContainer.Basic
import Mathlib.Data.Finset.Card

namespace OpenJfx.Graphics

open List

/-! ## Sifting -/

namespace Heap

variable {h : Heap} {heapSize : Nat}

/-- No larger area gets to the top. -/
structure Sifted (h h' : Heap) (i : Nat) : Prop where
  entries : h'.entries = h.entries
  length : h'.slots.length = h.slots.length
  mem : ∀ x ∈ h'.slots, x ∈ h.slots
  top_of_pos : 0 < i → h'.slots[0]? = h.slots[0]?
  top : i = 0 → h'.slots[0]? = h.slots[0]? ∨ ∃ x top, h'.slots[0]? = some x ∧
    h.slots[0]? = some top ∧ (h.entries x).area < (h.entries top).area

theorem Sifted.refl (h : Heap) (i : Nat) : Sifted h h i :=
  ⟨rfl, rfl, fun _ hx => hx, fun _ => rfl, fun _ => .inl rfl⟩

theorem smallerChild_eq {i : Nat} (hsz : heapSize ≤ h.slots.length) (hi : i < heapSize / 2) :
    ∃ child, h.smallerChild heapSize (2 * i + 1) = some child ∧ i < child ∧ child < heapSize := by
  have hleft : 2 * i + 1 < h.slots.length := by omega
  rw [smallerChild, getElem?_eq_getElem hleft]
  show ∃ child, (if 2 * i + 1 + 1 < heapSize then _ else _) = some child ∧ _
  split
  · next hright =>
    rw [getElem?_eq_getElem (by omega : 2 * i + 1 + 1 < h.slots.length)]
    refine ⟨_, rfl, ?_⟩
    split <;> omega
  · exact ⟨_, rfl, by omega⟩

theorem siftDown_sifted {fuel i : Nat} (hsz : heapSize ≤ h.slots.length) (hfuel : 0 < fuel)
    (hle : heapSize ≤ fuel + i) : ∃ h', h.siftDown heapSize fuel i = some h' ∧ Sifted h h' i := by
  induction fuel generalizing h i with
  | zero => exact absurd hfuel (Nat.lt_irrefl 0)
  | succ fuel ih =>
    rw [siftDown]
    split
    · next hi =>
      obtain ⟨child, hchild, hlt, hin⟩ := smallerChild_eq hsz hi
      obtain ⟨below, hbelow⟩ : ∃ x, h.slots[child]? = some x := ⟨_, getElem?_eq_getElem (by omega)⟩
      obtain ⟨above, habove⟩ : ∃ x, h.slots[i]? = some x := ⟨_, getElem?_eq_getElem (by omega)⟩
      rw [hchild]
      show ∃ h', (h.slots[child]? >>= _) = some h' ∧ _
      rw [hbelow]
      show ∃ h', (h.slots[i]? >>= _) = some h' ∧ _
      rw [habove]
      show ∃ h', (if (h.entries above).area ≤ (h.entries below).area then _ else _) = some h' ∧ _
      split
      · exact ⟨h, rfl, Sifted.refl h i⟩
      · next hlarger =>
        set swapped : Heap := { h with slots := (h.slots.set child above).set i below } with hswapped
        have hlen : swapped.slots.length = h.slots.length := by
          rw [hswapped, length_set, length_set]
        obtain ⟨h', hsift, hs⟩ := ih (h := swapped) (i := child) (by omega) (by omega) (by omega)
        have hmem : ∀ x ∈ swapped.slots, x ∈ h.slots := by
          intro x hx
          rcases mem_or_eq_of_mem_set hx with hx | rfl
          · rcases mem_or_eq_of_mem_set hx with hx | rfl
            · exact hx
            · exact mem_of_getElem? habove
          · exact mem_of_getElem? hbelow
        have htop : h'.slots[0]? = swapped.slots[0]? := hs.top_of_pos (by omega)
        refine ⟨h', hsift, hs.entries, hs.length.trans hlen, fun x hx => hmem x (hs.mem x hx),
          fun hpos => ?_, fun hzero => .inr ⟨below, above, ?_, ?_, by omega⟩⟩
        · rw [htop, hswapped, getElem?_set_ne (by omega), getElem?_set_ne (by omega)]
        · rw [htop, hswapped, hzero, getElem?_set_self (by rw [length_set]; omega)]
        · rw [hzero] at habove
          exact habove
    · exact ⟨h, rfl, Sifted.refl h i⟩

/-- A heap of `size` slots that refer to the entries below `size`. -/
structure Ok (h : Heap) (size : Nat) : Prop where
  length : h.slots.length = size
  mem : ∀ x ∈ h.slots, x < size

theorem new_ok (size : Nat) : (Heap.new size).Ok size := ⟨length_range, fun _ hx => mem_range.1 hx⟩

end Heap

end OpenJfx.Graphics
