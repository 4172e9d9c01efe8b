/-
  OpenJfx.Lib.HeapOrder

  The order of a binary heap in an array, as a property of the values at the indices.

  While a value sifts, one index is out of order, and the index above it is in order with the
  children of that index.  Exchanging two values moves the disorder up or down.
-/

import Mathlib.Order.Lattice

namespace OpenJfx.HeapOrder

/-- The two children of an index in a binary heap. -/
def IsChild (c p : Nat) : Prop := c = 2 * p + 1 ∨ c = 2 * p + 2

theorem IsChild.lt {c p : Nat} (h : IsChild c p) : p < c := by
  rcases h with rfl | rfl <;> omega

theorem IsChild.unique {c p p' : Nat} (h : IsChild c p) (h' : IsChild c p') : p = p' := by
  rcases h with rfl | rfl <;> rcases h' with h' | h' <;> omega

theorem isChild_parent {c : Nat} (hc : 0 < c) : IsChild c ((c - 1) / 2) := by
  unfold IsChild
  omega

variable {β : Type} [LinearOrder β] {f f' : Nat → β} {size k i : Nat}

/-- The indices from `k` on are in order with their children. -/
def OrderedFrom (f : Nat → β) (size k : Nat) : Prop :=
  ∀ p ≥ k, ∀ c < size, IsChild c p → f p ≤ f c

/-- All of them but `i`, whose value may be too large. -/
structure TooLarge (f : Nat → β) (size k i : Nat) : Prop where
  except : ∀ p ≥ k, p ≠ i → ∀ c < size, IsChild c p → f p ≤ f c
  grand : ∀ p ≥ k, IsChild i p → ∀ c < size, IsChild c i → f p ≤ f c

/-- But for the one above `i`, which may be too small. -/
structure TooSmall (f : Nat → β) (size i : Nat) : Prop where
  except : ∀ p, ∀ c < size, c ≠ i → IsChild c p → f p ≤ f c
  grand : ∀ p, IsChild i p → ∀ c < size, IsChild c i → f p ≤ f c

/-- The values at two indices are exchanged. -/
def Exchanged (f f' : Nat → β) (i j : Nat) : Prop :=
  ∀ m, f' m = if m = i then f j else if m = j then f i else f m

/-! ## Down -/

theorem TooLarge.done (h : TooLarge f size k i) (hi : ∀ c < size, IsChild c i → f i ≤ f c) :
    OrderedFrom f size k := by
  intro p hp c hc hcp
  by_cases hpi : p = i
  · rw [hpi] at hcp ⊢
    exact hi c hc hcp
  · exact h.except p hp hpi c hc hcp

/-- The value at `i` is exchanged with that of a smallest child. -/
theorem TooLarge.move {child : Nat} (h : TooLarge f size k i) (hik : k ≤ i)
    (hchild : IsChild child i) (hlt : child < size)
    (hsmall : ∀ c < size, IsChild c i → f child ≤ f c) (hlarger : f child ≤ f i)
    (hf : Exchanged f f' i child) : TooLarge f' size k child := by
  have hgt := hchild.lt
  constructor
  · intro p hp hne c hcs hcp
    have hpc := hcp.lt
    rw [hf, hf]
    by_cases hpi : p = i
    · subst hpi
      rw [if_pos rfl, if_neg (by omega)]
      split
      · exact hlarger
      · exact hsmall c hcs hcp
    · rw [if_neg hpi, if_neg hne]
      split
      · next hci =>
        rw [hci] at hcp
        exact h.grand p hp hcp child hlt hchild
      · split
        · next hcc =>
          rw [hcc] at hcp
          exact absurd (hcp.unique hchild) hpi
        · exact h.except p hp hpi c hcs hcp
  · intro p hp hcp c hcs hcc
    have hcc' := hcc.lt
    obtain rfl : p = i := hcp.unique hchild
    rw [hf, hf, if_pos rfl, if_neg (by omega), if_neg (by omega)]
    exact h.except child (by omega) (by omega) c hcs hcc

/-! ## Up -/

theorem TooSmall.done (h : TooSmall f size i) (hi : ∀ p, IsChild i p → f p ≤ f i) :
    OrderedFrom f size 0 := by
  intro p _ c hc hcp
  by_cases hci : c = i
  · rw [hci] at hcp ⊢
    exact hi p hcp
  · exact h.except p c hc hci hcp

theorem TooSmall.move {parent : Nat} (h : TooSmall f size i) (hi : i < size)
    (hpar : IsChild i parent) (hsmaller : f i ≤ f parent) (hf : Exchanged f f' i parent) :
    TooSmall f' size parent := by
  have hlt := hpar.lt
  constructor
  · intro p c hcs hne hcp
    have hpc := hcp.lt
    rw [hf, hf]
    by_cases hci : c = i
    · obtain rfl : p = parent := (hci ▸ hcp).unique hpar
      rw [if_neg (by omega), if_pos rfl, if_pos hci]
      exact hsmaller
    · rw [if_neg hci, if_neg hne]
      by_cases hpi : p = i
      · rw [if_pos hpi]
        exact h.grand parent hpar c hcs (hpi ▸ hcp)
      · rw [if_neg hpi]
        split
        · next hpp => exact hsmaller.trans (h.except parent c hcs hci (hpp ▸ hcp))
        · exact h.except p c hcs hci hcp
  · intro p hpp c hcs hcp
    have hplt := hpp.lt
    have hgrand : f p ≤ f parent := h.except p parent (by omega) (by omega) hpp
    rw [hf, hf, if_neg (by omega), if_neg (by omega)]
    split
    · exact hgrand
    · next hci =>
      rw [if_neg (by have := hcp.lt; omega)]
      exact hgrand.trans (h.except parent c hcs hci hcp)

/-! ## The top -/

theorem OrderedFrom.top_le (h : OrderedFrom f size 0) (hi : i < size) : f 0 ≤ f i := by
  induction i using Nat.strongRecOn with
  | _ i ih =>
    by_cases hzero : i = 0
    · rw [hzero]
    · have hpar := isChild_parent (Nat.pos_of_ne_zero hzero)
      have hlt := hpar.lt
      exact (ih _ hlt (by omega)).trans (h _ (Nat.zero_le _) i hi hpar)

end OpenJfx.HeapOrder
