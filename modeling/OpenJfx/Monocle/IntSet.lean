/-
  OpenJfx.Monocle.IntSet

  The sorted set of `int` values (`IntSet`) that the touch and key input
  processors keep.  `elements` holds the first `size` entries of the array.
-/

import Mathlib.Data.List.Basic

namespace OpenJfx.Monocle

open List

variable {elements : List Int}

/-- `IntSet`, whose array is sorted and has no element twice. -/
structure IntSet where
  elements : List Int
  sorted : elements.Pairwise (· < ·)

variable {value : Int}

namespace IntSet

def new : IntSet := ⟨[], List.Pairwise.nil⟩

/-- `-i - 1` to insert it at `i`. -/
def getIndex (value : Int) : List Int → Int → Int
  | [], i => -i - 1
  | e :: rest, i =>
    if e = value then i
    else if value < e then -i - 1
    else getIndex value rest (i + 1)

/-- In its place, unless it is there. -/
def addTo (value : Int) (elements : List Int) : List Int :=
  let i := getIndex value elements 0
  if i < 0 then
    let insertionPoint := (-1 - i).toNat
    elements.take insertionPoint ++ value :: elements.drop insertionPoint
  else elements

def removeFrom (value : Int) (elements : List Int) : List Int :=
  let i := getIndex value elements 0
  if i ≥ 0 then elements.eraseIdx i.toNat else elements

/-- The search of a sorted array ends at the value or at its place. -/
theorem getIndex_spec (value : Int) (h : elements.Pairwise (· < ·)) (i : Int) :
    ∃ before after, (∀ e ∈ before, e < value) ∧
      ((elements = before ++ value :: after ∧ getIndex value elements i = i + before.length) ∨
        (elements = before ++ after ∧ (∀ e ∈ after, value < e) ∧
          getIndex value elements i = -(i + before.length) - 1)) := by
  induction elements generalizing i with
  | nil => exact ⟨[], [], forall_mem_nil _, .inr ⟨rfl, forall_mem_nil _, by simp [getIndex]⟩⟩
  | cons e rest ih =>
    rw [pairwise_cons] at h
    rw [getIndex]
    by_cases heq : e = value
    · exact ⟨[], rest, forall_mem_nil _, .inl ⟨by rw [heq]; rfl, by simp [if_pos heq]⟩⟩
    rw [if_neg heq]
    by_cases hlt : value < e
    · refine ⟨[], e :: rest, forall_mem_nil _, .inr ⟨rfl, ?_, by simp [if_pos hlt]⟩⟩
      exact forall_mem_cons.2 ⟨hlt, fun x hx => Int.lt_trans hlt (h.1 x hx)⟩
    · rw [if_neg hlt]
      obtain ⟨before, after, hbef, hafter⟩ := ih h.2 (i + 1)
      refine ⟨e :: before, after, forall_mem_cons.2 ⟨by omega, hbef⟩, ?_⟩
      rw [length_cons]
      refine hafter.imp (fun h => ⟨congrArg (e :: ·) h.1, ?_⟩)
        fun h => ⟨congrArg (e :: ·) h.1, h.2.1, ?_⟩
      · rw [h.2]
        omega
      · rw [h.2.2]
        omega

theorem sorted_around {before after : List Int}
    (hsort : (before ++ after).Pairwise (· < ·)) (hbef : ∀ e ∈ before, e < value)
    (hafter : ∀ e ∈ after, value < e) : (before ++ value :: after).Pairwise (· < ·) := by
  rw [pairwise_append] at hsort ⊢
  refine ⟨hsort.1, pairwise_cons.2 ⟨hafter, hsort.2.1⟩, fun a ha => ?_⟩
  exact forall_mem_cons.2 ⟨hbef a ha, hsort.2.2 a ha⟩

theorem addTo_spec (value : Int) (h : elements.Pairwise (· < ·)) :
    (addTo value elements).Pairwise (· < ·) ∧
      ∀ e, e ∈ addTo value elements ↔ e = value ∨ e ∈ elements := by
  obtain ⟨before, after, hbef, ⟨rfl, hi⟩ | ⟨rfl, hafter, hi⟩⟩ := getIndex_spec value h 0
  · rw [addTo, hi, if_neg (by omega)]
    refine ⟨h, fun e => ⟨.inr, ?_⟩⟩
    rintro (rfl | he)
    · exact mem_append_right _ mem_cons_self
    · exact he
  · have hpoint : (-1 - (-(0 + (before.length : Int)) - 1)).toNat = before.length := by omega
    simp only [addTo, hi]
    rw [if_pos (by omega), hpoint, take_left, drop_left]
    refine ⟨sorted_around h hbef hafter, fun e => ?_⟩
    simp only [mem_append, mem_cons]
    exact or_left_comm

theorem removeFrom_spec (value : Int) (h : elements.Pairwise (· < ·)) :
    (removeFrom value elements).Pairwise (· < ·) ∧
      ∀ e, e ∈ removeFrom value elements ↔ e ≠ value ∧ e ∈ elements := by
  obtain ⟨before, after, hbef, ⟨rfl, hi⟩ | ⟨rfl, hafter, hi⟩⟩ := getIndex_spec value h 0
  · have hidx : (0 + (before.length : Int)).toNat = before.length := by omega
    simp only [removeFrom, hi]
    rw [if_pos (by omega), hidx, eraseIdx_append_of_length_le (Nat.le_refl _), Nat.sub_self,
      eraseIdx_cons_zero]
    rw [pairwise_append, pairwise_cons] at h
    refine ⟨pairwise_append.2 ⟨h.1, h.2.1.2, fun a ha b hb => h.2.2 a ha b (.tail _ hb)⟩, fun e => ?_⟩
    simp only [mem_append, mem_cons]
    refine ⟨fun he => ⟨?_, he.imp_right .inr⟩, fun he => he.2.imp_right fun hin => hin.resolve_left he.1⟩
    rintro rfl
    exact he.elim (fun he => Int.lt_irrefl _ (hbef e he)) fun he => Int.lt_irrefl _ (h.2.1.1 e he)
  · simp only [removeFrom, hi]
    rw [if_neg (by omega)]
    refine ⟨h, fun e => ⟨fun he => ⟨?_, he⟩, And.right⟩⟩
    rintro rfl
    exact (mem_append.1 he).elim (fun he => Int.lt_irrefl _ (hbef e he)) fun he => Int.lt_irrefl _ (hafter e he)

def addInt (s : IntSet) (value : Int) : IntSet :=
  ⟨addTo value s.elements, (addTo_spec value s.sorted).1⟩

def removeInt (s : IntSet) (value : Int) : IntSet :=
  ⟨removeFrom value s.elements, (removeFrom_spec value s.sorted).1⟩

@[simp] theorem mem_addInt {s : IntSet} {e : Int} :
    e ∈ (s.addInt value).elements ↔ e = value ∨ e ∈ s.elements :=
  (addTo_spec value s.sorted).2 e

@[simp] theorem mem_removeInt {s : IntSet} {e : Int} :
    e ∈ (s.removeInt value).elements ↔ e ≠ value ∧ e ∈ s.elements :=
  (removeFrom_spec value s.sorted).2 e

end IntSet

end OpenJfx.Monocle
