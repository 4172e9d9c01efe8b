/-
  OpenJfx.Lib.Segment

  Segments of an array.  An array is a function from positions, of which only
  those in range are ever used; `segment x low n` lists its contents at
  `low, ..., low + n - 1`.
-/

import Mathlib.Data.List.Perm.Basic

namespace OpenJfx

open List

variable {low : Int} {α β : Type}

def segment (x : Int → α) (low : Int) : Nat → List α
  | 0 => []
  | n + 1 => x low :: segment x (low + 1) n

section

variable (x : Int → α) (low : Int)

@[simp] theorem segment_zero : segment x low 0 = [] := rfl

theorem segment_succ (n : Nat) :
    segment x low (n + 1) = x low :: segment x (low + 1) n := rfl

@[simp] theorem segment_length (n : Nat) : (segment x low n).length = n := by
  induction n generalizing low with
  | zero => rfl
  | succ n ih => rw [segment_succ, length_cons, ih]

theorem segment_add (m n : Nat) :
    segment x low (m + n) = segment x low m ++ segment x (low + m) n := by
  induction m generalizing low with
  | zero => simp
  | succ m ih =>
    rw [Nat.succ_add, segment_succ, segment_succ, ih, cons_append]
    congr 3
    omega

theorem segment_concat (n : Nat) :
    segment x low (n + 1) = segment x low n ++ [x (low + n)] := by
  rw [segment_add]
  rfl

end

variable {x : Int → α} {n : Nat}

theorem segment_congr {y : Int → α}
    (h : ∀ i, low ≤ i → i < low + n → x i = y i) : segment x low n = segment y low n := by
  induction n generalizing low with
  | zero => rfl
  | succ n ih =>
    rw [segment_succ, segment_succ, h low (Int.le_refl _) (by omega)]
    congr 1
    exact ih fun i hi hi' => h i (by omega) (by omega)

theorem mem_segment {a : α} :
    a ∈ segment x low n ↔ ∃ i, low ≤ i ∧ i < low + n ∧ x i = a := by
  induction n generalizing low with
  | zero =>
    simp only [segment_zero, not_mem_nil, false_iff, not_exists]
    intro i h
    omega
  | succ n ih =>
    rw [segment_succ, mem_cons, ih]
    constructor
    · rintro (rfl | ⟨i, h1, h2, rfl⟩)
      · exact ⟨low, by omega, by omega, rfl⟩
      · exact ⟨i, by omega, by omega, rfl⟩
    · rintro ⟨i, h1, h2, rfl⟩
      by_cases hi : i = low
      · exact Or.inl (by rw [hi])
      · exact Or.inr ⟨i, by omega, by omega, rfl⟩

theorem segment_map (f : α → β) (x : Int → α) (low : Int) (n : Nat) :
    segment (fun i => f (x i)) low n = (segment x low n).map f := by
  induction n generalizing low with
  | zero => rfl
  | succ n ih => rw [segment_succ, segment_succ, map_cons, ih]

theorem segment_getElem? (x : Int → α) (low : Int) (n k : Nat) (h : k < n) :
    (segment x low n)[k]? = some (x (low + k)) := by
  induction n generalizing low k with
  | zero => omega
  | succ n ih =>
    cases k with
    | zero => simp [segment_succ]
    | succ k =>
      rw [segment_succ, getElem?_cons_succ, ih (low + 1) k (by omega)]
      congr 2
      omega

theorem segment_getElem?_eq_some {k : Nat} {a : α} :
    (segment x low n)[k]? = some a ↔ k < n ∧ a = x (low + k) := by
  constructor
  · intro h
    have hk : k < n := by
      have := (List.getElem?_eq_some_iff.mp h).1
      rwa [segment_length] at this
    rw [segment_getElem? x low n k hk] at h
    exact ⟨hk, (Option.some.inj h).symm⟩
  · rintro ⟨hk, rfl⟩
    exact segment_getElem? x low n k hk

theorem segment_pairwise {R : α → α → Prop} :
    (segment x low n).Pairwise R ↔ ∀ i j, low ≤ i → i < j → j < low + n → R (x i) (x j) := by
  induction n generalizing low with
  | zero => exact ⟨fun _ i j _ _ _ => by omega, fun _ => List.Pairwise.nil⟩
  | succ n ih =>
    rw [segment_succ, pairwise_cons, ih]
    constructor
    · rintro ⟨hhead, htail⟩ i j hi hij hj
      by_cases hlow : i = low
      · rw [hlow]
        exact hhead _ (mem_segment.mpr ⟨j, by omega, by omega, rfl⟩)
      · exact htail i j (by omega) hij (by omega)
    · intro h
      refine ⟨fun a ha => ?_, fun i j hi hij hj => h i j (by omega) hij (by omega)⟩
      obtain ⟨j, hj, hj', rfl⟩ := mem_segment.mp ha
      exact h low j (Int.le_refl low) (by omega) (by omega)

theorem segment_shift {y : Int → α} {off : Int}
    (h : ∀ i, low ≤ i → i < low + n → x i = y (i + off)) :
    segment x low n = segment y (low + off) n := by
  induction n generalizing low with
  | zero => rfl
  | succ n ih =>
    rw [segment_succ, segment_succ, h low (Int.le_refl _) (by omega)]
    congr 1
    rw [ih fun i hi hi' => h i (by omega) (by omega)]
    congr 1
    omega

end OpenJfx
