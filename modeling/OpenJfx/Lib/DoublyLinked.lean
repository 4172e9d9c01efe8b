/-
  OpenJfx.Lib.DoublyLinked

  `DoublyLinked next prev first last L`: the cells of `L`, in this order, are the list from
  `first` to `last`.  Nothing is said of the links of other cells.  `unlink` takes a cell out,
  `push` puts a fresh one at the end.
-/

import Mathlib.Data.List.Nodup
import Mathlib.Data.List.Infix

namespace OpenJfx

open List

variable {ρ : Type}

/-- The links go through `L`, forth and back. -/
structure DoublyLinked (next prev : ρ → Option ρ) (first last : Option ρ) (L : List ρ) :
    Prop where
  nodup : L.Nodup
  first_eq : first = L.head?
  last_eq : last = L.getLast?
  next_eq : ∀ A r B, L = A ++ r :: B → next r = B.head?
  prev_eq : ∀ A r B, L = A ++ r :: B → prev r = A.getLast?

variable {x : ρ}

namespace DoublyLinked

variable {next prev next' prev' : ρ → Option ρ} {first last first' last' : Option ρ}
  {L A B : List ρ} {r : ρ}

theorem nil : DoublyLinked next prev none none ([] : List ρ) where
  nodup := nodup_nil
  first_eq := rfl
  last_eq := rfl
  next_eq := by
    intro A r B h
    simp at h
  prev_eq := by
    intro A r B h
    simp at h

theorem next_mem (h : DoublyLinked next prev first last L) (hr : r ∈ L)
    (hx : next r = some x) : x ∈ L := by
  obtain ⟨A, B, rfl⟩ := append_of_mem hr
  have hB : B.head? = some x := (h.next_eq A r B rfl).symm.trans hx
  exact mem_append_right A (mem_cons_of_mem r (mem_of_mem_head? hB))

theorem prev_mem (h : DoublyLinked next prev first last L) (hr : r ∈ L)
    (hx : prev r = some x) : x ∈ L := by
  obtain ⟨A, B, rfl⟩ := append_of_mem hr
  have hA : A.getLast? = some x := (h.prev_eq A r B rfl).symm.trans hx
  exact mem_append_left _ (mem_of_getLast? hA)

/-! ## Taking a cell out -/

private theorem not_last {y : ρ} {C : List ρ} (hnd : (A ++ x :: y :: C).Nodup) :
    some x ≠ (A ++ x :: y :: C).getLast? := by
  intro hx
  have hlast : (A ++ x :: y :: C).getLast? = (y :: C).getLast? := by
    rw [append_cons, getLast?_append, getLast?_cons]
    rfl
  have hmem : x ∈ y :: C := mem_of_getLast? (hlast.symm.trans hx.symm)
  exact (nodup_cons.mp (nodup_append.mp hnd).2.1).1 hmem

section

variable (h : DoublyLinked next prev first last (A ++ r :: B))
include h

private theorem next_before [DecidableEq ρ] {A1 A2 : List ρ} (hA : A = A1 ++ x :: A2) :
    (if some x = prev r then next r else next x) = (A2 ++ B).head? := by
  have hprev : prev r = A.getLast? := h.prev_eq A r B rfl
  cases A2 with
  | nil =>
    have hx : some x = prev r := by rw [hprev, hA]; simp
    rw [if_pos hx, h.next_eq A r B rfl, nil_append]
  | cons y A2 =>
    have hne : some x ≠ prev r := by
      rw [hprev, hA]
      exact not_last (hA ▸ h.nodup.sublist (sublist_append_left A _))
    rw [if_neg hne, h.next_eq A1 x (y :: A2 ++ r :: B) (by simp [hA])]
    rfl

private theorem prev_after [DecidableEq ρ] {B1 B2 : List ρ} (hB : B = B1 ++ x :: B2) :
    (if some x = next r then prev r else prev x) = (A ++ B1).getLast? := by
  have hnxt : next r = B.head? := h.next_eq A r B rfl
  cases B1 with
  | nil =>
    have hx : some x = next r := by rw [hnxt, hB]; rfl
    rw [if_pos hx, h.prev_eq A r B rfl, append_nil]
  | cons y B1 =>
    have hne : some x ≠ next r := by
      rw [hnxt, hB]
      intro hx
      have hxy : x = y := by simpa using hx
      have hnd : (y :: (B1 ++ x :: B2)).Nodup := by
        have hBnd : (r :: B).Nodup := (nodup_append.mp h.nodup).2.1
        have := (nodup_cons.mp hBnd).2
        rwa [hB, cons_append] at this
      exact (nodup_cons.mp hnd).1 (by simp [hxy])
    rw [if_neg hne, h.prev_eq (A ++ r :: (y :: B1)) x B2 (by simp [hB])]
    simp [getLast?_append]

/-- Taking out a cell: its neighbours are linked to each other. -/
theorem unlink [DecidableEq ρ]
    (hnxt : ∀ x ∈ A ++ B, next' x = if some x = prev r then next r else next x)
    (hprev : ∀ x ∈ A ++ B, prev' x = if some x = next r then prev r else prev x)
    (hfst : first' = if prev r = none then next r else first)
    (hlast : last' = if next r = none then prev r else last) :
    DoublyLinked next' prev' first' last' (A ++ B) := by
  have hn : next r = B.head? := h.next_eq A r B rfl
  have hp : prev r = A.getLast? := h.prev_eq A r B rfl
  have hnd : (A ++ r :: B).Nodup := h.nodup
  refine ⟨hnd.sublist (List.Sublist.append_left (sublist_cons_self r B) A), ?_, ?_, ?_, ?_⟩
  · rw [hfst, hn, hp, h.first_eq]
    cases A with
    | nil => simp
    | cons a A => simp [getLast?_cons]
  · rw [hlast, hn, hp, h.last_eq]
    cases B with
    | nil => simp
    | cons b B => simp [getLast?_append, getLast?_cons]
  · intro A' x B' hspl
    have hx : x ∈ A ++ B := by simp [hspl]
    rw [hnxt x hx]
    have hnotLast : x ∈ B → some x ≠ prev r := by
      intro hxB hlastx
      rw [hp] at hlastx
      have hxA : x ∈ A := mem_of_getLast? hlastx.symm
      exact (nodup_append.mp hnd).2.2 x hxA x (mem_cons_of_mem r hxB) rfl
    rcases append_eq_append_iff.mp hspl with ⟨C, hA', hB⟩ | ⟨C, hA, hB'⟩
    · rw [if_neg (hnotLast (by simp [hB])), h.next_eq (A ++ r :: C) x B' (by simp [hB])]
    · cases C with
      | nil =>
        have hB : B = x :: B' := by simpa using hB'.symm
        rw [if_neg (hnotLast (by simp [hB])), h.next_eq (A ++ [r]) x B' (by simp [hB])]
      | cons y C =>
        obtain ⟨rfl, rfl⟩ : x = y ∧ B' = C ++ B := by simpa using hB'
        exact next_before h hA
  · intro A' x B' hspl
    have hx : x ∈ A ++ B := by simp [hspl]
    rw [hprev x hx]
    have hnotFirst : x ∈ A → some x ≠ next r := by
      intro hxA hfirstx
      rw [hn] at hfirstx
      have hxB : x ∈ r :: B := mem_cons_of_mem r (mem_of_mem_head? hfirstx.symm)
      exact (nodup_append.mp hnd).2.2 x hxA x hxB rfl
    rcases append_eq_append_iff.mp hspl with ⟨C, hA', hB⟩ | ⟨C, hA, hB'⟩
    · rw [hA']
      exact prev_after h hB
    · cases C with
      | nil =>
        have hB : B = [] ++ x :: B' := by simpa using hB'.symm
        have hA'' : A' = A ++ [] := by simpa using hA.symm
        rw [hA'']
        exact prev_after h hB
      | cons y C =>
        obtain ⟨rfl, rfl⟩ : x = y ∧ B' = C ++ B := by simpa using hB'
        rw [if_neg (hnotFirst (by simp [hA])), h.prev_eq A' x (C ++ r :: B) (by simp [hA])]

end

/-! ## Putting a cell at the end -/

theorem push [DecidableEq ρ] (h : DoublyLinked next prev first last L) (hr : r ∉ L)
    (hnxt : ∀ x ∈ L, next' x = if some x = last then some r else next x)
    (hnextr : next' r = none)
    (hprev : ∀ x ∈ L, prev' x = prev x) (hprevr : prev' r = last)
    (hfst : first' = if last = none then some r else first) :
    DoublyLinked next' prev' first' (some r) (L ++ [r]) := by
  have hnd : (L ++ [r]).Nodup := by
    rw [nodup_append]
    refine ⟨h.nodup, nodup_singleton r, ?_⟩
    intro x hx y hy hxy
    rw [mem_singleton.mp hy] at hxy
    exact hr (hxy ▸ hx)
  refine ⟨hnd, ?_, by simp, ?_, ?_⟩
  · rw [hfst, h.last_eq, h.first_eq]
    cases L with
    | nil => simp
    | cons a L => simp [getLast?_cons]
  · intro A x B hspl
    rcases append_eq_append_iff.mp hspl with ⟨C, rfl, hC⟩ | ⟨C, hL, hC⟩
    · obtain ⟨rfl, rfl, rfl⟩ : C = [] ∧ x = r ∧ B = [] := by
        cases C with
        | nil => simpa [eq_comm] using hC
        | cons y C => simp at hC
      exact hnextr
    · cases C with
      | nil =>
        obtain ⟨rfl, rfl⟩ : x = r ∧ B = [] := by simpa using hC
        exact hnextr
      | cons y C =>
        obtain ⟨rfl, rfl⟩ : x = y ∧ B = C ++ [r] := by simpa using hC
        have hx : x ∈ L := by simp [hL]
        rw [hnxt x hx, h.last_eq, hL]
        cases C with
        | nil => simp
        | cons z C =>
          have hne : some x ≠ (A ++ x :: z :: C).getLast? := not_last (hL ▸ h.nodup)
          rw [if_neg hne, h.next_eq A x (z :: C) hL]
          rfl
  · intro A x B hspl
    rcases append_eq_append_iff.mp hspl with ⟨C, rfl, hC⟩ | ⟨C, hL, hC⟩
    · obtain ⟨rfl, rfl, rfl⟩ : C = [] ∧ x = r ∧ B = [] := by
        cases C with
        | nil => simpa [eq_comm] using hC
        | cons y C => simp at hC
      rw [hprevr, h.last_eq, append_nil]
    · cases C with
      | nil =>
        obtain ⟨rfl, rfl⟩ : x = r ∧ B = [] := by simpa using hC
        rw [hprevr, h.last_eq, hL, append_nil]
      | cons y C =>
        obtain ⟨rfl, rfl⟩ : x = y ∧ B = C ++ [r] := by simpa using hC
        rw [hprev x (by simp [hL]), h.prev_eq A x C hL]

end DoublyLinked

end OpenJfx
