/-
  OpenJfx.Collections.ListChange

  What a list of add/remove sub-changes means: replayed in order on the old list, each deletes its
  `getRemoved()` at `from` and inserts the elements at `[from, to)` of the final list (`replay`).  
  `Tracks p cs A B` reads it off the lists: both are the same kept stretches, with `removed` in
  `A` where `B` has `added`.  `replay_of_tracks` connects the two.
-/

import OpenJfx.Collections.ListChangeBuilder.Basic
import OpenJfx.Collections.Permutation

namespace OpenJfx.Collections

open List SubChange

variable {p : Int} {E : Type}

/-! ## Replaying -/

/-- One add/remove sub-change applied to `cur`, when it describes it. -/
def replayStep [DecidableEq E] (final cur : List E) (c : SubChange E) : Option (List E) :=
  if 0 ≤ c.from_ ∧ c.from_ ≤ c.to_ ∧ c.to_ ≤ final.length ∧ c.from_ ≤ cur.length ∧
      (cur.drop c.from_.toNat).take c.getRemoved.length = c.getRemoved then
    some (cur.take c.from_.toNat ++ (final.drop c.from_.toNat).take (c.to_ - c.from_).toNat ++
      cur.drop (c.from_.toNat + c.getRemoved.length))
  else none

/-- All sub-changes applied in order. -/
def replay [DecidableEq E] (final : List E) : List (SubChange E) → List E → Option (List E)
  | [], cur => some cur
  | c :: cs, cur => (replayStep final cur c).bind (replay final cs)

/-- `perm.length != 0`: the sub-change is a permutation. -/
def SubChange.wasPermutated (c : SubChange E) : Bool := !c.perm.isEmpty

def SubChange.wasAdded (c : SubChange E) : Bool :=
  !c.wasPermutated && !c.updated && decide (c.from_ < c.to_)

def SubChange.wasRemoved (c : SubChange E) : Bool := !c.getRemoved.isEmpty

/-- `getAddedSubList()` on a list with this content. -/
def SubChange.getAddedSubList (list : List E) (c : SubChange E) : List E :=
  if c.wasAdded then (list.drop c.from_.toNat).take (c.to_ - c.from_).toNat else []

variable {c : SubChange E} {A B : List E} {q : Int} {cs : List (SubChange E)}

theorem SubChange.wasAdded_range (hperm : c.perm = [])
    (hupd : c.updated = false) (hto : c.to_ = c.from_ + A.length) :
    c.wasAdded = !A.isEmpty := by
  have hlt : (c.from_ < c.to_) ↔ A ≠ [] := by
    rw [hto, ← length_pos_iff]
    omega
  rw [wasAdded, wasPermutated, hperm, hupd]
  cases A with
  | nil | cons a A => simp [hlt]

theorem SubChange.getAddedSubList_range {X : List E} (Y : List E)
    (hperm : c.perm = []) (hupd : c.updated = false) (hfrom : c.from_ = X.length)
    (hto : c.to_ = c.from_ + A.length) : c.getAddedSubList (X ++ (A ++ Y)) = A := by
  have hcnt : (c.to_ - c.from_).toNat = A.length := by omega
  rw [getAddedSubList, wasAdded_range hperm hupd hto, hcnt, hfrom,
    Int.toNat_natCast, drop_left, take_left]
  cases A with
  | nil | cons a A => rfl

/-- Applied to `cur`, when range and array fit. -/
def replayPermutation (cur : List E) (c : SubChange E) : Option (List E) :=
  if 0 ≤ c.from_ ∧ c.to_ = c.from_ + c.perm.length ∧ c.to_ ≤ cur.length ∧
      IsPermutation c.from_ c.perm then
    some (permuted c.from_ c.perm cur)
  else none

/-- A sub-change of any kind; updates change nothing. -/
def replaySubChange [DecidableEq E] (final cur : List E) (c : SubChange E) : Option (List E) :=
  if c.wasPermutated then replayPermutation cur c
  else if c.updated then some cur
  else replayStep final cur c

/-- The sub-changes of a `Change` applied in order. -/
def replayChange [DecidableEq E] (final : List E) : List (SubChange E) → List E → Option (List E)
  | [], cur => some cur
  | c :: cs, cur => (replaySubChange final cur c).bind (replayChange final cs)

/-- Each range ends before the next starts. -/
def Ascending (cs : List (SubChange E)) : Prop :=
  (∀ c ∈ cs, c.from_ ≤ c.to_) ∧ cs.Pairwise fun a b => a.to_ < b.from_

/-- Every sub-change has a list to add removed elements to. -/
def HasRemoved (cs : List (SubChange E)) : Prop :=
  ∀ c ∈ cs, ∃ r, c.removed = some r

/-! ## Tracking -/

/-- `A` becomes `B` at `[p, q)`, edited up to `q`. -/
def Edits : Int → List (SubChange E) → List E → List E → Int → Prop
  | p, [], A, B, q => A = [] ∧ B = [] ∧ p = q
  | p, c :: cs, A, B, q => ∃ kept added A' B',
      c.from_ = p + (kept : List E).length ∧ c.to_ = c.from_ + (added : List E).length ∧
      A = kept ++ c.getRemoved ++ A' ∧ B = kept ++ added ++ B' ∧ Edits c.to_ cs A' B' q

/-- `cs` turn `A` into `B`, from `p` on. -/
def Tracks : Int → List (SubChange E) → List E → List E → Prop
  | _, [], A, B => A = B
  | p, c :: cs, A, B => ∃ kept added A' B',
      c.from_ = p + (kept : List E).length ∧ c.to_ = c.from_ + (added : List E).length ∧
      A = kept ++ c.getRemoved ++ A' ∧ B = kept ++ added ++ B' ∧ Tracks c.to_ cs A' B'

theorem Edits.length (h : Edits p cs A B q) : q = p + B.length := by
  induction cs generalizing p A B with
  | nil =>
    obtain ⟨-, rfl, rfl⟩ := h
    simp
  | cons c cs ih =>
    obtain ⟨kept, added, A', B', hf, ht, rfl, rfl, h⟩ := h
    have hq := ih h
    simp only [length_append]
    omega

theorem tracks_append {xs ys : List (SubChange E)} :
    Tracks p (xs ++ ys) A B ↔ ∃ m A1 A2 B1 B2, A = A1 ++ A2 ∧ B = B1 ++ B2 ∧
      Edits p xs A1 B1 m ∧ Tracks m ys A2 B2 := by
  induction xs generalizing p A B with
  | nil =>
    constructor
    · intro h
      exact ⟨p, [], A, [], B, rfl, rfl, ⟨rfl, rfl, rfl⟩, h⟩
    · rintro ⟨m, A1, A2, B1, B2, rfl, rfl, ⟨rfl, rfl, rfl⟩, h⟩
      exact h
  | cons c xs ih =>
    constructor
    · rintro ⟨kept, added, A', B', hf, ht, rfl, rfl, h⟩
      obtain ⟨m, A1, A2, B1, B2, rfl, rfl, h1, h2⟩ := ih.mp h
      exact ⟨m, kept ++ c.getRemoved ++ A1, A2, kept ++ added ++ B1, B2, by simp, by simp,
        ⟨kept, added, A1, B1, hf, ht, rfl, rfl, h1⟩, h2⟩
    · rintro ⟨m, A1, A2, B1, B2, rfl, rfl, ⟨kept, added, A', B', hf, ht, rfl, rfl, h1⟩, h2⟩
      exact ⟨kept, added, A' ++ A2, B' ++ B2, hf, ht, by simp, by simp,
        ih.mpr ⟨m, A', A2, B', B2, rfl, rfl, h1, h2⟩⟩

/-- The last sub-change of a prefix, with what stands before it. -/
theorem edits_concat {xs : List (SubChange E)} :
    Edits p (xs ++ [c]) A B q ↔ ∃ m A1 B1 kept added, Edits p xs A1 B1 m ∧
      c.from_ = m + (kept : List E).length ∧ c.to_ = c.from_ + (added : List E).length ∧
      A = A1 ++ kept ++ c.getRemoved ∧ B = B1 ++ kept ++ added ∧ q = c.to_ := by
  induction xs generalizing p A B with
  | nil =>
    constructor
    · rintro ⟨kept, added, A', B', hf, ht, rfl, rfl, rfl, rfl, rfl⟩
      exact ⟨p, [], [], kept, added, ⟨rfl, rfl, rfl⟩, hf, ht, by simp, by simp, rfl⟩
    · rintro ⟨m, A1, B1, kept, added, ⟨rfl, rfl, rfl⟩, hf, ht, rfl, rfl, rfl⟩
      exact ⟨kept, added, [], [], hf, ht, by simp, by simp, rfl, rfl, rfl⟩
  | cons x xs ih =>
    constructor
    · rintro ⟨k, a, A', B', hf, ht, rfl, rfl, h⟩
      obtain ⟨m, A1, B1, kept, added, h1, hf', ht', rfl, rfl, rfl⟩ := ih.mp h
      exact ⟨m, k ++ x.getRemoved ++ A1, k ++ a ++ B1, kept, added,
        ⟨k, a, A1, B1, hf, ht, rfl, rfl, h1⟩, hf', ht', by simp, by simp, rfl⟩
    · rintro ⟨m, A1, B1, kept, added, ⟨k, a, A', B', hf, ht, rfl, rfl, h⟩, hf', ht', rfl, rfl, rfl⟩
      exact ⟨k, a, A' ++ kept ++ c.getRemoved, B' ++ kept ++ added, hf, ht, by simp, by simp,
        ih.mpr ⟨m, A', B', kept, added, h, hf', ht', rfl, rfl, rfl⟩⟩

theorem Tracks.shift {d : Int}
    (h : Tracks p cs A B) (hq : q = p + d) : Tracks q (cs.map (shift d)) A B := by
  induction cs generalizing p q A B with
  | nil => exact h
  | cons c cs ih =>
    obtain ⟨kept, added, A', B', hf, ht, rfl, rfl, h⟩ := h
    refine ⟨kept, added, A', B', ?_, ?_, rfl, rfl, ih h rfl⟩
    · simp only [shift]; omega
    · simp only [shift]; omega

theorem Tracks.keep {m : Int} (kept : List E) (hm : m = p + kept.length) (h : Tracks m cs A B) :
    Tracks p cs (kept ++ A) (kept ++ B) := by
  cases cs with
  | nil =>
    rw [Tracks] at h ⊢
    rw [h]
  | cons c cs =>
    obtain ⟨k, added, A', B', hf, ht, rfl, rfl, h⟩ := h
    refine ⟨kept ++ k, added, A', B', ?_, ht, by simp, by simp, h⟩
    rw [length_append]
    omega

theorem Tracks.uncons {e : E} (h : Tracks p cs A (e :: B)) (hcs : ∀ c ∈ cs.head?, p < c.from_) :
    ∃ A', A = e :: A' ∧ Tracks (p + 1) cs A' B := by
  cases cs with
  | nil =>
    rw [Tracks] at h
    exact ⟨B, h, rfl⟩
  | cons c cs =>
    obtain ⟨kept, added, A', B', hf, ht, rfl, hB, h⟩ := h
    have hp : p < c.from_ := hcs c rfl
    cases kept with
    | nil =>
      rw [length_nil] at hf
      omega
    | cons e' kept =>
      rw [cons_append, cons_append, List.cons.injEq] at hB
      obtain ⟨rfl, rfl⟩ := hB
      refine ⟨kept ++ c.getRemoved ++ A', rfl, kept, added, A', B', ?_, ht, rfl, rfl, h⟩
      rw [length_cons] at hf
      omega

theorem Edits.bounds
    (h : Edits p cs A B q) : p ≤ q ∧ ∀ c ∈ cs, p ≤ c.from_ ∧ c.from_ ≤ c.to_ ∧ c.to_ ≤ q := by
  induction cs generalizing p A B with
  | nil =>
    obtain ⟨-, -, rfl⟩ := h
    simp
  | cons c cs ih =>
    obtain ⟨kept, added, A', B', hf, ht, rfl, rfl, h⟩ := h
    obtain ⟨hq, hall⟩ := ih h
    refine ⟨by omega, ?_⟩
    intro d hd
    rcases mem_cons.mp hd with rfl | hd
    · omega
    · have := hall d hd
      omega

theorem Tracks.bounds (h : Tracks p cs A B) :
    ∀ c ∈ cs, p ≤ c.from_ ∧ c.from_ ≤ c.to_ ∧ c.to_ ≤ p + B.length := by
  intro c hc
  obtain ⟨pre, post, rfl⟩ := append_of_mem hc
  rw [append_cons, tracks_append] at h
  obtain ⟨m, A1, A2, B1, B2, rfl, rfl, h1, h2⟩ := h
  have hb := h1.bounds.2 c (by simp)
  have hl := h1.length
  rw [length_append]
  omega

theorem Tracks.pairwise (h : Tracks p cs A B) : cs.Pairwise fun a b => a.to_ ≤ b.from_ := by
  induction cs generalizing p A B with
  | nil => exact List.Pairwise.nil
  | cons c cs ih =>
    obtain ⟨kept, added, A', B', hf, ht, rfl, rfl, h⟩ := h
    refine List.Pairwise.cons ?_ (ih h)
    intro d hd
    exact (h.bounds d hd).1

theorem replay_of_tracks_aux [DecidableEq E] {P : List E}
    (h : Tracks P.length cs A B) : replay (P ++ B) cs (P ++ A) = some (P ++ B) := by
  induction cs generalizing P A B with
  | nil =>
    rw [Tracks] at h
    rw [h, replay]
  | cons c cs ih =>
    obtain ⟨kept, added, A', B', hf, ht, rfl, rfl, h⟩ := h
    have hfrom : c.from_.toNat = (P ++ kept).length := by
      rw [length_append]; omega
    have hadd : (c.to_ - c.from_).toNat = added.length := by omega
    have hstep : replayStep (P ++ (kept ++ added ++ B')) (P ++ (kept ++ c.getRemoved ++ A')) c
        = some ((P ++ kept ++ added) ++ A') := by
      have hA : P ++ (kept ++ c.getRemoved ++ A') = (P ++ kept) ++ (c.getRemoved ++ A') := by simp
      have hB : P ++ (kept ++ added ++ B') = (P ++ kept) ++ (added ++ B') := by simp
      rw [replayStep, hA, hB, hfrom, hadd, drop_left, take_left, take_left,
        drop_left, take_left, ← drop_drop, drop_left, drop_left,
        if_pos]
      refine ⟨by omega, by omega, ?_, ?_, rfl⟩
      · simp only [length_append, Int.natCast_add]; omega
      · simp only [length_append, Int.natCast_add]; omega
    have hrest : Tracks ((P ++ kept ++ added).length : Int) cs A' B' := by
      have hlen : ((P ++ kept ++ added).length : Int) = c.to_ := by
        simp only [length_append, Int.natCast_add]; omega
      rw [hlen]
      exact h
    have hB : P ++ (kept ++ added ++ B') = (P ++ kept ++ added) ++ B' := by simp
    rw [replay, hstep, Option.bind_some, hB]
    exact ih hrest

theorem replay_of_tracks [DecidableEq E] (h : Tracks 0 cs A B) : replay B cs A = some B := by
  have := replay_of_tracks_aux (P := []) (by simpa using h)
  simpa using this

end OpenJfx.Collections
