/-
  OpenJfx.Transformation.FilteredList.Representation

  The invariant of `FilteredList` over runs: as long as the matching elements fit into the array
  after every add/remove sub-change (`Fits`), every step returns and `filtered[0..size)` holds the
  indices of the matching elements in order.
-/

import OpenJfx.Transformation.FilteredList.SubChanges
import OpenJfx.Collections.ListChangeBuilder.OriginalPermutation

namespace OpenJfx.Transformation

open OpenJfx.Collections JavaM List
open OpenJfx.Collections.ListChangeBuilder (recordedPermutation replayPermutation_eq_some)

variable {E : Type}

/-! ## Changes of a source -/

/-- In the order they are iterated. -/
structure SourceChange (E : Type) where
  permutation : Option (SubChange E)
  addRemoves : List (SubChange E)
  updates : List (SubChange E)

namespace SourceChange

def toList (ch : SourceChange E) : List (SubChange E) :=
  ch.permutation.toList ++ ch.addRemoves ++ ch.updates

/-- A permutation, sub-changes in order, updates. -/
structure Describes [DecidableEq E] (ch : SourceChange E) (old new : List E) : Prop where
  permutated : ∀ c ∈ ch.permutation, c.wasPermutated = true
  plain : ∀ c ∈ ch.addRemoves, Plain c
  updated : ∀ c ∈ ch.updates, c.perm = [] ∧ c.updated = true
  ranges : ∀ c ∈ ch.updates, 0 ≤ c.from_ ∧ c.from_ ≤ c.to_ ∧ c.to_ ≤ new.length
  ascending : Placed 0 ch.addRemoves new.length
  replays : ∃ P, recordedPermutation old ch.permutation = some P ∧
    replay new ch.addRemoves P = some new

/-- Every changed answer is covered, or was added. -/
def Reports (ch : SourceChange E) (new : List E) (before now : E → Bool) : Prop :=
  ∀ (j : Nat) (e : E), new[j]? = some e → before e ≠ now e →
    covers ch.updates j = true ∨ covers ch.addRemoves j = true

end SourceChange

namespace FilteredList

/-! ## Flags -/

/-- The flags after an add/remove sub-change. -/
def addRemoveFlags (src : List E) (now : E → Bool) (F : List Bool) (c : SubChange E) : List Bool :=
  F.take c.from_.toNat ++ ((src.drop c.from_.toNat).take (c.to_ - c.from_).toNat).map now ++
    F.drop (c.from_.toNat + c.getRemoved.length)

/-- After every add/remove sub-change at most `cap` elements are shown. -/
def fits (cap : Nat) (src : List E) (now : E → Bool) : List Bool → List (SubChange E) → Bool
  | _, [] => true
  | F, c :: cs =>
    decide ((addRemoveFlags src now F c).count true ≤ cap) &&
      fits cap src now (addRemoveFlags src now F c) cs

section Changes

variable {src : List E} {p : Option (E → Bool)} {cap : Nat} {s : FilteredList E}

theorem addRemoveFlags_eq {now : E → Bool} {c : SubChange E} {K R T : List Bool}
    {U N V : List E} (hfrom : c.from_ = K.length) (hrem : c.getRemoved.length = R.length)
    (hto : c.to_ = c.from_ + N.length) (hU : U.length = K.length) :
    addRemoveFlags (U ++ (N ++ V)) now (K ++ R ++ T) c = K ++ N.map now ++ T := by
  have h1 : c.from_.toNat = K.length := by omega
  have h2 : (c.to_ - c.from_).toNat = N.length := by omega
  have h3 : K.length + R.length = (K ++ R).length := by rw [length_append]
  rw [addRemoveFlags, h1, h2, hrem, h3, drop_left]
  congr 2
  · rw [append_assoc, take_left]
  · rw [← hU, drop_left, take_left]

theorem ensured_idem (cap size : Nat) : ensured (ensured cap size) size = ensured cap size := by
  rw [ensured, if_neg (Nat.not_lt.mpr (le_ensured cap size))]

theorem Showing.addRemoves {before : E → Bool} {cs : List (SubChange E)} {A B U : List E}
    {D : List Bool} (ht : Tracks D.length cs A B) (hplain : ∀ c ∈ cs, Plain c)
    (hsrc : src = U ++ B) (hU : U.length = D.length)
    (h : Showing src p cap (trueIndices 0 (D ++ A.map before)).length
      (trueIndices 0 (D ++ A.map before)) s)
    (hfits : fits (ensured cap src.length) src (p.getD fun _ => true) (D ++ A.map before) cs = true) :
    ∃ s' cap' G, Returns (cs.forM subChanged) s () s' ∧
      Showing src p cap' (trueIndices 0 (D ++ G)).length (trueIndices 0 (D ++ G)) s' ∧
      G.length = B.length ∧
      ∀ (j : Nat) (e : E), B[j]? = some e → G[j]? = some ((p.getD fun _ => true) e) ∨
        (G[j]? = some (before e) ∧ covers cs (D.length + j) = false) := by
  induction cs generalizing A B U D s cap with
  | nil =>
    rw [Tracks] at ht
    subst ht
    refine ⟨s, cap, A.map before, rfl, h, by simp, ?_⟩
    intro j e he
    exact Or.inr ⟨by rw [getElem?_map, he]; rfl, rfl⟩
  | cons c cs ih =>
    have hplaced := ht.placed
    obtain ⟨kept, added, A', B', hfrom, hto, rfl, rfl, ht'⟩ := ht
    obtain ⟨hperm, hupd⟩ := hplain c mem_cons_self
    have hfrom' : c.from_ = ((D ++ kept.map before).length : Int) := by
      rw [length_append, length_map, hfrom]
      omega
    have hflags : D ++ (kept ++ c.getRemoved ++ A').map before
        = (D ++ kept.map before) ++ c.getRemoved.map before ++ A'.map before := by
      simp only [map_append, append_assoc]
    have hsrc' : src = (U ++ kept) ++ (added ++ B') := by
      rw [hsrc]
      simp only [append_assoc]
    have hU' : (U ++ kept).length = (D ++ kept.map before).length := by
      simp only [length_append, length_map, hU]
    have hnxt : addRemoveFlags src (p.getD fun _ => true)
          (D ++ (kept ++ c.getRemoved ++ A').map before) c
        = (D ++ kept.map before) ++ added.map (p.getD fun _ => true) ++ A'.map before := by
      rw [hflags, hsrc']
      exact addRemoveFlags_eq hfrom' (by simp) hto hU'
    rw [fits, hnxt, Bool.and_eq_true, decide_eq_true_iff] at hfits
    rw [hflags] at h
    obtain ⟨s1, hs1, h1⟩ := h.addRemove hperm hupd hfrom' (by simp) hto hsrc' hU' hfits.1
    have hD : ((D ++ kept.map before ++ added.map (p.getD fun _ => true)).length : Int) = c.to_ := by
      rw [length_append, length_map, hto, hfrom']
      omega
    obtain ⟨s', cap', G, hs', h', hG, hflag⟩ := ih
      (D := D ++ kept.map before ++ added.map (p.getD fun _ => true)) (U := U ++ kept ++ added)
      (by rw [hD]; exact ht') (fun d hd => hplain d (.tail _ hd))
      (by rw [hsrc']; simp only [append_assoc])
      (by
        simp only [length_append, length_map] at hU' ⊢
        omega) h1 (by rw [ensured_idem]; exact hfits.2)
    refine ⟨s', cap', kept.map before ++ added.map (p.getD fun _ => true) ++ G, ?_, ?_, ?_, ?_⟩
    · have hsub : Returns (subChanged c) s () s1 := by
        rw [subChanged, SubChange.wasPermutated, hperm, hupd]
        exact hs1
      exact hsub.bind hs'
    · simpa only [append_assoc] using h'
    · simp only [length_append, length_map, hG]
    · intro j e he
      have hcov := covers_cons_eq (i := (D.length : Int) + j) hplaced
      by_cases hk : j < kept.length
      · -- a kept position before the sub-change
        right
        rw [append_assoc, getElem?_append_left hk] at he
        refine ⟨?_, hcov.1 (by omega)⟩
        rw [append_assoc, getElem?_append_left (by rw [length_map]; exact hk),
          getElem?_map, he]
        rfl
      by_cases ha : j < kept.length + added.length
      · -- an added position
        left
        rw [append_assoc, getElem?_append_right (by omega),
          getElem?_append_left (by omega)] at he
        rw [append_assoc, getElem?_append_right (by rw [length_map]; omega),
          getElem?_append_left (by rw [length_map, length_map]; omega),
          length_map, getElem?_map, he]
        rfl
      · -- behind the sub-change
        have hlen : (kept ++ added).length ≤ j := by
          rw [length_append]
          omega
        rw [getElem?_append_right hlen] at he
        have hj := hflag (j - (kept ++ added).length) e he
        have hpos : ((D ++ kept.map before ++ added.map (p.getD fun _ => true)).length : Int) +
            ((j - (kept ++ added).length : Nat) : Int) = D.length + j := by
          rw [hD, hto, hfrom]
          rw [length_append] at hlen ⊢
          omega
        rw [hpos] at hj
        have hget : (kept.map before ++ added.map (p.getD fun _ => true) ++ G)[j]?
            = G[j - (kept ++ added).length]? := by
          rw [getElem?_append_right (by
            simp only [length_append, length_map] at hlen ⊢
            omega)]
          congr 1
          simp only [length_append, length_map]
        rw [hget, hcov.2.2 (by
          rw [hto, hfrom]
          rw [length_append] at hlen
          omega)]
        exact hj

theorem Showing.updates {us : List (SubChange E)} {F : List Bool}
    (hus : ∀ c ∈ us, c.perm = [] ∧ c.updated = true)
    (hrngs : ∀ c ∈ us, 0 ≤ c.from_ ∧ c.from_ ≤ c.to_ ∧ c.to_ ≤ src.length)
    (hF : F.length = src.length)
    (h : Showing src p cap (trueIndices 0 F).length (trueIndices 0 F) s) :
    ∃ s' cap' G, Returns (us.forM subChanged) s () s' ∧
      Showing src p cap' (trueIndices 0 G).length (trueIndices 0 G) s' ∧
      G.length = src.length ∧
      ∀ (j : Nat) (e : E), src[j]? = some e → G[j]? = some ((p.getD fun _ => true) e) ∨
        (G[j]? = F[j]? ∧ covers us j = false) := by
  induction us generalizing F s cap with
  | nil => exact ⟨s, cap, F, rfl, h, hF, fun j e _ => Or.inr ⟨rfl, rfl⟩⟩
  | cons c us ih =>
    obtain ⟨hperm, hupd⟩ := hus c mem_cons_self
    obtain ⟨hr1, hr2, hr3⟩ := hrngs c mem_cons_self
    obtain ⟨a, ha⟩ : ∃ a : Nat, c.from_ = a := ⟨c.from_.toNat, by omega⟩
    obtain ⟨m, hm⟩ : ∃ m : Nat, c.to_ = c.from_ + m := ⟨(c.to_ - c.from_).toNat, by omega⟩
    -- the flags and the source, split around the range
    have hspl : ∀ {α : Type} (L : List α), L.length = src.length →
        L = L.take a ++ (L.drop a).take m ++ L.drop (a + m) ∧ (L.take a).length = a ∧
          ((L.drop a).take m).length = m := by
      intro α L hL
      refine ⟨?_, ?_, ?_⟩
      · rw [append_assoc, ← drop_drop, take_append_drop, take_append_drop]
      · rw [length_take]
        omega
      · rw [length_take, length_drop]
        omega
    obtain ⟨hFs, hF1, hF2⟩ := hspl F hF
    obtain ⟨hss, hs1, hs2⟩ := hspl src rfl
    rw [hFs] at h
    obtain ⟨s1, hret, h1⟩ := h.update (c := c) (U := src.take a) (N := (src.drop a).take m)
      (V := src.drop (a + m)) (by omega) (by omega) (by rw [← append_assoc]; exact hss)
      (by omega) (by omega) (by rw [← hFs]; exact hF)
    have hF' : (F.take a ++ ((src.drop a).take m).map (p.getD fun _ => true) ++
        F.drop (a + m)).length = src.length := by
      simp only [length_append, length_map, length_drop] at *
      omega
    obtain ⟨s', cap', G, hs', h', hG, hflag⟩ := ih (fun d hd => hus d (.tail _ hd))
      (fun d hd => hrngs d (.tail _ hd)) hF' h1
    refine ⟨s', cap', G, ?_, h', hG, ?_⟩
    · have hsub : Returns (subChanged c) s () s1 := by
        rw [subChanged, SubChange.wasPermutated, hperm, hupd]
        exact hret
      exact hsub.bind hs'
    · intro j e he
      rcases hflag j e he with hnow | ⟨hsame, hcov⟩
      · exact Or.inl hnow
      by_cases hj1 : j < a
      · right
        refine ⟨?_, ?_⟩
        · rw [hsame, append_assoc, getElem?_append_left (by omega),
            getElem?_take_of_lt hj1]
        · rw [covers, any_cons, Bool.or_eq_false_iff]
          exact ⟨by simp; omega, hcov⟩
      by_cases hj2 : j < a + m
      · left
        rw [hsame, append_assoc, getElem?_append_right (by omega),
          getElem?_append_left (by rw [length_map]; omega), getElem?_map,
          getElem?_take_of_lt (by omega), getElem?_drop, hF1]
        have hidx : a + (j - a) = j := by omega
        rw [hidx, he]
        rfl
      · right
        refine ⟨?_, ?_⟩
        · rw [hsame, getElem?_append_right (by
            simp only [length_append, length_map]
            omega), getElem?_drop]
          congr 1
          simp only [length_append, length_map]
          omega
        · rw [covers, any_cons, Bool.or_eq_false_iff]
          exact ⟨by simp; omega, hcov⟩

end Changes

end FilteredList

end OpenJfx.Transformation
