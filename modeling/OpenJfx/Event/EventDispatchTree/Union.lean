/-
  OpenJfx.Event.EventDispatchTree.Union

  `mergeTree` unites two trees as tries.  A tree is read along `getChildIndex` and `nextSiblings`,
  with the tail under every leaf; after `mergeTree` it has the paths of both, no two siblings have
  become alike, and the old siblings come first.
-/

import OpenJfx.Event.EventDispatchTree.Merge

namespace OpenJfx.Event.EventDispatchTreeImpl

open Forest Function

variable {D N : Type} {t s : EventDispatchTreeImpl D} {o : Option Nat} {F G : Forest D}

/-- The forest that a reader of the tree meets. -/
def Reads (t : EventDispatchTreeImpl D) (F : Forest D) : Prop :=
  Walks t t.cells.length t.levelIndex F

theorem Reads.unique (h : Reads t F) (h' : Reads t G) : F = G := Walks.unique h h'

/-- The paths of `F`, in order, and `G`; siblings differ. -/
structure IsUnion (F G H : Forest D) : Prop where
  closed : ∀ p q, IsPath H (p ++ q) → IsPath H p
  paths : { p | IsPath H p } = { p | IsPath F p } ∪ { p | IsPath G p }
  distinct : F.Distinct → G.Distinct → H.Distinct
  extends_left : Extends F H

variable [DecidableEq D]

theorem isUnion_merge (F G : Forest D) : IsUnion F G (orSource G (merge G) F) where
  closed := fun _ _ h => h.of_append
  paths := by
    ext p
    exact orSource_isPath (merge_isPath G) F p
  distinct := fun hF hG => orSource_distinct (merge_distinct G · hG) hG F hF
  extends_left := orSource_extends (merge_extends G) F

theorem Built.mergeTree_reads (h : Built t) (hs : Built s) :
    ∃ F G H t' enough, Reads t F ∧ Reads s G ∧
      (∀ fuel ≥ enough, t.mergeTree fuel s = some t') ∧ Built t' ∧ Reads t' H ∧
      IsUnion F G H := by
  obtain ⟨R, tail, ht⟩ := h.represents
  obtain ⟨S, stail, hS⟩ := hs.represents
  obtain ⟨t', R', enough, hrun, hrep, hsame⟩ := ht.mergeTree hS
  refine ⟨described R tail, described S stail, described R' [], t', enough, ht.walks, hS.walks,
    hrun, .mergeTree h hs hrun, hrep.walks, ?_⟩
  have hall : described R' [] = R'.map Prod.snd := by
    rw [described, chain]
    cases R' with
    | nil => rfl
    | node a child sibling => rw [under_of_ne _ (by simp), hang_nil]
  rw [hall, hsame]
  exact isUnion_merge _ _

/-- `mergeTree` called on the tree `t` of several trees. -/
def mergeTreeOf [DecidableEq N] (fuel : Nat) (trees : N → EventDispatchTreeImpl D) (t s : N) :
    Option (N → EventDispatchTreeImpl D) :=
  ((trees t).mergeTree fuel (trees s)).map (Function.update trees t)

/-- The tree is united with the other one, which stays as it is. -/
theorem mergeTreeOf_isUnion [DecidableEq N] (trees : N → EventDispatchTreeImpl D)
    (hbuilt : ∀ n, Built (trees n)) {t s : N} (hne : s ≠ t) :
    ∃ F G H trees' enough, Reads (trees t) F ∧ Reads (trees s) G ∧
      (∀ fuel ≥ enough, mergeTreeOf fuel trees t s = some trees') ∧
      (∀ n, Built (trees' n)) ∧ Reads (trees' t) H ∧ IsUnion F G H ∧ trees' s = trees s := by
  obtain ⟨F, G, H, t', enough, hF, hG, hrun, hbuilt', hH, hunion⟩ :=
    (hbuilt t).mergeTree_reads (hbuilt s)
  refine ⟨F, G, H, Function.update trees t t', enough, hF, hG, ?_, ?_, ?_, hunion,
    update_of_ne hne _ _⟩
  · intro fuel hfuel
    rw [mergeTreeOf, hrun fuel hfuel, Option.map_some]
  · intro n
    by_cases hn : n = t
    · rw [hn, update_self]
      exact hbuilt'
    · rw [update_of_ne hn]
      exact hbuilt n
  · rw [update_self]
    exact hH

/-- A root with a tail, and a tail alone. -/
def twoTrees (n : Bool) : EventDispatchTreeImpl String :=
  if n then (new.prepend "root").append "tail" else (new.append "root").append "other"

theorem mergeTreeOf_isUnion_twoTrees :
    ∃ F G H trees' enough, Reads (twoTrees true) F ∧ Reads (twoTrees false) G ∧
      (∀ fuel ≥ enough, mergeTreeOf fuel twoTrees true false = some trees') ∧
      (∀ n, Built (trees' n)) ∧ Reads (trees' true) H ∧ IsUnion F G H ∧
      trees' false = twoTrees false := by
  refine mergeTreeOf_isUnion twoTrees (fun n => ?_) (by decide)
  cases n with
  | true => exact (Built.new.prepend "root").append "tail"
  | false => exact (Built.new.append "root").append "other"

end OpenJfx.Event.EventDispatchTreeImpl
