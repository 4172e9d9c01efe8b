/-
  OpenJfx.Lib.Forest

  Ordered forests with a value at every node, each node with its first child and
  its next sibling.  `hang T F` puts the forest `T` under every leaf of `F`, and
  `chain` is a forest in which every node has one child.

  A level of a forest is the list of its nodes with the forest under each of
  them; `ofLevel` builds the forest of a level.
-/

import Mathlib.Data.List.Basic

namespace OpenJfx

open List

/-- A node has its first child and its next sibling. -/
inductive Forest (α : Type) where
  | nil
  | node (value : α) (child sibling : Forest α)
  deriving DecidableEq

namespace Forest

variable {α β : Type}

def size : Forest α → Nat
  | nil => 0
  | node _ child sibling => child.size + sibling.size + 1

/-- The values in depth-first order. -/
def preorder : Forest α → List α
  | nil => []
  | node a child sibling => a :: (child.preorder ++ sibling.preorder)

def map (f : α → β) : Forest α → Forest β
  | nil => nil
  | node a child sibling => node (f a) (child.map f) (sibling.map f)

/-- A forest in which every node is the only child of the one before. -/
def chain : List α → Forest α
  | [] => nil
  | a :: l => node a (chain l) nil

/-- `T` under every leaf. -/
def hang (T : Forest α) : Forest α → Forest α
  | nil => nil
  | node a nil sibling => node a T (hang T sibling)
  | node a (node b child sibling') sibling =>
    node a (hang T (node b child sibling')) (hang T sibling)

/-- Under every leaf, or `T` itself. -/
def under (T : Forest α) : Forest α → Forest α
  | nil => T
  | node a child sibling => hang T (node a child sibling)

/-- Every node without a child is the last one of its level. -/
def LeavesLast : Forest α → Prop
  | nil => True
  | node _ child sibling => (child = nil → sibling = nil) ∧ child.LeavesLast ∧ sibling.LeavesLast

def ofLevel : List (α × Forest α) → Forest α
  | [] => nil
  | (a, child) :: nodes => node a child (ofLevel nodes)

theorem exists_level (F : Forest α) : ∃ nodes, F = ofLevel nodes := by
  induction F with
  | nil => exact ⟨[], rfl⟩
  | node a child sibling _ ih =>
    obtain ⟨nodes, hnodes⟩ := ih
    exact ⟨(a, child) :: nodes, by rw [hnodes, ofLevel]⟩

@[simp] theorem size_nil : (nil : Forest α).size = 0 := rfl

@[simp] theorem size_node (a : α) (child sibling : Forest α) :
    (node a child sibling).size = child.size + sibling.size + 1 := rfl

@[simp] theorem preorder_nil : (nil : Forest α).preorder = [] := rfl

@[simp] theorem preorder_node (a : α) (child sibling : Forest α) :
    (node a child sibling).preorder = a :: (child.preorder ++ sibling.preorder) := rfl

@[simp] theorem preorder_chain (l : List α) : (chain l).preorder = l := by
  induction l with
  | nil => rfl
  | cons a l ih => rw [chain, preorder_node, ih, preorder_nil, append_nil]

@[simp] theorem size_chain (l : List α) : (chain l).size = l.length := by
  induction l with
  | nil => rfl
  | cons a l ih => rw [chain, size_node, ih, size_nil, length_cons]

theorem map_chain (f : α → β) (l : List α) : (chain l).map f = chain (l.map f) := by
  induction l with
  | nil => rfl
  | cons a l ih => rw [chain, map, ih, map_cons, chain, map]

@[simp] theorem under_nil (T : Forest α) : under T nil = T := rfl

@[simp] theorem hang_node (T : Forest α) (a : α) (child sibling : Forest α) :
    hang T (node a child sibling) = node a (under T child) (hang T sibling) := by
  cases child <;> rfl

theorem under_of_ne (T : Forest α) {F : Forest α} (h : F ≠ nil) : under T F = hang T F := by
  cases F with
  | nil => exact absurd rfl h
  | node a child sibling => rfl

theorem hang_nil (F : Forest α) : hang nil F = F := by
  induction F with
  | nil => rfl
  | node a child sibling ihc ihs =>
    cases child with
    | nil => rw [hang_node, under_nil, ihs]
    | node b c s => rw [hang_node, under_of_ne nil (by simp), ihc, ihs]

theorem map_eq_nil_iff (f : α → β) (F : Forest α) : F.map f = nil ↔ F = nil := by
  cases F <;> simp [map]

theorem map_hang (f : α → β) (T F : Forest α) : (hang T F).map f = hang (T.map f) (F.map f) := by
  induction F with
  | nil => rfl
  | node a child sibling ihc ihs =>
    cases child with
    | nil => simp only [hang_node, under_nil, map, ihs]
    | node b c s =>
      rw [hang_node, under_of_ne T (by simp), map, ihc, ihs]
      rfl

theorem leavesLast_map (f : α → β) (F : Forest α) : (F.map f).LeavesLast ↔ F.LeavesLast := by
  induction F with
  | nil => exact Iff.rfl
  | node a child sibling ihc ihs =>
    rw [map, LeavesLast, LeavesLast, ihc, ihs, map_eq_nil_iff, map_eq_nil_iff]

/-! ## Levels -/

theorem preorder_ofLevel (nodes : List (α × Forest α)) :
    (ofLevel nodes).preorder = nodes.flatMap fun n => n.1 :: n.2.preorder := by
  induction nodes with
  | nil => rfl
  | cons n nodes ih =>
    obtain ⟨a, child⟩ := n
    rw [ofLevel, preorder_node, ih, flatMap_cons, cons_append]

theorem size_ofLevel_append (A B : List (α × Forest α)) :
    (ofLevel (A ++ B)).size = (ofLevel A).size + (ofLevel B).size := by
  induction A with
  | nil => simp [ofLevel]
  | cons a A ih =>
    rw [cons_append, ofLevel, ofLevel, size_node, size_node, ih]
    omega

theorem length_le_size_ofLevel (nodes : List (α × Forest α)) :
    nodes.length ≤ (ofLevel nodes).size := by
  induction nodes with
  | nil => simp [ofLevel]
  | cons n nodes ih =>
    rw [ofLevel, size_node, length_cons]
    omega

theorem map_ofLevel (f : α → β) (nodes : List (α × Forest α)) :
    (ofLevel nodes).map f = ofLevel (nodes.map fun n => (f n.1, n.2.map f)) := by
  induction nodes with
  | nil => rfl
  | cons n nodes ih =>
    obtain ⟨a, child⟩ := n
    rw [ofLevel, map, ih]
    rfl

theorem size_map (f : α → β) (F : Forest α) : (F.map f).size = F.size := by
  induction F with
  | nil => rfl
  | node a child sibling ihc ihs => rw [map, size_node, size_node, ihc, ihs]

end Forest

end OpenJfx
