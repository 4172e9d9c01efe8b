/-
  OpenJfx.Lib.ForestMerge

  Merging ordered forests as tries: a node of the source goes under the node of the level with the
  same value, or behind the last one.  The paths of the result are those of both, siblings stay
  different, and every level of the target stays in front of what is new.
-/

import OpenJfx.Lib.Forest
import Mathlib.Data.Set.Basic

namespace OpenJfx.Forest

open List

variable {α β : Type}

/-! ## Paths and levels -/

/-- The values from a root downwards. -/
inductive IsPath : Forest α → List α → Prop
  | nil (F : Forest α) : IsPath F []
  | child {a : α} {child sibling : Forest α} {p : List α} :
      IsPath child p → IsPath (node a child sibling) (a :: p)
  | sibling {a : α} {child sibling : Forest α} {p : List α} :
      IsPath sibling p → IsPath (node a child sibling) p

variable {p : List α}

theorem isPath_nil_iff : IsPath nil p ↔ p = [] := by
  constructor
  · intro h
    cases h
    rfl
  · rintro rfl
    exact .nil _

theorem isPath_node_iff {a : α} {child sibling : Forest α} : IsPath (node a child sibling) p ↔
      (∃ q, p = a :: q ∧ IsPath child q) ∨ IsPath sibling p := by
  constructor
  · intro h
    cases h with
    | nil => exact Or.inr (.nil _)
    | child h => exact Or.inl ⟨_, rfl, h⟩
    | sibling h => exact Or.inr h
  · rintro (⟨q, rfl, h⟩ | h)
    · exact .child h
    · exact .sibling h

theorem IsPath.of_append {F : Forest α} {q : List α} (h : IsPath F (p ++ q)) : IsPath F p := by
  induction F generalizing p with
  | nil =>
    rw [isPath_nil_iff, append_eq_nil_iff] at h
    rw [h.1]
    exact .nil _
  | node a child sibling ihc ihs =>
    rcases isPath_node_iff.mp h with ⟨r, hr, hc⟩ | hs
    · cases p with
      | nil => exact .nil _
      | cons b p =>
        rw [cons_append, List.cons.injEq] at hr
        obtain ⟨rfl, rfl⟩ := hr
        exact .child (ihc hc)
    · exact .sibling (ihs hs)

/-- The values of the roots. -/
def roots : Forest α → List α
  | nil => []
  | node a _ sibling => a :: sibling.roots

/-- No two siblings have the same value. -/
def Distinct : Forest α → Prop
  | nil => True
  | node a child sibling => a ∉ sibling.roots ∧ child.Distinct ∧ sibling.Distinct

/-- Every level starts one of the second forest. -/
inductive Extends : Forest α → Forest α → Prop
  | nil (F : Forest α) : Extends nil F
  | node {a : α} {child sibling child' sibling' : Forest α} :
      Extends child child' → Extends sibling sibling' →
      Extends (node a child sibling) (node a child' sibling')

theorem Extends.refl (F : Forest α) : Extends F F := by
  induction F with
  | nil => exact .nil _
  | node a child sibling ihc ihs => exact .node ihc ihs

theorem Extends.trans {F G H : Forest α} (h : Extends F G) (h' : Extends G H) : Extends F H := by
  induction h generalizing H with
  | nil => exact .nil _
  | node _ _ ihc ihs =>
    cases h' with
    | node hc hs => exact .node (ihc hc) (ihs hs)

/-! ## Inserting a node -/

section Merge

variable [DecidableEq α]

/-- `below` changes the children of an equal node. -/
def insertNode (a : α) (child : Forest α) (below : Forest α → Forest α) : Forest α → Forest α
  | nil => node a child nil
  | node b child' sibling =>
    if a = b then node b (below child') sibling
    else node b child' (insertNode a child below sibling)

section Insert

variable {a : α} {child : Forest α} {below : Forest α → Forest α}

theorem insertNode_isPath (hbelow : ∀ F p, IsPath (below F) p ↔ IsPath F p ∨ IsPath child p)
    (F : Forest α) (p : List α) : IsPath (insertNode a child below F) p ↔
      IsPath F p ∨ ∃ q, p = a :: q ∧ IsPath child q := by
  induction F with
  | nil => rw [insertNode, isPath_node_iff, isPath_nil_iff, or_comm]
  | node b child' sibling _ ihs =>
    rw [insertNode]
    split
    · next h =>
      subst h
      rw [isPath_node_iff, isPath_node_iff]
      simp only [hbelow, and_or_left, exists_or]
      rw [or_right_comm]
    · rw [isPath_node_iff, isPath_node_iff, ihs, or_assoc]

theorem mem_roots_insertNode (F : Forest α) (b : α) :
    b ∈ (insertNode a child below F).roots ↔ b ∈ F.roots ∨ b = a := by
  induction F with
  | nil => simp [insertNode, roots]
  | node c child' sibling _ ihs =>
    rw [insertNode]
    split
    · next h =>
      subst h
      rw [roots, roots, mem_cons]
      tauto
    · rw [roots, roots, mem_cons, mem_cons, ihs, or_assoc]

theorem insertNode_distinct (hbelow : ∀ F : Forest α, F.Distinct → (below F).Distinct)
    (hchild : child.Distinct) (F : Forest α) (h : F.Distinct) :
    (insertNode a child below F).Distinct := by
  induction F with
  | nil => exact ⟨by simp [roots], hchild, trivial⟩
  | node b child' sibling _ ihs =>
    obtain ⟨hb, hc, hs⟩ := h
    rw [insertNode]
    split
    · exact ⟨hb, hbelow child' hc, hs⟩
    · next hne =>
      refine ⟨?_, hc, ihs hs⟩
      rw [mem_roots_insertNode, not_or]
      exact ⟨hb, fun h => hne h.symm⟩

theorem insertNode_extends (hbelow : ∀ F, Extends F (below F)) (F : Forest α) :
    Extends F (insertNode a child below F) := by
  induction F with
  | nil => exact .nil _
  | node b child' sibling _ ihs =>
    rw [insertNode]
    split
    · exact .node (hbelow child') (.refl _)
    · exact .node (.refl _) ihs

theorem insertNode_ofLevel_append {A : List (α × Forest α)} (h : ∀ x ∈ A, a ≠ x.1) :
    insertNode a child below (ofLevel A) = ofLevel (A ++ [(a, child)]) := by
  induction A with
  | nil => rfl
  | cons x A ih =>
    obtain ⟨b, child'⟩ := x
    rw [ofLevel, insertNode, if_neg (h (b, child') mem_cons_self),
      ih fun y hy => h y (.tail _ hy)]
    rfl

theorem insertNode_ofLevel_mid {A B : List (α × Forest α)} {child' : Forest α}
    (h : ∀ x ∈ A, a ≠ x.1) :
    insertNode a child below (ofLevel (A ++ (a, child') :: B)) =
      ofLevel (A ++ (a, below child') :: B) := by
  induction A with
  | nil => simp [ofLevel, insertNode]
  | cons x A ih =>
    obtain ⟨b, child''⟩ := x
    rw [cons_append, ofLevel, insertNode, if_neg (h (b, child'') mem_cons_self),
      ih fun y hy => h y (.tail _ hy)]
    rfl

end Insert

/-! ## Merging -/

/-- Where there is nothing to merge into, the source is taken as it is. -/
def orSource (source : Forest α) (merged : Forest α → Forest α) (F : Forest α) : Forest α :=
  if F = nil then source else merged F

section OrSource

variable {source : Forest α} {merged : Forest α → Forest α}

theorem orSource_isPath (h : ∀ F p, IsPath (merged F) p ↔ IsPath F p ∨ IsPath source p)
    (F : Forest α) (p : List α) :
    IsPath (orSource source merged F) p ↔ IsPath F p ∨ IsPath source p := by
  rw [orSource]
  split
  · next hnil =>
    rw [hnil, isPath_nil_iff]
    refine ⟨Or.inr, fun h => h.elim ?_ id⟩
    rintro rfl
    exact .nil _
  · exact h F p

theorem orSource_distinct (h : ∀ F : Forest α, F.Distinct → (merged F).Distinct)
    (hsource : source.Distinct) (F : Forest α) (hF : F.Distinct) :
    (orSource source merged F).Distinct := by
  rw [orSource]
  split
  · exact hsource
  · exact h F hF

theorem orSource_extends (h : ∀ F, Extends F (merged F)) (F : Forest α) :
    Extends F (orSource source merged F) := by
  rw [orSource]
  split
  · next hnil =>
    rw [hnil]
    exact .nil _
  · exact h F

end OrSource

/-- The nodes of the source, inserted one after the other. -/
def merge : Forest α → Forest α → Forest α
  | nil, F => F
  | node a child sibling, F =>
    merge sibling (insertNode a child (orSource child (merge child)) F)

theorem merge_isPath (source F : Forest α) (p : List α) :
    IsPath (merge source F) p ↔ IsPath F p ∨ IsPath source p := by
  induction source generalizing F p with
  | nil =>
    rw [merge, isPath_nil_iff]
    refine ⟨Or.inl, fun h => h.elim id ?_⟩
    rintro rfl
    exact .nil _
  | node a child sibling ihc ihs =>
    rw [merge, ihs, insertNode_isPath (orSource_isPath ihc), isPath_node_iff, or_assoc]

theorem merge_distinct (source F : Forest α) (hsource : source.Distinct) (h : F.Distinct) :
    (merge source F).Distinct := by
  induction source generalizing F with
  | nil => exact h
  | node a child sibling ihc ihs =>
    obtain ⟨-, hc, hs⟩ := hsource
    have hbelow := orSource_distinct (fun F hF => ihc F hc hF) hc
    exact ihs _ hs (insertNode_distinct hbelow hc F h)

theorem merge_extends (source F : Forest α) : Extends F (merge source F) := by
  induction source generalizing F with
  | nil => exact .refl F
  | node a child sibling ihc ihs =>
    exact (insertNode_extends (orSource_extends ihc) F).trans (ihs _)

end Merge

end OpenJfx.Forest
