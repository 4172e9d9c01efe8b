/-
  OpenJfx.Event.EventDispatchTree.Text

  `toString` writes the forest a walk through the tree meets: the text of a walk
  depends on its forest alone, and the dispatchers stand in it in depth-first order.
-/

import OpenJfx.Event.EventDispatchTree.Cells

namespace OpenJfx.Event.EventDispatchTreeImpl

open Forest Option

variable {D : Type} {t : EventDispatchTreeImpl D} {n : Nat}

/-- The subtrees of a level in brackets, with commas between them. -/
def bracketed : List (List (Piece D)) → List (Piece D)
  | [] => []
  | first :: others =>
    .text "(" :: (first ++ others.flatMap (fun subtree => .text "," :: subtree) ++ [.text ")"])

/-- The texts of the subtrees of a level. -/
def subtreeTexts : Forest D → List (List (Piece D))
  | .nil => []
  | .node d child sibling =>
    (match subtreeTexts child with
      | [] => [.dispatcher d]
      | level => .dispatcher d :: .text "->" :: bracketed level) :: subtreeTexts sibling

theorem dispatchersOf_append (l l' : List (Piece D)) :
    dispatchersOf (l ++ l') = dispatchersOf l ++ dispatchersOf l' := List.filterMap_append

@[simp] theorem dispatchersOf_text (s : String) (l : List (Piece D)) :
    dispatchersOf (.text s :: l) = dispatchersOf l := rfl

@[simp] theorem dispatchersOf_dispatcher (d : D) (l : List (Piece D)) :
    dispatchersOf (.dispatcher d :: l) = d :: dispatchersOf l := rfl

theorem dispatchersOf_commas (l : List (List (Piece D))) :
    dispatchersOf (l.flatMap fun subtree => .text "," :: subtree) = l.flatMap dispatchersOf := by
  induction l with
  | nil => rfl
  | cons x l ih =>
    rw [List.flatMap_cons, List.cons_append, dispatchersOf_text, dispatchersOf_append, ih,
      List.flatMap_cons]

theorem dispatchersOf_bracketed (l : List (List (Piece D))) :
    dispatchersOf (bracketed l) = l.flatMap dispatchersOf := by
  cases l with
  | nil => rfl
  | cons first others =>
    rw [bracketed, dispatchersOf_text, dispatchersOf_append, dispatchersOf_append,
      dispatchersOf_commas, List.flatMap_cons]
    exact List.append_nil _

theorem dispatchersOf_subtreeTexts (F : Forest D) :
    (subtreeTexts F).flatMap dispatchersOf = F.preorder := by
  induction F with
  | nil => rfl
  | node d child sibling ihc ihs =>
    rw [subtreeTexts, List.flatMap_cons, ihs, preorder_node, ← ihc]
    split
    case h_1 hnil => rw [hnil]; rfl
    case h_2 hlevel =>
      rw [dispatchersOf_dispatcher, dispatchersOf_text, dispatchersOf_bracketed, List.cons_append]

theorem subtreeTexts_eq_nil_iff (F : Forest D) : subtreeTexts F = [] ↔ F = nil := by
  cases F <;> simp [subtreeTexts]

theorem append_spec (F : Forest D) :
    (∀ index, Walks t n (some index) F → ∀ fuel, 2 * F.size + 1 ≤ fuel →
      appendTreeLevel t fuel index = some (bracketed (subtreeTexts F))) ∧
    (∀ o, Walks t n o F → ∀ fuel, 2 * F.size + 1 ≤ fuel →
      appendSiblings t fuel o =
        some ((subtreeTexts F).flatMap fun subtree => .text "," :: subtree)) := by
  induction F with
  | nil =>
    constructor
    · intro index hwalk
      exact absurd hwalk (by simp [Walks])
    · intro o hwalk fuel hfuel
      rcases fuel with _ | fuel
      · omega
      obtain rfl : o = none := hwalk
      rfl
  | node d child sibling ihc ihs =>
    -- the text of the first subtree
    have hsubtree : ∀ index, Walks t n (some index) (node d child sibling) →
        ∀ fuel, 2 * child.size + 2 ≤ fuel → ∃ first, appendSubtree t fuel index = some first ∧
          subtreeTexts (node d child sibling) = first :: subtreeTexts sibling := by
      intro index hwalk fuel hfuel
      rcases fuel with _ | fuel
      · omega
      obtain ⟨i, cell, c, hi, -, hcell, hd, hchild, hc, -⟩ := hwalk
      obtain rfl : index = i := some.inj hi
      rw [appendSubtree, hcell]
      simp only [bind_eq_bind, bind_some, hchild, hd]
      cases c with
      | none =>
        have hnil : child = nil := by
          cases child with
          | nil => rfl
          | node => exact absurd hc (by simp [Walks])
        exact ⟨[.dispatcher d], rfl, by rw [hnil]; rfl⟩
      | some k =>
        have hne : subtreeTexts child ≠ [] := by
          rw [Ne, subtreeTexts_eq_nil_iff]
          rintro rfl
          exact absurd hc (by simp [Walks])
        refine ⟨.dispatcher d :: .text "->" :: bracketed (subtreeTexts child), ?_, ?_⟩
        · simp only [ihc.1 k hc fuel (by omega), bind_some]
          rfl
        · rw [subtreeTexts]
          split
          case h_1 hnil => exact absurd hnil hne
          case h_2 => rfl
    constructor
    · intro index hwalk fuel hfuel
      rw [size_node] at hfuel
      rcases fuel with _ | fuel
      · omega
      obtain ⟨first, hfst, htexts⟩ := hsubtree index hwalk fuel (by omega)
      obtain ⟨i, cell, c, hi, -, hcell, -, -, -, hs⟩ := hwalk
      obtain rfl : index = i := some.inj hi
      rw [appendTreeLevel, hfst]
      simp only [bind_eq_bind, bind_some, hcell, ihs.2 _ hs fuel (by omega)]
      rw [htexts]
      rfl
    · intro o hwalk fuel hfuel
      rw [size_node] at hfuel
      rcases fuel with _ | fuel
      · omega
      obtain ⟨index, cell, c, rfl, -, hcell, -, -, -, hs⟩ := id hwalk
      obtain ⟨first, hfst, htexts⟩ := hsubtree index hwalk fuel (by omega)
      rw [appendSiblings, hfst]
      simp only [bind_eq_bind, bind_some, hcell, ihs.2 _ hs fuel (by omega)]
      rw [htexts, List.flatMap_cons]
      rfl

def textOf (F : Forest D) : List (Piece D) :=
  match F with
  | .nil => [.text "()"]
  | .node d child sibling => bracketed (subtreeTexts (.node d child sibling))

theorem dispatchersOf_textOf (F : Forest D) : dispatchersOf (textOf F) = F.preorder := by
  cases F with
  | nil => rfl
  | node d child sibling =>
    rw [textOf, dispatchersOf_bracketed, dispatchersOf_subtreeTexts]

theorem toString_of_walks {F : Forest D} (h : Walks t n t.levelIndex F) {fuel : Nat}
    (hfuel : 2 * F.size + 1 ≤ fuel) : t.toString fuel = some (textOf F) := by
  unfold toString
  cases hl : t.levelIndex with
  | none =>
    rw [hl] at h
    cases F with
    | nil => rfl
    | node => exact absurd h (by simp [Walks])
  | some index =>
    rw [hl] at h
    cases F with
    | nil => exact absurd h (by simp [Walks])
    | node d child sibling => exact (append_spec _).1 index h fuel hfuel

end OpenJfx.Event.EventDispatchTreeImpl
