/-
  OpenJfx.Controls.TreeUtil.Basic

  Model of `javafx.scene.control.TreeUtil`: from the number of a row to the item in it
  and back.  Items are compared with `equals`, which is identity.

  A result `none` is an exception: a recursion deeper than `stack` calls, or an access to
  a null child.  The loop of `getRow` up the parents makes at most `rounds` rounds.
-/

import OpenJfx.Controls.TreeItem.Basic

namespace OpenJfx.Controls.TreeUtil

open OpenJfx.Collections TreeItems

variable {I : Type} [DecidableEq I]

/-- The answer to a call, and the state after it. -/
abbrev Answer (I α : Type) := Option (α × TreeItems I)

/-- 0 without an item, 1 for a leaf. -/
def getExpandedDescendantCount (treeItemCountDirty : Bool) (stack : Nat) (node : Option I)
    (s : TreeItems I) : Answer I Int :=
  match node with
  | none => some (0, s)
  | some node =>
    if s.leaf node then some (1, s) else s.getExpandedDescendentCount treeItemCountDirty stack node

/-- The loop of `getItem`, with the calls on a child. -/
def getItemLoop (count : I → TreeItems I → Answer I Int)
    (getItem : I → Int → TreeItems I → Answer I (Option I)) :
    List (Option I) → Int → TreeItems I → Answer I (Option I)
  | [], _, s => some (none, s)
  | child :: children, idx, s =>
    if idx = 0 then some (child, s)
    else
      match child with
      | none => none
      | some child =>
        if s.leaf child then getItemLoop count getItem children (idx - 1) s
        else
          match s.isExpanded child with
          | (false, s) => getItemLoop count getItem children (idx - 1) s
          | (true, s) =>
            match count child s with
            | none => none
            | some (expandedChildCount, s) =>
              if idx ≥ expandedChildCount then
                getItemLoop count getItem children (idx - expandedChildCount) s
              else
                match getItem child idx s with
                | none => none
                | some (some result, s) => some (some result, s)
                | some (none, s) => getItemLoop count getItem children (idx - 1) s

/-- `getItem(parent, itemIndex, treeItemCountDirty)`, where the parent is not null. -/
def getItemBelow (treeItemCountDirty : Bool) :
    Nat → I → Int → TreeItems I → Answer I (Option I)
  | 0, _, _, _ => none
  | stack + 1, parent, itemIndex, s =>
    if itemIndex = 0 then some (some parent, s)
    else
      match getExpandedDescendantCount treeItemCountDirty stack (some parent) s with
      | none => none
      | some (count, s) =>
        if itemIndex ≥ count then some (none, s)
        else
          getItemLoop (fun child => getExpandedDescendantCount treeItemCountDirty stack (some child))
            (getItemBelow treeItemCountDirty stack) (s.content parent) (itemIndex - 1) s

/-- The item at a row below `parent`. -/
def getItem (treeItemCountDirty : Bool) (stack : Nat) (parent : Option I) (itemIndex : Int)
    (s : TreeItems I) : Answer I (Option I) :=
  match parent with
  | none => some (none, s)
  | some parent => getItemBelow treeItemCountDirty stack parent itemIndex s

local instance lawfulBEq : LawfulBEq (Option I) := inferInstance

/-- The siblings before an item, from the nearest one on. -/
def siblingsBefore (siblings : List (Option I)) (i : I) : List (Option I) :=
  if some i ∈ siblings then (siblings.take (siblings.idxOf (some i))).reverse else []

/-- The rows so far, and whether the root was among them. -/
def countSiblings (treeItemCountDirty : Bool) (stack : Nat) (root : Option I) :
    List (Option I) → Int → TreeItems I → Answer I (Bool × Int)
  | [], row, s => some ((false, row), s)
  | none :: siblings, row, s => countSiblings treeItemCountDirty stack root siblings row s
  | some sibling :: siblings, row, s =>
    match getExpandedDescendantCount treeItemCountDirty stack (some sibling) s with
    | none => none
    | some (count, s) =>
      if root = some sibling then some ((true, row + count), s)
      else countSiblings treeItemCountDirty stack root siblings (row + count) s

/-- The loop of `getRow` up the parents, and the line after it. -/
def getRowLoop (treeItemCountDirty : Bool) (stack : Nat) (root : Option I) (isShowRoot : Bool) :
    Nat → I → Option I → Int → TreeItems I → Answer I Int
  | 0, _, _, _, _ => none
  | rounds + 1, i, p, row, s =>
    if root = some i then
      some (if p = none ∧ row = 0 then -1 else if isShowRoot then row else row - 1, s)
    else
      match p with
      | none => some (if row = 0 then -1 else if isShowRoot then row else row - 1, s)
      | some p =>
        match s.isExpanded p with
        | (false, s) => some (-1, s)
        | (true, s) =>
          match countSiblings treeItemCountDirty stack root (siblingsBefore (s.content p) i) row s with
          | none => none
          | some ((true, row), s) => some (if isShowRoot then row else -1, s)
          | some ((false, row), s) =>
            getRowLoop treeItemCountDirty stack root isShowRoot rounds p (s.parent p) (row + 1) s

/-- The row of an item, by walking up to the root. -/
def getRow (treeItemCountDirty : Bool) (stack rounds : Nat) (item root : Option I)
    (isShowRoot : Bool) (s : TreeItems I) : Answer I Int :=
  match item with
  | none => some (-1, s)
  | some item =>
    if isShowRoot ∧ root = some item then some (0, s)
    else getRowLoop treeItemCountDirty stack root isShowRoot rounds item (s.parent item) 0 s

end OpenJfx.Controls.TreeUtil
