/-
  OpenJfx.Controls.TreeItem.Basic

  `TreeItem`: the child lists, the links to the parents that follow them, and the cached number of
  rows.  The flag `valid` is that of the property `expanded`.  Values, graphics and sorting are
  left out; methods call themselves at most `stack` calls deep.
-/

import OpenJfx.Collections.ObservableListWrapper.Notification

namespace OpenJfx.Controls

open OpenJfx.Collections Function

variable {I : Type}

/-- The fields of all items.  A child may be null. -/
structure TreeItems (I : Type) where
  children : I → ObservableListWrapper (Option I) Unit
  parent : I → Option I
  parentLinkCount : I → Int
  leaf : I → Bool
  expanded : I → Bool
  valid : I → Bool
  expandedDescendentCount : I → Int
  expandedDescendentCountDirty : I → Bool

namespace TreeItems

def new : TreeItems I where
  children := fun _ => ⟨[], ListChangeBuilder.new, (), true, []⟩
  parent := fun _ => none
  parentLinkCount := fun _ => 0
  leaf := fun _ => true
  expanded := fun _ => false
  valid := fun _ => true
  expandedDescendentCount := fun _ => 1
  expandedDescendentCountDirty := fun _ => true

/-- The content of `getChildren()`. -/
def content (s : TreeItems I) (i : I) : List (Option I) := (s.children i).backingList

/-! ## Events -/

/-- `buildEventDispatchChain`: the item after its ancestors. -/
def dispatchChain (s : TreeItems I) : Nat → I → Option (List I)
  | 0, _ => none
  | stack + 1, i =>
    match s.parent i with
    | some p => (dispatchChain s stack p).map (· ++ [i])
    | none => some [i]

/-- `fireEvent`; an endless chain overflows the stack. -/
def fireEvent [DecidableEq I] (stack : Nat) (i : I) (s : TreeItems I) : TreeItems I :=
  match s.dispatchChain stack i with
  | some chain =>
    { s with
      expandedDescendentCountDirty := fun j => s.expandedDescendentCountDirty j || decide (j ∈ chain) }
  | none => s

/-! ## Children -/

section Children

variable [DecidableEq I]

/-- One round of `updateChildrenParent`. -/
def updateChildParent (newParent : Option I) (s : TreeItems I) : Option I → TreeItems I
  | none => s
  | some treeItem =>
    let currentParent := s.parent treeItem
    let parent := if s.parentLinkCount treeItem = 0 then update s.parent treeItem newParent
      else s.parent
    let parentMatch : Bool := currentParent ≠ none ∧ currentParent = newParent
    let count := s.parentLinkCount treeItem
    let count := if parentMatch then (if newParent = none then count - 1 else count + 1) else count
    { s with
      parent := parent
      parentLinkCount := update s.parentLinkCount treeItem count }

/-- `updateChildParent` of each. -/
def updateChildrenParent (treeItems : List (Option I)) (newParent : Option I) (s : TreeItems I) :
    TreeItems I :=
  treeItems.foldl (updateChildParent newParent) s

/-- The parents of what has left and come, the former first. -/
def updateChildren (stack : Nat) (i : I) (c : FiredChange (Option I)) (s : TreeItems I) :
    TreeItems I :=
  let children := s.content i
  let s := { s with leaf := update s.leaf i children.isEmpty }
  let added := c.flatMap (SubChange.getAddedSubList children)
  let removed := c.flatMap SubChange.getRemoved
  let s := s.updateChildrenParent removed none
  let s := s.updateChildrenParent added (some i)
  s.fireEvent stack i

def childrenListener (stack : Nat) (i : I) (s : TreeItems I) (c : FiredChange (Option I)) :
    TreeItems I :=
  updateChildren stack i c
    { s with expandedDescendentCountDirty := update s.expandedDescendentCountDirty i true }

/-- A call on `getChildren()`. -/
def editChildren (stack : Nat) (i : I) (call : ObservableListWrapper.Call (Option I))
    (s : TreeItems I) : TreeItems I :=
  let w := JavaM.exec (call.run ElementCallbacks.none) { s.children i with fired := [] }
  w.fired.foldl (childrenListener stack i) { s with children := update s.children i w }

/-! ## Expanding and counting -/

/-- `isExpanded()`, which validates the property. -/
def isExpanded (i : I) (s : TreeItems I) : Bool × TreeItems I :=
  (s.expanded i, { s with valid := update s.valid i true })

/-- `invalidated()` of the property `expanded`. -/
def expandedInvalidated (stack : Nat) (i : I) (s : TreeItems I) : TreeItems I :=
  if s.leaf i then s else fireEvent stack i (s.isExpanded i).2

/-- The property fires only if it was valid. -/
def setExpanded (stack : Nat) (i : I) (value : Bool) (s : TreeItems I) : TreeItems I :=
  if s.expanded i = value then s
  else
    let s := { s with expanded := update s.expanded i value }
    if s.valid i then
      expandedInvalidated stack i { s with valid := update s.valid i false }
    else s

/-- The loop of `updateExpandedDescendentCount`. -/
def countChildren (count : I → TreeItems I → Option (Int × TreeItems I)) :
    List (Option I) → Int → TreeItems I → Option (Int × TreeItems I)
  | [], n, s => some (n, s)
  | none :: children, n, s => countChildren count children n s
  | some child :: children, n, s =>
    match s.isExpanded child with
    | (true, s) =>
      match count child s with
      | some (m, s) => countChildren count children (n + m) s
      | none => none
    | (false, s) => countChildren count children (n + 1) s

/-- `updateExpandedDescendentCount(reset)`, up to the field it sets. -/
def updateExpandedDescendentCount (count : I → TreeItems I → Option (Int × TreeItems I)) (i : I)
    (s : TreeItems I) : Option (Int × TreeItems I) :=
  if s.leaf i then some (1, s)
  else
    match s.isExpanded i with
    | (true, s) => countChildren count (s.content i) 1 s
    | (false, s) => some (1, s)

/-- The cached count, computed again when dirty; none out of stack. -/
def getExpandedDescendentCount (reset : Bool) :
    Nat → I → TreeItems I → Option (Int × TreeItems I)
  | 0, _, _ => none
  | stack + 1, i, s =>
    if reset || s.expandedDescendentCountDirty i then
      match updateExpandedDescendentCount (getExpandedDescendentCount reset stack) i s with
      | some (n, s) =>
        some (n, { s with
          expandedDescendentCount := update s.expandedDescendentCount i n
          expandedDescendentCountDirty := update s.expandedDescendentCountDirty i false })
      | none => none
    else some (s.expandedDescendentCount i, s)

end Children

end TreeItems

end OpenJfx.Controls
