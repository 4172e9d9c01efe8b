/-
  OpenJfx.Event.EventDispatchTree.Basic

  `com.sun.javafx.event.EventDispatchTreeImpl`: a forest of dispatchers in arrays, with a tail
  that stands under every leaf but is stored once.  The arrays up to `reservedCount` are one list
  of cells, and `NULL_INDEX` is `none`.  The functions run with fuel; they answer `none` when it
  runs out and when an index is out of range.
-/

import OpenJfx.Lib.Forest

namespace OpenJfx.Event

/-- One index of the three arrays. -/
structure Cell (D : Type) where
  dispatcher : D
  nextChild : Option Nat
  nextSibling : Option Nat
  deriving DecidableEq

/-- The arrays as cells, with the ends of the tail. -/
structure EventDispatchTreeImpl (D : Type) where
  cells : List (Cell D)
  rootIndex : Option Nat
  tailFirstIndex : Option Nat
  tailLastIndex : Option Nat
  expandTailFirstPath : Bool
  deriving DecidableEq

namespace EventDispatchTreeImpl

variable {D : Type}

def new : EventDispatchTreeImpl D := ⟨[], none, none, none, false⟩

def setNextChild (t : EventDispatchTreeImpl D) (index : Nat) (child : Option Nat) :
    EventDispatchTreeImpl D :=
  { t with cells := t.cells.modify index fun cell => { cell with nextChild := child } }

def setNextSibling (t : EventDispatchTreeImpl D) (index : Nat) (sibling : Option Nat) :
    EventDispatchTreeImpl D :=
  { t with cells := t.cells.modify index fun cell => { cell with nextSibling := sibling } }

/-- The tail grows by a cell, which becomes the child of the last. -/
def append (t : EventDispatchTreeImpl D) (eventDispatcher : D) : EventDispatchTreeImpl D :=
  let reservedIndex := t.cells.length
  let reserved := { t with cells := t.cells ++ [(⟨eventDispatcher, none, none⟩ : Cell D)] }
  let linked :=
    match t.tailFirstIndex, t.tailLastIndex with
    | none, _ => { reserved with tailFirstIndex := some reservedIndex }
    | some _, some last => reserved.setNextChild last (some reservedIndex)
    -- not reached: the tail has a last cell when it has a first one
    | some _, none => reserved
  { linked with tailLastIndex := some reservedIndex }

/-- A new root over the old one. -/
def prepend (t : EventDispatchTreeImpl D) (eventDispatcher : D) : EventDispatchTreeImpl D :=
  { t with
    cells := t.cells ++ [⟨eventDispatcher, t.rootIndex, none⟩]
    rootIndex := some t.cells.length }

/-- The child, with the tail where there is none. -/
def getChildIndex (tree : EventDispatchTreeImpl D) (index : Nat) : Option (Option Nat) :=
  tree.cells[index]?.map fun cell =>
    if cell.nextChild = none ∧ some index ≠ tree.tailLastIndex then tree.tailFirstIndex
    else cell.nextChild

/-- At the root, or the tail when there is none. -/
def levelIndex (tree : EventDispatchTreeImpl D) : Option Nat :=
  if tree.rootIndex.isSome then tree.rootIndex else tree.tailFirstIndex

/-! ## Copying -/

/-- The tree written to, or another one. -/
inductive Source (D : Type) where
  | this
  | other (tree : EventDispatchTreeImpl D)

def Source.tree (src : Source D) (t : EventDispatchTreeImpl D) : EventDispatchTreeImpl D :=
  match src with
  | .this => t
  | .other tree => tree

/-- A new cell; the arrays hold zeros where nothing has been written yet. -/
def reserve (t : EventDispatchTreeImpl D) (dispatcher : D) : EventDispatchTreeImpl D :=
  { t with cells := t.cells ++ [⟨dispatcher, some 0, some 0⟩] }

mutual

/-- Siblings and children, into new cells. -/
def copyTreeLevel (src : Source D) :
    Nat → EventDispatchTreeImpl D → Option Nat → Option (EventDispatchTreeImpl D × Option Nat)
  | 0, _, _ => none
  | _ + 1, t, none => some (t, none)
  | fuel + 1, t, some srcIndex => do
    let (t, dstLevelIndex) ← copySubtree src fuel t srcIndex
    let srcCell ← (src.tree t).cells[srcIndex]?
    let t ← copySiblings src fuel t dstLevelIndex srcCell.nextSibling
    return (t, some dstLevelIndex)

/-- The loop of `copyTreeLevel` over the siblings. -/
def copySiblings (src : Source D) :
    Nat → EventDispatchTreeImpl D → Nat → Option Nat → Option (EventDispatchTreeImpl D)
  | 0, _, _, _ => none
  | _ + 1, t, lastDstIndex, none => some (t.setNextSibling lastDstIndex none)
  | fuel + 1, t, lastDstIndex, some srcIndex => do
    let (t, dstIndex) ← copySubtree src fuel t srcIndex
    let t := t.setNextSibling lastDstIndex (some dstIndex)
    let srcCell ← (src.tree t).cells[srcIndex]?
    copySiblings src fuel t dstIndex srcCell.nextSibling

/-- The cell is reserved first, and its child is written once it is copied. -/
def copySubtree (src : Source D) :
    Nat → EventDispatchTreeImpl D → Nat → Option (EventDispatchTreeImpl D × Nat)
  | 0, _, _ => none
  | fuel + 1, t, srcIndex => do
    let srcCell ← (src.tree t).cells[srcIndex]?
    let dstIndex := t.cells.length
    let t := t.reserve srcCell.dispatcher
    let srcChildIndex ← (src.tree t).getChildIndex srcIndex
    let (t, dstChildLevelIndex) ← copyTreeLevel src fuel t srcChildIndex
    return (t.setNextChild dstIndex dstChildLevelIndex, dstIndex)

end

/-! ## mergeTree -/

/-- Loop and recursion are one recursion. -/
def expandTail : Nat → EventDispatchTreeImpl D → Option Nat → Option (EventDispatchTreeImpl D)
  | 0, _, _ => none
  | _ + 1, t, none => some t
  | fuel + 1, t, some index => do
    let cell ← t.cells[index]?
    let expanded : Option (EventDispatchTreeImpl D) :=
      if cell.nextChild.isSome then expandTail fuel t cell.nextChild
      else if t.expandTailFirstPath then
        some { t.setNextChild index t.tailFirstIndex with expandTailFirstPath := false }
      else
        (copyTreeLevel .this fuel t t.tailFirstIndex).map fun r => r.1.setNextChild index r.2
    let t ← expanded
    let cell ← t.cells[index]?
    expandTail fuel t cell.nextSibling

variable [DecidableEq D]

/-- The inner loop of `mergeTreeLevel`. -/
def findDispatcher (t : EventDispatchTreeImpl D) (srcDispatcher : D) :
    Nat → Option Nat → Nat → Option (Option Nat × Nat)
  | 0, _, _ => none
  | _ + 1, none, lastDstIndex => some (none, lastDstIndex)
  | fuel + 1, some dstIndex, lastDstIndex => do
    let dstCell ← t.cells[dstIndex]?
    if srcDispatcher = dstCell.dispatcher then some (some dstIndex, lastDstIndex)
    else findDispatcher t srcDispatcher fuel dstCell.nextSibling dstIndex

/-- Each sibling is merged into one alike, or copied behind the last. -/
def mergeTreeLevel (srcTree : EventDispatchTreeImpl D) :
    Nat → EventDispatchTreeImpl D → Nat → Option Nat → Option (EventDispatchTreeImpl D)
  | 0, _, _, _ => none
  | _ + 1, t, _, none => some t
  | fuel + 1, t, dstLevelIndex, some srcIndex => do
    let srcCell ← srcTree.cells[srcIndex]?
    let found ← findDispatcher t srcCell.dispatcher fuel (some dstLevelIndex) dstLevelIndex
    let merged : Option (EventDispatchTreeImpl D) :=
      match found with
      | (none, lastDstIndex) =>
        (copySubtree (.other srcTree) fuel t srcIndex).map fun r =>
          (r.1.setNextSibling lastDstIndex (some r.2)).setNextSibling r.2 none
      | (some dstIndex, _) => do
        let dstCell ← t.cells[dstIndex]?
        let nextSrcLevelIndex ← srcTree.getChildIndex srcIndex
        match dstCell.nextChild with
        | some nextDstLevelIndex =>
          mergeTreeLevel srcTree fuel t nextDstLevelIndex nextSrcLevelIndex
        | none =>
          (copyTreeLevel (.other srcTree) fuel t nextSrcLevelIndex).map fun r =>
            r.1.setNextChild dstIndex r.2
    let t ← merged
    let srcCell ← srcTree.cells[srcIndex]?
    mergeTreeLevel srcTree fuel t dstLevelIndex srcCell.nextSibling

/-- The tail under every leaf, or as the root. -/
def absorbTail (fuel : Nat) (t : EventDispatchTreeImpl D) : Option (EventDispatchTreeImpl D) :=
  if t.tailFirstIndex.isSome then
    let expanded : Option (EventDispatchTreeImpl D) :=
      if t.rootIndex.isSome then
        expandTail fuel { t with expandTailFirstPath := true } t.rootIndex
      else some { t with rootIndex := t.tailFirstIndex }
    expanded.map fun t => { t with tailFirstIndex := none, tailLastIndex := none }
  else some t

/-- The merged tree is another object than the one it is merged into. -/
def mergeTree (fuel : Nat) (t tree : EventDispatchTreeImpl D) :
    Option (EventDispatchTreeImpl D) := do
  let t ← t.absorbTail fuel
  let srcLevelIndex := tree.levelIndex
  match t.rootIndex with
  | none =>
    (copyTreeLevel (.other tree) fuel t srcLevelIndex).map fun r =>
      { r.1 with rootIndex := r.2 }
  | some rootIndex => mergeTreeLevel tree fuel t rootIndex srcLevelIndex

end EventDispatchTreeImpl

/-! ## toString -/

/-- A text, or the text of a dispatcher. -/
inductive Piece (D : Type) where
  | text (s : String)
  | dispatcher (d : D)
  deriving DecidableEq

namespace EventDispatchTreeImpl

variable {D : Type}

mutual

def appendTreeLevel (t : EventDispatchTreeImpl D) : Nat → Nat → Option (List (Piece D))
  | 0, _ => none
  | fuel + 1, index => do
    let first ← appendSubtree t fuel index
    let cell ← t.cells[index]?
    let others ← appendSiblings t fuel cell.nextSibling
    return .text "(" :: (first ++ others ++ [.text ")"])

/-- The loop of `appendTreeLevel` over the siblings. -/
def appendSiblings (t : EventDispatchTreeImpl D) : Nat → Option Nat → Option (List (Piece D))
  | 0, _ => none
  | _ + 1, none => some []
  | fuel + 1, some index => do
    let subtree ← appendSubtree t fuel index
    let cell ← t.cells[index]?
    let others ← appendSiblings t fuel cell.nextSibling
    return .text "," :: (subtree ++ others)

def appendSubtree (t : EventDispatchTreeImpl D) : Nat → Nat → Option (List (Piece D))
  | 0, _ => none
  | fuel + 1, index => do
    let cell ← t.cells[index]?
    let childIndex ← t.getChildIndex index
    match childIndex with
    | none => return [.dispatcher cell.dispatcher]
    | some childIndex => do
      let level ← appendTreeLevel t fuel childIndex
      return .dispatcher cell.dispatcher :: .text "->" :: level

end

def toString (fuel : Nat) (t : EventDispatchTreeImpl D) : Option (List (Piece D)) :=
  match t.levelIndex with
  | none => some [.text "()"]
  | some levelIndex => appendTreeLevel t fuel levelIndex

end EventDispatchTreeImpl

/-- The dispatchers of a text, from left to right. -/
def dispatchersOf {D : Type} (text : List (Piece D)) : List D :=
  text.filterMap fun
    | .text _ => none
    | .dispatcher d => some d

/-! ## dispatchEvent -/

/-- What they forward once and return (`none` is `null`). -/
structure Forwarding (D E : Type) where
  forward : D → E → E
  reply : D → E → Option E → Option E

/-- The tree, the event returned, the dispatchers invoked. -/
structure Dispatched (D E : Type) where
  tree : EventDispatchTreeImpl D
  returnEvent : Option E
  invoked : List D

namespace EventDispatchTreeImpl

variable {D E : Type}

/-- A second event gives back the one dispatched. -/
def joinReturn (event : E) (returnEvent branchReturnEvent : Option E) : Option E :=
  match branchReturnEvent, returnEvent with
  | none, _ => returnEvent
  | some branch, none => some branch
  | some _, some _ => some event

mutual

def dispatchEvent (fwd : Forwarding D E) :
    Nat → EventDispatchTreeImpl D → E → Option (Dispatched D E)
  | 0, _, _ => none
  | fuel + 1, t, event =>
    match t.levelIndex with
    | none => some ⟨t, some event, []⟩
    | some index => do
      let t :=
        if t.rootIndex = none then
          { t with rootIndex := t.tailFirstIndex, tailFirstIndex := none, tailLastIndex := none }
        else t
      let done ← dispatchLevel fwd fuel t event index none
      return { done with
        tree := { done.tree with
          cells := done.tree.cells.take t.cells.length
          rootIndex := t.rootIndex
          tailFirstIndex := t.tailFirstIndex
          tailLastIndex := t.tailLastIndex } }

/-- The loop of `dispatchEvent` over a level. -/
def dispatchLevel (fwd : Forwarding D E) :
    Nat → EventDispatchTreeImpl D → E → Nat → Option E → Option (Dispatched D E)
  | 0, _, _, _, _ => none
  | fuel + 1, t, event, index, returnEvent => do
    let cell ← t.cells[index]?
    let branch ← dispatchEvent fwd fuel { t with rootIndex := cell.nextChild }
      (fwd.forward cell.dispatcher event)
    let returnEvent := joinReturn event returnEvent
      (fwd.reply cell.dispatcher event branch.returnEvent)
    let cell' ← branch.tree.cells[index]?
    match cell'.nextSibling with
    | none => return ⟨branch.tree, returnEvent, cell.dispatcher :: branch.invoked⟩
    | some sibling => do
      let others ← dispatchLevel fwd fuel branch.tree event sibling returnEvent
      return { others with invoked := cell.dispatcher :: (branch.invoked ++ others.invoked) }

end

end EventDispatchTreeImpl

end OpenJfx.Event
