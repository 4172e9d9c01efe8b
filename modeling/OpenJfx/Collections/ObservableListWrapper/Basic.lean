/-
  OpenJfx.Collections.ObservableListWrapper.Basic

  `ObservableListWrapper` with the mutators, bulk operations and sub-list view it inherits.  A
  collection argument is its list of elements, or a predicate where only `contains` is asked.  The
  element observer is a state `σ` with two methods; `fired` collects the changes the listeners
  receive.
-/

import OpenJfx.Collections.ListChangeBuilder.Basic
import OpenJfx.Collections.SortHelper

namespace OpenJfx.Collections

variable {E σ : Type}

/-- What listeners of the list receive: the sub-changes of a `Change`. -/
abbrev FiredChange (E : Type) := List (SubChange E)

/-- The wrapper, with the state of its observer and the changes fired. -/
structure ObservableListWrapper (E σ : Type) where
  backingList : List E
  builder : ListChangeBuilder E
  observer : σ
  hasListeners : Bool
  fired : List (FiredChange E)

/-- `attachListener` and `detachListener` of the element observer. -/
structure ElementCallbacks (E σ : Type) where
  attachListener : E → JavaM σ Unit
  detachListener : E → JavaM σ Unit

/-- `elementObserver == null`. -/
def ElementCallbacks.none : ElementCallbacks E Unit := ⟨fun _ => pure (), fun _ => pure ()⟩

namespace ObservableListWrapper

open JavaM ListChangeBuilder

/-- A method of the change builder. -/
def onBuilder {α : Type} (m : JavaM (ListChangeBuilder E) α) :
    JavaM (ObservableListWrapper E σ) α :=
  zoom builder (fun b w => { w with builder := b }) m

/-- A method of the element observer. -/
def onObserver (m : JavaM σ Unit) : JavaM (ObservableListWrapper E σ) Unit :=
  zoom observer (fun o w => { w with observer := o }) m

/-- Only listeners see it. -/
def fireChange (change : FiredChange E) : JavaM (ObservableListWrapper E σ) Unit :=
  modify fun w => { w with fired := if w.hasListeners then w.fired ++ [change] else w.fired }

def beginChange : JavaM (ObservableListWrapper E σ) Unit := onBuilder ListChangeBuilder.beginChange

/-- `commit` and `fireChange`. -/
def endChange : JavaM (ObservableListWrapper E σ) Unit := do
  match ← onBuilder ListChangeBuilder.endChange with
  | none => pure ()
  | some change => fireChange change

def content : JavaM (ObservableListWrapper E σ) (List E) := do
  return (← get).backingList

/-! ## `ArrayList`, the backing list -/

/-- `ArrayList.add`. -/
def backingAdd (index : Int) (element : E) : JavaM (ObservableListWrapper E σ) Unit := fun w =>
  if 0 ≤ index ∧ index ≤ w.backingList.length then
    .ok () { w with backingList := w.backingList.insertIdx index.toNat element }
  else .error .indexOutOfBounds w

/-- `ArrayList.set`. -/
def backingSet (index : Int) (element : E) : JavaM (ObservableListWrapper E σ) E := fun w =>
  match if 0 ≤ index then w.backingList[index.toNat]? else none with
  | some old => .ok old { w with backingList := w.backingList.set index.toNat element }
  | none => .error .indexOutOfBounds w

/-- `ArrayList.remove`. -/
def backingRemove (index : Int) : JavaM (ObservableListWrapper E σ) E := fun w =>
  match if 0 ≤ index then w.backingList[index.toNat]? else none with
  | some old => .ok old { w with backingList := w.backingList.eraseIdx index.toNat }
  | none => .error .indexOutOfBounds w

section Methods

variable (obs : ElementCallbacks E σ)

/-! ## Single elements -/

/-- The observer is attached first. -/
def doAdd (index : Int) (element : E) : JavaM (ObservableListWrapper E σ) Unit := do
  onObserver (obs.attachListener element)
  backingAdd index element

/-- The old element is let go, and the new one attached. -/
def doSet (index : Int) (element : E) : JavaM (ObservableListWrapper E σ) E := do
  let removed ← backingSet index element
  onObserver (obs.detachListener removed)
  onObserver (obs.attachListener element)
  pure removed

/-- The element is let go. -/
def doRemove (index : Int) : JavaM (ObservableListWrapper E σ) E := do
  let removed ← backingRemove index
  onObserver (obs.detachListener removed)
  pure removed

/-- `add(int, E)`. -/
def add (index : Int) (element : E) : JavaM (ObservableListWrapper E σ) Unit := do
  doAdd obs index element
  beginChange
  onBuilder (nextAdd index (index + 1))
  endChange

/-- `set(int, E)`. -/
def set (index : Int) (element : E) : JavaM (ObservableListWrapper E σ) E := do
  let old ← doSet obs index element
  beginChange
  onBuilder (nextSet index old)
  endChange
  pure old

def remove (index : Int) : JavaM (ObservableListWrapper E σ) E := do
  let old ← doRemove obs index
  beginChange
  onBuilder (nextRemove index old)
  endChange
  pure old

/-- `add(E)` of `AbstractList`. -/
def addLast (element : E) : JavaM (ObservableListWrapper E σ) Unit := do
  add obs (← content).length element

/-- `remove(Object)`; `equals` is `o.equals`. -/
def removeObject (equals : E → Bool) : JavaM (ObservableListWrapper E σ) Bool := do
  match (← content).findIdx? equals with
  | some i =>
    let _ ← remove obs i
    pure true
  | none => pure false

/-! ## Bulk operations -/

/-- The override, which detaches every element. -/
def clear : JavaM (ObservableListWrapper E σ) Unit := do
  let w ← get
  w.backingList.forM fun e => onObserver (obs.detachListener e)
  if w.hasListeners then
    beginChange
    onBuilder (nextRemoveAll 0 w.backingList)
  modify fun w => { w with backingList := [] }
  if w.hasListeners then
    endChange

/-- `for (int i = 0; i < n; ++i) remove(index);`. -/
def removeRepeated (index : Int) : Nat → JavaM (ObservableListWrapper E σ) Unit
  | 0 => pure ()
  | n + 1 => do
    let _ ← remove obs index
    removeRepeated index n

/-- `remove(int, int)`; there is no `finally` around `endChange`. -/
def removeFromTo (fromIndex toIndex : Int) : JavaM (ObservableListWrapper E σ) Unit := do
  beginChange
  removeRepeated obs fromIndex (toIndex - fromIndex).toNat
  endChange

/-- The indices whose bit `removeAll` sets. -/
def matching (p : E → Bool) (list : List E) : List Nat :=
  (List.range list.length).filter fun i => list[i]?.any p

/-- `removeAll` and `retainAll`: the set bits from the last to the first. -/
def removeIf (p : E → Bool) : JavaM (ObservableListWrapper E σ) Bool := do
  beginChange
  let bs := matching p (← content)
  bs.reverse.forM fun (cur : Nat) => discard (remove obs cur)
  endChange
  pure !bs.isEmpty

/-- `removeAll(c)`, of which only `contains` is asked. -/
def removeAll (contains : E → Bool) : JavaM (ObservableListWrapper E σ) Bool :=
  removeIf obs contains

def retainAll (contains : E → Bool) : JavaM (ObservableListWrapper E σ) Bool :=
  removeIf obs fun e => !contains e

/-- `addAll(Collection)`. -/
def addAll (c : List E) : JavaM (ObservableListWrapper E σ) Bool := do
  beginChange
  withFinally (do
    c.forM (addLast obs)
    pure !c.isEmpty) endChange

/-- `add(index++, e)` for each element. -/
def addEach (index : Int) : List E → JavaM (ObservableListWrapper E σ) Unit
  | [] => pure ()
  | e :: c => do
    add obs index e
    addEach (index + 1) c

/-- `addAll(int, Collection)`. -/
def addAllAt (index : Int) (c : List E) : JavaM (ObservableListWrapper E σ) Bool := do
  beginChange
  withFinally (do
    if index < 0 ∨ index > (← content).length then
      throw .indexOutOfBounds
    addEach obs index c
    pure !c.isEmpty) endChange

/-- `setAll(Collection)`. -/
def setAll (col : List E) : JavaM (ObservableListWrapper E σ) Bool := do
  beginChange
  withFinally (do
    clear obs
    let _ ← addAll obs col
    pure true) endChange

/-- `removeRange(int, int)`: the iterator deletes at one place. -/
def removeRange (fromIndex toIndex : Int) : JavaM (ObservableListWrapper E σ) Unit := do
  beginChange
  withFinally (removeRepeated obs fromIndex (toIndex - fromIndex).toNat) endChange

/-- `sort(Comparator)`; the fired change is a permutation of the whole list. -/
def sort (c : E → E → Int) : JavaM (ObservableListWrapper E σ) Unit := do
  let list ← content
  if list.isEmpty then pure ()
  else
    let (sorted, perm) := SortHelper.sort c list
    modify fun w => { w with backingList := sorted }
    fireChange [⟨0, list.length, some [], perm, false⟩]

/-! ## Through `subList(fromIndex, toIndex)` -/

def subListRangeCheck (fromIndex toIndex : Int) : JavaM (ObservableListWrapper E σ) Unit := do
  if fromIndex < 0 then throw .indexOutOfBounds
  if toIndex > (← content).length then throw .indexOutOfBounds
  if fromIndex > toIndex then throw .illegalArgument

/-- `clear` of a sub-list is `removeRange`. -/
def subListClear (fromIndex toIndex : Int) : JavaM (ObservableListWrapper E σ) Unit := do
  subListRangeCheck fromIndex toIndex
  beginChange
  withFinally (removeRange obs fromIndex toIndex) endChange

/-- `AbstractCollection.removeAll` from `cursor` on with `n` elements to go. -/
def iteratorRemoveIf (p : E → Bool) : Nat → Nat → JavaM (ObservableListWrapper E σ) Unit
  | 0, _ => pure ()
  | n + 1, cursor => do
    if (← content)[cursor]?.any p then
      let _ ← remove obs cursor
      iteratorRemoveIf p n cursor
    else iteratorRemoveIf p n (cursor + 1)

/-- `subList(..).removeAll(c)` and `subList(..).retainAll(c)`. -/
def subListRemoveIf (fromIndex toIndex : Int) (p : E → Bool) :
    JavaM (ObservableListWrapper E σ) Unit := do
  subListRangeCheck fromIndex toIndex
  beginChange
  withFinally (iteratorRemoveIf obs p (toIndex - fromIndex).toNat fromIndex.toNat) endChange

def subListRemoveAll (fromIndex toIndex : Int) (contains : E → Bool) :
    JavaM (ObservableListWrapper E σ) Unit :=
  subListRemoveIf obs fromIndex toIndex contains

def subListRetainAll (fromIndex toIndex : Int) (contains : E → Bool) :
    JavaM (ObservableListWrapper E σ) Unit :=
  subListRemoveIf obs fromIndex toIndex fun e => !contains e

/-- `subList(..).addAll(index, c)`; `addAll(c)` is at its size. -/
def subListAddAll (fromIndex toIndex index : Int) (c : List E) :
    JavaM (ObservableListWrapper E σ) Unit := do
  subListRangeCheck fromIndex toIndex
  beginChange
  withFinally (do
    if index < 0 ∨ index > toIndex - fromIndex then
      throw .indexOutOfBounds
    if c.isEmpty then pure ()
    else discard (addAllAt obs (fromIndex + index) c)) endChange

/-- `ListIterator.set` for each element of the sorted copy. -/
def setEach (index : Int) : List E → JavaM (ObservableListWrapper E σ) Unit
  | [] => pure ()
  | e :: sorted => do
    let _ ← set obs index e
    setEach (index + 1) sorted

/-- `subList(..).sort(c)`, which is stable. -/
def subListSort (fromIndex toIndex : Int) (c : E → E → Int) :
    JavaM (ObservableListWrapper E σ) Unit := do
  subListRangeCheck fromIndex toIndex
  let a := ((← content).drop fromIndex.toNat).take (toIndex - fromIndex).toNat
  setEach obs fromIndex (a.mergeSort fun x y => c x y ≤ 0)

end Methods

/-- A public mutator call. -/
inductive Call (E : Type) where
  | add (index : Int) (element : E)
  | addLast (element : E)
  | set (index : Int) (element : E)
  | remove (index : Int)
  | removeObject (equals : E → Bool)
  | removeFromTo (fromIndex toIndex : Int)
  | addAll (c : List E)
  | addAllAt (index : Int) (c : List E)
  | setAll (col : List E)
  | removeAll (contains : E → Bool)
  | retainAll (contains : E → Bool)
  | clear
  | sort (c : E → E → Int)
  | subListClear (fromIndex toIndex : Int)
  | subListRemoveAll (fromIndex toIndex : Int) (contains : E → Bool)
  | subListRetainAll (fromIndex toIndex : Int) (contains : E → Bool)
  | subListAddAll (fromIndex toIndex index : Int) (c : List E)
  | subListSort (fromIndex toIndex : Int) (c : E → E → Int)

/-- The call, its result dropped. -/
def Call.run (obs : ElementCallbacks E σ) : Call E → JavaM (ObservableListWrapper E σ) Unit
  | .add index element => ObservableListWrapper.add obs index element
  | .addLast element => ObservableListWrapper.addLast obs element
  | .set index element => discard (ObservableListWrapper.set obs index element)
  | .remove index => discard (ObservableListWrapper.remove obs index)
  | .removeObject equals => discard (ObservableListWrapper.removeObject obs equals)
  | .removeFromTo fromIndex toIndex => ObservableListWrapper.removeFromTo obs fromIndex toIndex
  | .addAll c => discard (ObservableListWrapper.addAll obs c)
  | .addAllAt index c => discard (ObservableListWrapper.addAllAt obs index c)
  | .setAll col => discard (ObservableListWrapper.setAll obs col)
  | .removeAll contains => discard (ObservableListWrapper.removeAll obs contains)
  | .retainAll contains => discard (ObservableListWrapper.retainAll obs contains)
  | .clear => ObservableListWrapper.clear obs
  | .sort c => ObservableListWrapper.sort c
  | .subListClear fromIndex toIndex => ObservableListWrapper.subListClear obs fromIndex toIndex
  | .subListRemoveAll fromIndex toIndex contains =>
    ObservableListWrapper.subListRemoveAll obs fromIndex toIndex contains
  | .subListRetainAll fromIndex toIndex contains =>
    ObservableListWrapper.subListRetainAll obs fromIndex toIndex contains
  | .subListAddAll fromIndex toIndex index c =>
    ObservableListWrapper.subListAddAll obs fromIndex toIndex index c
  | .subListSort fromIndex toIndex c => ObservableListWrapper.subListSort obs fromIndex toIndex c

end ObservableListWrapper

end OpenJfx.Collections
