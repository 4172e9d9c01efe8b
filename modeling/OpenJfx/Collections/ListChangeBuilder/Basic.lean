/-
  OpenJfx.Collections.ListChangeBuilder.Basic

  `ListChangeBuilder`: what an observable list reports its edits to between `beginChange` and
  `endChange`.  Positions are `Int`; a `removed` that is `none` is null, and `addRemoveChanges ==
  null` is the empty list.  `list.size()` is a parameter, and `fireChange` the result of `commit`.
-/

import OpenJfx.Lib.JavaM
import OpenJfx.Lib.BinarySearch

namespace OpenJfx.Collections

variable {E : Type}

/-- `ListChangeBuilder.SubChange`. -/
structure SubChange (E : Type) where
  from_ : Int
  to_ : Int
  removed : Option (List E)
  perm : List Int
  updated : Bool
  deriving DecidableEq, Repr

namespace SubChange

/-- `EMPTY_PERM`. -/
def emptyPerm : List Int := []

/-- A null list reads as empty. -/
def getRemoved (c : SubChange E) : List E := c.removed.getD []

/-- `from += d; to += d`. -/
def shift (d : Int) (c : SubChange E) : SubChange E :=
  { c with from_ := c.from_ + d, to_ := c.to_ + d }

/-- None where the source has no list, and throws. -/
def addRemoved (c : SubChange E) (e : E) : Option (SubChange E) :=
  c.removed.map fun r => { c with removed := some (r ++ [e]) }

/-- `removed.add(0, e)`. -/
def addRemovedFirst (c : SubChange E) (e : E) : Option (SubChange E) :=
  c.removed.map fun r => { c with removed := some (e :: r) }

/-- `removed == null || removed.isEmpty()`. -/
def removedIsEmpty (c : SubChange E) : Bool := c.getRemoved.isEmpty

/-- `finalizeSubChange`: a null `removed` becomes the empty list. -/
def finalize (c : SubChange E) : SubChange E := { c with removed := some c.getRemoved }

end SubChange

/-- Right when `idx >= change.to`, left when below `from`. -/
def SubChange.side (idx : Int) (change : SubChange E) : Ordering :=
  if idx ≥ change.to_ then .lt
  else if idx < change.from_ then .gt
  else .eq

/-- What covers `idx`, or where it would be. -/
def findSubChange (idx : Int) (list : List (SubChange E)) : SearchResult :=
  binarySearch (SubChange.side idx) list

/-- `for (i = start; i < list.size(); ++i) { from += d; to += d; }`. -/
def shiftFrom (start : Nat) (d : Int) (list : List (SubChange E)) : List (SubChange E) :=
  list.take start ++ (list.drop start).map (SubChange.shift d)

/-- The one before, when it ends at `pos`. -/
def prevEndingAt (list : List (SubChange E)) (idx : Nat) (pos : Int) : Option (SubChange E) :=
  if idx > 0 then list[idx - 1]?.filter (·.to_ == pos) else none

/-- The one there, when it starts at `pos`. -/
def nextStartingAt (list : List (SubChange E)) (idx : Nat) (pos : Int) : Option (SubChange E) :=
  list[idx]?.filter (·.from_ == pos)

/-- Grow the sub-change beside `pos`, join two, or insert one. -/
def insertUpdate (pos : Int) (list : List (SubChange E)) : List (SubChange E) :=
  match findSubChange pos list with
  | .found _ => list
  | .notFound idx =>
    match prevEndingAt list idx pos, nextStartingAt list idx (pos + 1) with
    | some change, _ => list.set (idx - 1) { change with to_ := pos + 1 }
    | none, some change => list.set idx { change with from_ := pos }
    | none, none => list.insertIdx idx ⟨pos, pos + 1, none, SubChange.emptyPerm, true⟩

/-- In the last branch the loop starts at `idx + 1` although `remove(idx)` has moved the next one to
    `idx`. -/
def insertRemoved (pos : Int) (removed : E) : JavaM (List (SubChange E)) Unit := fun list =>
  match findSubChange pos list with
  | .notFound idx =>
    match prevEndingAt list idx pos, nextStartingAt list idx (pos + 1) with
    | some change, _ =>
      match change.addRemoved removed with
      | none => .error .nullPointer list
      | some change => .ok () (shiftFrom idx (-1) (list.set (idx - 1) change))
    | none, some change =>
      match (change.shift (-1)).addRemovedFirst removed with
      | none => .error .nullPointer (list.set idx (change.shift (-1)))
      | some change => .ok () (shiftFrom (idx + 1) (-1) (list.set idx change))
    | none, none =>
      .ok () (shiftFrom (idx + 1) (-1)
        (list.insertIdx idx ⟨pos, pos, some [removed], SubChange.emptyPerm, false⟩))
  | .found idx =>
    match list[idx]? with
    | none => .error .indexOutOfBounds list
    | some change =>
      let change := { change with to_ := change.to_ - 1 }
      let list := list.set idx change
      if change.from_ = change.to_ ∧ change.removedIsEmpty then
        .ok () (shiftFrom (idx + 1) (-1) (list.eraseIdx idx))
      else .ok () (shiftFrom (idx + 1) (-1) list)

/-- `insertAdd` on `addRemoveChanges`. -/
def insertAdd (from_ to_ : Int) (list : List (SubChange E)) : List (SubChange E) :=
  let numberOfAdded := to_ - from_
  match findSubChange from_ list with
  | .notFound idx =>
    match prevEndingAt list idx from_ with
    | some change => shiftFrom idx numberOfAdded (list.set (idx - 1) { change with to_ := to_ })
    | none =>
      shiftFrom (idx + 1) numberOfAdded
        (list.insertIdx idx ⟨from_, to_, some [], SubChange.emptyPerm, false⟩)
  | .found idx =>
    shiftFrom (idx + 1) numberOfAdded
      (list.modify idx fun change => { change with to_ := change.to_ + numberOfAdded })

/-- `compress`: neighbours that touch become one. -/
def compressLoop (prev : SubChange E) : List (SubChange E) → Except JavaException (List (SubChange E))
  | [] => .ok [prev]
  | cur :: rest =>
    if prev.to_ = cur.from_ then
      match prev.removed, cur.removed with
      | none, none => compressLoop { prev with to_ := cur.to_ } rest
      | none, some r => compressLoop { prev with to_ := cur.to_, removed := some r } rest
      | some _, none => .error .nullPointer
      | some p, some r => compressLoop { prev with to_ := cur.to_, removed := some (p ++ r) } rest
    else (prev :: ·) <$> compressLoop cur rest

/-- Join the sub-changes that touch. -/
def compress : List (SubChange E) → Except JavaException (List (SubChange E))
  | [] => .error .indexOutOfBounds
  | first :: rest => compressLoop first rest

/-- The fields of a `ListChangeBuilder`. -/
structure ListChangeBuilder (E : Type) where
  changeLock : Int
  addRemoveChanges : List (SubChange E)
  updateChanges : List (SubChange E)
  permutationChange : Option (SubChange E)
  deriving DecidableEq, Repr

namespace ListChangeBuilder

def new : ListChangeBuilder E := ⟨0, [], [], none⟩

/-- Run `m` on `addRemoveChanges`. -/
def onAddRemove {α : Type} (m : JavaM (List (SubChange E)) α) : JavaM (ListChangeBuilder E) α :=
  JavaM.zoom addRemoveChanges (fun l b => { b with addRemoveChanges := l }) m

def checkState : JavaM (ListChangeBuilder E) Unit := fun b =>
  if b.changeLock = 0 then
    .error (.illegalState (some "beginChange was not called on this builder")) b
  else .ok () b

/-- The add/remove half of `nextRemove(int, E)`. -/
def recordRemove (idx : Int) (removed : E) : JavaM (List (SubChange E)) Unit := fun list =>
  match list.getLast? with
  | some last =>
    if last.to_ = idx then
      match last.addRemoved removed with
      | none => .error .nullPointer list
      | some last => .ok () (list.dropLast ++ [last])
    else if last.from_ = idx + 1 then
      match (last.shift (-1)).addRemovedFirst removed with
      | none => .error .nullPointer (list.dropLast ++ [last.shift (-1)])
      | some last => .ok () (list.dropLast ++ [last])
    else insertRemoved idx removed list
  | none => insertRemoved idx removed list

/-- The update half of `nextRemove(int, E)`. -/
def dropUpdate (idx : Int) (list : List (SubChange E)) : List (SubChange E) :=
  match list with
  | [] => []
  | _ =>
    match findSubChange idx list with
    | .notFound uPos => shiftFrom uPos (-1) list
    | .found uPos =>
      match list[uPos]? with
      | none => list
      | some change =>
        if change.from_ = change.to_ - 1 then shiftFrom uPos (-1) (list.eraseIdx uPos)
        else shiftFrom (uPos + 1) (-1) (list.set uPos { change with to_ := change.to_ - 1 })

/-- `nextRemove(int idx, E removed)`. -/
def nextRemove (idx : Int) (removed : E) : JavaM (ListChangeBuilder E) Unit := do
  checkState
  onAddRemove (recordRemove idx removed)
  modify fun b => { b with updateChanges := dropUpdate idx b.updateChanges }

/-- `nextRemove(int idx, List<? extends E> removed)`. -/
def nextRemoveAll (idx : Int) (removed : List E) : JavaM (ListChangeBuilder E) Unit := do
  checkState
  removed.forM (nextRemove idx)

/-- The add/remove half of `nextAdd`. -/
def recordAdd (from_ to_ : Int) (list : List (SubChange E)) : List (SubChange E) :=
  match list.getLast? with
  | some last =>
    if last.to_ = from_ then list.dropLast ++ [{ last with to_ := to_ }]
    else if from_ ≥ last.from_ ∧ from_ < last.to_ then
      list.dropLast ++ [{ last with to_ := last.to_ + (to_ - from_) }]
    else insertAdd from_ to_ list
  | none => insertAdd from_ to_ list

/-- A covering update range is split in two. -/
def splitUpdate (from_ to_ : Int) (list : List (SubChange E)) : List (SubChange E) :=
  match list with
  | [] => []
  | _ =>
    match findSubChange from_ list with
    | .notFound uPos => shiftFrom uPos (to_ - from_) list
    | .found uPos =>
      match list[uPos]? with
      | none => list
      | some change =>
        shiftFrom (uPos + 2) (to_ - from_)
          ((list.set uPos { change with to_ := from_ }).insertIdx (uPos + 1)
            ⟨to_, change.to_ + to_ - from_, none, SubChange.emptyPerm, true⟩)

/-- `nextAdd(int from, int to)`. -/
def nextAdd (from_ to_ : Int) : JavaM (ListChangeBuilder E) Unit := do
  checkState
  modify fun b =>
    { b with
      addRemoveChanges := recordAdd from_ to_ b.addRemoveChanges
      updateChanges := splitUpdate from_ to_ b.updateChanges }

/-- `nextReplace(int from, int to, List<? extends E> removed)`. -/
def nextReplace (from_ to_ : Int) (removed : List E) : JavaM (ListChangeBuilder E) Unit := do
  nextRemoveAll from_ removed
  nextAdd from_ to_

/-- `nextSet(int idx, E old)`. -/
def nextSet (idx : Int) (old : E) : JavaM (ListChangeBuilder E) Unit := do
  nextRemove idx old
  nextAdd idx (idx + 1)

def nextUpdate (idx : Int) : JavaM (ListChangeBuilder E) Unit := do
  checkState
  modify fun b =>
    { b with
      updateChanges :=
        match b.updateChanges.getLast? with
        | some last =>
          if last.to_ = idx then b.updateChanges.dropLast ++ [{ last with to_ := idx + 1 }]
          else insertUpdate idx b.updateChanges
        | none => insertUpdate idx b.updateChanges }

/-- What `commit` fires of more than one kind. -/
def commitArray (b : ListChangeBuilder E) : Except JavaException (List (SubChange E)) := do
  let updates ← if b.updateChanges.isEmpty then pure [] else compress b.updateChanges
  let addRemoves ← if b.addRemoveChanges.isEmpty then pure [] else compress b.addRemoveChanges
  pure ((b.permutationChange.toList ++ addRemoves ++ updates).map SubChange.finalize)

/-- `commit`; one sub-change is not compressed. -/
def commit : JavaM (ListChangeBuilder E) (Option (List (SubChange E))) := fun b =>
  let totalSize := b.updateChanges.length + b.addRemoveChanges.length
    + b.permutationChange.toList.length
  if b.changeLock = 0 ∧ 0 < totalSize then
    if totalSize = 1 then
      .ok (some ((b.addRemoveChanges ++ b.updateChanges ++ b.permutationChange.toList).map
        SubChange.finalize)) ⟨b.changeLock, [], [], none⟩
    else
      match commitArray b with
      | .error e => .error e b
      | .ok array => .ok (some array) ⟨b.changeLock, [], [], none⟩
  else .ok none b

def beginChange : JavaM (ListChangeBuilder E) Unit :=
  modify fun b => { b with changeLock := b.changeLock + 1 }

/-- The last one fires what has been collected. -/
def endChange : JavaM (ListChangeBuilder E) (Option (List (SubChange E))) := fun b =>
  if b.changeLock ≤ 0 then
    .error (.illegalState (some "Called endChange before beginChange")) b
  else commit { b with changeLock := b.changeLock - 1 }

end ListChangeBuilder

end OpenJfx.Collections
