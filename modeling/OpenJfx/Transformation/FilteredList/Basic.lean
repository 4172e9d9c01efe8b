/-
  OpenJfx.Transformation.FilteredList.Basic

  `FilteredList`: `filtered[0..size)` holds the indices of the accepted elements; a change of the
  source patches this array sub-change by sub-change while the source already has its final
  content.  `predicate` is what the predicate answers now; the change that is fired is the
  returned value.
-/

import OpenJfx.Collections.ListChange
import OpenJfx.Collections.ListChangeBuilder.NextPermutation
import OpenJfx.Collections.SortHelper.Range

namespace OpenJfx.Collections

variable {E : Type}

/-! ## `ListChangeListener.Change` -/

namespace SubChange

def getRemovedSize (c : SubChange E) : Int := c.getRemoved.length

def getAddedSize (c : SubChange E) : Int := if c.wasAdded then c.to_ - c.from_ else 0

def getPermutation (c : SubChange E) (i : Int) : Except JavaException Int :=
  if !c.wasPermutated then .error (.illegalState (some "Not a permutation change"))
  else JavaArray.get c.perm (i - c.from_)

end SubChange

end OpenJfx.Collections

namespace OpenJfx.Transformation

open OpenJfx.Collections ListChangeBuilder

variable {E : Type}

/-- The fields of a `FilteredList`. -/
structure FilteredList (E : Type) where
  source : List E
  filtered : List Int
  size : Int
  predicate : Option (E → Bool)
  builder : ListChangeBuilder E

namespace FilteredList

/-- `getPredicateImpl()`: no predicate accepts everything. -/
def getPredicateImpl (s : FilteredList E) : E → Bool := s.predicate.getD fun _ => true

/-- The change-reporting methods of `ObservableListBase`. -/
def onBuilder {α : Type} (m : JavaM (ListChangeBuilder E) α) : JavaM (FilteredList E) α :=
  JavaM.zoom builder (fun b s => { s with builder := b }) m

/-- A computation on the array. -/
def onFiltered {α : Type} (f : List Int → Except JavaException α) : JavaM (FilteredList E) α :=
  fun s => JavaM.ofExcept (f s.filtered) s

def readFiltered (i : Int) : JavaM (FilteredList E) Int := onFiltered fun a => JavaArray.get a i

/-- `filtered = ...`. -/
def setFiltered (a : List Int) : JavaM (FilteredList E) Unit :=
  modify fun s => { s with filtered := a }

/-- `filtered[i] = x`. -/
def writeFiltered (i x : Int) : JavaM (FilteredList E) Unit := do
  setFiltered (← onFiltered fun a => JavaArray.set a i x)

/-- `System.arraycopy(filtered, srcPos, filtered, destPos, length)`. -/
def copyFiltered (srcPos destPos length : Int) : JavaM (FilteredList E) Unit := do
  setFiltered (← onFiltered fun a => JavaArray.copy a srcPos a destPos length)

/-- `size += d`. -/
def addSize (d : Int) : JavaM (FilteredList E) Unit :=
  modify fun s => { s with size := s.size + d }

/-- `getSource().listIterator(pos)`: the elements to come. -/
def listIterator (pos : Int) : JavaM (FilteredList E) (List E) := fun s =>
  if 0 ≤ pos ∧ pos ≤ s.source.length then .ok (s.source.drop pos.toNat) s
  else .error .indexOutOfBounds s

def get (index : Int) : JavaM (FilteredList E) E := do
  let s ← MonadState.get
  if index ≥ s.size then throw .indexOutOfBounds
  let i ← readFiltered index
  JavaM.ofExcept (JavaArray.get s.source i)

/-- The first entry at or behind `p`. -/
def findPosition (p : Int) : JavaM (FilteredList E) Int := fun s =>
  if s.filtered.length = 0 then .ok 0 s
  else if p = 0 then .ok 0 s
  else if 0 > s.size then .error .illegalArgument s
  else if s.size > s.filtered.length then .error .indexOutOfBounds s
  else
    match binarySearch (fun v => compare v p) (s.filtered.take s.size.toNat) with
    | .found pos => .ok pos s
    | .notFound pos => .ok pos s

/-- In the source `size * 3` is an `int`: it is this one for `size * 3 < 2 ^ 31`. -/
def ensureSize (size : Int) : JavaM (FilteredList E) Unit := do
  let s ← MonadState.get
  if s.filtered.length < size then
    let replacement ← JavaM.ofExcept (JavaArray.new (size * 3 / 2 + 1) 0)
    setFiltered (← JavaM.ofExcept (JavaArray.copy s.filtered 0 replacement 0 s.size))

/-- The loop of `updateIndexes`, `n` entries from `i` on. -/
def updateIndexesLoop (delta : Int) : Nat → Int → JavaM (FilteredList E) Unit
  | 0, _ => pure ()
  | n + 1, i => do
    writeFiltered i ((← readFiltered i) + delta)
    updateIndexesLoop delta n (i + 1)

/-- Entries from `from_` on move by `delta`. -/
def updateIndexes (from_ delta : Int) : JavaM (FilteredList E) Unit := do
  let s ← MonadState.get
  updateIndexesLoop delta (s.size - from_).toNat from_

/-! ## `permutate` -/

/-- `filtered[i] = c.getPermutation(filtered[i])`, `n` entries from `i` on. -/
def permutateLoop (c : SubChange E) : Nat → Int → JavaM (FilteredList E) Unit
  | 0, _ => pure ()
  | n + 1, i => do
    writeFiltered i (← JavaM.ofExcept (c.getPermutation (← readFiltered i)))
    permutateLoop c n (i + 1)

/-- The entries of the range take their new places. -/
def permutate (c : SubChange E) : JavaM (FilteredList E) Unit := do
  let from_ ← findPosition c.from_
  let to_ ← findPosition c.to_
  if to_ > from_ then
    permutateLoop c (to_ - from_).toNat from_
    let (filtered, perm) ← onFiltered fun a => SortHelper.sortRange a from_ to_
    setFiltered filtered
    let s ← MonadState.get
    onBuilder (nextPermutation s.size.toNat from_ to_ perm)

/-! ## `addRemove` -/

/-- `nextRemove` of `n` removed entries, from `i` on. -/
def removeLoop (c : SubChange E) (from_ : Int) : Nat → Int → JavaM (FilteredList E) Unit
  | 0, _ => pure ()
  | n + 1, i => do
    let removed ← JavaM.ofExcept (JavaArray.get c.getRemoved ((← readFiltered i) - c.from_))
    onBuilder (nextRemove from_ removed)
    removeLoop c from_ n (i + 1)

/-- The iterator and `fpos` where it ends. -/
def replaceLoop (pred : E → Bool) (to_ cTo : Int) (it : List E) (nextIndex fpos : Int) :
    JavaM (FilteredList E) (List E × Int × Int) :=
  if fpos < to_ ∧ nextIndex < cTo then
    match it with
    | [] => throw .noSuchElement
    | el :: it =>
      if pred el then do
        writeFiltered fpos nextIndex
        onBuilder (nextAdd fpos (fpos + 1))
        replaceLoop pred to_ cTo it (nextIndex + 1) (fpos + 1)
      else replaceLoop pred to_ cTo it (nextIndex + 1) fpos
  else pure (it, nextIndex, fpos)

/-- The loop that inserts the remaining elements. -/
def addLoop (pred : E → Bool) (cTo : Int) (it : List E) (nextIndex fpos : Int) :
    JavaM (FilteredList E) Unit :=
  if nextIndex < cTo then
    match it with
    | [] => throw .noSuchElement
    | el :: it =>
      if pred el then do
        let s ← MonadState.get
        copyFiltered fpos (fpos + 1) (s.size - fpos)
        writeFiltered fpos nextIndex
        onBuilder (nextAdd fpos (fpos + 1))
        addSize 1
        addLoop pred cTo it (nextIndex + 1) (fpos + 1)
      else addLoop pred cTo it (nextIndex + 1) fpos
  else pure ()

/-- `addRemove`, second half: in place of `[from_, to_)`. -/
def placeAdded (pred : E → Bool) (c : SubChange E) (from_ to_ : Int) :
    JavaM (FilteredList E) Unit := do
  let it ← listIterator c.from_
  let (it, nextIndex, fpos) ← replaceLoop pred to_ c.to_ it c.from_ from_
  if fpos < to_ then
    let s ← MonadState.get
    copyFiltered to_ fpos (s.size - to_)
    addSize (-(to_ - fpos))
  else addLoop pred c.to_ it nextIndex fpos

/-- The removed entries go, and added ones come if they match. -/
def addRemove (c : SubChange E) : JavaM (FilteredList E) Unit := do
  let s ← MonadState.get
  let pred := s.getPredicateImpl
  ensureSize s.source.length
  let from_ ← findPosition c.from_
  let to_ ← findPosition (c.from_ + c.getRemovedSize)
  removeLoop c from_ (to_ - from_).toNat from_
  updateIndexes to_ (c.getAddedSize - c.getRemovedSize)
  placeAdded pred c from_ to_

/-! ## `update` -/

/-- `pos < size && filtered[pos] == sourceFrom`. -/
def shownAt (pos sourceFrom : Int) : JavaM (FilteredList E) Bool := do
  let s ← MonadState.get
  if pos < s.size then pure (decide ((← readFiltered pos) = sourceFrom)) else pure false

/-- The body of the loop of `update`: the new `pos` and `filterTo`. -/
def updateEntry (pred : E → Bool) (el : E) (pos filterTo sourceFrom : Int) :
    JavaM (FilteredList E) (Int × Int) := do
  let s ← MonadState.get
  if ← shownAt pos sourceFrom then
    if !pred el then
      onBuilder (nextRemove pos el)
      copyFiltered (pos + 1) pos (s.size - pos - 1)
      addSize (-1)
      pure (pos, filterTo - 1)
    else
      onBuilder (nextUpdate pos)
      pure (pos + 1, filterTo)
  else
    if pred el then
      onBuilder (nextAdd pos (pos + 1))
      copyFiltered pos (pos + 1) (s.size - pos)
      writeFiltered pos sourceFrom
      addSize 1
      pure (pos + 1, filterTo + 1)
    else pure (pos, filterTo)

/-- The loop of `update`.  It ends at the latest where the iterator does. -/
def updateLoop (pred : E → Bool) (sourceTo : Int) (it : List E) (pos filterTo sourceFrom : Int) :
    JavaM (FilteredList E) Unit :=
  if pos < filterTo ∨ sourceFrom < sourceTo then
    match it with
    | [] => throw .noSuchElement
    | el :: it => do
      let (pos, filterTo) ← updateEntry pred el pos filterTo sourceFrom
      updateLoop pred sourceTo it pos filterTo (sourceFrom + 1)
  else pure ()

/-- An updated element may come or go. -/
def update (c : SubChange E) : JavaM (FilteredList E) Unit := do
  let s ← MonadState.get
  let pred := s.getPredicateImpl
  ensureSize s.source.length
  let filterFrom ← findPosition c.from_
  let filterTo ← findPosition c.to_
  let it ← listIterator c.from_
  updateLoop pred c.to_ it filterFrom filterTo c.from_

/-! ## The listener of the source, and the predicate -/

/-- One `c.next()` of `sourceChanged`. -/
def subChanged (c : SubChange E) : JavaM (FilteredList E) Unit :=
  if c.wasPermutated then permutate c
  else if c.updated then update c
  else addRemove c

/-- Every sub-change in turn. -/
def sourceChanged (change : List (SubChange E)) :
    JavaM (FilteredList E) (Option (List (SubChange E))) := do
  onBuilder beginChange
  change.forM subChanged
  onBuilder endChange

def refilterLoop (pred : E → Bool) : List E → Int → JavaM (FilteredList E) Unit
  | [], _ => pure ()
  | next :: it, i => do
    if pred next then
      let s ← MonadState.get
      writeFiltered s.size i
      addSize 1
    refilterLoop pred it (i + 1)

/-- `new ArrayList<>(this)`. -/
def contents : JavaM (FilteredList E) (List E) := do
  let s ← MonadState.get
  (List.range s.size.toNat).mapM fun (i : Nat) => get i

/-- `refilter()`; the change is fired only when there are listeners. -/
def refilter (hasListeners : Bool) : JavaM (FilteredList E) (Option (SubChange E)) := do
  let s ← MonadState.get
  ensureSize s.source.length
  let removed ← if hasListeners then contents else pure []
  modify fun s => { s with size := 0 }
  refilterLoop s.getPredicateImpl s.source 0
  let s ← MonadState.get
  pure (if hasListeners then some ⟨0, s.size, some removed, SubChange.emptyPerm, false⟩ else none)

/-- `setPredicate` with another object than the one that is set. -/
def setPredicate (hasListeners : Bool) (predicate : Option (E → Bool)) :
    JavaM (FilteredList E) (Option (SubChange E)) := do
  modify fun s => { s with predicate := predicate }
  refilter hasListeners

/-- `new FilteredList(source, predicate)`. -/
def new (source : List E) (predicate : Option (E → Bool)) :
    Except JavaException (FilteredList E) := do
  let filtered ← JavaArray.new ((source.length : Int) * 3 / 2 + 1) 0
  match predicate with
  | some p =>
    match setPredicate false (some p) ⟨source, filtered, 0, none, .new⟩ with
    | .ok _ s => .ok s
    | .error e _ => .error e
  | none =>
    match refilterLoop (fun _ => true) source 0 ⟨source, filtered, 0, none, .new⟩ with
    | .ok _ s => .ok s
    | .error e _ => .error e

end FilteredList

end OpenJfx.Transformation
