/-
  OpenJfx.Controls.MultipleSelectionModel.Basic

  `MultipleSelectionModelBase`: the selected indices, the lead `selectedIndex` with its item, the
  list view of the indices, and the changes fired on it.  The items stand for `getItemCount()` and
  `getModelItem(int)`; `getFocusedIndex()` is an argument, and `focus(int)` is left out.  Row
  numbers are unbounded.
-/

import OpenJfx.Lib.JavaBitSet

namespace OpenJfx.Controls

/-- `SelectionMode`. -/
inductive SelectionMode where
  | single
  | multiple
  deriving DecidableEq

/-! ## The view of the selected indices -/

/-- What a read changes in a `BitSetReadOnlyUnbackedObservableList`. -/
structure Cursor where
  lastGetIndex : Int
  lastGetValue : Int
  deriving DecidableEq

namespace Cursor

/-- The cursor of a new view, and what `reset()` sets. -/
def new : Cursor := ⟨-1, -1⟩

/-- The loop of `get`, `n` steps away from the index. -/
def scan (bitset : JavaBitSet) : Nat → Cursor → Int × Cursor
  | 0, c => (c.lastGetValue, c)
  | n + 1, c =>
    if 0 ≤ c.lastGetValue then
      scan bitset n ⟨c.lastGetIndex + 1, bitset.nextSetBit (c.lastGetValue + 1).toNat⟩
    else (-1, c)

/-- `selectedIndicesSeq.get`, which moves the cursor. -/
def get (itemCount : Nat) (bitset : JavaBitSet) (index : Int) (c : Cursor) : Int × Cursor :=
  if index < 0 ∨ itemCount ≤ index then (-1, c)
  else if index = c.lastGetIndex + 1 ∧ c.lastGetValue < itemCount then
    let value := bitset.nextSetBit (c.lastGetValue + 1).toNat
    (value, ⟨c.lastGetIndex + 1, value⟩)
  else if index = c.lastGetIndex - 1 ∧ 0 < c.lastGetValue then
    let value := bitset.previousSetBit (c.lastGetValue - 1).toNat
    (value, ⟨c.lastGetIndex - 1, value⟩)
  else scan bitset index.toNat ⟨0, bitset.nextSetBit 0⟩

/-- The loop of `indexOf`, with `n` indices left. -/
def indexOfFrom (itemCount : Nat) (bitset : JavaBitSet) (o : Int) :
    Nat → Int → Cursor → Int × Cursor
  | 0, _, c => (-1, c)
  | n + 1, i, c =>
    let (obj, c) := c.get itemCount bitset i
    if o = obj then (i, c) else indexOfFrom itemCount bitset o n (i + 1) c

/-- `AbstractList.indexOf` over `get`. -/
def indexOf (itemCount : Nat) (bitset : JavaBitSet) (o : Int) (c : Cursor) : Int × Cursor :=
  indexOfFrom itemCount bitset o bitset.cardinality 0 c

/-- The values of `get` from `i` on, with `n` indices left. -/
def readFrom (itemCount : Nat) (bitset : JavaBitSet) : Nat → Int → Cursor → List Int
  | 0, _, _ => []
  | n + 1, i, c =>
    (c.get itemCount bitset i).1 :: readFrom itemCount bitset n (i + 1) (c.get itemCount bitset i).2

end Cursor

/-- The list a new view of the bits shows to a reader. -/
def viewList (itemCount : Nat) (bitset : JavaBitSet) : List Int :=
  Cursor.new.readFrom itemCount bitset bitset.cardinality 0

/-! ## Changes -/

/-- What a listener reads between two calls of `next()`. -/
structure IndexSubChange where
  from_ : Int
  to_ : Int
  removed : List Int
  deriving DecidableEq

/-- A change fired on `selectedIndicesSeq`. -/
inductive IndexChange where
  | addRemove (subChanges : List IndexSubChange)
  | permutation (from_ to_ : Int) (perm : List Int)
  deriving DecidableEq

def IndexChange.simpleAdd (from_ to_ : Int) : IndexChange := .addRemove [⟨from_, to_, []⟩]

def IndexChange.genericAddRemove (from_ to_ : Int) (removed : List Int) : IndexChange :=
  .addRemove [⟨from_, to_, removed⟩]

/-- `ControlUtils.buildClearAndSelectChange`. -/
def buildClearAndSelectChange (removed : List Int) (retainedRow : Int) : IndexChange :=
  let midIndex : Nat := if removed.length ≤ retainedRow then removed.length
    else if retainedRow < 0 then 0
    else retainedRow.toNat
  let first : IndexSubChange := ⟨0, 0, removed.take midIndex⟩
  let second : IndexSubChange := ⟨1, 1, removed.drop midIndex⟩
  .addRemove (if (removed.drop midIndex).isEmpty then [first] else [first, second])

/-! ## The model -/

/-- The fields of the model, with its view and what has been fired. -/
structure MultipleSelectionModelBase (T : Type) where
  selectionMode : SelectionMode
  items : List (Option T)
  selectedIndices : JavaBitSet
  selectedIndex : Int
  selectedItem : Option T
  cursor : Cursor
  atomicityCount : Nat
  fired : List IndexChange

namespace MultipleSelectionModelBase

variable {T : Type} (s : MultipleSelectionModelBase T)

def new (mode : SelectionMode) (items : List (Option T)) : MultipleSelectionModelBase T where
  selectionMode := mode
  items := items
  selectedIndices := JavaBitSet.new
  selectedIndex := -1
  selectedItem := none
  cursor := Cursor.new
  atomicityCount := 0
  fired := []

def getItemCount : Nat := s.items.length

/-- Null outside the data. -/
def getModelItem (index : Int) : Option T :=
  if 0 ≤ index then (s.items[index.toNat]?).join else none

def isAtomic : Bool := 0 < s.atomicityCount

def startAtomic : MultipleSelectionModelBase T := { s with atomicityCount := s.atomicityCount + 1 }

def stopAtomic : MultipleSelectionModelBase T := { s with atomicityCount := s.atomicityCount - 1 }

/-- `selectedIndicesSeq.callObservers(c)`. -/
def callObservers (c : IndexChange) : MultipleSelectionModelBase T := { s with fired := s.fired ++ [c] }

/-- `setSelectedIndex`, with the listener that follows the selected item. -/
def setSelectedIndex (index : Int) : MultipleSelectionModelBase T :=
  if s.selectedIndex = index then s
  else { s with selectedIndex := index, selectedItem := s.getModelItem index }

def setSelectedItem (item : Option T) : MultipleSelectionModelBase T := { s with selectedItem := item }

/-- `selectedIndicesSeq.get(index)`. -/
def get (index : Int) : Int × MultipleSelectionModelBase T :=
  let (value, cursor) := s.cursor.get s.getItemCount s.selectedIndices index
  (value, { s with cursor := cursor })

/-- `selectedIndicesSeq.indexOf(row)`. -/
def indexOf (row : Int) : Int × MultipleSelectionModelBase T :=
  let (index, cursor) := s.cursor.indexOf s.getItemCount s.selectedIndices row
  (index, { s with cursor := cursor })

/-- A row beyond the bit set is not. -/
def isSelected (index : Int) : Bool :=
  if 0 ≤ index ∧ index < s.selectedIndices.length then s.selectedIndices.bit index.toNat else false

def setBit (row : Int) : MultipleSelectionModelBase T :=
  { s with selectedIndices := s.selectedIndices.set row.toNat }

/-- No listener is told. -/
def quietClearSelection : MultipleSelectionModelBase T :=
  { s with selectedIndices := s.selectedIndices.clearAll }

/-- `clearSelection()`. -/
def clearSelection : MultipleSelectionModelBase T :=
  let removed := viewList s.getItemCount s.selectedIndices
  -- `clone()` trims the words of the set
  let s := { s with selectedIndices := s.selectedIndices.trimmed }
  let s := s.quietClearSelection
  if s.isAtomic then s
  else (s.setSelectedIndex (-1)).callObservers (.genericAddRemove 0 0 removed)

/-- `clearSelection(index)`. -/
def clearSelectionAt (index : Int) : MultipleSelectionModelBase T :=
  if index < 0 then s
  else
    let wasEmpty := s.selectedIndices.isEmpty
    let s := { s with selectedIndices := s.selectedIndices.clear index.toNat }
    let s := if !wasEmpty && s.selectedIndices.isEmpty then s.clearSelection else s
    if s.isAtomic then s
    else s.callObservers (.genericAddRemove index index [index])

/-- `select(int)` between `startAtomic()` and `stopAtomic()`. -/
def markRow (row : Int) : MultipleSelectionModelBase T :=
  let s := s.startAtomic
  let s :=
    if s.selectedIndices.bit row.toNat then s
    else (if s.selectionMode = .single then s.quietClearSelection else s).setBit row
  let s := s.setSelectedIndex row
  s.stopAtomic

/-- The event of `select(int)`. -/
def notifyAdded (row : Int) : MultipleSelectionModelBase T :=
  if s.isAtomic then s
  else
    let (index, s) := s.indexOf row
    let changeIndex := max 0 index
    s.callObservers (.simpleAdd changeIndex (changeIndex + 1))

section Select

variable (equals : T → Option T → Bool)

/-- `select(row)`. -/
def select (row : Int) : MultipleSelectionModelBase T :=
  if row = -1 then s.clearSelection
  else if row < 0 ∨ s.getItemCount ≤ row then s
  else
    let isSameRow : Bool := row = s.selectedIndex
    let newItem := s.getModelItem row
    let isSameItem := newItem.any fun item => equals item s.selectedItem
    let fireUpdatedItemEvent := isSameRow && !isSameItem
    let s := (s.markRow row).notifyAdded row
    if fireUpdatedItemEvent then s.setSelectedItem newItem else s

/-- `clearAndSelect(row)`. -/
def clearAndSelect [DecidableEq T] (row : Int) : MultipleSelectionModelBase T :=
  if row < 0 ∨ s.getItemCount ≤ row then s.clearSelection
  else
    let wasSelected := s.isSelected row
    if wasSelected ∧ s.selectedIndices.cardinality = 1 ∧ s.selectedItem = s.getModelItem row then s
    else
      let previousSelectedIndices := viewList s.getItemCount (s.selectedIndices.clear row.toNat)
      let s := s.startAtomic
      let s := s.clearSelection
      let s := s.select equals row
      let s := s.stopAtomic
      if wasSelected then
        s.callObservers (buildClearAndSelectChange previousSelectedIndices row)
      else
        let (changeIndex, s) := s.indexOf row
        s.callObservers (.genericAddRemove changeIndex (changeIndex + 1) previousSelectedIndices)

/-- The loop of `select(T)`: the first row with an item that equals `obj`. -/
def rowOf (obj : Option T) : Option Nat := s.items.findIdx? fun item => item.any fun x => equals x obj

/-- `select(obj)`; a null clears in single mode. -/
def selectObject (obj : Option T) : MultipleSelectionModelBase T :=
  if obj.isNone ∧ s.selectionMode = .single then s.clearSelection
  else
    match s.rowOf equals obj with
    | some i =>
      if s.isSelected i then s
      else (if s.selectionMode = .single then s.quietClearSelection else s).select equals i
    | none => (s.setSelectedIndex (-1)).setSelectedItem obj

/-- `row` is a row of the data. -/
def inRange (row : Int) : Bool := 0 ≤ row ∧ row < s.getItemCount

/-- `selectIndices` in single mode, after its check for an empty array. -/
def selectIndicesSingle (row : Int) (rows : List Int) : MultipleSelectionModelBase T :=
  let s := s.quietClearSelection
  let s :=
    match rows.reverse.find? s.inRange with
    | some index => (s.setBit index).select equals index
    | none => s
  let s :=
    if s.selectedIndices.isEmpty ∧ 0 < row ∧ row < s.getItemCount then
      (s.setBit row).select equals row
    else s
  s.callObservers (.simpleAdd 0 1)

/-- A row that is not selected yet is selected and noted. -/
def selectRow (row : Int) (x : List Int × MultipleSelectionModelBase T) :
    List Int × MultipleSelectionModelBase T :=
  if x.2.selectedIndices.bit row.toNat then x else (x.1 ++ [row], x.2.setBit row)

/-- `createRangeChange` without splitting, which computes `from` at each reading: that of the listener
    in the constructor, and then that of a program. -/
def fireRangeChange (addedItems : List Int) : MultipleSelectionModelBase T :=
  match addedItems with
  | [] => s.callObservers (.addRemove [])
  | startValue :: _ =>
    let (_, s) := s.indexOf startValue
    let (from_, s) := s.indexOf startValue
    s.callObservers (.addRemove [⟨from_, from_ + addedItems.length, []⟩])

/-- `selectIndices` in multiple mode, for a non-empty array. -/
def selectIndicesMultiple (row : Int) (rows : List Int) : MultipleSelectionModelBase T :=
  let valid := (row :: rows).filter s.inRange
  let (actualSelectedRows, s) := valid.foldl (fun x row => selectRow row x) ([], s)
  let s :=
    match valid.getLast? with
    | some lastIndex => (s.setSelectedIndex lastIndex).setSelectedItem (s.getModelItem lastIndex)
    | none => s
  s.fireRangeChange (actualSelectedRows.mergeSort (· ≤ ·))

/-- `selectIndices(row, rows)`. -/
def selectIndices (row : Int) (rows : List Int) : MultipleSelectionModelBase T :=
  if rows.isEmpty then s.select equals row
  else if s.selectionMode = .single then s.selectIndicesSingle equals row rows
  else s.selectIndicesMultiple row rows

/-- The end is excluded. -/
def selectRange (start stop : Int) : MultipleSelectionModelBase T :=
  if start = stop then s
  else
    let indices := (List.range ((stop - start).natAbs - 1)).map fun i =>
      if start < stop then start + 1 + (i : Int) else start - 1 - (i : Int)
    s.selectIndices equals start indices

/-- Nothing in single mode. -/
def selectAll (focusedIndex : Int) : MultipleSelectionModelBase T :=
  if s.selectionMode = .single then s
  else if s.getItemCount = 0 then s
  else
    let rowCount := s.getItemCount
    let s := s.clearSelection
    let s := { s with selectedIndices := s.selectedIndices.setBelow rowCount }
    let s := s.callObservers (.simpleAdd 0 rowCount)
    s.setSelectedIndex (if focusedIndex = -1 then rowCount - 1 else focusedIndex)

/-- What the methods that move the selection do first. -/
def quietClearIfSingle : MultipleSelectionModelBase T :=
  if s.selectionMode = .single then s.quietClearSelection else s

def selectFirst : MultipleSelectionModelBase T :=
  let s := s.quietClearIfSingle
  if 0 < s.getItemCount then s.select equals 0 else s

def selectLast : MultipleSelectionModelBase T :=
  let s := s.quietClearIfSingle
  let numItems := s.getItemCount
  if 0 < numItems ∧ s.selectedIndex < numItems - 1 then s.select equals (numItems - 1) else s

/-- Relative to the focus. -/
def selectPrevious (focusIndex : Int) : MultipleSelectionModelBase T :=
  let s := s.quietClearIfSingle
  if focusIndex = -1 then s.select equals (s.getItemCount - 1)
  else if 0 < focusIndex then s.select equals (focusIndex - 1)
  else s

/-- Relative to the focus. -/
def selectNext (focusIndex : Int) : MultipleSelectionModelBase T :=
  let s := s.quietClearIfSingle
  if focusIndex = -1 then s.select equals 0
  else if focusIndex ≠ (s.getItemCount : Int) - 1 then s.select equals (focusIndex + 1)
  else s

/-! ## Shifting -/

/-- Bit `k` moves by `shift`; `perm` notes it if set. -/
def moveBit (k : Nat) (target : Nat) (note : Int) (x : JavaBitSet × List Int) : JavaBitSet × List Int :=
  let selected := x.1.bit k
  let bits := (x.1.clear k).setTo target selected
  (bits, if selected then x.2 ++ [note] else x.2)

/-- The loop for a positive shift, from bit `n - 1` down to `position`. -/
def shiftUp (position shift : Nat) : Nat → JavaBitSet × List Int → JavaBitSet × List Int
  | 0, x => x
  | i + 1, x =>
    if position ≤ i then shiftUp position shift i (moveBit i (i + shift) (i + 1) x) else x

/-- The loop for a negative shift, on the indices that are left. -/
def shiftDown (position : Nat) (shift : Int) : List Nat → JavaBitSet × List Int → JavaBitSet × List Int
  | [], x => x
  | i :: is, x =>
    if (i : Int) + shift < 0 then shiftDown position shift is x
    else if (i : Int) + 1 + shift < position then shiftDown position shift is x
    else shiftDown position shift is (moveBit (i + 1) ((i : Int) + 1 + shift).toNat i x)

/-- The bits after the loops, with the entries of `perm`. -/
def shiftBits (bits : JavaBitSet) (position : Nat) (shift : Int) : JavaBitSet × List Int :=
  if 0 < shift then
    let x := shiftUp position shift.toNat bits.size (bits, [])
    (x.1.clear position, x.2)
  else shiftDown position shift (List.range' position (bits.size - position)) (bits, [])

/-- `shiftSelection` without a callback.  Its rows and sums of rows and `shift` are integers without
    wrapping: they are those of the source for `row + shift < 2 ^ 31`. -/
def shiftSelection (position shift : Int) : MultipleSelectionModelBase T :=
  if position < 0 then s
  else if shift = 0 then s
  else
    let selectedIndicesCardinality := s.selectedIndices.cardinality
    if selectedIndicesCardinality = 0 then s
    else
      let selectedIndicesSize := s.selectedIndices.size
      let (bits, perm) := shiftBits s.selectedIndices position.toNat shift
      let hasPermutated := !perm.isEmpty
      let s := { s with selectedIndices := bits }
      let selectedIndex := s.selectedIndex
      let s :=
        if position ≤ selectedIndex ∧ -1 < selectedIndex then
          let newSelectionLead := max 0 (selectedIndex + shift)
          let s := s.setSelectedIndex newSelectionLead
          if hasPermutated then s.setBit newSelectionLead else s.select equals newSelectionLead
        else s
      if hasPermutated then
        s.callObservers (.permutation 0 selectedIndicesCardinality
          (perm ++ List.replicate (selectedIndicesSize - perm.length) 0))
      else s

/-! ## Runs -/

/-- The calls on the model; `setItems` changes the data. -/
inductive Op (T : Type) where
  | select (row : Int)
  | selectObject (obj : Option T)
  | selectIndices (row : Int) (rows : List Int)
  | selectRange (start stop : Int)
  | clearAndSelect (row : Int)
  | clearSelectionAt (index : Int)
  | clearSelection
  | selectFirst
  | selectLast
  | selectNext (focusIndex : Int)
  | selectPrevious (focusIndex : Int)
  | selectAll (focusedIndex : Int)
  | shiftSelection (position shift : Int)
  | get (index : Int)
  | setItems (items : List (Option T))

def step [DecidableEq T] (s : MultipleSelectionModelBase T) : Op T → MultipleSelectionModelBase T
  | .select row => s.select equals row
  | .selectObject obj => s.selectObject equals obj
  | .selectIndices row rows => s.selectIndices equals row rows
  | .selectRange start stop => s.selectRange equals start stop
  | .clearAndSelect row => s.clearAndSelect equals row
  | .clearSelectionAt index => s.clearSelectionAt index
  | .clearSelection => s.clearSelection
  | .selectFirst => s.selectFirst equals
  | .selectLast => s.selectLast equals
  | .selectNext focusIndex => s.selectNext equals focusIndex
  | .selectPrevious focusIndex => s.selectPrevious equals focusIndex
  | .selectAll focusedIndex => s.selectAll focusedIndex
  | .shiftSelection position shift => s.shiftSelection equals position shift
  | .get index => (s.get index).2
  | .setItems items => { s with items := items }

/-- The states of a run. -/
def states [DecidableEq T] (s : MultipleSelectionModelBase T) :
    List (Op T) → List (MultipleSelectionModelBase T)
  | [] => [s]
  | op :: ops => s :: states (s.step equals op) ops

theorem mem_states_self [DecidableEq T] (s : MultipleSelectionModelBase T) (ops : List (Op T)) :
    s ∈ s.states equals ops := by
  cases ops with
  | nil => exact List.mem_singleton.2 rfl
  | cons op ops => exact .head _

/-! ## What a selection changes -/

section Fields

variable {s}

@[simp] theorem setSelectedIndex_selectedIndex (index : Int) :
    (s.setSelectedIndex index).selectedIndex = index := by
  unfold setSelectedIndex
  split
  · assumption
  · rfl

theorem setSelectedIndex_eq (index : Int) :
    s.setSelectedIndex index = { s with
      selectedIndex := index, selectedItem := (s.setSelectedIndex index).selectedItem } := by
  unfold setSelectedIndex
  split
  · next h =>
    subst h
    rfl
  · rfl

@[simp] theorem setSelectedIndex_selectedIndices (index : Int) :
    (s.setSelectedIndex index).selectedIndices = s.selectedIndices := by
  rw [setSelectedIndex_eq]

theorem clearSelection_eq (s : MultipleSelectionModelBase T) :
    ∃ selectedIndex selectedItem fired, s.clearSelection = { s with
      selectedIndices := s.selectedIndices.trimmed.clearAll
      selectedIndex := selectedIndex
      selectedItem := selectedItem
      fired := fired } := by
  unfold clearSelection
  dsimp only [quietClearSelection, callObservers]
  split
  · exact ⟨_, _, _, rfl⟩
  · rw [setSelectedIndex_eq]
    exact ⟨_, _, _, rfl⟩

/-- The bits after a row has been selected. -/
def bitsWith (s : MultipleSelectionModelBase T) (row : Int) : JavaBitSet :=
  if s.selectedIndices.bit row.toNat then s.selectedIndices
  else (if s.selectionMode = .single then s.selectedIndices.clearAll
    else s.selectedIndices).set row.toNat

theorem bit_bitsWith (row : Int) (j : Nat) :
    (s.bitsWith row).bit j = true ↔ j = row.toNat ∨ (s.selectedIndices.bit j = true ∧
      (s.selectedIndices.bit row.toNat = true ∨ s.selectionMode ≠ .single)) := by
  unfold bitsWith
  by_cases hrow : s.selectedIndices.bit row.toNat = true
  · simp only [hrow, if_true, true_or, and_true]
    refine ⟨.inr, ?_⟩
    rintro (rfl | h)
    · exact hrow
    · exact h
  · by_cases hmode : s.selectionMode = .single
    · simp [hrow, hmode]
    · simp [hrow, hmode]

theorem markRow_eq (row : Int) :
    s.markRow row = { s with
      selectedIndices := s.bitsWith row
      selectedIndex := row
      selectedItem := (s.markRow row).selectedItem } := by
  have hset : ∀ t : MultipleSelectionModelBase T, t.atomicityCount = s.atomicityCount + 1 →
      (t.setSelectedIndex row).stopAtomic = { t with
        selectedIndex := row
        selectedItem := (t.setSelectedIndex row).stopAtomic.selectedItem
        atomicityCount := s.atomicityCount } := by
    intro t ht
    rw [setSelectedIndex_eq, stopAtomic, ht]
    rfl
  unfold markRow bitsWith
  dsimp only [startAtomic]
  by_cases hbit : s.selectedIndices.bit row.toNat = true
  · simp only [hbit, if_true]
    exact hset _ rfl
  · simp only [hbit, Bool.false_eq_true, if_false]
    by_cases hmode : s.selectionMode = .single
    · simp only [hmode, if_true]
      exact hset _ rfl
    · simp only [hmode, if_false]
      exact hset _ rfl

theorem notifyAdded_eq (row : Int) :
    s.notifyAdded row = { s with
      cursor := (s.notifyAdded row).cursor
      fired := (s.notifyAdded row).fired } := by
  unfold notifyAdded
  split <;> rfl

theorem select_eq {row : Int} (h0 : 0 ≤ row) (h : row < s.getItemCount) :
    s.select equals row = { s with
      selectedIndices := s.bitsWith row
      selectedIndex := row
      selectedItem := (s.select equals row).selectedItem
      cursor := ((s.markRow row).notifyAdded row).cursor
      fired := ((s.markRow row).notifyAdded row).fired } := by
  have hne : ¬ row = -1 := by omega
  have hin : ¬ (row < 0 ∨ (s.getItemCount : Int) ≤ row) := by omega
  have hmark : (s.markRow row).notifyAdded row = { s with
      selectedIndices := s.bitsWith row
      selectedIndex := row
      selectedItem := ((s.markRow row).notifyAdded row).selectedItem
      cursor := ((s.markRow row).notifyAdded row).cursor
      fired := ((s.markRow row).notifyAdded row).fired } := by
    rw [notifyAdded_eq, markRow_eq]
  rw [select, if_neg hne, if_neg hin]
  dsimp only
  split
  · rw [hmark]
    rfl
  · exact hmark

theorem select_of_not {row : Int} (h0 : 0 ≤ row) (h : (s.getItemCount : Int) ≤ row) :
    s.select equals row = s := by
  have hne : ¬ row = -1 := by omega
  rw [select, if_neg hne, if_pos (Or.inr h)]

end Fields

end Select

end MultipleSelectionModelBase

end OpenJfx.Controls
