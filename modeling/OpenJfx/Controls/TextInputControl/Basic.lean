/-
  OpenJfx.Controls.TextInputControl.Basic

  The editing part of `TextInputControl`: the content (that of a text field), the selection and
  the chain of undo records, which are cells of a heap with the head at address 0.  There is no
  formatter and no binding, and `paste` is left out.
-/

import OpenJfx.Lib.JavaM

namespace OpenJfx.Controls

variable {α : Type}

/-! ## The content -/

/-- `TextFieldContent`. -/
abbrev Content (α : Type) := List α

namespace Content

/-- `get(start, end)`. -/
def get (characters : Content α) (start stop : Nat) : List α := (characters.drop start).take (stop - start)

/-- `StringBuilder.insert` throws for an index behind the end. -/
def insert (characters : Content α) (index : Nat) (text : List α) : Except JavaException (Content α) :=
  if text.isEmpty then .ok characters
  else if index ≤ characters.length then .ok (characters.take index ++ text ++ characters.drop index)
  else .error .indexOutOfBounds

/-- An end behind the last character is the end of the text. -/
def delete (characters : Content α) (start stop : Nat) : Except JavaException (Content α) :=
  if start < stop then
    if start ≤ characters.length then .ok (characters.take start ++ characters.drop stop)
    else .error .indexOutOfBounds
  else .ok characters

end Content

/-! ## The control -/

/-- `UndoRedoChange`.  The link `prev` of the head is null and never followed. -/
structure UndoRedoChange (α : Type) where
  start : Nat
  oldText : List α
  newText : List α
  prev : Nat
  next : Option Nat

/-- The control, with its undo records in a heap. -/
structure TextInputControl (α : Type) where
  content : Content α
  anchor : Nat
  caretPosition : Nat
  /-- The records by address, those below `count` being allocated. -/
  records : Nat → UndoRedoChange α
  count : Nat
  undoChange : Nat

namespace TextInputControl

/-- The address of `undoChangeHead`. -/
def undoChangeHead : Nat := 0

/-- A control that shows a text and has not been edited. -/
def new (text : List α) : TextInputControl α where
  content := text
  anchor := 0
  caretPosition := 0
  records := fun _ => ⟨0, [], [], 0, none⟩
  count := 1
  undoChange := undoChangeHead

variable (s : TextInputControl α)

def getLength : Nat := s.content.length

/-- The range is checked. -/
def getText (start stop : Nat) : Except JavaException (List α) :=
  if stop < start then .error .illegalArgument
  else if s.getLength < stop then .error .indexOutOfBounds
  else .ok (s.content.get start stop)

/-- `Utils.clamp(0, value, length)`. -/
def clamp (value : Int) : Nat := min value.toNat s.getLength

def doSelectRange (anchor caretPosition : Int) : TextInputControl α :=
  { s with caretPosition := s.clamp caretPosition, anchor := s.clamp anchor }

/-- `getSelection().getLength()`. -/
def selectionLength : Nat := max s.anchor s.caretPosition - min s.anchor s.caretPosition

/-- The record that `undoChange` points to. -/
def current : UndoRedoChange α := s.records s.undoChange

def setRecord (id : Nat) (record : UndoRedoChange α) : TextInputControl α :=
  { s with records := Function.update s.records id record }

/-- `undoChange = undoChange.add(start, oldText, newText)`. -/
def add (start : Nat) (oldText newText : List α) : TextInputControl α :=
  let s' := s.setRecord s.undoChange { s.current with next := some s.count }
  { s'.setRecord s.count ⟨start, oldText, newText, s.undoChange, none⟩ with
    count := s.count + 1
    undoChange := s.count }

/-- `undoChange = undoChange.discard()`. -/
def discard : TextInputControl α :=
  let prev := s.current.prev
  { s.setRecord prev { s.records prev with next := s.current.next } with undoChange := prev }

/-- The head is no record. -/
def isUndoable : Bool := s.undoChange ≠ undoChangeHead

/-! ## Editing -/

/-- The first step of `replaceContent`. -/
def deleteRange (start stop : Nat) : Except JavaException (Content α) :=
  if stop ≠ start then s.content.delete start stop else .ok s.content

/-- The private `replaceText`, with the amount of adjustment. -/
def replaceContent (start stop : Nat) (value : List α) (anchor caretPosition : Int) :
    Except JavaException (Int × TextInputControl α) := do
  let content ← s.deleteRange start stop
  let length : Int := s.getLength - (stop - start)
  let content ← content.insert start value
  let adjustmentAmount : Int := value.length - (content.length - length)
  return (adjustmentAmount, ({ s with content := content } : TextInputControl α).doSelectRange
    (anchor - adjustmentAmount) (caretPosition - adjustmentAmount))

/-- The position after the text of the current record, or -1 at the head. -/
def endOfUndoChange : Int :=
  if s.undoChange = undoChangeHead then -1 else s.current.start + s.current.newText.length

/-- The test for a new record, with the selection before the edit. -/
def startsRecord (forceNewUndoRecord : Bool) (start stop : Nat) : Bool :=
  (0 < s.selectionLength) || s.endOfUndoChange == -1 || forceNewUndoRecord ||
    (s.endOfUndoChange != start && s.endOfUndoChange != stop) ||
    decide ((start : Int) - stop > 1)

/-- `String.substring(0, endIndex)`. -/
def substring (text : List α) (endIndex : Int) : Except JavaException (List α) :=
  if 0 ≤ endIndex ∧ endIndex ≤ text.length then .ok (text.take endIndex.toNat)
  else .error .indexOutOfBounds

/-- A deletion that is taken up in the current record. -/
def mergeDelete (endOfUndoChange : Int) (start : Nat) (oldText : List α) :
    Except JavaException (TextInputControl α) :=
  let r := s.current
  if 0 < r.newText.length then do
    let newText ← substring r.newText ((start : Int) - r.start)
    let s := s.setRecord s.undoChange { r with newText := newText }
    return if newText.isEmpty then s.discard else s
  else if start = endOfUndoChange then
    .ok (s.setRecord s.undoChange { r with oldText := r.oldText ++ oldText })
  else
    .ok (s.setRecord s.undoChange { r with oldText := oldText ++ r.oldText, start := r.start - 1 })

/-- The edit, with a record of its own or merged into the last. -/
def updateContent (start stop : Nat) (text : List α) (anchor caretPosition : Int)
    (forceNewUndoRecord : Bool) : Except JavaException (TextInputControl α) := do
  let startsRecord := s.startsRecord forceNewUndoRecord start stop
  let endOfUndoChange := s.endOfUndoChange
  let oldText ← s.getText start stop
  let (adjustmentAmount, s) ← s.replaceContent start stop text anchor caretPosition
  let newText ← s.getText start (start + text.length - adjustmentAmount).toNat
  if startsRecord then return s.add start oldText newText
  else if start ≠ stop ∧ text.isEmpty then s.mergeDelete endOfUndoChange start oldText
  else return s.setRecord s.undoChange { s.current with newText := s.current.newText ++ newText }

def replaceText (start stop : Nat) (text : List α) : Except JavaException (TextInputControl α) :=
  if stop < start then .error .illegalArgument
  else if s.getLength < stop then .error .indexOutOfBounds
  else s.updateContent start stop text (start + text.length) (start + text.length) (s.getLength = 0)

/-- Moving the caret is an edit that changes nothing. -/
def selectRange (anchor caretPosition : Int) : Except JavaException (TextInputControl α) :=
  s.updateContent (s.clamp caretPosition) (s.clamp caretPosition) [] (s.clamp anchor)
    (s.clamp caretPosition) false

/-- The record's edit is taken back. -/
def undo : Except JavaException (TextInputControl α) :=
  if s.isUndoable then do
    let r := s.current
    let content ← s.content.delete r.start (r.start + r.newText.length)
    let content ← content.insert r.start r.oldText
    let s := { s with content := content }.doSelectRange r.start (r.start + r.oldText.length)
    return { s with undoChange := r.prev }
  else .ok s

/-- The next record's edit is made again. -/
def redo : Except JavaException (TextInputControl α) :=
  match s.current.next with
  | none => .ok s
  | some next => do
    let r := s.records next
    let content ← s.content.delete r.start (r.start + r.oldText.length)
    let content ← content.insert r.start r.newText
    return { s with content := content, undoChange := next }.doSelectRange
      (r.start + r.newText.length) (r.start + r.newText.length)

/-! ## Runs -/

/-- A method. -/
inductive Op (α : Type) where
  | replaceText (start stop : Nat) (text : List α)
  | selectRange (anchor caretPosition : Int)
  | undo
  | redo

def step : Op α → Except JavaException (TextInputControl α)
  | .replaceText start stop text => s.replaceText start stop text
  | .selectRange anchor caretPosition => s.selectRange anchor caretPosition
  | .undo => s.undo
  | .redo => s.redo

/-- A run stops where a call throws. -/
def run (s : TextInputControl α) : List (Op α) → Except JavaException (TextInputControl α)
  | [] => .ok s
  | op :: ops => s.step op >>= fun s => run s ops

/-- `n` calls of `undo()`. -/
def undoTimes (s : TextInputControl α) : Nat → Except JavaException (TextInputControl α)
  | 0 => .ok s
  | n + 1 => s.undo >>= fun s => undoTimes s n

/-- `n` calls of `redo()`. -/
def redoTimes (s : TextInputControl α) : Nat → Except JavaException (TextInputControl α)
  | 0 => .ok s
  | n + 1 => redoTimes s n >>= fun s => s.redo

/-- `undo()` to the end gives `text`, `redo()` the present one. -/
def Restores (text : List α) (s : TextInputControl α) : Prop :=
  ∃ n u r, s.undoTimes n = .ok u ∧ (∀ m, m < n → ∃ v, s.undoTimes m = .ok v ∧ v.isUndoable = true) ∧
    u.isUndoable = false ∧ u.content = text ∧ u.redoTimes n = .ok r ∧ r.content = s.content

end TextInputControl

end OpenJfx.Controls
