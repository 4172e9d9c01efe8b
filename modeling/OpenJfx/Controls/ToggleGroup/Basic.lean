/-
  OpenJfx.Controls.ToggleGroup.Basic

  `ToggleGroup` and the properties `selected` and `toggleGroup` of `ToggleButton`, whose handlers
  call each other, at most `stack` calls deep.  No property is bound and nobody else listens; a
  change of the list of toggles is one range replaced by other toggles.
-/

import OpenJfx.Lib.Outcome

namespace OpenJfx.Controls

variable {T G : Type}

/-- The fields of all buttons and groups. `old` is the field of a button's property
    `toggleGroup`. -/
structure Toggles (T G : Type) where
  selected : T → Bool
  toggleGroup : T → Option G
  old : T → Option G
  toggles : G → List T
  selectedToggle : G → Option T

namespace Toggles

open Outcome

variable [DecidableEq T] [DecidableEq G]

/-- New buttons and groups. -/
def new : Toggles T G where
  selected := fun _ => false
  toggleGroup := fun _ => none
  old := fun _ => none
  toggles := fun _ => []
  selectedToggle := fun _ => none

/-! ## Selection -/

mutual

/-- `ToggleButton.setSelected`, with `invalidated()` of the property. -/
def setSelected : Nat → T → Bool → Toggles T G → Outcome (Toggles T G) Unit
  | 0, _, _, _ => overflows
  | stack + 1, t, value, s =>
    if s.selected t = value then returns () s
    else
      let s := { s with selected := Function.update s.selected t value }
      match s.toggleGroup t with
      | none => returns () s
      | some tg =>
        if value then selectToggle stack tg (some t) s
        else if s.selectedToggle tg = some t then clearSelectedToggle stack tg s
        else returns () s

/-- `ToggleGroup.setSelected`. -/
def setSelectedIn : Nat → G → Option T → Bool → Toggles T G → Outcome (Toggles T G) Bool
  | 0, _, _, _, _ => overflows
  | _ + 1, _, none, _, s => returns false s
  | stack + 1, g, some toggle, selected, s =>
    if s.toggleGroup toggle = some g then
      (setSelected stack toggle selected s).andThen fun _ s => returns true s
    else returns false s

/-- `selectToggle`, which is `set` of the property `selectedToggle`. -/
def selectToggle : Nat → G → Option T → Toggles T G → Outcome (Toggles T G) Unit
  | 0, _, _, _ => overflows
  | stack + 1, g, newSelectedToggle, s =>
    let old := s.selectedToggle g
    if old = newSelectedToggle then returns () s
    else
      (setSelectedIn stack g newSelectedToggle true s).andThen fun done s =>
        if done ∨ (∃ t ∈ newSelectedToggle, s.toggleGroup t = some g) ∨ newSelectedToggle = none then
          (if ∀ o ∈ old, s.toggleGroup o = some g ∨ s.selected o = false then
            setSelectedIn stack g old false s
          else returns false s).andThen fun _ s =>
            returns () { s with selectedToggle := Function.update s.selectedToggle g newSelectedToggle }
        else returns () s

/-- Nothing if another toggle is selected already. -/
def clearSelectedToggle : Nat → G → Toggles T G → Outcome (Toggles T G) Unit
  | 0, _, _ => overflows
  | stack + 1, g, s =>
    match s.selectedToggle g with
    | none => throws .nullPointer s
    | some t =>
      if s.selected t = false ∧ (s.toggles g).any s.selected then returns () s
      else selectToggle stack g none s

end

/-! ## The list of toggles -/

/-- It throws "Duplicate toggles are not allow in a ToggleGroup.". -/
def vetoes (from_ to_ : Int) (toBeAdded toggles : List T) : Bool :=
  ¬(from_ = 0 ∧ to_ = toggles.length) ∧ ∃ t ∈ toBeAdded, t ∈ toggles

/-- The list with the toggles between two indices replaced. -/
def replaced (from_ to_ : Int) (toBeAdded toggles : List T) : List T :=
  toggles.take from_.toNat ++ toBeAdded ++ toggles.drop to_.toNat

/-- The loop over the removed toggles. -/
def toggleRemoved (stack : Nat) (g : G) (t : T) (s : Toggles T G) : Outcome (Toggles T G) Unit :=
  if s.selected t then selectToggle stack g none s else returns () s

/-- The loop that looks for the first selected one of the added toggles. -/
def selectFirst (stack : Nat) (g : G) (added : List T) (s : Toggles T G) :
    Outcome (Toggles T G) Unit :=
  match added.find? s.selected with
  | some t => selectToggle stack g (some t) s
  | none => returns () s

/-- One round of the loop over the added toggles. -/
def adopt (remove : G → T → Toggles T G → Outcome (Toggles T G) Unit)
    (setToggleGroup : T → Option G → Toggles T G → Outcome (Toggles T G) Unit) (g : G) (t : T)
    (s : Toggles T G) : Outcome (Toggles T G) Unit :=
  if s.toggleGroup t = some g then returns () s
  else
    (match s.toggleGroup t with
    | some other => remove other t s
    | none => returns () s).andThen fun _ s => setToggleGroup t (some g) s

mutual

/-- The toggles between two indices give way to `toBeAdded`. -/
def replaceRange : Nat → G → Int → Int → List T → Toggles T G → Outcome (Toggles T G) Unit
  | 0, _, _, _, _, _ => overflows
  | stack + 1, g, from_, to_, toBeAdded, s =>
    let toggles := s.toggles g
    if vetoes from_ to_ toBeAdded toggles then throws .illegalArgument s
    else if 0 ≤ from_ ∧ to_ ≤ toggles.length then
      let removed := (toggles.take to_.toNat).drop from_.toNat
      (onChanged stack g removed toBeAdded
        { s with
          toggles := Function.update s.toggles g (replaced from_ to_ toBeAdded toggles) }).reported
    else throws .indexOutOfBounds s

/-- `getToggles().add(e)`. -/
def add : Nat → G → T → Toggles T G → Outcome (Toggles T G) Unit
  | 0, _, _, _ => overflows
  | stack + 1, g, e, s =>
    replaceRange stack g (s.toggles g).length (s.toggles g).length [e] s

/-- `getToggles().remove(o)`. -/
def remove : Nat → G → T → Toggles T G → Outcome (Toggles T G) Unit
  | 0, _, _, _ => overflows
  | stack + 1, g, o, s =>
    if o ∈ s.toggles g then
      replaceRange stack g ((s.toggles g).idxOf o) ((s.toggles g).idxOf o + 1) [] s
    else returns () s

/-- The handler `onChanged` of the list. -/
def onChanged : Nat → G → List T → List T → Toggles T G → Outcome (Toggles T G) Unit
  | 0, _, _, _, _ => overflows
  | stack + 1, g, removed, added, s =>
    (forEach (toggleRemoved stack g) removed s).andThen fun _ s =>
    (forEach (adopt (remove stack) (setToggleGroup stack) g) added s).andThen fun _ s =>
    selectFirst stack g added s

/-- `ToggleButton.setToggleGroup`, with `invalidated()` of the property. -/
def setToggleGroup : Nat → T → Option G → Toggles T G → Outcome (Toggles T G) Unit
  | 0, _, _, _ => overflows
  | stack + 1, t, value, s =>
    if s.toggleGroup t = value then returns () s
    else
      let s := { s with toggleGroup := Function.update s.toggleGroup t value }
      (match value with
      | some tg =>
        if t ∈ s.toggles tg then returns () s
        else
          (match s.old t with
          | some old => remove stack old t s
          | none => returns () s).andThen fun _ s => add stack tg t s
      | none =>
        match s.old t with
        | some old => remove stack old t s
        | none => throws .nullPointer s).andThen fun _ s =>
          returns () { s with old := Function.update s.old t value }

end

/-- `getToggles().add(index, e)`. -/
def addAt (stack : Nat) (g : G) (index : Int) (e : T) (s : Toggles T G) :
    Outcome (Toggles T G) Unit :=
  replaceRange stack g index index [e] s

/-- `getToggles().addAll(c)`. -/
def addAll (stack : Nat) (g : G) (c : List T) (s : Toggles T G) : Outcome (Toggles T G) Unit :=
  replaceRange stack g (s.toggles g).length (s.toggles g).length c s

/-- `getToggles().addAll(index, c)`. -/
def addAllAt (stack : Nat) (g : G) (index : Int) (c : List T) (s : Toggles T G) :
    Outcome (Toggles T G) Unit :=
  replaceRange stack g index index c s

/-- `getToggles().remove(index)`. -/
def removeAt (stack : Nat) (g : G) (index : Int) (s : Toggles T G) : Outcome (Toggles T G) Unit :=
  replaceRange stack g index (index + 1) [] s

/-- `getToggles().set(index, element)`. -/
def set (stack : Nat) (g : G) (index : Int) (element : T) (s : Toggles T G) :
    Outcome (Toggles T G) Unit :=
  replaceRange stack g index (index + 1) [element] s

/-- `getToggles().setAll(col)`. -/
def setAll (stack : Nat) (g : G) (col : List T) (s : Toggles T G) : Outcome (Toggles T G) Unit :=
  replaceRange stack g 0 (s.toggles g).length col s

/-- `getToggles().clear()`. -/
def clear (stack : Nat) (g : G) (s : Toggles T G) : Outcome (Toggles T G) Unit :=
  replaceRange stack g 0 (s.toggles g).length [] s

/-! ## Programs -/

/-- The calls of a program. -/
inductive Call (T G : Type) where
  | setSelected (t : T) (value : Bool)
  | setToggleGroup (t : T) (value : Option G)
  | selectToggle (g : G) (value : Option T)
  | add (g : G) (e : T)
  | addAt (g : G) (index : Int) (e : T)
  | addAll (g : G) (c : List T)
  | addAllAt (g : G) (index : Int) (c : List T)
  | remove (g : G) (o : T)
  | removeAt (g : G) (index : Int)
  | set (g : G) (index : Int) (element : T)
  | setAll (g : G) (col : List T)
  | clear (g : G)

def run (stack : Nat) (s : Toggles T G) : Call T G → Outcome (Toggles T G) Unit
  | .setSelected t value => setSelected stack t value s
  | .setToggleGroup t value => setToggleGroup stack t value s
  | .selectToggle g value => selectToggle stack g value s
  | .add g e => add stack g e s
  | .addAt g index e => addAt stack g index e s
  | .addAll g c => addAll stack g c s
  | .addAllAt g index c => addAllAt stack g index c s
  | .remove g o => remove stack g o s
  | .removeAt g index => removeAt stack g index s
  | .set g index element => set stack g index element s
  | .setAll g col => setAll stack g col s
  | .clear g => clear stack g s

/-- The state after a call, whichever way it ends. -/
def step (stack : Nat) (s : Toggles T G) (call : Call T G) : Option (Toggles T G) :=
  (run stack s call).state

end Toggles

end OpenJfx.Controls
