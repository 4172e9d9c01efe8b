/-
  OpenJfx.Css.SimpleSelector

  Model of `com.sun.javafx.css.SimpleSelector` and of what it reads of a
  `Styleable`.  The sets of style classes and pseudo-classes are sets of names:
  the bit sets of a selector are made by `add` alone, so no zero words stand at
  their ends and `containsAll` is inclusion.
-/

import Mathlib.Data.Finset.Card

namespace OpenJfx.Css

/-- `javafx.geometry.NodeOrientation`. -/
inductive NodeOrientation where
  | leftToRight
  | rightToLeft
  | inherit
  deriving DecidableEq, Repr

/-- What a selector reads of a styleable; strings and sets may be null. -/
structure Styleable where
  id : Option String
  typeSelector : Option String
  styleClass : List (Option String)
  pseudoClassStates : Option (Finset String)
  /-- `getNodeOrientation()` and `getEffectiveNodeOrientation()` of a `Node`. -/
  orientation : Option (NodeOrientation × NodeOrientation)
  deriving DecidableEq

/-- The fields that `applies` and `stateMatches` read. -/
structure SimpleSelector where
  name : String
  styleClassSet : Finset String
  id : String
  pseudoClassState : Finset String
  nodeOrientation : NodeOrientation
  deriving DecidableEq

namespace SimpleSelector

/-- The names of a list that are neither null nor empty. -/
def givenNames (names : List (Option String)) : List String :=
  names.filterMap fun name =>
    match name with
    | some s => if s = "" then none else some s
    | none => none

/-- With a small letter (or sign), two others folding to `i`. -/
def equalsIgnoreCase (letter c : Char) : Bool :=
  c.toLower == letter || (letter == 'i' && (c == 'ı' || c == 'İ'))

/-- `"dir(".regionMatches(true, 0, pclass, 0, 4)`. -/
def isDir (pclass : String) : Bool :=
  match pclass.toList with
  | c₁ :: c₂ :: c₃ :: c₄ :: _ =>
    equalsIgnoreCase 'd' c₁ && equalsIgnoreCase 'i' c₂ && equalsIgnoreCase 'r' c₃ && c₄ == '('
  | _ => false

/-- `"dir(rtl)".equalsIgnoreCase(pclass)`. -/
def isDirRtl (pclass : String) : Bool :=
  let letters := "dir(rtl)".toList
  decide (pclass.toList.length = letters.length) &&
    (letters.zip pclass.toList).all fun (letter, c) => equalsIgnoreCase letter c

/-- The set, and the orientation of the last `dir`. -/
def readPseudoClasses (names : List String) : Finset String × NodeOrientation :=
  names.foldl (fun (state, dir) pclass =>
    if isDir pclass then (state, if isDirRtl pclass then .rightToLeft else .leftToRight)
    else (insert pclass state, dir)) (∅, .inherit)

/-- The constructor. -/
def new (name : Option String) (styleClasses pseudoClasses : List (Option String))
    (id : Option String) : SimpleSelector where
  name := name.getD "*"
  styleClassSet := (givenNames styleClasses).toFinset
  id := id.getD ""
  pseudoClassState := (readPseudoClasses (givenNames pseudoClasses)).1
  nodeOrientation := (readPseudoClasses (givenNames pseudoClasses)).2

/-- The flags of the constructor. -/
def matchOnName (s : SimpleSelector) : Bool := s.name != "" && s.name != "*"

def matchOnId (s : SimpleSelector) : Bool := s.id != ""

def matchOnStyleClass (s : SimpleSelector) : Bool := decide (0 < s.styleClassSet.card)

/-- The test of `:dir()`. -/
def orientationApplies (s : SimpleSelector) (node : Styleable) : Bool :=
  match node.orientation with
  | some (orientation, effective) =>
    if s.nodeOrientation = .inherit then true
    else if orientation = .inherit then decide (effective = s.nodeOrientation)
    else decide (orientation = s.nodeOrientation)
  | none => true

/-- Orientation, id, type and style classes must fit. -/
def applies (s : SimpleSelector) (node : Styleable) : Bool :=
  s.orientationApplies node &&
  (!s.matchOnId || node.id == some s.id) &&
  (!s.matchOnName || node.typeSelector == some s.name) &&
  (!s.matchOnStyleClass || decide (s.styleClassSet ⊆ (givenNames node.styleClass).toFinset))

/-- `stateMatches(Styleable, Set)`. -/
def stateMatches (s : SimpleSelector) (states : Option (Finset String)) : Bool :=
  match states with
  | some states => decide (s.pseudoClassState ⊆ states)
  | none => false

end SimpleSelector

end OpenJfx.Css
