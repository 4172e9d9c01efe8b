/-
  OpenJfx.Binding.BidirectionalBinding.Basic

  `IntegerPropertyBase` objects and the `BidirectionalIntegerBinding` objects between them.  A
  call of `set` walks through the graph of bindings; it is cut off only by the flag `updating` and
  by `set` of the value a property already holds.  `set` does not throw, so the `catch` of
  `changed` is never entered.
-/

import OpenJfx.Lib.JavaM

namespace OpenJfx.Binding.Bidirectional

variable {P : Type} [DecidableEq P]

/-! ## Properties and their helpers -/

/-- Its `updating` is kept in the heap. -/
structure BidirectionalIntegerBinding (P : Type) where
  id : Nat
  property1 : P
  property2 : P
  deriving DecidableEq, Repr

/-- The property at the other end of a binding. -/
def BidirectionalIntegerBinding.other (binding : BidirectionalIntegerBinding P) (p : P) : P :=
  if binding.property1 = p then binding.property2 else binding.property1

/-- An invalidation listener, which may read. -/
structure InvalidationListener where
  reads : Bool
  deriving DecidableEq, Repr

/-- `Generic` reads `currentValue` for change listeners. -/
inductive Helper (P : Type) where
  | null
  | singleInvalidation (listener : InvalidationListener)
  | singleChange (listener : BidirectionalIntegerBinding P) (currentValue : BitVec 32)
  | generic (invalidationListeners : List InvalidationListener)
      (changeListeners : List (BidirectionalIntegerBinding P)) (currentValue : BitVec 32)
  deriving DecidableEq, Repr

namespace Helper

def changeListeners : Helper P → List (BidirectionalIntegerBinding P)
  | .null | .singleInvalidation _ => []
  | .singleChange listener _ => [listener]
  | .generic _ changeListeners _ => changeListeners

def currentValue : Helper P → BitVec 32
  | .null | .singleInvalidation _ => 0
  | .singleChange _ currentValue | .generic _ _ currentValue => currentValue

end Helper

/-- `IntegerPropertyBase`, not bound. -/
structure IntegerProperty (P : Type) where
  value : BitVec 32
  valid : Bool
  helper : Helper P
  deriving DecidableEq, Repr

namespace IntegerProperty

/-- `new SimpleIntegerProperty(initialValue)`. -/
def new (initialValue : BitVec 32) : IntegerProperty P := ⟨initialValue, true, .null⟩

/-- The effect of `get()`, which returns `value`. -/
def get (property : IntegerProperty P) : IntegerProperty P := { property with valid := true }

/-- `addListener(InvalidationListener)`, which validates the property first. -/
def addInvalidationListener (listener : InvalidationListener) (property : IntegerProperty P) :
    IntegerProperty P :=
  match property.helper with
  | .null => { property.get with helper := .singleInvalidation listener }
  | .singleInvalidation listener₀ =>
    { property.get with helper := .generic [listener₀, listener] [] 0 }
  | .singleChange listener₀ _ =>
    { property.get with helper := .generic [listener] [listener₀] property.value }
  | .generic invalidationListeners changeListeners currentValue =>
    { property.get with
      helper := .generic (invalidationListeners ++ [listener]) changeListeners currentValue }

/-- `addListener(ChangeListener)`. -/
def addListener (listener : BidirectionalIntegerBinding P) (property : IntegerProperty P) :
    IntegerProperty P :=
  match property.helper with
  | .null => { property.get with helper := .singleChange listener property.value }
  | .singleInvalidation listener₀ =>
    { property.get with helper := .generic [listener₀] [listener] property.value }
  | .singleChange listener₀ _ =>
    { property.get with helper := .generic [] [listener₀, listener] property.value }
  | .generic invalidationListeners changeListeners currentValue =>
    let changeListeners := changeListeners ++ [listener]
    if changeListeners.length = 1 then
      { property.get with
        helper := .generic invalidationListeners changeListeners property.value }
    else
      { property with helper := .generic invalidationListeners changeListeners currentValue }

/-- The callback of an invalidation listener. -/
def invalidated (property : IntegerProperty P) (listener : InvalidationListener) :
    IntegerProperty P :=
  if listener.reads then property.get else property

end IntegerProperty

/-! ## The heap and the cascade -/

/-- The properties, bindings and `updating` flags. -/
structure Heap (P : Type) where
  properties : P → IntegerProperty P
  bindings : List (BidirectionalIntegerBinding P)
  updating : Nat → Bool

namespace Heap

/-- The field, whether valid or not. -/
def value (h : Heap P) (p : P) : BitVec 32 := (h.properties p).value

def changeListeners (h : Heap P) (p : P) : List (BidirectionalIntegerBinding P) :=
  (h.properties p).helper.changeListeners

def modify (h : Heap P) (p : P) (f : IntegerProperty P → IntegerProperty P) : Heap P :=
  { h with properties := Function.update h.properties p (f (h.properties p)) }

def setUpdating (h : Heap P) (binding : BidirectionalIntegerBinding P) (updating : Bool) :
    Heap P :=
  { h with updating := Function.update h.updating binding.id updating }

/-- `BidirectionalIntegerBinding.changed`. -/
def changed (set : Heap P → P → BitVec 32 → Option (Heap P)) (h : Heap P)
    (binding : BidirectionalIntegerBinding P) (sourceProperty : P) (newValue : BitVec 32) :
    Option (Heap P) :=
  if h.updating binding.id then some h
  else
    let h := h.setUpdating binding true
    let result :=
      if binding.property1 = sourceProperty then set h binding.property2 newValue
      else set h binding.property1 newValue
    result.map fun h => h.setUpdating binding false

/-- The change listeners read at the start. -/
def changedEach (set : Heap P → P → BitVec 32 → Option (Heap P)) (p : P) :
    List (BidirectionalIntegerBinding P) → Heap P → Option (Heap P)
  | [], h => some h
  | listener :: listeners, h => do
    let h ← changed set h listener p (h.properties p).helper.currentValue
    changedEach set p listeners h

/-- `ExpressionHelper.fireValueChangedEvent`. -/
def fireValueChangedEvent (set : Heap P → P → BitVec 32 → Option (Heap P)) (h : Heap P)
    (p : P) : Option (Heap P) :=
  match (h.properties p).helper with
  | .null => some h
  | .singleInvalidation listener => some (h.modify p fun property => property.invalidated listener)
  | .singleChange listener oldValue =>
    let h := h.modify p fun property =>
      { property.get with helper := .singleChange listener property.value }
    if h.value p ≠ oldValue then
      changed set h listener p (h.properties p).helper.currentValue
    else some h
  | .generic invalidationListeners changeListeners oldValue =>
    let h := h.modify p fun property =>
      invalidationListeners.foldl IntegerProperty.invalidated property
    if 0 < changeListeners.length then
      let h := h.modify p fun property =>
        { property.get with
          helper := .generic invalidationListeners changeListeners property.value }
      if h.value p ≠ oldValue then changedEach set p changeListeners h else some h
    else some h

/-- It fires only if the property was valid. -/
def markInvalid (set : Heap P → P → BitVec 32 → Option (Heap P)) (h : Heap P) (p : P) :
    Option (Heap P) :=
  if (h.properties p).valid then
    fireValueChangedEvent set (h.modify p fun property => { property with valid := false }) p
  else some h

/-- `IntegerPropertyBase.set` with calls nested at most `fuel` deep. -/
def set : Nat → Heap P → P → BitVec 32 → Option (Heap P)
  | 0, _, _, _ => none
  | fuel + 1, h, p, newValue =>
    if h.value p ≠ newValue then
      markInvalid (set fuel) (h.modify p fun property => { property with value := newValue }) p
    else some h

/-- `BidirectionalBinding.bind`. -/
def bind (fuel : Nat) (h : Heap P) (property1 property2 : P) :
    Except JavaException (Option (Heap P)) :=
  if property1 = property2 then .error .illegalArgument
  else
    let binding := ⟨h.bindings.length, property1, property2⟩
    let newValue := h.value property2
    let h := h.modify property2 IntegerProperty.get
    .ok ((h.set fuel property1 newValue).map fun h =>
      { (h.modify property1 (IntegerProperty.addListener binding)).modify property2
          (IntegerProperty.addListener binding) with
        bindings := h.bindings ++ [binding] })

end Heap

end OpenJfx.Binding.Bidirectional
