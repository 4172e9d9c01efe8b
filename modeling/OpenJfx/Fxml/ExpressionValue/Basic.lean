/-
  OpenJfx.Fxml.ExpressionValue.Basic

  The observable value of a binding expression.  The maps and lists of a namespace live in a heap;
  every variable is watched by a chain of monitors, one for each key of its path.  `edit` changes
  one collection, `step` is an edit with everything the monitors do about it.
-/

import OpenJfx.Fxml.Expression.Basic
import OpenJfx.Lib.KeyedList

namespace OpenJfx.Fxml

abbrev Key := List Unit16

/-- `Integer.parseInt`. -/
def parseInt {D : Type} (lib : Library D) (text : List Unit16) : Option Int :=
  parseInteger lib 10 (-2147483648) 2147483647 text

/-! ## Namespaces -/

/-- `ref` is a map or list, `leaf` any other object. -/
inductive Val (L : Type) where
  | null
  | leaf (object : L)
  | ref (place : Nat)
  deriving DecidableEq, Repr

/-- An observable map or list. -/
inductive Coll (L : Type) where
  | map (entries : List (Key × Val L))
  | list (elements : List (Val L))
  deriving DecidableEq, Repr

abbrev Heap (L : Type) := List (Coll L)

variable {D L : Type} [DecidableEq L]

def Heap.coll (h : Heap L) (r : Nat) : Coll L := h.getD r (.map [])

/-- The exceptions of an evaluation. -/
inductive Thrown where
  | indexOutOfBounds
  | numberFormat
  | nullPointer
  | classCast
  | unsupportedOperation
  | illegalArgument
  deriving DecidableEq, Repr

/-- What an expression uses of the objects: properties of beans, literals, evaluators, and the
    conversion to the type of the value. The last two can read collections, so they get the heap. -/
structure Objects (D L : Type) where
  bean : L → Key → Val L
  literal : Literal D → Val L
  unary : Heap L → Operator → Val L → Except Thrown (Val L)
  binary : Heap L → Operator → Val L → Val L → Except Thrown (Val L)
  coerce : Heap L → Val L → Except Thrown (Val L)

section Evaluation

variable (lib : Library D) (objects : Objects D L)

/-- `Expression.get(Object, String)`. -/
def get (h : Heap L) : Val L → Key → Except Thrown (Val L)
  | .null, _ => .ok .null
  | .leaf object, key => .ok (objects.bean object key)
  | .ref r, key =>
    match h.coll r with
    | .map entries => .ok ((valueAt key entries).getD .null)
    | .list elements =>
      match parseInt lib key with
      | none => .error .numberFormat
      | some i =>
        if 0 ≤ i then
          match elements[i.toNat]? with
          | some v => .ok v
          | none => .error .indexOutOfBounds
        else .error .indexOutOfBounds

/-- `Expression.get(Object, KeyPath)`. -/
def getPath (h : Heap L) : Val L → List Key → Except Thrown (Val L)
  | v, [] => .ok v
  | v, key :: path => (get lib objects h v key).bind fun w => getPath h w path

/-- `Expression.evaluate`. -/
def evaluate (h : Heap L) (root : Val L) : Expression D → Except Thrown (Val L)
  | .literal value => .ok (objects.literal value)
  | .var keyPath => getPath lib objects h root keyPath
  | .unary op operand =>
    (evaluate h root operand).bind fun v => objects.unary h op v
  | .binary op left right =>
    (evaluate h root left).bind fun v =>
      (evaluate h root right).bind fun w => objects.binary h op v w

def getValue (h : Heap L) (root : Val L) (expression : Expression D) : Except Thrown (Val L) :=
  (evaluate lib objects h root expression).bind (objects.coerce h)

end Evaluation

def Expression.getArguments : Expression D → List (List Key)
  | .literal _ => []
  | .var keyPath => [keyPath]
  | .unary _ operand => operand.getArguments
  | .binary _ left right => left.getArguments ++ right.getArguments

/-! ## Edits -/

/-- `equals` of values that may be null; none is the overflow of the stack. -/
def equals (h : Heap L) : Nat → Val L → Val L → Option Bool
  | 0, _, _ => none
  | fuel + 1, a, b =>
    match a, b with
    | .null, .null => some true
    | .leaf x, .leaf y => some (x == y)
    | .ref r, .ref r' =>
      match h.coll r, h.coll r' with
      | .map es, .map es' =>
        if es.length ≠ es'.length then some false
        else es.allM fun e =>
          match valueAt e.1 es' with
          | some v => equals h fuel e.2 v
          | none => some false
      | .list vs, .list vs' =>
        if vs.length ≠ vs'.length then some false
        else (vs.zip vs').allM fun p => equals h fuel p.1 p.2
      | _, _ => some false
    | _, _ => some false

/-- An edit of the collection at a place. -/
inductive Edit (L : Type) where
  | put (r : Nat) (key : Key) (value : Val L)
  | remove (r : Nat) (key : Key)
  | splice (r : Nat) (start removed : Nat) (added : List (Val L))
  deriving DecidableEq, Repr

def Edit.place : Edit L → Nat
  | .put r _ _ => r
  | .remove r _ => r
  | .splice r _ _ _ => r

/-- What the listeners of the collection are told. -/
inductive Change where
  | map (key : Key)
  | list (start stop : Nat)
  deriving DecidableEq, Repr

/-- An equal value, or one whose comparison overflows. -/
def putIsSilent (h : Heap L) (old value : Val L) : Bool :=
  match old with
  | .null => value == .null
  | _ => equals h (h.length + 1) old value != some false

/-- The heap and the change reported; nothing for another kind. -/
def edit (h : Heap L) : Edit L → Heap L × Option Change
  | .put r key value =>
    match h.coll r with
    | .map entries =>
      let h' := h.set r (.map (modifyOr key value (fun _ => value) entries))
      match valueAt key entries with
      | some old => (h', if putIsSilent h' old value then none else some (.map key))
      | none => (h', some (.map key))
    | .list _ => (h, none)
  | .remove r key =>
    match h.coll r with
    | .map entries =>
      if (valueAt key entries).isSome then
        (h.set r (.map (entries.filter fun e => e.1 ≠ key)), some (.map key))
      else (h, none)
    | .list _ => (h, none)
  | .splice r start removed added =>
    match h.coll r with
    | .map _ => (h, none)
    | .list elements =>
      if start + removed ≤ elements.length then
        (h.set r (.list (elements.take start ++ added ++ elements.drop (start + removed))),
          some (.list start (start + added.length)))
      else (h, none)

/-! ## The monitors of a key path -/

/-- A `KeyPathMonitor`: its key, and the object it is attached to. -/
structure KeyPathMonitor (L : Type) where
  key : Key
  namespaceValue : Option (Val L) := none
  deriving DecidableEq, Repr

section Monitors

variable (lib : Library D) (objects : Objects D L)

/-- `monitor`, with the exception that ends it. -/
def monitor (h : Heap L) : List (KeyPathMonitor L) → Val L →
    List (KeyPathMonitor L) × Option Thrown
  | [], _ => ([], none)
  | [m], v => ([{ m with namespaceValue := some v }], none)
  | m :: next :: rest, v =>
    match get lib objects h v m.key with
    | .ok .null => ({ m with namespaceValue := some v } :: next :: rest, none)
    | .ok w =>
      let inner := monitor h (next :: rest) w
      ({ m with namespaceValue := some v } :: inner.1, inner.2)
    | .error thrown => ({ m with namespaceValue := some v } :: next :: rest, some thrown)

/-- No monitor has a namespace any more. -/
def unmonitor (monitors : List (KeyPathMonitor L)) : List (KeyPathMonitor L) :=
  monitors.map fun m => { m with namespaceValue := none }

/-- The monitors after an attached one; exceptions end there. -/
def remonitor (h : Heap L) (m : KeyPathMonitor L) (next : List (KeyPathMonitor L)) :
    List (KeyPathMonitor L) :=
  match next with
  | [] => []
  | _ :: _ =>
    match get lib objects h (m.namespaceValue.getD .null) m.key with
    | .ok .null => unmonitor next
    | .ok w => (monitor lib objects h (unmonitor next) w).1
    | .error _ => unmonitor next

/-- The test of `listChangeListener` and `mapChangeListener`. -/
def hears (key : Key) : Change → Bool
  | .map changed => key == changed
  | .list start stop =>
    match parseInt lib key with
    | some i => decide ((start : Int) ≤ i) && decide (i < stop)
    | none => false

/-- The calls of the listeners of one chain, with the number of value-changed events. `before` are
    the monitors that are called, even when detached; `throws` if the listeners of the value cannot
    be. -/
def notify (h : Heap L) (throws : Bool) (r : Nat) (change : Change) :
    List (KeyPathMonitor L) → List (KeyPathMonitor L) → List (KeyPathMonitor L) × Nat
  | b :: before, m :: rest =>
    if b.namespaceValue = some (.ref r) ∧ hears lib m.key change = true ∧ throws = false then
      let inner := notify h throws r change before (remonitor lib objects h m rest)
      (m :: inner.1, inner.2 + 1)
    else
      let inner := notify h throws r change before rest
      (m :: inner.1, inner.2)
  | _, monitors => (monitors, 0)

theorem notify_throws (h : Heap L) (r : Nat) (change : Change)
    (before monitors : List (KeyPathMonitor L)) :
    notify lib objects h true r change before monitors = (monitors, 0) := by
  induction before generalizing monitors with
  | nil => rw [notify.eq_def]
  | cons b before ih =>
    cases monitors with
    | nil => rw [notify.eq_def]
    | cons m rest => rw [notify, if_neg (by simp), ih]

end Monitors

/-! ## The value -/

/-- A change listener is called with the new value. -/
inductive Listener where
  | invalidation
  | change
  deriving DecidableEq, Repr

/-- An `ExpressionValue` with a listener, in its namespace. -/
structure ExpressionValue (D L : Type) where
  heap : Heap L
  root : Val L
  expression : Expression D
  listener : Listener
  argumentMonitors : List (List (KeyPathMonitor L))
  /-- The value-changed notifications so far. -/
  notifications : Nat

namespace ExpressionValue

variable (lib : Library D) (objects : Objects D L)

def value (s : ExpressionValue D L) : Except Thrown (Val L) :=
  getValue lib objects s.heap s.root s.expression

/-- It stops where the first monitor throws. -/
def monitorArguments (h : Heap L) (root : Val L) :
    List (List (KeyPathMonitor L)) → Except Thrown (List (List (KeyPathMonitor L)))
  | [] => .ok []
  | chain :: rest =>
    match monitor lib objects h chain root with
    | (chain', none) => (monitorArguments h root rest).bind fun rest' => .ok (chain' :: rest')
    | (_, some thrown) => .error thrown

/-- The constructor, followed by the first call of `addListener`.  The helper asks for the value
    with either kind of listener: an invalidation listener's observable is validated. -/
def addListener (h : Heap L) (root : Val L) (expression : Expression D) (listener : Listener) :
    Except Thrown (ExpressionValue D L) :=
  let monitors := expression.getArguments.map fun path => path.map fun key => ⟨key, none⟩
  (monitorArguments lib objects h root monitors).bind fun attached =>
    let s : ExpressionValue D L := ⟨h, root, expression, listener, attached, 0⟩
    (s.value lib objects).bind fun _ => .ok s

/-- The notification of a change listener fails when there is no value. -/
def throws (s : ExpressionValue D L) (h : Heap L) : Bool :=
  match s.listener, getValue lib objects h s.root s.expression with
  | .change, .error _ => true
  | _, _ => false

/-- An edit of the namespace, with what its listeners do. -/
def step (s : ExpressionValue D L) (e : Edit L) : ExpressionValue D L :=
  match edit s.heap e with
  | (h', none) => { s with heap := h' }
  | (h', some change) =>
    let told := s.argumentMonitors.map fun chain =>
      notify lib objects h' (s.throws lib objects h') e.place change chain chain
    { s with
      heap := h'
      argumentMonitors := told.map (·.1)
      notifications := s.notifications + (told.map (·.2)).sum }

end ExpressionValue

end OpenJfx.Fxml
