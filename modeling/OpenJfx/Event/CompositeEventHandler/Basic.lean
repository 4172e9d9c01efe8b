/-
  OpenJfx.Event.CompositeEventHandler.Basic

  `com.sun.javafx.event.CompositeEventHandler`: the handlers and filters of one event type, a
  doubly linked list of records.  A record is named by its number of creation and stays in the
  heap with the links it had when removed.  Callbacks may call back, so the object is a machine
  with a stack of frames: one for every dispatch in progress and one for the `find` of a call, as
  a weak handler may be collected between its steps.
-/

import OpenJfx.Lib.DoublyLinked

namespace OpenJfx.Event

variable {H : Type}

/-! ## The records -/

/-- Whether the processor is held weakly, and the filters. -/
structure EventProcessorRecord (H : Type) where
  eventProcessor : H
  isFilter : Bool
  nextRecord : Option Nat
  prevRecord : Option Nat
  deriving DecidableEq

/-- The records by address, with the ends of the list. -/
structure CompositeEventHandler (H : Type) where
  records : List (EventProcessorRecord H)
  firstRecord : Option Nat
  lastRecord : Option Nat
  eventHandler : Option H
  deriving DecidableEq

namespace CompositeEventHandler

def new : CompositeEventHandler H := ⟨[], none, none, none⟩

def nextRecord (c : CompositeEventHandler H) (record : Nat) : Option Nat :=
  c.records[record]?.bind (·.nextRecord)

def prevRecord (c : CompositeEventHandler H) (record : Nat) : Option Nat :=
  c.records[record]?.bind (·.prevRecord)

/-- The processor of a record and its kind. -/
def stored (c : CompositeEventHandler H) (record : Nat) : Option (H × Bool) :=
  c.records[record]?.map fun x => (x.eventProcessor, x.isFilter)

/-- `record.stores(eventProcessor, isFilter)`. -/
def stores [DecidableEq H] (c : CompositeEventHandler H) (record : Nat) (eventProcessor : H)
    (isFilter : Bool) : Bool :=
  c.stored record = some (eventProcessor, isFilter)

def setNextRecord (c : CompositeEventHandler H) (record : Nat) (r : Option Nat) :
    CompositeEventHandler H :=
  { c with records := c.records.modify record fun x => { x with nextRecord := r } }

def setPrevRecord (c : CompositeEventHandler H) (record : Nat) (r : Option Nat) :
    CompositeEventHandler H :=
  { c with records := c.records.modify record fun x => { x with prevRecord := r } }

/-- What follows `prevRecord`, the head of the list when there is none. -/
def after (c : CompositeEventHandler H) : Option Nat → Option Nat
  | some prev => c.nextRecord prev
  | none => c.firstRecord

def setAfter (c : CompositeEventHandler H) (prevRecord r : Option Nat) :
    CompositeEventHandler H :=
  match prevRecord with
  | some prev => c.setNextRecord prev r
  | none => { c with firstRecord := r }

/-- What precedes `nextRecord`, at the end of the list when there is none. -/
def setBefore (c : CompositeEventHandler H) (nextRecord r : Option Nat) :
    CompositeEventHandler H :=
  match nextRecord with
  | some next => c.setPrevRecord next r
  | none => { c with lastRecord := r }

/-- The record keeps its own links. -/
def remove (c : CompositeEventHandler H) (record : Nat) : CompositeEventHandler H :=
  let prevRecord := c.prevRecord record
  let nextRecord := c.nextRecord record
  -- the links of the record itself stay as they are
  (c.setAfter prevRecord nextRecord).setBefore nextRecord prevRecord

/-- Either record is the last one of the heap. -/
def createRecord (c : CompositeEventHandler H) (eventProcessor : H) (isFilter : Bool) :
    CompositeEventHandler H :=
  { c with records := c.records ++ [⟨eventProcessor, isFilter, none, none⟩] }

/-- The record is linked in behind `prevRecord`. -/
def append (c : CompositeEventHandler H) (prevRecord : Option Nat) (newRecord : Nat) :
    CompositeEventHandler H :=
  let nextRecord := c.after prevRecord
  let c := (c.setAfter prevRecord (some newRecord)).setBefore nextRecord (some newRecord)
  (c.setPrevRecord newRecord prevRecord).setNextRecord newRecord nextRecord

end CompositeEventHandler

/-! ## The machine -/

/-- What a `find` is made for. -/
inductive Purpose where
  | add
  | remove
  | contains
  deriving DecidableEq

/-- Before `isDisconnected`, before the call, or inside it. -/
inductive Phase where
  | checking
  | calling
  | handling
  deriving DecidableEq

/-- A call under way. -/
inductive Frame (H : Type) where
  | dispatch (capturing : Bool) (record : Option Nat) (phase : Phase)
  /-- The callback of the handler given to `setEventHandler`. -/
  | eventHandler
  | find (purpose : Purpose) (eventProcessor : H) (isFilter : Bool) (record : Option Nat)
  deriving DecidableEq

/-- `collected` are weak handlers; `removed` not added since. -/
structure State (H : Type) where
  handler : CompositeEventHandler H
  collected : H → Bool
  stack : List (Frame H)
  removed : List (H × Bool)

def State.new : State H := ⟨CompositeEventHandler.new, fun _ => false, [], []⟩

/-- Moves of the callers, the machine, the collector. -/
inductive Action (H : Type) where
  | setEventHandler (eventHandler : Option H)
  | call (purpose : Purpose) (eventProcessor : H) (isFilter : Bool)
  | dispatchEvent (capturing : Bool)
  | callbackReturns
  | callbackThrows
  | proceed
  | collect (weakEventHandler : H)

namespace Action

def addEventHandler (eventHandler : H) : Action H := .call .add eventHandler false

def removeEventHandler (eventHandler : H) : Action H := .call .remove eventHandler false

def addEventFilter (eventFilter : H) : Action H := .call .add eventFilter true

def removeEventFilter (eventFilter : H) : Action H := .call .remove eventFilter true

def containsHandler (eventHandler : H) : Action H := .call .contains eventHandler false

def containsFilter (eventFilter : H) : Action H := .call .contains eventFilter true

def dispatchBubblingEvent : Action H := .dispatchEvent false

def dispatchCapturingEvent : Action H := .dispatchEvent true

end Action

section Machine

variable (isWeak : H → Bool)

/-- Outside of any dispatch, or inside a callback. -/
def Frame.isCallback : Frame H → Bool
  | .dispatch _ (some _) .handling => true
  | .eventHandler => true
  | _ => false

/-- A callback is running, or nothing is. -/
def State.callerRuns (s : State H) : Bool := s.stack.head?.all Frame.isCallback

def State.isDisconnected (s : State H) (record : Nat) : Bool :=
  (s.handler.stored record).any fun p => isWeak p.1 && s.collected p.1

/-- Of the kind of the dispatch, and a weak one still alive. -/
def State.handles (s : State H) (capturing : Bool) (record : Nat) : Option (H × Bool) :=
  (s.handler.stored record).filter fun p =>
    p.2 == capturing && !(isWeak p.1 && s.collected p.1)

/-- The end of a call, with the record `find` has returned. -/
def State.conclude [DecidableEq H] (s : State H) (purpose : Purpose) (eventProcessor : H)
    (isFilter : Bool) (found : Option Nat) (callers : List (Frame H)) : State H :=
  match purpose, found with
  | .add, none =>
    let created := s.handler.createRecord eventProcessor isFilter
    { s with
      handler := created.append created.lastRecord s.handler.records.length
      stack := callers
      removed := s.removed.filter (· ≠ (eventProcessor, isFilter)) }
  | .add, some _ =>
    { s with
      stack := callers
      removed := s.removed.filter (· ≠ (eventProcessor, isFilter)) }
  | .remove, some record =>
    { s with
      handler := s.handler.remove record
      stack := callers
      removed := (eventProcessor, isFilter) :: s.removed }
  | .remove, none =>
    { s with
      stack := callers
      removed := (eventProcessor, isFilter) :: s.removed }
  | .contains, _ => { s with stack := callers }

/-- One step of the loop at the top of the stack. -/
def State.proceed [DecidableEq H] (s : State H) : Option (State H) :=
  match s.stack with
  | .find purpose eventProcessor isFilter none :: callers =>
    some (s.conclude purpose eventProcessor isFilter none callers)
  | .find purpose eventProcessor isFilter (some record) :: callers =>
    if s.isDisconnected isWeak record then
      let removed := s.handler.remove record
      some { s with
        handler := removed
        stack := .find purpose eventProcessor isFilter (removed.nextRecord record) :: callers }
    else if s.handler.stores record eventProcessor isFilter then
      some (s.conclude purpose eventProcessor isFilter (some record) callers)
    else
      some { s with
        stack := .find purpose eventProcessor isFilter (s.handler.nextRecord record) :: callers }
  | .dispatch capturing none _ :: callers =>
    if !capturing && s.handler.eventHandler.isSome then
      some { s with stack := .eventHandler :: callers }
    else
      some { s with stack := callers }
  | .dispatch capturing (some record) .checking :: callers =>
    if s.isDisconnected isWeak record then
      let removed := s.handler.remove record
      some { s with
        handler := removed
        stack := .dispatch capturing (removed.nextRecord record) .checking :: callers }
    else
      some { s with stack := .dispatch capturing (some record) .calling :: callers }
  | .dispatch capturing (some record) .calling :: callers =>
    if (s.handles isWeak capturing record).isSome then
      some { s with stack := .dispatch capturing (some record) .handling :: callers }
    else
      some { s with
        stack := .dispatch capturing (s.handler.nextRecord record) .checking :: callers }
  | _ => none

/-- A callback returns to the loop that called it. -/
def State.callbackReturns (s : State H) : Option (State H) :=
  match s.stack with
  | .dispatch capturing (some record) .handling :: callers =>
    some { s with
      stack := .dispatch capturing (s.handler.nextRecord record) .checking :: callers }
  | .eventHandler :: callers => some { s with stack := callers }
  | _ => none

/-- An exception of a callback ends the dispatch that called it. -/
def State.callbackThrows (s : State H) : Option (State H) :=
  match s.stack with
  | .dispatch _ (some _) .handling :: callers => some { s with stack := callers }
  | .eventHandler :: callers => some { s with stack := callers }
  | _ => none

/-- None where the step is not possible. -/
def step [DecidableEq H] (s : State H) : Action H → Option (State H)
  | .setEventHandler eventHandler =>
    if s.callerRuns then some { s with handler := { s.handler with eventHandler } } else none
  | .call purpose eventProcessor isFilter =>
    if s.callerRuns then
      some { s with
        stack := .find purpose eventProcessor isFilter s.handler.firstRecord :: s.stack }
    else none
  | .dispatchEvent capturing =>
    if s.callerRuns then
      some { s with stack := .dispatch capturing s.handler.firstRecord .checking :: s.stack }
    else none
  | .callbackReturns => s.callbackReturns
  | .callbackThrows => s.callbackThrows
  | .proceed => s.proceed isWeak
  | .collect weakEventHandler =>
    some { s with collected := Function.update s.collected weakEventHandler true }

/-- The processor, with its kind, that a step invokes. -/
def State.invoked (s : State H) : Action H → Option (H × Bool)
  | .proceed =>
    match s.stack with
    | .dispatch capturing (some record) .calling :: _ => s.handles isWeak capturing record
    | _ => none
  | _ => none

/-- The record that a step takes out of the list. -/
def State.unlinked [DecidableEq H] (s : State H) : Action H → Option Nat
  | .proceed =>
    match s.stack with
    | .find purpose eventProcessor isFilter (some record) :: _ =>
      if s.isDisconnected isWeak record then some record
      else if s.handler.stores record eventProcessor isFilter && purpose == .remove then
        some record
      else none
    | .dispatch _ (some record) .checking :: _ =>
      if s.isDisconnected isWeak record then some record else none
    | _ => none
  | _ => none

end Machine

end OpenJfx.Event
