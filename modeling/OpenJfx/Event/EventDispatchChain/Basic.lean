/-
  OpenJfx.Event.EventDispatchChain.Basic

  `com.sun.javafx.event.EventDispatchChainImpl`: a linked list of dispatchers in two arrays, which
  have length 0 where they are null.  While it is dispatched, a dispatcher is a `Program` of calls
  on the chain, which may depend on the world `W`, the event and what the calls return.  The same
  programs run on a chain that is a list.
-/

import OpenJfx.Lib.JavaArray
import OpenJfx.Lib.Outcome

namespace OpenJfx.Event

open JavaArray

variable {D E W C : Type}

/-- The cells, of which the first `reservedCount` are in use, with the ends of the chain. -/
structure EventDispatchChainImpl (D : Type) where
  dispatchers : List (Option D)
  nextLinks : List Nat
  reservedCount : Nat
  activeCount : Nat
  headIndex : Nat
  tailIndex : Nat

/-! ## Dispatchers -/

/-- What a dispatcher does, with the world before each call. -/
inductive Program (D E W : Type) where
  | returns (event : Option E) (w : W)
  | append (d : D) (w : W) (next : Program D E W)
  | prepend (d : D) (w : W) (next : Program D E W)
  | dispatchEvent (event : Option E) (w : W) (next : Option E → W → Program D E W)

/-- A chain as programs see it. -/
structure ChainCalls (D E W C : Type) where
  append : D → C → Except JavaException C
  prepend : D → C → Except JavaException C
  dispatchEvent : Option E → C × W → Outcome (C × W) (Option E)

/-- Runs a program on a chain. -/
def Program.run (calls : ChainCalls D E W C) : Program D E W → C → Outcome (C × W) (Option E)
  | .returns event w, c => .returns event (c, w)
  | .append d w next, c =>
    match calls.append d c with
    | .ok c => next.run calls c
    | .error e => .throws e (c, w)
  | .prepend d w next, c =>
    match calls.prepend d c with
    | .ok c => next.run calls c
    | .error e => .throws e (c, w)
  | .dispatchEvent event w next, c =>
    (calls.dispatchEvent event (c, w)).andThen fun returnEvent s =>
      (next returnEvent s.2).run calls s.1

namespace EventDispatchChainImpl

/-! ## The chain in the arrays -/

/-- The constructor. -/
def new : EventDispatchChainImpl D := ⟨[], [], 0, 0, 0, 0⟩

/-- `CAPACITY_GROWTH_FACTOR`. -/
def capacityGrowthFactor : Nat := 8

/-- The arrays grow to a multiple of the factor. -/
def ensureCapacity (size : Nat) (c : EventDispatchChainImpl D) :
    Except JavaException (EventDispatchChainImpl D) :=
  let newCapacity := (size + capacityGrowthFactor - 1) / capacityGrowthFactor * capacityGrowthFactor
  if newCapacity = 0 then .ok c
  else if c.dispatchers.length < newCapacity then do
    let newDispatchers ← JavaArray.new newCapacity none
    let newLinks ← JavaArray.new newCapacity 0
    let newDispatchers ← copy c.dispatchers 0 newDispatchers 0 c.reservedCount
    let newLinks ← copy c.nextLinks 0 newLinks 0 c.reservedCount
    return { c with dispatchers := newDispatchers, nextLinks := newLinks }
  else .ok c

def insertFirst (eventDispatcher : D) (c : EventDispatchChainImpl D) :
    Except JavaException (EventDispatchChainImpl D) := do
  let dispatchers ← set c.dispatchers c.reservedCount (some eventDispatcher)
  return { c with
    dispatchers := dispatchers
    headIndex := c.reservedCount
    tailIndex := c.reservedCount
    activeCount := 1
    reservedCount := c.reservedCount + 1 }

/-- A new cell behind the tail. -/
def append (eventDispatcher : D) (c : EventDispatchChainImpl D) :
    Except JavaException (EventDispatchChainImpl D) := do
  let c ← ensureCapacity (c.reservedCount + 1) c
  if c.activeCount = 0 then insertFirst eventDispatcher c
  else
    let dispatchers ← set c.dispatchers c.reservedCount (some eventDispatcher)
    let nextLinks ← set c.nextLinks c.tailIndex c.reservedCount
    return { c with
      dispatchers := dispatchers
      nextLinks := nextLinks
      tailIndex := c.reservedCount
      activeCount := c.activeCount + 1
      reservedCount := c.reservedCount + 1 }

/-- A new cell in front of the head. -/
def prepend (eventDispatcher : D) (c : EventDispatchChainImpl D) :
    Except JavaException (EventDispatchChainImpl D) := do
  let c ← ensureCapacity (c.reservedCount + 1) c
  if c.activeCount = 0 then insertFirst eventDispatcher c
  else
    let dispatchers ← set c.dispatchers c.reservedCount (some eventDispatcher)
    let nextLinks ← set c.nextLinks c.reservedCount c.headIndex
    return { c with
      dispatchers := dispatchers
      nextLinks := nextLinks
      headIndex := c.reservedCount
      activeCount := c.activeCount + 1
      reservedCount := c.reservedCount + 1 }

/-- "pop saved state" -/
def popSaved (saved c : EventDispatchChainImpl D) : EventDispatchChainImpl D :=
  { c with
    headIndex := saved.headIndex
    tailIndex := saved.tailIndex
    activeCount := saved.activeCount
    reservedCount := saved.reservedCount }

/-- `dispatchEvent(event)`, where a dispatcher does what `behave` says. -/
def dispatchEvent (behave : D → Option E → W → Program D E W) : Nat → Option E →
    EventDispatchChainImpl D × W → Outcome (EventDispatchChainImpl D × W) (Option E)
  | 0, _, _ => .overflows
  | stack + 1, event, (c, w) =>
    if c.activeCount = 0 then .returns event (c, w)
    else
      match get c.dispatchers c.headIndex, get c.nextLinks c.headIndex with
      | .error e, _ => .throws e (c, w)
      | .ok _, .error e => .throws e (c, w)
      | .ok nextEventDispatcher, .ok nextLink =>
        let popped := { c with headIndex := nextLink, activeCount := c.activeCount - 1 }
        match nextEventDispatcher with
        | none => .throws .nullPointer (popped, w)
        | some d =>
          ((behave d event w).run ⟨append, prepend, dispatchEvent behave stack⟩ popped).andThen
            fun returnEvent s => .returns returnEvent (popSaved c s.1, s.2)

/-- The calls on the chain that nest at most `stack` dispatches. -/
def calls (behave : D → Option E → W → Program D E W) (stack : Nat) :
    ChainCalls D E W (EventDispatchChainImpl D) :=
  ⟨append, prepend, dispatchEvent behave stack⟩

/-- The dispatchers from a cell on. -/
def visibleFrom (c : EventDispatchChainImpl D) : Nat → Nat → List (Option D)
  | 0, _ => []
  | count + 1, index =>
    (c.dispatchers[index]?.getD none) :: visibleFrom c count (c.nextLinks[index]?.getD 0)

/-- The visible chain: `activeCount` dispatchers from the head on. -/
def visible (c : EventDispatchChainImpl D) : List (Option D) :=
  c.visibleFrom c.activeCount c.headIndex

end EventDispatchChainImpl

/-! ## The chain as a list -/

namespace ListChain

/-- The head gets the event and sees the rest. -/
def dispatchEvent (behave : D → Option E → W → Program D E W) : Nat → Option E →
    List D × W → Outcome (List D × W) (Option E)
  | 0, _, _ => .overflows
  | _ + 1, event, ([], w) => .returns event ([], w)
  | stack + 1, event, (d :: rest, w) =>
    ((behave d event w).run
      ⟨fun d l => .ok (l ++ [d]), fun d l => .ok (d :: l), dispatchEvent behave stack⟩ rest).andThen
        fun returnEvent s => .returns returnEvent (d :: rest, s.2)

def calls (behave : D → Option E → W → Program D E W) (stack : Nat) :
    ChainCalls D E W (List D) :=
  ⟨fun d l => .ok (l ++ [d]), fun d l => .ok (d :: l), dispatchEvent behave stack⟩

end ListChain

end OpenJfx.Event
