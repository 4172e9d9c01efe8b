/-
  OpenJfx.Monocle.MultiTouch.Basic

  Multitouch input with tracking IDs (`LinuxStatefulMultiTouchProcessor`), with the touch states,
  the lookahead filter and the receiver.  The processor pushes one state object, into which the
  filter writes; no two states share a point, so an object is a value that each call returns anew.
-/

import Mathlib.Data.List.Sort
import Mathlib.Tactic.Ring

namespace OpenJfx.Monocle

/-! ## Touch states -/

/-- `TouchState.Point`. -/
structure Point where
  id : Int
  x : Int
  y : Int
  deriving DecidableEq, Repr

/-- The difference, as an `int`, is not positive. It is an order only where no difference overflows. -/
def Point.NotAfter (p₁ p₂ : Point) : Prop := (p₁.id - p₂.id).bmod (2 ^ 32) ≤ 0

instance : DecidableRel Point.NotAfter := fun p₁ p₂ =>
  inferInstanceAs (Decidable ((p₁.id - p₂.id).bmod (2 ^ 32) ≤ 0))

/-- `TouchState`, without the cached window. -/
structure TouchState where
  points : List Point
  primaryID : Int
  deriving DecidableEq, Repr

namespace TouchState

def new : TouchState := ⟨[], -1⟩

/-- `getPointForID`. The ID -1 matches every point. -/
def getPointForID (ts : TouchState) (id : Int) : Option Point :=
  ts.points.find? fun p => id = -1 ∨ p.id = id

/-- The first point's, unless the old one is still there. -/
def assignPrimaryID (ts : TouchState) : TouchState :=
  match ts.points with
  | [] => { ts with primaryID := -1 }
  | p :: _ =>
    if ts.primaryID ≤ 0 then { ts with primaryID := p.id }
    else if ts.points.any fun q => q.id = ts.primaryID then ts
    else { ts with primaryID := p.id }

def clear (ts : TouchState) : TouchState := { ts with points := [] }

def addPoint (ts : TouchState) (p : Point) : TouchState := { ts with points := ts.points ++ [p] }

/-- The loop of `removePointForID`; the point moved there is not looked at. -/
def removeLoop (id : Int) : List Point → List Point
  | [] => []
  | [p] => if p.id = id then [] else [p]
  | p :: q :: rest =>
    if p.id = id then q :: removeLoop id rest else p :: removeLoop id (q :: rest)

def removePointForID (ts : TouchState) (id : Int) : TouchState :=
  { ts with points := removeLoop id ts.points }

/-- Write to the point that `getPointForID` returns. -/
def modifyPointForID (ts : TouchState) (id : Int) (f : Point → Point) : TouchState :=
  { ts with points := go ts.points }
where
  go : List Point → List Point
    | [] => []
    | p :: rest => if id = -1 ∨ p.id = id then f p :: rest else p :: go rest

/-- `insertionSort` stands for `Arrays.sort` also where the differences of IDs overflow, so that
    the comparator is no order; what the code returns there is not said to be this list. -/
def sortPointsByID (ts : TouchState) : TouchState :=
  { ts with points := ts.points.insertionSort Point.NotAfter }

/-- As many points, with the same IDs unless these are ignored. -/
def canBeFoldedWith (ts other : TouchState) (ignoreIDs : Bool) : Bool :=
  if other.points.length ≠ ts.points.length then false
  else if ignoreIDs then true
  else decide (other.points.map Point.id = ts.points.map Point.id)

end TouchState

theorem TouchState.sortPointsByID_perm (ts : TouchState) :
    ts.sortPointsByID.points.Perm ts.points := List.perm_insertionSort _ _

theorem Point.notAfter_iff {p q : Point} (h1 : -2 ^ 31 ≤ p.id - q.id) (h2 : p.id - q.id < 2 ^ 31) :
    p.NotAfter q ↔ p.id ≤ q.id := by
  unfold Point.NotAfter
  rw [Int.bmod_def]
  omega

theorem TouchState.sortPointsByID_sorted {ts : TouchState}
    (h : ∀ p ∈ ts.points, ∀ q ∈ ts.points, p.id - q.id < 2 ^ 31) :
    (ts.sortPointsByID.points.map Point.id).Pairwise (· ≤ ·) := by
  have hsort := List.map_insertionSort (r := Point.NotAfter) (s := (· ≤ ·)) Point.id ts.points
    fun p hp q hq => Point.notAfter_iff (by have := h q hq p hp; omega) (h p hp q hq)
  rw [TouchState.sortPointsByID, hsort]
  exact List.pairwise_insertionSort _ _

theorem TouchState.assignPrimaryID_points (ts : TouchState) :
    ts.assignPrimaryID.points = ts.points := by
  unfold assignPrimaryID
  split
  · rfl
  · split
    · rfl
    · split <;> rfl

/-! ## The filter -/

/-- `LookaheadTouchFilter.FilterState`. -/
inductive FilterState where
  | clean
  | pendingUnmodifiable
  | pendingModifiable
  deriving DecidableEq, Repr

/-- The filter, which holds one state back. -/
structure LookaheadTouchFilter where
  previousState : TouchState
  filterState : FilterState
  assignIDs : Bool
  deriving DecidableEq, Repr

namespace LookaheadTouchFilter

def new (assignIDs : Bool) : LookaheadTouchFilter := ⟨.new, .clean, assignIDs⟩

/-- The filter, the state object, and whether it was consumed. -/
def filter (f : LookaheadTouchFilter) (state : TouchState) :
    LookaheadTouchFilter × TouchState × Bool :=
  let state := state.sortPointsByID
  match f.filterState with
  | .clean => ({ f with previousState := state, filterState := .pendingUnmodifiable }, state, true)
  | .pendingUnmodifiable =>
    -- the previous state goes into the object, and the new one is held
    let tmpState := state
    let state := f.previousState
    if state.canBeFoldedWith tmpState f.assignIDs then
      ({ f with previousState := tmpState, filterState := .pendingModifiable }, state, false)
    else ({ f with previousState := tmpState }, state, false)
  | .pendingModifiable =>
    if state.canBeFoldedWith f.previousState f.assignIDs then
      ({ f with previousState := state }, state, true)
    else
      ({ f with previousState := state, filterState := .pendingUnmodifiable }, f.previousState, false)

/-- `flush`: the filter afterwards and the state it gives out, if any. -/
def flush (f : LookaheadTouchFilter) : LookaheadTouchFilter × Option TouchState :=
  match f.filterState with
  | .clean => (f, none)
  | _ => ({ f with filterState := .clean }, some f.previousState)

end LookaheadTouchFilter

/-! ## The processor -/

/-- The lines of an input device, as far as the processor tells them apart. -/
inductive InputEvent where
  | absMtSlot (value : Int)
  | absMtTrackingID (value : Int)
  | absX (value : Int)
  | absMtPositionX (value : Int)
  | absY (value : Int)
  | absMtPositionY (value : Int)
  | btnTouch (value : Int)
  | synMtReport
  | synReport
  | other
  deriving DecidableEq, Repr

def idUnassigned : Int := -1

/-- `Integer.MIN_VALUE`. -/
def coordUndefined : Int := -2 ^ 31

/-- With its pipeline and the calls of `setState`. -/
structure MultiTouchProcessor where
  state : TouchState
  filter : LookaheadTouchFilter
  currentID : Int
  currentSlot : Int
  slotToIDMap : Int → Option Int
  handed : List TouchState

/-- The local variables of `processEvents`. -/
structure Locals where
  x : Int
  y : Int
  allPointsReleased : Bool
  deriving DecidableEq, Repr

def Locals.start : Locals := ⟨coordUndefined, coordUndefined, false⟩

namespace MultiTouchProcessor

def new : MultiTouchProcessor := ⟨.new, .new false, idUnassigned, 0, fun _ => none, []⟩

/-- The state is sorted and gets its primary ID. -/
def setState (p : MultiTouchProcessor) (newState : TouchState) : MultiTouchProcessor × TouchState :=
  let newState := newState.sortPointsByID.assignPrimaryID
  ({ p with handed := p.handed ++ [newState] }, newState)

/-- `TouchPipeline.pushState(state)`. -/
def pushState (p : MultiTouchProcessor) : MultiTouchProcessor :=
  match p.filter.filter p.state with
  | (filter, state, true) => { p with filter, state }
  | (filter, state, false) =>
    let (p, state) := { p with filter }.setState state
    { p with state }

/-- The filter has nothing to give out after it. -/
def flush (p : MultiTouchProcessor) : MultiTouchProcessor :=
  match p.filter.flush with
  | (_, none) => p
  | (filter, some flushState) => ({ p with filter }.setState flushState).1

/-- A point that is new is added. -/
def updatePoint (p : MultiTouchProcessor) (x y : Int) : MultiTouchProcessor :=
  let state := match p.state.getPointForID p.currentID with
    | none => p.state.addPoint ⟨p.currentID, 0, 0⟩
    | some _ => p.state
  { p with
    state := state.modifyPointForID p.currentID fun q =>
      { q with
        x := if x ≠ coordUndefined then x else q.x
        y := if y ≠ coordUndefined then y else q.y } }

def removeCurrent (p : MultiTouchProcessor) : MultiTouchProcessor :=
  { p with state := p.state.removePointForID p.currentID }

/-- One turn of the loop of `processEvents`. -/
def processEvent (p : MultiTouchProcessor) (v : Locals) :
    InputEvent → MultiTouchProcessor × Locals
  | .absMtSlot value =>
    -- coordinates received already belong to the slot that was current
    let (p, v) :=
      if p.currentID ≠ idUnassigned ∧ (v.x ≠ coordUndefined ∨ v.y ≠ coordUndefined) then
        (p.updatePoint v.x v.y, { v with x := coordUndefined, y := coordUndefined })
      else (p, v)
    ({ p with
        currentSlot := value
        currentID := (p.slotToIDMap value).getD idUnassigned }, v)
  | .absMtTrackingID value =>
    let p := if value = idUnassigned ∧ p.currentID ≠ idUnassigned then p.removeCurrent else p
    ({ p with
        currentID := value
        slotToIDMap := Function.update p.slotToIDMap p.currentSlot
          (if value = idUnassigned then none else some value) }, v)
  | .absX value | .absMtPositionX value =>
    (p, if v.x = coordUndefined then { v with x := value } else v)
  | .absY value | .absMtPositionY value =>
    (p, if v.y = coordUndefined then { v with y := value } else v)
  | .btnTouch value => (p, if value = 0 then { v with allPointsReleased := true } else v)
  | .synMtReport =>
    let p :=
      if p.currentID ≠ idUnassigned then
        if v.x = coordUndefined ∧ v.y = coordUndefined then
          { p.removeCurrent with currentID := idUnassigned }
        else p.updatePoint v.x v.y
      else p
    (p, { v with x := coordUndefined, y := coordUndefined })
  | .synReport =>
    let p :=
      if (v.x ≠ coordUndefined ∨ v.y ≠ coordUndefined) ∧ p.currentID ≠ idUnassigned then
        p.updatePoint v.x v.y
      else if v.allPointsReleased then { p with state := p.state.clear }
      else p
    (p.pushState, .start)
  | .other => (p, v)

/-- The loop of `processEvents`. -/
def processLoop (p : MultiTouchProcessor) (v : Locals) :
    List InputEvent → MultiTouchProcessor × Locals
  | [] => (p, v)
  | e :: events =>
    let (p, v) := p.processEvent v e
    p.processLoop v events

/-- One call, with the filter flushed at its end. -/
def processEvents (p : MultiTouchProcessor) (events : List InputEvent) : MultiTouchProcessor :=
  (p.processLoop .start events).1.flush

end MultiTouchProcessor

end OpenJfx.Monocle
