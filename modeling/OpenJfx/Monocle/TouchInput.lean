/-
  OpenJfx.Monocle.TouchInput

  The touch events that `setState` posts, and the windows both states cache.  All its paths send
  one event for each ID (`changes`, `setState_eq`).  A touch ID is down in a view if and only if
  that is the view of the current window and the state has the ID.
-/

import OpenJfx.Lib.JavaArray
import OpenJfx.Lib.Machine
import OpenJfx.Monocle.MultiTouch.Basic
import Mathlib.Computability.Language
import Mathlib.Data.List.Find

namespace OpenJfx.Monocle

open List

open OpenJfx (JavaException JavaArray.set runActions AllSteps)

variable {types : List TouchEventType} {ts old : TouchState}

/-! ## States with a window -/

/-- `TouchState`, with the cached window. -/
structure WindowTouchState (W : Type) extends TouchState where
  window : Option W

namespace WindowTouchState

variable {W : Type}

def new : WindowTouchState W := ⟨.new, none⟩

def ids (ts : WindowTouchState W) : List Int := ts.points.map Point.id

def sortPointsByID (ts : WindowTouchState W) : WindowTouchState W :=
  { ts with toTouchState := ts.toTouchState.sortPointsByID }

def assignPrimaryID (ts : WindowTouchState W) : WindowTouchState W :=
  { ts with toTouchState := ts.toTouchState.assignPrimaryID }

/-- `getWindow`: the state afterwards, with the window returned. -/
def getWindow (ts : WindowTouchState W) (getWindowForLocation : Int → Int → Option W)
    (recalculateCache : Bool) (fallback : Option W) : WindowTouchState W :=
  let ts := if ts.window.isNone then { ts with window := fallback } else ts
  if recalculateCache then
    let ts := { ts with window := fallback }
    if ts.primaryID ≥ 0 then
      match ts.getPointForID ts.primaryID with
      | some p => { ts with window := getWindowForLocation p.x p.y }
      | none => ts
    else ts
  else ts

/-- The same points in order, primary ID and window. -/
def equalsSorted [DecidableEq W] (this ts : WindowTouchState W) : Bool :=
  decide (ts.points.length = this.points.length ∧ ts.primaryID = this.primaryID ∧
    ts.window = this.window ∧ ts.points = this.points)

end WindowTouchState

/-! ## The receiver -/

/-- The types, with 0 for an entry not written. -/
inductive TouchEventType where
  | zero
  | pressed
  | moved
  | released
  | still
  deriving DecidableEq, Repr

/-- A call of `notifyNextTouchEvent`, with absolute coordinates. -/
structure TouchPoint where
  type : TouchEventType
  id : Int
  x : Int
  y : Int
  deriving DecidableEq, Repr

/-- The entry of arrays that have not been written to. -/
def TouchPoint.unwritten : TouchPoint := ⟨.zero, 0, 0, 0⟩

/-- What is dispatched for one view. -/
structure TouchBatch (V : Type) where
  view : V
  touchEventCount : Nat
  points : List TouchPoint
  deriving DecidableEq, Repr

def TouchBatch.ids {V : Type} (b : TouchBatch V) : List Int := b.points.map TouchPoint.id

/-- `TouchInput`, with the batches it has posted. -/
structure TouchInput (W V : Type) where
  state : WindowTouchState W
  posted : List (TouchBatch V)

variable {p : Point} {e : Int}

namespace TouchInput

variable {W V : Type}

def new : TouchInput W V := ⟨.new, []⟩

def postPoints (view : V) (points : List TouchPoint) : TouchBatch V := ⟨view, points.length, points⟩

def postPoint (view : V) (type : TouchEventType) (p : Point) : TouchBatch V :=
  ⟨view, 1, [⟨type, p.id, p.x, p.y⟩]⟩

def postNoPoints (view : V) : TouchBatch V := ⟨view, 0, []⟩

/-- The same event type for all points of the state. -/
def postTouchEvent (getView : W → Option V) (ts : WindowTouchState W) (eventType : TouchEventType) :
    List (TouchBatch V) :=
  match ts.window.bind getView with
  | none => []
  | some view =>
    match ts.points with
    | [] => [postNoPoints view]
    | [p] => [postPoint view eventType p]
    | points => [postPoints view (points.map fun p => ⟨eventType, p.id, p.x, p.y⟩)]

/-- The number of points in the union of the old and new states. -/
def countEvents (state newState : TouchState) : Nat :=
  newState.points.foldl
    (fun count newPoint => if (state.getPointForID newPoint.id).isNone then count + 1 else count)
    state.points.length

/-- What is sent for a point of the old state. -/
def oldPointEvent (newState : TouchState) (oldPoint : Point) : TouchPoint :=
  match newState.getPointForID oldPoint.id with
  | some newPoint =>
    if newPoint.x = oldPoint.x ∧ newPoint.y = oldPoint.y then
      ⟨.still, newPoint.id, newPoint.x, newPoint.y⟩
    else ⟨.moved, newPoint.id, newPoint.x, newPoint.y⟩
  | none => ⟨.released, oldPoint.id, oldPoint.x, oldPoint.y⟩

/-- The loop over the old points, which fills the arrays from index `i`. -/
def fillOldPoints (newState : TouchState) :
    List Point → Int → List TouchPoint → Except JavaException (List TouchPoint)
  | [], _, arrays => .ok arrays
  | oldPoint :: rest, i, arrays => do
    let arrays ← JavaArray.set arrays i (oldPointEvent newState oldPoint)
    fillOldPoints newState rest (i + 1) arrays

/-- The loop over the new points, where `j` is the next free index. -/
def fillNewPoints (state : TouchState) :
    List Point → Int → List TouchPoint → Except JavaException (List TouchPoint)
  | [], _, arrays => .ok arrays
  | newPoint :: rest, j, arrays =>
    match state.getPointForID newPoint.id with
    | none => do
      let arrays ← JavaArray.set arrays j ⟨.pressed, newPoint.id, newPoint.x, newPoint.y⟩
      fillNewPoints state rest (j + 1) arrays
    | some _ => fillNewPoints state rest j arrays

/-- The changes from one state to the next, in the same view. -/
def postChanges (view : V) (state newState : TouchState) : Except JavaException (TouchBatch V) :=
  let count := countEvents state newState
  if count = 0 then .ok (postNoPoints view)
  else if count = 1 then
    match state.points, newState.points with
    | [oldPoint], _ => .ok ⟨view, 1, [oldPointEvent newState oldPoint]⟩
    | _, newPoint :: _ => .ok (postPoint view .pressed newPoint)
    | _, [] => .error .nullPointer
  else do
    -- four arrays, which are only ever written at the same index
    let arrays := List.replicate count TouchPoint.unwritten
    let arrays ← fillOldPoints newState state.points 0 arrays
    let arrays ← fillNewPoints state newState.points state.points.length arrays
    return postPoints view arrays

/-- Sorted, compared with the old state, and posted. -/
def setState [DecidableEq W] [DecidableEq V] (getView : W → Option V)
    (getWindowForLocation : Int → Int → Option W) (t : TouchInput W V)
    (newState : WindowTouchState W) : Except JavaException (TouchInput W V) := do
  let newState := newState.sortPointsByID.assignPrimaryID
  let state := t.state.getWindow getWindowForLocation false none
  let oldWindow := state.window
  let recalculateWindow := decide (state.points.length = 0)
  let newState := newState.getWindow getWindowForLocation recalculateWindow oldWindow
  let oldView := oldWindow.bind getView
  let view := newState.window.bind getView
  let batches ←
    if newState.equalsSorted state then pure []
    else if view ≠ oldView then
      pure (postTouchEvent getView state .released ++ postTouchEvent getView newState .pressed)
    else match view with
      | some view => (postChanges view state.toTouchState newState.toTouchState).map ([·])
      | none => pure []
  return { state := newState, posted := t.posted ++ batches }

/-! ## What a call posts -/

/-- A new point, as it is sent. -/
def pointEvent (type : TouchEventType) (p : Point) : TouchPoint := ⟨type, p.id, p.x, p.y⟩

/-- The points of the new state that the old one has not. -/
def newPoints (state newState : TouchState) : List Point :=
  newState.points.filter fun p => (state.getPointForID p.id).isNone

/-- The events for the union of the states. -/
def changes (state newState : TouchState) : List TouchPoint :=
  state.points.map (oldPointEvent newState) ++ (newPoints state newState).map (pointEvent .pressed)

theorem countEvents_eq (state newState : TouchState) :
    countEvents state newState = (changes state newState).length := by
  have hcnt : ∀ (points : List Point) (n : Nat), points.foldl (fun count newPoint =>
      if (state.getPointForID newPoint.id).isNone then count + 1 else count) n =
        n + (points.filter fun p => (state.getPointForID p.id).isNone).length := by
    intro points
    induction points with
    | nil => exact fun n => rfl
    | cons p points ih =>
      intro n
      rw [foldl_cons, ih, filter_cons]
      split
      · rw [length_cons]
        omega
      · rfl
  rw [countEvents, hcnt, changes, length_append, length_map, length_map, newPoints]

theorem fillOldPoints_eq (newState : TouchState) (points : List Point) (done arrays : List TouchPoint)
    (h : points.length ≤ arrays.length) :
    fillOldPoints newState points done.length (done ++ arrays) =
      .ok (done ++ points.map (oldPointEvent newState) ++ arrays.drop points.length) := by
  induction points generalizing done arrays with
  | nil => simp [fillOldPoints]
  | cons p points ih =>
    cases arrays with
    | nil => cases h
    | cons slot arrays =>
      have hrest := ih (done ++ [oldPointEvent newState p]) arrays (Nat.le_of_succ_le_succ h)
      rw [fillOldPoints, OpenJfx.JavaArray.set_seam]
      simpa [bind, Except.bind] using hrest

theorem fillNewPoints_eq (state : TouchState) (points : List Point) (done arrays : List TouchPoint)
    (h : (points.filter fun p => (state.getPointForID p.id).isNone).length ≤ arrays.length) :
    fillNewPoints state points done.length (done ++ arrays) =
      .ok (done ++ (points.filter fun p => (state.getPointForID p.id).isNone).map
          (pointEvent .pressed) ++
        arrays.drop (points.filter fun p => (state.getPointForID p.id).isNone).length) := by
  induction points generalizing done arrays with
  | nil => simp [fillNewPoints]
  | cons p points ih =>
    rw [fillNewPoints]
    obtain hnone | ⟨q, hsome⟩ := Option.eq_none_or_eq_some (state.getPointForID p.id)
    · rw [filter_cons_of_pos (by rw [hnone]; rfl)] at h ⊢
      simp only [hnone]
      cases arrays with
      | nil => cases h
      | cons slot arrays =>
        have hrest := ih (done ++ [pointEvent .pressed p]) arrays (Nat.le_of_succ_le_succ h)
        rw [OpenJfx.JavaArray.set_seam]
        simpa [bind, Except.bind, pointEvent] using hrest
    · rw [filter_cons_of_neg (by rw [hsome]; exact Bool.false_ne_true)] at h ⊢
      simp only [hsome]
      exact ih done arrays h

theorem postChanges_eq (view : V) (state newState : TouchState) :
    postChanges view state newState = .ok (postPoints view (changes state newState)) := by
  rw [postChanges, countEvents_eq]
  by_cases h0 : (changes state newState).length = 0
  · rw [if_pos h0, length_eq_zero_iff.1 h0]
    rfl
  rw [if_neg h0]
  by_cases h1 : (changes state newState).length = 1
  · rw [if_pos h1]
    have hlen := h1
    rw [changes, length_append, length_map, length_map] at hlen
    match hold : state.points with
    | [p] =>
      rw [hold, length_singleton] at hlen
      have hnone : newPoints state newState = [] := length_eq_zero_iff.1 (by omega)
      simp only [changes, hold, hnone]
      rfl
    | [] =>
      have hall : newPoints state newState = newState.points := by
        refine filter_eq_self.2 fun p _ => ?_
        rw [TouchState.getPointForID, hold]
        rfl
      rw [hold, length_nil, Nat.zero_add, hall] at hlen
      obtain ⟨q, hnew⟩ := length_eq_one_iff.1 hlen
      simp only [changes, hold, hall, hnew]
      rfl
    | p :: q :: rest =>
      rw [hold, length_cons, length_cons] at hlen
      omega
  · rw [if_neg h1]
    have hcnt : (changes state newState).length =
        state.points.length + (newPoints state newState).length := by
      rw [changes, length_append, length_map, length_map]
    have hold := fillOldPoints_eq newState state.points []
      (List.replicate (changes state newState).length .unwritten)
      (by rw [length_replicate]; omega)
    rw [nil_append, drop_replicate, hcnt, Nat.add_sub_cancel_left] at hold
    have hnew := fillNewPoints_eq state newState.points (state.points.map (oldPointEvent newState))
      (List.replicate (newPoints state newState).length .unwritten)
      (by rw [length_replicate]; exact Nat.le_refl _)
    rw [length_map, drop_replicate] at hnew
    simp only [length_nil, Int.natCast_zero, nil_append] at hold
    simp only [bind, Except.bind, pure, Except.pure, hcnt, hold, hnew]
    simp only [newPoints, Nat.sub_self, replicate_zero, append_nil]
    rfl

theorem postTouchEvent_eq (getView : W → Option V) (ts : WindowTouchState W)
    (eventType : TouchEventType) :
    postTouchEvent getView ts eventType =
      ((ts.window.bind getView).map
        (postPoints · (ts.points.map (pointEvent eventType)))).toList := by
  rw [postTouchEvent]
  cases ts.window.bind getView with
  | none => rfl
  | some view =>
    match ts.points with
    | [] | [p] | p :: q :: rest => rfl

/-- The view of the cached window. -/
def viewOf (getView : W → Option V) (ts : WindowTouchState W) : Option V := ts.window.bind getView

/-- What is posted for a new state, sorted and with its window. -/
def batches [DecidableEq W] [DecidableEq V] (getView : W → Option V) (old new : WindowTouchState W) :
    List (TouchBatch V) :=
  if new.equalsSorted old then []
  else if viewOf getView new ≠ viewOf getView old then
    ((viewOf getView old).map (postPoints · (old.points.map (pointEvent .released)))).toList ++
      ((viewOf getView new).map (postPoints · (new.points.map (pointEvent .pressed)))).toList
  else ((viewOf getView new).map (postPoints · (changes old.toTouchState new.toTouchState))).toList

theorem getWindow_points (ts : WindowTouchState W) (getWindowForLocation : Int → Int → Option W)
    (recalculateCache : Bool) (fallback : Option W) :
    (ts.getWindow getWindowForLocation recalculateCache fallback).points = ts.points := by
  have hcached : (if ts.window.isNone then { ts with window := fallback } else ts).points = ts.points := by
    split <;> rfl
  rw [WindowTouchState.getWindow]
  generalize (if ts.window.isNone then { ts with window := fallback } else ts) = cached at hcached
  cases recalculateCache with
  | false => exact hcached
  | true =>
    simp only [if_true]
    split
    · split <;> exact hcached
    · exact hcached

theorem setState_eq [DecidableEq W] [DecidableEq V] (getView : W → Option V)
    (getWindowForLocation : Int → Int → Option W) (t : TouchInput W V)
    (newState : WindowTouchState W) :
    ∃ new : WindowTouchState W, new.points.Perm newState.points ∧
      t.setState getView getWindowForLocation newState =
        .ok ⟨new, t.posted ++ batches getView t.state new⟩ := by
  have hstate : t.state.getWindow getWindowForLocation false none = t.state := by
    rw [WindowTouchState.getWindow, if_neg Bool.false_ne_true]
    split
    · next h =>
      rw [← Option.isNone_iff_eq_none.1 h]
    · rfl
  refine ⟨newState.sortPointsByID.assignPrimaryID.getWindow getWindowForLocation
    (decide (t.state.points.length = 0)) t.state.window, ?_, ?_⟩
  · rw [getWindow_points]
    show newState.sortPointsByID.toTouchState.assignPrimaryID.points.Perm _
    rw [TouchState.assignPrimaryID_points]
    exact TouchState.sortPointsByID_perm newState.toTouchState
  · simp only [setState, hstate, bind, Except.bind]
    set new := newState.sortPointsByID.assignPrimaryID.getWindow getWindowForLocation
      (decide (t.state.points.length = 0)) t.state.window with hnew
    rw [batches]
    by_cases hsame : new.equalsSorted t.state = true
    · rw [if_pos hsame, if_pos hsame]
      rfl
    rw [if_neg hsame, if_neg hsame]
    by_cases hview : new.window.bind getView ≠ t.state.window.bind getView
    · rw [if_pos hview, if_pos (show viewOf getView new ≠ viewOf getView t.state from hview),
        postTouchEvent_eq, postTouchEvent_eq]
      rfl
    · rw [if_neg hview, if_neg (show ¬ viewOf getView new ≠ viewOf getView t.state from hview), viewOf]
      obtain hnone | ⟨view, hsome⟩ := Option.eq_none_or_eq_some (new.window.bind getView)
      · simp only [hnone]
        rfl
      · simp only [hsome, postChanges_eq]
        rfl

/-! ## The events of one ID -/

/-- The types of the events of an ID. -/
def typesOf (e : Int) (points : List TouchPoint) : List TouchEventType :=
  (points.filter fun p => p.id = e).map TouchPoint.type

/-- The types of the events of an ID that were posted to a view. -/
def typesIn [DecidableEq V] (view : V) (e : Int) (posted : List (TouchBatch V)) : List TouchEventType :=
  posted.flatMap fun b => if b.view = view then typesOf e b.points else []

theorem typesIn_append [DecidableEq V] (view : V) (e : Int) (b1 b2 : List (TouchBatch V)) :
    typesIn view e (b1 ++ b2) = typesIn view e b1 ++ typesIn view e b2 := flatMap_append

theorem typesIn_toList [DecidableEq V] (view : V) (e : Int) (v : Option V) (points : List TouchPoint) :
    typesIn view e (v.map (postPoints · points)).toList =
      if v = some view then typesOf e points else [] := by
  cases v with
  | none => rfl
  | some v =>
    simp [typesIn, postPoints]

theorem typesOf_append (e : Int) (l1 l2 : List TouchPoint) :
    typesOf e (l1 ++ l2) = typesOf e l1 ++ typesOf e l2 := by
  rw [typesOf, filter_append, map_append]
  rfl

theorem typesOf_map {f : Point → TouchPoint} {points : List Point}
    (hf : ∀ p ∈ points, (f p).id = p.id) (e : Int) (hnd : (points.map Point.id).Nodup) :
    typesOf e (points.map f) = ((points.find? fun p => p.id = e).map fun p => (f p).type).toList := by
  induction points with
  | nil => rfl
  | cons p points ih =>
    obtain ⟨hfp, hf⟩ := forall_mem_cons.1 hf
    rw [map_cons, nodup_cons] at hnd
    rw [map_cons, typesOf, filter_cons, hfp, find?_cons]
    by_cases hp : p.id = e
    · have hrest : points.find? (fun q => decide (q.id = e)) = none := by
        refine find?_eq_none.2 fun q hq hqe => hnd.1 ?_
        rw [hp, ← of_decide_eq_true hqe]
        exact mem_map_of_mem hq
      have htypes := ih hf hnd.2
      rw [hrest] at htypes
      rw [decide_eq_true hp, if_pos rfl, map_cons]
      exact congrArg ((f p).type :: ·) htypes
    · rw [decide_eq_false hp, if_neg Bool.false_ne_true]
      exact ih hf hnd.2

/-- The IDs of a state are distinct and non-negative. -/
structure DistinctIDs (ts : TouchState) : Prop where
  nodup : (ts.points.map Point.id).Nodup
  nonneg : ∀ p ∈ ts.points, 0 ≤ p.id

instance (ts : TouchState) : Decidable (DistinctIDs ts) :=
  decidable_of_iff ((ts.points.map Point.id).Nodup ∧ ∀ p ∈ ts.points, 0 ≤ p.id)
    ⟨fun h => ⟨h.1, h.2⟩, fun h => ⟨h.nodup, h.nonneg⟩⟩

def pointAt (ts : TouchState) (e : Int) : Option Point := ts.points.find? fun p => p.id = e

theorem getPointForID_eq {id : Int} (h : 0 ≤ id) :
    ts.getPointForID id = pointAt ts id := by
  have hid : id ≠ -1 := by omega
  simp only [TouchState.getPointForID, pointAt, hid, false_or]

theorem id_of_pointAt (h : pointAt ts e = some p) : p ∈ ts.points ∧ p.id = e :=
  ⟨mem_of_find?_eq_some h, by simpa using find?_some h⟩

theorem isSome_pointAt {ts : TouchState} {e : Int} :
    (pointAt ts e).isSome ↔ e ∈ ts.points.map Point.id := by
  rw [pointAt, find?_isSome, mem_map]
  simp only [decide_eq_true_eq]

theorem id_oldPointEvent {newState : TouchState} (h : 0 ≤ p.id) :
    (oldPointEvent newState p).id = p.id := by
  rw [oldPointEvent, getPointForID_eq h]
  obtain hnone | ⟨q, hq⟩ := Option.eq_none_or_eq_some (pointAt newState p.id)
  · rw [hnone]
  · rw [hq]
    simp only []
    split <;> exact (id_of_pointAt hq).2

/-- A new point is among those of an ID that the old state has not. -/
theorem find?_newPoints {new : TouchState} (hnew : DistinctIDs new) (e : Int) :
    (newPoints old new).find? (fun p => p.id = e) =
      if (pointAt old e).isSome then none else pointAt new e := by
  have hid : ∀ p ∈ new.points, old.getPointForID p.id = pointAt old p.id :=
    fun p hp => getPointForID_eq (hnew.nonneg p hp)
  rw [newPoints, find?_filter]
  split
  · next h =>
    refine find?_eq_none.2 fun p hp hpe => ?_
    obtain ⟨hnone, hpe⟩ := of_decide_eq_true hpe
    rw [hid p hp, of_decide_eq_true hpe] at hnone
    rw [Option.isNone_iff_eq_none.1 hnone] at h
    cases h
  · next h =>
    rw [Option.not_isSome_iff_eq_none] at h
    refine find?_congr fun p hp => ?_
    rw [hid p hp]
    refine Bool.decide_congr ⟨fun hpe => of_decide_eq_true hpe.2, fun hpe => ⟨?_, decide_eq_true hpe⟩⟩
    rw [hpe, h]
    rfl

/-- What an ID gets, by the points it has before and after. -/
def changeTypes : Option Point → Option Point → List TouchEventType
  | some p, some q => [if q.x = p.x ∧ q.y = p.y then .still else .moved]
  | some _, none => [.released]
  | none, some _ => [.pressed]
  | none, none => []

theorem typesOf_changes {new : TouchState} (hold : DistinctIDs old) (hnew : DistinctIDs new)
    (e : Int) : typesOf e (changes old new) = changeTypes (pointAt old e) (pointAt new e) := by
  have hsub : ((newPoints old new).map Point.id).Nodup := hnew.nodup.sublist (filter_sublist.map _)
  rw [changes, typesOf_append,
    typesOf_map (fun p hp => id_oldPointEvent (hold.nonneg p hp)) e hold.nodup,
    typesOf_map (f := pointEvent .pressed) (fun _ _ => rfl) e hsub, find?_newPoints hnew e]
  obtain hnone | ⟨p, hp⟩ := Option.eq_none_or_eq_some (pointAt old e)
  · rw [hnone, show old.points.find? (fun p => decide (p.id = e)) = none from hnone]
    cases pointAt new e <;> rfl
  · rw [hp, show old.points.find? (fun p => decide (p.id = e)) = some p from hp,
      if_pos Option.isSome_some]
    obtain ⟨hmem, hid⟩ := id_of_pointAt hp
    have hget : new.getPointForID p.id = pointAt new e := by
      rw [getPointForID_eq (hold.nonneg p hmem), hid]
    rw [Option.map_some, oldPointEvent, hget]
    obtain hnone | ⟨q, hq⟩ := Option.eq_none_or_eq_some (pointAt new e)
    · rw [hnone]
      rfl
    · rw [hq]
      simp only [changeTypes]
      split <;> rfl

theorem typesOf_points (h : DistinctIDs ts) (type : TouchEventType) (e : Int) :
    typesOf e (ts.points.map (pointEvent type)) = if (pointAt ts e).isSome then [type] else [] := by
  rw [typesOf_map (f := pointEvent type) (fun _ _ => rfl) e h.nodup, pointAt]
  cases ts.points.find? (fun p => decide (p.id = e)) <;> rfl

/-! ## Gestures -/

/-- `(PRESSED (MOVED | STILL)* RELEASED)*`. -/
def gestures : Language TouchEventType :=
  KStar.kstar (({[.pressed]} : Language TouchEventType) *
    KStar.kstar (({[.moved]} : Language TouchEventType) + {[.still]}) * {[.released]})

/-- A point that has been pressed is not released yet. -/
def Ongoing (types : List TouchEventType) : Prop :=
  ∃ before ∈ gestures, ∃ during : List TouchEventType, (∀ t ∈ during, t = .moved ∨ t = .still) ∧
    types = before ++ .pressed :: during

theorem nil_mem_gestures : [] ∈ gestures := Language.nil_mem_kstar _

theorem Ongoing.of_pressed (h : types ∈ gestures) :
    Ongoing (types ++ [.pressed]) := ⟨types, h, [], forall_mem_nil _, rfl⟩

theorem Ongoing.append (h : Ongoing types) {t : TouchEventType}
    (ht : t = .moved ∨ t = .still) : Ongoing (types ++ [t]) := by
  obtain ⟨before, hbef, during, hduring, rfl⟩ := h
  refine ⟨before, hbef, during ++ [t], ?_, by rw [append_assoc]; rfl⟩
  exact forall_mem_append.2 ⟨hduring, forall_mem_singleton.2 ht⟩

theorem Ongoing.released (h : Ongoing types) :
    types ++ [.released] ∈ gestures := by
  obtain ⟨before, hbef, during, hduring, rfl⟩ := h
  obtain ⟨words, rfl, hwords⟩ := Language.mem_kstar.1 hbef
  have hword : during ∈ KStar.kstar (({[.moved]} : Language TouchEventType) + {[.still]}) := by
    refine Language.mem_kstar.2 ⟨during.map ([·]), (by rw [← flatMap_def, flatMap_singleton']), ?_⟩
    intro y hy
    obtain ⟨t, ht, rfl⟩ := mem_map.1 hy
    obtain rfl | rfl := hduring t ht
    · exact .inl rfl
    · exact .inr rfl
  refine Language.mem_kstar.2 ⟨words ++ [.pressed :: during ++ [.released]], ?_, ?_⟩
  · rw [flatten_append, append_assoc]
    simp
  · refine forall_mem_append.2 ⟨hwords, forall_mem_singleton.2 ?_⟩
    exact Language.append_mem_mul (Language.append_mem_mul (Set.mem_singleton _) hword)
      (Set.mem_singleton _)

/-- What has been sent for an ID, by whether it is down. -/
def Follows (down : Bool) (types : List TouchEventType) : Prop :=
  if down then Ongoing types else types ∈ gestures

theorem Follows.exists_rest {down : Bool} (h : Follows down types) :
    ∃ rest, types ++ rest ∈ gestures := by
  cases down with
  | true => exact ⟨[.released], Ongoing.released h⟩
  | false => exact ⟨[], by rw [append_nil]; exact h⟩

theorem Follows.change {p q : Option Point}
    (h : Follows p.isSome types) : Follows q.isSome (types ++ changeTypes p q) := by
  match p, q with
  | some p, some q =>
    refine Ongoing.append h ?_
    split
    · exact .inr rfl
    · exact .inl rfl
  | some _, none => exact Ongoing.released h
  | none, some _ => exact Ongoing.of_pressed h
  | none, none =>
    rw [changeTypes, append_nil]
    exact h

/-! ## Runs -/

variable [DecidableEq V] {getView : W → Option V}

/-- The point that an ID has in a view. -/
def pointIn (getView : W → Option V) (ts : WindowTouchState W) (view : V) (e : Int) : Option Point :=
  if viewOf getView ts = some view then pointAt ts.toTouchState e else none

theorem typesIn_batches [DecidableEq W] {old new : WindowTouchState W} (hold : DistinctIDs old.toTouchState)
    (hnew : DistinctIDs new.toTouchState) (hchg : ¬ new.equalsSorted old = true) (view : V) (e : Int) :
    typesIn view e (batches getView old new) =
      changeTypes (pointIn getView old view e) (pointIn getView new view e) := by
  rw [batches, if_neg hchg]
  by_cases hview : viewOf getView new ≠ viewOf getView old
  · rw [if_pos hview, typesIn_append, typesIn_toList, typesIn_toList, typesOf_points hold,
      typesOf_points hnew, pointIn, pointIn]
    by_cases ho : viewOf getView old = some view
    · have hn : viewOf getView new ≠ some view := fun hn => hview (hn.trans ho.symm)
      rw [if_pos ho, if_pos ho, if_neg hn, if_neg hn, append_nil]
      cases pointAt old.toTouchState e <;> rfl
    · rw [if_neg ho, if_neg ho, nil_append]
      by_cases hn : viewOf getView new = some view
      · rw [if_pos hn, if_pos hn]
        cases pointAt new.toTouchState e <;> rfl
      · rw [if_neg hn, if_neg hn]
        rfl
  · rw [if_neg hview, typesIn_toList, typesOf_changes hold hnew, pointIn, pointIn]
    rw [not_not] at hview
    rw [← hview]
    by_cases hn : viewOf getView new = some view
    · rw [if_pos hn, if_pos hn, if_pos hn]
    · rw [if_neg hn, if_neg hn, if_neg hn]
      rfl

/-- Down in the view exactly if the state has them. -/
structure Inv (getView : W → Option V) (t : TouchInput W V) : Prop where
  distinct : DistinctIDs t.state.toTouchState
  follows : ∀ view e, Follows (pointIn getView t.state view e).isSome (typesIn view e t.posted)

theorem inv_new : (new : TouchInput W V).Inv getView where
  distinct := ⟨nodup_nil, forall_mem_nil _⟩
  follows _ _ := nil_mem_gestures

/-- A call of `setState`. -/
structure Call (W : Type) where
  getWindowForLocation : Int → Int → Option W
  newState : WindowTouchState W

/-- The input after a call. -/
def step [DecidableEq W] (getView : W → Option V) (t : TouchInput W V) (c : Call W) : Option (TouchInput W V) :=
  (t.setState getView c.getWindowForLocation c.newState).toOption

theorem DistinctIDs.of_perm {ts' : TouchState} (h : DistinctIDs ts)
    (hperm : ts'.points.Perm ts.points) : DistinctIDs ts' :=
  ⟨(hperm.map Point.id).nodup_iff.2 h.nodup, fun p hp => h.nonneg p (hperm.mem_iff.1 hp)⟩

theorem pointIn_of_equalsSorted [DecidableEq W] {old new : WindowTouchState W} (h : new.equalsSorted old = true)
    (view : V) (e : Int) : pointIn getView new view e = pointIn getView old view e := by
  obtain ⟨-, -, hwindow, hpoints⟩ := of_decide_eq_true h
  rw [pointIn, pointIn, viewOf, viewOf, hwindow, pointAt, pointAt, hpoints]

theorem Inv.step [DecidableEq W] {t t' : TouchInput W V} {c : Call W} (h : t.Inv getView)
    (hc : DistinctIDs c.newState.toTouchState) (hstep : t.step getView c = some t') :
    t'.Inv getView ∧ t'.state.points.Perm c.newState.points ∧
      t'.posted = t.posted ++ batches getView t.state t'.state := by
  obtain ⟨new, hperm, hset⟩ := setState_eq getView c.getWindowForLocation t c.newState
  rw [TouchInput.step, hset] at hstep
  cases hstep
  have hnew := hc.of_perm hperm
  refine ⟨⟨hnew, fun view e => ?_⟩, hperm, rfl⟩
  rw [typesIn_append]
  by_cases hsame : new.equalsSorted t.state = true
  · rw [batches, if_pos hsame, pointIn_of_equalsSorted hsame]
    exact (congrArg (Follows _) (append_nil _)).mpr (h.follows view e)
  · rw [typesIn_batches h.distinct hnew hsame]
    exact (h.follows view e).change

/-- The batches of a call between two states. -/
structure Posts (getView : W → Option V) (old new : WindowTouchState W)
    (batches : List (TouchBatch V)) : Prop where
  declared : ∀ b ∈ batches, b.touchEventCount = b.points.length
  nodup : ∀ b ∈ batches, b.ids.Nodup
  /-- A view that stays gets a batch with the union of the IDs, unless the state stays as well. -/
  union : viewOf getView new = viewOf getView old →
    (new ≠ old → batches.map TouchBatch.view = (viewOf getView old).toList) ∧ ∀ b ∈ batches,
      viewOf getView old = some b.view ∧ ∀ e, e ∈ b.ids ↔ e ∈ old.ids ∨ e ∈ new.ids
  /-- Otherwise the one view gets the IDs before and the other one those after. -/
  change : viewOf getView new ≠ viewOf getView old →
    batches.map TouchBatch.view = (viewOf getView old).toList ++ (viewOf getView new).toList ∧
    ∀ b ∈ batches, (viewOf getView old = some b.view ∧ (∀ e, e ∈ b.ids ↔ e ∈ old.ids) ∧
        ∀ p ∈ b.points, p.type = .released) ∨
      (viewOf getView new = some b.view ∧ (∀ e, e ∈ b.ids ↔ e ∈ new.ids) ∧
        ∀ p ∈ b.points, p.type = .pressed)
  /-- MOVED is sent for the points with other coordinates. -/
  moved : viewOf getView new = viewOf getView old → (viewOf getView new).isSome →
    ∀ e, (∃ b ∈ batches, ∃ p ∈ b.points, p.id = e ∧ p.type = .moved) ↔
      ∃ p ∈ old.points, ∃ q ∈ new.points, p.id = e ∧ q.id = e ∧ ¬ (q.x = p.x ∧ q.y = p.y)

theorem mem_typesOf {points : List TouchPoint} {type : TouchEventType} :
    type ∈ typesOf e points ↔ ∃ p ∈ points, p.id = e ∧ p.type = type := by
  rw [typesOf, mem_map]
  refine exists_congr fun p => ?_
  rw [mem_filter, decide_eq_true_eq, and_assoc]

theorem ids_changes {new : TouchState} (hold : DistinctIDs old) :
    (changes old new).map TouchPoint.id = old.points.map Point.id ++ (newPoints old new).map Point.id := by
  rw [changes, map_append, map_map, map_map]
  refine congrArg₂ (· ++ ·) (map_congr_left fun p hp => ?_) rfl
  exact id_oldPointEvent (hold.nonneg p hp)

theorem mem_newPoints {new : TouchState} (hnew : DistinctIDs new) :
    e ∈ (newPoints old new).map Point.id ↔
      e ∉ old.points.map Point.id ∧ e ∈ new.points.map Point.id := by
  rw [← isSome_pointAt, ← @isSome_pointAt new]
  have hfind := @find?_newPoints old new hnew e
  have hiff : e ∈ (newPoints old new).map Point.id ↔
      ((newPoints old new).find? fun p => p.id = e).isSome := by
    rw [find?_isSome, mem_map]
    simp only [decide_eq_true_eq]
  rw [hiff, hfind]
  by_cases hp : (pointAt old e).isSome = true
  · rw [if_pos hp]
    exact ⟨nofun, fun h => absurd hp h.1⟩
  · rw [if_neg hp]
    exact ⟨fun h => ⟨hp, h⟩, And.right⟩

theorem pointAt_eq (h : DistinctIDs ts) (hp : p ∈ ts.points) :
    pointAt ts p.id = some p := by
  obtain hnone | ⟨q, hq⟩ := Option.eq_none_or_eq_some (pointAt ts p.id)
  · have hsome := isSome_pointAt.2 (mem_map_of_mem (f := Point.id) hp)
    rw [hnone] at hsome
    cases hsome
  · obtain ⟨hmem, hid⟩ := id_of_pointAt hq
    rw [hq, inj_on_of_nodup_map h.nodup hmem hp hid]

theorem moved_mem_changeTypes {new : TouchState} (hold : DistinctIDs old) (hnew : DistinctIDs new)
    (e : Int) : .moved ∈ changeTypes (pointAt old e) (pointAt new e) ↔
      ∃ p ∈ old.points, ∃ q ∈ new.points, p.id = e ∧ q.id = e ∧ ¬ (q.x = p.x ∧ q.y = p.y) := by
  constructor
  · intro h
    obtain hp | ⟨p, hp⟩ := Option.eq_none_or_eq_some (pointAt old e)
    · rw [hp] at h
      cases hq : pointAt new e <;> rw [hq] at h <;> simp [changeTypes] at h
    obtain hq | ⟨q, hq⟩ := Option.eq_none_or_eq_some (pointAt new e)
    · rw [hp, hq] at h
      simp [changeTypes] at h
    · obtain ⟨hpm, hpe⟩ := id_of_pointAt hp
      obtain ⟨hqm, hqe⟩ := id_of_pointAt hq
      refine ⟨p, hpm, q, hqm, hpe, hqe, fun hsame => ?_⟩
      rw [hp, hq, changeTypes, if_pos hsame] at h
      simp at h
  · rintro ⟨p, hp, q, hq, rfl, hqe, hmoved⟩
    have hq' := pointAt_eq hnew hq
    rw [hqe] at hq'
    rw [pointAt_eq hold hp, hq', changeTypes, if_neg hmoved]
    exact mem_singleton_self _

/-- The batches of a change of state are those to be posted. -/
theorem posts_batches [DecidableEq W] {old new : WindowTouchState W}
    (hold : DistinctIDs old.toTouchState) (hnew : DistinctIDs new.toTouchState) :
    Posts getView old new (batches getView old new) := by
  have hviews : ∀ (view : Option V) (points : List TouchPoint),
      (view.map (postPoints · points)).toList.map TouchBatch.view = view.toList := by
    intro view points
    cases view <;> rfl
  by_cases hsame : new.equalsSorted old = true
  · obtain ⟨-, hprimary, hwindow, hpoints⟩ := of_decide_eq_true hsame
    have heq : new = old := by
      obtain ⟨⟨_, _⟩, _⟩ := new
      obtain ⟨⟨_, _⟩, _⟩ := old
      cases hprimary
      cases hwindow
      cases hpoints
      rfl
    rw [batches, if_pos hsame]
    refine ⟨forall_mem_nil _, forall_mem_nil _, fun _ => ⟨absurd heq, forall_mem_nil _⟩,
      fun hview => absurd (congrArg (viewOf getView) heq) hview, fun _ _ e => ⟨?_, ?_⟩⟩
    · rintro ⟨b, hb, -⟩
      cases hb
    rintro ⟨p, hp, q, hq, hpe, hqe, hmoved⟩
    rw [← hpoints] at hq
    obtain rfl := inj_on_of_nodup_map hold.nodup hp hq (hpe.trans hqe.symm)
    exact absurd ⟨rfl, rfl⟩ hmoved
  rw [batches, if_neg hsame]
  by_cases hview : viewOf getView new ≠ viewOf getView old
  · rw [if_pos hview]
    -- RELEASED to the one view, PRESSED to the other
    have hcases : ∀ b ∈ ((viewOf getView old).map
        (postPoints · (old.points.map (pointEvent .released)))).toList ++
        ((viewOf getView new).map (postPoints · (new.points.map (pointEvent .pressed)))).toList,
        (viewOf getView old = some b.view ∧ b = postPoints b.view (old.points.map (pointEvent .released))) ∨
        (viewOf getView new = some b.view ∧ b = postPoints b.view (new.points.map (pointEvent .pressed))) := by
      intro b hb
      refine (mem_append.1 hb).imp (fun hb => ?_) fun hb => ?_
      all_goals
        obtain ⟨v, hv, rfl⟩ := Option.map_eq_some_iff.1 (Option.mem_toList.1 hb)
        exact ⟨hv, rfl⟩
    have hids : ∀ (v : V) (type : TouchEventType) (ts : WindowTouchState W),
        (postPoints v (ts.points.map (pointEvent type))).ids = ts.ids := by
      intro v type ts
      rw [TouchBatch.ids, postPoints, map_map]
      rfl
    refine ⟨fun b hb => ?_, fun b hb => ?_, fun h => absurd h hview, fun _ => ⟨?_, fun b hb => ?_⟩,
      fun h => absurd h hview⟩
    · obtain ⟨-, h⟩ | ⟨-, h⟩ := hcases b hb <;> rw [h] <;> rfl
    · obtain ⟨-, h⟩ | ⟨-, h⟩ := hcases b hb
      · rw [h, hids]
        exact hold.nodup
      · rw [h, hids]
        exact hnew.nodup
    · rw [map_append, hviews, hviews]
    · refine (hcases b hb).imp (fun ⟨hv, h⟩ => ⟨hv, ?_, ?_⟩) fun ⟨hv, h⟩ => ⟨hv, ?_, ?_⟩
      all_goals rw [h]
      · exact fun e => by rw [hids]
      · intro p hp
        obtain ⟨q, -, rfl⟩ := mem_map.1 hp
        rfl
      · exact fun e => by rw [hids]
      · intro p hp
        obtain ⟨q, -, rfl⟩ := mem_map.1 hp
        rfl
  · rw [if_neg hview]
    rw [not_not] at hview
    have hcases : ∀ b ∈ ((viewOf getView new).map
        (postPoints · (changes old.toTouchState new.toTouchState))).toList,
        viewOf getView new = some b.view ∧ b = postPoints b.view (changes old.toTouchState new.toTouchState) := by
      intro b hb
      obtain ⟨v, hv, rfl⟩ := Option.map_eq_some_iff.1 (Option.mem_toList.1 hb)
      exact ⟨hv, rfl⟩
    refine ⟨fun b hb => ?_, fun b hb => ?_, fun _ => ⟨fun _ => ?_, fun b hb => ?_⟩,
      fun h => absurd hview h, fun _ hsome e => ?_⟩
    · rw [(hcases b hb).2]
      rfl
    · rw [(hcases b hb).2, TouchBatch.ids, postPoints, ids_changes hold, nodup_append]
      refine ⟨hold.nodup, hnew.nodup.sublist (filter_sublist.map _), fun a ha b hb => ?_⟩
      rintro rfl
      exact ((mem_newPoints hnew).1 hb).1 ha
    · rw [hviews, hview]
    · obtain ⟨hv, h⟩ := hcases b hb
      refine ⟨hview.symm.trans hv, fun e => ?_⟩
      rw [h, TouchBatch.ids, postPoints, ids_changes hold, mem_append, mem_newPoints hnew]
      refine ⟨fun h => h.imp_right And.right, fun h => ?_⟩
      by_cases he : e ∈ old.points.map Point.id
      · exact .inl he
      · exact .inr ⟨he, h.resolve_left he⟩
    · obtain ⟨v, hv⟩ := Option.isSome_iff_exists.1 hsome
      rw [hv, Option.map_some, Option.toList_some]
      rw [← moved_mem_changeTypes hold hnew, ← typesOf_changes hold hnew, mem_typesOf]
      simp only [mem_singleton, exists_eq_left]
      rfl

theorem Inv.run [DecidableEq W] {t t' : TouchInput W V} {calls : List (Call W)} (h : t.Inv getView)
    (hcalls : ∀ c ∈ calls, DistinctIDs c.newState.toTouchState)
    (hrun : runActions (TouchInput.step getView) t calls = some t') : t'.Inv getView := by
  refine OpenJfx.runActions_invariant_of (C := fun _ c => DistinctIDs c.newState.toTouchState)
    (fun t c t' ht hc hstep => (ht.step hc hstep).1) h ?_ hrun
  induction calls generalizing t with
  | nil => trivial
  | cons c calls ih =>
    obtain ⟨hc, hrest⟩ := forall_mem_cons.1 hcalls
    refine ⟨hc, fun t1 ht1 => ?_⟩
    rw [OpenJfx.runActions_cons, ht1] at hrun
    exact ih (h.step hc ht1).1 hrest hrun

/-- A call always returns, and so does every sequence of calls. -/
theorem isSome_run [DecidableEq W] (t : TouchInput W V) (calls : List (Call W)) :
    (runActions (step getView) t calls).isSome := by
  induction calls generalizing t with
  | nil => rfl
  | cons c calls ih =>
    obtain ⟨new, -, hset⟩ := setState_eq getView c.getWindowForLocation t c.newState
    rw [OpenJfx.runActions_cons, step, hset]
    exact ih _

/-- The events of an ID in a view are gestures, the last perhaps still open, and calls post
    batches. -/
theorem balanced_of_run [DecidableEq W] {calls : List (Call W)} {c : Call W}
    (hcalls : ∀ c' ∈ calls ++ [c], DistinctIDs c'.newState.toTouchState) :
    ∃ t t' sent, runActions (step getView) (new : TouchInput W V) calls = some t ∧
      t.step getView c = some t' ∧ t'.state.points.Perm c.newState.points ∧
      t'.posted = t.posted ++ sent ∧ Posts getView t.state t'.state sent ∧
      ∀ view e, ∃ rest, typesIn view e t'.posted ++ rest ∈ gestures := by
  obtain ⟨hcalls, hc⟩ := forall_mem_append.1 hcalls
  have hc := hc c (mem_singleton_self c)
  obtain ⟨t, ht⟩ := Option.isSome_iff_exists.1 (@isSome_run _ _ _ getView _ new calls)
  obtain ⟨t', ht'⟩ := Option.isSome_iff_exists.1 (@isSome_run _ _ _ getView _ t [c])
  have hstep : t.step getView c = some t' := by
    simpa [runActions] using ht'
  have hinv := inv_new.run hcalls ht
  obtain ⟨hinv', hperm, hposted⟩ := hinv.step hc hstep
  exact ⟨t, t', _, ht, hstep, hperm, hposted, posts_batches hinv.distinct hinv'.distinct,
    fun view e => (hinv'.follows view e).exists_rest⟩

/-- Two windows side by side, with a view each. -/
def sideBySide (x _ : Int) : Option Bool := some (decide (0 ≤ x))

/-- Points not given to `setState` before. -/
def touching (points : List Point) : Call Bool := ⟨sideBySide, ⟨⟨points, -1⟩, none⟩⟩

theorem balanced_of_run_twoFingers :
    ∃ t t' sent, runActions (step some) (new : TouchInput Bool Bool)
        [touching [⟨3, 5, 5⟩], touching [⟨3, 6, 5⟩, ⟨1, -9, 2⟩]] = some t ∧
      t.step some (touching [⟨1, -9, 2⟩, ⟨4, 0, 0⟩]) = some t' ∧
      t'.state.points.Perm [⟨1, -9, 2⟩, ⟨4, 0, 0⟩] ∧
      t'.posted = t.posted ++ sent ∧ Posts some t.state t'.state sent ∧
      ∀ view e, ∃ rest, typesIn view e t'.posted ++ rest ∈ gestures :=
  balanced_of_run (by decide)

/-- The old view gets a batch without the new point. -/
theorem union_fails : ¬ ∀ (calls : List (Call Bool)) (c : Call Bool),
      (∀ c' ∈ calls ++ [c], DistinctIDs c'.newState.toTouchState) →
      ∀ t t' sent, runActions (step some) (new : TouchInput Bool Bool) calls = some t →
        t.step some c = some t' → t'.posted = t.posted ++ sent →
        ∀ b ∈ sent, ∀ e, e ∈ b.ids ↔ e ∈ t.state.ids ∨ e ∈ t'.state.ids := by
  intro h
  have hunion := h [touching [⟨1, -5, 0⟩], touching []] (touching [⟨1, 5, 0⟩]) (by decide) _ _
    [⟨false, 0, []⟩, ⟨true, 1, [⟨.pressed, 1, 5, 0⟩]⟩] rfl rfl rfl ⟨false, 0, []⟩
    mem_cons_self 1
  exact not_mem_nil (hunion.2 (.inr mem_cons_self))

end TouchInput

end OpenJfx.Monocle
