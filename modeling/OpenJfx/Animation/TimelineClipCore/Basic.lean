/-
  OpenJfx.Animation.TimelineClipCore.Basic

  The inner part of a timeline (`TimelineClipCore`): it moves the position and runs the handlers
  of the key frames on the way.  A visit to the key frame remembered in `lastKF` is suppressed.  
  `handled` lists the key frames whose handlers have run; `aborts` says after which history a
  handler aborts the call.
-/

import OpenJfx.Animation.FiniteClipEnvelope.Basic
import Mathlib.Data.List.Sort

namespace OpenJfx.Animation

/-- A key frame: its time in milliseconds and whether it has a handler. -/
structure KeyFrame where
  time : Rat
  onFinished : Bool
  deriving DecidableEq, Repr

/-- `TickCalculation.fromDuration`. -/
def KeyFrame.ticks (keyFrame : KeyFrame) : Int := mathRound (6 * keyFrame.time)

/-- The key frames of a core, in the order of their ticks. -/
structure KeyFrames where
  frames : List KeyFrame
  sorted : frames.Pairwise fun x y => x.ticks ≤ y.ticks

/-- The fields of a clip core, with the key frames whose handlers have been called. -/
structure TimelineClipCore where
  keyFrames : KeyFrames
  canSkipFrames : Bool
  aborted : Bool
  lastKF : Int
  curTicks : Int
  handled : List Nat

namespace TimelineClipCore

/-- `UNDEFINED_KEYFRAME`. -/
def undefinedKeyFrame : Int := -1

/-- A new core has no key frames. -/
def new : TimelineClipCore where
  keyFrames := ⟨[], List.Pairwise.nil⟩
  canSkipFrames := true
  aborted := false
  lastKF := undefinedKeyFrame
  curTicks := 0
  handled := []

theorem ticks_mono {x y : KeyFrame} (h : x.time ≤ y.time) : x.ticks ≤ y.ticks := by
  unfold KeyFrame.ticks mathRound
  exact Int.floor_le_floor (by linarith)

theorem sorted_insertionSort (keyFrames : List KeyFrame) :
    (keyFrames.insertionSort fun x y => x.time ≤ y.time).Pairwise fun x y => x.ticks ≤ y.ticks := by
  have : Std.Total fun x y : KeyFrame => x.time ≤ y.time := ⟨fun x y => le_total x.time y.time⟩
  have : IsTrans KeyFrame fun x y => x.time ≤ y.time := ⟨fun _ _ _ => le_trans⟩
  exact (List.pairwise_insertionSort _ keyFrames).imp ticks_mono

/-- `setKeyFrames`: a stable sort by time. -/
def setKeyFrames (core : TimelineClipCore) (keyFrames : List KeyFrame) : TimelineClipCore :=
  { core with
    keyFrames := ⟨_, sorted_insertionSort keyFrames⟩
    canSkipFrames := keyFrames.all fun keyFrame => !keyFrame.onFinished }

/-- `jumpTo` without an interpolation. -/
def jumpTo (core : TimelineClipCore) (ticks : Int) : TimelineClipCore :=
  { core with lastKF := undefinedKeyFrame, curTicks := ticks }

/-- The access `keyFrames[i]`, which fails outside the array. -/
def keyFrameAt (core : TimelineClipCore) (i : Int) : Option KeyFrame :=
  if i < 0 then none else core.keyFrames.frames[i.toNat]?

/-- The key frame that a forward call starts with. -/
def fromForward (core : TimelineClipCore) : Option Int :=
  if core.lastKF = undefinedKeyFrame then some 0
  else (core.keyFrameAt core.lastKF).map fun keyFrame =>
    if keyFrame.ticks ≤ core.curTicks then core.lastKF + 1 else core.lastKF

/-- The key frame that a backward call starts with. -/
def fromBackward (core : TimelineClipCore) : Option Int :=
  if core.lastKF = undefinedKeyFrame then some ((core.keyFrames.frames.length : Int) - 1)
  else (core.keyFrameAt core.lastKF).map fun keyFrame =>
    if core.curTicks ≤ keyFrame.ticks then core.lastKF - 1 else core.lastKF

section Callbacks

variable (aborts : List Nat → Bool)

/-- `visitKeyFrame`: the remembered key frame is not visited again. -/
def visitKeyFrame (core : TimelineClipCore) (keyFrame : KeyFrame) (kfIndex : Nat) :
    TimelineClipCore :=
  if (kfIndex : Int) ≠ core.lastKF then
    let core := { core with lastKF := kfIndex }
    if keyFrame.onFinished then
      let handled := core.handled ++ [kfIndex]
      { core with
        curTicks := keyFrame.ticks
        handled := handled
        aborted := core.aborted || aborts handled }
    else core
  else core

/-- The loop of `playTo` forwards, over the key frames still ahead. -/
def forwardLoop (ticks : Int) : TimelineClipCore → List (KeyFrame × Nat) → TimelineClipCore
  | core, [] => core
  | core, (keyFrame, fi) :: rest =>
    if ticks < keyFrame.ticks then { core with lastKF := (fi : Int) - 1 }
    else if core.curTicks ≤ keyFrame.ticks then
      let core := core.visitKeyFrame aborts keyFrame fi
      if core.aborted then core else forwardLoop ticks core rest
    else forwardLoop ticks core rest

/-- The loop of `playTo` backwards. -/
def backwardLoop (ticks : Int) : TimelineClipCore → List (KeyFrame × Nat) → TimelineClipCore
  | core, [] => core
  | core, (keyFrame, fi) :: rest =>
    if keyFrame.ticks < ticks then { core with lastKF := (fi : Int) + 1 }
    else if keyFrame.ticks ≤ core.curTicks then
      let core := core.visitKeyFrame aborts keyFrame fi
      if core.aborted then core else backwardLoop ticks core rest
    else backwardLoop ticks core rest

/-- The forward branch of `playTo`. -/
def playForward (core : TimelineClipCore) (ticks : Int) : Option TimelineClipCore :=
  core.fromForward.map fun fromKF =>
    core.forwardLoop aborts ticks (core.keyFrames.frames.zipIdx.drop fromKF.toNat)

/-- The backward branch of `playTo`. -/
def playBackward (core : TimelineClipCore) (ticks : Int) : Option TimelineClipCore :=
  core.fromBackward.map fun fromKF =>
    core.backwardLoop aborts ticks (core.keyFrames.frames.zipIdx.take (fromKF + 1).toNat).reverse

/-- The position is set unless a visit has just set it. -/
def setEndTime (core : TimelineClipCore) (ticks : Int) : Option TimelineClipCore :=
  if core.aborted then some core
  else if core.lastKF = undefinedKeyFrame then some { core with curTicks := ticks }
  else (core.keyFrameAt core.lastKF).map fun keyFrame =>
    if keyFrame.ticks ≠ ticks ∨ keyFrame.onFinished = false then { core with curTicks := ticks }
    else core

/-- `playTo`; `none` is an access outside the array of key frames. -/
def playTo (core : TimelineClipCore) (ticks : Int) : Option TimelineClipCore :=
  if core.canSkipFrames then some { core with lastKF := undefinedKeyFrame, curTicks := ticks }
  else
    let core := { core with aborted := false }
    (if core.curTicks ≤ ticks then core.playForward aborts ticks
      else core.playBackward aborts ticks).bind fun core => core.setEndTime ticks

end Callbacks

end TimelineClipCore

end OpenJfx.Animation
