/-
  OpenJfx.Animation.ParallelTransition.Basic

  `ParallelTransition`, which plays its children all at once, each after its own delay.  The loops
  of `impl_playTo` are folds over the children that carry the index into the arrays along: the
  `continue` of a child that cannot be started passes over the `i++`.
-/

import OpenJfx.Animation.CompoundTransition

namespace OpenJfx.Animation

open TickCalculation

/-- A `ParallelTransition`, with the arrays of its cached children. -/
structure ParallelTransition where
  cachedChildren : List Child
  offsetTicks : Nat → Int
  forceChildSync : Nat → Bool
  oldTicks : Int
  cycleTime : Int
  toggledRate : Bool
  currentRate : Rat
  stage : Stage

namespace ParallelTransition

/-- The value of `cycleTime` that `impl_sync` computes. -/
def cycleTimeOf (children : List Child) : Int :=
  children.foldl (fun cycleTime c => max cycleTime (add c.duration c.delay)) 0

/-- Started at rate 1 and not yet pulsed. -/
def new (children : List Child) : ParallelTransition where
  cachedChildren := children
  offsetTicks := fun _ => 0
  forceChildSync := fun _ => true
  oldTicks := 0
  cycleTime := cycleTimeOf children
  toggledRate := false
  currentRate := 1
  stage := Stage.new

/-- The child, or the array elements, at an index. -/
def childAt (p : ParallelTransition) (i : Nat) : Child := p.cachedChildren.getD i default

/-- `offsetTicks[i] = value`. -/
def setOffset (p : ParallelTransition) (i : Nat) (value : Int) : ParallelTransition :=
  { p with offsetTicks := Function.update p.offsetTicks i value }

/-- `startChild`, at position `k`. -/
def startChild (p : ParallelTransition) (k i : Nat) : ParallelTransition × Bool :=
  if (p.childAt k).implStartable (p.forceChildSync i) then
    ({ p with
        stage := p.stage.implStart k
        forceChildSync := Function.update p.forceChildSync i false }, true)
  else (p, false)

/-- A child that cannot be started. -/
def skipChild (p : ParallelTransition) (k : Nat) (enteringCycle : Bool) : ParallelTransition :=
  if enteringCycle then { p with stage := p.stage.callOnFinished k } else p

/-- A jump of the child at position `k`. -/
def jumpChild (p : ParallelTransition) (k : Nat) (ticks : Int) : ParallelTransition :=
  { p with stage := p.stage.jumpTo (p.childAt k) k ticks }

/-- A pulse into the child at position `k`. -/
def pulseChild (p : ParallelTransition) (k : Nat) (elapsedTime : Int) : ParallelTransition :=
  { p with stage := p.stage.implTimePulse (p.childAt k) k elapsedTime }

/-- The last pulse into a child that is still running. -/
def endChild (p : ParallelTransition) (k i : Nat) : ParallelTransition :=
  if p.stage.status k = .running then
    (p.pulseChild k (sub (p.childAt i).duration (p.offsetTicks i))).setOffset i 0
  else p

/-- The second half of the forward loop body. -/
def forwardPulse (p : ParallelTransition) (newTicks : Int) (k i : Nat) : ParallelTransition :=
  if add (p.childAt i).duration (p.childAt i).delay ≤ newTicks then p.endChild k i
  else if (p.childAt i).delay < newTicks then
    p.pulseChild k (sub (newTicks - (p.childAt i).delay) (p.offsetTicks i))
  else p

/-- The condition under which the forward loop starts a child. -/
def forwardEnters (p : ParallelTransition) (newTicks : Int) (k i : Nat) : Bool :=
  decide ((p.childAt i).delay ≤ newTicks) && (decide (p.oldTicks ≤ (p.childAt i).delay) ||
    (decide (newTicks < add (p.childAt i).delay (p.childAt i).duration) &&
      decide (p.stage.status k = .stopped)))

/-- The body of the forward loop. -/
def forwardStep (newTicks : Int) (pi : ParallelTransition × Nat) (k : Nat) :
    ParallelTransition × Nat :=
  let (p, i) := pi
  if p.forwardEnters newTicks k i then
    match p.startChild k i with
    | (p₁, true) => ((p₁.jumpChild k 0).forwardPulse newTicks k i, i + 1)
    | (p₁, false) => (p₁.skipChild k (decide (p.oldTicks ≤ (p.childAt i).delay)), i)
  else (p.forwardPulse newTicks k i, i + 1)

/-- The second half of the backward loop body. -/
def backwardPulse (p : ParallelTransition) (newTicks : Int) (k i : Nat) : ParallelTransition :=
  if newTicks ≤ (p.childAt i).delay then p.endChild k i
  else p.pulseChild k
    (sub (add (p.childAt i).duration (p.childAt i).delay - newTicks) (p.offsetTicks i))

/-- The body of the backward loop. -/
def backwardStep (newTicks : Int) (pi : ParallelTransition × Nat) (k : Nat) :
    ParallelTransition × Nat :=
  let (p, i) := pi
  let endTicks := add (p.childAt i).duration (p.childAt i).delay
  if newTicks < endTicks then
    if endTicks ≤ p.oldTicks ∨
        ((p.childAt i).delay ≤ newTicks ∧ p.stage.status k = .stopped) then
      match p.startChild k i with
      | (p₁, true) =>
        ((p₁.jumpChild k (p₁.childAt i).duration).backwardPulse newTicks k i, i + 1)
      | (p₁, false) => (p₁.skipChild k (decide (endTicks ≤ p.oldTicks)), i)
    else (p.backwardPulse newTicks k i, i + 1)
  else (p, i + 1)

/-- The offsets after the rate has changed its sign. -/
def toggleOffsets (p : ParallelTransition) : ParallelTransition :=
  if p.toggledRate then
    { p with
      offsetTicks := fun i =>
        if i < p.cachedChildren.length ∧ p.stage.status i = .running then
          p.offsetTicks i - signum p.currentRate *
            ((p.childAt i).duration - 2 * (p.oldTicks - (p.childAt i).delay))
        else p.offsetTicks i
      toggledRate := false }
  else p

/-- `impl_setCurrentTicks`. -/
def setCurrentTicks (p : ParallelTransition) (ticks : Int) : ParallelTransition :=
  { p with stage := { p.stage with now := ticks } }

/-- The loop over the children. -/
def playChildren (p : ParallelTransition) (newTicks : Int) : ParallelTransition :=
  let step := if 0 < p.currentRate then forwardStep newTicks else backwardStep newTicks
  ((List.range p.cachedChildren.length).foldl step (p, 0)).1

/-- `impl_playTo`. -/
def implPlayTo (p : ParallelTransition) (currentTicks cycleTicks : Int) : ParallelTransition :=
  let newTicks := newTicks currentTicks cycleTicks
  { ((p.setCurrentTicks currentTicks).toggleOffsets).playChildren newTicks with
    oldTicks := newTicks }

/-- A run of `impl_playTo`. -/
def plays (p : ParallelTransition) (ticks : List Int) : ParallelTransition :=
  ticks.foldl (fun p t => p.implPlayTo t p.cycleTime) p

end ParallelTransition

end OpenJfx.Animation
