/-
  OpenJfx.Concurrent.ScheduledService.Basic

  A service that starts over when its task has succeeded or failed.  When the state changes, the
  handlers run first, then `succeeded` or `failed`; whether a handler cancels, and whether an
  iteration waits, is free.  `stopped` remembers a `cancel()` not followed by a start, `violated`
  a task created or begun all the same.
-/

import OpenJfx.Concurrent.Task.Basic

namespace OpenJfx.Concurrent

variable {V E : Type}

/-! ## Data -/

/-- A `TimerTask`. -/
inductive TimerStatus where
  | waiting
  | cancelled
  /-- Its runnable waits for the FX thread. -/
  | queued
  | done
  deriving DecidableEq, Repr

/-- A timer that starts the task with this index. -/
structure DelayTimer where
  task : Nat
  status : TimerStatus

/-- What is left open at a step on the FX thread. -/
structure Choices where
  /-- The handler of the event at hand calls `cancel()`. -/
  eventCancels : Bool
  /-- The handler of the READY event of an inner `reset` does. -/
  readyCancels : Bool
  /-- The handler of the SCHEDULED event of an inner `start` does. -/
  scheduledCancels : Bool
  /-- The backoff strategy does. -/
  backoffCancels : Bool
  /-- The delay is not zero, or the period is not over. -/
  waits : Bool

/-- A handler cancels the service. -/
def Choices.cancels (ch : Choices) : Bool :=
  ch.eventCancels || ch.readyCancels || ch.scheduledCancels || ch.backoffCancels

/-- The service with all tasks it has created. -/
structure ScheduledService (V E : Type) where
  tasks : List (Task V E)
  task : Option Nat
  /-- The state when there is no task. -/
  ownState : State
  startedOnce : Bool
  /-- Queued halves of a `start` off the FX thread. -/
  deferred : Nat
  /-- The tasks given to the executor. -/
  handed : List Nat
  timers : List DelayTimer
  delayTask : Option Nat
  stop : Bool
  freshStart : Bool
  restartOnFailure : Bool
  maximumFailureCount : Int
  currentFailureCount : Int
  stopped : Bool
  violated : Bool

namespace ScheduledService

def new : ScheduledService V E where
  tasks := []
  task := none
  ownState := .ready
  startedOnce := false
  deferred := 0
  handed := []
  timers := []
  delayTask := none
  stop := false
  freshStart := true
  restartOnFailure := true
  maximumFailureCount := 2 ^ 31 - 1
  currentFailureCount := 0
  stopped := false
  violated := false

variable (s : ScheduledService V E)

/-- The task's state, as far as there is a task. -/
def getState : State :=
  match s.task with
  | none => s.ownState
  | some i => ((s.tasks[i]?).map Task.state).getD s.ownState

def modifyTask (i : Nat) (f : Task V E → Task V E) : ScheduledService V E :=
  { s with tasks := s.tasks.modify i f }

/-! ## cancel -/

/-- `Service.cancel`. -/
def superCancel : ScheduledService V E :=
  match s.task with
  | none =>
    if s.ownState = .cancelled ∨ s.ownState = .succeeded then s else { s with ownState := .cancelled }
  | some i => s.modifyTask i fun t => (t.step .cancelFx).getD t

/-- `TimerTask.cancel()`. -/
def DelayTimer.cancel (t : DelayTimer) : DelayTimer :=
  if t.status = .waiting then { t with status := .cancelled } else t

/-- The end of `cancel()`. -/
def dropDelayTask : ScheduledService V E :=
  match s.delayTask with
  | none => s
  | some k => { s with timers := s.timers.modify k DelayTimer.cancel, delayTask := none }

/-- The override, which also drops the timer. -/
def cancel : ScheduledService V E :=
  { s.superCancel with stop := true, stopped := true }.dropDelayTask

/-- The handlers of an event. -/
def handle (cancels : Bool) : ScheduledService V E := if cancels then s.cancel else s

/-! ## start -/

/-- The task is handed to the executor. -/
def executeTaskNow (i : Nat) : ScheduledService V E :=
  { s with freshStart := false, handed := s.handed ++ [i] }

/-- A fresh start waits for the delay, an iteration for the period. -/
def executeTask (i : Nat) (waits : Bool) : ScheduledService V E :=
  if waits then
    { s with timers := s.timers ++ [⟨i, .waiting⟩], delayTask := some s.timers.length }
  else s.executeTaskNow i

/-- The second half of `start`. -/
def launch (ch : Choices) : ScheduledService V E :=
  match s.task with
  | none => s
  | some i =>
    let old := s.getState
    let s := s.modifyTask i (·.setState .scheduled)
    let s := if old ≠ .cancelled ∧ old ≠ .scheduled then s.handle ch.scheduledCancels else s
    s.executeTask i ch.waits

/-- `createTask` and the bindings. -/
def createTask : ScheduledService V E :=
  { s with
    tasks := s.tasks ++ [.new]
    task := some s.tasks.length
    startedOnce := true
    violated := s.violated || s.stopped }

/-- `start()`, which throws unless the state is READY. -/
def start (isFxApplicationThread : Bool) (ch : Choices) : ScheduledService V E :=
  if s.getState ≠ .ready then s
  else if isFxApplicationThread then s.createTask.launch ch
  else { s.createTask with deferred := s.deferred + 1 }

/-! ## reset -/

/-- `Service.reset()`, none where it throws. -/
def superReset (ch : Choices) : Option (ScheduledService V E) :=
  if s.getState = .scheduled ∨ s.getState = .running then none
  else
    let s' := { s with task := none, ownState := .ready }
    some (if s.getState ≠ .ready then s'.handle ch.readyCancels else s')

/-- The override; none where it throws. -/
def reset (ch : Choices) : Option (ScheduledService V E) :=
  (s.superReset ch).map fun s => { s with stop := false, currentFailureCount := 0, freshStart := true }

/-- What `restart` does before it resets. -/
def dropTask : ScheduledService V E :=
  match s.task with
  | none => s
  | some i =>
    { s.modifyTask i fun t => (t.step .cancelFx).getD t with task := none, ownState := .cancelled }

/-- `restart`, which starts afresh. -/
def restart (ch : Choices) : ScheduledService V E :=
  match s.dropTask.reset ch with
  | none => s.dropTask
  | some s => s.start true ch

/-! ## Iterations -/

/-- SCHEDULED, then CANCELLED. -/
def cancelFromReadyState (ch : Choices) : ScheduledService V E :=
  { { s with ownState := .scheduled }.handle ch.scheduledCancels with ownState := .cancelled }

/-- It is reset, and started again unless it has been stopped. -/
def succeeded (ch : Choices) : ScheduledService V E :=
  match s.superReset ch with
  | none => s
  | some s' => if s.stop then s'.cancelFromReadyState ch else s'.start true ch

/-- The next failure is followed by another iteration. -/
def retries : Bool := s.restartOnFailure && s.maximumFailureCount > s.currentFailureCount + 1

/-- It is started again if it `retries`. -/
def failed (ch : Choices) : ScheduledService V E :=
  let s' := { s with currentFailureCount := s.currentFailureCount + 1 }
  if s.retries then
    let s' := s'.handle ch.backoffCancels
    match s'.superReset ch with
    | none => s'
    | some s'' => s''.start true ch
  else s'

/-- The listener of the state. -/
def stateChanged (value : State) (ch : Choices) : ScheduledService V E :=
  match value with
  | .succeeded => (s.handle ch.eventCancels).succeeded ch
  | .failed => (s.handle ch.eventCancels).failed ch
  | .scheduled => s.handle ch.scheduledCancels
  | .running => s.handle ch.eventCancels
  | .ready | .cancelled => s

/-- `Task.setState` on the FX thread. -/
def setState (i : Nat) (value : State) (ch : Choices) : ScheduledService V E :=
  match s.tasks[i]? with
  | none => s
  | some t =>
    if t.state = .cancelled then s
    else
      let s' := s.modifyTask i (·.setState value)
      if s.task = some i ∧ t.state ≠ value then s'.stateChanged value ch else s'

/-- A runnable of a task. -/
def exec (i : Nat) (ch : Choices) : Runnable V E → ScheduledService V E
  | .start => (s.setState i .scheduled ch).setState i .running ch
  | .succeed result => (s.modifyTask i fun t => { t with value := some result }).setState i .succeeded ch
  | .fail exception => (s.modifyTask i (·.setException exception)).setState i .failed ch
  | .cancel => s.setState i .cancelled ch

/-! ## Steps -/

/-- A step of one of the threads. -/
inductive ScheduledAction (V E : Type) where
  | start (ch : Choices)
  /-- The first `start()`, on another thread. -/
  | startOther
  | cancel
  | reset (ch : Choices)
  | restart (ch : Choices)
  | configure (restartOnFailure : Bool) (maximumFailureCount : Int)
  /-- The FX thread executes the queued half of `start`. -/
  | executeDeferred (ch : Choices)
  /-- The timer thread runs a timer task. -/
  | fireTimer (k : Nat)
  /-- The FX thread executes the runnable of a timer task. -/
  | executeTimer (k : Nat)
  /-- The FX thread executes a runnable of a task. -/
  | execute (i : Nat) (ch : Choices)
  /-- A worker thread, or a `cancel()` of the task on another thread, proceeds. -/
  | worker (i : Nat) (action : TaskAction V E)

/-- A step of a task off the FX thread; `call()` is begun with `postStart`. -/
def workerStep (i : Nat) (action : TaskAction V E) : Option (ScheduledService V E) :=
  match s.tasks[i]? with
  | none => none
  | some t =>
    match action with
    | .execute | .cancelFx => none
    | .run => if i ∈ s.handed then (t.step .run).map fun t => s.modifyTask i fun _ => t else none
    | .postStart =>
      (t.step .postStart).map fun t =>
        { s.modifyTask i fun _ => t with violated := s.violated || s.stopped }
    | _ => (t.step action).map fun t => s.modifyTask i fun _ => t

/-- None where the step is not possible. -/
def step : ScheduledAction V E → Option (ScheduledService V E)
  | .start ch => some ({ s with stopped := false }.start true ch)
  | .startOther => if s.startedOnce then none else some ({ s with stopped := false }.start false
      ⟨false, false, false, false, false⟩)
  | .cancel => some s.cancel
  | .reset ch => some (({ s with stopped := false }.reset ch).getD { s with stopped := false })
  | .restart ch => some ({ s with stopped := false }.restart ch)
  | .configure restartOnFailure maximumFailureCount =>
    some { s with restartOnFailure := restartOnFailure, maximumFailureCount := maximumFailureCount }
  | .executeDeferred ch =>
    if s.deferred = 0 then none else some ({ s with deferred := s.deferred - 1 }.launch ch)
  | .fireTimer k =>
    match s.timers[k]? with
    | some ⟨i, .waiting⟩ => some { s with timers := s.timers.set k ⟨i, .queued⟩ }
    | _ => none
  | .executeTimer k =>
    match s.timers[k]? with
    | some ⟨i, .queued⟩ =>
      some { { s with timers := s.timers.set k ⟨i, .done⟩ }.executeTaskNow i with delayTask := none }
    | _ => none
  | .execute i ch =>
    match s.tasks[i]? with
    | none => none
    | some t =>
      match t.queue with
      | [] => none
      | r :: rest => some ((s.modifyTask i fun t => { t with queue := rest }).exec i ch r)
  | .worker i action => s.workerStep i action

end ScheduledService

end OpenJfx.Concurrent
