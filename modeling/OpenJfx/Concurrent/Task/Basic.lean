/-
  OpenJfx.Concurrent.Task.Basic

  A task and the threads that work on it: the worker executes `FutureTask.run`, the FX thread the
  runnables in their order, and every thread may call `cancel()`.  A step is what one thread does
  without the others seeing it half done.  The values of the state, and whether a cancelled task
  got an exception, are kept as history.
-/

import OpenJfx.Lib.Machine

namespace OpenJfx.Concurrent

/-- `Worker.State`. -/
inductive State where
  | ready
  | scheduled
  | running
  | succeeded
  | cancelled
  | failed
  deriving DecidableEq, Repr

/-- SUCCEEDED, CANCELLED or FAILED. -/
def State.isTerminal : State → Bool
  | succeeded | cancelled | failed => true
  | _ => false

/-- What `FutureTask` knows of the computation. -/
inductive Future where
  | new
  | completed
  | cancelled
  deriving DecidableEq, Repr

variable {V E : Type}

/-- Where the worker thread is. -/
inductive WorkerStage (V E : Type) where
  /-- `FutureTask.run` has not been called. -/
  | waiting
  /-- In `TaskCallable.call`, before the first `runLater`. -/
  | starting
  /-- In `Task.call`. -/
  | calling
  /-- `Task.call` has returned. -/
  | returned (result : V)
  /-- `isCancelled` was false. -/
  | succeeding (result : V)
  /-- `Task.call` has thrown. -/
  | threw (exception : E)
  /-- `TaskCallable.call` has returned or thrown. -/
  | finishing
  | done

/-- What is handed to `runLater`. -/
inductive Runnable (V E : Type) where
  | start
  | succeed (result : V)
  | fail (exception : E)
  | cancel

/-- A task with its future, its worker and its runnables on the FX queue. -/
structure Task (V E : Type) where
  future : Future
  worker : WorkerStage V E
  /-- A thread other than the FX thread has cancelled the future and not yet
      posted its runnable. -/
  cancelling : Bool
  queue : List (Runnable V E)
  state : State
  running : Bool
  value : Option V
  exception : Option E
  /-- The values the state has taken. -/
  states : List State
  /-- The events that were fired. -/
  events : List State
  /-- The exception was set when the task was cancelled. -/
  lateException : Bool

/-- A step of one of the threads. -/
inductive TaskAction (V E : Type) where
  /-- `FutureTask.run`. -/
  | run
  | postStart
  | callReturns (result : V)
  | callThrows (exception : E)
  | testCancelled
  | postSucceeded
  | postFailed
  /-- `FutureTask.set` and `setException`. -/
  | complete
  /-- The FX thread executes a runnable. -/
  | execute
  /-- `cancel()` on the FX thread. -/
  | cancelFx
  /-- `cancel()` on another thread, up to the return of `super.cancel`. -/
  | cancelOther
  | postCancelled

namespace Task

def new : Task V E :=
  { future := .new, worker := .waiting, cancelling := false, queue := [], state := .ready,
    running := false, value := none, exception := none, states := [.ready], events := [],
    lateException := false }

/-- A cancelled task stays so. -/
def setState (t : Task V E) (value : State) : Task V E :=
  if t.state = .cancelled then t
  else
    { t with
      state := value
      running := decide (value = .scheduled ∨ value = .running)
      states := t.states ++ [value]
      events := t.events ++ [value] }

def setException (t : Task V E) (exception : E) : Task V E :=
  { t with
    exception := some exception
    lateException := t.lateException || decide (t.state = .cancelled) }

/-- A runnable on the FX thread. -/
def exec (t : Task V E) : Runnable V E → Task V E
  | .start => (t.setState .scheduled).setState .running
  | .succeed result => { t with value := some result }.setState .succeeded
  | .fail exception => (t.setException exception).setState .failed
  | .cancel => t.setState .cancelled

/-- `runLater`. -/
def post (t : Task V E) (r : Runnable V E) : Task V E := { t with queue := t.queue ++ [r] }

/-- None where the step is not possible. -/
def step (t : Task V E) : TaskAction V E → Option (Task V E)
  | .run =>
    match t.worker with
    | .waiting => some { t with worker := if t.future = .new then .starting else .done }
    | _ => none
  | .postStart =>
    match t.worker with
    | .starting => some { t.post .start with worker := .calling }
    | _ => none
  | .callReturns result =>
    match t.worker with
    | .calling => some { t with worker := .returned result }
    | _ => none
  | .callThrows exception =>
    match t.worker with
    | .calling => some { t with worker := .threw exception }
    | _ => none
  | .testCancelled =>
    match t.worker with
    | .returned result =>
      some { t with worker := if t.future = .cancelled then .finishing else .succeeding result }
    | _ => none
  | .postSucceeded =>
    match t.worker with
    | .succeeding result => some { t.post (.succeed result) with worker := .finishing }
    | _ => none
  | .postFailed =>
    match t.worker with
    | .threw exception => some { t.post (.fail exception) with worker := .finishing }
    | _ => none
  | .complete =>
    match t.worker with
    | .finishing =>
      some { t with
        worker := .done
        future := if t.future = .new then .completed else t.future }
    | _ => none
  | .execute =>
    match t.queue with
    | [] => none
    | r :: rest => some ({ t with queue := rest }.exec r)
  | .cancelFx =>
    if t.future = .new then some ({ t with future := .cancelled }.setState .cancelled) else some t
  | .cancelOther =>
    if t.future = .new then some { t with future := .cancelled, cancelling := true } else some t
  | .postCancelled =>
    if t.cancelling then some { t.post .cancel with cancelling := false } else none

end Task

end OpenJfx.Concurrent
