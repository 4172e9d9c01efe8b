/-
  OpenJfx.Concurrent.Service.Basic

  A service and its tasks.  The nine properties are bound to the current task or hold values of
  their own.  A first `start` off the FX thread leaves its second half to a runnable that reads
  `task` again.  Tasks may set anything, runnables of different tasks run in any order, and the
  calls of `executeTask` are kept as history.
-/

import OpenJfx.Concurrent.Task.Basic
import OpenJfx.Concurrent.Task.Updates

namespace OpenJfx.Concurrent

variable {V E : Type}

/-! ## Data -/

/-- What a worker shows in its nine properties. -/
structure Snapshot (V E : Type) where
  state : State
  value : Option V
  exception : Option E
  workDone : JavaDouble
  totalWork : JavaDouble
  progress : JavaDouble
  running : Bool
  message : Option String
  title : Option String

/-- The properties of a task that only its updates set. -/
structure Info where
  workDone : JavaDouble
  totalWork : JavaDouble
  progress : JavaDouble
  message : Option String
  title : Option String

/-- A task with what it shows its service. -/
structure ServiceTask (V E : Type) where
  task : Task V E
  info : Info

/-- A property: bound to that of a task, or with a value of its own. -/
inductive Property (α : Type) where
  | bound (task : Nat)
  | plain (value : α)

/-- The service with its properties, which may be bound to a task's. -/
structure Service (V E : Type) where
  /-- The tasks that `createTask` has returned. -/
  tasks : List (ServiceTask V E)
  task : Option Nat
  state : Property State
  value : Property (Option V)
  exception : Property (Option E)
  workDone : Property JavaDouble
  totalWorkToBeDone : Property JavaDouble
  progress : Property JavaDouble
  running : Property Bool
  message : Property (Option String)
  title : Property (Option String)
  startedOnce : Bool
  /-- The queued runnables of `start`, by the task that was current. -/
  deferred : List Nat
  /-- The tasks handed to `executeTask`. -/
  executed : List Nat

/-- What the methods throw. -/
inductive ServiceFailure where
  | illegalState
  | nullPointer
  /-- A bound value cannot be set. -/
  | boundValue
  deriving DecidableEq, Repr

namespace ServiceTask

/-- A task as `createTask` returns it. -/
def new (info : Info) : ServiceTask V E := ⟨.new, info⟩

/-- What the task shows its service. -/
def snapshot (t : ServiceTask V E) : Snapshot V E where
  state := t.task.state
  value := t.task.value
  exception := t.task.exception
  workDone := t.info.workDone
  totalWork := t.info.totalWork
  progress := t.info.progress
  running := t.task.running
  message := t.info.message
  title := t.info.title

def setState (t : ServiceTask V E) (state : State) : ServiceTask V E :=
  { t with task := t.task.setState state }

/-- `cancel()` on the FX thread. -/
def cancel (t : ServiceTask V E) : ServiceTask V E :=
  { t with task := (t.task.step .cancelFx).getD t.task }

end ServiceTask

/-- The value of a property. -/
def Property.get {α : Type} (p : Property α) (tasks : List (ServiceTask V E))
    (field : Snapshot V E → α) (default : α) : α :=
  match p with
  | plain a => a
  | bound i => ((tasks[i]?).map fun t => field t.snapshot).getD default

/-- The values of the properties after `reset`. -/
def Snapshot.default : Snapshot V E where
  state := .ready
  value := none
  exception := none
  workDone := .finite (-1)
  totalWork := .finite (-1)
  progress := .finite (-1)
  running := false
  message := some ""
  title := some ""

namespace Service

def new : Service V E where
  tasks := []
  task := none
  state := .plain .ready
  value := .plain none
  exception := .plain none
  workDone := .plain (.finite (-1))
  totalWorkToBeDone := .plain (.finite (-1))
  progress := .plain (.finite (-1))
  running := .plain false
  message := .plain (some "")
  title := .plain (some "")
  startedOnce := false
  deferred := []
  executed := []

variable (s : Service V E)

def getState : State := s.state.get s.tasks Snapshot.state .ready

/-- What the service shows. -/
def visible : Snapshot V E where
  state := s.getState
  value := s.value.get s.tasks Snapshot.value none
  exception := s.exception.get s.tasks Snapshot.exception none
  workDone := s.workDone.get s.tasks Snapshot.workDone (.finite (-1))
  totalWork := s.totalWorkToBeDone.get s.tasks Snapshot.totalWork (.finite (-1))
  progress := s.progress.get s.tasks Snapshot.progress (.finite (-1))
  running := s.running.get s.tasks Snapshot.running false
  message := s.message.get s.tasks Snapshot.message (some "")
  title := s.title.get s.tasks Snapshot.title (some "")

/-! ## Calls -/

/-- A call on the current task. -/
def modifyTask (i : Nat) (f : ServiceTask V E → ServiceTask V E) : Service V E :=
  { s with tasks := s.tasks.modify i f }

/-- The second half of `start`, on the FX thread. -/
def launch : Option ServiceFailure × Service V E :=
  match s.task with
  | none => (some .nullPointer, s)
  | some i => (none, { s.modifyTask i (·.setState .scheduled) with executed := s.executed ++ [i] })

/-- Bind all properties to a new task. -/
def wire (t : ServiceTask V E) : Service V E :=
  let i := s.tasks.length
  { s with
    tasks := s.tasks ++ [t]
    task := some i
    state := .bound i
    value := .bound i
    exception := .bound i
    workDone := .bound i
    totalWorkToBeDone := .bound i
    progress := .bound i
    running := .bound i
    message := .bound i
    title := .bound i
    startedOnce := true }

/-- `start()`, where `createTask` returns a new task. -/
def start (isFxApplicationThread : Bool) (info : Info) : Option ServiceFailure × Service V E :=
  if s.startedOnce && !isFxApplicationThread then (some .illegalState, s)
  else if s.getState ≠ .ready then (some .illegalState, s)
  else
    let s' := s.wire (.new info)
    if isFxApplicationThread then s'.launch
    else (none, { s' with deferred := s.deferred ++ [s.tasks.length] })

/-- `cancel()`: whether the cancel was successful. -/
def cancel : Except ServiceFailure Bool × Service V E :=
  match s.task with
  | none =>
    if s.getState = .cancelled ∨ s.getState = .succeeded then (.ok false, s)
    else
      match s.state with
      | .bound _ => (.error .boundValue, s)
      | .plain _ => (.ok true, { s with state := .plain .cancelled })
  | some i =>
    (.ok ((s.tasks[i]?).any fun t => t.task.future = .new), s.modifyTask i ServiceTask.cancel)

/-- It throws for a service that runs. -/
def reset : Option ServiceFailure × Service V E :=
  if s.getState = .scheduled ∨ s.getState = .running then (some .illegalState, s)
  else
    (none,
      { s with
        task := none
        state := .plain .ready
        value := .plain none
        exception := .plain none
        workDone := .plain (.finite (-1))
        totalWorkToBeDone := .plain (.finite (-1))
        progress := .plain (.finite (-1))
        running := .plain false
        message := .plain (some "")
        title := .plain (some "") })

/-- What `restart` does before it resets. -/
def dropTask : Service V E :=
  match s.task with
  | none => s
  | some i => { s.modifyTask i ServiceTask.cancel with task := none, state := .plain .cancelled }

/-- `restart`, which cancels what runs. -/
def restart (info : Info) : Option ServiceFailure × Service V E :=
  match s.dropTask.reset with
  | (some e, s') => (some e, s')
  | (none, s') => s'.start true info

/-! ## Steps -/

/-- A step of one of the threads. -/
inductive ServiceAction (V E : Type) where
  /-- `start()` on the FX thread. -/
  | start (info : Info)
  /-- The first `start()`, on another thread. -/
  | startOther (info : Info)
  | cancel
  | reset
  | restart (info : Info)
  /-- The FX thread executes the queued half of `start`. -/
  | executeDeferred
  /-- A task proceeds. -/
  | task (i : Nat) (action : TaskAction V E)
  /-- The FX thread executes an update of a task. -/
  | updateInfo (i : Nat) (info : Info)
  | updateValue (i : Nat) (value : Option V)

/-- None where the step is not possible. -/
def step : ServiceAction V E → Option (Service V E)
  | .start info => some (s.start true info).2
  | .startOther info => if s.startedOnce then none else some (s.start false info).2
  | .cancel => some s.cancel.2
  | .reset => some s.reset.2
  | .restart info => some (s.restart info).2
  | .executeDeferred =>
    match s.deferred with
    | [] => none
    | _ :: rest => some ({ s with deferred := rest }.launch).2
  | .task i action =>
    match s.tasks[i]? with
    | none => none
    | some t =>
      match action, decide (i ∈ s.executed) with
      -- Only `executeTask` runs a task.
      | .run, false => none
      | _, _ => (t.task.step action).map fun task => s.modifyTask i fun t => { t with task := task }
  | .updateInfo i info => some (s.modifyTask i fun t => { t with info := info })
  | .updateValue i value =>
    some (s.modifyTask i fun t => { t with task := { t.task with value := value } })

end Service

end OpenJfx.Concurrent
