/-
  OpenJfx.Concurrent.Task.Updates

  The coalesced updates of a task, made by one background thread and executed by the FX thread.  
  The newest value waits in an `AtomicReference`, and a runnable is posted when it was null
  before.  A null value is itself the mark of "no update pending".
-/

import Mathlib.Data.List.Count
import Mathlib.Data.Rat.Defs
import OpenJfx.Lib.Machine

namespace OpenJfx.Concurrent

open List

/-! ## One property -/

/-- A property, its pending update, the values passed and assigned. -/
structure Channel (α : Type) where
  pending : Option α
  property : Option α
  passed : List (Option α)
  assigned : List (Option α)

namespace Channel

variable {α : Type}

def new (initial : Option α) : Channel α := ⟨none, initial, [], []⟩

/-- `getAndSet(value)` in an update call. -/
def offer (c : Channel α) (value : Option α) : Channel α :=
  { c with pending := value, passed := c.passed ++ [value] }

/-- Whether the call posts a runnable. -/
def posts (c : Channel α) : Bool := c.pending.isNone

/-- `getAndSet(null)` and the assignment, in a runnable. -/
def take (c : Channel α) : Channel α :=
  { c with pending := none, property := c.pending, assigned := c.assigned ++ [c.pending] }

end Channel

/-! ## The task -/

/-- A `double`, with exact finite values. -/
inductive JavaDouble where
  | nan
  | infinite (negative : Bool)
  | finite (value : ℚ)
  deriving DecidableEq

/-- What an `update` method sets. -/
inductive UpdateKind where
  | message
  | title
  | value
  | progress
  deriving DecidableEq, Repr

/-- A task's updates, with the runnables that wait for the FX thread. -/
structure TaskUpdates (V : Type) where
  message : Channel String
  title : Channel String
  value : Channel V
  /-- The pairs of `workDone` and `totalWork`. -/
  progress : Channel (ℚ × ℚ)
  /-- The property `progress` itself. -/
  ratio : JavaDouble
  queue : List UpdateKind
  /-- A runnable has thrown a `NullPointerException`. -/
  failed : Bool

/-- A call of the worker, or a runnable on the FX thread. -/
inductive UpdateAction (V : Type) where
  | updateMessage (message : Option String)
  | updateTitle (title : Option String)
  | updateValue (value : Option V)
  | updateProgress (workDone max : JavaDouble)
  | execute

/-- Infinity and NaN are -1. -/
def JavaDouble.adjust : JavaDouble → ℚ
  | finite value => value
  | _ => -1

/-- The pair that `updateProgress` stores. -/
def normalise (workDone max : JavaDouble) : ℚ × ℚ :=
  let workDone := if workDone.adjust < 0 then -1 else workDone.adjust
  let max := if max.adjust < 0 then -1 else max.adjust
  (if workDone > max then max else workDone, max)

/-- The quotient of `_updateProgress`. -/
def progressRatio (workDone max : ℚ) : JavaDouble :=
  if workDone = -1 then .finite (-1)
  else if max = 0 then .nan
  else .finite (workDone / max)

namespace TaskUpdates

variable {V : Type}

def new : TaskUpdates V :=
  { message := .new (some ""), title := .new (some ""), value := .new none,
    progress := .new (some (-1, -1)), ratio := .finite (-1), queue := [], failed := false }

/-- The queue after an update call. -/
def postIf (queue : List UpdateKind) (posts : Bool) (kind : UpdateKind) : List UpdateKind :=
  if posts then queue ++ [kind] else queue

/-- None where the queue is empty. -/
def step (t : TaskUpdates V) : UpdateAction V → Option (TaskUpdates V)
  | .updateMessage message =>
    some { t with
      message := t.message.offer message
      queue := postIf t.queue t.message.posts .message }
  | .updateTitle title =>
    some { t with
      title := t.title.offer title
      queue := postIf t.queue t.title.posts .title }
  | .updateValue value =>
    some { t with
      value := t.value.offer value
      queue := postIf t.queue t.value.posts .value }
  | .updateProgress workDone max =>
    some { t with
      progress := t.progress.offer (some (normalise workDone max))
      queue := postIf t.queue t.progress.posts .progress }
  | .execute =>
    match t.queue with
    | [] => none
    | .message :: rest => some { t with message := t.message.take, queue := rest }
    | .title :: rest => some { t with title := t.title.take, queue := rest }
    | .value :: rest => some { t with value := t.value.take, queue := rest }
    | .progress :: rest =>
      match t.progress.pending with
      | none => some { t with queue := rest, failed := true }
      | some (workDone, max) =>
        some { t with
          progress := t.progress.take
          ratio := progressRatio workDone max
          queue := rest }

end TaskUpdates

/-! ## What is to be shown -/

/-- Passed values are assigned in order, the last one shown in the end. -/
structure Channel.Faithful {α : Type} (c : Channel α) (queued : Nat) : Prop where
  subsequence : c.assigned.Sublist c.passed
  settled : queued = 0 → ∀ value ∈ c.passed.getLast?, c.property = value

/-- No value is passed while a null waits. -/
def Channel.Admits {α : Type} (c : Channel α) (queued : Nat) (value : Option α) : Prop :=
  value ≠ none → c.pending ≠ none ∨ queued = 0

namespace TaskUpdates

variable {V : Type}

/-- How many runnables wait for a property. -/
def queued (t : TaskUpdates V) (kind : UpdateKind) : Nat := t.queue.count kind

/-- Every property shows the last update handed over, or a runnable is queued. -/
structure Faithful (t : TaskUpdates V) : Prop where
  message : t.message.Faithful (t.queued .message)
  title : t.title.Faithful (t.queued .title)
  value : t.value.Faithful (t.queued .value)
  progress : t.progress.Faithful (t.queued .progress)
  failed : t.failed = false

/-- The update is one that its property admits. -/
def Harmless (t : TaskUpdates V) : UpdateAction V → Prop
  | .updateMessage message => t.message.Admits (t.queued .message) message
  | .updateTitle title => t.title.Admits (t.queued .title) title
  | .updateValue value => t.value.Admits (t.queued .value) value
  | _ => True

end TaskUpdates

/-! ## The invariant of a property -/

variable {queued : Nat}

namespace Channel

variable {α : Type}

/-- A value that waits is the last one passed and has one runnable; other runnables have a null
    each. -/
inductive Inv (c : Channel α) (queued : Nat) : Prop
  | waiting (value : α) (pending : c.pending = some value) (one : queued = 1)
      (last : c.passed.getLast? = some (some value))
      (sublist : (c.assigned ++ [some value]).Sublist c.passed) : Inv c queued
  | nulls (pending : c.pending = none)
      (sublist : (c.assigned ++ List.replicate queued none).Sublist c.passed)
      (last : 0 < queued → c.passed.getLast? = some none)
      (settled : queued = 0 → ∀ value ∈ c.passed.getLast?, c.property = value) : Inv c queued

variable {c : Channel α}

theorem Inv.faithful (h : c.Inv queued) : c.Faithful queued := by
  cases h with
  | waiting value pending one last sublist =>
    exact ⟨(sublist_append_left _ _).trans sublist, fun hzero => absurd hzero (by omega)⟩
  | nulls pending sublist last settled =>
    exact ⟨(sublist_append_left _ _).trans sublist, settled⟩

theorem inv_new (initial : Option α) : (new initial).Inv 0 :=
  .nulls rfl (List.Sublist.refl _) (fun h => absurd h (Nat.lt_irrefl 0))
    fun _ value hval => by cases hval

theorem last_offer (c : Channel α) (value : Option α) :
    (c.offer value).passed.getLast? = some value := by
  simp [offer]

theorem Inv.offer (h : c.Inv queued) {value : Option α} (hadmits : c.Admits queued value) :
    (c.offer value).Inv (if c.posts then queued + 1 else queued) := by
  have hlast := c.last_offer value
  have hone : ∀ value', (c.assigned ++ [value']).Sublist (c.passed ++ [value']) := by
    intro value'
    exact (h.faithful.subsequence).append (List.Sublist.refl _)
  cases h with
  | waiting old pending one last sublist =>
    have hposts : c.posts = false := by simp [posts, pending]
    rw [hposts, if_neg Bool.false_ne_true]
    cases value with
    | some value => exact .waiting value rfl one hlast (hone _)
    | none =>
      refine .nulls rfl ?_ (fun _ => hlast) fun hzero => absurd hzero (by omega)
      rw [one]
      exact hone none
  | nulls pending sublist last settled =>
    have hposts : c.posts = true := by simp [posts, pending]
    rw [hposts, if_pos rfl]
    cases value with
    | some value =>
      have hzero : queued = 0 := (hadmits (by simp)).resolve_left fun hne => hne pending
      exact .waiting value rfl (by omega) hlast (hone _)
    | none =>
      refine .nulls rfl ?_ (fun _ => hlast) fun hzero => absurd hzero (by omega)
      rw [replicate_succ', ← append_assoc]
      exact sublist.append (List.Sublist.refl _)

theorem Inv.take (h : c.Inv (queued + 1)) :
    c.take.Inv queued := by
  cases h with
  | waiting value pending one last sublist =>
    have hzero : queued = 0 := by omega
    subst hzero
    refine .nulls rfl ?_ (fun hpos => absurd hpos (Nat.lt_irrefl 0)) ?_
    · rw [replicate_zero, append_nil]
      show (c.assigned ++ [c.pending]).Sublist c.passed
      rw [pending]
      exact sublist
    · intro _ value' hval'
      have hval : some (some value) = some value' := last.symm.trans hval'
      cases hval
      exact pending
  | nulls pending sublist last settled =>
    have hlast := last (Nat.succ_pos queued)
    refine .nulls rfl ?_ (fun _ => hlast) ?_
    · show (c.assigned ++ [c.pending] ++ List.replicate queued none).Sublist c.passed
      rw [pending, append_assoc]
      exact sublist
    · intro _ value' hval'
      have hval : some (none : Option α) = some value' := hlast.symm.trans hval'
      cases hval
      exact pending

end Channel

/-! ## Every interleaving -/

namespace TaskUpdates

variable {V : Type}

/-- The invariant of every kind of update. -/
structure Inv (t : TaskUpdates V) : Prop where
  message : t.message.Inv (t.queued .message)
  title : t.title.Inv (t.queued .title)
  value : t.value.Inv (t.queued .value)
  progress : t.progress.Inv (t.queued .progress)
  /-- A pair is never null. -/
  pairs : t.progress.pending = none → t.queued .progress = 0
  failed : t.failed = false

theorem count_postIf_self (queue : List UpdateKind) (posts : Bool) (kind : UpdateKind) :
    (postIf queue posts kind).count kind =
      if posts then queue.count kind + 1 else queue.count kind := by
  cases posts <;> simp [postIf]

theorem count_postIf_of_ne {kind kind' : UpdateKind} (h : kind ≠ kind') (queue : List UpdateKind)
    (posts : Bool) : (postIf queue posts kind).count kind' = queue.count kind' := by
  cases posts
  · rfl
  · simp [postIf, h]

theorem count_tail_self {queue rest : List UpdateKind} {kind : UpdateKind}
    (h : queue = kind :: rest) : queue.count kind = rest.count kind + 1 := by
  rw [h, count_cons_self]

theorem count_tail_of_ne {queue rest : List UpdateKind} {kind kind' : UpdateKind}
    (h : queue = kind :: rest) (hne : kind ≠ kind') : queue.count kind' = rest.count kind' := by
  rw [h, count_cons_of_ne hne]

theorem inv_new : (new : TaskUpdates V).Inv :=
  ⟨Channel.inv_new _, Channel.inv_new _, Channel.inv_new _, Channel.inv_new _, fun _ => rfl, rfl⟩

theorem execute_inv {t t' : TaskUpdates V} (h : t.Inv) (hstep : t.step .execute = some t') :
    t'.Inv := by
  obtain ⟨hmsg, htitle, hval, hprog, hpairs, hfailed⟩ := h
  unfold queued at hmsg htitle hval hprog hpairs
  rw [step] at hstep
  split at hstep
  · cases hstep
  · next rest hq =>
    cases hstep
    rw [count_tail_self hq] at hmsg
    rw [count_tail_of_ne hq (by decide)] at htitle hval hprog hpairs
    exact ⟨hmsg.take, htitle, hval, hprog, hpairs, hfailed⟩
  · next rest hq =>
    cases hstep
    rw [count_tail_self hq] at htitle
    rw [count_tail_of_ne hq (by decide)] at hmsg hval hprog hpairs
    exact ⟨hmsg, htitle.take, hval, hprog, hpairs, hfailed⟩
  · next rest hq =>
    cases hstep
    rw [count_tail_self hq] at hval
    rw [count_tail_of_ne hq (by decide)] at hmsg htitle hprog hpairs
    exact ⟨hmsg, htitle, hval.take, hprog, hpairs, hfailed⟩
  · next rest hq =>
    rw [count_tail_self hq] at hprog hpairs
    rw [count_tail_of_ne hq (by decide)] at hmsg htitle hval
    split at hstep
    · next hnone => exact absurd (hpairs hnone) (Nat.succ_ne_zero _)
    · next workDone max hsome =>
      cases hstep
      have hzero : rest.count .progress = 0 := by
        cases hprog with
        | waiting value pending one last sublist => omega
        | nulls pending sublist last settled =>
          rw [hsome] at pending
          cases pending
      exact ⟨hmsg, htitle, hval, hprog.take, fun _ => hzero, hfailed⟩

/-- Every step keeps the invariant. -/
theorem step_inv {t t' : TaskUpdates V} {action : UpdateAction V} (h : t.Inv)
    (hharm : t.Harmless action) (hstep : t.step action = some t') : t'.Inv := by
  cases action with
  | execute => exact execute_inv h hstep
  | updateMessage message =>
    cases hstep
    obtain ⟨hmsg, htitle, hval, hprog, hpairs, hfailed⟩ := h
    refine ⟨?_, ?_, ?_, ?_, ?_, hfailed⟩ <;> unfold queued
    · rw [count_postIf_self]
      exact hmsg.offer hharm
    all_goals rw [count_postIf_of_ne (by decide)]
    · exact htitle
    · exact hval
    · exact hprog
    · exact hpairs
  | updateTitle title =>
    cases hstep
    obtain ⟨hmsg, htitle, hval, hprog, hpairs, hfailed⟩ := h
    refine ⟨?_, ?_, ?_, ?_, ?_, hfailed⟩ <;> unfold queued
    · rw [count_postIf_of_ne (by decide)]
      exact hmsg
    · rw [count_postIf_self]
      exact htitle.offer hharm
    all_goals rw [count_postIf_of_ne (by decide)]
    · exact hval
    · exact hprog
    · exact hpairs
  | updateValue value =>
    cases hstep
    obtain ⟨hmsg, htitle, hval, hprog, hpairs, hfailed⟩ := h
    refine ⟨?_, ?_, ?_, ?_, ?_, hfailed⟩ <;> unfold queued
    · rw [count_postIf_of_ne (by decide)]
      exact hmsg
    · rw [count_postIf_of_ne (by decide)]
      exact htitle
    · rw [count_postIf_self]
      exact hval.offer hharm
    all_goals rw [count_postIf_of_ne (by decide)]
    · exact hprog
    · exact hpairs
  | updateProgress workDone max =>
    cases hstep
    obtain ⟨hmsg, htitle, hval, hprog, hpairs, hfailed⟩ := h
    refine ⟨?_, ?_, ?_, ?_, ?_, hfailed⟩ <;> unfold queued
    · rw [count_postIf_of_ne (by decide)]
      exact hmsg
    · rw [count_postIf_of_ne (by decide)]
      exact htitle
    · rw [count_postIf_of_ne (by decide)]
      exact hval
    · rw [count_postIf_self]
      refine hprog.offer fun _ => ?_
      cases hpend : t.progress.pending with
      | none => exact Or.inr (hpairs hpend)
      | some pair => exact Or.inl (by simp)
    · intro hnone
      cases hnone

/-- Without that, only superseded values are lost. -/
theorem faithful_of_harmless {actions : List (UpdateAction V)} {t : TaskUpdates V}
    (hharm : AllSteps Harmless step new actions)
    (h : runActions step new actions = some t) : t.Faithful := by
  have hinv := runActions_invariant_of (fun _ _ _ hs hc hstep => step_inv hs hc hstep) inv_new
    hharm h
  exact ⟨hinv.message.faithful, hinv.title.faithful, hinv.value.faithful, hinv.progress.faithful,
    hinv.failed⟩

/-- Two messages in one runnable, and a null in the next. -/
def threeMessages : List (UpdateAction Nat) :=
  [.updateMessage (some "a"), .updateMessage (some "b"), .execute, .updateMessage none, .execute]

theorem faithful_of_harmless_threeMessages :
    ∃ t : TaskUpdates Nat, runActions step new threeMessages = some t ∧
      t.message.assigned = [some "b", none] ∧ t.Faithful := by
  have hassigned : (runActions step (new : TaskUpdates Nat) threeMessages).map
      (·.message.assigned) = some [some "b", none] := rfl
  obtain ⟨t, ht, ha⟩ := Option.map_eq_some_iff.mp hassigned
  refine ⟨t, ht, ha, faithful_of_harmless ?_ ht⟩
  refine ⟨fun _ => Or.inr rfl, fun t₁ h₁ => ⟨fun _ => ?_, fun t₂ h₂ => ⟨trivial, fun t₃ h₃ =>
    ⟨fun hne => absurd rfl hne, fun t₄ h₄ => ⟨trivial, fun t₅ h₅ => trivial⟩⟩⟩⟩⟩
  cases h₁
  exact Or.inl (by decide)

/-- A null and then a value: the second runnable assigns null again. -/
def nullThenMessage : List (UpdateAction Nat) :=
  [.updateMessage none, .updateMessage (some "a"), .execute, .execute]

/-- A null message hides that a runnable is queued. -/
theorem faithful_nullPending : ∃ (actions : List (UpdateAction Nat)) (t : TaskUpdates Nat),
      runActions step new actions = some t ∧ t.queue = [] ∧ ¬ t.Faithful ∧
        t.message.passed = [none, some "a"] ∧ t.message.assigned = [some "a", none] := by
  have hrun : (runActions step (new : TaskUpdates Nat) nullThenMessage).map
      (fun t => (t.queue, t.message.passed, t.message.assigned, t.message.property)) =
        some ([], [none, some "a"], [some "a", none], none) := rfl
  obtain ⟨t, ht, heq⟩ := Option.map_eq_some_iff.mp hrun
  obtain ⟨hq, hpassed, hassigned, hproperty⟩ := by simpa only [Prod.mk.injEq] using heq
  refine ⟨nullThenMessage, t, ht, hq, fun hfaithful => ?_, hpassed, hassigned⟩
  have hlast : (some "a") ∈ t.message.passed.getLast? := by rw [hpassed]; rfl
  have := hfaithful.message.settled (by rw [queued, hq]; rfl) (some "a") hlast
  rw [hproperty] at this
  cases this

end TaskUpdates

end OpenJfx.Concurrent
