/-
  OpenJfx.Concurrent.Task.States

  When the states of a task are final.  `outcome` is what the task will look like when all waiting
  runnables have been executed; executing one does not change it.  `Harmless` leaves out a cancel
  after success or failure on the FX thread, and the exception that a cancelled task gets from its
  `call`.
-/

import OpenJfx.Concurrent.Task.Basic

namespace OpenJfx.Concurrent

open List

variable {c : Course} {V E : Type}

/-! ## What is to be shown -/

/-- The sequences of states a task may take. -/
def lifecycles : List (List State) :=
  [[.ready], [.ready, .scheduled], [.ready, .scheduled, .running],
    [.ready, .scheduled, .running, .succeeded], [.ready, .scheduled, .running, .failed],
    [.ready, .scheduled, .running, .cancelled], [.ready, .cancelled],
    [.ready, .scheduled, .cancelled]]

/-- The states so far begin a lifecycle, with at most one terminal event, and the exception set
    first. -/
structure Task.Final (t : Task V E) : Prop where
  states : t.states ∈ lifecycles
  state : t.states.getLast? = some t.state
  events : t.events.countP State.isTerminal ≤ 1
  exception : t.lateException = false

/-- The steps after which a terminal state stays: a task that is done, or has posted its result, is
    not cancelled; a result is not posted while a cancellation is; a cancelled task does not
    throw. -/
def Task.Harmless (t : Task V E) : TaskAction V E → Prop
  | .cancelFx => t.future = .new → t.state ≠ .succeeded ∧ t.state ≠ .failed ∧
      ∀ e, .fail e ∉ t.queue
  | .cancelOther => t.future = .new → t.state ≠ .succeeded ∧ t.state ≠ .failed ∧
      (∀ v, .succeed v ∉ t.queue) ∧ ∀ e, .fail e ∉ t.queue
  | .postSucceeded => t.cancelling = false
  | .postFailed => t.future ≠ .cancelled
  | _ => True

/-! ## The course of a task -/

/-- What runnables change of a task. -/
structure Course where
  state : State
  states : List State
  events : List State
  late : Bool

variable {queue : List (Runnable V E)} {t t' : Task V E}

namespace Course

/-- As `setState`, and the change is noted. -/
def set (c : Course) (value : State) : Course :=
  if c.state = .cancelled then c
  else { c with state := value, states := c.states ++ [value], events := c.events ++ [value] }

/-- The effect of a runnable on the states. -/
def apply (c : Course) : Runnable V E → Course
  | .start => (c.set .scheduled).set .running
  | .succeed _ => c.set .succeeded
  | .fail _ => (⟨c.state, c.states, c.events, c.late || decide (c.state = .cancelled)⟩ : Course).set
      .failed
  | .cancel => c.set .cancelled

/-- A later stage of a course. -/
structure Extends (c c' : Course) : Prop where
  states : c.states <+: c'.states
  late : c.late = true → c'.late = true
  cancelled : c.state = .cancelled → c'.state = .cancelled

theorem Extends.refl (c : Course) : c.Extends c := ⟨prefix_refl _, id, id⟩

theorem Extends.trans {a b : Course} (h : a.Extends b) (h' : b.Extends c) : a.Extends c :=
  ⟨h.states.trans h'.states, fun hl => h'.late (h.late hl), fun hc => h'.cancelled (h.cancelled hc)⟩

theorem set_extends (c : Course) (value : State) : c.Extends (c.set value) := by
  unfold set
  split
  · exact .refl c
  · next h => exact ⟨prefix_append _ _, id, fun hc => absurd hc h⟩

theorem apply_extends (c : Course) (r : Runnable V E) : c.Extends (c.apply r) := by
  cases r with
  | start => exact (c.set_extends _).trans ((c.set .scheduled).set_extends _)
  | succeed result => exact c.set_extends _
  | fail exception =>
    refine Extends.trans ?_ (set_extends _ _)
    exact ⟨prefix_refl _, fun hl => by simp [hl], id⟩
  | cancel => exact c.set_extends _

theorem foldl_extends (c : Course) (queue : List (Runnable V E)) :
    c.Extends (queue.foldl apply c) := by
  induction queue generalizing c with
  | nil => exact .refl c
  | cons r queue ih => exact (c.apply_extends r).trans (ih _)

/-- The state is the last of the states, and every other one has its event. -/
structure Tidy (c : Course) : Prop where
  last : c.states.getLast? = some c.state
  events : c.events = c.states.tail

theorem Tidy.set {c : Course} (h : c.Tidy) (value : State) : (c.set value).Tidy := by
  unfold Course.set
  split
  · exact h
  · refine ⟨by simp, ?_⟩
    have hne : c.states ≠ [] := by
      intro hnil
      have := h.last
      rw [hnil] at this
      cases this
    show c.events ++ [value] = (c.states ++ [value]).tail
    rw [h.events, tail_append_of_ne_nil hne]

theorem Tidy.apply (h : c.Tidy) (r : Runnable V E) : (c.apply r).Tidy := by
  cases r with
  | start => exact (h.set _).set _
  | succeed result => exact h.set _
  | fail exception =>
    refine Tidy.set (c := ⟨c.state, c.states, c.events, _⟩) ?_ _
    exact { h with }
  | cancel => exact h.set _

theorem foldl_cancelled (hc : c.state = .cancelled)
    (hfail : ∀ e, .fail e ∉ queue) : queue.foldl apply c = c := by
  induction queue with
  | nil => rfl
  | cons r queue ih =>
    have hr : c.apply r = c := by
      cases r with
      | start | succeed result => simp [apply, set, hc]
      | fail exception => exact absurd mem_cons_self (hfail exception)
      | cancel => simp [apply, set, hc]
    rw [foldl_cons, hr]
    exact ih fun e he => hfail e (.tail _ he)

theorem foldl_unfinished (hs : c.state ≠ .succeeded)
    (hf : c.state ≠ .failed) (hsucceed : ∀ v, .succeed v ∉ queue) (hfail : ∀ e, .fail e ∉ queue) :
    (queue.foldl apply c).state ≠ .succeeded ∧ (queue.foldl apply c).state ≠ .failed := by
  induction queue generalizing c with
  | nil => exact ⟨hs, hf⟩
  | cons r queue ih =>
    have hset : ∀ (c : Course) (v : State), c.state ≠ .succeeded → c.state ≠ .failed →
        v ≠ .succeeded → v ≠ .failed → (c.set v).state ≠ .succeeded ∧ (c.set v).state ≠ .failed := by
      intro c v hs hf hv hv'
      unfold set
      split
      · exact ⟨hs, hf⟩
      · exact ⟨hv, hv'⟩
    have hr : (c.apply r).state ≠ .succeeded ∧ (c.apply r).state ≠ .failed := by
      cases r with
      | start =>
        have h1 := hset c .scheduled hs hf (by decide) (by decide)
        exact hset _ .running h1.1 h1.2 (by decide) (by decide)
      | succeed result => exact absurd mem_cons_self (hsucceed result)
      | fail exception => exact absurd mem_cons_self (hfail exception)
      | cancel => exact hset c .cancelled hs hf (by decide) (by decide)
    exact ih hr.1 hr.2 (fun v hv => hsucceed v (.tail _ hv))
      fun e he => hfail e (.tail _ he)

/-- A course that is as it should be. -/
structure Ok (c : Course) : Prop where
  lifecycle : c.states ∈ lifecycles
  tidy : c.Tidy
  late : c.late = false

theorem lifecycles_of_isPrefix {l m : List State} (hl : l ∈ lifecycles) (hm : m <+: l) (hne : m ≠ []) :
    m ∈ lifecycles := by
  have hall : ∀ l ∈ lifecycles, ∀ k < 4, l.take (k + 1) ∈ lifecycles := by decide
  have hlen : ∀ l ∈ lifecycles, l.length ≤ 4 := by decide
  have hpos := length_pos_of_ne_nil hne
  have hle := Nat.le_trans hm.length_le (hlen l hl)
  rw [prefix_iff_eq_take.mp hm, show m.length = m.length - 1 + 1 by omega]
  exact hall l hl (m.length - 1) (by omega)

theorem Ok.of_extends {c' : Course} (h : c'.Ok) (hc : c.Tidy) (hext : c.Extends c') : c.Ok := by
  refine ⟨lifecycles_of_isPrefix h.lifecycle hext.states ?_, hc, ?_⟩
  · intro hnil
    have := hc.last
    rw [hnil] at this
    cases this
  · cases hlate : c.late
    · rfl
    · have := hext.late hlate
      rw [h.late] at this
      cases this

theorem Ok.set {c : Course} (h : c.Ok) {value : State}
    (hnxt : c.state ≠ .cancelled → c.states ++ [value] ∈ lifecycles) : (c.set value).Ok := by
  refine ⟨?_, h.tidy.set value, ?_⟩
  · unfold Course.set
    split
    · exact h.lifecycle
    · next hc => exact hnxt hc
  · unfold Course.set
    split <;> exact h.late

theorem Ok.state_cases (h : c.Ok) : (c.state = .ready → c.states = [.ready]) ∧
      (c.state = .running → c.states = [.ready, .scheduled, .running]) ∧
      (c.state.isTerminal = false → c.states ++ [.cancelled] ∈ lifecycles) := by
  have hall : ∀ l ∈ lifecycles, (l.getLast? = some .ready → l = [.ready]) ∧
      (l.getLast? = some .running → l = [.ready, .scheduled, .running]) ∧
      ((l.getLast?.map State.isTerminal) = some false → l ++ [.cancelled] ∈ lifecycles) := by
    decide
  obtain ⟨hready, hrunning, hopen⟩ := hall c.states h.lifecycle
  refine ⟨fun hs => hready (hs ▸ h.tidy.last), fun hs => hrunning (hs ▸ h.tidy.last), fun hs => ?_⟩
  apply hopen
  rw [h.tidy.last, Option.map_some, hs]

end Course

/-! ## The outcome of a task -/

namespace Task

/-- The part of the task that is about its states. -/
def course (t : Task V E) : Course := ⟨t.state, t.states, t.events, t.lateException⟩

theorem course_setState (t : Task V E) (value : State) :
    (t.setState value).course = t.course.set value := by
  by_cases h : t.state = .cancelled
  · simp [setState, Course.set, course, h]
  · simp [setState, Course.set, course, h]

theorem course_exec (t : Task V E) (r : Runnable V E) : (t.exec r).course = t.course.apply r := by
  cases r with
  | start => simp only [exec, Course.apply, course_setState]
  | succeed result | fail exception | cancel => exact course_setState _ _

theorem setState_queue (t : Task V E) (value : State) : (t.setState value).queue = t.queue := by
  unfold setState
  split <;> rfl

theorem setState_frame (t : Task V E) (value : State) :
    (t.setState value).future = t.future ∧ (t.setState value).worker = t.worker ∧
      (t.setState value).cancelling = t.cancelling := by
  unfold setState
  split <;> exact ⟨rfl, rfl, rfl⟩

theorem exec_frame (t : Task V E) (r : Runnable V E) :
    (t.exec r).queue = t.queue ∧ (t.exec r).future = t.future ∧ (t.exec r).worker = t.worker ∧
      (t.exec r).cancelling = t.cancelling := by
  cases r with
  | start =>
    obtain ⟨h1, h2, h3⟩ := t.setState_frame .scheduled
    obtain ⟨h1', h2', h3'⟩ := (t.setState .scheduled).setState_frame .running
    exact ⟨(setState_queue _ _).trans (setState_queue _ _), h1'.trans h1, h2'.trans h2,
      h3'.trans h3⟩
  | succeed result | fail exception | cancel => exact ⟨setState_queue _ _, setState_frame _ _⟩

/-- What the task will look like when the queue is empty. -/
def outcome (t : Task V E) : Course := t.queue.foldl Course.apply t.course

theorem outcome_append (t t' : Task V E) (r : Runnable V E) (hq : t'.queue = t.queue ++ [r])
    (hcourse : t'.course = t.course) : t'.outcome = t.outcome.apply r := by
  unfold outcome
  rw [hq, hcourse, foldl_append]
  rfl

/-- Where the worker is, the outcome is as far. -/
def Stage (outcome : State) : WorkerStage V E → Prop
  | .waiting | .starting => outcome = .ready ∨ outcome = .cancelled
  | .calling | .returned _ | .succeeding _ | .threw _ => outcome = .running ∨ outcome = .cancelled
  | .finishing | .done => True

/-- The states reported, the worker and the future agree. -/
structure Inv (t : Task V E) : Prop where
  tidy : t.course.Tidy
  ok : t.outcome.Ok
  stage : Stage t.outcome.state t.worker
  cancelled : t.outcome.state = .cancelled → t.future = .cancelled
  reported : t.future = .cancelled → t.outcome.state = .cancelled ∨ t.cancelling = true
  cancelling : t.cancelling = true → t.future = .cancelled ∧
    t.outcome.state ≠ .succeeded ∧ t.outcome.state ≠ .failed

theorem Inv.final (h : t.Inv) : t.Final := by
  have hok := h.ok.of_extends h.tidy (t.course.foldl_extends t.queue)
  have hcnt : ∀ l ∈ lifecycles, l.tail.countP State.isTerminal ≤ 1 := by decide
  refine ⟨hok.lifecycle, hok.tidy.last, ?_, hok.late⟩
  have := hok.tidy.events
  dsimp only [course] at this
  rw [this]
  exact hcnt _ hok.lifecycle

theorem inv_new : (new : Task V E).Inv := by
  refine ⟨⟨rfl, rfl⟩, ⟨.head _, ⟨rfl, rfl⟩, rfl⟩, Or.inl rfl, ?_, ?_, ?_⟩
  · intro hc
    cases hc
  · intro hfut
    cases hfut
  · intro hc
    cases hc

theorem Inv.move (h : t.Inv) {worker : WorkerStage V E}
    (hstage : Stage t.outcome.state worker) : ({ t with worker := worker } : Task V E).Inv :=
  ⟨h.tidy, h.ok, hstage, h.cancelled, h.reported, h.cancelling⟩

theorem run_inv {t t' : Task V E} (h : t.Inv) (hstep : t.step .run = some t') : t'.Inv := by
  rw [step] at hstep
  split at hstep
  · next hwork =>
    cases hstep
    have hstage := h.stage
    rw [hwork] at hstage
    split
    · exact h.move hstage
    · exact h.move trivial
  · cases hstep

theorem postStart_inv (h : t.Inv) (hstep : t.step .postStart = some t') : t'.Inv := by
  rw [step] at hstep
  split at hstep
  · next hwork =>
    cases hstep
    have hstage := h.stage
    rw [hwork] at hstage
    have hout : ({ t.post .start with worker := .calling } : Task V E).outcome =
        t.outcome.apply (.start : Runnable V E) := outcome_append t _ .start rfl rfl
    rcases hstage with hready | hcanc
    · have hstates := h.ok.state_cases.1 hready
      have happly : (t.outcome.apply (.start : Runnable V E)).state = .running := by
        simp [Course.apply, Course.set, hready]
      refine ⟨h.tidy, ?_, ?_, ?_, ?_, ?_⟩
      · rw [hout]
        have h1 := @Course.Ok.set _ h.ok .scheduled fun _ => by rw [hstates]; decide
        refine h1.set fun _ => ?_
        simp only [Course.set, hready, reduceCtorEq, if_false, hstates]
        decide
      · rw [hout]
        exact Or.inl happly
      · rw [hout, happly]
        intro hc
        cases hc
      · intro hfut
        rcases h.reported hfut with hc | hc
        · rw [hready] at hc
          cases hc
        · exact Or.inr hc
      · intro hc
        refine ⟨(h.cancelling hc).1, ?_⟩
        rw [hout, happly]
        exact ⟨by decide, by decide⟩
    · have happly : t.outcome.apply (.start : Runnable V E) = t.outcome := by
        simp [Course.apply, Course.set, hcanc]
      rw [happly] at hout
      refine ⟨h.tidy, ?_, ?_, ?_, ?_, ?_⟩
      · rw [hout]; exact h.ok
      · rw [hout]; exact Or.inr hcanc
      · rw [hout]; exact h.cancelled
      · rw [hout]; exact h.reported
      · rw [hout]; exact h.cancelling
  · cases hstep

theorem postSucceeded_inv (h : t.Inv) (hharm : t.cancelling = false)
    (hstep : t.step .postSucceeded = some t') : t'.Inv := by
  rw [step] at hstep
  split at hstep
  · next result hwork =>
    cases hstep
    have hstage := h.stage
    rw [hwork] at hstage
    have hout : ({ t.post (.succeed result) with worker := .finishing } : Task V E).outcome =
        t.outcome.set .succeeded := outcome_append t _ (.succeed result) rfl rfl
    rcases hstage with hrunning | hcanc
    · have hstates := h.ok.state_cases.2.1 hrunning
      have hset : (t.outcome.set .succeeded).state = .succeeded := by
        simp [Course.set, hrunning]
      refine ⟨h.tidy, ?_, trivial, ?_, ?_, ?_⟩
      · rw [hout]
        exact h.ok.set fun _ => by rw [hstates]; decide
      · rw [hout, hset]
        intro hc
        cases hc
      · intro hfut
        rcases h.reported hfut with hc | hc
        · rw [hrunning] at hc
          cases hc
        · exact Or.inr hc
      · intro hc
        exact absurd hc (by rw [show ({ t.post (.succeed result) with worker := .finishing } :
          Task V E).cancelling = t.cancelling from rfl, hharm]; exact Bool.false_ne_true)
    · have hset : t.outcome.set .succeeded = t.outcome := by simp [Course.set, hcanc]
      rw [hset] at hout
      refine ⟨h.tidy, ?_, trivial, ?_, ?_, ?_⟩
      · rw [hout]; exact h.ok
      · rw [hout]; exact h.cancelled
      · rw [hout]; exact h.reported
      · rw [hout]; exact h.cancelling
  · cases hstep

theorem postFailed_inv (h : t.Inv) (hharm : t.future ≠ .cancelled)
    (hstep : t.step .postFailed = some t') : t'.Inv := by
  rw [step] at hstep
  split at hstep
  · next exception hwork =>
    cases hstep
    have hstage := h.stage
    rw [hwork] at hstage
    have hrunning : t.outcome.state = .running :=
      hstage.resolve_right fun hc => hharm (h.cancelled hc)
    have hstates := h.ok.state_cases.2.1 hrunning
    have hout : ({ t.post (.fail exception) with worker := .finishing } : Task V E).outcome =
        t.outcome.apply (.fail exception : Runnable V E) :=
      outcome_append t _ (.fail exception) rfl rfl
    have happly : t.outcome.apply (.fail exception : Runnable V E) = t.outcome.set .failed := by
      have hlate : (t.outcome.late || decide (t.outcome.state = .cancelled)) = t.outcome.late := by
        rw [hrunning]
        exact Bool.or_false _
      rw [Course.apply, hlate]
    have hset : (t.outcome.set .failed).state = .failed := by simp [Course.set, hrunning]
    rw [happly] at hout
    refine ⟨h.tidy, ?_, trivial, ?_, ?_, ?_⟩
    · rw [hout]
      exact h.ok.set fun _ => by rw [hstates]; decide
    · rw [hout, hset]
      intro hc
      cases hc
    · intro hfut
      exact absurd hfut hharm
    · intro hc
      exact absurd (h.cancelling hc).1 hharm
  · cases hstep

theorem execute_inv (h : t.Inv) (hstep : t.step .execute = some t') : t'.Inv := by
  rw [step] at hstep
  split at hstep
  · cases hstep
  · next r rest hqueue =>
    cases hstep
    obtain ⟨hq, hfut, hwork, hcancelling⟩ := exec_frame { t with queue := rest } r
    have hcourse : (exec { t with queue := rest } r).course = t.course.apply r := course_exec _ _
    have hout : (exec { t with queue := rest } r).outcome = t.outcome := by
      unfold outcome
      rw [hq, hcourse, hqueue]
      rfl
    refine ⟨?_, ?_, ?_, ?_, ?_, ?_⟩
    · rw [hcourse]; exact h.tidy.apply r
    · rw [hout]; exact h.ok
    · rw [hout, hwork]; exact h.stage
    · rw [hout, hfut]; exact h.cancelled
    · rw [hout, hfut, hcancelling]; exact h.reported
    · rw [hout, hfut, hcancelling]; exact h.cancelling

theorem cancelFx_inv (h : t.Inv) (hharm : t.Harmless .cancelFx)
    (hstep : t.step .cancelFx = some t') : t'.Inv := by
  rw [step] at hstep
  split at hstep
  · next hnew =>
    cases hstep
    obtain ⟨hs, hf, hfail⟩ := hharm hnew
    have hcourse : (setState { t with future := .cancelled } .cancelled).course =
        t.course.set .cancelled := course_setState _ _
    have hq : (setState { t with future := .cancelled } .cancelled).queue = t.queue :=
      setState_queue _ _
    obtain ⟨hfut, hwork, hcancelling⟩ :=
      setState_frame ({ t with future := .cancelled } : Task V E) .cancelled
    have hnot : t.state ≠ .cancelled := by
      intro hc
      have := h.cancelled ((t.course.foldl_extends t.queue).cancelled hc)
      rw [hnew] at this
      cases this
    have hset : (t.course.set .cancelled).state = .cancelled := by
      unfold Course.set
      split
      · assumption
      · rfl
    have hout : (setState { t with future := .cancelled } .cancelled).outcome =
        t.course.set .cancelled := by
      unfold outcome
      rw [hq, hcourse]
      exact Course.foldl_cancelled hset hfail
    have hok := h.ok.of_extends h.tidy (t.course.foldl_extends t.queue)
    have hopen : t.course.state.isTerminal = false := by
      show t.state.isTerminal = false
      cases hstate : t.state with
      | ready | scheduled | running => rfl
      | succeeded => exact absurd hstate hs
      | failed => exact absurd hstate hf
      | cancelled => exact absurd hstate hnot
    refine ⟨?_, ?_, ?_, ?_, ?_, ?_⟩
    · rw [hcourse]; exact h.tidy.set _
    · rw [hout]; exact hok.set fun _ => hok.state_cases.2.2 hopen
    · rw [hout, hset, hwork]
      cases t.worker <;> first | trivial | exact Or.inr rfl
    · intro _
      exact hfut
    · intro _
      exact Or.inl (by rw [hout]; exact hset)
    · intro _
      refine ⟨hfut, ?_⟩
      rw [hout, hset]
      exact ⟨by decide, by decide⟩
  · cases hstep
    exact h

theorem cancelOther_inv (h : t.Inv) (hharm : t.Harmless .cancelOther)
    (hstep : t.step .cancelOther = some t') : t'.Inv := by
  rw [step] at hstep
  split at hstep
  · next hnew =>
    cases hstep
    obtain ⟨hs, hf, hsucceed, hfail⟩ := hharm hnew
    have hopen := Course.foldl_unfinished (c := t.course) hs hf hsucceed hfail
    exact ⟨h.tidy, h.ok, h.stage, fun _ => rfl, fun _ => Or.inr rfl, fun _ => ⟨rfl, hopen⟩⟩
  · cases hstep
    exact h

theorem postCancelled_inv (h : t.Inv) (hstep : t.step .postCancelled = some t') : t'.Inv := by
  rw [step] at hstep
  split at hstep
  · next hcancelling =>
    cases hstep
    obtain ⟨hfut, hs, hf⟩ := h.cancelling hcancelling
    have hout : ({ t.post .cancel with cancelling := false } : Task V E).outcome =
        t.outcome.set .cancelled := outcome_append t _ .cancel rfl rfl
    have hset : (t.outcome.set .cancelled).state = .cancelled := by
      unfold Course.set
      split
      · assumption
      · rfl
    refine ⟨h.tidy, ?_, ?_, ?_, ?_, ?_⟩
    · rw [hout]
      refine h.ok.set fun hnot => h.ok.state_cases.2.2 ?_
      cases hstate : t.outcome.state with
      | ready | scheduled | running => rfl
      | succeeded => exact absurd hstate hs
      | failed => exact absurd hstate hf
      | cancelled => exact absurd hstate hnot
    · rw [hout, hset]
      show Stage .cancelled t.worker
      cases t.worker <;> first | trivial | exact Or.inr rfl
    · intro _
      exact hfut
    · intro _
      exact Or.inl (by rw [hout]; exact hset)
    · intro hc
      cases hc
  · cases hstep

theorem step_inv {t t' : Task V E} {action : TaskAction V E} (h : t.Inv)
    (hharm : t.Harmless action) (hstep : t.step action = some t') : t'.Inv := by
  cases action with
  | run => exact run_inv h hstep
  | postStart => exact postStart_inv h hstep
  | callReturns result | callThrows exception =>
    rw [step] at hstep
    split at hstep
    · next hwork =>
      cases hstep
      have hstage := h.stage
      rw [hwork] at hstage
      exact h.move hstage
    · cases hstep
  | testCancelled =>
    rw [step] at hstep
    split at hstep
    · next result hwork =>
      cases hstep
      have hstage := h.stage
      rw [hwork] at hstage
      split
      · exact h.move trivial
      · exact h.move hstage
    · cases hstep
  | postSucceeded => exact postSucceeded_inv h hharm hstep
  | postFailed => exact postFailed_inv h hharm hstep
  | complete =>
    rw [step] at hstep
    split at hstep
    · next hwork =>
      cases hstep
      refine ⟨h.tidy, h.ok, trivial, ?_, ?_, ?_⟩
      · intro hc
        have := h.cancelled hc
        simp [this]
      · intro hfut
        apply h.reported
        dsimp only at hfut
        split at hfut
        · cases hfut
        · exact hfut
      · intro hc
        have := h.cancelling hc
        simp only [this.1, reduceCtorEq, if_false, true_and]
        exact this.2
    · cases hstep
  | execute => exact execute_inv h hstep
  | cancelFx => exact cancelFx_inv h hharm hstep
  | cancelOther => exact cancelOther_inv h hharm hstep
  | postCancelled => exact postCancelled_inv h hstep

/-! ## Every interleaving -/

/-- With harmless steps the terminal state is final. -/
theorem final_of_harmless {actions : List (TaskAction V E)} {t : Task V E}
    (hharm : AllSteps Harmless step new actions)
    (h : runActions step new actions = some t) : t.Final :=
  Inv.final (runActions_invariant_of (fun _ _ _ hs hc hstep => step_inv hs hc hstep) inv_new
    hharm h)

/-- A task that is cancelled on the FX thread while it is working. -/
def cancelledTask : List (TaskAction Nat Nat) :=
  [.run, .postStart, .execute, .cancelFx, .callReturns 7, .testCancelled, .complete]

/-- Cancelled before the result is handed over. -/
theorem final_of_harmless_cancelledTask :
    ∃ t : Task Nat Nat, runActions step new cancelledTask = some t ∧
      t.states = [.ready, .scheduled, .running, .cancelled] ∧ t.Final := by
  have hstates : (runActions step (new : Task Nat Nat) cancelledTask).map (·.states) =
      some [.ready, .scheduled, .running, .cancelled] := rfl
  obtain ⟨t, ht, hs⟩ := Option.map_eq_some_iff.mp hstates
  refine ⟨t, ht, hs, final_of_harmless ?_ ht⟩
  refine ⟨trivial, fun t₁ h₁ => ⟨trivial, fun t₂ h₂ => ⟨trivial, fun t₃ h₃ => ⟨?_, fun t₄ h₄ =>
    ⟨trivial, fun t₅ h₅ => ⟨trivial, fun t₆ h₆ => ⟨trivial, fun t₇ h₇ => trivial⟩⟩⟩⟩⟩⟩⟩
  cases h₁
  cases h₂
  cases h₃
  intro _
  exact ⟨by decide, by decide, fun e he => by cases he⟩

/-- It has succeeded, and is cancelled before its worker returns. -/
def succeededTask : List (TaskAction Nat Nat) :=
  [.run, .postStart, .callReturns 7, .testCancelled, .postSucceeded, .execute, .execute, .cancelFx]

/-- A task that has succeeded is cancelled. -/
theorem final_fails : ∃ (actions : List (TaskAction Nat Nat)) (t : Task Nat Nat),
      runActions step new actions = some t ∧ ¬ t.Final ∧
        t.states = [.ready, .scheduled, .running, .succeeded, .cancelled] := by
  have hstates : (runActions step (new : Task Nat Nat) succeededTask).map (·.states) =
      some [.ready, .scheduled, .running, .succeeded, .cancelled] := rfl
  obtain ⟨t, ht, hs⟩ := Option.map_eq_some_iff.mp hstates
  refine ⟨succeededTask, t, ht, fun hfinal => ?_, hs⟩
  have := hfinal.states
  rw [hs] at this
  revert this
  decide

end Task

end OpenJfx.Concurrent
