/-
  OpenJfx.Concurrent.Service.Lifecycle

  All nine properties are bound to the current task, or hold their defaults.  A task is handed to
  `executeTask` when it is current, and once, provided that the queued half of a `start` finds the
  task it was queued for, or none.
-/

import OpenJfx.Concurrent.Service.Basic

namespace OpenJfx.Concurrent.Service

open List Option

variable {i : Nat} {V E : Type}

/-! ## Invariants -/

/-- All properties are bound to a task. -/
structure BoundTo (s : Service V E) (i : Nat) : Prop where
  lt_length : i < s.tasks.length
  state : s.state = .bound i
  value : s.value = .bound i
  exception : s.exception = .bound i
  workDone : s.workDone = .bound i
  totalWork : s.totalWorkToBeDone = .bound i
  progress : s.progress = .bound i
  running : s.running = .bound i
  message : s.message = .bound i
  title : s.title = .bound i

/-- The defaults, but for the state of a cancelled service. -/
structure Unbound (s : Service V E) : Prop where
  state : s.state = .plain .ready ∨ s.state = .plain .cancelled
  value : s.value = .plain none
  exception : s.exception = .plain none
  workDone : s.workDone = .plain (.finite (-1))
  totalWork : s.totalWorkToBeDone = .plain (.finite (-1))
  progress : s.progress = .plain (.finite (-1))
  running : s.running = .plain false
  message : s.message = .plain (some "")
  title : s.title = .plain (some "")

/-- The queue and the history know created tasks only. -/
structure Tracked (s : Service V E) : Prop where
  executed_lt : ∀ i ∈ s.executed, i < s.tasks.length
  deferred_lt : ∀ i ∈ s.deferred, i < s.tasks.length
  deferred_le : s.deferred.length ≤ 1
  unstarted : s.startedOnce = false → s.deferred = []
  disjoint : ∀ i ∈ s.deferred, i ∉ s.executed

/-- The service is bound to the task it tracks. -/
structure Inv (s : Service V E) : Prop where
  tracked : s.Tracked
  bound : ∀ i, s.task = some i → s.BoundTo i
  unbound : s.task = none → s.Unbound
  /-- The current task has been handed over, unless its runnable is queued. -/
  handed : ∀ i, s.task = some i → i ∉ s.deferred → i ∈ s.executed

theorem inv_new : (new : Service V E).Inv where
  tracked := ⟨by simp [new], by simp [new], by simp [new], fun _ => rfl, by simp [new]⟩
  bound := nofun
  unbound _ := ⟨.inl rfl, rfl, rfl, rfl, rfl, rfl, rfl, rfl, rfl⟩
  handed := nofun

variable {s s' : Service V E} {t : ServiceTask V E} {j : Nat} {rest : List Nat}
  {a : ServiceAction V E} {actions : List (ServiceAction V E)}

theorem BoundTo.visible_eq (h : s.BoundTo i)
    (ht : s.tasks[i]? = some t) : s.visible = t.snapshot := by
  simp only [visible, getState, Property.get, h.state, h.value, h.exception, h.workDone,
    h.totalWork, h.progress, h.running, h.message, h.title, ht, map_some, getD_some]

theorem Unbound.visible_eq (h : s.Unbound) :
    s.visible = { Snapshot.default with state := s.getState } ∧
      (s.getState = .ready ∨ s.getState = .cancelled) := by
  constructor
  · simp only [visible, Property.get, h.value, h.exception, h.workDone, h.totalWork, h.progress,
      h.running, h.message, h.title, Snapshot.default]
  · cases h.state with
    | inl hstate => exact .inl (by rw [getState, hstate]; rfl)
    | inr hstate => exact .inr (by rw [getState, hstate]; rfl)

/-! ## The calls -/

section Calls

variable {s : Service V E}

theorem Tracked.modifyTask (h : s.Tracked) (i : Nat) (f : ServiceTask V E → ServiceTask V E) :
    (s.modifyTask i f).Tracked where
  executed_lt j hj := by
    rw [Service.modifyTask, length_modify]
    exact h.executed_lt j hj
  deferred_lt j hj := by
    rw [Service.modifyTask, length_modify]
    exact h.deferred_lt j hj
  deferred_le := h.deferred_le
  unstarted := h.unstarted
  disjoint := h.disjoint

theorem BoundTo.modifyTask {k : Nat} (h : s.BoundTo k) (i : Nat)
    (f : ServiceTask V E → ServiceTask V E) : (s.modifyTask i f).BoundTo k :=
  { h with lt_length := by rw [Service.modifyTask, length_modify]; exact h.lt_length }

theorem Inv.modifyTask (h : s.Inv) (i : Nat) (f : ServiceTask V E → ServiceTask V E) :
    (s.modifyTask i f).Inv where
  tracked := h.tracked.modifyTask i f
  bound k hk := (h.bound k hk).modifyTask i f
  unbound hnone := { h.unbound hnone with }
  handed := h.handed

/-- What `reset` makes of a service. -/
def cleared (s : Service V E) : Service V E :=
  { s with
    task := none
    state := .plain .ready
    value := .plain none
    exception := .plain none
    workDone := .plain (.finite (-1))
    totalWorkToBeDone := .plain (.finite (-1))
    progress := .plain (.finite (-1))
    running := .plain false
    message := .plain (some "")
    title := .plain (some "") }

theorem reset_of_busy (h : s.getState = .scheduled ∨ s.getState = .running) :
    s.reset = (some .illegalState, s) := if_pos h

theorem reset_of_idle (h : ¬ (s.getState = .scheduled ∨ s.getState = .running)) :
    s.reset = (none, s.cleared) := if_neg h

theorem Tracked.inv_cleared (h : s.Tracked) : s.cleared.Inv where
  tracked := { h with }
  bound := nofun
  unbound _ := ⟨.inl rfl, rfl, rfl, rfl, rfl, rfl, rfl, rfl, rfl⟩
  handed := nofun

theorem boundTo_wire (t : ServiceTask V E) : (s.wire t).BoundTo s.tasks.length where
  lt_length := by
    rw [wire, length_append]
    exact Nat.lt_succ_self _
  state := rfl
  value := rfl
  exception := rfl
  workDone := rfl
  totalWork := rfl
  progress := rfl
  running := rfl
  message := rfl
  title := rfl

theorem lt_length_wire (hi : i < s.tasks.length) :
    i < (s.wire t).tasks.length := by
  rw [wire, length_append]
  exact Nat.lt_add_right _ hi

/-- A `start` on the FX thread. -/
def started (s : Service V E) (info : Info) : Service V E :=
  { (s.wire (.new info)).modifyTask s.tasks.length (·.setState .scheduled) with
    executed := s.executed ++ [s.tasks.length] }

theorem start_fx (h : s.getState = .ready) (info : Info) :
    s.start true info = (none, s.started info) := by
  rw [start, Bool.not_true, Bool.and_false, if_neg Bool.false_ne_true, if_neg (not_not.mpr h)]
  rfl

theorem Inv.started (h : s.Inv) (info : Info) : (s.started info).Inv where
  tracked :=
    { executed_lt := by
        intro i hi
        rw [Service.started, Service.modifyTask, length_modify]
        cases mem_append.mp hi with
        | inl hold => exact lt_length_wire (h.tracked.executed_lt i hold)
        | inr hnew =>
          rw [mem_singleton.mp hnew]
          exact (boundTo_wire _).lt_length
      deferred_lt := by
        intro i hi
        rw [Service.started, Service.modifyTask, length_modify]
        exact lt_length_wire (h.tracked.deferred_lt i hi)
      deferred_le := h.tracked.deferred_le
      unstarted := nofun
      disjoint := by
        intro i hi hmem
        cases mem_append.mp hmem with
        | inl hold => exact h.tracked.disjoint i hi hold
        | inr hnew =>
          have hlt := h.tracked.deferred_lt i hi
          rw [mem_singleton.mp hnew] at hlt
          exact Nat.lt_irrefl _ hlt }
  bound i hi := by
    cases hi
    exact { (boundTo_wire (.new info)).modifyTask s.tasks.length (·.setState .scheduled) with }
  unbound := nofun
  handed i hi _ := by
    cases hi
    exact mem_append_right _ (mem_singleton_self _)

/-- A first `start` off the FX thread. -/
def queued (s : Service V E) (info : Info) : Service V E :=
  { s.wire (.new info) with deferred := s.deferred ++ [s.tasks.length] }

theorem start_other (hfst : s.startedOnce = false) (h : s.getState = .ready) (info : Info) :
    s.start false info = (none, s.queued info) := by
  rw [start, hfst, Bool.false_and, if_neg Bool.false_ne_true, if_neg (not_not.mpr h)]
  rfl

theorem Inv.queued (h : s.Inv) (hfst : s.startedOnce = false) (info : Info) :
    (s.queued info).Inv where
  tracked := by
    have hemp := h.tracked.unstarted hfst
    have hdefer : (s.queued info).deferred = [s.tasks.length] := by
      rw [Service.queued, hemp, nil_append]
    exact
      { executed_lt := fun i hi => lt_length_wire (h.tracked.executed_lt i hi)
        deferred_lt := by
          intro i hi
          rw [hdefer, mem_singleton] at hi
          rw [hi]
          exact (boundTo_wire _).lt_length
        deferred_le := by rw [hdefer]; exact Nat.le_refl 1
        unstarted := nofun
        disjoint := by
          intro i hi hmem
          rw [hdefer, mem_singleton] at hi
          have hlt := h.tracked.executed_lt i hmem
          omega }
  bound i hi := by
    cases hi
    exact { boundTo_wire (.new info) with }
  unbound := nofun
  handed i hi hmem := by
    cases hi
    exact (hmem (mem_append_right _ (mem_singleton_self _))).elim

theorem Inv.cancel (h : s.Inv) : s.cancel.2.Inv ∧ s.cancel.2.executed = s.executed := by
  rw [Service.cancel]
  cases htask : s.task with
  | none =>
    dsimp only
    have hunbound := h.unbound htask
    split
    · exact ⟨h, rfl⟩
    · cases hstate : s.state with
      | bound i => exact ⟨h, rfl⟩
      | plain a =>
        exact ⟨⟨{ h.tracked with }, nofun, fun _ => { hunbound with state := .inr rfl }, nofun⟩, rfl⟩
  | some i => exact ⟨h.modifyTask i _, rfl⟩

theorem Tracked.dropTask (h : s.Tracked) : s.dropTask.Tracked := by
  rw [Service.dropTask]
  cases s.task with
  | none => exact h
  | some i => exact { h.modifyTask i ServiceTask.cancel with }

theorem Inv.idle_dropTask (h : s.Inv) :
    ¬ (s.dropTask.getState = .scheduled ∨ s.dropTask.getState = .running) := by
  rw [Service.dropTask]
  cases htask : s.task with
  | none =>
    dsimp only
    cases (h.unbound htask).visible_eq.2 with
    | inl hready => simp [hready]
    | inr hcanc => simp [hcanc]
  | some i => simp [getState, Property.get]

theorem Inv.restart_eq (h : s.Inv) (info : Info) :
    s.restart info = (none, s.dropTask.cleared.started info) := by
  rw [Service.restart, reset_of_idle h.idle_dropTask]
  exact start_fx rfl info

theorem launch_none (h : s.task = none) : s.launch = (some .nullPointer, s) := by
  rw [launch, h]

theorem launch_some {i : Nat} (h : s.task = some i) : s.launch = (none,
      { s.modifyTask i (·.setState .scheduled) with executed := s.executed ++ [i] }) := by
  rw [launch, h]

theorem inv_launch (htracked : s.Tracked) (hemp : s.deferred = [])
    (hbound : ∀ i, s.task = some i → s.BoundTo i) (hunbound : s.task = none → s.Unbound) :
    s.launch.2.Inv := by
  cases htask : s.task with
  | none =>
    rw [launch_none htask]
    exact ⟨htracked, hbound, hunbound, fun i hi => by rw [htask] at hi; cases hi⟩
  | some i =>
    rw [launch_some htask]
    have hcur := (hbound i htask).modifyTask i (·.setState .scheduled)
    have hsame : ∀ k, s.task = some k → k = i := fun k hk => some.inj (hk.symm.trans htask)
    have hmod := htracked.modifyTask i (·.setState .scheduled)
    refine ⟨?_, ?_, ?_, ?_⟩
    · refine ⟨?_, hmod.deferred_lt, hmod.deferred_le, hmod.unstarted, ?_⟩
      · intro k hk
        cases mem_append.mp hk with
        | inl hold => exact hmod.executed_lt k hold
        | inr hnew =>
          rw [mem_singleton.mp hnew]
          exact hcur.lt_length
      · intro k hk
        have hk' : k ∈ s.deferred := hk
        rw [hemp] at hk'
        cases hk'
    · intro k hk
      obtain rfl := hsame k hk
      exact { hcur with }
    · intro hnone
      exact absurd ((show s.task = none from hnone).symm.trans htask) nofun
    · intro k hk _
      obtain rfl := hsame k hk
      exact mem_append_right _ (mem_singleton_self _)

theorem Inv.deferred_eq (h : s.Inv) (hdefer : s.deferred = j :: rest) :
    rest = [] := by
  have hle := h.tracked.deferred_le
  rw [hdefer, length_cons] at hle
  exact length_eq_zero_iff.mp (by omega)

theorem Inv.launch (h : s.Inv) (hdefer : s.deferred = j :: rest) :
    ({ s with deferred := rest }.launch).2.Inv := by
  obtain rfl := h.deferred_eq hdefer
  apply inv_launch
  · exact ⟨h.tracked.executed_lt, nofun, Nat.zero_le 1, fun _ => rfl, nofun⟩
  · rfl
  · exact fun i hi => { h.bound i hi with }
  · exact fun hnone => { h.unbound hnone with }

end Calls

/-! ## Steps -/

/-- A queued half of `start` finds the task it was queued for, or none. -/
def OwnTask (s : Service V E) : ServiceAction V E → Prop
  | .executeDeferred => ∀ i, s.task = some i → i ∈ s.deferred
  | _ => True

/-- At most one task was handed over, and it is the current one. -/
def Hands (s s' : Service V E) : Prop :=
  s'.executed = s.executed ∨ ∃ i, s'.task = some i ∧ s'.executed = s.executed ++ [i]

/-- What one step does. -/
structure StepSpec (s : Service V E) (a : ServiceAction V E) (s' : Service V E) : Prop where
  inv : s'.Inv
  hands : s.Hands s'
  nodup_iff : s.executed.Nodup → (s'.executed.Nodup ↔ s.OwnTask a)

section Steps

variable {s s' : Service V E}

theorem StepSpec.of_same (hinv : s'.Inv) (hsame : s'.executed = s.executed)
    (hown : s.OwnTask a) : s.StepSpec a s' :=
  ⟨hinv, .inl hsame, fun hnd => iff_of_true (by rwa [hsame]) hown⟩

theorem nodup_append_singleton {l : List Nat} (h : l.Nodup) (i : Nat) :
    (l ++ [i]).Nodup ↔ i ∉ l := by
  rw [nodup_append]
  constructor
  · rintro ⟨-, -, hne⟩ hi
    exact hne i hi i (mem_singleton_self i) rfl
  · intro hi
    refine ⟨h, pairwise_singleton _ i, ?_⟩
    rintro a ha b hb rfl
    rw [mem_singleton.mp hb] at ha
    exact hi ha

theorem StepSpec.of_started {s0 : Service V E} (h0 : s0.Inv)
    (hsame : s0.executed = s.executed) (hown : s.OwnTask a) (info : Info) :
    s.StepSpec a (s0.started info) := by
  refine ⟨h0.started info, .inr ⟨s0.tasks.length, rfl, ?_⟩, fun hnd => iff_of_true ?_ hown⟩
  · rw [← hsame]
    rfl
  · change (s0.executed ++ [s0.tasks.length]).Nodup
    rw [nodup_append_singleton (by rwa [hsame])]
    intro hmem
    exact Nat.lt_irrefl _ (h0.tracked.executed_lt _ hmem)

theorem dropTask_executed : s.dropTask.cleared.executed = s.executed := by
  rw [dropTask]
  cases s.task <;> rfl

theorem start_fx_of_ne (h : s.getState ≠ .ready) (info : Info) :
    s.start true info = (some .illegalState, s) := by
  rw [start, Bool.not_true, Bool.and_false, if_neg Bool.false_ne_true, if_pos h]

theorem start_other_of_ne (hfst : s.startedOnce = false) (h : s.getState ≠ .ready) (info : Info) :
    s.start false info = (some .illegalState, s) := by
  rw [start, hfst, Bool.false_and, if_neg Bool.false_ne_true, if_pos h]

theorem StepSpec.of_deferred (h : s.Inv) (hdefer : s.deferred = j :: rest) :
    s.StepSpec .executeDeferred ({ s with deferred := rest }.launch).2 := by
  obtain htask | ⟨i, htask⟩ := eq_none_or_eq_some s.task
  · have hlaunch := @launch_none V E { s with deferred := rest } htask
    have hinv := h.launch hdefer
    rw [hlaunch] at hinv ⊢
    refine .of_same hinv (show s.executed = s.executed from rfl) fun i hi => ?_
    exact absurd (hi.symm.trans htask) nofun
  · have hlaunch := @launch_some V E { s with deferred := rest } i htask
    have hinv := h.launch hdefer
    rw [hlaunch] at hinv ⊢
    refine ⟨hinv, .inr ⟨i, htask, rfl⟩, fun hnd => ?_⟩
    change (s.executed ++ [i]).Nodup ↔ _
    rw [nodup_append_singleton hnd]
    constructor
    · intro hnew k hk
      obtain rfl : k = i := some.inj (hk.symm.trans htask)
      by_contra hmem
      exact hnew (h.handed k htask hmem)
    · intro hown
      exact h.tracked.disjoint i (hown i htask)

theorem step_task {action : TaskAction V E} (hstep : s.step (.task i action) = some s') :
    ∃ f, s' = s.modifyTask i f := by
  rw [step] at hstep
  split at hstep
  · cases hstep
  · split at hstep
    · cases hstep
    · obtain ⟨task, -, rfl⟩ := map_eq_some_iff.mp hstep
      exact ⟨_, rfl⟩

/-- Every step meets its specification. -/
theorem step_spec (h : s.Inv) (hstep : s.step a = some s') :
    s.StepSpec a s' := by
  cases a with
  | start info =>
    cases hstep
    by_cases hready : s.getState = .ready
    · rw [start_fx hready]
      exact StepSpec.of_started h rfl (show s.OwnTask (.start info) from trivial) info
    · rw [start_fx_of_ne hready]
      exact .of_same h rfl trivial
  | startOther info =>
    rw [step] at hstep
    cases hfst : s.startedOnce with
    | true =>
      rw [hfst, if_pos rfl] at hstep
      cases hstep
    | false =>
      rw [hfst, if_neg Bool.false_ne_true] at hstep
      cases hstep
      by_cases hready : s.getState = .ready
      · rw [start_other hfst hready]
        exact .of_same (h.queued hfst info) rfl trivial
      · rw [start_other_of_ne hfst hready]
        exact .of_same h rfl trivial
  | cancel =>
    cases hstep
    exact .of_same h.cancel.1 h.cancel.2 trivial
  | reset =>
    cases hstep
    by_cases hbusy : s.getState = .scheduled ∨ s.getState = .running
    · rw [reset_of_busy hbusy]
      exact .of_same h rfl trivial
    · rw [reset_of_idle hbusy]
      exact .of_same h.tracked.inv_cleared rfl trivial
  | restart info =>
    cases hstep
    rw [h.restart_eq]
    exact StepSpec.of_started h.tracked.dropTask.inv_cleared dropTask_executed
      (show s.OwnTask (.restart info) from trivial) info
  | executeDeferred =>
    rw [step] at hstep
    cases hdefer : s.deferred with
    | nil =>
      rw [hdefer] at hstep
      cases hstep
    | cons j rest =>
      rw [hdefer] at hstep
      cases hstep
      exact .of_deferred h hdefer
  | task i action =>
    obtain ⟨f, rfl⟩ := step_task hstep
    exact .of_same (h.modifyTask i f) rfl trivial
  | updateInfo i info | updateValue i value =>
    cases hstep
    exact .of_same (h.modifyTask i _) rfl trivial

end Steps

/-! ## Runs -/

theorem inv_of_run (h : s.Inv) (hrun : runActions step s actions = some s') : s'.Inv :=
  runActions_invariant (fun _ _ _ hs hstep => (step_spec hs hstep).inv) h hrun

theorem Hands.isPrefix (h : s.Hands s') : s.executed <+: s'.executed := by
  obtain hsame | ⟨i, -, happend⟩ := h
  · exact hsame ▸ prefix_rfl
  · rw [happend]
    exact prefix_append ..

theorem executed_isPrefix_of_run
    (h : s.Inv) (hrun : runActions step s actions = some s') : s.executed <+: s'.executed := by
  have hboth : s'.Inv ∧ s.executed <+: s'.executed :=
    @runActions_invariant _ _ step (fun s1 : Service V E => s1.Inv ∧ s.executed <+: s1.executed)
      (fun s1 a s2 hs hstep =>
        ⟨(step_spec hs.1 hstep).inv, hs.2.trans (step_spec hs.1 hstep).hands.isPrefix⟩)
      s s' actions ⟨h, prefix_rfl⟩ hrun
  exact hboth.2

theorem nodup_iff_of_run (h : s.Inv)
    (hnd : s.executed.Nodup) (hrun : runActions step s actions = some s') :
    s'.executed.Nodup ↔ AllSteps OwnTask step s actions := by
  induction actions generalizing s with
  | nil =>
    cases hrun
    exact iff_of_true hnd trivial
  | cons a actions ih =>
    rw [runActions_cons] at hrun
    obtain ⟨s1, hstep, hrest⟩ := bind_eq_some_iff.mp hrun
    have hspec := step_spec h hstep
    have hfst := hspec.nodup_iff hnd
    constructor
    · intro hnd'
      have hnodup1 := hnd'.sublist (executed_isPrefix_of_run hspec.inv hrest).sublist
      refine ⟨hfst.mp hnodup1, fun s2 hstep2 => ?_⟩
      obtain rfl : s1 = s2 := some.inj (hstep.symm.trans hstep2)
      exact (ih hspec.inv hnodup1 hrest).mp hnd'
    · rintro ⟨hown, hall⟩
      exact (ih hspec.inv (hfst.mpr hown) hrest).mpr (hall s1 hstep)

/-- What the service shows: its current task, or the defaults. -/
def ShowsCurrent (s : Service V E) : Prop :=
  match s.task with
  | some i => ∃ t, s.tasks[i]? = some t ∧ s.visible = t.snapshot
  | none =>
    s.visible = { Snapshot.default with state := .ready } ∨
      s.visible = { Snapshot.default with state := .cancelled }

theorem Inv.showsCurrent (h : s.Inv) : s.ShowsCurrent := by
  rw [ShowsCurrent]
  split
  · rename_i i htask
    have hbound := h.bound i htask
    exact ⟨_, getElem?_eq_getElem hbound.lt_length,
      hbound.visible_eq (getElem?_eq_getElem hbound.lt_length)⟩
  · rename_i htask
    obtain ⟨hvisible, hready | hcanc⟩ := (h.unbound htask).visible_eq
    · exact .inl (by rw [hvisible, hready])
    · exact .inr (by rw [hvisible, hcanc])

/-- The calls throw as documented, and change nothing then. -/
structure ThrowsByState (s : Service V E) : Prop where
  start : ∀ isFxApplicationThread info, (isFxApplicationThread = false → s.startedOnce = false) →
    (s.getState = .ready → (s.start isFxApplicationThread info).1 = none) ∧
    (s.getState ≠ .ready → s.start isFxApplicationThread info = (some .illegalState, s))
  reset : (s.getState ≠ .scheduled ∧ s.getState ≠ .running → s.reset.1 = none) ∧
    (s.getState = .scheduled ∨ s.getState = .running → s.reset = (some .illegalState, s))

theorem throwsByState (s : Service V E) : s.ThrowsByState where
  start fx info hfst := by
    cases fx with
    | true =>
      refine ⟨fun hready => ?_, fun hne => start_fx_of_ne hne info⟩
      rw [start_fx hready]
    | false =>
      refine ⟨fun hready => ?_, fun hne => start_other_of_ne (hfst rfl) hne info⟩
      rw [start_other (hfst rfl) hready]
  reset := by
    refine ⟨fun hidle => ?_, reset_of_busy⟩
    rw [reset_of_idle (not_or.mpr hidle)]

theorem Inv.visible_modifyTask (h : s.Inv) (hi : s.task ≠ some i)
    (f : ServiceTask V E → ServiceTask V E) : (s.modifyTask i f).visible = s.visible := by
  obtain htask | ⟨k, htask⟩ := eq_none_or_eq_some s.task
  · have hunbound := h.unbound htask
    have hunbound' := (h.modifyTask i f).unbound htask
    have hstate : (s.modifyTask i f).getState = s.getState := by
      change s.state.get (s.modifyTask i f).tasks Snapshot.state .ready = s.getState
      rw [getState]
      cases hunbound.state with
      | inl hready => rw [hready]; rfl
      | inr hcanc => rw [hcanc]; rfl
    rw [hunbound'.visible_eq.1, hunbound.visible_eq.1, hstate]
  · have hbound := h.bound k htask
    have hne : i ≠ k := fun heq => hi (heq ▸ htask)
    have hget := getElem?_eq_getElem hbound.lt_length
    have hsame : (s.modifyTask i f).tasks[k]? = s.tasks[k]? := by
      rw [Service.modifyTask, getElem?_modify_ne _ _ hne]
    rw [(hbound.modifyTask i f).visible_eq (hsame.trans hget), hbound.visible_eq hget]

/-- The steps of a task and its updates. -/
def ServiceAction.isOf (i : Nat) : ServiceAction V E → Prop
  | .task k _ | .updateInfo k _ | .updateValue k _ => k = i
  | _ => False

theorem Inv.visible_of_step (h : s.Inv)
    (ha : a.isOf i) (hi : s.task ≠ some i) (hstep : s.step a = some s') : s'.visible = s.visible := by
  cases a with
  | task k action =>
    obtain rfl : k = i := ha
    obtain ⟨f, rfl⟩ := step_task hstep
    exact h.visible_modifyTask hi f
  | updateInfo k info | updateValue k value =>
    obtain rfl : k = i := ha
    cases hstep
    exact h.visible_modifyTask hi _
  | start | startOther | cancel | reset | restart | executeDeferred => exact ha.elim

/-- In every run the calls throw by the state, only the current task is handed over and shown; no
    task is handed over twice exactly when no queued half of `start` was overtaken. -/
theorem lifecycle_of_run {actions : List (ServiceAction V E)} {s : Service V E}
    (hrun : runActions step new actions = some s) :
    s.ThrowsByState ∧
      (∀ a s', s.step a = some s' → s.Hands s') ∧
      (s.executed.Nodup ↔ AllSteps OwnTask step new actions) ∧
      s.ShowsCurrent ∧
      ∀ a i s', ServiceAction.isOf i a → s.task ≠ some i → s.step a = some s' →
        s'.visible = s.visible := by
  have hinv := inv_of_run inv_new hrun
  exact ⟨s.throwsByState, fun a s' hstep => (step_spec hinv hstep).hands,
    nodup_iff_of_run inv_new List.Pairwise.nil hrun, hinv.showsCurrent,
    fun a i s' ha hi hstep => hinv.visible_of_step ha hi hstep⟩

/-- The first `start`'s runnable hands over a later task. -/
def overtaken : List (ServiceAction Nat Nat) :=
  [.startOther ⟨.finite (-1), .finite (-1), .finite (-1), some "", some ""⟩, .reset,
    .start ⟨.finite (-1), .finite (-1), .finite (-1), some "", some ""⟩, .executeDeferred]

/-- The overtaken runnable executes the second task once more. -/
theorem executed_overtaken :
    ∃ s, runActions step new overtaken = some s ∧ s.executed = [1, 1] ∧ ¬ s.executed.Nodup :=
  ⟨_, rfl, rfl, show ¬ [1, 1].Nodup by decide⟩

/-- A `start` off the FX thread, a `restart`, a late update. -/
def restarted : List (ServiceAction Nat Nat) :=
  [.startOther ⟨.finite (-1), .finite (-1), .finite (-1), some "", some ""⟩, .executeDeferred,
    .task 0 .run, .restart ⟨.finite (-1), .finite (-1), .finite (-1), some "", some ""⟩,
    .updateInfo 0 ⟨.finite 1, .finite 2, .finite (1 / 2), some "late", some ""⟩]

theorem lifecycle_restarted : ∃ s, runActions step new restarted = some s ∧ s.executed = [0, 1] ∧
      AllSteps OwnTask step new restarted ∧ s.ShowsCurrent := by
  obtain ⟨-, -, hnd, hshows, -⟩ := @lifecycle_of_run Nat Nat restarted _ rfl
  exact ⟨_, rfl, rfl, hnd.mp (show [0, 1].Nodup by decide), hshows⟩

end OpenJfx.Concurrent.Service
