/-
  OpenJfx.Concurrent.ScheduledService.Stopping

  A cancelled scheduled service stops iterating, with two exceptions.  `failed`
  does not look at the flag `stop`, as `succeeded` does: a failure that is
  handled after a `cancel()` starts another iteration.  And a worker that has
  passed the check of `FutureTask.run` begins `call()` whatever happens.
-/

import OpenJfx.Concurrent.ScheduledService.Calls

namespace OpenJfx.Concurrent.ScheduledService

open List Option

variable {i : Nat} {ch : Choices} {V E : Type} {s s' : ScheduledService V E} {calm : Bool}

/-! ## Iterations -/

/-- The choices of a step cancel in calm moments only. -/
def Calm (ch : Choices) (calm : Bool) : Prop := ch.cancels = true → calm = true

theorem Calm.each (h : Calm ch calm) :
    (ch.eventCancels = true → calm = true) ∧ (ch.readyCancels = true → calm = true) ∧
      (ch.scheduledCancels = true → calm = true) ∧ (ch.backoffCancels = true → calm = true) := by
  refine ⟨fun hc => h ?_, fun hc => h ?_, fun hc => h ?_, fun hc => h ?_⟩ <;>
    simp [Choices.cancels, hc]

theorem Inv.cancelFromReadyState (h : s.Inv calm) (hch : Calm ch calm) :
    (s.cancelFromReadyState ch).Inv calm := by
  have hsched : ({ s with ownState := .scheduled } : ScheduledService V E).Inv calm :=
    h.of_live rfl rfl rfl rfl rfl fun _ => id
  exact (hsched.handle hch.each.2.2.1).of_live rfl rfl rfl rfl rfl fun _ => id

theorem Inv.not_stopped (h : s.Inv calm) (htask : s.task = some i) (hstop : s.stop = false) :
    s.stopped = false := by
  by_contra hstopped
  cases h.stopped_stop ((Bool.not_eq_false _).mp hstopped) with
  | inl hstop' => exact absurd (hstop.symm.trans hstop') nofun
  | inr hnone => exact absurd (hnone.symm.trans htask) nofun

theorem Inv.succeeded (h : s.Inv calm) (htask : s.task = some i)
    (hch : Calm ch calm) : (s.succeeded ch).Inv calm := by
  rw [ScheduledService.succeeded]
  cases hreset : s.superReset ch with
  | none => exact h
  | some s1 =>
    obtain ⟨hinv, -, hsame⟩ := h.superReset hch.each.2.1 hreset
    dsimp only
    split
    · exact hinv.cancelFromReadyState hch
    · rename_i hstop
      refine hinv.start hch.each.2.2.1 (fun hready => ?_) true
      rw [hsame hready]
      exact h.not_stopped htask (Bool.eq_false_iff.mpr hstop)

theorem Inv.failed (h : s.Inv calm) (htask : s.task = some i)
    (hch : Calm ch calm) (hretries : s.retries = true → s.stop = false ∧ ch.backoffCancels = false) :
    (s.failed ch).Inv calm := by
  have hcounted : ({ s with currentFailureCount := s.currentFailureCount + 1 } :
      ScheduledService V E).Inv calm := h.of_live rfl rfl rfl rfl rfl fun _ => id
  rw [ScheduledService.failed]
  dsimp only
  split
  · rename_i hretry
    obtain ⟨hstop, hbackoff⟩ := hretries hretry
    rw [hbackoff]
    split
    · exact hcounted
    · rename_i s1 hreset
      obtain ⟨hinv, -, hsame⟩ := hcounted.superReset hch.each.2.1 hreset
      refine hinv.start hch.each.2.2.1 (fun hready => ?_) true
      rw [hsame hready]
      exact h.not_stopped htask hstop
  · exact hcounted

theorem retries_cancel : s.cancel.retries = s.retries := by
  have hdrop : ∀ s : ScheduledService V E, s.dropDelayTask.retries = s.retries := by
    intro s
    rw [dropDelayTask]
    split <;> rfl
  refine (hdrop _).trans ?_
  change s.superCancel.retries = s.retries
  rw [superCancel]
  split
  · split <;> rfl
  · rfl

theorem retries_handle (cancels : Bool) : (s.handle cancels).retries = s.retries := by
  cases cancels with
  | false => rfl
  | true => exact retries_cancel

/-- The failure is not handled in a service that was cancelled. -/
def NotCancelled (s : ScheduledService V E) (ch : Choices) : Prop :=
  s.retries = true → s.stop = false ∧ ch.eventCancels = false ∧ ch.backoffCancels = false

theorem Inv.stateChanged (h : s.Inv calm) (htask : s.task = some i)
    (hch : Calm ch calm) {value : State} (hfailed : value = .failed → s.NotCancelled ch) :
    (s.stateChanged value ch).Inv calm := by
  have hevent := h.handle hch.each.1
  have hcur : (s.handle ch.eventCancels).task = some i := (handle_task _).trans htask
  cases value with
  | succeeded => exact hevent.succeeded hcur hch
  | failed =>
    refine hevent.failed hcur hch fun hretries => ?_
    rw [retries_handle] at hretries
    obtain ⟨hstop, hno, hbackoff⟩ := hfailed rfl hretries
    rw [hno]
    exact ⟨hstop, hbackoff⟩
  | scheduled => exact h.handle hch.each.2.2.1
  | running => exact hevent
  | ready | cancelled => exact h

theorem Inv.setState (h : s.Inv calm) {i : Nat} {ch : Choices} (hch : Calm ch calm) {value : State}
    (hcanc : ∀ t, s.tasks[i]? = some t → value = .cancelled → t.future = .cancelled)
    (hfresh : s.Settled i ∨ value = .scheduled)
    (hfailed : ∀ t, s.tasks[i]? = some t → t.state ≠ .cancelled → s.task = some i →
      value = .failed → s.NotCancelled ch) :
    (s.setState i value ch).Inv calm := by
  rw [ScheduledService.setState]
  split
  · exact h
  · rename_i t ht
    split
    · exact h
    · rename_i hne
      have hset := h.setTaskState hcanc hfresh
      dsimp only
      split
      · rename_i hcur
        exact hset.stateChanged hcur.1 hch fun hval => hfailed t ht hne hcur.1 hval
      · exact hset

theorem Settled.setState_scheduled (h : s.Inv calm) (hsett : s.Settled i)
    (hch : Calm ch calm) : (s.setState i .scheduled ch).Settled i := by
  rw [ScheduledService.setState]
  split
  · exact hsett
  · split
    · exact hsett
    · have hset := @Inv.setTaskState V E s calm h i .scheduled (fun _ _ hne => by cases hne) (.inr rfl)
      have hstill : (s.modifyTask i (·.setState .scheduled)).Settled i :=
        hsett.modifyTask fun t _ hp => (Task.setState_pending_iff t .scheduled).mp hp
      dsimp only
      split
      · rename_i hcur
        exact hset.settled_handle hch.each.2.2.1 hcur.1 (.inl hstill)
      · exact hstill

/-! ## Steps -/

/-- A failure of the current task is about to be handled. -/
def Failing (s : ScheduledService V E) (i : Nat) : Prop :=
  s.task = some i ∧ ∃ t exception rest, s.tasks[i]? = some t ∧ t.state ≠ .cancelled ∧
    t.queue = .fail exception :: rest

/-- No `cancel()` comes between the check of `FutureTask.run` and `call()`, and a failure that is
    followed by another iteration is not handled in a cancelled service. -/
def Undisturbed (s : ScheduledService V E) : ScheduledAction V E → Prop
  | .cancel => s.Quiet
  | .start ch | .reset ch | .restart ch | .executeDeferred ch => ch.cancels = true → s.Quiet
  | .execute i ch => (ch.cancels = true → s.Quiet) ∧ (s.Failing i → s.NotCancelled ch)
  | _ => True

variable {r : Runnable V E} {t : Task V E} {action : TaskAction V E} {rest : List (Runnable V E)}

theorem Inv.exec (h : s.Inv calm) (hch : Calm ch calm) (hsett : r ≠ .cancel → s.Settled i)
    (hcancel : r = .cancel → ∀ t, s.tasks[i]? = some t → t.future = .cancelled)
    (hfail : ∀ exception, r = .fail exception → ∀ t, s.tasks[i]? = some t → t.state ≠ .cancelled →
      s.task = some i → s.NotCancelled ch) :
    (s.exec i ch r).Inv calm := by
  cases r with
  | start =>
    have hsett := hsett nofun
    have hsched := @Inv.setState V E s calm h i ch hch .scheduled (fun _ _ hne => by cases hne)
      (.inr rfl) (fun _ _ _ _ hne => by cases hne)
    exact hsched.setState hch (fun _ _ hne => by cases hne)
      (.inl (hsett.setState_scheduled h hch)) (fun _ _ _ _ hne => by cases hne)
  | succeed result =>
    have hval : (s.modifyTask i fun t => { t with value := some result }).Inv calm :=
      h.modifyTask (fun _ _ hok => { hok with }) (fun _ _ _ hp => ⟨hp, id⟩) (fun _ _ _ hs => hs)
    have hsett := (hsett nofun).modifyTask (i := i) (f := fun t => { t with value := some result })
      fun _ _ hp => hp
    exact hval.setState hch (fun _ _ hne => by cases hne) (.inl hsett)
      (fun _ _ _ _ hne => by cases hne)
  | fail exception =>
    have hthrown : (s.modifyTask i (·.setException exception)).Inv calm :=
      h.modifyTask (fun _ _ hok => { hok with }) (fun _ _ _ hp => ⟨hp, id⟩) (fun _ _ _ hs => hs)
    have hsett := (hsett nofun).modifyTask (i := i) (f := (·.setException exception))
      fun _ _ hp => hp
    refine hthrown.setState hch (fun _ _ hne => by cases hne) (.inl hsett) ?_
    intro t ht hne htask _
    obtain ⟨t0, h0, ⟨-, rfl⟩ | ⟨hno, -⟩⟩ := getElem?_modifyTask ht
    · exact hfail exception rfl t0 h0 hne htask
    · exact (hno rfl).elim
  | cancel =>
    refine h.setState hch (fun t ht _ => hcancel rfl t ht) (.inl fun t ht hp => ?_)
      (fun _ _ _ _ hne => by cases hne)
    exact absurd (hp.2.symm.trans (hcancel rfl t ht)) nofun

theorem Inv.offFx (h : s.Inv false) {t' : Task V E} (ht : s.tasks[i]? = some t)
    (hstep : t.step action = some t') (hexecute : action ≠ .execute)
    (hcancel : action ≠ .cancelFx) (hrun : action = .run → i ∈ s.handed) :
    (s.modifyTask i fun _ => t').Inv false := by
  obtain ⟨hstate, hpend, hst⟩ := Task.step_offFx hstep hexecute hcancel
  have hsame : ∀ t1, s.tasks[i]? = some t1 → t1 = t := fun t1 h1 =>
    some.inj (h1.symm.trans ht)
  apply h.modifyTask
  · intro t1 h1 hok
    rw [hsame t1 h1] at hok
    exact hok.step hstep hexecute hcancel
  · intro t1 h1 _ hp
    rw [hsame t1 h1, hstate]
    exact ⟨hpend hp, id⟩
  · rintro (hfalse | hstop) t1 h1 hstarting
    · cases hfalse
    · rw [hsame t1 h1]
      obtain hold | ⟨hisRun, hp⟩ := hst hstarting
      · exact hold
      -- In a stopped service no task that the executor holds is going to begin.
      · have hcur := (h.live i t ht hp (.inl (hrun hisRun))).1
        exact (h.stopped_settled hstop i hcur t ht hp).elim

theorem Inv.workerStep (h : s.Inv false)
    (hstep : s.workerStep i action = some s') : s'.Inv false := by
  rw [ScheduledService.workerStep] at hstep
  split at hstep
  · cases hstep
  · rename_i t ht
    cases action with
    | execute | cancelFx => cases hstep
    | run =>
      dsimp only at hstep
      split at hstep
      · rename_i hhanded
        obtain ⟨t', ht', rfl⟩ := Option.map_eq_some_iff.mp hstep
        exact h.offFx ht ht' (by simp) (by simp) fun _ => hhanded
      · cases hstep
    | postStart =>
      obtain ⟨t', ht', rfl⟩ := Option.map_eq_some_iff.mp hstep
      have hmoved := h.offFx ht ht' (by simp) (by simp) (by simp)
      have hstarting : t.worker = .starting := by
        rw [Task.step] at ht'
        split at ht'
        · assumption
        · cases ht'
      have hgoing : s.stopped = false := by
        by_contra hstop
        exact h.stopped_quiet ((Bool.not_eq_false _).mp hstop) t (mem_of_getElem? ht) hstarting
      refine { hmoved with not_violated := ?_ }
      change (s.violated || s.stopped) = false
      rw [h.not_violated, hgoing]
      rfl
    | callReturns | callThrows | testCancelled | postSucceeded | postFailed | complete
    | cancelOther | postCancelled =>
      obtain ⟨t', ht', rfl⟩ := Option.map_eq_some_iff.mp hstep
      exact h.offFx ht ht' (by simp) (by simp) (by simp)

theorem Inv.resume (h : s.Inv calm) :
    ({ s with stopped := false } : ScheduledService V E).Inv calm :=
  { h with stopped_quiet := nofun, stopped_settled := nofun, stopped_stop := nofun }

theorem live_of_set {k : Nat} {status status' : TimerStatus}
    (hk : s.timers[k]? = some ⟨i, status⟩) (hstatus : status = .waiting ∨ status = .queued) {n : Nat}
    (hn : ({ s with timers := s.timers.set k ⟨i, status'⟩ } : ScheduledService V E).Live n) :
    s.Live n := by
  obtain hhanded | ⟨t, ht, htask, ht'⟩ := hn
  · exact .inl hhanded
  · obtain hold | rfl := mem_or_eq_of_mem_set ht
    · exact .inr ⟨t, hold, htask, ht'⟩
    · exact .inr ⟨_, mem_of_getElem? hk, htask, hstatus⟩

theorem Inv.popQueue (h : s.Inv calm) (ht : s.tasks[i]? = some t) (hq : t.queue = r :: rest) :
    (s.modifyTask i fun t => { t with queue := rest }).Inv calm := by
  apply h.modifyTask
  · intro t1 h1 hok
    obtain rfl := some.inj (h1.symm.trans ht)
    refine ⟨hok.cancelled, fun hwork r' hr' => ?_, fun hposted => ?_, hok.fresh⟩
    · exact hok.queue hwork r' (by rw [hq]; exact mem_cons_of_mem r hr')
    · apply hok.posted
      cases hposted with
      | inl hmem => exact .inl (by rw [hq]; exact mem_cons_of_mem r hmem)
      | inr hcancelling => exact .inr hcancelling
  · exact fun _ _ _ hp => ⟨hp, id⟩
  · exact fun _ _ _ hstarting => hstarting

theorem settled_popQueue
    (ht : s.tasks[i]? = some t) (hq : t.queue = r :: rest) (hok : t.Ok) (hr : r ≠ .cancel) :
    (s.modifyTask i fun t => { t with queue := rest }).Settled i := by
  intro t1 h1 hp
  obtain ⟨t0, h0, ⟨-, rfl⟩ | ⟨hne, -⟩⟩ := getElem?_modifyTask h1
  · obtain rfl := some.inj (h0.symm.trans ht)
    exact hr (hok.queue hp.1 r (by rw [hq]; exact .head _))
  · exact (hne rfl).elim

/-- Every undisturbed step keeps the invariant. -/
theorem step_inv (h : s.Inv false) {a : ScheduledAction V E} (hcond : s.Undisturbed a)
    (hstep : s.step a = some s') : s'.Inv false := by
  cases a with
  | start ch =>
    cases hstep
    have hcalm := (h.calm_of ch.cancels hcond).resume
    have hch : Calm ch ch.cancels := id
    exact (hcalm.start hch.each.2.2.1 (fun _ => rfl) true).forget
  | startOther =>
    rw [step] at hstep
    split at hstep
    · cases hstep
    · cases hstep
      exact h.resume.start id (fun _ => rfl) false
  | cancel =>
    cases hstep
    exact (h.calm_of true fun _ => hcond).cancel.forget
  | reset ch =>
    cases hstep
    have hcalm := (h.calm_of ch.cancels hcond).resume
    have hch : Calm ch ch.cancels := id
    cases hreset : ({ s with stopped := false } : ScheduledService V E).reset ch with
    | none => exact h.resume
    | some s1 => exact (hcalm.reset hch.each.2.1 hreset).1.forget
  | restart ch =>
    cases hstep
    have hcalm := (h.calm_of ch.cancels hcond).resume
    have hch : Calm ch ch.cancels := id
    exact (hcalm.restart rfl hch.each.2.1 hch.each.2.2.1).forget
  | configure restartOnFailure maximumFailureCount =>
    cases hstep
    exact h.of_live rfl rfl rfl rfl rfl fun _ => id
  | executeDeferred ch =>
    rw [step] at hstep
    split at hstep
    · cases hstep
    · cases hstep
      have hcalm := h.calm_of ch.cancels hcond
      have hch : Calm ch ch.cancels := id
      have hpopped : ({ s with deferred := s.deferred - 1 } : ScheduledService V E).Inv ch.cancels :=
        hcalm.of_live rfl rfl rfl rfl rfl fun _ => id
      exact (hpopped.launch hch.each.2.2.1).forget
  | fireTimer k =>
    rw [step] at hstep
    split at hstep
    · rename_i i hk
      cases hstep
      exact h.of_live rfl rfl rfl rfl rfl fun _ => live_of_set hk (.inl rfl)
    · cases hstep
  | executeTimer k =>
    rw [step] at hstep
    split at hstep
    · rename_i i hk
      cases hstep
      refine h.of_live rfl rfl rfl rfl rfl fun n hn => ?_
      obtain hhanded | htimer := hn
      · cases mem_append.mp hhanded with
        | inl hold => exact .inl hold
        | inr hnew =>
          exact .inr ⟨_, mem_of_getElem? hk, (mem_singleton.mp hnew).symm, .inr rfl⟩
      · exact live_of_set hk (.inr rfl) (.inr htimer)
    · cases hstep
  | execute i ch =>
    rw [step] at hstep
    split at hstep
    · cases hstep
    · rename_i t ht
      split at hstep
      · cases hstep
      · rename_i r rest hq
        cases hstep
        have hok := h.ok t (mem_of_getElem? ht)
        have hcalm := h.calm_of ch.cancels hcond.1
        have hpopped := hcalm.popQueue ht hq
        have hch : Calm ch ch.cancels := id
        refine (hpopped.exec hch (fun hr => ?_) (fun hr t1 h1 => ?_) ?_).forget
        · exact settled_popQueue ht hq hok hr
        · obtain ⟨t0, h0, ⟨-, rfl⟩ | ⟨hne, -⟩⟩ := getElem?_modifyTask h1
          · obtain rfl := some.inj (h0.symm.trans ht)
            exact hok.posted (.inl (by rw [hq, hr]; exact .head _))
          · exact (hne rfl).elim
        · rintro exception rfl t1 h1 hne htask
          obtain ⟨t0, h0, ⟨-, rfl⟩ | ⟨hne', -⟩⟩ := getElem?_modifyTask h1
          · exact hcond.2 ⟨htask, t, exception, rest, ht,
              (some.inj (h0.symm.trans ht)) ▸ hne, hq⟩
          · exact (hne' rfl).elim
  | worker i action => exact h.workerStep hstep

/-! ## Runs -/

/-- Nothing begins between a `cancel()` and the next start. -/
theorem not_violated_of_run {actions : List (ScheduledAction V E)} {s : ScheduledService V E}
    (hall : AllSteps Undisturbed step new actions) (hrun : runActions step new actions = some s) :
    s.violated = false := by
  have hinv : s.Inv false := runActions_invariant_of
    (fun _ _ _ hs hcond hstep => step_inv hs hcond hstep) inv_new hall hrun
  exact hinv.not_violated

/-- No handler cancels, no iteration waits. -/
def noCancels : Choices := ⟨false, false, false, false, false⟩

/-- A task that is cancelled before the executor runs it. -/
def cancelledEarly : List (ScheduledAction Nat Nat) := [.start noCancels, .cancel, .worker 0 .run]

theorem undisturbed_cancelledEarly : AllSteps Undisturbed step new cancelledEarly := by
  refine ⟨nofun, fun s1 h1 => ?_⟩
  cases h1
  refine ⟨?_, fun s2 h2 => ⟨trivial, fun _ _ => trivial⟩⟩
  intro t ht
  obtain rfl := mem_singleton.mp ht
  exact nofun

theorem not_violated_cancelledEarly :
    ∃ s, runActions step new cancelledEarly = some s ∧ s.stopped = true ∧ s.handed = [0] ∧
      s.violated = false :=
  ⟨_, rfl, rfl, rfl, not_violated_of_run undisturbed_cancelledEarly rfl⟩

/-- The handler of the FAILED event cancels. -/
def cancelledOnFailure : List (ScheduledAction Nat Nat) :=
  [.start noCancels, .worker 0 .run, .worker 0 .postStart, .worker 0 (.callThrows 7),
    .worker 0 .postFailed, .worker 0 .complete, .execute 0 noCancels,
    .execute 0 { noCancels with eventCancels := true }]

/-- The service is cancelled when the worker has just passed its check. -/
def cancelledLate : List (ScheduledAction Nat Nat) :=
  [.start noCancels, .worker 0 .run, .cancel, .worker 0 .postStart]

theorem violated_cancelledOnFailure :
    (∃ s, runActions step new cancelledOnFailure = some s ∧ s.tasks.length = 2 ∧
      s.violated = true) ∧
    ∃ s, runActions step new cancelledLate = some s ∧ s.violated = true :=
  ⟨⟨_, rfl, rfl, rfl⟩, ⟨_, rfl, rfl⟩⟩

end OpenJfx.Concurrent.ScheduledService
