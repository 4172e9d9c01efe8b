/-
  OpenJfx.Concurrent.ScheduledService.Calls

  The calls of a scheduled service keep its invariant.  `start` does so in a
  service that is not stopped, and `cancel()` in a calm moment, when no worker is
  between the check of `FutureTask.run` and `call()`.
-/

import OpenJfx.Concurrent.ScheduledService.Invariant

namespace OpenJfx.Concurrent.ScheduledService

open List Option

variable {ch : Choices} {V E : Type} {s s' : ScheduledService V E} {calm : Bool}

/-! ## cancel -/

theorem Inv.cancelTask (h : s.Inv calm) (i : Nat) : (s.modifyTask i Task.cancelledFx).Inv calm :=
  h.modifyTask (fun _ _ hok => hok.cancelledFx)
    (fun t _ _ hp => (t.not_pending_cancelledFx hp).elim)
    (fun _ t _ hstarting => (t.cancelledFx_worker).symm.trans hstarting)

theorem settled_cancelTask (i : Nat) : (s.modifyTask i Task.cancelledFx).Settled i := by
  intro t ht
  obtain ⟨t0, -, ⟨-, rfl⟩ | ⟨hne, -⟩⟩ := getElem?_modifyTask ht
  · exact t0.not_pending_cancelledFx
  · exact (hne rfl).elim

theorem Inv.superCancel (h : s.Inv calm) : s.superCancel.Inv calm ∧ s.superCancel.task = s.task ∧
      ∀ i, s.task = some i → s.superCancel.Settled i := by
  rw [ScheduledService.superCancel]
  obtain htask | ⟨i, htask⟩ := eq_none_or_eq_some s.task
  · rw [htask]
    dsimp only
    refine ⟨?_, ?_, nofun⟩
    · split
      · exact h
      · exact h.of_live rfl htask.symm rfl rfl rfl fun _ => id
    · split
      · exact htask
      · rfl
  · rw [htask]
    refine ⟨h.cancelTask i, htask, fun k hk => ?_⟩
    cases hk
    exact settled_cancelTask i

variable {i : Nat}

theorem live_dropDelayTask (h : s.dropDelayTask.Live i) : s.Live i := by
  rw [dropDelayTask] at h
  split at h
  · exact h
  · obtain hhanded | ⟨t, ht, htask, hstatus⟩ := h
    · exact .inl hhanded
    · obtain ⟨k, hk⟩ := mem_iff_getElem?.mp ht
      rw [getElem?_modify] at hk
      obtain ⟨t0, h0, hsame⟩ := map_eq_some_iff.mp hk
      refine .inr ⟨t0, mem_of_getElem? h0, ?_⟩
      split at hsame
      · subst hsame
        rw [DelayTimer.cancel] at htask hstatus
        split at htask
        · rename_i hwaiting
          exact ⟨htask, .inl hwaiting⟩
        · rename_i hwaiting
          rw [if_neg hwaiting] at hstatus
          exact ⟨htask, hstatus⟩
      · subst hsame
        exact ⟨htask, hstatus⟩

theorem dropDelayTask_frame : s.dropDelayTask.tasks = s.tasks ∧ s.dropDelayTask.task = s.task ∧
    s.dropDelayTask.stopped = s.stopped ∧ s.dropDelayTask.stop = s.stop ∧
    s.dropDelayTask.violated = s.violated ∧ s.dropDelayTask.ownState = s.ownState := by
  rw [dropDelayTask]
  split <;> exact ⟨rfl, rfl, rfl, rfl, rfl, rfl⟩

theorem Inv.dropDelayTask (h : s.Inv calm) : s.dropDelayTask.Inv calm := by
  obtain ⟨h1, h2, h3, h4, h5, -⟩ := @dropDelayTask_frame V E s
  exact h.of_live h1 h2 h3 h4 h5 fun _ => live_dropDelayTask

theorem Inv.cancel (h : s.Inv true) : s.cancel.Inv true := by
  obtain ⟨hinv, htask, hsett⟩ := h.superCancel
  apply Inv.dropDelayTask
  exact
    { hinv with
      stopped_quiet := fun _ => hinv.quiet rfl
      stopped_settled := fun _ i hi => hsett i (htask.symm.trans hi)
      stopped_stop := fun _ => .inl rfl }

theorem cancel_task : s.cancel.task = s.task := by
  have hdrop := (@dropDelayTask_frame V E { s.superCancel with stop := true, stopped := true }).2.1
  refine hdrop.trans ?_
  change s.superCancel.task = s.task
  rw [superCancel]
  obtain htask | ⟨i, htask⟩ := eq_none_or_eq_some s.task
  · rw [htask]
    dsimp only
    split
    · exact htask
    · rfl
  · rw [htask]
    exact htask

theorem cancel_stopped : s.cancel.stopped = true :=
  (@dropDelayTask_frame V E { s.superCancel with stop := true, stopped := true }).2.2.1

section

variable (h : s.Inv calm)
include h

theorem Inv.handle {cancels : Bool} (hcalm : cancels = true → calm = true) :
    (s.handle cancels).Inv calm := by
  cases cancels with
  | false => exact h
  | true =>
    obtain rfl := hcalm rfl
    exact h.cancel

omit h in
theorem handle_task (cancels : Bool) : (s.handle cancels).task = s.task := by
  cases cancels with
  | false => rfl
  | true => exact cancel_task

theorem Inv.settled_handle {cancels : Bool}
    (hcalm : cancels = true → calm = true) (hi : s.task = some i)
    (hsett : s.Settled i ∨ cancels = true) :
    (s.handle cancels).Settled i := by
  cases cancels with
  | false => exact hsett.resolve_right nofun
  | true =>
    obtain rfl := hcalm rfl
    exact h.cancel.stopped_settled cancel_stopped i (cancel_task.trans hi)

/-! ## start -/

theorem Inv.executeTask (hi : s.task = some i)
    (hsched : ∀ t, s.tasks[i]? = some t → t.Pending → t.state = .scheduled) (waits : Bool) :
    (s.executeTask i waits).Inv calm := by
  cases waits with
  | false =>
    refine h.of_tasks rfl rfl rfl rfl rfl fun k hk => ?_
    obtain hhanded | htimer := hk
    · cases mem_append.mp hhanded with
      | inl hold => exact .inl (.inl hold)
      | inr hnew =>
        obtain rfl := mem_singleton.mp hnew
        exact .inr ⟨hi, hsched⟩
    · exact .inl (.inr htimer)
  | true =>
    refine h.of_tasks rfl rfl rfl rfl rfl fun k hk => ?_
    obtain hhanded | ⟨t, ht, htask, hstatus⟩ := hk
    · exact .inl (.inl hhanded)
    · cases mem_append.mp ht with
      | inl hold => exact .inl (.inr ⟨t, hold, htask, hstatus⟩)
      | inr hnew =>
        rw [mem_singleton.mp hnew] at htask
        subst htask
        exact .inr ⟨hi, hsched⟩

theorem Inv.setTaskState {i : Nat} {value : State}
    (hcanc : ∀ t, s.tasks[i]? = some t → value = .cancelled → t.future = .cancelled)
    (hfresh : s.Settled i ∨ value = .scheduled) :
    (s.modifyTask i (·.setState value)).Inv calm := by
  apply h.modifyTask
  · intro t ht hok
    refine hok.setState (hcanc t ht) fun hp => ?_
    exact .inr (hfresh.resolve_left fun hsett => hsett t ht hp)
  · intro t ht hok hp
    rw [Task.setState_pending_iff] at hp
    obtain hsett | rfl := hfresh
    · exact (hsett t ht hp).elim
    · refine ⟨hp, fun hsched => ?_⟩
      rw [Task.setState_state, if_neg (by rw [hsched]; nofun)]
  · intro _ t _ hstarting
    exact (Task.setState_frame t value).2.1.symm.trans hstarting

theorem Inv.launch (hcalm : ch.scheduledCancels = true → calm = true) : (s.launch ch).Inv calm := by
  rw [ScheduledService.launch]
  obtain htask | ⟨i, htask⟩ := eq_none_or_eq_some s.task
  · rw [htask]
    exact h
  · rw [htask]
    dsimp only
    have hset := @Inv.setTaskState V E s calm h i .scheduled (fun _ _ hne => by cases hne) (.inr rfl)
    have hstate : ∀ t, (s.modifyTask i (·.setState .scheduled)).tasks[i]? = some t → t.Pending →
        t.state = .scheduled := by
      intro t ht hp
      obtain ⟨t0, h0, ⟨-, rfl⟩ | ⟨hne, -⟩⟩ := getElem?_modifyTask ht
      · rw [Task.setState_pending_iff] at hp
        have hok := h.ok t0 (mem_of_getElem? h0)
        rw [Task.setState_state, if_neg]
        exact fun hcanc => absurd (hp.2.symm.trans (hok.cancelled hcanc)) nofun
      · exact (hne rfl).elim
    split
    · apply (hset.handle hcalm).executeTask ((handle_task _).trans htask)
      intro t ht hp
      cases hcancels : ch.scheduledCancels with
      | false =>
        rw [hcancels] at ht
        exact hstate t ht hp
      | true =>
        have hsett := hset.settled_handle hcalm htask (.inr hcancels)
        exact (hsett t ht hp).elim
    · exact hset.executeTask htask hstate ch.waits

omit h in
theorem mem_createTask {t : Task V E} (ht : t ∈ s.createTask.tasks) : t ∈ s.tasks ∨ t = .new := by
  cases mem_append.mp ht with
  | inl hold => exact .inl hold
  | inr hnew => exact .inr (mem_singleton.mp hnew)

theorem Inv.createTask
    (hidle : ∀ i t, s.tasks[i]? = some t → t.Pending → ¬ s.Live i) (hstop : s.stopped = false) : s.createTask.Inv calm := by
  have hlen : s.createTask.tasks.length = s.tasks.length + 1 := length_append
  have hquiet : s.Quiet → s.createTask.Quiet := by
    intro hquiet t ht
    obtain hold | rfl := mem_createTask ht
    · exact hquiet t hold
    · exact nofun
  have hnone : ∀ {P : Prop}, s.createTask.stopped = true → P := by
    intro P hs
    exact absurd (hstop.symm.trans hs) nofun
  refine ⟨?_, ?_, ?_, ?_, fun hcalm => hquiet (h.quiet hcalm), hnone, hnone, hnone, ?_⟩
  · intro t ht
    obtain hold | rfl := mem_createTask ht
    · exact h.ok t hold
    · exact Task.ok_new
  · intro i hi
    cases hi
    rw [hlen]
    exact Nat.lt_succ_self _
  · intro i hi
    rw [hlen]
    exact Nat.lt_succ_of_lt (h.live_lt i hi)
  · intro i t ht hp hi
    have hlt := h.live_lt i hi
    have hold : s.tasks[i]? = some t := (getElem?_append_left hlt).symm.trans ht
    exact (hidle i t hold hp hi).elim
  · change (s.violated || s.stopped) = false
    rw [h.not_violated, hstop]
    rfl

/-- Unless the service is scheduled, no task is going to begin. -/
theorem Inv.idle (hstate : s.getState ≠ .scheduled) (i : Nat) (t : Task V E)
    (ht : s.tasks[i]? = some t) (hp : t.Pending) : ¬ s.Live i := by
  intro hi
  obtain ⟨htask, hsched⟩ := h.live i t ht hp hi
  apply hstate
  rw [getState, htask]
  dsimp only
  rw [ht, map_some, hsched]
  rfl

theorem Inv.start (hcalm : ch.scheduledCancels = true → calm = true)
    (hstop : s.getState = .ready → s.stopped = false) (fx : Bool) : (s.start fx ch).Inv calm := by
  rw [ScheduledService.start]
  split
  · exact h
  · rename_i hready
    have hready := not_not.mp hready
    have hcreated := h.createTask (h.idle (by rw [hready]; nofun)) (hstop hready)
    split
    · exact hcreated.launch hcalm
    · exact hcreated.of_live rfl rfl rfl rfl rfl fun _ => id

/-! ## reset -/

theorem Inv.dropped (hidle : ∀ i t, s.tasks[i]? = some t → t.Pending → ¬ s.Live i)
    (state : State) : ({ s with task := none, ownState := state } : ScheduledService V E).Inv calm where
  ok := h.ok
  task_lt := nofun
  live_lt := h.live_lt
  live i t ht hp hi := (hidle i t ht hp hi).elim
  quiet := h.quiet
  stopped_quiet := h.stopped_quiet
  stopped_settled _ := nofun
  stopped_stop _ := .inr rfl
  not_violated := h.not_violated

omit h in
theorem getState_of_none (h : s.task = none) : s.getState = s.ownState := by
  rw [getState, h]

omit h in
theorem getState_cancel (htask : s.task = none) (hstate : s.ownState = .ready) :
    s.cancel.getState = .cancelled := by
  rw [getState_of_none (cancel_task.trans htask)]
  have hdrop := (@dropDelayTask_frame V E { s.superCancel with stop := true, stopped := true }).2.2.2.2.2
  refine hdrop.trans ?_
  change s.superCancel.ownState = .cancelled
  rw [superCancel, htask]
  dsimp only
  rw [if_neg (by rw [hstate]; nofun)]

theorem Inv.superReset (hcalm : ch.readyCancels = true → calm = true)
    (hreset : s.superReset ch = some s') :
    s'.Inv calm ∧ s'.task = none ∧ (s'.getState = .ready → s'.stopped = s.stopped) := by
  rw [ScheduledService.superReset] at hreset
  split at hreset
  · cases hreset
  · rename_i hbusy
    have hdropped := h.dropped (h.idle fun hsched => hbusy (.inl hsched)) .ready
    cases hreset
    split
    · refine ⟨hdropped.handle hcalm, handle_task _, fun hready => ?_⟩
      cases hcancels : ch.readyCancels with
      | false => rfl
      | true =>
        rw [hcancels] at hready
        exact absurd ((getState_cancel rfl rfl).symm.trans hready) nofun
    · exact ⟨hdropped, rfl, fun _ => rfl⟩

theorem Inv.reset (hcalm : ch.readyCancels = true → calm = true) (hreset : s.reset ch = some s') :
    s'.Inv calm ∧ (s'.getState = .ready → s'.stopped = s.stopped) := by
  obtain ⟨s1, h1, rfl⟩ := map_eq_some_iff.mp hreset
  obtain ⟨hinv, htask, hstop⟩ := h.superReset hcalm h1
  refine ⟨{ hinv with stopped_stop := fun _ => .inr htask }, fun hready => ?_⟩
  apply hstop
  rw [getState_of_none htask]
  exact (getState_of_none htask).symm.trans hready

theorem Inv.dropTask : s.dropTask.Inv calm := by
  rw [ScheduledService.dropTask]
  obtain htask | ⟨i, htask⟩ := eq_none_or_eq_some s.task
  · rw [htask]
    exact h
  · rw [htask]
    dsimp only
    have hcanc := h.cancelTask i
    apply hcanc.dropped
    intro k t ht hp hk
    obtain rfl : i = k := some.inj (htask.symm.trans (hcanc.live k t ht hp hk).1)
    exact settled_cancelTask i t ht hp

omit h in
theorem dropTask_stopped : s.dropTask.stopped = s.stopped := by
  rw [dropTask]
  cases s.task <;> rfl

theorem Inv.restart (hstop : s.stopped = false) (hready : ch.readyCancels = true → calm = true)
    (hsched : ch.scheduledCancels = true → calm = true) : (s.restart ch).Inv calm := by
  rw [ScheduledService.restart]
  cases hreset : s.dropTask.reset ch with
  | none => exact h.dropTask
  | some s1 =>
    obtain ⟨hinv, hsame⟩ := h.dropTask.reset hready hreset
    refine hinv.start hsched (fun hstate => ?_) true
    rw [hsame hstate, dropTask_stopped, hstop]

end

end OpenJfx.Concurrent.ScheduledService
