/-
  OpenJfx.Concurrent.ScheduledService.Invariant

  The invariant of a scheduled service: a task whose `call()` may still begin,
  and that the executor or a timer holds, is the current one; in a stopped
  service there is none.
-/

import OpenJfx.Concurrent.ScheduledService.Basic
import OpenJfx.Concurrent.Task.States

namespace OpenJfx.Concurrent

open List

variable {V E : Type}

/-! ## Tasks -/

variable {t : Task V E}

namespace Task

/-- The task may still begin its `call()`. -/
def Pending (t : Task V E) : Prop := t.worker = .waiting ∧ t.future = .new

/-- A task whose cancellation, queue and worker agree. -/
structure Ok (t : Task V E) : Prop where
  cancelled : t.state = .cancelled → t.future = .cancelled
  /-- A worker that has not begun has posted nothing. -/
  queue : t.worker = .waiting → ∀ r ∈ t.queue, r = .cancel
  posted : .cancel ∈ t.queue ∨ t.cancelling = true → t.future = .cancelled
  fresh : t.Pending → t.state = .ready ∨ t.state = .scheduled

theorem ok_new : (new : Task V E).Ok where
  cancelled := nofun
  queue _ := nofun
  posted h := by
    cases h with
    | inl h | inr h => cases h
  fresh _ := .inl rfl

theorem setState_state (t : Task V E) (value : State) :
    (t.setState value).state = if t.state = .cancelled then .cancelled else value := by
  rw [setState]
  split
  · assumption
  · rfl

theorem setState_pending_iff (t : Task V E) (value : State) :
    (t.setState value).Pending ↔ t.Pending := by
  obtain ⟨hfut, hwork, -⟩ := t.setState_frame value
  rw [Pending, Pending, hfut, hwork]

theorem Ok.setState {t : Task V E} (h : t.Ok) {value : State}
    (hcanc : value = .cancelled → t.future = .cancelled)
    (hfresh : t.Pending → value = .ready ∨ value = .scheduled) : (t.setState value).Ok := by
  obtain ⟨hfut, hwork, hcancelling⟩ := t.setState_frame value
  refine ⟨fun hstate => ?_, ?_, ?_, fun hpend => ?_⟩
  · rw [setState_state] at hstate
    rw [hfut]
    split at hstate
    · rename_i hold
      exact h.cancelled hold
    · exact hcanc hstate
  · rw [hwork, setState_queue]
    exact h.queue
  · rw [setState_queue, hcancelling, hfut]
    exact h.posted
  · rw [setState_pending_iff] at hpend
    rw [setState_state]
    split
    · rename_i hstate
      exact absurd (hpend.2.symm.trans (h.cancelled hstate)) nofun
    · exact hfresh hpend

/-- `cancel()` on the FX thread. -/
def cancelledFx (t : Task V E) : Task V E := (t.step .cancelFx).getD t

theorem cancelledFx_eq (t : Task V E) :
    t.cancelledFx = if t.future = .new then { t with future := .cancelled }.setState .cancelled
      else t := by
  rw [cancelledFx, step]
  split <;> rfl

theorem not_pending_cancelledFx (t : Task V E) : ¬ t.cancelledFx.Pending := by
  rw [cancelledFx_eq]
  split
  · rw [setState_pending_iff]
    exact fun hpend => absurd hpend.2 nofun
  · rename_i hne
    exact fun hpend => hne hpend.2

theorem cancelledFx_worker (t : Task V E) : t.cancelledFx.worker = t.worker := by
  rw [cancelledFx_eq]
  split
  · exact (setState_frame _ _).2.1
  · rfl

theorem Ok.cancelledFx (h : t.Ok) : t.cancelledFx.Ok := by
  rw [cancelledFx_eq]
  split
  · have hok : ({ t with future := .cancelled } : Task V E).Ok :=
      ⟨fun _ => rfl, h.queue, fun _ => rfl, fun hpend => absurd hpend.2 nofun⟩
    exact hok.setState (fun _ => rfl) fun hpend => absurd hpend.2 nofun
  · exact h

theorem Ok.of_begun (hcanc : t.state = .cancelled → t.future = .cancelled)
    (hposted : .cancel ∈ t.queue ∨ t.cancelling = true → t.future = .cancelled)
    (hwork : t.worker ≠ .waiting) : t.Ok :=
  ⟨hcanc, fun h => (hwork h).elim, hposted, fun h => (hwork h.1).elim⟩

theorem Ok.post (h : t.Ok) {r : Runnable V E} (hr : r ≠ .cancel)
    {worker : WorkerStage V E} (hwork : worker ≠ .waiting) :
    ({ t.post r with worker := worker } : Task V E).Ok := by
  refine .of_begun h.cancelled (fun hmem => h.posted ?_) hwork
  cases hmem with
  | inr hcancelling => exact .inr hcancelling
  | inl hq =>
    cases mem_append.mp hq with
    | inl hold => exact .inl hold
    | inr hnew => exact (hr (mem_singleton.mp hnew).symm).elim

/-- Every step of a task keeps it. -/
theorem Ok.step {t t' : Task V E} (h : t.Ok) {a : TaskAction V E} (hstep : t.step a = some t')
    (hexecute : a ≠ .execute) (hcancel : a ≠ .cancelFx) : t'.Ok := by
  cases a with
  | execute => exact (hexecute rfl).elim
  | cancelFx => exact (hcancel rfl).elim
  | run =>
    rw [Task.step] at hstep
    split at hstep
    · cases hstep
      refine .of_begun h.cancelled h.posted ?_
      dsimp only
      split <;> simp
    · cases hstep
  | postStart =>
    rw [Task.step] at hstep
    split at hstep
    · cases hstep
      apply h.post
      · simp
      · simp
    · cases hstep
  | callReturns result | callThrows exception =>
    rw [Task.step] at hstep
    split at hstep
    · cases hstep
      exact .of_begun h.cancelled h.posted (by simp)
    · cases hstep
  | testCancelled =>
    rw [Task.step] at hstep
    split at hstep
    · cases hstep
      refine .of_begun h.cancelled h.posted ?_
      dsimp only
      split <;> simp
    · cases hstep
  | postSucceeded | postFailed =>
    rw [Task.step] at hstep
    split at hstep
    · cases hstep
      apply h.post
      · simp
      · simp
    · cases hstep
  | complete =>
    rw [Task.step] at hstep
    split at hstep
    · cases hstep
      refine .of_begun (fun hstate => ?_) (fun hposted => ?_) (by simp)
      · have hfut := h.cancelled hstate
        simp [hfut]
      · have hfut := h.posted hposted
        simp [hfut]
    · cases hstep
  | cancelOther =>
    rw [Task.step] at hstep
    split at hstep
    · cases hstep
      exact ⟨fun _ => rfl, h.queue, fun _ => rfl, fun hpend => absurd hpend.2 (by simp)⟩
    · cases hstep
      exact h
  | postCancelled =>
    rw [Task.step] at hstep
    split at hstep
    · rename_i hcancelling
      cases hstep
      have hfut := h.posted (.inr hcancelling)
      refine ⟨h.cancelled, fun hwork r hr => ?_, fun _ => hfut, fun hpend =>
        absurd (hpend.2.symm.trans hfut) (by simp)⟩
      cases mem_append.mp hr with
      | inl hold => exact h.queue hwork r hold
      | inr hnew => exact mem_singleton.mp hnew
    · cases hstep

/-- Off the FX thread `FutureTask.run` is passed by `run` only. -/
theorem step_offFx {t' : Task V E} {a : TaskAction V E} (hstep : t.step a = some t')
    (hexecute : a ≠ .execute) (hcancel : a ≠ .cancelFx) :
    t'.state = t.state ∧ (t'.Pending → t.Pending) ∧
      (t'.worker = .starting → t.worker = .starting ∨ (a = .run ∧ t.Pending)) := by
  cases a with
  | execute => exact (hexecute rfl).elim
  | cancelFx => exact (hcancel rfl).elim
  | run =>
    rw [Task.step] at hstep
    split at hstep
    · rename_i hwork
      cases hstep
      refine ⟨rfl, fun hpend => ?_, fun hstarting => ?_⟩
      · have hnever := hpend.1
        dsimp only at hnever
        split at hnever <;> cases hnever
      · dsimp only at hstarting
        split at hstarting
        · rename_i hfut
          exact .inr ⟨rfl, hwork, hfut⟩
        · cases hstarting
    · cases hstep
  | testCancelled =>
    rw [Task.step] at hstep
    split at hstep
    · cases hstep
      refine ⟨rfl, fun hpend => ?_, fun hstarting => ?_⟩
      · have hnever := hpend.1
        dsimp only at hnever
        split at hnever <;> cases hnever
      · dsimp only at hstarting
        split at hstarting <;> cases hstarting
    · cases hstep
  | cancelOther =>
    rw [Task.step] at hstep
    split at hstep
    · cases hstep
      exact ⟨rfl, fun hpend => absurd hpend.2 (by simp), .inl⟩
    · cases hstep
      exact ⟨rfl, id, .inl⟩
  | postCancelled =>
    rw [Task.step] at hstep
    split at hstep
    · cases hstep
      exact ⟨rfl, id, .inl⟩
    · cases hstep
  | postStart | callReturns | callThrows | postSucceeded | postFailed | complete =>
    rw [Task.step] at hstep
    split at hstep
    · cases hstep
      exact ⟨rfl, fun hpend => absurd hpend.1 (by simp), by simp⟩
    · cases hstep

end Task

namespace ScheduledService

/-! ## Invariants -/

/-- The executor or a timer holds the task. -/
def Live (s : ScheduledService V E) (i : Nat) : Prop :=
  i ∈ s.handed ∨ ∃ t ∈ s.timers, t.task = i ∧ (t.status = .waiting ∨ t.status = .queued)

/-- No worker is between the check of `FutureTask.run` and `call()`. -/
def Quiet (s : ScheduledService V E) : Prop := ∀ t ∈ s.tasks, t.worker ≠ .starting

/-- A task is not going to begin its `call()`. -/
def Settled (s : ScheduledService V E) (i : Nat) : Prop :=
  ∀ t, s.tasks[i]? = some t → ¬ t.Pending

/-- With `calm`, there may be calls of `cancel()`. -/
structure Inv (calm : Bool) (s : ScheduledService V E) : Prop where
  ok : ∀ t ∈ s.tasks, t.Ok
  task_lt : ∀ i, s.task = some i → i < s.tasks.length
  live_lt : ∀ i, s.Live i → i < s.tasks.length
  live : ∀ i t, s.tasks[i]? = some t → t.Pending → s.Live i → s.task = some i ∧ t.state = .scheduled
  quiet : calm = true → s.Quiet
  stopped_quiet : s.stopped = true → s.Quiet
  stopped_settled : s.stopped = true → ∀ i, s.task = some i → s.Settled i
  stopped_stop : s.stopped = true → s.stop = true ∨ s.task = none
  not_violated : s.violated = false

variable {s s' : ScheduledService V E} {calm : Bool}

theorem inv_new : (new : ScheduledService V E).Inv false where
  ok := forall_mem_nil _
  task_lt _ h := by cases h
  live_lt i h := by
    obtain h | ⟨t, ht, -⟩ := h
    · cases h
    · cases ht
  live _ _ h := by cases h
  quiet := nofun
  stopped_quiet := nofun
  stopped_settled := nofun
  stopped_stop := nofun
  not_violated := rfl

theorem Inv.calm_of (h : s.Inv false) (calm : Bool) (hquiet : calm = true → s.Quiet) : s.Inv calm :=
  { h with quiet := hquiet }

theorem Inv.forget (h : s.Inv calm) : s.Inv false := { h with quiet := nofun }

section

variable (h : s.Inv calm) (htasks : s'.tasks = s.tasks) (htask : s'.task = s.task)
  (hstopped : s'.stopped = s.stopped) (hstop : s'.stop = s.stop)
  (hviolated : s'.violated = s.violated)
include h htasks htask hstopped hstop hviolated

theorem Inv.of_tasks (hlive : ∀ i, s'.Live i → s.Live i ∨
      s.task = some i ∧ ∀ t, s.tasks[i]? = some t → t.Pending → t.state = .scheduled) :
    s'.Inv calm where
  ok := htasks ▸ h.ok
  task_lt := by rw [htasks, htask]; exact h.task_lt
  live_lt i hi := by
    rw [htasks]
    obtain hold | ⟨hcur, -⟩ := hlive i hi
    · exact h.live_lt i hold
    · exact h.task_lt i hcur
  live i t := by
    rw [htasks, htask]
    intro ht hp hi
    obtain hold | ⟨hcur, hsched⟩ := hlive i hi
    · exact h.live i t ht hp hold
    · exact ⟨hcur, hsched t ht hp⟩
  quiet := by rw [Quiet, htasks]; exact h.quiet
  stopped_quiet := by rw [Quiet, htasks, hstopped]; exact h.stopped_quiet
  stopped_settled := by
    rw [hstopped, htask]
    intro hs i hi t ht
    exact h.stopped_settled hs i hi t (htasks ▸ ht)
  stopped_stop := by rw [hstopped, htask, hstop]; exact h.stopped_stop
  not_violated := hviolated.trans h.not_violated

theorem Inv.of_live (hlive : ∀ i, s'.Live i → s.Live i) : s'.Inv calm :=
  h.of_tasks htasks htask hstopped hstop hviolated fun i hi => .inl (hlive i hi)

end

section Modify

variable {i : Nat} {f : Task V E → Task V E}

theorem getElem?_modifyTask {k : Nat} (ht : (s.modifyTask i f).tasks[k]? = some t) :
    ∃ t0, s.tasks[k]? = some t0 ∧ (k = i ∧ t = f t0 ∨ k ≠ i ∧ t = t0) := by
  rw [modifyTask, getElem?_modify] at ht
  obtain ⟨t0, h0, hsame⟩ := Option.map_eq_some_iff.mp ht
  refine ⟨t0, h0, ?_⟩
  split at hsame
  · rename_i hik
    exact .inl ⟨hik.symm, hsame.symm⟩
  · rename_i hik
    exact .inr ⟨fun h => hik h.symm, hsame.symm⟩

theorem mem_modifyTask (ht : t ∈ (s.modifyTask i f).tasks) :
    t ∈ s.tasks ∨ ∃ t0, s.tasks[i]? = some t0 ∧ t = f t0 := by
  obtain ⟨k, hk⟩ := mem_iff_getElem?.mp ht
  obtain ⟨t0, h0, ⟨rfl, rfl⟩ | ⟨-, rfl⟩⟩ := getElem?_modifyTask hk
  · exact .inr ⟨t0, h0, rfl⟩
  · exact .inl (mem_of_getElem? h0)

theorem Quiet.modifyTask (h : s.Quiet)
    (hst : ∀ t, s.tasks[i]? = some t → (f t).worker = .starting → t.worker = .starting) :
    (s.modifyTask i f).Quiet := by
  intro t ht
  obtain hold | ⟨t0, h0, rfl⟩ := mem_modifyTask ht
  · exact h t hold
  · exact fun hstarting => h t0 (mem_of_getElem? h0) (hst t0 h0 hstarting)

theorem Settled.modifyTask {k : Nat} (h : s.Settled k)
    (hpend : ∀ t, s.tasks[i]? = some t → (f t).Pending → t.Pending) :
    (s.modifyTask i f).Settled k := by
  intro t ht
  obtain ⟨t0, h0, ⟨rfl, rfl⟩ | ⟨-, rfl⟩⟩ := getElem?_modifyTask ht
  · exact fun hp => h t0 h0 (hpend t0 h0 hp)
  · exact h t h0

/-- A change to a task that does not bring it nearer to its `call()`. -/
theorem Inv.modifyTask (h : s.Inv calm) (hok : ∀ t, s.tasks[i]? = some t → t.Ok → (f t).Ok)
    (hpend : ∀ t, s.tasks[i]? = some t → t.Ok → (f t).Pending →
      t.Pending ∧ (t.state = .scheduled → (f t).state = .scheduled))
    (hst : calm = true ∨ s.stopped = true → ∀ t, s.tasks[i]? = some t →
      (f t).worker = .starting → t.worker = .starting) :
    (s.modifyTask i f).Inv calm where
  ok t ht := by
    obtain hold | ⟨t0, h0, rfl⟩ := mem_modifyTask ht
    · exact h.ok t hold
    · exact hok t0 h0 (h.ok t0 (mem_of_getElem? h0))
  task_lt k hk := by
    rw [ScheduledService.modifyTask, length_modify]
    exact h.task_lt k hk
  live_lt k hk := by
    rw [ScheduledService.modifyTask, length_modify]
    exact h.live_lt k hk
  live k t ht hp hk := by
    obtain ⟨t0, h0, ⟨rfl, rfl⟩ | ⟨-, rfl⟩⟩ := getElem?_modifyTask ht
    · obtain ⟨hp0, hstate⟩ := hpend t0 h0 (h.ok t0 (mem_of_getElem? h0)) hp
      obtain ⟨htask, hsched⟩ := h.live k t0 h0 hp0 hk
      exact ⟨htask, hstate hsched⟩
    · exact h.live k t h0 hp hk
  quiet hcalm := (h.quiet hcalm).modifyTask (hst (.inl hcalm))
  stopped_quiet hs := (h.stopped_quiet hs).modifyTask (hst (.inr hs))
  stopped_settled hs k hk := (h.stopped_settled hs k hk).modifyTask fun t ht hp =>
    (hpend t ht (h.ok t (mem_of_getElem? ht)) hp).1
  stopped_stop := h.stopped_stop
  not_violated := h.not_violated

end Modify

end ScheduledService

end OpenJfx.Concurrent
