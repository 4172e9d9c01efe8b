/-
  OpenJfx.Animation.ParallelTransition.Timing

  Forward play of a `ParallelTransition` at rate 1; `t` is the time of the last call, -1 before
  the first.
-/

import OpenJfx.Animation.ParallelTransition.Basic

namespace OpenJfx.Animation.ParallelTransition

open TickCalculation List Stage

/-! ## What the children should be told -/

/-- The local time a child was last moved to, by a jump or a pulse. -/
def lastTime (history : List ChildEvent) : Option Int :=
  (history.filterMap fun
    | .jumped ticks => some ticks
    | .pulsed ticks => some ticks
    | _ => none).getLast?

/-- Every child is where time `t` puts it. -/
def DrivesChildren (p : ParallelTransition) (t : Int) : Prop :=
  ∀ k < p.cachedChildren.length, (0 < (p.childAt k).duration →
      (.started ∈ p.stage.history k ↔ (p.childAt k).delay ≤ t) ∧
      ((p.childAt k).delay ≤ t → lastTime (p.stage.history k) =
        some (min (t - (p.childAt k).delay) (p.childAt k).duration))) ∧
    ((p.childAt k).duration = 0 →
      (p.stage.history k).count .onFinished = if (p.childAt k).delay ≤ t then 1 else 0)

/-- The local time of a child, as a `double`, reaches the duration with the time itself. -/
def RoundsBelow (c : Child) (new : Int) : Prop :=
  c.delay ≤ new → new < c.delay + c.duration → scaledTick (new - c.delay) 1 < c.duration
  deriving Decidable

/-- A call at `new` after one at `t` meets no defect: the fraction of the cycle gives the time back,
    only the last child may be one that cannot be started and is entered, not at the end of a delay
    already reached, none is played at the indefinite mark, and no local time is rounded up to the
    duration. -/
def HarmlessCall (children : List Child) (t new : Int) : Prop :=
  newTicks new (cycleTimeOf children) = new ∧ ∀ k < children.length,
    ((children.getD k default).duration = 0 → t ≤ (children.getD k default).delay →
      (children.getD k default).delay ≤ new →
      k + 1 = children.length ∧ t ≠ (children.getD k default).delay) ∧
    (longMax < (children.getD k default).delay + (children.getD k default).duration →
      new ≠ longMax) ∧
    RoundsBelow (children.getD k default) new

/-- All the calls of a run after time `t` meet no defect. -/
def HarmlessRun (children : List Child) : Int → List Int → Prop
  | _, [] => True
  | t, new :: rest => HarmlessCall children t new ∧ HarmlessRun children new rest

/-! ## One child -/

/-- How a child stands at time `t`. -/
inductive Stands (c : Child) (t : Int) (status : Status) (history : List ChildEvent) : Prop
  | waiting (early : t < c.delay) (stopped : status = .stopped) (untouched : history = [])
  | running (startable : 0 < c.duration) (begun : c.delay ≤ t) (before : t < c.delay + c.duration)
      (runs : status = .running) (started : .started ∈ history)
      (time : lastTime history = some (t - c.delay))
  | ended (startable : 0 < c.duration) (past : c.delay + c.duration ≤ t)
      (started : .started ∈ history)
      (time : lastTime history = some c.duration)
  | handled (empty : c.duration = 0) (begun : c.delay ≤ t) (stopped : status = .stopped)
      (once : history = [.onFinished])

/-- The other children are left alone. -/
structure Frame (p q : ParallelTransition) (k : Nat) : Prop where
  children : q.cachedChildren = p.cachedChildren
  oldTicks : q.oldTicks = p.oldTicks
  cycleTime : q.cycleTime = p.cycleTime
  toggledRate : q.toggledRate = p.toggledRate
  currentRate : q.currentRate = p.currentRate
  status : ∀ j ≠ k, q.stage.status j = p.stage.status j
  history : ∀ j ≠ k, q.stage.history j = p.stage.history j
  offset : ∀ j ≠ k, q.offsetTicks j = p.offsetTicks j

namespace Frame

variable {p q r : ParallelTransition} {k : Nat}

theorem refl : Frame p p k :=
  ⟨rfl, rfl, rfl, rfl, rfl, fun _ _ => rfl, fun _ _ => rfl, fun _ _ => rfl⟩

theorem trans (h1 : Frame p q k) (h2 : Frame q r k) : Frame p r k where
  children := h2.children.trans h1.children
  oldTicks := h2.oldTicks.trans h1.oldTicks
  cycleTime := h2.cycleTime.trans h1.cycleTime
  toggledRate := h2.toggledRate.trans h1.toggledRate
  currentRate := h2.currentRate.trans h1.currentRate
  status := fun j hj => (h2.status j hj).trans (h1.status j hj)
  history := fun j hj => (h2.history j hj).trans (h1.history j hj)
  offset := fun j hj => (h2.offset j hj).trans (h1.offset j hj)

end Frame

variable {p : ParallelTransition} {t new : Int} {k : Nat}

theorem lastTime_pulsed (h : List ChildEvent) (ticks : Int) :
    lastTime (h ++ [.pulsed ticks]) = some ticks := by
  simp [lastTime]

theorem lastTime_jumped (h : List ChildEvent) (ticks : Int) :
    lastTime (h ++ [.jumped ticks]) = some ticks := by
  simp [lastTime]

theorem lastTime_onFinished (h : List ChildEvent) :
    lastTime (h ++ [.onFinished]) = lastTime h := by
  simp [lastTime]

theorem add_le_iff (c : Child) (hnew : new ≤ longMax)
    (h : longMax < c.delay + c.duration → new ≠ longMax) :
    add c.duration c.delay ≤ new ↔ c.delay + c.duration ≤ new := by
  rw [add_eq_min c.duration_nonneg c.delay_nonneg]
  omega

theorem add_delay_duration (c : Child) : add c.delay c.duration = add c.duration c.delay := by
  rw [add_eq_min c.duration_nonneg c.delay_nonneg, add_eq_min c.delay_nonneg c.duration_nonneg,
    Int.add_comm]

theorem pulseChild_stands (hsynched : (p.childAt k).Synched) (hpos : 0 < (p.childAt k).duration)
    (hrun : p.stage.status k = .running) (hst : .started ∈ p.stage.history k)
    (hbegun : (p.childAt k).delay ≤ new) (hround : RoundsBelow (p.childAt k) new) {x : Int}
    (hx : x = min (new - (p.childAt k).delay) (p.childAt k).duration) :
    Stands (p.childAt k) new ((p.pulseChild k x).stage.status k)
      ((p.pulseChild k x).stage.history k) ∧ Frame p (p.pulseChild k x) k := by
  unfold pulseChild implTimePulse
  rw [if_neg (hsynched.pos_iff.mpr hpos).ne', hsynched]
  simp only []
  by_cases hend : (p.childAt k).duration ≤ scaledTick x 1
  · rw [if_pos hend]
    have hpast : (p.childAt k).delay + (p.childAt k).duration ≤ new := by
      by_contra hbef
      have := hround hbegun (by omega)
      rw [show new - (p.childAt k).delay = x by omega] at this
      omega
    have htime : x = (p.childAt k).duration := by omega
    refine ⟨.ended hpos hpast ?_ ?_, rfl, rfl, rfl, rfl, rfl, ?_, ?_, fun _ _ => rfl⟩
    · simp [callOnFinished, hst]
    · simp only [callOnFinished, history_note_self, history_setStatus]
      rw [lastTime_onFinished, lastTime_pulsed, htime]
    · intro j hj
      simp [callOnFinished, status_setStatus_of_ne, hj]
    · intro j hj
      simp only [callOnFinished, history_note_of_ne _ _ hj, history_setStatus]
  · rw [if_neg hend]
    have hstarted : .started ∈ (p.stage.note k (.pulsed x)).history k := by simp [hst]
    refine ⟨?_, rfl, rfl, rfl, rfl, rfl, fun _ _ => rfl, ?_, fun _ _ => rfl⟩
    · by_cases hpast : (p.childAt k).delay + (p.childAt k).duration ≤ new
      · refine .ended hpos hpast hstarted ?_
        rw [history_note_self, lastTime_pulsed]
        exact congrArg some (by omega)
      · refine .running hpos hbegun (by omega) hrun hstarted ?_
        rw [history_note_self, lastTime_pulsed]
        exact congrArg some (by omega)
    · intro j hj
      exact history_note_of_ne _ _ hj

/-- The second half of the loop body on a child that is running. -/
theorem forwardPulse_stands (hsynched : (p.childAt k).Synched) (hpos : 0 < (p.childAt k).duration)
    (hrun : p.stage.status k = .running) (hst : .started ∈ p.stage.history k)
    (hoff : p.offsetTicks k = 0) (hbegun : (p.childAt k).delay ≤ new)
    (hround : RoundsBelow (p.childAt k) new)
    (htime : new = (p.childAt k).delay → lastTime (p.stage.history k) = some 0)
    (hend : add (p.childAt k).duration (p.childAt k).delay ≤ new ↔
      (p.childAt k).delay + (p.childAt k).duration ≤ new) :
    Stands (p.childAt k) new ((p.forwardPulse new k k).stage.status k)
        ((p.forwardPulse new k k).stage.history k) ∧
      Frame p (p.forwardPulse new k k) k ∧ (p.forwardPulse new k k).offsetTicks k = 0 := by
  unfold forwardPulse
  by_cases hover : (p.childAt k).delay + (p.childAt k).duration ≤ new
  · rw [if_pos (hend.mpr hover), endChild, if_pos hrun, hoff, sub_zero_of_nonneg hpos.le]
    obtain ⟨hs, hf⟩ := pulseChild_stands hsynched hpos hrun hst hbegun hround
      (x := (p.childAt k).duration) (by omega)
    refine ⟨hs, ⟨hf.children, hf.oldTicks, hf.cycleTime, hf.toggledRate, hf.currentRate,
      hf.status, hf.history, ?_⟩, by simp [setOffset]⟩
    intro j hj
    show Function.update _ k 0 j = _
    rw [Function.update_of_ne hj, hf.offset j hj]
  · rw [if_neg (fun h => hover (hend.mp h))]
    by_cases hlater : (p.childAt k).delay < new
    · rw [if_pos hlater, hoff, sub_zero_of_nonneg (by omega)]
      obtain ⟨hs, hf⟩ := pulseChild_stands hsynched hpos hrun hst hbegun hround
        (x := new - (p.childAt k).delay) (by omega)
      exact ⟨hs, hf, hoff⟩
    · rw [if_neg hlater]
      have hnow : new = (p.childAt k).delay := by omega
      refine ⟨.running hpos hbegun (by omega) hrun hst ?_, .refl, hoff⟩
      rw [htime hnow, hnow, Int.sub_self]

/-- The second half of the loop body on a child that is not playing. -/
theorem forwardPulse_idle (hstop : p.stage.status k ≠ .running)
    (h : new ≤ (p.childAt k).delay ∨ add (p.childAt k).duration (p.childAt k).delay ≤ new) :
    p.forwardPulse new k k = p := by
  unfold forwardPulse endChild
  by_cases hend : add (p.childAt k).duration (p.childAt k).delay ≤ new
  · rw [if_pos hend, if_neg hstop]
  · rw [if_neg hend, if_neg (by omega)]

theorem startChild_stands (hsynched : (p.childAt k).Synched)
    (hpos : 0 < (p.childAt k).duration) (hoff : p.offsetTicks k = 0)
    (hbegun : (p.childAt k).delay ≤ new) (hround : RoundsBelow (p.childAt k) new)
    (hend : add (p.childAt k).duration (p.childAt k).delay ≤ new ↔
      (p.childAt k).delay + (p.childAt k).duration ≤ new) :
    ∃ p1, p.startChild k k = (p1, true) ∧
      Stands (p.childAt k) new (((p1.jumpChild k 0).forwardPulse new k k).stage.status k)
        (((p1.jumpChild k 0).forwardPulse new k k).stage.history k) ∧
      Frame p ((p1.jumpChild k 0).forwardPulse new k k) k ∧
      ((p1.jumpChild k 0).forwardPulse new k k).offsetTicks k = 0 := by
  have hstartable : (p.childAt k).implStartable (p.forceChildSync k) = true := by
    rw [Child.implStartable_eq]
    exact decide_eq_true (hsynched.pos_iff.mpr hpos)
  refine ⟨_, if_pos hstartable, ?_⟩
  set q := jumpChild _ k 0 with hq
  have hjump : q.stage = (p.stage.implStart k).note k (.jumped 0) := by
    rw [hq]
    exact if_neg (hsynched.pos_iff.mpr hpos).ne'
  have hhistory : q.stage.history k = p.stage.history k ++ [.started] ++ [.jumped 0] := by
    rw [hjump, history_note_self]
    simp [implStart]
  have hframe : Frame p q k := by
    refine ⟨rfl, rfl, rfl, rfl, rfl, ?_, ?_, fun _ _ => rfl⟩
    · intro j hj
      rw [hjump]
      simp [implStart, status_setStatus_of_ne, hj]
    · intro j hj
      rw [hjump, history_note_of_ne _ _ hj]
      simp [implStart, history_note_of_ne _ _ hj]
  have hrun : q.stage.status k = .running := by
    rw [hjump]
    simp [implStart]
  obtain ⟨hs, hf, ho⟩ := @forwardPulse_stands q new k hsynched hpos hrun
    (by rw [hhistory]; simp) hoff hbegun hround
    (fun _ => by rw [hhistory, lastTime_jumped]) hend
  exact ⟨hs, hframe.trans hf, ho⟩

/-- The index moves on past startable children. -/
structure Advanced (p : ParallelTransition) (r : ParallelTransition × Nat) (k : Nat)
    (t new : Int) : Prop where
  stands : Stands (p.childAt k) new (r.1.stage.status k) (r.1.stage.history k)
  frame : Frame p r.1 k
  offset : r.1.offsetTicks k = 0
  index : r.2 = k + 1 ∨
    (p.childAt k).duration = 0 ∧ t ≤ (p.childAt k).delay ∧ (p.childAt k).delay ≤ new

theorem forwardStep_stands (hsynched : (p.childAt k).Synched)
    (hs : Stands (p.childAt k) t (p.stage.status k) (p.stage.history k))
    (hoff : p.offsetTicks k = 0) (ht : t ≤ new)
    (hold : p.oldTicks ≤ (p.childAt k).delay ↔ t ≤ (p.childAt k).delay)
    (hend : add (p.childAt k).duration (p.childAt k).delay ≤ new ↔
      (p.childAt k).delay + (p.childAt k).duration ≤ new)
    (hfst : (p.childAt k).duration = 0 → t ≠ (p.childAt k).delay)
    (hround : RoundsBelow (p.childAt k) new) :
    Advanced p (forwardStep new (p, k) k) k t new := by
  have hdur := (p.childAt k).duration_nonneg
  -- a child that is started or restarted here
  have hstarts : 0 < (p.childAt k).duration → (p.childAt k).delay ≤ new →
      p.forwardEnters new k k = true → Advanced p (forwardStep new (p, k) k) k t new := by
    intro hpos hbegun henter
    obtain ⟨p1, hstart, hst, hf, ho⟩ := startChild_stands hsynched hpos hoff hbegun hround hend
    have hstep : forwardStep new (p, k) k =
        ((p1.jumpChild k 0).forwardPulse new k k, k + 1) := by
      simp only [forwardStep, if_pos henter, hstart]
    rw [hstep]
    exact ⟨hst, hf, ho, Or.inl rfl⟩
  have hstays : p.forwardEnters new k k = false →
      forwardStep new (p, k) k = (p.forwardPulse new k k, k + 1) := by
    intro h
    simp only [forwardStep, h, Bool.false_eq_true, if_false]
  cases hs with
  | waiting early stopped untouched =>
    by_cases hreached : (p.childAt k).delay ≤ new
    · have henter : p.forwardEnters new k k = true := by
        simp [forwardEnters, hreached, hold.mpr early.le]
      rcases hdur.lt_or_eq with hpos | hzero
      · exact hstarts hpos hreached henter
      · -- the handler of a child that cannot be started
        have hno : p.startChild k k = (p, false) := by
          refine if_neg ?_
          rw [Child.implStartable_eq, hsynched.eq_zero_iff.mpr hzero.symm]
          simp
        have hstep : forwardStep new (p, k) k =
            ({ p with stage := p.stage.callOnFinished k }, k) := by
          simp only [forwardStep, if_pos henter, hno, skipChild, hold.mpr early.le, decide_true,
            if_true]
        rw [hstep]
        refine ⟨.handled hzero.symm hreached stopped ?_, ?_, hoff,
          Or.inr ⟨hzero.symm, early.le, hreached⟩⟩
        · show (p.stage.note k .onFinished).history k = _
          rw [history_note_self, untouched]
          rfl
        · exact ⟨rfl, rfl, rfl, rfl, rfl, fun _ _ => rfl,
            fun j hj => history_note_of_ne _ _ hj, fun _ _ => rfl⟩
    · rw [hstays (by simp [forwardEnters, hreached]),
        forwardPulse_idle (by simp [stopped]) (Or.inl (by omega))]
      exact ⟨.waiting (by omega) stopped untouched, .refl, hoff, Or.inl rfl⟩
  | running startable begun before runs started time =>
    by_cases hagain : t ≤ (p.childAt k).delay
    · -- the last call was exactly at the end of the delay
      refine hstarts startable (by omega) ?_
      simp [forwardEnters, hold.mpr hagain, show (p.childAt k).delay ≤ new by omega]
    · have hno : p.forwardEnters new k k = false := by
        simp [forwardEnters, runs, show ¬ p.oldTicks ≤ (p.childAt k).delay from
          fun h => hagain (hold.mp h)]
      rw [hstays hno]
      obtain ⟨hst, hf, ho⟩ := forwardPulse_stands hsynched startable runs started hoff (by omega)
        hround (fun h => by omega) hend
      exact ⟨hst, hf, ho, Or.inl rfl⟩
  | ended startable past started time =>
    have hover : add (p.childAt k).duration (p.childAt k).delay ≤ new := hend.mpr (by omega)
    have hno : p.forwardEnters new k k = false := by
      have h1 : ¬ p.oldTicks ≤ (p.childAt k).delay := fun h => by
        have := hold.mp h
        omega
      have h2 : ¬ new < add (p.childAt k).delay (p.childAt k).duration := by
        rw [add_delay_duration]
        omega
      simp [forwardEnters, h1, h2]
    rw [hstays hno]
    by_cases hrun : p.stage.status k = .running
    · -- the end has been rounded down, and is told again
      obtain ⟨hst, hf, ho⟩ := forwardPulse_stands hsynched startable hrun started hoff (by omega)
        hround (fun h => by omega) hend
      exact ⟨hst, hf, ho, Or.inl rfl⟩
    · rw [forwardPulse_idle hrun (Or.inr hover)]
      exact ⟨.ended startable (by omega) started time, .refl, hoff, Or.inl rfl⟩
  | handled empty begun stopped once =>
    have hover : add (p.childAt k).duration (p.childAt k).delay ≤ new := hend.mpr (by omega)
    have hno : p.forwardEnters new k k = false := by
      have h1 : ¬ p.oldTicks ≤ (p.childAt k).delay := fun h => by
        have := hold.mp h
        have := hfst empty
        omega
      have h2 : ¬ new < add (p.childAt k).delay (p.childAt k).duration := by
        rw [add_delay_duration]
        omega
      simp [forwardEnters, h1, h2]
    rw [hstays hno, forwardPulse_idle (by simp [stopped]) (Or.inr hover)]
    exact ⟨.handled empty (by omega) stopped once, .refl, hoff, Or.inl rfl⟩

/-! ## Calls and runs -/

/-- Every child stands where time `t` puts it. -/
structure Placed (p : ParallelTransition) (t : Int) : Prop where
  synched : ∀ k, (p.childAt k).Synched
  stands : ∀ k < p.cachedChildren.length,
    Stands (p.childAt k) t (p.stage.status k) (p.stage.history k)
  offset : ∀ k, p.offsetTicks k = 0
  oldTicks : ∀ delay : Int, 0 ≤ delay → (p.oldTicks ≤ delay ↔ t ≤ delay)
  toggledRate : p.toggledRate = false
  currentRate : p.currentRate = 1
  cycleTime : p.cycleTime = cycleTimeOf p.cachedChildren

/-- The children before `m` have moved to `new`. -/
structure Underway (p : ParallelTransition) (t new : Int) (r : ParallelTransition × Nat)
    (m : Nat) : Prop where
  children : r.1.cachedChildren = p.cachedChildren
  oldTicks : r.1.oldTicks = p.oldTicks
  cycleTime : r.1.cycleTime = p.cycleTime
  toggledRate : r.1.toggledRate = p.toggledRate
  currentRate : r.1.currentRate = p.currentRate
  moved : ∀ k < m, Stands (p.childAt k) new (r.1.stage.status k) (r.1.stage.history k)
  still : ∀ k, m ≤ k → k < p.cachedChildren.length →
    Stands (p.childAt k) t (r.1.stage.status k) (r.1.stage.history k)
  offset : ∀ k, r.1.offsetTicks k = 0
  index : m < p.cachedChildren.length → r.2 = m

theorem cycleTimeOf_le (children : List Child) : cycleTimeOf children ≤ longMax := by
  suffices h : ∀ (l : List Child) (a : Int), a ≤ longMax →
      l.foldl (fun cycleTime c => max cycleTime (add c.duration c.delay)) a ≤ longMax from
    h children 0 (by decide)
  intro l
  induction l with
  | nil => exact fun a ha => ha
  | cons c l ih =>
    intro a ha
    refine ih _ (max_le ha ?_)
    rw [add_eq_min c.duration_nonneg c.delay_nonneg]
    exact min_le_right _ _

theorem Underway.step {r : ParallelTransition × Nat} {m : Nat} (hp : Placed p t)
    (hr : Underway p t new r m) (hm : m < p.cachedChildren.length) (ht : t ≤ new)
    (hnew : new ≤ longMax) (hh : HarmlessCall p.cachedChildren t new) :
    Underway p t new (forwardStep new r m) (m + 1) := by
  obtain ⟨q, i⟩ := r
  obtain rfl : i = m := hr.index hm
  have hchild : ∀ j, q.childAt j = p.childAt j := by
    intro j
    unfold childAt
    rw [hr.children]
  obtain ⟨hfst, hmark, hround⟩ := hh.2 i hm
  have ha : Advanced q (forwardStep new (q, i) i) i t new := by
    refine forwardStep_stands (by rw [hchild]; exact hp.synched i) ?_ (hr.offset i) ht ?_ ?_ ?_ ?_
    · rw [hchild]
      exact hr.still i le_rfl hm
    · rw [hchild, hr.oldTicks]
      exact hp.oldTicks _ (p.childAt i).delay_nonneg
    · rw [hchild]
      exact add_le_iff _ hnew hmark
    · rw [hchild]
      intro hzero hdelay
      exact (hfst hzero hdelay.le (hdelay ▸ ht)).2 hdelay
    · rw [hchild]
      exact hround
  have hf := ha.frame
  refine ⟨hf.children.trans hr.children, hf.oldTicks.trans hr.oldTicks,
    hf.cycleTime.trans hr.cycleTime, hf.toggledRate.trans hr.toggledRate,
    hf.currentRate.trans hr.currentRate, ?_, ?_, ?_, ?_⟩
  · intro j hj
    rcases Nat.lt_succ_iff_lt_or_eq.mp hj with hlt | rfl
    · rw [hf.status j (by omega), hf.history j (by omega)]
      exact hr.moved j hlt
    · have hs := ha.stands
      rw [hchild] at hs
      exact hs
  · intro j hij hj
    rw [hf.status j (by omega), hf.history j (by omega)]
    exact hr.still j (by omega) hj
  · intro j
    by_cases hj : j = i
    · rw [hj]
      exact ha.offset
    · rw [hf.offset j hj]
      exact hr.offset j
  · intro hlast
    rcases ha.index with h | ⟨hzero, hle, hge⟩
    · exact h
    · rw [hchild] at hzero hle hge
      have := (hfst hzero hle hge).1
      omega

theorem Placed.playChildren (hp : Placed p t) (ht : t ≤ new) (hnew : new ≤ longMax)
    (hh : HarmlessCall p.cachedChildren t new) :
    ∃ i, Underway p t new (p.playChildren new, i) p.cachedChildren.length := by
  have hloop : ∀ m ≤ p.cachedChildren.length,
      Underway p t new ((List.range m).foldl (forwardStep new) (p, 0)) m := by
    intro m
    induction m with
    | zero =>
      intro _
      exact ⟨rfl, rfl, rfl, rfl, rfl, fun k hk => absurd hk (Nat.not_lt_zero k),
        fun k _ hk => hp.stands k hk, hp.offset, fun _ => rfl⟩
    | succ m ih =>
      intro hm
      rw [range_succ, foldl_append]
      exact (ih (by omega)).step hp (by omega) ht hnew hh
  have hfwd : p.playChildren new =
      ((List.range p.cachedChildren.length).foldl (forwardStep new) (p, 0)).1 := by
    unfold ParallelTransition.playChildren
    rw [hp.currentRate, if_pos (by decide)]
  rw [hfwd]
  exact ⟨_, hloop _ le_rfl⟩

/-- The children are played at the time of the call. -/
theorem implPlayTo_eq (p : ParallelTransition) {cycleTicks : Int}
    (htime : newTicks new cycleTicks = new) :
    p.implPlayTo new cycleTicks =
      { ((p.setCurrentTicks new).toggleOffsets).playChildren new with oldTicks := new } := by
  unfold implPlayTo
  simp only [htime]

theorem Placed.implPlayTo (hp : Placed p t) (ht : t ≤ new)
    (hcycle : new ≤ p.cycleTime) (hh : HarmlessCall p.cachedChildren t new) :
    Placed (p.implPlayTo new p.cycleTime) new ∧
      (p.implPlayTo new p.cycleTime).cachedChildren = p.cachedChildren := by
  have hnew : new ≤ longMax := hcycle.trans (hp.cycleTime ▸ cycleTimeOf_le _)
  have hp' : Placed (p.setCurrentTicks new) t := { hp with }
  have htoggle : (p.setCurrentTicks new).toggleOffsets = p.setCurrentTicks new := by
    unfold toggleOffsets
    rw [hp'.toggledRate]
    rfl
  obtain ⟨i, hu⟩ := hp'.playChildren ht hnew hh
  rw [p.implPlayTo_eq (by rw [hp.cycleTime]; exact hh.1), htoggle]
  have hchildren : ((p.setCurrentTicks new).playChildren new).cachedChildren =
      p.cachedChildren := hu.children
  have hchild : ∀ k, ((p.setCurrentTicks new).playChildren new).childAt k = p.childAt k := by
    intro k
    unfold childAt
    rw [hchildren]
  refine ⟨⟨fun k => (congrArg _ (hchild k)).mpr (hp.synched k), ?_, hu.offset, fun _ _ => Iff.rfl,
    hu.toggledRate.trans hp.toggledRate, hu.currentRate.trans hp.currentRate, ?_⟩, hchildren⟩
  · intro k hk
    have hs := hu.moved k (by rw [← hu.children]; exact hk)
    show Stands (((p.setCurrentTicks new).playChildren new).childAt k) new _ _
    rw [hchild]
    exact hs
  · show ((p.setCurrentTicks new).playChildren new).cycleTime = _
    rw [hu.cycleTime, hchildren]
    exact hp.cycleTime

theorem Placed.drivesChildren (hp : Placed p t) : DrivesChildren p t := by
  intro k hk
  cases hp.stands k hk with
  | waiting early stopped untouched =>
    rw [untouched]
    refine ⟨fun _ => ⟨?_, fun h => by omega⟩, fun _ => ?_⟩
    · exact iff_of_false (by simp) (by omega)
    · rw [if_neg (by omega)]
      rfl
  | running startable begun before runs started time =>
    refine ⟨fun _ => ⟨iff_of_true started begun, fun _ => ?_⟩, fun h => by omega⟩
    rw [time]
    exact congrArg some (by omega)
  | ended startable past started time =>
    refine ⟨fun _ => ⟨iff_of_true started (by omega), fun _ => ?_⟩, fun h => by omega⟩
    rw [time]
    exact congrArg some (by omega)
  | handled empty begun stopped once =>
    refine ⟨fun h => by omega, fun _ => ?_⟩
    rw [once, if_pos begun]
    rfl

theorem placed_new {children : List Child} (hsynched : ∀ c ∈ children, c.Synched) :
    Placed (ParallelTransition.new children) (-1) where
  synched := Child.synched_getD hsynched
  stands := fun k _ => .waiting (by
    have := ((ParallelTransition.new children).childAt k).delay_nonneg
    omega) rfl rfl
  offset := fun _ => rfl
  oldTicks := fun delay hd => iff_of_true hd (by omega)
  toggledRate := rfl
  currentRate := rfl
  cycleTime := rfl

/-- Times never go back, start from 0, stay in the cycle. -/
def Increasing (cycleTime : Int) : Int → List Int → Prop
  | _, [] => True
  | t, new :: rest => t ≤ new ∧ 0 ≤ new ∧ new ≤ cycleTime ∧ Increasing cycleTime new rest

theorem Placed.plays (hp : Placed p t) {ticks : List Int}
    (hticks : Increasing p.cycleTime t ticks) (hh : HarmlessRun p.cachedChildren t ticks) :
    Placed (p.plays ticks) (ticks.getLastD t) := by
  induction ticks generalizing p t with
  | nil => exact hp
  | cons new rest ih =>
    obtain ⟨ht, -, hcycle, hrest⟩ := hticks
    obtain ⟨hcall, hrun⟩ := hh
    obtain ⟨hp', hchildren⟩ := hp.implPlayTo ht hcycle hcall
    have hcycle' : (p.implPlayTo new p.cycleTime).cycleTime = p.cycleTime := by
      rw [hp'.cycleTime, hchildren, ← hp.cycleTime]
    rw [getLastD_cons]
    exact ih hp' (hcycle' ▸ hrest) (hchildren ▸ hrun)

theorem increasing_of_sorted {cycleTime : Int} {ticks : List Int}
    (hsort : ticks.Pairwise (· ≤ ·)) (hrng : ∀ x ∈ ticks, 0 ≤ x ∧ x ≤ cycleTime)
    (ht : ∀ x ∈ ticks, t ≤ x) : Increasing cycleTime t ticks := by
  induction ticks generalizing t with
  | nil => trivial
  | cons x rest ih =>
    obtain ⟨hx, hrest⟩ := pairwise_cons.mp hsort
    obtain ⟨h0, hc⟩ := hrng x mem_cons_self
    exact ⟨ht x mem_cons_self, h0, hc, ih hrest (fun y hy => hrng y (mem_cons_of_mem x hy)) hx⟩

theorem HarmlessRun.of_append {children : List Child} {done rest : List Int}
    (h : HarmlessRun children t (done ++ rest)) : HarmlessRun children t done := by
  induction done generalizing t with
  | nil => trivial
  | cons x done ih => exact ⟨h.1, ih h.2⟩

/-- An empty child and one of 10 ticks. -/
def emptyChildFirst : List Child :=
  [.single 0 0 (by decide) (by decide), .single 0 10 (by decide) (by decide)]

end OpenJfx.Animation.ParallelTransition
