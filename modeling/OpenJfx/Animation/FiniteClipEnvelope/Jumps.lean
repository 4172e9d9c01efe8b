/-
  OpenJfx.Animation.FiniteClipEnvelope.Jumps

  Jumps compared with play. A position and a direction together are a phase, to which a pulse adds
  its ticks modulo one cycle, or two with `autoReverse`.
-/

import OpenJfx.Animation.FiniteClipEnvelope.ForwardPlay

namespace OpenJfx.Animation.FiniteClipEnvelope

open TriangleWave Int

variable {t : Int}

/-! ## Phases -/

/-- The position, counted in the direction of its movement. -/
def phase (e : FiniteClipEnvelope) : Int := if 0 < e.currentRate then e.pos else -e.pos

/-- The ticks after which the play repeats. -/
def period (e : FiniteClipEnvelope) : Int :=
  if e.autoReverse then 2 * e.cycleTicks else e.cycleTicks

/-- The distance to the end of the cycle. -/
def distance (e : FiniteClipEnvelope) : Int :=
  if 0 < e.currentRate then e.cycleTicks - e.pos else e.pos

/-- `e` has moved by `o - rest` ticks to `e'`. -/
structure Walked (e e' : FiniteClipEnvelope) (o rest : Int) : Prop where
  cycleTicks : e'.cycleTicks = e.cycleTicks
  autoReverse : e'.autoReverse = e.autoReverse
  aborted : e'.aborted = false
  pos_nonneg : 0 ≤ e'.pos
  pos_le : e'.pos ≤ e.cycleTicks
  rest_nonneg : 0 ≤ rest
  rest_le : rest ≤ o
  phase : e'.phase + rest ≡ e.phase + o [ZMOD e.period]
  moving : e'.currentRate ≠ 0
  straight : e.autoReverse = false → e'.currentRate = e.currentRate

variable {e e' e'' : FiniteClipEnvelope} {o rest rest' : Int} {reachedEnd : Bool}

theorem Walked.trans (h : Walked e e' o rest) (h' : Walked e' e'' rest rest') :
    Walked e e'' o rest' := by
  have hperiod : e'.period = e.period := by
    unfold period
    rw [h.autoReverse, h.cycleTicks]
  exact {
    cycleTicks := h'.cycleTicks.trans h.cycleTicks
    autoReverse := h'.autoReverse.trans h.autoReverse
    aborted := h'.aborted
    pos_nonneg := h'.pos_nonneg
    pos_le := h.cycleTicks ▸ h'.pos_le
    rest_nonneg := h'.rest_nonneg
    rest_le := h'.rest_le.trans h.rest_le
    phase := (hperiod ▸ h'.phase).trans h.phase
    moving := h'.moving
    straight := fun hr => (h'.straight (h.autoReverse.trans hr)).trans (h.straight hr) }

theorem distance_nonneg (hpos : 0 ≤ e.pos) (hle : e.pos ≤ e.cycleTicks) : 0 ≤ e.distance := by
  unfold distance
  split <;> omega

section

variable (hc : 0 < e.cycleTicks) (habort : e.aborted = false) (hpos : 0 ≤ e.pos)
  (hle : e.pos ≤ e.cycleTicks) (hrate : e.currentRate ≠ 0)
include hc habort hpos hle hrate

theorem walked_to_end (ho : e.distance ≤ o) :
    Walked e (if 0 < e.distance then e.playCycleEnd noAbort else e) o
        (if 0 < e.distance then o - e.distance else o) ∧
      (if 0 < e.distance then e.playCycleEnd noAbort else e).distance = 0 := by
  have hnn := distance_nonneg hpos hle
  by_cases hdist : 0 < e.distance
  · rw [if_pos hdist, if_pos hdist]
    unfold playCycleEnd
    simp only [tell_noAbort]
    refine ⟨⟨rfl, rfl, habort, ?_, ?_, by omega, by omega, ?_, hrate, fun _ => rfl⟩, ?_⟩
    · show 0 ≤ if 0 < e.currentRate then e.cycleTicks else 0
      split <;> omega
    · show (if 0 < e.currentRate then e.cycleTicks else 0) ≤ e.cycleTicks
      split <;> omega
    · have hsame : (if 0 < e.currentRate then (if 0 < e.currentRate then e.cycleTicks else 0)
          else -(if 0 < e.currentRate then e.cycleTicks else 0)) + (o - e.distance) =
          e.phase + o := by
        unfold phase distance
        split <;> omega
      exact (congrArg (· % e.period) hsame : _)
    · show (if 0 < e.currentRate then e.cycleTicks - (if 0 < e.currentRate then e.cycleTicks else 0)
          else (if 0 < e.currentRate then e.cycleTicks else 0)) = 0
      split <;> omega
  · rw [if_neg hdist, if_neg hdist]
    exact ⟨⟨rfl, rfl, habort, hpos, hle, by omega, le_refl o, Int.ModEq.refl _, hrate,
      fun _ => rfl⟩, by omega⟩

theorem walked_turn (ho : 0 ≤ o) (hend : e.distance = 0) :
    Walked e (e.turn noAbort) o o ∧ (e.turn noAbort).distance = e.cycleTicks := by
  unfold turn
  unfold distance at hend
  by_cases hrev : e.autoReverse = true
  · rw [if_pos hrev]
    simp only [setCurrentRate, tell_noAbort]
    have hflip : 0 < -e.currentRate ↔ ¬ 0 < e.currentRate := by
      rw [neg_pos, not_lt]
      exact ⟨le_of_lt, fun h => lt_of_le_of_ne h hrate⟩
    refine ⟨⟨rfl, rfl, habort, hpos, hle, ho, le_refl o, ?_, neg_ne_zero.mpr hrate, ?_⟩, ?_⟩
    · refine Int.ModEq.add_right o ?_
      show (if 0 < -e.currentRate then e.pos else -e.pos) ≡ phase e [ZMOD period e]
      rw [period, if_pos hrev, modEq_iff_dvd, phase, if_congr hflip rfl rfl]
      by_cases hup : 0 < e.currentRate
      · rw [if_pos hup] at hend
        rw [if_pos hup, if_neg (not_not.mpr hup)]
        exact ⟨1, by omega⟩
      · rw [if_neg hup] at hend
        rw [if_neg hup, if_pos hup]
        exact ⟨0, by omega⟩
    · intro h
      rw [hrev] at h
      cases h
    · show (if 0 < -e.currentRate then e.cycleTicks - e.pos else e.pos) = _
      rw [if_congr hflip rfl rfl]
      by_cases hup : 0 < e.currentRate
      · rw [if_pos hup] at hend
        rw [if_neg (not_not.mpr hup)]
        omega
      · rw [if_neg hup] at hend
        rw [if_pos hup]
        omega
  · rw [if_neg hrev]
    simp only [tell_noAbort]
    refine ⟨⟨rfl, rfl, habort, ?_, ?_, ho, le_refl o, ?_, hrate, fun _ => rfl⟩, ?_⟩
    · show 0 ≤ if 0 < e.currentRate then 0 else e.cycleTicks
      split <;> omega
    · show (if 0 < e.currentRate then 0 else e.cycleTicks) ≤ e.cycleTicks
      split <;> omega
    · refine Int.ModEq.add_right o ?_
      show (if 0 < e.currentRate then (if 0 < e.currentRate then 0 else e.cycleTicks)
        else -(if 0 < e.currentRate then 0 else e.cycleTicks)) ≡ phase e [ZMOD period e]
      rw [period, if_neg hrev, modEq_iff_dvd, phase]
      by_cases hup : 0 < e.currentRate
      · rw [if_pos hup] at hend
        simp only [if_pos hup]
        exact ⟨1, by omega⟩
      · rw [if_neg hup] at hend
        simp only [if_neg hup]
        exact ⟨1, by omega⟩
    · show (if 0 < e.currentRate then e.cycleTicks - (if 0 < e.currentRate then 0 else e.cycleTicks)
        else (if 0 < e.currentRate then 0 else e.cycleTicks)) = _
      split <;> omega

end

/-- The loop stops before the next cycle end, or at the last. -/
def Stops (e : FiniteClipEnvelope) (reachedEnd : Bool) (rest : Int) : Prop :=
  (rest < e.distance ∧ (reachedEnd = true → 0 < rest)) ∨
    (reachedEnd = true ∧ rest = 0 ∧ e.distance = 0)

theorem cycleLoop_walked : ∀ {rounds : Nat} {e : FiniteClipEnvelope} {o : Int},
    0 < e.cycleTicks → e.aborted = false → 0 ≤ e.pos → e.pos ≤ e.cycleTicks →
    e.currentRate ≠ 0 → 0 ≤ o → (reachedEnd = true → 0 < o) →
    o.toNat + (if e.distance = 0 then 2 else 1) ≤ rounds →
    ∃ e' rest, cycleLoop noAbort reachedEnd rounds e o e.distance = some (e', some rest) ∧
      e'.ticks = e.ticks ∧ Walked e e' o rest ∧ e'.Stops reachedEnd rest := by
  intro rounds
  induction rounds with
  | zero =>
    intro e o _ _ _ _ _ _ _ hrounds
    split at hrounds <;> omega
  | succ rounds ih =>
    intro e o hc habort hpos hle hrate ho hreached hrounds
    have hnn := distance_nonneg hpos hle
    rw [cycleLoop]
    by_cases hround : e.distance ≤ o
    · obtain ⟨hstep, hstepEnd⟩ := walked_to_end hc habort hpos hle hrate hround
      have hticks : (if 0 < e.distance then e.playCycleEnd noAbort else e).ticks = e.ticks := by
        split <;> rfl
      have hrounds1 : (if 0 < e.distance then o - e.distance else o).toNat + 1 ≤ rounds := by
        split <;> split at hrounds <;> omega
      generalize (if 0 < e.distance then e.playCycleEnd noAbort else e) = e1 at *
      generalize (if 0 < e.distance then o - e.distance else o) = o1 at *
      have hc1 : 0 < e1.cycleTicks := hstep.cycleTicks ▸ hc
      simp only [if_pos hround, hstep.aborted, Bool.and_false, Bool.false_eq_true, if_false]
      by_cases hturn : (!reachedEnd || decide (0 < o1)) = true
      · obtain ⟨hwalk, hfar⟩ := walked_turn hc1 hstep.aborted hstep.pos_nonneg
          (hstep.cycleTicks ▸ hstep.pos_le) hstep.moving hstep.rest_nonneg hstepEnd
        have hnxt := hstep.trans hwalk
        rw [if_pos hturn, hwalk.cycleTicks, ← hfar]
        obtain ⟨e', rest, hloop, hticks', hrest, hstops⟩ := ih (hnxt.cycleTicks ▸ hc) hnxt.aborted
          hnxt.pos_nonneg (hnxt.cycleTicks ▸ hnxt.pos_le) hnxt.moving hnxt.rest_nonneg
          (fun hr => by simpa [hr] using hturn) (by rw [hfar, if_neg hc1.ne']; exact hrounds1)
        exact ⟨e', rest, hloop, hticks'.trans ((turn_ticks e1).trans hticks), hnxt.trans hrest,
          hstops⟩
      · -- the last cycle end: the next round leaves the loop
        simp only [Bool.or_eq_true, Bool.not_eq_true', decide_eq_true_eq, not_or, not_lt,
          Bool.not_eq_false] at hturn
        rcases rounds with _ | m
        · omega
        have hzero : o1 = 0 := by have := hstep.rest_nonneg; omega
        subst hzero
        rw [if_neg (by simp [hturn.1]), cycleLoop, if_neg (by omega)]
        exact ⟨e1, 0, rfl, hticks, hstep, Or.inr ⟨hturn.1, rfl, hstepEnd⟩⟩
    · rw [if_neg hround]
      exact ⟨e, o, rfl, rfl, ⟨rfl, rfl, habort, hpos, hle, ho, le_refl o, Int.ModEq.refl _,
        hrate, fun _ => rfl⟩, Or.inl ⟨by omega, hreached⟩⟩

theorem Walked.playRest (h : Walked e e' o rest) (hrest : rest < e'.distance) :
    Walked e (e'.playRest noAbort false rest).leavePulse o 0 := by
  have hnn := h.rest_nonneg
  have hle := h.rest_le
  have hpos := h.pos_nonneg
  have hpos' := h.pos_le
  unfold distance at hrest
  rw [h.cycleTicks] at hrest
  unfold FiniteClipEnvelope.playRest
  simp only [Bool.not_false, Bool.and_true, decide_eq_true_eq, tell_noAbort]
  by_cases hmore : 0 < rest
  · rw [if_pos hmore]
    refine ⟨h.cycleTicks, h.autoReverse, h.aborted, ?_, ?_, le_refl 0, by omega, ?_, h.moving,
      h.straight⟩
    · show 0 ≤ e'.pos + if 0 < e'.currentRate then rest else -rest
      split <;> rename_i hup
      · omega
      · rw [if_neg hup] at hrest
        omega
    · show (e'.pos + if 0 < e'.currentRate then rest else -rest) ≤ e.cycleTicks
      split <;> rename_i hup
      · rw [if_pos hup] at hrest
        omega
      · omega
    · have hsame : (if 0 < e'.currentRate then e'.pos + (if 0 < e'.currentRate then rest else -rest)
          else -(e'.pos + (if 0 < e'.currentRate then rest else -rest))) + 0 = e'.phase + rest := by
        unfold FiniteClipEnvelope.phase
        split <;> omega
      exact Eq.trans (congrArg (· % e.period) hsame) h.phase
  · obtain rfl : rest = 0 := by omega
    rw [if_neg hmore]
    exact ⟨h.cycleTicks, h.autoReverse, h.aborted, hpos, hpos', le_refl 0, hle, h.phase,
      h.moving, h.straight⟩

theorem timePulse_walked {d : Int} (hrate : |e.rate| = 1) (hc : 0 < e.cycleTicks) (hpos : 0 ≤ e.pos)
    (hle : e.pos ≤ e.cycleTicks) (hmoving : e.currentRate ≠ 0) (hdelta : e.deltaTicks = e.ticks)
    (hticks : 0 ≤ e.ticks) (hd : 0 ≤ d) (hd53 : d ≤ 2 ^ 53) (hend : e.ticks + d ≤ e.totalTicks) :
    ∃ e' rest, e.timePulse noAbort d = some e' ∧ Walked (e.enterPulse (e.ticks + d)) e' d rest ∧
      (d = 0 → e'.pos = e.pos) ∧ (e.ticks + d < e.totalTicks → rest = 0) ∧
      (d ≠ 0 → e.ticks + d = e.totalTicks → e'.Stops true rest) := by
  have htick : e.tickAt d = e.ticks + d := by
    have hbound := (long_bounds (e.cycleCount * e.cycleTicks)).2
    rw [← e.totalTicks_eq] at hbound
    rw [tickAt, scaledTick_eq hrate (abs_le.mpr ⟨by omega, hd53⟩), hdelta,
      long_eq (by omega) (by omega), checkBounds]
    omega
  unfold timePulse
  rw [if_neg hc.ne']
  simp only [htick, add_sub_cancel_left]
  by_cases hzero : d = 0
  · rw [if_pos hzero]
    refine ⟨_, 0, rfl, ?_, fun _ => rfl, fun _ => rfl, fun h => absurd hzero h⟩
    subst hzero
    exact ⟨rfl, rfl, rfl, hpos, hle, le_refl 0, le_refl 0, Int.ModEq.refl _, hmoving, fun _ => rfl⟩
  rw [if_neg hzero]
  obtain ⟨e1, rest, hloop, hticks1, hwalk, hstops⟩ :=
    @cycleLoop_walked (decide (e.totalTicks ≤ e.ticks + d)) (d.toNat + 2)
      (e.enterPulse (e.ticks + d)) d hc rfl hpos hle hmoving hd (fun _ => by omega)
      (by split <;> omega)
  have hdist : (e.enterPulse (e.ticks + d)).distance =
      if 0 < e.currentRate then e.cycleTicks - e.pos else e.pos := rfl
  rw [← hdist, hloop]
  unfold finishPulse
  by_cases hlast : e.totalTicks ≤ e.ticks + d
  · -- the rest, if any, is not played at the end
    rw [decide_eq_true hlast] at hstops ⊢
    simp only [FiniteClipEnvelope.playRest, Bool.not_true, Bool.and_false, Bool.false_eq_true,
      if_false, Bool.true_and, hwalk.aborted, Bool.not_false, if_true, tell_noAbort]
    refine ⟨_, rest, rfl, ?_, fun h => absurd h hzero, fun h => by omega, fun _ _ => hstops⟩
    exact ⟨hwalk.cycleTicks, hwalk.autoReverse, rfl, hwalk.pos_nonneg, hwalk.pos_le,
      hwalk.rest_nonneg, hwalk.rest_le, hwalk.phase, hwalk.moving, hwalk.straight⟩
  · rw [decide_eq_false hlast] at hstops ⊢
    have hrest : rest < e1.distance := by
      rcases hstops with ⟨h, -⟩ | ⟨h, -⟩
      · exact h
      · cases h
    simp only [Bool.false_and, Bool.false_eq_true, if_false]
    exact ⟨_, 0, rfl, hwalk.playRest hrest, fun h => absurd h hzero, fun _ => rfl,
      fun _ h => by omega⟩

/-! ## The time of the animation -/

/-- The ticks of the whole play are a `long`. -/
def Fits (e : FiniteClipEnvelope) : Prop := e.cycleCount * e.cycleTicks < 2 ^ 63

instance (e : FiniteClipEnvelope) : Decidable e.Fits := inferInstanceAs (Decidable (_ < _))

theorem Fits.totalTicks (h : e.Fits) (hc : 0 < e.cycleTicks) (hn : 2 ≤ e.cycleCount) :
    e.totalTicks = e.cycleCount * e.cycleTicks := by
  have hnc : 0 < e.cycleCount * e.cycleTicks := mul_pos (by omega) hc
  rw [e.totalTicks_eq, long_eq (by omega) h]

/-- Two cycles fit as well. -/
theorem Fits.two_cycles (h : e.Fits) (hc : 0 < e.cycleTicks) (hn : 2 ≤ e.cycleCount) :
    long (2 * e.cycleTicks) = 2 * e.cycleTicks := by
  have htwo : 2 * e.cycleTicks ≤ e.cycleCount * e.cycleTicks :=
    mul_le_mul_of_nonneg_right hn hc.le
  exact long_eq (by omega) (lt_of_le_of_lt htwo h)

/-- The position at time `t`; a cycle end may have two. -/
def IsPosition (c n : Int) (reverse : Bool) (t p : Int) : Prop :=
  if reverse then p = triangle c t
  else if t = 0 then p = 0
  else if t = n * c then p = c
  else if t % c = 0 then p = 0 ∨ p = c
  else p = t % c

instance (c n : Int) (reverse : Bool) (t p : Int) : Decidable (IsPosition c n reverse t p) := by
  unfold IsPosition
  infer_instance

/-- Counted from the end when the rate is negative. -/
def ticksAt (e : FiniteClipEnvelope) (t : Int) : Int :=
  if e.rate < 0 then e.totalTicks - t else t

/-- The time `d` ticks of play after `t`. -/
def timeAfter (e : FiniteClipEnvelope) (t d : Int) : Int := if e.rate < 0 then t - d else t + d

/-- The time, counted in the direction of play. -/
def signedTime (e : FiniteClipEnvelope) (t : Int) : Int := if e.rate < 0 then -t else t

theorem isPosition_straight_iff {c n p : Int} (hc : 0 < c) (hn : 0 < n * c) :
    IsPosition c n false t p ↔
      0 ≤ p ∧ p ≤ c ∧ p ≡ t [ZMOD c] ∧ (t = 0 → p = 0) ∧ (t = n * c → p = c) := by
  have hlow := emod_nonneg t hc.ne'
  have hhigh := emod_lt_of_pos t hc
  have hzero : (0 : Int) % c = 0 := zero_emod c
  have hself : c % c = 0 := emod_self
  have hmul : n * c % c = 0 := mul_emod_left n c
  rw [IsPosition, if_neg (by decide)]
  have hends : 0 ≤ p → p ≤ c → p % c = 0 → p = 0 ∨ p = c := by
    intro hp hpc hmod
    rcases hpc.lt_or_eq with hlt | heq
    · exact Or.inl ((emod_eq_of_lt hp hlt).symm.trans hmod)
    · exact Or.inr heq
  constructor
  · intro h
    split at h
    · next ht => subst ht h; exact ⟨by omega, by omega, rfl, fun _ => rfl, fun h => by omega⟩
    · next ht =>
      split at h
      · next htn =>
        subst htn h
        exact ⟨hc.le, le_refl _, hself.trans hmul.symm, fun h => absurd h ht, fun _ => rfl⟩
      · next htn =>
        split at h
        · next hmod =>
          rcases h with rfl | rfl
          · exact ⟨by omega, by omega, hzero.trans hmod.symm, fun h => absurd h ht,
              fun h => absurd h htn⟩
          · exact ⟨by omega, by omega, hself.trans hmod.symm, fun h => absurd h ht,
              fun h => absurd h htn⟩
        · subst h
          exact ⟨hlow, hhigh.le, mod_modEq t c, fun h => absurd h ht, fun h => absurd h htn⟩
  · rintro ⟨hp, hpc, hmod, hst, hend⟩
    split
    · next ht => exact hst ht
    · split
      · next htn => exact hend htn
      · split
        · next ht => exact hends hp hpc (hmod.eq.trans ht)
        · next ht =>
          rcases hpc.lt_or_eq with hlt | rfl
          · exact (emod_eq_of_lt hp hlt).symm.trans hmod.eq
          · exact absurd (hmod.eq.symm.trans hself) ht

theorem IsPosition.bounds {c n p : Int} {reverse : Bool} (hc : 0 < c) (hn : 0 < n * c)
    (h : IsPosition c n reverse t p) : 0 ≤ p ∧ p ≤ c := by
  cases reverse with
  | true =>
    rw [IsPosition, if_pos rfl] at h
    exact h ▸ ⟨triangle_nonneg hc, triangle_le⟩
  | false =>
    obtain ⟨hp, hpc, -⟩ := (isPosition_straight_iff hc hn).mp h
    exact ⟨hp, hpc⟩

theorem triangle_phase (hc : 0 < e.cycleTicks) (hpos : 0 ≤ e.pos) (hle : e.pos ≤ e.cycleTicks) :
    triangle e.cycleTicks e.phase = e.pos := by
  unfold phase
  split
  · exact triangle_of_mem hpos hle
  · rw [triangle_neg hc, triangle_of_mem hpos hle]

theorem triangle_signedTime (hc : 0 < e.cycleTicks) (t : Int) :
    triangle e.cycleTicks (e.signedTime t) = triangle e.cycleTicks t := by
  unfold signedTime
  split
  · exact triangle_neg hc
  · rfl

theorem Stops.aligned (hc : 0 < e.cycleTicks) (hpos : 0 ≤ e.pos) (hle : e.pos ≤ e.cycleTicks)
    (h : e.Stops true rest) (halign : e.phase + rest ≡ 0 [ZMOD e.cycleTicks]) :
    rest = 0 ∧ e.distance = 0 := by
  rcases h with ⟨hrest, hmore⟩ | ⟨-, hrest, hdist⟩
  · have hpositive := hmore rfl
    obtain ⟨q, hq⟩ := modEq_zero_iff_dvd.mp halign
    unfold distance at hrest
    unfold phase at hq
    exfalso
    split at hrest
    · next hup =>
      rw [if_pos hup] at hq
      have hq0 : 0 < q := by by_contra hle; have := mul_nonpos_of_nonneg_of_nonpos hc.le (not_lt.mp hle); omega
      have hq1 : q < 1 := by by_contra hge; have := mul_le_mul_of_nonneg_left (not_lt.mp hge) hc.le; omega
      omega
    · next hup =>
      rw [if_neg hup] at hq
      have hq0 : q < 0 := by by_contra hge; have := mul_nonneg hc.le (not_lt.mp hge); omega
      have hq1 : -1 < q := by by_contra hle; have := mul_le_mul_of_nonneg_left (not_lt.mp hle) hc.le; omega
      omega
  · exact ⟨hrest, hdist⟩

theorem timeAfter_zero (e : FiniteClipEnvelope) (t : Int) : e.timeAfter t 0 = t := by
  unfold timeAfter
  split <;> omega

theorem signedTime_timeAfter (e : FiniteClipEnvelope) (t d : Int) :
    e.signedTime (e.timeAfter t d) = e.signedTime t + d := by
  unfold signedTime timeAfter
  split <;> omega

theorem ticksAt_bounds {t d : Int} (ht : 0 ≤ t) (htn : t ≤ e.totalTicks)
    (hlow : 0 ≤ e.timeAfter t d) (hhigh : e.timeAfter t d ≤ e.totalTicks) :
    0 ≤ e.ticksAt t ∧ e.ticksAt t + d ≤ e.totalTicks := by
  unfold timeAfter at hlow hhigh
  rw [ticksAt]
  split <;> rename_i hsign
  · rw [if_pos hsign] at hlow hhigh
    omega
  · rw [if_neg hsign] at hlow hhigh
    omega

theorem ticksAt_end_iff (htotal : e.totalTicks = e.cycleCount * e.cycleTicks) (t d : Int) :
    e.ticksAt t + d = e.totalTicks ↔
      e.timeAfter t d = if e.rate < 0 then 0 else e.cycleCount * e.cycleTicks := by
  rw [ticksAt, timeAfter]
  split <;> omega

theorem timePulse_isPosition {t d : Int} (hrate : e.rate = 1 ∨ e.rate = -1) (hc : 0 < e.cycleTicks)
    (hn : 2 ≤ e.cycleCount) (hfits : e.Fits) (hticks : e.ticks = e.ticksAt t)
    (hdelta : e.deltaTicks = e.ticks) (ht : 0 ≤ t) (htn : t ≤ e.totalTicks)
    (hposition : IsPosition e.cycleTicks e.cycleCount e.autoReverse t e.pos)
    (hphase : e.phase ≡ e.signedTime t [ZMOD e.period]) (hmoving : e.currentRate ≠ 0)
    (hstraight : e.autoReverse = false → e.currentRate = e.rate) (hd : 0 ≤ d) (hd53 : d ≤ 2 ^ 53)
    (hlow : 0 ≤ e.timeAfter t d) (hhigh : e.timeAfter t d ≤ e.totalTicks) :
    ∃ e', e.timePulse noAbort d = some e' ∧
      IsPosition e.cycleTicks e.cycleCount e.autoReverse (e.timeAfter t d) e'.pos := by
  have hnc : 0 < e.cycleCount * e.cycleTicks := mul_pos (by omega) hc
  obtain ⟨hpos, hle⟩ := hposition.bounds hc hnc
  have habs : |e.rate| = 1 := by rcases hrate with h | h <;> rw [h] <;> norm_num
  have hst : 0 ≤ e.ticks ∧ e.ticks + d ≤ e.totalTicks := by
    rw [hticks]
    exact ticksAt_bounds ht htn hlow hhigh
  obtain ⟨e', rest, hpulse, hwalk, hzero, hinner, hlast⟩ :=
    timePulse_walked habs hc hpos hle hmoving hdelta hst.1 hd hd53 hst.2
  refine ⟨e', hpulse, ?_⟩
  by_cases hd0 : d = 0
  · rwa [hzero hd0, hd0, timeAfter_zero]
  have hphase' : e'.phase + rest ≡ e.signedTime (e.timeAfter t d) [ZMOD e.period] := by
    rw [signedTime_timeAfter]
    exact hwalk.phase.trans (hphase.add_right d)
  have hcycle : e'.cycleTicks = e.cycleTicks := hwalk.cycleTicks
  have hpos' := hwalk.pos_nonneg
  have hle' : e'.pos ≤ e.cycleTicks := hwalk.pos_le
  have hend : e.ticks + d = e.totalTicks ↔
      e.timeAfter t d = if e.rate < 0 then 0 else e.cycleCount * e.cycleTicks := by
    rw [hticks]
    exact ticksAt_end_iff (hfits.totalTicks hc hn) t d
  obtain ⟨rfl, hstop⟩ : rest = 0 ∧ (e.ticks + d = e.totalTicks → e'.distance = 0) := by
    rcases hst.2.lt_or_eq with hlt | heq
    · exact ⟨hinner hlt, fun h => by omega⟩
    · have halign : e.signedTime (e.timeAfter t d) ≡ 0 [ZMOD e.cycleTicks] := by
        rw [hend.mp heq, signedTime]
        split
        · exact Int.ModEq.refl _
        · exact (mul_emod_left _ _).trans (zero_emod _).symm
      have hdvd : e.cycleTicks ∣ e.period := by
        unfold period
        split
        · exact dvd_mul_left _ _
        · exact dvd_refl _
      have hstops := (hlast hd0 heq).aligned (hcycle ▸ hc) hpos' (hcycle ▸ hle')
        (hcycle ▸ (hphase'.of_dvd hdvd).trans halign)
      exact ⟨hstops.1, fun _ => hstops.2⟩
  rw [add_zero] at hphase'
  cases hrev : e.autoReverse with
  | true =>
    rw [period, if_pos hrev] at hphase'
    rw [IsPosition, if_pos rfl, ← triangle_signedTime hc, ← triangle_congr hphase', ← hcycle]
    exact (triangle_phase (hcycle ▸ hc) hpos' (hcycle ▸ hle')).symm
  | false =>
    have hcur : e'.currentRate = e.rate := (hwalk.straight hrev).trans (hstraight hrev)
    have hsign : 0 < e'.currentRate ↔ ¬ e.rate < 0 := by
      rw [hcur]
      rcases hrate with h | h <;> rw [h] <;> norm_num
    rw [period, if_neg (by simp [hrev]), phase, if_congr hsign rfl rfl, ite_not,
      signedTime] at hphase'
    rw [isPosition_straight_iff hc hnc]
    refine ⟨hpos', hle', ?_, ?_, ?_⟩
    · split at hphase'
      · simpa using hphase'.neg
      · exact hphase'
    · -- a later time is the start only when the play runs backwards
      intro hfst
      have hback : e.rate < 0 := by
        by_contra hsign0
        rw [timeAfter, if_neg hsign0] at hfst
        omega
      have hdist := hstop (hend.mpr (by rw [hfst, if_pos hback]))
      rwa [distance, if_neg (fun h => hsign.mp h hback)] at hdist
    · -- and the end only when it runs forwards
      intro hfinal
      have hfwd : ¬ e.rate < 0 := by
        intro hback
        rw [timeAfter, if_pos hback, ← hfits.totalTicks hc hn] at hfinal
        omega
      have hdist := hstop (hend.mpr (by rw [hfinal, if_neg hfwd]))
      rw [distance, if_pos (hsign.mpr hfwd), hcycle] at hdist
      omega

/-! ## Jumps -/

/-- The position a jump computes from the new tick count. -/
def placedPosition (e : FiniteClipEnvelope) (ticks : Int) : Int :=
  if e.autoReverse then
    if e.rate < 0 then e.cycleTicks - triangle e.cycleTicks ticks else triangle e.cycleTicks ticks
  else if e.rate < 0 then e.cycleTicks - ticks % e.cycleTicks
  else if ticks % e.cycleTicks = 0 ∧ 0 < ticks then e.cycleTicks
  else ticks % e.cycleTicks

/-- What a jump leaves behind. -/
structure JumpedTo (e : FiniteClipEnvelope) (t : Int) (e' : FiniteClipEnvelope) : Prop where
  rate : e'.rate = e.rate
  cycleTicks : e'.cycleTicks = e.cycleTicks
  cycleCount : e'.cycleCount = e.cycleCount
  autoReverse : e'.autoReverse = e.autoReverse
  ticks : e'.ticks = e.ticksAt t
  pos : e'.pos = if e.ticks = e.ticksAt t then e.pos else e.placedPosition (e.ticksAt t)

theorem placeAt_config (e : FiniteClipEnvelope) :
    (e.placeAt noAbort).rate = e.rate ∧ (e.placeAt noAbort).cycleTicks = e.cycleTicks ∧
      (e.placeAt noAbort).cycleCount = e.cycleCount ∧
      (e.placeAt noAbort).autoReverse = e.autoReverse ∧ (e.placeAt noAbort).ticks = e.ticks := by
  unfold placeAt
  dsimp only
  split
  · split <;> split <;> exact ⟨rfl, rfl, rfl, rfl, rfl⟩
  · exact ⟨rfl, rfl, rfl, rfl, rfl⟩

theorem abortCurrentPulse_config (e : FiniteClipEnvelope) : e.abortCurrentPulse.rate = e.rate ∧
    e.abortCurrentPulse.cycleTicks = e.cycleTicks ∧
    e.abortCurrentPulse.cycleCount = e.cycleCount ∧
    e.abortCurrentPulse.autoReverse = e.autoReverse ∧
    e.abortCurrentPulse.ticks = e.ticks ∧ e.abortCurrentPulse.pos = e.pos := by
  unfold abortCurrentPulse
  split <;> exact ⟨rfl, rfl, rfl, rfl, rfl, rfl⟩

theorem placeAt_pos (hrate : e.rate = 1 ∨ e.rate = -1) (hc : 0 < e.cycleTicks)
    (htwo : long (2 * e.cycleTicks) = 2 * e.cycleTicks) :
    (e.placeAt noAbort).pos = e.placedPosition e.ticks := by
  have hhigh := emod_lt_of_pos e.ticks hc
  have hsign : decide (0 < e.rate) = !decide (e.rate < 0) := by
    rcases hrate with h | h <;> rw [h] <;> decide
  unfold placeAt placedPosition
  rw [htwo]
  by_cases hrev : e.autoReverse = true
  · rw [if_pos hrev, if_pos hrev, triangle_eq hc, hsign]
    dsimp only
    by_cases hback : e.rate < 0
    · rw [if_pos hback, decide_eq_true hback]
      by_cases hlt : e.ticks % (2 * e.cycleTicks) < e.cycleTicks
      · rw [decide_eq_true hlt, if_neg (by decide), if_pos hlt]
        split <;> rfl
      · rw [decide_eq_false hlt, if_pos (by decide), if_neg hlt, sub_sub_cancel]
        split <;> rfl
    · rw [if_neg hback, decide_eq_false hback]
      by_cases hlt : e.ticks % (2 * e.cycleTicks) < e.cycleTicks
      · rw [decide_eq_true hlt, if_pos (by decide), if_pos hlt]
        split <;> rfl
      · rw [decide_eq_false hlt, if_neg (by decide), if_neg hlt]
        split <;> rfl
  · rw [if_neg hrev, if_neg hrev]
    dsimp only
    by_cases hback : e.rate < 0
    · rw [if_pos hback, if_pos hback, if_neg (by omega)]
    · rw [if_neg hback, if_neg hback]

theorem jumpedTo (hrate : e.rate = 1 ∨ e.rate = -1) (hc : 0 < e.cycleTicks)
    (htwo : long (2 * e.cycleTicks) = 2 * e.cycleTicks) (ht : 0 ≤ t) (htn : t ≤ e.totalTicks) :
    e.JumpedTo t (e.jumpTo noAbort t) := by
  have hbounds : checkBounds (if e.rate < 0 then long (e.totalTicks - t) else t) e.totalTicks =
      e.ticksAt t := by
    have hbound := (long_bounds (e.cycleCount * e.cycleTicks)).2
    rw [← e.totalTicks_eq] at hbound
    rw [long_eq (by omega) (by omega)]
    unfold checkBounds ticksAt
    split <;> omega
  unfold jumpTo
  rw [if_neg hc.ne']
  simp only [hbounds]
  by_cases hsame : e.ticksAt t - e.ticks = 0
  · rw [if_pos hsame]
    exact ⟨rfl, rfl, rfl, rfl, rfl, (if_pos (by omega)).symm⟩
  · rw [if_neg hsame]
    generalize he1 : ({ e with
      ticks := e.ticksAt t, deltaTicks := long (e.deltaTicks + (e.ticksAt t - e.ticks)) } :
      FiniteClipEnvelope) = e1
    obtain ⟨hr, hcy, hco, hre, hti⟩ := placeAt_config e1
    have hpos := @placeAt_pos e1 (he1 ▸ hrate) (he1 ▸ hc) (he1 ▸ htwo)
    obtain ⟨har, hacy, haco, hare, hati, hap⟩ := abortCurrentPulse_config
      (tell noAbort (e1.placeAt noAbort) (.jumpTo (e1.placeAt noAbort).pos
        (e1.placeAt noAbort).cycleTicks false))
    subst he1
    refine ⟨har.trans hr, hacy.trans hcy, haco.trans hco, hare.trans hre, hati.trans hti, ?_⟩
    rw [if_neg (by omega)]
    exact hap.trans hpos

section

variable (htotal : e.totalTicks = e.cycleCount * e.cycleTicks)
include htotal

theorem ticksAt_modEq_even (hback : e.rate < 0) (heven : e.cycleCount % 2 = 0) :
    e.ticksAt t ≡ -t [ZMOD 2 * e.cycleTicks] := by
  rw [ticksAt, if_pos hback, htotal, modEq_iff_dvd]
  obtain ⟨k, hk⟩ : ∃ k, e.cycleCount = 2 * k := ⟨e.cycleCount / 2, by omega⟩
  exact ⟨-k, by rw [hk]; ring⟩

theorem ticksAt_modEq_odd (hback : e.rate < 0) (hodd : e.cycleCount % 2 = 1) :
    e.ticksAt t ≡ e.cycleTicks - t [ZMOD 2 * e.cycleTicks] := by
  rw [ticksAt, if_pos hback, htotal, modEq_iff_dvd]
  obtain ⟨k, hk⟩ : ∃ k, e.cycleCount = 2 * k + 1 := ⟨e.cycleCount / 2, by omega⟩
  exact ⟨-k, by rw [hk]; ring⟩

end

section

variable (hrate : e.rate = 1 ∨ e.rate = -1)
include hrate

/-- When the position computed by a jump is the one of its time. -/
theorem isPosition_placed_iff (hc : 0 < e.cycleTicks) (hn : 2 ≤ e.cycleCount)
    (htotal : e.totalTicks = e.cycleCount * e.cycleTicks) (ht : 0 ≤ t) :
    IsPosition e.cycleTicks e.cycleCount e.autoReverse t (e.placedPosition (e.ticksAt t)) ↔
      0 < e.rate ∨ (e.autoReverse = false ∧ t ≠ 0) ∨
        (e.autoReverse = true ∧ (e.cycleCount % 2 = 1 ∨ 2 * (t % e.cycleTicks) = e.cycleTicks)) := by
  have hnc : 0 < e.cycleCount * e.cycleTicks := mul_pos (by omega) hc
  have hsign : 0 < e.rate ↔ ¬ e.rate < 0 := by
    rcases hrate with h | h <;> rw [h] <;> norm_num
  rw [hsign]
  unfold placedPosition
  cases hrev : e.autoReverse with
  | true =>
    rw [if_pos rfl, IsPosition, if_pos rfl]
    by_cases hback : e.rate < 0
    · rw [if_pos hback]
      simp only [hback, not_true_eq_false, Bool.true_eq_false, false_and, true_and, false_or]
      rcases emod_two_eq_zero_or_one e.cycleCount with heven | hodd
      · rw [triangle_congr (ticksAt_modEq_even htotal hback heven), triangle_neg hc,
          ← two_mul_triangle_eq_iff hc]
        constructor
        · intro h
          exact Or.inr (by omega)
        · rintro (h | h) <;> omega
      · rw [triangle_congr (ticksAt_modEq_odd htotal hback hodd), triangle_half hc, sub_sub_cancel]
        exact iff_of_true rfl (Or.inl hodd)
    · rw [if_neg hback, ticksAt, if_neg hback]
      exact iff_of_true rfl (Or.inl hback)
  | false =>
    rw [if_neg (by decide), isPosition_straight_iff hc hnc]
    have hlow := emod_nonneg (e.ticksAt t) hc.ne'
    have hhigh := emod_lt_of_pos (e.ticksAt t) hc
    by_cases hback : e.rate < 0
    · rw [if_pos hback]
      simp only [hback, not_true_eq_false, Bool.false_eq_true, false_and, true_and, false_or,
        or_false]
      have hmod : e.cycleTicks - e.ticksAt t % e.cycleTicks ≡ t [ZMOD e.cycleTicks] := by
        refine ((Int.ModEq.refl _).sub (mod_modEq _ _)).trans ?_
        rw [ticksAt, if_pos hback, htotal, modEq_iff_dvd]
        exact ⟨e.cycleCount - 1, by ring⟩
      constructor
      · rintro ⟨-, -, -, hst, -⟩ rfl
        have := hst rfl
        omega
      · intro hne
        refine ⟨by omega, by omega, hmod, fun h => absurd h hne, fun h => ?_⟩
        have hzero : e.ticksAt t = 0 := by
          rw [ticksAt, if_pos hback, htotal, h, sub_self]
        rw [hzero, zero_emod, sub_zero]
    · rw [if_neg hback]
      have htime : e.ticksAt t = t := if_neg hback
      rw [htime] at hlow hhigh ⊢
      refine iff_of_true ?_ (Or.inl hback)
      split
      · next h =>
        exact ⟨hc.le, le_refl _, emod_self.trans h.1.symm, fun h0 => by omega, fun _ => rfl⟩
      · next h =>
        refine ⟨hlow, hhigh.le, mod_modEq _ _, fun h0 => by rw [h0, zero_emod], ?_⟩
        intro hlast
        exact absurd ⟨by rw [hlast]; exact mul_emod_left _ _, by omega⟩ h

section

variable (htwo : long (2 * e.cycleTicks) = 2 * e.cycleTicks)
include htwo

theorem calculateCurrentRate_reverse (hrev : e.autoReverse = true) :
    e.calculateCurrentRate = if e.ticks % (2 * e.cycleTicks) < e.cycleTicks then 1 else -1 := by
  unfold calculateCurrentRate
  rw [if_neg (by simp [hrev]), htwo]
  by_cases hlt : e.ticks % (2 * e.cycleTicks) < e.cycleTicks
  · rcases hrate with h | h <;> rw [h, if_pos hlt, decide_eq_true hlt] <;> norm_num
  · rcases hrate with h | h <;> rw [h, if_neg hlt, decide_eq_false hlt] <;> norm_num

theorem start_phase (hrev : e.autoReverse = true) : (e.start noAbort).phase =
      if e.ticks % (2 * e.cycleTicks) < e.cycleTicks then e.pos else -e.pos := by
  show (if 0 < e.calculateCurrentRate then e.pos else -e.pos) = _
  rw [calculateCurrentRate_reverse hrate htwo hrev]
  by_cases hlt : e.ticks % (2 * e.cycleTicks) < e.cycleTicks
  · rw [if_pos hlt, if_pos hlt, if_pos zero_lt_one]
  · rw [if_neg hlt, if_neg hlt, if_neg (by norm_num)]

end

section

variable (hfits : e.Fits) (hc : 0 < e.cycleTicks) (hn : 2 ≤ e.cycleCount)
  (hrev : e.autoReverse = true) (hticks : e.ticks = e.ticksAt t)
  (hpos : e.pos = triangle e.cycleTicks t)
include hfits hc hn hrev hticks hpos

theorem start_phase_modEq (hright : 0 < e.rate ∨ e.cycleCount % 2 = 0) :
    (e.start noAbort).phase ≡ e.signedTime t [ZMOD 2 * e.cycleTicks] := by
  have hsame : triangle e.cycleTicks e.ticks = e.pos ∧
      e.ticks ≡ e.signedTime t [ZMOD 2 * e.cycleTicks] := by
    rw [hpos, hticks, signedTime]
    by_cases hback : e.rate < 0
    · have heven := ticksAt_modEq_even (hfits.totalTicks hc hn) hback (t := t) (hright.resolve_left (not_lt.mpr hback.le))
      rw [if_pos hback, triangle_congr heven, triangle_neg hc]
      exact ⟨rfl, heven⟩
    · rw [if_neg hback, ticksAt, if_neg hback]
      exact ⟨rfl, Int.ModEq.refl _⟩
  rw [start_phase hrate (hfits.two_cycles hc hn) hrev, ← hsame.1]
  exact signed_triangle_modEq.trans hsame.2

/-- Backwards over an odd number of cycles it takes the opposite one. -/
theorem start_phase_modEq_odd (hback : e.rate < 0) (hodd : e.cycleCount % 2 = 1) :
    (e.start noAbort).phase ≡ t [ZMOD 2 * e.cycleTicks] := by
  have hmod : e.ticks ≡ e.cycleTicks - t [ZMOD 2 * e.cycleTicks] :=
    hticks ▸ ticksAt_modEq_odd (hfits.totalTicks hc hn) hback hodd
  have hheight : e.pos = e.cycleTicks - triangle e.cycleTicks e.ticks := by
    rw [triangle_congr hmod, triangle_half hc, sub_sub_cancel, hpos]
  have htime : e.cycleTicks - e.ticks ≡ t [ZMOD 2 * e.cycleTicks] := by
    have := (Int.ModEq.refl e.cycleTicks).sub hmod
    rwa [sub_sub_cancel] at this
  rw [start_phase hrate (hfits.two_cycles hc hn) hrev, hheight]
  refine Int.ModEq.trans ?_ htime
  have hsigned := @signed_triangle_modEq e.cycleTicks e.ticks
  split
  · next hlt =>
    rw [if_pos hlt] at hsigned
    exact (Int.ModEq.refl _).sub hsigned
  · next hlt =>
    rw [if_neg hlt] at hsigned
    have hhalf : -e.cycleTicks ≡ e.cycleTicks [ZMOD 2 * e.cycleTicks] := by
      rw [modEq_iff_dvd]
      exact ⟨1, by ring⟩
    have := hhalf.sub hsigned
    rwa [show -e.cycleTicks - -triangle e.cycleTicks e.ticks =
      -(e.cycleTicks - triangle e.cycleTicks e.ticks) by ring] at this

end

end

/-! ## Jumping and playing -/

/-- A jump and the pulses after it report their positions. -/
def JumpAgrees (e : FiniteClipEnvelope) (t : Int) : Prop :=
  IsPosition e.cycleTicks e.cycleCount e.autoReverse t (e.jumpTo noAbort t).pos ∧
    ∀ d, 0 ≤ d → d < 2 ^ 63 → 0 ≤ e.timeAfter t d →
      e.timeAfter t d ≤ e.cycleCount * e.cycleTicks →
      ∃ e', ((e.jumpTo noAbort t).start noAbort).timePulse noAbort d = some e' ∧
        IsPosition e.cycleTicks e.cycleCount e.autoReverse (e.timeAfter t d) e'.pos

/-- The ticks of play that are left. -/
def playLeft (e : FiniteClipEnvelope) (t : Int) : Int :=
  if e.rate < 0 then t else e.cycleCount * e.cycleTicks - t

/-- `long` and `double` keep all ticks; a jump to the present tick needs the position right, and
    `start` the direction. -/
def JumpsRight (e : FiniteClipEnvelope) (t : Int) : Prop :=
  (e.Fits ∧ e.playLeft t ≤ 2 ^ 53) ∧
    (if e.ticks = e.ticksAt t then
        IsPosition e.cycleTicks e.cycleCount e.autoReverse t e.pos
      else 0 < e.rate ∨ (e.autoReverse = false ∧ t ≠ 0) ∨
        (e.autoReverse = true ∧ (e.cycleCount % 2 = 1 ∨ 2 * (t % e.cycleTicks) = e.cycleTicks))) ∧
    (0 < e.rate ∨ e.autoReverse = false ∨ e.cycleCount % 2 = 0 ∨ t % e.cycleTicks = 0)

instance (e : FiniteClipEnvelope) (t : Int) : Decidable (e.JumpsRight t) := by
  unfold JumpsRight
  infer_instance

/-- At a whole number of cycles both directions are the same phase. -/
theorem neg_modEq_of_emod_eq_zero {c : Int} (h : t % c = 0) : t ≡ -t [ZMOD 2 * c] := by
  obtain ⟨q, rfl⟩ := dvd_of_emod_eq_zero h
  rw [modEq_iff_dvd]
  exact ⟨-q, by ring⟩

theorem start_phase_right (hrate : e.rate = 1 ∨ e.rate = -1) (hc : 0 < e.cycleTicks)
    (hn : 2 ≤ e.cycleCount) (hfits : e.Fits) (hticks : e.ticks = e.ticksAt t)
    (hposition : IsPosition e.cycleTicks e.cycleCount e.autoReverse t e.pos)
    (hright : 0 < e.rate ∨ e.autoReverse = false ∨ e.cycleCount % 2 = 0 ∨ t % e.cycleTicks = 0) :
    (e.start noAbort).phase ≡ e.signedTime t [ZMOD e.period] := by
  cases hrev : e.autoReverse with
  | true =>
    rw [hrev, IsPosition, if_pos rfl] at hposition
    rw [period, if_pos hrev]
    by_cases heven : 0 < e.rate ∨ e.cycleCount % 2 = 0
    · exact start_phase_modEq hrate hfits hc hn hrev hticks hposition heven
    · obtain ⟨hsign, hodd⟩ := not_or.mp heven
      have hback : e.rate < 0 := by
        rcases hrate with h | h
        · exact absurd (h ▸ zero_lt_one) hsign
        · rw [h]; norm_num
      have hwhole : t % e.cycleTicks = 0 := by
        rcases hright with h | h | h | h
        · exact absurd h hsign
        · rw [hrev] at h; cases h
        · exact absurd h hodd
        · exact h
      rw [signedTime, if_pos hback]
      exact (start_phase_modEq_odd hrate hfits hc hn hrev hticks hposition hback (by omega)).trans
        (neg_modEq_of_emod_eq_zero hwhole)
  | false =>
    have hnc : 0 < e.cycleCount * e.cycleTicks := mul_pos (by omega) hc
    rw [hrev, isPosition_straight_iff hc hnc] at hposition
    have hrate' : e.calculateCurrentRate = e.rate := if_pos (by simp [hrev])
    rw [period, if_neg (by simp [hrev]), signedTime]
    show (if 0 < e.calculateCurrentRate then e.pos else -e.pos) ≡ _ [ZMOD _]
    rw [hrate']
    rcases hrate with h | h
    · rw [h, if_pos zero_lt_one, if_neg (by norm_num)]
      exact hposition.2.2.1
    · rw [h, if_neg (by norm_num), if_pos (by norm_num)]
      exact hposition.2.2.1.neg

theorem timePulse_wrong (hrate : e.rate = 1 ∨ e.rate = -1) (hc : 0 < e.cycleTicks)
    (hn : 2 ≤ e.cycleCount) (hfits : e.Fits) (ht : 0 ≤ t) (htn : t ≤ e.totalTicks)
    (hrev : e.autoReverse = true) (hticks : e.ticks = e.ticksAt t)
    (hpos : e.pos = triangle e.cycleTicks t) (hback : e.rate < 0) (hodd : e.cycleCount % 2 = 1)
    (hinside : t % e.cycleTicks ≠ 0) :
    ∃ e', (e.start noAbort).timePulse noAbort 1 = some e' ∧
      e'.pos ≠ triangle e.cycleTicks (t - 1) := by
  have hphase := start_phase_modEq_odd hrate hfits hc hn hrev hticks hpos hback hodd
  have ht0 : t ≠ 0 := by
    rintro rfl
    exact hinside (zero_emod _)
  have hticks' : e.ticks = e.totalTicks - t := by rw [hticks, ticksAt, if_pos hback]
  have hmoving : (e.start noAbort).currentRate ≠ 0 := by
    show e.calculateCurrentRate ≠ 0
    rw [calculateCurrentRate_reverse hrate (hfits.two_cycles hc hn) hrev]
    split <;> norm_num
  obtain ⟨e', rest, hpulse, hwalk, -, hinner, -⟩ := @timePulse_walked (e.start noAbort) 1
    (by show |e.rate| = 1; rcases hrate with h | h <;> rw [h] <;> norm_num) hc
    (by show 0 ≤ e.pos; rw [hpos]; exact triangle_nonneg hc)
    (by show e.pos ≤ e.cycleTicks; rw [hpos]; exact triangle_le) hmoving rfl
    (by show 0 ≤ e.ticks; omega) zero_le_one (by norm_num) (by show e.ticks + 1 ≤ e.totalTicks; omega)
  refine ⟨e', hpulse, fun hsame => ?_⟩
  have hcycle : e'.cycleTicks = e.cycleTicks := hwalk.cycleTicks
  have hpos' := hwalk.pos_nonneg
  have hle' : e'.pos ≤ e.cycleTicks := hwalk.pos_le
  have hphase' : e'.phase + rest ≡ t + 1 [ZMOD 2 * e.cycleTicks] := by
    have hperiod : (e.start noAbort).period = 2 * e.cycleTicks := if_pos hrev
    exact (hperiod ▸ hwalk.phase).trans (hphase.add_right 1)
  have hheight := triangle_phase (hcycle ▸ hc) hpos' (hcycle ▸ hle')
  by_cases hlast : t = 1
  · -- the pulse ends the play, where nothing but a position other than 0 is reached
    subst hlast
    have htwo : 2 ≤ e.cycleTicks := by
      by_contra hlt
      exact hinside (by rw [show e.cycleTicks = 1 by omega]; rfl)
    have hzero : e'.pos = 0 := by
      rw [hsame, sub_self, triangle_of_mem (le_refl 0) hc.le]
    have hrest0 := hwalk.rest_nonneg
    have hrest1 := hwalk.rest_le
    rw [phase, hzero, neg_zero, ite_self, zero_add] at hphase'
    have hmod := hphase'.eq
    rw [emod_eq_of_lt hrest0 (by omega), emod_eq_of_lt (by norm_num) (by omega)] at hmod
    omega
  · rw [hinner (by show e.ticks + 1 < e.totalTicks; omega), add_zero] at hphase'
    rw [hcycle, triangle_congr hphase'] at hheight
    exact triangle_succ_ne_pred hc hinside (hheight.trans hsame)

/-- Later positions are reached if `start` finds the direction. -/
theorem start_reaches_iff {t : Int} (hrate : e.rate = 1 ∨ e.rate = -1) (hc : 0 < e.cycleTicks)
    (hn : 2 ≤ e.cycleCount) (hfits : e.Fits) (hexact : e.playLeft t ≤ 2 ^ 53) (ht : 0 ≤ t)
    (htn : t ≤ e.cycleCount * e.cycleTicks) (hticks : e.ticks = e.ticksAt t)
    (hposition : IsPosition e.cycleTicks e.cycleCount e.autoReverse t e.pos) :
    (∀ d, 0 ≤ d → d < 2 ^ 63 → 0 ≤ e.timeAfter t d →
      e.timeAfter t d ≤ e.cycleCount * e.cycleTicks →
      ∃ e', (e.start noAbort).timePulse noAbort d = some e' ∧
        IsPosition e.cycleTicks e.cycleCount e.autoReverse (e.timeAfter t d) e'.pos) ↔
      (0 < e.rate ∨ e.autoReverse = false ∨ e.cycleCount % 2 = 0 ∨ t % e.cycleTicks = 0) := by
  have htotal := hfits.totalTicks hc hn
  constructor
  · intro hall
    by_contra hwrong
    simp only [not_or, Bool.not_eq_false] at hwrong
    obtain ⟨hsign, hrev, hodd, hinside⟩ := hwrong
    have hback : e.rate < 0 := by
      rcases hrate with h | h
      · exact absurd (h ▸ zero_lt_one) hsign
      · rw [h]; norm_num
    have ht0 : t ≠ 0 := by
      rintro rfl
      exact hinside (zero_emod _)
    have htime : e.timeAfter t 1 = t - 1 := if_pos hback
    rw [hrev, IsPosition, if_pos rfl] at hposition
    obtain ⟨e', hpulse, hne⟩ := timePulse_wrong hrate hc hn hfits ht (by omega) hrev hticks
      hposition hback (by omega) hinside
    obtain ⟨e'', hpulse', hright⟩ := hall 1 zero_le_one (by norm_num) (by omega) (by omega)
    rw [hrev, IsPosition, if_pos rfl, htime] at hright
    obtain rfl : e' = e'' := Option.some.inj (hpulse.symm.trans hpulse')
    exact hne hright
  · intro hright d hd _ hlow hhigh
    have hd53 : d ≤ 2 ^ 53 := by
      unfold playLeft at hexact
      unfold timeAfter at hlow hhigh
      split at hexact <;> rename_i hsign
      · rw [if_pos hsign] at hlow
        omega
      · rw [if_neg hsign] at hhigh
        omega
    have hmoving : (e.start noAbort).currentRate ≠ 0 := by
      show e.calculateCurrentRate ≠ 0
      unfold calculateCurrentRate
      rcases hrate with h | h <;> rw [h] <;> split_ifs <;> norm_num
    exact @timePulse_isPosition (e.start noAbort) t d hrate hc hn hfits hticks rfl ht
      (htn.trans_eq htotal.symm) hposition
      (start_phase_right hrate hc hn hfits hticks hposition hright) hmoving
      (fun hrev => if_pos (by rw [Bool.not_eq_true']; exact hrev)) hd hd53 hlow
      (hhigh.trans_eq htotal.symm)

theorem jumpTo_config (e : FiniteClipEnvelope) (t : Int) :
    (e.jumpTo noAbort t).rate = e.rate ∧ (e.jumpTo noAbort t).totalTicks = e.totalTicks := by
  have hconfig : ∀ e1 : FiniteClipEnvelope, e1.rate = e.rate → e1.cycleTicks = e.cycleTicks →
      e1.cycleCount = e.cycleCount → e1.rate = e.rate ∧ e1.totalTicks = e.totalTicks := by
    intro e1 hrate hcycle hcount
    exact ⟨hrate, by rw [e1.totalTicks_eq, e.totalTicks_eq, hcycle, hcount]⟩
  unfold jumpTo
  by_cases hc : e.cycleTicks = 0
  · rw [if_pos hc]
    exact ⟨rfl, rfl⟩
  rw [if_neg hc]
  dsimp only
  generalize checkBounds _ _ = ticks
  by_cases hsame : ticks - e.ticks = 0
  · rw [if_pos hsame]
    exact ⟨rfl, rfl⟩
  rw [if_neg hsame]
  generalize he1 : ({ e with
    ticks := ticks, deltaTicks := long (e.deltaTicks + (ticks - e.ticks)) } :
    FiniteClipEnvelope) = e1
  obtain ⟨hr, hcy, hco, -⟩ := placeAt_config e1
  obtain ⟨har, hacy, haco, -⟩ := abortCurrentPulse_config
    (tell noAbort (e1.placeAt noAbort) (.jumpTo (e1.placeAt noAbort).pos
      (e1.placeAt noAbort).cycleTicks false))
  subst he1
  exact hconfig _ (har.trans hr) (hacy.trans hcy) (haco.trans hco)

theorem IsPosition.not_succ {c n p : Int} {reverse : Bool} (hc : 2 ≤ c) (hnc : 0 < n * c)
    (h : IsPosition c n reverse t p) : ¬ IsPosition c n reverse (t + 1) p := by
  intro h'
  cases reverse with
  | true =>
    rw [IsPosition, if_pos rfl] at h h'
    exact triangle_succ_ne (t := t) (by omega) (h'.symm.trans h)
  | false =>
    rw [isPosition_straight_iff (by omega) hnc] at h h'
    have hone : c ∣ t + 1 - t := modEq_iff_dvd.mp (h.2.2.1.symm.trans h'.2.2.1)
    have hle := le_of_dvd (by omega) hone
    omega

/-- Two times that follow each other are not reached by the same pulse. -/
theorem JumpAgrees.tickAt_ne {d : Int} (h : e.JumpAgrees t) (hc : 2 ≤ e.cycleTicks)
    (hn : 2 ≤ e.cycleCount) (ht : 0 ≤ t) (htn : t ≤ e.cycleCount * e.cycleTicks) (hd : 0 ≤ d)
    (hlong : d + 1 < 2 ^ 63) (hleft : d + 1 ≤ e.playLeft t) :
    ((e.jumpTo noAbort t).start noAbort).tickAt d ≠
      ((e.jumpTo noAbort t).start noAbort).tickAt (d + 1) := by
  intro hsame
  have hnc : 0 < e.cycleCount * e.cycleTicks := mul_pos (by omega) (by omega)
  have hin : ∀ d', 0 ≤ d' → d' ≤ d + 1 →
      0 ≤ e.timeAfter t d' ∧ e.timeAfter t d' ≤ e.cycleCount * e.cycleTicks := by
    intro d' hd' hle
    unfold playLeft at hleft
    unfold timeAfter
    split <;> rename_i hsign
    · rw [if_pos hsign] at hleft
      omega
    · rw [if_neg hsign] at hleft
      omega
  obtain ⟨hlow1, hhigh1⟩ := hin d hd (by omega)
  obtain ⟨hlow2, hhigh2⟩ := hin (d + 1) (by omega) (le_refl _)
  obtain ⟨e1, hpulse1, hpos1⟩ := h.2 d hd (by omega) hlow1 hhigh1
  obtain ⟨e2, hpulse2, hpos2⟩ := h.2 (d + 1) (by omega) hlong hlow2 hhigh2
  have hpulses : ((e.jumpTo noAbort t).start noAbort).timePulse noAbort d =
      ((e.jumpTo noAbort t).start noAbort).timePulse noAbort (d + 1) := by
    unfold timePulse
    rw [hsame]
  obtain rfl : e1 = e2 := Option.some.inj (hpulse1.symm.trans (hpulses.trans hpulse2))
  unfold timeAfter at hpos1 hpos2
  split at hpos1 <;> rename_i hsign
  · rw [if_pos hsign] at hpos2
    exact hpos2.not_succ hc hnc (by rwa [show t - (d + 1) + 1 = t - d by omega])
  · rw [if_neg hsign] at hpos2
    exact hpos1.not_succ hc hnc (by rwa [add_assoc])

/-- Where a jump agrees with play, the ticks that are left are kept by a `double`. -/
theorem JumpAgrees.playLeft_le (h : e.JumpAgrees t) (hrate : e.rate = 1 ∨ e.rate = -1)
    (hc : 0 < e.cycleTicks) (hn : 2 ≤ e.cycleCount) (hint : e.cycleCount < 2 ^ 31) (ht : 0 ≤ t)
    (htn : t ≤ e.cycleCount * e.cycleTicks) : e.playLeft t ≤ 2 ^ 53 := by
  by_contra hmore
  have hle : e.playLeft t ≤ e.cycleCount * e.cycleTicks := by
    unfold playLeft
    split <;> omega
  have htwo : 2 ≤ e.cycleTicks := by
    by_contra hone
    rw [show e.cycleTicks = 1 by omega] at hle
    omega
  refine h.tickAt_ne htwo hn ht htn (show 0 ≤ 2 ^ 53 by norm_num) (by norm_num) (by omega) ?_
  have habs : |((e.jumpTo noAbort t).start noAbort).rate| = 1 := by
    show |(e.jumpTo noAbort t).rate| = 1
    rw [(jumpTo_config e t).1]
    rcases hrate with h | h <;> rw [h] <;> norm_num
  rw [tickAt, tickAt, scaledTick_odd habs, scaledTick_eq habs (by norm_num)]

/-- Where a forward jump agrees with play, the product is a `long`. -/
theorem JumpAgrees.fits (h : e.JumpAgrees t) (hforward : 0 < e.rate)
    (hleft : e.playLeft t ≤ 2 ^ 53) (hc : 0 < e.cycleTicks) (hn : 2 ≤ e.cycleCount)
    (hint : e.cycleCount < 2 ^ 31) (ht : 0 ≤ t) (htn : t ≤ e.cycleCount * e.cycleTicks)
    (hlong : t < 2 ^ 63) : e.Fits := by
  by_contra hwraps
  have hbig : 2 ^ 63 ≤ e.cycleCount * e.cycleTicks := not_lt.mp hwraps
  rw [playLeft, if_neg (not_lt.mpr hforward.le)] at hleft
  have htwo : 2 ≤ e.cycleTicks := by
    by_contra hone
    rw [show e.cycleTicks = 1 by omega] at hbig
    omega
  have hneg : e.totalTicks ≤ 0 := by
    rw [e.totalTicks_eq, long, Int.bmod_def]
    omega
  refine h.tickAt_ne htwo hn ht htn (le_refl 0) (by norm_num)
    (by rw [playLeft, if_neg (not_lt.mpr hforward.le)]; omega) ?_
  have hzero : ∀ d, ((e.jumpTo noAbort t).start noAbort).tickAt d = 0 := by
    intro d
    have htotal : ((e.jumpTo noAbort t).start noAbort).totalTicks ≤ 0 :=
      (jumpTo_config e t).2.trans_le hneg
    unfold tickAt checkBounds
    omega
  rw [hzero, hzero]

end OpenJfx.Animation.FiniteClipEnvelope
