/-
  OpenJfx.Animation.FiniteClipEnvelope.ForwardPlay

  Forward play from the start does not depend on how the time is split into pulses: a pulse that
  takes the play from `k` cycle ends to `k'` tells the animation the crossings `k + 1, …, k'`,
  whatever the pulses before it were.  This needs a product of cycle count and cycle length that
  is a `long`, and ticks that a `double` keeps.
-/

import OpenJfx.Animation.FiniteClipEnvelope.Basic
import OpenJfx.Lib.TriangleWave

namespace OpenJfx.Animation.FiniteClipEnvelope

open TriangleWave List

variable {t : Int}

/-! ## Callbacks that never abort -/

/-- Callbacks that never abort the pulse. -/
def noAbort : List AnimationCall → Bool := fun _ => false

variable {e : FiniteClipEnvelope}

@[simp] theorem tell_noAbort (call : AnimationCall) :
    tell noAbort e call = { e with calls := e.calls ++ [call] } := rfl

/-! ## What a forward play looks like -/

/-- The position at time `t` of the play. -/
def playPosition (c n : Int) (autoReverse : Bool) (t : Int) : Int :=
  if autoReverse then triangle c t else if t = n * c then c else t % c

/-- The play runs backwards in the cycle after `k` cycle ends. -/
def Reversed (autoReverse : Bool) (k : Nat) : Prop := autoReverse = true ∧ k % 2 = 1

instance (autoReverse : Bool) (k : Nat) : Decidable (Reversed autoReverse k) :=
  inferInstanceAs (Decidable (_ ∧ _))

/-- The current rate in the cycle after `k` cycle ends. -/
def speed (autoReverse : Bool) (k : Nat) : Rat := if Reversed autoReverse k then -1 else 1

/-- What is told at the end of cycle `k + 1`. -/
def crossing (c n : Int) (autoReverse : Bool) (k : Nat) : List AnimationCall :=
  .playTo (if Reversed autoReverse k then 0 else c) c ::
    if (k : Int) + 1 < n then
      [if autoReverse then .setCurrentRate (speed autoReverse (k + 1)) else .jumpTo 0 c false]
    else []

/-- The crossings of the first `k` cycle ends. -/
def crossings (c n : Int) (autoReverse : Bool) (k : Nat) : List AnimationCall :=
  (List.range k).flatMap (crossing c n autoReverse)

/-- Anything but a play to inside a cycle. -/
def isBoundaryCall : AnimationCall → Bool
  | .playTo pos cycleTicks => pos == 0 || pos == cycleTicks
  | _ => true

/-- The boundary calls of a play from the start to time `t`. -/
def boundaryCalls (c n : Int) (autoReverse : Bool) (t : Int) : List AnimationCall :=
  .setCurrentRate 1 :: crossings c n autoReverse (t / c).toNat ++
    if n * c ≤ t then [.finished] else []

theorem crossings_succ (c n : Int) (autoReverse : Bool) (k : Nat) :
    crossings c n autoReverse (k + 1) =
      crossings c n autoReverse k ++ crossing c n autoReverse k := by
  rw [crossings, range_succ, flatMap_append, flatMap_singleton]
  rfl

theorem filter_crossing (c n : Int) (autoReverse : Bool) (k : Nat) :
    (crossing c n autoReverse k).filter isBoundaryCall = crossing c n autoReverse k := by
  rw [filter_eq_self]
  intro call hcall
  unfold crossing at hcall
  rcases mem_cons.mp hcall with rfl | htail
  · split <;> simp [isBoundaryCall]
  · split at htail
    · rw [mem_singleton] at htail
      split at htail <;> rw [htail] <;> rfl
    · cases htail

theorem speed_pos_iff (autoReverse : Bool) (k : Nat) :
    0 < speed autoReverse k ↔ ¬ Reversed autoReverse k := by
  unfold speed
  split <;> simp_all

theorem reversed_succ (k : Nat) : Reversed true (k + 1) ↔ ¬ Reversed true k := by
  simp only [Reversed, true_and]
  omega

theorem speed_succ (k : Nat) : speed true (k + 1) = -speed true k := by
  unfold speed
  by_cases h : Reversed true k
  · rw [if_pos h, if_neg (fun h' => (reversed_succ k).mp h' h), neg_neg]
  · rw [if_neg h, if_pos ((reversed_succ k).mpr h)]

theorem turn_ticks (e : FiniteClipEnvelope) : (e.turn noAbort).ticks = e.ticks := by
  unfold turn
  split <;> rfl

theorem turn_totalTicks (e : FiniteClipEnvelope) : (e.turn noAbort).totalTicks = e.totalTicks := by
  unfold turn
  split <;> rfl

/-! ## The loop over the cycle ends -/

variable {c n x o : Int} {reverse reachedEnd : Bool} {k rounds : Nat} {pre : List AnimationCall}

/-- The play stands `x` ticks into the cycle after `k` cycle ends. -/
structure InCycle (c n : Int) (reverse : Bool) (k : Nat) (x : Int) (e : FiniteClipEnvelope) :
    Prop where
  rate : e.rate = 1
  cycleTicks : e.cycleTicks = c
  cycleCount : e.cycleCount = n
  autoReverse : e.autoReverse = reverse
  aborted : e.aborted = false
  deltaTicks : e.deltaTicks = 0
  pos : e.pos = if Reversed reverse k then c - x else x
  currentRate : e.currentRate = speed reverse k

/-- The last cycle end has been played and the play has not turned. -/
structure AtEnd (c n : Int) (reverse : Bool) (e : FiniteClipEnvelope) : Prop where
  rate : e.rate = 1
  cycleTicks : e.cycleTicks = c
  cycleCount : e.cycleCount = n
  autoReverse : e.autoReverse = reverse
  aborted : e.aborted = false
  deltaTicks : e.deltaTicks = 0
  pos : e.pos = playPosition c n reverse (n * c)

namespace InCycle

section

variable (h : InCycle c n reverse k x e)
include h

theorem currentRate_pos_iff :
    0 < e.currentRate ↔ ¬ Reversed reverse k := by
  rw [h.currentRate, speed_pos_iff]

theorem cycleDelta_eq : (if 0 < e.currentRate then e.cycleTicks - e.pos else e.pos) = c - x := by
  rw [if_congr h.currentRate_pos_iff rfl rfl, h.pos, h.cycleTicks]
  split <;> simp_all

theorem playCycleEnd_eq : e.playCycleEnd noAbort =
      { e with
        pos := if Reversed reverse k then 0 else c
        calls := e.calls ++ [.playTo (if Reversed reverse k then 0 else c) c] } := by
  unfold playCycleEnd
  simp only [tell_noAbort, h.cycleTicks, if_congr h.currentRate_pos_iff rfl rfl, ite_not]

theorem turn_playCycleEnd (hlast : (k : Int) + 1 < n) :
    InCycle c n reverse (k + 1) 0 ((e.playCycleEnd noAbort).turn noAbort) ∧
      ((e.playCycleEnd noAbort).turn noAbort).calls = e.calls ++ crossing c n reverse k := by
  rw [h.playCycleEnd_eq]
  unfold turn crossing
  rw [if_pos hlast]
  cases reverse with
  | true =>
    simp only [h.autoReverse, if_true, setCurrentRate, tell_noAbort, h.currentRate, ← speed_succ]
    refine ⟨⟨h.rate, h.cycleTicks, h.cycleCount, rfl, h.aborted, h.deltaTicks, ?_, rfl⟩,
      append_assoc _ _ _⟩
    rw [if_congr (reversed_succ k) rfl rfl, ite_not, sub_zero]
  | false =>
    have hfwd : ∀ j, ¬ Reversed false j := fun j hj => by cases hj.1
    have hspeed : ∀ j, speed false j = 1 := fun j => if_neg (hfwd j)
    simp only [h.autoReverse, Bool.false_eq_true, if_false, tell_noAbort, h.currentRate, hspeed,
      h.cycleTicks, if_neg (hfwd k), zero_lt_one, if_true]
    exact ⟨⟨h.rate, rfl, h.cycleCount, rfl, h.aborted, h.deltaTicks,
      (if_neg (hfwd _)).symm, (hspeed _).symm⟩, append_assoc _ _ _⟩

theorem playCycleEnd_last (hc : 0 < c) (hlast : (k : Int) + 1 = n) :
    AtEnd c n reverse (e.playCycleEnd noAbort) ∧
      (e.playCycleEnd noAbort).calls = e.calls ++ crossing c n reverse k := by
  rw [h.playCycleEnd_eq]
  refine ⟨⟨h.rate, h.cycleTicks, h.cycleCount, h.autoReverse, h.aborted, h.deltaTicks, ?_⟩, ?_⟩
  · show (if Reversed reverse k then 0 else c) = playPosition c n reverse (n * c)
    unfold playPosition
    cases reverse with
    | false => rw [if_neg (fun hr => by cases hr.1), if_neg (by decide), if_pos rfl]
    | true =>
      rw [if_pos rfl]
      have hsum : n * c = k * c + c := by rw [← hlast]; ring
      rw [hsum, triangle_cycle hc k hc.le (Int.le_refl c), sub_self]
      simp only [Reversed, true_and]
  · show _ = e.calls ++ crossing c n reverse k
    have hno : ¬ (k : Int) + 1 < n := by omega
    rw [crossing, if_neg hno]

end

end InCycle

/-- The cycle of the new time, or the end, is reached. -/
def LoopOutcome (c n : Int) (reverse : Bool) (t : Int) (pre : List AnimationCall)
    (e : FiniteClipEnvelope) (o : Int) : Prop :=
  (t < n * c ∧ 0 ≤ o ∧ ∃ (k : Nat) (x : Int), InCycle c n reverse k x e ∧ 0 ≤ x ∧ x + o < c ∧
    (k : Int) * c + x + o = t ∧ e.calls.filter isBoundaryCall = pre ++ crossings c n reverse k) ∨
  (t = n * c ∧ o = 0 ∧ AtEnd c n reverse e ∧
    e.calls.filter isBoundaryCall = pre ++ crossings c n reverse n.toNat)

theorem InCycle.cycleLoop_spec (hc : 0 < c) (hend : reachedEnd = decide (n * c ≤ t))
    (ht : t ≤ n * c) :
    ∀ {rounds k : Nat} {x o : Int} {e : FiniteClipEnvelope}, InCycle c n reverse k x e →
      0 ≤ x → x < c → 0 ≤ o → (k : Int) * c + x + o = t → (k : Int) < n → o.toNat + 1 < rounds →
      e.calls.filter isBoundaryCall = pre ++ crossings c n reverse k →
      ∃ e' o', cycleLoop noAbort reachedEnd rounds e o (c - x) = some (e', some o') ∧
        e'.ticks = e.ticks ∧ e'.totalTicks = e.totalTicks ∧ LoopOutcome c n reverse t pre e' o' := by
  intro rounds
  induction rounds with
  | zero => intro k x o e _ _ _ _ _ _ hrounds; omega
  | succ rounds ih =>
    intro k x o e h hx hxc ho hsum hkn hrounds hcalls
    have hsucc : ((k + 1 : Nat) : Int) * c = k * c + c := by push_cast; ring
    rw [cycleLoop]
    by_cases hle : c - x ≤ o
    · have hpos : 0 < c - x := by omega
      have habort : (e.playCycleEnd noAbort).aborted = false := by
        rw [h.playCycleEnd_eq]; exact h.aborted
      simp only [if_pos hle, if_pos hpos, habort, Bool.and_false, Bool.false_eq_true, if_false]
      by_cases hlast : (k : Int) + 1 < n
      · -- an inner cycle end: the play turns and goes on
        have hless : ((k + 1 : Nat) : Int) * c < n * c := by
          have : ((k + 1 : Nat) : Int) < n := by push_cast; exact hlast
          gcongr
        have hturn : (!reachedEnd || decide (0 < o - (c - x))) = true := by
          rw [hend]
          simp only [Bool.or_eq_true, Bool.not_eq_true', decide_eq_false_iff_not, decide_eq_true_eq]
          omega
        obtain ⟨hnxt, hnextCalls⟩ := h.turn_playCycleEnd hlast
        rw [if_pos hturn, hnxt.cycleTicks]
        have hfilt : ((e.playCycleEnd noAbort).turn noAbort).calls.filter isBoundaryCall =
            pre ++ crossings c n reverse (k + 1) := by
          rw [hnextCalls, filter_append, hcalls, filter_crossing, crossings_succ, append_assoc]
        have hrest := ih hnxt (Int.le_refl 0) hc (show 0 ≤ o - (c - x) by omega) (by omega)
          (by push_cast; exact hlast) (by omega) hfilt
        rw [sub_zero] at hrest
        obtain ⟨e', o', hloop, hticks, htotal, houtcome⟩ := hrest
        refine ⟨e', o', hloop, hticks.trans ?_, htotal.trans ?_, houtcome⟩
        · exact turn_ticks _
        · exact turn_totalTicks _
      · -- the last cycle end: the loop is left in the next round
        have hn : (k : Int) + 1 = n := by omega
        have hnc : n * c = k * c + c := by rw [← hn]; ring
        have hzero : o - (c - x) = 0 := by omega
        have hreached : reachedEnd = true := by
          rw [hend, decide_eq_true_eq]
          omega
        obtain ⟨hlastEnd, hlastCalls⟩ := h.playCycleEnd_last hc hn
        rw [hzero, hreached]
        simp only [Bool.not_true, Int.lt_irrefl, decide_false, Bool.or_false, Bool.false_eq_true,
          if_false, hlastEnd.cycleTicks]
        rcases rounds with _ | m
        · omega
        rw [cycleLoop, if_neg (by omega)]
        refine ⟨_, 0, rfl, rfl, rfl, Or.inr ⟨by omega, rfl, hlastEnd, ?_⟩⟩
        have hnat : n.toNat = k + 1 := by omega
        rw [hlastCalls, filter_append, hcalls, filter_crossing, hnat, crossings_succ, append_assoc]
    · -- the new time lies in the present cycle
      have hlt : t < n * c := by
        have : ((k : Int) + 1) * c ≤ n * c := by gcongr; omega
        have : ((k : Int) + 1) * c = k * c + c := by ring
        omega
      rw [if_neg hle]
      exact ⟨e, o, rfl, rfl, rfl, Or.inl ⟨hlt, ho, k, x, h, hx, by omega, hsum, hcalls⟩⟩

/-! ## Pulses -/

/-- The play has been taken to time `t` by pulses. -/
structure Played (c n : Int) (reverse : Bool) (t : Int) (e : FiniteClipEnvelope) : Prop where
  ticks : e.ticks = t
  place : (t < n * c ∧ ∃ (k : Nat) (x : Int), InCycle c n reverse k x e ∧ 0 ≤ x ∧ x < c ∧
      (k : Int) * c + x = t ∧
      e.calls.filter isBoundaryCall = [.setCurrentRate 1] ++ crossings c n reverse k) ∨
    (t = n * c ∧ AtEnd c n reverse e ∧
      e.calls.filter isBoundaryCall =
        [.setCurrentRate 1] ++ crossings c n reverse n.toNat ++ [.finished])

theorem Played.config (h : Played c n reverse t e) :
    e.rate = 1 ∧ e.cycleTicks = c ∧ e.totalTicks = long (n * c) ∧ e.deltaTicks = 0 := by
  rw [e.totalTicks_eq]
  obtain ⟨-, k, x, hin, -⟩ | ⟨-, hat, -⟩ := h.place
  · exact ⟨hin.rate, hin.cycleTicks, by rw [hin.cycleTicks, hin.cycleCount], hin.deltaTicks⟩
  · exact ⟨hat.rate, hat.cycleTicks, by rw [hat.cycleTicks, hat.cycleCount], hat.deltaTicks⟩

theorem LoopOutcome.finishPulse (hticks : e.ticks = t)
    (h : LoopOutcome c n reverse t [.setCurrentRate 1] e o) :
    Played c n reverse t (e.finishPulse noAbort (decide (n * c ≤ t)) o) := by
  obtain ⟨hlt, ho, k, x, hin, hx, hxo, hsum, hcalls⟩ | ⟨rfl, rfl, hat, hcalls⟩ := h
  · have hend : decide (n * c ≤ t) = false := by
      rw [decide_eq_false_iff_not]
      omega
    rw [hend]
    unfold FiniteClipEnvelope.finishPulse playRest
    simp only [Bool.not_false, Bool.and_true, decide_eq_true_eq, Bool.false_and,
      Bool.false_eq_true, if_false]
    rcases ho.lt_or_eq with hpos | rfl
    · -- the rest of the way ends inside the cycle
      rw [if_pos hpos]
      refine ⟨hticks, Or.inl ⟨hlt, k, x + o, ?_, by omega, hxo, by omega, ?_⟩⟩
      · refine ⟨hin.rate, hin.cycleTicks, hin.cycleCount, hin.autoReverse, hin.aborted,
          hin.deltaTicks, ?_, hin.currentRate⟩
        show e.pos + (if 0 < e.currentRate then o else -o) = _
        rw [if_congr hin.currentRate_pos_iff rfl rfl, hin.pos]
        by_cases hrev : Reversed reverse k
        · rw [if_neg (not_not.mpr hrev), if_pos hrev, if_pos hrev]
          omega
        · rw [if_pos hrev, if_neg hrev, if_neg hrev]
      · have hinner : isBoundaryCall (.playTo
            (e.pos + if 0 < e.currentRate then o else -o) e.cycleTicks) = false := by
          rw [isBoundaryCall, hin.cycleTicks, if_congr hin.currentRate_pos_iff rfl rfl, hin.pos]
          simp only [Bool.or_eq_false_iff, beq_eq_false_iff_ne, ne_eq]
          by_cases hrev : Reversed reverse k
          · rw [if_neg (not_not.mpr hrev), if_pos hrev]
            omega
          · rw [if_pos hrev, if_neg hrev]
            omega
        rw [tell_noAbort]
        show (e.calls ++ _).filter isBoundaryCall = _
        rw [filter_append, hcalls, filter_cons_of_neg (by rw [hinner]; decide),
          filter_nil, append_nil]
    · rw [if_neg (Int.lt_irrefl 0)]
      exact ⟨hticks, Or.inl ⟨hlt, k, x, { hin with }, hx, by omega,
        by omega, hcalls⟩⟩
  · have hend : decide (n * c ≤ n * c) = true := decide_eq_true (Int.le_refl _)
    rw [hend]
    unfold FiniteClipEnvelope.finishPulse playRest
    simp only [Bool.not_true, Bool.and_false, Bool.false_eq_true, if_false, hat.aborted,
      Bool.not_false, Bool.and_true, if_true, tell_noAbort]
    refine ⟨hticks, Or.inr ⟨rfl, ⟨hat.rate, hat.cycleTicks, hat.cycleCount, hat.autoReverse, rfl,
      hat.deltaTicks, hat.pos⟩, ?_⟩⟩
    show (e.calls ++ [AnimationCall.finished]).filter isBoundaryCall = _
    rw [filter_append, hcalls]
    rfl

/-- A tick that stays the same in a `double`, as far as the play goes. -/
def KeepsTick (c n tick : Int) : Prop :=
  checkBounds (scaledTick tick 1) (n * c) = checkBounds tick (n * c)

instance (c n tick : Int) : Decidable (KeepsTick c n tick) :=
  inferInstanceAs (Decidable (_ = _))

theorem keepsTick_of_le {tick : Int} (h : |tick| ≤ 2 ^ 53) : KeepsTick c n tick :=
  congrArg (checkBounds · (n * c)) (scaledTick_eq abs_one h)

theorem Played.timePulse {t tick : Int} (hc : 0 < c) (hn : 2 ≤ n) (hfits : n * c < 2 ^ 63)
    (h : Played c n reverse t e) (hle : t ≤ checkBounds tick (n * c)) (hkeeps : KeepsTick c n tick) :
    ∃ e', e.timePulse noAbort tick = some e' ∧
      Played c n reverse (checkBounds tick (n * c)) e' := by
  obtain ⟨hrate, hcycle, htotal, hdelta⟩ := h.config
  have hnc : 0 ≤ n * c := mul_nonneg (by omega) hc.le
  rw [long_eq (by omega) hfits] at htotal
  have htick : e.tickAt tick = checkBounds tick (n * c) := by
    have hscaled : -2 ^ 63 ≤ scaledTick tick 1 ∧ scaledTick tick 1 < 2 ^ 63 := by
      unfold scaledTick
      omega
    rw [tickAt, hrate, hdelta, zero_add, htotal, long_eq hscaled.1 hscaled.2]
    exact hkeeps
  generalize ht' : checkBounds tick (n * c) = t' at *
  unfold FiniteClipEnvelope.timePulse
  rw [if_neg (by rw [hcycle]; omega)]
  simp only [htick]
  rw [h.ticks, htotal]
  by_cases hsame : t' - t = 0
  · obtain rfl : t' = t := by omega
    rw [if_pos hsame]
    refine ⟨(e.enterPulse t').leavePulse, rfl, rfl, ?_⟩
    obtain ⟨hlt, k, x, hin, hx⟩ | ⟨heq, hat, hcalls⟩ := h.place
    · exact Or.inl ⟨hlt, k, x, ⟨hin.rate, hin.cycleTicks, hin.cycleCount, hin.autoReverse, rfl,
        hin.deltaTicks, hin.pos, hin.currentRate⟩, hx⟩
    · exact Or.inr ⟨heq, ⟨hat.rate, hat.cycleTicks, hat.cycleCount, hat.autoReverse, rfl,
        hat.deltaTicks, hat.pos⟩, hcalls⟩
  · have hbound : t' ≤ n * c := by
      rw [← ht', checkBounds]
      omega
    rw [if_neg hsame]
    obtain ⟨hlt, k, x, hin, hx, hxc, hsum, hcalls⟩ | ⟨heq, -, -⟩ := h.place
    · have hkn : (k : Int) < n := by
        by_contra hge
        have : n * c ≤ k * c := by gcongr; omega
        omega
      have hst : InCycle c n reverse k x (e.enterPulse t') :=
        ⟨hin.rate, hin.cycleTicks, hin.cycleCount, hin.autoReverse, rfl, hin.deltaTicks, hin.pos,
          hin.currentRate⟩
      obtain ⟨e', o', hloop, hticks, -, houtcome⟩ := hst.cycleLoop_spec hc rfl
        hbound hx hxc (show 0 ≤ t' - t by omega) (by omega) hkn
        (Nat.lt_succ_self _) hcalls
      rw [hin.cycleDelta_eq, hloop]
      exact ⟨_, rfl, houtcome.finishPulse hticks⟩
    · -- at the end of the play no later time is left
      omega

/-- The time that pulses up to `ticks` have taken the play to. -/
def reachedTime (c n : Int) (ticks : List Int) : Int := checkBounds (ticks.getLastD 0) (n * c)

theorem played_start (hc : 0 < c) (hn : 2 ≤ n) (reverse : Bool) (status : Status) :
    Played c n reverse 0 ((new 1 c reverse n status).start noAbort) := by
  have hnc : 0 < n * c := mul_pos (by omega) hc
  have hrate : (new 1 c reverse n status).calculateCurrentRate = 1 := by
    simp [calculateCurrentRate, new, hc]
  refine ⟨rfl, Or.inl ⟨hnc, 0, 0, ?_, Int.le_refl 0, hc, by simp, ?_⟩⟩
  · have hfwd : ¬ Reversed reverse 0 := fun h => by cases h.2
    refine ⟨rfl, rfl, rfl, rfl, rfl, rfl, ?_, ?_⟩
    · show (0 : Int) = _
      rw [if_neg hfwd]
    · rw [speed, if_neg hfwd]
      exact hrate
  · show [AnimationCall.setCurrentRate (new 1 c reverse n status).calculateCurrentRate].filter
      isBoundaryCall = _
    rw [hrate]
    rfl

theorem Played.pulses (hc : 0 < c) (hn : 2 ≤ n) (hfits : n * c < 2 ^ 63) {ticks : List Int}
    {last : Int} (h : Played c n reverse (checkBounds last (n * c)) e)
    (hsort : (last :: ticks).Pairwise (· ≤ ·)) (hkeeps : ∀ tick ∈ ticks, KeepsTick c n tick) :
    ∃ e', e.pulses noAbort ticks = some e' ∧
      Played c n reverse (checkBounds (ticks.getLastD last) (n * c)) e' := by
  induction ticks generalizing last e with
  | nil => exact ⟨e, rfl, h⟩
  | cons tick ticks ih =>
    have hle : last ≤ tick := rel_of_pairwise_cons hsort mem_cons_self
    obtain ⟨e1, hpulse, h1⟩ := @Played.timePulse e c n reverse _ tick hc hn hfits h
      (by unfold checkBounds; omega) (hkeeps tick mem_cons_self)
    obtain ⟨e', hrun, h'⟩ := ih h1 hsort.of_cons fun tick' ht => hkeeps tick' (mem_cons_of_mem _ ht)
    refine ⟨e', ?_, ?_⟩
    · show (e.timePulse noAbort tick >>= fun e => e.pulses noAbort ticks) = _
      rw [hpulse]
      exact hrun
    · rwa [getLastD_cons]

theorem Played.pos_eq (hc : 0 < c) (h : Played c n reverse t e) :
    e.pos = playPosition c n reverse t := by
  obtain ⟨hlt, k, x, hin, hx, hxc, hsum, -⟩ | ⟨rfl, hat, -⟩ := h.place
  · rw [hin.pos, playPosition]
    cases reverse with
    | false =>
      rw [if_neg (fun hr => by cases hr.1), if_neg (by decide), if_neg (by omega), ← hsum,
        Int.mul_add_emod_self_right, Int.emod_eq_of_lt hx hxc]
    | true =>
      rw [if_pos rfl, ← hsum, triangle_cycle hc k hx hxc.le]
      simp only [Reversed, true_and]
  · exact hat.pos

theorem Played.calls_eq (hc : 0 < c) (h : Played c n reverse t e) :
    e.calls.filter isBoundaryCall = boundaryCalls c n reverse t := by
  obtain ⟨hlt, k, x, hin, hx, hxc, hsum, hcalls⟩ | ⟨rfl, -, hcalls⟩ := h.place
  · have hdiv : t / c = k := by
      rw [← hsum, Int.mul_add_ediv_right _ _ hc.ne', Int.ediv_eq_zero_of_lt hx hxc, add_zero]
    rw [hcalls, boundaryCalls, hdiv, if_neg (by omega), Int.toNat_natCast, append_nil]
    rfl
  · rw [hcalls, boundaryCalls, Int.mul_ediv_cancel _ hc.ne', if_pos (Int.le_refl _)]
    rfl

theorem finished_not_mem_crossings (c n : Int) (reverse : Bool) (k : Nat) :
    AnimationCall.finished ∉ crossings c n reverse k := by
  intro hmem
  obtain ⟨i, -, hi⟩ := mem_flatMap.mp hmem
  unfold crossing at hi
  rcases mem_cons.mp hi with hplay | htail
  · cases hplay
  · split at htail
    · rw [mem_singleton] at htail
      split at htail <;> cases htail
    · cases htail

/-- The end of the play is told once, when its time is reached. -/
theorem count_finished_boundaryCalls (c n : Int) (reverse : Bool) (t : Int) :
    (boundaryCalls c n reverse t).count .finished = if n * c ≤ t then 1 else 0 := by
  rw [boundaryCalls, count_append, count_cons_of_ne (by decide),
    count_eq_zero_of_not_mem (finished_not_mem_crossings c n reverse _), zero_add]
  split <;> rfl

theorem exists_le_iff_getLastD {ticks : List Int} {t0 : Int}
    (hsort : ticks.Pairwise (· ≤ ·)) (hst : t0 < t) :
    (∃ tick ∈ ticks, t ≤ tick) ↔ t ≤ ticks.getLastD t0 := by
  induction ticks generalizing t0 with
  | nil => simpa using hst
  | cons tick ticks ih =>
    rw [getLastD_cons, exists_mem_cons_iff]
    by_cases hlt : tick < t
    · rw [ih hsort.of_cons hlt]
      exact or_iff_right (by omega)
    · have hlast : tick ≤ ticks.getLastD tick := by
        cases hticks : ticks.getLast? with
        | none => rw [getLastD_eq_getLast?, hticks]; exact Int.le_refl _
        | some last =>
          rw [getLastD_eq_getLast?, hticks]
          exact rel_of_pairwise_cons hsort (mem_of_getLast? hticks)
      exact iff_of_true (Or.inl (by omega)) (by omega)

/-! ## The position told -/

/-- The position after a call, as the animation is told it. -/
def positionAfter (pos : Int) : AnimationCall → Int
  | .playTo pos _ => pos
  | .jumpTo pos _ _ => pos
  | _ => pos

/-- The last position the animation has been told. -/
def toldPosition (calls : List AnimationCall) : Int := calls.foldl positionAfter 0

theorem toldPosition_append (calls : List AnimationCall) (call : AnimationCall) :
    toldPosition (calls ++ [call]) = positionAfter (toldPosition calls) call := foldl_concat _ _ _ _

/-- The animation knows the position. -/
def Told (e : FiniteClipEnvelope) : Prop := toldPosition e.calls = e.pos

section

variable (h : e.Told)
include h

theorem Told.turn : (e.turn noAbort).Told := by
  unfold FiniteClipEnvelope.turn
  split
  · exact (toldPosition_append _ _).trans h
  · exact toldPosition_append _ _

theorem Told.playRest : (e.playRest noAbort reachedEnd o).Told := by
  unfold FiniteClipEnvelope.playRest
  split
  · exact toldPosition_append _ _
  · exact h

theorem Told.finishPulse : (e.finishPulse noAbort reachedEnd o).Told := by
  have hrest : (e.playRest noAbort reachedEnd o).Told := h.playRest
  unfold FiniteClipEnvelope.finishPulse
  dsimp only
  split
  · exact (toldPosition_append _ _).trans hrest
  · exact hrest

end

theorem Told.cycleLoop : ∀ {rounds : Nat} {e : FiniteClipEnvelope} {o d : Int}
    {r : FiniteClipEnvelope × Option Int}, e.Told →
    cycleLoop noAbort reachedEnd rounds e o d = some r → r.1.Told := by
  intro rounds
  induction rounds with
  | zero => intro e o d r _ hloop; cases hloop
  | succ rounds ih =>
    intro e o d r h hloop
    rw [FiniteClipEnvelope.cycleLoop] at hloop
    have hplayed : (if 0 < d then e.playCycleEnd noAbort else e).Told := by
      split
      · exact toldPosition_append _ _
      · exact h
    generalize (if 0 < d then e.playCycleEnd noAbort else e) = e1 at *
    generalize (if 0 < d then o - d else o) = o1 at *
    dsimp only at hloop
    split at hloop
    · split at hloop
      · cases hloop
        exact hplayed
      · refine ih ?_ hloop
        split
        · exact hplayed.turn
        · exact hplayed
    · cases hloop
      exact h

theorem Told.timePulse {e' : FiniteClipEnvelope} {tick : Int} (h : e.Told)
    (hpulse : e.timePulse noAbort tick = some e') : e'.Told := by
  unfold FiniteClipEnvelope.timePulse at hpulse
  split at hpulse
  · cases hpulse
    exact h
  · dsimp only at hpulse
    split at hpulse
    · cases hpulse
      exact h
    · split at hpulse
      · cases hpulse
      · next hloop =>
        cases hpulse
        exact Told.cycleLoop (e := e.enterPulse _) h hloop
      · next hloop =>
        cases hpulse
        exact (Told.cycleLoop (e := e.enterPulse _) h hloop).finishPulse

theorem Told.pulses {ticks : List Int} {e' : FiniteClipEnvelope} (h : e.Told)
    (hrun : e.pulses noAbort ticks = some e') : e'.Told := by
  induction ticks generalizing e with
  | nil =>
    cases hrun
    exact h
  | cons tick ticks ih =>
    obtain ⟨e1, hpulse, hrest⟩ := Option.bind_eq_some_iff.1 hrun
    exact ih (h.timePulse hpulse) hrest

/-! ## Any pulses -/

/-- After any pulses in time order the position, also as it was told, is that of the time reached,
    and every cycle end passed has been played once and in order, the end of the play once it is
    reached. -/
theorem pulses_forward (c n : Int) (hc : 0 < c) (hn : 2 ≤ n) (hfits : n * c < 2 ^ 63)
    (reverse : Bool) (status : Status) (ticks : List Int) (hsort : ticks.Pairwise (· ≤ ·))
    (hkeeps : ∀ tick ∈ ticks, KeepsTick c n tick) :
    ∃ e, ((new 1 c reverse n status).start noAbort).pulses noAbort ticks = some e ∧
      e.pos = playPosition c n reverse (reachedTime c n ticks) ∧ toldPosition e.calls = e.pos ∧
      e.calls.filter isBoundaryCall = boundaryCalls c n reverse (reachedTime c n ticks) ∧
      e.calls.count .finished = if ∃ tick ∈ ticks, n * c ≤ tick then 1 else 0 := by
  have hnc : 0 < n * c := mul_pos (by omega) hc
  -- the first pulse may come before the start
  obtain ⟨first, hfst, hbef, hlast⟩ : ∃ first, checkBounds first (n * c) = 0 ∧
      (first :: ticks).Pairwise (· ≤ ·) ∧
      checkBounds (ticks.getLastD first) (n * c) = reachedTime c n ticks := by
    cases ticks with
    | nil => exact ⟨0, by unfold checkBounds; omega, pairwise_singleton _ _, rfl⟩
    | cons tick ticks =>
      refine ⟨min 0 tick, by unfold checkBounds; omega, pairwise_cons.mpr ⟨?_, hsort⟩, ?_⟩
      · intro t ht
        rcases mem_cons.mp ht with rfl | ht
        · omega
        · have := rel_of_pairwise_cons hsort ht
          omega
      · rw [reachedTime, getLastD_cons, getLastD_cons]
  obtain ⟨e, hrun, hplayed⟩ := Played.pulses hc hn hfits (hfst ▸ played_start hc hn reverse status)
    hbef hkeeps
  rw [hlast] at hplayed
  have htold : ((new 1 c reverse n status).start noAbort).Told := rfl
  refine ⟨e, hrun, hplayed.pos_eq hc, htold.pulses hrun, hplayed.calls_eq hc, ?_⟩
  have hcnt : e.calls.count .finished = (e.calls.filter isBoundaryCall).count .finished :=
    (count_filter rfl).symm
  rw [hcnt, hplayed.calls_eq hc, count_finished_boundaryCalls]
  refine if_congr ?_ rfl rfl
  rw [exists_le_iff_getLastD hsort hnc, reachedTime, checkBounds]
  omega

/-- Two reversed cycles, with a repeated pulse. -/
theorem pulses_forward_reversed :
    ∃ e, ((new 1 3 true 2 .running).start noAbort).pulses noAbort [1, 4, 4, 9] = some e ∧
      e.pos = playPosition 3 2 true (reachedTime 3 2 [1, 4, 4, 9]) ∧ toldPosition e.calls = e.pos ∧
      e.calls.filter isBoundaryCall = boundaryCalls 3 2 true (reachedTime 3 2 [1, 4, 4, 9]) ∧
      e.calls.count .finished = if ∃ tick ∈ ([1, 4, 4, 9] : List Int), 2 * 3 ≤ tick then 1 else 0 :=
  pulses_forward 3 2 (by decide) (by decide) (by decide) true .running [1, 4, 4, 9] (by decide)
    fun tick ht => keepsTick_of_le (by
      revert tick
      decide)

/-- Cycles of ten days, as often as an `int` counts: the product wraps, and a pulse at tick 1 leaves
    the play at its start. -/
theorem pulses_overflow : ∃ e,
    ((new 1 5184000000 false 2147483647 .running).start noAbort).pulses noAbort [1] = some e ∧
      e.pos ≠ playPosition 5184000000 2147483647 false (reachedTime 5184000000 2147483647 [1]) := by
  have htick : ((new 1 5184000000 false 2147483647 .running).start noAbort).tickAt 1 = 0 := by
    have htotal : long (2147483647 * 5184000000) < 0 := by decide
    show checkBounds _ (long (2147483647 * 5184000000)) = 0
    unfold checkBounds
    omega
  refine ⟨(new 1 5184000000 false 2147483647 .running).start noAbort, ?_, by decide⟩
  show (timePulse noAbort _ 1 >>= fun e => some e) = _
  rw [timePulse, if_neg (by decide), htick]
  rfl

end OpenJfx.Animation.FiniteClipEnvelope
