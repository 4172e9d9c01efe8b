/-
  OpenJfx.Animation.FiniteClipEnvelope.Basic

  The loop part of an animation played a finite number of times (`FiniteClipEnvelope`,
  `ClipEnvelope`).  `ticks` counts in the direction of play; `pos` is the position in the cycle
  and `currentRate` its speed.  `calls` is what the animation has been told, oldest first, and
  `aborts` says after which history a callback aborts the pulse.  `ticks` and `pos` lie between 0
  and the greatest `long`, so their differences are exact.
-/

import Mathlib.Data.Int.Log
import Mathlib.Data.Rat.Floor

namespace OpenJfx.Animation

/-- `Animation.Status`. -/
inductive Status where
  | stopped
  | paused
  | running
  deriving DecidableEq, Repr

/-- The calls an envelope makes through `AnimationAccessor`. -/
inductive AnimationCall where
  | setCurrentRate (currentRate : Rat)
  | playTo (pos cycleTicks : Int)
  | jumpTo (pos cycleTicks : Int) (forceJump : Bool)
  | finished
  deriving DecidableEq, Repr

/-- `Math.round`: the nearest integer, halves upwards. -/
def mathRound (x : Rat) : Int := ⌊x + 1 / 2⌋

theorem mathRound_intCast (t : Int) : mathRound (t : Rat) = t := by
  unfold mathRound
  rw [Int.floor_intCast_add, show ⌊(1 / 2 : Rat)⌋ = 0 by rw [Int.floor_eq_zero_iff]; norm_num]
  omega

theorem mathRound_near {x : Rat} {t : Int} (h : |x - t| < 1 / 2) : mathRound x = t := by
  rw [abs_lt] at h
  rw [mathRound, Int.floor_eq_iff]
  constructor <;> linarith [h.1, h.2]

/-- The value of an expression of type `long`. -/
def long (x : Int) : Int := x.bmod (2 ^ 64)

theorem long_eq {x : Int} (hlow : -2 ^ 63 ≤ x) (hhigh : x < 2 ^ 63) : long x = x := by
  unfold long
  rw [Int.bmod_eq_of_le_mul_two] <;> omega

theorem long_bounds (x : Int) : -2 ^ 63 ≤ long x ∧ long x < 2 ^ 63 := by
  have hlow := Int.le_bmod (x := x) (m := 2 ^ 64) (by norm_num)
  have hhigh := Int.bmod_lt (x := x) (m := 2 ^ 64) (by norm_num)
  unfold long
  omega

/-- The nearest integer, the even one of two. -/
def roundHalfEven (x : Rat) : Int :=
  if x - ⌊x⌋ < 1 / 2 ∨ (x - ⌊x⌋ = 1 / 2 ∧ ⌊x⌋ % 2 = 0) then ⌊x⌋ else ⌊x⌋ + 1

theorem roundHalfEven_intCast (t : Int) : roundHalfEven t = t := by
  unfold roundHalfEven
  rw [Int.floor_intCast, sub_self, if_pos (Or.inl (by norm_num))]

theorem roundHalfEven_near (x : Rat) : |roundHalfEven x - x| ≤ 1 / 2 := by
  have hlow := Int.floor_le x
  have hhigh := Int.lt_floor_add_one x
  unfold roundHalfEven
  split_ifs with h
  · have hhalf : x - ⌊x⌋ ≤ 1 / 2 := h.elim le_of_lt fun h => h.1.le
    rw [abs_le]
    constructor <;> linarith
  · have hhalf : 1 / 2 ≤ x - ⌊x⌋ := not_lt.mp fun hlt => h (Or.inl hlt)
    push_cast
    rw [abs_le]
    constructor <;> linarith

/-- The `double` nearest to `x`: 53 bits, and none below `2 ^ -1074`. -/
def toDouble (x : Rat) : Rat :=
  let unit : Rat := 2 ^ max (Int.log 2 |x| - 52) (-1074)
  roundHalfEven (x / unit) * unit

theorem toDouble_eq {x : Rat} {k m : Int} (hk : max (Int.log 2 |x| - 52) (-1074) = k)
    (hm : x = m * 2 ^ k) : toDouble x = x := by
  have hunit : (2 : Rat) ^ k ≠ 0 := zpow_ne_zero k two_ne_zero
  unfold toDouble
  simp only [hk]
  rw [hm, mul_div_assoc, div_self hunit, mul_one, roundHalfEven_intCast]

theorem toDouble_intCast {t : Int} (ht : |t| ≤ 2 ^ 53) : toDouble t = t := by
  rcases eq_or_ne t 0 with rfl | hne
  · exact toDouble_eq (m := 0) rfl (by norm_num)
  have hone : (1 : Rat) ≤ |(t : Rat)| := by
    exact_mod_cast Int.one_le_abs hne
  have hpos : (0 : Rat) < |(t : Rat)| := zero_lt_one.trans_le hone
  have hlow : 0 ≤ Int.log 2 |(t : Rat)| := by
    rw [← Int.zpow_le_iff_le_log (by norm_num) hpos, zpow_zero]
    exact hone
  rcases ht.lt_or_eq with hlt | heq
  · -- a unit of at most 1 divides `t`
    have hlog : Int.log 2 |(t : Rat)| < 53 := by
      rw [← Int.lt_zpow_iff_log_lt (by norm_num) hpos]
      exact_mod_cast hlt
    obtain ⟨j, hj⟩ : ∃ j : Nat, Int.log 2 |(t : Rat)| - 52 = -j :=
      ⟨(52 - Int.log 2 |(t : Rat)|).toNat, by omega⟩
    refine toDouble_eq (k := -j) (m := t * 2 ^ j) (by omega) ?_
    push_cast
    rw [zpow_neg, zpow_natCast, mul_assoc, mul_inv_cancel₀ (by positivity), mul_one]
  · have hlog : Int.log 2 |(t : Rat)| = 53 := by
      have hcast : |(t : Rat)| = ((2 : Nat) : Rat) ^ (53 : Int) := by
        exact_mod_cast heq
      rw [hcast, Int.log_zpow (by norm_num)]
    obtain ⟨m, hm⟩ : ∃ m, t = m * 2 := by
      rcases abs_eq (by norm_num) |>.mp heq with h | h
      · exact ⟨2 ^ 52, by rw [h]; norm_num⟩
      · exact ⟨-2 ^ 52, by rw [h]; norm_num⟩
    refine toDouble_eq (k := 1) (m := m) (by rw [hlog]; norm_num) ?_
    rw [hm]
    push_cast
    norm_num

/-- The rounding of a `double` that is not subnormal. -/
theorem toDouble_near {x : Rat} (hx : 2 ^ (-1022 : Int) ≤ |x|) :
    |toDouble x - x| ≤ |x| / 2 ^ 53 := by
  have hpos : 0 < |x| := (zpow_pos two_pos _).trans_le hx
  have hlog : -1022 ≤ Int.log 2 |x| := (Int.zpow_le_iff_le_log (by norm_num) hpos).mp hx
  have hunit : (0 : Rat) < 2 ^ (Int.log 2 |x| - 52) := zpow_pos two_pos _
  have hle : (2 : Rat) ^ Int.log 2 |x| ≤ |x| := by
    exact_mod_cast Int.zpow_log_le_self (b := 2) (by norm_num) hpos
  unfold toDouble
  simp only [max_eq_left (show (-1074 : Int) ≤ Int.log 2 |x| - 52 by omega)]
  set unit : Rat := 2 ^ (Int.log 2 |x| - 52) with hdef
  have hscale : unit = 2 ^ Int.log 2 |x| / 2 ^ 52 := by
    rw [hdef, zpow_sub₀ two_ne_zero]
    norm_cast
  calc |(roundHalfEven (x / unit) : Rat) * unit - x|
      = |(roundHalfEven (x / unit) : Rat) - x / unit| * unit := by
        rw [← abs_of_pos hunit, ← abs_mul, abs_of_pos hunit, sub_mul, div_mul_cancel₀ _ hunit.ne']
    _ ≤ 1 / 2 * unit := mul_le_mul_of_nonneg_right (roundHalfEven_near _) hunit.le
    _ ≤ |x| / 2 ^ 53 := by
        rw [hscale]
        linarith

/-- The first integer that no `double` is. -/
theorem toDouble_odd : toDouble ((2 ^ 53 + 1 : Int) : Rat) = (2 ^ 53 : Int) := by
  have hlog : Int.log 2 |((2 ^ 53 + 1 : Int) : Rat)| = 53 := by
    have hlow := (Int.zpow_le_iff_le_log (b := 2) (x := 53) (r := |((2 ^ 53 + 1 : Int) : Rat)|)
      (by norm_num) (by norm_num)).mp (by norm_num)
    have hhigh := (Int.lt_zpow_iff_log_lt (b := 2) (x := 54) (r := |((2 ^ 53 + 1 : Int) : Rat)|)
      (by norm_num) (by norm_num)).mp (by norm_num)
    omega
  have hhalf : ((2 ^ 53 + 1 : Int) : Rat) / 2 = (2 ^ 52 : Int) + 1 / 2 := by norm_num
  have hfloor : ⌊((2 ^ 53 + 1 : Int) : Rat) / 2⌋ = 2 ^ 52 := by
    rw [hhalf, Int.floor_eq_iff]
    norm_num
  unfold toDouble
  simp only [hlog]
  rw [show max (53 - 52) (-1074) = (1 : Int) by norm_num, zpow_one, roundHalfEven, hfloor,
    if_pos (Or.inr ⟨by norm_num, by norm_num⟩)]
  norm_num

/-- `Math.round(currentTick * Math.abs(rate))`, in `double`s and within the `long`s. -/
def scaledTick (currentTick : Int) (rate : Rat) : Int :=
  max (-2 ^ 63) (min (2 ^ 63 - 1) (mathRound (toDouble (toDouble currentTick * |rate|))))

theorem scaledTick_eq {t : Int} {rate : Rat} (hrate : |rate| = 1) (ht : |t| ≤ 2 ^ 53) :
    scaledTick t rate = t := by
  have hbounds := abs_le.mp ht
  rw [scaledTick, hrate, mul_one, toDouble_intCast ht, toDouble_intCast ht, mathRound_intCast]
  omega

theorem scaledTick_odd {rate : Rat} (hrate : |rate| = 1) : scaledTick (2 ^ 53 + 1) rate = 2 ^ 53 := by
  rw [scaledTick, hrate, mul_one, toDouble_odd, toDouble_intCast (by norm_num), mathRound_intCast]
  norm_num

/-- A `FiniteClipEnvelope`, with the calls made. -/
structure FiniteClipEnvelope where
  rate : Rat
  cycleTicks : Int
  deltaTicks : Int
  ticks : Int
  currentRate : Rat
  inTimePulse : Bool
  aborted : Bool
  autoReverse : Bool
  cycleCount : Int
  totalTicks : Int
  /-- `updateTotalTicks` runs with every change of the two factors. -/
  totalTicks_eq : totalTicks = long (cycleCount * cycleTicks)
  pos : Int
  status : Status
  calls : List AnimationCall

namespace FiniteClipEnvelope

/-- Initialised before the rate is read. -/
def new (rate : Rat) (cycleTicks : Int) (autoReverse : Bool) (cycleCount : Int)
    (status : Status) : FiniteClipEnvelope where
  rate := rate
  cycleTicks := cycleTicks
  deltaTicks := 0
  ticks := 0
  currentRate := 1
  inTimePulse := false
  aborted := false
  autoReverse := autoReverse
  cycleCount := cycleCount
  totalTicks := long (cycleCount * cycleTicks)
  totalTicks_eq := rfl
  pos := 0
  status := status
  calls := []

/-- `Utils.clamp` with the lower bound 0. -/
def checkBounds (value maximum : Int) : Int := max 0 (min value maximum)

def abortCurrentPulse (e : FiniteClipEnvelope) : FiniteClipEnvelope :=
  if e.inTimePulse then { e with aborted := true, inTimePulse := false } else e

/-- The beginning of a pulse. -/
def enterPulse (e : FiniteClipEnvelope) (ticks : Int) : FiniteClipEnvelope :=
  { e with aborted := false, inTimePulse := true, ticks := ticks }

/-- The `finally` block of a pulse. -/
def leavePulse (e : FiniteClipEnvelope) : FiniteClipEnvelope :=
  { e with inTimePulse := false }

section Callbacks

variable (aborts : List AnimationCall → Bool)

/-- A call to the animation, whose callbacks may abort the pulse. -/
def tell (e : FiniteClipEnvelope) (call : AnimationCall) : FiniteClipEnvelope :=
  let e₁ := { e with calls := e.calls ++ [call] }
  if aborts e₁.calls then e₁.abortCurrentPulse else e₁

/-- It is told; a handler of the property may then act. -/
def setCurrentRate (e : FiniteClipEnvelope) (currentRate : Rat) : FiniteClipEnvelope :=
  tell aborts { e with currentRate := currentRate } (.setCurrentRate currentRate)

/-- With `autoReverse` every other cycle goes back. -/
def calculateCurrentRate (e : FiniteClipEnvelope) : Rat :=
  if !e.autoReverse then e.rate
  else if decide (e.ticks % long (2 * e.cycleTicks) < e.cycleTicks) = decide (0 < e.rate) then e.rate
  else -e.rate

def start (e : FiniteClipEnvelope) : FiniteClipEnvelope :=
  let e₁ := e.setCurrentRate aborts e.calculateCurrentRate
  { e₁ with deltaTicks := e₁.ticks }

/-- The cycle end is reached: `pos` is set to it and played. -/
def playCycleEnd (e : FiniteClipEnvelope) : FiniteClipEnvelope :=
  let pos := if 0 < e.currentRate then e.cycleTicks else 0
  tell aborts { e with pos := pos } (.playTo pos e.cycleTicks)

/-- The next cycle: a turn, or a jump to the other end. -/
def turn (e : FiniteClipEnvelope) : FiniteClipEnvelope :=
  if e.autoReverse then e.setCurrentRate aborts (-e.currentRate)
  else
    let pos := if 0 < e.currentRate then 0 else e.cycleTicks
    tell aborts { e with pos := pos } (.jumpTo pos e.cycleTicks false)

/-- The loop of `timePulse`; none when it returns from inside. -/
def cycleLoop (reachedEnd : Bool) :
    Nat → FiniteClipEnvelope → Int → Int → Option (FiniteClipEnvelope × Option Int)
  | 0, _, _, _ => none
  | rounds + 1, e, overallDelta, cycleDelta =>
    if cycleDelta ≤ overallDelta then
      let e₁ := if 0 < cycleDelta then e.playCycleEnd aborts else e
      let overallDelta₁ := if 0 < cycleDelta then overallDelta - cycleDelta else overallDelta
      if decide (0 < cycleDelta) && e₁.aborted then some (e₁, none)
      else
        let e₂ := if !reachedEnd || decide (0 < overallDelta₁) then e₁.turn aborts else e₁
        cycleLoop reachedEnd rounds e₂ overallDelta₁ e₂.cycleTicks
    else some (e, some overallDelta)

/-- The part of a cycle that is left after the last cycle end. -/
def playRest (e : FiniteClipEnvelope) (reachedEnd : Bool) (overallDelta : Int) :
    FiniteClipEnvelope :=
  if decide (0 < overallDelta) && !reachedEnd then
    let pos := e.pos + (if 0 < e.currentRate then overallDelta else -overallDelta)
    tell aborts { e with pos := pos } (.playTo pos e.cycleTicks)
  else e

/-- The end of `timePulse`, after its loop. -/
def finishPulse (e : FiniteClipEnvelope) (reachedEnd : Bool) (overallDelta : Int) :
    FiniteClipEnvelope :=
  let e₁ := e.playRest aborts reachedEnd overallDelta
  (if reachedEnd && !e₁.aborted then tell aborts e₁ .finished else e₁).leavePulse

/-- The tick that a pulse at `currentTick` takes the play to. -/
def tickAt (e : FiniteClipEnvelope) (currentTick : Int) : Int :=
  checkBounds (long (e.deltaTicks + scaledTick currentTick e.rate)) e.totalTicks

/-- `timePulse`. A round consumes a whole cycle. -/
def timePulse (e : FiniteClipEnvelope) (currentTick : Int) : Option FiniteClipEnvelope :=
  if e.cycleTicks = 0 then some e
  else
    let ticks := e.tickAt currentTick
    let reachedEnd := decide (e.totalTicks ≤ ticks)
    let overallDelta := ticks - e.ticks
    if overallDelta = 0 then some (e.enterPulse ticks).leavePulse
    else
      let cycleDelta := if 0 < e.currentRate then e.cycleTicks - e.pos else e.pos
      match cycleLoop aborts reachedEnd (overallDelta.toNat + 2) (e.enterPulse ticks) overallDelta
        cycleDelta with
      | none => none
      | some (e₁, none) => some e₁.leavePulse
      | some (e₁, some rest) => some (e₁.finishPulse aborts reachedEnd rest)

/-- The new position after a jump. -/
def placeAt (e : FiniteClipEnvelope) : FiniteClipEnvelope :=
  if e.autoReverse then
    let forward := decide (e.ticks % long (2 * e.cycleTicks) < e.cycleTicks)
    if forward = decide (0 < e.rate) then
      let e₁ := { e with pos := e.ticks % e.cycleTicks }
      if e₁.status = .running then e₁.setCurrentRate aborts |e.rate| else e₁
    else
      let e₁ := { e with pos := e.cycleTicks - e.ticks % e.cycleTicks }
      if e₁.status = .running then e₁.setCurrentRate aborts (-|e.rate|) else e₁
  else
    let pos := e.ticks % e.cycleTicks
    let pos := if e.rate < 0 then e.cycleTicks - pos else pos
    { e with pos := if pos = 0 ∧ 0 < e.ticks then e.cycleTicks else pos }

/-- The position is reached without playing there. -/
def jumpTo (e : FiniteClipEnvelope) (newTicks : Int) : FiniteClipEnvelope :=
  if e.cycleTicks = 0 then e
  else
    let newTicks := if e.rate < 0 then long (e.totalTicks - newTicks) else newTicks
    let ticks := checkBounds newTicks e.totalTicks
    let delta := ticks - e.ticks
    if delta = 0 then { e with ticks := ticks }
    else
      let e₁ := placeAt aborts { e with ticks := ticks, deltaTicks := long (e.deltaTicks + delta) }
      (tell aborts e₁ (.jumpTo e₁.pos e₁.cycleTicks false)).abortCurrentPulse

/-- A run of pulses, one after the other. -/
def pulses (e : FiniteClipEnvelope) (currentTicks : List Int) : Option FiniteClipEnvelope :=
  currentTicks.foldlM (timePulse aborts) e

end Callbacks

end FiniteClipEnvelope

end OpenJfx.Animation
