/-
  OpenJfx.Animation.CompoundTransition

  What a compound transition is made of: saturating arithmetic, the time the children are played at,
  and the children, each known by its delay, its total duration and the lengths in its clip
  envelope, in ticks at rate 1.  `Stage` holds the status of every child and what has been done to
  it, oldest first, with the time of the transition.
-/

import OpenJfx.Animation.FiniteClipEnvelope.Basic

namespace OpenJfx.Animation

/-! ## Section 1: Ticks -/

/-- `Long.MAX_VALUE`, which also stands for an indefinite duration. -/
def longMax : Int := 2 ^ 63 - 1

/-- `Long.MIN_VALUE`. -/
def longMin : Int := -2 ^ 63

namespace TickCalculation

/-- `add`. A sum that wraps around shows as a negative result. -/
def add (op1 op2 : Int) : Int :=
  if op1 = longMax ∨ op2 = longMax then longMax
  else if op2 = longMin then 0
  else if 0 ≤ op2 then (if longMax < op1 + op2 then longMax else op1 + op2)
  else max 0 (op1 + op2)

/-- `TickCalculation.sub`, which saturates. -/
def sub (op1 op2 : Int) : Int :=
  if op1 = longMax ∨ op2 = longMin then longMax
  else if op2 = longMax then 0
  else if 0 ≤ op2 then max 0 (op1 - op2)
  else if longMax < op1 - op2 then longMax
  else op1 - op2

end TickCalculation

open TickCalculation

theorem add_eq_min {a b : Int} (ha : 0 ≤ a) (hb : 0 ≤ b) : add a b = min (a + b) longMax := by
  have hmin : b ≠ longMin := by
    intro hb'
    rw [hb'] at hb
    exact absurd hb (by decide)
  unfold add
  split_ifs <;> omega

theorem sub_zero_of_nonneg {a : Int} (ha : 0 ≤ a) : sub a 0 = a := by
  have h1 : (0 : Int) ≠ longMin := by decide
  have h2 : (0 : Int) ≠ longMax := by decide
  unfold sub
  split_ifs <;> omega

/-- The sign of a rate, as `Math.signum`. -/
def signum (rate : Rat) : Int := if 0 < rate then 1 else if rate < 0 then -1 else 0

/-- The fraction of the cycle, in `double`s. -/
def calculateFraction (currentTicks cycleTicks : Int) : Rat :=
  let frac := toDouble (toDouble currentTicks / toDouble cycleTicks)
  if frac ≤ 0 then 0 else if 1 ≤ frac then 1 else frac

/-- `Interpolator.LINEAR.interpolate` on long values, whose product is a `double`. -/
def interpolateLinear (startValue endValue : Int) (fraction : Rat) : Int :=
  startValue + mathRound (toDouble (toDouble ((endValue - startValue : Int) : Rat) * fraction))

/-- The time at which the children are played. -/
def newTicks (currentTicks cycleTicks : Int) : Int :=
  max 0 (min (interpolateLinear 0 cycleTicks (calculateFraction currentTicks cycleTicks))
    cycleTicks)

/-- The fraction of the cycle, as a `double` and held to `[0, 1]`. -/
theorem calculateFraction_near {t cycleTicks : Int} (h0 : 0 < t) (h : t ≤ cycleTicks)
    (hcycle : cycleTicks ≤ 2 ^ 50) :
    |calculateFraction t cycleTicks - t / cycleTicks| ≤ (t / cycleTicks : Rat) / 2 ^ 53 := by
  have ht : (1 : Rat) ≤ t := by exact_mod_cast h0
  have hc : (0 : Rat) < cycleTicks := by exact_mod_cast h0.trans_le h
  have hle : (t : Rat) ≤ cycleTicks := by exact_mod_cast h
  have hbig : (cycleTicks : Rat) ≤ 2 ^ 50 := by exact_mod_cast hcycle
  have hone : (t / cycleTicks : Rat) ≤ 1 := (div_le_one hc).mpr hle
  have hlow : (2 : Rat) ^ (-50 : Int) ≤ t / cycleTicks := by
    rw [le_div_iff₀ hc]
    calc (2 : Rat) ^ (-50 : Int) * cycleTicks ≤ 2 ^ (-50 : Int) * 2 ^ 50 :=
          mul_le_mul_of_nonneg_left hbig (by positivity)
      _ = 1 := by norm_num
      _ ≤ t := ht
  have hpos : (0 : Rat) < t / cycleTicks := (by positivity : (0 : Rat) < 2 ^ (-50 : Int)).trans_le hlow
  have hnear := toDouble_near (x := (t / cycleTicks : Rat)) (by
    rw [abs_of_pos hpos]
    exact (zpow_le_zpow_right₀ (by norm_num) (by norm_num)).trans hlow)
  rw [abs_of_pos hpos] at hnear
  have hbounds := abs_le.mp hnear
  unfold calculateFraction
  rw [toDouble_intCast (by rw [abs_of_pos h0]; omega),
    toDouble_intCast (by rw [abs_of_pos (h0.trans_le h)]; omega)]
  simp only []
  split_ifs with hzero hover
  · linarith [hbounds.1]
  · -- the fraction has been rounded up to 1 at most
    rw [abs_le]
    constructor <;> linarith [hbounds.2]
  · exact hnear

/-- In a cycle of up to `2 ^ 50` ticks the children are played at the time itself. -/
theorem newTicks_eq {t cycleTicks : Int} (h0 : 0 ≤ t) (h : t ≤ cycleTicks)
    (hcycle : cycleTicks ≤ 2 ^ 50) : newTicks t cycleTicks = t := by
  suffices hround : interpolateLinear 0 cycleTicks (calculateFraction t cycleTicks) = t by
    unfold newTicks
    rw [hround]
    omega
  have hdouble : toDouble ((cycleTicks - 0 : Int) : Rat) = cycleTicks := by
    rw [Int.sub_zero]
    exact toDouble_intCast (by rw [abs_of_nonneg (h0.trans h)]; omega)
  unfold interpolateLinear
  rw [hdouble, Int.zero_add]
  rcases h0.lt_or_eq with hpos | rfl
  · have hfrac := calculateFraction_near hpos h hcycle
    have ht : (1 : Rat) ≤ t := by exact_mod_cast hpos
    have hc : (0 : Rat) < cycleTicks := by exact_mod_cast hpos.trans_le h
    have hbig : (t : Rat) ≤ 2 ^ 50 := by exact_mod_cast h.trans hcycle
    set frac := calculateFraction t cycleTicks
    have hproduct : |cycleTicks * frac - t| ≤ (t : Rat) / 2 ^ 53 := by
      calc |cycleTicks * frac - t| = cycleTicks * |frac - t / cycleTicks| := by
            rw [← abs_of_pos hc, ← abs_mul, abs_of_pos hc, mul_sub, mul_div_cancel₀ _ hc.ne']
        _ ≤ cycleTicks * ((t / cycleTicks : Rat) / 2 ^ 53) := mul_le_mul_of_nonneg_left hfrac hc.le
        _ = (t : Rat) / 2 ^ 53 := by
            rw [← mul_div_assoc, mul_div_cancel₀ _ hc.ne']
    have hbounds := abs_le.mp hproduct
    have hnn : 0 < cycleTicks * frac := by linarith [hbounds.1]
    have hnear := toDouble_near (x := cycleTicks * frac) (by
      rw [abs_of_pos hnn]
      calc (2 : Rat) ^ (-1022 : Int) ≤ 2 ^ (-1 : Int) :=
            zpow_le_zpow_right₀ (by norm_num) (by norm_num)
        _ ≤ cycleTicks * frac := by
            rw [zpow_neg_one]
            linarith [hbounds.1])
    rw [abs_of_pos hnn] at hnear
    have hdist := abs_le.mp hnear
    refine mathRound_near ?_
    rw [abs_lt]
    constructor <;> linarith [hbounds.1, hbounds.2, hdist.1, hdist.2]
  · have hzero : calculateFraction 0 cycleTicks = 0 := by
      unfold calculateFraction
      rw [toDouble_intCast (by norm_num), Int.cast_zero, zero_div]
      exact if_pos (by rw [← Int.cast_zero, toDouble_intCast (by norm_num)])
    rw [hzero, mul_zero, ← Int.cast_zero, toDouble_intCast (by norm_num), mathRound_intCast]

/-! ## Section 2: Children -/

/-- A child, with its delay and total duration.  Each length is rounded to ticks by itself, so that
    the cycles of the clip envelope need not add up to the total duration. -/
structure Child where
  delay : Int
  duration : Int
  /-- The length of a cycle in the clip envelope. -/
  cycleTicks : Int
  /-- The length of all the cycles there, at least one. -/
  totalTicks : Int
  delay_nonneg : 0 ≤ delay
  duration_nonneg : 0 ≤ duration
  cycleTicks_nonneg : 0 ≤ cycleTicks
  total_pos : 0 < totalTicks ↔ 0 < cycleTicks
  deriving DecidableEq

namespace Child

/-- A child of one cycle. -/
def single (delay duration : Int) (hdelay : 0 ≤ delay) (hduration : 0 ≤ duration) : Child :=
  ⟨delay, duration, duration, duration, hdelay, hduration, hduration, Iff.rfl⟩

instance : Inhabited Child := ⟨single 0 0 (le_refl _) (le_refl _)⟩

/-- The cycles of the clip envelope add up to the total duration. -/
def Synched (c : Child) : Prop := c.totalTicks = c.duration
  deriving Decidable

theorem Synched.pos_iff {c : Child} (h : c.Synched) : 0 < c.cycleTicks ↔ 0 < c.duration := by
  rw [← c.total_pos, h]

theorem Synched.eq_zero_iff {c : Child} (h : c.Synched) : c.cycleTicks = 0 ↔ c.duration = 0 := by
  have := h.pos_iff
  have := c.cycleTicks_nonneg
  have := c.duration_nonneg
  omega

theorem synched_getD {children : List Child} (h : ∀ c ∈ children, c.Synched) (k : Nat) :
    (children.getD k default).Synched := by
  rw [List.getD_eq_getElem?_getD]
  cases hk : children[k]? with
  | none => rfl
  | some c => exact h c (List.mem_of_getElem? hk)

/-- The envelope knows a cycle length other than 0. -/
def wasSynched (c : Child) : Bool := decide (c.cycleTicks ≠ 0)

/-- `impl_startable` of a child. -/
def implStartable (c : Child) (forceSync : Bool) : Bool :=
  decide (0 < c.cycleTicks) || (!forceSync && c.wasSynched)

theorem implStartable_eq (c : Child) (forceSync : Bool) :
    c.implStartable forceSync = decide (0 < c.cycleTicks) := by
  have h := c.cycleTicks_nonneg
  unfold implStartable wasSynched
  by_cases hpos : 0 < c.cycleTicks
  · simp [hpos]
  · have hz : c.cycleTicks = 0 := by omega
    simp [hz]

end Child

/-- What a compound transition does to a child. -/
inductive ChildEvent where
  | started
  | jumped (ticks : Int)
  | pulsed (ticks : Int)
  /-- A call of the `onFinished` handler. -/
  | onFinished
  deriving DecidableEq, Repr

/-- One thing done to a child, and when. -/
structure Entry where
  ticks : Int
  child : Nat
  event : ChildEvent
  deriving DecidableEq, Repr

/-- The children of a transition as they stand. -/
structure Stage where
  /-- The time of the transition: `impl_setCurrentTicks` sets it. -/
  now : Int
  status : Nat → Status
  log : List Entry

namespace Stage

/-- The children before the first pulse. -/
def new : Stage where
  now := 0
  status := fun _ => .stopped
  log := []

/-- What has been done to child `k`, and when. -/
def record (g : Stage) (k : Nat) : List Entry := g.log.filter fun e => e.child = k

/-- What has been done to child `k`. -/
def history (g : Stage) (k : Nat) : List ChildEvent := (g.record k).map Entry.event

/-- Something is done to child `k`. -/
def note (g : Stage) (k : Nat) (event : ChildEvent) : Stage :=
  { g with log := g.log ++ [⟨g.now, k, event⟩] }

def setStatus (g : Stage) (k : Nat) (status : Status) : Stage :=
  { g with status := Function.update g.status k status }

/-- `impl_start` of a child. -/
def implStart (g : Stage) (k : Nat) : Stage := (g.note k .started).setStatus k .running

/-- Nothing without a cycle length. -/
def jumpTo (g : Stage) (c : Child) (k : Nat) (ticks : Int) : Stage :=
  if c.cycleTicks = 0 then g else g.note k (.jumped ticks)

/-- The `onFinished` handler of child `k` is called. -/
def callOnFinished (g : Stage) (k : Nat) : Stage := g.note k .onFinished

/-- The child's envelope, whose rate is 1, finishes it at the end. -/
def implTimePulse (g : Stage) (c : Child) (k : Nat) (elapsedTime : Int) : Stage :=
  if c.cycleTicks = 0 then g
  else
    let g₁ := g.note k (.pulsed elapsedTime)
    if c.totalTicks ≤ scaledTick elapsedTime 1 then (g₁.setStatus k .stopped).callOnFinished k
    else g₁

section Simp

variable (g : Stage) (k j : Nat) (e : ChildEvent) (s : Status)

@[simp] theorem record_note_self : (g.note k e).record k = g.record k ++ [⟨g.now, k, e⟩] := by
  simp [record, note]

theorem record_note_of_ne {j k : Nat} (h : j ≠ k) : (g.note k e).record j = g.record j := by
  simp [record, note, Ne.symm h]

@[simp] theorem history_note_self : (g.note k e).history k = g.history k ++ [e] := by
  simp [history]

theorem history_note_of_ne {j k : Nat} (h : j ≠ k) : (g.note k e).history j = g.history j := by
  rw [history, record_note_of_ne g e h, history]

@[simp] theorem status_note : (g.note k e).status = g.status := rfl
@[simp] theorem history_setStatus : (g.setStatus k s).history j = g.history j := rfl
@[simp] theorem status_setStatus_self : (g.setStatus k s).status k = s := by simp [setStatus]

theorem status_setStatus_of_ne {j k : Nat} (h : j ≠ k) :
    (g.setStatus k s).status j = g.status j := by
  simp [setStatus, h]

end Simp

end Stage

end OpenJfx.Animation
