/-
  OpenJfx.Controls.SpinnerValueFactory

  `IntegerSpinnerValueFactory`: the properties `min`, `max` and `value`, which correct one
  another, `increment` and `decrement`.  A property calls its listeners only if it has been read
  since the last change (`valid`).
-/

import OpenJfx.Lib.Machine
import Mathlib.Data.Int.ModEq
import Mathlib.Order.Lattice

namespace OpenJfx.Controls.Spinner

open Int

/-- The conversion of a number to an `int`. -/
def toInt (n : Int) : Int := n.bmod (2 ^ 32)

/-- A property, which does not fire again before it is read. -/
structure IntegerProperty where
  value : Int
  valid : Bool
  deriving DecidableEq

/-- `valid` and `currentValue` are those of `value`. -/
structure IntegerSpinnerValueFactory where
  min : IntegerProperty
  max : IntegerProperty
  value : Option Int
  valid : Bool
  currentValue : Option Int
  amountToStepBy : Int
  wrapAround : Bool
  deriving DecidableEq

/-- A setter, whose listeners may call others. -/
inductive Setter where
  | min (newMin : Int)
  | max (newMax : Int)
  | value (newValue : Int)

/-- A setter with its listeners; they nest as deep as told. -/
def set : Nat → Setter → IntegerSpinnerValueFactory → Option IntegerSpinnerValueFactory
  | 0, _, _ => none
  | depth + 1, .min newMin, s =>
    if s.min.value = newMin then some s
    else if !s.min.valid then some { s with min.value := newMin }
    else
      match s.value with
      | none => some { s with min := ⟨newMin, false⟩, valid := true }
      | some currentValue =>
        let s := { s with min := ⟨newMin, true⟩, max.valid := true, valid := true }
        if newMin > s.max.value then set depth (.min s.max.value) s
        else if currentValue < newMin then set depth (.value newMin) s
        else some s
  | depth + 1, .max newMax, s =>
    if s.max.value = newMax then some s
    else if !s.max.valid then some { s with max.value := newMax }
    else
      match s.value with
      | none => some { s with max := ⟨newMax, false⟩, valid := true }
      | some currentValue =>
        let s := { s with max := ⟨newMax, true⟩, min.valid := true, valid := true }
        if newMax < s.min.value then set depth (.max s.min.value) s
        else if currentValue > newMax then set depth (.value newMax) s
        else some s
  | depth + 1, .value newValue, s =>
    if s.value = some newValue then some s
    else if !s.valid then some { s with value := some newValue }
    else if s.currentValue = some newValue then some { s with value := some newValue }
    else
      let s := { s with value := some newValue, currentValue := some newValue, min.valid := true }
      if newValue < s.min.value then set depth (.value s.min.value) s
      else
        let s := { s with max.valid := true }
        if newValue > s.max.value then set depth (.value s.max.value) s else some s

variable {least greatest v : Int} {amount : Int} {wrapAround : Bool}

/-- A factory between two calls: everything has been read. -/
def settled (least greatest v amount : Int) (wrapAround : Bool) : IntegerSpinnerValueFactory :=
  ⟨⟨least, true⟩, ⟨greatest, true⟩, some v, true, some v, amount, wrapAround⟩

theorem set_value {w : Int} (hleast : least ≤ w) (hgreatest : w ≤ greatest) (depth : Nat) :
    set (depth + 1) (.value w) (settled least greatest v amount wrapAround) =
      some (settled least greatest w amount wrapAround) := by
  by_cases hsame : v = w
  · simp [set, settled, hsame]
  · simp [set, settled, hsame, not_lt.mpr hleast, not_lt.mpr hgreatest]

/-- The listener of `value` is added before the first value. -/
def new (min max initialValue amountToStepBy : Int) : Option IntegerSpinnerValueFactory := do
  let s ← set 3 (.min min) ⟨⟨0, true⟩, ⟨0, true⟩, none, true, none, amountToStepBy, false⟩
  let s ← set 3 (.max max) s
  set 3 (.value (if initialValue ≥ min ∧ initialValue ≤ max then initialValue else min)) s

/-- `Spinner.wrapValue`. -/
def wrapValue (value min max : Int) : Option Int :=
  if max = 0 then none
  else
    let r := value.tmod max
    if r > min ∧ max < min then some (toInt (r + max - min))
    else if r < min ∧ max > min then some (toInt (r + max - min))
    else some r

/-- None where the listeners never end. -/
def decrement (steps : Int) (s : IntegerSpinnerValueFactory) : Option IntegerSpinnerValueFactory := do
  let newIndex := toInt ((← s.value) - toInt (steps * s.amountToStepBy))
  let read := { s with min.valid := true, max.valid := true, valid := true }
  if newIndex ≥ s.min.value then set 3 (.value newIndex) read
  else if s.wrapAround then
    set 3 (.value (toInt ((← wrapValue newIndex s.min.value s.max.value) + 1))) read
  else set 3 (.value s.min.value) read

/-- None where the listeners never end. -/
def increment (steps : Int) (s : IntegerSpinnerValueFactory) : Option IntegerSpinnerValueFactory := do
  let newIndex := toInt ((← s.value) + toInt (steps * s.amountToStepBy))
  let read := { s with min.valid := true, max.valid := true, valid := true }
  if newIndex ≤ s.max.value then set 3 (.value newIndex) read
  else if s.wrapAround then
    set 3 (.value (toInt ((← wrapValue newIndex s.min.value s.max.value) - 1))) read
  else set 3 (.value s.max.value) read

/-- A method. -/
inductive Call where
  | setMin (value : Int)
  | setMax (value : Int)
  | setValue (value : Int)
  | increment (steps : Int)
  | decrement (steps : Int)

/-- A call, with enough fuel for the listeners. -/
def step (s : IntegerSpinnerValueFactory) : Call → Option IntegerSpinnerValueFactory
  | .setMin value => set 3 (.min value) s
  | .setMax value => set 3 (.max value) s
  | .setValue value => set 3 (.value value) s
  | .increment steps => Spinner.increment steps s
  | .decrement steps => Spinner.decrement steps s

/-! ## The setters -/

section

variable (h : least ≤ v ∧ v ≤ greatest)
include h

theorem set_value_clamp (w : Int) (depth : Nat) :
    set (depth + 2) (.value w) (settled least greatest v amount wrapAround) =
      some (settled least greatest (max least (min greatest w)) amount wrapAround) := by
  by_cases hleast : least ≤ w
  · by_cases hgreatest : w ≤ greatest
    · rw [min_eq_right hgreatest, max_eq_right hleast]
      exact set_value hleast hgreatest _
    · have hclamp : max least (min greatest w) = greatest := by omega
      have hcorrect := @set_value least greatest w amount wrapAround greatest (by omega) (by omega)
        depth
      rw [hclamp, ← hcorrect]
      simp [set, settled, show v ≠ w by omega, not_lt.mpr hleast, not_le.mp hgreatest]
  · have hclamp : max least (min greatest w) = least := by omega
    have hcorrect := @set_value least greatest w amount wrapAround least (by omega) (by omega) depth
    rw [hclamp, ← hcorrect]
    simp [set, settled, show v ≠ w by omega, not_le.mp hleast]

theorem set_min (m : Int) : set 3 (.min m) (settled least greatest v amount wrapAround) =
      some (settled (min m greatest) greatest (max v (min m greatest)) amount wrapAround) := by
  have hbelow : ∀ (old m : Int) (depth : Nat), old ≠ m → m ≤ greatest →
      set (depth + 2) (.min m) (settled old greatest v amount wrapAround) =
        some (settled m greatest (max v m) amount wrapAround) := by
    intro old m depth hne hm
    by_cases hlt : v < m
    · have hcorrect := @set_value m greatest v amount wrapAround m (by omega) hm depth
      rw [max_eq_right hlt.le, ← hcorrect]
      simp [set, settled, hne, not_lt.mpr hm, hlt]
    · simp [set, settled, hne, not_lt.mpr hm, hlt, max_eq_left (not_lt.mp hlt)]
  by_cases hsame : least = m
  · subst hsame
    simp [set, settled, min_eq_left (h.1.trans h.2), max_eq_left h.1]
  · by_cases hm : m ≤ greatest
    · rw [min_eq_left hm]
      exact hbelow least m 1 hsame hm
    · rw [min_eq_right (not_le.mp hm).le, ← hbelow m greatest 0 (by omega) (le_refl _)]
      simp [set, settled, hsame, not_le.mp hm]

theorem set_max (m : Int) : set 3 (.max m) (settled least greatest v amount wrapAround) =
      some (settled least (max m least) (min v (max m least)) amount wrapAround) := by
  have habove : ∀ (old m : Int) (depth : Nat), old ≠ m → least ≤ m →
      set (depth + 2) (.max m) (settled least old v amount wrapAround) =
        some (settled least m (min v m) amount wrapAround) := by
    intro old m depth hne hm
    by_cases hlt : m < v
    · have hcorrect := @set_value least m v amount wrapAround m hm (by omega) depth
      rw [min_eq_right hlt.le, ← hcorrect]
      simp [set, settled, hne, not_lt.mpr hm, hlt]
    · simp [set, settled, hne, not_lt.mpr hm, hlt, min_eq_left (not_lt.mp hlt)]
  by_cases hsame : greatest = m
  · subst hsame
    simp [set, settled, max_eq_left (h.1.trans h.2), min_eq_left h.2]
  · by_cases hm : least ≤ m
    · rw [max_eq_left hm]
      exact habove greatest m 1 hsame hm
    · rw [max_eq_right (not_le.mp hm).le, ← habove m least 0 (by omega) (le_refl _)]
      simp [set, settled, hsame, not_le.mp hm]

/-! ## The range -/

omit h in
theorem new_settled (hle : least ≤ greatest) (initialValue amount : Int) :
    ∃ v, least ≤ v ∧ v ≤ greatest ∧
      new least greatest initialValue amount = some (settled least greatest v amount false) := by
  have hmin : set 3 (.min least) ⟨⟨0, true⟩, ⟨0, true⟩, none, true, none, amount, false⟩ =
      some ⟨⟨least, least = 0⟩, ⟨0, true⟩, none, true, none, amount, false⟩ := by
    by_cases h : least = 0
    · simp [set, h]
    · simp [set, h, Ne.symm h]
  have hmax : set 3 (.max greatest) ⟨⟨least, least = 0⟩, ⟨0, true⟩, none, true, none, amount, false⟩ =
      some ⟨⟨least, least = 0⟩, ⟨greatest, greatest = 0⟩, none, true, none, amount, false⟩ := by
    by_cases h : greatest = 0
    · simp [set, h]
    · simp [set, h, Ne.symm h]
  generalize hv : (if initialValue ≥ least ∧ initialValue ≤ greatest then initialValue else least) = v
  have hrng : least ≤ v ∧ v ≤ greatest := by
    split at hv <;> omega
  refine ⟨v, hrng.1, hrng.2, ?_⟩
  rw [new, hmin, Option.bind_eq_bind, Option.bind_some, hmax, Option.bind_some, hv]
  simp [set, settled, not_lt.mpr hrng.1, not_lt.mpr hrng.2]

/-- `inside` if it need not go round, `stop` is the bound. -/
def stepTo (least greatest v amount : Int) (wrapAround : Bool) (w stop d : Int) (inside : Prop)
    [Decidable inside] : Option IntegerSpinnerValueFactory :=
  if inside then set 3 (.value w) (settled least greatest v amount wrapAround)
  else if wrapAround then (wrapValue w least greatest).bind fun r =>
    set 3 (.value (toInt (r + d))) (settled least greatest v amount wrapAround)
  else set 3 (.value stop) (settled least greatest v amount wrapAround)

theorem stepTo_eq (w stop d : Int) (inside : Prop) [Decidable inside] :
    stepTo least greatest v amount wrapAround w stop d inside =
      if inside then some (settled least greatest (max least (min greatest w)) amount wrapAround)
      else if wrapAround then (wrapValue w least greatest).map fun r =>
        settled least greatest (max least (min greatest (toInt (r + d)))) amount wrapAround
      else some (settled least greatest (max least (min greatest stop)) amount wrapAround) := by
  simp only [stepTo, set_value_clamp h _ 1, Option.map_eq_bind, Function.comp_def]

omit h in
theorem increment_eq {steps w : Int} (hw : toInt (v + toInt (steps * amount)) = w) :
    increment steps (settled least greatest v amount wrapAround) =
      stepTo least greatest v amount wrapAround w greatest (-1) (w ≤ greatest) := by
  subst hw
  rfl

omit h in
theorem decrement_eq {steps w : Int} (hw : toInt (v - toInt (steps * amount)) = w) :
    decrement steps (settled least greatest v amount wrapAround) =
      stepTo least greatest v amount wrapAround w least 1 (w ≥ least) := by
  subst hw
  rfl

end

/-- Nothing is left to be read, and the value is in range. -/
def Settled (amount : Int) (s : IntegerSpinnerValueFactory) : Prop :=
  ∃ least greatest v, least ≤ v ∧ v ≤ greatest ∧ s = settled least greatest v amount false

theorem settled_stepTo (h : least ≤ v ∧ v ≤ greatest) (w stop d : Int) (inside : Prop)
    [Decidable inside] :
    ∃ s', stepTo least greatest v amount false w stop d inside = some s' ∧ Settled amount s' := by
  rw [stepTo_eq h]
  split
  · exact ⟨_, rfl, _, _, _, le_max_left _ _, by omega, rfl⟩
  · exact ⟨_, rfl, _, _, _, le_max_left _ _, by omega, rfl⟩

theorem Settled.step {s : IntegerSpinnerValueFactory} (h : Settled amount s) (c : Call) :
    ∃ s', step s c = some s' ∧ Settled amount s' := by
  obtain ⟨least, greatest, v, hleast, hgreatest, rfl⟩ := h
  have hrng := And.intro hleast hgreatest
  cases c with
  | setMin m => exact ⟨_, set_min hrng m, _, _, _, le_max_right _ _, by omega, rfl⟩
  | setMax m => exact ⟨_, set_max hrng m, _, _, _, by omega, min_le_right _ _, rfl⟩
  | setValue w => exact ⟨_, set_value_clamp hrng w 1, _, _, _, le_max_left _ _, by omega, rfl⟩
  | increment steps =>
    rw [Spinner.step, increment_eq rfl]
    exact settled_stepTo hrng ..
  | decrement steps =>
    rw [Spinner.step, decrement_eq rfl]
    exact settled_stepTo hrng ..

/-- `setMin` and `setMax` stop at the other bound. -/
theorem inRange_of_run (hle : least ≤ greatest) (initialValue amount : Int) (calls : List Call) :
    ∃ s, (new least greatest initialValue amount).bind (runActions step · calls) = some s ∧
      (∃ v, s.value = some v ∧ s.min.value ≤ v ∧ v ≤ s.max.value) ∧
      (∀ m, ∃ s', step s (.setMin m) = some s' ∧
        s'.max.value = s.max.value ∧ s'.min.value = min m s.max.value) ∧
      ∀ m, ∃ s', step s (.setMax m) = some s' ∧
        s'.min.value = s.min.value ∧ s'.max.value = max m s.min.value := by
  obtain ⟨v₀, hleast, hgreatest, hnew⟩ := new_settled hle initialValue amount
  obtain ⟨s, hrun, least, greatest, v, h₁, h₂, rfl⟩ := runActions_progress
    (fun s c hs => Settled.step hs c) (⟨_, _, v₀, hleast, hgreatest, rfl⟩ : Settled amount _) calls
  refine ⟨_, by rw [hnew]; exact hrun, ⟨v, rfl, h₁, h₂⟩, fun m => ⟨_, set_min ⟨h₁, h₂⟩ m, rfl, rfl⟩,
    fun m => ⟨_, set_max ⟨h₁, h₂⟩ m, rfl, rfl⟩⟩

/-- A factory from 0 to 10; the minimum is set beyond the maximum. -/
theorem inRange_of_run_setMin : ∃ s,
    (new 0 10 3 1).bind (runActions step · [.setMin 20, .increment 1]) = some s ∧
      ∃ v, s.value = some v ∧ s.min.value ≤ v ∧ v ≤ s.max.value :=
  (inRange_of_run (by decide) 3 1 [.setMin 20, .increment 1]).imp fun _ h => ⟨h.1, h.2.1⟩

/-! ## Stepping -/

/-- Where it lands with `wrapAround`, `d` being added. -/
def landing (least greatest w d : Int) : Int :=
  if greatest < 0 then greatest
  else
    let r := w.tmod greatest
    max least ((if r < least ∧ least < greatest then r + (greatest - least) else r) + d)

theorem toInt_of_range {n : Int} (hlow : -2 ^ 31 ≤ n) (hhigh : n < 2 ^ 31) : toInt n = n :=
  Int.bmod_eq_of_le (by omega) (by omega)

theorem wrapValue_landing (hle : least ≤ greatest) (hlow : -2 ^ 31 ≤ least) (hhigh : greatest < 2 ^ 31)
    (hne : greatest ≠ 0) {w d : Int} (hd : d = 1 ∨ d = -1)
    (hw : greatest < 0 → w.tmod greatest + d < 2 ^ 31) :
    ∃ r, wrapValue w least greatest = some r ∧
      max least (min greatest (toInt (r + d))) = landing least greatest w d := by
  have habs : (w.tmod greatest).natAbs < greatest.natAbs := by
    rw [Int.natAbs_tmod]
    exact Nat.mod_lt _ (Int.natAbs_pos.mpr hne)
  simp only [wrapValue, landing, if_neg hne]
  generalize w.tmod greatest = r at *
  rw [if_neg (by omega)]
  by_cases hneg : greatest < 0
  · have hsum := hw hneg
    rw [if_neg (by omega), if_pos hneg]
    refine ⟨r, rfl, ?_⟩
    rw [toInt_of_range (by omega) hsum]
    omega
  · rw [if_neg hneg]
    by_cases hraise : r < least ∧ least < greatest
    · rw [if_pos hraise, if_pos hraise, toInt_of_range (by omega) (by omega)]
      refine ⟨_, rfl, ?_⟩
      rw [toInt_of_range (by omega) (by omega)]
      omega
    · rw [if_neg hraise, if_neg hraise]
      refine ⟨_, rfl, ?_⟩
      rw [toInt_of_range (by omega) (by omega)]
      omega

/-- The value `d` steps from the minimum, going round and round. -/
def around (least greatest d : Int) : Int := least + d % (greatest - least + 1)

theorem eq_around_iff {x : Int} (h : least ≤ x ∧ x ≤ greatest) (d : Int) :
    x = around least greatest d ↔ greatest - least + 1 ∣ least + d - x := by
  have hself : (x - least) % (greatest - least + 1) = x - least :=
    Int.emod_eq_of_lt (by omega) (by omega)
  have hshift : least + d - x = d - (x - least) := by omega
  rw [hshift, ← Int.modEq_iff_dvd, Int.ModEq, hself, around]
  omega

/-- It stops or goes round, and going round is undone. -/
def StepsRight (least greatest v amount : Int) (wrapAround : Bool) (steps : Int) : Prop :=
  increment steps (settled least greatest v amount wrapAround) =
      some (settled least greatest (if wrapAround then
        around least greatest (v - least + steps * amount)
        else min greatest (v + steps * amount)) amount wrapAround) ∧
    decrement steps (settled least greatest v amount wrapAround) =
      some (settled least greatest (if wrapAround then
        around least greatest (v - least - steps * amount)
        else max least (v - steps * amount)) amount wrapAround) ∧
    (wrapAround = true →
      (increment steps (settled least greatest v amount wrapAround)).bind (decrement steps) =
        some (settled least greatest v amount wrapAround))

/-- Going round to `t`, where `w` is the `int` value of `t`: what is left of `t` by the quotient `q`
    makes up whole rounds. -/
def GoesRound (least greatest t w d : Int) (inside : Prop) [Decidable inside] : Prop :=
  let q := w.tdiv greatest
  if inside then t = w ∨ greatest - least + 1 ∣
    if w ≤ least then t - least else if greatest ≤ w then t - greatest else t - w
  else greatest ≠ 0 ∧ greatest - least + 1 ∣
    if greatest < 0 then t - greatest
    -- the remainder is below the minimum, and the width of the range is added
    else if w - q * greatest < least ∧ least < greatest then
      if w - q * greatest + greatest + d ≤ 2 * least then t - least
      else t - w + q * (least - 1) + 1 - d
    else if w - q * greatest + d ≤ least then t - least
    else t - w + q * (least - 1) - d
  deriving Decidable

/-- A step up to `t`. -/
def UpFits (least greatest t w : Int) (wrapAround : Bool) : Prop :=
  if wrapAround then GoesRound least greatest t w (-1) (w ≤ greatest)
  else t ≤ greatest ∨ greatest ≤ w ∨ least = greatest
  deriving Decidable

/-- A step down to `t`. -/
def DownFits (least greatest t w : Int) (wrapAround : Bool) : Prop :=
  if wrapAround then GoesRound least greatest t w 1 (w ≥ least)
  else least ≤ t ∨ w ≤ least ∨ least = greatest
  deriving Decidable

theorem settled_inj {w w' : Int} : settled least greatest w amount wrapAround =
    settled least greatest w' amount wrapAround ↔ w = w' := by
  simp [settled]

theorem landing_range (hle : least ≤ greatest) (w d : Int) (hd : d = 1 ∨ d = -1)
    (hne : greatest ≠ 0) :
    least ≤ landing least greatest w d ∧ landing least greatest w d ≤ greatest := by
  have habs : (w.tmod greatest).natAbs < greatest.natAbs := by
    rw [Int.natAbs_tmod]
    exact Nat.mod_lt _ (Int.natAbs_pos.mpr hne)
  unfold landing
  split
  · exact ⟨hle, le_refl _⟩
  · dsimp only
    split <;> omega

/-- The quotient leaves as much of `t` as the value that is set, up to whole rounds. -/
theorem dvd_sub_landing (hpos : ¬greatest < 0) {t w d : Int} :
    greatest - least + 1 ∣ t - landing least greatest w d ↔
      greatest - least + 1 ∣
        if w - w.tdiv greatest * greatest < least ∧ least < greatest then
          if w - w.tdiv greatest * greatest + greatest + d ≤ 2 * least then t - least
          else t - w + w.tdiv greatest * (least - 1) + 1 - d
        else if w - w.tdiv greatest * greatest + d ≤ least then t - least
        else t - w + w.tdiv greatest * (least - 1) - d := by
  have hrounds : ∀ left k : Int, greatest - least + 1 ∣ left + k * (greatest - least + 1) ↔
      greatest - least + 1 ∣ left := fun left k =>
    Int.dvd_add_left (Int.dvd_mul_left k _)
  rw [landing, if_neg hpos, Int.tmod_def, Int.mul_comm greatest]
  generalize w.tdiv greatest = q
  dsimp only
  split
  · split
    · rw [max_eq_left (by omega)]
    · rw [max_eq_right (by omega), ← hrounds (t - w + q * (least - 1) + 1 - d) (q - 1)]
      ring_nf
  · split
    · rw [max_eq_left (by omega)]
    · rw [max_eq_right (by omega), ← hrounds (t - w + q * (least - 1) - d) q]
      ring_nf

section

variable (hlow : -2 ^ 31 ≤ least) (hhigh : greatest < 2 ^ 31) (h : least ≤ v ∧ v ≤ greatest)
include hlow hhigh h

theorem stepTo_iff {t w stop d x : Int} (hd : d = 1 ∨ d = -1) {inside : Prop} [Decidable inside]
    (hw : greatest < 0 → ¬inside → w.tmod greatest + d < 2 ^ 31)
    (hsame : inside → t = w → least ≤ w ∧ w ≤ greatest) :
    stepTo least greatest v amount wrapAround w stop d inside =
        some (settled least greatest (if wrapAround then around least greatest (t - least) else x)
          amount wrapAround) ↔
      if wrapAround then GoesRound least greatest t w d inside
      else max least (min greatest (if inside then w else stop)) = x := by
  have hshift : least + (t - least) = t := by omega
  have hclamp : ∀ y, least ≤ max least (min greatest y) ∧ max least (min greatest y) ≤ greatest :=
    fun y => ⟨le_max_left _ _, by omega⟩
  rw [stepTo_eq h, GoesRound]
  cases wrapAround with
  | false => by_cases hin : inside <;> simp [hin, settled_inj]
  | true =>
    by_cases hin : inside
    · simp only [if_pos hin, if_true, Option.some_inj, settled_inj, eq_around_iff (hclamp w), hshift]
      have hmissed : t - max least (min greatest w) =
          if w ≤ least then t - least else if greatest ≤ w then t - greatest else t - w := by
        split
        · omega
        · split <;> omega
      rw [hmissed]
      refine ⟨Or.inr, fun hor => hor.elim (fun heq => ?_) id⟩
      have := hsame hin heq
      rw [← hmissed, heq, min_eq_right this.2, max_eq_right this.1, Int.sub_self]
      exact Int.dvd_zero _
    · simp only [if_neg hin, if_true]
      by_cases hne : greatest = 0
      · simp [wrapValue, hne]
      · obtain ⟨r, hr, hland⟩ :=
          wrapValue_landing (h.1.trans h.2) hlow hhigh hne hd fun hneg => hw hneg hin
        rw [hr, Option.map_some, hland, Option.some_inj, settled_inj,
          eq_around_iff (landing_range (h.1.trans h.2) w d hd hne), hshift]
        by_cases hneg : greatest < 0
        · simp [landing, hne, hneg]
        · rw [dvd_sub_landing hneg, if_neg hneg]
          simp only [ne_eq, hne, not_false_eq_true, true_and]

theorem increment_iff {steps : Int} (hk : 0 < steps * amount) :
    increment steps (settled least greatest v amount wrapAround) =
        some (settled least greatest (if wrapAround then
          around least greatest (v - least + steps * amount)
          else min greatest (v + steps * amount)) amount wrapAround) ↔
      UpFits least greatest (v + steps * amount) (toInt (v + steps * amount)) wrapAround := by
  rw [increment_eq (Int.add_bmod_bmod : toInt (v + toInt (steps * amount)) = _), UpFits, toInt]
  have hfit : v + steps * amount ≤ greatest → toInt (v + steps * amount) = v + steps * amount :=
    fun ht => toInt_of_range (by omega) (by omega)
  rw [toInt] at hfit
  generalize steps * amount = k at hk hfit ⊢
  generalize (v + k).bmod (2 ^ 32) = w at hfit ⊢
  rw [show v - least + k = v + k - least by omega, stepTo_iff hlow hhigh h (Or.inr rfl)]
  · cases wrapAround with
    | true => exact Iff.rfl
    | false =>
      simp only [Bool.false_eq_true, if_false]
      split <;> omega
  · intro hneg _
    have habs := Int.tmod_lt_of_pos w (show 0 < -greatest by omega)
    rw [Int.tmod_neg] at habs
    omega
  · omega

theorem decrement_iff {steps : Int} (hk : 0 < steps * amount) :
    decrement steps (settled least greatest v amount wrapAround) =
        some (settled least greatest (if wrapAround then
          around least greatest (v - least - steps * amount)
          else max least (v - steps * amount)) amount wrapAround) ↔
      DownFits least greatest (v - steps * amount) (toInt (v - steps * amount)) wrapAround := by
  rw [decrement_eq (Int.sub_bmod_bmod : toInt (v - toInt (steps * amount)) = _), DownFits, toInt]
  have hfit : least ≤ v - steps * amount → toInt (v - steps * amount) = v - steps * amount :=
    fun ht => toInt_of_range (by omega) (by omega)
  rw [toInt] at hfit
  generalize steps * amount = k at hk hfit ⊢
  generalize (v - k).bmod (2 ^ 32) = w at hfit ⊢
  rw [show v - least - k = v - k - least by omega, stepTo_iff hlow hhigh h (Or.inl rfl)]
  · cases wrapAround with
    | true => exact Iff.rfl
    | false =>
      simp only [Bool.false_eq_true, if_false]
      split <;> omega
  · intro hneg hout
    have hsign := Int.tmod_nonneg (-greatest) (show 0 ≤ -w by omega)
    rw [Int.neg_tmod, Int.tmod_neg] at hsign
    omega
  · omega

end

theorem around_range (hle : least ≤ greatest) (d : Int) :
    least ≤ around least greatest d ∧ around least greatest d ≤ greatest := by
  have hnn := Int.emod_nonneg d (show greatest - least + 1 ≠ 0 by omega)
  have hlt := Int.emod_lt_of_pos d (show 0 < greatest - least + 1 by omega)
  unfold around
  omega

/-- The condition is for both directions and the way back. -/
theorem stepsRight_iff (hlow : -2 ^ 31 ≤ least) (hhigh : greatest < 2 ^ 31)
    (h : least ≤ v ∧ v ≤ greatest) {steps : Int} (hsteps : 1 ≤ steps) (hamount : 1 ≤ amount) :
    StepsRight least greatest v amount wrapAround steps ↔
      UpFits least greatest (v + steps * amount) (toInt (v + steps * amount)) wrapAround ∧
      DownFits least greatest (v - steps * amount) (toInt (v - steps * amount)) wrapAround ∧
      (wrapAround = true →
        let reached := around least greatest (v - least + steps * amount)
        DownFits least greatest (reached - steps * amount) (toInt (reached - steps * amount)) true) := by
  have hk : 0 < steps * amount := Int.mul_pos (by omega) (by omega)
  rw [StepsRight, ← increment_iff hlow hhigh h hk, ← decrement_iff hlow hhigh h hk]
  refine and_congr_right fun hup => and_congr_right fun _ => imp_congr_right fun hwrap => ?_
  subst hwrap
  have hrng := around_range (h.1.trans h.2) (v - least + steps * amount)
  have hback : around least greatest
      (around least greatest (v - least + steps * amount) - least - steps * amount) = v := by
    refine ((eq_around_iff h _).mpr ?_).symm
    have hself : greatest - least + 1 ∣ v - least + steps * amount -
        (v - least + steps * amount) % (greatest - least + 1) := Int.dvd_self_sub_emod
    unfold around
    convert Int.dvd_neg.mpr hself using 1
    omega
  rw [hup, Option.bind_some]
  dsimp only
  rw [← decrement_iff hlow hhigh hrng hk, if_pos rfl, if_pos rfl, hback]

/-- A step up by 3 from 9 of 0 to 10 goes round to 1, and back. -/
theorem stepsRight_iff_nine : StepsRight 0 10 9 3 true 1 :=
  (stepsRight_iff (by decide) (by decide) (by decide) (by decide) (by decide)).mpr
    ⟨by decide, by decide, by decide⟩

/-- Up by 2 from 12 of 1 to 12 goes to 1 instead of 2. -/
theorem stepsRight_fails : ¬∀ (least greatest v amount : Int) (wrapAround : Bool) (steps : Int),
    -2 ^ 31 ≤ least → greatest < 2 ^ 31 → least ≤ v ∧ v ≤ greatest → 1 ≤ steps → 1 ≤ amount →
    StepsRight least greatest v amount wrapAround steps := by
  intro h
  have hup := (h 1 12 12 1 true 2 (by decide) (by decide) (by decide) (by decide) (by decide)).1
  revert hup
  decide

end OpenJfx.Controls.Spinner
