/-
  OpenJfx.Css.CascadingStyle

  `com.sun.javafx.css.CascadingStyle` as far as `compareTo` reads it. `rank` is the order the
  comparison is meant to give: importance, origin (none without a rule or stylesheet),
  specificity, ordinal.
-/

import Mathlib.Tactic.Ring

namespace OpenJfx.Css

open Int

/-- `javafx.css.StyleOrigin`. -/
inductive StyleOrigin where
  | userAgent
  | user
  | author
  | inline
  deriving DecidableEq, Repr

/-- `Enum.ordinal()`. -/
def StyleOrigin.ordinal : StyleOrigin → Int
  | .userAgent => 0
  | .user => 1
  | .author => 2
  | .inline => 3

/-- `Enum.compareTo`. -/
def StyleOrigin.compareTo (a b : StyleOrigin) : Int := a.ordinal - b.ordinal

theorem StyleOrigin.ordinal_injective {a b : StyleOrigin} (h : a.ordinal = b.ordinal) : a = b := by
  cases a <;> cases b <;> first | rfl | cases h

/-- `a - b` of two `int`s. -/
def intSub (a b : Int) : Int := (a - b).bmod (2 ^ 32)

/-- The fields that `compareTo` reads. -/
structure CascadingStyle where
  property : String
  important : Bool
  origin : Option StyleOrigin
  specificity : Int
  ordinal : Int
  deriving DecidableEq, Repr

variable {a b : CascadingStyle} {l : List CascadingStyle}

namespace CascadingStyle

/-- The flag the constructor sets. -/
def skinProp (a : CascadingStyle) : Bool := a.property == "-fx-skin"

/-- The test of two origins that differ. -/
def compareOrigin : Option StyleOrigin → Option StyleOrigin → Int
  | none, _ => -1
  | some _, none => 1
  | some source, some otherSource => otherSource.compareTo source

/-- The chain of tests of `compareTo`, before the ordinals are compared. -/
def compareUpToOrdinal (a other : CascadingStyle) : Int :=
  if a.skinProp && !other.skinProp then 1
  else if a.important ≠ other.important then
    if a.important then -1 else 1
  else if a.origin ≠ other.origin then compareOrigin a.origin other.origin
  else intSub other.specificity a.specificity

/-- `compareTo`, with the ordinals at the end. -/
def compareTo (a other : CascadingStyle) : Int :=
  let c := a.compareUpToOrdinal other
  if c = 0 then intSub other.ordinal a.ordinal else c

/-- `Collections.sort`, a stable merge sort. -/
def sort (l : List CascadingStyle) : List CascadingStyle :=
  l.mergeSort fun a b => decide (a.compareTo b ≤ 0)

/-! ## The cascade order -/

/-- How high an origin is; a missing one counts as the highest. -/
def originRank : Option StyleOrigin → Int
  | none => 4
  | some o => o.ordinal

def importance (a : CascadingStyle) : Int := if a.important then 1 else 0

/-- Important, then origin, then specificity, then ordinal. -/
def Precedes (a b : CascadingStyle) : Prop :=
  b.importance < a.importance ∨ b.importance = a.importance ∧
    (originRank b.origin < originRank a.origin ∨ originRank b.origin = originRank a.origin ∧
      (b.specificity < a.specificity ∨ b.specificity = a.specificity ∧ b.ordinal ≤ a.ordinal))

instance (a b : CascadingStyle) : Decidable (Precedes a b) :=
  inferInstanceAs (Decidable (_ ∨ _))

theorem precedes_total (a b : CascadingStyle) : Precedes a b ∨ Precedes b a := by
  simp only [Precedes]
  omega

theorem Precedes.trans {c : CascadingStyle} (h1 : Precedes a b) (h2 : Precedes b c) :
    Precedes a c := by
  simp only [Precedes] at *
  omega

/-- The numeric differences of two styles do not overflow `int`. -/
def NoOverflow (a b : CascadingStyle) : Prop :=
  (-2 ^ 31 ≤ b.specificity - a.specificity ∧ b.specificity - a.specificity < 2 ^ 31) ∧
    (-2 ^ 31 ≤ b.ordinal - a.ordinal ∧ b.ordinal - a.ordinal < 2 ^ 31)

theorem intSub_eq {a b : Int} (h1 : -2 ^ 31 ≤ a - b) (h2 : a - b < 2 ^ 31) :
    intSub a b = a - b := by
  rw [intSub]
  exact bmod_eq_of_le (by omega) (by omega)

theorem importance_eq_iff :
    a.importance = b.importance ↔ a.important = b.important := by
  rw [importance, importance]
  cases a.important <;> cases b.important <;> decide

theorem originRank_eq_iff {o o' : Option StyleOrigin} : originRank o = originRank o' ↔ o = o' := by
  cases o with
  | none =>
    cases o' with
    | none => simp
    | some o' => cases o' <;> simp [originRank, StyleOrigin.ordinal]
  | some o =>
    cases o' with
    | none => cases o <;> simp [originRank, StyleOrigin.ordinal]
    | some o' =>
      rw [originRank, originRank, Option.some.injEq]
      exact ⟨StyleOrigin.ordinal_injective, congrArg _⟩

theorem compareOrigin_spec {o o' : Option StyleOrigin} (h : o ≠ o') :
    (compareOrigin o o' < 0 ↔ originRank o' < originRank o) ∧ compareOrigin o o' ≠ 0 := by
  have hne : originRank o ≠ originRank o' := fun heq => h (originRank_eq_iff.mp heq)
  cases o with
  | none =>
    cases o' with
    | none => exact absurd rfl h
    | some o' => cases o' <;> decide
  | some o =>
    cases o' with
    | none => cases o <;> decide
    | some o' =>
      simp only [originRank, compareOrigin, StyleOrigin.compareTo] at *
      omega

/-- Without the branch for the skin, the comparison decides by rank. -/
theorem compareTo_spec (hskin : (a.skinProp && !b.skinProp) = false) (hno : NoOverflow a b) :
    (a.compareTo b < 0 ↔ ¬ Precedes b a) ∧ (a.compareTo b ≤ 0 ↔ Precedes a b) := by
  have hspec := intSub_eq hno.1.1 hno.1.2
  have hord := intSub_eq hno.2.1 hno.2.2
  rw [compareTo, compareUpToOrdinal, hskin, if_neg Bool.false_ne_true]
  simp only [Precedes]
  by_cases himp : a.important = b.important
  · have himp' := importance_eq_iff.mpr himp
    rw [if_neg (not_not_intro himp)]
    by_cases horig : a.origin = b.origin
    · have horig' := originRank_eq_iff.mpr horig
      rw [if_neg (not_not_intro horig), hspec, hord]
      split <;> omega
    · obtain ⟨hlt, hne⟩ := compareOrigin_spec horig
      have horig' : originRank a.origin ≠ originRank b.origin :=
        fun h => horig (originRank_eq_iff.mp h)
      rw [if_pos horig, if_neg hne]
      omega
  · rw [if_pos himp]
    rw [importance, importance] at *
    cases ha : a.important <;> cases hb : b.important <;> simp_all

theorem compareTo_skin (ha : a.skinProp = true) (hb : b.skinProp = false) :
    a.compareTo b = 1 := by
  rw [compareTo, compareUpToOrdinal, ha, hb]
  rfl

/-! ## Lists of styles -/

/-- A total order on the styles of `l`, and what sorting by it gives. -/
structure SortsByCascade (l : List CascadingStyle) : Prop where
  antisymm : ∀ a ∈ l, ∀ b ∈ l, (a.compareTo b).sign = -(b.compareTo a).sign
  trans : ∀ a ∈ l, ∀ b ∈ l, ∀ c ∈ l, a.compareTo b ≤ 0 → b.compareTo c ≤ 0 → a.compareTo c ≤ 0
  perm : (sort l).Perm l
  sorted : (sort l).Pairwise fun a b => a.skinProp = b.skinProp → Precedes a b

/-- Every `-fx-skin` style comes behind the others by rank. -/
def SkinLast (l : List CascadingStyle) : Prop :=
  ∀ a ∈ l, ∀ b ∈ l, a.skinProp = true → b.skinProp = false → ¬ Precedes a b

theorem SkinLast.compareTo_iff (h : SkinLast l)
    (hno : ∀ a ∈ l, ∀ b ∈ l, NoOverflow a b) (ha : a ∈ l) (hb : b ∈ l) :
    (a.compareTo b < 0 ↔ ¬ Precedes b a) ∧ (a.compareTo b ≤ 0 ↔ Precedes a b) := by
  cases hskin : a.skinProp && !b.skinProp with
  | false => exact compareTo_spec hskin (hno a ha b hb)
  | true =>
    obtain ⟨hsa, hsb⟩ : a.skinProp = true ∧ b.skinProp = false := by simpa using hskin
    have hnot := h a ha b hb hsa hsb
    have hba := (precedes_total a b).resolve_left hnot
    rw [compareTo_skin hsa hsb]
    exact ⟨⟨fun h => by omega, fun h => absurd hba h⟩, ⟨fun h => by omega, fun h => absurd h hnot⟩⟩

theorem sort_eq_of_compareTo (h : ∀ a ∈ l, ∀ b ∈ l, a.compareTo b ≤ 0 ↔ Precedes a b) :
    sort l = l.mergeSort fun a b => decide (Precedes a b) := by
  have hmap := List.map_mergeSort (l := l) (f := id) (r := fun a b => decide (a.compareTo b ≤ 0))
    (s := fun a b => decide (Precedes a b)) (by
      intro a ha b hb
      rw [decide_eq_decide]
      exact h a ha b hb)
  rwa [List.map_id, List.map_id] at hmap

theorem mergeSort_precedes (l : List CascadingStyle) :
    (l.mergeSort fun a b => decide (Precedes a b)).Pairwise Precedes := by
  have hsort := @List.pairwise_mergeSort _ (fun a b => decide (Precedes a b)) (by
      intro a b c hab hbc
      rw [decide_eq_true_iff] at *
      exact hab.trans hbc)
    (by
      intro a b
      rw [Bool.or_eq_true, decide_eq_true_iff, decide_eq_true_iff]
      exact precedes_total a b) l
  exact hsort.imp of_decide_eq_true

/-- The comparison orders the styles of a list, and sorts them by the cascade, exactly
    when no `-fx-skin` style of it ranks before or beside another style. -/
theorem sortsByCascade_iff (l : List CascadingStyle) (hno : ∀ a ∈ l, ∀ b ∈ l, NoOverflow a b) :
    SortsByCascade l ↔ SkinLast l := by
  constructor
  · intro h a ha b hb hsa hsb hab
    -- the skin sorts behind, so the other style has to sort before it
    have hanti := h.antisymm a ha b hb
    rw [compareTo_skin hsa hsb, Int.sign_one] at hanti
    have hlt : b.compareTo a < 0 := sign_eq_neg_one_iff_neg.mp (by omega)
    exact (compareTo_spec (by rw [hsa, hsb]; rfl) (hno b hb a ha)).1.mp hlt hab
  · intro h
    refine ⟨?_, ?_, List.mergeSort_perm _ _, ?_⟩
    · intro a ha b hb
      obtain ⟨h₁, h₂⟩ := h.compareTo_iff hno ha hb
      obtain ⟨h₃, h₄⟩ := h.compareTo_iff hno hb ha
      rcases lt_trichotomy (a.compareTo b) 0 with hlt | heq | hgt
      · have hba : 0 < b.compareTo a := by
          by_contra hle
          exact h₁.mp hlt (h₄.mp (by omega))
        rw [sign_eq_neg_one_of_neg hlt, sign_eq_one_of_pos hba]
      · have hba : b.compareTo a = 0 := by
          have hle := h₂.mp (by omega)
          have hnlt : ¬ b.compareTo a < 0 := fun hlt => h₃.mp hlt hle
          have hnle : b.compareTo a ≤ 0 := h₄.mpr (by
            by_contra hnot
            have := h₁.mpr hnot
            omega)
          omega
        rw [heq, hba]
        rfl
      · have hba : b.compareTo a < 0 := h₃.mpr fun hab => by
          have := h₂.mpr hab
          omega
        rw [sign_eq_one_of_pos hgt, sign_eq_neg_one_of_neg hba]
        rfl
    · intro a ha b hb c hc hab hbc
      rw [(h.compareTo_iff hno ha hb).2] at hab
      rw [(h.compareTo_iff hno hb hc).2] at hbc
      exact (h.compareTo_iff hno ha hc).2.mpr (hab.trans hbc)
    · rw [sort_eq_of_compareTo fun a ha b hb => (h.compareTo_iff hno ha hb).2]
      apply (mergeSort_precedes l).imp
      intro a b hab _
      exact hab

/-- An important style, a normal one and a skin style behind both. -/
theorem sortsByCascade_skin_last :
    let l : List CascadingStyle := [⟨"-fx-skin", false, some .userAgent, 1, 0⟩,
      ⟨"-fx-fill", false, some .author, 3, 7⟩, ⟨"-fx-fill", true, none, 1, 2⟩]
    (∀ a ∈ l, ∀ b ∈ l, NoOverflow a b) ∧ SkinLast l ∧ SortsByCascade l := by
  intro l
  have hno : ∀ a ∈ l, ∀ b ∈ l, NoOverflow a b := by
    simp only [l, NoOverflow]
    decide
  have hskin : SkinLast l := by
    simp only [l, SkinLast]
    decide
  exact ⟨hno, hskin, (sortsByCascade_iff l hno).mpr hskin⟩

/-- The skin style sorts behind, the other one not before. -/
theorem compareTo_not_antisymm :
    let skin : CascadingStyle := ⟨"-fx-skin", false, some .author, 1, 0⟩
    let fill : CascadingStyle := ⟨"-fx-fill", false, some .author, 1, 0⟩
    skin.compareTo fill = 1 ∧ fill.compareTo skin = 0 := by
  decide

end CascadingStyle

end OpenJfx.Css
