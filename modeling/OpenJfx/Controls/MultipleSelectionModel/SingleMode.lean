/-
  OpenJfx.Controls.MultipleSelectionModel.SingleMode

  Runs in single mode: at most one row is selected, and the lead is this row or none.
-/

import OpenJfx.Controls.MultipleSelectionModel.ShiftSelection

namespace OpenJfx.Controls.MultipleSelectionModelBase

open List Bool

variable {T : Type} {s : MultipleSelectionModelBase T}

/-! ## The invariant -/

/-- At most one row is selected. -/
def AtMostOne (s : MultipleSelectionModelBase T) : Prop :=
  ∀ i j, s.selectedIndices.bit i = true → s.selectedIndices.bit j = true → i = j

/-- The lead is the selected row, or none. -/
def LeadAgrees (s : MultipleSelectionModelBase T) : Prop :=
  ∀ i : Nat, s.selectedIndices.bit i = true → s.selectedIndex = i ∨ s.selectedIndex = -1

/-- Single mode, outside of any atomic block. -/
structure Single (s : MultipleSelectionModelBase T) : Prop where
  mode : s.selectionMode = .single
  calm : s.atomicityCount = 0

/-- At most one row is selected, and the lead agrees. -/
structure Tidy (s : MultipleSelectionModelBase T) : Prop extends Single s where
  one : s.AtMostOne
  lead : s.LeadAgrees

theorem Single.tidy_of_empty (h : s.Single) (hemp : ∀ i, s.selectedIndices.bit i = false) :
    s.Tidy := by
  refine ⟨h, fun i j hi => ?_, fun i hi => ?_⟩
  · rw [hemp] at hi
    cases hi
  · rw [hemp] at hi
    cases hi

theorem Single.tidy_of_lead (h : s.Single) {row : Nat}
    (hbit : ∀ i, s.selectedIndices.bit i = true → i = row) (hlead : s.selectedIndex = row) :
    s.Tidy := by
  refine ⟨h, fun i j hi hj => ?_, fun i hi => ?_⟩
  · rw [hbit i hi, hbit j hj]
  · rw [hbit i hi]
    exact .inl hlead

theorem Tidy.callObservers (h : s.Tidy) (c : IndexChange) : (s.callObservers c).Tidy :=
  ⟨{ h with }, h.one, h.lead⟩

theorem Tidy.indexOf (h : s.Tidy) (row : Int) : (s.indexOf row).2.Tidy :=
  ⟨{ h with }, h.one, h.lead⟩

theorem Tidy.quietClearSelection (h : s.Tidy) : s.quietClearSelection.Tidy :=
  Single.tidy_of_empty { h with } fun _ => rfl

/-! ## The operations -/

section Operations

theorem Single.clearSelection (h : s.Single) : s.clearSelection.Tidy := by
  obtain ⟨_, _, _, heq⟩ := clearSelection_eq s
  rw [heq]
  exact Single.tidy_of_empty { h with } fun _ => rfl

variable (equals : T → Option T → Bool)

theorem Single.select (h : s.Single) (hone : s.AtMostOne) {row : Int} (h0 : 0 ≤ row)
    (hrow : row < s.getItemCount) : (s.select equals row).Tidy := by
  rw [select_eq equals h0 hrow]
  refine @Single.tidy_of_lead _ _ { h with } row.toNat (fun i hi => ?_) ?_
  · rcases (bit_bitsWith row i).1 hi with rfl | ⟨hi, hbit | hmode⟩
    · rfl
    · exact hone i row.toNat hi hbit
    · exact absurd h.mode hmode
  · show row = _
    omega

theorem Tidy.select (h : s.Tidy) (row : Int) : (s.select equals row).Tidy := by
  by_cases hnone : row = -1
  · rw [MultipleSelectionModelBase.select, if_pos hnone]
    exact h.toSingle.clearSelection
  · by_cases hin : 0 ≤ row ∧ row < s.getItemCount
    · exact h.toSingle.select equals h.one hin.1 hin.2
    · rw [MultipleSelectionModelBase.select, if_neg hnone, if_pos (by omega)]
      exact h

theorem Tidy.clearSelectionAt (h : s.Tidy) (index : Int) : (s.clearSelectionAt index).Tidy := by
  unfold MultipleSelectionModelBase.clearSelectionAt
  split
  · exact h
  · have hcleared : ({ s with selectedIndices := s.selectedIndices.clear index.toNat } :
        MultipleSelectionModelBase T).Tidy := by
      have hsub : ∀ i, (s.selectedIndices.clear index.toNat).bit i = true →
          s.selectedIndices.bit i = true := by
        intro i hi
        rw [JavaBitSet.bit_clear, and_eq_true] at hi
        exact hi.2
      exact ⟨{ h with }, fun i j hi hj => h.one i j (hsub i hi) (hsub j hj),
        fun i hi => h.lead i (hsub i hi)⟩
    have hnotified : ∀ u : MultipleSelectionModelBase T, u.Tidy →
        (if u.isAtomic then u
        else u.callObservers (.genericAddRemove index index [index])).Tidy := by
      intro u hu
      split
      · exact hu
      · exact hu.callObservers _
    refine hnotified _ ?_
    split
    · exact hcleared.toSingle.clearSelection
    · exact hcleared

theorem Tidy.clearAndSelect [DecidableEq T] (h : s.Tidy) (row : Int) :
    (s.clearAndSelect equals row).Tidy := by
  unfold MultipleSelectionModelBase.clearAndSelect
  split
  · exact h.toSingle.clearSelection
  · next hin =>
    dsimp only
    split
    · exact h
    · -- the row is selected after all others have been cleared
      obtain ⟨_, _, _, hclear⟩ := clearSelection_eq s.startAtomic
      have hrow : 0 ≤ row ∧ row < (s.startAtomic.clearSelection).getItemCount := by
        rw [hclear]
        show 0 ≤ row ∧ row < (s.getItemCount : Int)
        omega
      have hselected : ((s.startAtomic.clearSelection).select equals row).stopAtomic.Tidy := by
        rw [select_eq equals hrow.1 hrow.2]
        refine @Single.tidy_of_lead _ _ ⟨?_, ?_⟩ row.toNat (fun i hi => ?_) ?_
        · rw [hclear]
          exact h.mode
        · rw [hclear]
          show s.atomicityCount + 1 - 1 = 0
          rw [h.calm]
        · have hwith : (s.startAtomic.clearSelection.bitsWith row).bit i = true := hi
          rcases (bit_bitsWith row i).1 hwith with rfl | ⟨hold, -⟩
          · rfl
          · rw [hclear] at hold
            cases hold
        · show row = _
          omega
      split
      · exact hselected.callObservers _
      · exact (hselected.indexOf row).callObservers _

theorem Tidy.selectObject (h : s.Tidy) (obj : Option T) : (s.selectObject equals obj).Tidy := by
  unfold MultipleSelectionModelBase.selectObject
  split
  · exact h.toSingle.clearSelection
  · split
    · split
      · exact h
      · refine Tidy.select equals ?_ _
        rw [if_pos h.mode]
        exact h.quietClearSelection
    · rw [setSelectedIndex_eq]
      exact ⟨{ h with }, h.one, fun _ _ => .inr rfl⟩

theorem Single.setBit_select (h : s.Single) (hemp : ∀ i, s.selectedIndices.bit i = false)
    {row : Int} (h0 : 0 ≤ row) (hrow : row < s.getItemCount) :
    ((s.setBit row).select equals row).Tidy := by
  refine Single.select equals (s := s.setBit row) { h with } (fun i j hi hj => ?_) h0 hrow
  have hset : ∀ i, (s.setBit row).selectedIndices.bit i = true → i = row.toNat := by
    intro i hi
    simpa [setBit, hemp] using hi
  rw [hset i hi, hset j hj]

section

variable (h : s.Tidy)
include h

theorem Tidy.selectIndices (row : Int) (rows : List Int) :
    (s.selectIndices equals row rows).Tidy := by
  unfold MultipleSelectionModelBase.selectIndices
  split
  · exact h.select equals row
  · rw [if_pos h.mode, selectIndicesSingle]
    have hsecond : ∀ u : MultipleSelectionModelBase T, u.Tidy →
        (if u.selectedIndices.isEmpty ∧ 0 < row ∧ row < u.getItemCount then
          (u.setBit row).select equals row
        else u).Tidy := by
      intro u hu
      split
      · next hcond =>
        exact hu.toSingle.setBit_select equals (JavaBitSet.isEmpty_iff.1 hcond.1) (by omega)
          hcond.2.2
      · exact hu
    cases hfind : rows.reverse.find? s.quietClearSelection.inRange with
    | none => exact (hsecond _ h.quietClearSelection).callObservers _
    | some index =>
      have hin := find?_some hfind
      rw [inRange, decide_eq_true_eq] at hin
      have hfst := h.quietClearSelection.toSingle.setBit_select equals (fun _ => rfl) hin.1 hin.2
      exact (hsecond _ hfst).callObservers _

theorem Tidy.selectRange (start stop : Int) : (s.selectRange equals start stop).Tidy := by
  unfold MultipleSelectionModelBase.selectRange
  split
  · exact h
  · exact h.selectIndices equals start _

theorem Tidy.quietClearIfSingle : s.quietClearIfSingle.Tidy := by
  rw [MultipleSelectionModelBase.quietClearIfSingle, if_pos h.mode]
  exact h.quietClearSelection

theorem Tidy.selectFirst : (s.selectFirst equals).Tidy := by
  unfold MultipleSelectionModelBase.selectFirst
  dsimp only
  split
  · exact h.quietClearIfSingle.select equals _
  · exact h.quietClearIfSingle

theorem Tidy.selectLast : (s.selectLast equals).Tidy := by
  unfold MultipleSelectionModelBase.selectLast
  dsimp only
  split
  · exact h.quietClearIfSingle.select equals _
  · exact h.quietClearIfSingle

theorem Tidy.selectPrevious (focusIndex : Int) : (s.selectPrevious equals focusIndex).Tidy := by
  unfold MultipleSelectionModelBase.selectPrevious
  dsimp only
  split
  · exact h.quietClearIfSingle.select equals _
  · split
    · exact h.quietClearIfSingle.select equals _
    · exact h.quietClearIfSingle

theorem Tidy.selectNext (focusIndex : Int) : (s.selectNext equals focusIndex).Tidy := by
  unfold MultipleSelectionModelBase.selectNext
  dsimp only
  split
  · exact h.quietClearIfSingle.select equals _
  · split
    · exact h.quietClearIfSingle.select equals _
    · exact h.quietClearIfSingle

theorem Tidy.selectAll (focusedIndex : Int) : (s.selectAll focusedIndex).Tidy := by
  rw [MultipleSelectionModelBase.selectAll, if_pos h.mode]
  exact h

end

/-! ## Shifting -/

/-- It leaves a removed row selected, with the lead elsewhere. -/
def LeavesBehind (s : MultipleSelectionModelBase T) (position shift : Int) : Prop :=
  0 ≤ position ∧ shift < 0 ∧ ∃ a : Nat, s.selectedIndices.bit a = true ∧ s.selectedIndex = a ∧
    max position 1 ≤ a ∧ (a : Int) < max position 1 - shift ∧
    (s.selectedIndices.size : Int) < a - shift ∧ (s.getItemCount : Int) ≤ max 0 (a + shift)

theorem shiftBits_single {a position : Nat} {shift : Int} (hshift : shift ≠ 0)
    (hone : ∀ i, s.selectedIndices.bit i = true → i = a) {j : Nat}
    (hj : (shiftBits s.selectedIndices position shift).1.bit j = true) :
    (s.Moves position shift ∧ (j : Int) = a + shift) ∨ (¬ s.Moves position shift ∧ j = a) := by
  have hmoves : s.Moves position shift →
      (if 0 < shift then position else max position 1 + shift.natAbs) ≤ a := by
    rintro ⟨k, hk, hle⟩
    rw [← hone k hk]
    exact hle
  obtain ⟨m, rfl, hm⟩ | ⟨d, rfl, hd⟩ := shift_cases hshift
  · have habs : (-(m : Int)).natAbs = m := by omega
    rw [if_neg (by omega), habs] at hmoves
    rw [(shiftBits_down hm).1] at hj
    split at hj
    · next hin =>
      have hja := hone (j + m) hj
      exact .inl ⟨⟨j + m, hj, by rw [if_neg (by omega), habs]; omega⟩, by omega⟩
    · rw [and_eq_true, decide_eq_true_eq] at hj
      have hja := hone j hj.2
      exact .inr ⟨fun hm => by have hle := hmoves hm; omega, hja⟩
  · rw [if_pos (by omega)] at hmoves
    rw [(shiftBits_up hd).1] at hj
    split at hj
    · next hlt =>
      have hja := hone j hj
      exact .inr ⟨fun hm => by have hle := hmoves hm; omega, hja⟩
    · rw [and_eq_true, decide_eq_true_eq] at hj
      have hja := hone (j - d) hj.2
      exact .inl ⟨⟨j - d, hj.2, by rw [if_pos (by omega)]; omega⟩, by omega⟩

theorem shiftBits_atMostOne {a position : Nat} {shift : Int} (hshift : shift ≠ 0)
    (hone : ∀ i, s.selectedIndices.bit i = true → i = a) {i j : Nat}
    (hi : (shiftBits s.selectedIndices position shift).1.bit i = true)
    (hj : (shiftBits s.selectedIndices position shift).1.bit j = true) : i = j := by
  rcases shiftBits_single hshift hone hi with ⟨hm, hi'⟩ | ⟨hm, hi'⟩ <;>
    rcases shiftBits_single hshift hone hj with ⟨hm', hj'⟩ | ⟨hm', hj'⟩
  · omega
  · exact absurd hm hm'
  · exact absurd hm' hm
  · omega

theorem tidy_fired_iff (fired : List IndexChange) :
    ({ s with fired := fired } : MultipleSelectionModelBase T).Tidy ↔ s.Tidy :=
  ⟨fun h => ⟨{ h with }, h.one, h.lead⟩, fun h => ⟨{ h with }, h.one, h.lead⟩⟩

section One

variable {p a : Nat} {shift : Int} (h : s.Tidy) (hshift : shift ≠ 0)
  (ha : s.selectedIndices.bit a = true)
include h hshift ha

/-- No row moves with the lead: the selected one has been removed, or has stayed. -/
theorem Tidy.select_newLead_iff (hlead : s.selectedIndex = a) (hat : p ≤ a)
    (hmoves : ¬ s.Moves p shift) :
    ((s.shiftedBits p shift (s.newLead shift)).select equals (s.newLead shift)).Tidy ↔
      ¬ s.LeavesBehind p shift := by
  have hone : ∀ i, s.selectedIndices.bit i = true → i = a := fun i hi => h.one i a hi ha
  have hnew : ((s.newLead shift : Nat) : Int) = max 0 (a + shift) := by
    rw [newLead, hlead]
    omega
  have hbits : ∀ i, (s.shiftedBits p shift (s.newLead shift)).selectedIndices.bit i = true ↔
      s.Stays p shift i := by
    intro i
    rw [← shiftBits_stays hshift hmoves, shiftedBits, setSelectedIndex_selectedIndices]
  have hneg : shift < 0 := by
    by_contra hge
    exact hmoves ⟨a, ha, by rw [if_pos (by omega)]; exact hat⟩
  have hshort : a < max p 1 + shift.natAbs := by
    by_contra hge
    exact hmoves ⟨a, ha, by rw [if_neg (by omega)]; omega⟩
  have hsingle : (s.shiftedBits p shift (s.newLead shift)).Single := by
    rw [shiftedBits, setSelectedIndex_eq]
    exact { h with }
  have hcnt : (s.shiftedBits p shift (s.newLead shift)).getItemCount = s.getItemCount := by
    rw [shiftedBits, setSelectedIndex_eq]
    rfl
  by_cases hin : s.newLead shift < s.getItemCount
  · refine iff_of_true (@Single.select _ _ equals hsingle
      (fun i j hi hj => by rw [hone i ((hbits i).1 hi).1, hone j ((hbits j).1 hj).1])
      (s.newLead shift) (by omega) (by rw [hcnt]; omega)) ?_
    rintro ⟨-, -, a', ha', -, -, -, -, hle⟩
    obtain rfl := hone a' ha'
    omega
  -- the lead is behind the data, where `select` leaves the rows alone
  rw [select_of_not equals (by omega) (by rw [hcnt]; omega)]
  have hidx : (s.shiftedBits p shift (s.newLead shift)).selectedIndex = s.newLead shift := by
    rw [shiftedBits, setSelectedIndex_selectedIndex]
  constructor
  · rintro htidy ⟨-, -, a', ha', -, hle, hlt, hsz, -⟩
    obtain rfl := hone a' ha'
    have hstays : s.Stays p shift a' := ⟨ha', .inr (.inr ⟨hshort, by omega⟩)⟩
    rcases htidy.lead a' ((hbits a').2 hstays) with hagree | hagree
    · rw [hidx] at hagree
      omega
    · rw [hidx] at hagree
      omega
  · intro hleaves
    refine hsingle.tidy_of_lead (fun i hi => ?_) hidx
    have hstays := (hbits i).1 hi
    obtain rfl := hone i hstays.1
    rcases hstays.2 with hpos' | hlt | ⟨hlt, hsz⟩
    · omega
    · omega
    · by_contra hne
      exact hleaves ⟨by omega, hneg, i, ha, hlead, by omega, by omega, by omega, by omega⟩

/-- The row has moved with the lead. -/
theorem Tidy.setBit_newLead (hlead : s.selectedIndex = a) (hmoves : s.Moves p shift) :
    ((s.shiftedBits p shift (s.newLead shift)).setBit (s.newLead shift)).Tidy ∧
      ¬ s.LeavesBehind p shift := by
  have hone : ∀ i, s.selectedIndices.bit i = true → i = a := fun i hi => h.one i a hi ha
  have hnew : ((s.newLead shift : Nat) : Int) = max 0 (a + shift) := by
    rw [newLead, hlead]
    omega
  constructor
  · refine @Single.tidy_of_lead _ _ ?_ (s.newLead shift) (fun i hi => ?_) ?_
    · rw [shiftedBits, setSelectedIndex_eq]
      exact { h with }
    · have hi' : ((s.shiftedBits p shift (s.newLead shift)).selectedIndices.set
          (s.newLead shift)).bit i = true := hi
      rw [JavaBitSet.bit_set, or_eq_true, decide_eq_true_eq, shiftedBits,
        setSelectedIndex_selectedIndices] at hi'
      rcases hi' with hi' | hi'
      · exact hi'
      · rcases shiftBits_single hshift hone hi' with ⟨-, hi''⟩ | ⟨hnot, -⟩
        · omega
        · exact absurd hmoves hnot
    · show (s.shiftedBits p shift (s.newLead shift)).selectedIndex = _
      rw [shiftedBits, setSelectedIndex_selectedIndex]
  · rintro ⟨-, hneg, a', ha', -, hle, hlt, -⟩
    obtain rfl := hone a' ha'
    obtain ⟨k, hk, hle'⟩ := hmoves
    obtain rfl := hone k hk
    rw [if_neg (by omega)] at hle'
    omega

/-- The lead is below the shift, and so is the row, or there is no lead. -/
theorem Tidy.shiftBits_below (hat : ¬ (p : Int) ≤ s.selectedIndex) :
    ({ s with selectedIndices := (shiftBits s.selectedIndices p shift).1 } :
        MultipleSelectionModelBase T).Tidy ∧ ¬ s.LeavesBehind p shift := by
  have hone : ∀ i, s.selectedIndices.bit i = true → i = a := fun i hi => h.one i a hi ha
  refine ⟨⟨{ h with }, fun i j hi hj => shiftBits_atMostOne hshift hone hi hj, fun i hi => ?_⟩, ?_⟩
  · rcases h.lead a ha with hlead | hlead
    · rcases shiftBits_single hshift hone hi with ⟨⟨k, hk, hle⟩, -⟩ | ⟨-, rfl⟩
      · obtain rfl := hone k hk
        split at hle <;> omega
      · exact .inl hlead
    · exact .inr hlead
  · rintro ⟨-, -, a', ha', hlead, hle, -⟩
    omega

end One

theorem Tidy.shiftSelection_tidy_iff (h : s.Tidy) (position shift : Int) :
    (s.shiftSelection equals position shift).Tidy ↔ ¬ s.LeavesBehind position shift := by
  by_cases hpos : position < 0
  · rw [MultipleSelectionModelBase.shiftSelection, if_pos hpos]
    exact iff_of_true h fun hl => by
      have hle := hl.1
      omega
  obtain ⟨p, rfl⟩ : ∃ p : Nat, position = p := ⟨position.toNat, by omega⟩
  by_cases hshift : shift = 0
  · rw [MultipleSelectionModelBase.shiftSelection, if_neg hpos, if_pos hshift]
    exact iff_of_true h fun hl => by
      have hlt := hl.2.1
      omega
  cases hemp : s.selectedIndices.isEmpty with
  | true =>
    rw [shiftSelection_of_empty equals hemp]
    refine iff_of_true h ?_
    rintro ⟨-, -, a, ha, -⟩
    rw [JavaBitSet.isEmpty_iff.1 hemp a] at ha
    cases ha
  | false =>
    obtain ⟨a, ha⟩ : ∃ a, s.selectedIndices.bit a = true := by
      by_contra hnone
      push Not at hnone
      rw [JavaBitSet.isEmpty_iff.2 fun i => eq_false_iff.2 (hnone i)] at hemp
      cases hemp
    obtain ⟨fired, heq⟩ := shiftSelection_eq equals hshift hemp
    rw [heq, tidy_fired_iff]
    by_cases hat : (p : Int) ≤ s.selectedIndex
    · have hlead : s.selectedIndex = a := (h.lead a ha).resolve_right (by omega)
      rw [if_pos hat]
      by_cases hmoves : s.Moves p shift
      · rw [if_neg fun hnotes => (shiftBits_notes hshift).1 hnotes hmoves]
        obtain ⟨htidy, hleaves⟩ := h.setBit_newLead hshift ha hlead hmoves
        exact iff_of_true htidy hleaves
      · rw [if_pos ((shiftBits_notes hshift).2 hmoves)]
        exact h.select_newLead_iff equals hshift ha hlead (by omega) hmoves
    · rw [if_neg hat]
      obtain ⟨htidy, hleaves⟩ := h.shiftBits_below hshift ha hat
      exact iff_of_true htidy hleaves

theorem Single.shiftSelection (h : s.Single) (position shift : Int) :
    (s.shiftSelection equals position shift).Single := by
  by_cases hpos : position < 0
  · rw [MultipleSelectionModelBase.shiftSelection, if_pos hpos]
    exact h
  obtain ⟨p, rfl⟩ : ∃ p : Nat, position = p := ⟨position.toNat, by omega⟩
  by_cases hshift : shift = 0
  · rw [MultipleSelectionModelBase.shiftSelection, if_neg hpos, if_pos hshift]
    exact h
  cases hemp : s.selectedIndices.isEmpty with
  | true =>
    rw [shiftSelection_of_empty equals hemp]
    exact h
  | false =>
    have hshifted : (s.shiftedBits p shift (s.newLead shift)).Single := by
      rw [shiftedBits, setSelectedIndex_eq]
      exact { h with }
    obtain ⟨fired, heq⟩ := shiftSelection_eq equals hshift hemp
    rw [heq]
    split
    · split
      · by_cases hin : s.newLead shift < (s.shiftedBits p shift (s.newLead shift)).getItemCount
        · rw [select_eq equals (by omega) (by omega)]
          exact { hshifted with }
        · rw [select_of_not equals (by omega) (by omega)]
          exact { hshifted with }
      · exact { hshifted with }
    · exact { h with }

end Operations

/-! ## Runs -/

section Runs

variable [DecidableEq T] (equals : T → Option T → Bool)

/-- What a run should keep. -/
def SelectsOne (s : MultipleSelectionModelBase T) : Prop := s.AtMostOne ∧ s.LeadAgrees

/-- All but a shift that leaves the removed row selected. -/
def Op.Harmless (s : MultipleSelectionModelBase T) : Op T → Prop
  | .shiftSelection position shift => ¬ s.LeavesBehind position shift
  | _ => True

/-- Each call is harmless in the state before it. -/
def HarmlessRun (s : MultipleSelectionModelBase T) : List (Op T) → Prop
  | [] => True
  | op :: ops => op.Harmless s ∧ HarmlessRun (s.step equals op) ops

theorem Tidy.step_iff (h : s.Tidy) (op : Op T) : (s.step equals op).Tidy ↔ op.Harmless s := by
  cases op with
  | select row => exact iff_of_true (h.select equals row) trivial
  | selectObject obj => exact iff_of_true (h.selectObject equals obj) trivial
  | selectIndices row rows => exact iff_of_true (h.selectIndices equals row rows) trivial
  | selectRange start stop => exact iff_of_true (h.selectRange equals start stop) trivial
  | clearAndSelect row => exact iff_of_true (h.clearAndSelect equals row) trivial
  | clearSelectionAt index => exact iff_of_true (h.clearSelectionAt index) trivial
  | clearSelection => exact iff_of_true h.toSingle.clearSelection trivial
  | selectFirst => exact iff_of_true (h.selectFirst equals) trivial
  | selectLast => exact iff_of_true (h.selectLast equals) trivial
  | selectNext focusIndex => exact iff_of_true (h.selectNext equals focusIndex) trivial
  | selectPrevious focusIndex => exact iff_of_true (h.selectPrevious equals focusIndex) trivial
  | selectAll focusedIndex => exact iff_of_true (h.selectAll focusedIndex) trivial
  | shiftSelection position shift => exact h.shiftSelection_tidy_iff equals position shift
  | get index | setItems items => exact iff_of_true ⟨{ h with }, h.one, h.lead⟩ trivial

theorem Tidy.step_single (h : s.Tidy) (op : Op T) : (s.step equals op).Single := by
  by_cases hop : op.Harmless s
  · exact ((h.step_iff equals op).2 hop).toSingle
  · cases op with
    | shiftSelection position shift => exact h.toSingle.shiftSelection equals position shift
    | _ => exact absurd trivial hop

theorem Tidy.run_iff (h : s.Tidy) (ops : List (Op T)) :
    (∀ t ∈ s.states equals ops, t.SelectsOne) ↔ s.HarmlessRun equals ops := by
  induction ops generalizing s with
  | nil => simp [states, HarmlessRun, SelectsOne, h.one, h.lead]
  | cons op ops ih =>
    show (∀ t ∈ s :: (s.step equals op).states equals ops, t.SelectsOne) ↔
      op.Harmless s ∧ (s.step equals op).HarmlessRun equals ops
    rw [forall_mem_cons, and_iff_right ⟨h.one, h.lead⟩]
    constructor
    · intro hall
      obtain ⟨hone, hlead⟩ := hall _ (mem_states_self equals _ ops)
      have hnxt : (s.step equals op).Tidy := ⟨h.step_single equals op, hone, hlead⟩
      exact ⟨(h.step_iff equals op).1 hnxt, (ih hnxt).1 hall⟩
    · rintro ⟨hop, hops⟩
      exact (ih ((h.step_iff equals op).2 hop)).2 hops

/-- In single mode, every state of a run has at most one row selected, with the lead on it or
    nowhere, if and only if no shift leaves a removed row selected. -/
theorem selectsOne_iff_harmlessRun (items : List (Option T)) (ops : List (Op T)) :
    (∀ t ∈ (new .single items).states equals ops, t.SelectsOne) ↔
      (new .single items).HarmlessRun equals ops :=
  Tidy.run_iff equals (Single.tidy_of_empty ⟨rfl, rfl⟩ fun _ => rfl) ops

end Runs

/-- The row shifted far away stays when it is removed there. -/
theorem selectsOne_fails : ¬ ∀ t ∈ (new .single [(none : Option Unit)]).states (fun _ _ => true)
      [.select 0, .shiftSelection 0 65, .shiftSelection 60 (-64)], t.SelectsOne := by
  intro h
  have hlast := h _ (mem_cons_of_mem _ (mem_cons_of_mem _ (mem_cons_of_mem _ mem_cons_self)))
  have hlead := hlast.2 65 (by decide +kernel)
  revert hlead
  decide +kernel

end OpenJfx.Controls.MultipleSelectionModelBase
