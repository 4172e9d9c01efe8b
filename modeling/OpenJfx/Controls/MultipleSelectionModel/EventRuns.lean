/-
  OpenJfx.Controls.MultipleSelectionModel.EventRuns

  The changes fired by a call in a selection that a run in multiple mode reaches.

  No operation changes the mode or leaves an atomic block open, so every call reports, and the
  conditions for the single calls apply.
-/

import OpenJfx.Controls.MultipleSelectionModel.ChangeEvents

namespace OpenJfx.Controls.MultipleSelectionModelBase

open List

variable {T : Type} {s : MultipleSelectionModelBase T} (equals : T → Option T → Bool)

/-! ## What no operation changes -/

/-- Neither the mode nor the depth of atomic blocks changes. -/
structure Kept (s s' : MultipleSelectionModelBase T) : Prop where
  mode : s'.selectionMode = s.selectionMode
  count : s'.atomicityCount = s.atomicityCount

theorem Kept.refl (s : MultipleSelectionModelBase T) : Kept s s := ⟨rfl, rfl⟩

theorem Kept.trans {s1 s2 s3 : MultipleSelectionModelBase T} (h : Kept s1 s2) (h' : Kept s2 s3) :
    Kept s1 s3 :=
  ⟨h'.mode.trans h.mode, h'.count.trans h.count⟩

theorem setSelectedIndex_kept (index : Int) : Kept s (s.setSelectedIndex index) := by
  rw [setSelectedIndex_eq]
  exact ⟨rfl, rfl⟩

section

variable (s : MultipleSelectionModelBase T)

theorem clearSelection_kept : Kept s s.clearSelection := by
  obtain ⟨_, _, _, heq⟩ := clearSelection_eq s
  rw [heq]
  exact ⟨rfl, rfl⟩

theorem select_kept (row : Int) : Kept s (s.select equals row) := by
  by_cases hin : 0 ≤ row ∧ row < s.getItemCount
  · rw [select_eq equals hin.1 hin.2]
    exact ⟨rfl, rfl⟩
  · rw [select]
    split
    · exact clearSelection_kept s
    · rw [if_pos (by omega)]
      exact Kept.refl s

theorem quietClearIfSingle_kept : Kept s s.quietClearIfSingle := by
  rw [quietClearIfSingle]
  split <;> exact ⟨rfl, rfl⟩

theorem setBit_select_kept (row : Int) : Kept s ((s.setBit row).select equals row) :=
  have hselect := select_kept equals (s.setBit row) row
  { hselect with }

theorem fireRangeChange_kept (addedItems : List Int) :
    Kept s (s.fireRangeChange addedItems) := by
  cases addedItems <;> exact ⟨rfl, rfl⟩

theorem selectIndices_kept (row : Int) (rows : List Int) :
    Kept s (s.selectIndices equals row rows) := by
  rw [selectIndices]
  split
  · exact select_kept equals s row
  · split
    · rw [selectIndicesSingle]
      have hcleared : Kept s s.quietClearSelection := ⟨rfl, rfl⟩
      have hsecond : ∀ u : MultipleSelectionModelBase T, Kept s u →
          Kept s (if u.selectedIndices.isEmpty ∧ 0 < row ∧ row < u.getItemCount then
            (u.setBit row).select equals row
          else u) := by
        intro u hu
        split
        · exact hu.trans (setBit_select_kept equals _ _)
        · exact hu
      cases rows.reverse.find? s.quietClearSelection.inRange with
      | none => exact (hsecond _ hcleared).trans ⟨rfl, rfl⟩
      | some index =>
        exact (hsecond _ (hcleared.trans (setBit_select_kept equals _ _))).trans ⟨rfl, rfl⟩
    · obtain ⟨selectedIndex, selectedItem, heq⟩ := selectIndicesMultiple_eq s row rows
      rw [heq]
      have hfire := fireRangeChange_kept { s with
        selectedIndices := bitsWithRows s.selectedIndices ((row :: rows).filter s.inRange)
        selectedIndex := selectedIndex
        selectedItem := selectedItem } (indexList (s.addedRows ((row :: rows).filter s.inRange)))
      exact { hfire with }

theorem clearSelectionAt_kept (index : Int) :
    Kept s (s.clearSelectionAt index) := by
  rw [clearSelectionAt]
  split
  · exact Kept.refl s
  · have hcleared : Kept s { s with selectedIndices := s.selectedIndices.clear index.toNat } := ⟨rfl, rfl⟩
    have hnotified : ∀ u : MultipleSelectionModelBase T, Kept s u → Kept s (if u.isAtomic then u
        else u.callObservers (.genericAddRemove index index [index])) := by
      intro u hu
      split
      · exact hu
      · exact hu.trans ⟨rfl, rfl⟩
    refine hnotified _ ?_
    split
    · exact hcleared.trans (clearSelection_kept _)
    · exact hcleared

theorem clearAndSelect_kept [DecidableEq T] (row : Int) :
    Kept s (s.clearAndSelect equals row) := by
  rw [clearAndSelect]
  split
  · exact clearSelection_kept s
  · next hin =>
    obtain ⟨k, rfl⟩ : ∃ k : Nat, row = k := ⟨row.toNat, by omega⟩
    obtain ⟨b, selectedItem, heq, -⟩ := @selectOnly_eq _ equals s k (by omega)
    dsimp only
    rw [heq]
    split
    · exact Kept.refl s
    · split <;> exact ⟨rfl, rfl⟩

theorem shiftSelection_kept (position shift : Int) :
    Kept s (s.shiftSelection equals position shift) := by
  rw [shiftSelection]
  split
  · exact Kept.refl s
  · split
    · exact Kept.refl s
    · dsimp only
      split
      · exact Kept.refl s
      · have hlead : ∀ u : MultipleSelectionModelBase T, Kept s u → ∀ p : Prop, [Decidable p] →
            ∀ c : IndexChange, Kept s (if p then u.callObservers c else u) := by
          intro u hu p _ c
          split
          · exact hu.trans ⟨rfl, rfl⟩
          · exact hu
        refine hlead _ ?_ _ _
        split
        · have hset := setSelectedIndex_kept (s := { s with
            selectedIndices := (shiftBits s.selectedIndices position.toNat shift).1 })
            (max 0 (s.selectedIndex + shift))
          have hmoved : Kept s (setSelectedIndex { s with
              selectedIndices := (shiftBits s.selectedIndices position.toNat shift).1 }
              (max 0 (s.selectedIndex + shift))) := { hset with }
          split
          · exact hmoved.trans ⟨rfl, rfl⟩
          · exact hmoved.trans (select_kept equals _ _)
        · exact ⟨rfl, rfl⟩

theorem selectObject_kept (obj : Option T) :
    Kept s (s.selectObject equals obj) := by
  rw [selectObject]
  split
  · exact clearSelection_kept s
  · split
    · split
      · exact Kept.refl s
      · exact (quietClearIfSingle_kept s).trans (select_kept equals _ _)
    · exact (setSelectedIndex_kept _).trans ⟨rfl, rfl⟩

theorem selectAll_kept (focusedIndex : Int) :
    Kept s (s.selectAll focusedIndex) := by
  rw [selectAll]
  split
  · exact Kept.refl s
  · split
    · exact Kept.refl s
    · have hclear := clearSelection_kept s
      dsimp only
      rw [setSelectedIndex_eq]
      exact { hclear with }

theorem step_kept [DecidableEq T] (op : Op T) :
    Kept s (s.step equals op) := by
  have hmove : ∀ row : Int, Kept s (s.quietClearIfSingle.select equals row) := fun row =>
    (quietClearIfSingle_kept s).trans (select_kept equals _ _)
  cases op with
  | select row => exact select_kept equals s row
  | selectObject obj => exact selectObject_kept equals s obj
  | selectIndices row rows => exact selectIndices_kept equals s row rows
  | selectRange start stop =>
    show Kept s (s.selectRange equals start stop)
    rw [selectRange]
    split
    · exact Kept.refl s
    · exact selectIndices_kept equals s _ _
  | clearAndSelect row => exact clearAndSelect_kept equals s row
  | clearSelectionAt index => exact clearSelectionAt_kept s index
  | clearSelection => exact clearSelection_kept s
  | selectFirst =>
    show Kept s (s.selectFirst equals)
    rw [selectFirst]
    split
    · exact hmove _
    · exact quietClearIfSingle_kept s
  | selectLast =>
    show Kept s (s.selectLast equals)
    rw [selectLast]
    split
    · exact hmove _
    · exact quietClearIfSingle_kept s
  | selectNext focusIndex =>
    show Kept s (s.selectNext equals focusIndex)
    rw [selectNext]
    split
    · exact hmove _
    · split
      · exact hmove _
      · exact quietClearIfSingle_kept s
  | selectPrevious focusIndex =>
    show Kept s (s.selectPrevious equals focusIndex)
    rw [selectPrevious]
    split
    · exact hmove _
    · split
      · exact hmove _
      · exact quietClearIfSingle_kept s
  | selectAll focusedIndex => exact selectAll_kept s focusedIndex
  | shiftSelection position shift => exact shiftSelection_kept equals s position shift
  | get index | setItems items => exact ⟨rfl, rfl⟩

theorem states_kept [DecidableEq T] (ops : List (Op T)) : ∀ t ∈ s.states equals ops, Kept s t := by
  induction ops generalizing s with
  | nil =>
    intro t ht
    rw [mem_singleton.1 ht]
    exact Kept.refl s
  | cons op ops ih =>
    intro t ht
    rcases mem_cons.1 ht with rfl | ht
    · exact Kept.refl t
    · exact (step_kept equals s op).trans (ih (s.step equals op) t ht)

end

/-! ## Calls in reachable states -/

/-- The calls whose changes are replayed. -/
inductive SelectionCall where
  | select (row : Int)
  | selectIndices (row : Int) (rows : List Int)
  | clearSelectionAt (index : Int)
  | clearSelection
  | clearAndSelect (row : Int)
  | selectAll (focusedIndex : Int)

def SelectionCall.toOp : SelectionCall → Op T
  | .select row => .select row
  | .selectIndices row rows => .selectIndices row rows
  | .clearSelectionAt index => .clearSelectionAt index
  | .clearSelection => .clearSelection
  | .clearAndSelect row => .clearAndSelect row
  | .selectAll focusedIndex => .selectAll focusedIndex

/-- A row outside the data clears the selection or is ignored. -/
def Reports (s : MultipleSelectionModelBase T) : SelectionCall → Prop
  | .select row => 0 ≤ row → row < s.getItemCount → s.SelectReports row.toNat
  | .selectIndices row rows =>
    if rows.isEmpty then 0 ≤ row → row < s.getItemCount → s.SelectReports row.toNat
    else s.SelectIndicesReports ((row :: rows).filter s.inRange)
  | .clearSelectionAt index => ∀ j : Nat, (j : Int) ≤ index → s.selectedIndices.bit j = true
  | .clearSelection => True
  | .clearAndSelect row => 0 ≤ row → row < s.getItemCount → s.ClearAndSelectReports row.toNat
  | .selectAll _ => True

theorem Ready.select_faithful_iff_of_row (h : s.Ready) (row : Int) :
    Faithful s (s.select equals row) ↔
      (0 ≤ row → row < s.getItemCount → s.SelectReports row.toNat) := by
  by_cases hin : 0 ≤ row ∧ row < s.getItemCount
  · obtain ⟨k, rfl⟩ : ∃ k : Nat, row = k := ⟨row.toNat, by omega⟩
    rw [h.select_faithful_iff equals (by omega), Int.toNat_natCast]
    exact ⟨fun hr _ _ => hr, fun hr => hr hin.1 hin.2⟩
  · refine iff_of_true ?_ fun h0 hlt => absurd ⟨h0, hlt⟩ hin
    rw [select]
    split
    · exact h.clearSelection_faithful
    · rw [if_pos (by omega)]
      exact faithful_refl s

theorem Ready.faithful_iff [DecidableEq T] (h : s.Ready) (call : SelectionCall) :
    Faithful s (s.step equals call.toOp) ↔ s.Reports call := by
  cases call with
  | select row => exact h.select_faithful_iff_of_row equals row
  | selectIndices row rows =>
    show Faithful s (s.selectIndices equals row rows) ↔ _
    rw [selectIndices, Reports]
    split
    · exact h.select_faithful_iff_of_row equals row
    · rw [if_neg (by rw [h.mode]; exact SelectionMode.noConfusion)]
      exact h.selectIndicesMultiple_faithful_iff row rows
  | clearSelectionAt index => exact h.clearSelectionAt_faithful_iff index
  | clearSelection => exact iff_of_true h.clearSelection_faithful trivial
  | clearAndSelect row =>
    show Faithful s (s.clearAndSelect equals row) ↔ _
    by_cases hin : 0 ≤ row ∧ row < s.getItemCount
    · obtain ⟨k, rfl⟩ : ∃ k : Nat, row = k := ⟨row.toNat, by omega⟩
      rw [h.clearAndSelect_faithful_iff equals (by omega), Reports, Int.toNat_natCast]
      exact ⟨fun hr _ _ => hr, fun hr => hr hin.1 hin.2⟩
    · refine iff_of_true ?_ fun h0 hlt => absurd ⟨h0, hlt⟩ hin
      rw [clearAndSelect, if_pos (by omega)]
      exact h.clearSelection_faithful
  | selectAll focusedIndex => exact iff_of_true (h.selectAll_faithful focusedIndex) trivial

/-- With all rows inside the data, the changes fired turn the old list into the new one exactly when
    the call reports what it does. -/
theorem faithful_iff_reports [DecidableEq T] (items : List (Option T)) (ops : List (Op T))
    (hs : s ∈ (new .multiple items).states equals ops) (hinside : s.Inside) (call : SelectionCall) :
    Faithful s (s.step equals call.toOp) ↔ s.Reports call := by
  have hkept := states_kept equals (new .multiple items) ops s hs
  exact Ready.faithful_iff equals ⟨hkept.mode, hkept.count, hinside⟩ call

/-- Row 5 of ten is selected. -/
def fiveSelected : MultipleSelectionModelBase Unit := tenItems.select (fun _ _ => true) 5

theorem faithful_iff_reports_five :
    fiveSelected ∈ tenItems.states (fun _ _ => true) [.select 5] ∧ fiveSelected.Inside ∧
      (Faithful fiveSelected (fiveSelected.step (fun _ _ => true) (.select 7)) ↔
        fiveSelected.Reports (.select 7)) := by
  have hmem : fiveSelected ∈ tenItems.states (fun _ _ => true) [.select 5] :=
    mem_cons_of_mem _ mem_cons_self
  have hinside : fiveSelected.Inside := by
    rw [inside_iff]
    decide
  exact ⟨hmem, hinside, faithful_iff_reports _ _ _ hmem hinside (.select 7)⟩

/-- `clearSelection(5)` removes the first row, and reports index 5. -/
theorem faithful_fails : ∃ s ∈ tenItems.states (fun _ _ => true) [.select 5, .select 7], s.Inside ∧
      ¬ Faithful s (s.step (fun _ _ => true) (.clearSelectionAt 5)) := by
  refine ⟨fiveSelected.select (fun _ _ => true) 7,
    mem_cons_of_mem _ (mem_cons_of_mem _ mem_cons_self), ?_, ?_⟩
  · rw [inside_iff]
    decide
  · unfold Faithful
    decide

end OpenJfx.Controls.MultipleSelectionModelBase
