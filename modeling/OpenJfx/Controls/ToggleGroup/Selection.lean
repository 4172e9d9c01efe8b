/-
  OpenJfx.Controls.ToggleGroup.Selection

  What the mutually recursive methods of the selection do, from the deepest call up:
  deselecting a toggle that `selectedToggle` names, selecting a toggle of the group,
  and both again when they are entered through the button.
-/

import OpenJfx.Controls.ToggleGroup.Basic

namespace OpenJfx.Controls.Toggles

open Outcome Function

variable {T G : Type} [DecidableEq T] [DecidableEq G]

/-- The toggle named before loses its selection if still there. -/
def select (g : G) (new : Option T) (s : Toggles T G) : Toggles T G :=
  { s with
    selected := fun t =>
      if new = some t then true
      else if s.selectedToggle g = some t ∧ s.toggleGroup t = some g then false
      else s.selected t
    selectedToggle := update s.selectedToggle g new }

section

variable (g : G) (new : Option T) (s : Toggles T G)

@[simp] theorem select_toggleGroup : (s.select g new).toggleGroup = s.toggleGroup := rfl

@[simp] theorem select_old : (s.select g new).old = s.old := rfl

@[simp] theorem select_toggles : (s.select g new).toggles = s.toggles := rfl

@[simp] theorem select_selectedToggle :
    (s.select g new).selectedToggle = update s.selectedToggle g new := rfl

theorem select_selected (t : T) : (s.select g new).selected t = if new = some t then true
      else if s.selectedToggle g = some t ∧ s.toggleGroup t = some g then false
      else s.selected t := rfl

end

variable {s : Toggles T G} {g : G} {new : Option T} {t : T}

theorem select_of_unselected (hnew : ∀ t, new = some t → s.selected t = true)
    (hold : ∀ o, s.selectedToggle g = some o → s.toggleGroup o = some g → s.selected o = false) :
    s.select g new =
      { s with selectedToggle := update s.selectedToggle g new } := by
  rw [select]
  congr 1
  funext t
  split
  · exact (hnew t ‹_›).symm
  · split
    · rename_i h
      exact (hold t h.1 h.2).symm
    · rfl

theorem select_of_member {o : T}
    (hnew : ∀ t, new = some t → s.selected t = true) (hst : s.selectedToggle g = some o)
    (hne : s.selectedToggle g ≠ new) (hg : s.toggleGroup o = some g) :
    s.select g new =
      { s with
        selected := update s.selected o false
        selectedToggle := update s.selectedToggle g new } := by
  rw [select]
  congr 1
  funext t
  by_cases ht : t = o
  · subst ht
    rw [if_neg fun h => hne (hst.trans h.symm), if_pos ⟨hst, hg⟩, update_self]
  · rw [update_of_ne ht]
    split
    · exact (hnew t ‹_›).symm
    · rw [if_neg fun h => ht (Option.some.inj (h.1.symm.trans hst))]

/-! ## Deselecting -/

theorem setSelected_same {value : Bool} (h : s.selected t = value)
    (k : Nat) : setSelected (k + 1) t value s = returns () s := by
  rw [setSelected, if_pos h]

theorem setSelectedIn_same {value : Bool} (g : G) (h : s.selected t = value) (k : Nat) :
    setSelectedIn (k + 2) g (some t) value s = returns (decide (s.toggleGroup t = some g)) s := by
  rw [setSelectedIn]
  by_cases hg : s.toggleGroup t = some g
  · rw [if_pos hg, setSelected_same h, andThen_returns, decide_eq_true hg]
  · rw [if_neg hg, decide_eq_false hg]

/-- The toggle named before loses its selection. -/
def nameToggle (stack : Nat) (g : G) (old new : Option T) (s : Toggles T G) :
    Outcome (Toggles T G) Unit :=
  (if ∀ o ∈ old, s.toggleGroup o = some g ∨ s.selected o = false then
    setSelectedIn stack g old false s
  else returns false s).andThen fun _ s =>
    returns () { s with selectedToggle := update s.selectedToggle g new }

theorem selectToggle_same (h : s.selectedToggle g = new) (k : Nat) :
    selectToggle (k + 1) g new s = returns () s := by
  rw [selectToggle]
  exact if_pos h

theorem selectToggle_none (h : s.selectedToggle g ≠ none) (k : Nat) :
    selectToggle (k + 2) g none s = nameToggle (k + 1) g (s.selectedToggle g) none s := by
  rw [selectToggle]
  simp only [if_neg h]
  rw [setSelectedIn, andThen_returns, if_pos (.inr (.inr trivial)), nameToggle]

theorem nameToggle_stale {old : Option T}
    (h : ∀ o, old = some o → s.toggleGroup o = some g → s.selected o = false) (new : Option T)
    (k : Nat) :
    nameToggle (k + 2) g old new s =
      returns () { s with selectedToggle := update s.selectedToggle g new } := by
  rw [nameToggle]
  cases old with
  | none =>
    rw [setSelectedIn]
    split <;> rfl
  | some o =>
    split
    · rename_i hall
      have ho : s.selected o = false := (hall o rfl).elim (h o rfl) id
      rw [setSelectedIn_same g ho, andThen_returns]
    · rfl

/-- Another selected one of the group may be named. -/
def unselect (g : G) (o : T) (s : Toggles T G) : Toggles T G :=
  let s := { s with selected := update s.selected o false }
  if (s.toggles g).any s.selected then s
  else { s with selectedToggle := update s.selectedToggle g none }

theorem setSelected_false {o : T} (h : s.selected o = true)
    (hg : s.toggleGroup o = some g) (hst : s.selectedToggle g = some o) (k : Nat) :
    setSelected (k + 5) o false s = returns () (s.unselect g o) := by
  rw [setSelected]
  simp only [h, Bool.true_eq_false, Bool.false_eq_true, if_false, hg, hst, if_true]
  rw [clearSelectedToggle]
  simp only [hst, update_self, true_and]
  rw [unselect]
  split
  · rfl
  · rw [selectToggle_none (by simp [hst]), hst, nameToggle_stale]
    rintro _ ⟨⟩ _
    exact update_self ..

theorem unselect_update (g : G) (o : T) (new : Option T) (s : Toggles T G) :
    { s.unselect g o with
      selectedToggle := update (s.unselect g o).selectedToggle g new } =
    { s with
      selected := update s.selected o false
      selectedToggle := update s.selectedToggle g new } := by
  rw [unselect]
  split
  · rfl
  · simp only [update_idem]

theorem nameToggle_spec
    (hnew : ∀ t, new = some t → s.selected t = true) (hne : s.selectedToggle g ≠ new) (k : Nat) :
    nameToggle (k + 6) g (s.selectedToggle g) new s = returns () (s.select g new) := by
  by_cases hmember : ∃ o, s.selectedToggle g = some o ∧ s.toggleGroup o = some g ∧ s.selected o = true
  · obtain ⟨o, hst, hg, h⟩ := hmember
    rw [select_of_member hnew hst hne hg, nameToggle, hst, if_pos, setSelectedIn, if_pos hg,
      setSelected_false h hg hst, andThen_returns, andThen_returns, unselect_update]
    rintro _ ⟨⟩
    exact .inl hg
  · have hold : ∀ o, s.selectedToggle g = some o → s.toggleGroup o = some g → s.selected o = false :=
      fun o hst hg => Bool.eq_false_iff.mpr fun h => hmember ⟨o, hst, hg, h⟩
    rw [nameToggle_stale hold, select_of_unselected hnew hold]

/-! ## Selecting -/

theorem selectToggle_none_spec (h : s.selectedToggle g ≠ none) (k : Nat) :
    selectToggle (k + 7) g none s = returns () (s.select g none) := by
  rw [selectToggle_none h, nameToggle_spec nofun h]

theorem selectToggle_member (hg : s.toggleGroup t = some g)
    (hne : s.selectedToggle g ≠ some t) (k : Nat) :
    selectToggle (k + 2) g (some t) s =
      (setSelected k t true s).andThen fun _ s' =>
        nameToggle (k + 1) g (s.selectedToggle g) (some t) s' := by
  rw [selectToggle]
  simp only [if_neg hne]
  rw [setSelectedIn, if_pos hg]
  cases setSelected k t true s with
  | returns a s' =>
    simp only [andThen_returns, true_or, if_true, nameToggle]
  | throws e s' | overflows => rfl

theorem selectToggle_selected (h : s.selected t = true)
    (hg : s.toggleGroup t = some g) (hne : s.selectedToggle g ≠ some t) (k : Nat) :
    selectToggle (k + 7) g (some t) s = returns () (s.select g (some t)) := by
  rw [selectToggle_member hg hne, setSelected_same h, andThen_returns, nameToggle_spec _ hne]
  rintro _ ⟨⟩
  exact h

theorem select_update (g : G) (t : T) (s : Toggles T G) :
    ({ s with selected := update s.selected t true } : Toggles T G).select g (some t) =
      s.select g (some t) := by
  rw [select, select]
  congr 1
  funext u
  by_cases hu : u = t
  · rw [hu, if_pos rfl, if_pos rfl]
  · simp only [Option.some.injEq, if_neg (Ne.symm hu), update_of_ne hu]

theorem setSelected_true (h : s.selected t = false)
    (hg : s.toggleGroup t = some g) (hne : s.selectedToggle g ≠ some t) (k : Nat) :
    setSelected (k + 8) t true s = returns () (s.select g (some t)) := by
  rw [setSelected]
  simp only [h, Bool.false_eq_true, if_false, hg, if_true]
  have h := selectToggle_selected
    (s := { s with selected := update s.selected t true }) (update_self ..) hg hne k
  rw [h, select_update]

theorem selectToggle_some_spec (hg : s.toggleGroup t = some g)
    (hne : s.selectedToggle g ≠ some t) (k : Nat) :
    selectToggle (k + 10) g (some t) s = returns () (s.select g (some t)) := by
  cases h : s.selected t with
  | true => exact selectToggle_selected h hg hne (k + 3)
  | false =>
    rw [selectToggle_member hg hne, setSelected_true h hg hne, andThen_returns, nameToggle_stale]
    · rw [select_selectedToggle, update_idem]
      rfl
    · intro o hst hin
      rw [select_selected, if_neg fun h => hne (hst.trans h.symm), if_pos ⟨hst, hin⟩]

theorem selectToggle_stranger (hg : s.toggleGroup t ≠ some g)
    (hne : s.selectedToggle g ≠ some t) (k : Nat) :
    selectToggle (k + 2) g (some t) s = returns () s := by
  rw [selectToggle]
  simp only [if_neg hne]
  rw [setSelectedIn, if_neg hg, andThen_returns, if_neg]
  simp [hg]

end OpenJfx.Controls.Toggles
