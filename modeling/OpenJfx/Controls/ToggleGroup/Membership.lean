/-
  OpenJfx.Controls.ToggleGroup.Membership

  What the methods of the list of toggles do.  While a change of the list of a group
  is handled, the toggles still to be adopted are in the list without being members, and
  a toggle adopted with its selection is one that `selectedToggle` does not name;
  `Adopting` is the invariant that allows for both.
-/

import OpenJfx.Controls.ToggleGroup.Selection

namespace OpenJfx.Controls.Toggles

open Outcome List Function

variable {T G : Type} [DecidableEq T] [DecidableEq G]

/-- `pending` toggles are not yet members; `fresh` members are selected, but not the selected
    toggle. -/
structure Adopting (g : G) (pending : List T) (fresh : T → Prop) (s : Toggles T G) : Prop where
  mem_iff : ∀ t, t ∈ s.toggles g ↔ s.toggleGroup t = some g ∨ t ∈ pending
  selected_iff : ∀ t, (s.selectedToggle g = some t ∨ fresh t) ↔
    s.toggleGroup t = some g ∧ s.selected t = true
  others_mem_iff : ∀ o, o ≠ g → ∀ t, t ∈ s.toggles o ↔ s.toggleGroup t = some o
  others_selected_iff : ∀ o, o ≠ g → ∀ t, s.selectedToggle o = some t ↔
    s.toggleGroup t = some o ∧ s.selected t = true

/-! ## The removed toggles -/

/-- The state after the handler has seen `t` removed. -/
def forget (g : G) (t : T) (s : Toggles T G) : Toggles T G :=
  if s.selected t = true ∧ s.selectedToggle g ≠ none then s.select g none else s

section

variable (g : G) (t : T) (s : Toggles T G)

theorem toggleRemoved_spec (k : Nat) :
    toggleRemoved (k + 7) g t s = returns () (s.forget g t) := by
  rw [toggleRemoved, forget]
  cases ht : s.selected t with
  | false => rfl
  | true =>
    by_cases hst : s.selectedToggle g = none
    · rw [if_pos rfl, selectToggle_same hst, if_neg fun h => h.2 hst]
    · rw [if_pos rfl, selectToggle_none_spec hst, if_pos ⟨rfl, hst⟩]

@[simp] theorem forget_toggleGroup : (s.forget g t).toggleGroup = s.toggleGroup := by
  rw [forget]
  split <;> rfl

@[simp] theorem forget_old : (s.forget g t).old = s.old := by
  rw [forget]
  split <;> rfl

@[simp] theorem forget_toggles : (s.forget g t).toggles = s.toggles := by
  rw [forget]
  split <;> rfl

end

variable {g : G} {s : Toggles T G} {t : T} {rest : List T} {fresh : T → Prop}

theorem forget_selectedToggle_of_ne {o : G} (h : o ≠ g) (t : T) (s : Toggles T G) :
    (s.forget g t).selectedToggle o = s.selectedToggle o := by
  rw [forget]
  split
  · exact update_of_ne h ..
  · rfl

theorem forget_selected (g : G) (t u : T) (s : Toggles T G) : (s.forget g t).selected u =
      if s.selected t = true ∧ s.selectedToggle g = some u ∧ s.toggleGroup u = some g then false
      else s.selected u := by
  rw [forget]
  by_cases ht : s.selected t = true
  · by_cases hst : s.selectedToggle g = none
    · rw [if_neg fun h => h.2 hst, if_neg fun h => by rw [hst] at h; cases h.2.1]
    · rw [if_pos ⟨ht, hst⟩, select_selected, if_neg nofun]
      simp only [ht, true_and]
  · rw [if_neg fun h => ht h.1, if_neg fun h => ht h.1]

theorem forget_selectedToggle (g : G) (t : T) (s : Toggles T G) :
    (s.forget g t).selectedToggle g = if s.selected t = true then none else s.selectedToggle g := by
  rw [forget]
  by_cases ht : s.selected t = true
  · by_cases hst : s.selectedToggle g = none
    · rw [if_neg fun h => h.2 hst, if_pos ht, hst]
    · rw [if_pos ⟨ht, hst⟩, if_pos ht]
      exact update_self ..
  · rw [if_neg fun h => ht h.1, if_neg ht]

theorem Adopting.forget {pending : List T} (h : Adopting g pending (fun _ => False) s) (t : T) :
    Adopting g pending (fun _ => False) (s.forget g t) where
  mem_iff := by simpa using h.mem_iff
  selected_iff u := by
    have hu := h.selected_iff u
    rw [or_false] at hu
    rw [or_false, forget_toggleGroup, forget_selectedToggle, forget_selected]
    by_cases ht : s.selected t = true
    · simp only [ht, if_true, true_and]
      refine ⟨nofun, fun ⟨hg, hsel⟩ => ?_⟩
      split at hsel
      · cases hsel
      · rename_i hnot
        exact (hnot ⟨hu.mpr ⟨hg, hsel⟩, hg⟩).elim
    · rw [if_neg ht, if_neg fun h => ht h.1, hu]
  others_mem_iff := by simpa using h.others_mem_iff
  others_selected_iff o ho u := by
    have hu := h.others_selected_iff o ho u
    rw [forget_selectedToggle_of_ne ho, forget_toggleGroup, forget_selected, hu]
    by_cases hg : s.toggleGroup u = some o
    · rw [if_neg fun h => ho (Option.some.inj (hg.symm.trans h.2.2))]
    · exact ⟨fun h => absurd h.1 hg, fun h => absurd h.1 hg⟩

theorem toggleRemoved_all {pending : List T}
    (h : Adopting g pending (fun _ => False) s) (removed : List T) (k : Nat) :
    ∃ s', forEach (toggleRemoved (k + 7) g) removed s = returns () s' ∧
      Adopting g pending (fun _ => False) s' ∧ s'.toggleGroup = s.toggleGroup ∧ s'.old = s.old ∧
      s'.toggles = s.toggles ∧ (∀ u, s'.selected u = true → s.selected u = true) ∧
      ∀ t ∈ removed, s.toggleGroup t = some g → s'.selected t = false := by
  have hloop := forEach_spec (f := toggleRemoved (k + 7) g)
    (P := fun rest s' => Adopting g pending (fun _ => False) s' ∧ s'.toggleGroup = s.toggleGroup ∧
      s'.old = s.old ∧ s'.toggles = s.toggles ∧ (∀ u, s'.selected u = true → s.selected u = true) ∧
      ∀ t ∈ removed, t ∈ rest ∨ (s.toggleGroup t = some g → s'.selected t = false))
    (l := removed) (s := s) ?_ ⟨h, rfl, rfl, rfl, fun _ => id, fun t ht => .inl ht⟩
  · obtain ⟨s', hs', h', hgrp, hold, htoggles, hsel, hrest⟩ := hloop
    exact ⟨s', hs', h', hgrp, hold, htoggles, hsel,
      fun t ht => (hrest t ht).resolve_left not_mem_nil⟩
  · rintro t rest s1 ⟨h1, hgrp, hold, htoggles, hsel, hrest⟩
    have hmono : ∀ u, (s1.forget g t).selected u = true → s1.selected u = true := by
      intro u hu
      rw [forget_selected] at hu
      split at hu
      · cases hu
      · exact hu
    refine ⟨_, toggleRemoved_spec g t s1 k, h1.forget t, by simpa using hgrp, by simpa using hold,
      by simpa using htoggles, fun u hu => hsel u (hmono u hu), fun u hu => ?_⟩
    cases hrest u hu with
    | inl hmem =>
      cases mem_cons.mp hmem with
      | inl heq =>
        subst heq
        refine .inr fun hg => ?_
        rw [forget_selected]
        split
        · rfl
        · rename_i hnot
          by_contra hu
          have hu : s1.selected u = true := by simpa using hu
          have hst := ((h1.selected_iff u).mpr ⟨hgrp ▸ hg, hu⟩).resolve_right id
          exact hnot ⟨hu, hst, hgrp ▸ hg⟩
      | inr hmem => exact .inl hmem
    | inr hdone =>
      refine .inr fun hg => ?_
      by_contra hu
      have hu : (s1.forget g t).selected u = true := by simpa using hu
      have := hdone hg
      rw [hmono u hu] at this
      cases this

/-! ## Removing one toggle -/

theorem replaced_idxOf (L : List T) (t : T) :
    replaced (L.idxOf t) (L.idxOf t + 1) [] L = L.erase t := by
  have hto : ((L.idxOf t : Int) + 1).toNat = L.idxOf t + 1 := by omega
  rw [replaced, hto, Int.toNat_natCast, append_nil, erase_eq_eraseIdx_of_idxOf rfl,
    eraseIdx_eq_take_drop_succ]

theorem removed_idxOf {L : List T} (ht : t ∈ L) :
    (L.take ((L.idxOf t : Int) + 1).toNat).drop (L.idxOf t : Int).toNat = [t] := by
  have hto : ((L.idxOf t : Int) + 1).toNat = L.idxOf t + 1 := by omega
  have hlt := idxOf_lt_length_of_mem ht
  rw [hto, Int.toNat_natCast, take_succ_eq_append_getElem hlt, getElem_idxOf hlt,
    drop_left' (by rw [length_take]; omega)]

/-- The state after one occurrence of `t` has left the list of `g`. -/
def removal (g : G) (t : T) (s : Toggles T G) : Toggles T G :=
  ({ s with toggles := Function.update s.toggles g ((s.toggles g).erase t) } : Toggles T G).forget g t

theorem remove_spec (ht : t ∈ s.toggles g) (k : Nat) :
    remove (k + 12) g t s = returns () (s.removal g t) := by
  have hlt := idxOf_lt_length_of_mem ht
  rw [remove, if_pos ht, replaceRange]
  simp only [vetoes, not_mem_nil, false_and, exists_false, and_false, decide_false,
    Bool.false_eq_true, if_false]
  rw [if_pos (by omega), replaced_idxOf, removed_idxOf ht, onChanged, forEach,
    toggleRemoved_spec, andThen_returns, forEach, andThen_returns, forEach, andThen_returns,
    selectFirst]
  rfl

@[simp] theorem removal_toggleGroup (g : G) (t : T) (s : Toggles T G) :
    (s.removal g t).toggleGroup = s.toggleGroup := by
  rw [removal, forget_toggleGroup]

@[simp] theorem removal_old (g : G) (t : T) (s : Toggles T G) : (s.removal g t).old = s.old := by
  rw [removal, forget_old]

@[simp] theorem removal_toggles (g : G) (t : T) (s : Toggles T G) :
    (s.removal g t).toggles = Function.update s.toggles g ((s.toggles g).erase t) := by
  rw [removal, forget_toggles]

theorem removal_selected (g : G) (t u : T) (s : Toggles T G) : (s.removal g t).selected u =
      if s.selected t = true ∧ s.selectedToggle g = some u ∧ s.toggleGroup u = some g then false
      else s.selected u :=
  forget_selected ..

theorem removal_selectedToggle (g o : G) (t : T) (s : Toggles T G) :
    (s.removal g t).selectedToggle o =
      if o = g ∧ s.selected t = true then none else s.selectedToggle o := by
  by_cases ho : o = g
  · rw [ho, removal, forget_selectedToggle]
    simp only [true_and]
  · rw [removal, forget_selectedToggle_of_ne ho, if_neg fun h => ho h.1]

/-- A member whose group is consistent takes its own selection with it. -/
theorem removal_of_member (hgrp : s.toggleGroup t = some g)
    (hsel : ∀ u, s.selectedToggle g = some u ↔ s.toggleGroup u = some g ∧ s.selected u = true) :
    s.removal g t =
      { s with
        selected := Function.update s.selected t false
        toggles := Function.update s.toggles g ((s.toggles g).erase t)
        selectedToggle :=
          if s.selected t = true then Function.update s.selectedToggle g none
          else s.selectedToggle } := by
  cases ht : s.selected t with
  | false =>
    have hselected : Function.update s.selected t false = s.selected :=
      update_eq_self_iff.mpr ht.symm
    simp only [removal, forget, ht, Bool.false_eq_true, false_and, if_false, hselected]
  | true =>
    have hst := (hsel t).mpr ⟨hgrp, ht⟩
    simp only [removal, forget, ht, hst, true_and, ne_eq, reduceCtorEq, not_false_eq_true, if_true]
    exact select_of_member (fun _ h => by cases h) hst (by simp [hst]) hgrp

theorem mem_erase_of_once {L : List T} (h : L.count t ≤ 1) (u : T) :
    u ∈ L.erase t ↔ u ∈ L ∧ u ≠ t := by
  by_cases hu : u = t
  · subst hu
    have hcnt : (L.erase u).count u = 0 := by
      rw [count_erase_self]
      omega
    exact ⟨fun hmem => absurd hmem (count_eq_zero.mp hcnt), fun hmem => absurd rfl hmem.2⟩
  · rw [mem_erase_of_ne hu]
    exact ⟨fun hmem => ⟨hmem, hu⟩, And.left⟩

/-! ## The added toggles -/

/-- The state after a toggle has taken a group as its own. -/
def assign (t : T) (value : Option G) (s : Toggles T G) : Toggles T G :=
  { s with
    toggleGroup := Function.update s.toggleGroup t value
    old := Function.update s.old t value }

theorem setToggleGroup_listed (hne : s.toggleGroup t ≠ some g) (hmem : t ∈ s.toggles g) (k : Nat) :
    setToggleGroup (k + 1) t (some g) s = returns () (s.assign t (some g)) := by
  rw [setToggleGroup, if_neg hne]
  simp only [hmem, if_true, andThen_returns]
  rfl

/-- What adopting `t` leaves alone; no list gains anything. -/
structure Adopted (g : G) (t : T) (s s' : Toggles T G) : Prop where
  group : s'.toggleGroup t = some g
  toggleGroup_of_ne : ∀ u, u ≠ t → s'.toggleGroup u = s.toggleGroup u
  selected_of_ne : ∀ u, u ≠ t → s'.selected u = s.selected u
  selectedToggle : s'.selectedToggle g = s.selectedToggle g
  count_le : ∀ o u, (s'.toggles o).count u ≤ (s.toggles o).count u
  old : s.old = s.toggleGroup → s'.old = s'.toggleGroup

omit [DecidableEq G] in
theorem assign_toggleGroup (t : T) (value : Option G) (s : Toggles T G) :
    (s.assign t value).toggleGroup = Function.update s.toggleGroup t value := rfl

omit [DecidableEq G] in
theorem Adopting.assign (h : Adopting g (t :: rest) fresh s) (hnone : s.toggleGroup t = none) :
    Adopting g rest (fun u => fresh u ∨ u = t ∧ s.selected t = true) (s.assign t (some g)) where
  mem_iff u := by
    rw [assign_toggleGroup]
    refine (h.mem_iff u).trans ?_
    by_cases hu : u = t
    · subst hu
      simp
    · simp [hu]
  selected_iff u := by
    rw [assign_toggleGroup, ← or_assoc]
    refine (or_congr_left (h.selected_iff u)).trans ?_
    by_cases hu : u = t
    · subst hu
      simp [Toggles.assign, hnone]
    · simp [Toggles.assign, hu]
  others_mem_iff o ho u := by
    rw [assign_toggleGroup]
    refine (h.others_mem_iff o ho u).trans ?_
    by_cases hu : u = t
    · subst hu
      simp [hnone, Ne.symm ho]
    · rw [update_of_ne hu]
  others_selected_iff o ho u := by
    rw [assign_toggleGroup]
    refine (h.others_selected_iff o ho u).trans ?_
    by_cases hu : u = t
    · subst hu
      simp [Toggles.assign, hnone, Ne.symm ho]
    · rw [update_of_ne hu]
      rfl

/-- A toggle that another group gives up loses its selection on the way. -/
theorem Adopting.move {o : G}
    (h : Adopting g (t :: rest) fresh s) (ho : o ≠ g) (hgrp : s.toggleGroup t = some o)
    (honce : (s.toggles o).count t ≤ 1) :
    Adopting g rest fresh ((s.removal o t).assign t (some g)) := by
  have hst := h.others_selected_iff o ho
  rw [removal_of_member hgrp hst]
  refine ⟨fun u => ?_, fun u => ?_, fun o' ho' u => ?_, fun o' ho' u => ?_⟩
  · simp only [Toggles.assign, update_of_ne (Ne.symm ho)]
    rw [h.mem_iff]
    by_cases hu : u = t
    · simp [hu]
    · simp [hu]
  · have hkeep : (if s.selected t = true then Function.update s.selectedToggle o none
        else s.selectedToggle) g = s.selectedToggle g := by
      split
      · exact update_of_ne (Ne.symm ho) ..
      · rfl
    simp only [Toggles.assign, hkeep]
    rw [h.selected_iff]
    by_cases hu : u = t
    · simp [hu, hgrp, ho]
    · simp [hu]
  · simp only [Toggles.assign]
    by_cases hoo : o' = o
    · rw [hoo, update_self, mem_erase_of_once honce, h.others_mem_iff o ho]
      by_cases hu : u = t
      · simp [hu, Ne.symm ho]
      · simp [hu]
    · rw [update_of_ne hoo, h.others_mem_iff o' ho']
      by_cases hu : u = t
      · simp [hu, hgrp, Ne.symm hoo, Ne.symm ho']
      · rw [update_of_ne hu]
  · simp only [Toggles.assign]
    have hu' := h.others_selected_iff o' ho' u
    by_cases hu : u = t
    · subst hu
      rw [update_self]
      refine ⟨fun hnamed => ?_, fun hin => absurd (Option.some.inj hin.1) (Ne.symm ho')⟩
      split at hnamed
      · by_cases hoo : o' = o
        · rw [hoo, update_self] at hnamed
          cases hnamed
        · rw [update_of_ne hoo] at hnamed
          exact absurd (Option.some.inj ((hu'.mp hnamed).1.symm.trans hgrp)) hoo
      · exact absurd (hu'.mp hnamed).2 ‹_›
    · rw [update_of_ne hu, update_of_ne hu, ← hu']
      split
      · rename_i hsel
        by_cases hoo : o' = o
        · rw [hoo, update_self, (hst t).mpr ⟨hgrp, hsel⟩]
          simp [Ne.symm hu]
        · rw [update_of_ne hoo]
      · rfl

theorem adopt_spec (h : Adopting g (t :: rest) fresh s)
    (honce : ∀ o, o ≠ g → s.toggleGroup t = some o → (s.toggles o).count t ≤ 1) (k : Nat) :
    ∃ s', adopt (remove (k + 12)) (setToggleGroup (k + 12)) g t s = returns () s' ∧
      Adopting g rest (fun u => fresh u ∨ u = t ∧ s.toggleGroup t = none ∧ s.selected t = true) s' ∧
      Adopted g t s s' := by
  rw [adopt]
  by_cases hg : s.toggleGroup t = some g
  · refine ⟨s, if_pos hg, ⟨fun u => (h.mem_iff u).trans ?_, fun u => ?_, h.others_mem_iff,
      h.others_selected_iff⟩, hg, fun _ _ => rfl, fun _ _ => rfl, rfl, fun _ _ => Nat.le_refl _, id⟩
    · by_cases hu : u = t
      · simp [hu, hg]
      · simp [hu]
    · simpa [hg] using h.selected_iff u
  · have hlisted : t ∈ s.toggles g := (h.mem_iff t).mpr (.inr mem_cons_self)
    rw [if_neg hg]
    cases hgrp : s.toggleGroup t with
    | none =>
      refine ⟨_, setToggleGroup_listed hg hlisted _, ?_, update_self .., fun u hu =>
        update_of_ne hu .., fun _ _ => rfl, rfl, fun _ _ => Nat.le_refl _, fun hold => ?_⟩
      · simpa using h.assign hgrp
      · simp only [Toggles.assign, hold]
    | some o =>
      have ho : o ≠ g := fun heq => hg (heq ▸ hgrp)
      have hmem : t ∈ s.toggles o := (h.others_mem_iff o ho t).mpr hgrp
      have hst := h.others_selected_iff o ho
      have hlisted' : t ∈ (s.removal o t).toggles g := by
        rwa [removal_toggles, update_of_ne (Ne.symm ho)]
      have hg' : (s.removal o t).toggleGroup t ≠ some g := by rwa [removal_toggleGroup]
      refine ⟨(s.removal o t).assign t (some g), ?_, ?_, update_self .., fun u hu => ?_,
        fun u hu => ?_, ?_, fun o' u => ?_, fun hold => ?_⟩
      · simp only []
        rw [remove_spec hmem, andThen_returns, setToggleGroup_listed hg' hlisted']
      · simpa using h.move ho hgrp (honce o ho hgrp)
      · rw [assign_toggleGroup, removal_toggleGroup, update_of_ne hu]
      · rw [removal_of_member hgrp hst]
        exact update_of_ne hu ..
      · rw [removal_of_member hgrp hst]
        simp only [Toggles.assign]
        split
        · exact update_of_ne (Ne.symm ho) ..
        · rfl
      · simp only [Toggles.assign, removal_toggles]
        by_cases hoo : o' = o
        · rw [hoo, update_self]
          exact erase_sublist.count_le u
        · exact Nat.le_of_eq (by rw [update_of_ne hoo])
      · simp only [Toggles.assign, removal_old, removal_toggleGroup, hold]

theorem adopt_all {added : List T} (h : Adopting g added (fun _ => False) s)
    (honce : ∀ t ∈ added, ∀ o, o ≠ g → s.toggleGroup t = some o → (s.toggles o).count t ≤ 1)
    (hold : s.old = s.toggleGroup) (k : Nat) :
    ∃ s' fresh, forEach (adopt (remove (k + 12)) (setToggleGroup (k + 12)) g) added s = returns () s' ∧
      Adopting g [] fresh s' ∧ s'.old = s'.toggleGroup ∧
      (∀ u, fresh u → u ∈ added ∧ s.toggleGroup u = none ∧ s.selected u = true) ∧
      (∀ t ∈ added, s'.toggleGroup t = some g) ∧ s'.selectedToggle g = s.selectedToggle g := by
  have hloop := forEach_spec (f := adopt (remove (k + 12)) (setToggleGroup (k + 12)) g)
    (P := fun rest s' => ∃ fresh, Adopting g rest fresh s' ∧ s'.old = s'.toggleGroup ∧
      (∀ u, fresh u → u ∈ added ∧ s.toggleGroup u = none ∧ s.selected u = true) ∧
      (∀ t ∈ added, t ∈ rest ∨ s'.toggleGroup t = some g) ∧
      s'.selectedToggle g = s.selectedToggle g ∧ (∀ t ∈ rest, t ∈ added) ∧
      (∀ u, s'.toggleGroup u ≠ some g →
        s'.toggleGroup u = s.toggleGroup u ∧ s'.selected u = s.selected u) ∧
      ∀ o u, (s'.toggles o).count u ≤ (s.toggles o).count u)
    (l := added) (s := s) ?_
    ⟨_, h, hold, fun _ => False.elim, fun t ht => .inl ht, rfl, fun _ => id, fun _ _ => ⟨rfl, rfl⟩,
      fun _ _ => Nat.le_refl _⟩
  · obtain ⟨s', hs', fresh, h', hold', hfresh, hmember, hst, -, -, -⟩ := hloop
    exact ⟨s', fresh, hs', h', hold', hfresh,
      fun t ht => (hmember t ht).resolve_left not_mem_nil, hst⟩
  · rintro t rest s1 ⟨fresh, h1, hold1, hfresh, hmember, hst, hadded, hkeep, hcnt⟩
    have ht := hadded t mem_cons_self
    obtain ⟨s2, hs2, h2, hadopted⟩ := adopt_spec h1 (fun o ho hgrp => by
      have hne : s1.toggleGroup t ≠ some g := fun heq => ho (Option.some.inj (hgrp.symm.trans heq))
      exact Nat.le_trans (hcnt o t) (honce t ht o ho ((hkeep t hne).1 ▸ hgrp))) k
    refine ⟨s2, hs2, _, h2, hadopted.old hold1, fun u hu => ?_, fun u hu => ?_,
      hadopted.selectedToggle.trans hst, fun u hu => hadded u (.tail _ hu),
      fun u hu => ?_, fun o u => Nat.le_trans (hadopted.count_le o u) (hcnt o u)⟩
    · cases hu with
      | inl hu => exact hfresh u hu
      | inr hu =>
        obtain ⟨rfl, hnone, hsel⟩ := hu
        have hsame := hkeep u (by rw [hnone]; nofun)
        exact ⟨ht, hsame.1 ▸ hnone, hsame.2 ▸ hsel⟩
    · by_cases hut : u = t
      · exact .inr (hut ▸ hadopted.group)
      · cases hmember u hu with
        | inl hmem => exact .inl ((mem_cons.mp hmem).resolve_left hut)
        | inr hin => exact .inr ((hadopted.toggleGroup_of_ne u hut).trans hin)
    · have hut : u ≠ t := fun heq => hu (heq ▸ hadopted.group)
      rw [hadopted.toggleGroup_of_ne u hut] at hu ⊢
      rw [hadopted.selected_of_ne u hut]
      exact hkeep u hu

end OpenJfx.Controls.Toggles
