/-
  OpenJfx.Controls.ToggleGroup.Exclusion

  At most one toggle of a group is selected, but for three gaps of the handlers: a toggle removed
  through `getToggles()` keeps its `toggleGroup`, of several selected toggles added at once only
  the first is noticed, and a list with duplicates gives up one occurrence only.
-/

import OpenJfx.Controls.ToggleGroup.Membership
import OpenJfx.Lib.Machine

namespace OpenJfx.Controls.Toggles

open Outcome List Function

variable {from_ to_ : Int} {T G : Type}

/-- Lists, groups and selections agree. -/
structure Consistent (s : Toggles T G) : Prop where
  mem_iff : ∀ g t, t ∈ s.toggles g ↔ s.toggleGroup t = some g
  unique : ∀ g t u, t ∈ s.toggles g → u ∈ s.toggles g → s.selected t = true →
    s.selected u = true → t = u
  selectedToggle_iff : ∀ g t, s.selectedToggle g = some t ↔ t ∈ s.toggles g ∧ s.selected t = true

/-- What holds between calls: the field `old` has caught up as well. -/
def Settled (s : Toggles T G) : Prop := Consistent s ∧ s.old = s.toggleGroup

variable {s : Toggles T G} {g : G} {fresh : T → Prop} {t : T} {toBeAdded : List T}

theorem Consistent.selected_iff (h : Consistent s) (g : G) (t : T) :
    s.selectedToggle g = some t ↔ s.toggleGroup t = some g ∧ s.selected t = true := by
  rw [h.selectedToggle_iff, h.mem_iff]

theorem Consistent.of_groups (hmem : ∀ g t, t ∈ s.toggles g ↔ s.toggleGroup t = some g)
    (hsel : ∀ g t, s.selectedToggle g = some t ↔ s.toggleGroup t = some g ∧ s.selected t = true) :
    Consistent s where
  mem_iff := hmem
  unique g t u ht hu hst hsu := by
    have h1 := (hsel g t).mpr ⟨(hmem g t).mp ht, hst⟩
    have h2 := (hsel g u).mpr ⟨(hmem g u).mp hu, hsu⟩
    exact Option.some.inj (h1.symm.trans h2)
  selectedToggle_iff g t := by rw [hsel, hmem]

variable [DecidableEq T] [DecidableEq G]

omit [DecidableEq T] in
theorem Adopting.consistent
    (h : Adopting g [] fresh s) (hfresh : ∀ u, ¬ fresh u) : Consistent s := by
  refine Consistent.of_groups (fun o t => ?_) (fun o t => ?_)
  · by_cases ho : o = g
    · simpa [ho] using h.mem_iff t
    · exact h.others_mem_iff o ho t
  · by_cases ho : o = g
    · simpa [ho, hfresh] using h.selected_iff t
    · exact h.others_selected_iff o ho t

/-! ## Selecting -/

theorem select_selected_iff {new : Option T}
    (hothers : ∀ o, o ≠ g → ∀ u, s.selectedToggle o = some u ↔
      s.toggleGroup u = some o ∧ s.selected u = true)
    (hall : ∀ u, s.toggleGroup u = some g → s.selected u = true →
      s.selectedToggle g = some u ∨ new = some u)
    (hnew : ∀ t, new = some t → s.toggleGroup t = some g) (o : G) (u : T) :
    (s.select g new).selectedToggle o = some u ↔
      (s.select g new).toggleGroup u = some o ∧ (s.select g new).selected u = true := by
  rw [select_toggleGroup, select_selected, select_selectedToggle]
  by_cases ho : o = g
  · subst ho
    rw [update_self]
    by_cases hu : new = some u
    · simp [hu, hnew u hu]
    · refine ⟨fun h => absurd h hu, fun ⟨hgrp, hsel⟩ => ?_⟩
      rw [if_neg hu] at hsel
      split at hsel
      · cases hsel
      · rename_i hnot
        exact absurd ⟨(hall u hgrp hsel).resolve_right hu, hgrp⟩ hnot
  · rw [update_of_ne ho, hothers o ho]
    by_cases hgrp : s.toggleGroup u = some o
    · have hne : s.toggleGroup u ≠ some g := fun h => ho (Option.some.inj (hgrp.symm.trans h))
      rw [if_neg fun h => hne (hnew u h), if_neg fun h => hne h.2]
    · exact ⟨fun h => absurd h.1 hgrp, fun h => absurd h.1 hgrp⟩

theorem Settled.select {s : Toggles T G} (h : Settled s) {g : G} {new : Option T}
    (hnew : ∀ t, new = some t → s.toggleGroup t = some g) : Settled (s.select g new) :=
  ⟨Consistent.of_groups h.1.mem_iff (select_selected_iff (fun o _ => h.1.selected_iff o)
    (fun u hgrp hsel => .inl ((h.1.selected_iff g u).mpr ⟨hgrp, hsel⟩)) hnew), h.2⟩

theorem Settled.selectToggle (h : Settled s) (g : G) (new : Option T) (k : Nat) :
    ∃ s', selectToggle (k + 10) g new s = returns () s' ∧ Settled s' := by
  by_cases hne : s.selectedToggle g = new
  · exact ⟨s, selectToggle_same hne _, h⟩
  · cases new with
    | none => exact ⟨_, selectToggle_none_spec hne _, h.select nofun⟩
    | some t =>
      by_cases hgrp : s.toggleGroup t = some g
      · refine ⟨_, selectToggle_some_spec hgrp hne k, h.select ?_⟩
        rintro _ ⟨⟩
        exact hgrp
      · exact ⟨s, selectToggle_stranger hgrp hne _, h⟩

theorem Settled.unselect_eq (h : Settled s)
    (hgrp : s.toggleGroup t = some g) (hsel : s.selected t = true) :
    s.unselect g t = s.select g none := by
  have hst := (h.1.selected_iff g t).mpr ⟨hgrp, hsel⟩
  rw [unselect, if_neg, select_of_member (fun _ h => by cases h) hst (by simp [hst]) hgrp]
  simp only [any_eq_true, not_exists, not_and]
  intro u hu
  by_cases hut : u = t
  · simp [hut]
  · rw [update_of_ne hut]
    exact fun hu' => hut (h.1.unique g u t hu ((h.1.mem_iff g t).mpr hgrp) hu' hsel)

theorem Settled.setSelected (h : Settled s) (t : T) (value : Bool) (k : Nat) :
    ∃ s', setSelected (k + 8) t value s = returns () s' ∧ Settled s' := by
  by_cases hsame : s.selected t = value
  · exact ⟨s, setSelected_same hsame _, h⟩
  · cases hgrp : s.toggleGroup t with
    | none =>
      refine ⟨{ s with selected := Function.update s.selected t value }, ?_,
        Consistent.of_groups h.1.mem_iff fun g u => ?_, h.2⟩
      · rw [Toggles.setSelected, if_neg hsame]
        simp only [hgrp]
      · refine (h.1.selected_iff g u).trans ?_
        by_cases hu : u = t
        · simp [hu, hgrp]
        · simp [hu]
    | some g =>
      cases value with
      | true =>
        have hne : s.selectedToggle g ≠ some t := fun hst => hsame ((h.1.selected_iff g t).mp hst).2
        refine ⟨_, setSelected_true (by simpa using hsame) hgrp hne k, h.select ?_⟩
        rintro _ ⟨⟩
        exact hgrp
      | false =>
        have hsel : s.selected t = true := by simpa using hsame
        have hst := (h.1.selected_iff g t).mpr ⟨hgrp, hsel⟩
        refine ⟨_, setSelected_false hsel hgrp hst (k + 3), ?_⟩
        rw [h.unselect_eq hgrp hsel]
        exact h.select (by simp)

theorem selectFirst_spec {added : List T}
    (h : Adopting g [] fresh s) (hadded : ∀ t ∈ added, s.toggleGroup t = some g)
    (hfresh : ∀ u, fresh u → u ∈ added) (hone : ∀ t u, fresh t → fresh u → t = u)
    (hnamed : ∀ t ∈ added, s.selectedToggle g ≠ some t) (k : Nat) :
    ∃ s', selectFirst (k + 10) g added s = returns () s' ∧ Consistent s' ∧ s'.old = s.old ∧
      s'.toggleGroup = s.toggleGroup := by
  rw [selectFirst]
  cases hfind : added.find? s.selected with
  | none =>
    refine ⟨s, rfl, h.consistent fun u hu => ?_, rfl, rfl⟩
    have hsel := ((h.selected_iff u).mp (.inr hu)).2
    exact absurd hsel (find?_eq_none.mp hfind u (hfresh u hu))
  | some t =>
    have ht := mem_of_find?_eq_some hfind
    have hgrp := hadded t ht
    have htfresh : fresh t :=
      ((h.selected_iff t).mpr ⟨hgrp, find?_some hfind⟩).resolve_left (hnamed t ht)
    refine ⟨_, selectToggle_some_spec hgrp (hnamed t ht) k, ?_, rfl, rfl⟩
    refine Consistent.of_groups (fun o u => ?_) (fun o u => ?_)
    · by_cases ho : o = g
      · simpa [ho] using h.mem_iff u
      · exact h.others_mem_iff o ho u
    · refine select_selected_iff h.others_selected_iff (fun u hu hsel => ?_) ?_ o u
      · cases (h.selected_iff u).mpr ⟨hu, hsel⟩ with
        | inl hst => exact .inl hst
        | inr hu => exact .inr (congrArg some (hone t u htfresh hu))
      · rintro _ ⟨⟩
        exact hgrp

/-! ## Replacing a range -/

/-- A change of a list that avoids the gaps of the handlers: it drops no toggle, at most one comes
    selected from no group, and one from another group occurs once. -/
structure Harmless (s : Toggles T G) (g : G) (from_ to_ : Int) (toBeAdded : List T) : Prop where
  kept : ∀ t ∈ s.toggles g, t ∈ replaced from_ to_ toBeAdded (s.toggles g)
  selected : ∀ t ∈ toBeAdded, ∀ u ∈ toBeAdded, s.toggleGroup t = none → s.toggleGroup u = none →
    s.selected t = true → s.selected u = true → t = u
  once : ∀ t ∈ toBeAdded, ∀ o ∈ s.toggleGroup t, o ≠ g → (s.toggles o).count t ≤ 1

instance (s : Toggles T G) (g : G) (from_ to_ : Int) (toBeAdded : List T) :
    Decidable (Harmless s g from_ to_ toBeAdded) :=
  decidable_of_iff ((∀ t ∈ s.toggles g, t ∈ replaced from_ to_ toBeAdded (s.toggles g)) ∧
      (∀ t ∈ toBeAdded, ∀ u ∈ toBeAdded, s.toggleGroup t = none → s.toggleGroup u = none →
        s.selected t = true → s.selected u = true → t = u) ∧
      ∀ t ∈ toBeAdded, ∀ o ∈ s.toggleGroup t, o ≠ g → (s.toggles o).count t ≤ 1)
    ⟨fun h => ⟨h.1, h.2.1, h.2.2⟩, fun h => ⟨h.kept, h.selected, h.once⟩⟩

omit [DecidableEq T] in
theorem mem_replaced {toggles : List T}
    (h : t ∈ replaced from_ to_ toBeAdded toggles) : t ∈ toggles ∨ t ∈ toBeAdded := by
  simp only [replaced, mem_append] at h
  obtain (h | h) | h := h
  · exact .inl (mem_of_mem_take h)
  · exact .inr h
  · exact .inl (mem_of_mem_drop h)

omit [DecidableEq T] in
theorem mem_replaced_of_mem (toggles : List T)
    (h : t ∈ toBeAdded) : t ∈ replaced from_ to_ toBeAdded toggles :=
  mem_append_left _ (mem_append_right _ h)

/-- Only the whole list can be replaced by toggles that it has. -/
theorem removed_of_not_vetoes {toggles : List T}
    (hveto : vetoes from_ to_ toBeAdded toggles = false) (ht : t ∈ toBeAdded) (hmem : t ∈ toggles) :
    (toggles.take to_.toNat).drop from_.toNat = toggles := by
  have hall : from_ = 0 ∧ to_ = toggles.length := by
    by_contra hnot
    rw [vetoes, decide_eq_false_iff_not] at hveto
    exact hveto ⟨hnot, t, ht, hmem⟩
  rw [hall.1, hall.2, Int.toNat_natCast, take_length]
  rfl

theorem Settled.changed (h : Settled s) (hh : Harmless s g from_ to_ toBeAdded) :
    Adopting g toBeAdded (fun _ => False)
      { s with
        toggles := Function.update s.toggles g (replaced from_ to_ toBeAdded (s.toggles g)) } where
  mem_iff t := by
    simp only [update_self]
    rw [← h.1.mem_iff]
    exact ⟨mem_replaced, fun ht => ht.elim (hh.kept t) (mem_replaced_of_mem _)⟩
  selected_iff t := (or_iff_left id).trans (h.1.selected_iff g t)
  others_mem_iff o ho t := by
    simp only [update_of_ne ho]
    exact h.1.mem_iff o t
  others_selected_iff o _ t := h.1.selected_iff o t

theorem Settled.onChanged (h : Settled s) (hveto : vetoes from_ to_ toBeAdded (s.toggles g) = false)
    (hh : Harmless s g from_ to_ toBeAdded) (k : Nat) :
    ∃ s', onChanged (k + 13) g (((s.toggles g).take to_.toNat).drop from_.toNat) toBeAdded
        { s with
          toggles := Function.update s.toggles g (replaced from_ to_ toBeAdded (s.toggles g)) } =
      returns () s' ∧ Settled s' := by
  obtain ⟨s1, hs1, h1, hgroup1, hold1, htoggles1, hsel1, hrem⟩ :=
    toggleRemoved_all (h.changed hh) (((s.toggles g).take to_.toNat).drop from_.toNat) (k + 5)
  have hgroup1 : s1.toggleGroup = s.toggleGroup := hgroup1
  have honce : ∀ t ∈ toBeAdded, ∀ o, o ≠ g → s1.toggleGroup t = some o →
      (s1.toggles o).count t ≤ 1 := by
    intro t ht o ho hgrp
    rw [htoggles1]
    simp only [update_of_ne ho]
    exact hh.once t ht o (hgroup1 ▸ hgrp) ho
  obtain ⟨s2, fresh, hs2, h2, hold2, hfresh, hmember, hst⟩ :=
    adopt_all h1 honce (hold1.trans (h.2.trans hgroup1.symm)) k
  have hnamed : ∀ t ∈ toBeAdded, s2.selectedToggle g ≠ some t := by
    intro t ht hnamed
    obtain ⟨hin, hsel⟩ := (h1.selected_iff t).mp (.inl (hst ▸ hnamed))
    have hmem : t ∈ s.toggles g := (h.1.mem_iff g t).mpr (hgroup1 ▸ hin)
    have hgone := hrem t (by rwa [removed_of_not_vetoes hveto ht hmem]) (hgroup1 ▸ hin)
    rw [hsel] at hgone
    cases hgone
  have hone : ∀ t u, fresh t → fresh u → t = u := by
    intro t u ht hu
    obtain ⟨ht, htnone, htsel⟩ := hfresh t ht
    obtain ⟨hu, hunone, husel⟩ := hfresh u hu
    exact hh.selected t ht u hu (hgroup1 ▸ htnone) (hgroup1 ▸ hunone) (hsel1 t htsel) (hsel1 u husel)
  obtain ⟨s3, hs3, h3, hold3, hgroup3⟩ :=
    selectFirst_spec h2 hmember (fun u hu => (hfresh u hu).1) hone hnamed (k + 2)
  refine ⟨s3, ?_, h3, hold3.trans (hold2.trans hgroup3.symm)⟩
  rw [Toggles.onChanged, hs1, andThen_returns, hs2, andThen_returns, hs3]

theorem Settled.replaceRange (h : Settled s) (hh : vetoes from_ to_ toBeAdded
    (s.toggles g) = false →
      0 ≤ from_ ∧ to_ ≤ (s.toggles g).length → Harmless s g from_ to_ toBeAdded) (k : Nat) :
    ∃ s', (replaceRange (k + 14) g from_ to_ toBeAdded s).state = some s' ∧ Settled s' := by
  rw [Toggles.replaceRange]
  cases hveto : vetoes from_ to_ toBeAdded (s.toggles g) with
  | true => exact ⟨s, rfl, h⟩
  | false =>
    by_cases hrng : 0 ≤ from_ ∧ to_ ≤ (s.toggles g).length
    · obtain ⟨s', hs', h'⟩ := h.onChanged hveto (hh hveto hrng) k
      refine ⟨s', ?_, h'⟩
      simp only [Bool.false_eq_true, if_false, if_pos hrng]
      rw [hs', reported_returns, state_returns]
    · simp only [Bool.false_eq_true, if_false, if_neg hrng]
      exact ⟨s, rfl, h⟩

/-! ## Changing the group of a toggle -/

/-- `t` has been given another group, or none, and is in no list: nothing else changed. -/
structure Departed (t : T) (value : Option G) (s s' : Toggles T G) : Prop where
  toggleGroup : s'.toggleGroup = Function.update s.toggleGroup t value
  selected : s'.selected = s.selected
  old : s'.old = s.old
  mem_iff : ∀ o u, u ∈ s'.toggles o ↔ u ≠ t ∧ s.toggleGroup u = some o
  selected_iff : ∀ o u, s'.selectedToggle o = some u ↔
    u ≠ t ∧ s.toggleGroup u = some o ∧ s.selected u = true

omit [DecidableEq G] in
theorem Settled.departed_of_none (h : Settled s)
    (hnone : s.toggleGroup t = none) (value : Option G) :
    Departed t value s { s with toggleGroup := Function.update s.toggleGroup t value } := by
  have hne : ∀ o u, s.toggleGroup u = some o → u ≠ t := by
    rintro o u hu rfl
    cases hnone.symm.trans hu
  refine ⟨rfl, rfl, rfl, fun o u => (h.1.mem_iff o u).trans ?_, fun o u =>
    (h.1.selected_iff o u).trans ?_⟩
  · exact ⟨fun hu => ⟨hne o u hu, hu⟩, And.right⟩
  · exact ⟨fun hu => ⟨hne o u hu.1, hu⟩, And.right⟩

/-- The group it leaves forgets a toggle, which keeps its selection. -/
theorem Settled.departed (h : Settled s) {o : G}
    (hgrp : s.toggleGroup t = some o) (honce : (s.toggles o).count t ≤ 1) {value : Option G}
    (hne : value ≠ some o) :
    Departed t value s (({ s with toggleGroup := Function.update s.toggleGroup t value } :
      Toggles T G).removal o t) := by
  have hst : s.selected t = true → s.selectedToggle o = some t :=
    fun hsel => (h.1.selected_iff o t).mpr ⟨hgrp, hsel⟩
  refine ⟨removal_toggleGroup .., funext fun u => ?_, removal_old .., fun o' u => ?_, fun o' u => ?_⟩
  · rw [removal_selected, if_neg]
    rintro ⟨hsel, hnamed, hin⟩
    have hu : u = t := Option.some.inj (hnamed.symm.trans (hst hsel))
    have hin : Function.update s.toggleGroup t value u = some o := hin
    rw [hu, update_self] at hin
    exact hne hin
  · rw [removal_toggles]
    by_cases ho : o' = o
    · rw [ho, update_self, mem_erase_of_once honce, h.1.mem_iff, and_comm]
    · rw [update_of_ne ho, h.1.mem_iff]
      refine ⟨fun hu => ⟨?_, hu⟩, And.right⟩
      rintro rfl
      exact ho (Option.some.inj (hu.symm.trans hgrp))
  · rw [removal_selectedToggle]
    have hu := h.1.selected_iff o' u
    split
    · rename_i hgone
      refine ⟨nofun, fun ⟨hut, hin⟩ => ?_⟩
      have hnamed := hgone.1 ▸ hu.mpr hin
      exact absurd (Option.some.inj (hnamed.symm.trans (hst hgone.2))) hut
    · rename_i hstays
      refine ⟨fun hnamed => ⟨?_, hu.mp hnamed⟩, fun hin => hu.mpr hin.2⟩
      rintro rfl
      obtain ⟨hin, hsel⟩ := hu.mp hnamed
      exact hstays ⟨Option.some.inj (hin.symm.trans hgrp), hsel⟩

theorem Departed.add {s1 : Toggles T G} (h : Departed t (some g) s s1) (k : Nat) :
    ∃ s', add (k + 13) g t s1 = returns () s' ∧ Consistent s' ∧ s'.old = s.old ∧
      s'.toggleGroup = Function.update s.toggleGroup t (some g) := by
  have hnot : t ∉ s1.toggles g := fun ht => ((h.mem_iff g t).mp ht).1 rfl
  have hgrp : s1.toggleGroup t = some g := by rw [h.toggleGroup, update_self]
  have hadopting : Adopting g [] (fun u => u = t ∧ s.selected t = true)
      { s1 with toggles := Function.update s1.toggles g (s1.toggles g ++ [t]) } := by
    refine ⟨fun u => ?_, fun u => ?_, fun o ho u => ?_, fun o ho u => ?_⟩
    · simp only [update_self, h.toggleGroup, mem_append, mem_singleton, h.mem_iff]
      by_cases hu : u = t
      · simp [hu]
      · simp [hu]
    · simp only [h.selected_iff, h.toggleGroup, h.selected]
      by_cases hu : u = t
      · simp [hu]
      · simp [hu]
    · simp only [update_of_ne ho, h.mem_iff, h.toggleGroup]
      by_cases hu : u = t
      · simp [hu, Ne.symm ho]
      · simp [hu]
    · simp only [h.selected_iff, h.toggleGroup, h.selected]
      by_cases hu : u = t
      · simp [hu, Ne.symm ho]
      · simp [hu]
  obtain ⟨s', hs', h', hold', hgrp'⟩ := selectFirst_spec hadopting
    (fun u (hu : u ∈ [t]) => by rw [mem_singleton.mp hu]; exact hgrp) (fun u hu => by simp [hu.1])
    (fun u v hu hv => hu.1.trans hv.1.symm)
    (fun u hu hnamed => ((h.selected_iff g u).mp hnamed).1 (mem_singleton.mp hu)) k
  refine ⟨s', ?_, h', hold'.trans h.old, hgrp'.trans h.toggleGroup⟩
  have hveto : vetoes (s1.toggles g).length (s1.toggles g).length [t] (s1.toggles g) = false := by
    rw [vetoes, decide_eq_false_iff_not]
    rintro ⟨-, u, hu, hmem⟩
    exact hnot (mem_singleton.mp hu ▸ hmem)
  rw [Toggles.add, Toggles.replaceRange]
  simp only [hveto, Bool.false_eq_true, if_false]
  rw [if_pos (by omega)]
  simp only [replaced, Int.toNat_natCast, take_length, drop_length, append_nil]
  rw [Toggles.onChanged, forEach, andThen_returns, forEach, adopt, if_pos hgrp, andThen_returns,
    forEach, andThen_returns, hs', reported_returns]

omit [DecidableEq G] in
theorem settled_of_old {s' : Toggles T G} (h : Settled s) {value : Option G}
    (hc : Consistent s') (hold : s'.old = s.old)
    (hgrp : s'.toggleGroup = Function.update s.toggleGroup t value) :
    Settled { s' with old := Function.update s'.old t value } :=
  ⟨{ hc with }, by rw [hold, hgrp, h.2]⟩

theorem Settled.setToggleGroup (h : Settled s) (t : T) (value : Option G)
    (honce : ∀ o ∈ s.toggleGroup t, value ≠ some o → (s.toggles o).count t ≤ 1) (k : Nat) :
    ∃ s', setToggleGroup (k + 14) t value s = returns () s' ∧ Settled s' := by
  by_cases hsame : s.toggleGroup t = value
  · exact ⟨s, by rw [Toggles.setToggleGroup, if_pos hsame], h⟩
  rw [Toggles.setToggleGroup, if_neg hsame]
  cases hgrp : s.toggleGroup t with
  | none =>
    cases value with
    | none => exact absurd hgrp hsame
    | some g =>
      have hnot : t ∉ s.toggles g := fun ht => hsame ((h.1.mem_iff g t).mp ht)
      have hold : s.old t = none := by rw [h.2, hgrp]
      obtain ⟨s', hs', hc, hold', hgrp'⟩ := (h.departed_of_none hgrp (some g)).add k
      refine ⟨_, ?_, settled_of_old h hc hold' hgrp'⟩
      simp only [hnot, if_false, hold, andThen_returns]
      rw [hs', andThen_returns]
  | some o =>
    have hne : value ≠ some o := fun heq => hsame (hgrp.trans heq.symm)
    have hold : s.old t = some o := by rw [h.2, hgrp]
    have hremove := remove_spec
      (s := { s with toggleGroup := Function.update s.toggleGroup t value })
      ((h.1.mem_iff o t).mpr hgrp) (k + 1)
    have hleft := h.departed hgrp (honce o hgrp hne) hne
    cases value with
    | none =>
      refine ⟨_, ?_, settled_of_old h (Consistent.of_groups (fun g u => ?_) fun g u => ?_) hleft.old
        hleft.toggleGroup⟩
      · simp only [hold]
        rw [hremove, andThen_returns]
      · rw [hleft.mem_iff, hleft.toggleGroup]
        by_cases hu : u = t
        · simp [hu]
        · simp [hu]
      · rw [hleft.selected_iff, hleft.toggleGroup, hleft.selected]
        by_cases hu : u = t
        · simp [hu]
        · simp [hu]
    | some g =>
      have hnot : t ∉ s.toggles g := fun ht => hsame ((h.1.mem_iff g t).mp ht)
      obtain ⟨s', hs', hc, hold', hgrp'⟩ := hleft.add k
      refine ⟨_, ?_, settled_of_old h hc hold' hgrp'⟩
      simp only [hnot, if_false, hold]
      rw [hremove, andThen_returns, hs', andThen_returns]

/-! ## Runs -/

omit [DecidableEq T] [DecidableEq G] in
theorem settled_new : Settled (new : Toggles T G) :=
  ⟨Consistent.of_groups (fun _ _ => by simp [new]) (fun _ _ => by simp [new]), rfl⟩

/-- A change of a list that is carried out avoids the gaps of the handlers. -/
def HarmlessChange (s : Toggles T G) (g : G) (from_ to_ : Int) (toBeAdded : List T) : Prop :=
  vetoes from_ to_ toBeAdded (s.toggles g) = false →
    0 ≤ from_ ∧ to_ ≤ (s.toggles g).length → Harmless s g from_ to_ toBeAdded

instance (s : Toggles T G) (g : G) (from_ to_ : Int) (toBeAdded : List T) :
    Decidable (HarmlessChange s g from_ to_ toBeAdded) :=
  inferInstanceAs (Decidable (_ → _ → _))

/-- The calls that avoid the gaps of the handlers. -/
def HarmlessCall (s : Toggles T G) : Call T G → Prop
  | .setSelected _ _ => True
  | .setToggleGroup t value =>
    ∀ o ∈ s.toggleGroup t, value ≠ some o → (s.toggles o).count t ≤ 1
  | .selectToggle _ _ => True
  | .add g e => HarmlessChange s g (s.toggles g).length (s.toggles g).length [e]
  | .addAt g index e => HarmlessChange s g index index [e]
  | .addAll g c => HarmlessChange s g (s.toggles g).length (s.toggles g).length c
  | .addAllAt g index c => HarmlessChange s g index index c
  | .remove g o => o ∈ s.toggles g →
    HarmlessChange s g ((s.toggles g).idxOf o) ((s.toggles g).idxOf o + 1) []
  | .removeAt g index => HarmlessChange s g index (index + 1) []
  | .set g index element => HarmlessChange s g index (index + 1) [element]
  | .setAll g col => HarmlessChange s g 0 (s.toggles g).length col
  | .clear g => HarmlessChange s g 0 (s.toggles g).length []

instance (s : Toggles T G) : (call : Call T G) → Decidable (HarmlessCall s call)
  | .setSelected _ _ => .isTrue trivial
  | .setToggleGroup t value => inferInstanceAs (Decidable (∀ o ∈ s.toggleGroup t, value ≠ some o → _))
  | .selectToggle _ _ => .isTrue trivial
  | .add g e =>
    inferInstanceAs (Decidable (HarmlessChange s g (s.toggles g).length (s.toggles g).length [e]))
  | .addAt g index e => inferInstanceAs (Decidable (HarmlessChange s g index index [e]))
  | .addAll g c =>
    inferInstanceAs (Decidable (HarmlessChange s g (s.toggles g).length (s.toggles g).length c))
  | .addAllAt g index c => inferInstanceAs (Decidable (HarmlessChange s g index index c))
  | .remove g o => inferInstanceAs (Decidable (o ∈ s.toggles g →
      HarmlessChange s g ((s.toggles g).idxOf o) ((s.toggles g).idxOf o + 1) []))
  | .removeAt g index => inferInstanceAs (Decidable (HarmlessChange s g index (index + 1) []))
  | .set g index element =>
    inferInstanceAs (Decidable (HarmlessChange s g index (index + 1) [element]))
  | .setAll g col => inferInstanceAs (Decidable (HarmlessChange s g 0 (s.toggles g).length col))
  | .clear g => inferInstanceAs (Decidable (HarmlessChange s g 0 (s.toggles g).length []))

theorem Settled.step {s : Toggles T G} (h : Settled s) {call : Call T G} (hh : HarmlessCall s call)
    (k : Nat) : ∃ s', step (k + 15) s call = some s' ∧ Settled s' := by
  cases call with
  | setSelected t value =>
    obtain ⟨s', hs', h'⟩ := h.setSelected t value (k + 7)
    exact ⟨s', by rw [Toggles.step, run, hs', state_returns], h'⟩
  | setToggleGroup t value =>
    obtain ⟨s', hs', h'⟩ := h.setToggleGroup t value hh (k + 1)
    exact ⟨s', by rw [Toggles.step, run, hs', state_returns], h'⟩
  | selectToggle g value =>
    obtain ⟨s', hs', h'⟩ := h.selectToggle g value (k + 5)
    exact ⟨s', by rw [Toggles.step, run, hs', state_returns], h'⟩
  | add g e => exact h.replaceRange hh k
  | addAt g index e | addAll g c | addAllAt g index c => exact h.replaceRange hh (k + 1)
  | remove g o =>
    rw [Toggles.step, run, Toggles.remove]
    split
    · exact h.replaceRange (hh ‹_›) k
    · exact ⟨s, rfl, h⟩
  | removeAt g index | set g index element | setAll g col | clear g =>
    exact h.replaceRange hh (k + 1)

/-- After every run of calls that avoid the gaps, lists, groups and selections agree, and at most
    one toggle of a group is selected. No call needs more than 15 nested ones. -/
theorem consistent_of_harmless (stack : Nat) (hstk : 15 ≤ stack) (calls : List (Call T G))
    (hh : AllSteps HarmlessCall (step stack) new calls) :
    ∃ s, runActions (step stack) new calls = some s ∧ Consistent s := by
  obtain ⟨k, rfl⟩ := Nat.exists_eq_add_of_le' hstk
  obtain ⟨s, hs, h⟩ := runActions_progress_of (P := Settled)
    (fun s call h hcall => h.step hcall k) settled_new hh
  exact ⟨s, hs, h.1⟩

/-- A selected toggle moves; two more come by `addAll`. -/
theorem consistent_of_harmless_moves : ∃ s, runActions (step 15) (new : Toggles (Fin 4) Bool)
      [.setSelected 0 true, .setToggleGroup 0 (some true), .addAll false [1, 2],
        .selectToggle false (some 2), .setToggleGroup 2 (some true), .setSelected 3 true,
        .addAll true [1, 3]] = some s ∧ Consistent s :=
  consistent_of_harmless 15 (by decide) _ (by decide +kernel)

/-- Two added at once, and one removed by `remove`. -/
theorem consistent_fails : (∃ s, runActions (step 15) (new : Toggles (Fin 2) Unit)
      [.setSelected 0 true, .setSelected 1 true, .addAll () [0, 1]] = some s ∧ ¬ Consistent s) ∧
    ∃ s, runActions (step 15) (new : Toggles (Fin 2) Unit)
      [.setToggleGroup 0 (some ()), .remove () 0] = some s ∧ ¬ Consistent s := by
  refine ⟨⟨_, (Option.some_get (by decide)).symm, fun h => ?_⟩,
    ⟨_, (Option.some_get (by decide)).symm, fun h => ?_⟩⟩
  · exact absurd (h.unique () 0 1 (by decide) (by decide) (by decide)
      (by decide)) (by decide)
  · exact absurd ((h.mem_iff () 0).mpr (by decide)) (by decide)

end OpenJfx.Controls.Toggles
