/-
  OpenJfx.Binding.BidirectionalBinding.Cascade

  The notifications that follow a call of `set` with `v`.  Every nested call that does anything
  gives `v` to one more property, and the other end of an updating binding already holds `v`
  (`Guarded`).  `Progress` says this of any part of the cascade, so that parts compose.
-/

import OpenJfx.Binding.BidirectionalBinding.Basic
import Mathlib.Data.Fintype.Card

namespace OpenJfx.Binding.Bidirectional

open List Function Finset IntegerProperty BidirectionalIntegerBinding

variable {P : Type} [DecidableEq P]

/-! ## The graph of bindings -/

/-- One of the bindings is between `p` and `q`. -/
def Linked (bindings : List (BidirectionalIntegerBinding P)) (p q : P) : Prop :=
  ∃ b ∈ bindings, (b.property1 = p ∧ b.property2 = q) ∨ (b.property1 = q ∧ b.property2 = p)

/-- `p` and `q` are in the same connected component. -/
def Connected (bindings : List (BidirectionalIntegerBinding P)) : P → P → Prop :=
  Relation.ReflTransGen (Linked bindings)

variable {p : P} {bindings : List (BidirectionalIntegerBinding P)} {h : Heap P}
  {b : BidirectionalIntegerBinding P} {property : IntegerProperty P}

namespace BidirectionalIntegerBinding

/-- `p` is one of the two properties of the binding. -/
def Ends (binding : BidirectionalIntegerBinding P) (p : P) : Prop :=
  binding.property1 = p ∨ binding.property2 = p

theorem Ends.linked {binding : BidirectionalIntegerBinding P} {p : P}
    {bindings : List (BidirectionalIntegerBinding P)} (hp : binding.Ends p)
    (hb : binding ∈ bindings) : Linked bindings p (binding.other p) := by
  unfold other
  split
  · next h1 => exact ⟨binding, hb, .inl ⟨h1, rfl⟩⟩
  · next h1 => exact ⟨binding, hb, .inr ⟨rfl, hp.resolve_left h1⟩⟩

/-- Of the two properties the one other than `p` is `binding.other p`. -/
theorem Ends.other_value {binding : BidirectionalIntegerBinding P} {A : P → Prop}
    (hp : binding.Ends p) (hA : ¬ A p) (hor : A binding.property1 ∨ A binding.property2) :
    A (binding.other p) := by
  unfold other
  split
  · next h1 =>
    rcases hor with h | h
    · exact absurd (h1 ▸ h) hA
    · exact h
  · next h1 =>
    have h2 : binding.property2 = p := hp.resolve_left h1
    rcases hor with h | h
    · exact h
    · exact absurd (h2 ▸ h) hA

end BidirectionalIntegerBinding

variable {q : P} {h' : Heap P}

theorem Linked.exists_other
    (h : Linked bindings p q) : ∃ b ∈ bindings, b.Ends p ∧ b.other p = q := by
  obtain ⟨b, hb, ⟨h1, h2⟩ | ⟨h1, h2⟩⟩ := h
  · exact ⟨b, hb, .inl h1, by rw [other, if_pos h1, h2]⟩
  · refine ⟨b, hb, .inr h2, ?_⟩
    unfold other
    split
    · next h => rw [h2, ← h, h1]
    · exact h1

omit [DecidableEq P] in
theorem Linked.symm (h : Linked bindings p q) : Linked bindings q p := by
  obtain ⟨b, hb, h⟩ := h
  exact ⟨b, hb, h.symm⟩

/-! ## Invariants -/

/-- With change listeners it is valid and its value seen. -/
def IntegerProperty.InSync (property : IntegerProperty P) : Prop :=
  property.helper.changeListeners ≠ [] →
    property.valid = true ∧ property.helper.currentValue = property.value

namespace Heap

/-- The bindings listen to their two properties alone. -/
structure Wired (h : Heap P) : Prop where
  mem_changeListeners : ∀ p b, b ∈ h.changeListeners p ↔ b ∈ h.bindings ∧ b.Ends p
  id_lt : ∀ b ∈ h.bindings, b.id < h.bindings.length
  id_inj : ∀ b ∈ h.bindings, ∀ b' ∈ h.bindings, b.id = b'.id → b = b'
  inSync : ∀ p, (h.properties p).InSync

/-- While updating, one of its properties is done. -/
def Guarded (v : BitVec 32) (h : Heap P) : Prop :=
  ∀ b ∈ h.bindings, h.updating b.id = true → h.value b.property1 = v ∨ h.value b.property2 = v

/-- A part of the cascade that writes `v`, started at `p`: a property that has got it has passed it
    on. -/
structure Progress (p : P) (v : BitVec 32) (h h' : Heap P) : Prop where
  bindings : h'.bindings = h.bindings
  updating : h'.updating = h.updating
  changeListeners : ∀ q, h'.changeListeners q = h.changeListeners q
  inSync : (∀ q, (h.properties q).InSync) → ∀ q, (h'.properties q).InSync
  value : ∀ q, h'.value q = h.value q ∨ h'.value q = v
  closed : ∀ q, h.value q ≠ v → h'.value q = v →
    ∀ b ∈ h.changeListeners q, h'.value (b.other q) = v
  frame : ∀ q, ¬ Connected h.bindings p q → h'.properties q = h.properties q

namespace Progress

variable {p : P} {v : BitVec 32} {h h' h'' : Heap P}

theorem refl (p : P) (v : BitVec 32) (h : Heap P) : Progress p v h h where
  bindings := rfl
  updating := rfl
  changeListeners _ := rfl
  inSync := id
  value _ := .inl rfl
  closed _ hne heq := absurd heq hne
  frame _ _ := rfl

theorem value_of_eq (hp : Progress p v h h') (hq : h.value q = v) : h'.value q = v := by
  rcases hp.value q with hv | hv
  · rw [hv, hq]
  · exact hv

theorem trans (h1 : Progress p v h h') (h2 : Progress p v h' h'') : Progress p v h h'' where
  bindings := h2.bindings.trans h1.bindings
  updating := h2.updating.trans h1.updating
  changeListeners q := (h2.changeListeners q).trans (h1.changeListeners q)
  inSync hs := h2.inSync (h1.inSync hs)
  value q := by
    rcases h2.value q with hv | hv
    · rw [hv]
      exact h1.value q
    · exact .inr hv
  closed q hne heq b hb := by
    -- the first part has reached `q`, or the second one does
    by_cases hq : h'.value q = v
    · exact h2.value_of_eq (h1.closed q hne hq b hb)
    · exact h2.closed q hq heq b (h1.changeListeners q ▸ hb)
  frame q hq := by
    rw [h2.frame q (h1.bindings ▸ hq), h1.frame q hq]

theorem wired (hp : Progress p v h h') (hw : Wired h) : Wired h' where
  mem_changeListeners q b := by
    rw [hp.changeListeners, hp.bindings]
    exact hw.mem_changeListeners q b
  id_lt := by
    rw [hp.bindings]
    exact hw.id_lt
  id_inj := by
    rw [hp.bindings]
    exact hw.id_inj
  inSync := hp.inSync hw.inSync

theorem guarded (hp : Progress p v h h') (hg : Guarded v h) : Guarded v h' := by
  intro b hb hup
  rw [hp.bindings] at hb
  rw [hp.updating] at hup
  exact (hg b hb hup).imp hp.value_of_eq hp.value_of_eq

end Progress

section Pending

variable [Fintype P]

/-- The number of properties that do not hold `v` yet. -/
def pending (v : BitVec 32) (h : Heap P) : Nat :=
  (Finset.univ.filter fun q => h.value q ≠ v).card

theorem Progress.pending_le {v : BitVec 32} (hp : Progress p v h h') :
    h'.pending v ≤ h.pending v := by
  apply card_le_card
  intro q hq
  simp only [Finset.mem_filter, mem_univ, true_and] at hq ⊢
  exact fun hv => hq (hp.value_of_eq hv)

end Pending

/-! ## One notification -/

@[simp] theorem modify_properties_self (h : Heap P) (p : P)
    (f : IntegerProperty P → IntegerProperty P) :
    (h.modify p f).properties p = f (h.properties p) := by
  simp [modify]

theorem modify_properties_of_ne (h : Heap P) (hq : q ≠ p)
    (f : IntegerProperty P → IntegerProperty P) :
    (h.modify p f).properties q = h.properties q := by
  simp [modify, hq]

@[simp] theorem modify_modify (h : Heap P) (p : P) (f g : IntegerProperty P → IntegerProperty P) :
    (h.modify p f).modify p g = h.modify p fun property => g (f property) := by
  simp [modify]

omit [DecidableEq P] in
theorem invalidated_value_helper (property : IntegerProperty P) (l : InvalidationListener) :
    (property.invalidated l).value = property.value ∧
      (property.invalidated l).helper = property.helper := by
  unfold invalidated
  split <;> exact ⟨rfl, rfl⟩

omit [DecidableEq P] in
theorem foldl_invalidated (ls : List InvalidationListener) (property : IntegerProperty P) :
    (ls.foldl invalidated property).value = property.value ∧
      (ls.foldl invalidated property).helper = property.helper := by
  induction ls generalizing property with
  | nil => exact ⟨rfl, rfl⟩
  | cons l ls ih =>
    have hl := invalidated_value_helper property l
    rw [foldl_cons, (ih _).1, (ih _).2]
    exact hl

theorem markInvalid_eq_changedEach {v : BitVec 32} (hne : h.value p ≠ v)
    (hs : (h.properties p).InSync) :
    ∃ property : IntegerProperty P, property.value = v ∧
      property.helper.changeListeners = h.changeListeners p ∧ property.InSync ∧
      ∀ set, markInvalid set (h.modify p fun property => { property with value := v }) p =
        changedEach set p (h.changeListeners p) (h.modify p fun _ => property) := by
  have hsync : h.changeListeners p ≠ [] → (h.properties p).valid = true ∧
      (h.properties p).helper.currentValue = h.value p := hs
  cases hvalid : (h.properties p).valid with
  | false =>
    -- nobody has read the last change, so nobody listens to changes
    have hnil : h.changeListeners p = [] := by
      by_contra hcon
      exact absurd (hsync hcon).1 (by simp [hvalid])
    refine ⟨{ h.properties p with value := v }, rfl, rfl, fun hcon => absurd hnil hcon, ?_⟩
    intro set
    simp [markInvalid, hvalid, hnil, changedEach, modify]
  | true =>
    cases hhelp : (h.properties p).helper with
    | null =>
      have hnil : h.changeListeners p = [] := by simp [changeListeners, hhelp,
        Helper.changeListeners]
      refine ⟨⟨v, false, .null⟩, rfl, hnil.symm, fun hcon => absurd rfl hcon, ?_⟩
      intro set
      simp [markInvalid, hvalid, hnil, changedEach, fireValueChangedEvent, hhelp, modify]
    | singleInvalidation listener =>
      have hnil : h.changeListeners p = [] := by simp [changeListeners, hhelp,
        Helper.changeListeners]
      let property : IntegerProperty P := ⟨v, false, .singleInvalidation listener⟩
      have hkept := invalidated_value_helper property listener
      refine ⟨property.invalidated listener, hkept.1, ?_, ?_, ?_⟩
      · rw [hkept.2, hnil]
        rfl
      · intro hcon
        rw [hkept.2] at hcon
        exact absurd rfl hcon
      · intro set
        simp [markInvalid, hvalid, hnil, changedEach, fireValueChangedEvent, hhelp, modify,
          property]
    | singleChange listener oldValue =>
      have hone : h.changeListeners p = [listener] := by simp [changeListeners, hhelp,
        Helper.changeListeners]
      have hchanged : v ≠ oldValue := by
        have hold := (hsync (by simp [hone])).2
        rw [hhelp] at hold
        exact fun hv => hne (hold.symm.trans hv.symm)
      refine ⟨⟨v, true, .singleChange listener v⟩, rfl, hone.symm, fun _ => ⟨rfl, rfl⟩, ?_⟩
      intro set
      simp [markInvalid, hvalid, hone, changedEach, fireValueChangedEvent, hhelp, value,
        IntegerProperty.get, hchanged]
    | generic invalidationListeners listeners oldValue =>
      have hlisteners : h.changeListeners p = listeners := by simp [changeListeners, hhelp,
        Helper.changeListeners]
      let property : IntegerProperty P :=
        ⟨v, false, .generic invalidationListeners listeners oldValue⟩
      have hkept := foldl_invalidated invalidationListeners property
      cases listeners with
      | nil =>
        refine ⟨invalidationListeners.foldl invalidated property, hkept.1, ?_, ?_, ?_⟩
        · rw [hkept.2, hlisteners]
          rfl
        · intro hcon
          rw [hkept.2] at hcon
          exact absurd rfl hcon
        · intro set
          simp [markInvalid, hvalid, hlisteners, changedEach, fireValueChangedEvent, hhelp,
            modify, property]
      | cons listener listeners =>
        have hchanged : v ≠ oldValue := by
          have hold := (hsync (by simp [hlisteners])).2
          rw [hhelp] at hold
          exact fun hv => hne (hold.symm.trans hv.symm)
        refine ⟨⟨v, true, .generic invalidationListeners (listener :: listeners) v⟩, rfl,
          hlisteners.symm, fun _ => ⟨rfl, rfl⟩, ?_⟩
        intro set
        simp [markInvalid, hvalid, hlisteners, fireValueChangedEvent, hhelp, value,
          IntegerProperty.get, (foldl_invalidated _ _).1, hchanged]

/-! ## The cascade -/

section Cascade

variable [Fintype P] {v : BitVec 32} {n : Nat}

/-- Calls of `set` with `v` nested `n` deep return and make progress. -/
def Converges (v : BitVec 32) (n : Nat) : Prop :=
  ∀ (h : Heap P) (p : P), Wired h → Guarded v h → h.pending v ≤ n →
    ∃ h', (∀ fuel, n < fuel → set fuel h p v = some h') ∧ Progress p v h h' ∧ h'.value p = v

omit [Fintype P] [DecidableEq P] in
theorem Wired.setUpdating (hw : Wired h) (b : BidirectionalIntegerBinding P)
    (updating : Bool) : Wired (h.setUpdating b updating) :=
  { hw with }

omit [Fintype P] [DecidableEq P] in
/-- A binding may be marked when one of its properties holds the value. -/
theorem Guarded.setUpdating (hg : Guarded v h) (hw : Wired h) (hb : b ∈ h.changeListeners p)
    (hp : h.value p = v) : Guarded v (h.setUpdating b true) := by
  obtain ⟨hmem, hends⟩ := (hw.mem_changeListeners p b).1 hb
  intro b' hb' hup
  by_cases hid : b'.id = b.id
  · obtain rfl := hw.id_inj b' hb' b hmem hid
    rcases hends with rfl | rfl
    · exact .inl hp
    · exact .inr hp
  · have hold : h.updating b'.id = true := by
      simpa [Heap.setUpdating, update_of_ne hid] using hup
    exact hg b' hb' hold

omit [Fintype P] in
theorem Progress.setUpdating
    (hup : h.updating b.id = false) (hb : b ∈ h.bindings) (hends : b.Ends p)
    (hp : Progress (b.other p) v (h.setUpdating b true) h') :
    Progress p v h (h'.setUpdating b false) where
  bindings := hp.bindings
  updating := by
    show Function.update h'.updating b.id false = h.updating
    rw [hp.updating]
    show Function.update (Function.update h.updating b.id true) b.id false = h.updating
    rw [update_idem, ← hup, update_eq_self]
  changeListeners := hp.changeListeners
  inSync := hp.inSync
  value := hp.value
  closed := hp.closed
  frame q hq := hp.frame q fun hcon =>
    hq (Relation.ReflTransGen.head (hends.linked hb) hcon)

theorem Converges.changed (hn : Converges (P := P) v n) (hw : Wired h) (hg : Guarded v h)
    (hpend : h.pending v ≤ n) (hp : h.value p = v) (hb : b ∈ h.changeListeners p)
    (hup : h.updating b.id = true → h.value (b.other p) = v) :
    ∃ h', (∀ fuel, n < fuel → Heap.changed (set fuel) h b p v = some h') ∧ Progress p v h h' ∧
      h'.value (b.other p) = v := by
  obtain ⟨hmem, hends⟩ := (hw.mem_changeListeners p b).1 hb
  cases hupd : h.updating b.id with
  | true =>
    exact ⟨h, fun fuel _ => by simp [Heap.changed, hupd], .refl p v h, hup hupd⟩
  | false =>
    obtain ⟨h', hset, hprog, hother⟩ :=
      hn (h.setUpdating b true) (b.other p) (hw.setUpdating b true)
        (hg.setUpdating hw hb hp) hpend
    refine ⟨h'.setUpdating b false, ?_, hprog.setUpdating hupd hmem hends, hother⟩
    intro fuel hfuel
    have hcall : (if b.property1 = p then set fuel (h.setUpdating b true) b.property2 v
        else set fuel (h.setUpdating b true) b.property1 v) = some h' := by
      rw [← hset fuel hfuel]
      unfold other
      split <;> rfl
    simp only [Heap.changed, hupd, Bool.false_eq_true, if_false, hcall, Option.map_some]

theorem Converges.changedEach (hn : Converges (P := P) v n) :
    ∀ (bs : List (BidirectionalIntegerBinding P)) {h : Heap P}, Wired h → Guarded v h →
      h.pending v ≤ n → h.value p = v → (∀ b ∈ bs, b ∈ h.changeListeners p) →
      (∀ b ∈ bs, h.updating b.id = true → h.value (b.other p) = v) →
      ∃ h', (∀ fuel, n < fuel → Heap.changedEach (set fuel) p bs h = some h') ∧
        Progress p v h h' ∧ ∀ b ∈ bs, h'.value (b.other p) = v := by
  intro bs
  induction bs with
  | nil =>
    intro h _ _ _ _ _ _
    exact ⟨h, fun _ _ => rfl, .refl p v h, by simp⟩
  | cons b bs ih =>
    intro h hw hg hpend hp hmem hup
    have hcur : (h.properties p).helper.currentValue = v := by
      have hne : (h.properties p).helper.changeListeners ≠ [] :=
        ne_nil_of_mem (hmem b mem_cons_self)
      exact (hw.inSync p hne).2.trans hp
    obtain ⟨h1, hchanged, hprogress1, hother⟩ := hn.changed hw hg hpend hp
      (hmem b mem_cons_self) (hup b mem_cons_self)
    obtain ⟨h2, hloop, hprogress2, hothers⟩ := ih (hprogress1.wired hw) (hprogress1.guarded hg)
      (hprogress1.pending_le.trans hpend) (hprogress1.value_of_eq hp)
      (fun b' hb' => hprogress1.changeListeners p ▸ hmem b' (mem_cons_of_mem b hb'))
      (fun b' hb' hu => hprogress1.value_of_eq
        (hup b' (mem_cons_of_mem b hb') (hprogress1.updating ▸ hu)))
    refine ⟨h2, ?_, hprogress1.trans hprogress2, ?_⟩
    · intro fuel hfuel
      simp only [Heap.changedEach, hcur, hchanged fuel hfuel, Option.bind_eq_bind,
        Option.bind_some]
      exact hloop fuel hfuel
    · intro b' hb'
      rcases mem_cons.1 hb' with rfl | hb'
      · exact hprogress2.value_of_eq hother
      · exact hothers b' hb'

omit [Fintype P] in
theorem value_modify (h : Heap P) (p q : P) (property : IntegerProperty P) :
    (h.modify p fun _ => property).value q = if q = p then property.value else h.value q := by
  by_cases hq : q = p
  · subst hq
    simp [value]
  · simp [value, modify_properties_of_ne h hq, hq]

omit [Fintype P] in
theorem changeListeners_modify
    (hsame : property.helper.changeListeners = h.changeListeners p) (q : P) :
    (h.modify p fun _ => property).changeListeners q = h.changeListeners q := by
  by_cases hq : q = p
  · subst hq
    simpa [changeListeners] using hsame
  · simp [changeListeners, modify_properties_of_ne h hq]

omit [Fintype P] in
theorem inSync_modify (hproperty : property.InSync) (hs : ∀ q, (h.properties q).InSync) (q : P) :
    ((h.modify p fun _ => property).properties q).InSync := by
  by_cases hq : q = p
  · subst hq
    simpa using hproperty
  · rw [modify_properties_of_ne h hq]
    exact hs q

omit [Fintype P] in
theorem Wired.modify (hw : Wired h) (hsame : property.helper.changeListeners = h.changeListeners p)
    (hproperty : property.InSync) : Wired (h.modify p fun _ => property) where
  mem_changeListeners q b := by
    rw [changeListeners_modify hsame]
    exact hw.mem_changeListeners q b
  id_lt := hw.id_lt
  id_inj := hw.id_inj
  inSync := inSync_modify hproperty hw.inSync

theorem pending_modify_lt (hne : h.value p ≠ v) (hv : property.value = v) :
    (h.modify p fun _ => property).pending v < h.pending v := by
  apply card_lt_card
  rw [ssubset_iff_of_subset]
  · exact ⟨p, by simpa using hne, by simp [value_modify, hv]⟩
  · intro q hq
    simp only [Finset.mem_filter, mem_univ, true_and, value_modify] at hq ⊢
    by_cases hqp : q = p
    · exact hqp ▸ hne
    · simpa [hqp] using hq

omit [Fintype P] in
theorem Progress.of_modify (hne : h.value p ≠ v) (hv : property.value = v)
    (hsame : property.helper.changeListeners = h.changeListeners p)
    (hproperty : property.InSync) (hp : Progress p v (h.modify p fun _ => property) h')
    (hall : ∀ b ∈ h.changeListeners p, h'.value (b.other p) = v) : Progress p v h h' where
  bindings := hp.bindings
  updating := hp.updating
  changeListeners q := (hp.changeListeners q).trans (changeListeners_modify hsame q)
  inSync hs := hp.inSync (inSync_modify hproperty hs)
  value q := by
    by_cases hq : q = p
    · exact .inr (hp.value_of_eq (by simp [value_modify, hq, hv]))
    · simpa [value_modify, hq] using hp.value q
  closed q hqne hqv b hb := by
    by_cases hq : q = p
    · subst hq
      exact hall b hb
    · refine hp.closed q ?_ hqv b ?_
      · simpa [value_modify, hq] using hqne
      · rw [changeListeners_modify hsame]
        exact hb
  frame q hq := by
    have hqp : q ≠ p := fun hcon => hq (hcon ▸ .refl)
    rw [hp.frame q hq, modify_properties_of_ne h hqp]

/-- Every nested call finds one property less that lacks the value. -/
theorem converges (v : BitVec 32) (n : Nat) : Converges (P := P) v n := by
  induction n with
  | zero =>
    intro h p _ _ hpend
    have hp : h.value p = v := by
      by_contra hne
      have hmem : p ∈ Finset.univ.filter fun q => h.value q ≠ v := by simpa using hne
      exact absurd (card_pos.2 ⟨p, hmem⟩) (Nat.not_lt.2 hpend)
    refine ⟨h, ?_, .refl p v h, hp⟩
    intro fuel hfuel
    rcases fuel with _ | fuel
    · omega
    simp [set, hp]
  | succ n ih =>
    intro h p hw hg hpend
    by_cases hne : h.value p = v
    · refine ⟨h, ?_, .refl p v h, hne⟩
      intro fuel hfuel
      rcases fuel with _ | fuel
      · omega
      simp [set, hne]
    · obtain ⟨property, hv, hsame, hproperty, hmark⟩ := markInvalid_eq_changedEach hne (hw.inSync p)
      have hpv : (h.modify p fun _ => property).value p = v := by simp [value_modify, hv]
      have hkept : ∀ q, h.value q = v → (h.modify p fun _ => property).value q = v := by
        intro q hq
        by_cases hqp : q = p <;> simp [value_modify, hqp, hv, hq]
      have hg1 : Guarded v (h.modify p fun _ => property) := fun b hb hup =>
        (hg b hb hup).imp (hkept _) (hkept _)
      have hlt := pending_modify_lt hne hv
      -- a binding of `p` that is updating got its value at the other end
      have hup : ∀ b ∈ h.changeListeners p, h.updating b.id = true →
          (h.modify p fun _ => property).value (b.other p) = v := by
        intro b hb hup
        obtain ⟨hmem, hends⟩ := (hw.mem_changeListeners p b).1 hb
        exact hkept _ (hends.other_value (A := fun q => h.value q = v) hne (hg b hmem hup))
      obtain ⟨h', hloop, hprog, hall⟩ := ih.changedEach (h.changeListeners p)
        (hw.modify hsame hproperty) hg1 (by omega) hpv
        (fun b hb => (changeListeners_modify hsame p).symm ▸ hb) hup
      refine ⟨h', ?_, hprog.of_modify hne hv hsame hproperty hall, hprog.value_of_eq hpv⟩
      intro fuel hfuel
      rcases fuel with _ | fuel
      · omega
      rw [set, if_pos hne, hmark]
      exact hloop fuel (by omega)

end Cascade

end Heap

end OpenJfx.Binding.Bidirectional
