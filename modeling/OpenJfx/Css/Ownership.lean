/-
  OpenJfx.Css.Ownership

  The links from rules to their stylesheet and from selectors and declarations to their rule, kept
  by the `onChanged` methods of the lists that hold them (`TrackableObservableList`).  Only the
  constructor without arguments registers `onChanged`; the lists of a rule are made with the other
  one.  URLs in declarations are left out.
-/

import OpenJfx.Collections.ObservableListWrapper.SingleRange

namespace OpenJfx.Css.Ownership

open OpenJfx.Collections OpenJfx.Collections.ObservableListWrapper List Function Option

variable {O E : Type}

/-! ## Lists and links -/

/-- Owners with a list each, and the links of the elements to their owners. -/
structure Holders (O E : Type) where
  list : O → ObservableListWrapper E Unit
  owner : E → Option O

def TrackableObservableList.new : ObservableListWrapper E Unit :=
  ⟨[], ListChangeBuilder.new, (), true, []⟩

/-- `new TrackableObservableList(list)`. -/
def TrackableObservableList.ofList (list : List E) : ObservableListWrapper E Unit :=
  ⟨list, ListChangeBuilder.new, (), false, []⟩

/-- An `onChanged`: the owner of the list, its content, and the links. -/
abbrev OnChanged (O E : Type) := O → List E → FiredChange E → (E → Option O) → E → Option O

section Listeners

variable [DecidableEq O] [DecidableEq E]

/-- The loop that sets the owner of each element. -/
def link (o : O) (es : List E) (owner : E → Option O) : E → Option O :=
  es.foldl (fun owner e => Function.update owner e (some o)) owner

/-- The loop that unsets the owner of those that have this one. -/
def unlink (o : O) (es : List E) (owner : E → Option O) : E → Option O :=
  es.foldl (fun owner e => if owner e = some o then Function.update owner e none else owner) owner

/-- The listener of a style sheet's rules: a removal counts if nothing was added. -/
def rulesChanged : OnChanged O E := fun stylesheet content change owner =>
  change.foldl (fun owner c =>
    if c.wasAdded then link stylesheet (c.getAddedSubList content) owner
    else if c.wasRemoved then unlink stylesheet c.getRemoved owner
    else owner) owner

/-- The listener of a rule's selectors. -/
def selectorsChanged : OnChanged O E := fun rule content change owner =>
  change.foldl (fun owner c =>
    let owner := if c.wasAdded then link rule (c.getAddedSubList content) owner else owner
    if c.wasRemoved then unlink rule (c.getAddedSubList content) owner else owner) owner

/-- The listener of a rule's declarations. -/
def declarationsChanged : OnChanged O E := fun rule content change owner =>
  change.foldl (fun owner c =>
    let owner := if c.wasAdded then link rule (c.getAddedSubList content) owner else owner
    if c.wasRemoved then unlink rule c.getRemoved owner else owner) owner

omit [DecidableEq O] in
theorem link_apply (o : O) (es : List E) (owner : E → Option O) (e : E) :
    link o es owner e = if e ∈ es then some o else owner e := by
  induction es generalizing owner with
  | nil => simp [link]
  | cons x es ih =>
    show link o es (Function.update owner x (some o)) e = _
    rw [ih]
    by_cases hx : e = x
    · subst hx
      simp
    · simp [hx]

theorem unlink_apply (o : O) (es : List E) (owner : E → Option O) (e : E) :
    unlink o es owner e = if e ∈ es ∧ owner e = some o then none else owner e := by
  induction es generalizing owner with
  | nil => simp [unlink]
  | cons x es ih =>
    show unlink o es (if owner x = some o then Function.update owner x none else owner) e = _
    rw [ih]
    by_cases hx : e = x
    · subst hx
      by_cases ho : owner e = some o
      · simp [ho]
      · simp [ho]
    · by_cases ho : owner x = some o
      · simp [ho, hx]
      · simp [ho, hx]

/-- An edit of one of the lists, with what its listener does. -/
def Holders.edit (onChanged : OnChanged O E) (o : O) (edit : ListEdit E) (h : Holders O E) :
    Holders O E :=
  let w := JavaM.exec (edit.toCall.run ElementCallbacks.none) { h.list o with fired := [] }
  { list := Function.update h.list o w
    owner := w.fired.foldl (fun owner change => onChanged o w.backingList change owner) h.owner }

end Listeners

namespace Holders

variable {h : Holders O E}

def content (h : Holders O E) (o : O) : List E := (h.list o).backingList

/-- All lists were made by the same constructor. -/
def Made (tracking : Bool) (h : Holders O E) : Prop :=
  ∀ o, (h.list o).builder = ListChangeBuilder.new ∧ (h.list o).hasListeners = tracking

/-- The elements in a list point to its owner, the others to none. -/
structure Linked (h : Holders O E) : Prop where
  held : ∀ o, ∀ e ∈ h.content o, h.owner e = some o
  free : ∀ e, (∀ o, e ∉ h.content o) → h.owner e = none

/-- No element is held twice. -/
structure HeldOnce (h : Holders O E) : Prop where
  nodup : ∀ o, (h.content o).Nodup
  unique : ∀ o o' e, e ∈ h.content o → e ∈ h.content o' → o = o'

end Holders

/-! ## What an edit does -/

variable {h' : Holders O E}

section Edit

variable [DecidableEq O] [DecidableEq E] {h : Holders O E} {tracking : Bool} {o : O}
  {onChanged : OnChanged O E}

omit [DecidableEq E] in
theorem content_edit_of_ne {o' : O} (hne : o' ≠ o) (edit : ListEdit E) :
    (h.edit onChanged o edit).content o' = h.content o' := by
  simp [Holders.content, Holders.edit, update_of_ne hne]

omit [DecidableEq E] in
/-- What has been replaced in the list, and what its listener has heard. -/
theorem edit_spec (hmade : h.Made tracking) (edit : ListEdit E) :
    ∃ X R A Y, h.content o = X ++ (R ++ Y) ∧
      prescribed (h.content o) edit.toCall = X ++ (A ++ Y) ∧
      (A = edit.inserted ∨ (A = [] ∧ R = [])) ∧
      (h.edit onChanged o edit).content o = X ++ (A ++ Y) ∧
      (h.edit onChanged o edit).owner =
        (told tracking (replaced X.length R A.length)).foldl
          (fun owner change => onChanged o (X ++ (A ++ Y)) change owner) h.owner ∧
      (h.edit onChanged o edit).Made tracking := by
  obtain ⟨hb, hl⟩ := hmade o
  obtain ⟨X, R, A, Y, hL, hpre, hA, hw⟩ :=
    exec_listEdit (w := { h.list o with fired := [] }) edit hb
  refine ⟨X, R, A, Y, hL, hpre, hA, ?_, ?_, ?_⟩
  · show (Function.update h.list o _ o).backingList = _
    rw [update_self, hw]
  · show List.foldl _ h.owner _ = _
    rw [hw]
    dsimp only
    rw [nil_append, hl]
  · intro o'
    show (Function.update h.list o _ o').builder = _ ∧ _
    by_cases ho : o' = o
    · subst ho
      show _ ∧ (Function.update h.list o' _ o').hasListeners = _
      rw [update_self, hw]
      exact ⟨rfl, hl⟩
    · show _ ∧ (Function.update h.list o _ o').hasListeners = _
      rw [update_of_ne ho]
      exact hmade o'

theorem rulesChanged_replaced (X R A Y : List E) (owner : E → Option O) :
    (told true (replaced X.length R A.length)).foldl
      (fun owner change => rulesChanged o (X ++ (A ++ Y)) change owner) owner =
      if A = [] then unlink o R owner else link o A owner := by
  by_cases hnone : R = [] ∧ A.length = 0
  · obtain ⟨rfl, hA⟩ := hnone
    rw [length_eq_zero_iff] at hA
    subst hA
    rfl
  · rw [replaced_of_ne hnone]
    by_cases hA : A = []
    · subst hA
      have hR : R ≠ [] := fun hR => hnone ⟨hR, rfl⟩
      simp [told, rulesChanged, SubChange.wasAdded, SubChange.wasRemoved, SubChange.getRemoved, hR]
    · set c : SubChange E := ⟨X.length, X.length + A.length, some R, SubChange.emptyPerm, false⟩
        with hc
      have hadded : c.wasAdded = true := by
        rw [SubChange.wasAdded_range (A := A) rfl rfl rfl, List.isEmpty_eq_false_iff.2 hA]
        rfl
      have hsub : c.getAddedSubList (X ++ (A ++ Y)) = A :=
        SubChange.getAddedSubList_range Y rfl rfl rfl rfl
      simp [told, rulesChanged, hadded, hsub, hA]

theorem Holders.Linked.unlink {R : List E} (hlink : h.Linked)
    (hother : ∀ o', o' ≠ o → h'.content o' = h.content o')
    (hsub : ∀ e ∈ h'.content o, e ∈ h.content o ∧ e ∉ R)
    (hgone : ∀ e ∈ h.content o, e ∈ h'.content o ∨ e ∈ R)
    (howner : h'.owner = Ownership.unlink o R h.owner) : h'.Linked := by
  constructor
  · intro o' e he
    rw [howner, unlink_apply]
    by_cases ho : o' = o
    · subst ho
      rw [if_neg fun hc => (hsub e he).2 hc.1]
      exact hlink.held o' e (hsub e he).1
    · rw [hother o' ho] at he
      have hsome := hlink.held o' e he
      rw [if_neg fun hc => ho (Option.some.inj (hsome.symm.trans hc.2)), hsome]
  · intro e hfree
    rw [howner, unlink_apply]
    by_cases hin : e ∈ h.content o
    · have heR : e ∈ R := (hgone e hin).resolve_left (hfree o)
      rw [if_pos ⟨heR, hlink.held o e hin⟩]
    · have hnone : h.owner e = none := hlink.free e fun o' => by
        by_cases ho : o' = o
        · exact ho ▸ hin
        · rw [← hother o' ho]
          exact hfree o'
      rw [hnone]
      split <;> rfl

omit [DecidableEq O] in
theorem Holders.Linked.link {A : List E} (hlink : h.Linked)
    (hother : ∀ o', o' ≠ o → h'.content o' = h.content o')
    (hkept : ∀ e ∈ h.content o, e ∈ h'.content o)
    (hnew : ∀ e ∈ h'.content o, e ∈ A ∨ e ∈ h.content o) (hA : ∀ e ∈ A, e ∈ h'.content o)
    (honce : h'.HeldOnce) (howner : h'.owner = Ownership.link o A h.owner) : h'.Linked := by
  constructor
  · intro o' e he
    rw [howner, link_apply]
    by_cases heA : e ∈ A
    · rw [if_pos heA, honce.unique o o' e (hA e heA) he]
    · rw [if_neg heA]
      by_cases ho : o' = o
      · subst ho
        exact hlink.held o' e ((hnew e he).resolve_left heA)
      · rw [hother o' ho] at he
        exact hlink.held o' e he
  · intro e hfree
    rw [howner, link_apply, if_neg fun heA => hfree o (hA e heA)]
    refine hlink.free e fun o' he => ?_
    by_cases ho : o' = o
    · subst ho
      exact hfree o' (hkept e he)
    · rw [← hother o' ho] at he
      exact hfree o' he

omit [DecidableEq O] [DecidableEq E] in
theorem Holders.Linked.not_linked (hlink : h.Linked)
    (hother : ∀ o', o' ≠ o → h'.content o' = h.content o') {e : E} (he : e ∈ h.content o)
    (hgone : e ∉ h'.content o) (howner : h'.owner e = h.owner e) : ¬ h'.Linked := by
  intro hlink'
  have hsome := hlink.held o e he
  have hnone := hlink'.free e fun o' => by
    by_cases ho : o' = o
    · rw [ho]
      exact hgone
    · rw [hother o' ho]
      intro heo'
      rw [hlink.held o' e heo'] at hsome
      exact ho (some.inj hsome)
  rw [howner, hsome] at hnone
  cases hnone

theorem linked_edit_rules_iff (hmade : h.Made true) (hlink : h.Linked) (honce : h.HeldOnce)
    (edit : ListEdit E) (honce' : (h.edit rulesChanged o edit).HeldOnce) :
    (h.edit rulesChanged o edit).Linked ↔
      edit.inserted = [] ∨ ∀ e ∈ h.content o, e ∈ prescribed (h.content o) edit.toCall := by
  obtain ⟨X, R, A, Y, hold, hpre, hA, hnew, howner, -⟩ :=
    edit_spec (o := o) hmade edit
  rw [rulesChanged_replaced] at howner
  have hother : ∀ o', o' ≠ o → (h.edit rulesChanged o edit).content o' = h.content o' :=
    fun o' hne => content_edit_of_ne hne edit
  rw [hpre, ← hnew]
  by_cases hAne : A = []
  · -- nothing is put in: what is dropped is unlinked
    subst hAne
    rw [if_pos rfl] at howner
    have hnd := honce.nodup o
    rw [hold, nodup_append, nodup_append] at hnd
    have hlink' : (h.edit rulesChanged o edit).Linked := by
      refine hlink.unlink hother (fun e he => ?_) (fun e he => ?_) howner
      · rw [hnew, nil_append] at he
        rw [hold]
        rcases mem_append.1 he with heX | heY
        · exact ⟨mem_append_left _ heX, fun heR => hnd.2.2 e heX e (mem_append_left Y heR) rfl⟩
        · exact ⟨mem_append_right _ (mem_append_right _ heY),
            fun heR => hnd.2.1.2.2 e heR e heY rfl⟩
      · rw [hnew]
        rw [hold] at he
        simp only [nil_append, mem_append] at he ⊢
        tauto
    refine iff_of_true hlink' ?_
    rcases hA with hins | ⟨-, rfl⟩
    · exact .inl hins.symm
    · exact .inr fun e he => by rwa [hnew, ← hold]
  · rw [if_neg hAne] at howner
    have hins : edit.inserted ≠ [] := by
      rcases hA with rfl | ⟨rfl, -⟩
      · exact hAne
      · exact absurd rfl hAne
    rw [or_iff_right hins]
    constructor
    · intro hlink' e he
      by_contra hgone
      refine hlink.not_linked hother he hgone ?_ hlink'
      rw [howner, link_apply, if_neg fun heA => hgone (by rw [hnew]; simp [heA])]
    · intro hkept
      refine hlink.link hother hkept (fun e he => ?_) (fun e he => ?_) honce' howner
      · rw [hnew] at he
        rw [hold]
        simp only [mem_append] at he ⊢
        tauto
      · rw [hnew]
        simp [he]

theorem linked_edit_untracked_iff (hmade : h.Made false) (hlink : h.Linked) (edit : ListEdit E) :
    (h.edit onChanged o edit).Linked ↔
      ∀ e, e ∈ prescribed (h.content o) edit.toCall ↔ e ∈ h.content o := by
  obtain ⟨X, R, A, Y, hold, hpre, hA, hnew, howner, -⟩ :=
    edit_spec (o := o) hmade edit
  have hother : ∀ o', o' ≠ o → (h.edit onChanged o edit).content o' = h.content o' :=
    fun o' hne => content_edit_of_ne hne edit
  have hsame : (h.edit onChanged o edit).owner = h.owner := by
    rw [howner]
    simp [told]
  rw [hpre, ← hnew]
  constructor
  · intro hlink' e
    constructor
    · intro he
      by_contra hnot
      have hsome := hlink'.held o e he
      rw [hsame] at hsome
      have hnone : h.owner e = none := hlink.free e fun o' ho' => by
        have ho := (hlink.held o' e ho').symm.trans hsome
        exact hnot (some.inj ho ▸ ho')
      rw [hnone] at hsome
      cases hsome
    · intro he
      by_contra hnot
      exact hlink.not_linked hother he hnot (by rw [hsame]) hlink'
  · intro hiff
    constructor
    · intro o' e he
      rw [hsame]
      by_cases ho : o' = o
      · subst ho
        exact hlink.held o' e ((hiff e).1 he)
      · rw [hother o' ho] at he
        exact hlink.held o' e he
    · intro e hfree
      rw [hsame]
      refine hlink.free e fun o' he => ?_
      by_cases ho : o' = o
      · subst ho
        exact hfree o' ((hiff e).2 he)
      · rw [← hother o' ho] at he
        exact hfree o' he

end Edit

/-! ## Stylesheets, rules, selectors and declarations -/

section Runs

variable {S R X D : Type}

/-- The rules of style sheets, and the selectors and declarations of rules. -/
structure Sheets (S R X D : Type) where
  rules : Holders S R
  selectors : Holders R X
  declarations : Holders R D

/-- An edit of one of the lists. -/
inductive Op (S R X D : Type) where
  | rules (stylesheet : S) (edit : ListEdit R)
  | selectors (rule : R) (edit : ListEdit X)
  | declarations (rule : R) (edit : ListEdit D)

namespace Sheets

/-- The lists as the constructors of `Stylesheet` and `Rule` make them. -/
structure Made (s : Sheets S R X D) : Prop where
  rules : s.rules.Made true
  selectors : s.selectors.Made false
  declarations : s.declarations.Made false

/-- An element in a list points to its owner, others to none. -/
structure Linked (s : Sheets S R X D) : Prop where
  rules : s.rules.Linked
  selectors : s.selectors.Linked
  declarations : s.declarations.Linked

/-- No list has an element twice. -/
structure HeldOnce (s : Sheets S R X D) : Prop where
  rules : s.rules.HeldOnce
  selectors : s.selectors.HeldOnce
  declarations : s.declarations.HeldOnce

variable [DecidableEq S] [DecidableEq R] [DecidableEq X] [DecidableEq D]

def step (s : Sheets S R X D) : Op S R X D → Sheets S R X D
  | .rules stylesheet edit => { s with rules := s.rules.edit rulesChanged stylesheet edit }
  | .selectors rule edit => { s with selectors := s.selectors.edit selectorsChanged rule edit }
  | .declarations rule edit =>
    { s with declarations := s.declarations.edit declarationsChanged rule edit }

/-- The states of a run. -/
def states (s : Sheets S R X D) : List (Op S R X D) → List (Sheets S R X D)
  | [] => [s]
  | op :: ops => s :: (s.step op).states ops

end Sheets

/-- Rules put in or dropped, lists of a rule only reordered. -/
def Op.Harmless (s : Sheets S R X D) : Op S R X D → Prop
  | .rules stylesheet edit =>
    edit.inserted = [] ∨ ∀ r ∈ s.rules.content stylesheet,
      r ∈ prescribed (s.rules.content stylesheet) edit.toCall
  | .selectors rule edit =>
    ∀ x, x ∈ prescribed (s.selectors.content rule) edit.toCall ↔ x ∈ s.selectors.content rule
  | .declarations rule edit =>
    ∀ d, d ∈ prescribed (s.declarations.content rule) edit.toCall ↔
      d ∈ s.declarations.content rule

namespace Sheets

variable [DecidableEq S] [DecidableEq R] [DecidableEq X] [DecidableEq D]

/-- Every edit of a run is harmless when it is made. -/
def HarmlessRun (s : Sheets S R X D) : List (Op S R X D) → Prop
  | [] => True
  | op :: ops => op.Harmless s ∧ (s.step op).HarmlessRun ops

variable {s : Sheets S R X D}

theorem Made.step (h : s.Made) (op : Op S R X D) : (s.step op).Made := by
  cases op with
  | rules stylesheet edit =>
    obtain ⟨_, _, _, _, -, -, -, -, -, hmade⟩ :=
      edit_spec (o := stylesheet) h.rules edit
    exact ⟨hmade, h.selectors, h.declarations⟩
  | selectors rule edit =>
    obtain ⟨_, _, _, _, -, -, -, -, -, hmade⟩ :=
      edit_spec (o := rule) h.selectors edit
    exact ⟨h.rules, hmade, h.declarations⟩
  | declarations rule edit =>
    obtain ⟨_, _, _, _, -, -, -, -, -, hmade⟩ :=
      edit_spec (o := rule) h.declarations edit
    exact ⟨h.rules, h.selectors, hmade⟩

theorem Linked.step_iff (hmade : s.Made) (hlink : s.Linked) (honce : s.HeldOnce)
    (op : Op S R X D) (honce' : (s.step op).HeldOnce) :
    (s.step op).Linked ↔ op.Harmless s := by
  cases op with
  | rules stylesheet edit =>
    have hiff := linked_edit_rules_iff hmade.rules hlink.rules honce.rules edit honce'.rules
    exact ⟨fun h => hiff.1 h.rules, fun h => ⟨hiff.2 h, hlink.selectors, hlink.declarations⟩⟩
  | selectors rule edit =>
    have hiff := @linked_edit_untracked_iff _ _ _ _ _ rule selectorsChanged hmade.selectors
        hlink.selectors edit
    exact ⟨fun h => hiff.1 h.selectors, fun h => ⟨hlink.rules, hiff.2 h, hlink.declarations⟩⟩
  | declarations rule edit =>
    have hiff := @linked_edit_untracked_iff _ _ _ _ _ rule declarationsChanged hmade.declarations
        hlink.declarations edit
    exact ⟨fun h => hiff.1 h.declarations, fun h => ⟨hlink.rules, hlink.selectors, hiff.2 h⟩⟩

theorem mem_states_self (s : Sheets S R X D) (ops : List (Op S R X D)) : s ∈ s.states ops := by
  cases ops with
  | nil => exact mem_singleton.2 rfl
  | cons op ops => exact .head _

/-- Right in every state if and only if every edit is harmless. -/
theorem linked_iff_harmlessRun (s : Sheets S R X D) (ops : List (Op S R X D)) (hmade : s.Made)
    (hlink : s.Linked) (honce : ∀ t ∈ s.states ops, t.HeldOnce) :
    (∀ t ∈ s.states ops, t.Linked) ↔ s.HarmlessRun ops := by
  induction ops generalizing s with
  | nil => simp [states, HarmlessRun, hlink]
  | cons op ops ih =>
    have honce' : ∀ t ∈ (s.step op).states ops, t.HeldOnce := fun t ht =>
      honce t (mem_cons_of_mem s ht)
    have hstep := hlink.step_iff hmade (honce s mem_cons_self) op (honce' _ (mem_states_self _ _))
    show (∀ t ∈ s :: (s.step op).states ops, t.Linked) ↔ op.Harmless s ∧ (s.step op).HarmlessRun ops
    rw [forall_mem_cons, and_iff_right hlink]
    constructor
    · intro hall
      have hnxt := hall _ (mem_states_self _ _)
      exact ⟨hstep.1 hnxt, (ih _ (hmade.step op) hnxt honce').1 hall⟩
    · rintro ⟨hop, hops⟩
      exact (ih _ (hmade.step op) (hstep.2 hop) honce').2 hops

end Sheets

/-- One stylesheet and two rules, all lists empty. -/
def emptySheets : Sheets Unit Bool Unit Unit where
  rules := ⟨fun _ => TrackableObservableList.new, fun _ => none⟩
  selectors := ⟨fun _ => TrackableObservableList.ofList [], fun _ => none⟩
  declarations := ⟨fun _ => TrackableObservableList.ofList [], fun _ => none⟩

theorem emptySheets_made : emptySheets.Made :=
  ⟨fun _ => ⟨rfl, rfl⟩, fun _ => ⟨rfl, rfl⟩, fun _ => ⟨rfl, rfl⟩⟩

theorem emptySheets_linked : emptySheets.Linked :=
  ⟨⟨fun _ _ h => (by cases h), fun _ _ => rfl⟩, ⟨fun _ _ h => (by cases h), fun _ _ => rfl⟩,
    ⟨fun _ _ h => (by cases h), fun _ _ => rfl⟩⟩

theorem heldOnce_of_rules {s : Sheets Unit Bool Unit Unit} {L : List Bool}
    (hrules : s.rules.content () = L) (hL : L.Nodup) (hsels : ∀ r, s.selectors.content r = [])
    (hdeclarations : ∀ r, s.declarations.content r = []) : s.HeldOnce := by
  refine ⟨⟨fun _ => hrules ▸ hL, fun _ _ _ _ _ => rfl⟩, ⟨fun r => ?_, fun r _ x hx => ?_⟩,
    ⟨fun r => ?_, fun r _ d hd => ?_⟩⟩
  · rw [hsels]
    exact nodup_nil
  · rw [hsels] at hx
    cases hx
  · rw [hdeclarations]
    exact nodup_nil
  · rw [hdeclarations] at hd
    cases hd

/-- A rule that is put in and dropped again. -/
theorem linked_iff_harmlessRun_twice :
    let ops : List (Op Unit Bool Unit Unit) := [.rules () (.addLast true), .rules () (.remove 0)]
    (∀ t ∈ emptySheets.states ops, t.HeldOnce) ∧
      ((∀ t ∈ emptySheets.states ops, t.Linked) ↔ emptySheets.HarmlessRun ops) := by
  intro ops
  have honce : ∀ t ∈ emptySheets.states ops, t.HeldOnce := by
    simp only [ops, Sheets.states, forall_mem_cons, not_mem_nil, false_implies,
      implies_true, and_true]
    exact ⟨heldOnce_of_rules (L := []) rfl nodup_nil (fun _ => rfl) fun _ => rfl,
      heldOnce_of_rules (L := [true]) rfl (nodup_singleton _) (fun _ => rfl) fun _ => rfl,
      heldOnce_of_rules (L := []) rfl nodup_nil (fun _ => rfl) fun _ => rfl⟩
  exact ⟨honce, Sheets.linked_iff_harmlessRun _ ops emptySheets_made emptySheets_linked honce⟩

/-- A replaced rule stays linked, an added selector is not. -/
theorem linked_fails :
    ((∀ t ∈ emptySheets.states [.rules () (.addLast true), .rules () (.set 0 false)], t.HeldOnce) ∧
      ¬ ∀ t ∈ emptySheets.states [.rules () (.addLast true), .rules () (.set 0 false)], t.Linked) ∧
      (emptySheets.step (.selectors true (.addLast ()))).HeldOnce ∧
      ¬ (emptySheets.step (.selectors true (.addLast ()))).Linked := by
  refine ⟨⟨?_, fun h => ?_⟩, ⟨?_, ?_, ?_⟩, fun h => ?_⟩
  · simp only [Sheets.states, forall_mem_cons, not_mem_nil, false_implies, implies_true, and_true]
    exact ⟨heldOnce_of_rules (L := []) rfl nodup_nil (fun _ => rfl) fun _ => rfl,
      heldOnce_of_rules (L := [true]) rfl (nodup_singleton _) (fun _ => rfl) fun _ => rfl,
      heldOnce_of_rules (L := [false]) rfl (nodup_singleton _) (fun _ => rfl) fun _ => rfl⟩
  · have hlast := h _ (mem_cons_of_mem _ (mem_cons_of_mem _ mem_cons_self))
    have hnone := hlast.rules.free true (by rintro ⟨⟩; decide)
    revert hnone
    decide
  · exact ⟨fun _ => nodup_nil, fun _ _ _ h => (by cases h)⟩
  · refine ⟨fun r => ?_, by decide⟩
    cases r <;> decide
  · exact ⟨fun _ => nodup_nil, fun _ _ _ h => (by cases h)⟩
  · have hsome := h.selectors.held true () (by decide)
    revert hsome
    decide

end Runs

end OpenJfx.Css.Ownership
