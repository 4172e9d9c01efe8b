/-
  OpenJfx.Controls.TreeItem.ParentLinks

  The links to the parents over runs of edits.  `parentLinkCount` should be lowered when an item
  is removed, but the test compares the parent with null and never succeeds: from the first time
  it is raised, the parent of the item stays.
-/

import OpenJfx.Controls.TreeItem.Basic

namespace OpenJfx.Controls.TreeItems

open OpenJfx.Collections OpenJfx.Collections.ObservableListWrapper List Option Function

variable {I : Type} [DecidableEq I] {s : TreeItems I}

/-! ## Relinking -/

theorem updateChildrenParent_eq (treeItems : List (Option I)) (newParent : Option I)
    (s : TreeItems I) :
    s.updateChildrenParent treeItems newParent =
      { s with
        parent := (s.updateChildrenParent treeItems newParent).parent
        parentLinkCount := (s.updateChildrenParent treeItems newParent).parentLinkCount } := by
  induction treeItems generalizing s with
  | nil => rfl
  | cons x treeItems ih =>
    have hstep : s.updateChildrenParent (x :: treeItems) newParent =
        (s.updateChildParent newParent x).updateChildrenParent treeItems newParent := rfl
    rw [hstep, ih]
    cases x <;> rfl

theorem updateChildrenParent_none (removed : List (Option I)) (s : TreeItems I) (x : I) :
    (s.updateChildrenParent removed none).parent x =
        (if some x ∈ removed ∧ s.parentLinkCount x = 0 then none else s.parent x) ∧
      (s.updateChildrenParent removed none).parentLinkCount x = s.parentLinkCount x := by
  induction removed generalizing s with
  | nil => simp [updateChildrenParent]
  | cons y removed ih =>
    show ((s.updateChildParent none y).updateChildrenParent removed none).parent x = _ ∧
      ((s.updateChildParent none y).updateChildrenParent removed none).parentLinkCount x = _
    obtain ⟨hpar, hcnt⟩ := ih (s.updateChildParent none y)
    rw [hpar, hcnt]
    cases y with
    | none =>
      have hmem : some x ∈ none :: removed ↔ some x ∈ removed := by simp
      simp only [hmem]
      exact ⟨rfl, rfl⟩
    | some y =>
      have hsame : (s.updateChildParent none (some y)).parentLinkCount = s.parentLinkCount := by
        funext z
        by_cases hz : z = y
        · subst hz
          simp [updateChildParent]
        · exact update_of_ne hz _ _
      rw [hsame]
      refine ⟨?_, rfl⟩
      by_cases hx : x = y
      · subst hx
        by_cases hzero : s.parentLinkCount x = 0
        · simp [updateChildParent, hzero]
        · simp [updateChildParent, hzero]
      · have hxy : ¬ some x = some y := by simpa using hx
        have hkeep : (s.updateChildParent none (some y)).parent x = s.parent x := by
          simp only [updateChildParent]
          split
          · exact update_of_ne hx _ _
          · rfl
        rw [hkeep]
        simp [hx]

/-- A child without a link gets `p`, and one of `p` is counted once more for each place. -/
theorem updateChildrenParent_some (added : List (Option I)) (p : I) (s : TreeItems I) (x : I)
    (hnn : 0 ≤ s.parentLinkCount x) :
    (s.updateChildrenParent added (some p)).parent x =
        (if some x ∈ added ∧ s.parentLinkCount x = 0 then some p else s.parent x) ∧
      (s.updateChildrenParent added (some p)).parentLinkCount x =
        (if s.parent x = some p then s.parentLinkCount x + added.count (some x)
        else if s.parentLinkCount x = 0 then ((added.count (some x) - 1 : Nat) : Int)
        else s.parentLinkCount x) := by
  induction added generalizing s with
  | nil =>
    simp only [updateChildrenParent, foldl_nil, not_mem_nil, false_and, if_false,
      count_nil, true_and]
    split
    · simp
    · split
      · simpa
      · rfl
  | cons y added ih =>
    show ((s.updateChildParent (some p) y).updateChildrenParent added (some p)).parent x = _ ∧
      ((s.updateChildParent (some p) y).updateChildrenParent added (some p)).parentLinkCount x = _
    by_cases hy : y = some x
    · subst hy
      have hpar : (s.updateChildParent (some p) (some x)).parent x =
          if s.parentLinkCount x = 0 then some p else s.parent x := by
        simp only [updateChildParent]
        split <;> simp
      have hcnt : (s.updateChildParent (some p) (some x)).parentLinkCount x =
          if s.parent x = some p then s.parentLinkCount x + 1 else s.parentLinkCount x := by
        by_cases hmatch : s.parent x = some p
        · simp [updateChildParent, hmatch]
        · have hnot : ¬ (s.parent x ≠ none ∧ s.parent x = some p) := fun h => hmatch h.2
          simp [updateChildParent, hmatch]
      obtain ⟨ih1, ih2⟩ := ih (s.updateChildParent (some p) (some x)) (by
        rw [hcnt]
        split <;> omega)
      rw [ih1, ih2, hpar, hcnt, count_cons_self]
      by_cases hzero : s.parentLinkCount x = 0 <;> by_cases hmatch : s.parent x = some p
      · simp [hzero, hmatch]
        omega
      · simp [hzero, hmatch]
      · have hne : s.parentLinkCount x + 1 ≠ 0 := by omega
        simp [hzero, hmatch, hne]
        omega
      · simp [hzero, hmatch]
    · have hsame : (s.updateChildParent (some p) y).parent x = s.parent x ∧
          (s.updateChildParent (some p) y).parentLinkCount x = s.parentLinkCount x := by
        cases y with
        | none => exact ⟨rfl, rfl⟩
        | some y =>
          have hx : x ≠ y := fun h => hy (by rw [h])
          simp only [updateChildParent]
          refine ⟨?_, update_of_ne hx _ _⟩
          split
          · exact update_of_ne hx _ _
          · rfl
      obtain ⟨ih1, ih2⟩ := ih (s.updateChildParent (some p) y) (by rw [hsame.2]; exact hnn)
      have hmem : some x ∈ y :: added ↔ some x ∈ added := by
        rw [mem_cons, or_iff_right fun h => hy h.symm]
      rw [ih1, ih2, hsame.1, hsame.2, count_cons_of_ne hy]
      simp only [hmem, and_self]

theorem fireEvent_links (stack : Nat) (i : I) (s : TreeItems I) :
    (s.fireEvent stack i).parent = s.parent ∧
      (s.fireEvent stack i).parentLinkCount = s.parentLinkCount ∧
      (s.fireEvent stack i).children = s.children := by
  unfold fireEvent
  split <;> exact ⟨rfl, rfl, rfl⟩

/-! ## One edit -/

/-- Comparators obey their contract. -/
structure ChildEdit (I : Type) where
  item : I
  call : ObservableListWrapper.Call (Option I)
  lawful : Lawful call

/-- Outside of any change block, and listened to. -/
def Listening (s : TreeItems I) : Prop :=
  ∀ i, (s.children i).builder = ListChangeBuilder.new ∧ (s.children i).hasListeners = true

/-- The parent of an item is the one that holds it. -/
def Linked (s : TreeItems I) : Prop :=
  ∀ x p, s.parent x = some p ↔ some x ∈ s.content p

/-- No item is held by two parents. -/
def OneParent (s : TreeItems I) : Prop :=
  ∀ x p q, some x ∈ s.content p → some x ∈ s.content q → p = q

/-- At 0 it is held once at most, else it has a parent. -/
structure Counted (s : TreeItems I) (x : I) : Prop where
  nonneg : 0 ≤ s.parentLinkCount x
  once : s.parentLinkCount x = 0 → ∀ p, (s.content p).count (some x) ≤ 1
  linked : s.parentLinkCount x ≠ 0 → s.parent x ≠ none

/-- An edit of a list of children. -/
def step (stack : Nat) (s : TreeItems I) (edit : ChildEdit I) : TreeItems I :=
  s.editChildren stack edit.item edit.call

/-- An edit whose change reaches the item in one piece. -/
def Regular (s : TreeItems I) (edit : ChildEdit I) : Prop :=
  Reports (s.content edit.item) edit.call

/-- No item with a raised counter is taken out. -/
def Harmless (s : TreeItems I) (edit : ChildEdit I) : Prop :=
  ∀ x, s.parentLinkCount x ≠ 0 → some x ∈ s.content edit.item →
    some x ∈ prescribed (s.content edit.item) edit.call

/-- The links after a change of the children of `p`. -/
structure Relinked (s s' : TreeItems I) (p : I) (removed added : List (Option I)) : Prop where
  parent : ∀ x, s'.parent x =
    if s.parentLinkCount x ≠ 0 then s.parent x
    else if some x ∈ added then some p
    else if some x ∈ removed then none
    else s.parent x
  counter : ∀ x, s'.parentLinkCount x =
    if s.parent x = some p ∧ ¬ (some x ∈ removed ∧ s.parentLinkCount x = 0) then
      s.parentLinkCount x + added.count (some x)
    else if s.parentLinkCount x = 0 then ((added.count (some x) - 1 : Nat) : Int)
    else s.parentLinkCount x

theorem childrenListener_relinked (stack : Nat) (p : I) (c : FiredChange (Option I))
    (hnn : ∀ x, 0 ≤ s.parentLinkCount x) :
    Relinked s (childrenListener stack p s c) p (c.flatMap SubChange.getRemoved)
      (c.flatMap (SubChange.getAddedSubList (s.content p))) := by
  set removed := c.flatMap SubChange.getRemoved
  set added := c.flatMap (SubChange.getAddedSubList (s.content p))
  set t : TreeItems I := { s with
    expandedDescendentCountDirty := Function.update s.expandedDescendentCountDirty p true
    leaf := Function.update s.leaf p (s.content p).isEmpty }
  have ht : childrenListener stack p s c =
      ((t.updateChildrenParent removed none).updateChildrenParent added (some p)).fireEvent
        stack p := rfl
  have hnone := updateChildrenParent_none removed t
  have hsome := fun x => updateChildrenParent_some added p (t.updateChildrenParent removed none) x
    (by rw [(hnone x).2]; exact hnn x)
  obtain ⟨hpar, hcounter, -⟩ := fireEvent_links stack p
    ((t.updateChildrenParent removed none).updateChildrenParent added (some p))
  constructor
  · intro x
    rw [ht, hpar, (hsome x).1, (hnone x).1, (hnone x).2]
    show (if some x ∈ added ∧ s.parentLinkCount x = 0 then some p
      else if some x ∈ removed ∧ s.parentLinkCount x = 0 then none else s.parent x) = _
    by_cases hzero : s.parentLinkCount x = 0
    · simp [hzero]
    · simp [hzero]
  · intro x
    rw [ht, hcounter, (hsome x).2, (hnone x).1, (hnone x).2]
    show (if (if some x ∈ removed ∧ s.parentLinkCount x = 0 then none else s.parent x) = some p
      then s.parentLinkCount x + added.count (some x)
      else if s.parentLinkCount x = 0 then ((added.count (some x) - 1 : Nat) : Int)
      else s.parentLinkCount x) = _
    by_cases hgone : some x ∈ removed ∧ s.parentLinkCount x = 0
    · simp [hgone]
    · simp [hgone]

/-- The child list after an edit, and the change its item has heard of. -/
theorem step_eq (stack : Nat) (hlisten : s.Listening) (edit : ChildEdit I) (hreg : s.Regular edit) :
    ∃ w : ObservableListWrapper (Option I) Unit, ∃ f : Option (FiredChange (Option I)),
      w.backingList = prescribed (s.content edit.item) edit.call ∧
      w.builder = ListChangeBuilder.new ∧ w.hasListeners = true ∧
      Describes (s.content edit.item) w.backingList (f.getD []) ∧
      s.step stack edit = f.toList.foldl (childrenListener stack edit.item)
        { s with children := Function.update s.children edit.item w } := by
  obtain ⟨hbuilder, hlisteners⟩ := hlisten edit.item
  have hfresh : ObservableListWrapper.Fresh Follower.none (s.content edit.item)
      { s.children edit.item with fired := [] } := ⟨rfl, trivial, hbuilder, hlisteners⟩
  have hrep := (hfresh.call_reports edit.lawful hreg).exec
  obtain ⟨f, hfired, hdesc⟩ := hrep.heard
  refine ⟨_, f, hrep.content, hrep.builder, hrep.listening, hrep.content ▸ hdesc, ?_⟩
  show List.foldl _ _ _ = _
  rw [show (JavaM.exec (edit.call.run ElementCallbacks.none) _).fired = _ from hfired]
  rfl

theorem childrenListener_children (stack : Nat) (p : I) (c : FiredChange (Option I)) :
    (childrenListener stack p s c).children = s.children := by
  refine (fireEvent_links _ _ _).2.2.trans ?_
  rw [updateChildrenParent_eq, updateChildrenParent_eq]

theorem step_spec (stack : Nat) (hlisten : s.Listening) (hnn : ∀ x, 0 ≤ s.parentLinkCount x)
    (edit : ChildEdit I) (hreg : s.Regular edit) :
    (s.step stack edit).Listening ∧
      (∀ q, q ≠ edit.item → (s.step stack edit).content q = s.content q) ∧
      (s.step stack edit).content edit.item = prescribed (s.content edit.item) edit.call ∧
      ∃ kept removed added, (s.content edit.item).Perm (kept ++ removed) ∧
        (prescribed (s.content edit.item) edit.call).Perm (kept ++ added) ∧
        Relinked s (s.step stack edit) edit.item removed added := by
  obtain ⟨w, f, hcon, hbuilder, hlisteners, hdesc, hstep⟩ := step_eq stack hlisten edit hreg
  rw [hcon] at hdesc
  obtain ⟨kept, hold, hnew⟩ := hdesc.moves
  have hchildren : (s.step stack edit).children = Function.update s.children edit.item w := by
    rw [hstep]
    cases f with
    | none => rfl
    | some c => exact childrenListener_children stack edit.item c
  refine ⟨fun q => ?_, fun q hq => ?_, ?_, kept, _, _, hold, hnew, ?_⟩
  · rw [hchildren]
    by_cases hq : q = edit.item
    · rw [hq, update_self]
      exact ⟨hbuilder, hlisteners⟩
    · rw [update_of_ne hq]
      exact hlisten q
  · rw [content, hchildren, update_of_ne hq, content]
  · rw [content, hchildren, update_self, hcon]
  · rw [hstep]
    cases f with
    | none =>
      constructor
      · intro x
        simp
      · intro x
        simp only [toList_none, foldl_nil, getD_none, flatMap_nil,
          not_mem_nil, false_and, not_false_eq_true, and_true, count_nil]
        split
        · simp
        · split
          · simp [*]
          · rfl
    | some c =>
      have hrelinked := childrenListener_relinked (s := { s with
        children := Function.update s.children edit.item w }) stack edit.item c hnn
      have hw : ({ s with children := Function.update s.children edit.item w } :
          TreeItems I).content edit.item = prescribed (s.content edit.item) edit.call := by
        show (Function.update s.children edit.item w edit.item).backingList = _
        rw [update_self, hcon]
      rw [hw] at hrelinked
      exact { hrelinked with }

theorem Counted.step (stack : Nat) (hlisten : s.Listening) (hlinked : s.Linked)
    (hcounted : ∀ x, s.Counted x) (edit : ChildEdit I) (hreg : s.Regular edit) (x : I) :
    (s.step stack edit).Counted x := by
  obtain ⟨-, hother, hnew, kept, removed, added, hpold, hpnew, hre⟩ :=
    step_spec stack hlisten (fun x => (hcounted x).nonneg) edit hreg
  obtain ⟨hnn, honce, hpar⟩ := hcounted x
  have hL := hpold.count_eq (some x)
  have hL' := hpnew.count_eq (some x)
  rw [count_append] at hL hL'
  have hadded : some x ∈ added ↔ 0 < added.count (some x) := count_pos_iff.symm
  have hrem : some x ∈ removed ↔ 0 < removed.count (some x) := count_pos_iff.symm
  have hlink := (hlinked x edit.item).trans count_pos_iff.symm
  have hp' := hre.parent x
  have hc' := hre.counter x
  constructor
  · rw [hc']
    split
    · omega
    · split <;> omega
  · intro hzero' q
    have hzero : s.parentLinkCount x = 0 := by
      by_contra hne
      rw [hc'] at hzero'
      split at hzero' <;> omega
    by_cases hq : q = edit.item
    · subst hq
      have hone := honce hzero edit.item
      rw [hnew, hL']
      rw [hc', hzero] at hzero'
      simp only [hlink, hrem, and_true, if_true] at hzero'
      split at hzero' <;> omega
    · rw [hother q hq]
      exact honce hzero q
  · intro hne
    rw [hp']
    by_cases hzero : s.parentLinkCount x = 0
    · have hpos : some x ∈ added := by
        rw [hadded]
        rw [hc', hzero] at hne
        split at hne
        · omega
        · simp only [if_true] at hne
          omega
      simp [hzero, hpos]
    · rw [if_pos hzero]
      exact hpar hzero

theorem Linked.step_iff (stack : Nat) (hlisten : s.Listening) (hlink : s.Linked)
    (hcounted : ∀ x, s.Counted x) (edit : ChildEdit I) (hreg : s.Regular edit)
    (hone : (s.step stack edit).OneParent) :
    (s.step stack edit).Linked ↔ s.Harmless edit := by
  obtain ⟨-, hother, hnew, kept, removed, added, hpold, hpnew, hre⟩ :=
    step_spec stack hlisten (fun x => (hcounted x).nonneg) edit hreg
  constructor
  · intro hlink' x hcnt hx
    rw [← hnew, ← hlink' x edit.item, hre.parent, if_pos hcnt]
    exact (hlink x edit.item).2 hx
  · intro hharm x q
    -- wherever the item is after the edit, it is nowhere else
    have hfound : ∀ p, some x ∈ (s.step stack edit).content p →
        (some p = some q ↔ some x ∈ (s.step stack edit).content q) := by
      intro p hp
      rw [some_inj]
      exact ⟨fun h => h ▸ hp, fun h => hone x p q hp h⟩
    rw [hre.parent]
    by_cases hzero : s.parentLinkCount x = 0
    · rw [if_neg (not_not.2 hzero)]
      by_cases hadded : some x ∈ added
      · rw [if_pos hadded]
        refine hfound edit.item ?_
        rw [hnew, hpnew.mem_iff]
        exact mem_append_right kept hadded
      · rw [if_neg hadded]
        by_cases hrem : some x ∈ removed
        · -- it was there once, and this was it
          rw [if_pos hrem]
          have hx : some x ∈ s.content edit.item := hpold.mem_iff.2 (mem_append_right kept hrem)
          have hle := (hcounted x).once hzero edit.item
          rw [hpold.count_eq, count_append] at hle
          have hpos := count_pos_iff.2 hrem
          have hkept : some x ∉ kept := count_eq_zero.1 (by omega)
          refine iff_of_false (by simp) fun hq => ?_
          by_cases hqe : q = edit.item
          · rw [hqe, hnew, hpnew.mem_iff, mem_append] at hq
            exact hq.elim hkept hadded
          · rw [hother q hqe, ← hlink x q, (hlink x edit.item).2 hx] at hq
            exact hqe (some.inj hq).symm
        · rw [if_neg hrem, hlink x q]
          by_cases hqe : q = edit.item
          · rw [hqe, hnew, hpnew.mem_iff, hpold.mem_iff]
            simp [hadded, hrem]
          · rw [hother q hqe]
    · rw [if_pos hzero]
      obtain ⟨p, hp⟩ := ne_none_iff_exists'.1 ((hcounted x).linked hzero)
      rw [hp]
      refine hfound p ?_
      have hx := (hlink x p).1 hp
      by_cases hpe : p = edit.item
      · subst hpe
        rw [hnew]
        exact hharm x hzero hx
      · rw [hother p hpe]
        exact hx

/-! ## Runs -/

/-- The states of a run. -/
def states (stack : Nat) (s : TreeItems I) : List (ChildEdit I) → List (TreeItems I)
  | [] => [s]
  | edit :: edits => s :: (s.step stack edit).states stack edits

def RegularRun (stack : Nat) (s : TreeItems I) : List (ChildEdit I) → Prop
  | [] => True
  | edit :: edits => s.Regular edit ∧ (s.step stack edit).RegularRun stack edits

/-- Each edit is harmless in the state before it. -/
def HarmlessRun (stack : Nat) (s : TreeItems I) : List (ChildEdit I) → Prop
  | [] => True
  | edit :: edits => s.Harmless edit ∧ (s.step stack edit).HarmlessRun stack edits

theorem mem_states_self (stack : Nat) (s : TreeItems I) (edits : List (ChildEdit I)) :
    s ∈ s.states stack edits := by
  cases edits with
  | nil => exact mem_singleton.2 rfl
  | cons edit edits => exact .head _

theorem Linked.run_iff (stack : Nat) (hlisten : s.Listening) (hlink : s.Linked)
    (hcounted : ∀ x, s.Counted x) (edits : List (ChildEdit I)) (hreg : s.RegularRun stack edits)
    (hone : ∀ t ∈ s.states stack edits, t.OneParent) :
    (∀ t ∈ s.states stack edits, t.Linked) ↔ s.HarmlessRun stack edits := by
  induction edits generalizing s with
  | nil => simp [states, HarmlessRun, hlink]
  | cons edit edits ih =>
    obtain ⟨hfst, hrest⟩ := hreg
    have hone' : ∀ t ∈ (s.step stack edit).states stack edits, t.OneParent := fun t ht =>
      hone t (mem_cons_of_mem s ht)
    have hstep := hlink.step_iff stack hlisten hcounted edit hfst
      (hone' _ (mem_states_self stack _ edits))
    have hlisten' := (step_spec stack hlisten (fun x => (hcounted x).nonneg) edit hfst).1
    have hcounted' := Counted.step stack hlisten hlink hcounted edit hfst
    show (∀ t ∈ s :: (s.step stack edit).states stack edits, t.Linked) ↔
      s.Harmless edit ∧ (s.step stack edit).HarmlessRun stack edits
    rw [forall_mem_cons, and_iff_right hlink]
    constructor
    · intro hall
      have hnxt := hall _ (mem_states_self stack _ edits)
      exact ⟨hstep.1 hnxt, (ih hlisten' hnxt hcounted' hrest hone').1 hall⟩
    · rintro ⟨hedit, hedits⟩
      exact (ih hlisten' (hstep.2 hedit) hcounted' hrest hone').2 hedits

/-- Right exactly if no item with a raised counter is taken out. -/
theorem linked_iff_harmlessRun_new (stack : Nat) (edits : List (ChildEdit I))
    (hreg : (new : TreeItems I).RegularRun stack edits)
    (hone : ∀ t ∈ (new : TreeItems I).states stack edits, t.OneParent) :
    (∀ t ∈ (new : TreeItems I).states stack edits, t.Linked) ↔
      (new : TreeItems I).HarmlessRun stack edits := by
  refine Linked.run_iff stack (fun _ => ⟨rfl, rfl⟩) (fun x p => ?_) (fun x => ⟨?_, ?_, ?_⟩) edits
    hreg hone
  · simp [new, content]
  · exact Int.le_refl 0
  · intro _ p
    exact Nat.zero_le 1
  · intro hne
    exact absurd rfl hne

/-- `true` is put among the children of `false`, and out. -/
def addAndClear (items : List (Option Bool)) : List (ChildEdit Bool) :=
  [⟨false, .addAll items, trivial⟩, ⟨false, .clear, trivial⟩]

theorem oneParent_of_empty {t : TreeItems Bool} (h : t.content true = []) : t.OneParent := by
  intro x p q hp hq
  cases p with
  | true =>
    rw [h] at hp
    cases hp
  | false =>
    cases q with
    | true =>
      rw [h] at hq
      cases hq
    | false => rfl

theorem oneParent_addAndClear (items : List (Option Bool))
    (h : ∀ t ∈ (new : TreeItems Bool).states 2 (addAndClear items), t.content true = []) :
    ∀ t ∈ (new : TreeItems Bool).states 2 (addAndClear items), t.OneParent :=
  fun t ht => oneParent_of_empty (h t ht)

theorem linked_iff_harmlessRun_once :
    (∀ t ∈ (new : TreeItems Bool).states 2 (addAndClear [some true]), t.OneParent) ∧
      ((∀ t ∈ (new : TreeItems Bool).states 2 (addAndClear [some true]), t.Linked) ↔
        (new : TreeItems Bool).HarmlessRun 2 (addAndClear [some true])) := by
  have hone := oneParent_addAndClear [some true] (by decide)
  exact ⟨hone, linked_iff_harmlessRun_new 2 _ ⟨trivial, trivial, trivial⟩ hone⟩

/-- An item that is added twice keeps its parent when it is removed. -/
theorem linked_fails_twice :
    (∀ t ∈ (new : TreeItems Bool).states 2 (addAndClear [some true, some true]), t.OneParent) ∧
      ¬ ∀ t ∈ (new : TreeItems Bool).states 2 (addAndClear [some true, some true]), t.Linked := by
  refine ⟨oneParent_addAndClear _ (by decide), fun h => ?_⟩
  have hlast := h _ (mem_cons_of_mem _ (mem_cons_of_mem _ mem_cons_self))
  have hmem := (hlast true false).1 (by decide)
  revert hmem
  decide

end OpenJfx.Controls.TreeItems
