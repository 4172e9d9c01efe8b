/-
  OpenJfx.Binding.MapSetExpressionHelper

  Which listeners are registered with `MapExpressionHelper` and `SetExpressionHelper`.  The two
  differ in what `removeListener` does after it has closed the gap (`decrementsAgain`).  The
  abstract side is a `Registry` of listeners in order, of which the first equal one is erased.
-/

import OpenJfx.Binding.ListenerArray

namespace OpenJfx.Binding

open List Function ListenerArray

variable {L V : Type}

/-- The kinds; the third is of maps or sets. -/
inductive ListenerKind where
  | invalidation
  | change
  | contentChange
  deriving DecidableEq, Repr

/-- The two classes. -/
inductive HelperClass where
  | map
  | set
  deriving DecidableEq, Repr

/-- `[--size] = null` where this holds, else `[size]`. -/
def HelperClass.decrementsAgain : HelperClass → ListenerKind → Bool
  | .map, _ => true
  | .set, .invalidation => true
  | .set, .change => false
  | .set, .contentChange => false

/-- The others, as `removeListener` looks at them. -/
def ListenerKind.others : ListenerKind → ListenerKind × ListenerKind
  | .invalidation => (.change, .contentChange)
  | .change => (.invalidation, .contentChange)
  | .contentChange => (.invalidation, .change)

/-- `SingleInvalidation`, `SingleChange`, `SingleMapChange`; `currentValue` is `none` where not
    set. -/
inductive Helper (L V : Type) where
  | single (kind : ListenerKind) (listener : Option L) (currentValue : Option V)
  | generic (arrays : ListenerKind → ListenerArray L) (locked : Bool) (currentValue : Option V)

namespace Helper

/-- The constructors of the `Single` classes. -/
def newSingle (kind : ListenerKind) (listener : Option L) (value : V) : Helper L V :=
  .single kind listener (if kind = .invalidation then none else some value)

/-- The constructors of `Generic`. -/
def newGeneric (kind₀ : ListenerKind) (listener₀ : Option L) (kind₁ : ListenerKind) (listener₁ : L)
    (value : V) : Helper L V :=
  .generic (if kind₀ = kind₁ then
      update (fun _ => .null) kind₀ ⟨some [listener₀, some listener₁], 2⟩
    else
      update (update (fun _ => .null) kind₀ ⟨some [listener₀], 1⟩) kind₁ ⟨some [some listener₁], 1⟩)
    false (if kind₀ = .invalidation ∧ kind₁ = .invalidation then none else some value)

/-- `addListener`; `gone` are the collected ones. -/
def addListener (kind : ListenerKind) (listener : L) (value : V) (gone : L → Bool) :
    Option (Helper L V) → Option (Helper L V)
  | none => some (newSingle kind (some listener) value)
  | some (.single kind₀ listener₀ _) => some (newGeneric kind₀ listener₀ kind listener value)
  | some (.generic arrays locked currentValue) =>
    let array := ((arrays kind).add locked gone listener).1
    some (.generic (update arrays kind array) locked
      (if kind ≠ .invalidation ∧ array.size = 1 then some value else currentValue))

/-- `removeListener` of every kind, in both classes. -/
def removeListener [DecidableEq L] (cls : HelperClass) (kind : ListenerKind) (listener : L)
    (value : V) : Option (Helper L V) → Option (Helper L V)
  | none => none
  | some (.single kind₀ listener₀ currentValue) =>
    if kind₀ = kind ∧ listener₀ = some listener then none
    else some (.single kind₀ listener₀ currentValue)
  | some (.generic arrays locked currentValue) =>
    match (arrays kind).indexOf listener with
    | none => some (.generic arrays locked currentValue)
    | some index =>
      if (arrays kind).size = 1 then
        let (a, b) := kind.others
        if (arrays a).size = 1 ∧ (arrays b).size = 0 then
          some (newSingle a (((arrays a).slots.getD []).headD none) value)
        else if (arrays a).size = 0 ∧ (arrays b).size = 1 then
          some (newSingle b (((arrays b).slots.getD []).headD none) value)
        else some (.generic (update arrays kind .null) locked currentValue)
      else
        let array := ((arrays kind).deleteAt locked (index + 1) (cls.decrementsAgain kind) index).1
        some (.generic (update arrays kind array) locked currentValue)

/-- The listeners of a kind that the next fire goes through. -/
def registered (kind : ListenerKind) : Option (Helper L V) → List (Option L)
  | none => []
  | some (.single kind₀ listener _) => if kind₀ = kind then [listener] else []
  | some (.generic arrays _ _) => (arrays kind).listeners

end Helper

/-! ## The methods of the two classes -/

namespace MapExpressionHelper

variable [DecidableEq L]

def addInvalidationListener := @Helper.addListener L V .invalidation
def addChangeListener := @Helper.addListener L V .change
def addMapChangeListener := @Helper.addListener L V .contentChange
def removeInvalidationListener := @Helper.removeListener L V _ .map .invalidation
def removeChangeListener := @Helper.removeListener L V _ .map .change
def removeMapChangeListener := @Helper.removeListener L V _ .map .contentChange

end MapExpressionHelper

namespace SetExpressionHelper

variable [DecidableEq L]

def addInvalidationListener := @Helper.addListener L V .invalidation
def addChangeListener := @Helper.addListener L V .change
def addSetChangeListener := @Helper.addListener L V .contentChange
def removeInvalidationListener := @Helper.removeListener L V _ .set .invalidation
def removeChangeListener := @Helper.removeListener L V _ .set .change
def removeSetChangeListener := @Helper.removeListener L V _ .set .contentChange

end SetExpressionHelper

/-! ## Runs and the registry they should maintain -/

/-- A call made outside of a notification. -/
inductive ListenerCall (L V : Type) where
  | add (kind : ListenerKind) (listener : L) (value : V) (gone : L → Bool)
  | remove (kind : ListenerKind) (listener : L) (value : V)

open ListenerCall

/-- For each kind the registered listeners in order. -/
abbrev Registry (L : Type) := ListenerKind → List L

namespace ListenerCall

variable [DecidableEq L]

def apply (cls : HelperClass) (helper : Option (Helper L V)) :
    ListenerCall L V → Option (Helper L V)
  | add kind listener value gone => Helper.addListener kind listener value gone helper
  | remove kind listener value => Helper.removeListener cls kind listener value helper

/-- What the call does to the registry. -/
def register (r : Registry L) : ListenerCall L V → Registry L
  | add kind listener _ _ => update r kind (r kind ++ [listener])
  | remove kind listener _ => update r kind ((r kind).erase listener)

/-- A removal of two, of a kind that decrements twice. -/
def dropsTwo (cls : HelperClass) (helper : Option (Helper L V)) : ListenerCall L V → Bool
  | add _ _ _ _ => false
  | remove kind listener _ =>
    match helper with
    | some (.generic arrays _ _) =>
      cls.decrementsAgain kind && ((arrays kind).indexOf listener).isSome &&
        decide (2 ≤ (arrays kind).size)
    | _ => false

/-- Every listener the call finds garbage-collected is one of `gone`. -/
def Observes (gone : L → Bool) : ListenerCall L V → Prop
  | add _ _ _ gone' => ∀ l, gone' l = true → gone l = true
  | remove _ _ _ => True

end ListenerCall

section Runs

variable [DecidableEq L]

/-- The helper after a sequence of calls, starting without one. -/
def runCalls (cls : HelperClass) : Option (Helper L V) → List (ListenerCall L V) → Option (Helper L V)
  | helper, [] => helper
  | helper, call :: calls => runCalls cls (call.apply cls helper) calls

def registerCalls (r : Registry L) (calls : List (ListenerCall L V)) : Registry L :=
  calls.foldl register r

/-- No call of the run takes the branch that decrements twice. -/
def neverDropsTwo (cls : HelperClass) : Option (Helper L V) → List (ListenerCall L V) → Bool
  | _, [] => true
  | helper, call :: calls =>
    !call.dropsTwo cls helper && neverDropsTwo cls (call.apply cls helper) calls

end Runs

/-! ## The helper holds what it should -/

/-- Listeners `ls`, and no notification going on. -/
def Helper.Holds : Option (Helper L V) → Registry L → Prop
  | none, ls => ls = fun _ => []
  | some (.single kind listener _), ls =>
    ∃ l, listener = some l ∧ ls = update (fun _ => []) kind [l]
  | some (.generic arrays locked _), ls =>
    locked = false ∧ ∀ kind, (arrays kind).Holds (ls kind)

variable {helper : Option (Helper L V)} {cls : HelperClass} {gone : L → Bool}

theorem Helper.Holds.registered_eq {ls : Registry L}
    (h : Helper.Holds helper ls) (kind : ListenerKind) :
    Helper.registered kind helper = (ls kind).map some := by
  match helper, h with
  | none, h =>
    rw [show ls = _ from h]
    rfl
  | some (.single kind0 listener _), ⟨l, hl, hls⟩ =>
    subst hl hls
    by_cases hk : kind0 = kind
    · subst hk
      simp [registered]
    · simp [registered, hk, Ne.symm hk]
  | some (.generic arrays _ _), ⟨_, h⟩ => exact (h kind).listeners_eq

theorem Helper.Holds.addListener {helper : Option (Helper L V)} {ls : Registry L}
    (h : Helper.Holds helper ls) (kind : ListenerKind) (listener : L) (value : V)
    (gone : L → Bool) :
    ∃ kept, Helper.Holds (Helper.addListener kind listener value gone helper)
        (update ls kind (kept ++ [listener])) ∧
      (kept = ls kind ∨ kept = (ls kind).filter (!gone ·)) := by
  match helper, h with
  | none, h =>
    rw [show ls = _ from h]
    exact ⟨[], ⟨listener, rfl, rfl⟩, Or.inl rfl⟩
  | some (.single kind0 listener0 _), ⟨l, hl, hls⟩ =>
    subst hl hls
    refine ⟨_, ⟨rfl, ?_⟩, Or.inl rfl⟩
    intro k
    by_cases hk : kind0 = kind
    · subst hk
      by_cases hk' : k = kind0
      · subst hk'
        simpa [of] using holds_of [l, listener]
      · simpa [hk'] using holds_null
    · by_cases hk1 : k = kind
      · subst hk1
        simpa [hk, Ne.symm hk, of] using holds_of [listener]
      · by_cases hk0 : k = kind0
        · subst hk0
          simpa [hk, of] using holds_of [l]
        · simpa [hk, hk1, hk0] using holds_null
  | some (.generic arrays locked _), ⟨hlock, h⟩ =>
    have hadd := (h kind).add locked gone listener
    have hkept : (arrays kind).kept locked gone (ls kind) = ls kind ∨
        (arrays kind).kept locked gone (ls kind) = (ls kind).filter (!gone ·) := by
      rw [ListenerArray.kept]
      split
      · exact Or.inr rfl
      · exact Or.inl rfl
    refine ⟨_, ⟨hlock, ?_⟩, hkept⟩
    intro k
    by_cases hk : k = kind
    · subst hk
      simpa using hadd
    · simpa [hk] using h k

theorem Helper.holds_newSingle {arrays : ListenerKind → ListenerArray L} {ls : Registry L}
    (h : ∀ kind, (arrays kind).Holds (ls kind)) {kind a b : ListenerKind}
    (hall : ∀ k, k = kind ∨ k = a ∨ k = b) (hab : a ≠ b) (hka : kind ≠ a)
    (ha : (arrays a).size = 1) (hb : (arrays b).size = 0) (value : V) :
    Helper.Holds (some (newSingle a (((arrays a).slots.getD []).headD none) value))
      (update ls kind []) := by
  obtain ⟨l, hl⟩ := length_eq_one_iff.mp ((h a).size_eq.symm.trans ha)
  have hlb : ls b = [] := length_eq_zero_iff.mp ((h b).size_eq.symm.trans hb)
  obtain ⟨-, rest, hslots⟩ := h a
  refine ⟨l, ?_, ?_⟩
  · rw [hslots, hl]
    rfl
  · funext k
    rcases hall k with rfl | rfl | rfl
    · simp [hka]
    · simp [Ne.symm hka, hl]
    · by_cases hkb : k = kind
      · simp [hkb, hka]
      · simp [hkb, Ne.symm hab, hlb]

theorem ListenerKind.others_spec (kind : ListenerKind) :
    (∀ k, k = kind ∨ k = kind.others.1 ∨ k = kind.others.2) ∧
      kind.others.1 ≠ kind.others.2 ∧ kind ≠ kind.others.1 ∧ kind ≠ kind.others.2 := by
  cases kind <;> refine ⟨?_, by decide, by decide, by decide⟩ <;> intro k <;> cases k <;> decide

theorem Helper.Holds.removeListener [DecidableEq L] {cls : HelperClass}
    {helper : Option (Helper L V)} {ls : Registry L} (h : Helper.Holds helper ls)
    {kind : ListenerKind} {listener : L} {value : V}
    (hok : dropsTwo cls helper (.remove kind listener value) = false) :
    Helper.Holds (Helper.removeListener cls kind listener value helper)
      (update ls kind ((ls kind).erase listener)) := by
  match helper, h with
  | none, h =>
    rw [show ls = _ from h]
    show update _ _ _ = _
    simp
  | some (.single kind0 listener0 currentValue), ⟨l, hl, hls⟩ =>
    subst hl hls
    rw [Helper.removeListener]
    by_cases hk : kind0 = kind ∧ some l = some listener
    · obtain ⟨rfl, hl⟩ := hk
      cases hl
      rw [if_pos ⟨rfl, rfl⟩]
      show update _ _ _ = _
      simp
    · rw [if_neg hk]
      refine ⟨l, rfl, ?_⟩
      by_cases hk0 : kind0 = kind
      · subst hk0
        have hne : l ≠ listener := fun heq => hk ⟨rfl, by rw [heq]⟩
        simp [hne]
      · simp [Ne.symm hk0]
  | some (.generic arrays locked currentValue), ⟨hlock, h⟩ =>
    rw [Helper.removeListener]
    rcases (h kind).indexOf listener with ⟨hidx, hnot⟩ | ⟨xs, ys, hls, hnot, hidx⟩
    · -- not registered: nothing happens
      rw [hidx, erase_of_not_mem hnot, update_eq_self]
      exact ⟨hlock, h⟩
    have herase : (ls kind).erase listener = xs ++ ys := by
      rw [hls, erase_append_right _ hnot, erase_cons_head]
    rw [hidx, herase]
    have hsz := (h kind).size_eq
    rw [hls] at hsz
    simp only [length_append, length_cons] at hsz
    obtain ⟨hall, hab, hka, hkb⟩ := kind.others_spec
    by_cases hone : (arrays kind).size = 1
    · -- the last one of its kind: a `Single` helper of another kind takes over, or the array goes
      obtain rfl : xs = [] := length_eq_zero_iff.mp (by omega)
      obtain rfl : ys = [] := length_eq_zero_iff.mp (by omega)
      simp only [if_pos hone, append_nil]
      split
      · rename_i hsingle
        exact holds_newSingle h hall hab hka hsingle.1 hsingle.2 value
      · split
        · rename_i hsingle
          refine holds_newSingle h ?_ hab.symm hkb hsingle.2 hsingle.1 value
          intro k
          exact (hall k).imp_right Or.symm
        · refine ⟨hlock, ?_⟩
          intro k
          by_cases hk : k = kind
          · subst hk
            simpa using holds_null
          · simpa [hk] using h k
    · -- the gap is closed, with one decrement
      have hagain : cls.decrementsAgain kind = false := by
        have hsome : ((arrays kind).indexOf listener).isSome = true := by rw [hidx]; rfl
        have htwo : 2 ≤ (arrays kind).size := by omega
        simpa [dropsTwo, hsome, htwo] using hok
      simp only [if_neg hone, hagain]
      refine ⟨hlock, ?_⟩
      intro k
      by_cases hk : k = kind
      · subst hk
        have hdel := h k
        rw [hls] at hdel
        simpa using hdel.deleteAt locked (Nat.le_succ xs.length)
      · simpa [hk] using h k

/-! ## Whole runs -/

theorem filter_erase_congr [DecidableEq L] {p : L → Bool} {xs ys : List L} (l : L)
    (h : xs.filter p = ys.filter p) : (xs.erase l).filter p = (ys.erase l).filter p := by
  have key : ∀ zs : List L, (zs.erase l).filter p = if p l then (zs.filter p).erase l else zs.filter p := by
    intro zs
    induction zs with
    | nil => simp
    | cons z zs ih =>
      by_cases hz : z = l
      · subst hz
        by_cases hp : p z <;> simp [hp]
      · have htail : ∀ ws : List L, (z :: ws).erase l = z :: ws.erase l := fun ws =>
          erase_cons_tail (by simpa using hz)
        by_cases hp : p z
        · rw [htail, filter_cons_of_pos hp, filter_cons_of_pos hp, ih, htail]
          split <;> rfl
        · rw [htail, filter_cons_of_neg hp, filter_cons_of_neg hp, ih]
  rw [key xs, key ys, h]

/-- The helper holds the registry, apart from listeners that are gone. -/
def Helper.Represents (gone : L → Bool) (helper : Option (Helper L V)) (r : Registry L) : Prop :=
  ∃ ls, Helper.Holds helper ls ∧ ∀ kind, (ls kind).filter (!gone ·) = (r kind).filter (!gone ·)

theorem Helper.Represents.apply [DecidableEq L] {r : Registry L}
    (h : Helper.Represents gone helper r)
    {call : ListenerCall L V} (hgone : call.Observes gone)
    (hok : call.dropsTwo cls helper = false) :
    Helper.Represents gone (call.apply cls helper) (call.register r) := by
  obtain ⟨ls, hls, hr⟩ := h
  cases call with
  | add kind listener value gone' =>
    obtain ⟨kept, hadd, hkept⟩ := hls.addListener kind listener value gone'
    refine ⟨_, hadd, ?_⟩
    have hfilt : kept.filter (!gone ·) = (r kind).filter (!gone ·) := by
      rcases hkept with rfl | rfl
      · exact hr kind
      · rw [filter_filter, ← hr kind]
        refine filter_congr ?_
        intro l _
        cases hg' : gone' l with
        | false => simp
        | true => simp [hgone l hg']
    intro k
    by_cases hk : k = kind
    · subst hk
      simp [register, filter_append, hfilt]
    · simpa [register, hk] using hr k
  | remove kind listener value =>
    refine ⟨_, hls.removeListener hok, ?_⟩
    intro k
    by_cases hk : k = kind
    · subst hk
      simpa [register] using filter_erase_congr listener (hr k)
    · simpa [register, hk] using hr k

theorem Helper.Represents.run [DecidableEq L] {calls : List (ListenerCall L V)} :
    ∀ {helper : Option (Helper L V)} {r : Registry L}, Helper.Represents gone helper r →
      (∀ call ∈ calls, call.Observes gone) → neverDropsTwo cls helper calls = true →
      Helper.Represents gone (runCalls cls helper calls) (registerCalls r calls) := by
  induction calls with
  | nil =>
    intro helper r h _ _
    exact h
  | cons call calls ih =>
    intro helper r h hgone hok
    rw [neverDropsTwo, Bool.and_eq_true, Bool.not_eq_true'] at hok
    refine ih (h.apply (hgone call mem_cons_self) hok.1) ?_ hok.2
    intro c hc
    exact hgone c (.tail _ hc)

/-- If no removal decrements the size twice, a fire goes through the listeners of the registry, in
    order and without a null, apart from collected weak listeners. -/
theorem registered_of_neverDropsTwo [DecidableEq L] (cls : HelperClass) (gone : L → Bool)
    (calls : List (ListenerCall L V)) (hgone : ∀ call ∈ calls, call.Observes gone)
    (hok : neverDropsTwo cls none calls = true) (kind : ListenerKind) :
    ∃ ls : List L, Helper.registered kind (runCalls cls none calls) = ls.map some ∧
      ls.filter (!gone ·) = (registerCalls (fun _ => []) calls kind).filter (!gone ·) := by
  have hst : Helper.Represents gone (none : Option (Helper L V)) fun _ => [] :=
    ⟨_, rfl, fun _ => rfl⟩
  obtain ⟨ls, hls, hr⟩ := hst.run hgone hok
  exact ⟨ls kind, hls.registered_eq kind, hr kind⟩

/-- A run of a set helper that removes a change listener while two are registered. -/
theorem registered_of_neverDropsTwo_set :
    let calls : List (ListenerCall Nat Nat) :=
      [.add .change 1 0 fun _ => false, .add .change 2 0 fun _ => false,
        .add .invalidation 7 0 fun _ => false, .remove .change 1 0]
    ∃ ls : List Nat, Helper.registered .change (runCalls .set none calls) = ls.map some ∧
      ls.filter (fun _ => true) = [2] := by
  intro calls
  exact registered_of_neverDropsTwo .set (fun _ => false) calls
    (by simp [calls, ListenerCall.Observes]) (by decide) .change

/-- One of two invalidation listeners is removed. -/
theorem removeListener_drops_two :
    let calls : List (ListenerCall Nat Nat) :=
      [.add .invalidation 1 0 fun _ => false, .add .invalidation 2 0 fun _ => false,
        .remove .invalidation 1 0]
    Helper.registered .invalidation (runCalls .map none calls) = [] ∧
      registerCalls (fun _ => []) calls .invalidation = [2] := by
  decide

end OpenJfx.Binding
