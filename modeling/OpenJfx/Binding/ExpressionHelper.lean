/-
  OpenJfx.Binding.ExpressionHelper

  `ExpressionHelper` while it notifies: a callback may add and remove listeners and set the value
  again.  `Firing` holds the local variables of `Generic.fireValueChangedEvent`; `tick` lets the
  innermost notification go on.  A field keeps all arrays it ever held (`Field.arrays`), and a
  `Firing` refers to one by its number.  A nested notification clears `locked` for all.
-/

import OpenJfx.Binding.ListenerArray

namespace OpenJfx.Binding

open List ListenerArray Function

variable {cur nextRef : Nat} {L V : Type} {ls : List L}

namespace ExpressionHelper

/-- `InvalidationListener` and `ChangeListener`. -/
inductive Kind where
  | invalidation
  | change
  deriving DecidableEq, Repr

def Kind.other : Kind → Kind
  | .invalidation => .change
  | .change => .invalidation

/-- A listener array field: the arrays it has held, the last one's number, and whether it is
    null. -/
structure Field (L : Type) where
  arrays : Nat → List (Option L)
  current : Nat
  null : Bool
  size : Nat

namespace Field

/-- Null, as in a new object. -/
def new : Field L := ⟨fun _ => [], 0, true, 0⟩

/-- What the code sees of the field. -/
def load (f : Field L) : ListenerArray L :=
  ⟨if f.null then none else some (f.arrays f.current), f.size⟩

/-- Assign the field: `fresh` tells a new array from a change in place. -/
def store (f : Field L) (a : ListenerArray L) (fresh : Bool) : Field L :=
  match a.slots with
  | none => { f with null := true, size := a.size }
  | some slots =>
    let number := if fresh then f.current + 1 else f.current
    ⟨update f.arrays number slots, number, false, a.size⟩

end Field

/-- A `Generic` object. -/
structure Generic (L V : Type) where
  fields : Kind → Field L
  locked : Bool
  currentValue : Option V

/-- The `helper` field of the property; `generic` is a reference. -/
inductive Helper (L V : Type) where
  | none
  | singleInvalidation (listener : Option L)
  | singleChange (listener : Option L) (currentValue : Option V)
  | generic (ref : Nat)

/-- Before slot `i`, inside it, or between the loops. -/
inductive Pc where
  | loop (kind : Kind) (i : Nat)
  | callback (kind : Kind) (i : Nat)
  | compare
  deriving DecidableEq, Repr

/-- A call of `Generic.fireValueChangedEvent`.  Not in the code: what was registered when it started,
    the slots its loops have read, and whether the value was found changed. -/
structure Firing (L : Type) where
  ref : Nat
  curList : Kind → Nat
  curSize : Kind → Nat
  pc : Pc
  atStart : Kind → List L
  notified : Kind → List (Option L)
  changed : Bool

/-- A notification in progress. -/
inductive Frame (L : Type) where
  | single
  | generic (firing : Firing L)

/-- A finished notification of a `Generic` helper. -/
structure Fired (L : Type) where
  atStart : Kind → List L
  notified : Kind → List (Option L)
  changed : Bool

/-- `registered` follows from the calls alone; `told` is the value that the change listeners of a
    `Generic` know: that at the registration of the first one, or that of the last notification. -/
structure State (L V : Type) where
  value : Option V
  helper : Helper L V
  generics : Nat → Generic L V
  nextRef : Nat
  stack : List (Frame L)
  history : List (Fired L)
  registered : Kind → List L
  told : Nat → Option V

/-- What happens next; `gone` says which weak listeners have been collected. -/
inductive Action (L V : Type) where
  | tick
  | addListener (kind : Kind) (listener : L) (gone : L → Bool)
  | removeListener (kind : Kind) (listener : L)
  | setValue (value : Option V)

/-- A property that holds `value` and has no listener. -/
def State.init (value : Option V) : State L V :=
  ⟨value, .none, fun _ => ⟨fun _ => .new, false, none⟩, 0, [], [], fun _ => [], fun _ => none⟩

namespace State

def setGeneric (s : State L V) (ref : Nat) (g : Generic L V) : State L V :=
  { s with generics := update s.generics ref g }

def setField (s : State L V) (ref : Nat) (kind : Kind) (f : Field L) : State L V :=
  s.setGeneric ref { s.generics ref with fields := update (s.generics ref).fields kind f }

/-- Store the result of an array operation. -/
def storeField (s : State L V) (ref : Nat) (kind : Kind) (r : ListenerArray L × Bool) : State L V :=
  s.setField ref kind (((s.generics ref).fields kind).store r.1 r.2)

/-- `new SingleInvalidation(..)`, `new SingleChange(..)`. -/
def newSingle (s : State L V) (kind : Kind) (listener : Option L) : State L V :=
  { s with helper := match kind with
      | .invalidation => .singleInvalidation listener
      | .change => .singleChange listener s.value }

/-- `new Generic(..)`, with the given arrays. -/
def newGeneric (s : State L V) (arrays : Kind → List (Option L)) : State L V :=
  { s with
    helper := .generic s.nextRef
    nextRef := s.nextRef + 1
    generics := update s.generics s.nextRef ⟨fun kind => if arrays kind = [] then .new
        else ⟨fun _ => arrays kind, 0, false, (arrays kind).length⟩,
        false, if arrays .change = [] then none else s.value⟩ }

end State

/-- The arrays a `Generic` begins with. -/
def pairArrays (kind₀ : Kind) (listener₀ : Option L) (kind : Kind) (listener : L) :
    Kind → List (Option L) := fun k =>
  (if k = kind₀ then [listener₀] else []) ++ if k = kind then [some listener] else []

/-- `ExpressionHelper.addListener` of either kind. -/
def addListener (s : State L V) (kind : Kind) (listener : L) (gone : L → Bool) : State L V :=
  match s.helper with
  | .none => s.newSingle kind (some listener)
  | .singleInvalidation listener₀ => s.newGeneric (pairArrays .invalidation listener₀ kind listener)
  | .singleChange listener₀ _ => s.newGeneric (pairArrays .change listener₀ kind listener)
  | .generic ref =>
    let g := s.generics ref
    let r := (g.fields kind).load.add g.locked gone listener
    let s := s.storeField ref kind r
    if kind = .change ∧ r.1.size = 1 then
      s.setGeneric ref { s.generics ref with currentValue := s.value }
    else s

/-- `ExpressionHelper.removeListener` of either kind. -/
def removeListener [DecidableEq L] (s : State L V) (kind : Kind) (listener : L) : State L V :=
  match s.helper with
  | .none => s
  | .singleInvalidation listener₀ =>
    if kind = .invalidation ∧ listener₀ = some listener then { s with helper := .none } else s
  | .singleChange listener₀ _ =>
    if kind = .change ∧ listener₀ = some listener then { s with helper := .none } else s
  | .generic ref =>
    let g := s.generics ref
    let a := (g.fields kind).load
    let b := (g.fields kind.other).load
    match a.indexOf listener with
    | none => s
    | some index =>
      if a.size = 1 then
        if b.size = 1 then s.newSingle kind.other ((b.slots.getD []).getD 0 none)
        else s.storeField ref kind (.null, false)
      else if a.size = 2 ∧ b.size = 0 then
        s.newSingle kind ((a.slots.getD []).getD (1 - index) none)
      else s.storeField ref kind (a.deleteAt g.locked index false index)

/-- What a notification reads at its start. -/
def Firing.start (ref : Nat) (g : Generic L V) (registered : Kind → List L) : Firing L :=
  { ref := ref
    curList := fun kind => (g.fields kind).current
    curSize := fun kind => (g.fields kind).size
    pc := .loop .invalidation 0
    atStart := registered
    notified := fun _ => []
    changed := false }

/-- Up to the first loop test or callback. -/
def fireValueChangedEvent [DecidableEq V] (s : State L V) : State L V :=
  match s.helper with
  | .none => s
  | .singleInvalidation _ => { s with stack := .single :: s.stack }
  | .singleChange listener currentValue =>
    let changed := s.value ≠ currentValue
    { s with
      helper := .singleChange listener s.value
      stack := if changed then .single :: s.stack else s.stack }
  | .generic ref =>
    let g := s.generics ref
    { s with stack := .generic (Firing.start ref g s.registered) :: s.stack }.setGeneric ref
      { g with locked := true }

/-- The `finally` block and the return of a notification. -/
def finish (s : State L V) (firing : Firing L) (rest : List (Frame L)) : State L V :=
  { s with
    stack := rest
    history := ⟨firing.atStart, firing.notified, firing.changed⟩ :: s.history }.setGeneric firing.ref
      { s.generics firing.ref with locked := false }

/-- Not in the code: whether the value has changed since the change listeners were told. -/
def State.judge [DecidableEq V] (s : State L V) (firing : Firing L) : State L V × Firing L :=
  ({ s with
      told := if firing.atStart .change = [] then s.told else update s.told firing.ref s.value },
    { firing with changed := decide (s.value ≠ s.told firing.ref) })

/-- A step of the innermost one; a null slot throws. -/
def tick [DecidableEq V] (s : State L V) : Option (State L V) :=
  match s.stack with
  | [] => none
  | .single :: rest => some { s with stack := rest }
  | .generic f :: rest =>
    match f.pc with
    | .callback kind i => some { s with stack := .generic { f with pc := .loop kind (i + 1) } :: rest }
    | .loop kind i =>
      if i < f.curSize kind then
        let slot := (((s.generics f.ref).fields kind).arrays (f.curList kind)).getD i none
        let f := { f with notified := update f.notified kind (f.notified kind ++ [slot]) }
        let pc := if slot.isSome then .callback kind i else .loop kind (i + 1)
        some { s with stack := .generic { f with pc := pc } :: rest }
      else
        match kind with
        | .invalidation => some { s with stack := .generic { f with pc := .compare } :: rest }
        | .change => some (finish s f rest)
    | .compare =>
      let (s, f) := s.judge f
      if 0 < f.curSize .change then
        let oldValue := (s.generics f.ref).currentValue
        let s := s.setGeneric f.ref { s.generics f.ref with currentValue := s.value }
        if s.value ≠ oldValue then
          some { s with stack := .generic { f with pc := .loop .change 0 } :: rest }
        else some (finish s f rest)
      else some (finish s f rest)

/-- Outside of notifications and in callbacks. -/
def State.userCode (s : State L V) : Bool :=
  match s.stack with
  | [] => true
  | .single :: _ => true
  | .generic f :: _ =>
    match f.pc with
    | .callback _ _ => true
    | _ => false

/-! ## What the calls register -/

section Registered

variable (s : State L V) (kind : Kind) (listener : L)

/-- An addition; the code may forget listeners that are gone. -/
def State.afterAdding (gone : L → Bool) : Kind → List L :=
  let left := match s.helper with
    | .generic ref =>
      ((s.generics ref).fields kind).load.kept (s.generics ref).locked gone (s.registered kind)
    | _ => s.registered kind
  update s.registered kind (left ++ [listener])

/-- `told` after the addition that led to `t`. -/
def State.toldAfter (t : State L V) (registered : Kind → List L) : Nat → Option V :=
  match t.helper with
  | .generic ref =>
    if ref = s.nextRef then
      update s.told ref (if registered .change = [] then none else s.value)
    else if kind = .change ∧ (registered .change).length = 1 then update s.told ref s.value
    else s.told
  | _ => s.told

/-- The call, with the listener noted as registered. -/
def State.adding (gone : L → Bool) : State L V :=
  let t := addListener s kind listener gone
  let registered := s.afterAdding kind listener gone
  { t with registered := registered, told := s.toldAfter kind t registered }

/-- The call, with the listener no longer registered. -/
def State.removing [DecidableEq L] : State L V :=
  { removeListener s kind listener with
    registered := update s.registered kind ((s.registered kind).erase listener) }

end Registered

/-- One step of the system, if it can happen. -/
def step [DecidableEq L] [DecidableEq V] (s : State L V) : Action L V → Option (State L V)
  | .tick => tick s
  | .addListener kind listener gone =>
    if s.userCode then some (s.adding kind listener gone) else none
  | .removeListener kind listener =>
    if s.userCode then some (s.removing kind listener) else none
  | .setValue value =>
    if s.userCode then some (fireValueChangedEvent { s with value := value }) else none

/-- None if a step is not possible. -/
def run [DecidableEq L] [DecidableEq V] : State L V → List (Action L V) → Option (State L V)
  | s, [] => some s
  | s, a :: as => (step s a).bind (run · as)

/-! ## When a loop is disturbed -/

/-- Slot `index` of the field is gone through. -/
def State.iterates (s : State L V) (ref : Nat) (kind : Kind) (index : Nat) : Bool :=
  s.stack.any fun
    | .single => false
    | .generic f => f.ref == ref &&
        f.curList kind == ((s.generics ref).fields kind).current && decide (index < f.curSize kind)

/-- The action changes in place a slot that a running notification goes through: a removal deletes
    it, or an addition to a full array trims one. -/
def disturbs [DecidableEq L] (s : State L V) : Action L V → Bool
  | .addListener kind _ gone =>
    match s.helper with
    | .generic ref =>
      let g := s.generics ref
      let f := g.fields kind
      !g.locked && !f.null && f.size == (f.arrays f.current).length &&
        (List.range f.size).any fun i =>
          ((f.arrays f.current).getD i none).any gone && s.iterates ref kind i
    | _ => false
  | .removeListener kind listener =>
    match s.helper with
    | .generic ref =>
      let g := s.generics ref
      match (g.fields kind).load.indexOf listener with
      | none => false
      | some index =>
        !g.locked && (g.fields kind).size != 1 &&
          !((g.fields kind).size == 2 && (g.fields kind.other).size == 0) &&
          s.iterates ref kind index
    | _ => false
  | _ => false

/-- No action of the run disturbs a loop. -/
def undisturbed [DecidableEq L] [DecidableEq V] : State L V → List (Action L V) → Bool
  | _, [] => true
  | s, a :: as => !disturbs s a &&
    match step s a with
    | none => true
    | some s => undisturbed s as

/-- It goes through what was registered at its start. -/
def Firing.Undisturbed (s : State L V) (f : Firing L) : Prop :=
  ∀ kind, (((s.generics f.ref).fields kind).arrays (f.curList kind)).take (f.curSize kind)
    = (f.atStart kind).map some

/-- Each listener registered at the start was invoked once and in order, the change listeners if the
    value changed. -/
def Fired.Complete (r : Fired L) : Prop :=
  r.notified .invalidation = (r.atStart .invalidation).map some ∧
    r.notified .change = if r.changed then (r.atStart .change).map some else []

/-! ## Array fields seen from a notification in progress -/

/-- Array `cur`, and the field while it has it, start with `ls`. -/
def Field.Keeps (f : Field L) (cur : Nat) (ls : List L) : Prop :=
  cur ≤ f.current ∧ (f.arrays cur).take ls.length = ls.map some ∧
    (cur = f.current → f.null = false → ls.length ≤ f.size)

variable {f : Field L}

theorem Field.Keeps.store_null (h : f.Keeps cur ls)
    (size : Nat) (fresh : Bool) : (f.store ⟨none, size⟩ fresh).Keeps cur ls :=
  ⟨h.1, h.2.1, fun _ hnull => by cases hnull⟩

theorem Field.Keeps.store_fresh (h : f.Keeps cur ls)
    (slots : List (Option L)) (size : Nat) : (f.store ⟨some slots, size⟩ true).Keeps cur ls := by
  have hcur := h.1
  have hne : cur ≠ f.current + 1 := by omega
  refine ⟨by simp [store]; omega, ?_, fun heq => absurd heq (by simpa [store] using hne)⟩
  simpa [store, update_of_ne hne] using h.2.1

theorem Field.Keeps.store_in_place (h : f.Keeps cur ls) {slots : List (Option L)} {size : Nat}
    (htake : cur = f.current → slots.take ls.length = (f.arrays f.current).take ls.length ∧
      ls.length ≤ size) :
    (f.store ⟨some slots, size⟩ false).Keeps cur ls := by
  refine ⟨h.1, ?_, fun heq _ => (htake heq).2⟩
  by_cases hcur : cur = f.current
  · have htaken := h.2.1
    rw [hcur] at htaken
    simpa [store, hcur, (htake hcur).1] using htaken
  · simpa [store, update_of_ne hcur] using h.2.1

theorem Field.load_of_not_null (h : f.null = false) :
    f.load = ⟨some (f.arrays f.current), f.size⟩ := by
  simp [load, h]

theorem Field.load_store (f : Field L) (a : ListenerArray L) (fresh : Bool) :
    (f.store a fresh).load = a := by
  obtain ⟨slots, size⟩ := a
  cases slots <;> simp [store, load]

theorem Field.Keeps.add (h : f.Keeps cur ls) {locked : Bool} {gone : L → Bool} (listener : L)
    (hgone : locked = false → f.null = false → f.size = (f.arrays f.current).length →
      cur = f.current → ∀ i, i < ls.length → ((f.arrays f.current).getD i none).any gone = false) :
    (f.store (f.load.add locked gone listener).1 (f.load.add locked gone listener).2).Keeps
      cur ls := by
  cases hnull : f.null with
  | true =>
    have hload : f.load = ⟨none, f.size⟩ := by simp [load, hnull]
    rw [hload]
    exact h.store_fresh _ _
  | false =>
    rw [load_of_not_null hnull]
    cases hfresh : (ListenerArray.add locked gone listener ⟨some (f.arrays f.current), f.size⟩).2 with
    | true =>
      obtain ⟨slots, size⟩ := (ListenerArray.add locked gone listener
        ⟨some (f.arrays f.current), f.size⟩).1
      cases slots with
      | none => exact h.store_null size true
      | some slots => exact h.store_fresh slots size
    | false =>
      by_cases hcur : cur = f.current
      · obtain ⟨slots, hslots, htake, hle⟩ := add_in_place (n := ls.length)
          (h.2.2 hcur hnull) hfresh (fun hlock hfull => hgone hlock hnull hfull hcur)
        generalize ListenerArray.add locked gone listener ⟨some (f.arrays f.current), f.size⟩ = r
          at hslots hle
        obtain ⟨⟨_, size⟩, _⟩ := r
        dsimp only at hslots hle ⊢
        subst hslots
        exact h.store_in_place fun _ => ⟨htake, hle⟩
      · generalize (ListenerArray.add locked gone listener ⟨some (f.arrays f.current), f.size⟩).1 = r
        obtain ⟨slots, size⟩ := r
        cases slots with
        | none => exact h.store_null size false
        | some slots => exact h.store_in_place fun heq => absurd heq hcur

theorem Field.Keeps.deleteAt {index : Nat} {all : List L} (h : f.Keeps cur ls)
    {locked : Bool} (hall : f.load.Holds all) (hidx : index < all.length)
    (hbehind : locked = false → cur = f.current → ls.length ≤ index) :
    (f.store (f.load.deleteAt locked index false index).1
      (f.load.deleteAt locked index false index).2).Keeps cur ls := by
  cases hnull : f.null with
  | true =>
    have hload : f.load = ⟨none, f.size⟩ := by simp [load, hnull]
    rw [hload]
    exact h.store_null _ _
  | false =>
    rw [load_of_not_null hnull] at hall ⊢
    cases locked with
    | true => exact h.store_fresh _ _
    | false =>
      by_cases hcur : cur = f.current
      · have hsz : f.size = all.length := hall.size_eq
        have hlen : f.size ≤ (f.arrays f.current).length := by
          obtain ⟨-, rest, hrest⟩ := hall
          rw [Option.getD_some] at hrest
          rw [hrest, hsz]
          simp
        obtain ⟨slots, hslots, htake, hle⟩ := deleteAt_in_place
          (hbehind rfl hcur) (show index < f.size by omega) hlen
        rw [hslots]
        exact h.store_in_place fun _ => ⟨htake, hle⟩
      · exact h.store_in_place fun heq => absurd heq hcur

/-! ## The invariant -/

def State.fields (s : State L V) : Nat → Kind → Field L := fun ref => (s.generics ref).fields

/-- The slots it should read. -/
def Firing.slots (f : Firing L) (kind : Kind) : List (Option L) := (f.atStart kind).map some

/-- How far a notification has come. -/
def Firing.Progress (f : Firing L) : Prop :=
  match f.pc with
  | .loop .invalidation i => i ≤ f.curSize .invalidation ∧
      f.notified .invalidation = (f.slots .invalidation).take i ∧ f.notified .change = []
  | .callback .invalidation i => i < f.curSize .invalidation ∧
      f.notified .invalidation = (f.slots .invalidation).take (i + 1) ∧ f.notified .change = []
  | .compare => f.notified .invalidation = f.slots .invalidation ∧ f.notified .change = []
  | .loop .change i => f.changed = true ∧ i ≤ f.curSize .change ∧
      f.notified .invalidation = f.slots .invalidation ∧
      f.notified .change = (f.slots .change).take i
  | .callback .change i => f.changed = true ∧ i < f.curSize .change ∧
      f.notified .invalidation = f.slots .invalidation ∧
      f.notified .change = (f.slots .change).take (i + 1)

/-- A notification in progress, in these fields. -/
structure Firing.Intact (fields : Nat → Kind → Field L) (nextRef : Nat) (f : Firing L) : Prop where
  ref_lt : f.ref < nextRef
  keeps : ∀ kind, f.curSize kind = (f.atStart kind).length ∧
    (fields f.ref kind).Keeps (f.curList kind) (f.atStart kind)
  progress : f.Progress

/-- The notifications and the arrays. -/
structure Sound (s : State L V) : Prop where
  firings : ∀ f, Frame.generic f ∈ s.stack → f.Intact s.fields s.nextRef
  holds : ∀ ref kind, ∃ ls, (s.fields ref kind).load.Holds ls
  history : ∀ r ∈ s.history, r.Complete

/-- The listeners that a single helper has. -/
def only (kind : Kind) (l : L) : Kind → List L := fun k => if k = kind then [l] else []

/-- The helper has the registered listeners. -/
def Helper.Has (fields : Nat → Kind → Field L) (nextRef : Nat) (registered : Kind → List L) :
    Helper L V → Prop
  | .none => ∀ kind, registered kind = []
  | .singleInvalidation listener => ∃ l, listener = some l ∧ registered = only .invalidation l
  | .singleChange listener _ => ∃ l, listener = some l ∧ registered = only .change l
  | .generic ref => ref < nextRef ∧ ∀ kind, (fields ref kind).load.Holds (registered kind)

/-- What holds between any two steps. -/
structure Inv (s : State L V) : Prop where
  sound : Sound s
  has : s.helper.Has s.fields s.nextRef s.registered
  told : ∀ ref, (s.generics ref).currentValue = s.told ref

@[simp] theorem State.fields_setGeneric (s : State L V) (ref : Nat) (g : Generic L V) :
    (s.setGeneric ref g).fields = update s.fields ref g.fields := by
  funext r
  by_cases h : r = ref
  · subst h; simp [State.fields, State.setGeneric]
  · simp [State.fields, State.setGeneric, h]

theorem State.fields_setGeneric_self (s : State L V) (ref : Nat) (g : Generic L V)
    (h : g.fields = (s.generics ref).fields) : (s.setGeneric ref g).fields = s.fields := by
  rw [State.fields_setGeneric, h]
  exact update_eq_self ref s.fields

theorem State.currentValue_setGeneric (s : State L V) (ref r : Nat) (g : Generic L V) :
    ((s.setGeneric ref g).generics r).currentValue
      = if r = ref then g.currentValue else (s.generics r).currentValue := by
  by_cases h : r = ref
  · subst h
    simp [State.setGeneric]
  · simp [State.setGeneric, h]

theorem State.fields_setField (s : State L V) (ref : Nat) (kind : Kind) (fld : Field L) (r : Nat)
    (k : Kind) : (s.setField ref kind fld).fields r k
      = if r = ref ∧ k = kind then fld else s.fields r k := by
  rw [State.setField, State.fields_setGeneric]
  by_cases hr : r = ref
  · subst hr
    by_cases hk : k = kind
    · subst hk; simp
    · simp [hk, State.fields]
  · simp [hr]

theorem State.currentValue_setField (s : State L V) (ref : Nat) (kind : Kind) (fld : Field L)
    (r : Nat) : ((s.setField ref kind fld).generics r).currentValue
      = (s.generics r).currentValue := by
  rw [State.setField, State.currentValue_setGeneric]
  split
  · next h => rw [h]
  · rfl

variable {s : State L V}

theorem Firing.Intact.undisturbed {f : Firing L}
    (h : f.Intact s.fields s.nextRef) : f.Undisturbed s := by
  intro kind
  obtain ⟨hsz, -, htake, -⟩ := h.keeps kind
  rw [hsz]
  exact htake

variable {fields : Nat → Kind → Field L}

/-- A step that assigns one field is sound if the notifications in progress keep theirs. -/
theorem Sound.setField {s : State L V} (h : Sound s) {ref : Nat} {kind : Kind} {fld : Field L}
    {all : List L} (hall : fld.load.Holds all)
    (hkeeps : ∀ f ls, Frame.generic f ∈ s.stack → f.ref = ref → f.curSize kind = ls.length →
      (s.fields ref kind).Keeps (f.curList kind) ls → fld.Keeps (f.curList kind) ls) :
    Sound (s.setField ref kind fld) := by
  refine ⟨?_, ?_, h.history⟩
  · intro f hf
    obtain ⟨href, hk, hp⟩ := h.firings f hf
    refine ⟨href, ?_, hp⟩
    intro k
    obtain ⟨hsz, hkeep⟩ := hk k
    refine ⟨hsz, ?_⟩
    rw [State.fields_setField]
    split
    · rename_i heq
      obtain ⟨hr, rfl⟩ := heq
      rw [hr] at hkeep
      exact hkeeps f _ hf hr hsz hkeep
    · exact hkeep
  · intro r k
    rw [State.fields_setField]
    split
    · exact ⟨all, hall⟩
    · exact h.holds r k

/-- Assigning other things than arrays, the stack and the history. -/
theorem Sound.congr {t : State L V} (h : Sound s) (hfields : t.fields = s.fields)
    (hnxt : t.nextRef = s.nextRef) (hstk : t.stack = s.stack) (hhistory : t.history = s.history) :
    Sound t := by
  refine ⟨?_, ?_, ?_⟩
  · rw [hfields, hnxt, hstk]; exact h.firings
  · rw [hfields]; exact h.holds
  · rw [hhistory]; exact h.history

theorem State.fields_newGeneric (arrays : Kind → List (Option L)) :
    (s.newGeneric arrays).fields = update s.fields s.nextRef fun kind =>
      if arrays kind = [] then .new else ⟨fun _ => arrays kind, 0, false, (arrays kind).length⟩ :=
  State.fields_setGeneric s s.nextRef _

theorem newGeneric_holds {listeners : Kind → List L} (kind : Kind) :
    ((s.newGeneric fun k => (listeners k).map some).fields s.nextRef kind).load.Holds
      (listeners kind) := by
  rw [State.fields_newGeneric, update_self]
  cases hls : listeners kind with
  | nil =>
    simp only [map_nil, if_true]
    exact holds_null
  | cons l ls =>
    simp only [map_cons, reduceCtorEq, if_false]
    simpa [Field.load, of] using holds_of (l :: ls)

theorem Sound.newGeneric (h : Sound s) (listeners : Kind → List L) :
    Sound (s.newGeneric fun k => (listeners k).map some) := by
  refine ⟨?_, ?_, h.history⟩
  · -- no notification in progress knows the new object
    intro f hf
    obtain ⟨href, hk, hp⟩ := h.firings f hf
    refine ⟨Nat.lt_succ_of_lt href, ?_, hp⟩
    rw [State.fields_newGeneric, update_of_ne (Nat.ne_of_lt href)]
    exact hk
  · intro ref kind
    by_cases href : ref = s.nextRef
    · subst href
      exact ⟨_, newGeneric_holds kind⟩
    · rw [State.fields_newGeneric, update_of_ne href]
      exact h.holds ref kind

/-! ## Steps -/

theorem State.iterates_of_mem {f : Firing L} {kind : Kind} {index : Nat}
    (hf : Frame.generic f ∈ s.stack)
    (hcur : f.curList kind = ((s.generics f.ref).fields kind).current)
    (hidx : index < f.curSize kind) : s.iterates f.ref kind index = true := by
  rw [State.iterates, any_eq_true]
  exact ⟨.generic f, hf, by simp [hcur, hidx]⟩

/-! Additions -/

theorem pairArrays_some (kind₀ kind : Kind) (l₀ l : L) :
    pairArrays kind₀ (some l₀) kind l = fun k => (update (only kind₀ l₀) kind
      (only kind₀ l₀ kind ++ [l]) k).map some := by
  funext k
  rw [pairArrays, only]
  by_cases hk : k = kind
  · subst hk
    rw [update_self, map_append]
    congr 1
    · split <;> rfl
    · rw [if_pos rfl]
      rfl
  · rw [update_of_ne hk, if_neg hk, append_nil]
    dsimp only [only]
    split <;> rfl

/-- A second listener makes a `Generic`. -/
theorem Inv.adding_single (h : Inv s) {kind kind₀ : Kind} {listener l₀ : L}
    {gone : L → Bool} (hreg : s.registered = only kind₀ l₀)
    (hafter : s.afterAdding kind listener gone
      = update s.registered kind (s.registered kind ++ [listener]))
    (hcode : addListener s kind listener gone
      = s.newGeneric (pairArrays kind₀ (some l₀) kind listener)) :
    Inv (s.adding kind listener gone) := by
  let added := update (only kind₀ l₀) kind (only kind₀ l₀ kind ++ [listener])
  have hadding : s.adding kind listener gone
      = { s.newGeneric (fun k => (added k).map some) with
          registered := added
          told := update s.told s.nextRef (if added .change = [] then none else s.value) } := by
    rw [State.adding, hafter, hreg, hcode, pairArrays_some]
    simp only [State.toldAfter, State.newGeneric, if_true]
    rfl
  rw [hadding]
  refine ⟨(h.sound.newGeneric added).congr rfl rfl rfl rfl, ⟨Nat.lt_succ_self _, fun k =>
    newGeneric_holds k⟩, fun ref => ?_⟩
  have hcv := State.currentValue_setGeneric s s.nextRef ref
    ⟨fun k => if (added k).map some = [] then .new
      else ⟨fun _ => (added k).map some, 0, false, ((added k).map some).length⟩, false,
      if (added .change).map some = [] then none else s.value⟩
  refine hcv.trans ?_
  by_cases href : ref = s.nextRef
  · subst href
    simp
  · rw [if_neg href]
    exact (h.told ref).trans (update_of_ne href _ _).symm

theorem Sound.add (h : Sound s) {ref : Nat} {kind : Kind} {listener : L} {gone : L → Bool}
    {all : List L} (hall : (((s.generics ref).fields kind).load.add (s.generics ref).locked gone
      listener).1.Holds all) (hs : s.helper = .generic ref) [DecidableEq L]
    (hok : disturbs s (.addListener kind listener gone) = false) :
    Sound (s.storeField ref kind
      (((s.generics ref).fields kind).load.add (s.generics ref).locked gone listener)) := by
  refine h.setField (by rw [Field.load_store]; exact hall) ?_
  intro f ks hf href hsz hkeep
  refine hkeep.add listener ?_
  intro hlock hnull hfull hcur i hi
  -- a trimmed slot would be one of those the notification goes through
  by_contra hgone
  rw [Bool.not_eq_false] at hgone
  have hit : s.iterates ref kind i = true := by
    subst href
    exact State.iterates_of_mem hf hcur (by omega)
  have hle := hkeep.2.2 hcur hnull
  have hbad : disturbs s (.addListener kind listener gone) = true := by
    have hany : (List.range ((s.generics ref).fields kind).size).any (fun i =>
        (((((s.generics ref).fields kind).arrays
          ((s.generics ref).fields kind).current).getD i none).any gone)
          && s.iterates ref kind i) = true := by
      rw [any_eq_true]
      refine ⟨i, mem_range.mpr ?_, ?_⟩
      · exact Nat.lt_of_lt_of_le hi hle
      · rw [hit, Bool.and_true]
        exact hgone
    simp only [disturbs, hs, hany, Bool.and_true]
    simpa [hlock] using ⟨hnull, hfull⟩
  rw [hok] at hbad
  cases hbad

/-- A listener added to a `Generic`. -/
theorem Inv.adding_generic [DecidableEq L] (h : Inv s) {ref : Nat} (hs : s.helper = .generic ref)
    {kind : Kind} {listener : L} {gone : L → Bool}
    (hok : disturbs s (.addListener kind listener gone) = false) :
    Inv (s.adding kind listener gone) := by
  have hhas := h.has
  rw [hs] at hhas
  obtain ⟨href, hholds⟩ := hhas
  let r := ((s.generics ref).fields kind).load.add (s.generics ref).locked gone listener
  let added := s.afterAdding kind listener gone
  have hadded : added = update s.registered kind
      (((s.generics ref).fields kind).load.kept (s.generics ref).locked gone (s.registered kind)
        ++ [listener]) := by
    show s.afterAdding kind listener gone = _
    rw [State.afterAdding, hs]
  have hall : r.1.Holds (added kind) := by
    rw [hadded, update_self]
    exact (hholds kind).add _ gone listener
  have hsound : Sound (s.storeField ref kind r) := h.sound.add hall hs hok
  have hsize : r.1.size = (added kind).length := hall.size_eq
  -- the value is noted when the first change listener is added
  have htold : s.toldAfter kind (addListener s kind listener gone) added
      = if kind = .change ∧ r.1.size = 1 then update s.told ref s.value else s.told := by
    have hhelper : (addListener s kind listener gone).helper = .generic ref := by
      rw [addListener, hs]
      dsimp only
      split <;> exact hs
    rw [State.toldAfter, hhelper]
    dsimp only
    rw [if_neg (Nat.ne_of_lt href)]
    by_cases hk : kind = .change
    · subst hk
      rw [hsize]
    · simp [hk]
  have hcode : addListener s kind listener gone
      = if kind = .change ∧ r.1.size = 1 then (s.storeField ref kind r).setGeneric ref
          { (s.storeField ref kind r).generics ref with currentValue := s.value }
        else s.storeField ref kind r := by
    rw [addListener, hs]
    rfl
  have hfields : (addListener s kind listener gone).fields = (s.storeField ref kind r).fields := by
    rw [hcode]
    split
    · exact State.fields_setGeneric_self _ _ _ rfl
    · rfl
  refine ⟨hsound.congr hfields ?_ ?_ ?_, ?_, fun r' => ?_⟩
  all_goals
    rw [State.adding]
    dsimp only
  · rw [hcode]
    split <;> rfl
  · rw [hcode]
    split <;> rfl
  · rw [hcode]
    split <;> rfl
  · have hhelper : (addListener s kind listener gone).helper = .generic ref := by
      rw [hcode]
      split <;> exact hs
    have hnxt : (addListener s kind listener gone).nextRef = s.nextRef := by
      rw [hcode]
      split <;> rfl
    rw [hhelper]
    refine ⟨hnxt ▸ href, fun k => ?_⟩
    show ((addListener s kind listener gone).fields ref k).load.Holds (added k)
    rw [hfields, State.storeField, State.fields_setField]
    by_cases hk : k = kind
    · subst hk
      rw [if_pos ⟨rfl, rfl⟩, Field.load_store]
      exact hall
    · rw [if_neg fun hc => hk hc.2, hadded, update_of_ne hk]
      exact hholds k
  · rw [htold, hcode]
    split
    · rw [State.currentValue_setGeneric]
      by_cases hr' : r' = ref
      · subst hr'
        rw [if_pos rfl, update_self]
      · rw [if_neg hr', update_of_ne hr', State.storeField, State.currentValue_setField]
        exact h.told r'
    · rw [State.storeField, State.currentValue_setField]
      exact h.told r'

theorem Inv.adding [DecidableEq L] (h : Inv s) {kind : Kind} {listener : L}
    {gone : L → Bool} (hok : disturbs s (.addListener kind listener gone) = false) :
    Inv (s.adding kind listener gone) := by
  have hhas := h.has
  cases hs : s.helper with
  | none =>
    rw [hs] at hhas
    have hreg : s.afterAdding kind listener gone = only kind listener := by
      rw [State.afterAdding, hs]
      funext k
      by_cases hk : k = kind
      · subst hk
        rw [update_self, hhas, only, if_pos rfl]
        rfl
      · rw [update_of_ne hk, hhas, only, if_neg hk]
    have hcode : addListener s kind listener gone = s.newSingle kind (some listener) := by
      rw [addListener, hs]
    rw [State.adding, hcode, hreg]
    cases kind with
    | invalidation | change =>
      exact ⟨h.sound.congr rfl rfl rfl rfl, ⟨_, rfl, rfl⟩, h.told⟩
  | singleInvalidation l =>
    rw [hs] at hhas
    obtain ⟨l₀, rfl, hreg⟩ := hhas
    exact h.adding_single hreg (by rw [State.afterAdding, hs]) (by rw [addListener, hs])
  | singleChange l cv =>
    rw [hs] at hhas
    obtain ⟨l₀, rfl, hreg⟩ := hhas
    exact h.adding_single hreg (by rw [State.afterAdding, hs]) (by rw [addListener, hs])
  | generic ref => exact h.adding_generic hs hok

/-! Removals -/

theorem erase_only [DecidableEq L] {kind kind₀ : Kind} {listener l : L}
    (hreg : s.registered = only kind₀ l) (hne : ¬ (kind = kind₀ ∧ l = listener)) :
    update s.registered kind ((s.registered kind).erase listener) = s.registered := by
  refine (update_eq_self_iff).mpr (erase_of_not_mem ?_)
  rw [hreg, only]
  split
  · rintro (_ | ⟨_, hmem⟩)
    · exact hne ⟨‹_›, rfl⟩
    · cases hmem
  · exact not_mem_nil

theorem erase_only_self [DecidableEq L] {kind : Kind} {l : L} (hreg : s.registered = only kind l)
    (k : Kind) : update s.registered kind ((s.registered kind).erase l) k = [] := by
  by_cases hk : k = kind
  · subst hk
    simp [hreg, only]
  · rw [update_of_ne hk, hreg, only, if_neg hk]

theorem Sound.deleteAt (h : Sound s) [DecidableEq L] {ref : Nat} {kind : Kind} {listener : L}
    {xs ys : List L} (hs : s.helper = .generic ref)
    (hls : ((s.generics ref).fields kind).load.Holds (xs ++ listener :: ys))
    (hidx : ((s.generics ref).fields kind).load.indexOf listener = some xs.length)
    (hone : ¬ ((s.generics ref).fields kind).load.size = 1)
    (htwo : ¬ (((s.generics ref).fields kind).load.size = 2 ∧
      ((s.generics ref).fields kind.other).load.size = 0))
    (hok : disturbs s (.removeListener kind listener) = false) :
    Sound (s.storeField ref kind (((s.generics ref).fields kind).load.deleteAt
      (s.generics ref).locked xs.length false xs.length)) := by
  refine @Sound.setField _ _ _ h _ _ _ (xs ++ ys) ?_ ?_
  · rw [Field.load_store]
    exact hls.deleteAt (s.generics ref).locked (Nat.le_refl _)
  · intro f ms hf href hsz hkeep
    refine hkeep.deleteAt hls (by simp) ?_
    intro hlock hcur
    by_contra hlt
    have hit : s.iterates ref kind xs.length = true := by
      subst href
      exact State.iterates_of_mem hf hcur (by omega)
    have hbad : disturbs s (.removeListener kind listener) = true := by
      simp only [disturbs, hs, hidx, hlock, hit]
      simp only [Field.load] at hone htwo
      simpa [not_and_or] using ⟨hone, by omega⟩
    rw [hok] at hbad
    cases hbad

/-- Storing an array with the listeners `ls`. -/
theorem Inv.storeField (h : Inv s) {ref : Nat} (hs : s.helper = .generic ref) {kind : Kind}
    {r : ListenerArray L × Bool} {ls : List L} (hr : r.1.Holds ls)
    (hsound : Sound (s.storeField ref kind r)) :
    Inv { s.storeField ref kind r with registered := update s.registered kind ls } := by
  have hhas := h.has
  rw [hs] at hhas
  refine ⟨hsound.congr rfl rfl rfl rfl, ?_, fun r' =>
    (State.currentValue_setField s ref kind _ r').trans (h.told r')⟩
  show Helper.Has _ _ _ s.helper
  rw [hs]
  refine ⟨hhas.1, fun k => ?_⟩
  show ((s.setField ref kind _).fields ref k).load.Holds (update s.registered kind ls k)
  rw [State.fields_setField]
  by_cases hk : k = kind
  · subst hk
    rw [if_pos ⟨rfl, rfl⟩, Field.load_store, update_self]
    exact hr
  · rw [if_neg fun hc => hk hc.2, update_of_ne hk]
    exact hhas.2 k

theorem Inv.removing_generic [DecidableEq L] (h : Inv s) {ref : Nat} (hs : s.helper = .generic ref)
    {kind : Kind} {listener : L} (hok : disturbs s (.removeListener kind listener) = false) :
    Inv (s.removing kind listener) := by
  have hhas := h.has
  rw [hs] at hhas
  obtain ⟨href, hholds⟩ := hhas
  have hls := hholds kind
  have hks := hholds kind.other
  rw [State.fields] at hls hks
  rw [State.removing, removeListener, hs]
  dsimp only
  rcases hls.indexOf listener with ⟨hidx, hnot⟩ | ⟨xs, ys, heq, hfst, hidx⟩
  · rw [hidx, erase_of_not_mem hnot, update_eq_self]
    exact ⟨h.sound.congr rfl rfl rfl rfl, h.has, h.told⟩
  have herase : (s.registered kind).erase listener = xs ++ ys := by
    rw [heq, erase_append_right _ hfst, erase_cons_head]
  rw [hidx, herase]
  rw [heq] at hls
  dsimp only
  split
  · rename_i hone
    obtain ⟨rfl, rfl⟩ : xs = [] ∧ ys = [] := by
      have := hls.size_eq.symm.trans hone
      simp only [length_append, length_cons] at this
      exact ⟨length_eq_zero_iff.mp (by omega), length_eq_zero_iff.mp (by omega)⟩
    split
    · -- one listener of the other kind is left
      rename_i hother
      obtain ⟨k, hk⟩ := length_eq_one_iff.mp (hks.size_eq.symm.trans hother)
      have hreg : update s.registered kind [] = only kind.other k := by
        funext k'
        cases kind <;> cases k' <;> simp_all [Kind.other, only]
      obtain ⟨-, rest, hslots⟩ := hks
      rw [hslots, hk, nil_append, hreg]
      cases kind with
      | invalidation | change =>
        exact ⟨h.sound.congr rfl rfl rfl rfl, ⟨_, rfl, rfl⟩, h.told⟩
    · exact h.storeField hs holds_null (h.sound.setField (by rw [Field.load_store]; exact holds_null)
        fun f ms _ _ _ hkeep => hkeep.store_null 0 false)
  · rename_i hone
    split
    · -- one listener of the same kind is left, in the other of the two slots
      rename_i htwo
      have hlen := hls.size_eq.symm.trans htwo.1
      have hnil := length_eq_zero_iff.mp (hks.size_eq.symm.trans htwo.2)
      simp only [length_append, length_cons] at hlen
      obtain ⟨k, hk, hslot⟩ : ∃ k, xs ++ ys = [k] ∧
          ((xs ++ listener :: ys).map some)[1 - xs.length]? = some (some k) := by
        rcases xs with _ | ⟨k, xs⟩
        · obtain ⟨k, rfl⟩ := length_eq_one_iff.mp (show ys.length = 1 by simpa using hlen)
          exact ⟨k, rfl, rfl⟩
        · obtain ⟨rfl, rfl⟩ : xs = [] ∧ ys = [] := by
            simp only [length_cons] at hlen
            exact ⟨length_eq_zero_iff.mp (by omega), length_eq_zero_iff.mp (by omega)⟩
          exact ⟨k, rfl, rfl⟩
      have hreg : update s.registered kind [k] = only kind k := by
        funext k'
        cases kind <;> cases k' <;> simp_all [Kind.other, only]
      obtain ⟨-, rest, hslots⟩ := hls
      have hget : (((s.generics ref).fields kind).load.slots.getD []).getD (1 - xs.length) none
          = some k := by
        have hlt := (List.getElem?_eq_some_iff.mp hslot).1
        rw [hslots, getD_eq_getElem?_getD, getElem?_append_left hlt, hslot]
        rfl
      rw [hget, hk, hreg]
      cases kind with
      | invalidation | change =>
        exact ⟨h.sound.congr rfl rfl rfl rfl, ⟨_, rfl, rfl⟩, h.told⟩
    · rename_i htwo
      exact h.storeField hs (hls.deleteAt _ (Nat.le_refl _)) (h.sound.deleteAt hs hls hidx hone htwo hok)

theorem Inv.removing_single [DecidableEq L] (h : Inv s) {kind kind₀ : Kind} {listener l : L}
    (hreg : s.registered = only kind₀ l)
    (hcode : removeListener s kind listener
      = if kind = kind₀ ∧ some l = some listener then { s with helper := .none } else s) :
    Inv (s.removing kind listener) := by
  rw [State.removing, hcode]
  split
  · rename_i hc
    obtain ⟨rfl, hl⟩ := hc
    cases hl
    exact ⟨h.sound.congr rfl rfl rfl rfl, erase_only_self hreg, h.told⟩
  · rename_i hc
    rw [erase_only hreg fun hcond => hc ⟨hcond.1, congrArg some hcond.2⟩]
    exact ⟨h.sound.congr rfl rfl rfl rfl, h.has, h.told⟩

theorem Inv.removing [DecidableEq L] (h : Inv s) {kind : Kind} {listener : L}
    (hok : disturbs s (.removeListener kind listener) = false) :
    Inv (s.removing kind listener) := by
  have hhas := h.has
  cases hs : s.helper with
  | none =>
    rw [hs] at hhas
    have hcode : removeListener s kind listener = s := by rw [removeListener, hs]
    have hreg : update s.registered kind ((s.registered kind).erase listener) = s.registered := by
      rw [hhas kind]
      exact (update_eq_self_iff).mpr (hhas kind).symm
    rw [State.removing, hcode, hreg]
    exact ⟨h.sound.congr rfl rfl rfl rfl, h.has, h.told⟩
  | singleInvalidation l =>
    rw [hs] at hhas
    obtain ⟨l₀, rfl, hreg⟩ := hhas
    exact h.removing_single hreg (by rw [removeListener, hs])
  | singleChange l cv =>
    rw [hs] at hhas
    obtain ⟨l₀, rfl, hreg⟩ := hhas
    exact h.removing_single hreg (by rw [removeListener, hs])
  | generic ref => exact h.removing_generic hs hok

/-! Notifications -/

theorem Field.keeps_current (h : f.load.Holds ls) :
    f.Keeps f.current ls := by
  refine ⟨Nat.le_refl _, ?_, fun _ _ => Nat.le_of_eq h.size_eq.symm⟩
  obtain ⟨hsz, rest, hslots⟩ := h
  cases hnull : f.null with
  | true =>
    rw [load, hnull] at hslots
    obtain rfl : ls = [] := by
      have hlen := congrArg List.length hslots
      simp only [if_true, Option.getD_none, length_nil, length_append, length_map] at hlen
      exact length_eq_zero_iff.mp (by omega)
    rfl
  | false =>
    rw [load_of_not_null hnull, Option.getD_some] at hslots
    rw [hslots]
    exact take_left' (by simp)

theorem Inv.fireValueChangedEvent [DecidableEq V] (h : Inv s) :
    Inv (fireValueChangedEvent s) := by
  have hhas := h.has
  rw [ExpressionHelper.fireValueChangedEvent]
  split
  · exact h
  · refine ⟨⟨?_, h.sound.holds, h.sound.history⟩, h.has, h.told⟩
    intro f hf
    exact h.sound.firings f (by simpa using hf)
  · rename_i listener currentValue hs
    rw [hs] at hhas
    refine ⟨⟨?_, h.sound.holds, h.sound.history⟩, hhas, h.told⟩
    intro f hf
    refine h.sound.firings f ?_
    dsimp only at hf
    split at hf
    · simpa using hf
    · exact hf
  · rename_i ref hs
    rw [hs] at hhas
    have hfields : ({ s with stack := .generic (Firing.start ref (s.generics ref) s.registered) ::
        s.stack }.setGeneric ref { s.generics ref with locked := true }).fields = s.fields :=
      State.fields_setGeneric_self _ _ _ rfl
    refine ⟨⟨?_, ?_, h.sound.history⟩, ?_, fun r => ?_⟩
    · intro f hf
      rw [hfields]
      rcases mem_cons.mp hf with hnew | hold
      · cases hnew
        exact ⟨hhas.1, fun kind => ⟨(hhas.2 kind).size_eq, Field.keeps_current (hhas.2 kind)⟩,
          ⟨Nat.zero_le _, rfl, rfl⟩⟩
      · exact h.sound.firings f hold
    · rw [hfields]
      exact h.sound.holds
    · rw [hfields]
      exact h.has
    · rw [State.currentValue_setGeneric]
      split
      · rename_i hr
        rw [hr]
        exact h.told ref
      · exact h.told r

variable {rest : List (Frame L)}

/-- Replacing the innermost notification by a later state of it. -/
theorem Inv.setTop (h : Inv s) {f f' : Firing L}
    (hs : s.stack = .generic f :: rest) (hf' : f'.Intact s.fields s.nextRef) :
    Inv { s with stack := .generic f' :: rest } := by
  refine ⟨⟨?_, h.sound.holds, h.sound.history⟩, h.has, h.told⟩
  intro g hg
  rcases mem_cons.mp hg with hnew | hold
  · cases hnew
    exact hf'
  · exact h.sound.firings g (by rw [hs]; exact .tail _ hold)

theorem Inv.finish (h : Inv s) {f f' : Firing L} (hs : s.stack = .generic f :: rest)
    (hn : f'.notified .invalidation = f'.slots .invalidation)
    (hc : f'.notified .change = if f'.changed then f'.slots .change else []) :
    Inv (finish s f' rest) := by
  have hfields : (ExpressionHelper.finish s f' rest).fields = s.fields :=
    State.fields_setGeneric_self _ f'.ref { s.generics f'.ref with locked := false } rfl
  refine ⟨⟨?_, ?_, ?_⟩, ?_, fun r => ?_⟩
  · intro g hg
    rw [hfields]
    exact h.sound.firings g (by rw [hs]; exact .tail _ hg)
  · rw [hfields]
    exact h.sound.holds
  · intro r hr
    rcases mem_cons.mp hr with rfl | hr
    · exact ⟨hn, hc⟩
    · exact h.sound.history r hr
  · rw [hfields]
    exact h.has
  · rw [ExpressionHelper.finish, State.currentValue_setGeneric]
    split
    · rename_i hr
      rw [hr]
      exact h.told f'.ref
    · exact h.told r

theorem Firing.Intact.slot {f : Firing L}
    (h : f.Intact fields nextRef) {kind : Kind} {i : Nat} (hi : i < f.curSize kind) :
    ∃ l, ((fields f.ref kind).arrays (f.curList kind)).getD i none = some l ∧
      (f.slots kind).take (i + 1) = (f.slots kind).take i ++ [some l] := by
  obtain ⟨hsz, -, htake, -⟩ := h.keeps kind
  have hlt : i < (f.atStart kind).length := by omega
  refine ⟨(f.atStart kind)[i], ?_, ?_⟩
  · have hget := congrArg (fun l => l.getD i none) htake
    rw [getD_eq_getElem?_getD, getElem?_take_of_lt hlt] at hget
    rw [getD_eq_getElem?_getD, hget]
    simp [hlt]
  · rw [Firing.slots, take_add_one]
    simp [hlt]

theorem Firing.Intact.slots_length {f : Firing L}
    (h : f.Intact fields nextRef) (kind : Kind) : (f.slots kind).length = f.curSize kind := by
  rw [Firing.slots, length_map, (h.keeps kind).1]

/-- `judge` finds what the code compares. -/
theorem Inv.judge [DecidableEq V] (h : Inv s) {f : Firing L} (hs : s.stack = .generic f :: rest) :
    (s.judge f).2 = { f with changed := decide (s.value ≠ (s.generics f.ref).currentValue) } ∧
      (f.curSize .change = 0 → (s.judge f).1 = s) ∧
      (0 < f.curSize .change → Inv ((s.judge f).1.setGeneric f.ref
        { s.generics f.ref with currentValue := s.value })) := by
  have hf : f.Intact s.fields s.nextRef := h.sound.firings f (by rw [hs]; exact .head _)
  have hlen := (hf.keeps .change).1
  refine ⟨by rw [State.judge, h.told f.ref], fun h0 => ?_, fun h0 => ?_⟩
  · rw [State.judge, if_pos (length_eq_zero_iff.mp (by omega))]
  · have hne : f.atStart .change ≠ [] := by
      intro hnil
      rw [hnil, length_nil] at hlen
      omega
    rw [State.judge, if_neg hne]
    have hfields := State.fields_setGeneric_self { s with told := update s.told f.ref s.value } f.ref
      { s.generics f.ref with currentValue := s.value } rfl
    refine ⟨h.sound.congr hfields rfl rfl rfl, ?_, fun r => ?_⟩
    · rw [hfields]
      exact h.has
    · rw [State.currentValue_setGeneric]
      by_cases hr : r = f.ref
      · subst hr
        rw [if_pos rfl]
        exact (update_self f.ref s.value s.told).symm
      · rw [if_neg hr]
        exact (h.told r).trans (update_of_ne hr _ _).symm

theorem Inv.tick [DecidableEq V] {t : State L V} (h : Inv s) (ht : tick s = some t) : Inv t := by
  rw [ExpressionHelper.tick] at ht
  split at ht
  · cases ht
  · rename_i rest hs
    cases ht
    refine ⟨⟨?_, h.sound.holds, h.sound.history⟩, h.has, h.told⟩
    intro f hf
    exact h.sound.firings f (by rw [hs]; exact .tail _ hf)
  · rename_i f rest hs
    have hf : f.Intact s.fields s.nextRef := h.sound.firings f (by rw [hs]; exact .head _)
    have hp := hf.progress
    split at ht
    · -- the callback returns
      rename_i kind i hpc
      cases ht
      refine h.setTop hs ⟨hf.ref_lt, hf.keeps, ?_⟩
      rw [Firing.Progress, hpc] at hp
      cases kind with
      | invalidation | change => exact hp
    · rename_i kind i hpc
      split at ht
      · -- the next slot
        rename_i hi
        obtain ⟨l, hslot, htake⟩ := hf.slot hi
        rw [show (((s.generics f.ref).fields kind).arrays (f.curList kind)).getD i none = some l
          from hslot] at ht
        cases ht
        refine h.setTop hs ⟨hf.ref_lt, hf.keeps, ?_⟩
        rw [Firing.Progress, hpc] at hp
        cases kind with
        | invalidation =>
          obtain ⟨-, hn, hc⟩ := hp
          refine ⟨hi, ?_, by simpa using hc⟩
          refine Eq.trans ?_ htake.symm
          rw [← hn]
          simp
        | change =>
          obtain ⟨hchg, -, hn, hc⟩ := hp
          refine ⟨hchg, hi, ?_, ?_⟩
          · have hne : Kind.invalidation ≠ Kind.change := by decide
            have hsame := update_of_ne hne (f.notified .change ++ [some l]) f.notified
            exact hsame.trans hn
          refine Eq.trans ?_ htake.symm
          rw [← hc]
          simp
      · -- the loop ends
        rename_i hi
        rw [Firing.Progress, hpc] at hp
        cases kind with
        | invalidation =>
          cases ht
          refine h.setTop hs ⟨hf.ref_lt, hf.keeps, ?_⟩
          obtain ⟨hle, hn, hc⟩ := hp
          refine ⟨?_, hc⟩
          show f.notified .invalidation = _
          rw [hn, take_of_length_le (by rw [hf.slots_length]; omega)]
          rfl
        | change =>
          cases ht
          obtain ⟨hchg, hle, hn, hc⟩ := hp
          refine h.finish hs hn (Eq.trans ?_ (if_pos hchg).symm)
          rw [hc, take_of_length_le (by rw [hf.slots_length]; omega)]
    · rename_i hpc
      rw [Firing.Progress, hpc] at hp
      obtain ⟨hjudged, hzero, hpos⟩ := h.judge hs
      dsimp only at ht
      rw [hjudged] at ht
      split at ht
      · -- `currentValue` is updated; the change listeners follow if it differs
        rename_i h0
        have hset := hpos h0
        split at ht
        · rename_i hne
          cases ht
          refine hset.setTop hs ⟨hf.ref_lt, ?_, ⟨decide_eq_true hne, Nat.zero_le _, hp.1, hp.2⟩⟩
          rw [State.fields_setGeneric_self (s.judge f).1 f.ref
            { s.generics f.ref with currentValue := s.value } rfl]
          exact hf.keeps
        · rename_i heq
          cases ht
          exact hset.finish hs hp.1 (hp.2.trans (if_neg fun hc => heq (of_decide_eq_true hc)).symm)
      · rename_i h0
        have hsz : f.curSize .change = 0 := Nat.eq_zero_of_not_pos h0
        rw [hzero hsz] at ht
        cases ht
        have hnil : f.slots .change = [] :=
          length_eq_zero_iff.mp ((hf.slots_length .change).trans hsz)
        refine h.finish hs hp.1 (hp.2.trans ?_)
        split
        · exact hnil.symm
        · rfl

theorem Inv.step [DecidableEq L] [DecidableEq V] {s t : State L V} (h : Inv s) {a : Action L V}
    (hok : disturbs s a = false) (ht : step s a = some t) : Inv t := by
  cases a with
  | tick => exact h.tick ht
  | addListener kind listener gone =>
    obtain ⟨-, ht⟩ := Option.ite_none_right_eq_some.mp ht
    cases ht
    exact h.adding hok
  | removeListener kind listener =>
    obtain ⟨-, ht⟩ := Option.ite_none_right_eq_some.mp ht
    cases ht
    exact h.removing hok
  | setValue value =>
    obtain ⟨-, ht⟩ := Option.ite_none_right_eq_some.mp ht
    cases ht
    have hset : Inv { s with value := value } := ⟨h.sound.congr rfl rfl rfl rfl, h.has, h.told⟩
    exact hset.fireValueChangedEvent

theorem Inv.run [DecidableEq L] [DecidableEq V] {as : List (Action L V)} :
    ∀ {s t : State L V}, Inv s → undisturbed s as = true → run s as = some t → Inv t := by
  induction as with
  | nil =>
    intro s t h _ ht
    cases ht
    exact h
  | cons a as ih =>
    intro s t h hok ht
    obtain ⟨u, hu, ht⟩ := Option.bind_eq_some_iff.mp ht
    rw [undisturbed, hu, Bool.and_eq_true, Bool.not_eq_true'] at hok
    exact ih (h.step hok.1 hu) hok.2 ht

theorem Inv.init (value : Option V) : Inv (State.init value : State L V) := by
  refine ⟨⟨?_, ?_, ?_⟩, fun kind => rfl, fun ref => rfl⟩
  · intro f hf
    cases hf
  · intro ref kind
    exact ⟨[], holds_null⟩
  · intro r hr
    cases hr

/-- In every run without a disturbing action, each finished notification has invoked what was
    registered when it started, and the loops in progress go through just that. -/
theorem notifies_snapshot [DecidableEq L] [DecidableEq V] (value : Option V)
    (as : List (Action L V)) (s : State L V) (hrun : run (State.init value) as = some s)
    (hok : undisturbed (State.init value) as = true) :
    (∀ r ∈ s.history, r.Complete) ∧ ∀ f, Frame.generic f ∈ s.stack → f.Undisturbed s := by
  have h := (Inv.init value).run hok hrun
  exact ⟨h.sound.history, fun f hf => (h.sound.firings f hf).undisturbed⟩

/-- The first listener removes itself, and the change listener is told. -/
theorem notifies_snapshot_locked :
    let as : List (Action Nat Nat) :=
      [.addListener .invalidation 1 fun _ => false, .addListener .invalidation 2 fun _ => false,
        .addListener .change 3 fun _ => false, .setValue (some 5), .tick,
        .removeListener .invalidation 1] ++ List.replicate 8 .tick
    ∃ s, run (State.init (some 0)) as = some s ∧ s.history.length = 1 ∧
      (∀ r ∈ s.history, r.Complete) ∧ ∀ f, Frame.generic f ∈ s.stack → f.Undisturbed s := by
  intro as
  exact ⟨_, rfl, rfl, notifies_snapshot (some 0) as _ rfl (by decide)⟩

/-- The first of three listeners sets the value and then removes itself: the nested notification has
    cleared `locked`, the second is never called and the last slot is null. -/
theorem notification_disturbed :
    let as : List (Action Nat Nat) :=
      [.addListener .invalidation 1 fun _ => false, .addListener .invalidation 2 fun _ => false,
        .addListener .invalidation 3 fun _ => false, .setValue (some 5), .tick, .setValue (some 6)]
        ++ List.replicate 8 .tick ++ [.removeListener .invalidation 1] ++ List.replicate 6 .tick
    ∃ s, run (State.init (some 0)) as = some s ∧ ∃ r ∈ s.history,
      r.atStart .invalidation = [1, 2, 3] ∧
      r.notified .invalidation = [some 1, some 3, none] ∧ ¬ r.Complete := by
  refine ⟨_, rfl, _, .head _, rfl, rfl, ?_⟩
  rintro ⟨h, -⟩
  revert h
  decide

end ExpressionHelper

end OpenJfx.Binding
