/-
  OpenJfx.Css.BitSet.Runs

  Runs of calls on any number of bit sets and their iterators.  `Conforms` says
  that a call acts on the sets of indices as the mathematical operation does,
  answers accordingly, and tells the listeners of what moved.  A call conforms
  exactly when it does not run into one of the places where the code looks at
  the length of the arrays instead of their bits (`Clean`).
-/

import OpenJfx.Css.BitSet.Calls

namespace OpenJfx.Css.BitSet

variable {T : Type}

/-- The sets of one class, by name, and the iterators with the set they are over. -/
structure World where
  sets : Nat → BitSet
  iterators : Nat → Nat × Iterator

/-- Before the first call. -/
def World.new : World := ⟨fun _ => BitSet.new, fun _ => (0, iterator)⟩

def World.setSet (w : World) (i : Nat) (s : BitSet) : World :=
  { w with sets := Function.update w.sets i s }

def World.setIterator (w : World) (k : Nat) (it : Nat × Iterator) : World :=
  { w with iterators := Function.update w.iterators k it }

/-- A call, on sets and iterators by their names. -/
inductive Op (T : Type) where
  | add (i : Nat) (t : Option T)
  | remove (i : Nat) (o : Option T)
  | addAll (i j : Nat)
  | retainAll (i j : Nat)
  | removeAll (i j : Nat)
  | clear (i : Nat)
  | contains (i : Nat) (o : Option T)
  | containsAll (i j : Nat)
  | size (i : Nat)
  | isEmpty (i : Nat)
  | iterator (k i : Nat)
  | hasNext (k : Nat)
  | iteratorRemove (k : Nat)
  | listeners (i : Nat) (has : Bool)

/-- What a call returns or throws. -/
inductive Answer where
  | nothing
  | bool (b : Bool)
  | int (n : Nat)
  | thrown (e : JavaException)
  deriving DecidableEq

/-- What a call answers, tells and leaves. -/
structure Step (T : Type) where
  answer : Answer
  told : List (Change T)
  after : World

/-- A call with a result, on the set `i`. -/
def World.mutate (w : World) (i : Nat) (o : Outcome T) : Step T :=
  ⟨.bool o.result, o.told, w.setSet i o.after⟩

/-- A call that leaves the sets alone. -/
def World.ask (w : World) (a : Answer) : Step T := ⟨a, [], w⟩

/-- A call in a world. -/
def step (N : Numbering T) (w : World) : Op T → Step T
  | .add i t => w.mutate i ((w.sets i).add N t)
  | .remove i o => w.mutate i ((w.sets i).remove N o)
  | .addAll i j => w.mutate i ((w.sets i).addAll N (some (w.sets j)))
  | .retainAll i j => w.mutate i ((w.sets i).retainAll N (some (w.sets j)))
  | .removeAll i j => w.mutate i ((w.sets i).removeAll N (some (w.sets j)))
  | .clear i => ⟨.nothing, ((w.sets i).clear N).1, w.setSet i ((w.sets i).clear N).2⟩
  | .contains i o => w.ask (.bool ((w.sets i).contains N o))
  | .containsAll i j => w.ask (.bool ((w.sets i).containsAll (some (w.sets j))))
  | .size i => w.ask (.int (w.sets i).size)
  | .isEmpty i => w.ask (.bool (w.sets i).isEmpty)
  | .iterator k i => ⟨.nothing, [], w.setIterator k (i, iterator)⟩
  | .hasNext k =>
    let (found, it) := (w.sets (w.iterators k).1).hasNext (w.iterators k).2
    let answer := match found with
      | .ok b => .bool b
      | .error e => .thrown e
    ⟨answer, [], w.setIterator k ((w.iterators k).1, it)⟩
  | .iteratorRemove k =>
    let o := (w.sets (w.iterators k).1).iteratorRemove N (w.iterators k).2
    ⟨.nothing, o.told, w.setSet (w.iterators k).1 o.after⟩
  | .listeners i has => ⟨.nothing, [], w.setSet i { w.sets i with hasListeners := has }⟩

/-! ## Mathematical sets -/

/-- The set of indices of the set `i`. -/
def World.content (w : World) (i : Nat) : Finset Nat := members (w.sets i).bits

/-- The set a call is made on. -/
def Op.receiver (w : World) : Op T → Nat
  | .add i _ | .remove i _ | .addAll i _ | .retainAll i _ | .removeAll i _ | .clear i
  | .contains i _ | .containsAll i _ | .size i | .isEmpty i | .iterator _ i | .listeners i _ => i
  | .hasNext k | .iteratorRemove k => (w.iterators k).1

/-- The content the receiver should have after the call. -/
def Op.target (N : Numbering T) (w : World) : Op T → Finset Nat
  | .add i (some t) => insert (N.getIndex t) (w.content i)
  | .remove i (some t) => (w.content i).erase (N.getIndex t)
  | .addAll i j => w.content i ∪ w.content j
  | .retainAll i j => w.content i ∩ w.content j
  | .removeAll i j => w.content i \ w.content j
  | .clear _ => ∅
  | .iteratorRemove k =>
    if (w.iterators k).2.index < 0 then w.content (w.iterators k).1
    else (w.content (w.iterators k).1).erase (w.iterators k).2.index.toNat
  | op => w.content (op.receiver w)

/-- A mutating call says whether the set changes. -/
def Op.expected (N : Numbering T) (w : World) : Op T → Option Answer
  | .contains i (some t) => some (.bool (decide (N.getIndex t ∈ w.content i)))
  | .contains _ none => some (.bool false)
  | .containsAll i j => some (.bool (decide (w.content j ⊆ w.content i)))
  | .size i => some (.int (w.content i).card)
  | .isEmpty i => some (.bool (decide (w.content i = ∅)))
  | .hasNext _ => none
  | .iteratorRemove _ => some .nothing
  | .clear _ => some .nothing
  | .iterator _ _ => some .nothing
  | .listeners _ _ => some .nothing
  | op => some (.bool (decide (w.content (op.receiver w) ≠ op.target N w)))

/-- The call acts as the mathematical operation. -/
structure Conforms (N : Numbering T) (w : World) (op : Op T) : Prop where
  receiver : (step N w op).after.content (op.receiver w) = op.target N w
  others : ∀ i, i ≠ op.receiver w → (step N w op).after.content i = w.content i
  answer : ∀ a ∈ op.expected N w, (step N w op).answer = a
  tells : Tells N (w.sets (op.receiver w)).hasListeners (w.content (op.receiver w))
    (op.target N w) (step N w op).told

/-- No decision of the call is about the length of the arrays only. -/
def Clean (w : World) : Op T → Prop
  | .addAll i j | .containsAll i j =>
    ¬ ((w.sets i).bits.length < (w.sets j).bits.length ∧ w.content j ⊆ w.content i)
  | .retainAll i j =>
    ¬ ((w.sets j).bits.length < (w.sets i).bits.length ∧ w.content i ⊆ w.content j)
  | .removeAll i j =>
    Disjoint (w.content i) (w.content j) ∨
      ∀ x ∈ w.content i, x / 64 < (w.sets j).bits.length
  | _ => True

/-- `P` holds of every call of a run. -/
def Along (N : Numbering T) (P : World → Op T → Prop) : World → List (Op T) → Prop
  | _, [] => True
  | w, op :: ops => P w op ∧ Along N P (step N w op).after ops

/-! ## Conforming calls -/

variable {N : Numbering T} {w : World}

@[simp] theorem World.content_setSet (i : Nat) (s : BitSet) :
    (w.setSet i s).content i = members s.bits := by
  simp [World.content, World.setSet]

theorem World.content_setSet_of_ne {i j : Nat} (h : j ≠ i) (s : BitSet) :
    (w.setSet i s).content j = w.content j := by
  simp [World.content, World.setSet, h]

variable {op : Op T}

/-- A mutating call conforms exactly when its outcome meets the target. -/
theorem conforms_mutate_iff {o : Outcome T} (hstep : step N w op = w.mutate (op.receiver w) o)
    (hexpected : op.expected N w
      = some (.bool (decide (w.content (op.receiver w) ≠ op.target N w)))) :
    Conforms N w op ↔ Meets N (w.sets (op.receiver w)) (op.target N w) o := by
  constructor
  · intro h
    have hreceiver := h.receiver
    have hanswer := h.answer _ hexpected
    have htells := h.tells
    rw [hstep] at hreceiver hanswer htells
    rw [World.mutate, World.content_setSet] at hreceiver
    refine ⟨hreceiver, ?_, htells⟩
    have := Answer.bool.inj hanswer
    rw [this, decide_eq_true_iff]
    rfl
  · intro h
    refine ⟨?_, ?_, ?_, ?_⟩
    · rw [hstep, World.mutate, World.content_setSet]
      exact h.content
    · intro i hi
      rw [hstep, World.mutate, World.content_setSet_of_ne hi]
    · intro a ha
      rw [hexpected] at ha
      cases ha
      have hresult : o.result = decide (w.content (op.receiver w) ≠ op.target N w) := by
        rw [Bool.eq_iff_iff, decide_eq_true_iff]
        exact h.result
      rw [hstep, World.mutate, hresult]
    · rw [hstep]
      exact h.tells

theorem conforms_ask_iff {a : Answer} {expected : Answer}
    (hstep : step N w op = w.ask a) (htarget : op.target N w = w.content (op.receiver w))
    (hexpected : op.expected N w = some expected) : Conforms N w op ↔ a = expected := by
  constructor
  · intro h
    have hanswer := h.answer _ hexpected
    rw [hstep] at hanswer
    exact hanswer
  · intro h
    refine ⟨?_, ?_, ?_, ?_⟩
    · rw [hstep, htarget]
      rfl
    · intro i _
      rw [hstep]
      rfl
    · intro b hb
      rw [hexpected] at hb
      cases hb
      rw [hstep]
      exact h
    · rw [hstep, htarget]
      exact tells_nothing _ _

theorem conforms_of_same (hcon : ∀ i, (step N w op).after.content i = w.content i)
    (htarget : op.target N w = w.content (op.receiver w)) (htold : (step N w op).told = [])
    (hanswer : ∀ a ∈ op.expected N w, (step N w op).answer = a) : Conforms N w op := by
  refine ⟨?_, fun i _ => hcon i, hanswer, ?_⟩
  · rw [hcon, htarget]
  · rw [htold, htarget]
    exact tells_nothing _ _

theorem conforms_clear (i : Nat) : Conforms N w (.clear i) := by
  refine ⟨?_, ?_, ?_, clear_tells⟩
  · show ((w.setSet i _).content i) = ∅
    rw [World.content_setSet]
    exact clear_content
  · intro j hj
    exact World.content_setSet_of_ne hj _
  · intro a ha
    cases ha
    rfl

theorem conforms_listeners (i : Nat) (has : Bool) : Conforms N w (.listeners i has) := by
  apply conforms_of_same
  · intro j
    by_cases hj : j = i
    · subst hj
      show ((w.setSet j _).content j) = _
      rw [World.content_setSet]
      rfl
    · exact World.content_setSet_of_ne hj _
  · rfl
  · rfl
  · intro a ha
    cases ha
    rfl

theorem meets_iteratorRemove (k : Nat) :
    Meets N (w.sets (w.iterators k).1) ((Op.iteratorRemove k : Op T).target N w)
      ((w.sets (w.iterators k).1).iteratorRemove N (w.iterators k).2) := by
  by_cases hidx : (w.iterators k).2.index < 0
  · simp only [iteratorRemove, Op.target, if_pos hidx]
    exact meets_unchanged
  · simp only [iteratorRemove, Op.target, if_neg hidx]
    have hmeets := meets_remove (N := N) (s := w.sets (w.iterators k).1)
      (N.getT (w.iterators k).2.index.toNat)
    rw [N.getIndex_getT] at hmeets
    exact hmeets

theorem conforms_iteratorRemove (k : Nat) : Conforms N w (.iteratorRemove k) := by
  have hmeets := meets_iteratorRemove (N := N) (w := w) k
  refine ⟨?_, ?_, ?_, hmeets.tells⟩
  · show (w.setSet (w.iterators k).1 _).content (w.iterators k).1 = _
    rw [World.content_setSet]
    exact hmeets.content
  · intro i hi
    exact World.content_setSet_of_ne hi _
  · intro a ha
    cases ha
    rfl

/-- A call conforms exactly if it is clean. -/
theorem conforms_iff_clean (op : Op T) : Conforms N w op ↔ Clean w op := by
  cases op with
  | add i t =>
    rw [conforms_mutate_iff rfl (by cases t <;> rfl)]
    cases t with
    | none => exact ⟨fun _ => trivial, fun _ => meets_unchanged⟩
    | some t => exact ⟨fun _ => trivial, fun _ => meets_add t⟩
  | remove i t =>
    rw [conforms_mutate_iff rfl (by cases t <;> rfl)]
    cases t with
    | none => exact ⟨fun _ => trivial, fun _ => meets_unchanged⟩
    | some t => exact ⟨fun _ => trivial, fun _ => meets_remove t⟩
  | addAll i j =>
    rw [conforms_mutate_iff rfl rfl]
    exact meets_addAll_iff
  | retainAll i j =>
    rw [conforms_mutate_iff rfl rfl]
    exact meets_retainAll_iff
  | removeAll i j =>
    rw [conforms_mutate_iff rfl rfl]
    exact meets_removeAll_iff
  | clear i => exact ⟨fun _ => trivial, fun _ => conforms_clear i⟩
  | contains i t =>
    cases t with
    | none => exact ⟨fun _ => trivial, fun _ => (conforms_ask_iff rfl rfl rfl).mpr rfl⟩
    | some t =>
      refine ⟨fun _ => trivial, fun _ => (conforms_ask_iff rfl rfl rfl).mpr ?_⟩
      rw [contains_eq]
      rfl
  | containsAll i j =>
    rw [conforms_ask_iff rfl rfl rfl, Answer.bool.injEq, Bool.eq_iff_iff, containsAll_iff,
      decide_eq_true_iff]
    show _ ↔ ¬ ((w.sets i).bits.length < (w.sets j).bits.length ∧ w.content j ⊆ w.content i)
    simp only [World.content]
    constructor
    · rintro h ⟨hlen, hsub⟩
      exact (h.mpr hsub).2 hlen
    · intro h
      exact ⟨fun hsub => hsub.1, fun hsub => ⟨hsub, fun hlen => h ⟨hlen, hsub⟩⟩⟩
  | size i =>
    refine ⟨fun _ => trivial, fun _ => (conforms_ask_iff rfl rfl rfl).mpr ?_⟩
    rw [size_eq]
    rfl
  | isEmpty i =>
    refine ⟨fun _ => trivial, fun _ => (conforms_ask_iff rfl rfl rfl).mpr ?_⟩
    rw [isEmpty_eq]
    rfl
  | iterator k i =>
    refine ⟨fun _ => trivial, fun _ => conforms_of_same (fun _ => rfl) rfl rfl ?_⟩
    intro a ha
    cases ha
    rfl
  | hasNext k => exact ⟨fun _ => trivial, fun _ => conforms_of_same (fun _ => rfl) rfl rfl nofun⟩
  | iteratorRemove k => exact ⟨fun _ => trivial, fun _ => conforms_iteratorRemove k⟩
  | listeners i has => exact ⟨fun _ => trivial, fun _ => conforms_listeners i has⟩

/-- Every call is right exactly when every call is clean. -/
theorem run_conforms_iff (N : Numbering T) (ops : List (Op T)) :
    Along N (Conforms N) World.new ops ↔ Along N Clean World.new ops := by
  generalize World.new = w
  induction ops generalizing w with
  | nil => exact Iff.rfl
  | cons op ops ih =>
    rw [Along, Along, conforms_iff_clean, ih]

/-- Elements that are their own indices. -/
def natNumbering : Numbering Nat := ⟨id, id, fun _ => rfl, fun _ => rfl⟩

/-- `{0, 64}.removeAll({0})` loses 64 with its word. -/
theorem removeAll_not_conforms : ¬ Along natNumbering (Conforms natNumbering) World.new
      [.add 0 (some 0), .add 0 (some 64), .add 1 (some 0), .removeAll 0 1] := by
  rintro ⟨-, -, -, h, -⟩
  have hcon := h.receiver
  revert hcon
  decide

end OpenJfx.Css.BitSet
