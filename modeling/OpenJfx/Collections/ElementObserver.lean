/-
  OpenJfx.Collections.ElementObserver

  `ElementObserver`: the listeners a list with an extractor keeps on the observables of its
  elements.  `Obj` is the type of element objects, compared by identity, and `none` is null.  
  `listenerGenerator` makes a new listener for every call.
-/

import OpenJfx.Lib.JavaM
import Mathlib.Data.List.Count

namespace OpenJfx.Collections

open List Function

variable {attached : Prop} {Obj O : Type}

/-- An `InvalidationListener` made by `listenerGenerator`. -/
structure ElementListener (Obj : Type) where
  serial : Nat
  element : Obj
  deriving DecidableEq, Repr

/-- `ElementsMapElement`: the listener and the occurrence counter. -/
structure ElementsMapElement (Obj : Type) where
  listener : ElementListener Obj
  counter : Nat
  deriving DecidableEq, Repr

/-- The observer's map, and the listeners that each observable has. -/
structure ElementObserver (Obj O : Type) where
  elementsMap : Obj → Option (ElementsMapElement Obj)
  observers : O → List (ElementListener Obj)
  nextSerial : Nat

variable {s : ElementObserver Obj O} {e : Obj} {n : Nat}

namespace ElementObserver

def new : ElementObserver Obj O := ⟨fun _ => none, fun _ => [], 0⟩

variable [DecidableEq Obj] [DecidableEq O]

/-- `for (Observable o : os) o.addListener(listener)`. -/
def addListeners (listener : ElementListener Obj) (os : List O)
    (observers : O → List (ElementListener Obj)) : O → List (ElementListener Obj) :=
  os.foldl (fun obs o => Function.update obs o (obs o ++ [listener])) observers

/-- `for (Observable o : os) o.removeListener(listener)`. -/
def removeListeners (listener : ElementListener Obj) (os : List O)
    (observers : O → List (ElementListener Obj)) : O → List (ElementListener Obj) :=
  os.foldl (fun obs o => Function.update obs o ((obs o).erase listener)) observers

variable (extractor : Obj → List O)

/-- The element gets a listener of its own, or one more count. -/
def attachListener : Option Obj → JavaM (ElementObserver Obj O) Unit
  | none => pure ()
  | some e => modify fun s =>
    match s.elementsMap e with
    | some el =>
      { s with
        elementsMap := Function.update s.elementsMap e
          (some { el with counter := el.counter + 1 }) }
    | none =>
      let listener : ElementListener Obj := ⟨s.nextSerial, e⟩
      { elementsMap := Function.update s.elementsMap e (some ⟨listener, 1⟩)
        observers := addListeners listener (extractor e) s.observers
        nextSerial := s.nextSerial + 1 }

/-- Without an entry the code throws. -/
def detachListener : Option Obj → JavaM (ElementObserver Obj O) Unit
  | none => pure ()
  | some e => fun s =>
    match s.elementsMap e with
    | none => .error .nullPointer s
    | some el =>
      .ok ()
        { s with
          observers := removeListeners el.listener (extractor e) s.observers
          elementsMap := Function.update s.elementsMap e
            (if el.counter - 1 = 0 then none else some { el with counter := el.counter - 1 }) }

/-- The occurrence counter of `e`; 0 without an entry. -/
def counter (s : ElementObserver Obj O) (e : Obj) : Nat :=
  match s.elementsMap e with
  | none => 0
  | some el => el.counter

/-! ## The counters -/

variable {extractor} in
theorem counter_attachListener (s : ElementObserver Obj O) (x : Option Obj) :
    ∃ s', JavaM.Returns (attachListener extractor x) s () s' ∧
      ∀ e, s'.counter e = s.counter e + if x = some e then 1 else 0 := by
  cases x with
  | none => exact ⟨s, rfl, fun e => by simp⟩
  | some a =>
    refine ⟨_, rfl, fun e => ?_⟩
    by_cases he : e = a
    · subst he
      cases hmap : s.elementsMap e <;> simp [counter, hmap]
    · have hne : some a ≠ some e := by simpa using Ne.symm he
      rw [if_neg hne, Nat.add_zero]
      cases hmap : s.elementsMap a <;> simp [counter, he, hmap]

variable {extractor} in
theorem counter_detachListener {x : Option Obj} (hx : ∀ e, x = some e → 0 < s.counter e) :
    ∃ s', JavaM.Returns (detachListener extractor x) s () s' ∧
      ∀ e, s'.counter e = s.counter e - if x = some e then 1 else 0 := by
  cases x with
  | none => exact ⟨s, rfl, fun e => by simp⟩
  | some a =>
    have ha := hx a rfl
    cases hmap : s.elementsMap a with
    | none => simp [counter, hmap] at ha
    | some el =>
      refine ⟨{ s with
          observers := removeListeners el.listener (extractor a) s.observers
          elementsMap := Function.update s.elementsMap a
            (if el.counter - 1 = 0 then none else some { el with counter := el.counter - 1 }) },
        by simp only [JavaM.Returns, detachListener, hmap], fun e => ?_⟩
      by_cases he : e = a
      · subst he
        by_cases hone : el.counter - 1 = 0
        · simp [counter, hmap, hone]
        · simp [counter, hmap, hone]
      · have hne : some a ≠ some e := by simpa using Ne.symm he
        simp [counter, he, hne]

/-! ## Adding and removing one listener at several observables -/

omit [DecidableEq Obj] in
theorem addListeners_apply (listener : ElementListener Obj) (os : List O)
    (observers : O → List (ElementListener Obj)) (o : O) :
    addListeners listener os observers o = observers o ++ List.replicate (os.count o) listener := by
  induction os generalizing observers with
  | nil => simp [addListeners]
  | cons x os ih =>
    rw [addListeners, foldl_cons]
    refine (ih _).trans ?_
    by_cases hx : o = x
    · subst hx
      simp [replicate_succ]
    · simp [hx, Ne.symm hx]

theorem count_removeListeners (listener : ElementListener Obj) (os : List O)
    (observers : O → List (ElementListener Obj)) (o : O) (l : ElementListener Obj) :
    (removeListeners listener os observers o).count l
      = if l = listener then (observers o).count l - os.count o else (observers o).count l := by
  induction os generalizing observers with
  | nil => simp [removeListeners]
  | cons x os ih =>
    rw [removeListeners, foldl_cons]
    refine (ih _).trans ?_
    by_cases hx : o = x
    · subst hx
      by_cases hl : l = listener
      · subst hl
        simp [count_erase_self]
        omega
      · simp [hl, count_erase_of_ne hl]
    · simp [hx, Ne.symm hx]

theorem mem_removeListeners {listener : ElementListener Obj} {os : List O}
    {observers : O → List (ElementListener Obj)} {o : O} {l : ElementListener Obj}
    (h : l ∈ removeListeners listener os observers o) : l ∈ observers o := by
  rw [← count_pos_iff, count_removeListeners] at h
  rw [← count_pos_iff]
  split at h <;> omega

/-! ## What the observer knows of one element -/

/-- The entry of `e`, which occurs `n` times: the listeners for `e` are the entry's one, at each
    observable at most as often as the extractor lists it; just as often when `attached`. -/
def Entry (s : ElementObserver Obj O) (n : Nat) (attached : Prop) (e : Obj) : Prop :=
  match s.elementsMap e with
  | none => n = 0 ∧ ∀ o, ∀ l ∈ s.observers o, l.element ≠ e
  | some el => 0 < n ∧ el.counter = n ∧ el.listener.element = e ∧ ∀ o,
      (∀ l ∈ s.observers o, l.element = e → l = el.listener) ∧
      (s.observers o).count el.listener ≤ (extractor e).count o ∧
      (attached → (s.observers o).count el.listener = (extractor e).count o)

variable {extractor}

theorem Entry.of_zero {attached' : Prop}
    (h : Entry extractor s 0 attached e) : Entry extractor s 0 attached' e := by
  rw [Entry] at *
  split at h
  · exact h
  · exact absurd h.1 (Nat.lt_irrefl 0)

theorem Entry.mono {attached' : Prop}
    (h : Entry extractor s n attached e) (himp : attached' → attached) :
    Entry extractor s n attached' e := by
  rw [Entry] at *
  split at h
  · exact h
  · obtain ⟨hn, hc, hl, ho⟩ := h
    refine ⟨hn, hc, hl, fun o => ?_⟩
    obtain ⟨h1, h2, h3⟩ := ho o
    exact ⟨h1, h2, fun ha => h3 (himp ha)⟩

theorem Entry.attach (h : Entry extractor s n attached e) :
    ∃ s', JavaM.Returns (attachListener extractor (some e)) s () s' ∧
      Entry extractor s' (n + 1) (attached ∨ n = 0) e ∧
      ∀ e' m a, e' ≠ e → Entry extractor s m a e' → Entry extractor s' m a e' := by
  rw [Entry] at h
  cases hmap : s.elementsMap e with
  | none =>
    rw [hmap] at h
    obtain ⟨rfl, hnone⟩ := h
    refine ⟨_, rfl, ?_, ?_⟩
    · simp only [hmap, Entry, update_self, addListeners_apply]
      refine ⟨Nat.one_pos, by simp, by simp, fun o => ⟨?_, ?_, ?_⟩⟩
      · intro l hl he
        rcases mem_append.mp hl with hl | hl
        · exact absurd he (hnone o l hl)
        · exact eq_of_mem_replicate hl
      all_goals
        have hzero : (s.observers o).count ⟨s.nextSerial, e⟩ = 0 :=
          count_eq_zero.mpr fun hmem => hnone o _ hmem rfl
        simp [hzero]
    · intro e' m a hne h'
      simp only [hmap, Entry, update_of_ne hne, addListeners_apply] at h' ⊢
      -- the new listener is for another element
      have hmem : ∀ o l, l ∈ s.observers o ++ List.replicate ((extractor e).count o) ⟨s.nextSerial, e⟩ →
          l.element = e' → l ∈ s.observers o := by
        intro o l hl he
        rcases mem_append.mp hl with hl | hl
        · exact hl
        · rw [eq_of_mem_replicate hl] at he
          exact absurd he (Ne.symm hne)
      split at h'
      · exact ⟨h'.1, fun o l hl he => h'.2 o l (hmem o l hl he) he⟩
      · rename_i el hel
        obtain ⟨hm, hc, hl, ho⟩ := h'
        refine ⟨hm, hc, hl, fun o => ?_⟩
        obtain ⟨h1, h2, h3⟩ := ho o
        have hcnt : (s.observers o ++ List.replicate ((extractor e).count o)
            (⟨s.nextSerial, e⟩ : ElementListener Obj)).count el.listener
            = (s.observers o).count el.listener := by
          rw [count_append, count_replicate, if_neg, Nat.add_zero]
          intro heq
          rw [beq_iff_eq] at heq
          rw [← heq] at hl
          exact hne hl.symm
        rw [hcnt]
        exact ⟨fun l hl he => h1 l (hmem o l hl he) he, h2, h3⟩
  | some el =>
    rw [hmap] at h
    obtain ⟨hn, hc, hl, ho⟩ := h
    refine ⟨_, rfl, ?_, ?_⟩
    · simp only [hmap, Entry, update_self]
      refine ⟨Nat.succ_pos n, by rw [hc], hl, fun o => ?_⟩
      obtain ⟨h1, h2, h3⟩ := ho o
      exact ⟨h1, h2, fun ha => h3 (ha.resolve_right (by omega))⟩
    · intro e' m a hne h'
      simpa only [hmap, Entry, update_of_ne hne] using h'

theorem Entry.detach (h : Entry extractor s (n + 1) attached e) :
    ∃ s', JavaM.Returns (detachListener extractor (some e)) s () s' ∧
      Entry extractor s' n False e ∧
      ∀ e' m a, e' ≠ e → Entry extractor s m a e' → Entry extractor s' m a e' := by
  rw [Entry] at h
  cases hmap : s.elementsMap e with
  | none =>
    rw [hmap] at h
    exact absurd h.1 (Nat.succ_ne_zero n)
  | some el =>
    rw [hmap] at h
    obtain ⟨-, hc, hl, ho⟩ := h
    -- the listener is gone from every observable
    have hzero : ∀ o, (removeListeners el.listener (extractor e) s.observers o).count el.listener
        = 0 := by
      intro o
      rw [count_removeListeners, if_pos rfl]
      have := (ho o).2.1
      omega
    have hothers : ∀ o l, l ∈ removeListeners el.listener (extractor e) s.observers o →
        l.element ≠ e := by
      intro o l hmem he
      have heq := (ho o).1 l (mem_removeListeners hmem) he
      rw [heq] at hmem
      exact count_eq_zero.mp (hzero o) hmem
    refine ⟨{ s with
        observers := removeListeners el.listener (extractor e) s.observers
        elementsMap := Function.update s.elementsMap e
          (if el.counter - 1 = 0 then none else some { el with counter := el.counter - 1 }) }, ?_, ?_, ?_⟩
    · simp only [JavaM.Returns, detachListener, hmap]
    · simp only [Entry, update_self]
      rw [hc, Nat.add_sub_cancel]
      by_cases hn : n = 0
      · rw [if_pos hn]
        exact ⟨hn, hothers⟩
      · rw [if_neg hn]
        refine ⟨Nat.pos_of_ne_zero hn, rfl, hl, fun o => ⟨?_, ?_, False.elim⟩⟩
        · intro l hmem he
          exact absurd he (hothers o l hmem)
        · rw [hzero o]
          exact Nat.zero_le _
    · intro e' m a hne h'
      simp only [Entry, update_of_ne hne] at h' ⊢
      split at h'
      · exact ⟨h'.1, fun o l hmem => h'.2 o l (mem_removeListeners hmem)⟩
      · rename_i el' hel'
        obtain ⟨hm, hc', hl', ho'⟩ := h'
        refine ⟨hm, hc', hl', fun o => ?_⟩
        obtain ⟨h1, h2, h3⟩ := ho' o
        have hne' : el'.listener ≠ el.listener := by
          intro heq
          rw [heq, hl] at hl'
          exact hne hl'.symm
        rw [count_removeListeners, if_neg hne']
        exact ⟨fun l hmem => h1 l (mem_removeListeners hmem), h2, h3⟩

end ElementObserver

end OpenJfx.Collections
