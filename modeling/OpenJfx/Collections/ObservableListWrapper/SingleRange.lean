/-
  OpenJfx.Collections.ObservableListWrapper.SingleRange

  The edits of a list that replace one range by another, and exactly what they report:
  one sub-change over that range.  `ListEdit` names them; `exec_listEdit` says what
  they do to a list whose elements nobody observes.
-/

import OpenJfx.Collections.ObservableListWrapper.Notification

namespace OpenJfx.Collections

open List ElementCallbacks

variable {E : Type}

/-- The sub-change for `n` elements in place of `R` at `i`, if there is any. -/
def replaced (i : Nat) (R : List E) (n : Nat) : List (SubChange E) :=
  if R = [] ∧ n = 0 then [] else [⟨i, i + n, some R, SubChange.emptyPerm, false⟩]

theorem replaced_of_ne {i n : Nat} {R : List E} (h : ¬ (R = [] ∧ n = 0)) :
    replaced i R n = [⟨i, i + n, some R, SubChange.emptyPerm, false⟩] := if_neg h

/-! ## Recording one range -/

namespace ListChangeBuilder

open JavaM ObservableListWrapper

theorem recordRemove_replaced (i : Nat) (R : List E) (e : E) :
    recordRemove (i : Int) e (replaced i R 0) = .ok () (replaced i (R ++ [e]) 0) := by
  rw [replaced_of_ne (R := R ++ [e]) (by simp)]
  by_cases hR : R = []
  · subst hR
    rfl
  · rw [replaced_of_ne (by simp [hR])]
    simp [recordRemove, SubChange.addRemoved]

theorem recordAdd_replaced (i : Nat) (R : List E) (n : Nat) :
    recordAdd ((i + n : Nat) : Int) ((i + n : Nat) + 1) (replaced i R n) =
      replaced i R (n + 1) := by
  rw [replaced_of_ne (n := n + 1) (by simp)]
  by_cases hR : R = [] ∧ n = 0
  · obtain ⟨rfl, rfl⟩ := hR
    rfl
  · rw [replaced_of_ne hR]
    simp [recordAdd, Int.add_assoc]

/-- A builder that has recorded one range, with `lock` blocks open. -/
def noting (lock : Nat) (i : Nat) (R : List E) (n : Nat) : ListChangeBuilder E :=
  ⟨lock, replaced i R n, [], none⟩

theorem nextRemove_noting (lock i : Nat) (R : List E) (e : E) :
    Returns (nextRemove (i : Int) e) (noting (lock + 1) i R 0) ()
      (noting (lock + 1) i (R ++ [e]) 0) := by
  have hrec : Returns (onAddRemove (recordRemove (i : Int) e)) (noting (lock + 1) i R 0) ()
      (noting (lock + 1) i (R ++ [e]) 0) :=
    Returns.zoom (s := noting (lock + 1) i R 0) (recordRemove_replaced i R e)
  exact (checkState_returns (by simp [noting]; omega)).bind (hrec.bind rfl)

theorem nextRemoveAll_noting (lock i : Nat) (R L : List E) :
    Returns (nextRemoveAll (i : Int) L) (noting (lock + 1) i R 0) ()
      (noting (lock + 1) i (R ++ L) 0) := by
  have hloop : ∀ (L R : List E), Returns (L.forM (nextRemove (i : Int)))
      (noting (lock + 1) i R 0) () (noting (lock + 1) i (R ++ L) 0) := by
    intro L
    induction L with
    | nil =>
      intro R
      rw [append_nil]
      rfl
    | cons e L ih =>
      intro R
      have hrest := ih (R ++ [e])
      rw [append_assoc] at hrest
      exact (nextRemove_noting lock i R e).bind hrest
  exact (checkState_returns (by simp [noting]; omega)).bind (hloop L R)

theorem nextAdd_noting (lock i : Nat) (R : List E) (n : Nat) :
    Returns (nextAdd ((i + n : Nat) : Int) ((i + n : Nat) + 1)) (noting (lock + 1) i R n) ()
      (noting (lock + 1) i R (n + 1)) := by
  have hadd : ({ noting (lock + 1) i R n with
      addRemoveChanges := recordAdd ((i + n : Nat) : Int) ((i + n : Nat) + 1)
        (noting (lock + 1) i R n).addRemoveChanges
      updateChanges := splitUpdate ((i + n : Nat) : Int) ((i + n : Nat) + 1)
        (noting (lock + 1) i R n).updateChanges } : ListChangeBuilder E) =
      noting (lock + 1) i R (n + 1) := by
    simp only [noting, recordAdd_replaced]
    rfl
  refine (checkState_returns (by simp [noting]; omega)).bind ?_
  show Returns (modify _) _ _ _
  rw [← hadd]
  rfl

theorem endChange_noting (lock i : Nat) (R : List E) (n : Nat) :
    Returns endChange (noting (lock + 2) i R n) none (noting (lock + 1) i R n) := by
  have hpos : ¬ (noting (lock + 2) i R n).changeLock ≤ 0 := by
    show ¬ ((lock + 2 : Nat) : Int) ≤ 0
    omega
  have hopen : ¬ (noting (lock + 2) i R n).changeLock - 1 = 0 := by
    show ¬ ((lock + 2 : Nat) : Int) - 1 = 0
    omega
  have hlock : (noting (lock + 2) i R n).changeLock - 1 = (lock + 1 : Nat) := by
    show ((lock + 2 : Nat) : Int) - 1 = (lock + 1 : Nat)
    omega
  simp only [Returns, endChange, commit, if_neg hpos]
  rw [if_neg fun h => hopen h.1, hlock]
  rfl

theorem endChange_noting_one (i : Nat) (R : List E) (n : Nat) : Returns endChange (noting 1 i R n)
      (if R = [] ∧ n = 0 then none else some (replaced i R n)) new := by
  by_cases h : R = [] ∧ n = 0
  · obtain ⟨rfl, rfl⟩ := h
    rfl
  · simp only [Returns, endChange, commit, noting, replaced_of_ne h, if_neg h]
    rfl

end ListChangeBuilder

/-! ## The edits -/

/-- The edits that replace one range. -/
inductive ListEdit (E : Type) where
  | add (index : Int) (element : E)
  | addLast (element : E)
  | addAll (c : List E)
  | set (index : Int) (element : E)
  | setAll (col : List E)
  | remove (index : Int)
  | removeObject (equals : E → Bool)
  | clear

open ListEdit

namespace ListEdit

def toCall : ListEdit E → ObservableListWrapper.Call E
  | add index element => .add index element
  | addLast element => .addLast element
  | addAll c => .addAll c
  | set index element => .set index element
  | setAll col => .setAll col
  | remove index => .remove index
  | removeObject equals => .removeObject equals
  | clear => .clear

/-- The elements an edit is given to insert. -/
def inserted : ListEdit E → List E
  | add _ element | addLast element | set _ element => [element]
  | addAll c => c
  | setAll col => col
  | remove _ | removeObject _ | clear => []

end ListEdit

variable {m : JavaM (ListChangeBuilder E) Unit} {w' : ObservableListWrapper E Unit}

namespace ObservableListWrapper

open JavaM ListChangeBuilder

variable {w : ObservableListWrapper E Unit} {X R Y : List E} {e old : E} {i n lock : Nat}

theorem block_noting (hm : Returns m (noting 1 i [] 0) () (noting 1 i R n)) :
    Returns (block m) new (if R = [] ∧ n = 0 then none else some (replaced i R n)) new := by
  have hbegin : Returns ListChangeBuilder.beginChange (new : ListChangeBuilder E) ()
      (noting 1 i [] 0) := rfl
  exact hbegin.bind (hm.bind (endChange_noting_one i R n))

theorem block_noting_nested {R' : List E} {n' : Nat}
    (hm : Returns m (noting (lock + 2) i R n) () (noting (lock + 2) i R' n')) :
    Returns (block m) (noting (lock + 1) i R n) none (noting (lock + 1) i R' n') := by
  have hbegin : Returns ListChangeBuilder.beginChange (noting (lock + 1) i R n) ()
      (noting (lock + 2) i R n) := by
    have hlock : ((lock + 1 : Nat) : Int) + 1 = (lock + 2 : Nat) := by omega
    show EStateM.Result.ok () (⟨((lock + 1 : Nat) : Int) + 1, replaced i R n, [], none⟩ :
      ListChangeBuilder E) = _
    rw [hlock]
    rfl
  exact hbegin.bind (hm.bind (endChange_noting lock i R' n'))

/-- The listeners' part of a change. -/
def told (listening : Bool) (cs : List (SubChange E)) : List (FiredChange E) :=
  if listening = true ∧ cs ≠ [] then [cs] else []

theorem heard_replaced (w : ObservableListWrapper E Unit) (i : Nat) (R : List E) (n : Nat) :
    w.heard (if R = [] ∧ n = 0 then none else some (replaced i R n)) =
      told w.hasListeners (replaced i R n) := by
  by_cases h : R = [] ∧ n = 0
  · obtain ⟨rfl, rfl⟩ := h
    simp [heard, told, replaced]
  · rw [if_neg h, heard, told]
    simp [replaced_of_ne h]

/-- The list has the range `A` in place of `R` and says so. -/
def Replaces (w : ObservableListWrapper E Unit) (X R A Y : List E)
    (w' : ObservableListWrapper E Unit) : Prop :=
  w' = ⟨X ++ (A ++ Y), new, (), w.hasListeners,
    w.fired ++ told w.hasListeners (replaced X.length R A.length)⟩

theorem add_replaces (hb : w.builder = new) (hL : w.backingList = X ++ Y) :
    ∃ w', Returns (add none X.length e) w () w' ∧ Replaces w X [] [e] Y w' := by
  have hblock := block_noting (nextAdd_noting 0 X.length ([] : List E) 0)
  rw [← hb] at hblock
  refine ⟨_, add_returns (e := e) hL rfl hblock, ?_⟩
  rw [heard_replaced, hb]
  rfl

theorem remove_replaces (hb : w.builder = new) (hL : w.backingList = X ++ e :: Y) :
    ∃ w', Returns (remove none X.length) w e w' ∧ Replaces w X [e] [] Y w' := by
  have hblock := block_noting (nextRemove_noting 0 X.length ([] : List E) e)
  rw [← hb] at hblock
  refine ⟨_, remove_returns hL rfl hblock, ?_⟩
  rw [heard_replaced, hb]
  rfl

theorem set_replaces (hb : w.builder = new) (hL : w.backingList = X ++ old :: Y) :
    ∃ w', Returns (set none X.length e) w old w' ∧
      Replaces w X [old] [e] Y w' := by
  have hset : Returns (nextSet (X.length : Int) old) (noting 1 X.length [] 0) ()
      (noting 1 X.length [old] 1) :=
    (nextRemove_noting 0 X.length [] old).bind (nextAdd_noting 0 X.length [old] 0)
  have hblock := block_noting hset
  rw [← hb] at hblock
  refine ⟨_, set_returns (e := e) hL rfl rfl hblock, ?_⟩
  rw [heard_replaced, hb]
  rfl

theorem detachNone (L : List E) :
    Returns (L.forM (none : ElementCallbacks E Unit).detachListener) () () () := by
  induction L with
  | nil => rfl
  | cons e L ih => exact Returns.bind (a := ()) rfl ih

theorem clear_replaces (hb : w.builder = new) : ∃ w', Returns (clear none) w () w' ∧
      Replaces w [] w.backingList [] [] w' := by
  cases hl : w.hasListeners with
  | true =>
    have hblock := block_noting (nextRemoveAll_noting 0 0 [] w.backingList)
    rw [← hb, nil_append] at hblock
    refine ⟨_, clear_returns hl (detachNone w.backingList) hblock, ?_⟩
    rw [heard_replaced, hb]
    rfl
  | false =>
    refine ⟨_, clear_silent hl (detachNone w.backingList), ?_⟩
    rw [Replaces, hb, hl]
    simp [told]

/-- Inside a block that has recorded `n` elements in place of `R` at `i`. -/
structure Inside (w : ObservableListWrapper E Unit) (lock i : Nat) (R : List E) (n : Nat)
    (L : List E) (w' : ObservableListWrapper E Unit) : Prop where
  content : w'.backingList = L
  builder : w'.builder = noting lock i R n
  listening : w'.hasListeners = w.hasListeners
  unfired : w'.fired = w.fired

theorem Inside.addLast (e : E) (h : Inside w (lock + 1) i R n Y w') (hn : Y.length = i + n) :
    ∃ w'', Returns (addLast none e) w' () w'' ∧
      Inside w (lock + 1) i R (n + 1) (Y ++ [e]) w'' := by
  have hblock := block_noting_nested (nextAdd_noting (lock + 1) i R n)
  rw [← h.builder, ← hn] at hblock
  have hadd := @add_returns _ _ none w' Y [] e _ _ _ (by rw [h.content, append_nil]) rfl hblock
  refine ⟨_, Returns.bind (a := Y) ?_ hadd, rfl, rfl, h.listening, ?_⟩
  · rw [← h.content]
    rfl
  · simp [heard, h.unfired]

theorem Inside.addLasts (c : List E) (h : Inside w (lock + 1) i R n Y w') (hn : Y.length = i + n) :
    ∃ w'', Returns (c.forM (ObservableListWrapper.addLast none)) w' () w'' ∧
      Inside w (lock + 1) i R (n + c.length) (Y ++ c) w'' := by
  induction c generalizing Y n w' with
  | nil => exact ⟨w', rfl, by simpa using h⟩
  | cons e c ih =>
    obtain ⟨w1, hw1, h1⟩ := h.addLast e hn
    obtain ⟨w2, hw2, h2⟩ := ih h1 (by simp; omega)
    have hcnt : n + 1 + c.length = n + (e :: c).length := by
      rw [length_cons]
      omega
    rw [hcnt, append_assoc] at h2
    exact ⟨w2, hw1.bind hw2, h2⟩

theorem Inside.beginChange (h : Inside w (lock + 1) i R n Y w') :
    ∃ w'', Returns ObservableListWrapper.beginChange w' () w'' ∧
      Inside w (lock + 2) i R n Y w'' := by
  refine ⟨_, beginChange_returns, h.content, ?_, h.listening, h.unfired⟩
  rw [h.builder]
  have hlock : ((lock + 1 : Nat) : Int) + 1 = (lock + 2 : Nat) := by omega
  show (⟨((lock + 1 : Nat) : Int) + 1, replaced i R n, [], none⟩ : ListChangeBuilder E) = _
  rw [hlock]
  rfl

theorem Inside.endChange (h : Inside w (lock + 2) i R n Y w') :
    ∃ w'', Returns ObservableListWrapper.endChange w' () w'' ∧
      Inside w (lock + 1) i R n Y w'' := by
  have hend := endChange_noting lock i R n
  rw [← h.builder] at hend
  exact ⟨_, endChange_returns hend, h.content, rfl, h.listening, by simp [heard, h.unfired]⟩

theorem Inside.fires (h : Inside w 1 i R n Y w') : Returns ObservableListWrapper.endChange w' ()
      ⟨Y, new, (), w.hasListeners, w.fired ++ told w.hasListeners (replaced i R n)⟩ := by
  have hend := endChange_noting_one i R n
  rw [← h.builder] at hend
  have hret := endChange_returns hend
  rw [heard_replaced, h.listening, h.unfired, h.content] at hret
  exact hret

theorem inside_beginChange (hb : w.builder = new) (i : Nat) :
    ∃ w', Returns ObservableListWrapper.beginChange w () w' ∧
      Inside w 1 i [] 0 w.backingList w' := by
  refine ⟨_, beginChange_returns, rfl, ?_, rfl, rfl⟩
  rw [hb]
  rfl

theorem addAll_replaces (hb : w.builder = new) (c : List E) :
    ∃ w', Returns (addAll none c) w (!c.isEmpty) w' ∧
      Replaces w w.backingList [] c [] w' := by
  obtain ⟨w1, hw1, h1⟩ := inside_beginChange hb w.backingList.length
  obtain ⟨w2, hw2, h2⟩ := h1.addLasts c rfl
  refine ⟨_, hw1.bind (Returns.withFinally (hw2.bind rfl) h2.fires), ?_⟩
  rw [Replaces, append_nil, Nat.zero_add]

theorem Inside.clear (h : Inside w (lock + 1) 0 [] 0 Y w') :
    ∃ w'' R, Returns (ObservableListWrapper.clear none) w' () w'' ∧
      Inside w (lock + 1) 0 R 0 [] w'' ∧ (w.hasListeners = true → R = Y) := by
  cases hl : w.hasListeners with
  | true =>
    have hblock := block_noting_nested (nextRemoveAll_noting (lock + 1) 0 [] Y)
    rw [← h.builder, nil_append, ← h.content] at hblock
    refine ⟨_, Y, clear_returns (h.listening.trans hl) (detachNone w'.backingList) hblock,
      ⟨rfl, by rw [h.content], h.listening, by simp [heard, h.unfired]⟩, fun _ => rfl⟩
  | false =>
    exact ⟨_, [], clear_silent (h.listening.trans hl) (detachNone w'.backingList),
      ⟨rfl, h.builder, h.listening, h.unfired⟩, by simp⟩

theorem setAll_replaces (hb : w.builder = new) (col : List E) :
    ∃ w', Returns (setAll none col) w true w' ∧
      Replaces w [] w.backingList col [] w' := by
  obtain ⟨w1, hw1, h1⟩ := inside_beginChange hb 0
  obtain ⟨w2, R, hw2, h2, hR⟩ := h1.clear
  obtain ⟨w3, hw3, h3⟩ := h2.beginChange
  obtain ⟨w4, hw4, h4⟩ := h3.addLasts col rfl
  obtain ⟨w5, hw5, h5⟩ := h4.endChange
  have hadd : Returns (addAll none col) w2 (!col.isEmpty) w5 :=
    hw3.bind (Returns.withFinally (hw4.bind rfl) hw5)
  refine ⟨_, hw1.bind (Returns.withFinally (hw2.bind (hadd.bind rfl)) h5.fires), ?_⟩
  rw [Replaces, Nat.zero_add, append_nil]
  cases hl : w.hasListeners with
  | true =>
    rw [hR hl]
    rfl
  | false => simp [told]

/-- Every edit replaces one range, and records it. -/
theorem exec_listEdit (edit : ListEdit E) (hb : w.builder = new) :
    ∃ X R A Y, w.backingList = X ++ (R ++ Y) ∧
      prescribed w.backingList edit.toCall = X ++ (A ++ Y) ∧
      (A = edit.inserted ∨ (A = [] ∧ R = [])) ∧
      Replaces w X R A Y (exec (edit.toCall.run none) w) := by
  -- a call that fails replaces nothing by nothing
  have hfail : ∀ {m : JavaM (ObservableListWrapper E Unit) Unit}, exec m w = w →
      Replaces w w.backingList [] [] [] (exec m w) := by
    intro m h
    rw [h, Replaces]
    simp only [append_nil, length_nil, replaced, told]
    rw [← hb]
    simp
  have hnothing : w.backingList = w.backingList ++ ([] ++ []) := by simp
  cases edit with
  | add index element =>
    by_cases hv : ValidRange w.backingList index index
    · obtain ⟨X, R, Y, hL, rfl, hR, hon⟩ := hv.split
      obtain rfl : R = [] := length_eq_zero_iff.mp (by omega)
      obtain ⟨w', hw', h'⟩ := add_replaces (e := element) hb hL
      exact ⟨X, [], [element], Y, hL, by rw [toCall, prescribed, hon], .inl rfl,
        hw'.exec_eq.symm ▸ h'⟩
    · have hthrow := @add_throws _ _ none w element _ index (by rw [ValidRange] at hv; omega) rfl
      refine ⟨w.backingList, [], [], [], hnothing, ?_, .inr ⟨rfl, rfl⟩, hfail ?_⟩
      · rw [toCall, prescribed, onRange_of_not hv, ← hnothing]
      · exact exec_throws hthrow
  | addLast element =>
    obtain ⟨w', hw', h'⟩ := add_replaces (e := element) (X := w.backingList) (Y := []) hb (by simp)
    have hlast : Returns (addLast none element) w () w' :=
      Returns.bind (a := w.backingList) rfl hw'
    exact ⟨w.backingList, [], [element], [], hnothing, rfl, .inl rfl, hlast.exec_eq.symm ▸ h'⟩
  | addAll c =>
    obtain ⟨w', hw', h'⟩ := addAll_replaces hb c
    exact ⟨w.backingList, [], c, [], hnothing, by simp [toCall, prescribed], .inl rfl,
      hw'.discard.exec_eq.symm ▸ h'⟩
  | set index element =>
    by_cases hv : ValidRange w.backingList index (index + 1)
    · obtain ⟨X, old, Y, hL, rfl, hon⟩ := hv.split_one
      obtain ⟨w', hw', h'⟩ := set_replaces (e := element) hb hL
      exact ⟨X, [old], [element], Y, hL, by rw [toCall, prescribed, hon], .inl rfl,
        hw'.discard.exec_eq.symm ▸ h'⟩
    · have hthrow := @set_throws _ _ none w element index (by rw [ValidRange] at hv; omega)
      refine ⟨w.backingList, [], [], [], hnothing, ?_, .inr ⟨rfl, rfl⟩, hfail ?_⟩
      · rw [toCall, prescribed, onRange_of_not hv, ← hnothing]
      · exact (exec_discard _ w).trans (exec_throws hthrow)
  | setAll col =>
    obtain ⟨w', hw', h'⟩ := setAll_replaces hb col
    exact ⟨[], w.backingList, col, [], by simp, by simp [toCall, prescribed], .inl rfl,
      hw'.discard.exec_eq.symm ▸ h'⟩
  | remove index =>
    by_cases hv : ValidRange w.backingList index (index + 1)
    · obtain ⟨X, old, Y, hL, rfl, hon⟩ := hv.split_one
      obtain ⟨w', hw', h'⟩ := remove_replaces hb hL
      exact ⟨X, [old], [], Y, hL, by rw [toCall, prescribed, hon], .inl rfl,
        hw'.discard.exec_eq.symm ▸ h'⟩
    · have hthrow := @remove_throws _ _ none w index (by rw [ValidRange] at hv; omega)
      refine ⟨w.backingList, [], [], [], hnothing, ?_, .inr ⟨rfl, rfl⟩, hfail ?_⟩
      · rw [toCall, prescribed, onRange_of_not hv, ← hnothing]
      · exact (exec_discard _ w).trans (exec_throws hthrow)
  | removeObject equals =>
    cases hidx : w.backingList.findIdx? equals with
    | none =>
      have hnone : w.backingList.eraseP equals = w.backingList := by
        apply eraseP_of_forall_not
        simpa [findIdx?_eq_none_iff] using hidx
      have hret : Returns (removeObject none equals) w false w := by
        refine Returns.bind (a := w.backingList) rfl ?_
        rw [hidx]
        rfl
      refine ⟨w.backingList, [], [], [], hnothing, ?_, .inr ⟨rfl, rfl⟩, hfail ?_⟩
      · rw [toCall, prescribed, hnone, ← hnothing]
      · exact hret.discard.exec_eq
    | some i =>
      obtain ⟨X, e, Y, hL, hX, herase⟩ := eraseP_at hidx
      obtain ⟨w', hw', h'⟩ := remove_replaces hb hL
      have hret : Returns (removeObject none equals) w true w' := by
        refine Returns.bind (a := w.backingList) rfl ?_
        rw [hidx, ← hX]
        exact hw'.bind rfl
      exact ⟨X, [e], [], Y, hL, by rw [toCall, prescribed, herase]; rfl, .inl rfl,
        hret.discard.exec_eq.symm ▸ h'⟩
  | clear =>
    obtain ⟨w', hw', h'⟩ := clear_replaces hb
    exact ⟨[], w.backingList, [], [], by simp, rfl, .inl rfl, hw'.exec_eq.symm ▸ h'⟩

end ObservableListWrapper

end OpenJfx.Collections
