/-
  OpenJfx.Collections.ObservableListWrapper.Steps

  What one edit of an observable list does, and a rule for each loop of the bulk operations: an
  invariant that every edit keeps holds when the loop is done.
-/

import OpenJfx.Collections.ObservableListWrapper.Basic
import OpenJfx.Collections.ListChangeBuilder.Total

namespace OpenJfx.Collections.ObservableListWrapper

open List hiding modify

open JavaM

variable {E σ : Type} {obs : ElementCallbacks E σ}

/-! ## Reporting an edit -/

/-- `beginChange(); m; endChange();` on the builder. -/
def block (m : JavaM (ListChangeBuilder E) Unit) :
    JavaM (ListChangeBuilder E) (Option (FiredChange E)) := do
  ListChangeBuilder.beginChange
  m
  ListChangeBuilder.endChange

/-- What the listeners receive when the builder fires `f`. -/
def heard (w : ObservableListWrapper E σ) (f : Option (FiredChange E)) : List (FiredChange E) :=
  if w.hasListeners then f.toList else []

variable {w : ObservableListWrapper E σ} {f : Option (FiredChange E)} {b : ListChangeBuilder E}
  {m : JavaM (ListChangeBuilder E) Unit} {L : List E}

theorem beginChange_returns : Returns beginChange w ()
      { w with builder := { w.builder with changeLock := w.builder.changeLock + 1 } } := rfl

theorem endChange_returns (h : Returns ListChangeBuilder.endChange w.builder f b) :
    Returns endChange w () { w with builder := b, fired := w.fired ++ w.heard f } := by
  refine (h.zoom).bind ?_
  cases f with
  | none => simp [Returns, heard, Pure.pure, EStateM.pure]
  | some change =>
    unfold Returns fireChange heard
    refine congrArg (fun fired => EStateM.Result.ok () { w with builder := b, fired }) ?_
    change (if w.hasListeners then w.fired ++ [change] else w.fired) = _
    split <;> simp

theorem block_steps {b' : ListChangeBuilder E} (h : Returns (block m) b f b') :
    ∃ b1, m { b with changeLock := b.changeLock + 1 } = .ok () b1 ∧
      Returns ListChangeBuilder.endChange b1 f b' := by
  obtain ⟨_, b0, hbegin, h⟩ := h.of_bind
  cases hbegin
  obtain ⟨_, b1, hm, hend⟩ := h.of_bind
  exact ⟨b1, hm, hend⟩

theorem report_steps (h : Returns (block m) w.builder f b) :
    ∃ w1 w2, Returns beginChange w () w1 ∧ Returns (onBuilder m) w1 () w2 ∧
      Returns endChange w2 () { w with builder := b, fired := w.fired ++ w.heard f } := by
  obtain ⟨b1, hm, hend⟩ := block_steps h
  exact ⟨{ w with builder := { w.builder with changeLock := w.builder.changeLock + 1 } },
    { w with builder := b1 }, rfl, Returns.zoom hm,
    endChange_returns (w := { w with builder := b1 }) hend⟩

theorem block_sound {n : Nat} (h : b.Sound) (hlock : b.changeLock = n)
    (hm : ∀ b : ListChangeBuilder E, b.Sound → 0 < b.changeLock →
      ∃ b', Returns m b () b' ∧ b'.Sound ∧ b'.changeLock = b.changeLock) :
    ∃ f b', Returns (block m) b f b' ∧ b'.Sound ∧ b'.changeLock = n := by
  obtain ⟨b1, hb1, h1, hl1⟩ := h.beginChange
  obtain ⟨b2, hb2, h2, hl2⟩ := hm b1 h1 (by omega)
  obtain ⟨f, b3, hb3, h3, hl3⟩ := h2.endChange (by omega)
  exact ⟨f, b3, hb1.bind (hb2.bind hb3), h3, by omega⟩

/-! ## Indices -/

/-- The element at a Java index. -/
def at? (L : List E) (index : Int) : Option E := if 0 ≤ index then L[index.toNat]? else none

theorem at?_eq_some {index : Int} {x : E} (h : at? L index = some x) :
    ∃ X Y, L = X ++ x :: Y ∧ index = X.length := by
  rw [at?, Option.ite_none_right_eq_some] at h
  obtain ⟨hi, hx⟩ := h
  obtain ⟨hlt, rfl⟩ := List.getElem?_eq_some_iff.mp hx
  refine ⟨L.take index.toNat, L.drop (index.toNat + 1), ?_, ?_⟩
  · rw [← drop_eq_getElem_cons hlt, take_append_drop]
  · rw [length_take]
    omega

theorem at?_eq_none {index : Int} (h : at? L index = none) : index < 0 ∨ L.length ≤ index := by
  rw [at?] at h
  split at h
  · have := List.getElem?_eq_none_iff.mp h
    omega
  · omega

theorem split_range {L : List E} {index : Int} (h0 : 0 ≤ index) (h : index ≤ L.length) (k : Nat) :
    ∃ X R Y, L = X ++ (R ++ Y) ∧ L.take index.toNat = X ∧ (L.drop index.toNat).take k = R ∧
      (L.drop index.toNat).drop k = Y ∧ X.length = index ∧
      (k = R.length ∨ (R.length < k ∧ Y = [])) := by
  refine ⟨_, _, _, ?_, rfl, rfl, rfl, ?_, ?_⟩
  · rw [take_append_drop, take_append_drop]
  · rw [length_take]
    omega
  · rw [length_take]
    by_cases hk : k ≤ (L.drop index.toNat).length
    · exact Or.inl (by omega)
    · exact Or.inr ⟨by omega, drop_eq_nil_of_le (by omega)⟩

/-! ## One edit -/

section Edit

variable {w : ObservableListWrapper E σ} {X Y : List E} {e old : E} {s s' : σ}
  {f : Option (FiredChange E)} {b : ListChangeBuilder E}

theorem backingRemove_returns (hL : w.backingList = X ++ e :: Y) :
    Returns (backingRemove X.length) w e { w with backingList := X ++ Y } := by
  simp only [Returns, backingRemove, hL, Int.toNat_natCast]
  rw [if_pos (by omega)]
  simp [eraseIdx_append_of_length_le]

theorem backingRemove_throws {i : Int} (hi : i < 0 ∨ w.backingList.length ≤ i) :
    backingRemove i w = .error .indexOutOfBounds w := by
  have : (if 0 ≤ i then w.backingList[i.toNat]? else none) = none := by
    split
    · exact getElem?_eq_none (by omega)
    · rfl
  simp only [backingRemove, this]

theorem remove_returns (hL : w.backingList = X ++ e :: Y)
    (hs : Returns (obs.detachListener e) w.observer () s)
    (hb : Returns (block (ListChangeBuilder.nextRemove X.length e)) w.builder f b) :
    Returns (remove obs X.length) w e
      { w with backingList := X ++ Y, observer := s, builder := b,
               fired := w.fired ++ w.heard f } := by
  have hdo : Returns (doRemove obs X.length) w e { w with backingList := X ++ Y, observer := s } :=
    (backingRemove_returns hL).bind (Returns.bind (a := ()) (Returns.zoom hs) rfl)
  obtain ⟨w1, w2, h1, h2, h3⟩ :=
    report_steps (w := { w with backingList := X ++ Y, observer := s }) hb
  exact hdo.bind (h1.bind (h2.bind (h3.bind rfl)))

theorem remove_throws {i : Int} (hi : i < 0 ∨ w.backingList.length ≤ i) :
    remove obs i w = .error .indexOutOfBounds w := by
  simp only [remove, doRemove, Bind.bind, EStateM.bind, backingRemove_throws hi]

theorem backingAdd_returns (hL : w.backingList = X ++ Y) :
    Returns (backingAdd X.length e) w () { w with backingList := X ++ e :: Y } := by
  simp only [Returns, backingAdd, hL, Int.toNat_natCast, length_append]
  rw [if_pos (by omega), ListAt.insertIdx_seam]

theorem add_returns (hL : w.backingList = X ++ Y)
    (hs : Returns (obs.attachListener e) w.observer () s)
    (hb : Returns (block (ListChangeBuilder.nextAdd X.length (X.length + 1))) w.builder f b) :
    Returns (add obs X.length e) w ()
      { w with backingList := X ++ e :: Y, observer := s, builder := b,
               fired := w.fired ++ w.heard f } := by
  have hdo : Returns (doAdd obs X.length e) w ()
      { w with backingList := X ++ e :: Y, observer := s } :=
    Returns.bind (Returns.zoom hs) (backingAdd_returns (w := { w with observer := s }) hL)
  obtain ⟨w1, w2, h1, h2, h3⟩ :=
    report_steps (w := { w with backingList := X ++ e :: Y, observer := s }) hb
  exact hdo.bind (h1.bind (h2.bind h3))

theorem add_throws {i : Int} (hi : i < 0 ∨ w.backingList.length < i)
    (hs : Returns (obs.attachListener e) w.observer () s) :
    add obs i e w = .error .indexOutOfBounds { w with observer := s } := by
  have hatt : Returns (onObserver (obs.attachListener e)) w () { w with observer := s } :=
    Returns.zoom hs
  have hback : backingAdd i e { w with observer := s }
      = .error .indexOutOfBounds { w with observer := s } := by
    rw [backingAdd, if_neg]
    dsimp only
    omega
  rw [Returns] at hatt
  simp only [add, doAdd, Bind.bind, EStateM.bind, hatt, hback]

theorem backingSet_returns (hL : w.backingList = X ++ old :: Y) :
    Returns (backingSet X.length e) w old { w with backingList := X ++ e :: Y } := by
  simp only [Returns, backingSet, hL, Int.toNat_natCast]
  rw [if_pos (by omega), ListAt.getElem?_seam, ListAt.set_seam]

theorem set_returns (hL : w.backingList = X ++ old :: Y)
    (hs : Returns (obs.detachListener old) w.observer () s)
    (hs' : Returns (obs.attachListener e) s () s')
    (hb : Returns (block (ListChangeBuilder.nextSet X.length old)) w.builder f b) :
    Returns (set obs X.length e) w old
      { w with backingList := X ++ e :: Y, observer := s', builder := b,
               fired := w.fired ++ w.heard f } := by
  have hdo : Returns (doSet obs X.length e) w old
      { w with backingList := X ++ e :: Y, observer := s' } :=
    (backingSet_returns hL).bind (Returns.bind (a := ()) (Returns.zoom hs)
      (Returns.bind (a := ()) (Returns.zoom hs') rfl))
  obtain ⟨w1, w2, h1, h2, h3⟩ :=
    report_steps (w := { w with backingList := X ++ e :: Y, observer := s' }) hb
  exact hdo.bind (h1.bind (h2.bind (h3.bind rfl)))

theorem set_throws {i : Int} (hi : i < 0 ∨ w.backingList.length ≤ i) :
    set obs i e w = .error .indexOutOfBounds w := by
  have hnone : (if 0 ≤ i then w.backingList[i.toNat]? else none) = none := by
    split
    · exact getElem?_eq_none (by omega)
    · rfl
  simp only [set, doSet, Bind.bind, EStateM.bind, backingSet, hnone]

theorem detachAll_returns (hs : Returns (L.forM obs.detachListener) w.observer () s) :
    Returns (L.forM fun e => onObserver (obs.detachListener e)) w () { w with observer := s } := by
  induction L generalizing w with
  | nil =>
    cases hs
    rfl
  | cons e L ih =>
    obtain ⟨_, s1, he, hs⟩ := hs.of_bind
    exact Returns.bind (Returns.zoom (t := s1) he) (ih (w := { w with observer := s1 }) hs)

theorem clear_returns (hl : w.hasListeners = true)
    (hs : Returns (w.backingList.forM obs.detachListener) w.observer () s)
    (hb : Returns (block (ListChangeBuilder.nextRemoveAll 0 w.backingList)) w.builder f b) :
    Returns (clear obs) w ()
      { w with backingList := [], observer := s, builder := b, fired := w.fired ++ w.heard f } := by
  have hget : Returns (get : JavaM (ObservableListWrapper E σ) _) w w w := rfl
  refine hget.bind ((detachAll_returns hs).bind ?_)
  obtain ⟨L, builder, o, listening, fired⟩ := w
  cases hl
  -- the backing list is cleared between `nextRemove` and `endChange`
  obtain ⟨b1, hm, hend⟩ := block_steps hb
  have hend' := endChange_returns (w := ⟨[], b1, s, true, fired⟩) hend
  have hbegin : Returns beginChange (⟨L, builder, s, true, fired⟩ : ObservableListWrapper E σ) ()
      ⟨L, { builder with changeLock := builder.changeLock + 1 }, s, true, fired⟩ := rfl
  have hemp : Returns (modify fun w => { w with backingList := [] })
      (⟨L, b1, s, true, fired⟩ : ObservableListWrapper E σ) () ⟨[], b1, s, true, fired⟩ := rfl
  exact hbegin.bind (Returns.bind (a := ()) (Returns.zoom hm) (hemp.bind hend'))

theorem clear_silent (hl : w.hasListeners = false)
    (hs : Returns (w.backingList.forM obs.detachListener) w.observer () s) :
    Returns (clear obs) w () { w with backingList := [], observer := s } := by
  have hget : Returns (get : JavaM (ObservableListWrapper E σ) _) w w w := rfl
  refine hget.bind ((detachAll_returns hs).bind ?_)
  rw [hl]
  rfl

end Edit

theorem subListRangeCheck_cases (w : ObservableListWrapper E σ) (fromIndex toIndex : Int) :
    (∃ e, subListRangeCheck fromIndex toIndex w = .error e w ∧
      ¬ (0 ≤ fromIndex ∧ fromIndex ≤ toIndex ∧ toIndex ≤ w.backingList.length)) ∨
    (Returns (subListRangeCheck fromIndex toIndex) w () w ∧
      0 ≤ fromIndex ∧ fromIndex ≤ toIndex ∧ toIndex ≤ w.backingList.length) := by
  by_cases h1 : fromIndex < 0
  · refine Or.inl ⟨.indexOutOfBounds, ?_, by omega⟩
    rw [subListRangeCheck, if_pos h1]
    rfl
  rw [subListRangeCheck, if_neg h1]
  by_cases h2 : toIndex > w.backingList.length
  · refine Or.inl ⟨.indexOutOfBounds, ?_, by omega⟩
    show (if toIndex > w.backingList.length then _ else _ : JavaM _ _) w = _
    rw [if_pos h2]
    rfl
  by_cases h3 : fromIndex > toIndex
  · refine Or.inl ⟨.illegalArgument, ?_, by omega⟩
    show (if toIndex > w.backingList.length then _ else _ : JavaM _ _) w = _
    rw [if_neg h2, if_pos h3]
    rfl
  · refine Or.inr ⟨?_, by omega⟩
    show (if toIndex > w.backingList.length then _ else _ : JavaM _ _) w = _
    rw [if_neg h2, if_neg h3]
    rfl

/-! ## Loops of removals -/

section Remove

theorem removeRepeated_rule {Inv : List E → ObservableListWrapper E σ → Prop} {X R : List E}
    (hremove : ∀ e ∈ R, ∀ Y w, Inv (X ++ e :: Y) w →
      ∃ w', Returns (remove obs X.length) w e w' ∧ Inv (X ++ Y) w')
    {Y : List E} {w : ObservableListWrapper E σ} (h : Inv (X ++ (R ++ Y)) w) :
    ∃ w', Returns (removeRepeated obs X.length R.length) w () w' ∧ Inv (X ++ Y) w' := by
  induction R generalizing w with
  | nil => exact ⟨w, rfl, h⟩
  | cons e R ih =>
    obtain ⟨w1, hw1, h1⟩ := hremove e mem_cons_self (R ++ Y) w h
    obtain ⟨w2, hw2, h2⟩ := ih (fun e' he' => hremove e' (.tail _ he')) h1
    exact ⟨w2, hw1.bind hw2, h2⟩

theorem removeRepeated_throws {w w' : ObservableListWrapper E σ} {i : Int} {n k : Nat}
    (h : Returns (removeRepeated obs i n) w () w') (hi : i < 0 ∨ w'.backingList.length ≤ i)
    (hk : 0 < k) : removeRepeated obs i (n + k) w = .error .indexOutOfBounds w' := by
  induction n generalizing w with
  | zero =>
    cases h
    obtain ⟨k, rfl⟩ := Nat.exists_eq_succ_of_ne_zero (Nat.ne_of_gt hk)
    rw [Nat.zero_add, removeRepeated]
    simp only [Bind.bind, EStateM.bind, remove_throws hi]
  | succ n ih =>
    rw [Nat.add_right_comm, removeRepeated]
    simp only [Returns, removeRepeated, Bind.bind, EStateM.bind] at h ⊢
    split at h
    · exact ih h
    · cases h

theorem matching_concat (p : E → Bool) (A : List E) (e : E) :
    matching p (A ++ [e]) = matching p A ++ if p e then [A.length] else [] := by
  rw [matching, length_append, length_singleton, range_succ, filter_append, matching]
  congr 1
  · refine filter_congr ?_
    intro i hi
    rw [getElem?_append_left (mem_range.mp hi)]
  · cases hp : p e <;> simp [hp]

theorem removeMatching_rule {Inv : Nat → List E → ObservableListWrapper E σ → Prop} {p : E → Bool}
    (hremove : ∀ A e Y w, p e = true → Inv (A.length + 1) (A ++ e :: Y) w →
      ∃ w', Returns (remove obs A.length) w e w' ∧ Inv A.length (A ++ Y) w')
    (hkeep : ∀ A e Y w, p e = false → Inv (A.length + 1) (A ++ e :: Y) w →
      Inv A.length (A ++ e :: Y) w)
    {A Y : List E} {w : ObservableListWrapper E σ} (h : Inv A.length (A ++ Y) w) :
    ∃ w', Returns ((matching p A).reverse.forM fun (cur : Nat) => discard (remove obs cur)) w () w' ∧
      Inv 0 (A.filter (fun e => !p e) ++ Y) w' := by
  induction A using List.reverseRecOn generalizing Y w with
  | nil => exact ⟨w, rfl, h⟩
  | append_singleton A e ih =>
    rw [length_append, length_singleton, append_assoc, singleton_append] at h
    rw [matching_concat, filter_append]
    cases hp : p e with
    | true =>
      obtain ⟨w1, hw1, h1⟩ := hremove A e Y w hp h
      obtain ⟨w2, hw2, h2⟩ := ih h1
      refine ⟨w2, ?_, by simpa [hp] using h2⟩
      rw [if_pos rfl, reverse_append]
      exact Returns.bind (a := ()) (Returns.discard hw1) hw2
    | false =>
      obtain ⟨w2, hw2, h2⟩ := ih (hkeep A e Y w hp h)
      refine ⟨w2, ?_, by simpa [hp] using h2⟩
      simpa using hw2

/-- An iterator removes behind itself; `Inv k`: it stands at `k`. -/
theorem iteratorRemoveIf_rule {Inv : Nat → List E → ObservableListWrapper E σ → Prop}
    {p : E → Bool} {R : List E} (hcon : ∀ k L w, Inv k L w → w.backingList = L)
    (hremove : ∀ X, ∀ e ∈ R, ∀ Y w, p e = true → Inv X.length (X ++ e :: Y) w →
      ∃ w', Returns (remove obs X.length) w e w' ∧ Inv X.length (X ++ Y) w')
    (hkeep : ∀ X e Y w, p e = false → Inv X.length (X ++ e :: Y) w →
      Inv (X.length + 1) (X ++ e :: Y) w)
    {X Y : List E} {w : ObservableListWrapper E σ} (h : Inv X.length (X ++ (R ++ Y)) w) :
    ∃ w', Returns (iteratorRemoveIf obs p R.length X.length) w () w' ∧
      Inv (X.length + (R.filter fun e => !p e).length)
        (X ++ ((R.filter fun e => !p e) ++ Y)) w' := by
  induction R generalizing X w with
  | nil => exact ⟨w, rfl, h⟩
  | cons e R ih =>
    have hget : w.backingList[X.length]? = some e := by
      rw [hcon _ _ _ h]
      exact ListAt.getElem?_seam X e (R ++ Y)
    have hread : Returns (content : JavaM (ObservableListWrapper E σ) _) w w.backingList w := rfl
    have hremove' := fun X e' he' => hremove X e' (.tail _ he')
    cases hp : p e with
    | true =>
      obtain ⟨w1, hw1, h1⟩ := hremove X e mem_cons_self (R ++ Y) w hp h
      obtain ⟨w2, hw2, h2⟩ := ih hremove' h1
      refine ⟨w2, hread.bind ?_, by simpa [hp] using h2⟩
      rw [hget, Option.any_some, hp, if_pos rfl]
      exact hw1.bind hw2
    | false =>
      have hX : (X ++ [e]).length = X.length + 1 := by simp
      obtain ⟨w2, hw2, h2⟩ := ih (X := X ++ [e]) (w := w) hremove' (by
        rw [hX, append_assoc, singleton_append]
        exact hkeep X e (R ++ Y) w hp h)
      refine ⟨w2, hread.bind ?_, ?_⟩
      · rw [hget, Option.any_some, hp, if_neg (by decide), ← hX]
        exact hw2
      · simpa [hp, Nat.add_assoc, Nat.add_comm 1] using h2

end Remove

/-! ## Loops of additions -/

section Add

variable {Inv : List E → ObservableListWrapper E σ → Prop}

theorem addEach_rule (hadd : ∀ X e Y w, Inv (X ++ Y) w →
      ∃ w', Returns (add obs X.length e) w () w' ∧ Inv (X ++ e :: Y) w')
    {c X Y : List E} {w : ObservableListWrapper E σ} (h : Inv (X ++ Y) w) :
    ∃ w', Returns (addEach obs X.length c) w () w' ∧ Inv (X ++ (c ++ Y)) w' := by
  induction c generalizing X w with
  | nil => exact ⟨w, rfl, h⟩
  | cons e c ih =>
    obtain ⟨w1, hw1, h1⟩ := hadd X e Y w h
    obtain ⟨w2, hw2, h2⟩ := ih (X := X ++ [e]) (w := w1) (by simpa using h1)
    refine ⟨w2, hw1.bind ?_, by simpa using h2⟩
    simpa using hw2

theorem addLast_rule (hcon : ∀ L w, Inv L w → w.backingList = L)
    (hadd : ∀ X e Y w, Inv (X ++ Y) w →
      ∃ w', Returns (add obs X.length e) w () w' ∧ Inv (X ++ e :: Y) w')
    {c L : List E} {w : ObservableListWrapper E σ} (h : Inv L w) :
    ∃ w', Returns (c.forM (addLast obs)) w () w' ∧ Inv (L ++ c) w' := by
  induction c generalizing L w with
  | nil => exact ⟨w, rfl, by simpa using h⟩
  | cons e c ih =>
    obtain ⟨w1, hw1, h1⟩ := hadd L e [] w (by simpa using h)
    obtain ⟨w2, hw2, h2⟩ := ih h1
    have hlast : Returns (addLast obs e) w () w1 := by
      have hread : Returns (content : JavaM (ObservableListWrapper E σ) _) w L w :=
        (hcon L w h) ▸ rfl
      exact hread.bind hw1
    exact ⟨w2, hlast.bind hw2, by simpa using h2⟩

end Add

end OpenJfx.Collections.ObservableListWrapper
