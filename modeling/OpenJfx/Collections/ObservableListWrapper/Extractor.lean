/-
  OpenJfx.Collections.ObservableListWrapper.Extractor

  A wrapper with an extractor keeps a listener on the observables of its elements (`Watches`,
  `Kept`).
-/

import OpenJfx.Collections.ObservableListWrapper.Steps
import OpenJfx.Collections.ElementObserver

namespace OpenJfx.Collections

open JavaM List ElementObserver

variable {index fromIndex toIndex : Int}

abbrev ExtractorList (Obj O : Type) := ObservableListWrapper (Option Obj) (ElementObserver Obj O)

namespace ExtractorList

open ObservableListWrapper

variable {Obj O : Type} [DecidableEq Obj] [DecidableEq O] (extractor : Obj → List O)

/-- The element observer of the list. -/
def observerOf : ElementCallbacks (Option Obj) (ElementObserver Obj O) :=
  ⟨attachListener extractor, detachListener extractor⟩

/-- The constructor: attaches to the elements of the backing list. -/
def attachAll (list : List (Option Obj)) : JavaM (ElementObserver Obj O) Unit :=
  list.forM (attachListener extractor)

/-- The new list. -/
def create (list : List (Option Obj)) : ExtractorList Obj O :=
  ⟨list, ListChangeBuilder.new, exec (attachAll extractor list) new, false, []⟩

/-- How many listeners for `e` are registered at `o`. -/
def registered (w : ExtractorList Obj O) (e : Obj) (o : O) : Nat :=
  (w.observer.observers o).countP fun l => l.element = e

/-- The counters are right, and exactly the elements that occur have their listener, at each
    observable as often as the extractor names it. -/
def Watches (w : ExtractorList Obj O) : Prop :=
  ∀ e, w.observer.counter e = w.backingList.count (some e) ∧
    ∀ o, registered w e o = if some e ∈ w.backingList then (extractor e).count o else 0

/-! ## When an operation is harmless -/

/-- A null, or an element that occurs once. -/
def Lone (L : List (Option Obj)) (x : Option Obj) : Prop := x = none ∨ L.count x = 1

/-- No element of `removed` but null stays in `rest`. -/
def NoneStays (removed rest : List (Option Obj)) : Prop := ∀ x ∈ removed, x = none ∨ x ∉ rest

/-- Writing the elements `xs` one after the other replaces lone elements only. -/
def ReplacesLone (L : List (Option Obj)) (index : Nat) : List (Option Obj) → Prop
  | [] => True
  | x :: xs => (∀ old ∈ L[index]?, Lone L old) ∧ ReplacesLone (L.set index x) (index + 1) xs

/-- The elements of `[fromIndex, toIndex)`. -/
def slice (L : List (Option Obj)) (fromIndex toIndex : Int) : List (Option Obj) :=
  (L.drop fromIndex.toNat).take (toIndex - fromIndex).toNat

/-- The elements outside `[fromIndex, toIndex)`. -/
def outside (L : List (Option Obj)) (fromIndex toIndex : Int) : List (Option Obj) :=
  L.take fromIndex.toNat ++ (L.drop fromIndex.toNat).drop (toIndex - fromIndex).toNat

/-- The call detaches and attaches no element that stays. -/
def Harmless (L : List (Option Obj)) : ObservableListWrapper.Call (Option Obj) → Prop
  | .add index element => (0 ≤ index ∧ index ≤ L.length) ∨ element = none
  | .set index _ => ∀ old ∈ at? L index, Lone L old
  | .remove index => ∀ old ∈ at? L index, Lone L old
  | .removeObject equals => ∀ i ∈ L.findIdx? equals, ∀ old ∈ L[i]?, Lone L old
  | .removeFromTo fromIndex toIndex =>
    0 ≤ fromIndex → NoneStays (slice L fromIndex toIndex) (outside L fromIndex toIndex)
  | .subListClear fromIndex toIndex =>
    NoneStays (slice L fromIndex toIndex) (outside L fromIndex toIndex)
  | .subListRemoveAll fromIndex toIndex contains =>
    NoneStays ((slice L fromIndex toIndex).filter contains) (outside L fromIndex toIndex)
  | .subListRetainAll fromIndex toIndex contains =>
    NoneStays ((slice L fromIndex toIndex).filter fun x => !contains x)
      (outside L fromIndex toIndex)
  | .subListSort fromIndex toIndex c =>
    ReplacesLone L fromIndex.toNat ((slice L fromIndex toIndex).mergeSort fun x y => c x y ≤ 0)
  | .addLast _ | .addAll _ | .addAllAt _ _ | .setAll _ | .removeAll _ | .retainAll _ | .clear
  | .sort _ | .subListAddAll _ _ _ _ => True

instance (L : List (Option Obj)) (x : Option Obj) : Decidable (Lone L x) :=
  inferInstanceAs (Decidable (_ ∨ _))

instance (removed rest : List (Option Obj)) : Decidable (NoneStays removed rest) :=
  inferInstanceAs (Decidable (∀ x ∈ removed, x = none ∨ x ∉ rest))

instance decidableReplacesLone : (L : List (Option Obj)) → (index : Nat) →
    (xs : List (Option Obj)) → Decidable (ReplacesLone L index xs)
  | _, _, [] => isTrue trivial
  | L, index, x :: xs =>
    have := decidableReplacesLone (L.set index x) (index + 1) xs
    inferInstanceAs (Decidable (_ ∧ _))

instance (L : List (Option Obj)) : (call : ObservableListWrapper.Call (Option Obj)) →
    Decidable (Harmless L call)
  | .add _ _ => inferInstanceAs (Decidable (_ ∨ _))
  | .set index _ | .remove index => inferInstanceAs (Decidable (∀ old ∈ at? L index, Lone L old))
  | .removeObject equals =>
    inferInstanceAs (Decidable (∀ i ∈ L.findIdx? equals, ∀ old ∈ L[i]?, Lone L old))
  | .removeFromTo fromIndex _ => inferInstanceAs (Decidable (0 ≤ fromIndex → NoneStays _ _))
  | .subListClear _ _ | .subListRemoveAll _ _ _ | .subListRetainAll _ _ _ =>
    inferInstanceAs (Decidable (NoneStays _ _))
  | .subListSort _ _ _ => inferInstanceAs (Decidable (ReplacesLone _ _ _))
  | .addLast _ | .addAll _ | .addAllAt _ _ | .setAll _ | .removeAll _ | .retainAll _ | .clear
  | .sort _ | .subListAddAll _ _ _ _ => isTrue trivial

/-! ## The invariant -/

/-- Inside `n` change blocks, the content is `L`, `P` is heard. -/
structure Kept (P : Obj → Prop) (n : Nat) (L : List (Option Obj)) (w : ExtractorList Obj O) :
    Prop where
  content : w.backingList = L
  observed : ∀ e, ElementObserver.Entry extractor w.observer (L.count (some e)) (P e) e
  sound : w.builder.Sound
  lock : w.builder.changeLock = n

variable {extractor} {P : Obj → Prop} {n : Nat} {L X Y : List (Option Obj)} {x old : Option Obj}
  {w : ExtractorList Obj O}

theorem Kept.weaken (h : Kept extractor (fun _ => True) n L w) : Kept extractor P n L w :=
  ⟨h.content, fun e => (h.observed e).mono fun _ => trivial, h.sound, h.lock⟩

theorem Kept.all (h : Kept extractor P n L w) (hP : ∀ e, some e ∈ L → P e) :
    Kept extractor (fun _ => True) n L w := by
  refine ⟨h.content, fun e => ?_, h.sound, h.lock⟩
  by_cases he : some e ∈ L
  · exact (h.observed e).mono fun _ => hP e he
  · have hobs := h.observed e
    rw [count_eq_zero.mpr he] at hobs ⊢
    exact hobs.of_zero

theorem Kept.watches (h : Kept extractor (fun _ => True) n L w) : Watches extractor w := by
  intro e
  have hobs := h.observed e
  rw [← h.content] at hobs
  rw [ElementObserver.Entry] at hobs
  rw [counter]
  cases hmap : w.observer.elementsMap e with
  | none =>
    rw [hmap] at hobs
    obtain ⟨hn, hnone⟩ := hobs
    refine ⟨hn.symm, fun o => ?_⟩
    rw [if_neg (count_eq_zero.mp hn), registered, countP_eq_zero]
    intro l hl
    simpa using hnone o l hl
  | some el =>
    rw [hmap] at hobs
    obtain ⟨hn, hc, hl, ho⟩ := hobs
    refine ⟨hc, fun o => ?_⟩
    obtain ⟨h1, -, h3⟩ := ho o
    rw [if_pos (count_pos_iff.mp hn), registered, ← h3 trivial, List.count]
    refine countP_congr ?_
    intro l hmem
    rw [beq_iff_eq, decide_eq_true_iff]
    exact ⟨h1 l hmem, fun heq => heq ▸ hl⟩

/-! ## The observer -/

variable {s : ElementObserver Obj O} {L' c : List (Option Obj)}

theorem attach_observed
    (h : ∀ e, ElementObserver.Entry extractor s (L.count (some e)) (P e) e) (hL' : L'.Perm
    (x :: L)) :
    ∃ s', Returns (attachListener extractor x) s () s' ∧
      ∀ e, ElementObserver.Entry extractor s' (L'.count (some e)) (P e) e := by
  cases x with
  | none =>
    refine ⟨s, rfl, fun e => ?_⟩
    rw [hL'.count_eq, count_cons_of_ne (by simp)]
    exact h e
  | some a =>
    obtain ⟨s', hs', hself, hother⟩ := (h a).attach
    refine ⟨s', hs', fun e => ?_⟩
    rw [hL'.count_eq]
    by_cases he : e = a
    · subst he
      rw [count_cons_self]
      exact hself.mono Or.inl
    · rw [count_cons_of_ne (by simpa using Ne.symm he)]
      exact hother e _ _ he (h e)

theorem detach_observed (h : ∀ e, ElementObserver.Entry extractor s (L'.count (some e)) (P e) e)
    (hL' : L'.Perm (x :: L)) (hx : ∀ e, x = some e → ¬ P e) :
    ∃ s', Returns (detachListener extractor x) s () s' ∧
      ∀ e, ElementObserver.Entry extractor s' (L.count (some e)) (P e) e := by
  cases x with
  | none =>
    refine ⟨s, rfl, fun e => ?_⟩
    have he := h e
    rwa [hL'.count_eq, count_cons_of_ne (by simp)] at he
  | some a =>
    have ha := h a
    rw [hL'.count_eq, count_cons_self] at ha
    obtain ⟨s', hs', hself, hother⟩ := ha.detach
    refine ⟨s', hs', fun e => ?_⟩
    by_cases he : e = a
    · subst he
      exact hself.mono fun hP => hx e rfl hP
    · have hobs := h e
      rw [hL'.count_eq, count_cons_of_ne (by simpa using Ne.symm he)] at hobs
      exact hother e _ _ he hobs

/-! ## One edit -/

theorem Kept.remove (h : Kept extractor P n (X ++ x :: Y) w) (hx : ∀ e, x = some e → ¬ P e) :
    ∃ w', Returns (remove (observerOf extractor) X.length) w x w' ∧
      Kept extractor P n (X ++ Y) w' := by
  obtain ⟨s, hs, hobs⟩ := detach_observed h.observed perm_middle hx
  obtain ⟨f, b, hb, hsound, hlock⟩ := block_sound h.sound h.lock
    (fun b hb hl => hb.nextRemove hl X.length x)
  exact ⟨_, remove_returns h.content hs hb, rfl, hobs, hsound, hlock⟩

theorem Kept.add (x : Option Obj) (h : Kept extractor P n (X ++ Y) w) :
    ∃ w', Returns (add (observerOf extractor) X.length x) w () w' ∧
      Kept extractor P n (X ++ x :: Y) w' := by
  obtain ⟨s, hs, hobs⟩ := attach_observed h.observed perm_middle
  obtain ⟨f, b, hb, hsound, hlock⟩ := block_sound h.sound h.lock
    (fun b hb hl => hb.nextAdd hl X.length (X.length + 1))
  exact ⟨_, add_returns h.content hs hb, rfl, hobs, hsound, hlock⟩

theorem Kept.set (x : Option Obj) (h : Kept extractor (fun _ => True) n (X ++ old :: Y) w)
    (hold : Lone (X ++ old :: Y) old) :
    ∃ w', Returns (set (observerOf extractor) X.length x) w old w' ∧
      Kept extractor (fun _ => True) n (X ++ x :: Y) w' := by
  -- between the two steps nothing is left of the old element
  have hdetach : ∃ s, Returns (detachListener extractor old) w.observer () s ∧
      ∀ e, ElementObserver.Entry extractor s ((X ++ Y).count (some e)) True e := by
    obtain ⟨s, hs, hobs⟩ := detach_observed (P := fun e => old ≠ some e)
      (h.weaken (P := fun e => old ≠ some e)).observed perm_middle (fun e he hne => hne he)
    refine ⟨s, hs, fun e => ?_⟩
    by_cases he : old = some e
    · have hzero : (X ++ Y).count (some e) = 0 := by
        have hone := hold.resolve_left (by rw [he]; simp)
        rw [(perm_middle (a := old)).count_eq, count_cons_self] at hone
        rw [← he]
        omega
      have hobs := hobs e
      rw [hzero] at hobs ⊢
      exact hobs.of_zero
    · exact (hobs e).mono fun _ => he
  obtain ⟨s, hs, hobs⟩ := hdetach
  obtain ⟨s', hs', hobs'⟩ := attach_observed (P := fun _ => True) (L := X ++ Y) hobs perm_middle
  obtain ⟨f, b, hb, hsound, hlock⟩ := block_sound h.sound h.lock
    (fun b hb hl => hb.nextSet hl X.length old)
  exact ⟨_, set_returns h.content hs hs' hb, rfl, hobs', hsound, hlock⟩

theorem Kept.beginChange (h : Kept extractor P n L w) :
    ∃ w', Returns beginChange w () w' ∧ Kept extractor P (n + 1) L w' := by
  refine ⟨_, beginChange_returns, h.content, h.observed,
    ⟨h.sound.hasRemoved, h.sound.noRemoved⟩, ?_⟩
  have hl := h.lock
  dsimp only
  omega

theorem Kept.endChange (h : Kept extractor P (n + 1) L w) :
    ∃ w', Returns endChange w () w' ∧ Kept extractor P n L w' := by
  have hl := h.lock
  obtain ⟨f, b, hb, hsound, hlock⟩ := h.sound.endChange (by omega)
  refine ⟨_, endChange_returns hb, h.content, h.observed, hsound, ?_⟩
  dsimp only
  omega

/-! ## Operations -/

variable (extractor) in
/-- All elements have their listeners, inside `n` change blocks. -/
def Safe (n : Nat) (w : ExtractorList Obj O) : Prop :=
  ∃ L, Kept extractor (fun _ => True) n L w

theorem Kept.block_ends {α : Type} {body : JavaM (ExtractorList Obj O) α}
    (h : Kept extractor P n L w)
    (hbody : ∀ w1, Kept extractor P (n + 1) L w1 → Ends body w1 (Safe extractor (n + 1))) :
    Ends (do ObservableListWrapper.beginChange; withFinally body ObservableListWrapper.endChange) w
      (Safe extractor n) := by
  obtain ⟨w1, hw1, h1⟩ := h.beginChange
  refine hw1.then_ends ((hbody w1 h1).withFinally ?_)
  rintro w2 ⟨L', h2⟩
  obtain ⟨w3, hw3, h3⟩ := h2.endChange
  exact ⟨w3, hw3, L', h3⟩

section

variable (h : Kept extractor (fun _ => True) n L w)
include h

theorem Kept.add_ends (hok : Harmless L (.add index x)) :
    Ends (ObservableListWrapper.add (observerOf extractor) index x) w (Safe extractor n) := by
  by_cases hi : 0 ≤ index ∧ index ≤ L.length
  · obtain ⟨i, rfl⟩ := Int.eq_ofNat_of_zero_le hi.1
    rw [← take_append_drop i L] at h
    obtain ⟨w', hw', h'⟩ := h.add x
    rw [length_take, Nat.min_eq_left (by omega)] at hw'
    exact hw'.ends ⟨_, h'⟩
  · obtain rfl := hok.resolve_left hi
    have hthrow := @add_throws _ _ (observerOf extractor) w none w.observer index
        (by rw [h.content]; omega) rfl
    rw [Ends, hthrow]
    exact ⟨L, h.content, h.observed, h.sound, h.lock⟩

theorem Kept.set_ends (hok : ∀ old ∈ at? L index, Lone L old) :
    Ends (ObservableListWrapper.set (observerOf extractor) index x) w (Safe extractor n) := by
  cases hat : at? L index with
  | some old =>
    have hlone := hok old hat
    obtain ⟨X, Y, rfl, rfl⟩ := at?_eq_some hat
    obtain ⟨w', hw', h'⟩ := h.set x hlone
    exact hw'.ends ⟨_, h'⟩
  | none =>
    rw [Ends, set_throws (by rw [h.content]; exact at?_eq_none hat)]
    exact ⟨L, h⟩

omit h in
theorem Kept.remove_lone (h : Kept extractor (fun _ => True) n (X ++ x :: Y) w)
    (hx : Lone (X ++ x :: Y) x) :
    ∃ w', Returns (ObservableListWrapper.remove (observerOf extractor) X.length) w x w' ∧
      Kept extractor (fun _ => True) n (X ++ Y) w' := by
  obtain ⟨w', hw', h'⟩ := (h.weaken (P := fun e => x ≠ some e)).remove (fun e he hne => hne he)
  refine ⟨w', hw', h'.all ?_⟩
  rintro e hmem rfl
  have hone := hx.resolve_left (by simp)
  rw [perm_middle.count_eq, count_cons_self] at hone
  have := count_pos_iff.mpr hmem
  omega

theorem Kept.remove_ends (hok : ∀ old ∈ at? L index, Lone L old) :
    Ends (ObservableListWrapper.remove (observerOf extractor) index) w (Safe extractor n) := by
  cases hat : at? L index with
  | some old =>
    have hlone := hok old hat
    obtain ⟨X, Y, rfl, rfl⟩ := at?_eq_some hat
    obtain ⟨w', hw', h'⟩ := h.remove_lone hlone
    exact hw'.ends ⟨_, h'⟩
  | none =>
    rw [Ends, remove_throws (by rw [h.content]; exact at?_eq_none hat)]
    exact ⟨L, h⟩

omit h in
theorem Kept.read (h : Kept extractor P n L w) :
    Returns (ObservableListWrapper.content : JavaM (ExtractorList Obj O) _) w L w := by
  rw [← h.content]
  rfl

theorem Kept.addLast_ends :
    Ends (addLast (observerOf extractor) x) w (Safe extractor n) := by
  refine h.read.then_ends (h.add_ends (Or.inl ?_))
  omega

theorem Kept.removeObject_ends {equals : Option Obj → Bool}
    (hok : ∀ i ∈ L.findIdx? equals, ∀ old ∈ L[i]?, Lone L old) :
    Ends (removeObject (observerOf extractor) equals) w (Safe extractor n) := by
  refine h.read.then_ends ?_
  cases hidx : L.findIdx? equals with
  | none => exact Returns.ends rfl ⟨L, h⟩
  | some i =>
    refine (h.remove_ends ?_).then_pure true
    simpa [at?] using hok i hidx

end

theorem detachAll_observed (h : ∀ e, ElementObserver.Entry extractor s (L.count (some e)) False e) :
    ∃ s', Returns (L.forM (detachListener extractor)) s () s' ∧
      ∀ e, ElementObserver.Entry extractor s' 0 True e := by
  induction L generalizing s with
  | nil => exact ⟨s, rfl, fun e => (h e).of_zero⟩
  | cons x L ih =>
    obtain ⟨s1, hs1, h1⟩ := detach_observed (P := fun _ => False) h (List.Perm.refl _)
      (fun _ _ => id)
    obtain ⟨s2, hs2, h2⟩ := ih h1
    exact ⟨s2, hs1.bind hs2, h2⟩

theorem Kept.clear (h : Kept extractor P n L w) :
    ∃ w', Returns (clear (observerOf extractor)) w () w' ∧
      Kept extractor (fun _ => True) n [] w' := by
  obtain ⟨s, hs, hobs⟩ := detachAll_observed fun e => (h.observed e).mono False.elim
  rw [← h.content] at hs
  have hemp : ∀ e, ElementObserver.Entry extractor s
      (([] : List (Option Obj)).count (some e)) True e := hobs
  cases hl : w.hasListeners with
  | false => exact ⟨_, clear_silent hl hs, rfl, hemp, h.sound, h.lock⟩
  | true =>
    obtain ⟨f, b, hb, hsound, hlock⟩ := block_sound h.sound h.lock
      (fun b hb hlock => hb.nextRemoveAll hlock 0 w.backingList)
    exact ⟨_, clear_returns hl hs hb, rfl, hemp, hsound, hlock⟩

section

variable (h : Kept extractor (fun _ => True) n L w)
include h

theorem Kept.removeRepeated_ends {k : Nat}
    (hok : 0 ≤ index → NoneStays ((L.drop index.toNat).take k)
      (L.take index.toNat ++ (L.drop index.toNat).drop k)) :
    Ends (removeRepeated (observerOf extractor) index k) w (Safe extractor n) := by
  by_cases hi : 0 ≤ index ∧ index ≤ L.length
  · obtain ⟨X, R, Y, hL, hX, hR, hY, hlen, hk⟩ := split_range hi.1 hi.2 k
    have hgone := hok hi.1
    rw [hX, hR, hY] at hgone
    subst hL hlen
    obtain ⟨w', hw', h'⟩ := @removeRepeated_rule _ _ _ (Kept extractor (fun e => some e ∉ R) n) X R
        (fun x hx Y w hw => hw.remove fun e he hP => hP (he ▸ hx)) _ _ h.weaken
    have hall : Kept extractor (fun _ => True) n (X ++ Y) w' := by
      refine h'.all ?_
      intro e hmem hR
      rcases hgone (some e) hR with hnone | hnot
      · cases hnone
      · exact hnot hmem
    rcases hk with rfl | ⟨hlt, rfl⟩
    · exact hw'.ends ⟨_, hall⟩
    · -- the list is empty behind the index before all are removed
      obtain ⟨d, rfl⟩ := Nat.exists_eq_add_of_lt hlt
      rw [Nat.add_assoc, Ends, removeRepeated_throws hw' (by rw [hall.content]; simp) (by omega)]
      exact ⟨_, hall⟩
  · cases k with
    | zero => exact Returns.ends rfl ⟨L, h⟩
    | succ k =>
      have hthrow := @removeRepeated_throws _ _ (observerOf extractor) w _ index 0 (k + 1) rfl
          (by rw [h.content]; omega) (by omega)
      rw [Nat.zero_add] at hthrow
      rw [Ends, hthrow]
      exact ⟨L, h⟩

theorem Kept.removeFromTo_ends (hok : Harmless L (.removeFromTo fromIndex toIndex)) :
    Ends (removeFromTo (observerOf extractor) fromIndex toIndex) w
      (fun w' => ∃ m, Safe extractor m w') := by
  obtain ⟨w1, hw1, h1⟩ := h.beginChange
  have hrep := h1.removeRepeated_ends (k := (toIndex - fromIndex).toNat) hok
  refine hw1.then_ends (Ends.bind (fun a w2 hw2 => ?_) (fun e w2 hw2 => ?_))
  · rw [Ends, show removeRepeated _ _ _ _ = _ from hw2] at hrep
    obtain ⟨L', h2⟩ := hrep
    obtain ⟨w3, hw3, h3⟩ := h2.endChange
    exact hw3.ends ⟨n, L', h3⟩
  · -- the exception leaves the change block open
    rw [Ends, hw2] at hrep
    exact ⟨n + 1, hrep⟩

theorem Kept.removeIf_ends {p : Option Obj → Bool} :
    Ends (removeIf (observerOf extractor) p) w (Safe extractor n) := by
  obtain ⟨w1, hw1, h1⟩ := h.beginChange
  obtain ⟨w2, hw2, h2⟩ := @removeMatching_rule _ _ _ (fun _ => Kept extractor
      (fun e => p (some e) = false) (n + 1)) p (fun A x Y w hp hw => hw.remove fun e he hP => by
      simp [he, hP] at hp) (fun A x Y w _ hw => hw) L [] _
      (by rw [append_nil]; exact h1.weaken)
  obtain ⟨w3, hw3, h3⟩ := h2.endChange
  refine Returns.ends (hw1.bind (h1.read.bind (hw2.bind (hw3.bind rfl)))) ⟨_, h3.all ?_⟩
  intro e he
  rw [append_nil, mem_filter, Bool.not_eq_true'] at he
  exact he.2

theorem Kept.addAll_ends :
    Ends (addAll (observerOf extractor) c) w (Safe extractor n) := by
  refine h.block_ends fun w1 h1 => ?_
  obtain ⟨w2, hw2, h2⟩ := addLast_rule
    (fun L w hw => hw.content) (fun X x Y w hw => hw.add x) (c := c) h1
  exact Returns.ends (hw2.bind rfl) ⟨_, h2⟩

theorem Kept.addAllAt_ends :
    Ends (addAllAt (observerOf extractor) index c) w (Safe extractor n) := by
  refine h.block_ends fun w1 h1 => h1.read.then_ends ?_
  by_cases hi : index < 0 ∨ index > L.length
  · rw [if_pos hi]
    exact ⟨L, h1⟩
  · rw [if_neg hi]
    obtain ⟨X, R, Y, rfl, -, -, -, hlen, -⟩ := @split_range _ L index (by omega) (by omega) 0
    obtain ⟨w2, hw2, h2⟩ := addEach_rule (fun X x Y w hw => hw.add x) (c := c) h1
    rw [hlen] at hw2
    exact Returns.ends (hw2.bind rfl) ⟨_, h2⟩

theorem Kept.setAll_ends {col : List (Option Obj)} :
    Ends (setAll (observerOf extractor) col) w (Safe extractor n) := by
  refine h.block_ends fun w1 h1 => ?_
  obtain ⟨w2, hw2, h2⟩ := h1.clear
  exact hw2.then_ends (h2.addAll_ends.then_pure true)

theorem Kept.sort_ends {c : Option Obj → Option Obj → Int} :
    Ends (sort c : JavaM (ExtractorList Obj O) Unit) w (Safe extractor n) := by
  refine h.read.then_ends ?_
  by_cases hL : L.isEmpty
  · rw [if_pos hL]
    exact Returns.ends rfl ⟨L, h⟩
  · rw [if_neg hL]
    refine Returns.ends (a := ()) rfl ⟨(SortHelper.sort c L).1, rfl, fun e => ?_, h.sound, h.lock⟩
    rw [(SortHelper.sort_perm c L).count_eq]
    exact h.observed e

/-! ### Through `subList` -/

theorem Kept.subList_ends {body : JavaM (ExtractorList Obj O) Unit}
    (hbody : 0 ≤ fromIndex → fromIndex ≤ toIndex → toIndex ≤ L.length →
      Ends body w (Safe extractor n)) :
    Ends (do subListRangeCheck fromIndex toIndex; body) w (Safe extractor n) := by
  rcases subListRangeCheck_cases w fromIndex toIndex with ⟨e, he, -⟩ | ⟨hret, h0, hle, hto⟩
  · refine Ends.bind (fun a t ht => ?_) (fun e' t ht => ?_)
    · rw [Returns, he] at ht
      cases ht
    · rw [he] at ht
      cases ht
      exact ⟨L, h⟩
  · rw [h.content] at hto
    exact hret.then_ends (hbody h0 hle hto)

theorem Kept.subListClear_ends (hok : Harmless L (.subListClear fromIndex toIndex)) :
    Ends (subListClear (observerOf extractor) fromIndex toIndex) w (Safe extractor n) := by
  refine h.subList_ends fun _ _ _ => h.block_ends fun w1 h1 => h1.block_ends fun w2 h2 => ?_
  exact h2.removeRepeated_ends fun _ => hok

theorem Kept.subListRemoveIf_ends {fromIndex toIndex : Int} {p : Option Obj → Bool}
    (hok : NoneStays ((slice L fromIndex toIndex).filter p) (outside L fromIndex toIndex)) :
    Ends (subListRemoveIf (observerOf extractor) fromIndex toIndex p) w (Safe extractor n) := by
  refine h.subList_ends fun h0 hle hto => h.block_ends fun w1 h1 => ?_
  obtain ⟨X, R, Y, hL, hX, hR, hY, hlen, hk⟩ :=
    split_range (L := L) h0 (by omega) (toIndex - fromIndex).toNat
  rw [slice, outside, hX, hR, hY] at hok
  subst hL hlen
  have hk : (toIndex - X.length).toNat = R.length := by
    rcases hk with hk | ⟨hlt, rfl⟩
    · exact hk
    · simp only [length_append, length_nil] at hto
      omega
  obtain ⟨w2, hw2, h2⟩ := @iteratorRemoveIf_rule _ _ _ (fun _ => Kept extractor
      (fun e => some e ∉ R.filter p) (n + 1)) p R (fun _ L w hw => hw.content)
      (fun X x hx Y w hp hw => hw.remove fun e he hP => hP (he ▸ mem_filter.mpr ⟨hx, hp⟩))
      (fun X x Y w _ hw => hw) X Y _ h1.weaken
  rw [hk, Int.toNat_natCast]
  refine hw2.ends ⟨_, h2.all ?_⟩
  -- what stays of the range does not satisfy `p`
  intro e hmem hrem
  rcases hok (some e) hrem with hnone | hnot
  · cases hnone
  · simp only [mem_append, mem_filter, Bool.not_eq_true'] at hmem hrem hnot
    grind

theorem Kept.subListAddAll_ends :
    Ends (subListAddAll (observerOf extractor) fromIndex toIndex index c) w (Safe extractor n) := by
  refine h.subList_ends fun _ _ _ => h.block_ends fun w1 h1 => ?_
  by_cases hi : index < 0 ∨ index > toIndex - fromIndex
  · rw [if_pos hi]
    exact ⟨L, h1⟩
  · rw [if_neg hi]
    by_cases hc : c.isEmpty
    · rw [if_pos hc]
      exact Returns.ends rfl ⟨L, h1⟩
    · rw [if_neg hc]
      exact h1.addAllAt_ends.discard

theorem Kept.setEach_ends {index : Nat} {xs : List (Option Obj)} (hok : ReplacesLone L index xs) :
    Ends (setEach (observerOf extractor) index xs) w (Safe extractor n) := by
  induction xs generalizing index L w with
  | nil => exact Returns.ends rfl ⟨L, h⟩
  | cons x xs ih =>
    obtain ⟨hlone, hrest⟩ := hok
    rw [setEach]
    cases hat : L[index]? with
    | some old =>
      have hold := hlone old hat
      obtain ⟨X, Y, rfl, hX⟩ := @at?_eq_some _ L index old (by simpa [at?] using hat)
      obtain rfl : index = X.length := by omega
      obtain ⟨w1, hw1, h1⟩ := h.set x hold
      rw [ListAt.set_seam] at hrest
      exact hw1.then_ends (ih h1 hrest)
    | none =>
      have hlen := List.getElem?_eq_none_iff.mp hat
      refine Ends.bind (fun a t ht => ?_) (fun e t ht => ?_)
      · rw [Returns, set_throws (by rw [h.content]; omega)] at ht
        cases ht
      · rw [set_throws (by rw [h.content]; omega)] at ht
        cases ht
        exact ⟨L, h⟩

theorem Kept.subListSort_ends {c : Option Obj → Option Obj → Int}
    (hok : Harmless L (.subListSort fromIndex toIndex c)) :
    Ends (subListSort (observerOf extractor) fromIndex toIndex c) w (Safe extractor n) := by
  refine h.subList_ends fun h0 hle hto => h.read.then_ends ?_
  have hset := h.setEach_ends hok
  rw [Int.toNat_of_nonneg h0] at hset
  exact hset

/-! ## Runs -/

theorem Kept.call_ends {call : ObservableListWrapper.Call (Option Obj)} (hok : Harmless L call) :
    Ends (call.run (observerOf extractor)) w (fun w' => ∃ m, Safe extractor m w') := by
  cases call with
  | removeFromTo fromIndex toIndex => exact h.removeFromTo_ends hok
  | add index element => exact (h.add_ends hok).mono fun _ hs => ⟨n, hs⟩
  | addLast element => exact h.addLast_ends.mono fun _ hs => ⟨n, hs⟩
  | set index element => exact (h.set_ends hok).discard.mono fun _ hs => ⟨n, hs⟩
  | remove index => exact (h.remove_ends hok).discard.mono fun _ hs => ⟨n, hs⟩
  | removeObject equals => exact (h.removeObject_ends hok).discard.mono fun _ hs => ⟨n, hs⟩
  | addAll c => exact h.addAll_ends.discard.mono fun _ hs => ⟨n, hs⟩
  | addAllAt index c => exact h.addAllAt_ends.discard.mono fun _ hs => ⟨n, hs⟩
  | setAll col => exact h.setAll_ends.discard.mono fun _ hs => ⟨n, hs⟩
  | removeAll contains | retainAll contains =>
    exact h.removeIf_ends.discard.mono fun _ hs => ⟨n, hs⟩
  | clear =>
    obtain ⟨w', hw', h'⟩ := h.clear
    exact hw'.ends ⟨n, [], h'⟩
  | sort c => exact h.sort_ends.mono fun _ hs => ⟨n, hs⟩
  | subListClear fromIndex toIndex => exact (h.subListClear_ends hok).mono fun _ hs => ⟨n, hs⟩
  | subListRemoveAll fromIndex toIndex contains | subListRetainAll fromIndex toIndex contains =>
    exact (h.subListRemoveIf_ends hok).mono fun _ hs => ⟨n, hs⟩
  | subListAddAll fromIndex toIndex index c =>
    exact h.subListAddAll_ends.mono fun _ hs => ⟨n, hs⟩
  | subListSort fromIndex toIndex c => exact (h.subListSort_ends hok).mono fun _ hs => ⟨n, hs⟩

end

variable (extractor) in
/-- One operation; `listening` says whether the list has listeners. An exception ends only this
    operation. -/
def step (w : ExtractorList Obj O) (op : Bool × ObservableListWrapper.Call (Option Obj)) :
    ExtractorList Obj O :=
  exec (op.2.run (observerOf extractor)) { w with hasListeners := op.1 }

variable (extractor) in
/-- A run of operations. -/
def run (w : ExtractorList Obj O) (ops : List (Bool × ObservableListWrapper.Call (Option Obj))) :
    ExtractorList Obj O :=
  ops.foldl (step extractor) w

variable (extractor) in
/-- Every operation of the run is harmless where it is made. -/
def HarmlessRun : ExtractorList Obj O → List (Bool × ObservableListWrapper.Call (Option Obj)) → Prop
  | _, [] => True
  | w, op :: ops => Harmless w.backingList op.2 ∧ HarmlessRun (step extractor w op) ops

instance decidableHarmlessRun : (w : ExtractorList Obj O) →
    (ops : List (Bool × ObservableListWrapper.Call (Option Obj))) → Decidable (HarmlessRun extractor w ops)
  | _, [] => isTrue trivial
  | w, op :: ops =>
    have := decidableHarmlessRun (step extractor w op) ops
    inferInstanceAs (Decidable (_ ∧ _))

theorem create_safe (list : List (Option Obj)) : Safe extractor 0 (create extractor list) := by
  have hall : ∀ (l L : List (Option Obj)) (s : ElementObserver Obj O),
      (∀ e, ElementObserver.Entry extractor s (L.count (some e)) True e) →
      ∃ s', Returns (attachAll extractor l) s () s' ∧
        ∀ e, ElementObserver.Entry extractor s' ((l ++ L).count (some e)) True e := by
    intro l
    induction l with
    | nil => exact fun L s h => ⟨s, rfl, h⟩
    | cons x l ih =>
      intro L s h
      obtain ⟨s1, hs1, h1⟩ := attach_observed (P := fun _ => True) h (List.Perm.refl (x :: L))
      obtain ⟨s2, hs2, h2⟩ := ih (x :: L) s1 h1
      refine ⟨s2, hs1.bind hs2, fun e => ?_⟩
      rw [cons_append, ← perm_middle.count_eq]
      exact h2 e
  obtain ⟨s', hs', h'⟩ := hall list [] new fun e => ⟨rfl, fun o l hl => by cases hl⟩
  refine ⟨list, rfl, fun e => ?_, ListChangeBuilder.sound_empty 0 none, rfl⟩
  have hexec : (create extractor list).observer = s' := by
    rw [create, exec, show attachAll extractor list _ = _ from hs']
  rw [hexec, ← append_nil list]
  exact h' e

/-- In every run of harmless operations the listeners are where they belong. -/
theorem watches_of_harmlessRun (extractor : Obj → List O) (list : List (Option Obj))
    (ops : List (Bool × ObservableListWrapper.Call (Option Obj)))
    (hrun : HarmlessRun extractor (create extractor list) ops) :
    Watches extractor (run extractor (create extractor list) ops) := by
  have hsafe : ∃ n, Safe extractor n (create extractor list) := ⟨0, create_safe list⟩
  -- the invariant holds at the start and every step keeps it
  generalize create extractor list = w at hsafe hrun
  induction ops generalizing w with
  | nil =>
    obtain ⟨n, L, h⟩ := hsafe
    exact h.watches
  | cons op ops ih =>
    obtain ⟨n, L, h⟩ := hsafe
    have hflag : Kept extractor (fun _ => True) n L { w with hasListeners := op.1 } :=
      { h with }
    exact ih _ (hflag.call_ends (h.content ▸ hrun.1)).exec hrun.2

/-- A run with a duplicate, a null and a call that throws. -/
theorem watches_of_harmlessRun_mixed :
    let extractor : Nat → List Nat := fun e => [e, e + 10]
    let ops : List (Bool × ObservableListWrapper.Call (Option Nat)) :=
      [(true, .add 0 (some 1)), (false, .remove 7),
      (true, .removeAll (· == some 1))]
    (run extractor (create extractor [some 1, none]) ops).backingList = [none] ∧
      Watches extractor (run extractor (create extractor [some 1, none]) ops) :=
  ⟨by decide +kernel, watches_of_harmlessRun _ _ _ (by decide +kernel)⟩

/-- One of two occurrences removed; a failed insertion. -/
theorem watches_fails :
    let extractor : Nat → List Nat := fun e => [e]
    (run extractor (create extractor [some 1, some 1]) [(true, .remove 0)]).backingList = [some 1] ∧
      registered (run extractor (create extractor [some 1, some 1]) [(true, .remove 0)]) 1 1 = 0 ∧
      ¬ Watches extractor (run extractor (create extractor [some 1, some 1]) [(true, .remove 0)]) ∧
      ¬ Watches extractor (run extractor (create extractor []) [(true, .add 5 (some 1))]) := by
  refine ⟨by decide, by decide, ?_, ?_⟩
  · intro h
    have := (h 1).2 1
    revert this
    decide
  · intro h
    have := (h 1).2 1
    revert this
    decide

end ExtractorList

end OpenJfx.Collections
