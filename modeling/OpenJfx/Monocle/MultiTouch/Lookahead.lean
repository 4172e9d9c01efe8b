/-
  OpenJfx.Monocle.MultiTouch.Lookahead

  What `LookaheadTouchFilter` lets through in a pulse.

  The filter holds back the last state.  It is modifiable just when it can be
  folded with the state before it, so the next state replaces it just when it
  can be folded with both.
-/

import OpenJfx.Monocle.MultiTouch.Basic

namespace OpenJfx.Monocle

open LookaheadTouchFilter

theorem TouchState.canBeFoldedWith_comm (ts other : TouchState) (ignoreIDs : Bool) :
    ts.canBeFoldedWith other ignoreIDs = other.canBeFoldedWith ts ignoreIDs := by
  simp only [canBeFoldedWith, ne_comm (a := other.points.length),
    eq_comm (a := other.points.map Point.id)]

variable {f : LookaheadTouchFilter} {before : Option TouchState} {state : TouchState}

namespace LookaheadTouchFilter

/-- States in objects of their own; those not consumed. -/
def filterAll (f : LookaheadTouchFilter) : List TouchState → LookaheadTouchFilter × List TouchState
  | [] => (f, [])
  | state :: rest =>
    match f.filter state with
    | (f, _, true) => f.filterAll rest
    | (f, state, false) => ((f.filterAll rest).1, state :: (f.filterAll rest).2)

/-- The calls of `flush` up to the one that returns false, at most `fuel`. -/
def flushAll : (fuel : Nat) → LookaheadTouchFilter → LookaheadTouchFilter × List TouchState
  | 0, f => (f, [])
  | fuel + 1, f =>
    match f.flush with
    | (f, none) => (f, [])
    | (f, some state) => ((flushAll fuel f).1, state :: (flushAll fuel f).2)

/-- One pulse: the filter and the states let through. -/
def pulse (fuel : Nat) (f : LookaheadTouchFilter) (states : List TouchState) :
    LookaheadTouchFilter × List TouchState :=
  let (f, filtered) := f.filterAll states
  let (f, flushed) := flushAll fuel f
  (f, filtered ++ flushed)

/-- Pulse after pulse. -/
def pulses (fuel : Nat) (f : LookaheadTouchFilter) :
    List (List TouchState) → LookaheadTouchFilter × List (List TouchState)
  | [] => (f, [])
  | states :: rest =>
    let (f, out) := f.pulse fuel states
    ((f.pulses fuel rest).1, out :: (f.pulses fuel rest).2)

/-- The states without those that can be folded with both neighbours. -/
def withoutRedundant (assignIDs : Bool) : (before : Option TouchState) → List TouchState → List TouchState
  | _, [] => []
  | _, [state] => [state]
  | before, state :: next :: rest =>
    if before.any (state.canBeFoldedWith · assignIDs) && state.canBeFoldedWith next assignIDs then
      withoutRedundant assignIDs (some state) (next :: rest)
    else state :: withoutRedundant assignIDs (some state) (next :: rest)

theorem withoutRedundant_subset {assignIDs : Bool} {states : List TouchState} :
    withoutRedundant assignIDs before states ⊆ states := by
  induction states generalizing before with
  | nil => exact List.Subset.refl _
  | cons state rest ih =>
    cases rest with
    | nil => exact List.Subset.refl _
    | cons next rest =>
      rw [withoutRedundant]
      split
      · exact List.subset_cons_of_subset state ih
      · exact List.cons_subset_cons state ih

/-- The filter holds back `state`, which came after `before`. -/
structure Pending (f : LookaheadTouchFilter) (before : Option TouchState) (state : TouchState) : Prop where
  previousState : f.previousState = state
  filterState : f.filterState =
    if before.any (state.canBeFoldedWith · f.assignIDs) then .pendingModifiable else .pendingUnmodifiable

theorem Pending.filter (h : f.Pending before state) (next : TouchState) :
    ∃ f', f'.Pending (some state) next.sortPointsByID ∧ f'.assignIDs = f.assignIDs ∧
      ((before.any (state.canBeFoldedWith · f.assignIDs) &&
          state.canBeFoldedWith next.sortPointsByID f.assignIDs) = true ∧
          f.filter next = (f', next.sortPointsByID, true) ∨
        (before.any (state.canBeFoldedWith · f.assignIDs) &&
          state.canBeFoldedWith next.sortPointsByID f.assignIDs) = false ∧
          f.filter next = (f', state, false)) := by
  obtain ⟨rfl, hfilt⟩ := h
  have hcomm := TouchState.canBeFoldedWith_comm next.sortPointsByID f.previousState f.assignIDs
  cases hbef : before.any (f.previousState.canBeFoldedWith · f.assignIDs) with
  | true =>
    rw [hbef, if_pos rfl] at hfilt
    cases hnxt : f.previousState.canBeFoldedWith next.sortPointsByID f.assignIDs with
    | true =>
      refine ⟨{ f with previousState := next.sortPointsByID }, ⟨rfl, ?_⟩, rfl, .inl ⟨rfl, ?_⟩⟩
      · simp [hfilt, hcomm, hnxt]
      · simp [filter, hfilt, hcomm, hnxt]
    | false =>
      refine ⟨⟨next.sortPointsByID, .pendingUnmodifiable, f.assignIDs⟩, ⟨rfl, ?_⟩, rfl, .inr ⟨rfl, ?_⟩⟩
      · simp [hcomm, hnxt]
      · simp [filter, hfilt, hcomm, hnxt]
  | false =>
    rw [hbef, if_neg Bool.false_ne_true] at hfilt
    refine ⟨⟨next.sortPointsByID, if f.previousState.canBeFoldedWith next.sortPointsByID f.assignIDs
      then .pendingModifiable else .pendingUnmodifiable, f.assignIDs⟩, ⟨rfl, ?_⟩, rfl, .inr ⟨rfl, ?_⟩⟩
    · simp [hcomm]
    · simp only [filter, hfilt]
      split <;> simp_all

theorem Pending.filterAll (h : f.Pending before state) (rest : List TouchState) :
    ∃ before' last, (f.filterAll rest).1.Pending before' last ∧
      (f.filterAll rest).1.assignIDs = f.assignIDs ∧
      (f.filterAll rest).2 ++ [last] =
        withoutRedundant f.assignIDs before (state :: rest.map TouchState.sortPointsByID) := by
  induction rest generalizing f before state with
  | nil => exact ⟨before, state, h, rfl, rfl⟩
  | cons next rest ih =>
    obtain ⟨f', hpend, hids, ⟨hfold, hrun⟩ | ⟨hfold, hrun⟩⟩ := h.filter next
    · obtain ⟨before', last, hlast, hids', hout⟩ := ih hpend
      rw [filterAll, hrun, List.map_cons, withoutRedundant, if_pos hfold, ← hids]
      exact ⟨before', last, hlast, hids', hout⟩
    · obtain ⟨before', last, hlast, hids', hout⟩ := ih hpend
      rw [filterAll, hrun, List.map_cons, withoutRedundant, if_neg (by simp [hfold]),
        ← hids]
      exact ⟨before', last, hlast, hids', congrArg (state :: ·) hout⟩

theorem Pending.flushAll (h : f.Pending before state) (fuel : Nat) :
    flushAll (fuel + 2) f = ({ f with filterState := .clean }, [state]) := by
  have hflush : f.flush = ({ f with filterState := .clean }, some state) := by
    rw [flush, h.filterState, h.previousState]
    cases before.any (state.canBeFoldedWith · f.assignIDs) <;> rfl
  rw [LookaheadTouchFilter.flushAll, hflush]
  rfl

theorem pulse_eq (hclean : f.filterState = .clean) {states : List TouchState}
    (hstates : states ≠ []) (fuel : Nat) :
    ∃ f', f'.filterState = .clean ∧ f'.assignIDs = f.assignIDs ∧ f.pulse (fuel + 2) states =
      (f', withoutRedundant f.assignIDs none (states.map TouchState.sortPointsByID)) := by
  cases states with
  | nil => exact absurd rfl hstates
  | cons state rest =>
    have hrun : f.filter state = (⟨state.sortPointsByID, .pendingUnmodifiable, f.assignIDs⟩,
        state.sortPointsByID, true) := by
      rw [filter, hclean]
    have hpend : Pending ⟨state.sortPointsByID, .pendingUnmodifiable, f.assignIDs⟩ none
        state.sortPointsByID := ⟨rfl, rfl⟩
    obtain ⟨before, last, hlast, hids, hout⟩ := hpend.filterAll rest
    refine ⟨{ (filterAll _ rest).1 with filterState := .clean }, rfl, hids, ?_⟩
    rw [pulse, filterAll, hrun]
    simp only []
    rw [hlast.flushAll, List.map_cons, ← hout]

/-- All but redundant states are let through. -/
theorem pulses_eq {f : LookaheadTouchFilter} (hclean : f.filterState = .clean)
    {inputs : List (List TouchState)} (hinputs : ∀ states ∈ inputs, states ≠ []) (fuel : Nat) :
    (f.pulses (fuel + 2) inputs).1.filterState = .clean ∧
      (f.pulses (fuel + 2) inputs).2 = inputs.map fun states =>
        withoutRedundant f.assignIDs none (states.map TouchState.sortPointsByID) := by
  induction inputs generalizing f with
  | nil => exact ⟨hclean, rfl⟩
  | cons states inputs ih =>
    obtain ⟨hstates, hinputs⟩ := List.forall_mem_cons.mp hinputs
    obtain ⟨f', hclean', hids, hrun⟩ := pulse_eq hclean hstates fuel
    obtain ⟨hend, hout⟩ := ih hclean' hinputs
    rw [pulses, hrun, List.map_cons, ← hids]
    exact ⟨hend, congrArg (_ :: ·) hout⟩

/-- The second of three states is redundant. -/
theorem pulses_eq_three :
    (∀ states ∈ [[⟨[⟨1, 0, 0⟩], 1⟩, ⟨[⟨1, 5, 0⟩], 1⟩, (⟨[⟨1, 9, 0⟩], 1⟩ : TouchState)]], states ≠ []) ∧
      ((new false).pulses 2 [[⟨[⟨1, 0, 0⟩], 1⟩, ⟨[⟨1, 5, 0⟩], 1⟩, ⟨[⟨1, 9, 0⟩], 1⟩]]).2 =
        [[⟨[⟨1, 0, 0⟩], 1⟩, ⟨[⟨1, 9, 0⟩], 1⟩]] :=
  ⟨by decide, (pulses_eq rfl (by decide) 0).2⟩

/-- Each state that a pulse lets through has its points in the order of their IDs, where the
    differences of IDs are `int`s. -/
theorem pulse_sorted (hclean : f.filterState = .clean) {states : List TouchState}
    (hstates : states ≠ []) (fuel : Nat)
    (hids : ∀ ts ∈ states, ∀ p ∈ ts.points, ∀ q ∈ ts.points, p.id - q.id < 2 ^ 31) :
    ∀ ts ∈ (f.pulse (fuel + 2) states).2, (ts.points.map Point.id).Pairwise (· ≤ ·) := by
  obtain ⟨f', -, -, hrun⟩ := pulse_eq hclean hstates fuel
  intro ts hts
  rw [hrun] at hts
  obtain ⟨ts, hmem, rfl⟩ := List.mem_map.mp (withoutRedundant_subset hts)
  exact TouchState.sortPointsByID_sorted (hids ts hmem)

end LookaheadTouchFilter

end OpenJfx.Monocle
