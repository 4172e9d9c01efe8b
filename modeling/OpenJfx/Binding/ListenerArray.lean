/-
  OpenJfx.Binding.ListenerArray

  The listener arrays of the expression helpers; the code to append and to delete a listener is
  copied by hand, and the parameters of `deleteAt` are where the copies differ.  While `locked`,
  an array is replaced by a copy: the second component of `add` and `deleteAt` says whether the
  field holds a new array.
-/

import Mathlib.Data.List.Basic

namespace OpenJfx.Binding

open List Option

variable {L : Type}

/-- `slots` is `none` while the field is null. -/
structure ListenerArray (L : Type) where
  slots : Option (List (Option L))
  size : Nat
  deriving DecidableEq, Repr

variable {a : ListenerArray L} {ls : List L} {rest slots : List (Option L)}

namespace ListenerArray

/-- `null` and size 0, the state of a kind that has no listener. -/
def null : ListenerArray L := ⟨none, 0⟩

/-- `new X[] {listener0, ...}`. -/
def of (listeners : List L) : ListenerArray L := ⟨some (listeners.map some), listeners.length⟩

/-- `System.arraycopy(src, index + 1, dst, index, numMoved)`. -/
def moveDown (src dst : List (Option L)) (index numMoved : Nat) : List (Option L) :=
  dst.take index ++ ((src.drop (index + 1)).take numMoved ++ dst.drop (index + numMoved))

/-- `Arrays.copyOf(slots, newCapacity)`. -/
def copyOf (slots : List (Option L)) (newCapacity : Nat) : List (Option L) :=
  slots.take newCapacity ++ List.replicate (newCapacity - slots.length) none

/-- `ExpressionHelperBase.trim`, its loop. -/
def trimLoop (gone : L → Bool) : Nat → Nat → List (Option L) → Nat × List (Option L)
  | 0, index, slots => (index, slots)
  | n + 1, index, slots =>
    if (slots.getD index none).any gone then
      trimLoop gone n index ((moveDown slots slots index n).set (index + n) none)
    else trimLoop gone n (index + 1) slots

/-- `ExpressionHelperBase.trim`: the new size and the array. -/
def trim (gone : L → Bool) (size : Nat) (slots : List (Option L)) : Nat × List (Option L) :=
  trimLoop gone size 0 slots

/-- `slots[size++] = listener`. -/
def store (listener : L) (size : Nat) (slots : List (Option L)) : ListenerArray L :=
  ⟨some (slots.set size (some listener)), size + 1⟩

/-- `addListener` on one array of a `Generic`.  The new capacity is that of the source for
    `oldCapacity * 3 < 2 ^ 31`. -/
def add (locked : Bool) (gone : L → Bool) (listener : L) (a : ListenerArray L) :
    ListenerArray L × Bool :=
  match a.slots with
  | none => (of [listener], true)
  | some slots =>
    let oldCapacity := slots.length
    if locked then
      let newCapacity := if a.size < oldCapacity then oldCapacity else oldCapacity * 3 / 2 + 1
      (store listener a.size (copyOf slots newCapacity), true)
    else if a.size = oldCapacity then
      let (size, slots) := trim gone a.size slots
      if size = oldCapacity then
        (store listener size (copyOf slots (oldCapacity * 3 / 2 + 1)), true)
      else (store listener size slots, false)
    else (store listener a.size slots, false)

/-- The search loop of `removeListener`. -/
def indexOf [DecidableEq L] (listener : L) (a : ListenerArray L) : Option Nat :=
  ((a.slots.getD []).take a.size).findIdx? (· == some listener)

/-- The deletion in `removeListener`: `copied` slots are copied when locked, `again` decrements the
    size once more when the last slot is cleared. -/
def deleteAt (locked : Bool) (copied : Nat) (again : Bool) (index : Nat) (a : ListenerArray L) :
    ListenerArray L × Bool :=
  match a.slots with
  | none => (a, false)
  | some old =>
    let numMoved := a.size - index - 1
    let target := if locked then old.take copied ++ List.replicate (old.length - copied) none else old
    let moved := moveDown old target index numMoved
    let size := a.size - 1
    if locked then (⟨some moved, size⟩, true)
    else
      let size := if again then size - 1 else size
      (⟨some (moved.set size none), size⟩, false)

/-- The slots a notification loop would go through. -/
def listeners (a : ListenerArray L) : List (Option L) := (a.slots.getD []).take a.size

/-- `addListener` trims the array. -/
def trims (locked : Bool) (a : ListenerArray L) : Bool :=
  !locked && a.slots.any fun slots => a.size == slots.length

/-- Those of `ls` that an addition leaves. -/
def kept (locked : Bool) (gone : L → Bool) (a : ListenerArray L) (ls : List L) : List L :=
  if a.trims locked then ls.filter (!gone ·) else ls

/-! ## What an array holds -/

/-- The first `size` slots hold the listeners `ls`. -/
def Holds (a : ListenerArray L) (ls : List L) : Prop :=
  a.size = ls.length ∧ ∃ rest, a.slots.getD [] = ls.map some ++ rest

theorem holds_null : Holds (null : ListenerArray L) [] := ⟨rfl, [], rfl⟩

theorem holds_of (ls : List L) : Holds (of ls) ls := ⟨rfl, [], by simp [of]⟩

theorem Holds.listeners_eq (h : Holds a ls) :
    a.listeners = ls.map some := by
  obtain ⟨hsz, rest, hslots⟩ := h
  rw [listeners, hslots, hsz]
  exact take_left' (by simp)

theorem Holds.size_eq (h : Holds a ls) :
    a.size = ls.length := h.1

theorem moveDown_seam {A dst : List (Option L)} {B B' C : List (Option L)} {x : Option L}
    {index numMoved : Nat} (hA : index = A.length) (hB : numMoved = B.length)
    (hdst : dst = A ++ B' ++ C) (hB' : B'.length = B.length) (tail : List (Option L)) :
    moveDown (A ++ x :: (B ++ tail)) dst index numMoved = A ++ (B ++ C) := by
  subst hA hB hdst
  have h1 : (A ++ B' ++ C).take A.length = A := by
    rw [append_assoc]
    exact take_left
  have h2 : (A ++ x :: (B ++ tail)).drop (A.length + 1) = B ++ tail := by
    rw [← drop_drop, drop_left]
    rfl
  have h3 : (A ++ B' ++ C).drop (A.length + B.length) = C := by
    rw [← hB', ← length_append]
    exact drop_left
  rw [moveDown, h1, h2, h3, take_left]

/-- Deleting in place: the slot behind the last listener becomes null. -/
theorem moveDown_in_place (A B rest : List (Option L)) (x : Option L) :
    (moveDown (A ++ x :: (B ++ rest)) (A ++ x :: (B ++ rest)) A.length B.length).set
      (A.length + B.length) none = A ++ (B ++ none :: rest) := by
  obtain ⟨B', y, hB⟩ : ∃ B' y, x :: B = B' ++ [y] :=
    ⟨(x :: B).dropLast, (x :: B).getLast (by simp), (dropLast_append_getLast _).symm⟩
  have hlen : B'.length = B.length := by
    have := congrArg List.length hB
    simpa using this.symm
  have hdst : A ++ x :: (B ++ rest) = A ++ B' ++ (y :: rest) := by
    rw [← cons_append, hB]
    simp
  rw [moveDown_seam rfl rfl hdst hlen, ← append_assoc, ← length_append,
    set_append_right _ _ (Nat.le_refl _), Nat.sub_self, append_assoc]
  rfl

theorem trimLoop_holds (gone : L → Bool) (done todo : List L) (rest : List (Option L)) :
    ∃ rest', trimLoop gone todo.length done.length ((done ++ todo).map some ++ rest)
      = ((done ++ todo.filter (!gone ·)).length,
          (done ++ todo.filter (!gone ·)).map some ++ rest') ∧
      (todo.filter (!gone ·)).length + rest'.length = todo.length + rest.length := by
  induction todo generalizing done rest with
  | nil => exact ⟨rest, by simp [trimLoop], rfl⟩
  | cons l todo ih =>
    have hslot : (((done ++ l :: todo).map some ++ rest).getD done.length none) = some l := by
      simp
    rw [length_cons, trimLoop, hslot, any_some]
    by_cases hl : gone l = true
    · obtain ⟨rest', h, hlen⟩ := ih done (none :: rest)
      have hmove := moveDown_in_place (done.map some) (todo.map some) rest (some l)
      rw [length_map, length_map] at hmove
      rw [if_pos hl, filter_cons_of_neg (by simp [hl])]
      refine ⟨rest', ?_, ?_⟩
      · rw [← h]
        congr 1
        simpa using hmove
      · rw [hlen, length_cons]
        omega
    · obtain ⟨rest', h, hlen⟩ := ih (done ++ [l]) rest
      rw [if_neg hl, filter_cons_of_pos (by simp [hl])]
      refine ⟨rest', by simpa using h, ?_⟩
      rw [length_cons]
      omega

theorem trim_holds (gone : L → Bool) (ls : List L) (rest : List (Option L)) :
    ∃ rest', trim gone ls.length (ls.map some ++ rest)
      = ((ls.filter (!gone ·)).length, (ls.filter (!gone ·)).map some ++ rest') ∧
      (ls.filter (!gone ·)).length + rest'.length = ls.length + rest.length := by
  exact trimLoop_holds gone [] ls rest

theorem store_holds (listener : L) (hrest : rest ≠ []) :
    Holds (store listener ls.length (ls.map some ++ rest)) (ls ++ [listener]) := by
  obtain ⟨r, rest, rfl⟩ := exists_cons_of_ne_nil hrest
  refine ⟨by simp [store], rest, ?_⟩
  simp only [store, getD_some]
  rw [set_append_right _ _ (by simp)]
  simp

theorem copyOf_holds {newCapacity : Nat}
    (h : ls.length < newCapacity) (hcap : (ls.map some ++ rest).length ≤ newCapacity) :
    ∃ rest', rest' ≠ [] ∧ copyOf (ls.map some ++ rest) newCapacity = ls.map some ++ rest' := by
  refine ⟨rest ++ List.replicate (newCapacity - (ls.map some ++ rest).length) none, ?_, ?_⟩
  · intro hnil
    have hlen := congrArg List.length hnil
    simp only [length_append, length_map, length_replicate, length_nil] at hlen
    omega
  · rw [copyOf, take_of_length_le hcap, append_assoc]

theorem Holds.add (h : Holds a ls) (locked : Bool) (gone : L → Bool) (listener : L) :
    Holds (a.add locked gone listener).1 (a.kept locked gone ls ++ [listener]) := by
  obtain ⟨slots, size⟩ := a
  obtain ⟨hsz, rest, hslots⟩ := h
  dsimp only at hsz hslots
  subst hsz
  cases slots with
  | none =>
    obtain rfl : ls = [] := by
      have := congrArg List.length hslots
      simp only [getD_none, length_append, length_map, length_nil] at this
      exact length_eq_zero_iff.mp (by omega)
    have hkept : kept locked gone ⟨none, 0⟩ ([] : List L) = [] := by
      rw [kept]
      split <;> rfl
    rw [length_nil, hkept]
    exact holds_of [listener]
  | some slots =>
    rw [getD_some] at hslots
    subst hslots
    have hcap : (ls.map some ++ rest).length = ls.length + rest.length := by simp
    have hkept : kept locked gone ⟨some (ls.map some ++ rest), ls.length⟩ ls
        = if locked = false ∧ ls.length = (ls.map some ++ rest).length then ls.filter (!gone ·)
          else ls := by
      simp only [kept, trims, any_some, Bool.and_eq_true, Bool.not_eq_true', beq_iff_eq]
    rw [hkept]
    simp only [ListenerArray.add]
    by_cases hlock : locked = true
    · -- a copy, larger when the array is full
      have hcond : ¬ (locked = false ∧ ls.length = (ls.map some ++ rest).length) := by
        rw [hlock]
        exact fun h => Bool.noConfusion h.1
      rw [if_pos hlock, if_neg hcond]
      obtain ⟨rest', hne, hcopy⟩ : ∃ rest', rest' ≠ [] ∧ copyOf (ls.map some ++ rest)
          (if ls.length < (ls.map some ++ rest).length then (ls.map some ++ rest).length
            else (ls.map some ++ rest).length * 3 / 2 + 1) = ls.map some ++ rest' := by
        apply copyOf_holds <;> split <;> omega
      rw [hcopy]
      exact store_holds listener hne
    rw [if_neg hlock]
    by_cases hfull : ls.length = (ls.map some ++ rest).length
    · obtain ⟨rest', htrim, hlen⟩ := trim_holds gone ls rest
      have hcond : locked = false ∧ ls.length = (ls.map some ++ rest).length :=
        ⟨Bool.eq_false_iff.mpr hlock, hfull⟩
      rw [if_pos hfull, if_pos hcond, htrim]
      dsimp only
      by_cases hall : (ls.filter (!gone ·)).length = (ls.map some ++ rest).length
      · -- nothing was trimmed, and the copy is larger
        rw [if_pos hall]
        have hkeep : ls.filter (!gone ·) = ls :=
          List.Sublist.eq_of_length filter_sublist (hall.trans hfull.symm)
        rw [hkeep] at hlen ⊢
        obtain ⟨rest'', hne, hcopy⟩ : ∃ rest'', rest'' ≠ [] ∧ copyOf (ls.map some ++ rest')
            ((ls.map some ++ rest).length * 3 / 2 + 1) = ls.map some ++ rest'' := by
          apply copyOf_holds
          · omega
          · simp only [length_append, length_map]
            omega
        rw [hcopy]
        exact store_holds listener hne
      · rw [if_neg hall]
        refine store_holds listener ?_
        rintro rfl
        rw [length_nil] at hlen
        omega
    · have hcond : ¬ (locked = false ∧ ls.length = (ls.map some ++ rest).length) :=
        fun h => hfull h.2
      rw [if_neg hfull, if_neg hcond]
      refine store_holds listener ?_
      rintro rfl
      exact hfull (by simp)

theorem Holds.indexOf [DecidableEq L] (h : Holds a ls) (listener : L) :
    (a.indexOf listener = none ∧ listener ∉ ls) ∨
      ∃ xs ys, ls = xs ++ listener :: ys ∧ listener ∉ xs ∧ a.indexOf listener = some xs.length := by
  have hfind : a.indexOf listener = ls.findIdx? (· == listener) := by
    have hl := h.listeners_eq
    rw [listeners] at hl
    rw [ListenerArray.indexOf, hl, findIdx?_map]
    congr 1
  rw [hfind]
  clear hfind h
  induction ls with
  | nil => exact Or.inl ⟨rfl, by simp⟩
  | cons l ls ih =>
    by_cases hl : l = listener
    · exact Or.inr ⟨[], ls, by simp [hl], by simp, by simp [findIdx?_cons, hl]⟩
    · rcases ih with ⟨hnone, hnot⟩ | ⟨xs, ys, rfl, hnot, hsome⟩
      · refine Or.inl ⟨by simp [findIdx?_cons, hl, hnone], ?_⟩
        simp [hnot, Ne.symm hl]
      · refine Or.inr ⟨l :: xs, ys, rfl, by simp [hnot, Ne.symm hl], ?_⟩
        simp [findIdx?_cons, hl, hsome]

theorem Holds.deleteAt {xs ys : List L} {x : L} (h : Holds a (xs ++ x :: ys))
    (locked : Bool) {copied : Nat} (hcopied : xs.length ≤ copied) :
    Holds (a.deleteAt locked copied false xs.length).1 (xs ++ ys) := by
  obtain ⟨slots, size⟩ := a
  obtain ⟨hsz, rest, hslots⟩ := h
  dsimp only at hsz hslots
  subst hsz
  cases slots with
  | none => simp at hslots
  | some slots =>
    rw [getD_some] at hslots
    subst hslots
    have hmoved : (xs ++ x :: ys).length - xs.length - 1 = (ys.map some).length := by simp
    have hx : xs.length = (xs.map some).length := by simp
    have hslots : (xs ++ x :: ys).map some ++ rest
        = xs.map some ++ some x :: (ys.map some ++ rest) := by simp
    simp only [ListenerArray.deleteAt, hmoved, hslots]
    by_cases hlock : locked = true
    · rw [if_pos hlock, if_pos hlock]
      have htake : ∀ tail, ((xs.map some ++ some x :: (ys.map some ++ rest)).take copied ++ tail).take
          xs.length = xs.map some := by
        intro tail
        rw [take_append_of_le_length (by simp; omega), take_take, Nat.min_eq_left hcopied]
        exact take_left' hx.symm
      have hdrop : (xs.map some ++ some x :: (ys.map some ++ rest)).drop (xs.length + 1)
          = ys.map some ++ rest := by
        rw [hx, ← drop_drop, drop_left]
        rfl
      refine ⟨by simp, ?_⟩
      rw [getD_some, moveDown, htake, hdrop, take_left, ← append_assoc, ← map_append]
      exact ⟨_, rfl⟩
    · rw [if_neg hlock, if_neg hlock]
      refine ⟨by simp, none :: rest, ?_⟩
      have hmove := moveDown_in_place (xs.map some) (ys.map some) rest (some x)
      simp only [getD_some]
      rw [← append_assoc, ← map_append] at hmove
      rw [← hmove, hx]
      congr 1
      simp

/-! ## Changes in place leave the slots in front alone -/

theorem moveDown_take {index numMoved n : Nat} (hn : n ≤ index) (hidx : index ≤ slots.length) :
    (moveDown slots slots index numMoved).take n = slots.take n := by
  rw [moveDown, take_append_of_le_length (by simp; omega), take_take, Nat.min_eq_left hn]

theorem trimLoop_take (gone : L → Bool) {n : Nat} (m index : Nat) (slots : List (Option L))
    (hn : n ≤ index + m) (hlen : index + m ≤ slots.length)
    (hkeep : ∀ i, index ≤ i → i < n → (slots.getD i none).any gone = false) :
    (trimLoop gone m index slots).2.take n = slots.take n ∧
      n ≤ (trimLoop gone m index slots).1 := by
  induction m generalizing index slots with
  | zero => exact ⟨rfl, hn⟩
  | succ m ih =>
    rw [trimLoop]
    split
    · rename_i hgone
      -- the first slot that goes is behind the first `n`
      have hle : n ≤ index := by
        by_contra hlt
        rw [hkeep index (Nat.le_refl _) (by omega)] at hgone
        cases hgone
      have htake : ((moveDown slots slots index m).set (index + m) none).take n = slots.take n := by
        rw [take_set_of_le (by omega), moveDown_take hle (by omega)]
      have hl : ((moveDown slots slots index m).set (index + m) none).length = slots.length := by
        simp only [moveDown, length_set, length_append, length_take, length_drop]
        omega
      obtain ⟨h1, h2⟩ := ih index ((moveDown slots slots index m).set (index + m) none) (by omega)
        (by omega) (fun i hi hin => by omega)
      exact ⟨h1.trans htake, h2⟩
    · refine ih (index + 1) slots (by omega) (by omega) ?_
      intro i hi hin
      exact hkeep i (by omega) hin

theorem add_in_place {locked : Bool} {gone : L → Bool} {listener : L} {size n : Nat} (hn : n ≤ size)
    (hplace : (add locked gone listener ⟨some slots, size⟩).2 = false)
    (hgone : locked = false → size = slots.length →
      ∀ i, i < n → (slots.getD i none).any gone = false) :
    ∃ slots', (add locked gone listener ⟨some slots, size⟩).1.slots = some slots' ∧
      slots'.take n = slots.take n ∧
      n ≤ (add locked gone listener ⟨some slots, size⟩).1.size := by
  simp only [add] at hplace ⊢
  split at hplace
  · cases hplace
  · rename_i hlock
    rw [if_neg hlock]
    split at hplace
    · rename_i hfull
      obtain ⟨h1, h2⟩ : (trim gone size slots).2.take n = slots.take n ∧
          n ≤ (trim gone size slots).1 := trimLoop_take gone size 0 slots (by omega) (by omega)
        (fun i _ hin => hgone (by simpa using hlock) hfull i hin)
      split at hplace
      · cases hplace
      · rename_i hne
        rw [if_pos hfull, if_neg hne]
        refine ⟨_, rfl, ?_, ?_⟩
        · rw [take_set_of_le h2]
          exact h1
        · exact Nat.le_succ_of_le h2
    · rename_i hfull
      rw [if_neg hfull]
      exact ⟨_, rfl, take_set_of_le hn, Nat.le_succ_of_le hn⟩

theorem deleteAt_in_place {copied index n size : Nat}
    (hn : n ≤ index) (hidx : index < size) (hsz : size ≤ slots.length) :
    ∃ slots', deleteAt false copied false index ⟨some slots, size⟩ = (⟨some slots', size - 1⟩, false) ∧
      slots'.take n = slots.take n ∧ n ≤ size - 1 := by
  refine ⟨_, rfl, ?_, by omega⟩
  simp only [Bool.false_eq_true, if_false]
  rw [take_set_of_le (by omega), moveDown_take hn (by omega)]

end ListenerArray

end OpenJfx.Binding
