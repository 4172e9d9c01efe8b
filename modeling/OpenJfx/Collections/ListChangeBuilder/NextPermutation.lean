/-
  OpenJfx.Collections.ListChangeBuilder.NextPermutation

  `nextPermutation(from, to, perm)`: the permutation is turned into one of the original list,
  joined with the one recorded before, and the sub-changes are moved along.  A `TreeSet` is an
  ascending list, a `HashMap` the list of its entries, whose order does not matter in the end.
-/

import OpenJfx.Collections.ListChangeBuilder.Basic
import OpenJfx.Lib.JavaArray
import OpenJfx.Lib.Segment

namespace OpenJfx.Collections

namespace ListChangeBuilder

open JavaArray

variable {E : Type}

/-- `j < from || j >= to ? j : perm[j - from]`. -/
def moved (from_ to_ : Int) (perm : List Int) (j : Int) : Except JavaException Int :=
  if j < from_ ∨ j ≥ to_ then .ok j else get perm (j - from_)

/-! ## The permutation of the original list -/

section Original

variable (from_ to_ : Int) (perm : List Int)

/-- `mapToOriginal[moved(j)] = value(j)`, `n` times. -/
def fillMap (value : Int → Int) : Nat → Int → List Int → Except JavaException (List Int)
  | 0, _, mapToOriginal => .ok mapToOriginal
  | n + 1, j, mapToOriginal => do
    let mapToOriginal ← set mapToOriginal (← moved from_ to_ perm j) (value j)
    fillMap value n (j + 1) mapToOriginal

/-- The local variables of the loop over `addRemoveChanges`. -/
structure Mapping where
  mapToOriginal : List Int
  removed : List Int
  last : Int
  offset : Int

/-- The body of that loop. -/
def mapChange (s : Mapping) (change : SubChange E) : Except JavaException Mapping := do
  let m ← fillMap from_ to_ perm (fun j => j + s.offset) (change.from_ - s.last).toNat s.last
    s.mapToOriginal
  let m ← fillMap from_ to_ perm (fun _ => -1) (change.to_ - change.from_).toNat change.from_ m
  let removedSize := change.getRemoved.length
  pure
    { mapToOriginal := m
      removed := s.removed ++ segment id (change.from_ + s.offset) removedSize
      last := change.to_
      offset := s.offset + (removedSize - (change.to_ - change.from_)) }

/-- `newPerm` from `i` on, with `rest` of `mapPtr`. -/
def fillPerm (removed : List Int) :
    Nat → Int → List Int → List Int → Except JavaException (List Int)
  | 0, _, _, newPerm => .ok newPerm
  | n + 1, i, rest, newPerm =>
    if i ∈ removed then do
      let newPerm ← set newPerm i i
      fillPerm removed n (i + 1) rest newPerm
    else
      match rest.dropWhile (· == -1) with
      | [] => .error .indexOutOfBounds
      | original :: rest => do
        let newPerm ← set newPerm original i
        fillPerm removed n (i + 1) rest newPerm

/-- The permutation as if there were no changes to the list. -/
def originalPermutation (listSize : Nat) (changes : List (SubChange E)) :
    Except JavaException (List Int) := do
  let s ← changes.foldlM (mapChange from_ to_ perm) ⟨List.replicate listSize 0, [], 0, 0⟩
  let mapToOriginal ← fillMap from_ to_ perm (fun i => i + s.offset)
    (listSize - s.last).toNat s.last s.mapToOriginal
  let newPerm ← JavaArray.new (listSize + s.offset) 0
  fillPerm s.removed newPerm.length 0 mapToOriginal newPerm

end Original

/-! ## Joining it with the recorded permutation -/

/-- The entry for `i` of the permutation `p`, `prePerm` after it. -/
def joinEntry (p : SubChange E) (prePermFrom prePermTo : Int) (prePerm : List Int) (i : Int) :
    Except JavaException Int := do
  if i < p.from_ ∨ i ≥ p.to_ then
    get prePerm (i - prePermFrom)
  else
    let q ← get p.perm (i - p.from_)
    if q < prePermFrom ∨ q ≥ prePermTo then pure q
    else get prePerm (q - prePermFrom)

/-- The new `permutationChange`. -/
def joinPermutation (permutationChange : Option (SubChange E)) (prePermFrom prePermTo : Int)
    (prePerm : List Int) : Except JavaException (SubChange E) :=
  match permutationChange with
  | none => .ok ⟨prePermFrom, prePermTo, none, prePerm, false⟩
  | some p =>
    if prePermFrom = p.from_ ∧ prePermTo = p.to_ then do
      let perm ← p.perm.mapM fun q => get prePerm (q - prePermFrom)
      pure { p with perm := perm }
    else do
      let newTo := max p.to_ prePermTo
      let newFrom := min p.from_ prePermFrom
      let perm ← (segment id newFrom (newTo - newFrom).toNat).mapM
        (joinEntry p prePermFrom prePermTo prePerm)
      pure { p with from_ := newFrom, to_ := newTo, perm := perm }

/-! ## Moving the recorded sub-changes -/

/-- `TreeSet.add`. -/
def treeAdd (x : Int) : List Int → List Int
  | [] => [x]
  | y :: ys => if x < y then x :: y :: ys else if x = y then y :: ys else y :: treeAdd x ys

/-- `HashMap.put`. -/
def mapPut (key : Int) (value : List E) : List (Int × List E) → List (Int × List E)
  | [] => [(key, value)]
  | (k, v) :: entries =>
    if k = key then (k, value) :: entries else (k, v) :: mapPut key value entries

/-- The images of the positions that a sub-change covers. -/
def addImages (from_ to_ : Int) (perm : List Int) (set : List Int) (change : SubChange E) :
    Except JavaException (List Int) :=
  (segment id change.from_ (change.to_ - change.from_).toNat).foldlM
    (fun set cIndex => do pure (treeAdd (← moved from_ to_ perm cIndex) set)) set

/-- `newRemoved.put(moved(change.from), change.removed)`. -/
def putImage (from_ to_ : Int) (perm : List Int) (entries : List (Int × List E))
    (change : SubChange E) : Except JavaException (List (Int × List E)) :=
  match change.removed with
  | none => .ok entries
  | some removed => do pure (mapPut (← moved from_ to_ perm change.from_) removed entries)

/-- The last sub-change grown by `i`, or a new one. -/
def growRun (updated : Bool) (changes : List (SubChange E)) (i : Int) : List (SubChange E) :=
  match changes.getLast? with
  | some lastChange =>
    if lastChange.to_ ≠ i then changes ++ [⟨i, i + 1, none, SubChange.emptyPerm, updated⟩]
    else changes.dropLast ++ [{ lastChange with to_ := i + 1 }]
  | none => [⟨i, i + 1, none, SubChange.emptyPerm, updated⟩]

/-- The elements removed at `i` go to the last sub-change. -/
def attachRemoved (changes : List (SubChange E)) (removed : List E) : List (SubChange E) :=
  match changes.getLast? with
  | some lastChange =>
    changes.dropLast ++ [{ lastChange with removed := some (lastChange.getRemoved ++ removed) }]
  | none => changes

/-- The body of the loop over `newAdded`. -/
def addRun (s : List (SubChange E) × List (Int × List E)) (i : Int) :
    List (SubChange E) × List (Int × List E) :=
  let changes := growRun false s.1 i
  match s.2.lookup i with
  | none => (changes, s.2)
  | some removed => (attachRemoved changes removed, s.2.filter fun entry => entry.1 ≠ i)

/-- The body of the loop over what is left in `newRemoved`. -/
def insertAnchor (changes : List (SubChange E)) (entry : Int × List E) :
    Except JavaException (List (SubChange E)) :=
  match findSubChange entry.1 changes with
  | .found _ => .error .indexOutOfBounds
  | .notFound idx => .ok (changes.insertIdx idx ⟨entry.1, entry.1, some entry.2, [], false⟩)

/-- `addRemoveChanges` after the permutation. -/
def moveAddRemove (from_ to_ : Int) (perm : List Int) (changes : List (SubChange E)) :
    Except JavaException (List (SubChange E)) := do
  let newAdded ← changes.foldlM (addImages from_ to_ perm) []
  let newRemoved ← changes.foldlM (putImage from_ to_ perm) []
  let (runs, rest) := newAdded.foldl addRun ([], newRemoved)
  rest.foldlM insertAnchor runs

/-- `updateChanges` after the permutation. -/
def moveUpdates (from_ to_ : Int) (perm : List Int) (changes : List (SubChange E)) :
    Except JavaException (List (SubChange E)) := do
  let newUpdated ← changes.foldlM (addImages from_ to_ perm) []
  pure (newUpdated.foldl (growRun true) [])

/-- `permutationChange` after the permutation. -/
def movePermutation (listSize : Nat) (from_ to_ : Int) (perm : List Int)
    (b : ListChangeBuilder E) : Except JavaException (SubChange E) :=
  if b.addRemoveChanges.isEmpty then joinPermutation b.permutationChange from_ to_ perm
  else do
    let newPerm ← originalPermutation from_ to_ perm listSize b.addRemoveChanges
    joinPermutation b.permutationChange 0 newPerm.length newPerm

/-- The builder after the permutation. -/
def permutationStep (listSize : Nat) (from_ to_ : Int) (perm : List Int)
    (b : ListChangeBuilder E) : Except JavaException (ListChangeBuilder E) := do
  let permutationChange ← movePermutation listSize from_ to_ perm b
  let addRemoveChanges ← moveAddRemove from_ to_ perm b.addRemoveChanges
  let updateChanges ← moveUpdates from_ to_ perm b.updateChanges
  pure
    { b with
      permutationChange := some permutationChange
      addRemoveChanges := addRemoveChanges
      updateChanges := updateChanges }

/-- With an array that the builder does not hold yet. -/
def nextPermutation (listSize : Nat) (from_ to_ : Int) (perm : List Int) :
    JavaM (ListChangeBuilder E) Unit := do
  checkState
  let b ← get
  set (← JavaM.ofExcept (permutationStep listSize from_ to_ perm b))

end ListChangeBuilder

/-! ## The array of the caller

It is not copied: the first permutation of a block without add/remove sub-changes makes it
`permutationChange.perm`, and a later one of the same range is composed in place. -/

/-- A builder, and the array of a caller that its `permutationChange.perm` is. -/
structure Recorder (E : Type) where
  builder : ListChangeBuilder E
  permArray : Option Nat
  deriving DecidableEq, Repr

namespace Recorder

open ListChangeBuilder JavaArray

variable {E : Type}

/-- Run `m` on the builder. -/
def onBuilder {α : Type} (m : JavaM (ListChangeBuilder E) α) : JavaM (Recorder E) α :=
  JavaM.zoom builder (fun b r => { r with builder := b }) m

/-- `[prePermFrom, prePermTo)`; with sub-changes it is the original list. -/
def prePermRange (listSize : Nat) (from_ to_ : Int) (changes : List (SubChange E)) : Int × Int :=
  if changes.isEmpty then (from_, to_)
  else (0, listSize + (changes.map fun c => (c.getRemoved.length : Int) - (c.to_ - c.from_)).sum)

/-- The call composes the permutations in the array that it has been passed. -/
def Overwrites (listSize : Nat) (from_ to_ : Int) (array : Nat) (r : Recorder E) : Prop :=
  r.permArray = some array ∧ ∃ p ∈ r.builder.permutationChange,
    prePermRange listSize from_ to_ r.builder.addRemoveChanges = (p.from_, p.to_)

instance (listSize : Nat) (from_ to_ : Int) (array : Nat) (r : Recorder E) :
    Decidable (Overwrites listSize from_ to_ array r) :=
  inferInstanceAs (Decidable (_ ∧ ∃ p ∈ r.builder.permutationChange, _))

/-- `permutationChange.perm[i] = prePerm[permutationChange.perm[i] - prePermFrom]` from `i` on, where
    both are one array. -/
def composeInPlace (prePermFrom : Int) : Nat → Int → List Int → Except JavaException (List Int)
  | 0, _, perm => .ok perm
  | n + 1, i, perm => do
    let perm ← set perm i (← get perm ((← get perm i) - prePermFrom))
    composeInPlace prePermFrom n (i + 1) perm

/-- The composed `permutationChange`, in the array of the caller. -/
def overwrite (listSize : Nat) (from_ to_ : Int) (perm : List Int) (b : ListChangeBuilder E) :
    Except JavaException (SubChange E) :=
  match b.permutationChange with
  | some p =>
    if b.addRemoveChanges.isEmpty then do
      pure { p with perm := ← composeInPlace from_ perm.length 0 perm }
    else movePermutation listSize from_ to_ perm b
  | none => movePermutation listSize from_ to_ perm b

/-- The array recorded after a call that does not write into it. -/
def arrayAfter (listSize : Nat) (from_ to_ : Int) (array : Nat) (r : Recorder E) : Option Nat :=
  match r.builder.permutationChange with
  | none => if r.builder.addRemoveChanges.isEmpty then some array else none
  | some p =>
    if prePermRange listSize from_ to_ r.builder.addRemoveChanges = (p.from_, p.to_) then r.permArray
    else none

/-- The step with the array `array`, which holds `perm`. -/
def permutationStep (listSize : Nat) (from_ to_ : Int) (array : Nat) (perm : List Int)
    (r : Recorder E) : Except JavaException (Recorder E) :=
  if r.Overwrites listSize from_ to_ array then do
    let permutationChange ← overwrite listSize from_ to_ perm r.builder
    -- the loops over the sub-changes read what has been written
    let perm := permutationChange.perm
    let addRemoveChanges ← moveAddRemove from_ to_ perm r.builder.addRemoveChanges
    let updateChanges ← moveUpdates from_ to_ perm r.builder.updateChanges
    let changeLock := r.builder.changeLock
    pure ⟨⟨changeLock, addRemoveChanges, updateChanges, some permutationChange⟩, r.permArray⟩
  else do
    let b ← ListChangeBuilder.permutationStep listSize from_ to_ perm r.builder
    pure ⟨b, r.arrayAfter listSize from_ to_ array⟩

/-- `nextPermutation(from, to, perm)`. -/
def nextPermutation (listSize : Nat) (from_ to_ : Int) (array : Nat) (perm : List Int) :
    JavaM (Recorder E) Unit := do
  onBuilder checkState
  let r ← get
  set (← JavaM.ofExcept (r.permutationStep listSize from_ to_ array perm))

/-- The caller writes `perm` into its array. -/
def fill (array : Nat) (perm : List Int) (r : Recorder E) : Recorder E :=
  if r.permArray = some array then
    { r with
      builder.permutationChange := r.builder.permutationChange.map fun p => { p with perm := perm } }
  else r

/-! `prePermRange` is that of the permutation the code computes. -/

variable {from_ to_ : Int} {perm : List Int} {changes : List (SubChange E)}

theorem of_bind_ok {α β : Type} {x : Except JavaException α} {f : α → Except JavaException β} {b : β}
    (h : (x >>= f) = .ok b) : ∃ a, x = .ok a ∧ f a = .ok b := by
  cases x with
  | error e => cases h
  | ok a => exact ⟨a, rfl, h⟩

theorem mapChanges_offset {s s' : Mapping}
    (h : changes.foldlM (mapChange from_ to_ perm) s = .ok s') :
    s'.offset = s.offset
      + (changes.map fun c => (c.getRemoved.length : Int) - (c.to_ - c.from_)).sum := by
  induction changes generalizing s with
  | nil =>
    cases h
    exact (Int.add_zero _).symm
  | cons change changes ih =>
    rw [List.foldlM_cons] at h
    obtain ⟨s1, h1, hrest⟩ := of_bind_ok h
    obtain ⟨m1, -, h1⟩ := of_bind_ok h1
    obtain ⟨m2, -, h1⟩ := of_bind_ok h1
    cases h1
    rw [ih hrest, List.map_cons, List.sum_cons, Int.add_assoc]

theorem set_length {a a' : List Int} {i x : Int} (h : JavaArray.set a i x = .ok a') :
    a'.length = a.length := by
  rw [JavaArray.set] at h
  split at h
  · cases h
    exact List.length_set
  · cases h

theorem fillPerm_length {removed rest newPerm out : List Int} {n : Nat} {i : Int}
    (h : fillPerm removed n i rest newPerm = .ok out) : out.length = newPerm.length := by
  induction n generalizing i rest newPerm with
  | zero =>
    cases h
    rfl
  | succ n ih =>
    rw [fillPerm] at h
    split at h
    · obtain ⟨newPerm', hset, h⟩ := of_bind_ok h
      rw [ih h, set_length hset]
    · split at h
      · cases h
      · obtain ⟨newPerm', hset, h⟩ := of_bind_ok h
        rw [ih h, set_length hset]

theorem prePermRange_eq {listSize : Nat} {newPerm : List Int} (hne : changes ≠ [])
    (h : originalPermutation from_ to_ perm listSize changes = .ok newPerm) :
    prePermRange listSize from_ to_ changes = (0, (newPerm.length : Int)) := by
  obtain ⟨s, hs, h⟩ := of_bind_ok h
  obtain ⟨m, -, h⟩ := of_bind_ok h
  obtain ⟨fresh, hfresh, h⟩ := of_bind_ok h
  have hoff := mapChanges_offset hs
  rw [JavaArray.new] at hfresh
  split at hfresh
  · cases hfresh
    rw [fillPerm_length h, List.length_replicate, prePermRange, if_neg (by simpa using hne)]
    dsimp only at hoff
    congr 1
    omega
  · cases hfresh

end Recorder

end OpenJfx.Collections
