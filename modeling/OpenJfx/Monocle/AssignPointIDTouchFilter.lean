/-
  OpenJfx.Monocle.AssignPointIDTouchFilter

  The filter that gives IDs to points without one: each call matches the points with those of the
  state before, greedily by distance from the smaller side; the rest acquire a new ID.
-/

import OpenJfx.Lib.JavaArray
import OpenJfx.Lib.Machine
import OpenJfx.Monocle.IntSet
import OpenJfx.Monocle.MultiTouch.Basic
import Mathlib.Algebra.Order.Ring.Abs
import Mathlib.Data.List.Perm.Subperm
import Mathlib.Tactic.Linarith

namespace OpenJfx.Monocle

open List Int JavaArray TouchState IntSet

open OpenJfx (JavaException JavaArray.get JavaArray.set runActions AllSteps)

variable {flags : List Int} {p q : Point} {points : List Point} {id : Int}
  {f f' : AssignPointIDTouchFilter}

/-- The value of an `int` expression. -/
def toInt (n : Int) : Int := n.bmod (2 ^ 32)

def TouchState.ids (ts : TouchState) : List Int := ts.points.map Point.id

/-- The filter with its IDs. -/
structure AssignPointIDTouchFilter where
  oldState : TouchState
  mappedIndices : List Int
  ids : IntSet
  nextID : Int

variable {state : TouchState} {count : Nat}

namespace AssignPointIDTouchFilter

/-! ## The filter -/

/-- The filter of a touch input that has seen no point yet. -/
def new : AssignPointIDTouchFilter := ⟨.new, [0], .new, 1⟩

/-- Acquire a touch point ID. -/
def acquireID (f : AssignPointIDTouchFilter) : Int × AssignPointIDTouchFilter :=
  (f.nextID, { f with ids := f.ids.addInt f.nextID, nextID := toInt (f.nextID + 1) })

/-- Release a touch point ID. -/
def releaseID (f : AssignPointIDTouchFilter) (id : Int) : AssignPointIDTouchFilter :=
  let ids := f.ids.removeInt id
  { f with ids, nextID := ids.elements.foldl (fun nextID id => max (toInt (id + 1)) nextID) 1 }

/-- `mappedIndices`, with 0 for at least `count` indices. -/
def unmapped (mappedIndices : List Int) (count : Nat) : List Int :=
  List.replicate (max mappedIndices.length count) 0

/-- In `int` arithmetic. -/
def distanceSquared (p q : Point) : Int :=
  let distanceX := toInt (p.x - q.x)
  let distanceY := toInt (p.y - q.y)
  toInt (toInt (distanceX * distanceX) + toInt (distanceY * distanceY))

/-- The search from index `j` on. -/
def closest (p : Point) : List Point → List Int → Int → Int → Int → Except JavaException Int
  | [], _, _, mappedIndex, _ => .ok mappedIndex
  | _ :: _, [], _, _, _ => .error .indexOutOfBounds
  | q :: points, mapped :: mappedIndices, j, mappedIndex, closestDistanceSquared =>
    if mapped = 0 ∧ distanceSquared p q < closestDistanceSquared then
      closest p points mappedIndices (j + 1) j (distanceSquared p q)
    else closest p points mappedIndices (j + 1) mappedIndex closestDistanceSquared

/-- The search starts with no index and with `Integer.MAX_VALUE`. -/
def mappedIndex (p : Point) (points : List Point) (mappedIndices : List Int) :
    Except JavaException Int :=
  closest p points mappedIndices 0 (-1) (2 ^ 31 - 1)

/-- Each point of the old state gives its ID to a point of the new one. -/
def mapOldPoints : List Point → List Point → List Int → Except JavaException (List Point × List Int)
  | [], points, mappedIndices => .ok (points, mappedIndices)
  | oldPoint :: rest, points, mappedIndices => do
    let index ← mappedIndex oldPoint points mappedIndices
    let newPoint ← get points index
    let points ← set points index { newPoint with id := oldPoint.id }
    let mappedIndices ← set mappedIndices index 1
    mapOldPoints rest points mappedIndices

/-- Each point of the new state takes its ID from a point of the old one. -/
def mapNewPoints (old : List Point) :
    List Point → List Int → Nat → Except JavaException (List Point × List Int)
  | [], mappedIndices, _ => .ok ([], mappedIndices)
  | newPoint :: rest, mappedIndices, mappedIndexCount =>
    if mappedIndexCount < old.length then do
      let index ← mappedIndex newPoint old mappedIndices
      let oldPoint ← get old index
      let mappedIndices ← set mappedIndices index 1
      let (rest, mappedIndices) ← mapNewPoints old rest mappedIndices (mappedIndexCount + 1)
      return ({ newPoint with id := oldPoint.id } :: rest, mappedIndices)
    else .ok (newPoint :: rest, mappedIndices)

/-- Every point acquires an ID. -/
def acquireIDs (f : AssignPointIDTouchFilter) : List Point → AssignPointIDTouchFilter × List Point
  | [] => (f, [])
  | p :: points =>
    let (id, f) := f.acquireID
    let (f, points) := f.acquireIDs points
    (f, { p with id } :: points)

/-- Every point that is not mapped acquires an ID. -/
def acquireUnmapped (f : AssignPointIDTouchFilter) :
    List Point → List Int → Except JavaException (AssignPointIDTouchFilter × List Point)
  | [], _ => .ok (f, [])
  | _ :: _, [] => .error .indexOutOfBounds
  | p :: points, mapped :: mappedIndices =>
    if mapped = 0 then do
      let (id, f) := f.acquireID
      let (f, points) ← f.acquireUnmapped points mappedIndices
      return (f, { p with id } :: points)
    else do
      let (f, points) ← f.acquireUnmapped points mappedIndices
      return (f, p :: points)

/-- The IDs that are not in use any more are released. -/
def releaseIDs (f : AssignPointIDTouchFilter) (state : TouchState) :
    List Point → AssignPointIDTouchFilter
  | [] => f
  | oldPoint :: rest =>
    match state.getPointForID oldPoint.id with
    | none => (f.releaseID oldPoint.id).releaseIDs state rest
    | some _ => f.releaseIDs state rest

/-- The three branches of `filter`. -/
def assign (f : AssignPointIDTouchFilter) (points : List Point) :
    Except JavaException (AssignPointIDTouchFilter × List Point) :=
  let old := f.oldState.points
  if old.length = 0 then .ok (f.acquireIDs points)
  else if old.length ≤ points.length then do
    let mappedIndices := unmapped f.mappedIndices points.length
    let (points, mappedIndices) ← mapOldPoints old points mappedIndices
    let f := { f with mappedIndices }
    if old.length < points.length then f.acquireUnmapped points mappedIndices
    else return (f, points)
  else do
    let mappedIndices := unmapped f.mappedIndices old.length
    let (points, mappedIndices) ← mapNewPoints old points mappedIndices 0
    return ({ f with mappedIndices }, points)

/-- `filter`: the filter and the state object afterwards. -/
def filter (f : AssignPointIDTouchFilter) (state : TouchState) :
    Except JavaException (AssignPointIDTouchFilter × TouchState) := do
  let (f, points) ← f.assign state.points
  let state := { state with points }
  let f := f.releaseIDs state f.oldState.points
  return ({ f with oldState := state }, state)

/-! ## Flags -/

/-- The elements that have this flag. -/
def withFlag {α : Type} (flag : Int) (l : List α) (flags : List Int) : List α :=
  ((l.zip flags).filter fun e => e.2 = flag).map Prod.fst

section Flags

variable {α : Type}

theorem withFlag_cons (flag : Int) (a : α) (l : List α) (b : Int) (flags : List Int) :
    withFlag flag (a :: l) (b :: flags) =
      if b = flag then a :: withFlag flag l flags else withFlag flag l flags := by
  simp only [withFlag, zip_cons_cons, filter_cons, decide_eq_true_eq]
  split <;> rfl

theorem withFlag_cons_self (flag : Int) (a : α) (l : List α) (flags : List Int) :
    withFlag flag (a :: l) (flag :: flags) = a :: withFlag flag l flags := by
  rw [withFlag_cons, if_pos rfl]

theorem withFlag_cons_of_ne {flag b : Int} (h : b ≠ flag) (a : α) (l : List α) (flags : List Int) :
    withFlag flag (a :: l) (b :: flags) = withFlag flag l flags := by
  rw [withFlag_cons, if_neg h]

theorem withFlag_replicate (l : List α) (h : l.length ≤ count) :
    withFlag 0 l (List.replicate count 0) = l ∧ withFlag 1 l (List.replicate count 0) = [] := by
  induction l generalizing count with
  | nil => exact ⟨rfl, rfl⟩
  | cons a l ih =>
    obtain ⟨count, rfl⟩ : ∃ c, count = c + 1 := ⟨count - 1, by rw [length_cons] at h; omega⟩
    obtain ⟨h0, h1⟩ := ih (Nat.le_of_succ_le_succ h)
    rw [replicate_succ, withFlag_cons_self, withFlag_cons_of_ne (by decide), h0, h1]
    exact ⟨rfl, rfl⟩

variable {l : List α}

theorem withFlag_set {j : Nat} {a : α} (ha : l[j]? = some a) (hj : flags[j]? = some 0) (a' : α) :
    (withFlag 1 (l.set j a') (flags.set j 1)).Perm (a' :: withFlag 1 l flags) ∧
      (withFlag 0 l flags).Perm (a :: withFlag 0 (l.set j a') (flags.set j 1)) := by
  induction l generalizing flags j with
  | nil => cases ha
  | cons b l ih =>
    cases flags with
    | nil => cases hj
    | cons flag flags =>
      cases j with
      | zero =>
        obtain rfl : b = a := Option.some.inj ha
        obtain rfl : flag = 0 := Option.some.inj hj
        rw [set_cons_zero, set_cons_zero, withFlag_cons_self,
          withFlag_cons_of_ne (by decide), withFlag_cons_self, withFlag_cons_of_ne (by decide)]
        exact ⟨.refl _, .refl _⟩
      | succ j =>
        obtain ⟨h1, h0⟩ := ih ha hj
        rw [set_cons_succ, set_cons_succ]
        constructor
        · by_cases hflag : flag = 1
          · rw [hflag, withFlag_cons_self, withFlag_cons_self]
            exact (h1.cons b).trans (.swap _ _ _)
          · rw [withFlag_cons_of_ne hflag, withFlag_cons_of_ne hflag]
            exact h1
        · by_cases hflag : flag = 0
          · rw [hflag, withFlag_cons_self, withFlag_cons_self]
            exact (h0.cons b).trans (.swap _ _ _)
          · rw [withFlag_cons_of_ne hflag, withFlag_cons_of_ne hflag]
            exact h0

theorem withFlag_perm (hlen : l.length ≤ flags.length)
    (hflags : ∀ flag ∈ flags, flag = 0 ∨ flag = 1) :
    (withFlag 1 l flags ++ withFlag 0 l flags).Perm l := by
  induction l generalizing flags with
  | nil => exact .refl _
  | cons a l ih =>
    cases flags with
    | nil => cases hlen
    | cons flag flags =>
      obtain ⟨hflag, hrest⟩ := forall_mem_cons.1 hflags
      have hperm := ih (Nat.le_of_succ_le_succ hlen) hrest
      obtain rfl | rfl := hflag
      · rw [withFlag_cons_self, withFlag_cons_of_ne (by decide)]
        exact perm_middle.trans (hperm.cons a)
      · rw [withFlag_cons_self, withFlag_cons_of_ne (by decide)]
        exact hperm.cons a

theorem set_eq_self {k : Nat} {a : α} (h : l[k]? = some a) : l.set k a = l := by
  obtain ⟨hk, rfl⟩ := List.getElem?_eq_some_iff.1 h
  exact set_getElem_self hk

theorem mem_flags_set (hflags : ∀ flag ∈ flags, flag = 0 ∨ flag = 1) (j : Nat) :
    ∀ flag ∈ flags.set j 1, flag = 0 ∨ flag = 1 := by
  intro flag hflag
  obtain h | rfl := mem_or_eq_of_mem_set hflag
  · exact hflags flag h
  · exact .inr rfl

end Flags

/-! ## The search -/

theorem toInt_eq {n : Int} (h1 : -2 ^ 31 ≤ n) (h2 : n < 2 ^ 31) : toInt n = n :=
  bmod_eq_of_le (by omega) (by omega)

/-- The squared distance is below `Integer.MAX_VALUE`. -/
def NearTo (p q : Point) : Prop := (p.x - q.x) ^ 2 + (p.y - q.y) ^ 2 < 2 ^ 31 - 1

instance : DecidableRel NearTo := fun p q =>
  inferInstanceAs (Decidable ((p.x - q.x) ^ 2 + (p.y - q.y) ^ 2 < 2 ^ 31 - 1))

theorem distanceSquared_lt (h : NearTo p q) : distanceSquared p q < 2 ^ 31 - 1 := by
  have hsq : ∀ d e : Int, d ^ 2 + e ^ 2 < 2 ^ 31 - 1 → toInt d = d ∧ toInt (d * d) = d * d := by
    intro d e hd
    have he := sq_nonneg e
    have hlt : d ^ 2 < (2 ^ 16) ^ 2 := by omega
    have hd1 := abs_lt_of_sq_lt_sq hlt (by decide)
    rw [abs_lt] at hd1
    rw [sq] at hd
    exact ⟨toInt_eq (by omega) (by omega), toInt_eq (by nlinarith) (by omega)⟩
  obtain ⟨hx, hxx⟩ := hsq _ _ h
  obtain ⟨hy, hyy⟩ := hsq _ _ ((add_comm _ _).trans_lt h)
  simp only [distanceSquared, hx, hy, hxx, hyy]
  rw [NearTo, sq, sq] at h
  rw [toInt_eq (by nlinarith) (by omega)]
  exact h

/-- The search ends at an index whose flag is 0, or where it started. -/
theorem closest_spec (p : Point)
    (hlen : points.length ≤ flags.length) (j mappedIndex closestDistanceSquared : Int) :
    ∃ i, closest p points flags j mappedIndex closestDistanceSquared = .ok i ∧
      ((∃ (k : Nat) (q : Point), i = j + k ∧ points[k]? = some q ∧ flags[k]? = some 0) ∨
        (i = mappedIndex ∧ ∀ q ∈ withFlag 0 points flags, closestDistanceSquared ≤ distanceSquared p q)) := by
  induction points generalizing flags j mappedIndex closestDistanceSquared with
  | nil => exact ⟨mappedIndex, rfl, .inr ⟨rfl, forall_mem_nil _⟩⟩
  | cons q points ih =>
    cases flags with
    | nil => cases hlen
    | cons flag flags =>
      have hlen' := Nat.le_of_succ_le_succ hlen
      rw [closest]
      by_cases htake : flag = 0 ∧ distanceSquared p q < closestDistanceSquared
      · rw [if_pos htake]
        obtain ⟨i, hi, ⟨k, r, rfl, hr, hk⟩ | ⟨rfl, -⟩⟩ := ih hlen' (j + 1) j (distanceSquared p q)
        · exact ⟨_, hi, .inl ⟨k + 1, r, by omega, hr, hk⟩⟩
        · exact ⟨i, hi, .inl ⟨0, q, by omega, rfl, congrArg some htake.1⟩⟩
      · rw [if_neg htake]
        obtain ⟨i, hi, ⟨k, r, rfl, hr, hk⟩ | ⟨rfl, hfar⟩⟩ :=
          ih hlen' (j + 1) mappedIndex closestDistanceSquared
        · exact ⟨_, hi, .inl ⟨k + 1, r, by omega, hr, hk⟩⟩
        · refine ⟨i, hi, .inr ⟨rfl, ?_⟩⟩
          rw [withFlag_cons]
          split
          · next hflag =>
            exact forall_mem_cons.2 ⟨not_lt.1 fun hlt => htake ⟨hflag, hlt⟩, hfar⟩
          · exact hfar

theorem mappedIndex_found (hlen : points.length ≤ flags.length) (hnear : ∀ q ∈ points, NearTo p q)
    (hsome : withFlag 0 points flags ≠ []) :
    ∃ (k : Nat) (q : Point), mappedIndex p points flags = .ok k ∧ points[k]? = some q ∧
      flags[k]? = some 0 := by
  obtain ⟨i, hi, ⟨k, q, rfl, hq, hk⟩ | ⟨-, hfar⟩⟩ := closest_spec p hlen 0 (-1) (2 ^ 31 - 1)
  · rw [Int.zero_add] at hi
    exact ⟨k, q, hi, hq, hk⟩
  · obtain ⟨q, hq⟩ := exists_mem_of_ne_nil _ hsome
    have hmem : q ∈ points := by
      obtain ⟨e, he, rfl⟩ := mem_map.1 hq
      exact (of_mem_zip (mem_of_mem_filter he)).1
    exact absurd (distanceSquared_lt (hnear q hmem)) (not_lt.2 (hfar q hq))

/-! ## The matching loops -/

def coordinates (p : Point) : Int × Int := (p.x, p.y)

theorem near_of_coordinates {points' : List Point}
    (h : points'.map coordinates = points.map coordinates) (hnear : ∀ q ∈ points, NearTo p q) :
    ∀ q ∈ points', NearTo p q := by
  intro q hq
  obtain ⟨r, hr, heq⟩ := mem_map.1 (h ▸ mem_map_of_mem hq)
  obtain ⟨hx, hy⟩ := Prod.ext_iff.1 heq
  have := hnear r hr
  rw [NearTo] at this ⊢
  rwa [← show r.x = q.x from hx, ← show r.y = q.y from hy]

theorem coordinates_set {k : Nat} (hq : points[k]? = some q)
    (id : Int) : (points.set k { q with id }).map coordinates = points.map coordinates := by
  rw [map_set]
  refine set_eq_self ?_
  rw [getElem?_map, hq]
  rfl

/-- Every point of the old state gives its ID away, each to another point. -/
theorem mapOldPoints_spec {old points : List Point} {flags : List Int}
    (hlen : points.length ≤ flags.length) (hflags : ∀ flag ∈ flags, flag = 0 ∨ flag = 1)
    (hnear : ∀ p ∈ old, ∀ q ∈ points, NearTo p q)
    (hroom : old.length ≤ (withFlag 0 points flags).length) :
    ∃ points' flags', mapOldPoints old points flags = .ok (points', flags') ∧
      points'.map coordinates = points.map coordinates ∧
      points'.length ≤ flags'.length ∧ (∀ flag ∈ flags', flag = 0 ∨ flag = 1) ∧
      ((withFlag 1 points' flags').map Point.id).Perm
        (old.map Point.id ++ (withFlag 1 points flags).map Point.id) ∧
      (withFlag 0 points' flags').length + old.length = (withFlag 0 points flags).length := by
  induction old generalizing points flags with
  | nil => exact ⟨points, flags, rfl, rfl, hlen, hflags, .refl _, rfl⟩
  | cons p old ih =>
    obtain ⟨hnearp, hnear⟩ := forall_mem_cons.1 hnear
    have hsome : withFlag 0 points flags ≠ [] := by
      rintro h
      rw [h] at hroom
      cases hroom
    obtain ⟨k, q, hk, hq, hflag⟩ := mappedIndex_found hlen hnearp hsome
    have hkl : k < points.length := (List.getElem?_eq_some_iff.1 hq).1
    obtain ⟨hmarked, hleft⟩ := withFlag_set hq hflag { q with id := p.id }
    have hcoord := coordinates_set hq p.id
    have hleft' := hleft.length_eq
    rw [length_cons] at hleft' hroom
    obtain ⟨points', flags', hrun, hcoord', hlen', hflags', hmarked', hleft''⟩ :=
      @ih (points.set k { q with id := p.id }) (flags.set k 1)
        (by rw [length_set, length_set]; exact hlen) (mem_flags_set hflags k)
        (fun r hr => near_of_coordinates hcoord (hnear r hr)) (by omega)
    refine ⟨points', flags', ?_, hcoord'.trans hcoord, hlen', hflags', ?_,
      by rw [length_cons]; omega⟩
    · rw [mapOldPoints, hk]
      simp only [bind, Except.bind]
      rw [get_eq_ok (natCast_nonneg k) hq]
      simp only []
      rw [set_eq_ok (natCast_nonneg k) (by omega)]
      simp only []
      rw [set_eq_ok (natCast_nonneg k) (by omega)]
      exact hrun
    · refine hmarked'.trans ?_
      rw [map_cons, cons_append]
      exact ((hmarked.map Point.id).append_left _).trans perm_middle

theorem mapNewPoints_spec {old points : List Point} {flags : List Int}
    (hlen : old.length ≤ flags.length) (hflags : ∀ flag ∈ flags, flag = 0 ∨ flag = 1)
    (hnear : ∀ p ∈ points, ∀ q ∈ old, NearTo p q) {count : Nat}
    (hcnt : count + (withFlag 0 old flags).length = old.length)
    (hroom : points.length ≤ (withFlag 0 old flags).length) :
    ∃ points' flags', mapNewPoints old points flags count = .ok (points', flags') ∧
      points'.map coordinates = points.map coordinates ∧
      (points'.map Point.id ++ (withFlag 0 old flags').map Point.id).Perm
        ((withFlag 0 old flags).map Point.id) := by
  induction points generalizing flags count with
  | nil => exact ⟨[], flags, rfl, rfl, .refl _⟩
  | cons p points ih =>
    obtain ⟨hnearp, hnear⟩ := forall_mem_cons.1 hnear
    rw [length_cons] at hroom
    have hsome : withFlag 0 old flags ≠ [] := by
      rintro h
      rw [h] at hroom
      cases hroom
    obtain ⟨k, q, hk, hq, hflag⟩ := mappedIndex_found hlen hnearp hsome
    have hkl : k < old.length := (List.getElem?_eq_some_iff.1 hq).1
    obtain ⟨-, hleft⟩ := withFlag_set hq hflag q
    rw [set_eq_self hq] at hleft
    have hleft' := hleft.length_eq
    rw [length_cons] at hleft'
    obtain ⟨points', flags', hrun, hcoord, hperm⟩ :=
      @ih (flags.set k 1) (by rw [length_set]; exact hlen) (mem_flags_set hflags k) hnear
        (count + 1) (by omega) (by omega)
    refine ⟨{ p with id := q.id } :: points', flags', ?_, congrArg (coordinates p :: ·) hcoord, ?_⟩
    · rw [mapNewPoints, if_pos (by omega), hk]
      simp only [bind, Except.bind]
      rw [get_eq_ok (natCast_nonneg k) hq]
      simp only []
      rw [set_eq_ok (natCast_nonneg k) (by omega)]
      simp only []
      rw [toNat_natCast, hrun]
      rfl
    · exact (hperm.cons q.id).trans (hleft.map Point.id).symm

/-! ## Acquiring and releasing -/

/-- The IDs that `count` calls of `acquireID` give. -/
def fresh (id : Int) : Nat → List Int
  | 0 => []
  | count + 1 => id :: fresh (id + 1) count

theorem mem_fresh {e : Int} : e ∈ fresh id count ↔ id ≤ e ∧ e < id + count := by
  induction count generalizing id with
  | zero => simp [fresh]
  | succ count ih =>
    rw [fresh, mem_cons, ih]
    omega

theorem nodup_fresh (id : Int) (count : Nat) : (fresh id count).Nodup := by
  induction count generalizing id with
  | zero => exact nodup_nil
  | succ count ih =>
    refine nodup_cons.2 ⟨fun h => ?_, ih (id + 1)⟩
    have := (mem_fresh.1 h).1
    omega

/-- What `count` calls of `acquireID` do to the filter. -/
structure Acquires (f f' : AssignPointIDTouchFilter) (count : Nat) : Prop where
  oldState : f'.oldState = f.oldState
  nextID : f'.nextID = f.nextID + count
  ids : ∀ e, e ∈ f'.ids.elements ↔ e ∈ f.ids.elements ∨ e ∈ fresh f.nextID count

theorem Acquires.zero (hold : f'.oldState = f.oldState)
    (hnxt : f'.nextID = f.nextID) (hids : f'.ids = f.ids) : Acquires f f' 0 :=
  ⟨hold, hnxt.trans (Int.add_zero _).symm, fun e => by rw [hids, fresh]; simp⟩

theorem Acquires.succ (hlow : -2 ^ 31 ≤ f.nextID)
    (hhigh : f.nextID + 1 < 2 ^ 31) (h : Acquires f.acquireID.2 f' count) :
    Acquires f f' (count + 1) := by
  have hnxt : f.acquireID.2.nextID = f.nextID + 1 := toInt_eq (by omega) hhigh
  refine ⟨h.oldState, by rw [h.nextID, hnxt]; omega, fun e => ?_⟩
  rw [h.ids, hnxt, fresh, mem_cons, ← or_assoc]
  exact or_congr_left (IntSet.mem_addInt.trans or_comm)

/-- Every point without a mark acquires an ID, the others keep theirs. -/
theorem acquireUnmapped_spec {f : AssignPointIDTouchFilter} {points : List Point} {flags : List Int}
    (hlen : points.length ≤ flags.length) (hflags : ∀ flag ∈ flags, flag = 0 ∨ flag = 1)
    (hlow : -2 ^ 31 ≤ f.nextID)
    (hhigh : f.nextID + (withFlag 0 points flags).length < 2 ^ 31) :
    ∃ f' points', f.acquireUnmapped points flags = .ok (f', points') ∧
      points'.map coordinates = points.map coordinates ∧
      Acquires f f' (withFlag 0 points flags).length ∧
      (points'.map Point.id).Perm ((withFlag 1 points flags).map Point.id ++
        fresh f.nextID (withFlag 0 points flags).length) := by
  induction points generalizing f flags with
  | nil => exact ⟨f, [], rfl, rfl, .zero rfl rfl rfl, .refl _⟩
  | cons p points ih =>
    cases flags with
    | nil => cases hlen
    | cons flag flags =>
      obtain ⟨hflag, hrest⟩ := forall_mem_cons.1 hflags
      have hlen' := Nat.le_of_succ_le_succ hlen
      obtain rfl | rfl := hflag
      · rw [withFlag_cons_self, length_cons] at hhigh ⊢
        rw [withFlag_cons_of_ne (by decide)]
        have hnxt : f.acquireID.2.nextID = f.nextID + 1 := toInt_eq (by omega) (by omega)
        obtain ⟨f', points', hrun, hcoord, hacq, hperm⟩ :=
          @ih f.acquireID.2 flags hlen' hrest (by omega) (by omega)
        refine ⟨f', { p with id := f.nextID } :: points', ?_, congrArg (coordinates p :: ·) hcoord,
          .succ hlow (by omega) hacq, ?_⟩
        · rw [acquireUnmapped, if_pos rfl]
          show (f.acquireID.2.acquireUnmapped points flags >>= _) = _
          rw [hrun]
          rfl
        · rw [hnxt] at hperm
          exact (hperm.cons f.nextID).trans perm_middle.symm
      · rw [withFlag_cons_of_ne (by decide)] at hhigh ⊢
        rw [withFlag_cons_self]
        obtain ⟨f', points', hrun, hcoord, hacq, hperm⟩ := @ih f flags hlen' hrest hlow hhigh
        refine ⟨f', p :: points', ?_, congrArg (coordinates p :: ·) hcoord, hacq, hperm.cons p.id⟩
        rw [acquireUnmapped, if_neg (by decide), hrun]
        rfl

theorem acquireIDs_eq (f : AssignPointIDTouchFilter) (points : List Point) :
    f.acquireUnmapped points (List.replicate points.length 0) = .ok (f.acquireIDs points) := by
  induction points generalizing f with
  | nil => rfl
  | cons p points ih =>
    rw [length_cons, replicate_succ, acquireUnmapped, if_pos rfl]
    simp only [bind, Except.bind]
    rw [ih]
    rfl

theorem le_nextID {ids : List Int} (hids : ∀ id ∈ ids, -2 ^ 31 ≤ id ∧ id < 2 ^ 31 - 1) {start : Int}
    (hst : start < 2 ^ 31) :
    let nextID := ids.foldl (fun nextID id => max (toInt (id + 1)) nextID) start
    start ≤ nextID ∧ nextID < 2 ^ 31 ∧ ∀ id ∈ ids, id < nextID := by
  induction ids generalizing start with
  | nil => exact ⟨le_rfl, hst, forall_mem_nil _⟩
  | cons id ids ih =>
    obtain ⟨hid, hrest⟩ := forall_mem_cons.1 hids
    have heq : toInt (id + 1) = id + 1 := toInt_eq (by omega) (by omega)
    obtain ⟨h1, h2, h3⟩ := @ih hrest (max (toInt (id + 1)) start) (by omega)
    refine ⟨le_trans (le_max_right _ _) h1, h2, forall_mem_cons.2 ⟨?_, h3⟩⟩
    have hle := (le_max_left _ _).trans h1
    rw [foldl_cons]
    omega

theorem getPointForID_eq_none {ts : TouchState} (hid : id ≠ -1) :
    ts.getPointForID id = none ↔ id ∉ ts.ids := by
  rw [getPointForID, find?_eq_none, TouchState.ids, mem_map, not_exists]
  refine forall_congr' fun p => ?_
  rw [decide_eq_true_eq, not_or, not_and]
  exact imp_congr_right fun _ => and_iff_right hid

/-- What the loop over the old state does to the filter. -/
structure Releases (f f' : AssignPointIDTouchFilter) (lost : Int → Prop) : Prop where
  oldState : f'.oldState = f.oldState
  ids : ∀ e, e ∈ f'.ids.elements ↔ e ∈ f.ids.elements ∧ ¬ lost e
  nextID : (f'.nextID = f.nextID ∧ ∀ e, ¬ lost e) ∨
    (f'.nextID = f'.ids.elements.foldl (fun nextID id => max (toInt (id + 1)) nextID) 1 ∧ ∃ e, lost e)

theorem releaseIDs_spec (f : AssignPointIDTouchFilter) (state : TouchState) {old : List Point}
    (hold : ∀ p ∈ old, p.id ≠ -1) :
    Releases f (f.releaseIDs state old) fun e => e ∈ old.map Point.id ∧ e ∉ state.ids := by
  induction old generalizing f with
  | nil => exact ⟨rfl, fun e => by simp [releaseIDs], .inl ⟨rfl, fun e => by simp⟩⟩
  | cons p old ih =>
    obtain ⟨hp, hrest⟩ := forall_mem_cons.1 hold
    rw [releaseIDs]
    by_cases hmem : p.id ∈ state.ids
    · obtain hnone | ⟨q, hq⟩ := Option.eq_none_or_eq_some (state.getPointForID p.id)
      · exact absurd hmem ((getPointForID_eq_none hp).1 hnone)
      simp only [hq]
      obtain ⟨h1, h2, h3⟩ := ih f hrest
      have hlost : ∀ e, e ∈ (p :: old).map Point.id ∧ e ∉ state.ids ↔
          e ∈ old.map Point.id ∧ e ∉ state.ids := by
        intro e
        rw [map_cons, mem_cons]
        refine ⟨fun h => ⟨h.1.resolve_left ?_, h.2⟩, fun h => ⟨.inr h.1, h.2⟩⟩
        rintro rfl
        exact h.2 hmem
      refine ⟨h1, ?_, ?_⟩
      · simpa only [hlost] using h2
      · simpa only [hlost] using h3
    · rw [(getPointForID_eq_none hp).2 hmem]
      obtain ⟨h1, h2, h3⟩ := ih (f.releaseID p.id) hrest
      refine ⟨h1, fun e => ?_, .inr ⟨?_, p.id, .head _, hmem⟩⟩
      · rw [h2, releaseID, IntSet.mem_removeInt, map_cons, mem_cons]
        by_cases he : e = p.id
        · simp [he, hmem]
        · simp [he]
      · obtain ⟨h3, hnone⟩ | ⟨h3, -⟩ := h3
        · rw [h3]
          have hsame : ((f.releaseID p.id).releaseIDs state old).ids.elements =
              (f.releaseID p.id).ids.elements := by
            refine List.Perm.eq_of_pairwise (fun a b _ _ hab hba => absurd hab (not_lt.2 hba.le))
              (sorted _) (sorted _) ?_
            refine (perm_ext_iff_of_nodup ?_ ?_).2 fun e => ?_
            · exact (sorted _).imp fun h => ne_of_lt h
            · exact (sorted _).imp fun h => ne_of_lt h
            · rw [h2]
              exact and_iff_left (hnone e)
          rw [hsame]
          rfl
        · exact h3

/-! ## One call -/

theorem NearTo.symm (h : NearTo p q) : NearTo q p := by
  rw [NearTo, ← neg_sub p.x, ← neg_sub p.y, neg_sq, neg_sq]
  exact h

theorem unmapped_flags (mappedIndices : List Int) (count : Nat) :
    ∀ flag ∈ unmapped mappedIndices count, flag = 0 ∨ flag = 1 :=
  fun _ h => .inl (eq_of_mem_replicate h)

/-- The IDs that are in use: `kept` stay, `lost` go, and new ones come. -/
structure MappedIDs (f : AssignPointIDTouchFilter) (ids kept lost : List Int) : Prop where
  old : f.oldState.ids.Perm (kept ++ lost)
  new : ids.Perm (kept ++ fresh f.nextID (ids.length - f.oldState.points.length))
  lost : lost.length = f.oldState.points.length - ids.length

/-- Points near old ones take their IDs, the others new ones. -/
theorem assign_spec
    (hnear : ∀ p ∈ f.oldState.points, ∀ q ∈ points, NearTo p q) (hlow : -2 ^ 31 ≤ f.nextID)
    (hhigh : f.nextID + (points.length - f.oldState.points.length : Nat) < 2 ^ 31) :
    ∃ f' points' kept lost, f.assign points = .ok (f', points') ∧
      points'.map coordinates = points.map coordinates ∧
      Acquires f f' (points.length - f.oldState.points.length) ∧
      MappedIDs f (points'.map Point.id) kept lost := by
  rw [assign]
  have hcnt : ∀ {l : List Point}, l.map coordinates = points.map coordinates →
      (l.map Point.id).length = points.length := by
    intro l h
    rw [length_map, ← length_map coordinates, h, length_map]
  by_cases hemp : f.oldState.points.length = 0
  -- the first points all get new IDs
  · obtain ⟨h0, h1⟩ := withFlag_replicate points (Nat.le_refl points.length)
    obtain ⟨f', points', hrun, hcoord, hacq, hperm⟩ :=
      @acquireUnmapped_spec f points (List.replicate points.length 0) (by rw [length_replicate])
        (fun _ h => .inl (eq_of_mem_replicate h)) hlow (by rw [h0]; omega)
    rw [h0] at hacq hperm
    rw [h1] at hperm
    rw [acquireIDs_eq, Except.ok.injEq] at hrun
    refine ⟨f', points', [], [], ?_, hcoord, by rwa [hemp, Nat.sub_zero], ?_, ?_, ?_⟩
    · rw [if_pos hemp, hrun]
    · rw [TouchState.ids, length_eq_zero_iff.1 hemp]
      exact .refl _
    · rw [hcnt hcoord, hemp, Nat.sub_zero]
      exact hperm
    · rw [hemp, Nat.zero_sub]
      rfl
  rw [if_neg hemp]
  by_cases hle : f.oldState.points.length ≤ points.length
  -- every old point finds its new one, and the rest is new
  · obtain ⟨h0, h1⟩ :=
      withFlag_replicate points (Nat.le_max_right f.mappedIndices.length points.length)
    obtain ⟨points', flags', hrun, hcoord, hlen', hflags', hmarked, hleft⟩ :=
      @mapOldPoints_spec f.oldState.points points (unmapped f.mappedIndices points.length)
        (by rw [unmapped, length_replicate]; exact Nat.le_max_right _ _)
        (unmapped_flags _ _) hnear (by rw [unmapped, h0]; exact hle)
    rw [unmapped, h0] at hleft
    rw [unmapped, h1, map_nil, append_nil] at hmarked
    have hk : (withFlag 0 points' flags').length = points.length - f.oldState.points.length := by omega
    rw [if_pos hle]
    simp only [bind, Except.bind, unmapped] at hrun ⊢
    rw [hrun]
    by_cases hlt : f.oldState.points.length < points'.length
    · obtain ⟨f', points'', hrun', hcoord', hacq, hperm⟩ :=
        @acquireUnmapped_spec { f with mappedIndices := flags' } points' flags' hlen' hflags' hlow
          (by rw [hk]; exact hhigh)
      rw [hk] at hacq hperm
      refine ⟨f', points'', f.oldState.ids, [], ?_, hcoord'.trans hcoord, { hacq with }, ?_, ?_, ?_⟩
      · simp only [if_pos hlt]
        exact hrun'
      · rw [append_nil]
      · rw [hcnt (hcoord'.trans hcoord)]
        exact hperm.trans (hmarked.append_right _)
      · rw [hcnt (hcoord'.trans hcoord)]
        exact (Nat.sub_eq_zero_of_le hle).symm
    · have hlen := hcnt hcoord
      rw [length_map] at hlen
      have hnone : points.length - f.oldState.points.length = 0 := by omega
      rw [hnone] at hk ⊢
      have hall := withFlag_perm hlen' hflags'
      rw [length_eq_zero_iff.1 hk, append_nil] at hall
      refine ⟨{ f with mappedIndices := flags' }, points', f.oldState.ids, [], ?_, hcoord,
        .zero rfl rfl rfl, ?_, ?_, ?_⟩
      · simp only [if_neg hlt]
        rfl
      · rw [append_nil]
      · rw [hcnt hcoord, hnone, fresh, append_nil]
        exact (hall.map Point.id).symm.trans hmarked
      · rw [hcnt hcoord]
        exact (Nat.sub_eq_zero_of_le hle).symm
  -- every new point finds its old one, and the rest is released
  · obtain ⟨h0, -⟩ :=
      withFlag_replicate f.oldState.points
        (Nat.le_max_right f.mappedIndices.length f.oldState.points.length)
    obtain ⟨points', flags', hrun, hcoord, hperm⟩ :=
      @mapNewPoints_spec f.oldState.points points (unmapped f.mappedIndices f.oldState.points.length)
        (by rw [unmapped, length_replicate]; exact Nat.le_max_right _ _)
        (unmapped_flags _ _) (fun p hp q hq => (hnear q hq p hp).symm) 0
        (by rw [unmapped, h0, Nat.zero_add]) (by rw [unmapped, h0]; omega)
    rw [unmapped, h0] at hperm
    have hnone : points.length - f.oldState.points.length = 0 := by omega
    rw [hnone]
    rw [if_neg hle]
    simp only [bind, Except.bind] at hrun ⊢
    rw [hrun]
    refine ⟨{ f with mappedIndices := flags' }, points', points'.map Point.id,
      (withFlag 0 f.oldState.points flags').map Point.id, rfl, hcoord, .zero rfl rfl rfl, hperm.symm,
      ?_, ?_⟩
    · rw [hcnt hcoord, hnone, fresh, append_nil]
    · have hlength := hperm.length_eq
      rw [length_append, hcnt hcoord, length_map, length_map] at hlength
      rw [hcnt hcoord, length_map]
      omega

/-- What the IDs are after each call. -/
structure Inv (f : AssignPointIDTouchFilter) : Prop where
  nodup : f.oldState.ids.Nodup
  pos : ∀ id ∈ f.oldState.ids, 0 < id
  ids : ∀ e, e ∈ f.ids.elements ↔ e ∈ f.oldState.ids
  lt : ∀ id ∈ f.oldState.ids, id < f.nextID
  one_le : 1 ≤ f.nextID
  bound : f.nextID < 2 ^ 31
  empty : f.oldState.points = [] → f.nextID = 1

/-- `state'` is `state` with IDs, and `f'` the filter after it. -/
structure Assigned (f : AssignPointIDTouchFilter) (state : TouchState) (f' : AssignPointIDTouchFilter)
    (state' : TouchState) : Prop where
  oldState : f'.oldState = state'
  coordinates : state'.points.map coordinates = state.points.map coordinates
  nodup : state'.ids.Nodup
  pos : ∀ id ∈ state'.ids, 0 < id
  /-- Of `n` IDs, as many stay as the new state has points for, and the remaining
      points get others. -/
  kept : (state'.ids.filter (· ∈ f.oldState.ids)).length =
    min f.oldState.points.length state.points.length
  others : (state'.ids.filter (· ∉ f.oldState.ids)).length =
    state.points.length - min f.oldState.points.length state.points.length
  ids : ∀ e, e ∈ f'.ids.elements ↔ e ∈ state'.ids
  lt : ∀ id ∈ state'.ids, id < f'.nextID
  empty : state'.points = [] → f.oldState.points ≠ [] → f'.nextID = 1

/-- The squared distances are `int` values. -/
def Near (f : AssignPointIDTouchFilter) (state : TouchState) : Prop :=
  ∀ p ∈ f.oldState.points, ∀ q ∈ state.points, NearTo p q

/-- The IDs that the call acquires, and the next one, are `int` values. -/
def Room (f : AssignPointIDTouchFilter) (state : TouchState) : Prop :=
  f.nextID + (state.points.length - f.oldState.points.length : Nat) < 2 ^ 31

instance (f : AssignPointIDTouchFilter) (state : TouchState) : Decidable (f.Near state) :=
  inferInstanceAs (Decidable (∀ p ∈ f.oldState.points, ∀ q ∈ state.points, NearTo p q))

instance (f : AssignPointIDTouchFilter) (state : TouchState) : Decidable (f.Room state) :=
  inferInstanceAs (Decidable
    (f.nextID + (state.points.length - f.oldState.points.length : Nat) < 2 ^ 31))

theorem inv_new : new.Inv where
  nodup := nodup_nil
  pos := forall_mem_nil _
  ids _ := .rfl
  lt := forall_mem_nil _
  one_le := by decide
  bound := by decide
  empty _ := rfl

theorem Inv.kept_lt (h : f.Inv) {ids kept lost : List Int}
    (hm : MappedIDs f ids kept lost) : ∀ e ∈ kept, e ∈ f.oldState.ids ∧ 0 < e ∧ e < f.nextID := by
  intro e he
  have hold := hm.old.mem_iff.2 (mem_append_left lost he)
  exact ⟨hold, h.pos e hold, h.lt e hold⟩

theorem Inv.nodup_ids (h : f.Inv) {ids kept lost : List Int}
    (hm : MappedIDs f ids kept lost) : ids.Nodup := by
  rw [hm.new.nodup_iff, nodup_append]
  refine ⟨(hm.old.nodup_iff.1 h.nodup).of_append_left, nodup_fresh _ _, fun a ha b hb => ?_⟩
  have h1 := h.kept_lt hm a ha
  have h2 := mem_fresh.1 hb
  omega

theorem Inv.length_kept (h : f.Inv) {ids kept lost : List Int} (hm : MappedIDs f ids kept lost) :
    (ids.filter (· ∈ f.oldState.ids)).length = min f.oldState.points.length ids.length := by
  have hfresh : (fresh f.nextID (ids.length - f.oldState.points.length)).filter
      (· ∈ f.oldState.ids) = [] := by
    refine filter_eq_nil_iff.2 fun e he hold => ?_
    have h1 := mem_fresh.1 he
    have h2 := h.lt e (of_decide_eq_true hold)
    omega
  have hkept : kept.filter (· ∈ f.oldState.ids) = kept :=
    filter_eq_self.2 fun e he => decide_eq_true (h.kept_lt hm e he).1
  rw [(hm.new.filter _).length_eq, filter_append, hkept, hfresh, append_nil]
  have hlen := hm.old.length_eq
  rw [length_append, hm.lost, TouchState.ids, length_map] at hlen
  omega

/-- A state near the last one gets its IDs, and the invariant holds again. -/
theorem Inv.filter (h : f.Inv) (hnear : f.Near state) (hroom : f.Room state) :
    ∃ f' state', f.filter state = .ok (f', state') ∧ Assigned f state f' state' ∧ f'.Inv := by
  obtain ⟨f1, points, kept, lost, hrun, hcoord, hacq, hm⟩ :=
    assign_spec hnear (by have := h.one_le; omega) hroom
  have hlen : points.length = state.points.length := by
    rw [← length_map coordinates, hcoord, length_map]
  set state' : TouchState := { state with points } with hstate'
  have hids : state'.ids = points.map Point.id := rfl
  have hrel := @releaseIDs_spec f1 state' f.oldState.points fun p hp => by
    have := h.pos p.id (mem_map_of_mem hp)
    omega
  set f2 := f1.releaseIDs state' f.oldState.points with hf2
  have hfilt : f.filter state = .ok ({ f2 with oldState := state' }, state') := by
    rw [AssignPointIDTouchFilter.filter, hrun]
    simp only [bind, Except.bind]
    rw [hacq.oldState, hf2]
    rfl
  rw [← hids] at hm
  have hlen' : state'.ids.length = state.points.length := by rw [hids, length_map, hlen]
  have hmem : ∀ e, e ∈ state'.ids ↔ e ∈ kept ∨ e ∈ fresh f.nextID (state.points.length -
      f.oldState.points.length) := by
    intro e
    rw [hm.new.mem_iff, mem_append, hlen']
  have hpos : ∀ e ∈ state'.ids, 0 < e ∧ e < f1.nextID := by
    intro e he
    rw [hacq.nextID]
    obtain he | he := (hmem e).1 he
    · have := h.kept_lt hm e he
      omega
    · have h1 := mem_fresh.1 he
      have h2 := h.one_le
      omega
  -- what is not released of the set are the IDs of the new state
  have hidset : ∀ e, e ∈ f2.ids.elements ↔ e ∈ state'.ids := by
    intro e
    rw [hrel.ids, hacq.ids, h.ids, not_and, Classical.not_not]
    constructor
    · rintro ⟨he | he, hstay⟩
      · exact hstay he
      · exact (hmem e).2 (.inr he)
    · intro he
      exact ⟨((hmem e).1 he).imp_left fun he => (h.kept_lt hm e he).1, fun _ => he⟩
  have hbound : f1.nextID < 2 ^ 31 := by
    rw [hacq.nextID]
    exact hroom
  have hnxt : 1 ≤ f2.nextID ∧ f2.nextID < 2 ^ 31 ∧ ∀ e ∈ state'.ids, e < f2.nextID := by
    obtain ⟨heq, -⟩ | ⟨heq, -⟩ := hrel.nextID
    · rw [heq]
      refine ⟨?_, hbound, fun e he => (hpos e he).2⟩
      rw [hacq.nextID]
      exact h.one_le.trans (Int.le_add_of_nonneg_right (natCast_nonneg _))
    · obtain ⟨h1, h2, h3⟩ := @le_nextID f2.ids.elements (fun e he => by
        have := hpos e ((hidset e).1 he)
        omega) 1 (by decide)
      rw [heq]
      exact ⟨h1, h2, fun e he => h3 e ((hidset e).2 he)⟩
  have hemp : state'.points = [] → f.oldState.points ≠ [] → f2.nextID = 1 := by
    intro hnil hold
    have hnone : f2.ids.elements = [] := by
      refine eq_nil_iff_forall_not_mem.2 fun e he => ?_
      have := (hidset e).1 he
      rw [TouchState.ids, hnil] at this
      cases this
    obtain ⟨-, hkept⟩ | ⟨heq, -⟩ := hrel.nextID
    · obtain ⟨p, hp⟩ := exists_mem_of_ne_nil _ hold
      refine absurd ⟨mem_map_of_mem hp, ?_⟩ (hkept p.id)
      rw [TouchState.ids, hnil]
      exact not_mem_nil
    · rw [heq, hnone]
      rfl
  have hkept := h.length_kept hm
  rw [hlen'] at hkept
  have hothers := @length_eq_length_filter_add _ state'.ids (· ∈ f.oldState.ids)
  simp only [← decide_not] at hothers
  refine ⟨_, state', hfilt, ⟨rfl, hcoord, h.nodup_ids hm, fun e he => (hpos e he).1, hkept, by omega,
    hidset, hnxt.2.2, hemp⟩, ⟨h.nodup_ids hm, fun e he => (hpos e he).1, hidset, hnxt.2.2,
    hnxt.1, hnxt.2.1, fun hnil => ?_⟩⟩
  by_cases hold : f.oldState.points = []
  · obtain ⟨heq, -⟩ | ⟨-, e, he, -⟩ := hrel.nextID
    · show f2.nextID = 1
      rw [heq, hacq.nextID, h.empty hold, ← hlen, show points = [] from hnil, hold]
      rfl
    · rw [hold] at he
      cases he
  · exact hemp hnil hold

/-! ## Runs -/

/-- The filter after a call. -/
def step (f : AssignPointIDTouchFilter) (state : TouchState) : Option AssignPointIDTouchFilter :=
  (f.filter state).toOption.map Prod.fst

theorem step_eq {state' : TouchState}
    (h : f.filter state = .ok (f', state')) : f.step state = some f' := by
  rw [step, h]
  rfl

/-- Every call of a run meets the condition, and the last one too. -/
theorem Inv.run (h : f.Inv) {states : List TouchState}
    (hrun : AllSteps (fun f state => f.Near state ∧ f.Room state) step f (states ++ [state])) :
    ∃ f1, runActions step f states = some f1 ∧ f1.Inv ∧ f1.Near state ∧ f1.Room state := by
  induction states generalizing f with
  | nil => exact ⟨f, rfl, h, hrun.1⟩
  | cons s states ih =>
    obtain ⟨⟨hnear, hroom⟩, hrest⟩ := hrun
    obtain ⟨f', s', hf, -, hinv⟩ := h.filter hnear hroom
    obtain ⟨f1, hf1, hinv1, hlast⟩ := ih hinv (hrest f' (step_eq hf))
    refine ⟨f1, ?_, hinv1, hlast⟩
    rw [OpenJfx.runActions_cons, step_eq hf]
    exact hf1

/-- With IDs within the `int` values, no access is out of range, and the points have the IDs they
    should have after each call. -/
theorem assigned_of_run {states : List TouchState} {state : TouchState}
    (hrun : AllSteps (fun f state => f.Near state ∧ f.Room state) step new (states ++ [state])) :
    ∃ f f' state', runActions step new states = some f ∧ f.filter state = .ok (f', state') ∧
      Assigned f state f' state' := by
  obtain ⟨f, hf, hinv, hnear, hroom⟩ := inv_new.run hrun
  obtain ⟨f', state', hcall, hassigned, -⟩ := hinv.filter hnear hroom
  exact ⟨f, f', state', hf, hcall, hassigned⟩

/-- A second finger comes while the first goes. -/
theorem assigned_of_run_swap :
    ∃ f f' state', runActions step new [⟨[⟨0, 10, 10⟩], -1⟩, ⟨[⟨0, 90, 90⟩, ⟨0, 12, 10⟩], -1⟩] = some f ∧
      f.filter ⟨[⟨0, 89, 90⟩], -1⟩ = .ok (f', state') ∧ Assigned f ⟨[⟨0, 89, 90⟩], -1⟩ f' state' := by
  refine assigned_of_run ⟨⟨?_, ?_⟩, fun f₁ h₁ => ⟨⟨?_, ?_⟩, fun f₂ h₂ => ⟨⟨?_, ?_⟩, fun _ _ => trivial⟩⟩⟩
  · exact forall_mem_nil _
  · decide
  · cases h₁
    decide
  · cases h₁
    decide
  · cases h₁
    cases h₂
    decide
  · cases h₁
    cases h₂
    decide

/-! ## Sequences that use up the IDs -/

/-- One point, which has the only ID in use. -/
structure Single (f : AssignPointIDTouchFilter) (p : Point) (id : Int) : Prop where
  points : f.oldState.points = [{ p with id }]
  ids : f.ids.elements = [id]
  nextID : f.nextID = max (toInt (id + 1)) 1
  length : f.mappedIndices.length ≤ 2

/-- Two points, after the second one. -/
structure Pair (f : AssignPointIDTouchFilter) (p q : Point) (id : Int) : Prop where
  points : f.oldState.points = [{ p with id }, { q with id := id + 1 }]
  ids : f.ids.elements = [id, id + 1]
  length : f.mappedIndices.length ≤ 2

def left : Point := ⟨0, 0, 0⟩

def right : Point := ⟨0, 1, 0⟩

/-- The two places, in either order. -/
def Apart (p q : Point) : Prop := (p = left ∧ q = right) ∨ (p = right ∧ q = left)

theorem Apart.symm (h : Apart p q) : Apart q p := (Or.symm h).imp And.symm And.symm

theorem Apart.near (h : Apart p q) (id : Int) :
    NearTo { p with id } p ∧ NearTo { p with id } q ∧ NearTo { q with id } q := by
  obtain ⟨rfl, rfl⟩ | ⟨rfl, rfl⟩ := h
  all_goals simp [NearTo, left, right]

theorem unmapped_two {mappedIndices : List Int} (h : mappedIndices.length ≤ 2) :
    unmapped mappedIndices 2 = [0, 0] := by
  rw [unmapped, Nat.max_eq_right h]
  rfl

theorem Single.press (h : Single f p id) (hpq : Apart p q) (hid : 1 ≤ id) (hmax : id + 1 < 2 ^ 31) :
    ∃ f', f.Near ⟨[p, q], -1⟩ ∧ f.step ⟨[p, q], -1⟩ = some f' ∧ Pair f' p q id := by
  obtain ⟨hpoints, hids, hnxt, hlen⟩ := h
  have hnxt' : f.nextID = id + 1 := by
    rw [hnxt, toInt_eq (by omega) hmax]
    omega
  have hmap : mapOldPoints [{ p with id }] [p, q] [0, 0] = .ok ([{ p with id }, q], [1, 0]) := by
    obtain ⟨rfl, rfl⟩ | ⟨rfl, rfl⟩ := hpq
    all_goals rfl
  have hassign : f.assign [p, q] = .ok (({ f with mappedIndices := [1, 0] } :
      AssignPointIDTouchFilter).acquireID.2, [{ p with id }, { q with id := id + 1 }]) := by
    rw [assign, hpoints, if_neg (by simp), if_pos (by simp)]
    simp only [length_cons, length_nil, unmapped_two hlen, bind, Except.bind, hmap, ← hnxt']
    rfl
  have hadd : addTo (id + 1) [id] = [id, id + 1] := by
    simp [addTo, getIndex]
  have hstays : ({ points := [{ p with id }, { q with id := id + 1 }], primaryID := -1 } :
      TouchState).getPointForID id = some { p with id } := by
    simp [getPointForID]
  have hfilt : f.filter ⟨[p, q], -1⟩ = .ok ({ ({ f with mappedIndices := [1, 0] } :
      AssignPointIDTouchFilter).acquireID.2 with
        oldState := ⟨[{ p with id }, { q with id := id + 1 }], -1⟩ },
      ⟨[{ p with id }, { q with id := id + 1 }], -1⟩) := by
    rw [AssignPointIDTouchFilter.filter, hassign]
    simp only [bind, Except.bind]
    rw [show ({ f with mappedIndices := [1, 0] } : AssignPointIDTouchFilter).acquireID.2.oldState.points =
      [{ p with id }] from hpoints, releaseIDs, hstays]
    rfl
  refine ⟨_, ?_, step_eq hfilt, rfl, ?_, Nat.le_refl 2⟩
  · rw [Near, hpoints]
    simp only [forall_mem_singleton, forall_mem_cons]
    exact ⟨(hpq.near id).1, (hpq.near id).2.1⟩
  · show addTo f.nextID f.ids.elements = _
    rw [hids, hnxt', hadd]

theorem Pair.release (h : Pair f p q id) (hpq : Apart p q) (hid : 1 ≤ id) :
    ∃ f', f.Near ⟨[q], -1⟩ ∧ f.step ⟨[q], -1⟩ = some f' ∧ Single f' q (id + 1) := by
  obtain ⟨hpoints, hids, hlen⟩ := h
  have hmap : mapNewPoints [{ p with id }, { q with id := id + 1 }] [q] [0, 0] 0 =
      .ok ([{ q with id := id + 1 }], [0, 1]) := by
    obtain ⟨rfl, rfl⟩ | ⟨rfl, rfl⟩ := hpq
    all_goals rfl
  have hassign : f.assign [q] = .ok ({ f with mappedIndices := [0, 1] }, [{ q with id := id + 1 }]) := by
    rw [assign, hpoints, if_neg (by simp), if_neg (by simp)]
    simp only [length_cons, length_nil, unmapped_two hlen, bind, Except.bind, hmap]
    rfl
  have hremove : removeFrom id [id, id + 1] = [id + 1] := by
    simp [removeFrom, getIndex]
  have hgone : ({ points := [{ q with id := id + 1 }], primaryID := -1 } :
      TouchState).getPointForID id = none := by
    simp [getPointForID]
    omega
  have hstays : ({ points := [{ q with id := id + 1 }], primaryID := -1 } :
      TouchState).getPointForID (id + 1) = some { q with id := id + 1 } := by
    simp [getPointForID]
  have hfilt : f.filter ⟨[q], -1⟩ = .ok ({ ({ f with mappedIndices := [0, 1] } :
      AssignPointIDTouchFilter).releaseID id with oldState := ⟨[{ q with id := id + 1 }], -1⟩ },
      ⟨[{ q with id := id + 1 }], -1⟩) := by
    rw [AssignPointIDTouchFilter.filter, hassign]
    simp only [bind, Except.bind]
    rw [show ({ f with mappedIndices := [0, 1] } : AssignPointIDTouchFilter).oldState.points =
      [{ p with id }, { q with id := id + 1 }] from hpoints, releaseIDs, hgone]
    simp only [releaseIDs, hstays]
    rfl
  have helements : (f.ids.removeInt id).elements = [id + 1] := by
    show removeFrom id f.ids.elements = _
    rw [hids, hremove]
  refine ⟨_, ?_, step_eq hfilt, rfl, helements, ?_, Nat.le_refl 2⟩
  · rw [Near, hpoints]
    simp only [forall_mem_singleton, forall_mem_cons]
    exact ⟨(hpq.near id).2.1, (hpq.near (id + 1)).2.2⟩
  · rw [releaseID]
    simp only [helements]
    rfl

/-- `n` times, a second finger comes before the first one goes. -/
def turns : Nat → Point → Point → List TouchState
  | 0, _, _ => []
  | n + 1, p, q => ⟨[p, q], -1⟩ :: ⟨[q], -1⟩ :: turns n q p

theorem Single.turns (h : Single f p id)
    (hpq : Apart p q) (hid : 1 ≤ id) {n : Nat} (hmax : id + n < 2 ^ 31) :
    AllSteps Near step f (turns n p q) ∧
      ∃ f' r, runActions step f (turns n p q) = some f' ∧ Single f' r (id + n) := by
  induction n generalizing f p q id with
  | zero => exact ⟨trivial, f, p, rfl, by rwa [Int.natCast_zero, Int.add_zero]⟩
  | succ n ih =>
    obtain ⟨f1, hnear1, hstep1, h1⟩ := h.press hpq hid (by omega)
    obtain ⟨f2, hnear2, hstep2, h2⟩ := h1.release hpq hid
    obtain ⟨hall, f', r, hrun, h'⟩ := ih h2 hpq.symm (by omega) (by omega)
    refine ⟨⟨hnear1, fun f1' hf1' => ?_⟩, f', r, ?_, ?_⟩
    · obtain rfl := Option.some.inj (hstep1.symm.trans hf1')
      refine ⟨hnear2, fun f2' hf2' => ?_⟩
      obtain rfl := Option.some.inj (hstep2.symm.trans hf2')
      exact hall
    · rw [AssignPointIDTouchFilter.turns, OpenJfx.runActions_cons, hstep1, Option.bind_some,
        OpenJfx.runActions_cons, hstep2]
      exact hrun
    · rwa [show id + ((n + 1 : Nat) : Int) = id + 1 + n by omega]

/-- With the largest `int` value as its ID, `nextID` starts again. -/
theorem Single.not_lt (h : Single f p (2 ^ 31 - 1)) : ¬ ∀ id ∈ f.oldState.ids, id < f.nextID := by
  rw [TouchState.ids, h.points, h.nextID]
  intro hlt
  have hid : (2 ^ 31 - 1 : Int) < max (toInt (2 ^ 31 - 1 + 1)) 1 := hlt _ mem_cons_self
  exact absurd hid (by decide)

/-- `2 ^ 31 - 2` turns, up to the largest ID. -/
theorem assigned_fails : ¬ ∀ states state, AllSteps Near step new (states ++ [state]) →
      ∃ f f' state', runActions step new states = some f ∧ f.filter state = .ok (f', state') ∧
        Assigned f state f' state' := by
  intro h
  obtain ⟨n, hn⟩ : ∃ n : Nat, (n : Int) = 2 ^ 31 - 2 := ⟨2 ^ 31 - 2, by norm_num⟩
  set first : TouchState := ⟨[left], -1⟩ with hfst
  have hstep : step new first = some ⟨⟨[{ left with id := 1 }], -1⟩, [0], IntSet.new.addInt 1, 2⟩ := rfl
  have hsingle : Single ⟨⟨[{ left with id := 1 }], -1⟩, [0], IntSet.new.addInt 1, 2⟩ left 1 :=
    ⟨rfl, rfl, rfl, by decide⟩
  obtain ⟨hall, f', r, hrun, hlast⟩ := hsingle.turns (.inl ⟨rfl, rfl⟩) le_rfl (n := n) (by omega)
  -- the last call of the run is one that the property is said of
  have hne : first :: turns n left right ≠ [] := cons_ne_nil _ _
  obtain ⟨states, state, heq⟩ : ∃ states state, first :: turns n left right = states ++ [state] :=
    ⟨_, _, (dropLast_append_getLast hne).symm⟩
  have hall' : AllSteps Near step new (states ++ [state]) := by
    rw [← heq]
    refine ⟨forall_mem_nil _, fun f₁ hf₁ => ?_⟩
    obtain rfl := Option.some.inj (hstep.symm.trans hf₁)
    exact hall
  obtain ⟨f₀, f₁, state', hf₀, hf₁, hassigned⟩ := h states state hall'
  have hrun' : runActions step new (states ++ [state]) = some f' := by
    rw [← heq, OpenJfx.runActions_cons, hstep]
    exact hrun
  rw [runActions, foldlM_append] at hrun'
  rw [runActions] at hf₀
  rw [hf₀] at hrun'
  have hlast' : f₁ = f' := by simpa [step_eq hf₁] using hrun'
  obtain rfl := hlast'
  rw [show (1 : Int) + n = 2 ^ 31 - 1 by omega] at hlast
  refine hlast.not_lt ?_
  rw [hassigned.oldState]
  exact hassigned.lt

end AssignPointIDTouchFilter

end OpenJfx.Monocle
