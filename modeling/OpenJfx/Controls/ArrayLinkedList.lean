/-
  OpenJfx.Controls.ArrayLinkedList

  `VirtualFlow.ArrayLinkedList`: a list of cells in a window of an array, which grows at
  both ends.  The window is `[firstIndex, lastIndex]`, and -1 stands for no window.
-/

import OpenJfx.Lib.JavaArray
import OpenJfx.Lib.ListAt

namespace OpenJfx.Controls

open List

/-- The array, with the first and the last index used, -1 for none. -/
structure ArrayLinkedList (T : Type) where
  array : List (Option T)
  firstIndex : Int
  lastIndex : Int
  deriving DecidableEq

namespace ArrayLinkedList

variable {T : Type}

def new : ArrayLinkedList T := ⟨replicate 50 none, -1, -1⟩

/-- `array.get`. -/
def arrayGet (i : Int) : JavaM (ArrayLinkedList T) (Option T) := fun s =>
  JavaM.ofExcept (JavaArray.get s.array i) s

/-- `array.set`. -/
def arraySet (i : Int) (cell : Option T) : JavaM (ArrayLinkedList T) Unit := fun s =>
  match JavaArray.set s.array i cell with
  | .ok array => .ok () { s with array }
  | .error e => .error e s

/-- `array.add(i, cell)` -/
def arrayAdd (i : Int) (cell : Option T) : JavaM (ArrayLinkedList T) Unit := fun s =>
  if 0 ≤ i ∧ i ≤ s.array.length then
    .ok () { s with array := s.array.insertIdx i.toNat cell }
  else .error .indexOutOfBounds s

def setWindow (firstIndex lastIndex : Int) : JavaM (ArrayLinkedList T) Unit := fun s =>
  .ok () { s with firstIndex, lastIndex }

/-- Null for an empty list. -/
def getFirst : JavaM (ArrayLinkedList T) (Option T) := fun s =>
  if s.firstIndex = -1 then .ok none s else arrayGet s.firstIndex s

/-- Null for an empty list. -/
def getLast : JavaM (ArrayLinkedList T) (Option T) := fun s =>
  if s.lastIndex = -1 then .ok none s else arrayGet s.lastIndex s

/-- At index 0 the array grows in front. -/
def addFirst (cell : T) : JavaM (ArrayLinkedList T) Unit := fun s =>
  if s.firstIndex = -1 then
    arraySet (s.array.length / 2) cell
      { s with firstIndex := s.array.length / 2, lastIndex := s.array.length / 2 }
  else if s.firstIndex = 0 then
    (do arrayAdd 0 cell; setWindow s.firstIndex (s.lastIndex + 1) : JavaM _ _) s
  else arraySet (s.firstIndex - 1) cell { s with firstIndex := s.firstIndex - 1 }

/-- At the last index the array grows behind. -/
def addLast (cell : T) : JavaM (ArrayLinkedList T) Unit := fun s =>
  if s.firstIndex = -1 then
    arraySet (s.array.length / 2) cell
      { s with firstIndex := s.array.length / 2, lastIndex := s.array.length / 2 }
  else if s.lastIndex = s.array.length - 1 then
    arrayAdd (s.lastIndex + 1) cell { s with lastIndex := s.lastIndex + 1 }
  else arraySet (s.lastIndex + 1) cell { s with lastIndex := s.lastIndex + 1 }

def size (s : ArrayLinkedList T) : Int :=
  if s.firstIndex = -1 then 0 else s.lastIndex - s.firstIndex + 1

def isEmpty (s : ArrayLinkedList T) : Bool := s.firstIndex = -1

/-- Null outside the list. -/
def get (index : Int) : JavaM (ArrayLinkedList T) (Option T) := fun s =>
  if index > s.lastIndex - s.firstIndex ∨ index < 0 then .ok none s
  else arrayGet (s.firstIndex + index) s

def clear (s : ArrayLinkedList T) : ArrayLinkedList T := ⟨s.array.map fun _ => none, -1, -1⟩

/-- The loop of `remove`, from `i` on. -/
def moveDown : Nat → Int → JavaM (ArrayLinkedList T) Unit
  | 0, _ => pure ()
  | n + 1, i => do
    let cell ← arrayGet i
    arraySet (i - 1) cell
    moveDown n (i + 1)

/-- At the ends the window shrinks; in the middle the cells behind move down. -/
def remove (index : Int) : JavaM (ArrayLinkedList T) (Option T) := fun s =>
  if index > s.lastIndex - s.firstIndex ∨ index < 0 then .error .indexOutOfBounds s
  else if index = 0 then
    (do
      let cell ← arrayGet s.firstIndex
      arraySet s.firstIndex none
      if s.firstIndex = s.lastIndex then setWindow (-1) (-1)
      else setWindow (s.firstIndex + 1) s.lastIndex
      return cell : JavaM _ _) s
  else if index = s.lastIndex - s.firstIndex then
    (do
      let cell ← arrayGet s.lastIndex
      arraySet s.lastIndex none
      setWindow s.firstIndex (s.lastIndex - 1)
      return cell : JavaM _ _) s
  else
    (do
      let cell ← arrayGet (s.firstIndex + index)
      arraySet (s.firstIndex + index) none
      moveDown (s.lastIndex - (s.firstIndex + index)).toNat (s.firstIndex + index + 1)
      arraySet s.lastIndex none
      setWindow s.firstIndex (s.lastIndex - 1)
      return cell : JavaM _ _) s

def removeFirst : JavaM (ArrayLinkedList T) (Option T) := fun s =>
  if s.isEmpty then .ok none s else remove 0 s

def removeLast : JavaM (ArrayLinkedList T) (Option T) := fun s =>
  if s.isEmpty then .ok none s else remove (s.lastIndex - s.firstIndex) s

/-! ## Runs -/

/-- A method. -/
inductive Call (T : Type) where
  | addFirst (cell : T)
  | addLast (cell : T)
  | removeFirst
  | removeLast
  | remove (index : Int)
  | get (index : Int)
  | getFirst
  | getLast
  | size
  | isEmpty
  | clear

/-- What a call returns: a cell or null, or the value of `size()` or `isEmpty()`. -/
inductive Value (T : Type) where
  | cell (cell : Option T)
  | int (n : Int)
  | bool (b : Bool)
  | void
  deriving DecidableEq

/-- A call and its result. -/
def perform : Call T → JavaM (ArrayLinkedList T) (Value T)
  | .addFirst cell => do addFirst cell; return .void
  | .addLast cell => do addLast cell; return .void
  | .removeFirst => .cell <$> removeFirst
  | .removeLast => .cell <$> removeLast
  | .remove index => .cell <$> remove index
  | .get index => .cell <$> get index
  | .getFirst => .cell <$> getFirst
  | .getLast => .cell <$> getLast
  | .size => fun s => .ok (.int s.size) s
  | .isEmpty => fun s => .ok (.bool s.isEmpty) s
  | .clear => fun s => .ok .void s.clear

/-- A plain list. -/
def plain (cells : List T) : Call T → Except JavaException (Value T) × List T
  | .addFirst cell => (.ok .void, cell :: cells)
  | .addLast cell => (.ok .void, cells ++ [cell])
  | .removeFirst => (.ok (.cell cells.head?), cells.tail)
  | .removeLast => (.ok (.cell cells.getLast?), cells.dropLast)
  | .remove index =>
    if 0 ≤ index ∧ index < cells.length then
      (.ok (.cell cells[index.toNat]?), cells.eraseIdx index.toNat)
    else (.error .indexOutOfBounds, cells)
  | .get index => (.ok (.cell (if 0 ≤ index then cells[index.toNat]? else none)), cells)
  | .getFirst => (.ok (.cell cells.head?), cells)
  | .getLast => (.ok (.cell cells.getLast?), cells)
  | .size => (.ok (.int cells.length), cells)
  | .isEmpty => (.ok (.bool cells.isEmpty), cells)
  | .clear => (.ok .void, [])

def outcome : EStateM.Result JavaException (ArrayLinkedList T) (Value T) →
    Except JavaException (Value T) × ArrayLinkedList T
  | .ok value s => (.ok value, s)
  | .error e s => (.error e, s)

/-- Calls one after the other, whether they throw or not. -/
def runCalls {σ : Type} (step : σ → Call T → Except JavaException (Value T) × σ) :
    σ → List (Call T) → List (Except JavaException (Value T)) × σ
  | s, [] => ([], s)
  | s, call :: calls =>
    let rest := runCalls step (step s call).2 calls
    ((step s call).1 :: rest.1, rest.2)

/-- A run from the empty list. -/
def run (calls : List (Call T)) : List (Except JavaException (Value T)) × ArrayLinkedList T :=
  runCalls (fun s call => outcome (perform call s)) new calls

/-- No call is `get(0)` on the empty list. -/
def Careful (cells : List T) : List (Call T) → Prop
  | [] => True
  | call :: calls => (call = .get 0 → cells ≠ []) ∧ Careful (plain cells call).2 calls

/-! ## The window -/

/-- The window holds `cells`, between `X` and `Y`. -/
structure Spans (s : ArrayLinkedList T) (X : List (Option T)) (cells : List T)
    (Y : List (Option T)) : Prop where
  array : s.array = X ++ cells.map some ++ Y
  first : s.firstIndex = X.length
  last : s.lastIndex = X.length + cells.length - 1

/-- The object holds the cells of a plain list. -/
def Holds (s : ArrayLinkedList T) (cells : List T) : Prop :=
  (cells = [] ∧ s.firstIndex = -1 ∧ s.lastIndex = -1 ∧ s.array ≠ []) ∨
    (cells ≠ [] ∧ ∃ X Y, Spans s X cells Y)

variable {s : ArrayLinkedList T} {cells : List T} {X Y : List (Option T)} {x y : Option T} {i : Int}

theorem Spans.holds {c : T} (h : Spans s X (c :: cells) Y) : Holds s (c :: cells) :=
  Or.inr ⟨cons_ne_nil c cells, X, Y, h⟩

theorem Spans.isEmpty (h : Spans s X cells Y) : ¬ s.isEmpty = true := by
  have hf := h.first
  rw [ArrayLinkedList.isEmpty, decide_eq_true_eq]
  omega

theorem arrayGet_eq (h : s.array = X ++ x :: Y) (hi : i = X.length) : arrayGet i s = .ok x s := by
  rw [arrayGet, h, hi, JavaArray.get_seam]
  rfl

theorem arraySet_eq (h : s.array = X ++ x :: Y) (hi : i = X.length) :
    arraySet i y s = .ok () { s with array := X ++ y :: Y } := by
  rw [arraySet, h, hi, JavaArray.set_seam]

theorem arrayAdd_eq (h : s.array = X ++ Y) (hi : i = X.length) :
    arrayAdd i x s = .ok () { s with array := X ++ x :: Y } := by
  rw [arrayAdd, if_pos ⟨by omega, by rw [h, length_append]; omega⟩, h, hi, Int.toNat_natCast,
    ListAt.insertIdx_seam]

theorem bind_ok {α β : Type} {m : JavaM (ArrayLinkedList T) α} {s' : ArrayLinkedList T} {a : α}
    (h : m s = .ok a s') (f : α → JavaM (ArrayLinkedList T) β) : (m >>= f) s = f a s' := by
  simp only [bind, EStateM.bind, h]

theorem map_ok {α β : Type} {m : JavaM (ArrayLinkedList T) α} {s' : ArrayLinkedList T} {a : α}
    {f : α → β} (h : m s = .ok a s') : (f <$> m) s = .ok (f a) s' := by
  simp only [Functor.map, EStateM.map, h]

theorem middle (hA : s.array ≠ []) (cell : T) :
    ∃ s', arraySet ((s.array.length : Int) / 2) (some cell)
      { s with firstIndex := s.array.length / 2, lastIndex := s.array.length / 2 } = .ok () s' ∧
      Holds s' [cell] := by
  have hpos := length_pos_iff.mpr hA
  obtain ⟨X, b, Y, hXY, hX, hb⟩ :=
    ListAt.exists_split s.array (n := s.array.length / 2) (m := 1) (by omega)
  obtain ⟨x, rfl⟩ := length_eq_one_iff.mp hb
  rw [append_assoc] at hXY
  exact ⟨_, arraySet_eq hXY (by omega), Spans.holds (X := X) (Y := Y)
    ⟨by simp, by dsimp only; omega, by dsimp only [length]; omega⟩⟩

theorem Holds.addFirst (h : Holds s cells) (cell : T) :
    ∃ s', addFirst cell s = .ok () s' ∧ Holds s' (cell :: cells) := by
  unfold ArrayLinkedList.addFirst
  rcases h with ⟨rfl, hf, hl, hA⟩ | ⟨hne, X, Y, hA, hf, hl⟩
  · rw [if_pos hf]
    exact middle hA cell
  · rw [if_neg (by omega)]
    rcases eq_nil_or_concat' X with rfl | ⟨X, x, rfl⟩
    · have hadd := arrayAdd_eq (s := s) (i := 0) (x := some cell) (X := []) (Y := s.array) rfl rfl
      rw [if_pos (by simpa using hf), bind_ok hadd]
      exact ⟨_, rfl, Spans.holds (X := []) (Y := Y)
        ⟨by simp [hA], hf, by dsimp only [length] at hl ⊢; omega⟩⟩
    · rw [length_append, length_singleton] at hf hl
      rw [append_assoc, append_assoc] at hA
      rw [if_neg (by omega)]
      exact ⟨_, arraySet_eq hA (by omega), Spans.holds (X := X) (Y := Y)
        ⟨by simp, by dsimp only; omega, by dsimp only [length]; omega⟩⟩

theorem Holds.addLast (h : Holds s cells) (cell : T) :
    ∃ s', addLast cell s = .ok () s' ∧ Holds s' (cells ++ [cell]) := by
  unfold ArrayLinkedList.addLast
  rcases h with ⟨rfl, hf, hl, hA⟩ | ⟨hne, X, Y, hA, hf, hl⟩
  · rw [if_pos hf]
    exact middle hA cell
  · have hlen := congrArg List.length hA
    have hend : (s.lastIndex + 1 : Int) = (X ++ cells.map some).length := by
      rw [length_append, length_map]
      omega
    have hspan (Y' : List (Option T)) : Holds ⟨X ++ cells.map some ++ some cell :: Y',
        s.firstIndex, s.lastIndex + 1⟩ (cells ++ [cell]) :=
      Or.inr ⟨by simp, X, Y', by simp, hf, by rw [length_append, length_singleton]; dsimp only; omega⟩
    rw [if_neg (by omega)]
    rw [length_append, length_append, length_map] at hlen
    cases Y with
    | nil =>
      rw [if_pos (by rw [length_nil] at hlen; omega)]
      exact ⟨_, arrayAdd_eq hA hend, hspan []⟩
    | cons y Y =>
      rw [if_neg (by rw [length_cons] at hlen; omega)]
      exact ⟨_, arraySet_eq hA hend, hspan Y⟩

theorem moveDown_eq {P B : List (Option T)} (h : s.array = P ++ x :: (B ++ Y))
    (hi : i = P.length + 1) :
    ∃ z, moveDown B.length i s = .ok () { s with array := P ++ B ++ z :: Y } := by
  induction B generalizing P x i s with
  | nil =>
    refine ⟨x, ?_⟩
    rw [append_nil]
    exact congrArg (fun array => EStateM.Result.ok () { s with array }) h
  | cons b B ih =>
    have hget : arrayGet i s = .ok b s :=
      arrayGet_eq (X := P ++ [x]) (Y := B ++ Y) (by simp [h]) (by simp [hi])
    have hset : arraySet (i - 1) b s = .ok () { s with array := P ++ b :: (b :: B ++ Y) } :=
      arraySet_eq h (by omega)
    obtain ⟨z, hz⟩ := ih (s := { s with array := P ++ b :: (b :: B ++ Y) }) (P := P ++ [b]) (x := b)
      (i := i + 1) (by simp) (by rw [length_append, length_singleton]; omega)
    refine ⟨z, ?_⟩
    rw [length_cons, moveDown, bind_ok hget, bind_ok hset, hz]
    simp

/-- A cell in the middle. -/
theorem Spans.remove {c : T} (as : List T) {bs : List T} (h : Spans s X (as ++ c :: bs) Y) :
    ∃ s', remove as.length s = .ok (some c) s' ∧ Holds s' (as ++ bs) := by
  have hA : s.array = X ++ as.map some ++ some c :: (bs.map some ++ Y) := by
    rw [h.array]
    simp
  have hf := h.first
  have hl := h.last
  rw [length_append, length_cons] at hl
  have hi : s.firstIndex + as.length = (X ++ as.map some).length := by
    rw [length_append, length_map]
    omega
  have hget := arrayGet_eq hA hi
  have hset := arraySet_eq (y := none) hA hi
  unfold ArrayLinkedList.remove
  rw [if_neg (by omega)]
  by_cases has : (as.length : Int) = 0
  · obtain rfl : as = [] := length_eq_zero_iff.mp (by omega)
    rw [length_nil, Int.natCast_zero, Int.add_zero] at hget hset
    rw [if_pos has, bind_ok hget, bind_ok hset]
    cases bs with
    | nil =>
      rw [if_pos (by dsimp only [length] at hl; omega)]
      exact ⟨_, rfl, Or.inl ⟨rfl, rfl, rfl, by simp⟩⟩
    | cons b bs =>
      rw [if_neg (by dsimp only [length] at hl; omega)]
      refine ⟨_, rfl, Spans.holds (X := X ++ [none]) (Y := Y) ⟨by simp, ?_, ?_⟩⟩
      · rw [length_append, length_singleton]
        dsimp only
        omega
      · rw [length_append, length_singleton]
        dsimp only [length] at hl ⊢
        omega
  · rw [if_neg has]
    have hspan (A : List (Option T)) (hlast : s.lastIndex - 1 = X.length + (as ++ bs).length - 1)
        (hA : A = X ++ as.map some ++ bs.map some ++ none :: Y) :
        Holds ⟨A, s.firstIndex, s.lastIndex - 1⟩ (as ++ bs) :=
      Or.inr ⟨by rintro heq; simp_all, X, none :: Y, by simp [hA], hf, hlast⟩
    by_cases hbs : (as.length : Int) = s.lastIndex - s.firstIndex
    · obtain rfl : bs = [] := length_eq_zero_iff.mp (by omega)
      have hlast : s.firstIndex + as.length = s.lastIndex := by omega
      rw [hlast] at hget hset
      rw [if_pos hbs, bind_ok hget, bind_ok hset]
      exact ⟨_, rfl, hspan _ (by rw [append_nil]; omega) (by simp)⟩
    · rw [if_neg hbs, bind_ok hget, bind_ok hset]
      obtain ⟨z, hz⟩ := moveDown_eq (i := s.firstIndex + as.length + 1) (B := bs.map some) (Y := Y)
        (s := { s with array := X ++ as.map some ++ none :: (bs.map some ++ Y) }) rfl (by omega)
      have hn : (s.lastIndex - (s.firstIndex + as.length)).toNat = (bs.map some).length := by
        rw [length_map]
        omega
      rw [hn, bind_ok hz]
      have hclear := arraySet_eq (y := none) (i := s.lastIndex) (x := z) (Y := Y)
        (X := X ++ as.map some ++ bs.map some)
        (s := { s with array := X ++ as.map some ++ bs.map some ++ z :: Y }) rfl (by
          rw [@length_append _ (X ++ _), ← hn]
          omega)
      rw [bind_ok hclear]
      exact ⟨_, rfl, hspan _ (by rw [length_append]; omega) rfl⟩

theorem Holds.getFirst (h : Holds s cells) : getFirst s = .ok cells.head? s := by
  unfold ArrayLinkedList.getFirst
  rcases h with ⟨rfl, hf, hl, hA⟩ | ⟨hne, X, Y, hA, hf, hl⟩
  · rw [if_pos hf]
    rfl
  · obtain ⟨c, cells, rfl⟩ := exists_cons_of_ne_nil hne
    rw [if_neg (by omega)]
    exact arrayGet_eq (X := X) (Y := cells.map some ++ Y) (by simp [hA]) hf

theorem Holds.getLast (h : Holds s cells) : getLast s = .ok cells.getLast? s := by
  unfold ArrayLinkedList.getLast
  rcases h with ⟨rfl, hf, hl, hA⟩ | ⟨hne, X, Y, hA, hf, hl⟩
  · rw [if_pos hl]
    rfl
  · obtain ⟨cells, c, rfl⟩ := (eq_nil_or_concat' cells).resolve_left hne
    rw [length_append, length_singleton] at hl
    rw [if_neg (by omega), getLast?_append, getLast?_singleton]
    refine arrayGet_eq (X := X ++ cells.map some) (Y := Y) (by simp [hA]) ?_
    rw [length_append, length_map]
    omega

theorem exists_seam (cells : List T) {n : Nat} (h : n < cells.length) :
    ∃ as c bs, cells = as ++ c :: bs ∧ as.length = n := by
  obtain ⟨as, b, bs, rfl, has, hb⟩ := ListAt.exists_split cells (n := n) (m := 1) h
  obtain ⟨c, rfl⟩ := length_eq_one_iff.mp hb
  exact ⟨as, c, bs, append_assoc .., has⟩

theorem Holds.get (h : Holds s cells) {index : Int} (hempty : index = 0 → cells ≠ []) :
    get index s = .ok (if 0 ≤ index then cells[index.toNat]? else none) s := by
  unfold ArrayLinkedList.get
  by_cases hin : 0 ≤ index ∧ index < cells.length
  · obtain ⟨as, c, bs, rfl, has⟩ := exists_seam cells (n := index.toNat) (by omega)
    obtain ⟨hnil, -⟩ | ⟨-, X, Y, hA, hf, hl⟩ := h
    · exact absurd hnil (by simp)
    · rw [length_append, length_cons] at hl
      rw [if_neg (by omega), if_pos hin.1, ← has, ListAt.getElem?_seam]
      refine arrayGet_eq (X := X ++ as.map some) (Y := bs.map some ++ Y) (by simp [hA]) ?_
      rw [length_append, length_map]
      omega
  · have hnone : (if 0 ≤ index then cells[index.toNat]? else none) = none := by
      split
      · exact getElem?_eq_none (by omega)
      · rfl
    rw [hnone, if_pos]
    rcases h with ⟨rfl, hf, hl, -⟩ | ⟨-, X, Y, hA, hf, hl⟩
    · have : index ≠ 0 := fun h0 => hempty h0 rfl
      omega
    · omega

/-- Every call does to the window what it does to the list. -/
theorem Holds.perform (h : Holds s cells) (call : Call T)
    (hcall : call = .get 0 → cells ≠ []) :
    ∃ s', Holds s' (plain cells call).2 ∧ outcome (perform call s) = ((plain cells call).1, s') := by
  cases call with
  | addFirst cell =>
    obtain ⟨s', hs, h'⟩ := h.addFirst cell
    exact ⟨s', h', congrArg outcome (bind_ok hs _)⟩
  | addLast cell =>
    obtain ⟨s', hs, h'⟩ := h.addLast cell
    exact ⟨s', h', congrArg outcome (bind_ok hs _)⟩
  | removeFirst =>
    rcases h with ⟨rfl, hf, h'⟩ | ⟨hne, X, Y, hspan⟩
    · exact ⟨s, Or.inl ⟨rfl, hf, h'⟩, congrArg outcome (map_ok (if_pos (decide_eq_true hf)))⟩
    · obtain ⟨c, cells, rfl⟩ := exists_cons_of_ne_nil hne
      obtain ⟨s', hs, h'⟩ := hspan.remove []
      refine ⟨s', h', congrArg outcome (map_ok ((if_neg ?_).trans hs))⟩
      exact hspan.isEmpty
  | removeLast =>
    rcases h with ⟨rfl, hf, h'⟩ | ⟨hne, X, Y, hspan⟩
    · exact ⟨s, Or.inl ⟨rfl, hf, h'⟩, congrArg outcome (map_ok (if_pos (decide_eq_true hf)))⟩
    · obtain ⟨cells, c, rfl⟩ := (eq_nil_or_concat' cells).resolve_left hne
      obtain ⟨s', hs, h'⟩ := hspan.remove cells
      have hlen : s.lastIndex - s.firstIndex = cells.length := by
        rw [hspan.first, hspan.last, length_append, length_singleton]
        omega
      rw [append_nil] at h'
      refine ⟨s', by simpa [plain] using h', ?_⟩
      rw [plain, getLast?_append, getLast?_singleton]
      exact congrArg outcome (map_ok ((if_neg hspan.isEmpty).trans (hlen ▸ hs)))
  | remove index =>
    by_cases hin : 0 ≤ index ∧ index < cells.length
    · obtain ⟨as, c, bs, rfl, has⟩ := exists_seam cells (n := index.toNat) (by omega)
      obtain ⟨hnil, -⟩ | ⟨-, X, Y, hspan⟩ := h
      · exact absurd hnil (by simp)
      · obtain ⟨s', hs, h'⟩ := hspan.remove as
        rw [plain, if_pos hin, ← has, ListAt.getElem?_seam, ListAt.eraseIdx_seam]
        rw [has, Int.toNat_of_nonneg hin.1] at hs
        exact ⟨s', h', congrArg outcome (map_ok hs)⟩
    · rw [plain, if_neg hin]
      have hthrow : remove index s = .error .indexOutOfBounds s := by
        unfold ArrayLinkedList.remove
        rcases h with ⟨rfl, hf, hl, -⟩ | ⟨-, X, Y, hA, hf, hl⟩
        · rw [hf, hl]
          by_cases h0 : index = 0
          · rw [if_neg (by omega), if_pos h0]
            rfl
          · rw [if_pos (by omega)]
        · rw [if_pos (by omega)]
      refine ⟨s, h, ?_⟩
      simp only [ArrayLinkedList.perform, Functor.map, EStateM.map, hthrow]
      rfl
  | get index =>
    exact ⟨s, h, congrArg outcome (map_ok (h.get fun h0 => hcall (h0 ▸ rfl)))⟩
  | getFirst => exact ⟨s, h, congrArg outcome (map_ok h.getFirst)⟩
  | getLast => exact ⟨s, h, congrArg outcome (map_ok h.getLast)⟩
  | size =>
    refine ⟨s, h, congrArg (fun n => (Except.ok (Value.int n), s)) ?_⟩
    rcases h with ⟨rfl, hf, -⟩ | ⟨-, X, Y, hA, hf, hl⟩
    · exact if_pos hf
    · rw [ArrayLinkedList.size, if_neg (by omega)]
      omega
  | isEmpty =>
    refine ⟨s, h, congrArg (fun b => (Except.ok (Value.bool b), s)) ?_⟩
    rcases h with ⟨rfl, hf, -⟩ | ⟨hne, X, Y, hspan⟩
    · exact decide_eq_true hf
    · rw [isEmpty_eq_false_iff.mpr hne]
      exact Bool.eq_false_iff.mpr hspan.isEmpty
  | clear =>
    refine ⟨s.clear, Or.inl ⟨rfl, rfl, rfl, ?_⟩, rfl⟩
    rcases h with ⟨-, -, -, hA⟩ | ⟨hne, X, Y, hA, -⟩
    · simpa [clear] using hA
    · simpa [clear, hA] using fun _ h0 => absurd h0 hne

theorem runCalls_eq {calls : List (Call T)} (h : Holds s cells) (hcalls : Careful cells calls) :
    (runCalls (fun s call => outcome (perform call s)) s calls).1 =
        (runCalls plain cells calls).1 ∧
      Holds (runCalls (fun s call => outcome (perform call s)) s calls).2
        (runCalls plain cells calls).2 := by
  induction calls generalizing s cells with
  | nil => exact ⟨rfl, h⟩
  | cons call calls ih =>
    obtain ⟨s', h', hs⟩ := h.perform call hcalls.1
    obtain ⟨hresults, hend⟩ := ih h' hcalls.2
    simp only [runCalls, hs]
    exact ⟨congrArg _ hresults, hend⟩

/-- A run without `get(0)` on the empty list returns what a plain list returns, and leaves its
    cells. -/
theorem run_eq_plain (calls : List (Call T)) (hcalls : Careful [] calls) :
    (run calls).1 = (runCalls plain [] calls).1 ∧
      Holds (run calls).2 (runCalls plain [] calls).2 :=
  runCalls_eq (Or.inl ⟨rfl, rfl, rfl, by simp [new]⟩) hcalls

/-- The first of two cells is removed. -/
theorem run_eq_plain_remove :
    (run [.addLast 1, .addFirst 2, .remove 0, .get 0]).1 =
        (runCalls plain [] [.addLast 1, .addFirst 2, .remove 0, .get 0]).1 ∧
      Holds (run [.addLast 1, .addFirst 2, .remove 0, .get 0]).2 [1] :=
  run_eq_plain [.addLast 1, .addFirst 2, .remove 0, .get 0] (by simp [Careful, plain])

/-- Of an empty list the first cell is read at index -1. -/
theorem run_get_empty : ¬ ∀ calls : List (Call Nat),
    (run calls).1 = (runCalls plain [] calls).1 := by
  intro h
  exact absurd (h [.get 0]) (by decide)

end ArrayLinkedList

end OpenJfx.Controls
