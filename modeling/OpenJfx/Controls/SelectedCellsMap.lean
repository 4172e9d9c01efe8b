/-
  OpenJfx.Controls.SelectedCellsMap

  Model of `com.sun.javafx.scene.control.SelectedCellsMap`: the list of the selected cells, and
  a map with a bit set for each row that tells whether a cell is selected.
-/

import Mathlib.Data.Finset.Basic
import OpenJfx.Lib.Machine

namespace OpenJfx.Controls

open List Function

/-- A column of -1, for a whole row, is none. -/
structure Cell where
  row : Int
  column : Option Nat
  deriving DecidableEq

/-- The cells in order, and the columns selected in each row. -/
structure SelectedCellsMap where
  selectedCells : List Cell
  selectedCellBitSetMap : Int → Option (Finset Nat)

namespace SelectedCellsMap

def new : SelectedCellsMap := ⟨[], fun _ => none⟩

/-- The bit set of a row, or a new one. -/
def bitset (map : Int → Option (Finset Nat)) (row : Int) : Finset Nat := (map row).getD ∅

/-- The bit set of the row is put into the map, with the bit of the cell. -/
def mark (map : Int → Option (Finset Nat)) (tp : Cell) : Int → Option (Finset Nat) :=
  update map tp.row (some (match tp.column with
    | some columnIndex => insert columnIndex (bitset map tp.row)
    | none => bitset map tp.row))

/-- The bit set is put in any case; the cell is added to the list if it is new. -/
def add (cellSelectionEnabled : Bool) (tp : Cell) (s : SelectedCellsMap) : SelectedCellsMap :=
  let bitset := bitset s.selectedCellBitSetMap tp.row
  let isNewBitSet := (s.selectedCellBitSetMap tp.row).isNone
  let put := { s with
    selectedCellBitSetMap := update s.selectedCellBitSetMap tp.row (some bitset) }
  let added := ⟨s.selectedCells ++ [tp], mark s.selectedCellBitSetMap tp⟩
  if cellSelectionEnabled then
    match tp.column with
    | some columnIndex => if columnIndex ∈ bitset then put else added
    | none => if tp ∈ s.selectedCells then put else added
  else if isNewBitSet then added else put

def addAll (cells : List Cell) (s : SelectedCellsMap) : SelectedCellsMap :=
  ⟨s.selectedCells ++ cells, cells.foldl mark s.selectedCellBitSetMap⟩

def setAll (cells : List Cell) (_ : SelectedCellsMap) : SelectedCellsMap :=
  ⟨cells, cells.foldl mark fun _ => none⟩

/-- The bit set of the row after the bit of the cell has been cleared. -/
def cleared (map : Int → Option (Finset Nat)) (tp : Cell) : Finset Nat :=
  match tp.column with
  | some columnIndex => (bitset map tp.row).erase columnIndex
  | none => bitset map tp.row

/-- The row's bit set is dropped when it is empty. -/
def remove (tp : Cell) (s : SelectedCellsMap) : SelectedCellsMap :=
  ⟨s.selectedCells.erase tp,
    if (s.selectedCellBitSetMap tp.row).isSome then
      update s.selectedCellBitSetMap tp.row (if cleared s.selectedCellBitSetMap tp = ∅ then none
          else some (cleared s.selectedCellBitSetMap tp))
    else s.selectedCellBitSetMap⟩

/-- Without a column, whether the row has a bit set. -/
def isSelected (s : SelectedCellsMap) (row : Int) : Option Nat → Bool
  | none => (s.selectedCellBitSetMap row).isSome
  | some columnIndex => columnIndex ∈ bitset s.selectedCellBitSetMap row

/-- A method. -/
inductive Call where
  | add (tp : Cell)
  | addAll (cells : List Cell)
  | setAll (cells : List Cell)
  | remove (tp : Cell)
  | clear

def apply (cellSelectionEnabled : Bool) (s : SelectedCellsMap) : Call → SelectedCellsMap
  | .add tp => s.add cellSelectionEnabled tp
  | .addAll cells => s.addAll cells
  | .setAll cells => s.setAll cells
  | .remove tp => s.remove tp
  | .clear => new

/-! ## The list and the map -/

/-- The map says which cells are in the list. -/
structure Indexes (map : Int → Option (Finset Nat)) (cells : List Cell) : Prop where
  cell : ∀ row columnIndex, columnIndex ∈ bitset map row ↔ ⟨row, some columnIndex⟩ ∈ cells
  row : ∀ row, (map row).isSome = true ↔ ∃ tp ∈ cells, tp.row = row

/-- What `isSelected` answers agrees with the list, in which no cell occurs twice. -/
structure Agrees (s : SelectedCellsMap) : Prop where
  cell : ∀ row columnIndex,
    s.isSelected row (some columnIndex) = true ↔ ⟨row, some columnIndex⟩ ∈ s.selectedCells
  row : ∀ row, s.isSelected row none = true ↔ ∃ tp ∈ s.selectedCells, tp.row = row
  nodup : s.selectedCells.Nodup

/-- No cell twice, and none of a whole row left as its only one. -/
def Harmless (s : SelectedCellsMap) : Call → Prop
  | .addAll cells => (s.selectedCells ++ cells).Nodup
  | .setAll cells => cells.Nodup
  | .remove tp => ⟨tp.row, none⟩ ∈ s.selectedCells.erase tp →
    ∃ columnIndex, ⟨tp.row, some columnIndex⟩ ∈ s.selectedCells.erase tp
  | _ => True

variable {map : Int → Option (Finset Nat)} {cells : List Cell} {s : SelectedCellsMap} {tp : Cell}

theorem agrees_def :
    s.Agrees ↔ Indexes s.selectedCellBitSetMap s.selectedCells ∧ s.selectedCells.Nodup := by
  refine ⟨fun h => ⟨⟨fun row columnIndex => ?_, h.row⟩, h.nodup⟩,
    fun h => ⟨fun row columnIndex => ?_, h.1.row, h.2⟩⟩
  · rw [← h.cell, isSelected, decide_eq_true_eq]
  · rw [← h.1.cell, isSelected, decide_eq_true_eq]

theorem Indexes.new : Indexes (fun _ => none) [] := ⟨by simp [bitset], by simp⟩

theorem Indexes.mark (h : Indexes map cells) (tp : Cell) :
    Indexes (mark map tp) (cells ++ [tp]) := by
  refine ⟨fun row columnIndex => ?_, fun row => ?_⟩
  · rw [mem_append, mem_singleton, ← h.cell]
    by_cases hrow : row = tp.row
    · obtain ⟨r, column⟩ := tp
      subst hrow
      cases column with
      | none => simp [bitset, SelectedCellsMap.mark]
      | some c => simp [bitset, SelectedCellsMap.mark, or_comm]
    · have hne : (⟨row, some columnIndex⟩ : Cell) ≠ tp := fun heq => hrow (heq ▸ rfl)
      simp [bitset, SelectedCellsMap.mark, hrow, hne]
  · simp only [mem_append, mem_singleton, or_and_right, exists_or, exists_eq_left, ← h.row]
    by_cases hrow : row = tp.row
    · simp [SelectedCellsMap.mark, hrow]
    · simp [SelectedCellsMap.mark, hrow, Ne.symm hrow]

theorem Indexes.marks (h : Indexes map cells) (more : List Cell) :
    Indexes (more.foldl SelectedCellsMap.mark map) (cells ++ more) := by
  induction more generalizing map cells with
  | nil => rwa [append_nil]
  | cons tp more ih => rw [append_cons]; exact ih (h.mark tp)

theorem put_eq (h : (map tp.row).isSome = true) : update map tp.row (some (bitset map tp.row)) = map := by
  obtain ⟨b, hb⟩ := Option.isSome_iff_exists.mp h
  rw [bitset, hb, Option.getD_some, ← hb, update_eq_self]

theorem Agrees.add (h : s.Agrees) (cellSelectionEnabled : Bool) (tp : Cell) :
    (s.add cellSelectionEnabled tp).Agrees := by
  obtain ⟨hmap, hnd⟩ := agrees_def.mp h
  have hadded : tp ∉ s.selectedCells →
      Agrees ⟨s.selectedCells ++ [tp], mark s.selectedCellBitSetMap tp⟩ := fun hnew =>
    agrees_def.mpr ⟨hmap.mark tp,
      (perm_append_singleton tp _).nodup_iff.mpr (nodup_cons.mpr ⟨hnew, hnd⟩)⟩
  have hput : (∃ cell ∈ s.selectedCells, cell.row = tp.row) → Agrees { s with
      selectedCellBitSetMap := update s.selectedCellBitSetMap tp.row
        (some (bitset s.selectedCellBitSetMap tp.row)) } := by
    intro hrow
    rwa [put_eq ((hmap.row _).mpr hrow)]
  obtain ⟨row, column⟩ := tp
  unfold SelectedCellsMap.add
  dsimp only
  split
  · cases column with
    | some c =>
      dsimp only
      split
      · next hbit => exact hput ⟨_, (hmap.cell _ _).mp hbit, rfl⟩
      · next hbit => exact hadded fun hmem => hbit ((hmap.cell _ _).mpr hmem)
    | none =>
      dsimp only
      split
      · next hmem => exact hput ⟨_, hmem, rfl⟩
      · next hmem => exact hadded hmem
  · split
    · next hnone =>
      refine hadded fun hmem => ?_
      have hsome := (hmap.row row).mpr ⟨_, hmem, rfl⟩
      rw [Option.isNone_iff_eq_none.mp hnone] at hsome
      cases hsome
    · next hsome => exact hput ((hmap.row row).mp (by simpa [Option.isSome_iff_ne_none] using hsome))

theorem Agrees.remove_iff (h : s.Agrees) (tp : Cell) :
    (s.remove tp).Agrees ↔ s.Harmless (.remove tp) := by
  obtain ⟨hmap, hnd⟩ := agrees_def.mp h
  refine (agrees_def.trans (and_iff_left (hnd.erase tp))).trans ?_
  have hmem : ∀ cell, cell ∈ s.selectedCells.erase tp ↔ cell ≠ tp ∧ cell ∈ s.selectedCells :=
    fun cell => hnd.mem_erase_iff
  have hother : ∀ row ≠ tp.row,
      (s.remove tp).selectedCellBitSetMap row = s.selectedCellBitSetMap row := by
    intro row hrow
    unfold SelectedCellsMap.remove
    split <;> simp [hrow]
  have hbits : bitset (s.remove tp).selectedCellBitSetMap tp.row =
        cleared s.selectedCellBitSetMap tp ∧
      (((s.remove tp).selectedCellBitSetMap tp.row).isSome = true ↔
        (cleared s.selectedCellBitSetMap tp).Nonempty) := by
    unfold SelectedCellsMap.remove bitset
    split
    · by_cases hemp : cleared s.selectedCellBitSetMap tp = ∅
      · simp [hemp]
      · simp [hemp, Finset.nonempty_iff_ne_empty]
    · next hnone =>
      have hnone := Option.not_isSome_iff_eq_none.mp hnone
      have hemp : cleared s.selectedCellBitSetMap tp = ∅ := by
        unfold cleared bitset
        split <;> simp [hnone]
      simp [hnone, hemp]
  have hcell : ∀ columnIndex, columnIndex ∈ cleared s.selectedCellBitSetMap tp ↔
      ⟨tp.row, some columnIndex⟩ ∈ s.selectedCells.erase tp := by
    intro columnIndex
    obtain ⟨row, column⟩ := tp
    rw [hmem, ← hmap.cell]
    cases column <;> simp [cleared]
  refine ⟨fun hidx hnone => ?_, fun hleft => ⟨fun row columnIndex => ?_, fun row => ?_⟩⟩
  · obtain ⟨columnIndex, hbit⟩ := hbits.2.mp ((hidx.row _).mpr ⟨_, hnone, rfl⟩)
    exact ⟨columnIndex, (hcell _).mp hbit⟩
  · by_cases hrow : row = tp.row
    · rw [hrow, hbits.1, hcell]
      rfl
    · rw [bitset, hother row hrow]
      exact (hmap.cell row columnIndex).trans
        ((hmem _).trans (and_iff_right fun heq => hrow (heq ▸ rfl))).symm
  · by_cases hrow : row = tp.row
    · rw [hrow, hbits.2]
      refine ⟨fun ⟨c, hc⟩ => ⟨_, (hcell c).mp hc, rfl⟩, fun ⟨⟨r, column⟩, hin, hr⟩ => ?_⟩
      obtain rfl : r = tp.row := hr
      cases column with
      | none => exact (hleft hin).imp fun c hc => (hcell c).mpr hc
      | some c => exact ⟨c, (hcell c).mpr hin⟩
    · rw [hother row hrow, hmap.row]
      refine exists_congr fun cell => and_congr_left fun hr => ?_
      exact ((hmem cell).trans (and_iff_right fun heq => hrow (hr ▸ heq ▸ rfl))).symm

/-! ## Runs -/

theorem Agrees.apply_iff (h : s.Agrees) (cellSelectionEnabled : Bool) (call : Call) :
    (s.apply cellSelectionEnabled call).Agrees ↔ s.Harmless call := by
  cases call with
  | add tp => exact iff_of_true (h.add cellSelectionEnabled tp) trivial
  | addAll cells => exact agrees_def.trans (and_iff_right ((agrees_def.mp h).1.marks cells))
  | setAll cells => exact agrees_def.trans (and_iff_right (Indexes.new.marks cells))
  | remove tp => exact h.remove_iff tp
  | clear => exact iff_of_true (agrees_def.mpr ⟨Indexes.new, nodup_nil⟩) trivial

def step (cellSelectionEnabled : Bool) (s : SelectedCellsMap) (call : Call) :
    Option SelectedCellsMap := some (s.apply cellSelectionEnabled call)

/-- They agree after each call exactly if each is harmless. -/
theorem agrees_of_run (cellSelectionEnabled : Bool) (calls : List Call) :
    AllSteps (fun s call => (s.apply cellSelectionEnabled call).Agrees)
        (step cellSelectionEnabled) new calls ↔
      AllSteps Harmless (step cellSelectionEnabled) new calls := by
  have hst : new.Agrees := agrees_def.mpr ⟨Indexes.new, nodup_nil⟩
  generalize new = s at hst
  induction calls generalizing s with
  | nil => exact Iff.rfl
  | cons call calls ih =>
    have hstep := hst.apply_iff cellSelectionEnabled call
    constructor
    · rintro ⟨hagr, hrest⟩
      refine ⟨hstep.mp hagr, fun s' hs => ?_⟩
      cases hs
      exact (ih _ hagr).mp (hrest _ rfl)
    · rintro ⟨hharm, hrest⟩
      refine ⟨hstep.mpr hharm, fun s' hs => ?_⟩
      cases hs
      exact (ih _ (hstep.mpr hharm)).mpr (hrest _ rfl)

/-- A whole row, a cell of it, and the cell removed again. -/
theorem agrees_fails : ¬∀ (cellSelectionEnabled : Bool) (calls : List Call),
    AllSteps (fun s call => (s.apply cellSelectionEnabled call).Agrees)
      (step cellSelectionEnabled) new calls := by
  intro h
  obtain ⟨-, h⟩ := h true [.add ⟨0, none⟩, .add ⟨0, some 1⟩, .remove ⟨0, some 1⟩]
  obtain ⟨-, h⟩ := h _ rfl
  have hrow := ((h _ rfl).1.row 0).mpr ⟨⟨0, none⟩, by decide, rfl⟩
  revert hrow
  decide

end SelectedCellsMap

end OpenJfx.Controls
