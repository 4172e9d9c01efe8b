/-
  OpenJfx.Controls.MultipleSelectionModel.SelectedIndices

  The list view of the selected indices.  `get` remembers the last index and its row and goes on
  from there; no selection resets that.  The read is right exactly when the number of selected
  rows up to the remembered row is what it was.
-/

import OpenJfx.Controls.MultipleSelectionModel.Basic

namespace OpenJfx.Controls

open List JavaBitSet

variable {b : JavaBitSet} {n : Nat} {c : Cursor}

/-! ## One read -/

variable {i row k e r : Nat}

namespace Cursor

/-- From scratch, or from a row remembered with its own index. -/
def Continues (n : Nat) (b : JavaBitSet) (index : Nat) (c : Cursor) : Prop :=
  ((index : Int) = c.lastGetIndex + 1 → c.lastGetValue < n →
    b.rows.countP (fun r : Nat => (r : Int) ≤ c.lastGetValue) = index) ∧
  ((index : Int) = c.lastGetIndex - 1 → 0 < c.lastGetValue →
    b.rows.countP (fun r : Nat => (r : Int) < c.lastGetValue) = index + 1)

theorem nextSetBit_after (v : Int) : b.nextSetBit (v + 1).toNat =
      ((b.rows[b.rows.countP fun r : Nat => (r : Int) ≤ v]?).map Int.ofNat).getD (-1) := by
  rw [nextSetBit_eq]
  congr 3
  refine countP_congr fun r _ => ?_
  simp only [decide_eq_true_eq]
  omega

theorem previousSetBit_before {v : Int} (hv : 0 < v) :
    b.previousSetBit (v - 1).toNat = ((if b.rows.countP (fun r : Nat => (r : Int) < v) = 0 then none
      else b.rows[b.rows.countP (fun r : Nat => (r : Int) < v) - 1]?).map Int.ofNat).getD (-1) := by
  have hcnt : b.rows.countP (fun r => r < (v - 1).toNat + 1) =
      b.rows.countP (fun r : Nat => (r : Int) < v) := by
    refine countP_congr fun r _ => ?_
    simp only [decide_eq_true_eq]
    omega
  rw [previousSetBit_eq, hcnt]

theorem scan_eq (k : Nat) (hi : b.rows[i]? = some r) {r' : Nat} (hk : b.rows[i + k]? = some r') :
    scan b k ⟨(i : Int), (r : Int)⟩ = ((r' : Int), ⟨((i + k : Nat) : Int), (r' : Int)⟩) := by
  induction k generalizing i r with
  | zero =>
    obtain rfl : r = r' := Option.some.inj (hi.symm.trans hk)
    rfl
  | succ k ih =>
    have hlt : i + 1 < b.rows.length := by
      have hlt := (List.getElem?_eq_some_iff.1 hk).1
      omega
    have hnxt : b.rows[i + 1]? = some b.rows[i + 1] := getElem?_eq_getElem hlt
    have hbit : b.nextSetBit ((r : Int) + 1).toNat = (b.rows[i + 1] : Nat) := by
      have hcnt := Ascending.countP_le_getElem b.rows_sorted hi
      have htoNat : ((r : Int) + 1).toNat = r + 1 := by omega
      rw [nextSetBit_eq, htoNat, hcnt, hnxt]
      rfl
    have hsum : i + (k + 1) = i + 1 + k := by omega
    rw [scan, if_pos (Int.natCast_nonneg r)]
    dsimp only
    rw [hbit, hsum]
    rw [hsum] at hk
    exact ih hnxt hk

theorem getD_eq_iff (hi : b.rows[i]? = some r) :
    ((b.rows[k]?).map Int.ofNat).getD (-1) = (r : Int) ↔ k = i := by
  constructor
  · intro h
    cases hk : b.rows[k]? with
    | none =>
      rw [hk] at h
      change (-1 : Int) = r at h
      omega
    | some r' =>
      rw [hk] at h
      change (r' : Int) = r at h
      obtain rfl : r' = r := by omega
      obtain ⟨hlt, hr⟩ := List.getElem?_eq_some_iff.1 hi
      obtain ⟨hlt', hr'⟩ := List.getElem?_eq_some_iff.1 hk
      exact (b.rows_nodup.getElem_inj_iff).1 (hr'.trans hr.symm)
  · rintro rfl
    rw [hi]
    rfl

theorem get_eq_iff (hbelow : ∀ r, b.bit r = true → r < n) {index : Nat}
    (hr : b.rows[index]? = some r) :
    (c.get n b index).1 = (r : Int) ↔ c.Continues n b index := by
  have hlen : b.rows.length ≤ n :=
    Ascending.length_le b.rows_sorted fun x hx => hbelow x (mem_rows.1 hx)
  have hlt := (List.getElem?_eq_some_iff.1 hr).1
  have hin : ¬ ((index : Int) < 0 ∨ (n : Int) ≤ index) := by omega
  rw [get, if_neg hin]
  by_cases hfwd : (index : Int) = c.lastGetIndex + 1 ∧ c.lastGetValue < n
  · rw [if_pos hfwd]
    show b.nextSetBit _ = _ ↔ _
    rw [nextSetBit_after, getD_eq_iff hr]
    have hback : ¬ (index : Int) = c.lastGetIndex - 1 := by omega
    exact ⟨fun h => ⟨fun _ _ => h, fun h' => absurd h' hback⟩, fun h => h.1 hfwd.1 hfwd.2⟩
  · rw [if_neg hfwd]
    have hfst : (index : Int) = c.lastGetIndex + 1 → c.lastGetValue < n →
        b.rows.countP (fun r : Nat => (r : Int) ≤ c.lastGetValue) = index :=
      fun h1 h2 => absurd ⟨h1, h2⟩ hfwd
    by_cases hback : (index : Int) = c.lastGetIndex - 1 ∧ 0 < c.lastGetValue
    · rw [if_pos hback]
      show b.previousSetBit _ = _ ↔ _
      rw [previousSetBit_before hback.2]
      have hcnt : (((if b.rows.countP (fun r : Nat => (r : Int) < c.lastGetValue) = 0 then none
          else b.rows[b.rows.countP (fun r : Nat => (r : Int) < c.lastGetValue) - 1]?).map
            Int.ofNat).getD (-1) = (r : Int)) ↔
          b.rows.countP (fun r : Nat => (r : Int) < c.lastGetValue) = index + 1 := by
        split
        · next hzero =>
          rw [hzero]
          simp only [Option.map_none, Option.getD_none]
          omega
        · rw [getD_eq_iff hr]
          omega
      rw [hcnt]
      exact ⟨fun h => ⟨hfst, fun _ _ => h⟩, fun h => h.2 hback.1 hback.2⟩
    · rw [if_neg hback, Int.toNat_natCast]
      have hpos : 0 < b.rows.length := by omega
      have hzero : b.nextSetBit 0 = (b.rows[0] : Nat) := by
        have hnone : b.rows.countP (fun r => r < 0) = 0 := by simp
        rw [nextSetBit_eq, hnone, getElem?_eq_getElem hpos]
        rfl
      have hscan := scan_eq (i := 0) (r := b.rows[0]) index (getElem?_eq_getElem hpos)
        (by rw [Nat.zero_add]; exact hr)
      rw [hzero, show ((0 : Int)) = ((0 : Nat) : Int) from rfl, hscan]
      exact iff_of_true rfl ⟨hfst, fun h1 h2 => absurd ⟨h1, h2⟩ hback⟩

/-! ## Searching a row -/

/-- The row at a position of the list, or -1 behind its end. -/
def rowAt (b : JavaBitSet) (e : Nat) : Int := ((b.rows[e]?).map Int.ofNat).getD (-1)

/-- The position that a read of index 0 finds, in the list followed by a -1. -/
def start (n : Nat) (b : JavaBitSet) (c : Cursor) : Nat :=
  if c.lastGetIndex = -1 ∧ c.lastGetValue < n then
    b.rows.countP fun r : Nat => (r : Int) ≤ c.lastGetValue
  else if c.lastGetIndex = 1 ∧ 0 < c.lastGetValue then
    if b.rows.countP (fun r : Nat => (r : Int) < c.lastGetValue) = 0 then b.cardinality
    else b.rows.countP (fun r : Nat => (r : Int) < c.lastGetValue) - 1
  else 0

theorem start_le : c.start n b ≤ b.cardinality := by
  have h1 : b.rows.countP (fun r : Nat => (r : Int) ≤ c.lastGetValue) ≤ b.rows.length :=
    countP_le_length
  have h2 : b.rows.countP (fun r : Nat => (r : Int) < c.lastGetValue) ≤ b.rows.length :=
    countP_le_length
  unfold start cardinality
  split
  · exact h1
  · split
    · split <;> omega
    · omega

theorem rowAt_eq_iff (hi : b.rows[i]? = some r) : rowAt b e = (r : Int) ↔ e = i := getD_eq_iff hi

theorem rowAt_lt (hbelow : ∀ r, b.bit r = true → r < n) (e : Nat) : rowAt b e < n := by
  unfold rowAt
  cases he : b.rows[e]? with
  | none =>
    show (-1 : Int) < n
    omega
  | some r =>
    have hr := hbelow r (mem_rows.1 (mem_of_getElem? he))
    show (r : Int) < n
    omega

/-- A view that is not next to index 0, or is at index 1 with the row of index 1, starts right. -/
theorem start_rowAt {q : Nat} :
    start n b ⟨i, rowAt b q⟩ = 0 ↔ i ≠ 1 ∨ q = 1 ∨ rowAt b q ≤ 0 := by
  have hneg : ¬ ((i : Int) = -1 ∧ rowAt b q < n) := by omega
  rw [start]
  dsimp only
  rw [if_neg hneg]
  by_cases hback : (i : Int) = 1 ∧ 0 < rowAt b q
  · have hlt : q < b.rows.length := by
      by_contra hge
      have hrow : rowAt b q = -1 := by
        rw [rowAt, getElem?_eq_none (by omega)]
        rfl
      omega
    have hr : b.rows[q]? = some b.rows[q] := getElem?_eq_getElem hlt
    have hrow : rowAt b q = (b.rows[q] : Nat) := (rowAt_eq_iff hr).2 rfl
    have hcnt : b.rows.countP (fun r : Nat => (r : Int) < rowAt b q) = q := by
      rw [hrow]
      simp only [Int.ofNat_lt]
      exact Ascending.countP_lt_getElem b.rows_sorted hr
    have hcard : b.rows.length = b.cardinality := rfl
    rw [if_pos hback, hcnt]
    split <;> omega
  · rw [if_neg hback]
    omega

/-- The row after the one at `e`: behind the end, the search starts again. -/
theorem nextSetBit_rowAt (he : e ≤ b.cardinality) :
    b.nextSetBit (rowAt b e + 1).toNat = rowAt b (if e < b.cardinality then e + 1 else 0) := by
  have hrows : b.rows.length = b.cardinality := rfl
  by_cases hlt : e < b.cardinality
  · have hr : b.rows[e]? = some b.rows[e] := getElem?_eq_getElem hlt
    have hat : rowAt b e = (b.rows[e] : Nat) := (rowAt_eq_iff hr).2 rfl
    have htoNat : (((b.rows[e] : Nat) : Int) + 1).toNat = b.rows[e] + 1 := by omega
    rw [hat, htoNat, nextSetBit_eq, Ascending.countP_le_getElem b.rows_sorted hr, if_pos hlt]
    rfl
  · have hnone : b.rows[e]? = none := getElem?_eq_none (by omega)
    have hcnt : b.rows.countP (fun r => r < 0) = 0 := by simp
    rw [rowAt, hnone, if_neg hlt]
    show b.nextSetBit 0 = _
    rw [nextSetBit_eq, hcnt]
    rfl

theorem get_next (hbelow : ∀ r, b.bit r = true → r < n) (he : e ≤ b.cardinality)
    (hi : i + 1 < b.cardinality) :
    get n b ((i : Int) + 1) ⟨i, rowAt b e⟩ =
      (rowAt b (if e < b.cardinality then e + 1 else 0),
        ⟨(i : Int) + 1, rowAt b (if e < b.cardinality then e + 1 else 0)⟩) := by
  have hlen : b.cardinality ≤ n :=
    Ascending.length_le b.rows_sorted fun x hx => hbelow x (mem_rows.1 hx)
  have hlt := rowAt_lt hbelow e
  rw [get, if_neg (by omega), if_pos ⟨rfl, hlt⟩, nextSetBit_rowAt he]

theorem get_zero (hbelow : ∀ r, b.bit r = true → r < n) (hpos : 0 < b.cardinality) :
    c.get n b 0 = (rowAt b (c.start n b), ⟨0, rowAt b (c.start n b)⟩) := by
  have hlen : b.cardinality ≤ n :=
    Ascending.length_le b.rows_sorted fun x hx => hbelow x (mem_rows.1 hx)
  rw [get, if_neg (by omega), start]
  by_cases hfwd : c.lastGetIndex = -1 ∧ c.lastGetValue < n
  · rw [if_pos hfwd, if_pos ⟨by omega, hfwd.2⟩, nextSetBit_after, hfwd.1]
    rfl
  · rw [if_neg (c := c.lastGetIndex = -1 ∧ c.lastGetValue < n) hfwd,
      if_neg (fun h => hfwd ⟨by omega, h.2⟩)]
    by_cases hback : c.lastGetIndex = 1 ∧ 0 < c.lastGetValue
    · rw [if_pos hback, if_pos ⟨by omega, hback.2⟩, previousSetBit_before hback.2, hback.1]
      split
      · have hnone : b.rows[b.cardinality]? = none := getElem?_eq_none (Nat.le_refl _)
        rw [rowAt, hnone]
        rfl
      · rfl
    · rw [if_neg hback, if_neg (fun h => hback ⟨by omega, h.2⟩)]
      have hcnt : b.rows.countP (fun r => r < 0) = 0 := by simp
      show (b.nextSetBit 0, _) = _
      rw [nextSetBit_eq, hcnt]
      rfl

/-- The reads from position `e` to `r`, with the -1 in between. -/
def distance (b : JavaBitSet) (e r : Nat) : Nat :=
  if e < r then r - e else b.cardinality - e + 1 + r

section

variable (hbelow : ∀ r, b.bit r = true → r < n)
include hbelow

section

variable (hk : b.rows[k]? = some row)
include hk

theorem indexOfFrom_eq (m : Nat) (he : e ≤ b.cardinality) (hi : i + 1 + m = b.cardinality) :
    (indexOfFrom n b row m ((i : Int) + 1) ⟨i, rowAt b e⟩).1 =
      if distance b e k ≤ m then ((i + distance b e k : Nat) : Int) else -1 := by
  have hlt : k < b.cardinality := (List.getElem?_eq_some_iff.1 hk).1
  induction m generalizing i e with
  | zero =>
    have hpos : ¬ distance b e k ≤ 0 := by
      unfold distance
      split <;> omega
    rw [if_neg hpos]
    rfl
  | succ m ih =>
    rw [indexOfFrom, get_next hbelow he (by omega)]
    dsimp only
    generalize he' : (if e < b.cardinality then e + 1 else 0) = e'
    have hle : e' ≤ b.cardinality := by
      rw [← he']
      split <;> omega
    by_cases hfound : e' = k
    · have hone : distance b e k = 1 := by
        unfold distance
        split at he' <;> split <;> omega
      rw [if_pos ((rowAt_eq_iff hk).2 hfound).symm, if_pos (by omega), hone]
      rfl
    · have hdist : distance b e k = distance b e' k + 1 := by
        unfold distance
        split at he' <;> split <;> split <;> omega
      have hnot : ¬ (row : Int) = rowAt b e' := fun h => hfound ((rowAt_eq_iff hk).1 h.symm)
      have hrec := ih (i := i + 1) hle (by omega)
      rw [if_neg hnot]
      push_cast at hrec ⊢
      rw [hrec, hdist]
      by_cases hm : distance b e' k ≤ m
      · rw [if_pos hm, if_pos (by omega)]
        push_cast
        omega
      · rw [if_neg hm, if_neg (by omega)]

/-- Where the search leaves the view. -/
theorem indexOfFrom_cursor (m : Nat) (he : e ≤ b.cardinality) (hi : i + 1 + m = b.cardinality) :
    (indexOfFrom n b row m ((i : Int) + 1) ⟨i, rowAt b e⟩).2 =
      ⟨((i + min m (distance b e k) : Nat) : Int),
        rowAt b ((e + min m (distance b e k)) % (b.cardinality + 1))⟩ := by
  have hlt : k < b.cardinality := (List.getElem?_eq_some_iff.1 hk).1
  induction m generalizing i e with
  | zero =>
    rw [Nat.zero_min, Nat.add_zero, Nat.add_zero, Nat.mod_eq_of_lt (by omega)]
    rfl
  | succ m ih =>
    rw [indexOfFrom, get_next hbelow he (by omega)]
    dsimp only
    generalize he' : (if e < b.cardinality then e + 1 else 0) = e'
    have hle : e' ≤ b.cardinality := by
      rw [← he']
      split <;> omega
    have hmod : (e + 1) % (b.cardinality + 1) = e' := by
      split at he'
      · rw [Nat.mod_eq_of_lt (by omega), he']
      · rw [show e + 1 = b.cardinality + 1 by omega, Nat.mod_self, he']
    by_cases hfound : e' = k
    · have hone : distance b e k = 1 := by
        unfold distance
        split at he' <;> split <;> omega
      rw [if_pos ((rowAt_eq_iff hk).2 hfound).symm, hone, Nat.min_eq_right (by omega), hmod]
      rfl
    · have hdist : distance b e k = distance b e' k + 1 := by
        unfold distance
        split at he' <;> split <;> split <;> omega
      have hnot : ¬ (row : Int) = rowAt b e' := fun h => hfound ((rowAt_eq_iff hk).1 h.symm)
      have hrec := ih (i := i + 1) hle (by omega)
      have hmin : min (m + 1) (distance b e k) = min m (distance b e' k) + 1 := by
        rw [hdist, Nat.succ_min_succ]
      rw [if_neg hnot, hmin, ← Nat.add_assoc, ← Nat.add_assoc, Nat.add_right_comm i,
        Nat.add_right_comm e, Nat.add_mod, hmod]
      push_cast at hrec ⊢
      rw [hrec, Nat.add_mod_mod]

theorem indexOf_eq : (c.indexOf n b row).1 =
      if c.start n b = k then 0
      else if distance b (c.start n b) k < b.cardinality then (distance b (c.start n b) k : Int)
      else -1 := by
  have hlt : k < b.cardinality := (List.getElem?_eq_some_iff.1 hk).1
  obtain ⟨m, hm⟩ : ∃ m, b.cardinality = m + 1 := ⟨b.cardinality - 1, by omega⟩
  rw [indexOf, hm, indexOfFrom, get_zero hbelow (by omega)]
  dsimp only
  by_cases hfound : c.start n b = k
  · rw [if_pos hfound, if_pos ((rowAt_eq_iff hk).2 hfound).symm]
  · have hnot : ¬ (row : Int) = rowAt b (c.start n b) := fun h =>
      hfound ((rowAt_eq_iff hk).1 h.symm)
    have hrec := indexOfFrom_eq hbelow hk m (i := 0) (e := c.start n b) start_le (by omega)
    rw [if_neg hfound, if_neg hnot]
    refine hrec.trans ?_
    by_cases hd : distance b (c.start n b) k ≤ m
    · rw [if_pos hd, if_pos (by omega), Nat.zero_add]
    · rw [if_neg hd, if_neg (by omega)]

/-- Where a search for the row at `k` leaves the view. -/
theorem indexOf_cursor : (c.indexOf n b row).2 =
      if c.start n b = k then ⟨0, rowAt b k⟩
      else ⟨((min (b.cardinality - 1) (distance b (c.start n b) k) : Nat) : Int),
        rowAt b ((c.start n b + min (b.cardinality - 1) (distance b (c.start n b) k)) %
          (b.cardinality + 1))⟩ := by
  have hlt : k < b.cardinality := (List.getElem?_eq_some_iff.1 hk).1
  obtain ⟨m, hm⟩ : ∃ m, b.cardinality = m + 1 := ⟨b.cardinality - 1, by omega⟩
  rw [indexOf, hm, indexOfFrom, get_zero hbelow (by omega)]
  dsimp only
  by_cases hfound : c.start n b = k
  · rw [if_pos hfound, if_pos ((rowAt_eq_iff hk).2 hfound).symm, hfound]
  · have hnot : ¬ (row : Int) = rowAt b (c.start n b) := fun h =>
      hfound ((rowAt_eq_iff hk).1 h.symm)
    have hrec := indexOfFrom_cursor hbelow hk m (i := 0) (e := c.start n b) start_le (by omega)
    rw [if_neg hfound, if_neg hnot]
    refine hrec.trans ?_
    rw [Nat.zero_add, hm]
    rfl

/-- The search is right exactly when it starts at the first row. -/
theorem indexOf_eq_iff : (c.indexOf n b row).1 = (k : Int) ↔ c.start n b = 0 := by
  have hlt : k < b.cardinality := (List.getElem?_eq_some_iff.1 hk).1
  have hle : c.start n b ≤ b.cardinality := start_le
  rw [indexOf_eq hbelow hk, distance]
  split
  · omega
  · split <;> split <;> omega

/-- Where the search for the row at `k` leaves the view, index 0 is read right. -/
def Settles (n : Nat) (b : JavaBitSet) (c : Cursor) (k : Nat) : Prop :=
  c.start n b = k ∨ b.cardinality = 1 ∨
    (b.cardinality ≠ 2 ∧ (c.start n b + 1) % (b.cardinality + 1) ≠ k) ∨
    (c.start n b + 1) % (b.cardinality + 1) = 1 ∨
    rowAt b ((c.start n b + 1) % (b.cardinality + 1)) ≤ 0

omit hbelow hk in
theorem distance_eq_one_iff (he : e ≤ b.cardinality) (hlt : k < b.cardinality) :
    distance b e k = 1 ↔ (e + 1) % (b.cardinality + 1) = k := by
  rw [distance]
  by_cases hend : e = b.cardinality
  · rw [hend, Nat.mod_self]
    split <;> omega
  · rw [Nat.mod_eq_of_lt (by omega)]
    split <;> omega

/-- The second search of a row is right exactly when the first settles. -/
theorem indexOf_again_iff :
    ((c.indexOf n b row).2.indexOf n b row).1 = (k : Int) ↔ c.Settles n b k := by
  have hlt : k < b.cardinality := (List.getElem?_eq_some_iff.1 hk).1
  have hle : c.start n b ≤ b.cardinality := start_le
  have hone := distance_eq_one_iff hle hlt
  have hpos : c.start n b ≠ k → 1 ≤ distance b (c.start n b) k := by
    rw [distance]
    split <;> omega
  rw [indexOf_eq_iff hbelow hk, indexOf_cursor hbelow hk, Settles]
  by_cases hfound : c.start n b = k
  · rw [if_pos hfound]
    exact iff_of_true ((start_rowAt (i := 0)).2 (.inl Nat.zero_ne_one)) (.inl hfound)
  · rw [if_neg hfound, start_rowAt]
    have hd := hpos hfound
    by_cases hj : min (b.cardinality - 1) (distance b (c.start n b) k) = 1
    · rw [hj, ne_eq _ k, ← hone]
      omega
    · rw [ne_eq _ k, ← hone]
      omega

-- row 6 is selected beside 5 and 7, and the view is at row 7
example : (Cursor.indexOf 10 (((JavaBitSet.new.set 5).set 6).set 7) 6 ⟨1, 7⟩).1 = 0 ∧
    ((Cursor.indexOf 10 (((JavaBitSet.new.set 5).set 6).set 7) 6 ⟨1, 7⟩).2.indexOf 10
      (((JavaBitSet.new.set 5).set 6).set 7) 6).1 = 1 := by decide

/-- After a right search every later one is right. -/
theorem start_indexOf (hzero : c.start n b = 0) : (c.indexOf n b row).2.start n b = 0 := by
  have hlt : k < b.cardinality := (List.getElem?_eq_some_iff.1 hk).1
  rw [← indexOf_eq_iff hbelow hk, indexOf_again_iff hbelow hk, Settles, hzero]
  by_cases hone : b.cardinality = 1
  · exact .inr (.inl hone)
  · exact .inr (.inr (.inr (.inl (Nat.mod_eq_of_lt (by omega)))))

theorem max_indexOf_eq_iff :
    max 0 (c.indexOf n b row).1 = (k : Int) ↔ c.start n b = 0 ∨ (c.start n b = 1 ∧ k = 0) := by
  have hlt : k < b.cardinality := (List.getElem?_eq_some_iff.1 hk).1
  have hle : c.start n b ≤ b.cardinality := start_le
  rw [indexOf_eq hbelow hk, distance]
  split
  · omega
  · split <;> split <;> omega

end

theorem readFrom_eq (m : Nat) (hi : i + 1 + m = b.cardinality) :
    readFrom n b m ((i : Int) + 1) ⟨i, rowAt b i⟩ = (b.rows.drop (i + 1)).map Int.ofNat := by
  have hrows : b.rows.length = b.cardinality := rfl
  induction m generalizing i with
  | zero =>
    rw [drop_eq_nil_of_le (by omega)]
    rfl
  | succ m ih =>
    have hlt : i + 1 < b.rows.length := by omega
    have hat : rowAt b (i + 1) = Int.ofNat b.rows[i + 1] :=
      (rowAt_eq_iff (getElem?_eq_getElem hlt)).2 rfl
    have hrec := ih (i := i + 1) (by omega)
    push_cast at hrec
    rw [readFrom, get_next hbelow (by omega) (by omega), if_pos (by omega),
      drop_eq_getElem_cons hlt, map_cons]
    dsimp only
    rw [hrec, hat]

end

end Cursor

theorem viewList_eq (hbelow : ∀ r, b.bit r = true → r < n) :
    viewList n b = b.rows.map Int.ofNat := by
  have hrows : b.rows.length = b.cardinality := rfl
  unfold viewList
  cases hcard : b.cardinality with
  | zero =>
    rw [eq_nil_of_length_eq_zero (hrows.trans hcard)]
    rfl
  | succ m =>
    have hpos : 0 < b.rows.length := by omega
    have hst : Cursor.new.start n b = 0 := by
      have hnone : b.rows.countP (fun r : Nat => (r : Int) ≤ -1) = 0 := by
        rw [countP_eq_zero]
        intro r _
        simp only [decide_eq_true_eq]
        omega
      rw [Cursor.start, if_pos ⟨rfl, by show (-1 : Int) < n; omega⟩]
      exact hnone
    have hat : Cursor.rowAt b 0 = Int.ofNat b.rows[0] :=
      (Cursor.rowAt_eq_iff (getElem?_eq_getElem hpos)).2 rfl
    have hrest := Cursor.readFrom_eq hbelow m (i := 0) (by omega)
    rw [Cursor.readFrom, Cursor.get_zero hbelow (by omega), hst]
    dsimp only
    rw [hat] at hrest ⊢
    conv_rhs => rw [← drop_zero (l := b.rows), drop_eq_getElem_cons hpos, map_cons]
    congr 1

/-! ## Runs -/

namespace MultipleSelectionModelBase

variable {T : Type} [DecidableEq T] (equals : T → Option T → Bool)

/-- Every read of a run returns the row that is at its index at this moment. -/
def ReadsRight (s : MultipleSelectionModelBase T) : List (Op T) → Prop
  | [] => True
  | op :: ops =>
    (∀ index : Nat, op = .get index → ∀ r, s.selectedIndices.rows[index]? = some r →
      (s.get index).1 = (r : Int)) ∧ ReadsRight (s.step equals op) ops

/-- As many selected rows up to there as the last read found. -/
def ReadsContinue (s : MultipleSelectionModelBase T) : List (Op T) → Prop
  | [] => True
  | op :: ops =>
    (∀ index : Nat, op = .get index → index < s.selectedIndices.cardinality →
      s.cursor.Continues s.getItemCount s.selectedIndices index) ∧
      ReadsContinue (s.step equals op) ops

/-- All selected rows are rows of the data. -/
def Inside (s : MultipleSelectionModelBase T) : Prop :=
  ∀ r, s.selectedIndices.bit r = true → r < s.getItemCount

omit [DecidableEq T] in
theorem inside_iff {s : MultipleSelectionModelBase T} :
    s.Inside ↔ ∀ r ∈ s.selectedIndices.rows, r < s.getItemCount := by
  simp only [Inside, mem_rows]

/-- Ten items in multiple mode, none selected. -/
def tenItems : MultipleSelectionModelBase Unit := new .multiple (List.replicate 10 none)

end MultipleSelectionModelBase

end OpenJfx.Controls
