/-
  OpenJfx.Lib.ListAt

  Index operations at the seam of `pre ++ x :: post`.  A loop that edits a list
  at an index it has searched for is read as an edit at the seam between the
  part before the index and the part from it on.
-/

import Mathlib.Data.List.Basic
import Mathlib.Data.List.InsertIdx

namespace OpenJfx.ListAt

open List

variable {α : Type}

theorem getElem?_seam (pre : List α) (x : α) (post : List α) :
    (pre ++ x :: post)[pre.length]? = some x := by
  simp

theorem set_seam (pre : List α) (x y : α) (post : List α) :
    (pre ++ x :: post).set pre.length y = pre ++ y :: post := by
  simp

theorem modify_seam (pre : List α) (x : α) (post : List α) (f : α → α) :
    (pre ++ x :: post).modify pre.length f = pre ++ f x :: post := by
  induction pre with
  | nil => simp
  | cons y pre ih => simpa using ih

theorem insertIdx_seam (pre post : List α) (x : α) :
    (pre ++ post).insertIdx pre.length x = pre ++ x :: post := by
  induction pre with
  | nil => simp
  | cons y pre ih => simpa using ih

theorem eraseIdx_seam (pre : List α) (x : α) (post : List α) :
    (pre ++ x :: post).eraseIdx pre.length = pre ++ post := by
  induction pre with
  | nil => simp
  | cons y pre ih => simpa using ih

theorem exists_split (l : List α) {n m : Nat} (h : n + m ≤ l.length) :
    ∃ a b c, l = a ++ b ++ c ∧ a.length = n ∧ b.length = m := by
  refine ⟨l.take n, (l.drop n).take m, (l.drop n).drop m, ?_, ?_, ?_⟩
  · rw [append_assoc, take_append_drop, take_append_drop]
  · rw [length_take]
    omega
  · rw [length_take, length_drop]
    omega

theorem split_middle_le {a k b x y : List α} (h : a ++ k ++ b = x ++ y)
    (hl : a.length ≤ x.length) (hr : x.length ≤ a.length + k.length) :
    ∃ k1 k2, k = k1 ++ k2 ∧ x = a ++ k1 ∧ y = k2 ++ b := by
  refine ⟨k.take (x.length - a.length), k.drop (x.length - a.length),
    (take_append_drop _ k).symm, ?_, ?_⟩
  · have hx := congrArg (List.take x.length) h
    rw [take_left, append_assoc, take_append, take_of_length_le hl,
      take_append_of_le_length (by omega)] at hx
    exact hx.symm
  · have hy := congrArg (List.drop x.length) h
    rw [drop_left, append_assoc, drop_append, drop_of_length_le hl,
      nil_append, drop_append_of_le_length (by omega)] at hy
    exact hy.symm

theorem split_after {a b x y : List α} (h : a ++ b = x ++ y) (hl : a.length ≤ x.length) :
    ∃ k, x = a ++ k ∧ b = k ++ y := by
  have hlen := congrArg List.length h
  rw [length_append, length_append] at hlen
  obtain ⟨k1, k2, rfl, hx, hy⟩ := split_middle_le (a := a) (k := b) (b := [])
    (by rw [append_nil]; exact h) hl (by omega)
  rw [append_nil] at hy
  exact ⟨k1, hx, by rw [hy]⟩

theorem split_middle {a k b x y : List α} {e : α} (h : a ++ k ++ b = x ++ e :: y)
    (hl : a.length ≤ x.length) (hr : x.length < a.length + k.length) :
    ∃ k1 k2, k = k1 ++ e :: k2 ∧ x = a ++ k1 ∧ y = k2 ++ b := by
  obtain ⟨k1, k2, rfl, rfl, hy⟩ := split_middle_le h hl (by omega)
  cases k2 with
  | nil =>
    rw [append_nil, length_append] at hr
    omega
  | cons e' k2 =>
    rw [cons_append, List.cons.injEq] at hy
    obtain ⟨rfl, rfl⟩ := hy
    exact ⟨k1, k2, rfl, rfl, rfl⟩

/-! ## `filterMap` with a value everywhere -/

theorem length_filterMap_of_isSome {β : Type} {f : α → Option β} {l : List α}
    (h : ∀ x ∈ l, (f x).isSome) : (l.filterMap f).length = l.length := by
  induction l with
  | nil => rfl
  | cons x l ih =>
    obtain ⟨y, hy⟩ := Option.isSome_iff_exists.mp (h x mem_cons_self)
    rw [filterMap_cons_some hy, length_cons, length_cons, ih fun z hz => h z (mem_cons_of_mem _ hz)]

theorem getElem?_filterMap_of_isSome {β : Type} {f : α → Option β} {l : List α}
    (h : ∀ x ∈ l, (f x).isSome) (k : Nat) : (l.filterMap f)[k]? = l[k]?.bind f := by
  induction l generalizing k with
  | nil => rfl
  | cons x l ih =>
    obtain ⟨y, hy⟩ := Option.isSome_iff_exists.mp (h x mem_cons_self)
    rw [filterMap_cons_some hy]
    cases k with
    | zero => simp [hy]
    | succ k => simpa using ih (fun z hz => h z (.tail _ hz)) k

theorem filterMap_range_getElem? (l : List α) :
    ((List.range l.length).filterMap fun k => l[k]?) = l := by
  have hsome : ∀ k ∈ List.range l.length, (l[k]?).isSome := by
    intro k hk
    rw [getElem?_eq_getElem (mem_range.mp hk)]
    rfl
  apply ext_getElem?
  intro k
  rw [getElem?_filterMap_of_isSome hsome]
  by_cases hk : k < l.length
  · rw [getElem?_range hk]
    rfl
  · rw [getElem?_eq_none (by simpa using hk), getElem?_eq_none (by omega)]
    rfl

end OpenJfx.ListAt
