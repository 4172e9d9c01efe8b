/-
  OpenJfx.Collections.ListChangeBuilder.Recording

  `recordRemove` and `recordAdd`: an edit, recorded, keeps `Tracks 0 cs L₀ L` for the original
  list `L₀`.  `RemoveGoesWrong`: the fast path `last.from == idx + 1` jumps over a sub-change that
  also ends there, or a dropped range makes the shifting loop start one entry too late.
-/

import OpenJfx.Collections.ListChange
import Mathlib.Data.List.Induction

namespace OpenJfx.Collections

open List ListChangeBuilder ListAt SubChange

variable {idx : Int} {E : Type}

/-! ## Recording an edit at a seam -/

variable {cs xs : List (SubChange E)} {c : SubChange E} {i : Nat}

theorem Edits.end_le {q n : Int} {A B : List E}
    (h : Edits 0 cs A B q) (hn : 0 ≤ n) (hcs : ∀ c ∈ cs.getLast?, c.to_ ≤ n) : q ≤ n := by
  cases cs using List.reverseRecOn with
  | nil =>
    obtain ⟨-, -, rfl⟩ := h
    exact hn
  | append_singleton cs c =>
    obtain ⟨m, A1, B1, kept, added, -, -, -, -, -, rfl⟩ := edits_concat.mp h
    exact hcs c (by simp)

section Between

variable {pre post : List (SubChange E)} {c : SubChange E} {L X Y M : List E}

/-- `M` gives way to `N` inside the elements that `c` has added. -/
theorem tracks_inside (N : List E) (h : Tracks 0 (pre ++ c :: post) L (X ++ (M ++ Y)))
    (hfrom : c.from_ ≤ X.length) (hto : (X.length : Int) + M.length ≤ c.to_) :
    Tracks 0 (pre ++ { c with to_ := c.to_ + (N.length - M.length) } ::
      post.map (SubChange.shift (N.length - M.length))) L (X ++ (N ++ Y)) := by
  obtain ⟨m, A1, A2, B1, B2, rfl, hB, h1, kept, added, A', B', hf, ht, rfl, rfl, h2⟩ :=
    tracks_append.mp h
  have hm := h1.length
  obtain ⟨a1, a', rfl, rfl, hrest⟩ : ∃ a1 a', added = a1 ++ a' ∧ X = (B1 ++ kept) ++ a1 ∧
      M ++ Y = a' ++ B' := by
    refine split_middle_le ?_ ?_ ?_
    · rw [hB]; simp
    · rw [length_append]; omega
    · rw [length_append]; omega
  simp only [length_append] at hto ht
  obtain ⟨a2, rfl, rfl⟩ := split_after hrest (by omega)
  refine tracks_append.mpr ⟨m, A1, _, B1, kept ++ (a1 ++ N ++ a2) ++ B', rfl, by simp, h1,
    kept, a1 ++ N ++ a2, A', B', hf, ?_, rfl, rfl, h2.shift (by dsimp only)⟩
  simp only [length_append] at ht ⊢
  omega

theorem tracks_between (N : List E) (h : Tracks 0 (pre ++ post) L (X ++ (M ++ Y)))
    (hpre : ∀ d ∈ pre.getLast?, d.to_ ≤ X.length)
    (hpost : ∀ d ∈ post.head?, (X.length : Int) + M.length ≤ d.from_) (perm : List Int)
    (u : Bool) :
    Tracks 0 (pre ++ ⟨X.length, X.length + N.length, some M, perm, u⟩ ::
      post.map (SubChange.shift (N.length - M.length))) L (X ++ (N ++ Y)) := by
  obtain ⟨m, A1, A2, B1, B2, rfl, hB, h1, h2⟩ := tracks_append.mp h
  have hm := h1.length
  have hle : m ≤ X.length := h1.end_le (by omega) hpre
  obtain ⟨k1, rfl, rfl⟩ : ∃ k1, X = B1 ++ k1 ∧ B2 = k1 ++ (M ++ Y) := split_after hB.symm (by omega)
  -- everything up to `Y` is kept
  have hkeep : ∃ A', A2 = k1 ++ (M ++ A') ∧ Tracks (m + k1.length + M.length) post A' Y := by
    cases post with
    | nil =>
      rw [Tracks] at h2
      exact ⟨Y, h2, rfl⟩
    | cons d post =>
      obtain ⟨kept, added, A', B', hf, ht, rfl, hk, h2⟩ := h2
      have hd : ((B1 ++ k1).length : Int) + M.length ≤ d.from_ := hpost d rfl
      rw [length_append] at hd
      obtain ⟨k2, rfl, rfl⟩ : ∃ k2, kept = (k1 ++ M) ++ k2 ∧ Y = k2 ++ (added ++ B') :=
        split_after (by simpa using hk) (by rw [length_append]; omega)
      refine ⟨k2 ++ d.getRemoved ++ A', by simp, k2, added, A', B', ?_, ht, rfl, by simp, h2⟩
      simp only [length_append] at hf ⊢
      omega
  obtain ⟨A', rfl, h3⟩ := hkeep
  refine tracks_append.mpr ⟨m, A1, _, B1, k1 ++ N ++ Y, rfl, by simp, h1, k1, N, A', Y, ?_, rfl, ?_,
    rfl, ?_⟩
  · simp only [length_append]; omega
  · simp [getRemoved]
  · refine h3.shift ?_
    dsimp only
    rw [length_append]; omega

end Between

section Remove

variable {pre post : List (SubChange E)} {c c' : SubChange E} {L X Y : List E} {e : E}

theorem tracks_remove_after (h : Tracks 0 (pre ++ c :: post) L (X ++ e :: Y))
    (hX : c.to_ = X.length) (hpost : ∀ d ∈ post.head?, c.to_ < d.from_)
    (hc : c.addRemoved e = some c') :
    Tracks 0 (pre ++ c' :: post.map (SubChange.shift (-1))) L (X ++ Y) := by
  obtain ⟨m, A1, A2, B1, B2, rfl, hB, h1, kept, added, A', B', hf, ht, rfl, rfl, h2⟩ :=
    tracks_append.mp h
  have hm := h1.length
  obtain ⟨rfl, rfl⟩ : X = B1 ++ kept ++ added ∧ e :: Y = B' := by
    have hB' : X ++ e :: Y = (B1 ++ kept ++ added) ++ B' := by rw [hB]; simp
    refine append_inj hB' ?_
    simp only [length_append]
    omega
  obtain ⟨A'', rfl, h3⟩ := h2.uncons hpost
  obtain ⟨r, hr, rfl⟩ : ∃ r, c.removed = some r ∧
      { c with removed := some (r ++ [e]) } = c' := by
    simpa [addRemoved] using hc
  refine tracks_append.mpr ⟨m, A1, _, B1, kept ++ added ++ Y, rfl, by simp, h1,
    kept, added, A'', Y, hf, ht, ?_, rfl, ?_⟩
  · simp [getRemoved, hr]
  · exact h3.shift (show c.to_ = c.to_ + 1 + -1 by omega)

theorem tracks_remove_before (h : Tracks 0 (pre ++ c :: post) L (X ++ e :: Y))
    (hX : c.from_ = X.length + 1) (hpre : ∀ d ∈ pre.getLast?, d.to_ ≤ X.length)
    (hc : (c.shift (-1)).addRemovedFirst e = some c') :
    Tracks 0 (pre ++ c' :: post.map (SubChange.shift (-1))) L (X ++ Y) := by
  obtain ⟨m, A1, A2, B1, B2, rfl, hB, h1, kept, added, A', B', hf, ht, rfl, rfl, h2⟩ :=
    tracks_append.mp h
  have hm := h1.length
  have hle : m ≤ X.length := h1.end_le (by omega) hpre
  obtain ⟨k1, k2, rfl, rfl, rfl⟩ : ∃ k1 k2, kept = k1 ++ e :: k2 ∧ X = B1 ++ k1 ∧
      Y = k2 ++ (added ++ B') := by
    refine split_middle (a := B1) ?_ (by omega) (by omega)
    rw [hB]; simp
  -- the element is the last kept one before `c`
  obtain rfl : k2 = [] := by
    rw [← length_eq_zero_iff]
    simp only [length_append, length_cons] at hf hX
    omega
  obtain ⟨r, hr, rfl⟩ : ∃ r, c.removed = some r ∧
      { c.shift (-1) with removed := some (e :: r) } = c' := by
    simpa [addRemovedFirst, SubChange.shift] using hc
  refine tracks_append.mpr ⟨m, A1, _, B1, k1 ++ added ++ B', rfl, by simp, h1,
    k1, added, A', B', ?_, ?_, ?_, rfl, ?_⟩
  · simp only [SubChange.shift, length_append, length_cons, length_nil] at hf ⊢
    omega
  · simp only [SubChange.shift]; omega
  · simp [getRemoved, hr]
  · exact h2.shift rfl

/-- The removed element touches no sub-change: it gets one of its own. -/
theorem tracks_remove_between (h : Tracks 0 (pre ++ post) L (X ++ e :: Y))
    (hpre : ∀ d ∈ pre.getLast?, d.to_ ≤ X.length)
    (hpost : ∀ d ∈ post.head?, (X.length : Int) < d.from_) (perm : List Int) (u : Bool) :
    Tracks 0 (pre ++ ⟨X.length, X.length, some [e], perm, u⟩ ::
      post.map (SubChange.shift (-1))) L (X ++ Y) := by
  simpa using @tracks_between E pre post L X Y [e] [] h hpre hpost perm u

/-- The removed element is one of those `c` has added: `c` shrinks. -/
theorem tracks_remove_inside (h : Tracks 0 (pre ++ c :: post) L (X ++ e :: Y))
    (hfrom : c.from_ ≤ X.length) (hto : (X.length : Int) < c.to_) :
    Tracks 0 (pre ++ { c with to_ := c.to_ - 1 } :: post.map (SubChange.shift (-1))) L
      (X ++ Y) := by
  simpa [Int.sub_eq_add_neg] using @tracks_inside E pre post c L X Y [e] [] h hfrom hto

theorem tracks_drop_empty {p : Int} {M : List E} (h : Tracks p (pre ++ c :: post) L M)
    (hc : c.from_ = c.to_) (hr : c.getRemoved = []) : Tracks p (pre ++ post) L M := by
  obtain ⟨m, A1, A2, B1, B2, rfl, rfl, h1, kept, added, A', B', hf, ht, rfl, rfl, h2⟩ :=
    tracks_append.mp h
  obtain rfl : added = [] := length_eq_zero_iff.mp (by omega)
  refine tracks_append.mpr ⟨m, A1, _, B1, _, rfl, rfl, h1, ?_⟩
  rw [hr]
  have := h2.keep (p := m) kept (by rw [← hc, hf])
  simpa using this

end Remove

section Add

variable {pre post : List (SubChange E)} {c : SubChange E} {L X Y : List E}

theorem tracks_add_inside (N : List E) (h : Tracks 0 (pre ++ c :: post) L (X ++ Y))
    (hfrom : c.from_ ≤ X.length) (hto : (X.length : Int) ≤ c.to_) :
    Tracks 0 (pre ++ { c with to_ := c.to_ + N.length } :: post.map (SubChange.shift N.length)) L
      (X ++ (N ++ Y)) := by
  simpa using @tracks_inside E pre post c L X Y [] N h hfrom (by simpa using hto)

theorem tracks_add_between (N : List E) (h : Tracks 0 (pre ++ post) L (X ++ Y))
    (hpre : ∀ d ∈ pre.getLast?, d.to_ ≤ X.length)
    (hpost : ∀ d ∈ post.head?, (X.length : Int) ≤ d.from_) (perm : List Int) (u : Bool) :
    Tracks 0 (pre ++ ⟨X.length, X.length + N.length, some [], perm, u⟩ ::
      post.map (SubChange.shift N.length)) L (X ++ (N ++ Y)) := by
  simpa using @tracks_between E pre post L X Y [] N h hpre (by simpa using hpost) perm u

end Add

/-! ## The search -/

theorem SubChange.side_eq_lt :
    c.side idx = .lt ↔ c.to_ ≤ idx := by
  unfold side
  split
  · simp_all
  · split <;> simp_all

theorem SubChange.side_eq_gt :
    c.side idx = .gt ↔ idx < c.to_ ∧ idx < c.from_ := by
  unfold side
  split
  · exact iff_of_false (by simp) (by omega)
  · split <;> simp_all

theorem SubChange.side_eq_eq :
    c.side idx = .eq ↔ c.from_ ≤ idx ∧ idx < c.to_ := by
  unfold side
  split
  · simp_all
  · split <;> simp_all

theorem findSubChange_found (h : findSubChange idx cs = .found i) :
    ∃ pre c post, cs = pre ++ c :: post ∧ i = pre.length ∧ c.from_ ≤ idx ∧ idx < c.to_ := by
  obtain ⟨c, hc, hord⟩ := binarySearch_found h
  obtain ⟨hi, rfl⟩ := List.getElem?_eq_some_iff.mp hc
  refine ⟨cs.take i, cs[i], cs.drop (i + 1), ?_, ?_, side_eq_eq.mp hord⟩
  · rw [← drop_eq_getElem_cons hi, take_append_drop]
  · rw [length_take]; omega

theorem findSubChange_notFound
    (hle : ∀ c ∈ cs, c.from_ ≤ c.to_) (hcs : cs.Pairwise fun a b => a.to_ ≤ b.from_)
    (h : findSubChange idx cs = .notFound i) :
    ∃ pre post, cs = pre ++ post ∧ i = pre.length ∧ (∀ c ∈ pre, c.to_ ≤ idx) ∧
      ∀ c ∈ post, idx < c.from_ := by
  have hsort : SortedAround (side idx) cs := by
    refine List.Pairwise.imp_of_mem ?_ hcs
    intro a b ha hb hab
    have hb' := hle b hb
    rw [side_eq_lt, side_eq_lt, side_eq_gt, side_eq_gt]
    omega
  obtain ⟨hi, hlt, hgt⟩ := binarySearch_notFound hsort h
  refine ⟨cs.take i, cs.drop i, (take_append_drop _ _).symm, ?_, ?_, ?_⟩
  · rw [length_take]; omega
  · intro c hc
    exact side_eq_lt.mp (hlt c hc)
  · intro c hc
    exact (side_eq_gt.mp (hgt c hc)).2

theorem Tracks.findSubChange_notFound {p : Int} {A B : List E} (ht : Tracks p cs A B)
    (h : findSubChange idx cs = .notFound i) :
    ∃ pre post, cs = pre ++ post ∧ i = pre.length ∧ (∀ c ∈ pre, c.to_ ≤ idx) ∧
      ∀ c ∈ post, idx < c.from_ :=
  Collections.findSubChange_notFound (fun c hc => (ht.bounds c hc).2.1) ht.pairwise h

/-! ## Index operations at a seam -/

theorem shiftFrom_seam (pre post : List (SubChange E)) (d : Int) :
    shiftFrom pre.length d (pre ++ post) = pre ++ post.map (SubChange.shift d) := by
  rw [shiftFrom, take_left, drop_left]

theorem shiftFrom_seam_succ (pre post : List (SubChange E)) (c : SubChange E) (d : Int) :
    shiftFrom (pre.length + 1) d (pre ++ c :: post) = pre ++ c :: post.map (SubChange.shift d) := by
  have h := shiftFrom_seam (pre ++ [c]) post d
  simpa using h

theorem prevEndingAt_concat (pre post : List (SubChange E)) (c : SubChange E) (pos : Int) :
    prevEndingAt (pre ++ [c] ++ post) (pre ++ [c]).length pos
      = if c.to_ = pos then some c else none := by
  have hget : (pre ++ [c] ++ post)[pre.length]? = some c := by simp
  rw [prevEndingAt, length_append, length_singleton, if_pos (Nat.succ_pos _),
    Nat.add_sub_cancel, hget, Option.filter_some]
  simp

theorem nextStartingAt_nil (pre : List (SubChange E)) (pos : Int) :
    nextStartingAt pre pre.length pos = none := by
  simp [nextStartingAt]

theorem nextStartingAt_cons (pre post : List (SubChange E)) (c : SubChange E) (pos : Int) :
    nextStartingAt (pre ++ c :: post) pre.length pos = if c.from_ = pos then some c else none := by
  rw [nextStartingAt, getElem?_seam, Option.filter_some]
  simp

/-! ## The code -/

/-- The removals that are recorded wrongly (see the head of this file). -/
def RemoveGoesWrong (idx : Int) (cs : List (SubChange E)) : Prop :=
  (∃ last ∈ cs.getLast?, ∃ prev ∈ cs.dropLast.getLast?, last.from_ = idx + 1 ∧ prev.to_ = idx + 1) ∨
  ∃ c ∈ cs.dropLast, c.from_ = idx ∧ c.to_ = idx + 1 ∧ c.removedIsEmpty

instance (idx : Int) (cs : List (SubChange E)) : Decidable (RemoveGoesWrong idx cs) :=
  inferInstanceAs (Decidable (_ ∨ _))

theorem hasRemoved_nil : HasRemoved ([] : List (SubChange E)) := fun _ h => by cases h

variable {ys : List (SubChange E)}

theorem HasRemoved.append (hx : HasRemoved xs) (hy : HasRemoved ys) : HasRemoved (xs ++ ys) := by
  intro c hc
  rcases mem_append.mp hc with hc | hc
  · exact hx c hc
  · exact hy c hc

open HasRemoved

theorem HasRemoved.shift (hx : HasRemoved xs) (d : Int) :
    HasRemoved (xs.map (SubChange.shift d)) := by
  intro c hc
  obtain ⟨x, hmem, rfl⟩ := mem_map.mp hc
  exact hx x hmem

theorem HasRemoved.seam {pre post : List (SubChange E)} {r : List E}
    (hpre : HasRemoved pre) (hpost : HasRemoved post) (hc : c.removed = some r) (d : Int) :
    HasRemoved (pre ++ c :: post.map (SubChange.shift d)) := by
  refine hpre.append ?_
  intro x hx
  rcases mem_cons.mp hx with rfl | hx
  · exact ⟨r, hc⟩
  · exact hpost.shift d x hx

theorem HasRemoved.left (h : HasRemoved (xs ++ ys)) :
    HasRemoved xs := fun c hc => h c (mem_append_left _ hc)

theorem HasRemoved.right (h : HasRemoved (xs ++ ys)) :
    HasRemoved ys := fun c hc => h c (mem_append_right _ hc)

theorem HasRemoved.head {c : SubChange E} {ys : List (SubChange E)} (h : HasRemoved (c :: ys)) :
    ∃ r, c.removed = some r := h c mem_cons_self

theorem HasRemoved.tail {c : SubChange E} {ys : List (SubChange E)} (h : HasRemoved (c :: ys)) :
    HasRemoved ys := fun d hd => h d (.tail _ hd)

/-! ### `insertRemoved` -/

section InsertRemoved

variable {pre post : List (SubChange E)} {c c' : SubChange E} {pos : Int} {e : E}

theorem insertRemoved_prev
    (hfind : findSubChange pos (pre ++ [c] ++ post) = .notFound (pre ++ [c]).length)
    (hto : c.to_ = pos) (hc : c.addRemoved e = some c') :
    insertRemoved pos e (pre ++ [c] ++ post)
      = .ok () (pre ++ c' :: post.map (SubChange.shift (-1))) := by
  have hset : (pre ++ [c] ++ post).set ((pre ++ [c]).length - 1) c' = (pre ++ [c']) ++ post := by
    rw [append_assoc, length_append, length_singleton, Nat.add_sub_cancel,
      singleton_append, set_seam, append_cons]
  have hlen : (pre ++ [c]).length = (pre ++ [c']).length := by simp
  simp only [insertRemoved, hfind, prevEndingAt_concat, if_pos hto, hc, hset]
  rw [hlen, shiftFrom_seam, ← append_cons]

theorem insertRemoved_next (hfind : findSubChange pos (pre ++ c :: post) = .notFound pre.length)
    (hprev : prevEndingAt (pre ++ c :: post) pre.length pos = none)
    (hfrom : c.from_ = pos + 1) (hc : (c.shift (-1)).addRemovedFirst e = some c') :
    insertRemoved pos e (pre ++ c :: post)
      = .ok () (pre ++ c' :: post.map (SubChange.shift (-1))) := by
  simp only [insertRemoved, hfind, hprev, nextStartingAt_cons, if_pos hfrom, hc,
    set_seam, shiftFrom_seam_succ]

theorem insertRemoved_new (hfind : findSubChange pos (pre ++ post) = .notFound pre.length)
    (hprev : prevEndingAt (pre ++ post) pre.length pos = none)
    (hnxt : nextStartingAt (pre ++ post) pre.length (pos + 1) = none) :
    insertRemoved pos e (pre ++ post) = .ok () (pre ++ ⟨pos, pos, some [e], emptyPerm, false⟩ ::
          post.map (SubChange.shift (-1))) := by
  simp only [insertRemoved, hfind, hprev, hnxt, insertIdx_seam, shiftFrom_seam_succ]

theorem insertRemoved_shrink (hfind : findSubChange pos (pre ++ c :: post) = .found pre.length)
    (hkeep : ¬ (c.from_ = c.to_ - 1 ∧ c.removedIsEmpty)) :
    insertRemoved pos e (pre ++ c :: post)
      = .ok () (pre ++ { c with to_ := c.to_ - 1 } :: post.map (SubChange.shift (-1))) := by
  have hkeep' : ¬ (c.from_ = c.to_ - 1 ∧
      removedIsEmpty { c with to_ := c.to_ - 1 } = true) := hkeep
  simp only [insertRemoved, hfind, getElem?_seam, set_seam, if_neg hkeep', shiftFrom_seam_succ]

theorem insertRemoved_drop (hfind : findSubChange pos (pre ++ [c]) = .found pre.length)
    (hdrop : c.from_ = c.to_ - 1 ∧ c.removedIsEmpty) :
    insertRemoved pos e (pre ++ [c]) = .ok () pre := by
  have hdrop' : c.from_ = c.to_ - 1 ∧
      removedIsEmpty { c with to_ := c.to_ - 1 } = true := hdrop
  simp only [insertRemoved, hfind, getElem?_seam, set_seam, if_pos hdrop',
    eraseIdx_seam, append_nil, shiftFrom, take_of_length_le (Nat.le_succ _),
    drop_of_length_le (Nat.le_succ _), map_nil]

end InsertRemoved

theorem prevEndingAt_eq_some {pre post : List (SubChange E)} {pos : Int}
    (h : prevEndingAt (pre ++ post) pre.length pos = some c) :
    ∃ pre', pre = pre' ++ [c] ∧ c.to_ = pos := by
  cases pre using List.reverseRecOn with
  | nil => cases h
  | append_singleton pre d =>
    rw [prevEndingAt_concat] at h
    split at h
    · next hto =>
      cases h
      exact ⟨pre, rfl, hto⟩
    · cases h

theorem insertRemoved_spec {L X Y : List E} {e : E}
    (h : Tracks 0 cs L (X ++ e :: Y)) (hr : HasRemoved cs)
    (hok : ∀ c ∈ cs.dropLast, ¬ (c.from_ = X.length ∧ c.to_ = X.length + 1 ∧ c.removedIsEmpty)) :
    ∃ cs', insertRemoved X.length e cs = .ok () cs' ∧ HasRemoved cs' ∧
      Tracks 0 cs' L (X ++ Y) := by
  cases hfind : findSubChange (X.length : Int) cs with
  | found i =>
    obtain ⟨pre, c, post, rfl, rfl, hfrom, hto⟩ := findSubChange_found hfind
    have hin := tracks_remove_inside h hfrom hto
    obtain ⟨r, hcr⟩ := hr.right.head
    by_cases hdrop : c.from_ = c.to_ - 1 ∧ c.removedIsEmpty
    · -- dropping the sub-change leaves nothing behind it to shift
      obtain rfl : post = [] := by
        by_contra hpost
        refine hok c ?_ ⟨by omega, by omega, hdrop.2⟩
        rw [dropLast_append_of_ne_nil (by simp), dropLast_cons_of_ne_nil hpost]
        simp
      refine ⟨pre, insertRemoved_drop hfind hdrop, hr.left, ?_⟩
      have := tracks_drop_empty hin hdrop.1 (List.isEmpty_iff.mp hdrop.2)
      simpa using this
    · exact ⟨_, insertRemoved_shrink hfind hdrop,
        seam (c := { c with to_ := c.to_ - 1 }) hr.left hr.right.tail hcr (-1), hin⟩
  | notFound i =>
    obtain ⟨pre, post, rfl, rfl, hpre, hpost⟩ := h.findSubChange_notFound hfind
    have hpre' : ∀ d ∈ pre.getLast?, d.to_ ≤ X.length := fun d hd =>
      hpre d (mem_of_getLast? hd)
    have hpost' : ∀ d ∈ post.head?, (X.length : Int) < d.from_ := fun d hd =>
      hpost d (mem_of_head? hd)
    cases hprev : prevEndingAt (pre ++ post) pre.length X.length with
    | some c =>
      obtain ⟨pre, rfl, hto⟩ := prevEndingAt_eq_some hprev
      obtain ⟨r, hcr⟩ := hr.left.right.head
      have hadd : c.addRemoved e = some { c with removed := some (r ++ [e]) } := by
        rw [addRemoved, hcr]; rfl
      refine ⟨_, insertRemoved_prev hfind hto hadd,
        seam (r := r ++ [e]) hr.left.left hr.right rfl (-1), ?_⟩
      rw [append_assoc] at h
      exact tracks_remove_after h hto (by rw [hto]; exact hpost') hadd
    | none =>
      cases hnxt : nextStartingAt (pre ++ post) pre.length (X.length + 1) with
      | none =>
        exact ⟨_, insertRemoved_new hfind hprev hnxt, seam hr.left hr.right rfl (-1),
          tracks_remove_between h hpre' hpost' emptyPerm false⟩
      | some d =>
        cases post with
        | nil => rw [append_nil, nextStartingAt_nil] at hnxt; cases hnxt
        | cons c post =>
          rw [nextStartingAt_cons] at hnxt
          obtain ⟨hfrom, rfl⟩ : c.from_ = X.length + 1 ∧ c = d := by
            split at hnxt
            · next hfrom => cases hnxt; exact ⟨hfrom, rfl⟩
            · cases hnxt
          obtain ⟨r, hcr⟩ := hr.right.head
          have hadd : (c.shift (-1)).addRemovedFirst e
              = some { c.shift (-1) with removed := some (e :: r) } := by
            rw [addRemovedFirst, SubChange.shift, hcr]; rfl
          exact ⟨_, insertRemoved_next hfind hprev hfrom hadd,
            seam (r := e :: r) hr.left hr.right.tail rfl (-1),
            tracks_remove_before h hfrom hpre' hadd⟩

theorem recordRemove_spec {L X Y : List E} {e : E}
    (h : Tracks 0 cs L (X ++ e :: Y)) (hr : HasRemoved cs)
    (hok : ¬ RemoveGoesWrong X.length cs) :
    ∃ cs', recordRemove X.length e cs = .ok () cs' ∧ HasRemoved cs' ∧
      Tracks 0 cs' L (X ++ Y) := by
  have hdrop : ∀ c ∈ cs.dropLast,
      ¬ (c.from_ = X.length ∧ c.to_ = X.length + 1 ∧ c.removedIsEmpty) :=
    fun c hc hbad => hok (Or.inr ⟨c, hc, hbad⟩)
  cases cs using List.reverseRecOn with
  | nil => exact insertRemoved_spec h hr hdrop
  | append_singleton pre last =>
    obtain ⟨r, hlr⟩ := hr.right.head
    by_cases hto : last.to_ = X.length
    · have hadd : last.addRemoved e = some { last with removed := some (r ++ [e]) } := by
        rw [addRemoved, hlr]; rfl
      refine ⟨pre ++ [{ last with removed := some (r ++ [e]) }], ?_,
        seam (r := r ++ [e]) hr.left hasRemoved_nil rfl (-1),
        tracks_remove_after h hto (fun _ h => by cases h) hadd⟩
      simp only [recordRemove, getLast?_concat, if_pos hto, hadd, dropLast_concat]
    · by_cases hfrom : last.from_ = X.length + 1
      · have hadd : (last.shift (-1)).addRemovedFirst e
            = some { last.shift (-1) with removed := some (e :: r) } := by
          rw [addRemovedFirst, SubChange.shift, hlr]; rfl
        -- no other sub-change ends where `last` starts, so all end before the element
        have hpre : ∀ d ∈ pre.getLast?, d.to_ ≤ X.length := by
          intro d hd
          have hle := (pairwise_append.mp h.pairwise).2.2 d (mem_of_getLast? hd) last mem_cons_self
          have hne : d.to_ ≠ X.length + 1 := fun heq =>
            hok (Or.inl ⟨last, by simp, d, by simpa using hd, hfrom, heq⟩)
          omega
        refine ⟨pre ++ [{ last.shift (-1) with removed := some (e :: r) }], ?_,
          seam (r := e :: r) hr.left hasRemoved_nil rfl (-1),
          tracks_remove_before h hfrom hpre hadd⟩
        simp only [recordRemove, getLast?_concat, if_neg hto, if_pos hfrom, hadd, dropLast_concat]
      · obtain ⟨cs', hins, hr', ht'⟩ := insertRemoved_spec h hr hdrop
        refine ⟨cs', ?_, hr', ht'⟩
        simp only [recordRemove, getLast?_concat, if_neg hto, if_neg hfrom]
        exact hins

/-! ### `insertAdd` -/

section InsertAdd

variable {pre post : List (SubChange E)} {c : SubChange E} {pos to_ : Int}

theorem insertAdd_prev
    (hfind : findSubChange pos (pre ++ [c] ++ post) = .notFound (pre ++ [c]).length)
    (hto : c.to_ = pos) :
    insertAdd pos to_ (pre ++ [c] ++ post)
      = pre ++ { c with to_ := to_ } :: post.map (SubChange.shift (to_ - pos)) := by
  have hset : (pre ++ [c] ++ post).set ((pre ++ [c]).length - 1) { c with to_ := to_ }
      = (pre ++ [{ c with to_ := to_ }]) ++ post := by
    rw [append_assoc, length_append, length_singleton, Nat.add_sub_cancel,
      singleton_append, set_seam, append_cons]
  have hlen : (pre ++ [c]).length = (pre ++ [{ c with to_ := to_ }]).length := by simp
  simp only [insertAdd, hfind, prevEndingAt_concat, if_pos hto, hset]
  rw [hlen, shiftFrom_seam, ← append_cons]

theorem insertAdd_new (hfind : findSubChange pos (pre ++ post) = .notFound pre.length)
    (hprev : prevEndingAt (pre ++ post) pre.length pos = none) :
    insertAdd pos to_ (pre ++ post) = pre ++ ⟨pos, to_, some [], emptyPerm, false⟩ ::
          post.map (SubChange.shift (to_ - pos)) := by
  simp only [insertAdd, hfind, hprev, insertIdx_seam, shiftFrom_seam_succ]

theorem insertAdd_grow (hfind : findSubChange pos (pre ++ c :: post) = .found pre.length) :
    insertAdd pos to_ (pre ++ c :: post)
      = pre ++ { c with to_ := c.to_ + (to_ - pos) } :: post.map (SubChange.shift (to_ - pos)) := by
  simp only [insertAdd, hfind, modify_seam, shiftFrom_seam_succ]

end InsertAdd

theorem insertAdd_spec {L X Y : List E} (N : List E)
    (h : Tracks 0 cs L (X ++ Y)) (hr : HasRemoved cs) :
    HasRemoved (insertAdd X.length (X.length + N.length) cs) ∧
      Tracks 0 (insertAdd X.length (X.length + N.length) cs) L (X ++ (N ++ Y)) := by
  have hn : (X.length : Int) + N.length - X.length = N.length := by omega
  cases hfind : findSubChange (X.length : Int) cs with
  | found i =>
    obtain ⟨pre, c, post, rfl, rfl, hfrom, hto⟩ := findSubChange_found hfind
    obtain ⟨r, hcr⟩ := hr.right.head
    rw [insertAdd_grow hfind, hn]
    exact ⟨seam (c := { c with to_ := c.to_ + N.length }) hr.left hr.right.tail hcr _,
      tracks_add_inside N h hfrom (by omega)⟩
  | notFound i =>
    obtain ⟨pre, post, rfl, rfl, hpre, hpost⟩ := h.findSubChange_notFound hfind
    cases hprev : prevEndingAt (pre ++ post) pre.length X.length with
    | some c =>
      obtain ⟨pre, rfl, hto⟩ := prevEndingAt_eq_some hprev
      obtain ⟨r, hcr⟩ := hr.left.right.head
      rw [insertAdd_prev hfind hto, hn]
      refine ⟨seam (c := { c with to_ := X.length + N.length }) hr.left.left hr.right hcr _, ?_⟩
      rw [append_assoc] at h
      have hin := h.bounds c (by simp)
      have hgrow := tracks_add_inside N h (by omega) (by omega)
      rw [hto] at hgrow
      exact hgrow
    | none =>
      rw [insertAdd_new hfind hprev, hn]
      refine ⟨seam hr.left hr.right rfl _, tracks_add_between N h ?_ ?_ _ _⟩
      · intro d hd
        exact hpre d (mem_of_getLast? hd)
      · intro d hd
        have := hpost d (mem_of_head? hd)
        omega

theorem recordAdd_spec {L X Y : List E} (N : List E)
    (h : Tracks 0 cs L (X ++ Y)) (hr : HasRemoved cs) :
    HasRemoved (recordAdd X.length (X.length + N.length) cs) ∧
      Tracks 0 (recordAdd X.length (X.length + N.length) cs) L (X ++ (N ++ Y)) := by
  cases cs using List.reverseRecOn with
  | nil => exact insertAdd_spec N h hr
  | append_singleton pre last =>
    obtain ⟨r, hlr⟩ := hr.right.head
    have hin := h.bounds last (by simp)
    simp only [recordAdd, getLast?_concat, dropLast_concat]
    split
    · next hto =>
      refine ⟨seam (c := { last with to_ := X.length + N.length }) hr.left hasRemoved_nil
        hlr N.length, ?_⟩
      have hgrow := tracks_add_inside N h (by omega) (by omega)
      rw [hto] at hgrow
      exact hgrow
    · split
      · next hmid =>
        have hn : (X.length : Int) + N.length - X.length = N.length := by omega
        rw [hn]
        exact ⟨seam (c := { last with to_ := last.to_ + N.length }) hr.left
          hasRemoved_nil hlr N.length, tracks_add_inside N h hmid.1 (by omega)⟩
      · exact insertAdd_spec N h hr

end OpenJfx.Collections
