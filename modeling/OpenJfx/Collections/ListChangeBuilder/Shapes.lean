/-
  OpenJfx.Collections.ListChangeBuilder.Shapes

  Three orders of removal with a shape of the sub-change list that no removal of the order goes
  wrong on: always at one place (`OneAt`), from the last index to the first (`Behind`), and along
  an iterator (`UpTo`).
-/

import OpenJfx.Collections.ListChangeBuilder.Recording

namespace OpenJfx.Collections

open List Option ListChangeBuilder SubChange

variable {E : Type}

/-- At most one sub-change, ending at `idx`. -/
def OneAt (idx : Int) (cs : List (SubChange E)) : Prop :=
  cs = [] ∨ ∃ c, cs = [c] ∧ c.to_ = idx

/-- Removals only, from `k` on, strictly ascending. -/
def Behind (k : Int) (cs : List (SubChange E)) : Prop :=
  (∀ c ∈ cs, c.from_ = c.to_ ∧ k ≤ c.from_) ∧ cs.Pairwise fun a b => a.from_ < b.from_

/-- Removals only, up to `k`. -/
def UpTo (k : Int) (cs : List (SubChange E)) : Prop := ∀ c ∈ cs, c.from_ = c.to_ ∧ c.to_ ≤ k

section Shapes

variable {cs cs' : List (SubChange E)} {idx : Int} {e : E}

theorem OneAt.ok (h : OneAt idx cs) : ¬ RemoveGoesWrong idx cs := by
  rcases h with rfl | ⟨c, rfl, -⟩
  · simp [RemoveGoesWrong]
  · simp [RemoveGoesWrong]

theorem OneAt.recordRemove (h : OneAt idx cs)
    (hok : recordRemove idx e cs = .ok () cs') : OneAt idx cs' := by
  rcases h with rfl | ⟨c, rfl, hto⟩
  · -- the first removal
    cases hok
    exact Or.inr ⟨_, rfl, rfl⟩
  · simp only [recordRemove, getLast?_singleton, if_pos hto] at hok
    split at hok
    · cases hok
    · rename_i c' hc'
      cases hok
      obtain ⟨r, -, rfl⟩ := map_eq_some_iff.mp hc'
      exact Or.inr ⟨_, rfl, hto⟩

theorem Behind.ok (h : Behind (idx + 1) cs) : ¬ RemoveGoesWrong idx cs := by
  obtain ⟨hall, hlt⟩ := h
  rintro (⟨last, hlast, prev, hprev, hfrom, hto⟩ | ⟨c, hc, hfrom, -, -⟩)
  · -- two sub-changes cannot stand at the same place
    obtain ⟨pre, rfl⟩ := getLast?_eq_some_iff.mp hlast
    rw [dropLast_concat] at hprev
    have hp := hall prev (mem_append_left _ (mem_of_getLast? hprev))
    have := (pairwise_append.mp hlt).2.2 prev (mem_of_getLast? hprev) last mem_cons_self
    omega
  · have := hall c (dropLast_sublist cs |>.subset hc)
    omega

theorem behind_nil (k : Int) : Behind k ([] : List (SubChange E)) :=
  ⟨fun _ hc => (by cases hc), List.Pairwise.nil⟩

theorem behind_shift {k : Int} (h : Behind (k + 1) cs) :
    Behind k (cs.map (shift (-1))) := by
  refine ⟨?_, pairwise_map.mpr (h.2.imp ?_)⟩
  · intro c hc
    obtain ⟨d, hd, rfl⟩ := mem_map.mp hc
    have := h.1 d hd
    simp only [shift]
    omega
  · intro a b hab
    simp only [shift]
    omega

theorem behind_cons {k : Int} {c : SubChange E} (hc : c.from_ = c.to_) (hk : k ≤ c.from_)
    (h : Behind (c.from_ + 1) cs) : Behind k (c :: cs) := by
  refine ⟨?_, pairwise_cons.mpr ⟨?_, h.2⟩⟩
  · intro d hd
    rcases mem_cons.mp hd with rfl | hd
    · exact ⟨hc, hk⟩
    · have := h.1 d hd
      omega
  · intro d hd
    have := h.1 d hd
    omega

theorem Behind.insertRemoved (h : Behind (idx + 1) cs)
    (hok : OpenJfx.Collections.insertRemoved idx e cs = .ok () cs') : Behind idx cs' := by
  obtain ⟨hall, hlt⟩ := h
  have hpair : cs.Pairwise fun a b => a.to_ ≤ b.from_ := by
    refine List.Pairwise.imp_of_mem ?_ hlt
    intro a b ha hb hab
    have := hall a ha
    omega
  cases hfind : findSubChange idx cs with
  | found i =>
    obtain ⟨pre, c, post, rfl, -, hfrom, -⟩ := findSubChange_found hfind
    have := hall c (by simp)
    omega
  | notFound i =>
    obtain ⟨pre, post, rfl, rfl, hpre, hpost⟩ :=
      findSubChange_notFound (fun c hc => Int.le_of_eq (hall c hc).1) hpair hfind
    -- nothing stands before the new removal
    obtain rfl : pre = [] := by
      rw [eq_nil_iff_forall_not_mem]
      intro c hc
      have h1 := hall c (mem_append_left _ hc)
      have h2 := hpre c hc
      omega
    rw [nil_append] at hall hlt hok hfind
    cases post with
    | nil =>
      cases hok
      exact behind_cons rfl (Int.le_refl _) (behind_nil _)
    | cons c post =>
      have hc := hall c mem_cons_self
      have htail : Behind (c.from_ + 1) post := by
        rw [pairwise_cons] at hlt
        exact ⟨fun d hd => ⟨(hall d (.tail _ hd)).1, hlt.1 d hd⟩, hlt.2⟩
      by_cases hnxt : c.from_ = idx + 1
      · -- it joins the first one
        cases hadd : (c.shift (-1)).addRemovedFirst e with
        | none =>
          have hnxt' := nextStartingAt_cons [] post c (idx + 1)
          rw [if_pos hnxt] at hnxt'
          simp only [OpenJfx.Collections.insertRemoved, hfind, prevEndingAt, length_nil,
            gt_iff_lt, Nat.lt_irrefl, if_false] at hok
          simp only [nil_append, length_nil] at hnxt'
          rw [hnxt'] at hok
          simp only [hadd] at hok
          cases hok
        | some c' =>
          have hins := @insertRemoved_next _ [] _ _ _ _ e hfind rfl hnxt hadd
          rw [nil_append, hok] at hins
          cases hins
          obtain ⟨r, -, rfl⟩ := map_eq_some_iff.mp hadd
          refine behind_cons ?_ ?_ ?_
          · simp only [shift]
            omega
          · simp only [shift]
            omega
          · have : c.from_ + -1 + 1 = c.from_ := by omega
            simp only [shift, this]
            exact behind_shift htail
      · -- it gets a sub-change of its own
        have hins := @insertRemoved_new _ [] _ _ e hfind rfl (by
          rw [nextStartingAt_cons, if_neg hnxt])
        rw [nil_append, hok] at hins
        cases hins
        refine behind_cons rfl (Int.le_refl _) (behind_shift ⟨?_, hlt⟩)
        intro d hd
        rcases mem_cons.mp hd with rfl | hd
        · exact ⟨hc.1, by dsimp only; omega⟩
        · have := htail.1 d hd
          exact ⟨this.1, by dsimp only; omega⟩

theorem Behind.recordRemove (h : Behind (idx + 1) cs)
    (hok : recordRemove idx e cs = .ok () cs') : Behind idx cs' := by
  cases cs using List.reverseRecOn with
  | nil => exact h.insertRemoved hok
  | append_singleton pre last =>
    have hlast := h.1 last (by simp)
    have hto : last.to_ ≠ idx := by omega
    simp only [recordRemove, getLast?_concat, if_neg hto, dropLast_concat] at hok
    split at hok
    · rename_i hfrom
      split at hok
      · cases hok
      · rename_i c' hc'
        cases hok
        -- `last` is the only one
        obtain rfl : pre = [] := by
          rw [eq_nil_iff_forall_not_mem]
          intro d hd
          have h1 := h.1 d (mem_append_left _ hd)
          have h2 := (pairwise_append.mp h.2).2.2 d hd last mem_cons_self
          omega
        obtain ⟨r, -, rfl⟩ := map_eq_some_iff.mp hc'
        refine behind_cons ?_ ?_ (behind_nil _)
        · simp only [shift]
          omega
        · simp only [shift]
          omega
    · exact h.insertRemoved hok

theorem UpTo.ok (h : UpTo idx cs) : ¬ RemoveGoesWrong idx cs := by
  rintro (⟨last, hlast, prev, -, hfrom, -⟩ | ⟨c, hc, hfrom, hto, -⟩)
  · have := h last (mem_of_getLast? hlast)
    omega
  · have := h c (dropLast_sublist cs |>.subset hc)
    omega

/-- A removal at `idx` leaves the sub-changes there or before. -/
theorem UpTo.recordRemove {L L' : List E} (ht : Tracks 0 cs L L') (h : UpTo idx cs)
    (hok : recordRemove idx e cs = .ok () cs') : UpTo idx cs' := by
  have hinsert : insertRemoved idx e cs = .ok () cs' → UpTo idx cs' := by
    intro hok
    cases hfind : findSubChange idx cs with
    | found i =>
      obtain ⟨pre, c, post, rfl, -, hfrom, hto⟩ := findSubChange_found hfind
      have := h c (by simp)
      omega
    | notFound i =>
      obtain ⟨pre, post, rfl, rfl, hpre, hpost⟩ := ht.findSubChange_notFound hfind
      obtain rfl : post = [] := by
        rw [eq_nil_iff_forall_not_mem]
        intro c hc
        have h1 := h c (mem_append_right _ hc)
        have h2 := hpost c hc
        omega
      cases hprev : prevEndingAt (pre ++ []) pre.length idx with
      | none =>
        have hins := insertRemoved_new (e := e) hfind hprev (by
          rw [append_nil, nextStartingAt_nil])
        rw [hok] at hins
        cases hins
        intro c hc
        rcases mem_append.mp hc with hc | hc
        · exact h c (mem_append_left _ hc)
        · rw [mem_singleton.mp hc]
          exact ⟨rfl, Int.le_refl _⟩
      | some c =>
        obtain ⟨pre, rfl, hto⟩ := prevEndingAt_eq_some hprev
        cases hadd : c.addRemoved e with
        | none =>
          simp only [insertRemoved, hfind, hprev, hadd] at hok
          cases hok
        | some c' =>
          have hins := insertRemoved_prev hfind hto hadd
          rw [hok] at hins
          cases hins
          obtain ⟨r, -, rfl⟩ := map_eq_some_iff.mp hadd
          intro d hd
          rcases mem_append.mp hd with hd | hd
          · exact h d (by simp [hd])
          · rw [mem_singleton.mp hd]
            exact h c (by simp)
  cases cs using List.reverseRecOn with
  | nil => exact hinsert hok
  | append_singleton pre last =>
    have hlast := h last (by simp)
    have hfrom : last.from_ ≠ idx + 1 := by omega
    simp only [recordRemove, getLast?_concat, if_neg hfrom, dropLast_concat] at hok
    split at hok
    · split at hok
      · cases hok
      · rename_i c' hc'
        cases hok
        obtain ⟨r, -, rfl⟩ := map_eq_some_iff.mp hc'
        intro d hd
        rcases mem_append.mp hd with hd | hd
        · exact h d (mem_append_left _ hd)
        · rw [mem_singleton.mp hd]
          exact hlast
    · exact hinsert hok

end Shapes

end OpenJfx.Collections
