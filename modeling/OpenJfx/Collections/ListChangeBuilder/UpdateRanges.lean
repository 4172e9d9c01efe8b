/-
  OpenJfx.Collections.ListChangeBuilder.UpdateRanges

  `updateChanges` as a set of positions.  The ranges stand one after the other and may touch; one
  may be empty, since an insertion at the first position of a range splits it into nothing and the
  whole.  The positions covered are right in any case.
-/

import OpenJfx.Collections.ListChangeBuilder.PermutationStep

namespace OpenJfx.Collections

open ListChangeBuilder List SubChange

variable {from_ : Int} {E : Type}

/-- The ranges of `updateChanges`, in order. -/
structure UpdateRanges (us : List (SubChange E)) : Prop where
  le : ∀ c ∈ us, c.from_ ≤ c.to_
  apart : us.Pairwise fun a b => a.to_ ≤ b.from_
  removed : ∀ c ∈ us, c.removed = none
  updated : ∀ c ∈ us, c.updated = true

/-! ## Parts of the list -/

theorem covers_cons {c : SubChange E} {cs : List (SubChange E)} {q : Int} :
    covers (c :: cs) q = true ↔ (c.from_ ≤ q ∧ q < c.to_) ∨ covers cs q = true := by
  simp [covers]

variable {cs us pre : List (SubChange E)} {c : SubChange E} {b : ListChangeBuilder E}

theorem covers_shift {d q : Int} :
    covers (cs.map (SubChange.shift d)) q = true ↔ covers cs (q - d) = true := by
  induction cs with
  | nil => exact Iff.rfl
  | cons c cs ih =>
    rw [map_cons, covers_cons, covers_cons, ih]
    have : c.from_ + d ≤ q ∧ q < c.to_ + d ↔ c.from_ ≤ q - d ∧ q - d < c.to_ := by omega
    exact or_congr_left this

theorem lt_of_covers {k q : Int} (hk : ∀ c ∈ cs, c.to_ ≤ k) (h : covers cs q = true) : q < k := by
  obtain ⟨c, hc, -, hto⟩ := covers_iff.mp h
  have := hk c hc
  omega

theorem le_of_covers {cs : List (SubChange E)} {k q : Int} (hk : ∀ c ∈ cs, k ≤ c.from_)
    (h : covers cs q = true) : k ≤ q := by
  obtain ⟨c, hc, hfrom, -⟩ := covers_iff.mp h
  have := hk c hc
  omega

theorem covers_append_of_lt {xs ys : List (SubChange E)} {k q : Int} (hk : ∀ c ∈ ys, k ≤ c.from_)
    (hq : q < k) : covers (xs ++ ys) q = true ↔ covers xs q = true := by
  rw [covers_append, or_iff_left]
  intro h
  have := le_of_covers hk h
  omega

theorem covers_append_of_le {xs ys : List (SubChange E)} {k q : Int} (hk : ∀ c ∈ xs, c.to_ ≤ k)
    (hq : k ≤ q) : covers (xs ++ ys) q = true ↔ covers ys q = true := by
  rw [covers_append, or_iff_right]
  intro h
  have := lt_of_covers hk h
  omega

theorem updateRanges_nil : UpdateRanges ([] : List (SubChange E)) :=
  ⟨forall_mem_nil _, List.Pairwise.nil, forall_mem_nil _, forall_mem_nil _⟩

theorem updateRanges_append {xs ys : List (SubChange E)} : UpdateRanges (xs ++ ys) ↔
      UpdateRanges xs ∧ UpdateRanges ys ∧ ∀ a ∈ xs, ∀ b ∈ ys, a.to_ ≤ b.from_ := by
  constructor
  · rintro ⟨hle, hapart, hrem, hupd⟩
    rw [forall_mem_append] at hle hrem hupd
    obtain ⟨hx, hy, hxy⟩ := pairwise_append.mp hapart
    exact ⟨⟨hle.1, hx, hrem.1, hupd.1⟩, ⟨hle.2, hy, hrem.2, hupd.2⟩, hxy⟩
  · rintro ⟨hx, hy, hxy⟩
    exact ⟨forall_mem_append.mpr ⟨hx.le, hy.le⟩, pairwise_append.mpr ⟨hx.apart, hy.apart, hxy⟩,
      forall_mem_append.mpr ⟨hx.removed, hy.removed⟩,
      forall_mem_append.mpr ⟨hx.updated, hy.updated⟩⟩

theorem updateRanges_cons :
    UpdateRanges (c :: cs) ↔ (c.from_ ≤ c.to_ ∧ c.removed = none ∧ c.updated = true) ∧
      UpdateRanges cs ∧ ∀ b ∈ cs, c.to_ ≤ b.from_ := by
  constructor
  · rintro ⟨hle, hapart, hrem, hupd⟩
    rw [forall_mem_cons] at hle hrem hupd
    obtain ⟨hc, hcs⟩ := pairwise_cons.mp hapart
    exact ⟨⟨hle.1, hrem.1, hupd.1⟩, ⟨hle.2, hcs, hrem.2, hupd.2⟩, hc⟩
  · rintro ⟨⟨hle, hrem, hupd⟩, hcs, hc⟩
    exact ⟨forall_mem_cons.mpr ⟨hle, hcs.le⟩, pairwise_cons.mpr ⟨hc, hcs.apart⟩,
      forall_mem_cons.mpr ⟨hrem, hcs.removed⟩,
      forall_mem_cons.mpr ⟨hupd, hcs.updated⟩⟩

theorem UpdateRanges.shift (h : UpdateRanges us) (d : Int) :
    UpdateRanges (us.map (SubChange.shift d)) := by
  refine ⟨forall_mem_map.mpr fun c hc => Int.add_le_add_right (h.le c hc) d,
    pairwise_map.mpr (h.apart.imp fun hab => Int.add_le_add_right hab d),
    forall_mem_map.mpr h.removed, forall_mem_map.mpr h.updated⟩

variable {post : List (SubChange E)}

theorem UpdateRanges.replace {c' : SubChange E}
    (h : UpdateRanges (pre ++ c :: post)) (hc : c'.removed = none ∧ c'.updated = true)
    (hle : c'.from_ ≤ c'.to_) (hfrom : ∀ a ∈ pre, a.to_ ≤ c'.from_)
    (hto : ∀ b ∈ post, c'.to_ ≤ b.from_) : UpdateRanges (pre ++ c' :: post) := by
  obtain ⟨hpre, hcpost, hsep⟩ := updateRanges_append.mp h
  obtain ⟨-, hpost, -⟩ := updateRanges_cons.mp hcpost
  refine updateRanges_append.mpr ⟨hpre, updateRanges_cons.mpr ⟨⟨hle, hc⟩, hpost, hto⟩, ?_⟩
  intro a ha
  exact forall_mem_cons.mpr ⟨hfrom a ha, fun b hb => hsep a ha b (.tail _ hb)⟩

/-! ## `nextUpdate` -/

theorem nextStartingAt_eq_some {pos : Int}
    (h : nextStartingAt (pre ++ post) pre.length pos = some c) :
    ∃ post', post = c :: post' ∧ c.from_ = pos := by
  cases post with
  | nil =>
    rw [append_nil, nextStartingAt_nil] at h
    cases h
  | cons d post =>
    rw [nextStartingAt_cons, Option.ite_none_right_eq_some] at h
    obtain ⟨hfrom, hd⟩ := h
    cases hd
    exact ⟨post, rfl, hfrom⟩

theorem UpdateRanges.insertUpdate (h : UpdateRanges us) (pos : Int) :
    UpdateRanges (insertUpdate pos us) ∧
      ∀ q, covers (OpenJfx.Collections.insertUpdate pos us) q = true ↔
        covers us q = true ∨ q = pos := by
  rw [OpenJfx.Collections.insertUpdate]
  cases hfind : findSubChange pos us with
  | found i =>
    obtain ⟨pre, c, post, rfl, -, hfrom, hto⟩ := findSubChange_found hfind
    refine ⟨h, fun q => ⟨Or.inl, ?_⟩⟩
    rintro (hq | rfl)
    · exact hq
    · exact covers_iff.mpr ⟨c, by simp, hfrom, hto⟩
  | notFound i =>
    obtain ⟨pre, post, rfl, rfl, hpre, hpost⟩ := findSubChange_notFound h.le h.apart hfind
    dsimp only
    cases hprev : prevEndingAt (pre ++ post) pre.length pos with
    | some c =>
      -- the range before the position grows
      obtain ⟨pre, rfl, hto⟩ := prevEndingAt_eq_some hprev
      have hseam : (pre ++ [c] ++ post).set ((pre ++ [c]).length - 1) { c with to_ := pos + 1 }
          = pre ++ { c with to_ := pos + 1 } :: post := by
        rw [length_append, length_singleton, Nat.add_sub_cancel, append_assoc,
          singleton_append, ListAt.set_seam]
      rw [append_assoc, singleton_append] at h
      obtain ⟨hp, hcp, hsep⟩ := updateRanges_append.mp h
      obtain ⟨⟨hle, hc⟩, -, -⟩ := updateRanges_cons.mp hcp
      dsimp only
      rw [hseam]
      refine ⟨h.replace hc (by dsimp only; omega) (fun a ha => hsep a ha c mem_cons_self)
        fun b hb => hpost b hb, fun q => ?_⟩
      have : c.from_ ≤ q ∧ q < pos + 1 ↔ (c.from_ ≤ q ∧ q < c.to_) ∨ q = pos := by omega
      rw [append_assoc, covers_append, covers_append, singleton_append, covers_cons,
        covers_cons, this]
      tauto
    | none =>
      cases hnxt : nextStartingAt (pre ++ post) pre.length (pos + 1) with
      | some c =>
        -- the range behind it does
        obtain ⟨post, rfl, hfrom⟩ := nextStartingAt_eq_some hnxt
        dsimp only
        rw [ListAt.set_seam]
        obtain ⟨hp, hcp, hsep⟩ := updateRanges_append.mp h
        obtain ⟨⟨hle, hc⟩, -, hto⟩ := updateRanges_cons.mp hcp
        refine ⟨h.replace hc (by dsimp only; omega) hpre hto, fun q => ?_⟩
        have : pos ≤ q ∧ q < c.to_ ↔ (c.from_ ≤ q ∧ q < c.to_) ∨ q = pos := by omega
        rw [covers_append, covers_append, covers_cons, covers_cons, this]
        tauto
      | none =>
        dsimp only
        rw [ListAt.insertIdx_seam]
        obtain ⟨hp, hpo, hsep⟩ := updateRanges_append.mp h
        refine ⟨updateRanges_append.mpr ⟨hp, updateRanges_cons.mpr
          ⟨⟨by dsimp only; omega, rfl, rfl⟩, hpo, hpost⟩, ?_⟩, fun q => ?_⟩
        · intro a ha
          exact forall_mem_cons.mpr ⟨hpre a ha, hsep a ha⟩
        · have : pos ≤ q ∧ q < pos + 1 ↔ q = pos := by omega
          rw [covers_append, covers_append, covers_cons, this]
          tauto

/-- The range at the end may take the position without a search. -/
theorem UpdateRanges.growLast {last : SubChange E} {idx : Int}
    (h : UpdateRanges (pre ++ [last])) (hto : last.to_ = idx) :
    UpdateRanges (pre ++ [{ last with to_ := idx + 1 }]) ∧
      ∀ q, covers (pre ++ [{ last with to_ := idx + 1 }]) q = true ↔
        covers (pre ++ [last]) q = true ∨ q = idx := by
  obtain ⟨-, hl, hsep⟩ := updateRanges_append.mp h
  obtain ⟨⟨hle, hlast⟩, -, -⟩ := updateRanges_cons.mp hl
  refine ⟨h.replace hlast (by dsimp only; omega) (fun a ha => hsep a ha last (by simp))
    (forall_mem_nil _), fun q => ?_⟩
  have : last.from_ ≤ q ∧ q < idx + 1 ↔ (last.from_ ≤ q ∧ q < last.to_) ∨ q = idx := by omega
  rw [covers_append, covers_append, covers_singleton, covers_singleton, this, or_assoc]

theorem nextUpdate_returns (hlock : b.changeLock ≠ 0)
    (h : UpdateRanges b.updateChanges) (idx : Int) :
    ∃ us, JavaM.Returns (nextUpdate idx) b () { b with updateChanges := us } ∧ UpdateRanges us ∧
      ∀ q, covers us q = true ↔ covers b.updateChanges q = true ∨ q = idx := by
  refine ⟨_, (checkState_returns hlock).bind rfl, ?_⟩
  cases hlast : b.updateChanges.getLast? with
  | none => exact h.insertUpdate idx
  | some last =>
    obtain ⟨pre, hpre⟩ := getLast?_eq_some_iff.mp hlast
    dsimp only
    split
    · rename_i hto
      rw [hpre] at h ⊢
      rw [dropLast_concat]
      exact h.growLast hto
    · exact h.insertUpdate idx

/-! ## `nextRemove` and `nextAdd` -/

theorem UpdateRanges.dropUpdate (h : UpdateRanges us) (idx : Int) :
    UpdateRanges (dropUpdate idx us) ∧
      (∀ q, q < idx → (covers (ListChangeBuilder.dropUpdate idx us) q = true ↔
        covers us q = true)) ∧
      ∀ q, idx ≤ q → (covers (ListChangeBuilder.dropUpdate idx us) q = true ↔
        covers us (q + 1) = true) := by
  rw [ListChangeBuilder.dropUpdate.eq_def]
  split
  · exact ⟨h, fun _ _ => Iff.rfl, fun _ _ => Iff.rfl⟩
  · cases hfind : findSubChange idx us with
    | notFound i =>
      obtain ⟨pre, post, rfl, rfl, hpre, hpost⟩ := findSubChange_notFound h.le h.apart hfind
      dsimp only
      rw [shiftFrom_seam]
      obtain ⟨hp, hpo, -⟩ := updateRanges_append.mp h
      have hlow : ∀ b ∈ post.map (SubChange.shift (-1)), idx ≤ b.from_ :=
        forall_mem_map.mpr fun b hb => by
          have := hpost b hb
          dsimp only [SubChange.shift]
          omega
      refine ⟨updateRanges_append.mpr ⟨hp, hpo.shift (-1), fun a ha b hb =>
        Int.le_trans (hpre a ha) (hlow b hb)⟩, fun q hq => ?_, fun q hq => ?_⟩
      · rw [covers_append_of_lt hlow hq, covers_append_of_lt (k := idx + 1) hpost (by omega)]
      · rw [covers_append_of_le hpre hq, covers_append_of_le hpre (by omega), covers_shift,
          Int.sub_neg]
    | found i =>
      obtain ⟨pre, c, post, rfl, rfl, hfrom, hto⟩ := findSubChange_found hfind
      dsimp only
      rw [ListAt.getElem?_seam]
      dsimp only
      obtain ⟨hp, hcp, hsep⟩ := updateRanges_append.mp h
      obtain ⟨⟨hle, hc⟩, hpo, hafter⟩ := updateRanges_cons.mp hcp
      have hpre : ∀ a ∈ pre, a.to_ ≤ c.from_ := fun a ha => hsep a ha c mem_cons_self
      have hlow : ∀ b ∈ post.map (SubChange.shift (-1)), c.to_ - 1 ≤ b.from_ :=
        forall_mem_map.mpr fun b hb => by
          have := hafter b hb
          dsimp only [SubChange.shift]
          omega
      split
      · -- the range was the removed position alone
        rename_i hone
        rw [ListAt.eraseIdx_seam, shiftFrom_seam]
        refine ⟨updateRanges_append.mpr ⟨hp, hpo.shift (-1), fun a ha b hb => ?_⟩,
          fun q hq => ?_, fun q hq => ?_⟩
        · have h1 := hpre a ha
          have h2 := hlow b hb
          omega
        · have hout : ¬ (c.from_ ≤ q ∧ q < c.to_) := by omega
          rw [covers_append_of_lt (k := idx) (fun b hb => by have := hlow b hb; omega) hq,
            covers_append_of_lt (k := idx) (forall_mem_cons.mpr
              ⟨by omega, fun b hb => by have := hafter b hb; omega⟩) hq]
        · have hout : ¬ (c.from_ ≤ q + 1 ∧ q + 1 < c.to_) := by omega
          rw [covers_append_of_le (k := idx) (fun a ha => by have := hpre a ha; omega) hq,
            covers_append_of_le (k := idx) (fun a ha => by have := hpre a ha; omega) (by omega),
            covers_cons, or_iff_right hout, covers_shift, Int.sub_neg]
      · rename_i hmore
        rw [ListAt.set_seam, shiftFrom_seam_succ]
        refine ⟨updateRanges_append.mpr ⟨hp, updateRanges_cons.mpr
          ⟨⟨by dsimp only; omega, hc⟩, hpo.shift (-1), hlow⟩, ?_⟩, fun q hq => ?_, fun q hq => ?_⟩
        · intro a ha
          refine forall_mem_cons.mpr ⟨hpre a ha, fun b hb => ?_⟩
          have h1 := hpre a ha
          have h2 := hlow b hb
          omega
        · have hsame : c.from_ ≤ q ∧ q < c.to_ - 1 ↔ c.from_ ≤ q ∧ q < c.to_ := by omega
          have h1 : ¬ covers (post.map (SubChange.shift (-1))) q = true := fun hq' => by
            have := le_of_covers hlow hq'
            omega
          have h2 : ¬ covers post q = true := fun hq' => by
            have := le_of_covers hafter hq'
            omega
          rw [covers_append, covers_append, covers_cons, covers_cons, hsame, or_iff_left h1,
            or_iff_left h2]
        · have hsame : c.from_ ≤ q ∧ q < c.to_ - 1 ↔ c.from_ ≤ q + 1 ∧ q + 1 < c.to_ := by omega
          rw [covers_append_of_le hpre (by omega), covers_append_of_le hpre (by omega), covers_cons,
            covers_cons, hsame, covers_shift, Int.sub_neg]

theorem UpdateRanges.splitUpdate (h : UpdateRanges us) {to_ : Int} (hft : from_ ≤ to_) :
    UpdateRanges (splitUpdate from_ to_ us) ∧
      (∀ q, q < from_ → (covers (ListChangeBuilder.splitUpdate from_ to_ us) q = true ↔
        covers us q = true)) ∧
      (∀ q, from_ ≤ q → q < to_ → ¬ covers (ListChangeBuilder.splitUpdate from_ to_ us) q = true) ∧
      ∀ q, to_ ≤ q → (covers (ListChangeBuilder.splitUpdate from_ to_ us) q = true ↔
        covers us (q - (to_ - from_)) = true) := by
  rw [ListChangeBuilder.splitUpdate.eq_def]
  split
  · exact ⟨h, fun _ _ => Iff.rfl, fun _ _ _ hq => Bool.false_ne_true hq, fun _ _ => Iff.rfl⟩
  · cases hfind : findSubChange from_ us with
    | notFound i =>
      obtain ⟨pre, post, rfl, rfl, hpre, hpost⟩ := findSubChange_notFound h.le h.apart hfind
      dsimp only
      rw [shiftFrom_seam]
      obtain ⟨hp, hpo, -⟩ := updateRanges_append.mp h
      have hlow : ∀ b ∈ post.map (SubChange.shift (to_ - from_)), to_ ≤ b.from_ :=
        forall_mem_map.mpr fun b hb => by
          have := hpost b hb
          dsimp only [SubChange.shift]
          omega
      refine ⟨updateRanges_append.mpr ⟨hp, hpo.shift _, fun a ha b hb =>
        Int.le_trans (hpre a ha) (Int.le_trans hft (hlow b hb))⟩, fun q hq => ?_,
        fun q hq hq' hcov => ?_, fun q hq => ?_⟩
      · rw [covers_append_of_lt hlow (by omega),
          covers_append_of_lt (k := from_ + 1) hpost (by omega)]
      · have := lt_of_covers hpre ((covers_append_of_lt hlow hq').mp hcov)
        omega
      · rw [covers_append_of_le hpre (by omega), covers_append_of_le hpre (by omega), covers_shift]
    | found i =>
      obtain ⟨pre, c, post, rfl, rfl, hfrom, hto⟩ := findSubChange_found hfind
      dsimp only
      rw [ListAt.getElem?_seam]
      dsimp only
      obtain ⟨hp, hcp, hsep⟩ := updateRanges_append.mp h
      obtain ⟨⟨hle, hc⟩, hpo, hafter⟩ := updateRanges_cons.mp hcp
      have hpre : ∀ a ∈ pre, a.to_ ≤ c.from_ := fun a ha => hsep a ha c mem_cons_self
      have hlow : ∀ b ∈ post.map (SubChange.shift (to_ - from_)), c.to_ + to_ - from_ ≤ b.from_ :=
        forall_mem_map.mpr fun b hb => by
          have := hafter b hb
          dsimp only [SubChange.shift]
          omega
      -- the two parts of the range, and the others moved
      have hseam : shiftFrom (pre.length + 2) (to_ - from_)
          (((pre ++ c :: post).set pre.length { c with to_ := from_ }).insertIdx (pre.length + 1)
            ⟨to_, c.to_ + to_ - from_, none, emptyPerm, true⟩) =
          pre ++ { c with to_ := from_ } :: ⟨to_, c.to_ + to_ - from_, none, emptyPerm, true⟩ ::
              post.map (SubChange.shift (to_ - from_)) := by
        rw [ListAt.set_seam]
        have h1 := ListAt.insertIdx_seam (pre ++ [{ c with to_ := from_ }]) post
          (⟨to_, c.to_ + to_ - from_, none, emptyPerm, true⟩ : SubChange E)
        have h2 := shiftFrom_seam_succ (pre ++ [{ c with to_ := from_ }]) post
          (⟨to_, c.to_ + to_ - from_, none, emptyPerm, true⟩ : SubChange E) (to_ - from_)
        rw [length_append, length_singleton, append_assoc, singleton_append,
          append_assoc, singleton_append] at h1 h2
        rw [h1, h2]
      rw [hseam]
      refine ⟨updateRanges_append.mpr ⟨hp, updateRanges_cons.mpr ⟨⟨hfrom, hc⟩, updateRanges_cons.mpr
        ⟨⟨by dsimp only; omega, rfl, rfl⟩, hpo.shift _, hlow⟩, ?_⟩, ?_⟩, fun q hq => ?_,
        fun q hq hq' hcov => ?_, fun q hq => ?_⟩
      · exact forall_mem_cons.mpr ⟨hft, fun b hb => by
          have := hlow b hb
          dsimp only
          omega⟩
      · intro a ha
        have := hpre a ha
        exact forall_mem_cons.mpr ⟨this, forall_mem_cons.mpr
          ⟨by dsimp only; omega, fun b hb => by have := hlow b hb; omega⟩⟩
      · have hsame : c.from_ ≤ q ∧ q < from_ ↔ c.from_ ≤ q ∧ q < c.to_ := by omega
        have h1 : ¬ covers (⟨to_, c.to_ + to_ - from_, none, emptyPerm, true⟩ ::
            post.map (SubChange.shift (to_ - from_))) q = true := fun hq' => by
          have := @le_of_covers _ _ to_ q (forall_mem_cons.mpr
            ⟨Int.le_refl _, fun b hb => by have := hlow b hb; omega⟩) hq'
          omega
        have h2 : ¬ covers post q = true := fun hq' => by
          have := le_of_covers hafter hq'
          omega
        rw [covers_append, covers_append, covers_cons, @covers_cons _ _ post, hsame,
          or_iff_left h1, or_iff_left h2]
      · -- nothing of it lies between the two parts
        rw [covers_append_of_le (k := from_) (fun a ha => by have := hpre a ha; omega) hq,
          covers_cons, covers_cons] at hcov
        rcases hcov with hcov | hcov | hcov
        · dsimp only at hcov
          omega
        · dsimp only at hcov
          omega
        · have := le_of_covers hlow hcov
          omega
      · have hout : ¬ (c.from_ ≤ q ∧ q < from_) := by omega
        have hsame : to_ ≤ q ∧ q < c.to_ + to_ - from_ ↔
            c.from_ ≤ q - (to_ - from_) ∧ q - (to_ - from_) < c.to_ := by omega
        rw [covers_append_of_le hpre (by omega), covers_append_of_le hpre (by omega), covers_cons,
          or_iff_right hout, covers_cons, covers_cons, hsame, covers_shift]

/-! ## `nextPermutation` -/

theorem UpdateRanges.growRun (h : UpdateRanges us) {i : Int} (hi : ∀ c ∈ us, c.to_ ≤ i) :
    UpdateRanges (growRun true us i) ∧ (∀ c ∈ ListChangeBuilder.growRun true us i, c.to_ ≤ i + 1) ∧
      ∀ q, covers (ListChangeBuilder.growRun true us i) q = true ↔ covers us q = true ∨ q = i := by
  have hone : ∀ q, i ≤ q ∧ q < i + 1 ↔ q = i := by omega
  have hnew : UpdateRanges (us ++ [⟨i, i + 1, none, emptyPerm, true⟩]) ∧
      (∀ c ∈ us ++ [⟨i, i + 1, none, emptyPerm, true⟩], c.to_ ≤ i + 1) ∧
      ∀ q, covers (us ++ [⟨i, i + 1, none, emptyPerm, true⟩]) q = true ↔
        covers us q = true ∨ q = i := by
    refine ⟨updateRanges_append.mpr ⟨h, updateRanges_cons.mpr
      ⟨⟨by dsimp only; omega, rfl, rfl⟩, updateRanges_nil, forall_mem_nil _⟩, ?_⟩, ?_, ?_⟩
    · intro a ha
      exact forall_mem_cons.mpr ⟨hi a ha, forall_mem_nil _⟩
    · refine forall_mem_append.mpr ⟨fun c hc => ?_, forall_mem_cons.mpr
        ⟨Int.le_refl _, forall_mem_nil _⟩⟩
      have := hi c hc
      omega
    · intro q
      rw [covers_append, covers_singleton, hone]
  rw [ListChangeBuilder.growRun]
  cases hlast : us.getLast? with
  | none =>
    rw [getLast?_eq_none_iff.mp hlast] at hnew ⊢
    exact hnew
  | some last =>
    obtain ⟨pre, rfl⟩ := getLast?_eq_some_iff.mp hlast
    dsimp only
    split
    · exact hnew
    · rename_i hto
      rw [dropLast_concat]
      obtain ⟨hgrown, hcov⟩ := h.growLast (Decidable.not_not.mp hto)
      refine ⟨hgrown, forall_mem_append.mpr ⟨fun c hc => ?_, forall_mem_cons.mpr
        ⟨Int.le_refl _, forall_mem_nil _⟩⟩, hcov⟩
      have := hi c (mem_append_left _ hc)
      omega

theorem UpdateRanges.growRuns (h : UpdateRanges us) (is : List Int)
    (his : is.Pairwise (· < ·)) (hus : ∀ i ∈ is, ∀ c ∈ us, c.to_ ≤ i) :
    UpdateRanges (is.foldl (ListChangeBuilder.growRun true) us) ∧
      ∀ q, covers (is.foldl (ListChangeBuilder.growRun true) us) q = true ↔
        covers us q = true ∨ q ∈ is := by
  induction is generalizing us with
  | nil => exact ⟨h, fun q => by simp⟩
  | cons i is ih =>
    obtain ⟨hi, his⟩ := pairwise_cons.mp his
    obtain ⟨h1, hto, hcov⟩ := h.growRun (hus i mem_cons_self)
    obtain ⟨h2, hcov'⟩ := ih h1 his fun j hj c hc => by
      have h1 := hto c hc
      have h2 := hi j hj
      omega
    refine ⟨h2, fun q => ?_⟩
    rw [foldl_cons, hcov', hcov, mem_cons, or_assoc]

theorem moveUpdates_spec {perm : List Int} (hperm : IsPermutation from_ perm)
    (us : List (SubChange E)) :
    ∃ us', moveUpdates from_ (from_ + perm.length) perm us = .ok us' ∧ UpdateRanges us' ∧
      ∀ q, covers us' q = true ↔ covers us (source from_ perm q) = true := by
  obtain ⟨h, hcov⟩ := updateRanges_nil (E := E).growRuns (newAdded from_ perm us)
    (treeAddAll_sorted List.Pairwise.nil _) fun _ _ => forall_mem_nil _
  refine ⟨_, moveUpdates_eq from_ perm us, h, fun q => ?_⟩
  rw [hcov, mem_newAdded hperm, movedCovers]
  exact or_iff_right Bool.false_ne_true

/-! ## Ranges that are not empty -/

/-- No range is empty. -/
def NoneEmpty (us : List (SubChange E)) : Prop := ∀ c ∈ us, c.from_ < c.to_

section NoneEmpty

variable {us us' : List (SubChange E)}

theorem NoneEmpty.shiftFrom (h : NoneEmpty us) (start : Nat) (d : Int) :
    NoneEmpty (shiftFrom start d us) :=
  all_shiftFrom (fun _ d hc => Int.add_lt_add_right hc d) h start d

theorem NoneEmpty.insertUpdate (h : NoneEmpty us) (pos : Int) : NoneEmpty (insertUpdate pos us) := by
  rw [OpenJfx.Collections.insertUpdate]
  split
  · exact h
  · split
    · rename_i c hprev
      have hc := h c (prevEndingAt_mem hprev)
      rw [prevEndingAt] at hprev
      split at hprev
      · have hto := (Option.filter_eq_some_iff.mp hprev).2
        have hto' : c.to_ = pos := by simpa using hto
        exact all_set h _ (by dsimp only; omega)
      · cases hprev
    · rename_i c _ hnxt
      have hc := h c (nextStartingAt_mem hnxt)
      have hfrom := (Option.filter_eq_some_iff.mp hnxt).2
      have hfrom' : c.from_ = pos + 1 := by simpa using hfrom
      exact all_set h _ (by dsimp only; omega)
    · exact all_insertIdx h _ (by dsimp only; omega)

theorem NoneEmpty.nextUpdate (h : NoneEmpty b.updateChanges)
    {b' : ListChangeBuilder E} {idx : Int} (hb' : JavaM.Returns (nextUpdate idx) b () b')
    (hlock : b.changeLock ≠ 0) : NoneEmpty b'.updateChanges := by
  obtain ⟨-, rfl⟩ := hb'.unique ((checkState_returns hlock).bind rfl)
  dsimp only
  cases hlast : b.updateChanges.getLast? with
  | none => exact h.insertUpdate idx
  | some last =>
    have hl := h last (mem_of_getLast? hlast)
    dsimp only
    split
    · exact all_concat h (by dsimp only; omega)
    · exact h.insertUpdate idx

theorem NoneEmpty.dropUpdate (h : NoneEmpty us) (idx : Int) : NoneEmpty (dropUpdate idx us) := by
  rw [ListChangeBuilder.dropUpdate.eq_def]
  split
  · exact h
  · split
    · exact h.shiftFrom _ _
    · split
      · exact h
      · rename_i c hc
        have hlt := h c (mem_of_getElem? hc)
        split
        · exact NoneEmpty.shiftFrom (all_eraseIdx h _) _ _
        · exact NoneEmpty.shiftFrom (all_set h _ (by dsimp only; omega)) _ _

/-- An insertion keeps that, unless made at the start of a range. -/
theorem NoneEmpty.splitUpdate (h : NoneEmpty us) (hfrom : ∀ c ∈ us, c.from_ ≠ from_)
    (to_ : Int) : NoneEmpty (splitUpdate from_ to_ us) := by
  rw [ListChangeBuilder.splitUpdate.eq_def]
  split
  · exact h
  · split
    · exact h.shiftFrom _ _
    · rename_i i hfind
      split
      · exact h
      · rename_i c hc
        obtain ⟨d, hd, hside⟩ := binarySearch_found hfind
        obtain rfl : d = c := Option.some.inj (hd.symm.trans hc)
        have hin := SubChange.side_eq_eq.mp hside
        have hne := hfrom d (mem_of_getElem? hc)
        exact NoneEmpty.shiftFrom (all_insertIdx (all_set h _ (by dsimp only; omega)) _
          (by dsimp only; omega)) _ _

theorem NoneEmpty.growRun (h : NoneEmpty us) (i : Int) : NoneEmpty (growRun true us i) := by
  rw [ListChangeBuilder.growRun]
  have hnew : NoneEmpty (us ++ [⟨i, i + 1, none, emptyPerm, true⟩]) :=
    forall_mem_append.mpr ⟨h, forall_mem_cons.mpr ⟨Int.lt_succ i, forall_mem_nil _⟩⟩
  split
  · rename_i last hlast
    have hl := h last (mem_of_getLast? hlast)
    split
    · exact hnew
    · rename_i hto
      exact all_concat h (by dsimp only; omega)
  · exact forall_mem_cons.mpr ⟨Int.lt_succ i, forall_mem_nil _⟩

/-- A permutation leaves no empty range, even if there was one. -/
theorem noneEmpty_moveUpdates {perm : List Int}
    (h : moveUpdates from_ (from_ + perm.length) perm us = .ok us') : NoneEmpty us' := by
  rw [moveUpdates_eq] at h
  cases h
  have hruns : ∀ (is : List Int) (vs : List (SubChange E)), NoneEmpty vs →
      NoneEmpty (is.foldl (ListChangeBuilder.growRun true) vs) := by
    intro is
    induction is with
    | nil => exact fun _ hvs => hvs
    | cons i is ih => exact fun vs hvs => ih _ (hvs.growRun i)
  exact hruns _ [] (forall_mem_nil _)

end NoneEmpty

/-! ## `compress` -/

theorem UpdateRanges.compressLoop {prev : SubChange E} {rest : List (SubChange E)}
    (h : UpdateRanges (prev :: rest)) :
    ∃ out, compressLoop prev rest = .ok out ∧ UpdateRanges out ∧
      (out.Pairwise fun a b => a.to_ < b.from_) ∧ (∀ c ∈ out, prev.from_ ≤ c.from_) ∧
      (∀ q, covers out q = true ↔ covers (prev :: rest) q = true) ∧
      (NoneEmpty (prev :: rest) → NoneEmpty out) := by
  induction rest generalizing prev with
  | nil => exact ⟨[prev], rfl, h, pairwise_singleton _ _,
      forall_mem_cons.mpr ⟨Int.le_refl _, forall_mem_nil _⟩, fun _ => Iff.rfl, id⟩
  | cons cur rest ih =>
    obtain ⟨⟨hle, hrem, hupd⟩, hrest, hafter⟩ := updateRanges_cons.mp h
    obtain ⟨⟨hle', hrem', -⟩, htail, hafter'⟩ := updateRanges_cons.mp hrest
    have hcur := hafter cur mem_cons_self
    rw [OpenJfx.Collections.compressLoop]
    split
    · -- joined
      rename_i htouch
      simp only [hrem, hrem']
      obtain ⟨out, hout, hrngs, hsep, hfrom, hcov, hne⟩ := @ih { prev with to_ := cur.to_ }
        (updateRanges_cons.mpr ⟨⟨by dsimp only; omega, hrem, hupd⟩, htail, hafter'⟩)
      refine ⟨out, by rw [← hrem]; exact hout, hrngs, hsep, hfrom, fun q => ?_, fun hall => ?_⟩
      · have : prev.from_ ≤ q ∧ q < cur.to_ ↔
            (prev.from_ ≤ q ∧ q < prev.to_) ∨ (cur.from_ ≤ q ∧ q < cur.to_) := by omega
        rw [hcov, covers_cons, covers_cons, covers_cons, this, or_assoc]
      · obtain ⟨hp, hr⟩ := forall_mem_cons.mp hall
        obtain ⟨hc, hr⟩ := forall_mem_cons.mp hr
        exact hne (forall_mem_cons.mpr ⟨by dsimp only; omega, hr⟩)
    · rename_i hgap
      obtain ⟨out, hout, hrngs, hsep, hfrom, hcov, hne⟩ := ih hrest
      rw [hout]
      refine ⟨prev :: out, rfl, updateRanges_cons.mpr ⟨⟨hle, hrem, hupd⟩, hrngs, ?_⟩,
        pairwise_cons.mpr ⟨?_, hsep⟩, forall_mem_cons.mpr ⟨Int.le_refl _, ?_⟩,
        fun q => ?_, fun hall => ?_⟩
      · intro b hb
        have := hfrom b hb
        omega
      · intro b hb
        have := hfrom b hb
        omega
      · intro b hb
        have := hfrom b hb
        omega
      · rw [covers_cons, covers_cons, hcov]
      · obtain ⟨hp, hr⟩ := forall_mem_cons.mp hall
        exact forall_mem_cons.mpr ⟨hp, hne hr⟩

end OpenJfx.Collections
