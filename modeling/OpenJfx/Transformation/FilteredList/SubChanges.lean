/-
  OpenJfx.Transformation.FilteredList.SubChanges

  What `addRemove`, `update` and `permutate` do to the array in terms of flags.  Only `addRemove`
  can fail: the array was sized for the final source, while the flags in between may have more
  `true` entries.
-/

import OpenJfx.Transformation.FilteredList.Steps

namespace OpenJfx.Transformation.FilteredList

open OpenJfx.Collections JavaM List FilteredList

variable {X Y A : List Int} {E : Type} {src : List E} {p : Option (E → Bool)} {cap : Nat} {n : Int}
  {s : FilteredList E}

/-- The length of the array after `ensureSize(size)`. -/
def ensured (cap size : Nat) : Nat := if cap < size then size * 3 / 2 + 1 else cap

theorem le_ensured (cap size : Nat) : size ≤ ensured cap size := by
  rw [ensured]
  split <;> omega

theorem ensureSize_returns {G : List Int} (hG : s.filtered = A ++ G) (hsz : s.size = A.length)
    (size : Nat) :
    ∃ G', Returns (ensureSize (size : Int)) s () { s with filtered := A ++ G' } ∧
      (A ++ G').length = ensured s.filtered.length size := by
  have hle : A.length ≤ s.filtered.length := by
    rw [hG, length_append]
    omega
  rw [ensureSize, ensured]
  by_cases hlt : s.filtered.length < size
  · have hnew : JavaArray.new ((size : Int) * 3 / 2 + 1) (0 : Int)
        = .ok (List.replicate (size * 3 / 2 + 1) 0) := by
      rw [JavaArray.new_eq_ok (by omega)]
      congr 2
    have hcopy : JavaArray.copy s.filtered 0 (List.replicate (size * 3 / 2 + 1) (0 : Int)) 0 s.size
        = .ok (A ++ List.replicate (size * 3 / 2 + 1 - A.length) 0) := by
      rw [hsz, JavaArray.copy_eq_ok (by omega) (by omega) (by omega) (by omega)
        (by rw [length_replicate]; omega), hG]
      simp
    refine ⟨List.replicate (size * 3 / 2 + 1 - A.length) 0, ?_, ?_⟩
    · refine Returns.bind (a := s) (t := s) rfl ?_
      simp only [Returns, if_pos (show (s.filtered.length : Int) < size by omega), bind,
        EStateM.bind, JavaM.ofExcept, hnew, hcopy]
      rfl
    · rw [if_pos hlt, length_append, length_replicate]
      omega
  · refine ⟨G, ?_, by rw [if_neg hlt, ← hG]⟩
    refine Returns.bind (a := s) (t := s) rfl ?_
    rw [if_neg (by omega), ← hG]
    rfl

theorem Showing.ensureSize (h : Showing src p cap A.length A s) (size : Nat) :
    ∃ s', Returns (ensureSize (size : Int)) s () s' ∧
      Showing src p (ensured cap size) A.length A s' := by
  obtain ⟨G, hG⟩ := h.filtered
  obtain ⟨G', hret, hlen⟩ := ensureSize_returns hG h.size size
  rw [h.capacity] at hlen
  exact ⟨_, hret, h.source, h.predicate, h.size, ⟨G', rfl⟩, hlen, h.sound, h.lock⟩

/-! ## `addRemove` -/

variable {c : SubChange E} {pred : E → Bool} {R : List Bool}

theorem Showing.removeLoop {R : List Int} (from_ : Int) (h : Showing src p cap n (X ++ R ++ Y) s)
    (hR : ∀ x ∈ R, c.from_ ≤ x ∧ x < c.from_ + c.getRemoved.length) :
    ∃ s', Returns (removeLoop c from_ R.length X.length) s () s' ∧
      Showing src p cap n (X ++ R ++ Y) s' := by
  induction R generalizing X s with
  | nil => exact ⟨s, rfl, h⟩
  | cons x R ih =>
    have hx := hR x mem_cons_self
    have hget : JavaArray.get c.getRemoved (x - c.from_)
        = .ok (c.getRemoved.get ⟨(x - c.from_).toNat, by omega⟩) :=
      JavaArray.get_eq_ok (by omega) (getElem?_eq_getElem _)
    have hread : Returns (readFiltered X.length) s x s := by
      apply Showing.read (Y := R ++ Y) (n := n) (p := p)
      simpa using h
    obtain ⟨s1, hs1, h1⟩ := h.nextRemove from_ (c.getRemoved.get ⟨(x - c.from_).toNat, by omega⟩)
    obtain ⟨s2, hs2, h2⟩ := ih (X := X ++ [x]) (by simpa using h1)
      fun y hy => hR y (.tail _ hy)
    refine ⟨s2, ?_, by simpa using h2⟩
    rw [length_cons, removeLoop]
    refine hread.bind (Returns.bind (a := _) (t := s) ?_ (hs1.bind ?_))
    · simp only [Returns, JavaM.ofExcept, hget]
    · simpa using hs2

theorem Showing.updateIndexesLoop (delta : Int) (h : Showing src p cap n (X ++ Y) s) :
    ∃ s', Returns (updateIndexesLoop delta Y.length X.length) s () s' ∧
      Showing src p cap n (X ++ Y.map (· + delta)) s' := by
  induction Y generalizing X s with
  | nil => exact ⟨s, rfl, h⟩
  | cons y Y ih =>
    obtain ⟨s1, hs1, h1⟩ := h.write (y + delta)
    obtain ⟨s2, hs2, h2⟩ := ih (X := X ++ [y + delta]) (by simpa using h1)
    refine ⟨s2, ?_, by simpa using h2⟩
    rw [length_cons, updateIndexesLoop]
    refine h.read.bind (hs1.bind ?_)
    simpa using hs2

/-- The new entries go where removed ones were, as long as there are both. -/
theorem Showing.replaceLoop {pred : E → Bool} {X R Y : List Int} {U V : List E} {nextIndex : Int}
    (h : Showing src p cap n (X ++ R ++ Y) s) :
    ∃ s' U1 U2 R2, U = U1 ++ U2 ∧
      (trueIndices nextIndex (U1.map pred)).length + R2.length = R.length ∧
      (U2 = [] ∨ R2 = []) ∧
      Returns (replaceLoop pred (X ++ R).length (nextIndex + U.length) (U ++ V) nextIndex X.length)
        s (U2 ++ V, nextIndex + U1.length,
          ((X ++ trueIndices nextIndex (U1.map pred)).length : Int)) s' ∧
      Showing src p cap n (X ++ trueIndices nextIndex (U1.map pred) ++ R2 ++ Y) s' := by
  induction U generalizing X R s nextIndex with
  | nil =>
    refine ⟨s, [], [], R, rfl, by simp [trueIndices], Or.inl rfl, ?_, by simpa [trueIndices] using h⟩
    rw [replaceLoop.eq_def, if_neg (by simp)]
    simp only [trueIndices, map_nil, append_nil, length_nil, Int.natCast_zero, Int.add_zero]
    rfl
  | cons el U ih =>
    cases R with
    | nil =>
      refine ⟨s, [], el :: U, [], rfl, rfl, Or.inr rfl, ?_, by simpa [trueIndices] using h⟩
      rw [replaceLoop.eq_def, if_neg (by simp)]
      simp only [trueIndices, map_nil, append_nil, length_nil, Int.natCast_zero, Int.add_zero]
      rfl
    | cons r R =>
      have hcond : (X.length : Int) < (X ++ r :: R).length ∧
          nextIndex < nextIndex + (el :: U).length := by
        simp only [length_append, length_cons]
        omega
      have hcTo : nextIndex + ((el :: U).length : Int) = nextIndex + 1 + (U.length : Int) := by
        rw [length_cons]
        omega
      rw [cons_append, replaceLoop, if_pos hcond]
      cases hp : pred el with
      | false =>
        obtain ⟨s', U1, U2, R2, rfl, hlen, hend, hret, h'⟩ := ih h
        refine ⟨s', el :: U1, U2, R2, rfl, ?_, hend, ?_, ?_⟩
        · simpa [hp, trueIndices] using hlen
        · simp only [hcTo, map_cons, hp, trueIndices]
          have hlen' : nextIndex + ((el :: U1).length : Int) = nextIndex + 1 + (U1.length : Int) := by
            rw [length_cons]
            omega
          rw [hlen']
          exact hret
        · simpa [hp, trueIndices] using h'
      | true =>
        have h0 : Showing src p cap n (X ++ r :: (R ++ Y)) s := by simpa using h
        obtain ⟨s1, hs1, h1⟩ := h0.write nextIndex
        obtain ⟨s2, hs2, h2⟩ := h1.nextAdd X.length (X.length + 1)
        obtain ⟨s', U1, U2, R2, rfl, hlen, hend, hret, h'⟩ := @ih _ (X ++ [nextIndex]) R
          (nextIndex + 1) (by simpa using h2)
        refine ⟨s', el :: U1, U2, R2, rfl, ?_, hend, ?_, ?_⟩
        · simp only [map_cons, hp, trueIndices, length_cons]
          omega
        · simp only [hcTo, map_cons, hp, trueIndices]
          have hlen' : nextIndex + ((el :: U1).length : Int) = nextIndex + 1 + (U1.length : Int) := by
            rw [length_cons]
            omega
          rw [hlen']
          refine hs1.bind (hs2.bind ?_)
          simpa using hret
        · simpa [hp, trueIndices] using h'

theorem Showing.addLoop {U V : List E} {nextIndex : Int}
    (h : Showing src p cap (X ++ Y).length (X ++ Y) s)
    (hroom : (X ++ trueIndices nextIndex (U.map pred) ++ Y).length ≤ cap) :
    ∃ s', Returns (addLoop pred (nextIndex + U.length) (U ++ V) nextIndex X.length) s () s' ∧
      Showing src p cap (X ++ trueIndices nextIndex (U.map pred) ++ Y).length
        (X ++ trueIndices nextIndex (U.map pred) ++ Y) s' := by
  induction U generalizing X s nextIndex with
  | nil =>
    refine ⟨s, ?_, by simpa [trueIndices] using h⟩
    rw [addLoop.eq_def, if_neg (by simp)]
    rfl
  | cons el U ih =>
    have hcond : nextIndex < nextIndex + ((el :: U).length : Int) := by
      rw [length_cons]
      omega
    have hcTo : nextIndex + ((el :: U).length : Int) = nextIndex + 1 + (U.length : Int) := by
      rw [length_cons]
      omega
    rw [cons_append, addLoop, if_pos hcond]
    cases hp : pred el with
    | false =>
      simp only [map_cons, hp, trueIndices] at hroom ⊢
      obtain ⟨s', hret, h'⟩ := ih h hroom
      exact ⟨s', by rw [hcTo]; exact hret, h'⟩
    | true =>
      simp only [map_cons, hp, trueIndices] at hroom ⊢
      obtain ⟨z, s1, hs1, h1⟩ := h.copyRight (by
        simp only [length_append, length_cons] at hroom ⊢
        omega)
      obtain ⟨s2, hs2, h2⟩ := h1.write nextIndex
      obtain ⟨s3, hs3, h3⟩ := h2.nextAdd X.length (X.length + 1)
      obtain ⟨s4, hs4, h4⟩ := h3.addSize 1
      have hsz : ((X ++ Y).length : Int) + 1 = ((X ++ [nextIndex] ++ Y).length : Int) := by
        simp only [length_append, length_cons, length_nil]
        omega
      rw [hsz] at h4
      obtain ⟨s', hret, h'⟩ := ih (X := X ++ [nextIndex]) (by simpa using h4) (by simpa using hroom)
      refine ⟨s', ?_, by simpa using h'⟩
      have hcnt : s.size - (X.length : Int) = (Y.length : Int) := by
        rw [h.size, length_append]
        omega
      refine Returns.bind (a := s) (t := s) rfl ?_
      rw [hcnt]
      refine hs1.bind (hs2.bind (hs3.bind (hs4.bind ?_)))
      rw [hcTo]
      simpa using hret

theorem Showing.updateIndexes (delta : Int) (h : Showing src p cap (X ++ Y).length (X ++ Y) s) :
    ∃ s', Returns (updateIndexes X.length delta) s () s' ∧
      Showing src p cap (X ++ Y).length (X ++ Y.map (· + delta)) s' := by
  obtain ⟨s', hret, h'⟩ := h.updateIndexesLoop delta
  refine ⟨s', Returns.bind (a := s) (t := s) rfl ?_, h'⟩
  have hcnt : (s.size - (X.length : Int)).toNat = Y.length := by
    rw [h.size, length_append]
    omega
  rw [hcnt]
  exact hret

theorem Showing.getPredicateImpl (h : Showing src p cap n A s) :
    s.getPredicateImpl = p.getD fun _ => true := by
  rw [FilteredList.getPredicateImpl, h.predicate]

theorem getAddedSize_eq (hperm : c.perm = []) (hupd : c.updated = false)
    (hle : c.from_ ≤ c.to_) : c.getAddedSize = c.to_ - c.from_ := by
  rw [SubChange.getAddedSize, SubChange.wasAdded, SubChange.wasPermutated, hperm, hupd]
  by_cases h : c.from_ < c.to_
  · simp [h]
  · simp [h]
    omega

/-- The flags with the removed stretch `R` and the rest `T`, split. -/
theorem trueIndices_append₃ (K R T : List Bool) : trueIndices 0 (K ++ R ++ T)
      = trueIndices 0 K ++ trueIndices K.length R ++ trueIndices (K.length + R.length) T := by
  rw [trueIndices_append, trueIndices_append, length_append, Int.zero_add, Int.zero_add]
  rfl

/-- The entries of the added elements `N` replace the removed entries `R`. -/
theorem Showing.placeAdded {R : List Int}
    {U N V : List E} (h : Showing src p cap (X ++ R ++ Y).length (X ++ R ++ Y) s)
    (hfrom : c.from_ = U.length) (hto : c.to_ = c.from_ + N.length) (hsrc : src = U ++ (N ++ V))
    (hroom : (X ++ trueIndices c.from_ (N.map pred) ++ Y).length ≤ cap) :
    ∃ s', Returns (placeAdded pred c X.length (X ++ R).length) s () s' ∧
      Showing src p cap (X ++ trueIndices c.from_ (N.map pred) ++ Y).length
        (X ++ trueIndices c.from_ (N.map pred) ++ Y) s' := by
  have hit : Returns (FilteredList.listIterator c.from_) s (N ++ V) s := by
    rw [hfrom]
    exact h.listIterator hsrc
  obtain ⟨s1, U1, U2, R2, hN, hlen, hend, hs1, h1⟩ := @Showing.replaceLoop _ _ _ _ _ _ pred _ _ _ N
      V _ h
  rw [← hto] at hs1
  have hnew : trueIndices c.from_ (N.map pred)
      = trueIndices c.from_ (U1.map pred) ++ trueIndices (c.from_ + U1.length) (U2.map pred) := by
    rw [hN, map_append, trueIndices_append, length_map]
  cases R2 with
  | nil =>
    -- as many new entries as removed ones so far: the others are inserted
    rw [length_nil, Nat.add_zero] at hlen
    have hsz : ((X ++ R ++ Y).length : Int)
        = (X ++ trueIndices c.from_ (U1.map pred) ++ Y).length := by
      simp only [length_append, hlen]
    rw [append_nil, hsz] at h1
    obtain ⟨s2, hs2, h2⟩ := h1.addLoop (U := U2) (V := V) (by simpa [hnew] using hroom)
    refine ⟨s2, hit.bind (hs1.bind ?_), by simpa [hnew] using h2⟩
    have hcTo : c.to_ = c.from_ + U1.length + U2.length := by
      rw [hto, hN, length_append]
      omega
    dsimp only
    rw [if_neg (by simp only [length_append, hlen]; omega), hcTo]
    exact hs2
  | cons r R2 =>
    -- fewer new entries than removed ones: the rest moves down
    obtain rfl : U2 = [] := by
      rcases hend with hend | hend
      · exact hend
      · cases hend
    rw [append_nil] at hN
    subst hN
    obtain ⟨s2, hs2, h2⟩ := h1.copyLeft
    obtain ⟨s3, hs3, h3⟩ := h2.addSize (-((X ++ R).length -
      ((X ++ trueIndices c.from_ (N.map pred)).length : Int)))
    have hsz : ((X ++ R ++ Y).length : Int) +
          -((X ++ R).length - ((X ++ trueIndices c.from_ (N.map pred)).length : Int))
        = (X ++ trueIndices c.from_ (N.map pred) ++ Y).length := by
      simp only [length_append, Int.natCast_add]
      omega
    rw [hsz] at h3
    refine ⟨s3, hit.bind (hs1.bind ?_), h3⟩
    dsimp only
    rw [if_pos (by simp only [length_append, length_cons] at hlen ⊢; omega)]
    have hpos : ((X ++ R).length : Int)
        = ((X ++ trueIndices c.from_ (N.map pred) ++ r :: R2).length : Int) := by
      simp only [length_append, length_cons] at hlen ⊢
      omega
    have hcnt : s1.size - ((X ++ R).length : Int) = (Y.length : Int) := by
      rw [h1.size]
      simp only [length_append]
      omega
    refine Returns.bind (a := s1) (t := s1) rfl (Returns.bind (a := ()) ?_ hs3)
    rw [hcnt, hpos]
    exact hs2

theorem Showing.addRemove {K T : List Bool} {U N V : List E}
    (h : Showing src p cap (trueIndices 0 (K ++ R ++ T)).length (trueIndices 0 (K ++ R ++ T)) s)
    (hperm : c.perm = []) (hupd : c.updated = false) (hfrom : c.from_ = K.length)
    (hrem : c.getRemoved.length = R.length) (hto : c.to_ = c.from_ + N.length)
    (hsrc : src = U ++ (N ++ V)) (hU : U.length = K.length)
    (hroom : (K ++ N.map (p.getD fun _ => true) ++ T).count true ≤ ensured cap src.length) :
    ∃ s', Returns (addRemove c) s () s' ∧
      Showing src p (ensured cap src.length)
        (trueIndices 0 (K ++ N.map (p.getD fun _ => true) ++ T)).length
        (trueIndices 0 (K ++ N.map (p.getD fun _ => true) ++ T)) s' := by
  rw [← trueIndices_length 0] at hroom
  have hcfrom : c.from_ + c.getRemovedSize = ((K ++ R).length : Int) := by
    rw [SubChange.getRemovedSize, hrem, length_append]
    omega
  have hdelta : c.getAddedSize - c.getRemovedSize = (N.length : Int) - R.length := by
    rw [getAddedSize_eq hperm hupd (by omega), SubChange.getRemovedSize, hrem]
    omega
  obtain ⟨s1, hs1, h1⟩ := h.ensureSize src.length
  have hfind1 : Returns (FilteredList.findPosition c.from_) s1 ((trueIndices 0 K).length : Int) s1 := by
    rw [hfrom]
    rw [append_assoc] at h1
    exact h1.findPosition_flags
  have hfind2 : Returns (FilteredList.findPosition (c.from_ + c.getRemovedSize)) s1
      ((trueIndices 0 (K ++ R)).length : Int) s1 := by
    rw [hcfrom]
    exact h1.findPosition_flags
  -- the array: entries of `K`, of `R`, of `T`
  have hspl : trueIndices 0 (K ++ R) = trueIndices 0 K ++ trueIndices K.length R := by
    rw [trueIndices_append, Int.zero_add]
  rw [trueIndices_append₃] at h1
  obtain ⟨s2, hs2, h2⟩ := h1.removeLoop (c := c) (trueIndices 0 K).length (by
    intro x hx
    have := trueIndices_bounds hx
    omega)
  obtain ⟨s3, hs3, h3⟩ := h2.updateIndexes (N.length - R.length)
  have hshift : (K.length : Int) + R.length + (N.length - R.length) = K.length + N.length := by omega
  rw [← trueIndices_shift, hshift] at h3
  have hsz : ((trueIndices 0 K ++ trueIndices K.length R ++
        trueIndices (K.length + R.length) T).length : Int)
      = (trueIndices 0 K ++ trueIndices K.length R ++
        trueIndices (K.length + N.length) T).length := by
    simp only [length_append, trueIndices_length]
  rw [hsz] at h3
  have hresult : trueIndices 0 (K ++ N.map (p.getD fun _ => true) ++ T)
      = trueIndices 0 K ++ trueIndices c.from_ (N.map (p.getD fun _ => true)) ++
        trueIndices (K.length + N.length) T := by
    rw [trueIndices_append₃, length_map, hfrom]
  rw [hresult] at hroom ⊢
  obtain ⟨s4, hs4, h4⟩ := h3.placeAdded (c := c) (by omega) hto hsrc hroom
  refine ⟨s4, Returns.bind (a := s) (t := s) rfl ?_, h4⟩
  rw [h.source, h.getPredicateImpl]
  refine hs1.bind (hfind1.bind (hfind2.bind ?_))
  have hloop : ((trueIndices 0 (K ++ R)).length - (trueIndices 0 K).length : Int).toNat
      = (trueIndices K.length R).length := by
    rw [hspl, length_append]
    omega
  rw [hloop, hdelta, hspl]
  exact hs2.bind (hs3.bind hs4)

/-! ## `update` -/

theorem Showing.shownAt {j : Int} {r : Bool}
    (h : Showing src p cap (X ++ trueIndices j (r :: R)).length (X ++ trueIndices j (r :: R)) s) :
    Returns (shownAt X.length j) s r s := by
  refine Returns.bind (a := s) (t := s) rfl ?_
  rw [h.size]
  cases r with
  | true =>
    rw [trueIndices] at h ⊢
    rw [if_pos (by simp only [length_append, length_cons]; omega)]
    refine h.read.bind ?_
    simp [Returns, pure, EStateM.pure]
  | false =>
    rw [trueIndices] at h ⊢
    cases hrest : trueIndices (j + 1) R with
    | nil =>
      rw [if_neg (by simp)]
      rfl
    | cons x xs =>
      have hx : j + 1 ≤ x := (trueIndices_bounds (by rw [hrest]; exact .head _)).1
      rw [hrest] at h
      rw [if_pos (by simp only [length_append, length_cons]; omega)]
      refine h.read.bind ?_
      have hne : ¬ x = j := by omega
      simp [Returns, pure, EStateM.pure, hne]

/-- One updated element. -/
theorem Showing.updateEntry {el : E} {j filterTo : Int} {r : Bool}
    (h : Showing src p cap (X ++ trueIndices j (r :: R)).length (X ++ trueIndices j (r :: R)) s)
    (hcap : X.length + R.length < cap) :
    ∃ s', Returns (updateEntry pred el X.length filterTo j) s
        ((X ++ trueIndices j [pred el]).length,
          filterTo + ((trueIndices j [pred el]).length - (trueIndices j [r]).length : Int)) s' ∧
      Showing src p cap (X ++ trueIndices j [pred el] ++ trueIndices (j + 1) R).length
        (X ++ trueIndices j [pred el] ++ trueIndices (j + 1) R) s' := by
  have hshown := h.shownAt
  rw [FilteredList.updateEntry]
  cases r with
  | true =>
    have hcnt : s.size - (X.length : Int) - 1 = ((trueIndices (j + 1) R).length : Int) := by
      rw [h.size]
      simp only [trueIndices, length_append, length_cons]
      omega
    cases hp : pred el with
    | false =>
      obtain ⟨s1, hs1, h1⟩ := h.nextRemove X.length el
      have hA : X ++ trueIndices j (true :: R) = X ++ [j] ++ trueIndices (j + 1) R := by
        simp [trueIndices]
      rw [hA] at h1
      obtain ⟨s2, hs2, h2⟩ := h1.copyLeft
      obtain ⟨s3, hs3, h3⟩ := h2.addSize (-1)
      refine ⟨s3, ?_, ?_⟩
      · refine Returns.bind (a := s) (t := s) rfl (hshown.bind ?_)
        rw [if_pos rfl, if_pos (by simp), hcnt]
        refine hs1.bind (Returns.bind (a := ()) ?_ (hs3.bind ?_))
        · simpa using hs2
        · simp [Returns, pure, EStateM.pure, trueIndices, Int.sub_eq_add_neg]
      · have hsz : ((X ++ [j] ++ trueIndices (j + 1) R).length : Int) + -1
            = (X ++ trueIndices j [false] ++ trueIndices (j + 1) R).length := by
          simp only [trueIndices, length_append, length_cons, length_nil]
          omega
        rw [hsz] at h3
        simpa [trueIndices] using h3
    | true =>
      obtain ⟨s1, hs1, h1⟩ := h.nextUpdate X.length
      refine ⟨s1, ?_, by simpa [trueIndices] using h1⟩
      refine Returns.bind (a := s) (t := s) rfl (hshown.bind ?_)
      rw [if_pos rfl, if_neg (by simp)]
      refine hs1.bind ?_
      simp [Returns, pure, EStateM.pure, trueIndices]
  | false =>
    have hcnt : s.size - (X.length : Int) = ((trueIndices (j + 1) R).length : Int) := by
      rw [h.size]
      simp only [trueIndices, length_append]
      omega
    cases hp : pred el with
    | false =>
      refine ⟨s, ?_, by simpa [trueIndices] using h⟩
      refine Returns.bind (a := s) (t := s) rfl (hshown.bind ?_)
      rw [if_neg (by simp), if_neg (by simp)]
      simp [Returns, pure, EStateM.pure, trueIndices]
    | true =>
      rw [trueIndices] at h
      obtain ⟨s1, hs1, h1⟩ := h.nextAdd X.length (X.length + 1)
      have hle : (trueIndices (j + 1) R).length ≤ R.length := by
        rw [trueIndices_length]
        exact count_le_length
      obtain ⟨z, s2, hs2, h2⟩ := h1.copyRight (by rw [length_append]; omega)
      obtain ⟨s3, hs3, h3⟩ := h2.write j
      obtain ⟨s4, hs4, h4⟩ := h3.addSize 1
      refine ⟨s4, ?_, ?_⟩
      · refine Returns.bind (a := s) (t := s) rfl (hshown.bind ?_)
        rw [if_neg (by simp), if_pos rfl, hcnt]
        refine hs1.bind (hs2.bind (hs3.bind (hs4.bind ?_)))
        simp [Returns, pure, EStateM.pure, trueIndices]
      · have hsz : ((X ++ trueIndices (j + 1) R).length : Int) + 1
            = (X ++ trueIndices j [true] ++ trueIndices (j + 1) R).length := by
          simp only [trueIndices, length_append, length_cons, length_nil]
          omega
        rw [hsz] at h4
        simpa [trueIndices] using h4

theorem Showing.updateLoop {D RU RV : List Bool} {U V : List E}
    (h : Showing src p cap (trueIndices 0 (D ++ RU ++ RV)).length (trueIndices 0 (D ++ RU ++ RV)) s)
    (hlen : RU.length = U.length) (hcap : (D ++ RU ++ RV).length ≤ cap) :
    ∃ s', Returns (updateLoop pred (D.length + U.length) (U ++ V) (trueIndices 0 D).length
        (trueIndices 0 (D ++ RU)).length D.length) s () s' ∧
      Showing src p cap (trueIndices 0 (D ++ U.map pred ++ RV)).length
        (trueIndices 0 (D ++ U.map pred ++ RV)) s' := by
  induction U generalizing D RU s with
  | nil =>
    obtain rfl := length_eq_zero_iff.mp hlen
    refine ⟨s, ?_, by simpa using h⟩
    rw [updateLoop.eq_def, if_neg (by simp)]
    rfl
  | cons el U ih =>
    cases RU with
    | nil => simp at hlen
    | cons r RU =>
      have happend : ∀ (b : Bool), trueIndices 0 (D ++ [b])
          = trueIndices 0 D ++ trueIndices D.length [b] := by
        intro b
        rw [trueIndices_append, Int.zero_add]
      have hspl : ∀ (b : Bool), trueIndices 0 (D ++ [b] ++ RU ++ RV)
          = trueIndices 0 (D ++ [b]) ++ trueIndices (D.length + 1) (RU ++ RV) := by
        intro b
        rw [append_assoc (D ++ [b]), trueIndices_append, Int.zero_add, length_append]
        rfl
      have h0 : trueIndices 0 (D ++ r :: RU ++ RV)
          = trueIndices 0 D ++ trueIndices D.length (r :: (RU ++ RV)) := by
        rw [append_assoc, trueIndices_append, Int.zero_add, cons_append]
      rw [h0] at h
      have hD : (trueIndices 0 D).length ≤ D.length := by
        rw [trueIndices_length]
        exact count_le_length
      obtain ⟨s1, hs1, h1⟩ := h.updateEntry (by
          simp only [length_append, length_cons] at hcap ⊢
          omega)
      rw [← happend] at hs1 h1
      rw [← hspl] at h1
      obtain ⟨s', hs', h'⟩ := ih (D := D ++ [pred el]) h1 (by simpa using hlen) (by
        simp only [length_append, length_cons, length_nil] at hcap ⊢
        omega)
      refine ⟨s', ?_, by simpa using h'⟩
      have hcond : (D.length : Int) < D.length + (el :: U).length := by
        rw [length_cons]
        omega
      rw [cons_append, updateLoop, if_pos (Or.inr hcond)]
      refine hs1.bind ?_
      -- the number of entries up to `sourceTo` has followed the flag
      have hfilterTo : ((trueIndices 0 (D ++ r :: RU)).length : Int) +
            ((trueIndices D.length [pred el]).length - (trueIndices D.length [r]).length : Int)
          = (trueIndices 0 (D ++ [pred el] ++ RU)).length := by
        simp only [trueIndices_length, count_append, count_cons, count_nil]
        omega
      have hto : (D.length : Int) + ((el :: U).length : Int)
          = ((D ++ [pred el]).length : Int) + U.length := by
        simp only [length_append, length_cons, length_nil]
        omega
      have hfrom : (D.length : Int) + 1 = ((D ++ [pred el]).length : Int) := by simp
      rw [hfilterTo, hto, hfrom]
      exact hs'

theorem Showing.update {K T : List Bool} {U N V : List E}
    (h : Showing src p cap (trueIndices 0 (K ++ R ++ T)).length (trueIndices 0 (K ++ R ++ T)) s)
    (hfrom : c.from_ = K.length) (hto : c.to_ = c.from_ + N.length) (hsrc : src = U ++ (N ++ V))
    (hU : U.length = K.length) (hR : R.length = N.length)
    (hlen : (K ++ R ++ T).length = src.length) :
    ∃ s', Returns (update c) s () s' ∧
      Showing src p (ensured cap src.length)
        (trueIndices 0 (K ++ N.map (p.getD fun _ => true) ++ T)).length
        (trueIndices 0 (K ++ N.map (p.getD fun _ => true) ++ T)) s' := by
  obtain ⟨s1, hs1, h1⟩ := h.ensureSize src.length
  have hfind1 : Returns (FilteredList.findPosition c.from_) s1 ((trueIndices 0 K).length : Int) s1 := by
    rw [hfrom]
    have h1' := h1
    rw [append_assoc] at h1'
    exact h1'.findPosition_flags
  have hfind2 : Returns (FilteredList.findPosition c.to_) s1
      ((trueIndices 0 (K ++ R)).length : Int) s1 := by
    have hcto : c.to_ = ((K ++ R).length : Int) := by
      rw [length_append]
      omega
    rw [hcto]
    exact h1.findPosition_flags
  have hit : Returns (FilteredList.listIterator c.from_) s1 (N ++ V) s1 := by
    rw [hfrom, ← hU]
    exact h1.listIterator hsrc
  obtain ⟨s2, hs2, h2⟩ := h1.updateLoop (V := V) hR (by rw [hlen]; exact le_ensured _ _)
  refine ⟨s2, Returns.bind (a := s) (t := s) rfl ?_, h2⟩
  rw [h.source, h.getPredicateImpl]
  refine hs1.bind (hfind1.bind (hfind2.bind (hit.bind ?_)))
  rw [hto, hfrom]
  exact hs2

/-! ## `permutate` -/

section Permutate

variable {from_ : Int} {perm : List Int} {F : List Bool}

/-- The moved entries are those of the rearranged flags, in some order. -/
theorem map_image_perm (hperm : IsPermutation from_ perm) (h0 : 0 ≤ from_)
    (hle : from_ + perm.length ≤ F.length) :
    ((trueIndices 0 F).map (image from_ perm)).Perm (trueIndices 0 (permuted from_ perm F)) := by
  have hnd : ∀ G : List Bool, (trueIndices 0 G).Nodup := fun G =>
    (trueIndices_sorted 0 G).imp fun h => by omega
  apply (perm_ext_iff_of_nodup _ (hnd _)).mpr
  · intro y
    have hlen := hperm.permuted_length (A := F) h0 hle
    rw [mem_trueIndices, Int.sub_zero, mem_map]
    constructor
    · rintro ⟨x, hx, rfl⟩
      obtain ⟨h1, h2⟩ := mem_trueIndices.mp hx
      have hx' := trueIndices_bounds hx
      obtain ⟨h3, h4⟩ := hperm.image_bounds h0 hle (p := x) h1 (by omega)
      refine ⟨h3, ?_⟩
      have hget := hperm.permuted_getElem?_image h0 hle (i := x.toNat) (by omega)
      rw [Int.toNat_of_nonneg h1] at hget
      rw [hget]
      simpa using h2
    · rintro ⟨h1, h2⟩
      have hy := (List.getElem?_eq_some_iff.mp h2).1
      obtain ⟨h3, h4⟩ := hperm.source_bounds h0 hle (p := y) h1 (by omega)
      refine ⟨Collections.source from_ perm y, ?_, hperm.image_source⟩
      rw [hperm.permuted_getElem? h0 hle (by omega), Int.toNat_of_nonneg h1] at h2
      exact mem_trueIndices.mpr ⟨h3, by simpa using h2⟩
  · exact (hnd F).map fun x y hxy => hperm.image_injective hxy

/-- Sorting the moved entries gives the entries of the rearranged flags. -/
theorem sorted_moved_eq (hperm : IsPermutation from_ perm) (h0 : 0 ≤ from_)
    (hle : from_ + perm.length ≤ F.length) {M Z M' : List Int}
    (hspl : trueIndices 0 F = X ++ M ++ Z) (hX : ∀ x ∈ X, x < from_)
    (hM : ∀ x ∈ M, from_ ≤ x ∧ x < from_ + perm.length) (hZ : ∀ x ∈ Z, from_ + perm.length ≤ x)
    (hM' : M'.Perm (M.map (image from_ perm))) (hsort : M'.Pairwise (· ≤ ·)) :
    X ++ M' ++ Z = trueIndices 0 (permuted from_ perm F) := by
  have hmem : ∀ y ∈ M', from_ ≤ y ∧ y < from_ + perm.length := by
    intro y hy
    obtain ⟨x, hx, rfl⟩ := mem_map.mp (hM'.mem_iff.mp hy)
    exact hperm.image_range (hM x hx).1 (hM x hx).2
  have hmap : (trueIndices 0 F).map (image from_ perm) = X ++ M.map (image from_ perm) ++ Z := by
    have hfix : ∀ L : List Int, (∀ x ∈ L, ¬ (from_ ≤ x ∧ x < from_ + perm.length)) →
        L.map (image from_ perm) = L := by
      intro L hL
      conv_rhs => rw [← map_id L]
      exact map_congr_left fun x hx => image_of_not_range (hL x hx)
    rw [hspl, map_append, map_append, hfix X fun x hx => by
      have := hX x hx
      omega, hfix Z fun x hx => by
      have := hZ x hx
      omega]
  have hall := trueIndices_sorted 0 F
  rw [hspl] at hall
  obtain ⟨hXM, hZs, hXMZ⟩ := pairwise_append.mp hall
  obtain ⟨hXs, -, -⟩ := pairwise_append.mp hXM
  apply List.Perm.eq_of_pairwise
  · intro x y _ _ hxy hyx
    exact Int.le_antisymm hxy hyx
  · refine pairwise_append.mpr ⟨pairwise_append.mpr ⟨hXs.imp Int.le_of_lt, hsort, ?_⟩,
      hZs.imp Int.le_of_lt, ?_⟩
    · intro x hx y hy
      have := hX x hx
      have := hmem y hy
      omega
    · intro x hx z hz
      have := hZ z hz
      rcases mem_append.mp hx with hx | hx
      · have := hX x hx
        omega
      · have := hmem x hx
        omega
  · exact (trueIndices_sorted 0 _).imp Int.le_of_lt
  · refine List.Perm.trans ?_ (map_image_perm hperm h0 hle)
    rw [hmap]
    exact (hM'.append_left X).append_right Z

theorem Showing.permutateLoop (hc : c.wasPermutated = true) {M Z : List Int}
    (h : Showing src p cap n (X ++ M ++ Z) s)
    (hM : ∀ x ∈ M, c.from_ ≤ x ∧ x < c.from_ + c.perm.length) :
    ∃ s', Returns (permutateLoop c M.length X.length) s () s' ∧
      Showing src p cap n (X ++ M.map (image c.from_ c.perm) ++ Z) s' ∧
      s'.builder = s.builder := by
  induction M generalizing X s with
  | nil => exact ⟨s, rfl, h, rfl⟩
  | cons x M ih =>
    have hx := hM x mem_cons_self
    have h0 : Showing src p cap n (X ++ x :: (M ++ Z)) s := by simpa using h
    have hget : c.getPermutation x = .ok (image c.from_ c.perm x) := by
      rw [SubChange.getPermutation, hc]
      exact get_eq_image hx.1 hx.2
    obtain ⟨s1, hs1, h1⟩ := h0.write (image c.from_ c.perm x)
    obtain ⟨s2, hs2, h2, hb2⟩ := ih (X := X ++ [image c.from_ c.perm x]) (by simpa using h1)
      fun y hy => hM y (.tail _ hy)
    refine ⟨s2, ?_, by simpa using h2, hb2.trans (writeFiltered_builder hs1)⟩
    rw [length_cons, permutateLoop]
    refine h0.read.bind (Returns.bind (a := image c.from_ c.perm x) (t := s) ?_ (hs1.bind ?_))
    · simp only [Returns, JavaM.ofExcept, hget]
    · simpa using hs2

theorem nextPermutation_first (listSize : Nat) (from_ to_ : Int) (perm : List Int) :
    Returns (ListChangeBuilder.nextPermutation listSize from_ to_ perm)
      (⟨1, [], [], none⟩ : ListChangeBuilder E) ()
      ⟨1, [], [], some ⟨from_, to_, none, perm, false⟩⟩ := by
  rfl

/-- The entries follow the permutation of the source. -/
theorem Showing.permutate {F : List Bool} (hc : c.wasPermutated = true)
    (h : Showing src p cap (trueIndices 0 F).length (trueIndices 0 F) s)
    (hb : s.builder = ⟨1, [], [], none⟩) (hperm : IsPermutation c.from_ c.perm)
    (h0 : 0 ≤ c.from_) (hto : c.to_ = c.from_ + c.perm.length) (hle : c.to_ ≤ F.length) :
    ∃ s', Returns (permutate c) s () s' ∧
      Showing src p cap (trueIndices 0 (permuted c.from_ c.perm F)).length
        (trueIndices 0 (permuted c.from_ c.perm F)) s' := by
  obtain ⟨K, R, T, rfl, hK', hR⟩ := ListAt.exists_split F (n := c.from_.toNat)
    (m := c.perm.length) (by omega)
  have hK : (K.length : Int) = c.from_ := by omega
  have hspl := trueIndices_append₃ K R T
  have hfrom : Returns (FilteredList.findPosition c.from_) s ((trueIndices 0 K).length : Int) s := by
    have h' := h
    rw [append_assoc] at h'
    rw [← hK]
    exact h'.findPosition_flags
  have hfind : Returns (FilteredList.findPosition c.to_) s
      ((trueIndices 0 K ++ trueIndices K.length R).length : Int) s := by
    have hcto : c.to_ = ((K ++ R).length : Int) := by
      rw [length_append]
      omega
    have := h.findPosition_flags (K := K ++ R)
    rwa [← hcto, trueIndices_append, Int.zero_add] at this
  have hX : ∀ x ∈ trueIndices 0 K, x < c.from_ := fun x hx => by
    have := trueIndices_bounds hx
    omega
  have hM : ∀ x ∈ trueIndices K.length R, c.from_ ≤ x ∧ x < c.from_ + c.perm.length :=
    fun x hx => by
      have := trueIndices_bounds hx
      omega
  have hZ : ∀ x ∈ trueIndices (K.length + R.length) T, c.from_ + c.perm.length ≤ x := fun x hx => by
      have := trueIndices_bounds hx
      omega
  rw [hspl] at h
  -- nothing of the range is shown, or what is shown is moved, sorted and reported
  by_cases hemp : trueIndices K.length R = []
  · have hsame := sorted_moved_eq hperm h0 (by omega) hspl hX hM hZ
      (by rw [hemp]; exact List.Perm.refl _) List.Pairwise.nil
    rw [hemp] at h hfind
    refine ⟨s, hfrom.bind (hfind.bind ?_), by rwa [hsame] at h⟩
    rw [append_nil, if_neg (by omega)]
    rfl
  · have hlt : ((trueIndices 0 K).length : Int)
        < ((trueIndices 0 K ++ trueIndices K.length R).length : Int) := by
      have := length_pos_of_ne_nil hemp
      rw [length_append]
      omega
    obtain ⟨s1, hs1, h1, hb1⟩ := h.permutateLoop hc hM
    obtain ⟨G, hG⟩ := h1.filtered
    obtain ⟨M', perm, hsort, hM', hsorted, -⟩ := SortHelper.sortRange_spec (trueIndices 0 K)
      ((trueIndices K.length R).map (image c.from_ c.perm))
      (trueIndices (K.length + R.length) T ++ G)
    have hsame := sorted_moved_eq hperm h0 (by omega) hspl hX hM hZ hM' hsorted
    have hto' : ((trueIndices 0 K).length : Int) +
        ((trueIndices K.length R).map (image c.from_ c.perm)).length
        = ((trueIndices 0 K ++ trueIndices K.length R).length : Int) := by
      rw [length_map, length_append]
      omega
    rw [hto', ← append_assoc, ← hG] at hsort
    obtain ⟨hstore, h2⟩ := h1.store
      (a := trueIndices 0 K ++ M' ++ (trueIndices (K.length + R.length) T ++ G))
      (B := trueIndices 0 K ++ M' ++ trueIndices (K.length + R.length) T)
      (by
        have hcap := h1.capacity
        rw [hG] at hcap
        have hlen := hM'.length_eq
        simp only [length_append, length_map] at hcap hlen ⊢
        omega)
      ⟨G, by simp⟩
    have hsz : ((trueIndices 0 K ++ trueIndices K.length R ++
          trueIndices (K.length + R.length) T).length : Int)
        = (trueIndices 0 K ++ M' ++ trueIndices (K.length + R.length) T).length := by
      have hlen := hM'.length_eq
      rw [length_map] at hlen
      simp only [length_append, hlen]
    rw [hsz] at h2
    obtain ⟨s3, hs3, h3⟩ := h2.report
      (m := ListChangeBuilder.nextPermutation s1.size.toNat (trueIndices 0 K).length
        (trueIndices 0 K ++ trueIndices K.length R).length perm)
      ⟨_, by
        show Returns _ s1.builder () _
        rw [hb1, hb]
        exact nextPermutation_first _ _ _ _, ListChangeBuilder.sound_empty _ _, h1.lock.symm⟩
    refine ⟨s3, hfrom.bind (hfind.bind ?_), by rwa [hsame] at h3⟩
    have hcnt : ((trueIndices 0 K ++ trueIndices K.length R).length -
        (trueIndices 0 K).length : Int).toNat = (trueIndices K.length R).length := by
      rw [length_append]
      omega
    rw [if_pos hlt, hcnt]
    refine hs1.bind ((onFiltered_returns (f := fun a => SortHelper.sortRange a
      (trueIndices 0 K).length (trueIndices 0 K ++ trueIndices K.length R).length) hsort).bind
      (hstore.bind (Returns.bind (a := _) (t := _) rfl hs3)))

end Permutate

end OpenJfx.Transformation.FilteredList
