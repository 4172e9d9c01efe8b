/-
  OpenJfx.Css.BitSet.Calls

  What each call of a `BitSet` does to the set of its indices, what it returns
  and what it tells the listeners.  `Meets` says that all three are as they
  should be for a new content; `addAll`, `retainAll`, `removeAll` and
  `containsAll` meet it under conditions on the two arrays, which are exact.
-/

import OpenJfx.Css.BitSet.Basic

namespace OpenJfx.Css.BitSet

open List

variable {i : Nat} {ws : List Word}

variable {T : Type} (N : Numbering T)

/-- `i` left the set (`removed`), or entered it. -/
def Moved (old new : Finset Nat) (removed : Bool) (i : Nat) : Prop :=
  if removed then i ∈ old ∧ i ∉ new else i ∈ new ∧ i ∉ old

/-- Told once of each element that entered or left. -/
structure Tells (listening : Bool) (old new : Finset Nat) (told : List (Change T)) : Prop where
  quiet : listening = false → told = []
  once : told.Nodup
  moved : listening = true → ∀ c, c ∈ told ↔ Moved old new c.removed (N.getIndex c.element)

/-- It leaves `new`, says whether it changed, and tells so. -/
structure Meets (s : BitSet) (new : Finset Nat) (o : Outcome T) : Prop where
  content : members o.after.bits = new
  result : o.result = true ↔ members s.bits ≠ new
  tells : Tells N s.hasListeners (members s.bits) new o.told

variable {N} {s other : BitSet}

/-! ## Listeners -/

theorem not_moved (old : Finset Nat) (removed : Bool) (i : Nat) : ¬ Moved old old removed i := by
  rw [Moved]
  cases removed <;> simp

theorem tells_nothing (listening : Bool) (old : Finset Nat) : Tells N listening old old [] :=
  ⟨fun _ => rfl, nodup_nil, fun _ c => by simp [not_moved]⟩

/-- A call that does nothing is right where nothing should change. -/
theorem meets_unchanged : Meets N s (members s.bits) ⟨false, [], s⟩ :=
  ⟨rfl, by simp, tells_nothing _ _⟩

variable {removed : Bool}

theorem removed_eq_of_moved {old new : Finset Nat} {r : Bool}
    (hnone : ∀ i, ¬ Moved old new (!removed) i) (h : Moved old new r i) : r = removed := by
  by_contra hne
  have hr : r = !removed := by
    revert hne
    cases removed <;> cases r <;> simp
  rw [hr] at h
  exact hnone i h

theorem notifyObservers_eq (removed : Bool) (words : List Word) : s.notifyObservers N removed words
      = if s.hasListeners then (setBits words).map fun i => ⟨N.getT i, removed⟩ else [] := by
  rw [notifyObservers]
  congr 1
  rw [setBits, map_flatMap]
  apply flatMap_congr
  intro n _
  rw [map_map]
  have hfilt : (List.range 64).filter (fun b => 1#64 <<< b &&& wordAt words n == 1#64 <<< b)
      = (List.range 64).filter (wordAt words n).getLsbD := by
    apply filter_congr
    intro b hb
    rw [Bool.eq_iff_iff, beq_iff_eq]
    exact mask_and_eq_iff (mem_range.mp hb)
  rw [hfilt]
  rfl

/-- One change for each bit of the words, if these are the bits that moved. -/
theorem tells_bits {words : List Word} {old new : Finset Nat}
    (hwords : ∀ i, bitAt words i = true ↔ Moved old new removed i)
    (hnone : ∀ i, ¬ Moved old new (!removed) i) :
    Tells N s.hasListeners old new (s.notifyObservers N removed words) := by
  rw [notifyObservers_eq]
  refine ⟨?_, ?_, ?_⟩
  · intro h
    rw [h, if_neg Bool.false_ne_true]
  · split
    · apply (setBits_nodup words).map
      intro i j hij
      have := congrArg (fun c => N.getIndex c.element) hij
      simpa only [N.getIndex_getT] using this
    · exact nodup_nil
  · intro h c
    obtain ⟨t, r⟩ := c
    rw [h, if_pos rfl, mem_map]
    constructor
    · rintro ⟨i, hi, heq⟩
      cases heq
      rw [N.getIndex_getT, ← hwords]
      exact mem_setBits.mp hi
    · intro hmoved
      obtain rfl := removed_eq_of_moved hnone hmoved
      exact ⟨N.getIndex t, mem_setBits.mpr ((hwords _).mpr hmoved), by rw [N.getT_getIndex]⟩

/-- One change, if one element moved. -/
theorem tells_one {t : T} {old new : Finset Nat}
    (hmoved : ∀ i, Moved old new removed i ↔ i = N.getIndex t)
    (hnone : ∀ i, ¬ Moved old new (!removed) i) :
    Tells N s.hasListeners old new (if s.hasListeners then [⟨t, removed⟩] else []) := by
  refine ⟨?_, ?_, ?_⟩
  · intro h
    rw [h, if_neg Bool.false_ne_true]
  · split
    · exact nodup_singleton _
    · exact nodup_nil
  · intro h c
    obtain ⟨u, r⟩ := c
    rw [h, if_pos rfl, mem_singleton]
    constructor
    · intro heq
      cases heq
      exact (hmoved _).mpr rfl
    · intro hm
      obtain rfl := removed_eq_of_moved hnone hm
      have hu : u = t := by
        have := congrArg N.getT ((hmoved _).mp hm)
        rwa [N.getT_getIndex, N.getT_getIndex] at this
      rw [hu]

/-! ## One element -/

theorem bit_getLsbD (i k : Nat) : (bit i).getLsbD k = decide (k = i % 64) := getLsbD_mask (by omega)

theorem wordAt_append_zero (ws : List Word) (n m : Nat) :
    wordAt (ws ++ List.replicate n 0#64) m = wordAt ws m := by
  rw [wordAt, wordAt, getD_eq_getElem?_getD, getD_eq_getElem?_getD]
  by_cases hm : m < ws.length
  · rw [getElem?_append_left hm]
  · rw [getElem?_append_right (by omega), getElem?_eq_none (l := ws) (by omega),
      getElem?_replicate]
    split <;> rfl

theorem bitAt_set_or (h : i / 64 < ws.length) (j : Nat) :
    bitAt (ws.set (i / 64) (wordAt ws (i / 64) ||| bit i)) j = (bitAt ws j || decide (j = i)) := by
  rw [bitAt, wordAt_set h]
  split
  · next hj =>
    rw [BitVec.getLsbD_or, bit_getLsbD, bitAt, hj]
    congr 1
    rw [decide_eq_decide]
    omega
  · next hj =>
    rw [decide_eq_false (by rintro rfl; exact hj rfl), Bool.or_false]
    rfl

theorem bitAt_set_and_not (h : i / 64 < ws.length) (j : Nat) :
    bitAt (ws.set (i / 64) (wordAt ws (i / 64) &&& ~~~bit i)) j
      = (bitAt ws j && !decide (j = i)) := by
  rw [bitAt, wordAt_set h]
  split
  · next hj =>
    rw [BitVec.getLsbD_and, BitVec.getLsbD_not, bit_getLsbD, bitAt, hj,
      decide_eq_true (show j % 64 < 64 by omega), Bool.true_and]
    congr 2
    rw [decide_eq_decide]
    omega
  · next hj =>
    rw [decide_eq_false (by rintro rfl; exact hj rfl), Bool.not_false, Bool.and_true]
    rfl

/-- The word of `i` is changed by setting its bit exactly when the bit was not set. -/
theorem or_bit_ne_iff :
    wordAt ws (i / 64) ||| bit i ≠ wordAt ws (i / 64) ↔ bitAt ws i = false := by
  rw [← Bool.not_eq_true, not_iff_not, bitAt]
  constructor
  · intro h
    rw [← h, BitVec.getLsbD_or, bit_getLsbD]
    simp
  · intro h
    apply word_ext
    intro k _
    rw [BitVec.getLsbD_or, bit_getLsbD]
    by_cases hk : k = i % 64
    · rw [hk, h, Bool.true_or]
    · rw [decide_eq_false hk, Bool.or_false]

theorem and_not_bit_ne_iff :
    wordAt ws (i / 64) &&& ~~~bit i ≠ wordAt ws (i / 64) ↔ bitAt ws i = true := by
  rw [← Bool.not_eq_false, not_iff_not, bitAt]
  constructor
  · intro h
    rw [← h, BitVec.getLsbD_and, BitVec.getLsbD_not, bit_getLsbD]
    simp
  · intro h
    apply word_ext
    intro k hk
    rw [BitVec.getLsbD_and, BitVec.getLsbD_not, bit_getLsbD, decide_eq_true hk, Bool.true_and]
    by_cases hk' : k = i % 64
    · rw [hk', h, Bool.false_and]
    · rw [decide_eq_false hk', Bool.not_false, Bool.and_true]

/-- The array replaced by an empty one when all its words are zero. -/
theorem bitAt_or_empty (ws : List Word) (i : Nat) :
    bitAt (if ws.all (· == 0#64) then [] else ws) i = bitAt ws i := by
  split
  · next h =>
    have hzero : wordAt ws (i / 64) = 0#64 := by
      by_cases hlt : i / 64 < ws.length
      · rw [wordAt_eq_getElem hlt]
        simpa using all_eq_true.mp h _ (getElem_mem hlt)
      · exact wordAt_of_le (by omega)
    rw [bitAt_of_le (by simp), bitAt, hzero]
    exact BitVec.getLsbD_zero.symm
  · rfl

theorem members_eq_of_bits {S : Finset Nat}
    (h : ∀ i, bitAt ws i = true ↔ i ∈ S) : members ws = S := by
  ext i
  rw [mem_members, h]

/-- An array that is too short is padded with zero words, which hold no bit. -/
theorem meets_add (t : T) :
    Meets N s (insert (N.getIndex t) (members s.bits)) (s.add N (some t)) := by
  -- the array with room for the word of `t`
  obtain ⟨P, hP⟩ : ∃ P, P = s.bits ++
      List.replicate (N.getIndex t / 64 + 1 - s.bits.length) 0#64 := ⟨_, rfl⟩
  have hlen : N.getIndex t / 64 < P.length := by
    rw [hP, length_append, length_replicate]
    omega
  have hpad : ∀ j, bitAt P j = bitAt s.bits j := by
    intro j
    rw [bitAt, hP, wordAt_append_zero]
    rfl
  have hcon : members (P.set (N.getIndex t / 64)
        (wordAt P (N.getIndex t / 64) ||| bit (N.getIndex t)))
      = insert (N.getIndex t) (members s.bits) := by
    apply members_eq_of_bits
    intro j
    rw [bitAt_set_or hlen, hpad, Bool.or_eq_true, decide_eq_true_iff, Finset.mem_insert,
      mem_members]
    exact or_comm
  have hmod : (wordAt (P.set (N.getIndex t / 64)
        (wordAt P (N.getIndex t / 64) ||| bit (N.getIndex t))) (N.getIndex t / 64)
        != wordAt P (N.getIndex t / 64)) = !bitAt s.bits (N.getIndex t) := by
    rw [wordAt_set hlen, if_pos rfl, ← hpad, Bool.eq_iff_iff, bne_iff_ne, Bool.not_eq_true']
    exact or_bit_ne_iff
  simp only [add]
  rw [← hP, hmod]
  refine ⟨hcon, ?_, ?_⟩
  · rw [ne_comm, ne_eq, Finset.insert_eq_self, mem_members]
    simp
  -- listeners are told just if the bit was not set
  · cases hold : bitAt s.bits (N.getIndex t) with
    | true =>
      have hsame : insert (N.getIndex t) (members s.bits) = members s.bits :=
        Finset.insert_eq_self.mpr (mem_members.mpr hold)
      rw [hsame]
      exact tells_nothing _ _
    | false =>
      have hnot : N.getIndex t ∉ members s.bits := by simp [hold]
      apply tells_one
      · intro i
        simp only [Moved, Bool.false_eq_true, if_false, Finset.mem_insert]
        constructor
        · rintro ⟨rfl | h, hi⟩
          · rfl
          · exact absurd h hi
        · rintro rfl
          exact ⟨Or.inl rfl, hnot⟩
      · intro i h
        simp only [Moved, Bool.not_false, if_true, Finset.mem_insert, not_or] at h
        exact h.2.2 h.1

/-- A bit beyond the array is not there, and the array of an empty set goes. -/
theorem meets_remove (t : T) :
    Meets N s ((members s.bits).erase (N.getIndex t)) (s.remove N (some t)) := by
  have hsame : bitAt s.bits (N.getIndex t) = false →
      (members s.bits).erase (N.getIndex t) = members s.bits := by
    intro h
    exact Finset.erase_eq_of_notMem (by simp [h])
  simp only [remove]
  by_cases hlen : s.bits.length ≤ N.getIndex t / 64
  · rw [if_pos hlen, hsame (bitAt_of_le (by omega))]
    exact meets_unchanged
  have hlt : N.getIndex t / 64 < s.bits.length := by omega
  have hcon : ∀ j, bitAt (s.bits.set (N.getIndex t / 64)
      (wordAt s.bits (N.getIndex t / 64) &&& ~~~bit (N.getIndex t))) j = true ↔
      j ∈ (members s.bits).erase (N.getIndex t) := by
    intro j
    rw [bitAt_set_and_not hlt, Bool.and_eq_true, Finset.mem_erase, mem_members]
    simp [and_comm]
  have hmod : (wordAt (s.bits.set (N.getIndex t / 64)
        (wordAt s.bits (N.getIndex t / 64) &&& ~~~bit (N.getIndex t))) (N.getIndex t / 64)
        != wordAt s.bits (N.getIndex t / 64)) = bitAt s.bits (N.getIndex t) := by
    rw [wordAt_set hlt, if_pos rfl, Bool.eq_iff_iff, bne_iff_ne]
    exact and_not_bit_ne_iff
  rw [if_neg hlen, hmod]
  cases hold : bitAt s.bits (N.getIndex t) with
  | false =>
    rw [if_neg Bool.false_ne_true]
    refine ⟨members_eq_of_bits hcon, by rw [hsame hold]; simp, ?_⟩
    rw [hsame hold]
    exact tells_nothing _ _
  | true =>
    have hmem : N.getIndex t ∈ members s.bits := mem_members.mpr hold
    rw [if_pos rfl]
    refine ⟨members_eq_of_bits fun j => ?_, ?_, ?_⟩
    · rw [bitAt_or_empty]
      exact hcon j
    · simp only [true_iff]
      intro heq
      exact Finset.notMem_erase _ _ (heq ▸ hmem)
    · apply tells_one
      · intro i
        simp only [Moved, if_true, Finset.mem_erase, not_and_or, not_not]
        constructor
        · rintro ⟨h1, h | h⟩
          · exact h
          · exact absurd h1 h
        · rintro rfl
          exact ⟨hmem, Or.inl rfl⟩
      · intro i h
        simp only [Moved, Bool.not_true, Bool.false_eq_true, if_false, Finset.mem_erase] at h
        exact h.2 h.1.2

theorem contains_eq (t : T) :
    s.contains N (some t) = decide (N.getIndex t ∈ members s.bits) := by
  rw [Bool.eq_iff_iff, decide_eq_true_iff, mem_members, contains, Bool.and_eq_true,
    decide_eq_true_iff, beq_iff_eq, BitVec.and_comm]
  rw [bit, mask_and_eq_iff (by omega)]
  exact ⟨fun h => h.2, fun h => ⟨lt_of_bitAt h, h⟩⟩

/-! ## Two sets -/

theorem bitAt_map_range (f : Nat → Word) (max i : Nat) :
    bitAt ((List.range max).map f) i = (decide (i / 64 < max) && (f (i / 64)).getLsbD (i % 64)) := by
  rw [bitAt, wordAt_map_range]
  split
  · next h => rw [decide_eq_true h, Bool.true_and]
  · next h =>
    rw [decide_eq_false h, Bool.false_and]
    exact BitVec.getLsbD_zero

/-- Words are compared bit by bit. -/
theorem word_ne_iff {v w : Word} : v ≠ w ↔ ∃ k, k < 64 ∧ v.getLsbD k ≠ w.getLsbD k := by
  constructor
  · intro hne
    by_contra hnone
    apply hne
    apply word_ext
    intro k hk
    by_contra hk'
    exact hnone ⟨k, hk, hk'⟩
  · rintro ⟨k, -, hk⟩ rfl
    exact hk rfl

/-- A longer array is refused whatever its words hold. -/
theorem containsAll_iff : s.containsAll (some other) = true ↔
    members other.bits ⊆ members s.bits ∧ ¬ s.bits.length < other.bits.length := by
  have hsub : (∀ n < other.bits.length, wordAt s.bits n &&& wordAt other.bits n
      = wordAt other.bits n) ↔ members other.bits ⊆ members s.bits := by
    rw [members_subset_iff]
    constructor
    · intro h i hi
      have := congrArg (BitVec.getLsbD · (i % 64)) (h _ (lt_of_bitAt hi))
      simp only [BitVec.getLsbD_and] at this
      rw [bitAt] at hi ⊢
      rw [hi, Bool.and_true] at this
      exact this
    · intro h n _
      apply word_ext
      intro k hk
      rw [BitVec.getLsbD_and, getLsbD_wordAt _ hk, getLsbD_wordAt _ hk]
      cases hbit : bitAt other.bits (64 * n + k) with
      | false => rw [Bool.and_false]
      | true => rw [h _ hbit, Bool.and_true]
  rw [containsAll]
  split
  · next h =>
    have hother := length_eq_zero_iff.mp h.2
    rw [hother]
    simp [members, setBits]
  · split
    · next h => simp [h]
    · next h =>
      rw [all_eq_true, ← hsub]
      simp only [mem_range, beq_iff_eq]
      exact ⟨fun hall => ⟨hall, h⟩, fun hall => hall.1⟩

theorem lt_maxLength {n : Nat} :
    n < maxLength s other ↔ n < s.bits.length ∨ n < other.bits.length := by
  rw [maxLength]
  split <;> omega

theorem lt_minLength {n : Nat} :
    n < minLength s other ↔ n < s.bits.length ∧ n < other.bits.length := by
  rw [minLength]
  split <;> omega

/-! ## `addAll` -/

theorem union_bitAt (i : Nat) :
    bitAt (union s other) i = (bitAt s.bits i || bitAt other.bits i) := by
  rw [union, bitAt_map_range, Bool.eq_iff_iff, Bool.and_eq_true, decide_eq_true_iff,
    Bool.or_eq_true, lt_maxLength]
  constructor
  · rintro ⟨-, hbit⟩
    split at hbit
    · rw [BitVec.getLsbD_or, Bool.or_eq_true] at hbit
      exact hbit
    · split at hbit
      · exact Or.inl hbit
      · exact Or.inr hbit
  · intro h
    refine ⟨h.imp lt_of_bitAt lt_of_bitAt, ?_⟩
    split
    · rw [BitVec.getLsbD_or, Bool.or_eq_true]
      exact h
    · next hboth =>
      -- a word that only one of the sets has
      split
      · next hs => exact h.resolve_right fun ho => hboth ⟨hs, lt_of_bitAt ho⟩
      · next hs => exact h.resolve_left fun ho => hs (lt_of_bitAt ho)

/-- A longer array counts as a modification by itself. -/
theorem unionModified_iff : unionModified s other = true ↔
    ¬ members other.bits ⊆ members s.bits ∨ s.bits.length < other.bits.length := by
  have hword : ∀ n, n < s.bits.length ∧ n < other.bits.length →
      wordAt (union s other) n = wordAt s.bits n ||| wordAt other.bits n := by
    intro n hboth
    rw [union, wordAt_map_range, if_pos (lt_maxLength.mpr (Or.inl hboth.1)), if_pos hboth]
  rw [unionModified, any_eq_true, members_subset_iff]
  constructor
  · rintro ⟨n, hn, htest⟩
    rw [mem_range, lt_maxLength] at hn
    split at htest
    · next hboth =>
      rw [bne_iff_ne, hword n hboth, word_ne_iff] at htest
      obtain ⟨k, hk, hne⟩ := htest
      left
      intro hall
      apply hne
      rw [BitVec.getLsbD_or, getLsbD_wordAt _ hk, getLsbD_wordAt _ hk]
      cases hbit : bitAt other.bits (64 * n + k) with
      | false => rw [Bool.or_false]
      | true => rw [hall _ hbit, Bool.or_true]
    · split at htest
      · cases htest
      · right
        omega
  · intro h
    by_cases hlen : s.bits.length < other.bits.length
    · refine ⟨s.bits.length, ?_, ?_⟩
      · rw [mem_range, lt_maxLength]
        exact Or.inr hlen
      · rw [if_neg (by omega), if_neg (by omega)]
    · obtain ⟨i, hi⟩ : ∃ i, ¬ (bitAt other.bits i = true → bitAt s.bits i = true) := by
        simpa using h.resolve_right hlen
      obtain ⟨hother, hs⟩ := Classical.not_imp.mp hi
      have hlt := lt_of_bitAt hother
      refine ⟨i / 64, mem_range.mpr (lt_maxLength.mpr (Or.inr hlt)), ?_⟩
      rw [if_pos (by omega), bne_iff_ne, hword _ (by omega), word_ne_iff]
      refine ⟨i % 64, by omega, ?_⟩
      rw [BitVec.getLsbD_or]
      rw [bitAt] at hother hs
      rw [hother, Bool.or_true]
      exact fun heq => hs heq.symm

theorem bitsAdded_bitAt (i : Nat) : bitAt (bitsAdded s other) i = true ↔
    bitAt other.bits i = true ∧ bitAt s.bits i = false := by
  have hk : i % 64 < 64 := by omega
  rw [bitsAdded, bitAt_map_range, Bool.and_eq_true, decide_eq_true_iff, lt_maxLength]
  constructor
  · rintro ⟨-, hbit⟩
    split at hbit
    · rw [BitVec.getLsbD_and, BitVec.getLsbD_not, decide_eq_true hk, Bool.true_and,
        Bool.and_eq_true, Bool.not_eq_true'] at hbit
      exact ⟨hbit.2, hbit.1⟩
    · split at hbit
      · rw [BitVec.getLsbD_zero] at hbit
        cases hbit
      · exact ⟨hbit, bitAt_of_le (by omega)⟩
  · rintro ⟨hother, hs⟩
    have hlt := lt_of_bitAt hother
    refine ⟨Or.inr hlt, ?_⟩
    split
    · rw [BitVec.getLsbD_and, BitVec.getLsbD_not, decide_eq_true hk, Bool.true_and,
        Bool.and_eq_true, Bool.not_eq_true']
      exact ⟨hs, hother⟩
    · rw [if_neg (by omega)]
      exact hother

theorem mem_union_iff (i : Nat) :
    bitAt (union s other) i = true ↔ i ∈ members s.bits ∪ members other.bits := by
  rw [union_bitAt, Bool.or_eq_true, Finset.mem_union, mem_members, mem_members]

/-- Content and notifications are always right, the answer but for a longer array. -/
theorem meets_addAll_iff :
    Meets N s (members s.bits ∪ members other.bits) (s.addAll N (some other)) ↔
      ¬ (s.bits.length < other.bits.length ∧ members other.bits ⊆ members s.bits) := by
  have hmodified := @unionModified_iff s other
  rw [addAll]
  split
  · next hmod =>
    replace hmodified := hmodified.mp hmod
    constructor
    -- the call says true although nothing has come in
    · rintro h ⟨-, hsub⟩
      have hresult := h.result.mp rfl
      exact hresult (Finset.union_eq_left.mpr hsub).symm
    · intro hclean
      have hnot : ¬ members other.bits ⊆ members s.bits := fun hsub =>
        hclean ⟨hmodified.resolve_left (not_not_intro hsub), hsub⟩
      refine ⟨members_eq_of_bits mem_union_iff, ?_, ?_⟩
      · simp only [true_iff]
        exact fun heq => hnot (Finset.union_eq_left.mp heq.symm)
      · apply tells_bits
        · intro i
          rw [bitsAdded_bitAt, Moved, if_neg Bool.false_ne_true, Finset.mem_union, mem_members,
            mem_members, Bool.not_eq_true]
          constructor
          · rintro ⟨h1, h2⟩
            exact ⟨Or.inr h1, h2⟩
          · rintro ⟨h1 | h1, h2⟩
            · rw [h1] at h2
              cases h2
            · exact ⟨h1, h2⟩
        · intro i h
          rw [Moved, Bool.not_false, if_pos rfl] at h
          exact h.2 (Finset.mem_union_left _ h.1)
  · next hmod =>
    obtain ⟨hsub, hlen⟩ := not_or.mp (mt hmodified.mpr hmod)
    rw [not_not] at hsub
    rw [Finset.union_eq_left.mpr hsub]
    exact ⟨fun _ h => hlen h.1, fun _ => meets_unchanged⟩

/-! ## `retainAll` -/

theorem intersection_bitAt (i : Nat) :
    bitAt (intersection s other) i = (bitAt s.bits i && bitAt other.bits i) := by
  rw [intersection, bitAt_map_range, BitVec.getLsbD_and, Bool.eq_iff_iff, Bool.and_eq_true,
    decide_eq_true_iff, lt_minLength]
  constructor
  · exact fun h => h.2
  · intro h
    obtain ⟨h1, h2⟩ := Bool.and_eq_true_iff.mp h
    exact ⟨⟨lt_of_bitAt h1, lt_of_bitAt h2⟩, h⟩

/-- So does a longer receiver for `retainAll`. -/
theorem intersectionModified_iff : intersectionModified s other = true ↔
    ¬ members s.bits ⊆ members other.bits ∨ other.bits.length < s.bits.length := by
  have hword : ∀ n < minLength s other,
      wordAt (intersection s other) n = wordAt s.bits n &&& wordAt other.bits n := by
    intro n hn
    rw [intersection, wordAt_map_range, if_pos hn]
  have hlonger : s.bits.length > minLength s other ↔ other.bits.length < s.bits.length := by
    rw [minLength]
    split <;> omega
  rw [intersectionModified, Bool.or_eq_true, decide_eq_true_iff, hlonger, any_eq_true,
    members_subset_iff]
  constructor
  · rintro (h | ⟨n, hn, htest⟩)
    · exact Or.inr h
    · rw [mem_range] at hn
      rw [bne_iff_ne, hword n hn, word_ne_iff] at htest
      obtain ⟨k, hk, hne⟩ := htest
      left
      intro hall
      apply hne
      rw [BitVec.getLsbD_and, getLsbD_wordAt _ hk, getLsbD_wordAt _ hk]
      cases hbit : bitAt s.bits (64 * n + k) with
      | false => rw [Bool.false_and]
      | true => rw [hall _ hbit, Bool.true_and]
  · intro h
    by_cases hlen : other.bits.length < s.bits.length
    · exact Or.inl hlen
    · right
      obtain ⟨i, hi⟩ : ∃ i, ¬ (bitAt s.bits i = true → bitAt other.bits i = true) := by
        simpa using h.resolve_right hlen
      obtain ⟨hs, hother⟩ := Classical.not_imp.mp hi
      have hlt := lt_of_bitAt hs
      have hmin : i / 64 < minLength s other := lt_minLength.mpr ⟨hlt, by omega⟩
      refine ⟨i / 64, mem_range.mpr hmin, ?_⟩
      rw [bne_iff_ne, hword _ hmin, word_ne_iff]
      refine ⟨i % 64, by omega, ?_⟩
      rw [BitVec.getLsbD_and]
      rw [bitAt] at hother hs
      rw [hs, Bool.true_and]
      exact hother

theorem bitsNotRetained_bitAt (i : Nat) : bitAt (bitsNotRetained s other) i = true ↔
    bitAt s.bits i = true ∧ bitAt other.bits i = false := by
  have hk : i % 64 < 64 := by omega
  rw [bitsNotRetained, bitAt_map_range, Bool.and_eq_true, decide_eq_true_iff]
  constructor
  · rintro ⟨-, hbit⟩
    split at hbit
    · rw [BitVec.getLsbD_and, BitVec.getLsbD_not, decide_eq_true hk, Bool.true_and,
        Bool.and_eq_true, Bool.not_eq_true'] at hbit
      exact hbit
    · exact ⟨hbit, bitAt_of_le (by omega)⟩
  · rintro ⟨hs, hother⟩
    refine ⟨lt_of_bitAt hs, ?_⟩
    split
    · rw [BitVec.getLsbD_and, BitVec.getLsbD_not, decide_eq_true hk, Bool.true_and,
        Bool.and_eq_true, Bool.not_eq_true']
      exact ⟨hs, hother⟩
    · exact hs

theorem mem_intersection_iff (i : Nat) :
    bitAt (intersection s other) i = true ↔ i ∈ members s.bits ∩ members other.bits := by
  rw [intersection_bitAt, Bool.and_eq_true, Finset.mem_inter, mem_members, mem_members]

/-- The same, with the receiver's array the longer one. -/
theorem meets_retainAll_iff :
    Meets N s (members s.bits ∩ members other.bits) (s.retainAll N (some other)) ↔
      ¬ (other.bits.length < s.bits.length ∧ members s.bits ⊆ members other.bits) := by
  have hmodified := @intersectionModified_iff s other
  rw [retainAll]
  split
  · next hmod =>
    replace hmodified := hmodified.mp hmod
    constructor
    -- the call says true although nothing has gone
    · rintro h ⟨-, hsub⟩
      have hresult := h.result.mp rfl
      exact hresult (Finset.inter_eq_left.mpr hsub).symm
    · intro hclean
      have hnot : ¬ members s.bits ⊆ members other.bits := fun hsub =>
        hclean ⟨hmodified.resolve_left (not_not_intro hsub), hsub⟩
      refine ⟨members_eq_of_bits fun i => ?_, ?_, ?_⟩
      · rw [bitAt_or_empty]
        exact mem_intersection_iff i
      · simp only [true_iff]
        exact fun heq => hnot (Finset.inter_eq_left.mp heq.symm)
      · apply tells_bits
        · intro i
          rw [bitsNotRetained_bitAt, Moved, if_pos rfl, Finset.mem_inter, mem_members, mem_members,
            not_and, Bool.not_eq_true]
          exact ⟨fun h => ⟨h.1, fun _ => h.2⟩, fun h => ⟨h.1, h.2 h.1⟩⟩
        · intro i h
          rw [Moved, Bool.not_true, if_neg Bool.false_ne_true] at h
          exact h.2 (Finset.mem_of_mem_inter_left h.1)
  · next hmod =>
    obtain ⟨hsub, hlen⟩ := not_or.mp (mt hmodified.mpr hmod)
    rw [not_not] at hsub
    rw [Finset.inter_eq_left.mpr hsub]
    exact ⟨fun _ h => hlen h.1, fun _ => meets_unchanged⟩

/-! ## `removeAll` -/

/-- The difference ends with the argument's array. -/
theorem difference_bitAt (i : Nat) : bitAt (difference s other) i = true ↔
    i / 64 < other.bits.length ∧ bitAt s.bits i = true ∧ bitAt other.bits i = false := by
  have hk : i % 64 < 64 := by omega
  rw [difference, bitAt_map_range, BitVec.getLsbD_and, BitVec.getLsbD_not, decide_eq_true hk,
    Bool.true_and, Bool.and_eq_true, decide_eq_true_iff, lt_minLength, Bool.and_eq_true,
    Bool.not_eq_true']
  constructor
  · rintro ⟨h1, h2⟩
    exact ⟨h1.2, h2⟩
  · rintro ⟨h1, h2⟩
    exact ⟨⟨lt_of_bitAt h2.1, h1⟩, h2⟩

theorem bitsRemoved_bitAt (i : Nat) : bitAt (bitsRemoved s other) i = true ↔
    bitAt s.bits i = true ∧ bitAt other.bits i = true := by
  rw [bitsRemoved, bitAt_map_range, BitVec.getLsbD_and, Bool.and_eq_true, decide_eq_true_iff,
    lt_minLength, Bool.and_eq_true]
  exact ⟨fun h => h.2, fun h => ⟨⟨lt_of_bitAt h.1, lt_of_bitAt h.2⟩, h⟩⟩

theorem differenceModified_iff : differenceModified s other = true ↔
    ¬ Disjoint (members s.bits) (members other.bits) := by
  have hword : ∀ n < minLength s other,
      wordAt (difference s other) n = wordAt s.bits n &&& ~~~wordAt other.bits n := by
    intro n hn
    rw [difference, wordAt_map_range, if_pos hn]
  rw [differenceModified, any_eq_true, Finset.not_disjoint_iff]
  constructor
  · rintro ⟨n, hn, htest⟩
    rw [mem_range] at hn
    rw [bne_iff_ne, hword n hn, word_ne_iff] at htest
    obtain ⟨k, hk, hne⟩ := htest
    rw [BitVec.getLsbD_and, BitVec.getLsbD_not, decide_eq_true hk, Bool.true_and,
      getLsbD_wordAt _ hk, getLsbD_wordAt _ hk] at hne
    refine ⟨64 * n + k, ?_, ?_⟩
    · rw [mem_members]
      by_contra hs
      rw [Bool.not_eq_true] at hs
      exact hne (by rw [hs, Bool.false_and])
    · rw [mem_members]
      by_contra hother
      rw [Bool.not_eq_true] at hother
      exact hne (by rw [hother, Bool.not_false, Bool.and_true])
  · rintro ⟨i, hs, hother⟩
    rw [mem_members] at hs hother
    have hmin : i / 64 < minLength s other := lt_minLength.mpr ⟨lt_of_bitAt hs, lt_of_bitAt hother⟩
    refine ⟨i / 64, mem_range.mpr hmin, ?_⟩
    rw [bne_iff_ne, hword _ hmin, word_ne_iff]
    refine ⟨i % 64, by omega, ?_⟩
    rw [bitAt] at hs hother
    rw [BitVec.getLsbD_and, BitVec.getLsbD_not, hs, hother]
    simp

/-- Unless nothing is removed, every word behind the argument's array is lost. -/
theorem meets_removeAll_iff :
    Meets N s (members s.bits \ members other.bits) (s.removeAll N (some other)) ↔
      Disjoint (members s.bits) (members other.bits) ∨
        ∀ i ∈ members s.bits, i / 64 < other.bits.length := by
  have hmodified := @differenceModified_iff s other
  rw [removeAll]
  split
  · next hmod =>
    replace hmodified := hmodified.mp hmod
    have hafter : ∀ i, bitAt (if (difference s other).all (· == 0#64) then []
        else difference s other) i = true ↔
        i / 64 < other.bits.length ∧ i ∈ members s.bits \ members other.bits := by
      intro i
      rw [bitAt_or_empty, difference_bitAt, Finset.mem_sdiff, mem_members, mem_members,
        Bool.not_eq_true]
    constructor
    · intro h
      right
      intro i hi
      by_contra hlen
      -- the element is kept by the mathematical set, and lost with its word
      have hmem : i ∈ members s.bits \ members other.bits := by
        rw [Finset.mem_sdiff, @mem_members other.bits, bitAt_of_le (by omega)]
        exact ⟨hi, Bool.false_ne_true⟩
      rw [← h.content, mem_members] at hmem
      exact hlen ((hafter i).mp hmem).1
    · intro h
      have hlen := h.resolve_left hmodified
      refine ⟨members_eq_of_bits fun i => ?_, ?_, ?_⟩
      · rw [hafter]
        constructor
        · exact fun h => h.2
        · exact fun h => ⟨hlen i (Finset.mem_sdiff.mp h).1, h⟩
      · simp only [true_iff]
        intro heq
        exact hmodified (Finset.sdiff_eq_self_iff_disjoint.mp heq.symm)
      · apply tells_bits
        · intro i
          rw [bitsRemoved_bitAt, Moved, if_pos rfl, Finset.mem_sdiff, mem_members, mem_members,
            not_and, not_not]
          exact ⟨fun h => ⟨h.1, fun _ => h.2⟩, fun h => ⟨h.1, h.2 h.1⟩⟩
        · intro i h
          rw [Moved, Bool.not_true, if_neg Bool.false_ne_true] at h
          exact h.2 (Finset.mem_sdiff.mp h.1).1
  · next hmod =>
    have hdisj := not_not.mp (mt hmodified.mpr hmod)
    rw [Finset.sdiff_eq_self_iff_disjoint.mpr hdisj]
    exact ⟨fun _ => Or.inl hdisj, fun _ => meets_unchanged⟩

/-! ## `clear`, `size` and `isEmpty` -/

theorem clear_content : members (s.clear N).2.bits = ∅ := rfl

theorem clear_tells : Tells N s.hasListeners (members s.bits) ∅ (s.clear N).1 := by
  apply tells_bits
  · intro i
    rw [Moved, if_pos rfl, mem_members]
    simp
  · intro i h
    rw [Moved, Bool.not_true, if_neg Bool.false_ne_true] at h
    exact Finset.notMem_empty i h.1

/-- Bits are counted word by word. -/
theorem size_eq : s.size = (members s.bits).card := by
  rw [card_members, size, setBits, length_flatMap]
  congr 1
  apply ext_getElem
  · simp
  · intro n h1 h2
    rw [length_map] at h1
    simp only [getElem_map, getElem_range, length_map, bitCount, wordAt_eq_getElem h1]

theorem isEmpty_eq : s.isEmpty = decide (members s.bits = ∅) := by
  rw [Bool.eq_iff_iff, decide_eq_true_iff, isEmpty]
  constructor
  · intro h
    have hemp := fun i => bitAt_or_empty s.bits i
    rw [if_pos h] at hemp
    exact (members_eq_iff.mpr hemp).symm
  · intro h
    rw [all_eq_true]
    intro w hw
    obtain ⟨n, hn, rfl⟩ := getElem_of_mem hw
    rw [beq_iff_eq, ← wordAt_eq_getElem hn, wordAt_eq_zero_iff]
    intro k _
    by_contra hbit
    rw [Bool.not_eq_false, ← mem_members, h] at hbit
    exact Finset.notMem_empty _ hbit

end OpenJfx.Css.BitSet
