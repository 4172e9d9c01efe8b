/-
  OpenJfx.Binding.ListContentBinding

  `ListContentBinding`: a listener that replays the sub-changes of a source list on a bound list.
-/

import OpenJfx.Lib.JavaList
import OpenJfx.Transformation.FilteredList.Representation

namespace OpenJfx.Binding

open OpenJfx.Collections OpenJfx.Transformation List JavaList SubChange Option
open OpenJfx.Collections.ListChangeBuilder (recordedPermutation replayPermutation_eq_some
  recordedPermutation_length)

variable {E : Type}

/-! ## The listeners -/

/-- One round of the loop of both listeners. -/
def mirrorSubChange (remove : Int → Int → List E → Except JavaException (List E))
    (source : List E) (change : SubChange E) (list : List E) : Except JavaException (List E) :=
  if change.wasPermutated then do
    let cleared ← remove change.from_ change.to_ list
    let sub ← subList change.from_ change.to_ source
    addAll change.from_ sub cleared
  else do
    let removed : Except JavaException (List E) :=
      if !change.getRemoved.isEmpty then
        remove change.from_ (change.from_ + change.getRemovedSize) list
      else .ok list
    let kept ← removed
    if change.wasAdded then do
      let sub ← subList change.from_ change.to_ source
      addAll change.from_ sub kept
    else .ok kept

/-- `while (change.next()) …`. -/
def mirrorChange (remove : Int → Int → List E → Except JavaException (List E))
    (source : List E) (changes : List (SubChange E)) (list : List E) :
    Except JavaException (List E) :=
  changes.foldlM (fun list change => mirrorSubChange remove source change list) list

/-- Its weak list, and whether it still listens. -/
structure ListContentBinding (E : Type) where
  listRef : Option (List E)
  listening : Bool
  deriving DecidableEq

namespace ListContentBinding

/-- `ContentBinding.bind(list1, list2)`. -/
def bind (list2 : List E) : ListContentBinding E := ⟨some list2, true⟩

/-- The listener; it removes itself when the list is gone. -/
def onChanged (source : List E) (changes : List (SubChange E)) (binding : ListContentBinding E) :
    Except JavaException (ListContentBinding E) :=
  match binding.listRef with
  | none => .ok { binding with listening := false }
  | some list =>
    (mirrorChange clearSubList source changes list).map fun list =>
      { binding with listRef := some list }

end ListContentBinding

/-- `BidirectionalContentBinding.ListContentBinding`. -/
structure BidirectionalListContentBinding (E : Type) where
  propertyRef1 : Option (List E)
  propertyRef2 : Option (List E)
  updating : Bool
  listening : Bool
  deriving DecidableEq

namespace BidirectionalListContentBinding

/-- `BidirectionalContentBinding.bind(list1, list2)`. -/
def bind (list2 : List E) : BidirectionalListContentBinding E :=
  ⟨some list2, some list2, false, true⟩

/-- The first list has changed when `isList1`. -/
def onChanged (isList1 : Bool) (changes : List (SubChange E))
    (binding : BidirectionalListContentBinding E) :
    Except JavaException (BidirectionalListContentBinding E) :=
  if binding.updating then .ok binding
  else
    match binding.propertyRef1, binding.propertyRef2 with
    | some list1, some list2 =>
      if isList1 then
        (mirrorChange removeEach list1 changes list2).map fun dest =>
          { binding with propertyRef2 := some dest }
      else
        (mirrorChange removeEach list2 changes list1).map fun dest =>
          { binding with propertyRef1 := some dest }
    | _, _ => .ok { binding with listening := false }

end BidirectionalListContentBinding

/-! ## One sub-change -/

variable {remove : Int → Int → List E → Except JavaException (List E)}

theorem mirrorSubChange_addRemove (hremove : JavaList.Removal remove) {c : SubChange E}
    (hc : Plain c) {X R N X0 added S : List E} (hfrom : c.from_ = X.length)
    (hR : R.length = c.getRemoved.length) (hto : c.to_ = c.from_ + added.length)
    (hX0 : X0.length = X.length) :
    mirrorSubChange remove (X0 ++ added ++ S) c (X ++ R ++ N) = .ok (X ++ added ++ N) := by
  have hperm : c.wasPermutated = false := by rw [wasPermutated, hc.1]; rfl
  -- the removed elements
  have hkept : (if (!c.getRemoved.isEmpty) = true then
      remove c.from_ (c.from_ + c.getRemovedSize) (X ++ R ++ N) else .ok (X ++ R ++ N)) =
        (.ok (X ++ N) : Except JavaException (List E)) := by
    by_cases hemp : c.getRemoved = []
    · have hnil : R = [] := length_eq_zero_iff.mp (by rw [hR, hemp]; rfl)
      rw [if_neg (by simp [hemp]), hnil, append_nil]
    · have hsz : c.from_ + c.getRemovedSize = X.length + R.length := by
        rw [hfrom, getRemovedSize, hR]
      rw [if_pos (by simpa using hemp), hsz, hfrom]
      exact hremove X R N
  rw [mirrorSubChange, if_neg (by simp [hperm])]
  simp only [hkept, bind, Except.bind]
  -- the added ones
  by_cases hadded : added = []
  · have hwas : c.wasAdded = false := by
      rw [wasAdded, hto, hadded]
      simp
    rw [if_neg (by simp [hwas]), hadded, append_nil]
  · have hpos : 0 < added.length := length_pos_iff.mpr hadded
    have hwas : c.wasAdded = true := by
      rw [wasAdded, hperm, hc.2]
      simp
      omega
    have hsub : subList c.from_ c.to_ (X0 ++ added ++ S) = .ok added := by
      rw [hto, hfrom, ← hX0]
      exact subList_eq_ok X0 added S
    rw [if_pos hwas, hsub]
    show addAll c.from_ added (X ++ N) = _
    rw [hfrom]
    exact addAll_eq_ok X added N

variable {c : SubChange E}

theorem mirrorSubChange_update (hperm : c.perm = []) (hupd : c.updated = true)
    (hrem : c.getRemoved = []) (source list : List E) :
    mirrorSubChange remove source c list = .ok list := by
  have hp : c.wasPermutated = false := by rw [wasPermutated, hperm]; rfl
  have ha : c.wasAdded = false := by rw [wasAdded, hupd]; simp
  rw [mirrorSubChange, if_neg (by simp [hp])]
  simp only [hrem, isEmpty_nil, Bool.not_true, Bool.false_eq_true, if_false, bind,
    Except.bind, ha]

theorem mirrorSubChange_permutation (hremove : JavaList.Removal remove)
    (hc : c.wasPermutated = true) {X Y Z X0 Y0 Z0 : List E} (hfrom : c.from_ = X.length)
    (hto : c.to_ = X.length + Y.length) (hX0 : X0.length = X.length)
    (hY0 : Y0.length = Y.length) :
    mirrorSubChange remove (X0 ++ Y0 ++ Z0) c (X ++ Y ++ Z) = .ok (X ++ Y0 ++ Z) := by
  have hsub : subList c.from_ c.to_ (X0 ++ Y0 ++ Z0) = .ok Y0 := by
    rw [hfrom, hto, ← hX0, ← hY0]
    exact subList_eq_ok X0 Y0 Z0
  have hclear : remove c.from_ c.to_ (X ++ Y ++ Z) = .ok (X ++ Z) := by
    rw [hfrom, hto]
    exact hremove X Y Z
  rw [mirrorSubChange, if_pos hc, hclear]
  simp only [bind, Except.bind, hsub]
  rw [hfrom]
  exact addAll_eq_ok X Y0 Z

theorem mirrorSubChange_permutation_error (hremove : JavaList.Removal remove) {c : SubChange E}
    (hc : c.wasPermutated = true) {X Y Z source : List E} (hfrom : c.from_ = X.length)
    (hto : c.to_ = X.length + Y.length) (hsource : source.length < c.to_) :
    mirrorSubChange remove source c (X ++ Y ++ Z) = .error .indexOutOfBounds := by
  have hclear : remove c.from_ c.to_ (X ++ Y ++ Z) = .ok (X ++ Z) := by
    rw [hfrom, hto]
    exact hremove X Y Z
  rw [mirrorSubChange, if_pos hc, hclear]
  simp only [bind, Except.bind, subList_eq_error hsource]

/-! ## The add/remove sub-changes -/

/-- The bound list after the add/remove sub-changes: an added position holds the new element, a kept
    one what stood at its old index (`W` behind, `U` in the source). -/
theorem mirrorChange_addRemoves (hremove : JavaList.Removal remove) {cs : List (SubChange E)}
    {A B U W M : List E} {off : Int} (h : Tracks W.length cs A B) (hplain : ∀ c ∈ cs, Plain c)
    (hU : U.length = W.length) (hM : M.length = A.length) :
    ∃ M', mirrorChange remove (U ++ B) cs (W ++ M) = .ok (W ++ M') ∧ M'.length = B.length ∧
      ∀ (j : Nat) (o : Int), (origins W.length off cs B.length)[j]? = some o →
        (o = -1 ∧ M'[j]? = B[j]?) ∨
        ∃ i : Nat, o = W.length + off + i ∧ i < A.length ∧ M'[j]? = M[i]? ∧ B[j]? = A[i]? := by
  induction cs generalizing A B U W M off with
  | nil =>
    rw [Tracks] at h
    subst h
    refine ⟨M, rfl, hM, ?_⟩
    intro j o ho
    rw [origins, segment_getElem?_eq_some] at ho
    obtain ⟨hj, rfl⟩ := ho
    exact .inr ⟨j, by omega, hj, rfl, rfl⟩
  | cons c cs ih =>
    obtain ⟨kept, added, A', B', hfrom, hto, rfl, rfl, h'⟩ := h
    -- the bound list, split as the old list is
    simp only [length_append] at hM
    obtain ⟨K, R, N, rfl, hK, hR⟩ := ListAt.exists_split M (n := kept.length)
      (m := c.getRemoved.length) (by omega)
    have hN : N.length = A'.length := by
      simp only [length_append] at hM
      omega
    have hstep : mirrorSubChange remove (U ++ (kept ++ added ++ B')) c (W ++ (K ++ R ++ N)) =
        .ok (W ++ K ++ added ++ N) := by
      have hone := @mirrorSubChange_addRemove _ _ hremove _ (hplain c mem_cons_self) (W ++ K) R
          N (U ++ kept) _ B' (by rw [hfrom, length_append, hK]; omega) hR hto
          (by rw [length_append, length_append, hU, hK])
      simpa only [append_assoc] using hone
    have hlen : ((W ++ K ++ added).length : Int) = c.to_ := by
      simp only [length_append, hK]
      omega
    obtain ⟨M', hrun, hM', horigin⟩ := ih (W := W ++ K ++ added) (U := U ++ kept ++ added)
      (M := N) (A := A') (B := B') (by rw [hlen]; exact h')
      (fun d hd => hplain d (.tail _ hd))
      (by simp only [length_append, hU, hK]) hN
    refine ⟨K ++ added ++ M', ?_, ?_, ?_⟩
    · have hrest : mirrorChange remove (U ++ (kept ++ added ++ B')) cs (W ++ K ++ added ++ N) =
          .ok (W ++ (K ++ added ++ M')) := by
        simpa only [append_assoc] using hrun
      rw [mirrorChange, foldlM_cons, hstep]
      exact hrest
    · simp only [length_append, hK, hM']
    · intro j o ho
      obtain ⟨hn1, hn2, hn3, hn4⟩ := pieces_length hfrom hto
      rw [origins, hn1, hn2, hn4] at ho
      by_cases hj : j < kept.length
      · -- before the sub-change
        rw [getElem?_append_left (by rw [segment_length]; exact hj),
          segment_getElem?_eq_some] at ho
        obtain ⟨-, rfl⟩ := ho
        refine .inr ⟨j, by omega, by simp only [length_append]; omega, ?_, ?_⟩
        · rw [append_assoc, append_assoc, getElem?_append_left (by omega),
            getElem?_append_left (by omega)]
        · rw [append_assoc, append_assoc, getElem?_append_left hj, getElem?_append_left hj]
      rw [getElem?_append_right (by rw [segment_length]; omega), segment_length] at ho
      by_cases hj' : j < kept.length + added.length
      · -- an added element
        rw [getElem?_append_left (by rw [length_replicate]; omega),
          getElem?_replicate, if_pos (by omega)] at ho
        refine .inl ⟨(some.inj ho).symm, ?_⟩
        have hread : ∀ {X Z : List E}, X.length = kept.length →
            (X ++ added ++ Z)[j]? = added[j - kept.length]? := by
          intro X Z hX
          rw [append_assoc, getElem?_append_right (by omega), hX,
            getElem?_append_left (by omega)]
        rw [hread hK, hread rfl]
      · -- behind the sub-change
        rw [getElem?_append_right (by rw [length_replicate]; omega),
          length_replicate, ← hlen] at ho
        have hjump : ∀ {X Y Z : List E}, X.length = kept.length → Y.length = added.length →
            (X ++ Y ++ Z)[j]? = Z[j - kept.length - added.length]? := by
          intro X Y Z hX hY
          rw [append_assoc, getElem?_append_right (by omega),
            getElem?_append_right (by omega), hX, hY]
        rcases horigin _ o ho with ⟨ho', heq⟩ | ⟨i, ho', hi, hMi, hBi⟩
        · exact .inl ⟨ho', by rw [hjump hK rfl, hjump rfl rfl, heq]⟩
        · refine .inr ⟨kept.length + c.getRemoved.length + i, ?_, ?_, ?_, ?_⟩
          · rw [ho', hlen, nextOffset, hto, hfrom]
            push_cast
            omega
          · simp only [length_append]
            omega
          · rw [hjump hK rfl, hMi, append_assoc, getElem?_append_right (by omega),
              getElem?_append_right (by omega), hK, hR]
            congr 1
            omega
          · rw [hjump rfl rfl, hBi, append_assoc, getElem?_append_right (by omega),
              getElem?_append_right (by omega)]
            congr 1
            omega

/-! ## A whole change -/

/-- There is no permutation; or its range ends inside `new`, and every element of it that is kept
    stands in `new` also at the index it had before (`o`), not only at `j`. -/
def PermutedInPlace (ch : SourceChange E) (new : List E) : Prop :=
  ∀ c ∈ ch.permutation, c.to_ ≤ new.length ∧
    ∀ (j : Nat) (o : Int), (origins 0 0 ch.addRemoves new.length)[j]? = some o →
      c.from_ ≤ o → o < c.to_ → new[o.toNat]? = new[j]?

theorem mirrorChange_append (source : List E) (cs ds : List (SubChange E)) (list : List E) :
    mirrorChange remove source (cs ++ ds) list =
      (mirrorChange remove source cs list).bind (mirrorChange remove source ds) :=
  foldlM_append

theorem mirrorChange_updates {us : List (SubChange E)}
    (hus : ∀ c ∈ us, c.perm = [] ∧ c.updated = true) (hrem : ∀ c ∈ us, c.getRemoved = [])
    (source list : List E) : mirrorChange remove source us list = .ok list := by
  induction us with
  | nil => rfl
  | cons c us ih =>
    have hc := hus c mem_cons_self
    rw [mirrorChange, foldlM_cons, mirrorSubChange_update hc.1 hc.2 (hrem c mem_cons_self)]
    exact ih (fun d hd => hus d (.tail _ hd))
      (fun d hd => hrem d (.tail _ hd))

theorem getElem?_inside {X X' : List E} (hX : X.length = X'.length) (Y Z Z' : List E) {i : Nat}
    (h1 : X.length ≤ i) (h2 : i < X.length + Y.length) :
    (X ++ Y ++ Z)[i]? = (X' ++ Y ++ Z')[i]? := by
  have hread : ∀ V V' : List E, V.length = X.length → (V ++ Y ++ V')[i]? = Y[i - X.length]? := by
    intro V V' hV
    rw [append_assoc, getElem?_append_right (by omega), hV,
      getElem?_append_left (by omega)]
  rw [hread X Z rfl, hread X' Z' hX.symm]

theorem getElem?_outside {Y Y' : List E} (hY : Y.length = Y'.length) (X Z : List E) {i : Nat}
    (h : ¬(X.length ≤ i ∧ i < X.length + Y.length)) :
    (X ++ Y ++ Z)[i]? = (X ++ Y' ++ Z)[i]? := by
  rw [append_assoc, append_assoc]
  by_cases h1 : i < X.length
  · rw [getElem?_append_left h1, getElem?_append_left h1]
  · rw [getElem?_append_right (by omega), getElem?_append_right (by omega),
      getElem?_append_right (by omega), getElem?_append_right (by omega), hY]

section Change

variable [DecidableEq E] {ch : SourceChange E} {old new : List E}

section

variable (hremove : JavaList.Removal remove) (h : ch.Describes old new)
  (hupdates : ∀ c ∈ ch.updates, c.getRemoved = [])
include hremove h hupdates

theorem mirrorChange_noPermutation (hnone : ch.permutation = none) :
    mirrorChange remove new ch.toList old = .ok new := by
  obtain ⟨P, hP, hreplay⟩ := h.replays
  have htracks := tracks_of_replay hreplay h.ascending
  obtain rfl : old = P := by
    rw [hnone] at hP
    exact some.inj hP
  obtain ⟨M', hrun, hlen, horigin⟩ := mirrorChange_addRemoves (W := []) (U := [])
    hremove htracks h.plain rfl (M := old) rfl
  have hM' : M' = new := by
    apply ext_getElem? fun j => ?_
    by_cases hj : j < new.length
    · have hlo : j < (origins 0 0 ch.addRemoves new.length).length := by
        rw [(htracks.fillSlots_eq (by omega)).1]
        exact hj
      rcases horigin j _ (getElem?_eq_getElem hlo) with ⟨-, heq⟩ | ⟨i, -, -, hMi, hBi⟩
      · exact heq
      · rw [hMi, hBi]
    · rw [getElem?_eq_none (by omega), getElem?_eq_none (by omega)]
  have hrun' : mirrorChange remove new ch.addRemoves old = .ok new := by
    rw [← hM']
    simpa [hM'] using hrun
  rw [SourceChange.toList, hnone, mirrorChange_append, mirrorChange_append]
  show ((mirrorChange remove new ch.addRemoves old).bind _) = _
  rw [hrun']
  exact mirrorChange_updates h.updated hupdates new new

theorem mirrorChange_permutation_iff (hsome : ch.permutation = some c) :
    mirrorChange remove new ch.toList old = .ok new ↔ PermutedInPlace ch new := by
  obtain ⟨P, hP, hreplay⟩ := h.replays
  have htracks := tracks_of_replay hreplay h.ascending
  have hPlen : P.length = old.length := recordedPermutation_length hP
  have hperm : c.wasPermutated = true := h.permutated c hsome
  rw [hsome] at hP
  obtain ⟨⟨h0, hto, hle, hisperm⟩, hPeq⟩ := replayPermutation_eq_some.mp hP
  obtain ⟨X, Y, Z, hold, hX, hY⟩ := ListAt.exists_split old (n := c.from_.toNat)
    (m := (c.to_ - c.from_).toNat) (by omega)
  have hfrom' : c.from_ = X.length := by omega
  have hto' : c.to_ = X.length + Y.length := by omega
  have hlist : mirrorChange remove new ch.toList old =
      ((mirrorSubChange remove new c old).bind (mirrorChange remove new ch.addRemoves)).bind
        (mirrorChange remove new ch.updates) := by
    rw [SourceChange.toList, hsome, mirrorChange_append, mirrorChange_append]
    congr 2
    exact bind_pure (mirrorSubChange remove new c old)
  have hplace : PermutedInPlace ch new ↔ c.to_ ≤ new.length ∧
      ∀ (j : Nat) (o : Int), (origins 0 0 ch.addRemoves new.length)[j]? = some o →
        c.from_ ≤ o → o < c.to_ → new[o.toNat]? = new[j]? := by
    rw [PermutedInPlace, hsome]
    simp
  rw [hlist, hplace]
  by_cases hlen : c.to_ ≤ new.length
  case neg =>
    -- the range ends behind the final content
    have herr := @mirrorSubChange_permutation_error _ _ hremove _ hperm _ _ Z new hfrom' hto'
        (by omega)
    rw [hold, herr]
    simp [Except.bind, hlen]
  obtain ⟨X0, Y0, Z0, hnew, hX0, hY0⟩ := ListAt.exists_split new (n := c.from_.toNat)
    (m := (c.to_ - c.from_).toNat) (by omega)
  have hstep : mirrorSubChange remove new c old = .ok (X ++ Y0 ++ Z) := by
    rw [hold, hnew]
    exact mirrorSubChange_permutation hremove hperm hfrom' hto' (by omega) (by omega)
  have holdlen := congrArg List.length hold
  simp only [length_append] at holdlen
  obtain ⟨M', hrun, hM'len, horigin⟩ := @mirrorChange_addRemoves _ _ hremove _ _ _ [] []
    (X ++ Y0 ++ Z) 0 htracks h.plain rfl (by simp only [length_append]; omega)
  simp only [nil_append] at hrun
  have hresult : ((mirrorSubChange remove new c old).bind
      (mirrorChange remove new ch.addRemoves)).bind (mirrorChange remove new ch.updates) =
        .ok M' := by
    rw [hstep]
    show (mirrorChange remove new ch.addRemoves (X ++ Y0 ++ Z)).bind _ = _
    rw [hrun]
    exact mirrorChange_updates h.updated hupdates new M'
  -- what the permutation has put into the bound list
  have hinside : ∀ i : Nat, c.from_ ≤ i → (i : Int) < c.to_ → (X ++ Y0 ++ Z)[i]? = new[i]? := by
    intro i h1 h2
    rw [hnew]
    exact getElem?_inside (by omega) Y0 Z Z0 (by omega) (by omega)
  have houtside : ∀ i : Nat, i < P.length → ¬(c.from_ ≤ i ∧ (i : Int) < c.to_) →
      (X ++ Y0 ++ Z)[i]? = P[i]? := by
    intro i hi hnot
    have hsource : source c.from_ c.perm i = i := if_neg (by rw [← hto]; exact hnot)
    rw [← hPeq, hisperm.permuted_getElem? h0 (by omega) (by omega), hsource, Int.toNat_natCast,
      hold]
    exact getElem?_outside (by omega) X Z (by omega)
  rw [hresult]
  constructor
  · intro hok
    obtain rfl : M' = new := Except.ok.inj hok
    refine ⟨hlen, ?_⟩
    intro j o ho h1 h2
    rcases horigin j o (by simpa using ho) with ⟨rfl, -⟩ | ⟨i, hoi, -, hMi, -⟩
    · omega
    · have hoi' : o = (i : Int) := by simpa using hoi
      rw [hoi', Int.toNat_natCast, hMi]
      exact (hinside i (by omega) (by omega)).symm
  · rintro ⟨-, hplaced⟩
    congr 1
    apply ext_getElem? fun j => ?_
    by_cases hj : j < new.length
    · have hlo : j < (origins 0 0 ch.addRemoves new.length).length := by
        rw [(htracks.fillSlots_eq (by omega)).1]
        exact hj
      have ho := getElem?_eq_getElem hlo
      rcases horigin j _ ho with ⟨-, heq⟩ | ⟨i, hoi, hi, hMi, hBi⟩
      · exact heq
      have hoi' : (origins 0 0 ch.addRemoves new.length)[j] = (i : Int) := by simpa using hoi
      rw [hoi'] at ho
      by_cases hin : c.from_ ≤ i ∧ (i : Int) < c.to_
      · have := hplaced j i ho hin.1 hin.2
        rw [Int.toNat_natCast] at this
        rw [hMi, hinside i hin.1 hin.2, this]
      · rw [hMi, houtside i hi hin, hBi]
    · rw [getElem?_eq_none (by omega), getElem?_eq_none (by omega)]

theorem mirrorChange_iff :
    mirrorChange remove new ch.toList old = .ok new ↔ PermutedInPlace ch new := by
  cases hc : ch.permutation with
  | none =>
    refine ⟨fun _ c hmem => ?_, fun _ => mirrorChange_noPermutation hremove h hupdates hc⟩
    rw [hc] at hmem
    exact absurd hmem (by simp)
  | some c => exact mirrorChange_permutation_iff hremove h hupdates hc

end

/-- The bound list gets the content of the source, and nothing is thrown, exactly when the permuted
    elements can be read off the final content. -/
theorem onChanged_mirrors_iff (h : ch.Describes old new)
    (hupdates : ∀ c ∈ ch.updates, c.getRemoved = []) :
    (ListContentBinding.onChanged new ch.toList (.bind old) = .ok (.bind new) ↔
      PermutedInPlace ch new) ∧
    (∀ isList1, BidirectionalListContentBinding.onChanged isList1 ch.toList
        ⟨some (if isList1 then new else old), some (if isList1 then old else new), false, true⟩ =
          .ok (.bind new) ↔ PermutedInPlace ch new) := by
  constructor
  · rw [← mirrorChange_iff clearSubList_removal h hupdates]
    simp only [ListContentBinding.onChanged, ListContentBinding.bind]
    cases mirrorChange clearSubList new ch.toList old with
    | error e | ok M => simp [Except.map]
  · intro isList1
    rw [← mirrorChange_iff removeEach_removal h hupdates]
    cases isList1 with
    | true =>
      simp only [BidirectionalListContentBinding.onChanged, BidirectionalListContentBinding.bind,
        if_true, Bool.false_eq_true, if_false]
      cases mirrorChange removeEach new ch.toList old with
      | error e | ok M => simp [Except.map]
    | false =>
      simp only [BidirectionalListContentBinding.onChanged, BidirectionalListContentBinding.bind,
        Bool.false_eq_true, if_false]
      cases mirrorChange removeEach new ch.toList old with
      | error e | ok M => simp [Except.map]

end Change

/-- `[1, 2, 3]` becomes `[2, 1]`. -/
def swapThenRemove : SourceChange Nat :=
  ⟨some ⟨0, 2, none, [1, 0], false⟩, [⟨2, 2, some [3], [], false⟩], []⟩

theorem describes_swapThenRemove : swapThenRemove.Describes [1, 2, 3] [2, 1] :=
  ⟨by decide, by unfold Plain; decide, by decide, by decide, by decide,
    ⟨[2, 1, 3], by decide, by decide⟩⟩

theorem onChanged_mirrors_iff_swapThenRemove :
    swapThenRemove.Describes [1, 2, 3] [2, 1] ∧ PermutedInPlace swapThenRemove [2, 1] :=
  ⟨describes_swapThenRemove,
    (onChanged_mirrors_iff describes_swapThenRemove (by decide)).1.mp (by decide)⟩

/-- `[1, 2]` becomes `[0, 2, 1]`. -/
def swapThenAdd : SourceChange Nat :=
  ⟨some ⟨0, 2, none, [1, 0], false⟩, [⟨0, 1, none, [], false⟩], []⟩

/-- The range is copied from `[0, 2, 1]` and `0` added once more: the result is `[0, 0, 2]`. -/
theorem onChanged_copies_final_content :
    ¬∀ (ch : SourceChange Nat) (old new : List Nat), ch.Describes old new →
      (∀ c ∈ ch.updates, c.getRemoved = []) →
        ListContentBinding.onChanged new ch.toList (.bind old) = .ok (.bind new) := by
  intro hall
  have hdesc : swapThenAdd.Describes [1, 2] [0, 2, 1] :=
    ⟨by decide, by unfold Plain; decide, by decide, by decide, by decide,
      ⟨[2, 1], by decide, by decide⟩⟩
  exact absurd (hall swapThenAdd [1, 2] [0, 2, 1] hdesc (by decide)) (by decide)

end OpenJfx.Binding
