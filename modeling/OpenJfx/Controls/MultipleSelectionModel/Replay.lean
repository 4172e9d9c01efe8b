/-
  OpenJfx.Controls.MultipleSelectionModel.Replay

  Replaying a change of the selected indices on the old list: what was removed is deleted at
  the reported position, and the reported range of the new list is inserted there.

  A range of added rows replays exactly when it starts at the first added row and no row that
  was selected before lies between two added ones.
-/

import OpenJfx.Controls.MultipleSelectionModel.SelectedIndices

namespace OpenJfx.Controls

open List Option

/-! ## Replaying changes -/

/-- Removed at `from_`, and `[from_, to_)` inserted. -/
def IndexSubChange.replay (final : List Int) (c : IndexSubChange) (cur : List Int) :
    Option (List Int) :=
  if 0 ≤ c.from_ ∧ c.from_ ≤ cur.length ∧ c.from_ ≤ c.to_ ∧ c.to_ ≤ final.length ∧
      (cur.drop c.from_.toNat).take c.removed.length = c.removed then
    some (cur.take c.from_.toNat ++ ((final.drop c.from_.toNat).take (c.to_ - c.from_).toNat ++
      cur.drop (c.from_.toNat + c.removed.length)))
  else none

/-- The sub-changes in order.  A permutation neither adds nor removes anything. -/
def IndexChange.replay (final : List Int) (c : IndexChange) (cur : List Int) : Option (List Int) :=
  match c with
  | .addRemove subChanges => subChanges.foldlM (fun cur sub => sub.replay final cur) cur
  | .permutation _ _ _ => none

/-- None if a change does not fit. -/
def replayChanges (final : List Int) (changes : List IndexChange) (cur : List Int) :
    Option (List Int) :=
  changes.foldlM (fun cur c => c.replay final cur) cur

/-- An ascending list of rows, as the view shows it. -/
def indexList (rows : List Nat) : List Int := rows.map Int.ofNat

theorem replay_clear (final L : List Int) (c : IndexSubChange)
    (hc : c = ⟨0, 0, L⟩) : c.replay final L = some [] := by
  subst hc
  simp [IndexSubChange.replay]

theorem replay_nothing (final L : List Int) : (⟨0, 0, []⟩ : IndexSubChange).replay final L = some L := by
  simp [IndexSubChange.replay]

section Insert

variable {old new A : List Nat}

theorem indexList_inj {L M : List Nat} : indexList L = indexList M ↔ L = M :=
  (map_injective_iff.2 fun _ _ h => Int.ofNat.inj h).eq_iff

/-- What a range of the new list leaves, if it holds exactly the added rows. -/
theorem take_drop_of_range (hnew : new.Nodup) (hold : old = new.filter fun x => x ∉ A) {F : Nat}
    (hF : (new.drop F).take A.length = A) :
    old.take F = new.take F ∧ old.drop F = new.drop (F + A.length) ∨ A = [] := by
  by_cases hne : A = []
  · exact .inr hne
  refine .inl ?_
  have hlt : F < new.length := by
    by_contra hge
    rw [drop_eq_nil_of_le (by omega)] at hF
    exact hne (by simpa using hF.symm)
  have hspl : new = new.take F ++ (A ++ new.drop (F + A.length)) := by
    conv_lhs => rw [← take_append_drop F new]
    congr 1
    conv_lhs => rw [← take_append_drop A.length (new.drop F)]
    rw [hF, drop_drop]
  have hdisj := hnew
  rw [hspl, nodup_append, nodup_append] at hdisj
  obtain ⟨-, ⟨-, -, hright⟩, hleft⟩ := hdisj
  have hold' : old = new.take F ++ new.drop (F + A.length) := by
    have h1 : (new.take F).filter (fun x => decide (x ∉ A)) = new.take F := by
      refine filter_eq_self.2 fun x hx => ?_
      exact decide_eq_true fun hxA => hleft x hx x (mem_append_left _ hxA) rfl
    have h2 : A.filter (fun x => decide (x ∉ A)) = [] := by
      refine filter_eq_nil_iff.2 fun x hx => ?_
      simpa using hx
    have h3 : (new.drop (F + A.length)).filter (fun x => decide (x ∉ A)) =
        new.drop (F + A.length) := by
      refine filter_eq_self.2 fun x hx => ?_
      exact decide_eq_true fun hxA => hright x hxA x hx rfl
    rw [hold, hspl, filter_append, filter_append, ← hspl, h1, h2, h3, nil_append]
  have hlen : (new.take F).length = F := length_take_of_le (by omega)
  rw [hold', take_left' hlen, drop_left' hlen]
  exact ⟨rfl, rfl⟩

section

variable (hnew : new.Pairwise (· < ·)) (hA : A.Pairwise (· < ·)) (hsub : ∀ x ∈ A, x ∈ new)
  (hold : old = new.filter fun x => x ∉ A)
include hnew hA hsub hold

theorem replay_insert_iff (hne : A ≠ []) (f : Int) :
    (⟨f, f + A.length, []⟩ : IndexSubChange).replay (indexList new) (indexList old) =
        some (indexList new) ↔
      0 ≤ f ∧ (new.drop f.toNat).take A.length = A := by
  have hnd : new.Nodup := hnew.imp fun h => Nat.ne_of_lt h
  have hnodupA : A.Nodup := hA.imp fun h => Nat.ne_of_lt h
  have hlength : old.length + A.length = new.length := by
    have hperm : (new.filter fun x => x ∈ A).Perm A := by
      rw [perm_ext_iff_of_nodup (hnd.filter _) hnodupA]
      intro x
      simp only [mem_filter, decide_eq_true_eq]
      exact ⟨fun h => h.2, fun h => ⟨hsub x h, h⟩⟩
    have hspl := length_eq_length_filter_add (l := new) fun x => decide (x ∈ A)
    rw [hperm.length_eq] at hspl
    simp only [hold, decide_not]
    omega
  have hcnt : (f + A.length - f).toNat = A.length := by omega
  rw [IndexSubChange.replay]
  simp only [indexList, length_map, length_nil, take_zero, Nat.add_zero, hcnt,
    ← map_take, ← map_drop, ← map_append]
  constructor
  · intro h
    split at h
    · next hcond =>
      have heq := indexList_inj.1 (some.inj h)
      have hle : f.toNat + A.length ≤ new.length := by omega
      refine ⟨hcond.1, ?_⟩
      -- the inserted rows are not old ones, and there are as many as added ones
      set S := (new.drop f.toNat).take A.length with hS
      have hSlength : S.length = A.length := by
        rw [hS, length_take, length_drop]
        omega
      have hSnew : S.Sublist new := (take_sublist _ _).trans (drop_sublist _ _)
      have hSA : ∀ x ∈ S, x ∈ A := by
        intro x hx
        by_contra hxA
        have hxold : x ∈ old := by
          rw [hold, mem_filter]
          exact ⟨hSnew.subset hx, decide_eq_true hxA⟩
        have hdisj := hnd
        rw [← heq, nodup_append, nodup_append] at hdisj
        obtain ⟨-, ⟨-, -, hright⟩, hleft⟩ := hdisj
        rw [← take_append_drop f.toNat old, mem_append] at hxold
        rcases hxold with hxold | hxold
        · exact hleft x hxold x (mem_append_left _ hx) rfl
        · exact hright x hx x hxold rfl
      have hSsorted : S.Pairwise (· < ·) := hnew.sublist hSnew
      have hSnodup : S.Nodup := hnd.sublist hSnew
      have hperm : S.Perm A :=
        (subperm_of_subset hSnodup hSA).perm_of_length_le (Nat.le_of_eq hSlength.symm)
      exact hperm.eq_of_pairwise (fun _ _ _ _ h h' => absurd h (Nat.lt_asymm h')) hSsorted hA
    · cases h
  · rintro ⟨h0, hF⟩
    obtain ⟨htake, hdrop⟩ := (take_drop_of_range hnd hold hF).resolve_right hne
    have hle : f.toNat + A.length ≤ new.length := by
      have hlen := congrArg List.length hF
      rw [length_take, length_drop] at hlen
      have hpos : 0 < A.length := length_pos_iff.2 hne
      omega
    rw [if_pos ⟨h0, by omega, by omega, by omega, rfl⟩, htake, hdrop, hF]
    have hspl : new.take f.toNat ++ (A ++ new.drop (f.toNat + A.length)) = new := by
      conv_rhs => rw [← take_append_drop f.toNat new]
      congr 1
      conv_rhs => rw [← take_append_drop A.length (new.drop f.toNat)]
      rw [hF, drop_drop]
    rw [hspl]

theorem range_iff {a : Nat} {A' : List Nat}
    (hcons : A = a :: A') {k : Nat} (hk : new[k]? = some a) :
    (new.drop k).take A.length = A ↔ ∀ x ∈ A, ∀ y ∈ A, ∀ q ∈ old, ¬ (x < q ∧ q < y) := by
  have hmemold : ∀ q, q ∈ old ↔ q ∈ new ∧ q ∉ A := fun q => by
    rw [hold, mem_filter, decide_eq_true_eq]
  have ha : a ∈ A := by rw [hcons]; exact .head _
  constructor
  · rintro hrng x hx y hy q hq ⟨hxq, hqy⟩
    obtain ⟨hqnew, hqA⟩ := (hmemold q).1 hq
    have hspl : new = new.take k ++ (A ++ (new.drop k).drop A.length) := by
      conv_lhs => rw [← take_append_drop k new]
      congr 1
      conv_lhs => rw [← take_append_drop A.length (new.drop k)]
      rw [hrng]
    have hsort := hnew
    rw [hspl, pairwise_append, pairwise_append] at hsort
    obtain ⟨-, ⟨-, -, hright⟩, hleft⟩ := hsort
    rw [hspl, mem_append, mem_append] at hqnew
    rcases hqnew with hqnew | hqnew | hqnew
    · have hlt := hleft q hqnew x (mem_append_left _ hx)
      omega
    · exact hqA hqnew
    · have hlt := hright y hy q hqnew
      omega
  · intro hgap
    -- the rows of the new list from the first added one to the last added one
    set D := new.drop k with hD
    have hDsorted : D.Pairwise (· < ·) := hnew.sublist (drop_sublist _ _)
    have hne : A ≠ [] := ne_nil_of_mem ha
    have hlast : ∀ x ∈ A, x ≤ A.getLast hne := by
      intro x hx
      rw [← dropLast_append_getLast hne, mem_append, mem_singleton] at hx
      have hsort := hA
      rw [← dropLast_append_getLast hne, pairwise_append] at hsort
      rcases hx with hx | hx
      · exact Nat.le_of_lt (hsort.2.2 x hx _ (mem_singleton.2 rfl))
      · exact Nat.le_of_eq hx
    have hDcons : D = a :: new.drop (k + 1) := by
      obtain ⟨hlt, hget⟩ := List.getElem?_eq_some_iff.1 hk
      rw [hD, drop_eq_getElem_cons hlt, hget]
    have hDge : ∀ x ∈ D, a ≤ x := by
      intro x hx
      rw [hDcons] at hx hDsorted
      rcases mem_cons.1 hx with rfl | hx
      · exact Nat.le_refl _
      · exact Nat.le_of_lt ((pairwise_cons.1 hDsorted).1 x hx)
    have hAge : ∀ x ∈ A, a ≤ x := by
      intro x hx
      rw [hcons] at hx hA
      rcases mem_cons.1 hx with rfl | hx
      · exact Nat.le_refl _
      · exact Nat.le_of_lt ((pairwise_cons.1 hA).1 x hx)
    have hAD : ∀ x ∈ A, x ∈ D := by
      intro x hx
      have hxnew := hsub x hx
      rw [← take_append_drop k new, mem_append] at hxnew
      rcases hxnew with hxnew | hxnew
      · have hsort := hnew
        rw [← take_append_drop k new, pairwise_append] at hsort
        have hlt := hsort.2.2 x hxnew a (by rw [← hD, hDcons]; exact .head _)
        have hle := hAge x hx
        omega
      · exact hxnew
    have hfilt : D.filter (fun x => x < A.getLast hne + 1) = A := by
      have hperm : (D.filter fun x => x < A.getLast hne + 1).Perm A := by
        rw [perm_ext_iff_of_nodup
          ((hDsorted.imp fun h => Nat.ne_of_lt h).filter _) (hA.imp fun h => Nat.ne_of_lt h)]
        intro x
        rw [mem_filter, decide_eq_true_eq]
        constructor
        · rintro ⟨hxD, hxle⟩
          by_contra hxA
          have hxold : x ∈ old := (hmemold x).2 ⟨mem_of_mem_drop hxD, hxA⟩
          have hxa : x ≠ a := fun h => hxA (h ▸ ha)
          have hxl : x ≠ A.getLast hne := fun h => hxA (h ▸ getLast_mem hne)
          have hge := hDge x hxD
          exact hgap a ha _ (getLast_mem hne) x hxold ⟨by omega, by omega⟩
        · intro hx
          exact ⟨hAD x hx, Nat.lt_succ_of_le (hlast x hx)⟩
      exact hperm.eq_of_pairwise (fun _ _ _ _ h h' => absurd h (Nat.lt_asymm h'))
        (hDsorted.filter _) hA
    have htake := Ascending.filter_lt_eq_take hDsorted (A.getLast hne + 1)
    have hlen : D.countP (fun x => x < A.getLast hne + 1) = A.length := by
      rw [countP_eq_length_filter, hfilt]
    rw [hfilt, hlen] at htake
    exact htake.symm

end

end Insert

end OpenJfx.Controls
