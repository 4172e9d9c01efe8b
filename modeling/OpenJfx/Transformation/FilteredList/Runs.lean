/-
  OpenJfx.Transformation.FilteredList.Runs

  Runs of a `FilteredList`: changes of the source and new predicates in any order.  `Filters` is
  the invariant in terms of flags, `Represents` what it says to a reader of the view.
-/

import OpenJfx.Transformation.FilteredList.Representation

namespace OpenJfx.Transformation.FilteredList

open OpenJfx.Collections JavaM List FilteredList JavaArray
open OpenJfx.Collections.ListChangeBuilder (recordedPermutation replayPermutation_eq_some
  recordedPermutation_length)

variable {E : Type}

/-! ## The invariant -/

/-- Which source positions should be shown. -/
def flags (s : FilteredList E) : List Bool := s.source.map s.getPredicateImpl

/-- Between two calls it starts with the positions. -/
structure Filters (s : FilteredList E) : Prop where
  filtered : ∃ G, s.filtered = trueIndices 0 s.flags ++ G
  size : s.size = (trueIndices 0 s.flags).length
  builder : s.builder = .new

/-- The positions of the matches in order, as `get`. -/
structure Represents (s : FilteredList E) : Prop where
  size_le : 0 ≤ s.size ∧ s.size ≤ s.filtered.length
  increasing : (s.filtered.take s.size.toNat).Pairwise (· < ·)
  matching : ∀ x, x ∈ s.filtered.take s.size.toNat ↔
    0 ≤ x ∧ ∃ e, s.source[x.toNat]? = some e ∧ s.getPredicateImpl e = true
  size_eq : s.size = (s.source.filter s.getPredicateImpl).length
  enumerates : ∀ (k : Nat) (e : E), (s.source.filter s.getPredicateImpl)[k]? = some e →
    Returns (get k) s e s

variable {s : FilteredList E}

theorem get_returns {k : Nat} {x : Int} {e : E} (hk : (k : Int) < s.size)
    (hx : s.filtered[k]? = some x) (hx0 : 0 ≤ x) (he : s.source[x.toNat]? = some e) :
    Returns (get k) s e s := by
  have hread : JavaArray.get s.filtered k = .ok x :=
    get_eq_ok (by omega) (by rw [Int.toNat_natCast]; exact hx)
  refine Returns.bind (a := s) (t := s) rfl ?_
  rw [if_neg (by omega)]
  refine (onFiltered_returns (f := fun a => JavaArray.get a k) hread).bind ?_
  simp only [Returns, JavaM.ofExcept, get_eq_ok hx0 he]

theorem Filters.represents (h : Filters s) : Represents s := by
  obtain ⟨G, hG⟩ := h.filtered
  have htake : s.filtered.take s.size.toNat = trueIndices 0 s.flags := by
    rw [hG, h.size, Int.toNat_natCast, take_left]
  have hfilt := trueIndices_filter s.getPredicateImpl s.source 0
  have hlen : (trueIndices 0 s.flags).length = (s.source.filter s.getPredicateImpl).length := by
    have := congrArg List.length hfilt
    rwa [length_map, length_map] at this
  refine ⟨?_, ?_, ?_, ?_, ?_⟩
  · have := h.size
    rw [hG, length_append]
    omega
  · rw [htake]
    exact trueIndices_sorted _ _
  · intro x
    rw [htake, mem_trueIndices, Int.sub_zero, flags, getElem?_map, Option.map_eq_some_iff]
  · rw [h.size, hlen]
  · intro k e he
    -- the `k`-th entry is the source position of the `k`-th matching element
    have hk := congrArg (fun l => l[k]?) hfilt
    simp only [getElem?_map, he, Option.map_some, Option.map_eq_some_iff] at hk
    obtain ⟨x, hx, hsource⟩ := hk
    rw [Int.sub_zero] at hsource
    have hklt := (List.getElem?_eq_some_iff.mp hx).1
    apply get_returns (x := x) _ _ (trueIndices_bounds (mem_of_getElem? hx)).1 hsource
    · rw [h.size, flags]
      omega
    · rw [hG, flags, getElem?_append_left hklt]
      exact hx

/-! ## Refiltering -/

theorem refilterLoop_returns (pred : E → Bool) {it : List E} {s : FilteredList E} {A G : List Int}
    (hG : s.filtered = A ++ G) (hsz : s.size = A.length) (hroom : it.length ≤ G.length) (i : Int) :
    ∃ G', Returns (refilterLoop pred it i) s ()
      { s with
        filtered := A ++ trueIndices i (it.map pred) ++ G'
        size := (A ++ trueIndices i (it.map pred)).length } := by
  induction it generalizing s A G i with
  | nil =>
    refine ⟨G, ?_⟩
    show Returns (pure ()) s () _
    simp only [map_nil, trueIndices, append_nil, ← hG, ← hsz]
    rfl
  | cons next it ih =>
    cases hpred : pred next with
    | false =>
      obtain ⟨G', hret⟩ := ih hG hsz (by rw [length_cons] at hroom; omega) (i + 1)
      refine ⟨G', ?_⟩
      rw [map_cons, hpred, trueIndices, refilterLoop]
      dsimp only
      rw [if_neg (by rw [hpred]; exact Bool.false_ne_true)]
      exact hret
    | true =>
      obtain ⟨g, G, rfl⟩ : ∃ g G', G = g :: G' := by
        cases G with
        | nil => simp at hroom
        | cons g G => exact ⟨g, G, rfl⟩
      obtain ⟨G', hret⟩ := ih (s := { s with filtered := A ++ [i] ++ G, size := s.size + 1 })
        (A := A ++ [i]) rfl (by simp [hsz]) (by simpa using hroom) (i + 1)
      refine ⟨G', ?_⟩
      have hset : set s.filtered s.size i = .ok (A ++ [i] ++ G) := by
        rw [hG, hsz, JavaArray.set_seam]
        simp
      have hwrite : Returns (writeFiltered s.size i) s () { s with filtered := A ++ [i] ++ G } :=
        (onFiltered_returns (f := fun a => set a s.size i) hset).bind rfl
      rw [map_cons, hpred, trueIndices, refilterLoop]
      dsimp only
      rw [if_pos hpred]
      refine Returns.bind (a := s) (t := s) rfl (hwrite.bind (Returns.bind (a := ()) rfl ?_))
      simpa using hret

theorem contents_returns {A G : List Int} (hG : s.filtered = A ++ G)
    (hsz : s.size = A.length) (hA : ∀ x ∈ A, 0 ≤ x ∧ x < s.source.length) :
    ∃ l, Returns contents s l s := by
  have hmap : ∀ ks : List Nat, (∀ k ∈ ks, k < A.length) →
      ∃ l, Returns (ks.mapM fun (i : Nat) => get (E := E) i) s l s := by
    intro ks
    induction ks with
    | nil => exact fun _ => ⟨[], rfl⟩
    | cons k ks ih =>
      intro hks
      have hk := hks k mem_cons_self
      obtain ⟨hx0, hx⟩ := hA _ (getElem_mem hk)
      obtain ⟨l, hl⟩ := ih fun j hj => hks j (.tail _ hj)
      have hget : Returns (get (E := E) k) s (s.source[A[k].toNat]) s := by
        apply get_returns (x := A[k]) (by omega) _ hx0 (getElem?_eq_getElem _)
        rw [hG, getElem?_append_left hk, getElem?_eq_getElem hk]
      rw [mapM_cons]
      exact ⟨_, hget.bind (hl.bind rfl)⟩
  obtain ⟨l, hl⟩ := hmap (List.range s.size.toNat) (by simp [hsz])
  exact ⟨l, Returns.bind (a := s) (t := s) rfl hl⟩

theorem refilter_returns {A G : List Int} (hasListeners : Bool)
    (hG : s.filtered = A ++ G) (hsz : s.size = A.length) (hb : s.builder = .new)
    (hA : ∀ x ∈ A, 0 ≤ x ∧ x < s.source.length) :
    ∃ fired s', Returns (refilter hasListeners) s fired s' ∧ Filters s' ∧
      s'.source = s.source ∧ s'.predicate = s.predicate := by
  obtain ⟨G1, hensure, hlen⟩ := ensureSize_returns hG hsz s.source.length
  have hA' : ∀ x ∈ A, 0 ≤ x ∧ x < ({ s with filtered := A ++ G1 } : FilteredList E).source.length :=
    hA
  obtain ⟨removed, hrem⟩ := contents_returns (s := { s with filtered := A ++ G1 }) rfl hsz hA'
  obtain ⟨G2, hloop⟩ := refilterLoop_returns s.getPredicateImpl
    (s := { s with filtered := A ++ G1, size := 0 }) (A := []) (G := A ++ G1) rfl rfl
    (by rw [hlen]; exact le_ensured _ _) 0
  have hfilters : Filters ({ s with
      filtered := [] ++ trueIndices 0 (s.source.map s.getPredicateImpl) ++ G2
      size := ([] ++ trueIndices 0 (s.source.map s.getPredicateImpl)).length } : FilteredList E) :=
    ⟨⟨G2, rfl⟩, rfl, hb⟩
  cases hasListeners with
  | false =>
    have hrem : Returns (pure []) ({ s with filtered := A ++ G1 } : FilteredList E)
        ([] : List E) { s with filtered := A ++ G1 } := rfl
    exact ⟨_, _, Returns.bind (a := s) (t := s) rfl (hensure.bind (hrem.bind
      (Returns.bind (a := ()) rfl (hloop.bind (Returns.bind (a := _) (t := _) rfl rfl))))),
      hfilters, rfl, rfl⟩
  | true =>
    exact ⟨_, _, Returns.bind (a := s) (t := s) rfl (hensure.bind (hrem.bind
      (Returns.bind (a := ()) rfl (hloop.bind (Returns.bind (a := _) (t := _) rfl rfl))))),
      hfilters, rfl, rfl⟩

theorem Filters.setPredicate (h : Filters s) (hasListeners : Bool) (predicate : Option (E → Bool)) :
    ∃ fired s', Returns (setPredicate hasListeners predicate) s fired s' ∧ Filters s' ∧
      s'.source = s.source ∧ s'.predicate = predicate := by
  obtain ⟨G, hG⟩ := h.filtered
  obtain ⟨fired, s', hret, hs'⟩ := refilter_returns (s := { s with predicate := predicate })
    hasListeners hG h.size h.builder (by
      intro x hx
      have := trueIndices_bounds hx
      rw [flags, length_map] at this
      show 0 ≤ x ∧ x < s.source.length
      omega)
  exact ⟨fired, s', Returns.bind (a := ()) rfl hret, hs'⟩

theorem new_filters (source : List E) (predicate : Option (E → Bool)) :
    ∃ s, new source predicate = .ok s ∧ Filters s ∧ s.source = source ∧
      s.predicate = predicate := by
  have hnew : JavaArray.new ((source.length : Int) * 3 / 2 + 1) (0 : Int)
      = .ok (List.replicate (source.length * 3 / 2 + 1) 0) := by
    rw [JavaArray.new_eq_ok (by omega)]
    congr 2
  rw [new, hnew]
  cases predicate with
  | some p =>
    obtain ⟨fired, s, hret, hs, hsource, hpredicate⟩ := refilter_returns (A := [])
      (s := (⟨source, List.replicate (source.length * 3 / 2 + 1) 0, 0, some p, .new⟩ :
        FilteredList E)) false rfl rfl rfl (fun x hx => by cases hx)
    have hset : FilteredList.setPredicate false (some p)
        ⟨source, List.replicate (source.length * 3 / 2 + 1) 0, 0, none, .new⟩ = .ok fired s :=
      Returns.bind (a := ()) rfl hret
    exact ⟨s, by simp only [bind, Except.bind, hset], hs, hsource, hpredicate⟩
  | none =>
    obtain ⟨G, hret⟩ := @refilterLoop_returns _ (fun _ => true) source
        (⟨source, List.replicate (source.length * 3 / 2 + 1) 0, 0, none, .new⟩ :
        FilteredList E) [] (List.replicate (source.length * 3 / 2 + 1) 0) rfl rfl
      (by rw [length_replicate]; omega) 0
    refine ⟨⟨source, [] ++ trueIndices 0 (source.map fun _ => true) ++ G,
      ([] ++ trueIndices 0 (source.map fun _ => true)).length, none, .new⟩, ?_,
      ⟨⟨G, rfl⟩, rfl, rfl⟩, rfl, rfl⟩
    simp only [bind, Except.bind, show refilterLoop _ _ _ _ = _ from hret]

/-! ## A change of the source -/

/-- The flags after the permutation of a change. -/
def permutedFlags (F : List Bool) (permutation : Option (SubChange E)) : List Bool :=
  match permutation with
  | none => F
  | some c => permuted c.from_ c.perm F

/-- Every intermediate view fits into the array. -/
def Fits (s : FilteredList E) (source : List E) (now : E → Bool) (change : SourceChange E) : Prop :=
  fits (ensured s.filtered.length source.length) source now
    (permutedFlags s.flags change.permutation) change.addRemoves = true

instance (s : FilteredList E) (source : List E) (now : E → Bool) (change : SourceChange E) :
    Decidable (Fits s source now change) :=
  inferInstanceAs (Decidable (_ = true))

/-- What the predicate answers after the elements have changed. -/
def renewed (s : FilteredList E) (now : E → Bool) : E → Bool :=
  (s.predicate.map fun _ => now).getD fun _ => true

section Change

variable {s : FilteredList E} {source : List E} {now : E → Bool} {change : SourceChange E}

theorem Showing.permutation {p : Option (E → Bool)} {cap : Nat} {L P : List E} {before : E → Bool}
    {permutation : Option (SubChange E)}
    (h : Showing source p cap (trueIndices 0 (L.map before)).length (trueIndices 0 (L.map before)) s)
    (hb : s.builder = ⟨1, [], [], none⟩) (hc : ∀ c ∈ permutation, c.wasPermutated = true)
    (hP : recordedPermutation L permutation = some P) :
    ∃ s', Returns (permutation.toList.forM subChanged) s () s' ∧
      permutedFlags (L.map before) permutation = P.map before ∧
      Showing source p cap (trueIndices 0 (P.map before)).length (trueIndices 0 (P.map before))
        s' := by
  cases permutation with
  | none =>
    cases hP
    exact ⟨s, rfl, rfl, h⟩
  | some c =>
    obtain ⟨⟨h0, hto, hle, hperm⟩, rfl⟩ := replayPermutation_eq_some.mp hP
    have hwas := hc c rfl
    obtain ⟨s', hret, h'⟩ := h.permutate hwas hb hperm h0 hto (by rw [length_map]; exact hle)
    rw [permuted_map] at h'
    refine ⟨s', ?_, permuted_map _ _ _ _, h'⟩
    have hsub : Returns (subChanged c) s () s' := by
      rw [subChanged, if_pos hwas]
      exact hret
    exact hsub.bind rfl

theorem flags_eq {before now : E → Bool} {L : List E} {F G : List Bool}
    (hreports : change.Reports L before now) (hG : G.length = L.length)
    (hadd : ∀ (j : Nat) (e : E), L[j]? = some e → F[j]? = some (now e) ∨
      (F[j]? = some (before e) ∧ covers change.addRemoves (((0 : Nat) : Int) + j) = false))
    (hup : ∀ (j : Nat) (e : E), L[j]? = some e → G[j]? = some (now e) ∨
      (G[j]? = F[j]? ∧ covers change.updates j = false)) :
    G = L.map now := by
  apply ext_getElem?
  intro j
  rw [getElem?_map]
  cases he : L[j]? with
  | none =>
    rw [List.getElem?_eq_none_iff] at he
    rw [getElem?_eq_none (by omega)]
    rfl
  | some e =>
    rcases hup j e he with hnow | ⟨hsame, hnotUpdated⟩
    · exact hnow
    rw [hsame]
    rcases hadd j e he with hnow | ⟨hold, hnotAdded⟩
    · exact hnow
    rw [hold]
    -- neither updated nor added, so the answer is the same as before
    by_contra hne
    rcases hreports j e he (fun h => hne (by rw [h]; rfl)) with h | h
    · rw [h] at hnotUpdated
      cases hnotUpdated
    · rw [show (((0 : Nat) : Int) + j) = j by omega, h] at hnotAdded
      cases hnotAdded

theorem Filters.sourceChanged [DecidableEq E] (h : Filters s)
    (hchg : change.Describes s.source source)
    (hreports : change.Reports source s.getPredicateImpl (s.renewed now))
    (hfits : Fits s source (s.renewed now) change) :
    ∃ fired s', Returns (sourceChanged change.toList)
        { s with source := source, predicate := s.predicate.map fun _ => now } fired s' ∧
      Filters s' ∧ s'.source = source ∧ s'.predicate = s.predicate.map fun _ => now := by
  obtain ⟨P, hP, hreplay⟩ := hchg.replays
  have htracks := tracks_of_replay hreplay hchg.ascending
  have h0 : Showing source (s.predicate.map fun _ => now) s.filtered.length
      (trueIndices 0 (s.source.map s.getPredicateImpl)).length
      (trueIndices 0 (s.source.map s.getPredicateImpl))
      { s with
        source := source
        predicate := s.predicate.map fun _ => now
        builder := ⟨1, [], [], none⟩ } :=
    ⟨rfl, rfl, h.size, h.filtered, rfl, ListChangeBuilder.sound_empty _ _, rfl⟩
  have hbegin : Returns (onBuilder ListChangeBuilder.beginChange)
      { s with source := source, predicate := s.predicate.map fun _ => now } ()
      { s with
        source := source
        predicate := s.predicate.map fun _ => now
        builder := ⟨1, [], [], none⟩ } :=
    Returns.zoom (by rw [h.builder]; rfl)
  obtain ⟨s1, hret1, hflags, h1⟩ := h0.permutation rfl hchg.permutated hP
  rw [Fits, flags, hflags] at hfits
  obtain ⟨s2, cap2, F, hret2, h2, hF, hadd⟩ := Showing.addRemoves (D := []) (U := []) htracks
    hchg.plain rfl rfl h1 hfits
  obtain ⟨s3, cap3, G, hret3, h3, hG, hup⟩ := Showing.updates hchg.updated hchg.ranges hF h2
  have hnow := flags_eq hreports hG hadd hup
  obtain ⟨fired, hend⟩ := h3.sound.endChange_last h3.lock
  have hret : Returns (change.toList.forM subChanged)
      { s with
        source := source
        predicate := s.predicate.map fun _ => now
        builder := ⟨1, [], [], none⟩ } () s3 := by
    rw [SourceChange.toList, forM_eq_forM, forM_append, forM_append]
    exact (hret1.bind hret2).bind hret3
  refine ⟨fired, { s3 with builder := .new }, hbegin.bind (hret.bind (Returns.zoom hend)), ?_,
    h3.source, h3.predicate⟩
  have hflags3 : flags { s3 with builder := .new } = G := by
    rw [hnow]
    show s3.source.map (s3.predicate.getD fun _ => true) = _
    rw [h3.source, h3.predicate]
    rfl
  exact ⟨by rw [hflags3]; exact h3.filtered, by rw [hflags3]; exact h3.size, rfl⟩

end Change

/-! ## Runs -/

/-- Its source or its predicate changes. -/
inductive Op (E : Type) where
  | sourceChanged (source : List E) (now : E → Bool) (change : SourceChange E)
  | setPredicate (hasListeners : Bool) (predicate : Option (E → Bool))

def Op.run : Op E → JavaM (FilteredList E) Unit
  | .sourceChanged source now change => do
    modify fun s => { s with source := source, predicate := s.predicate.map fun _ => now }
    let _ ← FilteredList.sourceChanged change.toList
  | .setPredicate hasListeners predicate => do
    let _ ← FilteredList.setPredicate hasListeners predicate

/-- It happened, and reports every changed answer. -/
def Op.Legal [DecidableEq E] (s : FilteredList E) : Op E → Prop
  | .sourceChanged source now change =>
    change.Describes s.source source ∧ change.Reports source s.getPredicateImpl (s.renewed now)
  | .setPredicate _ _ => True

/-- What is shown in between fits into the array. -/
def Op.Fits (s : FilteredList E) : Op E → Prop
  | .sourceChanged source now change => FilteredList.Fits s source (s.renewed now) change
  | .setPredicate _ _ => True

/-- `s'` is reached from `s` by legal and fitting steps. -/
inductive Reaches [DecidableEq E] (s : FilteredList E) : FilteredList E → Prop where
  | refl : Reaches s s
  | step {t u : FilteredList E} (op : Op E) : Reaches s t → op.Legal t → op.Fits t →
      Returns op.run t () u → Reaches s u

theorem Filters.step [DecidableEq E] {s : FilteredList E} (h : Filters s) (op : Op E)
    (hlegal : op.Legal s) (hfits : op.Fits s) :
    ∃ s', Returns op.run s () s' ∧ Filters s' := by
  cases op with
  | sourceChanged source now change =>
    obtain ⟨fired, s', hret, hs', -⟩ := h.sourceChanged hlegal.1 hlegal.2 hfits
    exact ⟨s', Returns.bind (a := ()) rfl (hret.bind rfl), hs'⟩
  | setPredicate hasListeners predicate =>
    obtain ⟨fired, s', hret, hs', -⟩ := h.setPredicate hasListeners predicate
    exact ⟨s', hret.bind rfl, hs'⟩

theorem Filters.of_reaches [DecidableEq E] {t : FilteredList E} (h : Filters s)
    (hreach : Reaches s t) : Filters t := by
  induction hreach with
  | refl => exact h
  | step op _ hlegal hfits hret ih =>
    obtain ⟨u', hret', hu'⟩ := ih.step op hlegal hfits
    obtain ⟨-, rfl⟩ := hret.unique hret'
    exact hu'

/-- In every state reached by legal and fitting steps the view shows the matching elements, and
    every such next step returns. -/
theorem represents_of_fits [DecidableEq E] (source : List E) (predicate : Option (E → Bool)) :
    ∃ s, new source predicate = .ok s ∧ ∀ t, Reaches s t →
      Represents t ∧ ∀ op : Op E, op.Legal t → op.Fits t →
        ∃ u, Returns op.run t () u ∧ Represents u := by
  obtain ⟨s, hnew, hs, -⟩ := new_filters source predicate
  refine ⟨s, hnew, ?_⟩
  intro t hreach
  have ht := hs.of_reaches hreach
  refine ⟨ht.represents, ?_⟩
  intro op hlegal hfits
  obtain ⟨u, hret, hu⟩ := ht.step op hlegal hfits
  exact ⟨u, hret, hu.represents⟩

/-- Four added in front, four removed, in one change. -/
def prependAndRemove : Op Nat :=
  .sourceChanged [10, 11, 12, 13, 1] (fun _ => true)
    ⟨none, [⟨0, 4, some [], [], false⟩, ⟨5, 5, some [2, 3, 4, 5], [], false⟩], []⟩

/-- Eight entries; nine are shown in between. -/
theorem sourceChanged_out_of_bounds : ∃ s : FilteredList Nat, new [1, 2, 3, 4, 5] none = .ok s ∧
      prependAndRemove.Legal s ∧ prependAndRemove.run.thrown s = some .indexOutOfBounds := by
  refine ⟨⟨[1, 2, 3, 4, 5], [0, 1, 2, 3, 4, 0, 0, 0], 5, none, .new⟩, rfl, ⟨?_, ?_⟩, ?_⟩
  · refine ⟨nofun, ?_, nofun, nofun, by decide, ⟨[1, 2, 3, 4, 5], rfl, by decide⟩⟩
    simp only [mem_cons, not_mem_nil, or_false, forall_eq_or_imp, forall_eq]
    exact ⟨⟨rfl, rfl⟩, ⟨rfl, rfl⟩⟩
  · intro j e _ hne
    exact absurd rfl hne
  · decide +kernel

end OpenJfx.Transformation.FilteredList
