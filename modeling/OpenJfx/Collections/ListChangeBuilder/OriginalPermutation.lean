/-
  OpenJfx.Collections.ListChangeBuilder.OriginalPermutation

  The first half of `nextPermutation`.  `newPerm` sends the old index at slot `i` to `i`, where
  the slots of removed indices hold these and the others are filled from `mapToOriginal`: it is
  the inverse of a permutation, and the removed elements stay where they are.
-/

import OpenJfx.Collections.ListChangeBuilder.NextPermutation
import OpenJfx.Collections.ListChangeBuilder.Origins

namespace OpenJfx.Collections.ListChangeBuilder

open List JavaArray

variable {E : Type} {from_ : Int} {perm : List Int}

theorem moved_eq (from_ : Int) (perm : List Int) (j : Int) :
    moved from_ (from_ + perm.length) perm j = .ok (image from_ perm j) := by
  by_cases hj : from_ ≤ j ∧ j < from_ + perm.length
  · rw [moved, if_neg (by omega), get_eq_image hj.1 hj.2]
  · rw [moved, if_pos (by omega), image_of_not_range hj]

/-! ## `mapToOriginal` -/

/-- `m` has the values `done` at the images of the first positions. -/
structure Filled (from_ : Int) (perm : List Int) (n : Nat) (m done : List Int) : Prop where
  length : m.length = n
  values : ∀ i : Nat, i < done.length → m[(image from_ perm i).toNat]? = done[i]?

variable {k n : Nat} {newPerm : List Int} {L₀ : List E} {pc : Option (SubChange E)} {low : Int}

section Map

variable {n : Nat} {m done : List Int}

theorem Filled.write (hperm : IsPermutation from_ perm) (h₀ : 0 ≤ from_)
    (hle : from_ + perm.length ≤ n) (h : Filled from_ perm n m done) (hlt : done.length < n)
    (value : Int) :
    ∃ m', set m (image from_ perm done.length) value = .ok m' ∧
      Filled from_ perm n m' (done ++ [value]) := by
  obtain ⟨h1, h2⟩ := hperm.image_bounds h₀ hle (p := done.length) (by omega) (by omega)
  refine ⟨m.set (image from_ perm done.length).toNat value,
    set_eq_ok h1 (by rw [h.length]; exact h2) value, ?_, ?_⟩
  · rw [length_set, h.length]
  · intro i hi
    rw [length_append, length_singleton] at hi
    by_cases hlast : i = done.length
    · rw [hlast, getElem?_set_self (by rw [h.length]; omega), getElem?_concat_length]
    · have hne : (image from_ perm done.length).toNat ≠ (image from_ perm i).toNat := by
        intro heq
        have := hperm.image_bounds h₀ hle (p := i) (by omega) (by omega)
        have := hperm.image_injective (p := done.length) (q := i) (by omega)
        omega
      rw [getElem?_set_ne hne, h.values i (by omega), getElem?_append_left (by omega)]

theorem Filled.fillMap (hperm : IsPermutation from_ perm) (h₀ : 0 ≤ from_)
    (hle : from_ + perm.length ≤ n) (value : Int → Int) {j : Int}
    (h : Filled from_ perm n m done) (hj : j = done.length) (hk : done.length + k ≤ n) :
    ∃ m', ListChangeBuilder.fillMap from_ (from_ + perm.length) perm value k j m = .ok m' ∧
      Filled from_ perm n m' (done ++ segment value j k) := by
  induction k generalizing j m done with
  | zero => exact ⟨m, rfl, by simpa using h⟩
  | succ k ih =>
    subst hj
    obtain ⟨m1, hm1, h1⟩ := h.write hperm h₀ hle (by omega) (value done.length)
    obtain ⟨m2, hm2, h2⟩ := ih h1 (j := done.length + 1) (by simp) (by simp; omega)
    refine ⟨m2, ?_, ?_⟩
    · rw [ListChangeBuilder.fillMap, moved_eq]
      simp only [bind, Except.bind, hm1, hm2]
    · rwa [segment_succ, append_cons]

theorem segment_const (x : Int) (low : Int) (k : Nat) :
    segment (fun _ => x) low k = List.replicate k x := by
  induction k generalizing low with
  | zero => rfl
  | succ k ih => rw [segment_succ, ih, replicate_succ]

theorem Filled.mapChanges (hperm : IsPermutation from_ perm) (h₀ : 0 ≤ from_)
    (hle : from_ + perm.length ≤ n) {cs : List (SubChange E)} {s : Mapping}
    (h : Filled from_ perm n s.mapToOriginal done) (hlast : s.last = done.length)
    (hplaced : Placed s.last cs n) :
    ∃ s', cs.foldlM (mapChange from_ (from_ + perm.length) perm) s = .ok s' ∧
      s'.removed = s.removed ++ removedOf s.offset cs ∧
      n + s'.offset = s.last + s.offset + (slots s.last s.offset cs (n - done.length)).length ∧
      ∃ m', ListChangeBuilder.fillMap from_ (from_ + perm.length) perm (fun i => i + s'.offset)
          (n - s'.last).toNat s'.last s'.mapToOriginal = .ok m' ∧
        Filled from_ perm n m' (done ++ origins s.last s.offset cs (n - done.length)) := by
  induction cs generalizing s done with
  | nil =>
    have hq := hplaced.le
    obtain ⟨m', hm', h'⟩ := h.fillMap hperm h₀ hle (fun i => i + s.offset)
      (k := (n - s.last).toNat) hlast (by omega)
    refine ⟨s, rfl, by simp [removedOf], ?_, m', hm', ?_⟩
    · rw [slots, length_replicate]
      omega
    · have hk : (n - s.last).toNat = n - done.length := by omega
      rwa [hk] at h'
  | cons c cs ih =>
    obtain ⟨hf, ht, hplaced⟩ := hplaced
    have hq := hplaced.le
    obtain ⟨m1, hm1, h1⟩ := h.fillMap hperm h₀ hle (fun j => j + s.offset)
      (k := (c.from_ - s.last).toNat) hlast (by omega)
    obtain ⟨m2, hm2, h2⟩ := h1.fillMap hperm h₀ hle (fun _ => -1)
      (k := (c.to_ - c.from_).toNat) (j := c.from_) (by simp; omega) (by simp; omega)
    obtain ⟨s', hs', hrem, hoff, m', hm', h'⟩ := ih
      (s := ⟨m2, s.removed ++ segment id (c.from_ + s.offset) c.getRemoved.length, c.to_,
        c.nextOffset s.offset⟩) h2 (by simp; omega) hplaced
    have hlen : n - (done ++ segment (fun j => j + s.offset) s.last (c.from_ - s.last).toNat ++
        segment (fun _ => -1) c.from_ (c.to_ - c.from_).toNat).length
        = n - done.length - (c.to_ - s.last).toNat := by
      simp only [length_append, segment_length]
      omega
    rw [hlen] at hoff h'
    refine ⟨s', ?_, ?_, ?_, m', hm', ?_⟩
    · rw [foldlM_cons, mapChange, hm1]
      simp only [bind, Except.bind, hm2, pure, Except.pure]
      exact hs'
    · rw [hrem, removedOf, append_assoc]
    · rw [hoff, slots]
      simp only [length_append, length_replicate, length_map, length_zip,
        segment_length, SubChange.nextOffset]
      omega
    · rw [origins]
      simpa only [segment_const, append_assoc] using h'

end Map

/-! ## `newPerm` -/

/-- The slots from index `i` on hold the removed indices. -/
def Mask (removed : List Int) : Int → List (Option (E × Int)) → Prop
  | _, [] => True
  | i, some x :: S => x.2 = i ∧ i ∈ removed ∧ Mask removed (i + 1) S
  | i, none :: S => i ∉ removed ∧ Mask removed (i + 1) S

section Mask

variable {removed : List Int} {i : Int} {S : List (Option (E × Int))}

theorem mask_empty (hout : ∀ j, i ≤ j → j < i + k → j ∉ removed)
    (h : Mask removed (i + k) S) : Mask removed i (List.replicate k none ++ S) := by
  induction k generalizing i with
  | zero => simpa using h
  | succ k ih =>
    rw [replicate_succ, cons_append]
    refine ⟨hout i (by omega) (by omega), ih (fun j h1 h2 => hout j (by omega) (by omega)) ?_⟩
    have hi : i + 1 + (k : Int) = i + ((k + 1 : Nat) : Int) := by omega
    rwa [hi]

theorem mask_given {r : List E} (hin : ∀ j, i ≤ j → j < i + r.length → j ∈ removed)
    (h : Mask removed (i + r.length) S) :
    Mask removed i ((r.zip (segment id i r.length)).map some ++ S) := by
  induction r generalizing i with
  | nil => simpa using h
  | cons x r ih =>
    rw [length_cons, segment_succ, zip_cons_cons, map_cons, cons_append]
    rw [length_cons] at hin h
    refine ⟨rfl, hin i (by omega) (by omega), ih (fun j h1 h2 => hin j (by omega) (by omega)) ?_⟩
    have hi : i + 1 + (r.length : Int) = i + ((r.length + 1 : Nat) : Int) := by omega
    rwa [hi]

theorem removedOf_ge {p q off : Int} {cs : List (SubChange E)} (h : Placed p cs q) :
    ∀ j ∈ removedOf off cs, p + off ≤ j := by
  induction cs generalizing p off with
  | nil => simp [removedOf]
  | cons c cs ih =>
    obtain ⟨hf, ht, h⟩ := h
    intro j hj
    rw [removedOf, mem_append, mem_segment] at hj
    rcases hj with ⟨k, h1, -, rfl⟩ | hj
    · simp only [id]
      omega
    · have := ih h j hj
      rw [SubChange.nextOffset] at this
      omega

theorem slots_mask {p q off : Int} {cs : List (SubChange E)} {len : Nat} (h : Placed p cs q)
    (hremoved : ∀ j, p + off ≤ j → (j ∈ removed ↔ j ∈ removedOf off cs)) :
    Mask removed (p + off) (slots p off cs len) := by
  induction cs generalizing p off len with
  | nil =>
    rw [slots, ← append_nil (List.replicate len none)]
    apply mask_empty
    · intro j h1 h2
      rw [hremoved j h1]
      exact not_mem_nil
    · exact trivial
  | cons c cs ih =>
    obtain ⟨hf, ht, h⟩ := h
    have hnxt : c.to_ + c.nextOffset off = c.from_ + off + c.getRemoved.length := by
      rw [SubChange.nextOffset]
      omega
    have hge := @removedOf_ge _ _ _ (c.nextOffset off) _ h
    rw [hnxt] at hge
    have hmem : ∀ j, p + off ≤ j → (j ∈ removed ↔
        (c.from_ + off ≤ j ∧ j < c.from_ + off + c.getRemoved.length) ∨
          j ∈ removedOf (c.nextOffset off) cs) := by
      intro j hj
      rw [hremoved j hj, removedOf, mem_append, mem_segment]
      simp only [id]
      constructor
      · rintro (⟨k, h1, h2, rfl⟩ | h1)
        · exact Or.inl ⟨h1, h2⟩
        · exact Or.inr h1
      · rintro (⟨h1, h2⟩ | h1)
        · exact Or.inl ⟨j, h1, h2, rfl⟩
        · exact Or.inr h1
    have hfrom : p + off + ((c.from_ - p).toNat : Int) = c.from_ + off := by omega
    rw [slots]
    apply mask_empty
    · intro j h1 h2 hj
      rcases (hmem j h1).mp hj with hj | hj
      · omega
      · have := hge j hj
        omega
    rw [hfrom]
    apply mask_given
    · intro j h1 h2
      exact (hmem j (by omega)).mpr (Or.inl ⟨h1, h2⟩)
    rw [← hnxt]
    apply ih h
    intro j hj
    rw [hmem j (by omega)]
    constructor
    · rintro (hj' | hj')
      · omega
      · exact hj'
    · exact Or.inr

end Mask

/-- `newPerm` holds at the indices `done` their places. -/
def Ranked (newPerm done : List Int) : Prop :=
  ∀ (k : Nat) (x : Int), done[k]? = some x → newPerm[x.toNat]? = some (k : Int)

theorem Ranked.write {done later : List Int} {x : Int} (h : Ranked newPerm done)
    (hin : ∀ y ∈ done ++ x :: later, 0 ≤ y ∧ y < newPerm.length)
    (hnd : (done ++ x :: later).Nodup) :
    ∃ newPerm', set newPerm x done.length = .ok newPerm' ∧
      newPerm'.length = newPerm.length ∧ Ranked newPerm' (done ++ [x]) := by
  have hx := hin x (by simp)
  refine ⟨newPerm.set x.toNat done.length, set_eq_ok hx.1 hx.2 _, by simp, ?_⟩
  intro k y hy
  by_cases hk : k < done.length
  · rw [getElem?_append_left hk] at hy
    have hmem := mem_of_getElem? hy
    have hy' := hin y (by simp [hmem])
    have hne : x.toNat ≠ y.toNat := by
      intro heq
      obtain rfl : x = y := by omega
      exact (nodup_append.mp hnd).2.2 x hmem x (by simp) rfl
    rw [getElem?_set_ne hne]
    exact h k y hy
  · have hlt := List.getElem?_eq_some_iff.mp hy |>.1
    rw [length_append, length_singleton] at hlt
    obtain rfl : k = done.length := by omega
    rw [getElem?_concat_length, Option.some.injEq] at hy
    subst hy
    exact getElem?_set_self (by omega)

theorem dropWhile_of_filter {rest K : List Int} {k : Int}
    (h : rest.filter (fun o => o ≠ -1) = k :: K) :
    ∃ rest', rest.dropWhile (· == -1) = k :: rest' ∧ rest'.filter (fun o => o ≠ -1) = K := by
  induction rest with
  | nil => cases h
  | cons o rest ih =>
    by_cases ho : o = -1
    · rw [filter_cons_of_neg (by simpa using ho)] at h
      rw [dropWhile_cons_of_pos (by simpa using ho)]
      exact ih h
    · rw [filter_cons_of_pos (by simpa using ho), List.cons.injEq] at h
      obtain ⟨rfl, h⟩ := h
      exact ⟨rest, dropWhile_cons_of_neg (by simpa using ho), h⟩

theorem Ranked.fillPerm {removed : List Int} {S : List (Option (E × Int))}
    {rest K newPerm done : List Int} {i : Int} (hmask : Mask removed i S) (hi : i = done.length)
    (h : Ranked newPerm done) (hK : rest.filter (fun o => o ≠ -1) = K)
    (hcnt : S.countP (·.isNone) = K.length)
    (hin : ∀ y ∈ done ++ fillSlots (S.map (Option.map Prod.snd)) K, 0 ≤ y ∧ y < newPerm.length)
    (hnd : (done ++ fillSlots (S.map (Option.map Prod.snd)) K).Nodup) :
    ∃ out, ListChangeBuilder.fillPerm removed S.length i rest newPerm = .ok out ∧
      out.length = newPerm.length ∧
      Ranked out (done ++ fillSlots (S.map (Option.map Prod.snd)) K) := by
  induction S generalizing rest K newPerm done i with
  | nil => exact ⟨newPerm, rfl, rfl, by simpa [fillSlots] using h⟩
  | cons s S ih =>
    subst hi
    cases s with
    | some x =>
      obtain ⟨x, j⟩ := x
      obtain ⟨hj, hremoved, hmask⟩ := hmask
      dsimp only at hj
      subst hj
      simp only [map_cons, Option.map_some, fillSlots_some] at hin hnd ⊢
      obtain ⟨newPerm', hset, hlen, h'⟩ := h.write hin hnd
      rw [append_cons] at hin hnd ⊢
      obtain ⟨out, hout, hlen', hr⟩ := ih hmask (by simp) h' hK (by simpa using hcnt)
        (by rwa [hlen]) hnd
      refine ⟨out, ?_, hlen'.trans hlen, hr⟩
      rw [length_cons, ListChangeBuilder.fillPerm, if_pos hremoved, hset]
      exact hout
    | none =>
      obtain ⟨hremoved, hmask⟩ := hmask
      cases K with
      | nil => simp at hcnt
      | cons k K =>
        obtain ⟨rest', hdrop, hK'⟩ := dropWhile_of_filter hK
        simp only [map_cons, Option.map_none, fillSlots_none_cons] at hin hnd ⊢
        obtain ⟨newPerm', hset, hlen, h'⟩ := h.write hin hnd
        rw [append_cons] at hin hnd ⊢
        obtain ⟨out, hout, hlen', hr⟩ := ih hmask (by simp) h' hK' (by simpa using hcnt)
          (by rwa [hlen]) hnd
        refine ⟨out, ?_, hlen'.trans hlen, hr⟩
        rw [length_cons, ListChangeBuilder.fillPerm, if_neg hremoved, hdrop]
        simp only [hset, bind, Except.bind]
        exact hout

theorem Ranked.isPermutation {Q : List Int} (h : Ranked newPerm Q)
    (hlen : newPerm.length = Q.length) : IsPermutation 0 newPerm := by
  have hsub : (segment id 0 newPerm.length).Subperm newPerm := by
    apply subperm_of_subset (segment_id_nodup _ _)
    intro x hx
    obtain ⟨i, h1, h2, rfl⟩ := mem_segment.mp hx
    have hlt : i.toNat < Q.length := by omega
    have hrank := h i.toNat Q[i.toNat] (getElem?_eq_getElem hlt)
    rw [Int.toNat_of_nonneg h1] at hrank
    exact mem_of_getElem? hrank
  exact (hsub.perm_of_length_le (by simp)).symm

theorem Ranked.image {Q : List Int} (h : Ranked newPerm Q) {x : Int}
    (hk : Q[k]? = some x) (h₀ : 0 ≤ x) : image 0 newPerm x = k := by
  have hrank := h k x hk
  obtain ⟨hlt, hget⟩ := List.getElem?_eq_some_iff.mp hrank
  have hx : (x - 0).toNat < newPerm.length := by omega
  rw [image_eq_getElem h₀ (by omega) hx]
  simpa using hget

/-! ## The permutation of the original list -/

/-- The kept elements of the rearranged list, with their old indices. -/
def movedKept (from_ : Int) (perm : List Int) (cs : List (SubChange E)) (L : List E) :
    List (E × Int) :=
  ((permuted from_ perm L).zip (permuted from_ perm (origins 0 0 cs L.length))).filter
    fun x => x.2 ≠ -1

section Spec

variable {cs : List (SubChange E)} {P L : List E}

section

variable (hperm : IsPermutation from_ perm) (h₀ : 0 ≤ from_) (hle : from_ + perm.length ≤ L.length)
  (h : Tracks 0 cs P L)
include hperm h₀ hle h

theorem mapToOriginal_spec : ∃ s, cs.foldlM (mapChange from_ (from_ + perm.length) perm)
        ⟨List.replicate L.length 0, [], 0, 0⟩ = .ok s ∧ s.removed = removedOf 0 cs ∧
      L.length + s.offset = (slots 0 0 cs L.length).length ∧
      fillMap from_ (from_ + perm.length) perm (fun i => i + s.offset)
          (L.length - s.last).toNat s.last s.mapToOriginal
        = .ok (permuted from_ perm (origins 0 0 cs L.length)) := by
  have hplaced := h.placed
  rw [Int.zero_add] at hplaced
  have hlen := (@Tracks.fillSlots_eq _ _ 0 _ _ _ h (Int.le_refl _)).1
  have hst : Filled from_ perm L.length (List.replicate L.length 0) [] :=
    ⟨by simp, fun i hi => absurd hi (Nat.not_lt_zero i)⟩
  obtain ⟨s, hs, hrem, hoff, m, hm, hfilled⟩ := Filled.mapChanges hperm h₀ hle
    (s := ⟨List.replicate L.length 0, [], 0, 0⟩) hst rfl hplaced
  rw [length_nil, Nat.sub_zero] at hoff hfilled
  rw [nil_append] at hfilled hrem
  have hm' : permuted from_ perm (origins 0 0 cs L.length) = m := by
    apply hperm.permuted_eq h₀ (by rw [hlen]; exact hle) (by rw [hlen]; exact hfilled.length)
    intro i hi
    exact hfilled.values i hi
  exact ⟨s, hs, hrem, by simpa using hoff, by rw [hm', hm]⟩

/-- The slots with the moved kept elements rearrange the original list. -/
theorem movedSlots_perm :
    (slots 0 0 cs L.length).countP (·.isNone) = (movedKept from_ perm cs L).length ∧
      (fillSlots (slots 0 0 cs L.length) (movedKept from_ perm cs L)).Perm
        (P.zip (segment id 0 P.length)) := by
  obtain ⟨hlen, hcnt, hfill⟩ := @Tracks.fillSlots_eq _ _ 0 _ _ _ h (Int.le_refl _)
  have hzip : (L.zip (origins 0 0 cs L.length)).length = L.length := by
    rw [length_zip, hlen, Nat.min_self]
  have hkept : (movedKept from_ perm cs L).Perm
      ((L.zip (origins 0 0 cs L.length)).filter fun x => x.2 ≠ -1) := by
    rw [movedKept, ← hperm.permuted_zip h₀ hle hlen]
    exact (hperm.permuted_perm h₀ (by rw [hzip]; exact hle)).filter _
  have hcnt' := hcnt.trans hkept.length_eq.symm
  refine ⟨hcnt', ?_⟩
  rw [Int.zero_add] at hfill
  rw [← hfill]
  exact fillSlots_perm hcnt' hkept

theorem movedKept_snd : (movedKept from_ perm cs L).map Prod.snd
      = (permuted from_ perm (origins 0 0 cs L.length)).filter fun o => o ≠ -1 := by
  have hlen := (@Tracks.fillSlots_eq _ _ 0 _ _ _ h (Int.le_refl _)).1
  have hle' : from_ + perm.length ≤ (origins 0 0 cs L.length).length := by rw [hlen]; exact hle
  have hsnd : ((permuted from_ perm L).zip (permuted from_ perm (origins 0 0 cs L.length))).map
      Prod.snd = permuted from_ perm (origins 0 0 cs L.length) := by
    apply map_snd_zip
    rw [hperm.permuted_length h₀ hle, hperm.permuted_length h₀ hle']
    exact Nat.le_of_eq hlen
  conv_rhs => rw [← hsnd, filter_map]
  rfl

theorem originalPermutation_spec :
    ∃ newPerm, originalPermutation from_ (from_ + perm.length) perm L.length cs = .ok newPerm ∧
      newPerm.length = P.length ∧ IsPermutation 0 newPerm ∧
      permuted 0 newPerm P
        = fillSlots (removedSlots 0 cs L.length) ((movedKept from_ perm cs L).map Prod.fst) := by
  have hplaced := h.placed
  obtain ⟨s, hs, hrem, hoff, hmap⟩ := mapToOriginal_spec hperm h₀ hle h
  obtain ⟨hcnt, hT⟩ := movedSlots_perm hperm h₀ hle h
  have hsnd := movedKept_snd hperm h₀ hle h
  -- `T` is the rearranged original list with its old indices, `Q` those indices
  generalize hTdef : fillSlots (slots 0 0 cs L.length) (movedKept from_ perm cs L) = T at hT
  have hQ : fillSlots ((slots 0 0 cs L.length).map (Option.map Prod.snd))
      ((movedKept from_ perm cs L).map Prod.snd) = T.map Prod.snd := by
    rw [← hTdef, fillSlots_map]
  have hfst : fillSlots (removedSlots 0 cs L.length) ((movedKept from_ perm cs L).map Prod.fst)
      = T.map Prod.fst := by
    rw [← hTdef, fillSlots_map, slots_map_fst]
  have hQperm : (T.map Prod.snd).Perm (segment id 0 P.length) := by
    have := hT.map Prod.snd
    rwa [map_snd_zip (by simp)] at this
  have hTlen : T.length = P.length := by
    have := hT.length_eq
    rwa [length_zip, segment_length, Nat.min_self] at this
  have hSlen : (slots 0 0 cs L.length).length = P.length := by
    rw [← fillSlots_length hcnt, hTdef, hTlen]
  have hnew : JavaArray.new (L.length + s.offset) (0 : Int) = .ok (List.replicate P.length 0) := by
    rw [hoff, hSlen]
    exact JavaArray.new_eq_ok (by omega) 0
  have hmask : Mask s.removed 0 (slots 0 0 cs L.length) := by
    have := @slots_mask _ s.removed _ _ _ _ L.length hplaced fun j _ => by rw [hrem]
    exact this
  obtain ⟨out, hout, houtlen, hrank⟩ := @Ranked.fillPerm _ _ _ _ _ (List.replicate P.length 0) [] _
      hmask rfl (fun k x hk => by cases hk) hsnd.symm
    (by rw [length_map]; exact hcnt)
    (by
      intro y hy
      rw [nil_append, hQ, hQperm.mem_iff, mem_segment] at hy
      obtain ⟨i, h1, h2, rfl⟩ := hy
      rw [length_replicate, id]
      omega)
    (by
      rw [nil_append, hQ, hQperm.nodup_iff]
      exact segment_id_nodup _ _)
  rw [nil_append, hQ] at hrank
  rw [length_replicate] at houtlen
  have hisperm : IsPermutation 0 out := hrank.isPermutation (by rw [houtlen, length_map, hTlen])
  refine ⟨out, ?_, houtlen, hisperm, ?_⟩
  · rw [originalPermutation]
    simp only [bind, Except.bind, hs, hmap, hnew, length_replicate]
    rw [hSlen] at hout
    exact hout
  · rw [hfst]
    apply hisperm.permuted_eq (Int.le_refl _) (by rw [houtlen]; omega)
      (by rw [length_map, hTlen])
    intro i hi
    -- the old index `i` stands somewhere in `T`, together with its element
    have hmem : (P[i], (i : Int)) ∈ T := by
      rw [hT.mem_iff]
      apply mem_of_getElem? (i := i)
      rw [getElem?_zip_eq_some, segment_getElem? _ _ _ _ hi]
      exact ⟨getElem?_eq_getElem hi, by simp⟩
    obtain ⟨k, hk⟩ := mem_iff_getElem?.mp hmem
    have himg : image 0 out i = k := hrank.image (by rw [getElem?_map, hk]; rfl) (by omega)
    rw [himg, Int.toNat_natCast, getElem?_map, hk, getElem?_eq_getElem hi]
    rfl

end

end Spec

/-! ## Joining two permutations -/

/-- The original list after the recorded permutation, if there is one. -/
def recordedPermutation (L₀ : List E) : Option (SubChange E) → Option (List E)
  | none => some L₀
  | some c => replayPermutation L₀ c

variable {P : List E}

theorem replayPermutation_eq_some {c : SubChange E} :
    replayPermutation L₀ c = some P ↔ (0 ≤ c.from_ ∧ c.to_ = c.from_ + c.perm.length ∧
      c.to_ ≤ L₀.length ∧ IsPermutation c.from_ c.perm) ∧ permuted c.from_ c.perm L₀ = P := by
  rw [replayPermutation, Option.ite_none_right_eq_some, Option.some.injEq]

theorem recordedPermutation_length
    (h : recordedPermutation L₀ pc = some P) : P.length = L₀.length := by
  cases pc with
  | none =>
    cases h
    rfl
  | some p =>
    obtain ⟨⟨h₀, hto, hle, hperm⟩, rfl⟩ := replayPermutation_eq_some.mp h
    exact hperm.permuted_length h₀ (by omega)

theorem image_subrange (hperm : IsPermutation from_ perm) {p : Int}
    (hlow : low ≤ from_) (hup : from_ + perm.length ≤ low + n) (h1 : low ≤ p) (h2 : p < low + n) :
    low ≤ image from_ perm p ∧ image from_ perm p < low + n := by
  by_cases hp : from_ ≤ p ∧ p < from_ + perm.length
  · have := hperm.image_range hp.1 hp.2
    omega
  · rw [image_of_not_range hp]
    exact ⟨h1, h2⟩

theorem isPermutation_segment {g : Int → Int}
    (hrng : ∀ i, low ≤ i → i < low + n → low ≤ g i ∧ g i < low + n)
    (hinj : ∀ i j, g i = g j → i = j) : IsPermutation low (segment g low n) := by
  rw [IsPermutation, segment_length]
  apply List.Subperm.perm_of_length_le
  · apply subperm_of_subset
    · have hmap : segment g low n = (segment id low n).map g := segment_map g id low n
      rw [hmap]
      exact (segment_id_nodup low n).map fun i j => hinj i j
    · intro x hx
      obtain ⟨i, h1, h2, rfl⟩ := mem_segment.mp hx
      have := hrng i h1 h2
      exact mem_segment.mpr ⟨g i, this.1, this.2, rfl⟩
  · simp

theorem image_segment {g : Int → Int} (hout : ∀ i, ¬ (low ≤ i ∧ i < low + n) → g i = i) (i : Int) :
    image low (segment g low n) i = g i := by
  by_cases hi : low ≤ i ∧ i < low + n
  · have hlt : (i - low).toNat < (segment g low n).length := by
      rw [segment_length]
      omega
    rw [image_eq_getElem hi.1 (by rw [segment_length]; exact hi.2) hlt]
    have hget := segment_getElem? g low n (i - low).toNat (by omega)
    rw [getElem?_eq_getElem hlt, Option.some.injEq] at hget
    have hi' : low + ((i - low).toNat : Int) = i := by omega
    rw [hget, hi']
  · rw [image_of_not_range (by rw [segment_length]; exact hi), hout i hi]

theorem replayPermutation_compose {p c : SubChange E}
    (hp : replayPermutation L₀ p = some P) (hperm : IsPermutation from_ perm) (h₀ : 0 ≤ c.from_)
    (hp_from : c.from_ ≤ p.from_) (hp_to : p.to_ ≤ c.from_ + k) (hfrom : c.from_ ≤ from_)
    (hto : from_ + perm.length ≤ c.from_ + k) (hk : c.from_ + k ≤ L₀.length)
    (hcto : c.to_ = c.from_ + k)
    (hc : c.perm = segment (fun i => image from_ perm (image p.from_ p.perm i)) c.from_ k) :
    replayPermutation L₀ c = some (permuted from_ perm P) := by
  obtain ⟨⟨hp0, hpto, hple, hpperm⟩, rfl⟩ := replayPermutation_eq_some.mp hp
  have hlen : (permuted p.from_ p.perm L₀).length = L₀.length :=
    hpperm.permuted_length hp0 (by omega)
  have hisperm : IsPermutation c.from_ c.perm := by
    rw [hc]
    apply isPermutation_segment
    · intro i h1 h2
      have := image_subrange hpperm hp_from (by omega) h1 h2
      exact image_subrange hperm hfrom hto this.1 this.2
    · intro i j hij
      exact hpperm.image_injective (hperm.image_injective hij)
  have himg : ∀ i, image c.from_ c.perm i = image from_ perm (image p.from_ p.perm i) := by
    rw [hc]
    apply image_segment
    intro i hi
    rw [@image_of_not_range p.from_ _ _ (by omega), image_of_not_range (by omega)]
  have hclen : c.perm.length = k := by rw [hc, segment_length]
  rw [replayPermutation_eq_some]
  refine ⟨⟨h₀, by omega, by omega, hisperm⟩, ?_⟩
  apply hisperm.permuted_eq h₀ (by omega)
  · rw [hperm.permuted_length (by omega) (by omega), hlen]
  · intro i hi
    obtain ⟨h1, h2⟩ := hpperm.image_bounds hp0 (n := L₀.length) (by omega) (p := i) (by omega)
      (by omega)
    have hstep := hperm.permuted_getElem?_image (A := permuted p.from_ p.perm L₀) (by omega)
      (by omega) (i := (image p.from_ p.perm i).toNat) (by omega)
    rw [Int.toNat_of_nonneg h1] at hstep
    rw [himg, hstep, hpperm.permuted_getElem?_image hp0 (by omega) hi]

theorem mapM_eq_map {α β : Type} {f : α → Except JavaException β} {g : α → β} {l : List α}
    (h : ∀ x ∈ l, f x = .ok (g x)) : l.mapM f = .ok (l.map g) := by
  induction l with
  | nil => rfl
  | cons x l ih =>
    rw [mapM_cons, h x mem_cons_self, ih fun y hy => h y (mem_cons_of_mem _ hy)]
    rfl

theorem perm_eq_segment (from_ : Int) (perm : List Int) :
    perm = segment (image from_ perm) from_ perm.length := by
  apply ext_getElem?
  intro k
  by_cases hk : k < perm.length
  · have hlt : (from_ + (k : Int) - from_).toNat < perm.length := by omega
    rw [segment_getElem? _ _ _ _ hk, image_eq_getElem (by omega) (by omega) hlt,
      ← getElem?_eq_getElem hlt]
    congr 1
    omega
  · rw [getElem?_eq_none (by omega), getElem?_eq_none (by rw [segment_length]; omega)]

/-- The permutation of the original list, before the one recorded last. -/
theorem joinPermutation_spec
    (h : recordedPermutation L₀ pc = some P) (hperm : IsPermutation from_ perm) (h₀ : 0 ≤ from_)
    (hle : from_ + perm.length ≤ P.length)
    (htouch : ∀ p ∈ pc, p.from_ ≤ from_ + perm.length ∧ from_ ≤ p.to_) :
    ∃ c, joinPermutation pc from_ (from_ + perm.length) perm = .ok c ∧
      recordedPermutation L₀ (some c) = some (permuted from_ perm P) := by
  have hlen := recordedPermutation_length h
  cases pc with
  | none =>
    cases h
    exact ⟨_, rfl, replayPermutation_eq_some.mpr ⟨⟨h₀, rfl, hle, hperm⟩, rfl⟩⟩
  | some p =>
    obtain ⟨htouch1, htouch2⟩ := htouch p rfl
    obtain ⟨⟨hp0, hpto, hple, hpperm⟩, -⟩ := replayPermutation_eq_some.mp h
    rw [joinPermutation]
    split
    · next hsame =>
      have hmap : p.perm.mapM (fun q => JavaArray.get perm (q - from_))
          = .ok (p.perm.map (image from_ perm)) := by
        apply mapM_eq_map
        intro q hq
        have := hpperm.mem_iff.mp hq
        exact get_eq_image (by omega) (by omega)
      rw [hmap]
      refine ⟨_, rfl, ?_⟩
      apply replayPermutation_compose (k := p.perm.length) h hperm <;> dsimp only <;> try omega
      rw [segment_map, ← perm_eq_segment]
    · have hent : (segment id (min p.from_ from_)
            (max p.to_ (from_ + perm.length) - min p.from_ from_).toNat).mapM
              (joinEntry p from_ (from_ + perm.length) perm)
          = .ok ((segment id (min p.from_ from_)
            (max p.to_ (from_ + perm.length) - min p.from_ from_).toNat).map
              fun i => image from_ perm (image p.from_ p.perm i)) := by
        apply mapM_eq_map
        intro i hi
        obtain ⟨i, h1, h2, rfl⟩ := mem_segment.mp hi
        rw [id, joinEntry]
        split
        · next hout =>
          rw [@image_of_not_range p.from_ _ _ (by omega)]
          exact get_eq_image (by omega) (by omega)
        · next hin =>
          rw [get_eq_image (by omega) (by omega)]
          simp only [bind, Except.bind]
          split
          · next hout =>
            rw [@image_of_not_range from_ _ _ (by omega)]
            rfl
          · next hin' => exact get_eq_image (by omega) (by omega)
      simp only [hent]
      refine ⟨_, rfl, ?_⟩
      apply replayPermutation_compose
        (k := (max p.to_ (from_ + perm.length) - min p.from_ from_).toNat) h hperm
        <;> dsimp only <;> try omega
      rw [← segment_map]
      rfl

end OpenJfx.Collections.ListChangeBuilder
