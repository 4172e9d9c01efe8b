/-
  OpenJfx.Collections.ListChangeBuilder.Origins

  Tracked sub-changes position by position: the removed elements stand where they stood in the old
  list, and the kept elements of the new one fill the rest in order.  `origins` and `removedOf`
  are what `nextPermutation` computes.
-/

import OpenJfx.Collections.ListChange
import OpenJfx.Lib.Slots

namespace OpenJfx.Collections

open List

variable {added : Int → Bool} {p q : Int} {E : Type}

/-- How far the old indices are ahead of the new ones behind `c`. -/
def SubChange.nextOffset (c : SubChange E) (off : Int) : Int :=
  off + (c.getRemoved.length - (c.to_ - c.from_))

/-- The old indices from `p` on. -/
def origins (p off : Int) : List (SubChange E) → Nat → List Int
  | [], len => segment (fun j => j + off) p len
  | c :: cs, len =>
    segment (fun j => j + off) p (c.from_ - p).toNat ++
      (List.replicate (c.to_ - c.from_).toNat (-1) ++
        origins c.to_ (c.nextOffset off) cs (len - (c.to_ - p).toNat))

/-- The old indices of the removed elements. -/
def removedOf (off : Int) : List (SubChange E) → List Int
  | [] => []
  | c :: cs => segment id (c.from_ + off) c.getRemoved.length ++ removedOf (c.nextOffset off) cs

/-- The removed elements with their indices. -/
def slots (p off : Int) : List (SubChange E) → Nat → List (Option (E × Int))
  | [], len => List.replicate len none
  | c :: cs, len =>
    List.replicate (c.from_ - p).toNat none ++
      ((c.getRemoved.zip (segment id (c.from_ + off) c.getRemoved.length)).map some ++
        slots c.to_ (c.nextOffset off) cs (len - (c.to_ - p).toNat))

/-- The removed elements, each with the number of kept ones before it. -/
def blocks (p : Int) (t : Nat) : List (SubChange E) → List (Nat × E)
  | [] => []
  | c :: cs =>
    c.getRemoved.map (fun x => (t + (c.from_ - p).toNat, x)) ++
      blocks c.to_ (t + (c.from_ - p).toNat) cs

/-- The kept elements of the new list. -/
def keptOf (p : Int) : List (SubChange E) → List E → List E
  | [], B => B
  | c :: cs, B =>
    B.take (c.from_ - p).toNat ++ keptOf c.to_ cs (B.drop (c.to_ - p).toNat)

/-- The sub-changes stand one after the other in `[p, q]`. -/
def Placed : Int → List (SubChange E) → Int → Prop
  | p, [], q => p ≤ q
  | p, c :: cs, q => p ≤ c.from_ ∧ c.from_ ≤ c.to_ ∧ Placed c.to_ cs q

instance Placed.decidable : ∀ (p : Int) (cs : List (SubChange E)) (q : Int),
    Decidable (Placed p cs q)
  | p, [], q => inferInstanceAs (Decidable (p ≤ q))
  | p, c :: cs, q =>
    have := Placed.decidable c.to_ cs q
    inferInstanceAs (Decidable (p ≤ c.from_ ∧ c.from_ ≤ c.to_ ∧ Placed c.to_ cs q))

/-- The position is one of those the sub-changes have added. -/
def covers (cs : List (SubChange E)) (p : Int) : Bool :=
  cs.any fun c => c.from_ ≤ p ∧ p < c.to_

/-- How many positions before `q` are not added ones. -/
def keptBefore (added : Int → Bool) (q : Int) : Nat :=
  (segment id 0 q.toNat).countP fun p => !added p

variable {cs : List (SubChange E)} {B : List E} {low : Int}

theorem Placed.le (h : Placed p cs q) : p ≤ q := by
  induction cs generalizing p with
  | nil => exact h
  | cons c cs ih =>
    have := ih h.2.2
    have := h.1
    have := h.2.1
    omega

/-! ## From `Tracks` to slots -/

variable {A : List E}

theorem Tracks.placed (h : Tracks p cs A B) :
    Placed p cs (p + B.length) := by
  induction cs generalizing p A B with
  | nil => exact Int.le_add_of_nonneg_right (by omega)
  | cons c cs ih =>
    obtain ⟨kept, added, A', B', hf, ht, rfl, rfl, h⟩ := h
    refine ⟨by omega, by omega, ?_⟩
    have := ih h
    have hend : c.to_ + B'.length = p + (kept ++ added ++ B').length := by
      simp only [length_append]
      omega
    rwa [hend] at this

theorem segment_add_const (low off : Int) (n : Nat) :
    segment (fun j => j + off) low n = segment id (low + off) n :=
  segment_shift fun _ _ _ => rfl

theorem pieces_length {from_ to_ : Int} {kept added B' : List E}
    (hf : from_ = p + (kept.length : Int)) (ht : to_ = from_ + (added.length : Int)) :
    (from_ - p).toNat = kept.length ∧ (to_ - from_).toNat = added.length ∧
      (to_ - p).toNat = (kept ++ added).length ∧
      (kept ++ added ++ B').length - (to_ - p).toNat = B'.length := by
  simp only [length_append]
  omega

theorem zip_segment_filter {off : Int} (h : 0 ≤ p + off) (xs : List E) :
    (xs.zip (segment (fun j => j + off) p xs.length)).filter (fun x => x.2 ≠ -1)
      = xs.zip (segment id (p + off) xs.length) := by
  rw [segment_add_const, filter_eq_self]
  intro x hx
  obtain ⟨i, h1, -, h2⟩ := mem_segment.mp (of_mem_zip hx).2
  simp only [id, ne_eq, decide_not, Bool.not_eq_true', decide_eq_false_iff_not] at *
  omega

theorem zip_replicate_filter (xs : List E) :
    (xs.zip (List.replicate xs.length (-1 : Int))).filter (fun x => x.2 ≠ -1) = [] := by
  rw [filter_eq_nil_iff]
  intro x hx
  simpa using eq_of_mem_replicate (of_mem_zip hx).2

theorem Tracks.fillSlots_eq {p off : Int} {cs : List (SubChange E)} {A B : List E}
    (h : Tracks p cs A B) (h0 : 0 ≤ p + off) :
    (origins p off cs B.length).length = B.length ∧
    (slots p off cs B.length).countP (·.isNone)
      = ((B.zip (origins p off cs B.length)).filter fun x => x.2 ≠ -1).length ∧
    fillSlots (slots p off cs B.length)
        ((B.zip (origins p off cs B.length)).filter fun x => x.2 ≠ -1)
      = A.zip (segment id (p + off) A.length) := by
  induction cs generalizing p off A B with
  | nil =>
    rw [Tracks] at h
    subst h
    refine ⟨by simp [origins], ?_, ?_⟩
    · rw [origins, zip_segment_filter h0]
      simp [slots, countP_replicate]
    · rw [origins, zip_segment_filter h0, slots]
      have := fillSlots_empty (A.zip (segment id (p + off) A.length)) [] []
      simpa [fillSlots] using this
  | cons c cs ih =>
    obtain ⟨kept, added, A', B', hf, ht, rfl, rfl, h⟩ := h
    obtain ⟨hk, ha, hka, hrest⟩ := pieces_length hf ht
    have hoff : c.to_ + c.nextOffset off = p + off + kept.length + c.getRemoved.length := by
      rw [SubChange.nextOffset]
      omega
    obtain ⟨ihlen, ihcount, ihfill⟩ := @ih _ (c.nextOffset off) _ _ h (by omega)
    -- the pieces of the new list with their indices
    have hzip : (kept ++ added ++ B').zip (origins p off (c :: cs) (kept ++ added ++ B').length)
        = kept.zip (segment (fun j => j + off) p kept.length) ++
          (added.zip (List.replicate added.length (-1)) ++
            B'.zip (origins c.to_ (c.nextOffset off) cs B'.length)) := by
      rw [origins, hrest, hk, ha, append_assoc, zip_append (by simp),
        zip_append (by simp)]
    have hfilt : ((kept ++ added ++ B').zip
          (origins p off (c :: cs) (kept ++ added ++ B').length)).filter (fun x => x.2 ≠ -1)
        = kept.zip (segment id (p + off) kept.length) ++
          (B'.zip (origins c.to_ (c.nextOffset off) cs B'.length)).filter fun x => x.2 ≠ -1 := by
      rw [hzip, filter_append, filter_append, zip_segment_filter h0,
        zip_replicate_filter, nil_append]
    refine ⟨?_, ?_, ?_⟩
    · rw [origins, hrest, hk, ha]
      simp only [length_append, segment_length, length_replicate, ihlen]
      omega
    · rw [hfilt, slots, hrest, hk, countP_append, countP_append, ihcount]
      simp [countP_replicate, countP_map]
    · have hkept := fillSlots_empty (kept.zip (segment id (p + off) kept.length))
        ((c.getRemoved.zip (segment id (c.from_ + off) c.getRemoved.length)).map some ++
          slots c.to_ (c.nextOffset off) cs B'.length)
        ((B'.zip (origins c.to_ (c.nextOffset off) cs B'.length)).filter fun x => x.2 ≠ -1)
      rw [length_zip, segment_length, Nat.min_self] at hkept
      have hfrom : c.from_ + off = p + off + kept.length := by omega
      rw [hfilt, slots, hrest, hk, hkept, fillSlots_given, ihfill, hfrom, hoff, append_assoc,
        length_append, length_append, segment_add, segment_add,
        zip_append (by simp), zip_append (by simp)]

/-! ## From slots to `Tracks` -/

/-- The removed elements where they stood, without their indices. -/
def removedSlots (p : Int) (cs : List (SubChange E)) (len : Nat) : List (Option E) :=
  (slots p 0 cs len).map (Option.map Prod.fst)

theorem map_fst_zip_segment (r : List E) (low : Int) :
    ((r.zip (segment id low r.length)).map some).map (Option.map Prod.fst) = r.map some := by
  have hzip : (r.zip (segment id low r.length)).map Prod.fst = r := map_fst_zip (by simp)
  rw [map_map]
  calc (r.zip (segment id low r.length)).map (Option.map Prod.fst ∘ some)
      = ((r.zip (segment id low r.length)).map Prod.fst).map some := by
        rw [map_map]
        rfl
    _ = r.map some := by rw [hzip]

theorem slots_map_fst (p off : Int) (cs : List (SubChange E)) (len : Nat) :
    (slots p off cs len).map (Option.map Prod.fst) = removedSlots p cs len := by
  rw [removedSlots]
  generalize (0 : Int) = off'
  induction cs generalizing p off off' len with
  | nil => rfl
  | cons c cs ih =>
    simp only [slots, map_append, map_fst_zip_segment, ih _ (c.nextOffset off)
      _ (c.nextOffset off')]

theorem removedSlots_nil (p : Int) (len : Nat) :
    removedSlots p ([] : List (SubChange E)) len = List.replicate len none := by
  simp [removedSlots, slots]

theorem removedSlots_cons (p : Int) (c : SubChange E) (cs : List (SubChange E)) (len : Nat) :
    removedSlots p (c :: cs) len = List.replicate (c.from_ - p).toNat none ++
        (c.getRemoved.map some ++ removedSlots c.to_ cs (len - (c.to_ - p).toNat)) := by
  rw [removedSlots, slots, map_append, map_append, map_fst_zip_segment, slots_map_fst,
    map_replicate]
  rfl

theorem Placed.tracks (h : Placed p cs (p + B.length)) :
    Tracks p cs (fillSlots (removedSlots p cs B.length) (keptOf p cs B)) B := by
  induction cs generalizing p B with
  | nil =>
    have := fillSlots_empty B [] []
    rw [append_nil, append_nil] at this
    rw [removedSlots_nil, keptOf, this, fillSlots, append_nil, Tracks]
  | cons c cs ih =>
    obtain ⟨hf, ht, h⟩ := h
    have hq := h.le
    have hend : p + (B.length : Int) = c.to_ + (B.drop (c.to_ - p).toNat).length := by
      rw [length_drop]
      omega
    rw [hend] at h
    have hkept : (B.take (c.from_ - p).toNat).length = (c.from_ - p).toNat := by
      rw [length_take]
      omega
    have hfill := fillSlots_empty (B.take (c.from_ - p).toNat)
      (c.getRemoved.map some ++ removedSlots c.to_ cs (B.length - (c.to_ - p).toNat))
      (keptOf c.to_ cs (B.drop (c.to_ - p).toNat))
    rw [hkept] at hfill
    rw [removedSlots_cons, keptOf, hfill, fillSlots_given, ← append_assoc]
    refine ⟨B.take (c.from_ - p).toNat,
      (B.drop (c.from_ - p).toNat).take (c.to_ - c.from_).toNat, _, B.drop (c.to_ - p).toNat,
      by omega, ?_, rfl, ?_, ?_⟩
    · rw [length_take, length_drop]
      omega
    · have hadd : (c.to_ - p).toNat = (c.from_ - p).toNat + (c.to_ - c.from_).toNat := by omega
      rw [hadd, ← drop_drop, append_assoc, take_append_drop, take_append_drop]
    · have hlen : B.length - (c.to_ - p).toNat = (B.drop (c.to_ - p).toNat).length := by
        rw [length_drop]
      rw [hlen]
      exact ih h

/-! ## The slots by counts -/

theorem blocks_ge {t : Nat} : ∀ x ∈ blocks p t cs, t ≤ x.1 := by
  induction cs generalizing p t with
  | nil => simp [blocks]
  | cons c cs ih =>
    intro x hx
    rw [blocks, mem_append, mem_map] at hx
    rcases hx with ⟨e, -, rfl⟩ | hx
    · exact Nat.le_add_right _ _
    · have := ih x hx
      omega

theorem removedSlots_eq_weave (h : Placed p cs (p + B.length)) (t : Nat) :
    removedSlots p cs B.length = weave t (blocks p t cs) (t + (keptOf p cs B).length) := by
  induction cs generalizing p B t with
  | nil => simp [removedSlots_nil, blocks, keptOf, weave]
  | cons c cs ih =>
    obtain ⟨hf, ht, h⟩ := h
    have hq := h.le
    have hlen : B.length - (c.to_ - p).toNat = (B.drop (c.to_ - p).toNat).length := by
      rw [length_drop]
    have hend : p + (B.length : Int) = c.to_ + (B.drop (c.to_ - p).toNat).length := by
      rw [length_drop]
      omega
    rw [hend] at h
    have htotal : t + (keptOf p (c :: cs) B).length
        = t + (c.from_ - p).toNat + (keptOf c.to_ cs (B.drop (c.to_ - p).toNat)).length := by
      rw [keptOf, length_append, length_take]
      omega
    rw [removedSlots_cons, blocks, hlen, ih h (t + (c.from_ - p).toNat), htotal,
      weave_block (Nat.le_add_right _ _) _ blocks_ge (Nat.le_add_right _ _),
      Nat.add_sub_cancel_left]

/-! ## Added positions -/

theorem covers_iff :
    covers cs p = true ↔ ∃ c ∈ cs, c.from_ ≤ p ∧ p < c.to_ := by
  simp [covers]

theorem Placed.bounds (h : Placed p cs q) :
    ∀ c ∈ cs, p ≤ c.from_ ∧ c.from_ ≤ c.to_ ∧ c.to_ ≤ q := by
  induction cs generalizing p with
  | nil => simp
  | cons c cs ih =>
    obtain ⟨hf, ht, h⟩ := h
    have hq := h.le
    intro d hd
    rcases mem_cons.mp hd with rfl | hd
    · exact ⟨hf, ht, hq⟩
    · have := ih h d hd
      omega

theorem covers_cons_eq {i : Int} {c : SubChange E} (h : Placed p (c :: cs) q) :
    (i < c.from_ → covers (c :: cs) i = false) ∧
      (c.from_ ≤ i → i < c.to_ → covers (c :: cs) i = true) ∧
      (c.to_ ≤ i → covers (c :: cs) i = covers cs i) := by
  obtain ⟨hf, ht, h⟩ := h
  refine ⟨fun hi => ?_, fun h1 h2 => ?_, fun hi => ?_⟩
  · rw [Bool.eq_false_iff]
    intro hc
    obtain ⟨d, hd, h1, h2⟩ := covers_iff.mp hc
    rcases mem_cons.mp hd with rfl | hd
    · omega
    · have := h.bounds d hd
      omega
  · exact covers_iff.mpr ⟨c, .head _, h1, h2⟩
  · have : (decide (c.from_ ≤ i ∧ i < c.to_)) = false := by
      rw [decide_eq_false_iff_not]
      omega
    rw [covers, any_cons, this, Bool.false_or, covers]

theorem origins_kept {off : Int} {n : Nat} (h : 0 ≤ low + off)
    (hadded : ∀ i, low ≤ i → i < low + n → added i = false) :
    (segment (fun j => j + off) low n).map (fun o => decide (o = -1)) = segment added low n := by
  rw [← segment_map]
  apply segment_congr
  intro i h1 h2
  rw [hadded i h1 h2, decide_eq_false_iff_not]
  omega

theorem origins_added {n : Nat} (hadded : ∀ i, low ≤ i → i < low + n → added i = true) :
    (List.replicate n (-1 : Int)).map (fun o => decide (o = -1)) = segment added low n := by
  induction n generalizing low with
  | zero => rfl
  | succ n ih =>
    rw [replicate_succ, map_cons, segment_succ, hadded low (by omega) (by omega),
      @ih (low + 1) fun i h1 h2 => hadded i (by omega) (by omega)]
    rfl

theorem origins_eq_covers {p off : Int} {cs : List (SubChange E)} {len : Nat}
    (h : Placed p cs (p + len)) (h0 : 0 ≤ p + off) :
    (origins p off cs len).map (fun o => decide (o = -1)) = segment (covers cs) p len := by
  induction cs generalizing p off len with
  | nil => exact origins_kept h0 fun i _ _ => rfl
  | cons c cs ih =>
    have hcov := fun i => covers_cons_eq (i := i) h
    obtain ⟨hf, ht, h⟩ := h
    have hq := h.le
    have hlen : len = (c.from_ - p).toNat + ((c.to_ - c.from_).toNat +
        (len - (c.to_ - p).toNat)) := by omega
    have hend : p + (len : Int) = c.to_ + ((len - (c.to_ - p).toNat : Nat) : Int) := by omega
    rw [hend] at h
    have hfrom : p + ((c.from_ - p).toNat : Int) = c.from_ := by omega
    have hto : c.from_ + ((c.to_ - c.from_).toNat : Int) = c.to_ := by omega
    have hnxt : 0 ≤ c.to_ + c.nextOffset off := by
      rw [SubChange.nextOffset]
      omega
    rw [origins, map_append, map_append]
    conv_rhs => rw [hlen, segment_add, segment_add, hfrom, hto]
    rw [origins_kept h0 fun i _ h2 => (hcov i).1 (by omega),
      origins_added fun i h1 h2 => (hcov i).2.1 h1 (by omega), ih h hnxt]
    congr 2
    apply segment_congr
    intro i h1 h2
    exact ((hcov i).2.2 h1).symm

theorem filter_kept {xs : List E} (h : ∀ i, low ≤ i → i < low + xs.length → added i = false) :
    ((xs.zip (segment added low xs.length)).filter fun x => !x.2).map Prod.fst = xs := by
  rw [filter_eq_self.mpr, map_fst_zip (by simp)]
  intro x hx
  obtain ⟨i, h1, h2, hi⟩ := mem_segment.mp (of_mem_zip hx).2
  rw [← hi, h i h1 h2]
  rfl

theorem filter_added {xs : List E} (h : ∀ i, low ≤ i → i < low + xs.length → added i = true) :
    (xs.zip (segment added low xs.length)).filter (fun x => !x.2) = [] := by
  rw [filter_eq_nil_iff]
  intro x hx
  obtain ⟨i, h1, h2, hi⟩ := mem_segment.mp (of_mem_zip hx).2
  rw [← hi, h i h1 h2]
  decide

/-- The kept elements are those at the positions that are not added. -/
theorem keptOf_eq_filter (h : Placed p cs (p + B.length)) :
    keptOf p cs B = ((B.zip (segment (covers cs) p B.length)).filter fun x => !x.2).map Prod.fst := by
  induction cs generalizing p B with
  | nil => exact (filter_kept fun _ _ _ => rfl).symm
  | cons c cs ih =>
    have hcov := fun i => covers_cons_eq (i := i) h
    obtain ⟨hf, ht, h⟩ := h
    have hq := h.le
    obtain ⟨kept, added, B', rfl, hk, ha⟩ : ∃ kept added B', B = kept ++ (added ++ B') ∧
        c.from_ = p + (kept : List E).length ∧ c.to_ = c.from_ + (added : List E).length := by
      refine ⟨B.take (c.from_ - p).toNat, (B.drop (c.from_ - p).toNat).take (c.to_ - c.from_).toNat,
        (B.drop (c.from_ - p).toNat).drop (c.to_ - c.from_).toNat, ?_, ?_, ?_⟩
      · rw [take_append_drop, take_append_drop]
      · rw [length_take]
        omega
      · rw [length_take, length_drop]
        omega
    have hend : p + ((kept ++ (added ++ B')).length : Int) = c.to_ + B'.length := by
      simp only [length_append]
      omega
    rw [hend] at h
    have hB' : segment (covers (c :: cs)) c.to_ B'.length = segment (covers cs) c.to_ B'.length :=
      segment_congr fun i h1 _ => (hcov i).2.2 h1
    have hkl : (c.from_ - p).toNat = kept.length := by omega
    have hal : (c.to_ - p).toNat = (kept ++ added).length := by
      rw [length_append]
      omega
    rw [keptOf, hkl, hal, take_left, ← append_assoc, drop_left, ih h,
      append_assoc, length_append, length_append, segment_add, segment_add,
      zip_append (by simp), zip_append (by simp), filter_append,
      filter_append, map_append, ← hk, ← ha, hB',
      filter_kept fun i _ h2 => (hcov i).1 (by omega),
      filter_added fun i h1 h2 => (hcov i).2.1 h1 (by omega), nil_append]

/-! ## Counting the kept positions -/

theorem keptBefore_add (added : Int → Bool) (h : 0 ≤ q) (n : Nat) :
    keptBefore added (q + n) = keptBefore added q + (segment id q n).countP fun p => !added p := by
  have hn : (q + n).toNat = q.toNat + n := by omega
  have hq : (0 : Int) + (q.toNat : Int) = q := by omega
  rw [keptBefore, keptBefore, hn, segment_add, countP_append, hq]

theorem keptBefore_kept {r : Int} (h : 0 ≤ q) (hqr : q ≤ r)
    (hadded : ∀ i, q ≤ i → i < r → added i = false) :
    keptBefore added r = keptBefore added q + (r - q).toNat := by
  have hr : r = q + (r - q).toNat := by omega
  conv_lhs => rw [hr]
  rw [keptBefore_add added h, countP_eq_length.mpr, segment_length]
  intro p hp
  obtain ⟨i, h1, h2, rfl⟩ := mem_segment.mp hp
  rw [id, hadded i h1 (by omega)]
  rfl

theorem keptBefore_added {r : Int} (h : 0 ≤ q) (hqr : q ≤ r)
    (hadded : ∀ i, q ≤ i → i < r → added i = true) :
    keptBefore added r = keptBefore added q := by
  have hr : r = q + (r - q).toNat := by omega
  conv_lhs => rw [hr]
  rw [keptBefore_add added h, countP_eq_zero.mpr, Nat.add_zero]
  intro p hp
  obtain ⟨i, h1, h2, rfl⟩ := mem_segment.mp hp
  rw [id, hadded i h1 (by omega)]
  decide

/-- Removed elements by the kept ones before. -/
def anchored (added : Int → Bool) (cs : List (SubChange E)) : List (Nat × E) :=
  cs.flatMap fun c => c.getRemoved.map fun x => (keptBefore added c.from_, x)

theorem blocks_eq_anchored
    (h : Placed p cs q) (hp : 0 ≤ p) (hadded : ∀ i, p ≤ i → added i = covers cs i) :
    blocks p (keptBefore added p) cs = anchored added cs := by
  induction cs generalizing p with
  | nil => rfl
  | cons c cs ih =>
    have hcov := fun i => covers_cons_eq (i := i) h
    obtain ⟨hf, ht, h⟩ := h
    have hfrom : keptBefore added c.from_ = keptBefore added p + (c.from_ - p).toNat := by
      apply keptBefore_kept hp hf
      intro i h1 h2
      rw [hadded i h1, (hcov i).1 h2]
    have hto : keptBefore added c.to_ = keptBefore added c.from_ := by
      apply keptBefore_added (by omega) ht
      intro i h1 h2
      rw [hadded i (by omega), (hcov i).2.1 h1 h2]
    rw [blocks, ← hfrom, ← hto, ih h (by omega)]
    · simp [anchored, hto]
    · intro i hi
      rw [hadded i (by omega), (hcov i).2.2 hi]

/-! ## From `replay` to `Tracks` -/

theorem replay_take [DecidableEq E] {final cur out : List E} {q : Nat}
    (h : replay final cs cur = some out) (hcs : ∀ c ∈ cs, (q : Int) ≤ c.from_) :
    out.take q = cur.take q := by
  induction cs generalizing cur with
  | nil =>
    cases h
    rfl
  | cons c cs ih =>
    obtain ⟨next, hnxt, h⟩ := Option.bind_eq_some_iff.mp h
    rw [replayStep, Option.ite_none_right_eq_some, Option.some.injEq] at hnxt
    obtain ⟨⟨h1, h2, h3, h4, -⟩, rfl⟩ := hnxt
    have hq := hcs c mem_cons_self
    rw [ih h fun d hd => hcs d (mem_cons_of_mem _ hd), append_assoc,
      take_append_of_le_length (by rw [length_take]; omega), take_take,
      Nat.min_eq_left (by omega)]

theorem tracks_of_replay_aux [DecidableEq E] {P : List E}
    (h : replay (P ++ B) cs (P ++ A) = some (P ++ B))
    (hplaced : Placed P.length cs (P.length + B.length)) : Tracks P.length cs A B := by
  induction cs generalizing P A B with
  | nil =>
    rw [replay, Option.some.injEq] at h
    exact append_cancel_left h
  | cons c cs ih =>
    obtain ⟨hf, ht, hplaced⟩ := hplaced
    have hq := hplaced.le
    obtain ⟨next, hnxt, h⟩ := Option.bind_eq_some_iff.mp h
    rw [replayStep, Option.ite_none_right_eq_some, Option.some.injEq] at hnxt
    obtain ⟨⟨-, -, -, hcur, hrem⟩, rfl⟩ := hnxt
    obtain ⟨k, hk⟩ : ∃ k : Nat, c.from_ = P.length + k := ⟨(c.from_ - P.length).toNat, by omega⟩
    obtain ⟨a, ha⟩ : ∃ a : Nat, c.to_ = c.from_ + a := ⟨(c.to_ - c.from_).toNat, by omega⟩
    have hfrom : c.from_.toNat = P.length + k := by omega
    have hadd : (c.to_ - c.from_).toNat = a := by omega
    have hkA : k ≤ A.length := by
      rw [length_append] at hcur
      omega
    rw [hfrom, drop_length_add_append] at hrem
    rw [hfrom, hadd, take_length_add_append, drop_length_add_append, Nat.add_assoc,
      drop_length_add_append] at h
    -- what stands before `c.to_` stays, so the kept stretch is the same in both lists
    have hprefix := replay_take (q := (P ++ A.take k ++ (B.drop k).take a).length) h (by
      intro d hd
      have := hplaced.bounds d hd
      simp only [length_append, length_take, length_drop]
      omega)
    have hlen : (P ++ A.take k ++ (B.drop k).take a).length = P.length + (k + a) := by
      simp only [length_append, length_take, length_drop]
      omega
    rw [take_left, hlen, take_length_add_append, append_assoc,
      append_cancel_left_eq, take_add, append_cancel_right_eq] at hprefix
    have hB : B = A.take k ++ (B.drop k).take a ++ B.drop (k + a) := by
      rw [← hprefix, append_assoc, ← drop_drop, take_append_drop, take_append_drop]
    refine ⟨A.take k, (B.drop k).take a, A.drop (k + c.getRemoved.length), B.drop (k + a), ?_, ?_,
      ?_, hB, ?_⟩
    · rw [length_take]
      omega
    · rw [length_take, length_drop]
      omega
    · have hA := take_append_drop c.getRemoved.length (A.drop k)
      rw [hrem, drop_drop] at hA
      rw [append_assoc, hA, take_append_drop]
    · have hto : c.to_ = (P ++ A.take k ++ (B.drop k).take a).length := by omega
      rw [hto]
      apply ih
      · rw [append_assoc (P ++ A.take k), append_assoc P, ← append_assoc (A.take k), ← hB]
        exact h
      · have hend : (P.length : Int) + B.length
            = (P ++ A.take k ++ (B.drop k).take a).length + (B.drop (k + a)).length := by
          rw [hlen, length_drop]
          omega
        rw [← hend, ← hto]
        exact hplaced

theorem tracks_of_replay [DecidableEq E]
    (h : replay B cs A = some B) (hplaced : Placed 0 cs B.length) : Tracks 0 cs A B :=
  tracks_of_replay_aux (P := []) h (by simpa using hplaced)

end OpenJfx.Collections
