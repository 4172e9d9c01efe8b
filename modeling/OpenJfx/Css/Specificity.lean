/-
  OpenJfx.Css.Specificity

  `com.sun.javafx.css.Match` and the `createMatch()` of both kinds of selectors.  A match packs
  the number of ids, style classes and pseudo-classes into one `int`, meant to be ordered as the
  three counts.  The last two have four bits each, and a compound selector counts the union of the
  pseudo-classes of its parts, without `:dir()`.  A selector `Fits` when neither matters.
-/

import OpenJfx.Css.CompoundSelector
import Mathlib.Data.Nat.Bitwise
import Mathlib.Algebra.BigOperators.Group.List.Basic

namespace OpenJfx.Css

open Nat Finset SimpleSelector

variable {s : Selector}

/-- `size()` of a set, an `int`. -/
def size (names : Finset String) : BitVec 32 := BitVec.ofNat 32 names.card

/-- `Match`, with its counts as `int`s. -/
structure Match where
  selector : Selector
  pseudoClasses : Finset String
  idCount : BitVec 32
  styleClassCount : BitVec 32
  specificity : BitVec 32

namespace Match

/-- `:dir()` counts where the selector is simple. -/
def nPseudoClasses (selector : Selector) (pseudoClasses : Finset String) : BitVec 32 :=
  match selector with
  | .simple simple =>
    if simple.nodeOrientation ≠ .inherit then size pseudoClasses + 1 else size pseudoClasses
  | .compound _ => size pseudoClasses

/-- `(idCount << 8) | (styleClassCount << 4) | nPseudoClasses`. -/
def pack (idCount styleClassCount nPseudoClasses : BitVec 32) : BitVec 32 :=
  idCount <<< 8 ||| styleClassCount <<< 4 ||| nPseudoClasses

/-- The constructor. -/
def new (selector : Selector) (pseudoClasses : Finset String)
    (idCount styleClassCount : BitVec 32) : Match where
  selector := selector
  pseudoClasses := pseudoClasses
  idCount := idCount
  styleClassCount := styleClassCount
  specificity := pack idCount styleClassCount (nPseudoClasses selector pseudoClasses)

end Match

/-- `createMatch` of a simple selector. -/
def SimpleSelector.createMatch (s : SimpleSelector) : Match :=
  let idCount := if s.matchOnId then 1 else 0
  let styleClassCount := size s.styleClassSet
  .new (.simple s) s.pseudoClassState idCount styleClassCount

/-- The loop of `CompoundSelector.createMatch()` over the simple selectors. -/
def CompoundSelector.createMatchLoop : List SimpleSelector → Finset String → BitVec 32 →
    BitVec 32 → Finset String × BitVec 32 × BitVec 32
  | [], allPseudoClasses, idCount, styleClassCount => (allPseudoClasses, idCount, styleClassCount)
  | sel :: rest, allPseudoClasses, idCount, styleClassCount =>
    let m := sel.createMatch
    createMatchLoop rest (allPseudoClasses ∪ m.pseudoClasses) (idCount + m.idCount)
      (styleClassCount + m.styleClassCount)

/-- The counts of all parts are added up. -/
def CompoundSelector.createMatch (c : CompoundSelector) : Match :=
  let (allPseudoClasses, idCount, styleClassCount) := createMatchLoop c.selectors ∅ 0 0
  .new (.compound c) allPseudoClasses idCount styleClassCount

/-! ## Counts -/

/-- What the specificity is made of. -/
structure Counts where
  ids : Nat
  styleClasses : Nat
  pseudoClassParts : Nat
  deriving DecidableEq, Repr

/-- Lexicographic order. -/
def Counts.compare (a b : Counts) : Ordering :=
  (Ord.compare a.ids b.ids).then ((Ord.compare a.styleClasses b.styleClasses).then
      (Ord.compare a.pseudoClassParts b.pseudoClassParts))

theorem Counts.eq_of_compare {a b : Counts} (h : a.compare b = .eq) : a = b := by
  rw [Counts.compare, Ordering.then_eq_eq, Ordering.then_eq_eq, Nat.compare_eq_eq,
    Nat.compare_eq_eq, Nat.compare_eq_eq] at h
  obtain ⟨h1, h2, h3⟩ := h
  cases a
  cases b
  simp_all

theorem Counts.compare_none (a : Counts) : a.compare ⟨0, 0, 0⟩ ≠ .lt := by
  rw [Counts.compare, Ne, Ordering.then_eq_lt, Ordering.then_eq_lt, Nat.compare_eq_lt,
    Nat.compare_eq_lt, Nat.compare_eq_lt]
  dsimp only
  omega

namespace SimpleSelector

def ids (s : SimpleSelector) : Nat := if s.matchOnId then 1 else 0

def styleClasses (s : SimpleSelector) : Nat := s.styleClassSet.card

/-- The pseudo-classes of a simple selector, `:dir()` included. -/
def pseudoClassParts (s : SimpleSelector) : Nat :=
  s.pseudoClassState.card + if s.nodeOrientation ≠ .inherit then 1 else 0

end SimpleSelector

namespace Selector

def createMatch : Selector → Match
  | simple s => s.createMatch
  | compound c => c.createMatch

def specificity (s : Selector) : BitVec 32 := s.createMatch.specificity

/-- The simple selectors a selector is made of. -/
def parts : Selector → List SimpleSelector
  | simple s => [s]
  | compound c => c.selectors

/-- The counts, summed over all simple selectors. -/
def counts (s : Selector) : Counts where
  ids := (s.parts.map ids).sum
  styleClasses := (s.parts.map styleClasses).sum
  pseudoClassParts := (s.parts.map pseudoClassParts).sum

/-- The specificities of two selectors compare as their counts do. -/
def OrderedAlike (s t : Selector) : Prop :=
  compare s.specificity.toInt t.specificity.toInt = s.counts.compare t.counts

/-- No `:dir()` when compound, no pseudo-class in two places. -/
def CountsAll : Selector → Prop
  | simple _ => True
  | compound c => (c.selectors.map pseudoClassState).Pairwise Disjoint ∧
      ∀ s ∈ c.selectors, s.nodeOrientation = .inherit

/-- The counts fit their bits, and every part is counted. -/
structure Fits (s : Selector) : Prop where
  ids : s.counts.ids < 2 ^ 23
  styleClasses : s.counts.styleClasses < 16
  pseudoClassParts : s.counts.pseudoClassParts < 16
  countsAll : s.CountsAll

end Selector

/-! ## The packed number -/

namespace Match

/-- Counts within their bits are the digits of the packed number. -/
theorem toNat_pack {ids styleClasses parts : Nat} (hids : ids < 2 ^ 23)
    (hcls : styleClasses < 16) (hparts : parts < 16) :
    (pack (BitVec.ofNat 32 ids) (BitVec.ofNat 32 styleClasses) (BitVec.ofNat 32 parts)).toNat =
      (ids * 16 + styleClasses) * 16 + parts := by
  have h1 : (BitVec.ofNat 32 ids <<< 8).toNat = ids <<< 8 := by
    rw [BitVec.toNat_shiftLeft, BitVec.toNat_ofNat, shiftLeft_eq, shiftLeft_eq]
    omega
  have h2 : (BitVec.ofNat 32 styleClasses <<< 4).toNat = styleClasses <<< 4 := by
    rw [BitVec.toNat_shiftLeft, BitVec.toNat_ofNat, shiftLeft_eq, shiftLeft_eq]
    omega
  have h3 : (BitVec.ofNat 32 parts).toNat = parts := by
    rw [BitVec.toNat_ofNat]
    omega
  have hlow : styleClasses <<< 4 + parts < 2 ^ 8 := by
    rw [shiftLeft_eq]
    omega
  rw [pack, BitVec.toNat_or, BitVec.toNat_or, h1, h2, h3, Nat.or_assoc,
    ← shiftLeft_add_eq_or_of_lt (show parts < 2 ^ 4 by omega),
    ← shiftLeft_add_eq_or_of_lt hlow, shiftLeft_eq, shiftLeft_eq]
  omega

end Match

theorem compare_digits {base d d' r r' : Nat} (hr : r < base) (hr' : r' < base) :
    compare (d * base + r) (d' * base + r') = (compare d d').then (compare r r') := by
  have hless : ∀ {a b x y : Nat}, x < base → a < b → a * base + x < b * base + y := by
    intro a b x y hx hab
    calc a * base + x < a * base + base := by omega
      _ = (a + 1) * base := (succ_mul a base).symm
      _ ≤ b * base := Nat.mul_le_mul_right base hab
      _ ≤ b * base + y := Nat.le_add_right _ _
  rcases Nat.lt_trichotomy d d' with h | rfl | h
  · rw [Nat.compare_eq_lt.mpr h, Nat.compare_eq_lt.mpr (hless hr h)]
    rfl
  · rw [Nat.compare_eq_eq.mpr rfl, Ordering.then]
    rcases Nat.lt_trichotomy r r' with h | rfl | h
    · rw [Nat.compare_eq_lt.mpr h, Nat.compare_eq_lt.mpr (by omega)]
    · rw [Nat.compare_eq_eq.mpr rfl, Nat.compare_eq_eq.mpr rfl]
    · rw [Nat.compare_eq_gt.mpr h, Nat.compare_eq_gt.mpr (by omega)]
  · rw [Nat.compare_eq_gt.mpr h, Nat.compare_eq_gt.mpr (hless hr' h)]
    rfl

/-! ## What a match counts -/

/-- The union of the pseudo-classes of simple selectors. -/
def allPseudoClasses : List SimpleSelector → Finset String
  | [] => ∅
  | s :: rest => s.pseudoClassState ∪ allPseudoClasses rest

theorem mem_allPseudoClasses {name : String} {l : List SimpleSelector} :
    name ∈ allPseudoClasses l ↔ ∃ s ∈ l, name ∈ s.pseudoClassState := by
  induction l with
  | nil => simp [allPseudoClasses]
  | cons s rest ih => simp [allPseudoClasses, ih]

theorem SimpleSelector.createMatch_idCount (s : SimpleSelector) :
    s.createMatch.idCount = BitVec.ofNat 32 s.ids := by
  rw [createMatch, Match.new, ids]
  split <;> rfl

theorem CompoundSelector.createMatchLoop_eq (l : List SimpleSelector) (all : Finset String)
    (idCount styleClassCount : BitVec 32) :
    createMatchLoop l all idCount styleClassCount =
      (all ∪ allPseudoClasses l, idCount + BitVec.ofNat 32 (l.map ids).sum,
        styleClassCount + BitVec.ofNat 32 (l.map styleClasses).sum) := by
  induction l generalizing all idCount styleClassCount with
  | nil => simp [createMatchLoop, allPseudoClasses]
  | cons s rest ih =>
    have hcls : s.createMatch.styleClassCount = BitVec.ofNat 32 s.styleClasses := rfl
    have hpseudo : s.createMatch.pseudoClasses = s.pseudoClassState := rfl
    rw [createMatchLoop, ih, s.createMatch_idCount, hcls, hpseudo, allPseudoClasses,
      List.map_cons, List.map_cons, List.sum_cons, List.sum_cons, BitVec.ofNat_add,
      BitVec.ofNat_add, union_assoc, BitVec.add_assoc, BitVec.add_assoc]

theorem card_allPseudoClasses (l : List SimpleSelector) :
    (allPseudoClasses l).card ≤ (l.map pseudoClassParts).sum ∧
      ((allPseudoClasses l).card = (l.map pseudoClassParts).sum ↔
        (l.map pseudoClassState).Pairwise Disjoint ∧
          ∀ s ∈ l, s.nodeOrientation = .inherit) := by
  induction l with
  | nil => simp [allPseudoClasses]
  | cons s rest ih =>
    obtain ⟨hle, heq⟩ := ih
    have hunion := card_union_le s.pseudoClassState (allPseudoClasses rest)
    have hdisjoint : (s.pseudoClassState ∪ allPseudoClasses rest).card =
        s.pseudoClassState.card + (allPseudoClasses rest).card ↔
          ∀ x ∈ rest.map pseudoClassState, Disjoint s.pseudoClassState x := by
      rw [card_union_eq_card_add_card, Finset.disjoint_left]
      simp only [mem_allPseudoClasses, List.forall_mem_map, Finset.disjoint_left]
      exact ⟨fun h t ht name hs hn => h hs ⟨t, ht, hn⟩, fun h name hs ⟨t, ht, hn⟩ => h t ht hs hn⟩
    have hdir : s.pseudoClassParts = s.pseudoClassState.card ↔ s.nodeOrientation = .inherit := by
      rw [pseudoClassParts]
      split <;> simp_all
    have hcard : s.pseudoClassState.card ≤ s.pseudoClassParts := Nat.le_add_right _ _
    rw [allPseudoClasses, List.map_cons, List.map_cons, List.sum_cons, List.pairwise_cons,
      List.forall_mem_cons]
    refine ⟨by omega, ?_⟩
    constructor
    · intro h
      obtain ⟨hpair, hinherit⟩ := heq.mp (by omega)
      exact ⟨⟨hdisjoint.mp (by omega), hpair⟩, hdir.mp (by omega), hinherit⟩
    · rintro ⟨⟨hs, hpair⟩, hinh, hinherit⟩
      have h1 := hdisjoint.mpr hs
      have h2 := hdir.mpr hinh
      have h3 := heq.mpr ⟨hpair, hinherit⟩
      omega

namespace Selector

/-- The pseudo-class parts that reach the specificity. -/
def countedParts : Selector → Nat
  | simple s => s.pseudoClassParts
  | compound c => (allPseudoClasses c.selectors).card

theorem countedParts_le (s : Selector) : s.countedParts ≤ s.counts.pseudoClassParts := by
  cases s with
  | simple s => simp [countedParts, counts, parts]
  | compound c => exact (card_allPseudoClasses c.selectors).1

theorem countsAll_iff (s : Selector) : s.CountsAll ↔ s.countedParts = s.counts.pseudoClassParts := by
  cases s with
  | simple s => simp [CountsAll, countedParts, counts, parts]
  | compound c => exact (card_allPseudoClasses c.selectors).2.symm

theorem specificity_eq (s : Selector) : s.specificity = Match.pack (BitVec.ofNat 32 s.counts.ids)
    (BitVec.ofNat 32 s.counts.styleClasses) (BitVec.ofNat 32 s.countedParts) := by
  cases s with
  | simple s =>
    have hparts : Match.nPseudoClasses (simple s) s.pseudoClassState =
        BitVec.ofNat 32 s.pseudoClassParts := by
      rw [Match.nPseudoClasses, pseudoClassParts, size]
      split
      · rw [BitVec.ofNat_add]
        rfl
      · rfl
    have hpack : (simple s).specificity = Match.pack s.createMatch.idCount (size s.styleClassSet)
        (Match.nPseudoClasses (simple s) s.pseudoClassState) := rfl
    rw [hpack, s.createMatch_idCount, hparts]
    simp [counts, parts, countedParts, size, styleClasses]
  | compound c =>
    rw [specificity, createMatch, CompoundSelector.createMatch, CompoundSelector.createMatchLoop_eq]
    simp [Match.new, Match.nPseudoClasses, counts, parts, countedParts, size]

/-! ## Selectors that fit -/

/-- The specificity of a selector whose counts are within their bits. -/
theorem toInt_specificity (hids : s.counts.ids < 2 ^ 23)
    (hcls : s.counts.styleClasses < 16) (hparts : s.countedParts < 16) :
    s.specificity.toInt =
      (((s.counts.ids * 16 + s.counts.styleClasses) * 16 + s.countedParts : Nat) : Int) := by
  have h := Match.toNat_pack hids hcls hparts
  rw [← specificity_eq] at h
  rw [BitVec.toInt_eq_toNat_of_lt (by rw [h]; omega), h]

theorem Fits.toInt_specificity (h : s.Fits) :
    s.specificity.toInt = (((s.counts.ids * 16 + s.counts.styleClasses) * 16 +
      s.counts.pseudoClassParts : Nat) : Int) := by
  have hall := s.countsAll_iff.mp h.countsAll
  rw [Selector.toInt_specificity h.ids h.styleClasses (by rw [hall]; exact h.pseudoClassParts), hall]

theorem Fits.orderedAlike {t : Selector} (hs : s.Fits) (ht : t.Fits) : OrderedAlike s t := by
  rw [OrderedAlike, hs.toInt_specificity, ht.toInt_specificity, Counts.compare]
  have hcast : ∀ m n : Nat, compare (m : Int) (n : Int) = compare m n := by
    intro m n
    simp only [compare, compareOfLessAndEq, Int.ofNat_lt, Int.natCast_inj]
  rw [hcast, compare_digits hs.pseudoClassParts ht.pseudoClassParts,
    compare_digits hs.styleClasses ht.styleClasses, Ordering.then_assoc]

/-! ## Selectors that do not fit -/

/-- There are `n` different names, none of them empty. -/
def names (n : Nat) : Finset String :=
  (Finset.range n).image fun k => String.ofList (List.replicate (k + 1) 'a')

theorem card_names (n : Nat) : (names n).card = n := by
  rw [names, Finset.card_image_of_injective, card_range]
  intro j k h
  have := congrArg List.length (String.ofList_injective h)
  simpa using this

/-- `#a … #a .….…:…:…`, with the given counts. -/
def ofCounts (c : Counts) : Selector :=
  .compound {
    selectors := List.replicate c.ids ⟨"*", ∅, "a", ∅, .inherit⟩ ++
      [⟨"*", names c.styleClasses, "", names c.pseudoClassParts, .inherit⟩]
    relationships := List.replicate c.ids .descendant
    lengths := by simp }

theorem counts_ofCounts (c : Counts) : (ofCounts c).counts = c := by
  simp [ofCounts, counts, parts, ids, matchOnId, styleClasses, pseudoClassParts, card_names]

theorem countsAll_ofCounts (c : Counts) : (ofCounts c).CountsAll := by
  constructor
  · rw [List.map_append, List.map_replicate, List.pairwise_append]
    refine ⟨List.pairwise_replicate.mpr (Or.inr (disjoint_empty_left _)), by simp, ?_⟩
    intro a ha b hb
    rw [List.eq_of_mem_replicate ha]
    exact disjoint_empty_left b
  · intro s hs
    rcases List.mem_append.mp hs with hs | hs
    · rw [List.eq_of_mem_replicate hs]
    · rw [List.mem_singleton.mp hs]

/-- Every non-negative `int` is the specificity of a selector that fits. -/
theorem exists_fits_of_nonneg {v : BitVec 32} (h : 0 ≤ v.toInt) :
    ∃ t : Selector, t.Fits ∧ t.specificity.toInt = v.toInt := by
  have hv : v.toInt = (v.toNat : Int) ∧ v.toNat < 2 ^ 31 := by
    have := v.isLt
    rw [BitVec.toInt] at h ⊢
    split <;> omega
  have hcounts := counts_ofCounts ⟨v.toNat / 256, v.toNat / 16 % 16, v.toNat % 16⟩
  have hfits : (ofCounts ⟨v.toNat / 256, v.toNat / 16 % 16, v.toNat % 16⟩).Fits := by
    refine ⟨?_, ?_, ?_, countsAll_ofCounts _⟩ <;> rw [hcounts] <;> dsimp only <;> omega
  refine ⟨_, hfits, ?_⟩
  rw [hfits.toInt_specificity, hcounts, hv.1]
  dsimp only
  omega

theorem Fits.of_orderedAlike (h : ∀ t : Selector, t.Fits → OrderedAlike s t) :
    s.Fits := by
  -- it is not below the selector without any counts
  have hnn : 0 ≤ s.specificity.toInt := by
    by_contra hneg
    have hcounts := counts_ofCounts ⟨0, 0, 0⟩
    have hfits : (ofCounts ⟨0, 0, 0⟩).Fits := by
      refine ⟨?_, ?_, ?_, countsAll_ofCounts _⟩ <;> rw [hcounts] <;> decide
    have hcmp := h _ hfits
    have hzero : (ofCounts ⟨0, 0, 0⟩).specificity.toInt = 0 := by
      rw [hfits.toInt_specificity, hcounts]
      rfl
    rw [OrderedAlike, hzero, hcounts, compare_lt_iff_lt.mpr (Int.not_le.mp hneg)] at hcmp
    exact Counts.compare_none s.counts hcmp.symm
  -- so a selector that fits has the same specificity, and the same counts
  obtain ⟨t, ht, hspec⟩ := exists_fits_of_nonneg hnn
  have hcmp := h t ht
  rw [OrderedAlike, hspec, compare_eq_iff_eq.mpr rfl] at hcmp
  have hcounts := Counts.eq_of_compare hcmp.symm
  have hids := ht.ids
  have hcls := ht.styleClasses
  have hparts := ht.pseudoClassParts
  have hle := s.countedParts_le
  rw [ht.toInt_specificity, ← hcounts] at hspec
  rw [← hcounts] at hids hcls hparts
  refine ⟨hids, hcls, hparts, s.countsAll_iff.mpr ?_⟩
  rw [Selector.toInt_specificity hids hcls (by omega)] at hspec
  omega

/-- In order with those that fit if and only if it fits. -/
theorem orderedAlike_iff (s : Selector) : (∀ t : Selector, t.Fits → OrderedAlike s t) ↔ s.Fits :=
  ⟨Fits.of_orderedAlike, fun hs _ ht => hs.orderedAlike ht⟩

theorem descendant_length : [Combinator.descendant].length = 1 := rfl

/-- `.a:hover .b:hover`, whose pseudo-class is counted once. -/
def hoverInHover : Selector :=
  .compound ⟨[⟨"*", {"a"}, "", {"hover"}, .inherit⟩, ⟨"*", {"b"}, "", {"hover"}, .inherit⟩],
    [.descendant], descendant_length⟩

/-- `.a:hover .b`. -/
def plainInHover : Selector :=
  .compound ⟨[⟨"*", {"a"}, "", {"hover"}, .inherit⟩, ⟨"*", {"b"}, "", ∅, .inherit⟩],
    [.descendant], descendant_length⟩

/-- `.a.b.c.d.e.f.g.h.i.j.k.l.m.n.o.p`. -/
def sixteenStyleClasses : Selector :=
  .simple ⟨"*", {"a", "b", "c", "d", "e", "f", "g", "h", "i", "j", "k", "l", "m", "n", "o", "p"},
    "", ∅, .inherit⟩

/-- `#a`. -/
def oneId : Selector := .simple ⟨"*", ∅, "a", ∅, .inherit⟩

/-- A pseudo-class in two parts; sixteen classes and an id. -/
theorem orderedAlike_fails :
    ¬ OrderedAlike hoverInHover plainInHover ∧ ¬ OrderedAlike sixteenStyleClasses oneId := by
  rw [OrderedAlike, OrderedAlike]
  decide

end Selector

end OpenJfx.Css
