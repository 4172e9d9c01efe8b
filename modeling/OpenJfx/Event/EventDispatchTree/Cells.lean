/-
  OpenJfx.Event.EventDispatchTree.Cells

  Forests in the arrays of an event dispatch tree.

  `Holds cells o F` says that the cells from `o` on hold the forest `F`, whose nodes carry
  the index of their cell.  `Walks t n o F` follows `getChildIndex` instead, so that the
  tail stands under every leaf; all cells it meets are below `n`.  `Represents` is the
  invariant of the trees: a forest and a tail in cells of their own.
-/

import OpenJfx.Event.EventDispatchTree.Basic
import Mathlib.Data.List.Nodup

namespace OpenJfx.Event.EventDispatchTreeImpl

open List hiding nil

open Forest

variable {D : Type} {t t' t'' : EventDispatchTreeImpl D} {cells cells' : List (Cell D)}
  {o : Option Nat} {F : Forest (Nat × D)}

/-! ## Changing one cell -/

theorem getElem?_setNextChild (index : Nat) (child : Option Nat) (i : Nat) :
    (t.setNextChild index child).cells[i]? =
      if i = index then t.cells[i]?.map fun cell => { cell with nextChild := child }
      else t.cells[i]? := by
  rw [setNextChild, getElem?_modify]
  by_cases hi : i = index
  · simp [hi]
  · simp [hi, Ne.symm hi]

theorem getElem?_setNextSibling (index : Nat) (sibling : Option Nat) (i : Nat) :
    (t.setNextSibling index sibling).cells[i]? =
      if i = index then t.cells[i]?.map fun cell => { cell with nextSibling := sibling }
      else t.cells[i]? := by
  rw [setNextSibling, getElem?_modify]
  by_cases hi : i = index
  · simp [hi]
  · simp [hi, Ne.symm hi]

@[simp] theorem length_setNextChild (index : Nat) (child : Option Nat) :
    (t.setNextChild index child).cells.length = t.cells.length := by
  simp [setNextChild]

@[simp] theorem length_setNextSibling (index : Nat) (sibling : Option Nat) :
    (t.setNextSibling index sibling).cells.length = t.cells.length := by
  simp [setNextSibling]

/-- Arrays grow; of the old cells `changed` are written. -/
structure Keeps (changed : List Nat) (t t' : EventDispatchTreeImpl D) : Prop where
  cells : ∀ i < t.cells.length, i ∉ changed → t'.cells[i]? = t.cells[i]?
  length : t.cells.length ≤ t'.cells.length
  rootIndex : t'.rootIndex = t.rootIndex
  tailFirstIndex : t'.tailFirstIndex = t.tailFirstIndex
  tailLastIndex : t'.tailLastIndex = t.tailLastIndex

theorem Keeps.refl (changed : List Nat) (t : EventDispatchTreeImpl D) : Keeps changed t t :=
  ⟨fun _ _ _ => rfl, Nat.le_refl _, rfl, rfl, rfl⟩

theorem Keeps.trans {changed changed1 changed2 : List Nat} (h1 : Keeps changed1 t t')
    (h2 : Keeps changed2 t' t'') (hsub1 : ∀ i ∈ changed1, i ∈ changed)
    (hsub2 : ∀ i ∈ changed2, i ∈ changed ∨ t.cells.length ≤ i) : Keeps changed t t'' where
  cells := by
    intro i hi hnot
    have h1not : i ∉ changed1 := fun h => hnot (hsub1 i h)
    have h2not : i ∉ changed2 := fun h => (hsub2 i h).elim hnot (fun hle => by omega)
    rw [h2.cells i (Nat.lt_of_lt_of_le hi h1.length) h2not, h1.cells i hi h1not]
  length := Nat.le_trans h1.length h2.length
  rootIndex := h2.rootIndex.trans h1.rootIndex
  tailFirstIndex := h2.tailFirstIndex.trans h1.tailFirstIndex
  tailLastIndex := h2.tailLastIndex.trans h1.tailLastIndex

theorem Keeps.setNextChild (index : Nat) (child : Option Nat) :
    Keeps [index] t (t.setNextChild index child) where
  cells := by
    intro i _ hi
    rw [getElem?_setNextChild, if_neg (by simpa using hi)]
  length := by simp
  rootIndex := rfl
  tailFirstIndex := rfl
  tailLastIndex := rfl

theorem Keeps.setNextSibling (index : Nat) (sibling : Option Nat) :
    Keeps [index] t (t.setNextSibling index sibling) where
  cells := by
    intro i _ hi
    rw [getElem?_setNextSibling, if_neg (by simpa using hi)]
  length := by simp
  rootIndex := rfl
  tailFirstIndex := rfl
  tailLastIndex := rfl

theorem Keeps.reserve (d : D) : Keeps [] t (t.reserve d) where
  cells := by
    intro i hi _
    exact getElem?_append_left hi
  length := by simp [EventDispatchTreeImpl.reserve]
  rootIndex := rfl
  tailFirstIndex := rfl
  tailLastIndex := rfl

/-! ## The forest in the cells -/

/-- The cells of a forest. -/
def indices (F : Forest (Nat × D)) : List Nat := F.preorder.map Prod.fst

@[simp] theorem indices_nil : indices (nil : Forest (Nat × D)) = [] := rfl

@[simp] theorem indices_node (a : Nat × D) (child sibling : Forest (Nat × D)) :
    indices (node a child sibling) = a.1 :: (indices child ++ indices sibling) := by
  simp [indices]

@[simp] theorem indices_chain (l : List (Nat × D)) : indices (chain l) = l.map Prod.fst := by
  rw [indices, preorder_chain]

def Holds (cells : List (Cell D)) : Option Nat → Forest (Nat × D) → Prop
  | o, .nil => o = none
  | o, .node a child sibling =>
    o = some a.1 ∧ ∃ c s, cells[a.1]? = some ⟨a.2, c, s⟩ ∧ Holds cells c child ∧
      Holds cells s sibling

theorem Holds.congr (h : Holds cells o F) (hcells : ∀ i ∈ indices F, cells'[i]? = cells[i]?) :
    Holds cells' o F := by
  induction F generalizing o with
  | nil => exact h
  | node a child sibling ihc ihs =>
    obtain ⟨ho, c, s, hcell, hc, hs⟩ := h
    simp only [indices_node, mem_cons, mem_append] at hcells
    refine ⟨ho, c, s, ?_, ihc hc fun i hi => hcells i (.inr (.inl hi)),
      ihs hs fun i hi => hcells i (.inr (.inr hi))⟩
    rw [hcells a.1 (.inl rfl), hcell]

theorem Holds.lt (h : Holds cells o F) : ∀ i ∈ indices F, i < cells.length := by
  induction F generalizing o with
  | nil => simp
  | node a child sibling ihc ihs =>
    obtain ⟨-, c, s, hcell, hc, hs⟩ := h
    intro i hi
    rw [indices_node, mem_cons, mem_append] at hi
    rcases hi with rfl | hi | hi
    · exact (List.getElem?_eq_some_iff.mp hcell).1
    · exact ihc hc i hi
    · exact ihs hs i hi

theorem Holds.eq_none_iff (h : Holds cells o F) : o = none ↔ F = nil := by
  cases F with
  | nil => exact ⟨fun _ => rfl, fun _ => h⟩
  | node a child sibling => simp [h.1]

theorem Holds.isSome_iff (h : Holds cells o F) : o.isSome = true ↔ F ≠ nil := by
  rw [Ne, ← h.eq_none_iff, Option.isSome_iff_ne_none]

theorem Holds.keeps {changed : List Nat} (h : Holds t.cells o F) (hk : Keeps changed t t')
    (hdisj : ∀ i ∈ indices F, i ∉ changed) : Holds t'.cells o F :=
  h.congr fun i hi => hk.cells i (h.lt i hi) (hdisj i hi)

/-! ## The forest with the tail -/

def Walks (t : EventDispatchTreeImpl D) (n : Nat) : Option Nat → Forest D → Prop
  | o, .nil => o = none
  | o, .node d child sibling =>
    ∃ i cell c, o = some i ∧ i < n ∧ t.cells[i]? = some cell ∧ cell.dispatcher = d ∧
      t.getChildIndex i = some c ∧ Walks t n c child ∧ Walks t n cell.nextSibling sibling

theorem Walks.congr {n : Nat} {G : Forest D} (h : Walks t n o G)
    (hcells : ∀ i < n, t'.cells[i]? = t.cells[i]?)
    (hfst : t'.tailFirstIndex = t.tailFirstIndex) (hlast : t'.tailLastIndex = t.tailLastIndex) :
    Walks t' n o G := by
  induction G generalizing o with
  | nil => exact h
  | node d child sibling ihc ihs =>
    obtain ⟨i, cell, c, ho, hi, hcell, hd, hchild, hc, hs⟩ := h
    refine ⟨i, cell, c, ho, hi, (hcells i hi).trans hcell, hd, ?_, ihc hc, ihs hs⟩
    rw [← hchild, getChildIndex, getChildIndex, hcells i hi, hfst, hlast]

/-- The arrays leave no choice. -/
theorem Walks.unique {n m : Nat} {G H : Forest D} (h : Walks t n o G) (h' : Walks t m o H) :
    G = H := by
  induction G generalizing o H with
  | nil =>
    cases H with
    | nil => rfl
    | node d child sibling =>
      obtain ⟨i, cell, c, ho, -⟩ := h'
      exact absurd (h.symm.trans ho) nofun
  | node d child sibling ihc ihs =>
    obtain ⟨i, cell, c, rfl, -, hcell, rfl, hchild, hc, hs⟩ := h
    cases H with
    | nil => exact absurd h' nofun
    | node d' child' sibling' =>
      obtain ⟨i', cell', c', ho, -, hcell', rfl, hchild', hc', hs'⟩ := h'
      obtain rfl := Option.some.inj ho
      obtain rfl := Option.some.inj (hcell.symm.trans hcell')
      obtain rfl := Option.some.inj (hchild.symm.trans hchild')
      rw [ihc hc hc', ihs hs hs']

/-- The arrays hold the forest `R` and the tail, in cells of their own. -/
structure Represents (t : EventDispatchTreeImpl D) (R : Forest (Nat × D))
    (tail : List (Nat × D)) : Prop where
  root : Holds t.cells t.rootIndex R
  tailFirst : Holds t.cells t.tailFirstIndex (chain tail)
  tailLast : t.tailLastIndex = tail.getLast?.map Prod.fst
  nodup : (indices R ++ tail.map Prod.fst).Nodup

/-- With the tail under every leaf, or on its own. -/
def described (R : Forest (Nat × D)) (tail : List (Nat × D)) : Forest D :=
  (under (chain tail) R).map Prod.snd

variable {R : Forest (Nat × D)} {tail : List (Nat × D)}

theorem Represents.disjoint (h : Represents t R tail) : ∀ i ∈ indices R, i ∉ tail.map Prod.fst :=
  fun i hi hmem => (nodup_append.mp h.nodup).2.2 i hi i hmem rfl

theorem walks_tail (hlast : t.tailLastIndex = tail.getLast?.map Prod.fst) {A B : List (Nat × D)}
    (hAB : tail = A ++ B) (ho : Holds t.cells o (chain B)) :
    Walks t t.cells.length o ((chain B).map Prod.snd) := by
  induction B generalizing A o with
  | nil => exact ho
  | cons b B ih =>
    have hlt := ho.lt b.1 (by simp)
    obtain ⟨ho', c, s, hcell, hc, hs⟩ := ho
    refine ⟨b.1, _, c, ho', hlt, hcell, rfl, ?_, ih (A := A ++ [b]) (by simp [hAB]) hc, hs⟩
    rw [getChildIndex, hcell, Option.map_some]
    cases B with
    | nil =>
      have hb : some b.1 = t.tailLastIndex := by
        rw [hlast, hAB]
        simp
      rw [if_neg fun hand => hand.2 hb]
    | cons b' B =>
      have hsome : c ≠ none := by
        rw [Ne, hc.eq_none_iff]
        simp [chain]
      rw [if_neg fun hand => hsome hand.1]

theorem Represents.walks_root (h : Represents t R tail) (hF : ∀ i ∈ indices F, i ∈ indices R)
    (ho : Holds t.cells o F) :
    Walks t t.cells.length o ((hang (chain tail) F).map Prod.snd) := by
  induction F generalizing o with
  | nil => exact ho
  | node a child sibling ihc ihs =>
    have hlt := ho.lt a.1 (by simp)
    simp only [indices_node, mem_cons, mem_append] at hF
    have hne : some a.1 ≠ t.tailLastIndex := by
      rw [h.tailLast]
      intro heq
      obtain ⟨b, hb, hba⟩ := Option.map_eq_some_iff.mp heq.symm
      exact h.disjoint a.1 (hF a.1 (.inl rfl)) (mem_map.mpr ⟨b, mem_of_getLast? hb, hba⟩)
    obtain ⟨ho', c, s, hcell, hc, hs⟩ := ho
    have hsib := ihs (fun i hi => hF i (.inr (.inr hi))) hs
    cases child with
    | nil =>
      have hcnone : c = none := hc
      rw [hang_node]
      refine ⟨a.1, _, t.tailFirstIndex, ho', hlt, hcell, rfl, ?_,
        walks_tail h.tailLast (A := []) rfl h.tailFirst, hsib⟩
      rw [getChildIndex, hcell, Option.map_some, if_pos ⟨hcnone, hne⟩]
    | node b child' sibling' =>
      have hsome : c ≠ none := by
        rw [Ne, hc.eq_none_iff]
        simp
      rw [hang_node, under_of_ne _ (by simp)]
      refine ⟨a.1, _, c, ho', hlt, hcell, rfl, ?_, ihc (fun i hi => hF i (.inr (.inl hi))) hc, hsib⟩
      rw [getChildIndex, hcell, Option.map_some, if_neg fun hand => hsome hand.1]

theorem Represents.walks (h : Represents t R tail) :
    Walks t t.cells.length t.levelIndex (described R tail) := by
  cases R with
  | nil =>
    have hroot : t.rootIndex = none := h.root
    rw [levelIndex, hroot]
    exact walks_tail h.tailLast (A := []) rfl h.tailFirst
  | node a child sibling =>
    have hroot : t.rootIndex.isSome = true := h.root.isSome_iff.mpr (by simp)
    rw [levelIndex, if_pos hroot]
    exact h.walks_root (fun _ hi => hi) h.root

/-! ## append and prepend -/

theorem Represents.new : Represents (EventDispatchTreeImpl.new : EventDispatchTreeImpl D) nil [] :=
  ⟨rfl, rfl, rfl, nodup_nil⟩

theorem Represents.prepend (h : Represents t R tail) (d : D) :
    Represents (t.prepend d) (node (t.cells.length, d) R nil) tail := by
  have hold : ∀ i < t.cells.length, (t.prepend d).cells[i]? = t.cells[i]? :=
    fun i hi => getElem?_append_left hi
  have hnew : (t.prepend d).cells[t.cells.length]? = some ⟨d, t.rootIndex, none⟩ := by
    simp [EventDispatchTreeImpl.prepend]
  refine ⟨⟨rfl, _, _, hnew, h.root.congr fun i hi => hold i (h.root.lt i hi), rfl⟩,
    h.tailFirst.congr fun i hi => hold i (h.tailFirst.lt i hi), h.tailLast, ?_⟩
  have hfresh : t.cells.length ∉ indices R ++ tail.map Prod.fst := by
    intro hmem
    rcases mem_append.mp hmem with hR | htail
    · exact Nat.lt_irrefl _ (h.root.lt _ hR)
    · exact Nat.lt_irrefl _ (h.tailFirst.lt _ (by rwa [indices_chain]))
  simpa using ⟨by simpa using hfresh, h.nodup⟩

theorem Holds.chain_snoc {l : List (Nat × D)} {a b : Nat × D}
    (h : Holds cells o (chain (l ++ [a]))) (hnd : ((l ++ [a]).map Prod.fst).Nodup)
    (hother : ∀ i ∈ l.map Prod.fst, cells'[i]? = cells[i]?)
    (hlast : cells'[a.1]? = cells[a.1]?.map fun cell => { cell with nextChild := some b.1 })
    (hnew : cells'[b.1]? = some ⟨b.2, none, none⟩) : Holds cells' o (chain (l ++ [a] ++ [b])) := by
  induction l generalizing o with
  | nil =>
    obtain ⟨ho, c, s, hcell, -, hs⟩ := h
    refine ⟨ho, some b.1, s, ?_, ⟨rfl, none, none, hnew, rfl, rfl⟩, hs⟩
    rw [hlast, hcell]
    rfl
  | cons x l ih =>
    obtain ⟨ho, c, s, hcell, hc, hs⟩ := h
    have hnd' : ((l ++ [a]).map Prod.fst).Nodup := (nodup_cons.mp hnd).2
    refine ⟨ho, c, s, ?_, ih hc hnd' (fun i hi => hother i (.tail _ hi)), hs⟩
    rw [hother x.1 (by simp), hcell]

theorem Represents.append (h : Represents t R tail) (d : D) :
    Represents (t.append d) R (tail ++ [(t.cells.length, d)]) := by
  have hfresh : t.cells.length ∉ indices R ++ tail.map Prod.fst := by
    intro hmem
    rcases mem_append.mp hmem with hR | htail
    · exact Nat.lt_irrefl _ (h.root.lt _ hR)
    · exact Nat.lt_irrefl _ (h.tailFirst.lt _ (by rwa [indices_chain]))
  have hnd : (indices R ++ (tail ++ [(t.cells.length, d)]).map Prod.fst).Nodup := by
    rw [map_append, ← append_assoc, nodup_append]
    refine ⟨h.nodup, by simp, ?_⟩
    intro i hi j hj hij
    obtain rfl : j = t.cells.length := by simpa using hj
    exact hfresh (hij ▸ hi)
  rcases eq_nil_or_concat tail with rfl | ⟨l, a, rfl⟩
  · -- the first cell of the tail
    have hfst : t.tailFirstIndex = none := h.tailFirst
    have heq : t.append d =
        { t with
          cells := t.cells ++ [⟨d, none, none⟩]
          tailFirstIndex := some t.cells.length
          tailLastIndex := some t.cells.length } := by
      rw [EventDispatchTreeImpl.append, hfst]
    rw [heq]
    refine ⟨?_, ⟨rfl, none, none, by simp, rfl, rfl⟩, rfl, hnd⟩
    exact h.root.congr fun i hi => getElem?_append_left (h.root.lt i hi)
  · have hlast : t.tailLastIndex = some a.1 := by simpa using h.tailLast
    obtain ⟨first, hfst⟩ : ∃ first, t.tailFirstIndex = some first := by
      apply Option.isSome_iff_exists.mp
      rw [h.tailFirst.isSome_iff]
      cases l <;> simp [chain]
    have hne : ∀ i ∈ indices R ++ l.map Prod.fst, i ≠ a.1 := by
      have hnd' := h.nodup
      rw [concat_eq_append, map_append, ← append_assoc, nodup_append] at hnd'
      exact fun i hi => hnd'.2.2 i hi a.1 (by simp)
    have hlt : ∀ i ∈ indices R ++ (l ++ [a]).map Prod.fst, i < t.cells.length := by
      intro i hi
      rcases mem_append.mp hi with hR | htail
      · exact h.root.lt i hR
      · exact h.tailFirst.lt i (by rw [indices_chain]; simpa using htail)
    have hcells : ∀ i, (t.append d).cells[i]? =
        if i = a.1 then
          (t.cells ++ [(⟨d, none, none⟩ : Cell D)])[i]?.map fun cell =>
            { cell with nextChild := some t.cells.length }
        else (t.cells ++ [(⟨d, none, none⟩ : Cell D)])[i]? := by
      intro i
      rw [EventDispatchTreeImpl.append, hfst, hlast]
      exact getElem?_setNextChild _ _ i
    have hold : ∀ i ∈ indices R ++ l.map Prod.fst, (t.append d).cells[i]? = t.cells[i]? := by
      intro i hi
      rw [hcells, if_neg (hne i hi)]
      refine getElem?_append_left (hlt i ?_)
      simp only [mem_append, map_append] at hi ⊢
      tauto
    have hroot : (t.append d).rootIndex = t.rootIndex := by
      rw [EventDispatchTreeImpl.append, hfst, hlast]
      rfl
    have hfst' : (t.append d).tailFirstIndex = t.tailFirstIndex := by
      rw [EventDispatchTreeImpl.append, hfst, hlast]
      rfl
    refine ⟨?_, ?_, by simp [EventDispatchTreeImpl.append], hnd⟩
    · rw [hroot]
      exact h.root.congr fun i hi => hold i (mem_append_left _ hi)
    · rw [hfst', concat_eq_append]
      have hchain : Holds t.cells t.tailFirstIndex (chain (l ++ [a])) := by
        simpa using h.tailFirst
      refine hchain.chain_snoc ?_ (fun i hi => hold i (mem_append_right _ hi)) ?_ ?_
      · have := (nodup_append.mp h.nodup).2.1
        simpa using this
      · rw [hcells, if_pos rfl, getElem?_append_left (hlt a.1 (by simp))]
      · have ha : t.cells.length ≠ a.1 := by
          have := hlt a.1 (by simp)
          omega
        rw [hcells, if_neg ha]
        simp

end OpenJfx.Event.EventDispatchTreeImpl
