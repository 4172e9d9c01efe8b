/-
  OpenJfx.Event.EventDispatchTree.Dispatch

  The order in which `dispatchEvent` invokes the dispatchers. When a dispatcher without a child
  forwards the event, the tail becomes the root of the tree and is restored as such, so that the
  siblings after it are dispatched without a tail.
-/

import OpenJfx.Event.EventDispatchTree.Merge
import OpenJfx.Event.EventDispatchTree.Text

namespace OpenJfx.Event.EventDispatchTreeImpl

open List hiding nil map_eq_nil_iff

open Forest

variable {D E : Type}

/-! ## The order -/

/-- The order of the dispatch: behind a leaf the tail is gone. -/
def dispatchOrder : List D → Forest D → List D
  | _, .nil => []
  | tail, .node d .nil sibling => d :: (tail ++ dispatchOrder [] sibling)
  | tail, .node d (.node d' child sibling') sibling =>
    d :: (dispatchOrder tail (.node d' child sibling') ++ dispatchOrder tail sibling)

theorem dispatchOrder_leaf (tail : List D) (d : D) (sibling : Forest D) :
    dispatchOrder tail (node d nil sibling) = d :: (tail ++ dispatchOrder [] sibling) := by
  rw [dispatchOrder]

theorem dispatchOrder_inner (tail : List D) (d : D) {child : Forest D} (sibling : Forest D)
    (h : child ≠ nil) :
    dispatchOrder tail (node d child sibling) =
      d :: (dispatchOrder tail child ++ dispatchOrder tail sibling) := by
  cases child with
  | nil => exact absurd rfl h
  | node d' child sibling' => rw [dispatchOrder]

theorem dispatchOrder_nil (F : Forest D) : dispatchOrder [] F = F.preorder := by
  induction F with
  | nil => rfl
  | node d child sibling ihc ihs =>
    by_cases hnil : child = nil
    · rw [hnil, dispatchOrder_leaf, ihs, preorder_node, preorder_nil]
    · rw [dispatchOrder_inner _ _ _ hnil, ihc, ihs, preorder_node]

theorem dispatchOrder_of_leavesLast (tail : List D) {F : Forest D} (h : F.LeavesLast) :
    dispatchOrder tail F = (hang (chain tail) F).preorder := by
  induction F with
  | nil => rfl
  | node d child sibling ihc ihs =>
    obtain ⟨hleaf, hc, hs⟩ := h
    by_cases hnil : child = nil
    · rw [hleaf hnil, hnil, dispatchOrder_leaf, hang_node, preorder_node, under_nil, preorder_chain]
      rfl
    · rw [dispatchOrder_inner _ _ _ hnil, ihc hc, ihs hs, hang_node, under_of_ne _ hnil,
        preorder_node]

theorem size_lt_hang {tail : List D} (htail : tail ≠ []) (F : Forest D) :
    F.size ≤ (hang (chain tail) F).preorder.length ∧
      (F ≠ nil → F.size < (hang (chain tail) F).preorder.length) := by
  have hpos : 0 < tail.length := length_pos_iff.mpr htail
  induction F with
  | nil => exact ⟨Nat.zero_le _, fun h => absurd rfl h⟩
  | node d child sibling ihc ihs =>
    suffices h : (node d child sibling).size <
        (hang (chain tail) (node d child sibling)).preorder.length from
      ⟨Nat.le_of_lt h, fun _ => h⟩
    rw [hang_node, preorder_node, length_cons, length_append, size_node]
    by_cases hnil : child = nil
    · rw [hnil, under_nil, preorder_chain, size_nil]
      omega
    · rw [under_of_ne _ hnil]
      have hc := ihc.2 hnil
      omega

theorem length_preorder (F : Forest D) : F.preorder.length = F.size := by
  induction F with
  | nil => rfl
  | node d child sibling ihc ihs =>
    rw [preorder_node, length_cons, length_append, ihc, ihs, size_node]

theorem length_dispatchOrder {tail : List D} (htail : tail ≠ []) (F : Forest D) :
    (dispatchOrder tail F).length ≤ (hang (chain tail) F).preorder.length ∧
      ((dispatchOrder tail F).length = (hang (chain tail) F).preorder.length →
        F.LeavesLast) := by
  induction F with
  | nil => exact ⟨Nat.le_refl _, fun _ => trivial⟩
  | node d child sibling ihc ihs =>
    rw [hang_node, preorder_node, length_cons, length_append]
    by_cases hnil : child = nil
    · subst hnil
      have hsz := size_lt_hang htail sibling
      rw [dispatchOrder_leaf, length_cons, length_append, dispatchOrder_nil,
        length_preorder, under_nil, preorder_chain]
      refine ⟨by omega, fun heq => ?_⟩
      have hsib : sibling = nil := by
        by_contra hne
        have := hsz.2 hne
        omega
      exact ⟨fun _ => hsib, trivial, by rw [hsib]; exact trivial⟩
    · rw [dispatchOrder_inner _ _ _ hnil, length_cons, length_append, under_of_ne _ hnil]
      refine ⟨by omega, fun heq => ?_⟩
      exact ⟨fun h => absurd h hnil, ihc.2 (by omega), ihs.2 (by omega)⟩

theorem dispatchOrder_eq_iff (tail : List D) (F : Forest D) :
    dispatchOrder tail F = (hang (chain tail) F).preorder ↔ tail = [] ∨ F.LeavesLast := by
  constructor
  · intro heq
    by_cases htail : tail = []
    · exact .inl htail
    · exact .inr ((length_dispatchOrder htail F).2 (by rw [heq]))
  · rintro (rfl | h)
    · rw [dispatchOrder_nil, chain, hang_nil]
    · exact dispatchOrder_of_leavesLast tail h

/-! ## dispatchEvent -/

variable {fwd : Forwarding D E} {t : EventDispatchTreeImpl D}

theorem dispatchEvent_empty (h : t.levelIndex = none) (fuel : Nat) (event : E) :
    dispatchEvent fwd (fuel + 1) t event = some ⟨t, some event, []⟩ := by
  rw [dispatchEvent, h]

variable {returnEvent : Option E} {o : Option Nat} {F : Forest (Nat × D)}

theorem dispatchEvent_root {index fuel : Nat} {event : E} {root first last : Option Nat}
    {invoked : List D} (hroot : t.rootIndex = some index)
    (hrun : dispatchLevel fwd fuel t event index none = some
      ⟨{ t with rootIndex := root, tailFirstIndex := first, tailLastIndex := last },
        returnEvent, invoked⟩) :
    dispatchEvent fwd (fuel + 1) t event = some ⟨t, returnEvent, invoked⟩ := by
  have hlevel : t.levelIndex = some index := by rw [levelIndex, hroot]; rfl
  rw [dispatchEvent, hlevel]
  simp only [if_neg (show ¬t.rootIndex = none by simp [hroot]), hrun, Option.bind_eq_bind,
    Option.bind_some]
  cases t
  simp

theorem dispatchEvent_tail {index fuel : Nat} {event : E} {root : Option Nat} {invoked : List D}
    (hroot : t.rootIndex = none)
    (hfst : t.tailFirstIndex = some index)
    (hrun : dispatchLevel fwd fuel
      { t with rootIndex := some index, tailFirstIndex := none, tailLastIndex := none } event
      index none = some
        ⟨{ t with rootIndex := root, tailFirstIndex := none, tailLastIndex := none },
          returnEvent, invoked⟩) :
    dispatchEvent fwd (fuel + 1) t event = some
      ⟨{ t with rootIndex := some index, tailFirstIndex := none, tailLastIndex := none },
        returnEvent, invoked⟩ := by
  have hlevel : t.levelIndex = some index := by rw [levelIndex, hroot, hfst]; rfl
  rw [dispatchEvent, hlevel]
  simp only [if_pos hroot, hfst, hrun, Option.bind_eq_bind, Option.bind_some]
  simp

/-- The siblings from the given one on. -/
def dispatchSiblings (fwd : Forwarding D E) (fuel : Nat) (t : EventDispatchTreeImpl D) (event : E)
    (returnEvent : Option E) : Option Nat → Option (Dispatched D E)
  | none => some ⟨t, returnEvent, []⟩
  | some sibling => dispatchLevel fwd fuel t event sibling returnEvent

theorem dispatchSiblings_round {a : Nat × D} {c s : Option Nat} {fuel : Nat} {event : E}
    {branchReturn : Option E} {t₁ : EventDispatchTreeImpl D} {invoked : List D}
    {others : Dispatched D E} (hcell : t.cells[a.1]? = some ⟨a.2, c, s⟩)
    (hbranch : dispatchEvent fwd fuel { t with rootIndex := c } (fwd.forward a.2 event) =
      some ⟨t₁, branchReturn, invoked⟩)
    (hcells : t₁.cells = t.cells)
    (hothers : dispatchSiblings fwd fuel t₁ event
      (joinReturn event returnEvent (fwd.reply a.2 event branchReturn)) s = some others) :
    dispatchSiblings fwd (fuel + 1) t event returnEvent (some a.1) = some
      { others with invoked := a.2 :: (invoked ++ others.invoked) } := by
  rw [dispatchSiblings, dispatchLevel, hcell]
  simp only [Option.bind_eq_bind, Option.bind_some, hbranch, hcells, hcell]
  cases s with
  | none =>
    cases hothers
    simp
  | some sibling =>
    rw [dispatchSiblings] at hothers
    simp only [hothers]
    rfl

theorem dispatchSiblings_noTail (R : Forest (Nat × D)) (t : EventDispatchTreeImpl D)
    (o : Option Nat) (event : E) (returnEvent : Option E) (htail : t.tailFirstIndex = none)
    (hR : Holds t.cells o R) :
    ∃ root ret, ∀ fuel, 2 * R.size ≤ fuel →
      dispatchSiblings fwd fuel t event returnEvent o = some
        ⟨{ t with rootIndex := root }, ret, (R.map Prod.snd).preorder⟩ := by
  induction R generalizing t o event returnEvent with
  | nil =>
    obtain rfl : o = none := hR
    exact ⟨_, _, fun _ _ => rfl⟩
  | node a child sibling ihc ihs =>
    obtain ⟨rfl, c, s, hcell, hc, hs⟩ := hR
    -- the branch below the dispatcher
    obtain ⟨branchReturn, hbranch⟩ : ∃ ret, ∀ fuel, 2 * child.size + 1 ≤ fuel →
        dispatchEvent fwd fuel { t with rootIndex := c } (fwd.forward a.2 event) = some
          ⟨{ t with rootIndex := c }, ret, (child.map Prod.snd).preorder⟩ := by
      obtain ⟨root, ret, hrun⟩ := ihc { t with rootIndex := c } c (fwd.forward a.2 event) none htail
        hc
      cases hcs : c with
      | none =>
        obtain rfl : child = nil := hc.eq_none_iff.mp hcs
        refine ⟨some (fwd.forward a.2 event), ?_⟩
        rintro (_ | fuel) hfuel
        · omega
        exact dispatchEvent_empty (by simp [levelIndex, htail]) fuel _
      | some k =>
        subst hcs
        refine ⟨ret, ?_⟩
        rintro (_ | fuel) hfuel
        · omega
        exact dispatchEvent_root rfl (hrun fuel (by omega))
    obtain ⟨root, ret, hrun⟩ := ihs { t with rootIndex := c } s event
      (joinReturn event returnEvent (fwd.reply a.2 event branchReturn)) htail hs
    refine ⟨root, ret, ?_⟩
    rintro (_ | fuel) hfuel <;> rw [size_node] at hfuel
    · omega
    exact dispatchSiblings_round hcell (hbranch fuel (by omega)) rfl (hrun fuel (by omega))

theorem dispatchSiblings_tail {tail : List (Nat × D)} (htail : tail ≠ []) (R : Forest (Nat × D))
    (t : EventDispatchTreeImpl D) (o : Option Nat) (event : E) (returnEvent : Option E)
    (hfst : Holds t.cells t.tailFirstIndex (chain tail)) (hR : Holds t.cells o R) :
    ∃ root first last ret, ∀ fuel, 2 * R.size + 2 * tail.length ≤ fuel →
      dispatchSiblings fwd fuel t event returnEvent o = some
        ⟨{ t with rootIndex := root, tailFirstIndex := first, tailLastIndex := last }, ret,
          dispatchOrder (tail.map Prod.snd) (R.map Prod.snd)⟩ := by
  induction R generalizing t o event returnEvent with
  | nil =>
    obtain rfl : o = none := hR
    exact ⟨_, _, _, _, fun _ _ => rfl⟩
  | node a child sibling ihc ihs =>
    obtain ⟨rfl, c, s, hcell, hc, hs⟩ := hR
    by_cases hnil : child = nil
    · -- a leaf: the tail is dispatched, and is gone for the siblings
      have hcnone : c = none := hc.eq_none_iff.mpr hnil
      obtain ⟨k, hk⟩ : ∃ k, t.tailFirstIndex = some k := by
        apply Option.isSome_iff_exists.mp
        rw [hfst.isSome_iff]
        cases tail with
        | nil => exact absurd rfl htail
        | cons b tail => simp [chain]
      set t₁ : EventDispatchTreeImpl D :=
        { t with rootIndex := some k, tailFirstIndex := none, tailLastIndex := none } with ht₁
      obtain ⟨root, branchReturn, hrun⟩ := dispatchSiblings_noTail (chain tail) t₁ (some k)
        (fwd.forward a.2 event) none rfl (hk ▸ hfst)
      have hbranch : ∀ fuel, 2 * tail.length + 1 ≤ fuel →
          dispatchEvent fwd fuel { t with rootIndex := c } (fwd.forward a.2 event) = some
            ⟨t₁, branchReturn, tail.map Prod.snd⟩ := by
        rintro (_ | fuel) hfuel
        · omega
        have hlevel := hrun fuel (by rw [size_chain]; omega)
        rw [map_chain, preorder_chain] at hlevel
        exact dispatchEvent_tail hcnone hk hlevel
      rw [hnil]
      simp only [Forest.map, dispatchOrder_leaf, dispatchOrder_nil]
      obtain ⟨root', ret, hrun'⟩ := dispatchSiblings_noTail sibling t₁ s event
        (joinReturn event returnEvent (fwd.reply a.2 event branchReturn)) rfl hs
      refine ⟨root', none, none, ret, ?_⟩
      rintro (_ | fuel) hfuel <;> rw [size_node] at hfuel
      · omega
      exact dispatchSiblings_round hcell (hbranch fuel (by omega)) rfl (hrun' fuel (by omega))
    · -- the level below restores the tail
      obtain ⟨k, rfl⟩ : ∃ k, c = some k := Option.isSome_iff_exists.mp (hc.isSome_iff.mpr hnil)
      obtain ⟨root, first, last, branchReturn, hrun⟩ := ihc { t with rootIndex := some k } (some k)
        (fwd.forward a.2 event) none hfst hc
      have hmap : child.map Prod.snd ≠ nil := by simpa [map_eq_nil_iff] using hnil
      rw [Forest.map, dispatchOrder_inner _ _ _ hmap]
      obtain ⟨root', first', last', ret, hrun'⟩ := ihs { t with rootIndex := some k } s event
        (joinReturn event returnEvent (fwd.reply a.2 event branchReturn)) hfst hs
      refine ⟨root', first', last', ret, ?_⟩
      have hbranch : ∀ fuel, 2 * child.size + 2 * tail.length + 1 ≤ fuel →
          dispatchEvent fwd fuel { t with rootIndex := some k } (fwd.forward a.2 event) = some
            ⟨{ t with rootIndex := some k }, branchReturn,
              dispatchOrder (tail.map Prod.snd) (child.map Prod.snd)⟩ := by
        rintro (_ | fuel) hfuel
        · omega
        exact dispatchEvent_root rfl (hrun fuel (by omega))
      rintro (_ | fuel) hfuel <;> rw [size_node] at hfuel
      · omega
      exact dispatchSiblings_round hcell (hbranch fuel (by omega)) rfl (hrun' fuel (by omega))

/-! ## The whole tree -/

variable {R : Forest (Nat × D)} {tail : List (Nat × D)}

/-- What `dispatchEvent` invokes in the tree of a forest and a tail. -/
def invokedOrder (R : Forest (Nat × D)) (tail : List (Nat × D)) : List D :=
  match R with
  | .nil => tail.map Prod.snd
  | .node a child sibling =>
    dispatchOrder (tail.map Prod.snd) ((Forest.node a child sibling).map Prod.snd)

/-- The dispatchers are invoked in the order of the tree. -/
theorem Represents.dispatchEvent (h : Represents t R tail) (event : E) :
    ∃ t' R' tail' ret enough, (∀ fuel ≥ enough,
        dispatchEvent fwd fuel t event = some ⟨t', ret, invokedOrder R tail⟩) ∧
      Represents t' R' tail' ∧ described R' tail' = described R tail := by
  cases hR : R with
  | nil =>
    rw [hR] at h
    have hroot : t.rootIndex = none := h.root
    cases tail with
    | nil =>
      have hfst : t.tailFirstIndex = none := h.tailFirst
      refine ⟨t, nil, [], some event, 1, ?_, h, rfl⟩
      rintro (_ | fuel) hfuel
      · omega
      exact dispatchEvent_empty (by simp [levelIndex, hroot, hfst]) fuel event
    | cons b tail =>
      have hfst : t.tailFirstIndex = some b.1 := h.tailFirst.1
      obtain ⟨root, ret, hrun⟩ := dispatchSiblings_noTail (chain (b :: tail))
        { t with rootIndex := some b.1, tailFirstIndex := none, tailLastIndex := none } (some b.1)
        event none rfl (hfst ▸ h.tailFirst)
      refine ⟨{ t with rootIndex := some b.1, tailFirstIndex := none, tailLastIndex := none },
        chain (b :: tail), [], ret, 2 * (tail.length + 1) + 1, ?_, ?_, ?_⟩
      · rintro (_ | fuel) hfuel
        · omega
        have hlevel := hrun fuel (by rw [size_chain, length_cons]; omega)
        rw [map_chain, preorder_chain] at hlevel
        exact dispatchEvent_tail hroot hfst hlevel
      · refine ⟨hfst ▸ h.tailFirst, rfl, rfl, ?_⟩
        rw [indices_chain]
        simpa using h.nodup
      · rw [described, chain, under_of_ne _ (by simp [chain]), hang_nil]
        rfl
  | node a child sibling =>
    have hroot : t.rootIndex = some a.1 := by
      have := h.root
      rw [hR] at this
      exact this.1
    have hholds : Holds t.cells (some a.1) R := hroot ▸ h.root
    by_cases htail : tail = []
    · subst htail
      obtain ⟨root, ret, hrun⟩ := dispatchSiblings_noTail R t (some a.1) event none
        h.tailFirst hholds
      refine ⟨t, R, [], ret, 2 * R.size + 1, ?_, h, by rw [hR]⟩
      rintro (_ | fuel) hfuel
      · omega
      have hlevel := hrun fuel (by omega)
      rw [← dispatchOrder_nil, hR] at hlevel
      exact dispatchEvent_root hroot hlevel
    · obtain ⟨root, first, last, ret, hrun⟩ := dispatchSiblings_tail htail R t (some a.1) event
        none h.tailFirst hholds
      refine ⟨t, R, tail, ret, 2 * R.size + 2 * tail.length + 1, ?_, h, by rw [hR]⟩
      rintro (_ | fuel) hfuel
      · omega
      have hlevel := hrun fuel (by omega)
      rw [hR] at hlevel
      exact dispatchEvent_root hroot hlevel

theorem invokedOrder_eq_iff (R : Forest (Nat × D)) (tail : List (Nat × D)) :
    invokedOrder R tail = (described R tail).preorder ↔ tail = [] ∨ R.LeavesLast := by
  cases R with
  | nil =>
    have hchain : (described nil tail).preorder = tail.map Prod.snd := by
      rw [described, under_nil, map_chain, preorder_chain]
    rw [hchain]
    exact ⟨fun _ => .inr trivial, fun _ => rfl⟩
  | node a child sibling =>
    have hdescribed : (described (node a child sibling) tail).preorder =
        (hang (chain (tail.map Prod.snd)) ((node a child sibling).map Prod.snd)).preorder := by
      rw [described, under_of_ne _ (by simp), map_hang, map_chain]
    rw [hdescribed]
    show dispatchOrder _ _ = _ ↔ _
    rw [dispatchOrder_eq_iff, List.map_eq_nil_iff, leavesLast_map]

/-! ## The trees that are built -/

/-- The cells of the forest, without the tail. -/
inductive Reachable (t : EventDispatchTreeImpl D) : Nat → Prop
  | root {index : Nat} (h : t.rootIndex = some index) : Reachable t index
  | child {index child : Nat} {cell : Cell D} (h : Reachable t index)
      (hcell : t.cells[index]? = some cell) (hchild : cell.nextChild = some child) :
      Reachable t child
  | sibling {index sibling : Nat} {cell : Cell D} (h : Reachable t index)
      (hcell : t.cells[index]? = some cell) (hsibling : cell.nextSibling = some sibling) :
      Reachable t sibling

/-- A cell of the forest that has no child has no sibling after it. -/
def LeavesAreLast (t : EventDispatchTreeImpl D) : Prop :=
  ∀ index cell, Reachable t index → t.cells[index]? = some cell → cell.nextChild = none →
    cell.nextSibling = none

/-- In the order of the text, which is kept. -/
def DispatchesAsDescribed (fwd : Forwarding D E) (t : EventDispatchTreeImpl D) (event : E) : Prop :=
  ∃ enough, ∀ fuel ≥ enough, ∃ text done, t.toString fuel = some text ∧
    dispatchEvent fwd fuel t event = some done ∧ done.invoked = dispatchersOf text ∧
    done.tree.toString fuel = some text

theorem Holds.reachable (h : Holds t.cells o F)
    (ho : ∀ i, o = some i → Reachable t i) : ∀ i ∈ indices F, Reachable t i := by
  induction F generalizing o with
  | nil => simp
  | node a child sibling ihc ihs =>
    obtain ⟨ho', c, s, hcell, hc, hs⟩ := h
    have ha := ho a.1 ho'
    intro i hi
    rw [indices_node, mem_cons, mem_append] at hi
    rcases hi with rfl | hi | hi
    · exact ha
    · exact ihc hc (fun k hk => .child ha hcell hk) i hi
    · exact ihs hs (fun k hk => .sibling ha hcell hk) i hi

/-- The links of a cell of the forest lead to cells of the forest. -/
theorem Holds.mem_of_link {cell : Cell D} {i k : Nat}
    (h : Holds t.cells o F) (hi : i ∈ indices F) (hcell : t.cells[i]? = some cell)
    (hk : cell.nextChild = some k ∨ cell.nextSibling = some k) : k ∈ indices F := by
  induction F generalizing o with
  | nil => simp at hi
  | node a child sibling ihc ihs =>
    obtain ⟨-, c, s, hcell', hc, hs⟩ := h
    have hhead : ∀ {o' : Option Nat} {G : Forest (Nat × D)}, Holds t.cells o' G → o' = some k →
        k ∈ indices G := by
      intro o' G hG hk
      cases G with
      | nil => exact absurd (hk.symm.trans hG) (by simp)
      | node b c s =>
        have : b.1 = k := Option.some.inj (hG.1.symm.trans hk)
        simp [this]
    rw [indices_node, mem_cons, mem_append] at hi ⊢
    rcases hi with rfl | hi | hi
    · obtain rfl : cell = ⟨a.2, c, s⟩ := Option.some.inj (hcell.symm.trans hcell')
      rcases hk with hk | hk
      · exact .inr (.inl (hhead hc hk))
      · exact .inr (.inr (hhead hs hk))
    · exact .inr (.inl (ihc hc hi))
    · exact .inr (.inr (ihs hs hi))

theorem Represents.reachable_iff (h : Represents t R tail) (i : Nat) :
    Reachable t i ↔ i ∈ indices R := by
  constructor
  · intro hreach
    induction hreach with
    | root hroot =>
      have hR := h.root
      rw [hroot] at hR
      cases R with
      | nil => exact absurd hR (by simp [Holds])
      | node a child sibling =>
        have := Option.some.inj hR.1
        simp [this]
    | child _ hcell hchild ih => exact h.root.mem_of_link ih hcell (.inl hchild)
    | sibling _ hcell hsibling ih => exact h.root.mem_of_link ih hcell (.inr hsibling)
  · exact h.root.reachable (fun k hk => .root hk) i

theorem Holds.leavesLast_iff (h : Holds t.cells o F) :
    F.LeavesLast ↔ ∀ i ∈ indices F, ∀ cell, t.cells[i]? = some cell → cell.nextChild = none →
      cell.nextSibling = none := by
  induction F generalizing o with
  | nil => simp [LeavesLast]
  | node a child sibling ihc ihs =>
    obtain ⟨-, c, s, hcell, hc, hs⟩ := h
    have ha : (child = nil → sibling = nil) ↔
        ∀ cell, t.cells[a.1]? = some cell → cell.nextChild = none → cell.nextSibling = none := by
      rw [← hc.eq_none_iff, ← hs.eq_none_iff]
      constructor
      · intro himp cell hcell'
        obtain rfl : cell = ⟨a.2, c, s⟩ := Option.some.inj (hcell'.symm.trans hcell)
        exact himp
      · exact fun himp => himp _ hcell
    simp only [LeavesLast, ha, ihc hc, ihs hs, indices_node, mem_cons, mem_append]
    constructor
    · rintro ⟨h1, h2, h3⟩ i (rfl | hi | hi)
      · exact h1
      · exact h2 i hi
      · exact h3 i hi
    · intro hall
      exact ⟨hall a.1 (.inl rfl), fun i hi => hall i (.inr (.inl hi)),
        fun i hi => hall i (.inr (.inr hi))⟩

theorem Represents.leavesAreLast_iff (h : Represents t R tail) :
    LeavesAreLast t ↔ R.LeavesLast := by
  rw [h.root.leavesLast_iff]
  constructor
  · intro hlast i hi cell
    exact hlast i cell ((h.reachable_iff i).mpr hi)
  · intro hlast i cell hreach
    exact hlast i ((h.reachable_iff i).mp hreach) cell

theorem Represents.tailFirst_eq_none_iff (h : Represents t R tail) :
    t.tailFirstIndex = none ↔ tail = [] := by
  rw [h.tailFirst.eq_none_iff]
  cases tail <;> simp [chain]

/-- A tree that is built is dispatched as its text says exactly when it has no tail, or no cell
    without a child has a sibling after it. -/
theorem dispatchesAsDescribed_iff [DecidableEq D] (h : Built t) (event : E) :
    DispatchesAsDescribed fwd t event ↔ t.tailFirstIndex = none ∨ LeavesAreLast t := by
  obtain ⟨R, tail, hrep⟩ := h.represents
  obtain ⟨t', R', tail', ret, enough, hrun, hrep', hsame⟩ := hrep.dispatchEvent event
  have htext : ∀ fuel, 2 * (described R tail).size + 1 ≤ fuel →
      t.toString fuel = some (textOf (described R tail)) :=
    fun fuel hfuel => toString_of_walks hrep.walks hfuel
  have htext' : ∀ fuel, 2 * (described R tail).size + 1 ≤ fuel →
      t'.toString fuel = some (textOf (described R tail)) := by
    intro fuel hfuel
    have hwalk := hrep'.walks
    rw [hsame] at hwalk
    exact toString_of_walks hwalk hfuel
  rw [hrep.tailFirst_eq_none_iff, hrep.leavesAreLast_iff, ← invokedOrder_eq_iff]
  constructor
  · rintro ⟨enough', hagr⟩
    -- at a fuel that is enough for everything
    obtain ⟨text, done, htext₁, hrun₁, horder, -⟩ :=
      hagr (enough + enough' + (2 * (described R tail).size + 1)) (by omega)
    rw [htext _ (by omega)] at htext₁
    rw [hrun _ (by omega)] at hrun₁
    cases htext₁
    cases hrun₁
    rw [← dispatchersOf_textOf]
    exact horder
  · intro horder
    refine ⟨enough + (2 * (described R tail).size + 1), ?_⟩
    intro fuel hfuel
    refine ⟨textOf (described R tail), _, htext fuel (by omega), hrun fuel (by omega), ?_,
      htext' fuel (by omega)⟩
    rw [dispatchersOf_textOf]
    exact horder

/-- They forward the event and return what they get. -/
def plainForwarding : Forwarding String Nat := ⟨fun _ event => event, fun _ _ reply => reply⟩

/-- The tree `(A,B)`: two leaves on one level. -/
def twoLeaves : EventDispatchTreeImpl String :=
  ⟨[⟨"A", none, some 1⟩, ⟨"B", none, none⟩], some 0, none, none, false⟩

theorem built_twoLeaves : Built twoLeaves := by
  refine @Built.mergeTree _ _ _ _ _ 10 (.append "A" .new) (.append "B" .new) ?_
  intro fuel hfuel
  obtain ⟨f, rfl⟩ : ∃ f, fuel = f + 10 := ⟨fuel - 10, by omega⟩
  rfl

theorem dispatchesAsDescribed_iff_twoLeaves :
    Built twoLeaves ∧ DispatchesAsDescribed plainForwarding twoLeaves 0 :=
  ⟨built_twoLeaves, (dispatchesAsDescribed_iff built_twoLeaves 0).mpr (.inl rfl)⟩

/-- `C` under `A` and `B` is invoked for `A` alone. -/
theorem appended_tail_not_dispatched :
    ¬∀ t : EventDispatchTreeImpl String, Built t → DispatchesAsDescribed plainForwarding t 0 := by
  intro hall
  obtain ⟨enough, hagr⟩ := hall _ (built_twoLeaves.append "C")
  obtain ⟨text, done, htext, hdone, horder, -⟩ := hagr (enough + 10) (by omega)
  have htext' : (twoLeaves.append "C").toString (enough + 10) = some
      [.text "(", .dispatcher "A", .text "->", .text "(", .dispatcher "C", .text ")", .text ",",
        .dispatcher "B", .text "->", .text "(", .dispatcher "C", .text ")", .text ")"] := rfl
  have hdone' : dispatchEvent plainForwarding (enough + 10) (twoLeaves.append "C") 0 = some
      ⟨twoLeaves.append "C", some 0, ["A", "C", "B"]⟩ := rfl
  obtain rfl := Option.some.inj (htext'.symm.trans htext)
  obtain rfl := Option.some.inj (hdone'.symm.trans hdone)
  revert horder
  decide

end OpenJfx.Event.EventDispatchTreeImpl
