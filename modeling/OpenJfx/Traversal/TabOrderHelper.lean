/-
  OpenJfx.Traversal.TabOrderHelper

  The order in which the focus goes round with the Tab key: the four searches of
  `TabOrderHelper`, for nodes without a traversal engine of their own.  A node below the
  root comes with the parents between, the nearest one first.
-/

import Mathlib.Data.List.Nodup
import OpenJfx.Lib.Forest

namespace OpenJfx.Traversal.TabOrderHelper

open List
open Forest (ofLevel preorder_node preorder_ofLevel)

/-! ## The searches -/

/-- What is read of a node, of which `id` is the object. -/
structure Node (I : Type) where
  id : I
  isDisabled : Bool
  isTreeVisible : Bool
  isFocusTraversable : Bool
  deriving DecidableEq

variable {I : Type}

/-- A node and its children, of which one that is no `Parent` has none. -/
abbrev Tree (I : Type) := Node I × Forest (Node I)

def level : Forest (Node I) → List (Tree I)
  | .nil => []
  | .node n child sibling => (n, child) :: level sibling

def isDisabledOrInvisible (prevNode : Node I) : Bool :=
  prevNode.isDisabled || !prevNode.isTreeVisible

/-- The loop of `findPreviousFocusableInList`, down to the first node of the list. -/
def previousLoop : Forest (Node I) → Option (Node I)
  | .nil => none
  | .node prevNode child sibling =>
    (previousLoop sibling).or <|
      if isDisabledOrInvisible prevNode then none
      else (previousLoop child).or
        (if prevNode.isFocusTraversable then some prevNode else none)

def findPreviousFocusableInList (nodeList : List (Tree I)) (startIndex : Int) :
    Option (Node I) :=
  previousLoop (ofLevel (nodeList.take (startIndex + 1).toNat))

/-- The loop of `findNextFocusableInList`, from the first node of the list on. -/
def nextLoop : Forest (Node I) → Option (Node I)
  | .nil => none
  | .node nextNode child sibling =>
    if isDisabledOrInvisible nextNode then nextLoop sibling
    else if nextNode.isFocusTraversable then some nextNode
    else (nextLoop child).or (nextLoop sibling)

def findNextFocusableInList (nodeList : List (Tree I)) (startIndex : Nat) : Option (Node I) :=
  nextLoop (ofLevel (nodeList.drop startIndex))

def indexOf [DecidableEq I] (nodeList : List (Tree I)) (node : Node I) : Nat :=
  (nodeList.map Prod.fst).idxOf node

section Peers

variable [DecidableEq I] (root : Forest (Node I))

/-- The children of the parent, which is the root when there is none between. -/
def findPeers : List (Tree I) → List (Tree I)
  | [] => level root
  | parent :: _ => level parent.2

def previousPeer (startNode : Node I) (parents : List (Tree I)) : Option (Node I) :=
  findPreviousFocusableInList (findPeers root parents)
    (indexOf (findPeers root parents) startNode - 1)

def nextPeer (startNode : Node I) (parents : List (Tree I)) : Option (Node I) :=
  findNextFocusableInList (findPeers root parents)
    (indexOf (findPeers root parents) startNode + 1)

/-- The loop over the parents, which ends when the parent of `startNode` is the root. -/
def previousAbove : List (Tree I) → Option (Node I)
  | [] => none
  | parent :: parents =>
    if parent.1.isFocusTraversable then some parent.1
    else (previousPeer root parent.1 parents).or (previousAbove parents)

def findPreviousFocusablePeer (node : Tree I) (parents : List (Tree I)) : Option (Node I) :=
  (previousPeer root node.1 parents).or (previousAbove root parents)

/-- The peer after the nearest ancestor that has one. -/
def nextAbove : List (Tree I) → Option (Node I)
  | [] => none
  | parent :: parents => (nextPeer root parent.1 parents).or (nextAbove parents)

/-- Among the children first, then the peers. -/
def findNextFocusablePeer (node : Tree I) (parents : List (Tree I))
    (traverseIntoCurrent : Bool) : Option (Node I) :=
  (if traverseIntoCurrent then findNextFocusableInList (level node.2) 0 else none).or
    ((nextPeer root node.1 parents).or (nextAbove root parents))

end Peers

/-- The loop of `getFirstTargetNode`, which tests a node again in the call for it. -/
def firstLoop : Forest (Node I) → Option (Node I)
  | .nil => none
  | .node n child sibling =>
    if isDisabledOrInvisible n then firstLoop sibling
    else if n.isFocusTraversable then some n
    else (if isDisabledOrInvisible n then none else firstLoop child).or (firstLoop sibling)

def getFirstTargetNode (p : Tree I) : Option (Node I) :=
  if isDisabledOrInvisible p.1 then none else firstLoop p.2

def lastLoop : Forest (Node I) → Option (Node I)
  | .nil => none
  | .node n child sibling =>
    (lastLoop sibling).or <|
      if isDisabledOrInvisible n then none
      else (if isDisabledOrInvisible n then none else lastLoop child).or
        (if n.isFocusTraversable then some n else none)

def getLastTargetNode (p : Tree I) : Option (Node I) :=
  if isDisabledOrInvisible p.1 then none else lastLoop p.2

/-! ## The pre-order -/

/-- Traversable, enabled and visible. -/
def focusable (n : Node I) : Bool :=
  n.isFocusTraversable && !isDisabledOrInvisible n

/-- What the children of `parent`, and those below them, inherit. -/
def Inherits (parent : Node I) : Forest (Node I) → Prop
  | .nil => True
  | .node n child sibling =>
    (parent.isDisabled = true → n.isDisabled = true) ∧
    (n.isTreeVisible = true → parent.isTreeVisible = true) ∧
    Inherits n child ∧ Inherits parent sibling

/-- `parents` are those of `node` below the root, the nearest one first. -/
def Below (root : Forest (Node I)) : List (Tree I) → Tree I → Prop
  | [], node => node ∈ level root
  | parent :: parents, node => node ∈ level parent.2 ∧ Below root parents parent

/-- The searches find what the pre-order below the root has. -/
structure TraversesPreorder [DecidableEq I] (root : Tree I) : Prop where
  next : ∀ parents node, Below root.2 parents node → isDisabledOrInvisible node.1 = false →
    ∀ X Y, root.2.preorder = X ++ node.1 :: Y →
      findNextFocusablePeer root.2 node parents true = (Y.filter focusable).head? ∧
      findPreviousFocusablePeer root.2 node parents = (X.filter focusable).getLast? ∧
      findNextFocusablePeer root.2 node parents false =
        ((Y.filter (· ∉ node.2.preorder)).filter focusable).head?
  first : getFirstTargetNode root = (root.2.preorder.filter focusable).head?
  last : getLastTargetNode root = (root.2.preorder.filter focusable).getLast?
  inverse : ∀ parents node parents' node', Below root.2 parents node →
    Below root.2 parents' node' → focusable node.1 → focusable node'.1 →
    (findNextFocusablePeer root.2 node parents true = some node'.1 ↔
      findPreviousFocusablePeer root.2 node' parents' = some node.1)
  reached : ∀ n ∈ root.2.preorder, ∃ parents child, Below root.2 parents (n, child)

/-! ## The loops over a list -/

section Loops

variable {n p : Node I} {F : Forest (Node I)}

theorem focusable_of_hidden (h : isDisabledOrInvisible n) : focusable n = false := by
  rw [focusable, h, Bool.not_true, Bool.and_false]

theorem hidden_of_inherits (h1 : p.isDisabled = true → n.isDisabled = true)
    (h2 : n.isTreeVisible = true → p.isTreeVisible = true) (h : isDisabledOrInvisible p) :
    isDisabledOrInvisible n := by
  unfold isDisabledOrInvisible at h ⊢
  grind

/-- Nothing below a hidden node is in the order. -/
theorem Inherits.filter_eq_nil (h : Inherits p F) (hp : isDisabledOrInvisible p) :
    F.preorder.filter focusable = [] := by
  induction F generalizing p with
  | nil => rfl
  | node n child sibling ihc ihs =>
    obtain ⟨h1, h2, hc, hs⟩ := h
    have hn := hidden_of_inherits h1 h2 hp
    rw [preorder_node, filter_cons_of_neg (by rw [focusable_of_hidden hn]; decide),
      filter_append, ihc hc hn, ihs hs hp, append_nil]

/-- The nodes from a node on that are in the order. -/
theorem Inherits.filter_node {child sibling : Forest (Node I)} (h : Inherits n child) :
    (Forest.node n child sibling).preorder.filter focusable =
      (if isDisabledOrInvisible n then [] else
        (if n.isFocusTraversable then [n] else []) ++ child.preorder.filter focusable) ++
        sibling.preorder.filter focusable := by
  rw [preorder_node, filter_cons, filter_append]
  by_cases hn : isDisabledOrInvisible n
  · rw [focusable_of_hidden hn, h.filter_eq_nil hn, if_pos hn]
    rfl
  · rw [Bool.not_eq_true] at hn
    rw [focusable, hn]
    cases n.isFocusTraversable <;> rfl

theorem nextLoop_eq (h : Inherits p F) : nextLoop F = (F.preorder.filter focusable).head? := by
  induction F generalizing p with
  | nil => rfl
  | node n child sibling ihc ihs =>
    obtain ⟨-, -, hc, hs⟩ := h
    rw [hc.filter_node, nextLoop, ihc hc, ihs hs]
    split
    · rfl
    · split
      · rfl
      · rw [nil_append, head?_append]

theorem previousLoop_eq (h : Inherits p F) :
    previousLoop F = (F.preorder.filter focusable).getLast? := by
  induction F generalizing p with
  | nil => rfl
  | node n child sibling ihc ihs =>
    obtain ⟨-, -, hc, hs⟩ := h
    rw [hc.filter_node, previousLoop, ihc hc, ihs hs, getLast?_append]
    congr 1
    split
    · rfl
    · rw [getLast?_append]
      split <;> rfl

theorem firstLoop_eq (F : Forest (Node I)) : firstLoop F = nextLoop F := by
  induction F with
  | nil => rfl
  | node n child sibling ihc ihs =>
    rw [firstLoop, nextLoop, ihc, ihs]
    by_cases hn : isDisabledOrInvisible n
    · rw [if_pos hn, if_pos hn]
    · rw [if_neg hn, if_neg hn, if_neg hn]

theorem lastLoop_eq (F : Forest (Node I)) : lastLoop F = previousLoop F := by
  induction F with
  | nil => rfl
  | node n child sibling ihc ihs =>
    rw [lastLoop, previousLoop, ihc, ihs]
    by_cases hn : isDisabledOrInvisible n
    · rw [if_pos hn, if_pos hn]
    · rw [if_neg hn, if_neg hn, if_neg hn]

end Loops

/-! ## The peers of a node -/

section Peers

variable {n p root : Node I} {F : Forest (Node I)} {A B L : List (Tree I)}

theorem ofLevel_level (F : Forest (Node I)) : ofLevel (level F) = F := by
  induction F with
  | nil => rfl
  | node n child sibling _ ih => rw [level, ofLevel, ih]

theorem inherits_append :
    Inherits p (ofLevel (A ++ B)) ↔ Inherits p (ofLevel A) ∧ Inherits p (ofLevel B) := by
  induction A with
  | nil => exact ⟨fun h => ⟨trivial, h⟩, And.right⟩
  | cons a A ih =>
    rw [cons_append, ofLevel, ofLevel, Inherits, Inherits, ih]
    tauto

theorem preorder_append :
    (ofLevel (A ++ B)).preorder = (ofLevel A).preorder ++ (ofLevel B).preorder := by
  rw [preorder_ofLevel, preorder_ofLevel, preorder_ofLevel, flatMap_append]

/-- A node in a list of peers, with what the searches find before and behind it. -/
theorem exists_peers [DecidableEq I] {node : Tree I} (h : Inherits p F) (hnd : F.preorder.Nodup)
    (hmem : node ∈ level F) :
    ∃ X Y, F.preorder = X ++ node.1 :: (node.2.preorder ++ Y) ∧ Inherits node.1 node.2 ∧
      (isDisabledOrInvisible p → isDisabledOrInvisible node.1) ∧
      findPreviousFocusableInList (level F) (indexOf (level F) node.1 - 1) =
        (X.filter focusable).getLast? ∧
      findNextFocusableInList (level F) (indexOf (level F) node.1 + 1) =
        (Y.filter focusable).head? := by
  obtain ⟨A, B, hL⟩ := append_of_mem hmem
  have hF : F = ofLevel (A ++ node :: B) := by rw [← hL, ofLevel_level]
  have hpre : F.preorder =
      (ofLevel A).preorder ++ node.1 :: (node.2.preorder ++ (ofLevel B).preorder) := by
    rw [hF, preorder_append]
    rfl
  obtain ⟨hA, h1, h2, hc, hB⟩ := inherits_append.mp (hF ▸ h)
  have hindex : indexOf (level F) node.1 = A.length := by
    have hnot : node.1 ∉ A.map Prod.fst := fun hin => by
      obtain ⟨a, ha, hfst⟩ := mem_map.mp hin
      have hina : node.1 ∈ (ofLevel A).preorder := by
        rw [preorder_ofLevel]
        exact mem_flatMap.mpr ⟨a, ha, hfst ▸ mem_cons_self⟩
      exact (disjoint_of_nodup_append (hpre ▸ hnd)) hina mem_cons_self
    rw [indexOf, hL, map_append, idxOf_append_of_notMem hnot, map_cons, idxOf_cons_self,
      length_map, Nat.add_zero]
  refine ⟨_, _, hpre, hc, hidden_of_inherits h1 h2, ?_, ?_⟩
  · rw [findPreviousFocusableInList, hindex, Int.sub_add_cancel, Int.toNat_natCast, hL,
      take_left, previousLoop_eq hA]
  · rw [findNextFocusableInList, hindex, hL, drop_length_add_append, drop_one, tail_cons,
      nextLoop_eq hB]

variable [DecidableEq I] {parents : List (Tree I)} {node : Tree I}

/-- What the searches find behind the nodes below `node`, and before it. -/
theorem Below.split (hinh : Inherits root F) (hnd : F.preorder.Nodup)
    (h : Below F parents node) :
    ∃ X Y, F.preorder = X ++ node.1 :: (node.2.preorder ++ Y) ∧ Inherits node.1 node.2 ∧
      (isDisabledOrInvisible node.1 = false →
        (nextPeer F node.1 parents).or (nextAbove F parents) = (Y.filter focusable).head? ∧
        findPreviousFocusablePeer F node parents = (X.filter focusable).getLast?) := by
  induction parents generalizing node with
  | nil =>
    obtain ⟨X, Y, hpre, hc, -, hprev, hnext⟩ := exists_peers hinh hnd h
    refine ⟨X, Y, hpre, hc, fun _ => ⟨?_, ?_⟩⟩
    · rw [nextPeer, findPeers, hnext, nextAbove, Option.or_none]
    · rw [findPreviousFocusablePeer, previousPeer, findPeers, hprev, previousAbove,
        Option.or_none]
  | cons parent parents ih =>
    obtain ⟨X', Y', hpre', hc', hih⟩ := ih h.2
    have hnd' : parent.2.preorder.Nodup := by
      rw [hpre'] at hnd
      exact (nodup_cons.mp hnd.of_append_right).2.of_append_left
    obtain ⟨X, Y, hpre, hc, hhid, hprev, hnext⟩ := exists_peers hc' hnd' h.1
    refine ⟨X' ++ parent.1 :: X, Y ++ Y', ?_, hc, fun hn => ?_⟩
    · rw [hpre', hpre]
      simp only [append_assoc, cons_append]
    · have hp : isDisabledOrInvisible parent.1 = false := by
        by_contra hne
        rw [hhid (eq_true_of_ne_false hne)] at hn
        cases hn
      obtain ⟨h1, h2⟩ := hih hp
      constructor
      · rw [nextPeer, findPeers, hnext, nextAbove, h1, filter_append, head?_append]
      · rw [findPreviousFocusablePeer, previousPeer, findPeers, hprev, previousAbove,
          filter_append, filter_cons, focusable, hp, Bool.not_false, Bool.and_true]
        cases parent.1.isFocusTraversable with
        | true =>
          rw [if_pos rfl, if_pos rfl, getLast?_append, getLast?_cons, Option.some_or,
            Option.or_some]
        | false =>
          rw [if_neg (by decide), if_neg (by decide), getLast?_append]
          exact congrArg _ h2

end Peers

/-! ## Next and previous -/

section Order

variable {α : Type} {a b : α} {X Y X' Y' : List α}

theorem split_unique (hnd : (X ++ a :: Y).Nodup) (h : X ++ a :: Y = X' ++ a :: Y') :
    X = X' ∧ Y = Y' := by
  have hX : a ∉ X := fun hin => disjoint_of_nodup_append hnd hin mem_cons_self
  have hY : a ∉ Y := (nodup_cons.mp hnd.of_append_right).1
  obtain ⟨h1, -, h2⟩ := (append_cons_inj_of_notMem hX hY).mp h
  exact ⟨h1, h2⟩

/-- `b` comes next after `a` exactly when `a` is the last one before `b`. -/
theorem head?_eq_iff_getLast?_eq (hnd : (X ++ a :: Y).Nodup)
    (h : X ++ a :: Y = X' ++ b :: Y') : Y.head? = some b ↔ X'.getLast? = some a := by
  constructor
  · intro hhead
    obtain ⟨Z, rfl⟩ := head?_eq_some_iff.mp hhead
    have hnd' : ((X ++ [a]) ++ b :: Z).Nodup := by simpa using hnd
    obtain ⟨hX, -⟩ := split_unique hnd' (by simpa using h)
    rw [← hX, getLast?_append, getLast?_singleton, Option.some_or]
  · intro hlast
    obtain ⟨Z, rfl⟩ := getLast?_eq_some_iff.mp hlast
    have h' : X ++ a :: Y = Z ++ a :: b :: Y' := by simpa using h
    obtain ⟨-, hY⟩ := split_unique hnd h'
    rw [hY, head?_cons]

end Order

theorem exists_below {root F : Forest (Node I)}
    (h : ∀ node ∈ level F, ∃ parents, Below root parents node) :
    ∀ n ∈ F.preorder, ∃ parents child, Below root parents (n, child) := by
  induction F with
  | nil => exact nofun
  | node n child sibling ihc ihs =>
    obtain ⟨parents, hparents⟩ := h _ mem_cons_self
    rw [preorder_node]
    intro m hm
    rcases mem_cons.mp hm with rfl | hm
    · exact ⟨parents, child, hparents⟩
    · rcases mem_append.mp hm with hm | hm
      · exact ihc (fun node hnode => ⟨(n, child) :: parents, hnode, hparents⟩) m hm
      · exact ihs (fun node hnode => h node (mem_cons_of_mem _ hnode)) m hm

/-- In every tree the searches go through the nodes in the order in which they stand. -/
theorem traversesPreorder [DecidableEq I] (root : Tree I) (hinh : Inherits root.1 root.2)
    (hnd : root.2.preorder.Nodup) : TraversesPreorder root := by
  have hnext : ∀ parents node, Below root.2 parents node →
      isDisabledOrInvisible node.1 = false → ∀ X Y, root.2.preorder = X ++ node.1 :: Y →
      findNextFocusablePeer root.2 node parents true = (Y.filter focusable).head? ∧
      findPreviousFocusablePeer root.2 node parents = (X.filter focusable).getLast? ∧
      findNextFocusablePeer root.2 node parents false =
        ((Y.filter (· ∉ node.2.preorder)).filter focusable).head? := by
    intro parents node hbelow hn X Y hpre
    obtain ⟨X', Y', hpre', hc, hsearch⟩ := hbelow.split hinh hnd
    obtain ⟨hnext, hprev⟩ := hsearch hn
    obtain ⟨rfl, rfl⟩ := split_unique (hpre ▸ hnd) (hpre.symm.trans hpre')
    refine ⟨?_, hprev, ?_⟩
    · rw [findNextFocusablePeer, if_pos rfl, findNextFocusableInList, drop_zero, ofLevel_level,
        nextLoop_eq hc, hnext, filter_append, head?_append]
    · have hdisj : ∀ m ∈ Y', m ∉ node.2.preorder := fun m hm hin => by
        rw [hpre] at hnd
        exact disjoint_of_nodup_append (nodup_cons.mp hnd.of_append_right).2 hin hm
      have hbeyond : (node.2.preorder ++ Y').filter (· ∉ node.2.preorder) = Y' := by
        rw [filter_append, filter_eq_nil_iff.mpr (fun m hm => by simp [hm]), nil_append,
          filter_eq_self.mpr (fun m hm => decide_eq_true (hdisj m hm))]
      rw [findNextFocusablePeer, if_neg (by decide), Option.none_or, hnext, hbeyond]
  refine ⟨hnext, ?_, ?_, ?_, exists_below fun node hnode => ⟨[], hnode⟩⟩
  · rw [getFirstTargetNode, firstLoop_eq, nextLoop_eq hinh]
    split
    · rw [hinh.filter_eq_nil (by assumption), head?_nil]
    · rfl
  · rw [getLastTargetNode, lastLoop_eq, previousLoop_eq hinh]
    split
    · rw [hinh.filter_eq_nil (by assumption), getLast?_nil]
    · rfl
  · intro parents node parents' node' hbelow hbelow' hfoc hfoc'
    obtain ⟨X, Y, hpre, -⟩ := hbelow.split hinh hnd
    obtain ⟨X', Y', hpre', -⟩ := hbelow'.split hinh hnd
    have hhid : ∀ n : Node I, focusable n → isDisabledOrInvisible n = false := fun n h =>
      (Bool.not_eq_true' _).mp (Bool.and_eq_true_iff.mp h).2
    rw [(hnext _ _ hbelow (hhid _ hfoc) _ _ hpre).1,
      (hnext _ _ hbelow' (hhid _ hfoc') _ _ hpre').2.1]
    have hsplit := congrArg (filter focusable) (hpre.symm.trans hpre')
    have hnd := hnd.filter focusable
    rw [hpre] at hnd
    rw [filter_append, filter_cons_of_pos hfoc] at hnd
    rw [filter_append, filter_append, filter_cons_of_pos hfoc, filter_cons_of_pos hfoc'] at hsplit
    exact head?_eq_iff_getLast?_eq hnd hsplit

/-- A traversable parent with a disabled child and a child that is not traversable. -/
theorem traversesPreorder_small : TraversesPreorder
    ((⟨0, false, true, false⟩ : Node Nat),
      .node ⟨1, false, true, true⟩
        (.node ⟨2, true, true, true⟩ .nil (.node ⟨3, false, true, false⟩ .nil .nil))
        (.node ⟨4, false, true, true⟩ .nil .nil)) :=
  traversesPreorder _ (by simp [Inherits]) (by decide)

end OpenJfx.Traversal.TabOrderHelper
