/-
  OpenJfx.Event.EventDispatchTree.MergeLevel

  `mergeTreeLevel`: every node of the source level is merged into the level of the
  tree, into the node with the same dispatcher or as a new last node.
-/

import OpenJfx.Event.EventDispatchTree.Copy
import OpenJfx.Lib.ForestMerge

namespace OpenJfx.Event.EventDispatchTreeImpl

open List hiding nil merge map_eq_nil_iff

open Forest

variable {D : Type} {t : EventDispatchTreeImpl D} {cells cells' : List (Cell D)} {o : Option Nat}
  {A C : List ((Nat × D) × Forest (Nat × D))} {b : (Nat × D) × Forest (Nat × D)}

/-! ## The nodes of a level -/

theorem indices_ofLevel_append (A B : List ((Nat × D) × Forest (Nat × D))) :
    indices (ofLevel (A ++ B)) = indices (ofLevel A) ++ indices (ofLevel B) := by
  simp [indices, preorder_ofLevel]

theorem indices_ofLevel_cons (b : (Nat × D) × Forest (Nat × D))
    (B : List ((Nat × D) × Forest (Nat × D))) :
    indices (ofLevel (b :: B)) = b.1.1 :: (indices b.2 ++ indices (ofLevel B)) := by
  rw [ofLevel, indices_node]

theorem Holds.at_node (h : Holds cells o (ofLevel (A ++ b :: C))) :
    ∃ c s, cells[b.1.1]? = some ⟨b.1.2, c, s⟩ ∧ Holds cells c b.2 ∧
      Holds cells s (ofLevel C) := by
  induction A generalizing o with
  | nil =>
    obtain ⟨-, c, s, hcell, hc, hs⟩ := h
    exact ⟨c, s, hcell, hc, hs⟩
  | cons a A ih =>
    obtain ⟨-, c, s, -, -, hs⟩ := h
    exact ih hs

theorem Holds.replace {C' : List ((Nat × D) × Forest (Nat × D))} {K' : Forest (Nat × D)}
    {c' s' : Option Nat} (h : Holds cells o (ofLevel (A ++ b :: C)))
    (hA : ∀ i ∈ indices (ofLevel A), cells'[i]? = cells[i]?)
    (hb : cells'[b.1.1]? = some ⟨b.1.2, c', s'⟩) (hK : Holds cells' c' K')
    (hC : Holds cells' s' (ofLevel C')) : Holds cells' o (ofLevel (A ++ (b.1, K') :: C')) := by
  induction A generalizing o with
  | nil => exact ⟨h.1, c', s', hb, hK, hC⟩
  | cons a A ih =>
    obtain ⟨ho, c, s, hcell, hc, hs⟩ := h
    simp only [indices_ofLevel_cons, mem_cons, mem_append] at hA
    refine ⟨ho, c, s, ?_, hc.congr fun i hi => hA i (.inr (.inl hi)),
      ih hs fun i hi => hA i (.inr (.inr hi))⟩
    rw [hA a.1.1 (.inl rfl), hcell]

section Search

variable [DecidableEq D]

/-- The search meets the dispatcher, or ends behind the last node. -/
theorem findDispatcher_spec {nodes : List ((Nat × D) × Forest (Nat × D))} (d : D)
    (h : Holds t.cells o (ofLevel nodes)) (last : Nat) :
    (∃ A b C last', nodes = A ++ b :: C ∧ (∀ x ∈ A, d ≠ x.1.2) ∧ d = b.1.2 ∧
      ∀ fuel, nodes.length + 1 ≤ fuel →
        findDispatcher t d fuel o last = some (some b.1.1, last')) ∨
    (∀ x ∈ nodes, d ≠ x.1.2) ∧
      ∀ fuel, nodes.length + 1 ≤ fuel → findDispatcher t d fuel o last =
        some (none, (nodes.getLast?.map fun b => b.1.1).getD last) := by
  induction nodes generalizing o last with
  | nil =>
    obtain rfl : o = none := h
    refine .inr ⟨by simp, ?_⟩
    intro fuel hfuel
    rcases fuel with _ | fuel
    · omega
    rfl
  | cons b nodes ih =>
    obtain ⟨rfl, c, s, hcell, -, hs⟩ := h
    have hstep : ∀ fuel, findDispatcher t d (fuel + 1) (some b.1.1) last =
        if d = b.1.2 then some (some b.1.1, last) else findDispatcher t d fuel s b.1.1 := by
      intro fuel
      rw [findDispatcher, hcell]
      rfl
    by_cases hd : d = b.1.2
    · refine .inl ⟨[], b, nodes, last, rfl, by simp, hd, ?_⟩
      intro fuel hfuel
      rcases fuel with _ | fuel
      · omega
      rw [hstep, if_pos hd]
    · rcases ih hs b.1.1 with ⟨A, b', C, last', rfl, hA, hb', hrun⟩ | ⟨hnodes, hrun⟩
      · refine .inl ⟨b :: A, b', C, last', rfl, forall_mem_cons.mpr ⟨hd, hA⟩, hb', ?_⟩
        intro fuel hfuel
        rw [length_cons] at hfuel
        rcases fuel with _ | fuel
        · omega
        rw [hstep, if_neg hd, hrun fuel (by omega)]
      · refine .inr ⟨forall_mem_cons.mpr ⟨hd, hnodes⟩, ?_⟩
        intro fuel hfuel
        rw [length_cons] at hfuel
        rcases fuel with _ | fuel
        · omega
        rw [hstep, if_neg hd, hrun fuel (by omega), getLast?_cons]
        cases nodes.getLast? <;> rfl

end Search

/-! ## Merging one node -/

/-- `R` from `o` on has become `R'`, in cells of `R` and new ones, with at most `more` nodes
    more. -/
structure Merged (t t' : EventDispatchTreeImpl D) (o : Option Nat) (R R' : Forest (Nat × D))
    (more : Nat) : Prop where
  keeps : Keeps (indices R) t t'
  holds : Holds t'.cells o R'
  nodup : (indices R').Nodup
  cells : ∀ i ∈ indices R', i ∈ indices R ∨ t.cells.length ≤ i
  size : R'.size ≤ R.size + more

theorem Merged.trans {t1 t2 : EventDispatchTreeImpl D} {R R1 R2 : Forest (Nat × D)} {m1 m2 : Nat}
    (h1 : Merged t t1 o R R1 m1) (h2 : Merged t1 t2 o R1 R2 m2) :
    Merged t t2 o R R2 (m1 + m2) where
  keeps := h1.keeps.trans h2.keeps (fun _ hi => hi) h1.cells
  holds := h2.holds
  nodup := h2.nodup
  cells := by
    intro i hi
    rcases h2.cells i hi with h | h
    · exact h1.cells i h
    · exact .inr (Nat.le_trans h1.keeps.length h)
  size := by
    have h1' := h1.size
    have h2' := h2.size
    omega

/-- Disjointness inside a level, around one of its nodes. -/
structure AroundNode (A : List ((Nat × D) × Forest (Nat × D))) (b : (Nat × D) × Forest (Nat × D))
    (C : List ((Nat × D) × Forest (Nat × D))) : Prop where
  before_node : b.1.1 ∉ indices (ofLevel A)
  before_child : ∀ i ∈ indices (ofLevel A), i ∉ indices b.2
  node_child : b.1.1 ∉ indices b.2
  node_after : b.1.1 ∉ indices (ofLevel C)
  child_after : ∀ i ∈ indices b.2, i ∉ indices (ofLevel C)

theorem aroundNode_of_nodup (h : (indices (ofLevel (A ++ b :: C))).Nodup) : AroundNode A b C := by
  rw [indices_ofLevel_append, indices_ofLevel_cons, nodup_append, nodup_cons,
    nodup_append, mem_append, not_or] at h
  obtain ⟨-, ⟨⟨hbK, hbC⟩, -, -, hKC⟩, hA⟩ := h
  refine ⟨?_, ?_, hbK, hbC, fun i hi hj => hKC i hi i hj rfl⟩
  · exact fun hmem => hA _ hmem _ mem_cons_self rfl
  · exact fun i hi hj => hA i hi i (.tail _ (mem_append_left _ hj)) rfl

/-- What is merged under a node stays with it. -/
theorem Merged.under_node {t' : EventDispatchTreeImpl D} {K' : Forest (Nat × D)}
    {c' s : Option Nat} {more : Nat} (h : Holds t.cells o (ofLevel (A ++ b :: C)))
    (hnd : (indices (ofLevel (A ++ b :: C))).Nodup)
    (hs : Holds t.cells s (ofLevel C)) (hk : Keeps (b.1.1 :: indices b.2) t t')
    (hcell : t'.cells[b.1.1]? = some ⟨b.1.2, c', s⟩) (hK : Holds t'.cells c' K')
    (hKnd : (indices K').Nodup) (hKcells : ∀ i ∈ indices K', i ∈ indices b.2 ∨ t.cells.length ≤ i)
    (hsz : K'.size ≤ b.2.size + more) :
    Merged t t' o (ofLevel (A ++ b :: C)) (ofLevel (A ++ (b.1, K') :: C)) more := by
  have har := aroundNode_of_nodup hnd
  have hlt := h.lt
  rw [indices_ofLevel_append, indices_ofLevel_cons] at hlt
  simp only [mem_append, mem_cons] at hlt
  have hCkeep : Holds t'.cells s (ofLevel C) := by
    refine hs.keeps hk ?_
    intro i hi hmem
    rcases mem_cons.mp hmem with rfl | hmem
    · exact har.node_after hi
    · exact har.child_after i hmem hi
  have hAkeep : ∀ i ∈ indices (ofLevel A), t'.cells[i]? = t.cells[i]? := by
    intro i hi
    refine hk.cells i (hlt i (.inl hi)) ?_
    intro hmem
    rcases mem_cons.mp hmem with rfl | hmem
    · exact har.before_node hi
    · exact har.before_child i hi hmem
  refine ⟨?_, h.replace hAkeep hcell hK hCkeep, ?_, ?_, ?_⟩
  · refine hk.trans (Keeps.refl [] t') ?_ (by simp)
    intro i hi
    rw [indices_ofLevel_append, indices_ofLevel_cons]
    simp only [mem_append, mem_cons] at hi ⊢
    tauto
  · have hold := hnd
    rw [indices_ofLevel_append, indices_ofLevel_cons, nodup_append, nodup_cons,
      nodup_append, mem_append, not_or] at hold ⊢
    obtain ⟨hA, ⟨⟨-, hbC⟩, -, hC, -⟩, hAB⟩ := hold
    refine ⟨hA, ⟨⟨?_, hbC⟩, hKnd, hC, ?_⟩, ?_⟩
    · intro hmem
      rcases hKcells _ hmem with h1 | h1
      · exact har.node_child h1
      · exact Nat.lt_irrefl _ (Nat.lt_of_lt_of_le (hlt b.1.1 (.inr (.inl rfl))) h1)
    · intro i hi j hj hij
      subst hij
      rcases hKcells i hi with h1 | h1
      · exact har.child_after i h1 hj
      · have := hlt i (.inr (.inr (.inr hj)))
        omega
    · intro i hi j hj hij
      subst hij
      rcases mem_cons.mp hj with rfl | hj
      · exact har.before_node hi
      · rcases mem_append.mp hj with hj | hj
        · rcases hKcells i hj with h1 | h1
          · exact har.before_child i hi h1
          · have := hlt i (.inl hi)
            omega
        · exact hAB i hi i (.tail _ (mem_append_right _ hj)) rfl
  · intro i hi
    rw [indices_ofLevel_append, indices_ofLevel_cons] at hi ⊢
    simp only [mem_append, mem_cons] at hi ⊢
    rcases hi with hi | rfl | hi | hi
    · exact .inl (.inl hi)
    · exact .inl (.inr (.inl rfl))
    · rcases hKcells i hi with h1 | h1
      · exact .inl (.inr (.inr (.inl h1)))
      · exact .inr h1
    · exact .inl (.inr (.inr (.inr hi)))
  · rw [size_ofLevel_append, size_ofLevel_append, ofLevel, ofLevel, size_node, size_node]
    omega

/-- A dispatcher without an equal among the siblings is copied behind the last. -/
theorem Merged.behind_last {t1 : EventDispatchTreeImpl D} {d : D} {child : Forest D}
    {c s : Option Nat} {C' : Forest (Nat × D)} (h : Holds t.cells o (ofLevel (A ++ [b])))
    (hnd : (indices (ofLevel (A ++ [b]))).Nodup) (hk : Keeps [] t t1)
    (hcell : t1.cells[t.cells.length]? = some ⟨d, c, s⟩) (hC : IsCopy t t1 c child C')
    (hnot : t.cells.length ∉ indices C') :
    Merged t ((t1.setNextSibling b.1.1 (some t.cells.length)).setNextSibling t.cells.length none) o
      (ofLevel (A ++ [b])) (ofLevel (A ++ [b, ((t.cells.length, d), C')])) (child.size + 1) := by
  have hlt := h.lt
  have hb : b.1.1 < t.cells.length := hlt _ (by
    rw [indices_ofLevel_append, indices_ofLevel_cons]
    simp)
  have har := aroundNode_of_nodup hnd
  have hmemb : b.1.1 ∈ indices (ofLevel (A ++ [b])) := by
    rw [indices_ofLevel_append, indices_ofLevel_cons]
    simp
  -- of the old cells, only that of the last sibling is written
  have hk' : Keeps [b.1.1] t
      ((t1.setNextSibling b.1.1 (some t.cells.length)).setNextSibling t.cells.length none) := by
    have h1 : Keeps [b.1.1] t (t1.setNextSibling b.1.1 (some t.cells.length)) :=
      hk.trans (Keeps.setNextSibling b.1.1 _) (by simp) (by simp)
    exact h1.trans (Keeps.setNextSibling t.cells.length none) (by simp) (by simp)
  obtain ⟨cb, sb, hcellb, hcb, -⟩ := h.at_node
  have hcell2 : ((t1.setNextSibling b.1.1 (some t.cells.length)).setNextSibling
      t.cells.length none).cells[t.cells.length]? = some ⟨d, c, none⟩ := by
    rw [getElem?_setNextSibling, if_pos rfl, getElem?_setNextSibling, if_neg (by omega), hcell]
    rfl
  have hcellb2 : ((t1.setNextSibling b.1.1 (some t.cells.length)).setNextSibling
      t.cells.length none).cells[b.1.1]? = some ⟨b.1.2, cb, some t.cells.length⟩ := by
    rw [getElem?_setNextSibling, if_neg (by omega), getElem?_setNextSibling, if_pos rfl,
      hk.cells b.1.1 hb (by simp), hcellb]
    rfl
  have hC2 : Holds ((t1.setNextSibling b.1.1 (some t.cells.length)).setNextSibling
      t.cells.length none).cells c C' := by
    refine hC.holds.congr ?_
    intro i hi
    have hfresh := hC.fresh i hi
    have hne : i ≠ t.cells.length := fun heq => hnot (heq ▸ hi)
    rw [getElem?_setNextSibling, if_neg hne, getElem?_setNextSibling, if_neg (by omega)]
  have hAkeep : ∀ i ∈ indices (ofLevel A), ((t1.setNextSibling b.1.1
      (some t.cells.length)).setNextSibling t.cells.length none).cells[i]? = t.cells[i]? := by
    intro i hi
    refine hk'.cells i (hlt i ?_) ?_
    · rw [indices_ofLevel_append]
      exact mem_append_left _ hi
    · intro hmem
      rw [mem_singleton.mp hmem] at hi
      exact har.before_node hi
  have hKkeep : Holds ((t1.setNextSibling b.1.1 (some t.cells.length)).setNextSibling
      t.cells.length none).cells cb b.2 := by
    refine hcb.keeps hk' ?_
    intro i hi hmem
    rw [mem_singleton.mp hmem] at hi
    exact har.node_child hi
  have hnew : indices (ofLevel (A ++ [b, ((t.cells.length, d), C')])) =
      indices (ofLevel (A ++ [b])) ++ t.cells.length :: indices C' := by
    rw [show A ++ [b, ((t.cells.length, d), C')] = (A ++ [b]) ++ [((t.cells.length, d), C')] by simp,
      indices_ofLevel_append _ [((t.cells.length, d), C')], indices_ofLevel_cons]
    simp [ofLevel]
  refine ⟨?_, h.replace hAkeep hcellb2 hKkeep ⟨rfl, c, none, hcell2, hC2, rfl⟩, ?_, ?_, ?_⟩
  · refine hk'.trans (Keeps.refl [] _) ?_ (by simp)
    intro i hi
    rw [mem_singleton.mp hi]
    exact hmemb
  · rw [hnew, nodup_append, nodup_cons]
    refine ⟨hnd, ⟨hnot, hC.nodup⟩, ?_⟩
    intro i hi j hj hij
    subst hij
    have h1 := hlt i hi
    rcases mem_cons.mp hj with h2 | h2
    · omega
    · have := hC.fresh i h2
      omega
  · intro i hi
    rw [hnew, mem_append, mem_cons] at hi
    rcases hi with hi | rfl | hi
    · exact .inl hi
    · exact .inr (Nat.le_refl _)
    · exact .inr (hC.fresh i hi)
  · have hsz : C'.size = child.size := by rw [← hC.same, size_map]
    rw [show A ++ [b, ((t.cells.length, d), C')] = (A ++ [b]) ++ [((t.cells.length, d), C')] by simp,
      size_ofLevel_append (A ++ [b]) [((t.cells.length, d), C')]]
    simp only [ofLevel, size_node, size_nil]
    omega

/-! ## Merging a level -/

variable [DecidableEq D] {s : EventDispatchTreeImpl D} {n : Nat}

/-- `mergeTreeLevel` merges the walks through `F` into every level. -/
def MergesLevel (s : EventDispatchTreeImpl D) (n : Nat) (F : Forest D) : Prop :=
  ∀ t l o R, Holds t.cells (some l) R → (indices R).Nodup → Walks s n o F →
    ∃ t' R', (∀ fuel, R.size + 2 * F.size + 2 ≤ fuel →
        mergeTreeLevel s fuel t l o = some t') ∧ Merged t t' (some l) R R' F.size ∧
      R'.map Prod.snd = merge F (R.map Prod.snd)

/-- One round of the loop of `mergeTreeLevel`. -/
def mergeNode (s : EventDispatchTreeImpl D) (fuel : Nat) (t : EventDispatchTreeImpl D)
    (srcIndex : Nat) : Option Nat × Nat → Option (EventDispatchTreeImpl D)
  | (none, lastDstIndex) =>
    (copySubtree (.other s) fuel t srcIndex).map fun r =>
      (r.1.setNextSibling lastDstIndex (some r.2)).setNextSibling r.2 none
  | (some dstIndex, _) => do
    let dstCell ← t.cells[dstIndex]?
    let nextSrcLevelIndex ← s.getChildIndex srcIndex
    match dstCell.nextChild with
    | some nextDstLevelIndex =>
      mergeTreeLevel s fuel t nextDstLevelIndex nextSrcLevelIndex
    | none =>
      (copyTreeLevel (.other s) fuel t nextSrcLevelIndex).map fun r =>
        r.1.setNextChild dstIndex r.2

theorem mergeTreeLevel_succ (fuel : Nat) (t : EventDispatchTreeImpl D) (l srcIndex : Nat) :
    mergeTreeLevel s (fuel + 1) t l (some srcIndex) =
      (s.cells[srcIndex]?).bind fun srcCell =>
        (findDispatcher t srcCell.dispatcher fuel (some l) l).bind fun found =>
          (mergeNode s fuel t srcIndex found).bind fun t' =>
            (s.cells[srcIndex]?).bind fun srcCell =>
              mergeTreeLevel s fuel t' l srcCell.nextSibling := by
  rw [mergeTreeLevel]
  rfl

theorem mergeNode_spec {d : D} {child sibling : Forest D} (ihc : MergesLevel s n child)
    {l srcIndex : Nat} {R : Forest (Nat × D)} (hR : Holds t.cells (some l) R)
    (hnd : (indices R).Nodup) (hwalk : Walks s n (some srcIndex) (node d child sibling)) :
    ∃ found t1 R1, (∀ fuel, R.size + 2 * child.size + 3 ≤ fuel →
        findDispatcher t d fuel (some l) l = some found ∧
        mergeNode s fuel t srcIndex found = some t1) ∧
      Merged t t1 (some l) R R1 (child.size + 1) ∧
      R1.map Prod.snd = insertNode d child (orSource child (merge child)) (R.map Prod.snd) := by
  obtain ⟨nodes, rfl⟩ := exists_level R
  have hlen := length_le_size_ofLevel nodes
  obtain ⟨i, srcCell, c0, hi, -, hsrc, -, hchild, hwc, -⟩ := id hwalk
  obtain rfl : srcIndex = i := Option.some.inj hi
  rcases findDispatcher_spec d hR l with
    ⟨A, b, C, last', rfl, hA, hd, hfind⟩ | ⟨hnodes, hfind⟩
  · -- a node of the level has the dispatcher
    obtain ⟨c, sb, hcell, hc, hs⟩ := hR.at_node
    have har := aroundNode_of_nodup hnd
    have hblt : b.1.1 < t.cells.length := (List.getElem?_eq_some_iff.mp hcell).1
    have hndK : (indices b.2).Nodup := by
      rw [indices_ofLevel_append, indices_ofLevel_cons, nodup_append, nodup_cons,
        nodup_append] at hnd
      exact hnd.2.1.2.1
    have hsizeK : b.2.size ≤ (ofLevel (A ++ b :: C)).size := by
      rw [size_ofLevel_append, ofLevel, size_node]
      omega
    have hsame : ∀ K' : Forest (Nat × D),
        K'.map Prod.snd = orSource child (merge child) (b.2.map Prod.snd) →
        (ofLevel (A ++ (b.1, K') :: C)).map Prod.snd =
          insertNode d child (orSource child (merge child))
            ((ofLevel (A ++ b :: C)).map Prod.snd) := by
      intro K' hK'
      simp only [map_ofLevel, map_append, map_cons, ← hd, hK']
      exact (insertNode_ofLevel_mid (forall_mem_map.mpr hA)).symm
    cases hcs : c with
    | some k =>
      rw [hcs] at hc hcell
      obtain ⟨t1, K', hrun, hm, hK'⟩ := ihc t k c0 b.2 hc hndK hwc
      have hne : b.2.map Prod.snd ≠ nil := by
        rw [Ne, map_eq_nil_iff]
        exact hc.isSome_iff.mp rfl
      refine ⟨(some b.1.1, last'), t1, _, ?_, Merged.under_node hR hnd hs ?_ ?_ hm.holds hm.nodup hm.cells
        (Nat.le_trans hm.size (by omega)), hsame K' (by rw [hK', orSource, if_neg hne])⟩
      · intro fuel hfuel
        refine ⟨hfind fuel (by omega), ?_⟩
        simp only [mergeNode, hcell, hchild, Option.bind_eq_bind, Option.bind_some]
        exact hrun fuel (by omega)
      · exact hm.keeps.trans (Keeps.refl [] t1) (fun i hi => .tail _ hi) (by simp)
      · rw [hm.keeps.cells b.1.1 hblt har.node_child, hcell]
    | none =>
      rw [hcs] at hc hcell
      have hK : b.2 = nil := hc.eq_none_iff.mp rfl
      obtain ⟨t1, o', K', hrun, hk, hcopy⟩ := (copies (.other s) n child).1 t c0 (by simp) hwc
      refine ⟨(some b.1.1, last'), t1.setNextChild b.1.1 o', _, ?_,
        @Merged.under_node _ _ _ _ _ _ _ _ o' _ _ hR hnd hs ?_ ?_ ?_ hcopy.nodup
            (fun i hi => .inr (hcopy.fresh i hi)) ?_,
        hsame K' (by rw [hcopy.same, hK]; rfl)⟩
      · intro fuel hfuel
        refine ⟨hfind fuel (by omega), ?_⟩
        simp only [mergeNode, hcell, hchild, Option.bind_eq_bind, Option.bind_some,
          hrun fuel (by omega), Option.map_some]
      · exact hk.trans (Keeps.setNextChild b.1.1 o') (by simp) (by simp)
      · rw [getElem?_setNextChild, if_pos rfl, hk.cells b.1.1 hblt (by simp), hcell]
        rfl
      · refine hcopy.holds.keeps (Keeps.setNextChild b.1.1 o') ?_
        intro i hi hmem
        have h1 := hcopy.fresh i hi
        rw [mem_singleton.mp hmem] at h1
        omega
      · rw [← size_map Prod.snd K', hcopy.same]
        omega
  · -- a new node behind the last one
    obtain ⟨A, b, rfl⟩ : ∃ A b, nodes = A ++ [b] := by
      rcases eq_nil_or_concat nodes with rfl | ⟨A, b, rfl⟩
      · exact absurd hR (by simp [ofLevel, Holds])
      · exact ⟨A, b, concat_eq_append⟩
    obtain ⟨t1, c, sc, C', hrun, hk, -, hcell, hcopy, hnot⟩ :=
      copySubtree_spec (copies (.other s) n child).1 (t := t) (by simp) hwalk
    refine ⟨(none, b.1.1), _, _, ?_, Merged.behind_last hR hnd hk hcell hcopy hnot, ?_⟩
    · intro fuel hfuel
      constructor
      · rw [hfind fuel (by omega), getLast?_concat]
        rfl
      · rw [mergeNode, hrun fuel (by omega)]
        rfl
    · rw [map_ofLevel, map_ofLevel, insertNode_ofLevel_append (forall_mem_map.mpr hnodes)]
      simp [hcopy.same]

theorem mergesLevel (s : EventDispatchTreeImpl D) (n : Nat) (F : Forest D) :
    MergesLevel s n F := by
  induction F with
  | nil =>
    intro t l o R hR hnd hwalk
    obtain rfl : o = none := hwalk
    refine ⟨t, R, ?_, ⟨Keeps.refl _ t, hR, hnd, fun _ hi => .inl hi, by simp⟩, rfl⟩
    intro fuel hfuel
    rcases fuel with _ | fuel
    · omega
    rfl
  | node d child sibling ihc ihs =>
    intro t l o R hR hnd hwalk
    obtain ⟨srcIndex, srcCell, c0, rfl, -, hsrc, hd, -, -, hws⟩ := id hwalk
    obtain ⟨found, t1, R1, hrun1, hm1, hsame1⟩ := mergeNode_spec ihc hR hnd hwalk
    have hsz := hm1.size
    obtain ⟨t2, R2, hrun2, hm2, hsame2⟩ := ihs t1 l srcCell.nextSibling R1 hm1.holds hm1.nodup hws
    refine ⟨t2, R2, ?_, ?_, by rw [hsame2, hsame1, merge]⟩
    · intro fuel hfuel
      rw [size_node] at hfuel
      rcases fuel with _ | fuel
      · omega
      obtain ⟨hfind, hnode⟩ := hrun1 fuel (by omega)
      rw [mergeTreeLevel_succ, hsrc, Option.bind_some, hd, hfind, Option.bind_some, hnode,
        Option.bind_some, Option.bind_some, hrun2 fuel (by omega)]
    · have hsum : (node d child sibling).size = child.size + 1 + sibling.size := by
        rw [size_node]
        omega
      rw [hsum]
      exact hm1.trans hm2

end OpenJfx.Event.EventDispatchTreeImpl
