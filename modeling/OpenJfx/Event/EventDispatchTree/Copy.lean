/-
  OpenJfx.Event.EventDispatchTree.Copy

  `copyTreeLevel`, `copySubtree` and the loop over the siblings: a walk through the
  source is copied into new cells, and no cell that was there is written (the loop
  writes the sibling of the cell it continues).  The source may be the tree that is
  written to, since the walk stays below the new cells.
-/

import OpenJfx.Event.EventDispatchTree.Cells

namespace OpenJfx.Event.EventDispatchTreeImpl

open Forest List Option

variable {D : Type} {src : Source D} {t t' : EventDispatchTreeImpl D} {o : Option Nat} {n : Nat}
  {F : Forest D}

theorem Walks.keeps {changed : List Nat} (h : Walks (src.tree t) n o F) (hk : Keeps changed t t')
    (hn : src = .this → n ≤ t.cells.length ∧ ∀ i ∈ changed, n ≤ i) :
    Walks (src.tree t') n o F := by
  cases src with
  | other s => exact h
  | this =>
    obtain ⟨hlen, hchanged⟩ := hn rfl
    refine Walks.congr h ?_ hk.tailFirstIndex hk.tailLastIndex
    intro i hi
    exact hk.cells i (by omega) fun hmem => by
      have := hchanged i hmem
      omega

/-- The new cells from `o'` on hold a copy of `F`. -/
structure IsCopy (t t' : EventDispatchTreeImpl D) (o' : Option Nat) (F : Forest D)
    (F' : Forest (Nat × D)) : Prop where
  holds : Holds t'.cells o' F'
  fresh : ∀ i ∈ indices F', t.cells.length ≤ i
  nodup : (indices F').Nodup
  same : F'.map Prod.snd = F
  flag : t'.expandTailFirstPath = t.expandTailFirstPath

/-- `copyTreeLevel` copies the walks through `F`. -/
def CopiesLevel (src : Source D) (n : Nat) (F : Forest D) : Prop :=
  ∀ t o, (src = .this → n ≤ t.cells.length) → Walks (src.tree t) n o F →
    ∃ t' o' F', (∀ fuel, 2 * F.size + 1 ≤ fuel → copyTreeLevel src fuel t o = some (t', o')) ∧
      Keeps [] t t' ∧ IsCopy t t' o' F F'

/-- The loop copies the walks through `F` behind the cell `last`. -/
def CopiesSiblings (src : Source D) (n : Nat) (F : Forest D) : Prop :=
  ∀ t last o, last < t.cells.length → (src = .this → n ≤ last) → Walks (src.tree t) n o F →
    ∃ t' o' F', (∀ fuel, 2 * F.size + 1 ≤ fuel → copySiblings src fuel t last o = some t') ∧
      Keeps [last] t t' ∧
      t'.cells[last]? = t.cells[last]?.map (fun cell => { cell with nextSibling := o' }) ∧
      IsCopy t t' o' F F'

variable {d : D} {child sibling : Forest D}

theorem copySubtree_spec (ihc : CopiesLevel src n child)
    {index : Nat} (hn : src = .this → n ≤ t.cells.length)
    (hwalk : Walks (src.tree t) n (some index) (node d child sibling)) :
    ∃ t' c s C', (∀ fuel, 2 * child.size + 2 ≤ fuel →
        copySubtree src fuel t index = some (t', t.cells.length)) ∧ Keeps [] t t' ∧
      t.cells.length < t'.cells.length ∧
      t'.cells[t.cells.length]? = some ⟨d, c, s⟩ ∧ IsCopy t t' c child C' ∧
      t.cells.length ∉ indices C' := by
  obtain ⟨i, cell, c0, hi, -, hcell, hd, -, -⟩ := id hwalk
  obtain rfl : index = i := some.inj hi
  have hkr : Keeps [] t (t.reserve cell.dispatcher) := Keeps.reserve cell.dispatcher
  have hlen : (t.reserve cell.dispatcher).cells.length = t.cells.length + 1 := by
    simp [reserve]
  -- the walk, once the new cell is reserved
  obtain ⟨i', cell', c1, hi', -, -, -, hchild, hwc, -⟩ := hwalk.keeps hkr fun h => ⟨hn h, by simp⟩
  obtain rfl : index = i' := some.inj hi'
  obtain ⟨t', o', C', hrun, hk, hcopy⟩ := ihc _ c1 (by
    intro h
    have := hn h
    omega) hwc
  have hnot : t.cells.length ∉ indices C' := by
    intro hmem
    have := hcopy.fresh _ hmem
    omega
  have hkeep' : Keeps [] t t' := hkr.trans hk (by simp) (by simp)
  have hkeep : Keeps [] t (t'.setNextChild t.cells.length o') :=
    hkeep'.trans (Keeps.setNextChild t.cells.length o') (by simp) (by simp)
  have hnew : t'.cells[t.cells.length]? = some ⟨d, some 0, some 0⟩ := by
    rw [hk.cells _ (by omega) (by simp), reserve, ← hd]
    simp
  refine ⟨t'.setNextChild t.cells.length o', o', some 0, C', ?_, hkeep, ?_, ?_, ?_, hnot⟩
  · intro fuel hfuel
    rcases fuel with _ | fuel
    · omega
    rw [copySubtree, hcell]
    simp only [bind_eq_bind, bind_some, hchild, hrun fuel (by omega)]
    rfl
  · rw [length_setNextChild]
    have := hk.length
    omega
  · rw [getElem?_setNextChild, if_pos rfl, hnew]
    rfl
  · refine ⟨?_, ?_, hcopy.nodup, hcopy.same, hcopy.flag⟩
    · exact hcopy.holds.keeps (Keeps.setNextChild t.cells.length o') fun i hi hmem =>
        hnot (mem_singleton.mp hmem ▸ hi)
    · intro i hi
      have := hcopy.fresh i hi
      omega

theorem IsCopy.node {t1 t2 : EventDispatchTreeImpl D}
    {c s o' : Option Nat} {C' S' : Forest (Nat × D)} (hk1 : t.cells.length < t1.cells.length)
    (hcell : t1.cells[t.cells.length]? = some ⟨d, c, s⟩) (hc : IsCopy t t1 c child C')
    (hnot : t.cells.length ∉ indices C') (hk2 : Keeps [t.cells.length] t1 t2)
    (hlast : t2.cells[t.cells.length]? =
      t1.cells[t.cells.length]?.map fun cell => { cell with nextSibling := o' })
    (hs : IsCopy t1 t2 o' sibling S') :
    IsCopy t t2 (some t.cells.length) (.node d child sibling)
      (.node (t.cells.length, d) C' S') := by
  refine ⟨⟨rfl, c, o', ?_, ?_, hs.holds⟩, ?_, ?_, ?_, hs.flag.trans hc.flag⟩
  · rw [hlast, hcell]
    rfl
  · exact hc.holds.keeps hk2 fun i hi hmem => hnot (mem_singleton.mp hmem ▸ hi)
  · intro i hi
    rw [indices_node, mem_cons, mem_append] at hi
    rcases hi with rfl | hi | hi
    · exact Nat.le_refl _
    · exact hc.fresh i hi
    · have := hs.fresh i hi
      omega
  · rw [indices_node, nodup_cons, nodup_append]
    refine ⟨?_, hc.nodup, hs.nodup, ?_⟩
    · rw [mem_append, not_or]
      refine ⟨hnot, fun hmem => ?_⟩
      have := hs.fresh _ hmem
      omega
    · intro i hi j hj hij
      have h1 := hc.holds.lt i hi
      have h2 := hs.fresh j hj
      omega
  · simp only [Forest.map, hc.same, hs.same]

theorem copiesLevel_node (ihc : CopiesLevel src n child)
    (ihs : CopiesSiblings src n sibling) : CopiesLevel src n (node d child sibling) := by
  intro t o hn hwalk
  obtain ⟨index, cell, c0, rfl, -⟩ := id hwalk
  obtain ⟨t1, c, s, C', hrun1, hk1, hlt, hcell, hc, hnot⟩ := copySubtree_spec ihc hn hwalk
  have hwalk1 := hwalk.keeps hk1 fun h => ⟨hn h, by simp⟩
  obtain ⟨i, srcCell, c1, hi, -, hsrc, -, -, -, hws⟩ := hwalk1
  obtain rfl : index = i := some.inj hi
  obtain ⟨t2, o', S', hrun2, hk2, hlast, hs⟩ := ihs t1 t.cells.length srcCell.nextSibling hlt hn hws
  refine ⟨t2, some t.cells.length, _, ?_, hk1.trans hk2 (by simp) (by simp),
    IsCopy.node hlt hcell hc hnot hk2 hlast hs⟩
  intro fuel hfuel
  rw [size_node] at hfuel
  rcases fuel with _ | fuel
  · omega
  rw [copyTreeLevel, hrun1 fuel (by omega)]
  simp only [bind_eq_bind, bind_some, hsrc, hrun2 fuel (by omega)]
  rfl

theorem copiesSiblings_node (ihc : CopiesLevel src n child)
    (ihs : CopiesSiblings src n sibling) : CopiesSiblings src n (node d child sibling) := by
  intro t last o hlast hn hwalk
  obtain ⟨index, cell, c0, rfl, -⟩ := id hwalk
  have hn' : src = .this → n ≤ t.cells.length := fun h => by
    have := hn h
    omega
  obtain ⟨t1, c, s, C', hrun1, hk1, hlt, hcell, hc, hnot⟩ := copySubtree_spec ihc hn' hwalk
  -- the cell before is linked to the copy
  let t2 := t1.setNextSibling last (some t.cells.length)
  have hk2 : Keeps [last] t1 t2 := Keeps.setNextSibling last _
  have hk12 : Keeps [last] t t2 := hk1.trans hk2 (by simp) (by simp)
  have hne : t.cells.length ≠ last := by omega
  have hlt2 : t.cells.length < t2.cells.length := by
    rw [length_setNextSibling]
    exact hlt
  have hcell2 : t2.cells[t.cells.length]? = some ⟨d, c, s⟩ := by
    rw [getElem?_setNextSibling, if_neg hne, hcell]
  have hc2 : IsCopy t t2 c child C' := by
    refine ⟨hc.holds.keeps hk2 ?_, hc.fresh, hc.nodup, hc.same, hc.flag⟩
    intro i hi hmem
    have h1 := hc.fresh i hi
    have h2 : i = last := mem_singleton.mp hmem
    omega
  have hwalk2 := hwalk.keeps hk12 fun h => ⟨hn' h, by simpa using hn h⟩
  obtain ⟨i, srcCell, c1, hi, -, hsrc, -, -, -, hws⟩ := hwalk2
  obtain rfl : index = i := some.inj hi
  obtain ⟨t3, o', S', hrun3, hk3, hlast3, hs⟩ :=
    ihs t2 t.cells.length srcCell.nextSibling hlt2 hn' hws
  refine ⟨t3, some t.cells.length, _, ?_, hk12.trans hk3 (by simp) (by simp), ?_,
    IsCopy.node hlt2 hcell2 hc2 hnot hk3 hlast3 hs⟩
  · intro fuel hfuel
    rw [size_node] at hfuel
    rcases fuel with _ | fuel
    · omega
    rw [copySiblings, hrun1 fuel (by omega)]
    simp only [bind_eq_bind, bind_some]
    show (((src.tree t2).cells[index]?).bind fun srcCell =>
      copySiblings src fuel t2 t.cells.length srcCell.nextSibling) = some t3
    rw [hsrc, bind_some, hrun3 fuel (by omega)]
  · have hlast2 : t2.cells[last]? =
        t1.cells[last]?.map fun cell => { cell with nextSibling := some t.cells.length } := by
      rw [getElem?_setNextSibling, if_pos rfl]
    rw [hk3.cells last (by omega) (by simpa using hne.symm), hlast2,
      hk1.cells last hlast (by simp)]

theorem copies (src : Source D) (n : Nat) (F : Forest D) :
    CopiesLevel src n F ∧ CopiesSiblings src n F := by
  induction F with
  | nil =>
    constructor
    · intro t o _ hwalk
      obtain rfl : o = none := hwalk
      refine ⟨t, none, nil, ?_, Keeps.refl [] t, rfl, by simp, by simp, rfl, rfl⟩
      intro fuel hfuel
      rcases fuel with _ | fuel
      · omega
      rfl
    · intro t last o hlast _ hwalk
      obtain rfl : o = none := hwalk
      refine ⟨t.setNextSibling last none, none, nil, ?_, Keeps.setNextSibling last none, ?_,
        rfl, by simp, by simp, rfl, rfl⟩
      · intro fuel hfuel
        rcases fuel with _ | fuel
        · omega
        rfl
      · rw [getElem?_setNextSibling, if_pos rfl]
  | node d child sibling ihc ihs =>
    exact ⟨copiesLevel_node ihc.1 ihs.2, copiesSiblings_node ihc.1 ihs.2⟩

end OpenJfx.Event.EventDispatchTreeImpl
