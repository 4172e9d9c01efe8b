/-
  OpenJfx.Event.EventDispatchTree.Merge

  `mergeTree`: the tail is expanded under the leaves, in its own cells under the
  first one and in copies under the others, and the source is merged level by
  level.  Every tree that is built by `append`, `prepend` and `mergeTree` is
  represented by a forest and a tail in cells of their own, and `mergeTree` always
  returns.
-/

import OpenJfx.Event.EventDispatchTree.MergeLevel

namespace OpenJfx.Event.EventDispatchTreeImpl

open List hiding nil map_eq_nil_iff

open Forest

variable {D : Type} {t t₁ : EventDispatchTreeImpl D} {o : Option Nat} {tail : List (Nat × D)}

/-! ## expandTail -/

/-- The forest `R` from `o` on has become `R'`, in cells of `R`, new ones and unused ones of the
    tail. -/
structure Expanded (tail : List (Nat × D)) (t t' : EventDispatchTreeImpl D) (o : Option Nat)
    (R R' : Forest (Nat × D)) : Prop where
  keeps : Keeps (indices R) t t'
  holds : Holds t'.cells o R'
  nodup : (indices R').Nodup
  cells : ∀ i ∈ indices R', i ∈ indices R ∨ t.cells.length ≤ i ∨
    (t.expandTailFirstPath = true ∧ i ∈ tail.map Prod.fst)
  flag : R ≠ nil → t'.expandTailFirstPath = false
  same : R'.map Prod.snd = hang ((chain tail).map Prod.snd) (R.map Prod.snd)

/-- The tail in the cells of the tree, apart from the forest `R`. -/
structure TailApart (t : EventDispatchTreeImpl D) (tail : List (Nat × D))
    (R : Forest (Nat × D)) : Prop where
  first : Holds t.cells t.tailFirstIndex (chain tail)
  last : t.tailLastIndex = tail.getLast?.map Prod.fst
  nodup : (tail.map Prod.fst).Nodup
  apart : ∀ i ∈ indices R, i ∉ tail.map Prod.fst

theorem TailApart.keeps {R R1 : Forest (Nat × D)} {changed : List Nat} (h : TailApart t tail R)
    (hk : Keeps changed t t₁) (hchanged : ∀ i ∈ changed, i ∈ indices R)
    (hsub : ∀ i ∈ indices R1, i ∈ indices R) : TailApart t₁ tail R1 where
  first := by
    rw [hk.tailFirstIndex]
    refine h.first.keeps hk ?_
    intro i hi hmem
    rw [indices_chain] at hi
    exact h.apart i (hchanged i hmem) hi
  last := hk.tailLastIndex.trans h.last
  nodup := h.nodup
  apart := fun i hi => h.apart i (hsub i hi)

/-- The children of the cell `a` have become `C'`, from `c'` on; `s` is its next sibling. -/
structure ExpandedChild (tail : List (Nat × D)) (t t₁ : EventDispatchTreeImpl D) (a : Nat × D)
    (c' s : Option Nat) (child C' : Forest (Nat × D)) : Prop where
  keeps : Keeps (a.1 :: indices child) t t₁
  cell : t₁.cells[a.1]? = some ⟨a.2, c', s⟩
  holds : Holds t₁.cells c' C'
  nodup : (indices C').Nodup
  cells : ∀ i ∈ indices C', i ∈ indices child ∨ t.cells.length ≤ i ∨
    (t.expandTailFirstPath = true ∧ i ∈ tail.map Prod.fst)
  flag : t₁.expandTailFirstPath = false
  same : C'.map Prod.snd = under ((chain tail).map Prod.snd) (child.map Prod.snd)

theorem Expanded.node {a : Nat × D} {child sibling C' S' : Forest (Nat × D)} {c' s : Option Nat}
    {t2 : EventDispatchTreeImpl D} (htail : TailApart t tail (.node a child sibling))
    (hnd : (indices (.node a child sibling)).Nodup)
    (hlt : ∀ i ∈ indices (.node a child sibling), i < t.cells.length)
    (hchild : ExpandedChild tail t t₁ a c' s child C') (hS : Expanded tail t₁ t2 s sibling S')
    (hflag2 : sibling = nil → t2.expandTailFirstPath = t₁.expandTailFirstPath) :
    Expanded tail t t2 (some a.1) (.node a child sibling) (.node a C' S') := by
  obtain ⟨hk1, hcell, hC, hCnd, hCcells, hflag, hCsame⟩ := hchild
  rw [indices_node, nodup_cons, nodup_append] at hnd
  obtain ⟨ha, -, -, hdisj⟩ := hnd
  simp only [indices_node, mem_cons, mem_append] at hlt
  have hapart : ∀ i, (i = a.1 ∨ i ∈ indices child ∨ i ∈ indices sibling) →
      i ∉ tail.map Prod.fst := by
    intro i hi
    exact htail.apart i (by simpa using hi)
  have ha' : a.1 < t.cells.length := hlt a.1 (.inl rfl)
  have hlen := hk1.length
  have haS : a.1 ∉ indices sibling := fun h => ha (mem_append_right _ h)
  have haC : a.1 ∉ indices child := fun h => ha (mem_append_left _ h)
  -- the cells of the expanded children are not touched by the siblings
  have hCS : ∀ i ∈ indices C', i ∉ indices sibling := by
    intro i hi hmem
    rcases hCcells i hi with h | h | ⟨-, h⟩
    · exact hdisj i h i hmem rfl
    · have := hlt i (.inr (.inr hmem))
      omega
    · exact hapart i (.inr (.inr hmem)) h
  refine ⟨?_, ⟨rfl, c', s, ?_, hC.keeps hS.keeps hCS, hS.holds⟩, ?_, ?_, ?_, ?_⟩
  · refine hk1.trans hS.keeps ?_ ?_
    · intro i hi
      rw [indices_node]
      simp only [mem_cons, mem_append] at hi ⊢
      tauto
    · intro i hi
      exact .inl (by simp [hi])
  · rw [hS.keeps.cells a.1 (by omega) haS, hcell]
  · rw [indices_node, nodup_cons, nodup_append, mem_append, not_or]
    refine ⟨⟨?_, ?_⟩, hCnd, hS.nodup, ?_⟩
    · intro hmem
      rcases hCcells _ hmem with h | h | ⟨-, h⟩
      · exact haC h
      · omega
      · exact hapart a.1 (.inl rfl) h
    · intro hmem
      rcases hS.cells _ hmem with h | h | ⟨h, -⟩
      · exact haS h
      · omega
      · simp [hflag] at h
    · intro i hi j hj hij
      subst hij
      rcases hS.cells i hj with h | h | ⟨h, -⟩
      · exact hCS i hi h
      · have := hC.lt i hi
        omega
      · simp [hflag] at h
  · intro i hi
    rw [indices_node, mem_cons, mem_append] at hi ⊢
    rcases hi with rfl | hi | hi
    · exact .inl (.inl rfl)
    · rcases hCcells i hi with h | h | h
      · exact .inl (.inr (.inl h))
      · exact .inr (.inl h)
      · exact .inr (.inr h)
    · rcases hS.cells i hi with h | h | ⟨h, -⟩
      · exact .inl (.inr (.inr h))
      · exact .inr (.inl (by omega))
      · simp [hflag] at h
  · intro _
    by_cases hnil : sibling = nil
    · rw [hflag2 hnil, hflag]
    · exact hS.flag hnil
  · rw [Forest.map, hCsame, hS.same, Forest.map, hang_node]

/-- The first leaf takes the cells of the tail. -/
theorem ExpandedChild.first {a : Nat × D} {s : Option Nat} {sibling : Forest (Nat × D)}
    (htail : TailApart t tail (.node a nil sibling)) (hcell : t.cells[a.1]? = some ⟨a.2, none, s⟩)
    (hflag : t.expandTailFirstPath = true) :
    ExpandedChild tail t { t.setNextChild a.1 t.tailFirstIndex with expandTailFirstPath := false }
      a t.tailFirstIndex s nil (chain tail) := by
  have hk : Keeps [a.1] t
      { t.setNextChild a.1 t.tailFirstIndex with expandTailFirstPath := false } := by
    have hset := Keeps.setNextChild (t := t) a.1 t.tailFirstIndex
    exact ⟨hset.cells, hset.length, rfl, rfl, rfl⟩
  refine ⟨hk, ?_, ?_, ?_, ?_, rfl, rfl⟩
  · show (t.setNextChild a.1 t.tailFirstIndex).cells[a.1]? = _
    rw [getElem?_setNextChild, if_pos rfl, hcell]
    rfl
  · refine htail.first.keeps hk ?_
    intro i hi hmem
    rw [indices_chain] at hi
    rw [mem_singleton.mp hmem] at hi
    exact htail.apart a.1 (by simp) hi
  · rw [indices_chain]
    exact htail.nodup
  · intro i hi
    rw [indices_chain] at hi
    exact .inr (.inr ⟨hflag, hi⟩)

/-- Another leaf gets a copy of the tail. -/
theorem ExpandedChild.copy {a : Nat × D} {s : Option Nat} {sibling : Forest (Nat × D)}
    (htail : TailApart t tail (.node a nil sibling)) (ha : a.1 < t.cells.length)
    (hcell : t.cells[a.1]? = some ⟨a.2, none, s⟩) (hflag : ¬ t.expandTailFirstPath = true) :
    ∃ t₁ o' C', (∀ fuel, 2 * tail.length + 2 ≤ fuel →
        copyTreeLevel .this fuel t t.tailFirstIndex = some (t₁, o')) ∧
      ExpandedChild tail t (t₁.setNextChild a.1 o') a o' s nil C' := by
  have hwalk := walks_tail htail.last (A := []) rfl htail.first
  obtain ⟨t₁, o', C', hrun, hk, hcopy⟩ := (copies .this t.cells.length _).1 t _
    (fun _ => Nat.le_refl _) hwalk
  have hsz : ((chain tail).map Prod.snd).size = tail.length := by
    rw [map_chain, size_chain, length_map]
  have hk' : Keeps [a.1] t (t₁.setNextChild a.1 o') :=
    hk.trans (Keeps.setNextChild a.1 o') (by simp) (by simp)
  refine ⟨t₁, o', C', fun fuel hfuel => hrun fuel (by omega), hk', ?_, ?_, hcopy.nodup, ?_, ?_,
    hcopy.same⟩
  · rw [getElem?_setNextChild, if_pos rfl, hk.cells a.1 ha (by simp), hcell]
    rfl
  · refine hcopy.holds.keeps (Keeps.setNextChild a.1 o') ?_
    intro i hi hmem
    have := hcopy.fresh i hi
    have := mem_singleton.mp hmem
    omega
  · intro i hi
    exact .inr (.inl (hcopy.fresh i hi))
  · show t₁.expandTailFirstPath = false
    rw [hcopy.flag]
    simpa using hflag

/-- A cell with children has them expanded. -/
theorem Expanded.child {a : Nat × D} {c s : Option Nat} {child C' : Forest (Nat × D)}
    (hC : Expanded tail t t₁ c child C') (hnil : child ≠ nil) (haC : a.1 ∉ indices child)
    (hcell : t.cells[a.1]? = some ⟨a.2, c, s⟩) : ExpandedChild tail t t₁ a c s child C' := by
  refine ⟨?_, ?_, hC.holds, hC.nodup, hC.cells, hC.flag hnil, ?_⟩
  · exact hC.keeps.trans (Keeps.refl [] t₁) (fun i hi => .tail _ hi) (by simp)
  · rw [hC.keeps.cells a.1 (List.getElem?_eq_some_iff.mp hcell).1 haC, hcell]
  · rw [hC.same, under_of_ne]
    simpa [map_eq_nil_iff] using hnil

theorem expandTail_spec (R : Forest (Nat × D)) (t : EventDispatchTreeImpl D)
    (o : Option Nat) (hR : Holds t.cells o R) (hnd : (indices R).Nodup)
    (htail : TailApart t tail R) :
    ∃ t' R', (∀ fuel, 2 * R.size + 2 * tail.length + 2 ≤ fuel →
        expandTail fuel t o = some t') ∧ Expanded tail t t' o R R' ∧
      (R = nil → t'.expandTailFirstPath = t.expandTailFirstPath) := by
  induction R generalizing t o with
  | nil =>
    obtain rfl : o = none := hR
    refine ⟨t, nil, ?_, ⟨Keeps.refl _ t, rfl, by simp, by simp, by simp, rfl⟩, fun _ => rfl⟩
    intro fuel hfuel
    rcases fuel with _ | fuel
    · omega
    rfl
  | node a child sibling ihc ihs =>
    have hlt := hR.lt
    obtain ⟨rfl, c, s, hcell, hc, hs⟩ := hR
    have hnd' := hnd
    rw [indices_node, nodup_cons, nodup_append, mem_append, not_or] at hnd'
    obtain ⟨⟨haC, haS⟩, hndC, hndS, hdisj⟩ := hnd'
    have ha : a.1 < t.cells.length := hlt a.1 (by simp)
    -- what is left to do once the forest under the cell is expanded
    suffices hdone : ∃ t₁ c' C', (∀ fuel, 2 * child.size + 2 * tail.length + 2 ≤ fuel →
          (if c.isSome = true then expandTail fuel t c
            else if t.expandTailFirstPath = true then
              some { t.setNextChild a.1 t.tailFirstIndex with expandTailFirstPath := false }
            else (copyTreeLevel .this fuel t t.tailFirstIndex).map fun r =>
              r.1.setNextChild a.1 r.2) = some t₁) ∧
        ExpandedChild tail t t₁ a c' s child C' by
      obtain ⟨t₁, c', C', hrun1, hchild⟩ := hdone
      have hs1 : Holds t₁.cells s sibling := by
        refine hs.keeps hchild.keeps ?_
        intro i hi hmem
        rcases mem_cons.mp hmem with rfl | hmem
        · exact haS hi
        · exact hdisj i hmem i hi rfl
      have htail1 : TailApart t₁ tail sibling := by
        refine htail.keeps hchild.keeps ?_ ?_
        · intro i hi
          rw [indices_node]
          simp only [mem_cons, mem_append] at hi ⊢
          tauto
        · intro i hi
          simp [hi]
      obtain ⟨t2, S', hrun2, hS, hflag2⟩ := ihs t₁ s hs1 hndS htail1
      refine ⟨t2, _, ?_, Expanded.node htail hnd hlt hchild hS hflag2, by simp⟩
      intro fuel hfuel
      rw [size_node] at hfuel
      rcases fuel with _ | fuel
      · omega
      rw [expandTail, hcell]
      simp only [Option.bind_eq_bind, Option.bind_some]
      rw [hrun1 fuel (by omega), Option.bind_some, hchild.cell, Option.bind_some,
        hrun2 fuel (by omega)]
    by_cases hnil : child = nil
    · subst hnil
      obtain rfl : c = none := hc
      by_cases hflag : t.expandTailFirstPath = true
      · exact ⟨_, _, _, fun _ _ => by rw [if_neg (by simp), if_pos hflag],
          .first htail hcell hflag⟩
      · obtain ⟨t₁, o', C', hrun, hchild⟩ := ExpandedChild.copy htail ha hcell hflag
        refine ⟨_, _, _, fun fuel hfuel => ?_, hchild⟩
        rw [if_neg (by simp), if_neg hflag, hrun fuel (by omega)]
        rfl
    · have htailC : TailApart t tail child := htail.keeps (Keeps.refl [] t) (by simp) (by
          intro i hi
          simp [hi])
      obtain ⟨t₁, C', hrun, hC, -⟩ := ihc t c hc hndC htailC
      refine ⟨t₁, c, C', fun fuel hfuel => ?_, hC.child hnil haC hcell⟩
      rw [if_pos (hc.isSome_iff.mpr hnil), hrun fuel hfuel]

/-! ## mergeTree -/

section MergeTree

variable [DecidableEq D] {R : Forest (Nat × D)}

omit [DecidableEq D] in
theorem Represents.absorbTail (h : Represents t R tail) :
    ∃ t' R', (∀ fuel, 2 * R.size + 2 * tail.length + 2 ≤ fuel → t.absorbTail fuel = some t') ∧
      Represents t' R' [] ∧ R'.map Prod.snd = described R tail := by
  have htailnd : (tail.map Prod.fst).Nodup := (nodup_append.mp h.nodup).2.1
  cases tail with
  | nil =>
    have hfst : t.tailFirstIndex = none := h.tailFirst
    refine ⟨t, R, fun _ _ => by rw [EventDispatchTreeImpl.absorbTail, hfst]; rfl, h, ?_⟩
    rw [described, chain]
    congr 1
    cases R with
    | nil => rfl
    | node a child sibling => exact (hang_nil _).symm
  | cons b tail =>
    have hfst : t.tailFirstIndex.isSome = true := h.tailFirst.isSome_iff.mpr (by simp [chain])
    have habsorb : ∀ fuel, t.absorbTail fuel =
        (if t.rootIndex.isSome = true then
          expandTail fuel { t with expandTailFirstPath := true } t.rootIndex
        else some { t with rootIndex := t.tailFirstIndex }).map fun t =>
          { t with tailFirstIndex := none, tailLastIndex := none } := by
      intro fuel
      rw [EventDispatchTreeImpl.absorbTail, if_pos hfst]
    cases hR : R with
    | nil =>
      -- the tail is all there is
      have hroot : t.rootIndex = none := by
        have := h.root
        rwa [hR] at this
      refine ⟨{ t with
          rootIndex := t.tailFirstIndex, tailFirstIndex := none, tailLastIndex := none },
        chain (b :: tail), fun fuel _ => by rw [habsorb, hroot]; rfl,
        ⟨h.tailFirst, rfl, rfl, ?_⟩, rfl⟩
      rw [indices_chain]
      simpa using htailnd
    | node a child sibling =>
      have hne : R ≠ nil := by simp [hR]
      have hroot : t.rootIndex.isSome = true := h.root.isSome_iff.mpr hne
      have hapart : TailApart { t with expandTailFirstPath := true } (b :: tail) R :=
        ⟨h.tailFirst, h.tailLast, htailnd, h.disjoint⟩
      obtain ⟨t', R', hrun, hexp, -⟩ := expandTail_spec R
        { t with expandTailFirstPath := true } t.rootIndex h.root
        (nodup_append.mp h.nodup).1 hapart
      refine ⟨{ t' with tailFirstIndex := none, tailLastIndex := none }, R', ?_, ?_, ?_⟩
      · intro fuel hfuel
        rw [habsorb, if_pos hroot, hrun fuel (by rw [hR]; exact hfuel)]
        rfl
      · refine ⟨?_, rfl, rfl, by simpa using hexp.nodup⟩
        show Holds t'.cells t'.rootIndex R'
        rw [hexp.keeps.rootIndex]
        exact hexp.holds
      · rw [hexp.same, ← map_hang, ← hR, described, under_of_ne _ hne]

theorem Represents.mergeTree {s : EventDispatchTreeImpl D} {S : Forest (Nat × D)}
    {stail : List (Nat × D)} (h : Represents t R tail) (hs : Represents s S stail) :
    ∃ t' R' enough, (∀ fuel ≥ enough, t.mergeTree fuel s = some t') ∧ Represents t' R' [] ∧
      R'.map Prod.snd =
        orSource (described S stail) (merge (described S stail)) (described R tail) := by
  obtain ⟨t₁, R1, hrun1, h1, hsame⟩ := h.absorbTail
  have hwalk := hs.walks
  have hnd1 : (indices R1).Nodup := by simpa using h1.nodup
  cases hroot : t₁.rootIndex with
  | none =>
    obtain ⟨t2, o', F', hrun2, hk, hcopy⟩ := (copies (.other s) _ (described S stail)).1 t₁
      s.levelIndex (by simp) hwalk
    refine ⟨{ t2 with rootIndex := o' }, F', 2 * R.size + 2 * tail.length + 2 +
      (2 * (described S stail).size + 1), ?_, ?_⟩
    · intro fuel hfuel
      rw [EventDispatchTreeImpl.mergeTree, hrun1 fuel (by omega)]
      simp only [Option.bind_eq_bind, Option.bind_some, hroot, hrun2 fuel (by omega)]
      rfl
    · refine ⟨⟨hcopy.holds, hk.tailFirstIndex.trans h1.tailFirst,
        hk.tailLastIndex.trans h1.tailLast, by simpa using hcopy.nodup⟩, ?_⟩
      have hnil : described R tail = nil := by
        rw [← hsame, map_eq_nil_iff]
        exact h1.root.eq_none_iff.mp hroot
      rw [hcopy.same, orSource, if_pos hnil]
  | some l =>
    obtain ⟨t2, R2, hrun2, hm, hsame2⟩ := mergesLevel s _ (described S stail) t₁ l s.levelIndex R1
      (hroot ▸ h1.root) hnd1 hwalk
    refine ⟨t2, R2, 2 * R.size + 2 * tail.length + 2 +
      (R1.size + 2 * (described S stail).size + 2), ?_, ⟨?_, ?_, ?_, ?_⟩, ?_⟩
    · intro fuel hfuel
      rw [EventDispatchTreeImpl.mergeTree, hrun1 fuel (by omega)]
      simp only [Option.bind_eq_bind, Option.bind_some, hroot, hrun2 fuel (by omega)]
    · rw [hm.keeps.rootIndex, hroot]
      exact hm.holds
    · exact hm.keeps.tailFirstIndex.trans h1.tailFirst
    · exact hm.keeps.tailLastIndex.trans h1.tailLast
    · simpa using hm.nodup
    · have hne : described R tail ≠ nil := by
        rw [← hsame, Ne, map_eq_nil_iff]
        exact h1.root.isSome_iff.mp (by rw [hroot]; rfl)
      rw [hsame2, hsame, orSource, if_neg hne]

/-- The trees that `append`, `prepend` and `mergeTree` build. -/
inductive Built : EventDispatchTreeImpl D → Prop
  | new : Built new
  | append {t : EventDispatchTreeImpl D} (d : D) (h : Built t) : Built (t.append d)
  | prepend {t : EventDispatchTreeImpl D} (d : D) (h : Built t) : Built (t.prepend d)
  | mergeTree {t s t' : EventDispatchTreeImpl D} {enough : Nat} (h : Built t) (hs : Built s)
      (hrun : ∀ fuel ≥ enough, t.mergeTree fuel s = some t') : Built t'

theorem Built.represents (h : Built t) : ∃ R tail, Represents t R tail := by
  induction h with
  | new => exact ⟨nil, [], Represents.new⟩
  | append d _ ih =>
    obtain ⟨R, tail, hrep⟩ := ih
    exact ⟨R, _, hrep.append d⟩
  | prepend d _ ih =>
    obtain ⟨R, tail, hrep⟩ := ih
    exact ⟨_, tail, hrep.prepend d⟩
  | @mergeTree t s t' enough _ _ hrun iht ihs =>
    obtain ⟨R, tail, ht⟩ := iht
    obtain ⟨S, stail, hs⟩ := ihs
    obtain ⟨t₁, R', enough', hrun', hrep, -⟩ := ht.mergeTree hs
    have heq : t' = t₁ := by
      have h1 := hrun (enough + enough') (by omega)
      rw [hrun' (enough + enough') (by omega)] at h1
      exact (Option.some.inj h1).symm
    rw [heq]
    exact ⟨R', [], hrep⟩

end MergeTree

end OpenJfx.Event.EventDispatchTreeImpl
