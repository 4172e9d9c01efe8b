/-
  OpenJfx.Controls.TreeUtil.Rows

  `getItem` and `getRow` on a finite tree, whose rows are the visible items in depth-first order.  
  Both only read and count: the results hold in every class of states with one tree in which
  counting gives the number of rows.
-/

import OpenJfx.Controls.TreeUtil.Basic
import OpenJfx.Controls.TreeItem.RowCount

namespace OpenJfx.Controls.TreeUtil

open OpenJfx.Collections TreeItems List Nat TreeItems Function Option

variable {stack : Nat} {I : Type} {s t : TreeItems I} {v : I → Nat} {e : I → List I} {i root : I}

/-! ## Trees and their rows -/

/-- Every item is held once at most, its links are right, and no child is null. -/
structure IsTree [DecidableEq I] (s : TreeItems I) : Prop where
  forest : s.IsForest
  linked : s.Linked
  leaf : ∀ i, s.leaf i = (s.content i).isEmpty
  nonnull : ∀ p, none ∉ s.content p

/-- An item, then its children's rows if it is expanded. -/
def DepthFirst (s : TreeItems I) (e : I → List I) : Prop :=
  ∀ i, e i = i :: if s.expanded i then (s.content i).reduceOption.flatMap e else []

/-- The items of which all ancestors up to the root are expanded. -/
inductive Visible (s : TreeItems I) (root : I) : I → Prop where
  | root : Visible s root root
  | child {p c : I} : Visible s root p → s.expanded p = true → s.Child c p → Visible s root c

/-- The rows down to `depth` levels. -/
def itemsDownTo (s : TreeItems I) : Nat → I → List I
  | 0, _ => []
  | depth + 1, i =>
    i :: if s.expanded i then (s.content i).reduceOption.flatMap (itemsDownTo s depth) else []

theorem itemsDownTo_eq [Finite I] (h : Acyclic s.Child) {n m : Nat} (hn : rank s.Child i < n)
    (hm : rank s.Child i < m) : itemsDownTo s n i = itemsDownTo s m i := by
  induction n generalizing m i with
  | zero => omega
  | succ n ih =>
    cases m with
    | zero => omega
    | succ m =>
      have hflat : (s.content i).reduceOption.flatMap (itemsDownTo s n) =
          (s.content i).reduceOption.flatMap (itemsDownTo s m) := by
        refine flatMap_congr fun c hc => ?_
        have hlt := h.rank_lt (reduceOption_mem_iff.1 hc)
        exact ih (by omega) (by omega)
      rw [itemsDownTo, itemsDownTo, hflat]

theorem exists_depthFirst [Finite I] (h : Acyclic s.Child) : ∃ e, DepthFirst s e := by
  refine ⟨fun i => itemsDownTo s (rank s.Child i + 1) i, fun i => ?_⟩
  have hflat : (s.content i).reduceOption.flatMap (itemsDownTo s (rank s.Child i)) =
      (s.content i).reduceOption.flatMap fun i => itemsDownTo s (rank s.Child i + 1) i := by
    refine flatMap_congr fun c hc => ?_
    have hlt := h.rank_lt (reduceOption_mem_iff.1 hc)
    exact itemsDownTo_eq h hlt (lt_succ_self _)
  show itemsDownTo s (rank s.Child i + 1) i = _
  rw [itemsDownTo, hflat]

namespace DepthFirst

theorem counts (h : DepthFirst s e) : s.Counts fun i => (e i).length := by
  intro i
  show (e i).length = _
  rw [h i, length_cons, Nat.add_comm]
  split
  · rw [length_flatMap]
  · rfl

theorem hidden (h : DepthFirst s e) (hi : s.expanded i = false) : e i = [i] := by
  rw [h i, hi]
  simp

theorem expanded (h : DepthFirst s e) (hi : s.expanded i = true) :
    e i = i :: (s.content i).reduceOption.flatMap e := by
  rw [h i, hi]
  simp

end DepthFirst

theorem counts_unique [Finite I] (h : Acyclic s.Child) {v' : I → Nat} (hv : s.Counts v)
    (hv' : s.Counts v') : v = v' := by
  have hn : ∀ n i, rank s.Child i < n → v i = v' i := by
    intro n
    induction n with
    | zero => intro i hi; omega
    | succ n ih =>
      intro i hi
      have hmap : (s.content i).reduceOption.map v = (s.content i).reduceOption.map v' := by
        refine map_congr_left fun c hc => ?_
        have hlt := h.rank_lt (reduceOption_mem_iff.1 hc)
        exact ih c (by omega)
      rw [hv i, hv' i, hmap]
  funext i
  exact hn _ i (lt_succ_self _)

/-! ## States with one tree -/

/-- What no query changes. -/
structure SameTree (s t : TreeItems I) : Prop where
  content : t.content = s.content
  parent : t.parent = s.parent
  leaf : t.leaf = s.leaf
  expanded : t.expanded = s.expanded

/-- States with the tree of `s` in which counting gives the number of rows. -/
structure Countable [DecidableEq I] (s : TreeItems I) (v : I → Nat) (treeItemCountDirty : Bool)
    (R : TreeItems I → Prop) : Prop where
  same : ∀ t, R t → SameTree s t
  read : ∀ t i, R t → R (t.isExpanded i).2
  count : ∀ stack i t, rank s.Child i < stack → R t →
    ∃ t', t.getExpandedDescendentCount treeItemCountDirty stack i = some ((v i : Int), t') ∧ R t'

variable {children : List (Option I)} {rounds : Nat}

section Counting

variable [DecidableEq I]

theorem countChildren_reset (hv : s.Counts v) {count : I → TreeItems I → Option (Int × TreeItems I)}
    (hcnt : ∀ c, some c ∈ children → ∀ t, SameTree s t →
      ∃ t', count c t = some ((v c : Int), t') ∧ SameTree s t')
    (ht : SameTree s t) (n : Int) :
    ∃ t', countChildren count children n t =
      some (n + ((children.reduceOption.map v).sum : Nat), t') ∧ SameTree s t' := by
  induction children generalizing t n with
  | nil => exact ⟨t, by simp [countChildren], ht⟩
  | cons child children ih =>
    have hrest : ∀ c, some c ∈ children → ∀ t, SameTree s t →
        ∃ t', count c t = some ((v c : Int), t') ∧ SameTree s t' :=
      fun c hc => hcnt c (.tail _ hc)
    cases child with
    | none =>
      obtain ⟨t', ht', hsame⟩ := ih hrest ht n
      exact ⟨t', by simpa [countChildren] using ht', hsame⟩
    | some child =>
      have ht1 : SameTree s (t.isExpanded child).2 := ⟨ht.1, ht.2, ht.3, ht.4⟩
      rw [reduceOption_cons_of_some, map_cons, sum_cons, cast_add, ← Int.add_assoc]
      cases hexp : t.expanded child with
      | true =>
        obtain ⟨t2, hcall, ht2⟩ := hcnt child mem_cons_self _ ht1
        rw [countChildren_expanded hexp hcall]
        exact ih hrest ht2 _
      | false =>
        have hone : v child = 1 := hv.collapsed (by rw [← ht.expanded, hexp])
        rw [countChildren_collapsed hexp, hone]
        exact ih hrest ht1 _

theorem getExpandedDescendentCount_reset [Finite I] (hforest : Acyclic s.Child)
    (hv : s.Counts v) (hleaf : ∀ i, s.leaf i = (s.content i).isEmpty)
    (hstk : rank s.Child i < stack) (ht : SameTree s t) :
    ∃ t', t.getExpandedDescendentCount true stack i = some ((v i : Int), t') ∧ SameTree s t' := by
  induction stack generalizing i t with
  | zero => omega
  | succ stack ih =>
    have hupdate : ∃ t', updateExpandedDescendentCount (getExpandedDescendentCount true stack) i t =
        some ((v i : Int), t') ∧ SameTree s t' := by
      cases hl : t.leaf i with
      | true =>
        have hemp : s.content i = [] := by
          rw [ht.leaf, hleaf, List.isEmpty_iff] at hl
          exact hl
        refine ⟨t, ?_, ht⟩
        rw [updateExpandedDescendentCount, hl, hv.leaf hemp]
        rfl
      | false =>
        have ht1 : SameTree s (t.isExpanded i).2 := ⟨ht.1, ht.2, ht.3, ht.4⟩
        cases hexp : t.expanded i with
        | false =>
          have hone : v i = 1 := hv.collapsed (by rw [← ht.expanded, hexp])
          rw [updateExpandedDescendentCount_collapsed hl hexp, hone]
          exact ⟨_, rfl, ht1⟩
        | true =>
          have hsum : v i = 1 + ((s.content i).reduceOption.map v).sum := by
            rw [hv i, ← ht.expanded, hexp]
            simp
          rw [updateExpandedDescendentCount_expanded hl hexp, ht.content, hsum, cast_add]
          refine countChildren_reset hv (fun c hc t' ht' => ?_) ht1 1
          have hlt := hforest.rank_lt (a := i) hc
          exact ih (by omega) ht'
    obtain ⟨t', ht', hsame⟩ := hupdate
    refine ⟨{ t' with
      expandedDescendentCount := update t'.expandedDescendentCount i (v i)
      expandedDescendentCountDirty := update t'.expandedDescendentCountDirty i false },
      ?_, hsame.1, hsame.2, hsame.3, hsame.4⟩
    rw [getExpandedDescendentCount, ht']
    rfl

theorem Countable.of_reset [Finite I] (hs : IsTree s) (hv : s.Counts v) :
    Countable s v true (SameTree s) where
  same := fun _ ht => ht
  read := fun _ _ ht => ⟨ht.1, ht.2, ht.3, ht.4⟩
  count := fun _ _ _ hstk ht =>
    getExpandedDescendentCount_reset hs.forest.acyclic hv hs.leaf hstk ht

theorem Countable.of_cached [Finite I] (hs : IsTree s) (hv : s.Counts v) :
    Countable s v false fun t => Queried s t ∧ t.AllCached v where
  same := fun _ ht => ⟨ht.1.content, ht.1.parent, ht.1.leaf, ht.1.expanded⟩
  read := fun t i ht => ⟨ht.1.trans (isExpanded_queried i t), ht.2.isExpanded i⟩
  count := by
    rintro stack i t hstk ⟨hq, hcached⟩
    obtain ⟨t', ht', hq', hcached', -⟩ :=
      getExpandedDescendentCount_spec hs.forest.acyclic hv hs.leaf hstk t hq hcached
    exact ⟨t', ht', hq.trans hq', hcached'⟩

variable {treeItemCountDirty : Bool} {R : TreeItems I → Prop}

theorem Countable.getExpandedDescendantCount (hR : Countable s v treeItemCountDirty R)
    (hs : IsTree s) (hv : s.Counts v) (hstk : rank s.Child i < stack) (ht : R t) :
    ∃ t', TreeUtil.getExpandedDescendantCount treeItemCountDirty stack (some i) t =
      some ((v i : Int), t') ∧ R t' := by
  rw [TreeUtil.getExpandedDescendantCount]
  cases hl : t.leaf i with
  | true =>
    have hemp : s.content i = [] := by
      rw [(hR.same t ht).leaf, hs.leaf, List.isEmpty_iff] at hl
      exact hl
    rw [hv.leaf hemp]
    exact ⟨t, rfl, ht⟩
  | false => exact hR.count stack i t hstk ht

/-! ## From a row to its item -/

theorem getItemLoop_spec (hR : Countable s v treeItemCountDirty R) (he : DepthFirst s e)
    (hs : IsTree s) {count : I → TreeItems I → Answer I Int}
    {getItem : I → Int → TreeItems I → Answer I (Option I)}
    (hnull : none ∉ children)
    (hcnt : ∀ c, some c ∈ children → ∀ t, R t →
      ∃ t', count c t = some (((e c).length : Int), t') ∧ R t')
    (hitem : ∀ c, some c ∈ children → ∀ (r : Nat) t, R t →
      ∃ t', getItem c r t = some ((e c)[r]?, t') ∧ R t')
    (ht : R t) (idx : Nat) :
    ∃ t', getItemLoop count getItem children idx t =
      some ((children.reduceOption.flatMap e)[idx]?, t') ∧ R t' := by
  induction children generalizing t idx with
  | nil => exact ⟨t, by simp [getItemLoop], ht⟩
  | cons child children ih =>
    cases child with
    | none => exact absurd mem_cons_self hnull
    | some child =>
      have hrest : ∀ {t} (_ : R t) (idx : Nat), ∃ t', getItemLoop count getItem children idx t =
          some ((children.reduceOption.flatMap e)[idx]?, t') ∧ R t' := by
        intro t ht idx
        exact ih (fun h => hnull (.tail _ h))
          (fun c hc => hcnt c (.tail _ hc))
          (fun c hc => hitem c (.tail _ hc)) ht idx
      rw [getItemLoop, reduceOption_cons_of_some, flatMap_cons]
      cases idx with
      | zero =>
        refine ⟨t, ?_, ht⟩
        rw [he child]
        simp
      | succ idx =>
        rw [if_neg (by omega)]
        -- a child that shows one row
        have hone : ∀ {t} (_ : R t), s.expanded child = false ∨ s.content child = [] →
            ∃ t', getItemLoop count getItem children (((idx + 1 : Nat) : Int) - 1) t =
              some ((e child ++ children.reduceOption.flatMap e)[idx + 1]?, t') ∧ R t' := by
          intro t ht hrow
          have hchild : e child = [child] := by
            rcases hrow with h | h
            · exact he.hidden h
            · rw [he child, h]
              simp
          have hidx : ((idx + 1 : Nat) : Int) - 1 = (idx : Nat) := by omega
          rw [hchild, hidx]
          exact hrest ht idx
        cases hl : t.leaf child with
        | true =>
          rw [(hR.same t ht).leaf, hs.leaf, List.isEmpty_iff] at hl
          exact hone ht (Or.inr hl)
        | false =>
          have ht1 := hR.read t child ht
          rw [if_neg (by simp), isExpanded]
          rw [isExpanded] at ht1
          dsimp only at ht1
          cases hexp : t.expanded child with
          | false =>
            rw [(hR.same t ht).expanded] at hexp
            exact hone ht1 (Or.inl hexp)
          | true =>
            obtain ⟨t2, hcall, ht2⟩ := hcnt child mem_cons_self _ ht1
            dsimp only
            rw [hcall]
            dsimp only
            by_cases hge : ((idx + 1 : Nat) : Int) ≥ ((e child).length : Int)
            · -- the row is behind those of the child
              rw [if_pos hge, ← Int.ofNat_sub (by omega), getElem?_append_right (by omega)]
              exact hrest ht2 _
            · rw [if_neg hge, getElem?_append_left (by omega)]
              obtain ⟨t3, hfound, ht3⟩ := hitem child mem_cons_self (idx + 1) t2 ht2
              rw [hfound, getElem?_eq_getElem (by omega)]
              exact ⟨t3, rfl, ht3⟩

theorem getItemBelow_spec [Finite I] (hR : Countable s v treeItemCountDirty R)
    (hv : s.Counts v) (he : DepthFirst s e) (hs : IsTree s)
    (hstk : rank s.Child i + 1 < stack) (ht : R t) (r : Nat) :
    ∃ t', getItemBelow treeItemCountDirty stack i r t = some ((e i)[r]?, t') ∧ R t' := by
  have hlen : v = fun i => (e i).length := counts_unique hs.forest.acyclic hv he.counts
  induction stack generalizing i t r with
  | zero => omega
  | succ stack ih =>
    rw [getItemBelow]
    cases r with
    | zero =>
      refine ⟨t, ?_, ht⟩
      rw [he i]
      simp
    | succ r =>
      rw [if_neg (by omega)]
      have hstk : rank s.Child i < stack := by omega
      obtain ⟨t1, hcnt, ht1⟩ := hR.getExpandedDescendantCount hs hv hstk ht
      rw [hcnt, congrFun hlen i]
      dsimp only
      by_cases hge : ((r + 1 : Nat) : Int) ≥ ((e i).length : Int)
      · rw [if_pos hge, getElem?_eq_none (by omega)]
        exact ⟨t1, rfl, ht1⟩
      · -- there are rows below the item, so it is expanded
        have hexp : s.expanded i = true := by
          by_contra hnot
          rw [he.hidden (by simpa using hnot), length_singleton] at hge
          omega
        have hidx : ((r + 1 : Nat) : Int) - 1 = (r : Nat) := by omega
        rw [if_neg hge, he.expanded hexp, getElem?_cons_succ, hidx, (hR.same t1 ht1).content]
        refine getItemLoop_spec hR he hs (hs.nonnull i) (fun c hc t ht => ?_)
          (fun c hc r t ht => ?_) ht1 r
        · have hlt := hs.forest.acyclic.rank_lt (a := i) hc
          have hstk : rank s.Child c < stack := by omega
          obtain ⟨t', ht', hRt'⟩ := hR.getExpandedDescendantCount hs hv hstk ht
          rw [congrFun hlen c] at ht'
          exact ⟨t', ht', hRt'⟩
        · have hlt := hs.forest.acyclic.rank_lt (a := i) hc
          exact ih (by omega) ht r

/-! ## The row of an item -/

/-- Below its parent and the rows of siblings before it. -/
inductive ShownAt (s : TreeItems I) (e : I → List I) (root : I) : I → Nat → Prop where
  | root : ShownAt s e root root 0
  | child {p c : I} {row : Nat} {before after : List (Option I)} :
      ShownAt s e root p row → s.expanded p = true → s.content p = before ++ some c :: after →
      ShownAt s e root c (row + 1 + (before.reduceOption.flatMap e).length)

omit [DecidableEq I] in
theorem ShownAt.trans {c : I} {m k : Nat} (hi : ShownAt s e c i k) (hc : ShownAt s e root c m) :
    ShownAt s e root i (m + k) := by
  induction hi with
  | root => exact hc
  | child _ hexp hcon ih =>
    have := ShownAt.child ih hexp hcon
    rwa [← Nat.add_assoc, ← Nat.add_assoc]

omit [DecidableEq I] in
/-- A row of some children is one of the rows of a single child. -/
theorem exists_child_of_getElem? {r : Nat} (h : (children.reduceOption.flatMap e)[r]? = some i) :
    ∃ before c after k, children = before ++ some c :: after ∧
      r = (before.reduceOption.flatMap e).length + k ∧ (e c)[k]? = some i := by
  induction children generalizing r with
  | nil => simp at h
  | cons child children ih =>
    cases child with
    | none =>
      obtain ⟨before, c, after, k, rfl, hr, hk⟩ := ih h
      exact ⟨none :: before, c, after, k, rfl, hr, hk⟩
    | some child =>
      rw [reduceOption_cons_of_some, flatMap_cons] at h
      by_cases hlt : r < (e child).length
      · rw [getElem?_append_left hlt] at h
        exact ⟨[], child, children, r, rfl, by simp, h⟩
      · rw [getElem?_append_right (by omega)] at h
        obtain ⟨before, c, after, k, rfl, hr, hk⟩ := ih h
        refine ⟨some child :: before, c, after, k, rfl, ?_, hk⟩
        rw [reduceOption_cons_of_some, flatMap_cons, length_append]
        omega

theorem ShownAt.of_getElem? [Finite I] (hs : IsTree s) (he : DepthFirst s e) {r : Nat}
    (h : (e root)[r]? = some i) : ShownAt s e root i r := by
  obtain ⟨n, hn⟩ : ∃ n, rank s.Child root < n := ⟨_, lt_succ_self _⟩
  induction n generalizing root r with
  | zero => omega
  | succ n ih =>
    cases r with
    | zero =>
      rw [he root, getElem?_cons_zero] at h
      cases h
      exact .root
    | succ r =>
      have hexp : s.expanded root = true := by
        by_contra hnot
        rw [he.hidden (by simpa using hnot)] at h
        cases h
      rw [he.expanded hexp, getElem?_cons_succ] at h
      obtain ⟨before, c, after, k, hcon, hr, hk⟩ := exists_child_of_getElem? h
      have hc : s.Child c root := by
        rw [TreeItems.Child, hcon]
        simp
      have hlt := hs.forest.acyclic.rank_lt hc
      have hshown := (ih hk (by omega)).trans (ShownAt.child .root hexp hcon)
      rwa [Nat.zero_add, Nat.add_assoc, ← hr, Nat.add_comm] at hshown

omit [DecidableEq I] in
theorem ShownAt.drop_eq (he : DepthFirst s e) {row : Nat} (h : ShownAt s e root i row) :
    ∃ rest, (e root).drop row = e i ++ rest := by
  induction h with
  | root => exact ⟨[], by simp⟩
  | @child p c row before after _ hexp hcon ih =>
    obtain ⟨rest, hrest⟩ := ih
    refine ⟨after.reduceOption.flatMap e ++ rest, ?_⟩
    rw [← drop_drop, ← drop_drop, hrest, he.expanded hexp, hcon,
      reduceOption_append, reduceOption_cons_of_some, flatMap_append,
      flatMap_cons]
    simp

omit [DecidableEq I] in
theorem ShownAt.getElem? (he : DepthFirst s e) {row : Nat} (h : ShownAt s e root i row) :
    (e root)[row]? = some i := by
  obtain ⟨rest, hrest⟩ := h.drop_eq he
  have := congrArg (fun l => l[0]?) hrest
  rw [he i] at this
  simpa using this

omit [DecidableEq I] in
theorem ShownAt.visible {row : Nat} (h : ShownAt s e root i row) : Visible s root i := by
  induction h with
  | root => exact .root
  | child _ hexp hcon ih =>
    refine .child ih hexp ?_
    rw [TreeItems.Child, hcon]
    simp

omit [DecidableEq I] in
theorem Visible.shownAt (h : Visible s root i) : ∃ row, ShownAt s e root i row := by
  induction h with
  | root => exact ⟨0, .root⟩
  | child _ hexp hc ih =>
    obtain ⟨row, hrow⟩ := ih
    obtain ⟨before, after, hcon⟩ := append_of_mem hc
    exact ⟨_, hrow.child hexp hcon⟩

omit [DecidableEq I] in
theorem Visible.descends (h : Visible s root i) : Relation.ReflTransGen s.Child i root := by
  induction h with
  | root => exact .refl
  | child _ _ hc ih => exact .head hc ih

theorem countSiblings_spec (hR : Countable s v treeItemCountDirty R) (hs : IsTree s)
    (hv : s.Counts v) {siblings : List (Option I)}
    (hstk : ∀ c, some c ∈ siblings → rank s.Child c < stack) (hroot : some root ∉ siblings)
    (ht : R t) (row : Int) :
    ∃ t', countSiblings treeItemCountDirty stack (some root) siblings row t =
      some ((false, row + ((siblings.reduceOption.map v).sum : Nat)), t') ∧ R t' := by
  induction siblings generalizing t row with
  | nil => exact ⟨t, by simp [countSiblings], ht⟩
  | cons sibling siblings ih =>
    have hrest : ∀ c, some c ∈ siblings → rank s.Child c < stack :=
      fun c hc => hstk c (.tail _ hc)
    rw [mem_cons, not_or] at hroot
    cases sibling with
    | none => exact ih hrest hroot.2 ht row
    | some sibling =>
      obtain ⟨t1, hcnt, ht1⟩ := hR.getExpandedDescendantCount hs hv
        (hstk sibling mem_cons_self) ht
      rw [countSiblings, hcnt]
      dsimp only
      rw [if_neg hroot.1, reduceOption_cons_of_some, map_cons, sum_cons, cast_add, ← Int.add_assoc]
      exact ih hrest hroot.2 ht1 _

theorem siblingsBefore_eq (hs : IsTree s) {p c : I} {before after : List (Option I)}
    (h : s.content p = before ++ some c :: after) :
    siblingsBefore (s.content p) c = before.reverse := by
  have honce := hs.forest.once p c
  rw [h, count_append, count_cons_self] at honce
  have hnot : some c ∉ before := count_eq_zero.mp (by omega)
  rw [siblingsBefore, if_pos (by rw [h]; simp), h, idxOf_append_of_notMem hnot,
    idxOf_cons_self, Nat.add_zero, take_left]

omit [DecidableEq I] in
theorem sum_reverse_eq (before : List (Option I)) :
    (before.reverse.reduceOption.map fun i => (e i).length).sum =
      (before.reduceOption.flatMap e).length := by
  rw [List.reduceOption, filterMap_reverse, map_reverse, sum_reverse, length_flatMap]

section

variable (hR : Countable s v treeItemCountDirty R) (hs : IsTree s) (hv : s.Counts v)
  (he : DepthFirst s e)
include hR hs hv he

theorem getRowLoop_expanded [Finite I] {stack rounds : Nat}
    (hstk : Nat.card I ≤ stack) {p c : I} {before after : List (Option I)}
    (hp : Relation.ReflTransGen s.Child p root) (hexp : s.expanded p = true)
    (hcon : s.content p = before ++ some c :: after) (ht : R t) (row : Int) :
    ∃ t', getRowLoop treeItemCountDirty stack (some root) true (rounds + 1) c (s.parent c) row t =
      getRowLoop treeItemCountDirty stack (some root) true rounds p (s.parent p)
        (row + ((before.reduceOption.flatMap e).length : Nat) + 1) t' ∧ R t' := by
  have hacyclic := hs.forest.acyclic
  have hlen : v = fun i => (e i).length := counts_unique hacyclic hv he.counts
  -- the root is not below itself
  have hchild : ∀ x, some x ∈ s.content p → x ≠ root := by
    rintro x hx rfl
    exact hacyclic x (Relation.TransGen.head' hx hp)
  have hc : some c ∈ s.content p := by
    rw [hcon]
    simp
  have ht1 := hR.read t p ht
  rw [isExpanded] at ht1
  dsimp only at ht1
  obtain ⟨t2, hsiblings, ht2⟩ := countSiblings_spec hR hs hv
    (fun x (_ : some x ∈ before.reverse) => Nat.lt_of_lt_of_le (hacyclic.rank_lt_card x) hstk)
    (fun h => hchild root (by
      rw [hcon]
      exact mem_append_left _ (mem_reverse.mp h)) rfl) ht1 row
  refine ⟨t2, ?_, ht2⟩
  have hne : ¬ some root = some c := fun h => hchild c hc (some.inj h).symm
  rw [(hs.linked c p).mpr hc, getRowLoop, if_neg hne]
  have hexp' : t.expanded p = true := by rw [(hR.same t ht).expanded, hexp]
  rw [isExpanded, hexp']
  dsimp only
  rw [(hR.same _ ht1).content, siblingsBefore_eq hs hcon, hsiblings, hlen, sum_reverse_eq]
  dsimp only
  rw [(hR.same _ ht2).parent]

theorem getRowLoop_shownAt [Finite I] (hstk : Nat.card I ≤ stack)
    {k : Nat} (h : ShownAt s e root i k) (hrounds : rank (swap s.Child) i < rounds)
    (ht : R t) {row : Nat} (hrow : i = root → row ≠ 0) :
    ∃ t', getRowLoop treeItemCountDirty stack (some root) true rounds i (s.parent i) row t =
      some (((row + k : Nat) : Int), t') ∧ R t' := by
  induction h generalizing t row rounds with
  | root =>
    cases rounds with
    | zero => omega
    | succ rounds =>
      have hzero : ¬ (s.parent root = none ∧ (row : Int) = 0) := by
        rintro ⟨-, hz⟩
        exact hrow rfl (by omega)
      rw [getRowLoop.eq_def]
      dsimp only
      rw [if_pos rfl, if_neg hzero, if_pos rfl]
      exact ⟨t, rfl, ht⟩
  | @child p c k before after hp hexp hcon ih =>
    cases rounds with
    | zero => omega
    | succ rounds =>
      have hc : s.Child c p := by
        rw [TreeItems.Child, hcon]
        simp
      have hlt : rank (swap s.Child) p < rank (swap s.Child) c := hs.forest.acyclic.swap.rank_lt hc
      obtain ⟨t1, hround, ht1⟩ := @getRowLoop_expanded _ _ _ _ _ root _ _ _ hR hs hv he _ stack
        rounds hstk p c before after hp.visible.descends hexp hcon ht row
      obtain ⟨t2, hloop, ht2⟩ := @ih t1 rounds (by omega) ht1
        (row + (before.reduceOption.flatMap e).length + 1) (fun _ => by omega)
      refine ⟨t2, ?_, ht2⟩
      rw [hround, ← cast_add, ← cast_add_one, hloop]
      congr 3
      omega

theorem getRowLoop_hidden [Finite I] (hstk : Nat.card I ≤ stack)
    (hbelow : Relation.ReflTransGen s.Child i root) (hhidden : ¬ Visible s root i)
    (hrounds : rank (swap s.Child) i < rounds) (ht : R t) (row : Int) :
    ∃ t', getRowLoop treeItemCountDirty stack (some root) true rounds i (s.parent i) row t =
      some (-1, t') ∧ R t' := by
  induction hbelow using Relation.ReflTransGen.head_induction_on generalizing t row rounds with
  | refl => exact absurd .root hhidden
  | @head c p hc hp ih =>
    cases rounds with
    | zero => omega
    | succ rounds =>
      have hlt : rank (swap s.Child) p < rank (swap s.Child) c := hs.forest.acyclic.swap.rank_lt hc
      cases hexp : s.expanded p with
      | false =>
        have hne : ¬ some root = some c := by
          rintro ⟨⟩
          exact hhidden .root
        have hexp' : t.expanded p = false := by rw [(hR.same t ht).expanded, hexp]
        refine ⟨(t.isExpanded p).2, ?_, hR.read t p ht⟩
        rw [(hs.linked c p).mpr hc, getRowLoop, if_neg hne, isExpanded, hexp']
      | true =>
        obtain ⟨before, after, hcon⟩ := append_of_mem hc
        obtain ⟨t1, hround, ht1⟩ := @getRowLoop_expanded _ _ _ _ _ root _ _ _ hR hs hv he _ stack
          rounds hstk p c before after hp hexp hcon ht row
        rw [hround]
        exact ih (fun hvis => hhidden (hvis.child hexp hc)) (by omega) ht1 _

end

theorem Visible.expanded (h : Visible s root i) (hs : IsTree s) {a : I}
    (hi : Relation.TransGen s.Child i a) (ha : Relation.ReflTransGen s.Child a root) :
    s.expanded a = true := by
  induction h with
  | root => exact absurd (hi.trans_left ha) (hs.forest.acyclic root)
  | @child p c hp hexp hc ih =>
    obtain ⟨q, hq, hqa⟩ := Relation.TransGen.head'_iff.mp hi
    obtain rfl : p = q := hs.forest.oneParent c p q hc hq
    rcases Relation.ReflTransGen.cases_head hqa with rfl | ⟨x, hx, hxa⟩
    · exact hexp
    · exact ih (Relation.TransGen.head' hx hxa)

/-! ## Both ways -/

/-- `getItem` and `getRow` go there and back. -/
structure RowsAgree (treeItemCountDirty : Bool) (stack rounds : Nat) (s : TreeItems I) (root : I)
    (rows : List I) : Prop where
  nodup : rows.Nodup
  visible : ∀ i, i ∈ rows ↔ Visible s root i
  getItem : ∀ r : Nat, ∃ t, getItem treeItemCountDirty stack (some root) r s = some (rows[r]?, t)
  getRow_getItem : ∀ r < rows.length, ∃ item t t',
    TreeUtil.getItem treeItemCountDirty stack (some root) r s = some (item, t) ∧
      getRow treeItemCountDirty stack rounds item (some root) true t = some ((r : Int), t')
  getItem_getRow : ∀ i, Visible s root i → ∃ row t t',
    getRow treeItemCountDirty stack rounds (some i) (some root) true s = some (row, t) ∧
      TreeUtil.getItem treeItemCountDirty stack (some root) row t = some (some i, t')
  hidden : ∀ i a, Relation.TransGen s.Child i a → Relation.ReflTransGen s.Child a root →
    s.expanded a = false → ∃ t,
      getRow treeItemCountDirty stack rounds (some i) (some root) true s = some (-1, t)

theorem getRow_shownAt [Finite I] (hR : Countable s v treeItemCountDirty R) (hs : IsTree s)
    (hv : s.Counts v) (he : DepthFirst s e) (hstk : Nat.card I ≤ stack)
    (hrounds : Nat.card I ≤ rounds) {row : Nat} (h : ShownAt s e root i row) (ht : R t) :
    ∃ t', getRow treeItemCountDirty stack rounds (some i) (some root) true t =
      some ((row : Int), t') ∧ R t' := by
  have hacyclic := hs.forest.acyclic
  rw [getRow]
  by_cases hroot : i = root
  · subst hroot
    have hzero : row = 0 := by
      cases h with
      | root => rfl
      | @child p _ _ _ _ hp hexp hcon =>
        have hc : s.Child i p := by
          rw [TreeItems.Child, hcon]
          exact mem_append_right _ mem_cons_self
        exact absurd (Relation.TransGen.head' hc hp.visible.descends) (hacyclic i)
    rw [hzero]
    simp [ht]
  · have hne : ¬ (true = true ∧ some root = some i) := fun h => hroot (some.inj h.2).symm
    rw [if_neg hne, (hR.same t ht).parent]
    obtain ⟨t', hloop, ht'⟩ := getRowLoop_shownAt hR hs hv he hstk h
      (Nat.lt_of_lt_of_le (hacyclic.swap.rank_lt_card i) hrounds) ht
      (show i = root → (0 : Nat) ≠ 0 from fun h => absurd h hroot)
    rw [Nat.zero_add] at hloop
    exact ⟨t', hloop, ht'⟩

theorem Countable.rowsAgree [Finite I] (hR : Countable s v treeItemCountDirty R) (hs : IsTree s)
    (hv : s.Counts v) (he : DepthFirst s e) (hstk : Nat.card I < stack)
    (hrounds : Nat.card I ≤ rounds) (hst : R s) (root : I) :
    RowsAgree treeItemCountDirty stack rounds s root (e root) := by
  have hacyclic := hs.forest.acyclic
  have hitem : ∀ {t} (_ : R t) (r : Nat), ∃ t',
      getItem treeItemCountDirty stack (some root) r t = some ((e root)[r]?, t') ∧ R t' := by
    intro t ht r
    have hrank := hacyclic.rank_lt_card root
    exact getItemBelow_spec hR hv he hs (by omega) ht r
  have hrow : ∀ {t i row} (_ : R t), ShownAt s e root i row → ∃ t',
      getRow treeItemCountDirty stack rounds (some i) (some root) true t =
        some ((row : Int), t') ∧ R t' :=
    fun ht h => getRow_shownAt hR hs hv he (Nat.le_of_lt hstk) hrounds h ht
  constructor
  · -- an item in two rows would have two answers
    rw [nodup_iff_getElem?_ne_getElem?]
    intro r r' hlt hlen heq
    obtain ⟨i, hi⟩ : ∃ i, (e root)[r']? = some i := ⟨_, getElem?_eq_getElem hlen⟩
    obtain ⟨t1, h1, -⟩ := hrow hst (ShownAt.of_getElem? hs he (heq.trans hi))
    obtain ⟨t2, h2, -⟩ := hrow hst (ShownAt.of_getElem? hs he hi)
    rw [h1] at h2
    have := congrArg (Option.map Prod.fst) h2
    simp only [Option.map_some, Option.some_inj] at this
    omega
  · intro i
    constructor
    · intro hi
      obtain ⟨r, hr⟩ := mem_iff_getElem?.mp hi
      exact (ShownAt.of_getElem? hs he hr).visible
    · intro hi
      obtain ⟨row, hshown⟩ := hi.shownAt
      exact mem_of_getElem? (hshown.getElem? he)
  · intro r
    obtain ⟨t, ht, -⟩ := hitem hst r
    exact ⟨t, ht⟩
  · intro r hr
    obtain ⟨t, ht, hRt⟩ := hitem hst r
    have hi : (e root)[r]? = some (e root)[r] := getElem?_eq_getElem hr
    obtain ⟨t', ht', -⟩ := hrow hRt (ShownAt.of_getElem? hs he hi)
    exact ⟨_, t, t', ht, by rw [hi]; exact ht'⟩
  · intro i hi
    obtain ⟨row, hshown⟩ := hi.shownAt
    obtain ⟨t, ht, hRt⟩ := hrow hst hshown
    obtain ⟨t', ht', -⟩ := hitem hRt row
    exact ⟨row, t, t', ht, by rw [ht', hshown.getElem? he]⟩
  · intro i a hi ha hcollapsed
    have hhidden : ¬ Visible s root i := by
      intro hvis
      rw [hvis.expanded hs hi ha] at hcollapsed
      cases hcollapsed
    have hne : ¬ (true = true ∧ some root = some i) := by
      rintro ⟨-, ⟨⟩⟩
      exact hhidden .root
    obtain ⟨t, ht, -⟩ := getRowLoop_hidden hR hs hv he (Nat.le_of_lt hstk)
      (hi.to_reflTransGen.trans ha) hhidden
      (Nat.lt_of_lt_of_le (hacyclic.swap.rank_lt_card i) hrounds) hst 0
    refine ⟨t, ?_⟩
    rw [getRow, if_neg hne]
    exact ht

/-- With caches that are right or not asked, the rows are the visible items in depth-first order,
    and `getItem` and `getRow` are inverse to each other. -/
theorem rows_agree [Finite I] (hs : IsTree s)
    (hcached : treeItemCountDirty = true ∨ ∃ v, s.Counts v ∧ s.AllCached v) {stack rounds : Nat}
    (hstk : Nat.card I < stack) (hrounds : Nat.card I ≤ rounds) :
    ∃ e, DepthFirst s e ∧
      ∀ root, RowsAgree treeItemCountDirty stack rounds s root (e root) := by
  obtain ⟨e, he⟩ := exists_depthFirst hs.forest.acyclic
  refine ⟨e, he, fun root => ?_⟩
  cases treeItemCountDirty with
  | true =>
    exact (Countable.of_reset hs he.counts).rowsAgree hs he.counts he hstk hrounds
      ⟨rfl, rfl, rfl, rfl⟩ root
  | false =>
    obtain ⟨v, hv, hall⟩ := hcached.resolve_left (by simp)
    exact (Countable.of_cached hs hv).rowsAgree hs hv he hstk hrounds ⟨Queried.refl s, hall⟩ root

/-- The states of a run are such trees, as long as no child is null. -/
theorem isTree_of_trace [Finite I] {ops : List (Op I)}
    (hreg : (new : TreeItems I).RegularTrace stack ops)
    (hforest : ∀ t ∈ (new : TreeItems I).trace stack ops, t.IsForest)
    (hstk : Nat.card I ≤ stack) (ht : t ∈ (new : TreeItems I).trace stack ops)
    (hnonnull : ∀ p, none ∉ t.content p) : IsTree t ∧ ∃ v, t.Counts v ∧ t.AllCached v := by
  have hkept := Kept.new.trace ops hreg hforest hstk t ht
  exact ⟨⟨hforest t ht, hkept.linked, hkept.leaf, hnonnull⟩, hkept.cached⟩

/-- An item with one child, expanded and counted. -/
def oneExpanded : TreeItems Bool := addExpandQuery.foldl (perform 2) new

theorem rows_agree_oneExpanded :
    oneExpanded.content false = [some true] ∧ oneExpanded.expanded false = true ∧
      ∃ e, DepthFirst oneExpanded e ∧
        ∀ root, RowsAgree false 3 2 oneExpanded root (e root) := by
  have hshape : ∀ t ∈ (new : TreeItems Bool).trace 2 addExpandQuery,
      t.content true = [] ∧ (t.content false = [] ∨ t.content false = [some true]) := by decide
  have hmem : oneExpanded ∈ (new : TreeItems Bool).trace 2 addExpandQuery :=
    mem_of_getElem? (show _[3]? = some oneExpanded from rfl)
  have hreg : (new : TreeItems Bool).RegularTrace 2 addExpandQuery := ⟨trivial, trivial⟩
  obtain ⟨hs, hcached⟩ := isTree_of_trace hreg
    (fun t ht => isForest_of_one (hshape t ht).1 (hshape t ht).2) (by simp) hmem (by decide)
  exact ⟨by decide, by decide, rows_agree hs (Or.inr hcached) (by simp) (by simp)⟩

end Counting

end OpenJfx.Controls.TreeUtil
