/-
  OpenJfx.Controls.TreeItem.RowCount

  The number of rows over runs of edits, `setExpanded` and queries.  An item that is not dirty has
  its rows counted, and the `expanded` properties that the number depends on have been read, so
  that their next change is not silent.
-/

import OpenJfx.Controls.TreeItem.ParentLinks
import OpenJfx.Lib.AcyclicRank
import Mathlib.Data.List.ReduceOption

namespace OpenJfx.Controls.TreeItems

open OpenJfx.Collections OpenJfx.Collections.ObservableListWrapper List Function TreeItems Option

variable {stack : Nat} {I : Type} {s s' : TreeItems I} {v : I → Nat} {i : I}

/-! ## Rows -/

/-- `c` stands in the list of `p`. -/
def Child (s : TreeItems I) (c p : I) : Prop := some c ∈ s.content p

/-- The rows of an item: itself, and those of its children if it is expanded. -/
def Counts (s : TreeItems I) (v : I → Nat) : Prop :=
  ∀ i, v i = 1 + if s.expanded i then ((s.content i).reduceOption.map v).sum else 0

/-- Every item is held once at most, and no item is below itself. -/
structure IsForest [DecidableEq I] (s : TreeItems I) : Prop where
  once : ∀ p x, (s.content p).count (some x) ≤ 1
  oneParent : s.OneParent
  acyclic : Acyclic s.Child

theorem Counts.leaf (h : s.Counts v) (hi : s.content i = []) : v i = 1 := by
  rw [h i, hi]
  simp

theorem Counts.collapsed (h : s.Counts v) (hi : s.expanded i = false) : v i = 1 := by
  rw [h i, hi]
  simp

/-- The rows down to `depth` levels. -/
def rows (s : TreeItems I) : Nat → I → Nat
  | 0, _ => 0
  | depth + 1, i => 1 + if s.expanded i then ((s.content i).reduceOption.map (s.rows depth)).sum else 0

theorem rows_eq [Finite I] (h : Acyclic s.Child) {n m : Nat} (hn : rank s.Child i < n)
    (hm : rank s.Child i < m) : s.rows n i = s.rows m i := by
  induction n generalizing m i with
  | zero => omega
  | succ n ih =>
    cases m with
    | zero => omega
    | succ m =>
      have hmap : (s.content i).reduceOption.map (s.rows n) =
          (s.content i).reduceOption.map (s.rows m) := by
        refine map_congr_left fun c hc => ?_
        have hlt := h.rank_lt (reduceOption_mem_iff.1 hc)
        exact ih (by omega) (by omega)
      rw [rows, rows, hmap]

theorem exists_counts [Finite I] (h : Acyclic s.Child) : ∃ v, s.Counts v := by
  refine ⟨fun i => s.rows (rank s.Child i + 1) i, fun i => ?_⟩
  show s.rows (rank s.Child i + 1) i = _
  rw [rows]
  have hmap : (s.content i).reduceOption.map (s.rows (rank s.Child i)) =
      (s.content i).reduceOption.map fun i => s.rows (rank s.Child i + 1) i := by
    refine map_congr_left fun c hc => ?_
    have hlt := h.rank_lt (reduceOption_mem_iff.1 hc)
    exact rows_eq h hlt (Nat.lt_succ_self _)
  rw [hmap]

/-! ## Queries -/

/-- What is known of an item that is not dirty. -/
structure Cached (s : TreeItems I) (v : I → Nat) (i : I) : Prop where
  count : s.expandedDescendentCount i = v i
  read : s.content i ≠ [] → s.valid i = true
  below : s.expanded i = true → ∀ c, s.Child c i → s.content c ≠ [] →
    s.valid c = true ∧ (s.expanded c = true → s.expandedDescendentCountDirty c = false)

/-- All items that are not dirty. -/
def AllCached (s : TreeItems I) (v : I → Nat) : Prop :=
  ∀ i, s.expandedDescendentCountDirty i = false → s.Cached v i

/-- What a query changes: it reads properties and counts rows. -/
structure Queried (s s' : TreeItems I) : Prop where
  listening : s.Listening → s'.Listening
  content : s'.content = s.content
  parent : s'.parent = s.parent
  parentLinkCount : s'.parentLinkCount = s.parentLinkCount
  leaf : s'.leaf = s.leaf
  expanded : s'.expanded = s.expanded
  valid : ∀ i, s.valid i = true → s'.valid i = true
  clean : ∀ i, s.expandedDescendentCountDirty i = false →
    s'.expandedDescendentCountDirty i = false ∧
      s'.expandedDescendentCount i = s.expandedDescendentCount i

theorem Queried.refl (s : TreeItems I) : Queried s s :=
  ⟨id, rfl, rfl, rfl, rfl, rfl, fun _ h => h, fun _ h => ⟨h, rfl⟩⟩

variable {t : TreeItems I} {count : I → TreeItems I → Option (Int × TreeItems I)}
  {children : List (Option I)}

theorem Queried.trans (h : Queried s s') (h' : Queried s' t) : Queried s t where
  listening := fun hs => h'.listening (h.listening hs)
  content := h'.content.trans h.content
  parent := h'.parent.trans h.parent
  parentLinkCount := h'.parentLinkCount.trans h.parentLinkCount
  leaf := h'.leaf.trans h.leaf
  expanded := h'.expanded.trans h.expanded
  valid := fun i hi => h'.valid i (h.valid i hi)
  clean := fun i hi =>
    ⟨(h'.clean i (h.clean i hi).1).1, (h'.clean i (h.clean i hi).1).2.trans (h.clean i hi).2⟩

theorem Queried.counts (h : Queried s s') (hv : s.Counts v) : s'.Counts v := by
  intro i
  rw [h.expanded, h.content]
  exact hv i

theorem Cached.queried (hi : s.Cached v i) (h : Queried s s')
    (hclean : s.expandedDescendentCountDirty i = false) : s'.Cached v i := by
  constructor
  · rw [(h.clean i hclean).2, hi.count]
  · intro hne
    rw [h.content] at hne
    exact h.valid i (hi.read hne)
  · intro hexp c hc hne
    rw [h.expanded] at hexp ⊢
    rw [h.content] at hne
    have hc' : s.Child c i := by
      rw [Child, ← h.content]
      exact hc
    obtain ⟨hvalid, hdirty⟩ := hi.below hexp c hc' hne
    exact ⟨h.valid c hvalid, fun hexp' => (h.clean c (hdirty hexp')).1⟩

section Query

variable [DecidableEq I]

theorem isExpanded_queried (i : I) (s : TreeItems I) : Queried s (s.isExpanded i).2 := by
  refine ⟨id, rfl, rfl, rfl, rfl, rfl, fun j hj => ?_, fun j hj => ⟨hj, rfl⟩⟩
  show Function.update s.valid i true j = true
  by_cases h : j = i
  · rw [h, update_self]
  · rw [update_of_ne h, hj]

theorem AllCached.isExpanded (h : s.AllCached v) (i : I) : (s.isExpanded i).2.AllCached v :=
  fun j hj => (h j hj).queried (isExpanded_queried i s) hj

theorem isExpanded_valid (i : I) (s : TreeItems I) : (s.isExpanded i).2.valid i = true := by
  simp [isExpanded]

/-! The branches of the counting loop. -/

theorem countChildren_expanded {c : I} {n m : Int} (hexp : s.expanded c = true)
    (hcnt : count c (s.isExpanded c).2 = some (m, s')) :
    countChildren count (some c :: children) n s = countChildren count children (n + m) s' := by
  rw [countChildren]
  simp only [isExpanded] at hcnt ⊢
  rw [hexp]
  simp only [hcnt]

theorem countChildren_collapsed {c : I} {n : Int} (hexp : s.expanded c = false) :
    countChildren count (some c :: children) n s =
      countChildren count children (n + 1) (s.isExpanded c).2 := by
  rw [countChildren]
  simp only [isExpanded]
  rw [hexp]

theorem updateExpandedDescendentCount_expanded (hleaf : s.leaf i = false)
    (hexp : s.expanded i = true) :
    updateExpandedDescendentCount count i s =
      countChildren count (s.content i) 1 (s.isExpanded i).2 := by
  rw [updateExpandedDescendentCount, hleaf]
  simp only [isExpanded, Bool.false_eq_true, if_false]
  rw [hexp]
  rfl

theorem updateExpandedDescendentCount_collapsed (hleaf : s.leaf i = false)
    (hexp : s.expanded i = false) :
    updateExpandedDescendentCount count i s = some (1, (s.isExpanded i).2) := by
  rw [updateExpandedDescendentCount, hleaf]
  simp only [isExpanded, Bool.false_eq_true, if_false]
  rw [hexp]

/-- It counts the rows of `i`, after queries alone. -/
def CountsRows (s : TreeItems I) (v : I → Nat) (count : I → TreeItems I → Option (Int × TreeItems I))
    (i : I) : Prop :=
  ∀ t, Queried s t → t.AllCached v → ∃ t', count i t = some ((v i : Int), t') ∧ Queried t t' ∧
    t'.AllCached v ∧ t'.expandedDescendentCountDirty i = false

theorem countChildren_spec (hv : s.Counts v)
    (hcnt : ∀ c, some c ∈ children → s.CountsRows v count c)
    (ht : Queried s t) (hcached : t.AllCached v) (n : Int) :
    ∃ t', countChildren count children n t =
        some (n + ((children.reduceOption.map v).sum : Nat), t') ∧
      Queried t t' ∧ t'.AllCached v ∧
      ∀ c, some c ∈ children → t'.valid c = true ∧
        (t'.expanded c = true → t'.expandedDescendentCountDirty c = false) := by
  induction children generalizing t n with
  | nil => exact ⟨t, by simp [countChildren], Queried.refl t, hcached, by simp⟩
  | cons child children ih =>
    have hrest : ∀ c, some c ∈ children → s.CountsRows v count c := fun c hc =>
      hcnt c (.tail _ hc)
    cases child with
    | none =>
      obtain ⟨t', ht', hq, hcached', hread⟩ := ih hrest ht hcached n
      refine ⟨t', by simpa [countChildren] using ht', hq, hcached', fun c hc => ?_⟩
      exact hread c ((mem_cons.1 hc).resolve_left (by simp))
    | some child =>
      set t1 := (t.isExpanded child).2 with ht1
      have hq1 : Queried t t1 := isExpanded_queried child t
      have hvalid1 : t1.valid child = true := isExpanded_valid child t
      have hcached1 : t1.AllCached v := hcached.isExpanded child
      -- the child itself
      obtain ⟨t2, hstep, hq2, hcached2, hdirty2⟩ : ∃ t2,
          countChildren count (some child :: children) n t =
            countChildren count children (n + (v child : Int)) t2 ∧
          Queried t1 t2 ∧ t2.AllCached v ∧
          (t2.expanded child = true → t2.expandedDescendentCountDirty child = false) := by
        cases hexp : t.expanded child with
        | true =>
          obtain ⟨t2, hcall, hq2, hcached2, hclean2⟩ :=
            hcnt child mem_cons_self t1 (ht.trans hq1) hcached1
          exact ⟨t2, countChildren_expanded hexp hcall, hq2, hcached2, fun _ => hclean2⟩
        | false =>
          have hone : v child = 1 := hv.collapsed (by rw [← ht.expanded, hexp])
          refine ⟨t1, ?_, Queried.refl t1, hcached1, fun h => ?_⟩
          · rw [hone]
            exact countChildren_collapsed hexp
          · rw [hq1.expanded, hexp] at h
            cases h
      obtain ⟨t', ht', hq', hcached', hread⟩ := ih hrest ((ht.trans hq1).trans hq2) hcached2
        (n + v child)
      refine ⟨t', ?_, (hq1.trans hq2).trans hq', hcached', fun c hc => ?_⟩
      · rw [hstep, ht']
        simp only [reduceOption_cons_of_some, map_cons, sum_cons, Nat.cast_add]
        rw [Int.add_assoc]
      · rcases mem_cons.1 hc with heq | hc
        · obtain rfl : c = child := some.inj heq
          refine ⟨hq'.valid c (hq2.valid c hvalid1), fun hexp => ?_⟩
          rw [hq'.expanded] at hexp
          exact (hq'.clean c (hdirty2 hexp)).1
        · exact hread c hc

/-- Counting: all that an item has to know, but the number itself. -/
theorem updateExpandedDescendentCount_spec (hv : s.Counts v)
    (hleaf : ∀ i, s.leaf i = (s.content i).isEmpty)
    (hcnt : ∀ c, s.Child c i → s.CountsRows v count c)
    (ht : Queried s t) (hcached : t.AllCached v) :
    ∃ t', updateExpandedDescendentCount count i t = some ((v i : Int), t') ∧ Queried t t' ∧
      t'.AllCached v ∧ (t'.content i ≠ [] → t'.valid i = true) ∧
      (t'.expanded i = true → ∀ c, t'.Child c i → t'.content c ≠ [] →
        t'.valid c = true ∧
          (t'.expanded c = true → t'.expandedDescendentCountDirty c = false)) := by
  by_cases hemp : s.content i = []
  · have hnone : t.content i = [] := by rw [ht.content, hemp]
    refine ⟨t, ?_, Queried.refl t, hcached, fun h => absurd hnone h, fun _ c hc => ?_⟩
    · rw [updateExpandedDescendentCount, ht.leaf, hleaf, hemp, hv.leaf hemp]
      rfl
    · rw [Child, hnone] at hc
      cases hc
  · have hnot : t.leaf i = false := by
      rw [ht.leaf, hleaf, List.isEmpty_eq_false_iff]
      exact hemp
    have hq := isExpanded_queried i t
    cases hexp : t.expanded i with
    | false =>
      have hone : v i = 1 := hv.collapsed (by rw [← ht.expanded, hexp])
      refine ⟨_, ?_, hq, hcached.isExpanded i, fun _ => isExpanded_valid i t, fun h => ?_⟩
      · rw [hone]
        exact updateExpandedDescendentCount_collapsed hnot hexp
      · rw [hq.expanded, hexp] at h
        cases h
    | true =>
      obtain ⟨t', hloop, hq', hcached', hread⟩ := countChildren_spec hv
        (fun c hc => hcnt c (by rwa [Child, ← ht.content]))
        (ht.trans hq) (hcached.isExpanded i) 1
      refine ⟨t', ?_, hq.trans hq', hcached', fun _ => hq'.valid i (isExpanded_valid i t),
        fun _ c hc _ => hread c ?_⟩
      · rw [updateExpandedDescendentCount_expanded hnot hexp, hloop, (ht.counts hv) i, hexp]
        simp
      · rw [← (hq.trans hq').content]
        exact hc

theorem getExpandedDescendentCount_spec [Finite I] (hforest : Acyclic s.Child)
    (hv : s.Counts v) (hleaf : ∀ i, s.leaf i = (s.content i).isEmpty)
    (hstk : rank s.Child i < stack) :
    s.CountsRows v (getExpandedDescendentCount false stack) i := by
  induction stack generalizing i with
  | zero => omega
  | succ stack ih =>
    intro t ht hcached
    cases hdirty : t.expandedDescendentCountDirty i with
    | false =>
      refine ⟨t, ?_, Queried.refl t, hcached, hdirty⟩
      rw [getExpandedDescendentCount, hdirty]
      simp [(hcached i hdirty).count]
    | true =>
      obtain ⟨t1, hupdate, hq1, hcached1, hread, hbelow⟩ :=
        updateExpandedDescendentCount_spec (i := i) hv hleaf (fun c hc => ih (by
          have hlt := hforest.rank_lt hc
          omega)) ht hcached
      set t' : TreeItems I := { t1 with
        expandedDescendentCount := Function.update t1.expandedDescendentCount i (v i)
        expandedDescendentCountDirty := Function.update t1.expandedDescendentCountDirty i false }
        with ht'
      have hclean : ∀ j, t1.expandedDescendentCountDirty j = false →
          t'.expandedDescendentCountDirty j = false := by
        intro j hj
        by_cases h : j = i
        · simp [ht', h]
        · simpa [ht', h] using hj
      have hq' : Queried t1 t' := by
        refine ⟨id, rfl, rfl, rfl, rfl, rfl, fun j hj => hj, fun j hj => ⟨hclean j hj, ?_⟩⟩
        by_cases h : j = i
        · subst h
          rw [(hcached1 j hj).count]
          simp [ht']
        · simp [ht', h]
      refine ⟨t', ?_, hq1.trans hq', fun j hj => ?_, ?_⟩
      · rw [getExpandedDescendentCount, hdirty, hupdate]
        rfl
      · by_cases h : j = i
        · subst h
          refine ⟨by simp [ht'], hread, fun hexp c hc hne => ?_⟩
          obtain ⟨hvalid, hdirty'⟩ := hbelow hexp c hc hne
          exact ⟨hvalid, fun hexp' => hclean c (hdirty' hexp')⟩
        · have hj1 : t1.expandedDescendentCountDirty j = false := by simpa [ht', h] using hj
          exact (hcached1 j hj1).queried hq' hj1
      · simp [ht']

end Query

/-! ## Events -/

section Events

variable [DecidableEq I]

omit [DecidableEq I] in
theorem dispatchChain_spec [Finite I] (hlinked : ∀ x p, s.parent x = some p ↔ s.Child x p)
    (hforest : Acyclic s.Child) (hstk : rank (Function.swap s.Child) i < stack) :
    ∃ chain, s.dispatchChain stack i = some chain ∧
      ∀ j, j ∈ chain ↔ Relation.ReflTransGen s.Child i j := by
  induction stack generalizing i with
  | zero => omega
  | succ stack ih =>
    rw [dispatchChain]
    cases hpar : s.parent i with
    | none =>
      refine ⟨[i], rfl, fun j => ?_⟩
      rw [mem_singleton, Relation.ReflTransGen.cases_head_iff]
      refine ⟨fun h => .inl h.symm, fun h => ?_⟩
      rcases h with rfl | ⟨p, hp, -⟩
      · rfl
      · rw [← hlinked, hpar] at hp
        cases hp
    | some p =>
      have hp : s.Child i p := (hlinked i p).1 hpar
      have hlt : rank (Function.swap s.Child) p < rank (Function.swap s.Child) i :=
        hforest.swap.rank_lt hp
      obtain ⟨chain, hchain, hmem⟩ := ih (i := p) (by omega)
      refine ⟨chain ++ [i], ?_, fun j => ?_⟩
      · show (s.dispatchChain stack p).map (· ++ [i]) = _
        rw [hchain]
        rfl
      rw [mem_append, hmem, mem_singleton, Relation.ReflTransGen.cases_head_iff (a := i)]
      constructor
      · rintro (h | h)
        · exact .inr ⟨p, hp, h⟩
        · exact .inl h.symm
      · rintro (h | ⟨q, hq, h⟩)
        · exact .inr h.symm
        · rw [← hlinked, hpar] at hq
          cases hq
          exact .inl h

theorem fireEvent_eq [Finite I] (hlinked : s.Linked) (hforest : Acyclic s.Child)
    (hstk : Nat.card I ≤ stack) :
    ∃ chain : List I, (∀ j, j ∈ chain ↔ Relation.ReflTransGen s.Child i j) ∧
      s.fireEvent stack i = { s with
        expandedDescendentCountDirty := fun j =>
          s.expandedDescendentCountDirty j || decide (j ∈ chain) } := by
  obtain ⟨chain, hchain, hmem⟩ := dispatchChain_spec (i := i) hlinked hforest
    (Nat.lt_of_lt_of_le (hforest.swap.rank_lt_card i) hstk)
  refine ⟨chain, hmem, ?_⟩
  rw [fireEvent, hchain]

theorem fireEvent_dirty_iff [Finite I] (hlinked : s.Linked) (hforest : Acyclic s.Child)
    (hstk : Nat.card I ≤ stack) (j : I) :
    (s.fireEvent stack i).expandedDescendentCountDirty j = false ↔
      s.expandedDescendentCountDirty j = false ∧ ¬ Relation.ReflTransGen s.Child i j := by
  obtain ⟨chain, hmem, heq⟩ := fireEvent_eq (i := i) hlinked hforest hstk
  rw [heq, ← hmem]
  simp

end Events

/-! ## Changes -/

section Changes

variable [Finite I] {v' : I → Nat}

theorem AllCached.told (h : s.AllCached v) (hv : s.Counts v) (hv' : s'.Counts v')
    (hforest : Acyclic s'.Child) (hcon : ∀ j, j ≠ i → s'.content j = s.content j)
    (hexpanded : ∀ j, j ≠ i → s'.expanded j = s.expanded j)
    (hvalid : ∀ j, j ≠ i → s'.valid j = s.valid j)
    (hcnt : s'.expandedDescendentCount = s.expandedDescendentCount)
    (hdirty : ∀ j, s'.expandedDescendentCountDirty j = false ↔
      s.expandedDescendentCountDirty j = false ∧ ¬ Relation.ReflTransGen s'.Child i j) :
    s'.AllCached v' := by
  -- an item that is not above `i` is not `i`, and its children are not above `i` either
  have hne : ∀ j, ¬ Relation.ReflTransGen s'.Child i j → j ≠ i := by
    rintro j hj rfl
    exact hj Relation.ReflTransGen.refl
  have hbelow : ∀ j c, ¬ Relation.ReflTransGen s'.Child i j → s'.Child c j →
      ¬ Relation.ReflTransGen s'.Child i c := fun j c hj hc hic => hj (hic.tail hc)
  have hsame : ∀ n j, rank s'.Child j < n → ¬ Relation.ReflTransGen s'.Child i j → v' j = v j := by
    intro n
    induction n with
    | zero => intro j hj; omega
    | succ n ih =>
      intro j hlt hj
      have hmap : (s'.content j).reduceOption.map v' = (s'.content j).reduceOption.map v := by
        refine map_congr_left fun c hc => ?_
        have hc' : s'.Child c j := reduceOption_mem_iff.1 hc
        have hrank := hforest.rank_lt hc'
        exact ih c (by omega) (hbelow j c hj hc')
      rw [hv' j, hv j, hexpanded j (hne j hj), hmap, hcon j (hne j hj)]
  intro j hj
  obtain ⟨hclean, hnot⟩ := (hdirty j).1 hj
  have hold := h j hclean
  constructor
  · rw [hcnt, hold.count, hsame _ j (Nat.lt_succ_self _) hnot]
  · intro hemp
    rw [hvalid j (hne j hnot)]
    rw [hcon j (hne j hnot)] at hemp
    exact hold.read hemp
  · intro hexp c hc hemp
    have hnotc := hbelow j c hnot hc
    have hnec := hne c hnotc
    rw [hexpanded j (hne j hnot)] at hexp
    rw [hcon c hnec] at hemp
    rw [Child, hcon j (hne j hnot)] at hc
    obtain ⟨hvalidc, hcleanc⟩ := hold.below hexp c hc hemp
    rw [hvalid c hnec, hexpanded c hnec, hdirty c]
    exact ⟨hvalidc, fun hexpc => ⟨hcleanc hexpc, hnotc⟩⟩

/-- What `i` does without an event leaves right caches right. -/
theorem AllCached.silent (h : s.AllCached v) (hv : s.Counts v) (hv' : s'.Counts v')
    (hforest : Acyclic s.Child) (hhidden : s.content i ≠ [] → s.valid i = false)
    (hcon : s'.content = s.content)
    (hexpanded : ∀ j, j ≠ i → s'.expanded j = s.expanded j)
    (hvalid : ∀ j, j ≠ i → s'.valid j = s.valid j)
    (hcnt : s'.expandedDescendentCount = s.expandedDescendentCount)
    (hdirty : s'.expandedDescendentCountDirty = s.expandedDescendentCountDirty) :
    s'.AllCached v' := by
  have hread : ∀ j, s.content j ≠ [] → s.valid j = true → j ≠ i := by
    rintro j hne hj rfl
    rw [hhidden hne] at hj
    cases hj
  have hone : ∀ j, s.content j = [] → v' j = v j := by
    intro j hj
    rw [hv.leaf hj, hv'.leaf (by rw [hcon, hj])]
  have hsame : ∀ n j, rank s.Child j < n → s.expandedDescendentCountDirty j = false →
      v' j = v j := by
    intro n
    induction n with
    | zero => intro j hj; omega
    | succ n ih =>
      intro j hlt hj
      by_cases hemp : s.content j = []
      · exact hone j hemp
      have hji := hread j hemp ((h j hj).read hemp)
      cases hexp : s.expanded j with
      | false => rw [hv.collapsed hexp, hv'.collapsed (by rw [hexpanded j hji, hexp])]
      | true =>
        have hmap : (s.content j).reduceOption.map v' = (s.content j).reduceOption.map v := by
          refine map_congr_left fun c hc => ?_
          have hc' : s.Child c j := reduceOption_mem_iff.1 hc
          by_cases hemptyc : s.content c = []
          · exact hone c hemptyc
          obtain ⟨hvalidc, hcleanc⟩ := (h j hj).below hexp c hc' hemptyc
          have hci := hread c hemptyc hvalidc
          cases hexpc : s.expanded c with
          | false => rw [hv.collapsed hexpc, hv'.collapsed (by rw [hexpanded c hci, hexpc])]
          | true =>
            have hrank := hforest.rank_lt hc'
            exact ih c (by omega) (hcleanc hexpc)
        rw [hv' j, hv j, hexpanded j hji, hcon, hmap]
  intro j hj
  rw [hdirty] at hj
  have hold := h j hj
  constructor
  · rw [hcnt, hold.count, hsame _ j (Nat.lt_succ_self _) hj]
  · intro hemp
    rw [hcon] at hemp
    have hvalidj := hold.read hemp
    rw [hvalid j (hread j hemp hvalidj), hvalidj]
  · intro hexp c hc hemp
    rw [hcon] at hemp
    rw [Child, hcon] at hc
    have hemptyj : s.content j ≠ [] := ne_nil_of_mem hc
    rw [hexpanded j (hread j hemptyj (hold.read hemptyj))] at hexp
    obtain ⟨hvalidc, hcleanc⟩ := hold.below hexp c hc hemp
    have hci := hread c hemp hvalidc
    rw [hvalid c hci, hexpanded c hci, hdirty]
    exact ⟨hvalidc, hcleanc⟩

end Changes

/-! ## One operation -/

section Operations

variable [DecidableEq I] {stack : Nat}

/-- The invariant of a run. -/
structure Kept (s : TreeItems I) : Prop where
  listening : s.Listening
  linked : s.Linked
  uncounted : ∀ x, s.parentLinkCount x = 0
  leaf : ∀ i, s.leaf i = (s.content i).isEmpty
  cached : ∃ v, s.Counts v ∧ s.AllCached v

omit [DecidableEq I] in
theorem Kept.queried (h : s.Kept) (hq : Queried s s') {v : I → Nat} (hv : s.Counts v)
    (hcached : s'.AllCached v) : s'.Kept where
  listening := hq.listening h.listening
  linked := by
    intro x p
    rw [hq.parent, hq.content]
    exact h.linked x p
  uncounted := by
    rw [hq.parentLinkCount]
    exact h.uncounted
  leaf := by
    rw [hq.leaf, hq.content]
    exact h.leaf
  cached := ⟨v, hq.counts hv, hcached⟩

theorem Kept.query [Finite I] (h : s.Kept) (hforest : Acyclic s.Child)
    (hstk : Nat.card I ≤ stack) (i : I) :
    ∃ v t, s.Counts v ∧ getExpandedDescendentCount false stack i s = some ((v i : Int), t) ∧
      t.Kept := by
  obtain ⟨v, hv, hcached⟩ := h.cached
  obtain ⟨t, ht, hq, hcached', -⟩ := getExpandedDescendentCount_spec hforest hv h.leaf
    (Nat.lt_of_lt_of_le (hforest.rank_lt_card i) hstk) s (Queried.refl s) hcached
  exact ⟨v, t, hv, ht, h.queried hq hv hcached'⟩

omit [DecidableEq I] in
theorem Kept.sameLinks (h : s.Kept) (hchildren : s'.children = s.children)
    (hpar : s'.parent = s.parent) (hcnt : s'.parentLinkCount = s.parentLinkCount)
    (hleaf : s'.leaf = s.leaf) (hcached : ∃ v, s'.Counts v ∧ s'.AllCached v) : s'.Kept := by
  have hcon : s'.content = s.content := by
    funext j
    show (s'.children j).backingList = _
    rw [hchildren]
    rfl
  refine ⟨?_, fun x p => ?_, ?_, ?_, hcached⟩
  · rw [Listening, hchildren]
    exact h.listening
  · rw [hpar, hcon]
    exact h.linked x p
  · rw [hcnt]
    exact h.uncounted
  · rw [hleaf, hcon]
    exact h.leaf

theorem Kept.setExpanded [Finite I] (h : s.Kept) (hforest : Acyclic s.Child)
    (hstk : Nat.card I ≤ stack) (i : I) (value : Bool) :
    (s.setExpanded stack i value).Kept := by
  obtain ⟨v, hv, hcached⟩ := h.cached
  -- the item is set, and its property is valid or not
  set t : Bool → TreeItems I := fun valid => { s with
    expanded := Function.update s.expanded i value
    valid := Function.update s.valid i valid } with ht
  have hexpanded : ∀ b j, j ≠ i → (t b).expanded j = s.expanded j := fun b j hj =>
    update_of_ne hj _ _
  have hvalid : ∀ b j, j ≠ i → (t b).valid j = s.valid j := fun b j hj =>
    update_of_ne hj _ _
  have hsilent : ∀ b, (s.content i ≠ [] → s.valid i = false) → (t b).Kept := by
    intro b hhidden
    obtain ⟨v', hv'⟩ := exists_counts (s := t b) hforest
    refine h.sameLinks rfl rfl rfl rfl ⟨v', hv', ?_⟩
    exact hcached.silent hv hv' hforest hhidden rfl (hexpanded b) (hvalid b) rfl rfl
  rw [TreeItems.setExpanded]
  split
  · exact h
  cases hread : s.valid i with
  | false =>
    have heq : ({ s with expanded := Function.update s.expanded i value } : TreeItems I) =
        t false := by
      simp only [ht]
      rw [← hread, update_eq_self]
    simp only [hread, Bool.false_eq_true, if_false]
    rw [heq]
    exact hsilent false fun _ => hread
  | true =>
    show Kept (if s.valid i then expandedInvalidated stack i (t false) else _)
    rw [hread, if_pos rfl, expandedInvalidated]
    cases hleaf : s.leaf i with
    | true =>
      rw [h.leaf, List.isEmpty_iff] at hleaf
      rw [if_pos rfl]
      exact hsilent false fun hne => absurd hleaf hne
    | false =>
      have heq : ((t false).isExpanded i).2 = t true := by simp [ht, isExpanded]
      rw [if_neg Bool.false_ne_true, heq]
      obtain ⟨chain, -, hfired⟩ := fireEvent_eq (s := t true) (i := i) h.linked hforest hstk
      have hdirty := fireEvent_dirty_iff (s := t true) (i := i) h.linked hforest hstk
      rw [hfired] at hdirty ⊢
      obtain ⟨v', hv'⟩ := exists_counts (s := t true) hforest
      refine h.sameLinks rfl rfl rfl rfl ⟨v', hv', ?_⟩
      exact hcached.told hv hv' hforest (fun _ _ => rfl) (hexpanded true) (hvalid true) rfl hdirty

theorem childrenListener_fields [Finite I] (p : I) (c : FiredChange (Option I))
    (hlinked : (childrenListener stack p s c).Linked) (hforest : Acyclic s.Child)
    (hstk : Nat.card I ≤ stack) :
    (childrenListener stack p s c).leaf = Function.update s.leaf p (s.content p).isEmpty ∧
      (childrenListener stack p s c).expanded = s.expanded ∧
      (childrenListener stack p s c).valid = s.valid ∧
      (childrenListener stack p s c).expandedDescendentCount = s.expandedDescendentCount ∧
      ∀ j, (childrenListener stack p s c).expandedDescendentCountDirty j = false ↔
        s.expandedDescendentCountDirty j = false ∧ ¬ Relation.ReflTransGen s.Child p j := by
  -- the item before the event
  obtain ⟨t, heq, hchildren, hleaf, hexpanded, hvalid, hcnt, hdirty⟩ : ∃ t : TreeItems I,
      childrenListener stack p s c = t.fireEvent stack p ∧ t.children = s.children ∧
      t.leaf = Function.update s.leaf p (s.content p).isEmpty ∧ t.expanded = s.expanded ∧
      t.valid = s.valid ∧ t.expandedDescendentCount = s.expandedDescendentCount ∧
      t.expandedDescendentCountDirty = Function.update s.expandedDescendentCountDirty p true := by
    refine ⟨_, rfl, ?_⟩
    dsimp only
    rw [updateChildrenParent_eq, updateChildrenParent_eq]
    exact ⟨rfl, rfl, rfl, rfl, rfl, rfl⟩
  obtain ⟨hpar, -, hsame⟩ := fireEvent_links stack p t
  have hchild : t.Child = s.Child := by
    funext x q
    rw [Child, content, hchildren, Child, content]
  have hlinked' : t.Linked := by
    intro x q
    have hx := hlinked x q
    rw [heq, hpar, content, hsame] at hx
    exact hx
  rw [← hchild] at hforest ⊢
  obtain ⟨chain, -, hfired⟩ := fireEvent_eq (i := p) hlinked' hforest hstk
  have hevent := fireEvent_dirty_iff (i := p) hlinked' hforest hstk
  rw [heq]
  refine ⟨?_, ?_, ?_, ?_, fun j => ?_⟩
  · rw [hfired, hleaf]
  · rw [hfired, hexpanded]
  · rw [hfired, hvalid]
  · rw [hfired, hcnt]
  rw [hevent, hdirty]
  by_cases hj : j = p
  · subst hj
    exact iff_of_false (fun h => h.2 Relation.ReflTransGen.refl)
      fun h => h.2 Relation.ReflTransGen.refl
  · rw [update_of_ne hj]

theorem uncounted_step (h : s.Kept) (edit : ChildEdit I) (hreg : s.Regular edit)
    (honce : ∀ p x, ((s.step stack edit).content p).count (some x) ≤ 1) (x : I) :
    (s.step stack edit).parentLinkCount x = 0 := by
  obtain ⟨-, -, hnew, kept, removed, added, hpold, hpnew, hre⟩ :=
    step_spec stack h.listening (fun x => (h.uncounted x).ge) edit hreg
  have hold := hpold.count_eq (some x)
  have hle := honce edit.item x
  rw [hnew, hpnew.count_eq (some x)] at hle
  rw [count_append] at hold hle
  have hrem : some x ∈ removed ↔ 0 < removed.count (some x) := count_pos_iff.symm
  have hlink := (h.linked x edit.item).trans count_pos_iff.symm
  rw [hre.counter x, h.uncounted x]
  simp only [hlink, hrem, and_true, if_true]
  split <;> omega

theorem Kept.edit [Finite I] (h : s.Kept) (edit : ChildEdit I) (hreg : s.Regular edit)
    (honce : ∀ p x, (s.content p).count (some x) ≤ 1) (hforest' : (s.step stack edit).IsForest)
    (hstk : Nat.card I ≤ stack) : (s.step stack edit).Kept := by
  have hcounted : ∀ x, s.Counted x := fun x =>
    ⟨(h.uncounted x).ge, fun _ p => honce p x, fun hne => absurd (h.uncounted x) hne⟩
  have hlinked' : (s.step stack edit).Linked :=
    (h.linked.step_iff stack h.listening hcounted edit hreg hforest'.oneParent).2
      fun x hne => absurd (h.uncounted x) hne
  have huncounted := uncounted_step h edit hreg hforest'.once
  obtain ⟨hlisten', hother, -⟩ :=
    step_spec stack h.listening (fun x => (h.uncounted x).ge) edit hreg
  obtain ⟨w, f, hcon, hbuilder, hlisteners, hdesc, hstep⟩ :=
    step_eq stack h.listening edit hreg
  obtain ⟨v, hv, hcached⟩ := h.cached
  cases f with
  | none =>
    -- nothing has been told, and the children are the same
    have hsame : w.backingList = s.content edit.item := by
      rcases hdesc with ⟨htracks, -⟩ | ⟨perm, hne, -⟩
      · exact htracks.symm
      · cases hne
    have hstep' : s.step stack edit =
        { s with children := Function.update s.children edit.item w } := hstep
    have hq : Queried s (s.step stack edit) := by
      rw [hstep'] at hlisten' ⊢
      refine ⟨fun _ => hlisten', ?_, rfl, rfl, rfl, rfl, fun _ hj => hj, fun _ hj => ⟨hj, rfl⟩⟩
      funext j
      show (Function.update s.children edit.item w j).backingList = _
      by_cases hj : j = edit.item
      · rw [hj, update_self, hsame]
      · rw [update_of_ne hj]
        rfl
    refine h.queried hq hv fun j hj => ?_
    rw [hstep'] at hj
    exact (hcached j hj).queried hq hj
  | some c =>
    have hacyclic := hforest'.acyclic
    set t : TreeItems I := { s with children := Function.update s.children edit.item w } with ht
    have hstep' : s.step stack edit = childrenListener stack edit.item t c := hstep
    have hchildren : (s.step stack edit).content = t.content := by
      funext j
      rw [content, hstep', childrenListener_children, content]
    have hchild : (s.step stack edit).Child = t.Child := by
      funext a b
      rw [Child, hchildren, Child]
    rw [hchild] at hacyclic
    rw [hstep'] at hlinked'
    obtain ⟨hleaf, hexpanded, hvalid, hcnt, hdirty⟩ :=
      childrenListener_fields edit.item c hlinked' hacyclic hstk
    rw [← hstep'] at hleaf hexpanded hvalid hcnt hdirty hlinked'
    obtain ⟨v', hv'⟩ := exists_counts hforest'.acyclic
    refine ⟨hlisten', hlinked', huncounted, fun j => ?_, v', hv', ?_⟩
    · rw [hleaf, hchildren]
      by_cases hj : j = edit.item
      · rw [hj, update_self]
      · rw [update_of_ne hj, ← hchildren, hother j hj]
        exact h.leaf j
    · refine hcached.told hv hv' hforest'.acyclic hother (fun _ _ => by rw [hexpanded])
        (fun _ _ => by rw [hvalid]) hcnt ?_
      rw [hchild]
      exact hdirty

end Operations

/-! ## Runs -/

/-- The operations on tree items. -/
inductive Op (I : Type) where
  | edit (edit : ChildEdit I)
  | setExpanded (i : I) (value : Bool)
  | query (i : I)

section Runs

variable [DecidableEq I] {stack : Nat}

def perform (stack : Nat) (s : TreeItems I) : Op I → TreeItems I
  | .edit edit => s.step stack edit
  | .setExpanded i value => s.setExpanded stack i value
  | .query i =>
    match getExpandedDescendentCount false stack i s with
    | some (_, t) => t
    | none => s

/-- The states of a run. -/
def trace (stack : Nat) (s : TreeItems I) : List (Op I) → List (TreeItems I)
  | [] => [s]
  | op :: ops => s :: (s.perform stack op).trace stack ops

/-- Every edit of a run is `Regular` when it is made. -/
def RegularTrace (stack : Nat) (s : TreeItems I) : List (Op I) → Prop
  | [] => True
  | .edit edit :: ops => s.Regular edit ∧ (s.step stack edit).RegularTrace stack ops
  | op :: ops => (s.perform stack op).RegularTrace stack ops

theorem RegularTrace.head {op : Op I} {ops : List (Op I)} (h : s.RegularTrace stack (op :: ops)) :
    (∀ edit, op = .edit edit → s.Regular edit) ∧ (s.perform stack op).RegularTrace stack ops := by
  cases op with
  | edit edit =>
    refine ⟨?_, h.2⟩
    rintro _ ⟨⟩
    exact h.1
  | setExpanded i value | query i => exact ⟨by simp, h⟩

theorem mem_trace_self (stack : Nat) (s : TreeItems I) (ops : List (Op I)) :
    s ∈ s.trace stack ops := by
  cases ops with
  | nil => exact mem_singleton.2 rfl
  | cons op ops => exact .head _

theorem Kept.perform [Finite I] (h : s.Kept) (op : Op I)
    (hreg : ∀ edit, op = .edit edit → s.Regular edit) (hforest : s.IsForest)
    (hforest' : (s.perform stack op).IsForest) (hstk : Nat.card I ≤ stack) :
    (s.perform stack op).Kept := by
  cases op with
  | edit edit => exact h.edit edit (hreg edit rfl) hforest.once hforest' hstk
  | setExpanded i value => exact h.setExpanded hforest.acyclic hstk i value
  | query i =>
    obtain ⟨v, t, -, ht, hkept⟩ := h.query hforest.acyclic hstk i
    simp only [TreeItems.perform, ht]
    exact hkept

theorem Kept.trace [Finite I] (h : s.Kept) (ops : List (Op I))
    (hreg : s.RegularTrace stack ops) (hforest : ∀ t ∈ s.trace stack ops, t.IsForest)
    (hstk : Nat.card I ≤ stack) : ∀ t ∈ s.trace stack ops, t.Kept := by
  induction ops generalizing s with
  | nil =>
    intro t ht
    rw [mem_singleton.1 ht]
    exact h
  | cons op ops ih =>
    obtain ⟨hfst, hrest⟩ := hreg.head
    have hforest' : ∀ t ∈ (s.perform stack op).trace stack ops, t.IsForest := fun t ht =>
      hforest t (mem_cons_of_mem s ht)
    intro t ht
    rcases mem_cons.1 ht with rfl | ht
    · exact h
    · exact ih (h.perform op hfst (hforest s mem_cons_self)
        (hforest' _ (mem_trace_self stack _ ops)) hstk) hrest hforest' t ht

omit [DecidableEq I] in
theorem Kept.new : (new : TreeItems I).Kept where
  listening := fun _ => ⟨rfl, rfl⟩
  linked := by simp [TreeItems.new, Linked, content]
  uncounted := fun _ => rfl
  leaf := fun _ => rfl
  cached := by
    refine ⟨fun _ => 1, fun i => ?_, fun i hi => ?_⟩
    · simp [TreeItems.new]
    · cases hi

/-- In every state the answer is the number of rows. -/
theorem getExpandedDescendentCount_eq_counts [Finite I] (ops : List (Op I))
    (hreg : (new : TreeItems I).RegularTrace stack ops)
    (hforest : ∀ t ∈ (new : TreeItems I).trace stack ops, t.IsForest)
    (hstk : Nat.card I ≤ stack) :
    ∀ t ∈ (new : TreeItems I).trace stack ops, ∀ i, ∃ v t',
      t.Counts v ∧ getExpandedDescendentCount false stack i t = some ((v i : Int), t') := by
  intro t ht i
  obtain ⟨v, t', hv, hanswer, -⟩ :=
    (Kept.new.trace ops hreg hforest hstk t ht).query (hforest t ht).acyclic hstk i
  exact ⟨v, t', hv, hanswer⟩

theorem isForest_of_one {t : TreeItems Bool} (htrue : t.content true = [])
    (hfalse : t.content false = [] ∨ t.content false = [some true]) : t.IsForest := by
  have hchild : ∀ c p, t.Child c p → c = true ∧ p = false := by
    intro c p hc
    cases p with
    | true =>
      rw [Child, htrue] at hc
      cases hc
    | false =>
      rcases hfalse with hnone | hone
      · rw [Child, hnone] at hc
        cases hc
      · rw [Child, hone, mem_singleton, Option.some_inj] at hc
        exact ⟨hc, rfl⟩
  refine ⟨fun p x => ?_, oneParent_of_empty htrue, fun a ha => ?_⟩
  · cases p with
    | true => simp [htrue]
    | false =>
      rcases hfalse with hnone | hone
      · simp [hnone]
      · rw [hone]
        exact count_le_length
  · have hfst : a = true := by
      obtain ⟨c, hac, -⟩ := Relation.TransGen.head'_iff.1 ha
      exact (hchild a c hac).1
    have hlast : a = false := by
      obtain ⟨c, -, hca⟩ := Relation.TransGen.tail'_iff.1 ha
      exact (hchild c a hca).2
    rw [hfst] at hlast
    cases hlast

/-- An item gets a child, is expanded, and its rows are counted. -/
def addExpandQuery : List (Op Bool) :=
  [.edit ⟨false, .addAll [some true], trivial⟩, .setExpanded false true, .query false]

theorem getExpandedDescendentCount_addExpandQuery :
    (∀ t ∈ (new : TreeItems Bool).trace 2 addExpandQuery, t.IsForest) ∧
      ∀ t ∈ (new : TreeItems Bool).trace 2 addExpandQuery, ∀ i, ∃ v t',
        t.Counts v ∧ getExpandedDescendentCount false 2 i t = some ((v i : Int), t') := by
  have hshape : ∀ t ∈ (new : TreeItems Bool).trace 2 addExpandQuery, t.content true = [] ∧
      (t.content false = [] ∨ t.content false = [some true]) := by decide
  have hforest : ∀ t ∈ (new : TreeItems Bool).trace 2 addExpandQuery, t.IsForest := fun t ht =>
    isForest_of_one (hshape t ht).1 (hshape t ht).2
  exact ⟨hforest, getExpandedDescendentCount_eq_counts addExpandQuery ⟨trivial, trivial⟩ hforest
    (by simp)⟩

/-- `getChildren().remove(0, 5)` throws after the removal. -/
theorem getExpandedDescendentCount_stale :
    let ops := addExpandQuery ++ [.edit ⟨false, .removeFromTo 0 5, trivial⟩]
    (∀ t ∈ (new : TreeItems Bool).trace 2 ops, t.IsForest) ∧
      ¬ ∀ t ∈ (new : TreeItems Bool).trace 2 ops, ∀ i, ∃ v t',
        t.Counts v ∧ getExpandedDescendentCount false 2 i t = some ((v i : Int), t') := by
  intro ops
  have hshape : ∀ t ∈ (new : TreeItems Bool).trace 2 ops, t.content true = [] ∧
      (t.content false = [] ∨ t.content false = [some true]) := by decide
  refine ⟨fun t ht => isForest_of_one (hshape t ht).1 (hshape t ht).2, fun h => ?_⟩
  obtain ⟨v, t', hv, hanswer⟩ := h _ (mem_cons_of_mem _ (mem_cons_of_mem _
    (mem_cons_of_mem _ (mem_cons_of_mem _ mem_cons_self)))) false
  have hone := hv.leaf (i := false) (by decide)
  rw [hone] at hanswer
  have htwo := congrArg (Option.map Prod.fst) hanswer
  change _ = some (1 : Int) at htwo
  revert htwo
  decide

end Runs

end OpenJfx.Controls.TreeItems
