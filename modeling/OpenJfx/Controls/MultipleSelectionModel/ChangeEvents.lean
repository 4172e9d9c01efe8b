/-
  OpenJfx.Controls.MultipleSelectionModel.ChangeEvents

  The changes one call fires, replayed on the old list of selected indices.  Methods that clear
  the whole selection first are right; the others mix up rows and positions, report a selected row
  as added again, or added rows as one range, and `indexOf` may itself be wrong.
-/

import OpenJfx.Controls.MultipleSelectionModel.Replay

namespace OpenJfx.Controls

open List JavaBitSet IndexChange Int Ascending

variable {b : JavaBitSet} {row k : Nat} {rows : List Int}

/-! ## Calls -/

variable {index : Nat}

namespace MultipleSelectionModelBase

variable {T : Type} {s : MultipleSelectionModelBase T}

/-- The selected indices in ascending order. -/
def list (s : MultipleSelectionModelBase T) : List Int := indexList s.selectedIndices.rows

/-- The changes fired from `s` to `s'` turn the old list into the new one. -/
def Faithful (s s' : MultipleSelectionModelBase T) : Prop :=
  replayChanges s'.list (s'.fired.drop s.fired.length) s.list = some s'.list

/-- Multiple mode, no atomic block, rows inside the data. -/
structure Ready (s : MultipleSelectionModelBase T) : Prop where
  mode : s.selectionMode = .multiple
  calm : s.atomicityCount = 0
  inside : s.Inside

theorem faithful_iff_of_fired {s' : MultipleSelectionModelBase T} {changes : List IndexChange}
    (h : s'.fired = s.fired ++ changes) :
    Faithful s s' ↔ replayChanges s'.list changes s.list = some s'.list := by
  rw [Faithful, h, drop_left]

theorem faithful_refl (s : MultipleSelectionModelBase T) : Faithful s s := by
  rw [@faithful_iff_of_fired _ _ _ [] (by simp)]
  rfl

theorem Ready.viewList (h : s.Ready) : viewList s.getItemCount s.selectedIndices = s.list :=
  viewList_eq h.inside

theorem rows_of_empty (h : ∀ i, b.bit i = false) : b.rows = [] :=
  rows_eq List.Pairwise.nil fun i => by simp [h i]

theorem replayChanges_singleton (final cur : List Int) (c : IndexChange) :
    replayChanges final [c] cur = c.replay final cur := by
  simp [replayChanges]

theorem replayChanges_one (final cur : List Int) (c : IndexSubChange) :
    replayChanges final [.addRemove [c]] cur = c.replay final cur := by
  simp [replayChanges_singleton, replay]

/-! `clearSelection()` and `selectAll()`. -/

theorem clearSelection_fields (h : s.atomicityCount = 0) : s.clearSelection.fired =
        s.fired ++ [.genericAddRemove 0 0 (OpenJfx.Controls.viewList s.getItemCount s.selectedIndices)] ∧
      (∀ i, s.clearSelection.selectedIndices.bit i = false) ∧
      s.clearSelection.items = s.items := by
  have hcalm : ¬ s.isAtomic = true := by
    rw [isAtomic, h]
    exact Bool.false_ne_true
  unfold clearSelection
  dsimp only
  split
  · next hatomic => exact absurd hatomic hcalm
  · rw [setSelectedIndex_eq]
    exact ⟨rfl, fun _ => rfl, rfl⟩

theorem Ready.clearSelection_faithful (h : s.Ready) : Faithful s s.clearSelection := by
  obtain ⟨hfired, hbits, -⟩ := clearSelection_fields h.calm
  rw [faithful_iff_of_fired hfired, h.viewList]
  refine (replayChanges_one _ _ _).trans ?_
  rw [replay_clear _ _ _ rfl, list, rows_of_empty hbits]
  rfl

theorem Ready.selectAll_faithful (h : s.Ready) (focusedIndex : Int) :
    Faithful s (s.selectAll focusedIndex) := by
  have hmode : ¬ s.selectionMode = .single := by rw [h.mode]; exact SelectionMode.noConfusion
  rw [selectAll, if_neg hmode]
  split
  · exact faithful_refl s
  · next hcnt =>
    obtain ⟨hfired, hbits, -⟩ := clearSelection_fields h.calm
    dsimp only
    rw [setSelectedIndex_eq]
    set b := s.clearSelection.selectedIndices.setBelow s.getItemCount with hb
    have hrows : b.rows = List.range s.getItemCount := by
      refine rows_eq pairwise_lt_range fun i => ?_
      rw [hb, bit_setBelow, hbits, Bool.or_false, decide_eq_true_eq, mem_range]
    rw [@faithful_iff_of_fired _ _ _ [.genericAddRemove 0 0
      (OpenJfx.Controls.viewList s.getItemCount s.selectedIndices),
      .simpleAdd 0 s.getItemCount] (by
        show s.clearSelection.fired ++ _ = _
        rw [hfired, append_assoc]
        rfl), h.viewList]
    show replayChanges (indexList b.rows) _ s.list = some (indexList b.rows)
    rw [hrows, replayChanges]
    simp only [foldlM_cons, foldlM_nil, genericAddRemove, simpleAdd, replay, replay_clear _ _ _ rfl]
    have hlen : (indexList (List.range s.getItemCount)).length = s.getItemCount := by
      simp [indexList]
    have htake : (indexList (List.range s.getItemCount)).take s.getItemCount =
        indexList (List.range s.getItemCount) :=
      take_of_length_le hlen.le
    simp [IndexSubChange.replay, htake, hlen]

/-! `clearSelection(int)`. -/

/-- At its own index exactly if all rows up to it are selected. -/
theorem getElem?_self_iff : b.rows[index]? = some index ↔ ∀ j, j ≤ index → b.bit j = true := by
  set F := b.rows.filter fun r => r < index + 1 with hF
  have hFsorted : F.Pairwise (· < ·) := b.rows_sorted.filter _
  have htake : F = b.rows.take F.length := by
    rw [hF, ← countP_eq_length_filter]
    exact filter_lt_eq_take b.rows_sorted (index + 1)
  have hmem : ∀ j, j ∈ F ↔ b.bit j = true ∧ j < index + 1 := fun j => by
    rw [hF, mem_filter, mem_rows, decide_eq_true_eq]
  constructor
  · intro hrow j hj
    have hlen : F.length = index + 1 := by
      rw [hF, ← countP_eq_length_filter]
      exact countP_le_getElem b.rows_sorted hrow
    have hsub : F ⊆ List.range (index + 1) := fun r hr => mem_range.2 ((hmem r).1 hr).2
    have hperm : F.Perm (List.range (index + 1)) :=
      (subperm_of_subset (hFsorted.imp fun h => Nat.ne_of_lt h) hsub).perm_of_length_le
        (by rw [length_range, hlen])
    exact ((hmem j).1 (hperm.mem_iff.2 (mem_range.2 (by omega)))).1
  · intro hall
    have hrng : F = List.range (index + 1) := by
      refine List.Perm.eq_of_pairwise (fun _ _ _ _ h h' => absurd h (Nat.lt_asymm h')) hFsorted
        pairwise_lt_range ?_
      rw [perm_ext_iff_of_nodup (hFsorted.imp fun h => Nat.ne_of_lt h) nodup_range]
      intro j
      rw [hmem, mem_range]
      exact ⟨fun h => h.2, fun h => ⟨hall j (by omega), h⟩⟩
    have hget : (b.rows.take F.length)[index]? = some index := by
      rw [← htake, hrng]
      simp
    rw [hrng, length_range, getElem?_take_of_lt (by omega)] at hget
    exact hget

theorem rows_clear (hk : b.rows[k]? = some index) :
    (b.clear index).rows = b.rows.take k ++ b.rows.drop (k + 1) := by
  obtain ⟨hlt, hget⟩ := List.getElem?_eq_some_iff.1 hk
  have hspl : b.rows = b.rows.take k ++ index :: b.rows.drop (k + 1) := by
    rw [← hget, getElem_cons_drop, take_append_drop]
  have hsub : (b.rows.take k ++ b.rows.drop (k + 1)).Sublist b.rows := by
    conv_rhs => rw [hspl]
    exact List.Sublist.append_left (sublist_cons_self _ _) _
  have hnd := b.rows_nodup
  rw [hspl, nodup_middle, nodup_cons] at hnd
  refine rows_eq (b.rows_sorted.sublist hsub) fun i => ?_
  rw [bit_clear, Bool.and_eq_true, ← mem_rows (b := b)]
  constructor
  · intro hi
    refine ⟨?_, hsub.subset hi⟩
    have hne : i ≠ index := fun h => hnd.1 (h ▸ hi)
    simp [hne]
  · rintro ⟨hne, hi⟩
    rw [hspl, mem_append, mem_cons] at hi
    rw [mem_append]
    rcases hi with hi | rfl | hi
    · exact .inl hi
    · simp at hne
    · exact .inr hi

theorem replay_removed_iff :
    (⟨index, index, [(index : Int)]⟩ : IndexSubChange).replay (indexList (b.clear index).rows)
        (indexList b.rows) = some (indexList (b.clear index).rows) ↔
      ∀ j, j ≤ index → b.bit j = true := by
  rw [← getElem?_self_iff, IndexSubChange.replay]
  simp only [indexList, toNat_natCast, length_map, length_singleton, Int.sub_self,
    toNat_zero, take_zero, nil_append, ← map_drop, ← map_take,
    ← map_append]
  constructor
  · intro h
    split at h
    · next hcond =>
      have hone := congrArg List.head? hcond.2.2.2.2
      rw [head?_map, head?_take, if_neg (by decide), head?_drop] at hone
      cases hrow : b.rows[index]? with
      | none =>
        rw [hrow] at hone
        cases hone
      | some r =>
        rw [hrow] at hone
        have hr : (r : Int) = index := Option.some.inj hone
        rw [show r = index by omega]
    · cases h
  · intro hrow
    obtain ⟨hlt, hget⟩ := List.getElem?_eq_some_iff.1 hrow
    have hclear := rows_clear hrow
    have hlen := congrArg List.length hclear
    rw [length_append, length_take, length_drop] at hlen
    have hone : List.map Int.ofNat ((b.rows.drop index).take 1) = [(index : Int)] := by
      rw [drop_eq_getElem_cons hlt, hget]
      rfl
    rw [if_pos ⟨by omega, by omega, by omega, by omega, hone⟩, hclear]

theorem Ready.clearSelectionAt_faithful_iff (h : s.Ready) (index : Int) :
    Faithful s (s.clearSelectionAt index) ↔
      ∀ j : Nat, (j : Int) ≤ index → s.selectedIndices.bit j = true := by
  rw [clearSelectionAt]
  by_cases hneg : index < 0
  · rw [if_pos hneg]
    exact iff_of_true (faithful_refl s) fun j hj => by omega
  obtain ⟨k, rfl⟩ : ∃ k : Nat, index = k := ⟨index.toNat, by omega⟩
  have hcalm : ∀ u : MultipleSelectionModelBase T, u.atomicityCount = 0 →
      (if u.isAtomic then u else u.callObservers (.genericAddRemove k k [(k : Int)])) =
        u.callObservers (.genericAddRemove k k [(k : Int)]) := by
    intro u hu
    rw [if_neg (by rw [isAtomic, hu]; exact Bool.false_ne_true)]
  simp only [Int.ofNat_le]
  rw [if_neg hneg, toNat_natCast, ← replay_removed_iff]
  split
  · next hlast =>
    -- the last row: `clearSelection` fires an empty change before
    rw [Bool.and_eq_true] at hlast
    set t : MultipleSelectionModelBase T :=
      { s with selectedIndices := s.selectedIndices.clear k } with ht
    have hemp : ∀ i, t.selectedIndices.bit i = false := isEmpty_iff.1 hlast.2
    obtain ⟨hfired, hbits, -⟩ := clearSelection_fields (s := t) h.calm
    have hrows : t.selectedIndices.rows = [] := rows_of_empty hemp
    have hview : OpenJfx.Controls.viewList t.getItemCount t.selectedIndices = [] := by
      rw [viewList_eq (fun r hr => by rw [hemp] at hr; cases hr), hrows]
      rfl
    have hcnt : t.clearSelection.atomicityCount = 0 := by
      obtain ⟨_, _, _, heq⟩ := clearSelection_eq t
      rw [heq]
      exact h.calm
    rw [hcalm _ hcnt, @faithful_iff_of_fired _ _ _ [.genericAddRemove 0 0 [],
      .genericAddRemove k k [(k : Int)]] (by
        show t.clearSelection.fired ++ _ = _
        rw [hfired, hview, append_assoc]
        rfl)]
    have hlist : (t.clearSelection.callObservers (.genericAddRemove k k [(k : Int)])).list =
        indexList t.selectedIndices.rows := by
      show indexList t.clearSelection.selectedIndices.rows = _
      rw [rows_of_empty hbits, hrows]
    rw [hlist, replayChanges]
    simp only [foldlM_cons, foldlM_nil, genericAddRemove, replay,
      replay_nothing, Option.bind_eq_bind, Option.bind_some, bind_pure]
    rfl
  · rw [hcalm { s with selectedIndices := s.selectedIndices.clear k } h.calm,
      faithful_iff_of_fired rfl]
    exact Iff.of_eq (congrArg (· = _) (replayChanges_one _ _ _))

/-! `select(int)`. -/

theorem notifyAdded_fired (h : s.atomicityCount = 0) (row : Int) :
    ((s.markRow row).notifyAdded row).fired = s.fired ++
      [.simpleAdd (max 0 (s.cursor.indexOf s.getItemCount (s.bitsWith row) row).1)
        (max 0 (s.cursor.indexOf s.getItemCount (s.bitsWith row) row).1 + 1)] := by
  have hcalm : ¬ (s.markRow row).isAtomic = true := by
    rw [markRow_eq, isAtomic, h]
    exact Bool.false_ne_true
  rw [notifyAdded, if_neg hcalm, markRow_eq]
  rfl

theorem Ready.rows_bitsWith (h : s.Ready) (hbit : s.selectedIndices.bit row = false) :
    s.selectedIndices.rows = (s.bitsWith row).rows.filter fun x => x ∉ [row] := by
  have hmode : s.selectionMode ≠ .single := by rw [h.mode]; exact SelectionMode.noConfusion
  refine rows_eq ((s.bitsWith row).rows_sorted.filter _) fun i => ?_
  rw [mem_filter, mem_rows, bit_bitsWith, toNat_natCast, decide_eq_true_eq, mem_singleton]
  constructor
  · rintro ⟨hi | hi, hne⟩
    · exact absurd hi hne
    · exact hi.1
  · intro hi
    refine ⟨.inr ⟨hi, .inr hmode⟩, ?_⟩
    rintro rfl
    rw [hbit] at hi
    cases hi

theorem Ready.bitsWith_inside (h : s.Ready) (hrow : row < s.getItemCount) :
    ∀ r, (s.bitsWith row).bit r = true → r < s.getItemCount := by
  intro r hr
  rcases (bit_bitsWith (row : Int) r).1 hr with rfl | hr
  · exact hrow
  · exact h.inside r hr.1

/-- When `select` of a row of the data reports what it does. -/
def SelectReports (s : MultipleSelectionModelBase T) (row : Nat) : Prop :=
  s.selectedIndices.bit row = false ∧
    (s.cursor.start s.getItemCount (s.bitsWith row) = 0 ∨
      (s.cursor.start s.getItemCount (s.bitsWith row) = 1 ∧
        ∀ j, j < row → s.selectedIndices.bit j = false))

variable (equals : T → Option T → Bool)

/-- A row is the first one exactly when no row below it is selected. -/
theorem index_eq_zero_iff (hk : b.rows[k]? = some row) :
    k = 0 ↔ ∀ j, j < row → b.bit j = false := by
  have hcnt := countP_lt_getElem b.rows_sorted hk
  rw [← hcnt, countP_eq_zero]
  constructor
  · intro h j hj
    by_contra hne
    exact h j (mem_rows.2 (Bool.eq_true_of_not_eq_false hne)) (decide_eq_true hj)
  · intro h r hr hlt
    have hbit := mem_rows.1 hr
    rw [h r (of_decide_eq_true hlt)] at hbit
    cases hbit

theorem take_one_iff (hk : b.rows[k]? = some row) (F : Nat) :
    (b.rows.drop F).take 1 = [row] ↔ F = k := by
  constructor
  · intro h
    have hhead := congrArg List.head? h
    rw [head?_take, if_neg (by decide), head?_drop] at hhead
    obtain ⟨hlt, hget⟩ := List.getElem?_eq_some_iff.1 hk
    obtain ⟨hlt', hget'⟩ := List.getElem?_eq_some_iff.1 hhead
    exact (b.rows_nodup.getElem_inj_iff).1 (hget'.trans hget.symm)
  · rintro rfl
    obtain ⟨hlt, hget⟩ := List.getElem?_eq_some_iff.1 hk
    rw [drop_eq_getElem_cons hlt, hget]
    rfl

theorem replay_add_ne (L : List Int) (f : Int) :
    (⟨f, f + 1, []⟩ : IndexSubChange).replay L L ≠ some L := by
  intro h
  rw [IndexSubChange.replay] at h
  split at h
  · next hcond =>
    have hlen := congrArg List.length (Option.some.inj h)
    dsimp only at hcond hlen
    simp only [length_append, length_take, length_drop, length_nil] at hlen
    omega
  · cases h

theorem Ready.select_faithful_iff (h : s.Ready) (hrow : row < s.getItemCount) :
    Faithful s (s.select equals row) ↔ s.SelectReports row := by
  have hmode : s.selectionMode ≠ .single := by rw [h.mode]; exact SelectionMode.noConfusion
  have heq := @select_eq _ s equals (row : Int) (by omega) (by omega)
  have hfired : (s.select equals row).fired = s.fired ++
      [.simpleAdd (max 0 (s.cursor.indexOf s.getItemCount (s.bitsWith row) row).1)
        (max 0 (s.cursor.indexOf s.getItemCount (s.bitsWith row) row).1 + 1)] := by
    rw [heq]
    exact notifyAdded_fired h.calm row
  have hlist : (s.select equals row).list = indexList (s.bitsWith row).rows := by
    rw [heq]
    rfl
  rw [faithful_iff_of_fired hfired, hlist]
  refine (Iff.of_eq (congrArg (· = _) (replayChanges_one _ _ _))).trans ?_
  have hmem : row ∈ (s.bitsWith row).rows := by
    rw [mem_rows, bit_bitsWith]
    exact .inl rfl
  obtain ⟨k, hk⟩ := getElem?_of_mem hmem
  cases hbit : s.selectedIndices.bit row with
  | true =>
    -- the row was selected before: the replayed list is too long
    have hsame : s.bitsWith row = s.selectedIndices := by simp [bitsWith, hbit]
    rw [hsame]
    refine iff_of_false (replay_add_ne _ _) fun hr => ?_
    have hunselected := hr.1
    rw [hbit] at hunselected
    cases hunselected
  | false =>
    have hinsert := replay_insert_iff (s.bitsWith row).rows_sorted (A := [row])
      (pairwise_singleton _ _) (fun x hx => by rw [mem_singleton.1 hx]; exact hmem)
      (h.rows_bitsWith hbit) (cons_ne_nil _ _)
      (max 0 (s.cursor.indexOf s.getItemCount (s.bitsWith row) row).1)
    have hidx : 0 ≤ max 0 (s.cursor.indexOf s.getItemCount (s.bitsWith row) row).1 := by omega
    have hzero : k = 0 ↔ ∀ j, j < row → s.selectedIndices.bit j = false := by
      rw [index_eq_zero_iff hk]
      refine forall_congr' fun j => forall_congr' fun hj => ?_
      rw [← Bool.not_eq_true, ← Bool.not_eq_true, bit_bitsWith, toNat_natCast]
      refine not_congr ⟨fun hor => ?_, fun hj' => .inr ⟨hj', .inr hmode⟩⟩
      rcases hor with rfl | hj'
      · omega
      · exact hj'.1
    refine hinsert.trans ?_
    rw [length_singleton, take_one_iff hk, SelectReports, ← hzero,
      ← Cursor.max_indexOf_eq_iff (h.bitsWith_inside hrow) hk]
    constructor
    · intro hF
      exact ⟨hbit, by omega⟩
    · intro hF
      exact ⟨hidx, by omega⟩

/-! `selectIndices`. -/

/-- The bits after the rows of a list have been selected. -/
def bitsWithRows (b : JavaBitSet) (rows : List Int) : JavaBitSet :=
  rows.foldl (fun b row => if b.bit row.toNat then b else b.set row.toNat) b

section

variable (h0 : ∀ r ∈ rows, 0 ≤ r)
include h0

theorem bit_bitsWithRows (b : JavaBitSet) (j : Nat) :
    (bitsWithRows b rows).bit j = true ↔ b.bit j = true ∨ (j : Int) ∈ rows := by
  induction rows generalizing b with
  | nil => simp [bitsWithRows]
  | cons row rows ih =>
    obtain ⟨k, rfl⟩ : ∃ k : Nat, row = k := ⟨row.toNat, by have := h0 row mem_cons_self; omega⟩
    have hrest := ih (fun r hr => h0 r (.tail _ hr))
    show (bitsWithRows _ rows).bit j = true ↔ _
    rw [hrest, mem_cons, natCast_inj]
    dsimp only
    rw [toNat_natCast]
    by_cases hbit : b.bit k = true
    · rw [if_pos hbit]
      refine ⟨fun h => h.imp_right .inr, ?_⟩
      rintro (h | rfl | h)
      · exact .inl h
      · exact .inl hbit
      · exact .inr h
    · rw [if_neg hbit, bit_set, Bool.or_eq_true, decide_eq_true_eq]
      tauto

theorem foldl_selectRow (noted : List Int) (s : MultipleSelectionModelBase T) : ∃ added : List Nat,
      rows.foldl (fun x row => selectRow row x) (noted, s) =
          (noted ++ indexList added,
            { s with selectedIndices := bitsWithRows s.selectedIndices rows }) ∧
        added.Nodup ∧
        ∀ r : Nat, r ∈ added ↔ (r : Int) ∈ rows ∧ s.selectedIndices.bit r = false := by
  induction rows generalizing noted s with
  | nil => exact ⟨[], by simp [indexList, bitsWithRows], nodup_nil, by simp⟩
  | cons row rows ih =>
    obtain ⟨k, rfl⟩ : ∃ k : Nat, row = k := ⟨row.toNat, by have := h0 row mem_cons_self; omega⟩
    have hrest := ih fun r hr => h0 r (.tail _ hr)
    rw [foldl_cons, selectRow]
    dsimp only
    rw [toNat_natCast]
    by_cases hbit : s.selectedIndices.bit k = true
    · obtain ⟨added, heq, hnd, hmem⟩ := hrest noted s
      refine ⟨added, ?_, hnd, fun r => ?_⟩
      · rw [if_pos hbit, heq, bitsWithRows, bitsWithRows, foldl_cons, toNat_natCast, if_pos hbit]
      · rw [hmem, mem_cons, natCast_inj]
        refine and_congr_left fun hr => ⟨.inr, ?_⟩
        rintro (rfl | h)
        · rw [hbit] at hr
          cases hr
        · exact h
    · obtain ⟨added, heq, hnd, hmem⟩ := hrest (noted ++ [(k : Int)]) (s.setBit k)
      have hbit' : s.selectedIndices.bit k = false := Bool.eq_false_of_not_eq_true hbit
      have hset : ∀ r, (s.setBit k).selectedIndices.bit r = false ↔
          r ≠ k ∧ s.selectedIndices.bit r = false := by
        intro r
        show (s.selectedIndices.set (k : Int).toNat).bit r = false ↔ _
        rw [toNat_natCast, bit_set, Bool.or_eq_false_iff, decide_eq_false_iff_not]
      refine ⟨k :: added, ?_, nodup_cons.2 ⟨fun hk => ?_, hnd⟩, fun r => ?_⟩
      · rw [if_neg hbit, heq]
        have hbits : bitsWithRows s.selectedIndices ((k : Int) :: rows) =
            bitsWithRows (s.setBit k).selectedIndices rows := by
          rw [bitsWithRows, bitsWithRows, foldl_cons, toNat_natCast, if_neg hbit]
          rfl
        rw [hbits, append_assoc]
        rfl
      · exact ((hset k).1 ((hmem k).1 hk).2).1 rfl
      · rw [mem_cons, hmem, hset, mem_cons, natCast_inj]
        constructor
        · rintro (rfl | ⟨hr, -, hb⟩)
          · exact ⟨.inl rfl, hbit'⟩
          · exact ⟨.inr hr, hb⟩
        · rintro ⟨hr, hb⟩
          by_cases hk : r = k
          · exact .inl hk
          · exact .inr ⟨hr.resolve_left hk, hk, hb⟩

omit h0 in
/-- The rows that become selected, in ascending order. -/
def addedRows (s : MultipleSelectionModelBase T) (rows : List Int) : List Nat :=
  (bitsWithRows s.selectedIndices rows).rows.filter fun r => !s.selectedIndices.bit r

theorem mem_addedRows (r : Nat) :
    r ∈ s.addedRows rows ↔ (r : Int) ∈ rows ∧ s.selectedIndices.bit r = false := by
  rw [addedRows, mem_filter, mem_rows, bit_bitsWithRows h0, Bool.not_eq_true']
  constructor
  · rintro ⟨h | h, hb⟩
    · rw [h] at hb
      cases hb
    · exact ⟨h, hb⟩
  · rintro ⟨h, hb⟩
    exact ⟨.inr h, hb⟩

theorem mergeSort_eq_addedRows {added : List Nat} (hnd : added.Nodup)
    (hmem : ∀ r : Nat, r ∈ added ↔ (r : Int) ∈ rows ∧ s.selectedIndices.bit r = false) :
    (indexList added).mergeSort (· ≤ ·) = indexList (s.addedRows rows) := by
  have hsorted : (s.addedRows rows).Pairwise (· < ·) := (rows_sorted _).filter _
  have hperm : added.Perm (s.addedRows rows) := by
    rw [perm_ext_iff_of_nodup hnd (hsorted.imp fun h => Nat.ne_of_lt h)]
    intro r
    rw [hmem, mem_addedRows h0]
  have hle : (indexList (s.addedRows rows)).Pairwise (· ≤ ·) := by
    rw [indexList, pairwise_map]
    exact hsorted.imp fun h => Int.ofNat_le.2 (Nat.le_of_lt h)
  have hmerge : ((indexList added).mergeSort (· ≤ ·)).Pairwise (· ≤ ·) := by
    have hpairwise := @pairwise_mergeSort _ (fun a b : Int => decide (a ≤ b))
      (fun a b c hab hbc => decide_eq_true ((of_decide_eq_true hab).trans (of_decide_eq_true hbc)))
      (fun a b => by simpa using Int.le_total a b) (indexList added)
    exact hpairwise.imp fun h => of_decide_eq_true h
  refine List.Perm.eq_of_pairwise (fun _ _ _ _ h h' => Int.le_antisymm h h') hmerge hle ?_
  exact (List.mergeSort_perm _ _).trans (hperm.map _)

theorem rows_bitsWithRows : s.selectedIndices.rows =
      (bitsWithRows s.selectedIndices rows).rows.filter fun x => x ∉ s.addedRows rows := by
  refine rows_eq ((rows_sorted _).filter _) fun i => ?_
  rw [mem_filter, mem_rows, decide_eq_true_eq, mem_addedRows h0,
    bit_bitsWithRows h0, not_and, Bool.not_eq_false]
  constructor
  · rintro ⟨h | h, hnot⟩
    · exact h
    · exact hnot h
  · intro h
    exact ⟨.inl h, fun _ => h⟩

omit h0 in
/-- `rows` are those that are rows of the data: none is new, or the search for the first new row ends
    well at its second run, and no selected row is between two new ones. -/
def SelectIndicesReports (s : MultipleSelectionModelBase T) (rows : List Int) : Prop :=
  (∀ x : Nat, (x : Int) ∈ rows → s.selectedIndices.bit x = true) ∨
    ((∀ x : Nat, (x : Int) ∈ rows → s.selectedIndices.bit x = false →
        (∀ y : Nat, (y : Int) ∈ rows → s.selectedIndices.bit y = false → x ≤ y) →
        s.cursor.Settles s.getItemCount (bitsWithRows s.selectedIndices rows)
          ((bitsWithRows s.selectedIndices rows).rows.countP (· < x))) ∧
      ∀ x y q : Nat, (x : Int) ∈ rows → s.selectedIndices.bit x = false → (y : Int) ∈ rows →
        s.selectedIndices.bit y = false → s.selectedIndices.bit q = true → ¬ (x < q ∧ q < y))

theorem replay_range_iff {a : Nat} {A : List Nat} (hA : s.addedRows rows = a :: A) {k : Nat}
    (hk : (bitsWithRows s.selectedIndices rows).rows[k]? = some a) (i : Int) :
    (⟨i, i + (s.addedRows rows).length, []⟩ : IndexSubChange).replay
        (indexList (bitsWithRows s.selectedIndices rows).rows) s.list =
        some (indexList (bitsWithRows s.selectedIndices rows).rows) ↔
      i = k ∧
        ∀ x ∈ s.addedRows rows, ∀ y ∈ s.addedRows rows, ∀ q ∈ s.selectedIndices.rows,
          ¬ (x < q ∧ q < y) := by
  set b := bitsWithRows s.selectedIndices rows with hb
  have hsub : ∀ x ∈ s.addedRows rows, x ∈ b.rows := fun x hx => (mem_filter.1 hx).1
  have hsorted : (s.addedRows rows).Pairwise (· < ·) := b.rows_sorted.filter _
  refine (replay_insert_iff b.rows_sorted hsorted hsub (rows_bitsWithRows h0)
    (by rw [hA]; exact cons_ne_nil _ _) _).trans ?_
  rw [← range_iff b.rows_sorted hsorted hsub (rows_bitsWithRows h0) hA hk]
  -- the range starts at the first added row
  constructor
  · rintro ⟨hnn, hrng⟩
    have hone : (b.rows.drop i.toNat).take 1 = [a] := by
      have hhead := congrArg (List.take 1) hrng
      rw [take_take, hA] at hhead
      rw [show min 1 (a :: A).length = 1 by simp] at hhead
      exact hhead
    have hidx := (take_one_iff hk _).1 hone
    rw [hidx] at hrng
    exact ⟨by omega, hrng⟩
  · rintro ⟨hidx, hrng⟩
    rw [hidx, toNat_natCast]
    exact ⟨by omega, hrng⟩

/-- The first of the added rows. -/
theorem addedRows_head_iff {a : Nat} {A : List Nat} (hA : s.addedRows rows = a :: A) (x : Nat) :
    ((x : Int) ∈ rows ∧ s.selectedIndices.bit x = false ∧
      ∀ y : Nat, (y : Int) ∈ rows → s.selectedIndices.bit y = false → x ≤ y) ↔ x = a := by
  have hsorted : (s.addedRows rows).Pairwise (· < ·) :=
    (bitsWithRows s.selectedIndices rows).rows_sorted.filter _
  have hmem := fun x => mem_addedRows (s := s) h0 x
  rw [hA] at hsorted hmem
  have hle : ∀ y ∈ a :: A, a ≤ y := by
    intro y hy
    rcases mem_cons.1 hy with rfl | hy
    · exact Nat.le_refl y
    · exact Nat.le_of_lt (rel_of_pairwise_cons hsorted hy)
  constructor
  · rintro ⟨hx, hx', hmin⟩
    obtain ⟨ha, ha'⟩ := (hmem a).1 mem_cons_self
    exact Nat.le_antisymm (hmin a ha ha') (hle x ((hmem x).2 ⟨hx, hx'⟩))
  · rintro rfl
    obtain ⟨ha, ha'⟩ := (hmem x).1 mem_cons_self
    exact ⟨ha, ha', fun y hy hy' => hle y ((hmem y).2 ⟨hy, hy'⟩)⟩

end

theorem of_mem_filter_inRange {r : Int} (hr : r ∈ rows.filter s.inRange) :
    0 ≤ r ∧ r < s.getItemCount :=
  of_decide_eq_true (mem_filter.1 hr).2

theorem selectIndicesMultiple_eq (s : MultipleSelectionModelBase T) (row : Int) (rows : List Int) :
    ∃ selectedIndex selectedItem, s.selectIndicesMultiple row rows =
      fireRangeChange { s with
        selectedIndices := bitsWithRows s.selectedIndices ((row :: rows).filter s.inRange)
        selectedIndex := selectedIndex
        selectedItem := selectedItem } (indexList (s.addedRows ((row :: rows).filter s.inRange))) := by
  have h0 : ∀ r ∈ (row :: rows).filter s.inRange, 0 ≤ r := fun r hr => (of_mem_filter_inRange hr).1
  obtain ⟨added, hfold, hnd, hmem⟩ := foldl_selectRow h0 [] s
  have hsort := mergeSort_eq_addedRows h0 hnd hmem
  rw [selectIndicesMultiple]
  dsimp only
  rw [hfold]
  dsimp only
  rw [nil_append, hsort]
  cases ((row :: rows).filter s.inRange).getLast? with
  | none => exact ⟨_, _, rfl⟩
  | some lastIndex =>
    dsimp only
    rw [setSelectedIndex_eq]
    exact ⟨_, _, rfl⟩

theorem Ready.selectIndicesMultiple_faithful_iff (h : s.Ready) (row : Int) (rows : List Int) :
    Faithful s (s.selectIndicesMultiple row rows) ↔
      s.SelectIndicesReports ((row :: rows).filter s.inRange) := by
  obtain ⟨selectedIndex, selectedItem, heq⟩ := selectIndicesMultiple_eq s row rows
  rw [heq]
  set valid := (row :: rows).filter s.inRange with hvalid
  have h0 : ∀ r ∈ valid, 0 ≤ r := fun r hr => (of_mem_filter_inRange hr).1
  set b := bitsWithRows s.selectedIndices valid with hb
  have hbelow : ∀ r, b.bit r = true → r < s.getItemCount := by
    intro r hr
    rcases (bit_bitsWithRows h0 s.selectedIndices r).1 hr with hr | hr
    · exact h.inside r hr
    · exact Int.ofNat_lt.1 (of_mem_filter_inRange hr).2
  cases hA : s.addedRows valid with
  | nil =>
    -- nothing is added
    have hall : ∀ x : Nat, (x : Int) ∈ valid → s.selectedIndices.bit x = true := by
      intro x hx
      by_contra hne
      have hadded := (mem_addedRows (s := s) h0 x).2 ⟨hx, Bool.eq_false_of_not_eq_true hne⟩
      rw [hA] at hadded
      cases hadded
    have hrows : b.rows = s.selectedIndices.rows := by
      refine rows_eq s.selectedIndices.rows_sorted fun i => ?_
      rw [hb, bit_bitsWithRows h0, mem_rows]
      exact ⟨.inl, fun hor => hor.elim id (hall i)⟩
    rw [faithful_iff_of_fired rfl]
    refine iff_of_true ?_ (.inl hall)
    show some s.list = some (indexList b.rows)
    rw [hrows]
    rfl
  | cons a A =>
    have ha : a ∈ s.addedRows valid := by rw [hA]; exact .head _
    obtain ⟨k, hk⟩ := getElem?_of_mem (mem_filter.1 ha).1
    set i := ((s.cursor.indexOf s.getItemCount b a).2.indexOf s.getItemCount b a).1 with hi
    rw [@faithful_iff_of_fired _ _ _ [.addRemove [⟨i, i + (s.addedRows valid).length, []⟩]] (by
          rw [hA]
          show s.fired ++ [addRemove [⟨_, _ + ((indexList (a :: A)).length : Int), []⟩]] = _
          rw [indexList, length_map]
          rfl)]
    refine (Iff.of_eq (congrArg (· = _) (replayChanges_one _ _ _))).trans ?_
    refine (replay_range_iff h0 hA hk i).trans ?_
    have hsome : ¬ ∀ x : Nat, (x : Int) ∈ valid → s.selectedIndices.bit x = true := by
      intro hall
      have hadded := (mem_addedRows (s := s) h0 a).1 ha
      have hbit := hall a hadded.1
      rw [hadded.2] at hbit
      cases hbit
    have hhead := addedRows_head_iff h0 hA
    have hcnt : b.rows.countP (· < a) = k := countP_lt_getElem b.rows_sorted hk
    have hsettles : (∀ x : Nat, (x : Int) ∈ valid → s.selectedIndices.bit x = false →
        (∀ y : Nat, (y : Int) ∈ valid → s.selectedIndices.bit y = false → x ≤ y) →
        s.cursor.Settles s.getItemCount b (b.rows.countP (· < x))) ↔ i = k := by
      rw [hi, Cursor.indexOf_again_iff hbelow hk, ← hcnt]
      constructor
      · intro hall
        obtain ⟨hx, hx', hmin⟩ := (hhead a).2 rfl
        exact hall a hx hx' hmin
      · intro hset x hx hx' hmin
        rw [(hhead x).1 ⟨hx, hx', hmin⟩]
        exact hset
    rw [SelectIndicesReports, or_iff_right hsome, hsettles]
    refine and_congr_right fun _ => ⟨fun hgap x y q hx hx' hy hy' hq => ?_, fun hgap x hx y hy q hq => ?_⟩
    · exact hgap x ((mem_addedRows h0 x).2 ⟨hx, hx'⟩) y ((mem_addedRows h0 y).2 ⟨hy, hy'⟩) q
        (mem_rows.2 hq)
    · obtain ⟨hx, hx'⟩ := (mem_addedRows h0 x).1 hx
      obtain ⟨hy, hy'⟩ := (mem_addedRows h0 y).1 hy
      exact hgap x y q hx hx' hy hy' (mem_rows.1 hq)

/-! `clearAndSelect`. -/

/-- Clearing the selection and selecting one row in an atomic block. -/
theorem selectOnly_eq (s : MultipleSelectionModelBase T) {row : Nat} (hrow : row < s.getItemCount) :
    ∃ b selectedItem, (s.startAtomic.clearSelection.select equals row).stopAtomic = { s with
      selectedIndices := b
      selectedIndex := row
      selectedItem := selectedItem } ∧ b.rows = [row] := by
  have hclear : s.startAtomic.clearSelection =
      { s.startAtomic with selectedIndices := s.selectedIndices.trimmed.clearAll } := by
    rw [clearSelection]
    dsimp only
    rw [if_pos (by
      show decide (0 < s.atomicityCount + 1) = true
      exact decide_eq_true (Nat.succ_pos _))]
    rfl
  set u := s.startAtomic.clearSelection with hu
  have hcnt : row < u.getItemCount := by
    rw [hclear]
    exact hrow
  have hmark : (u.markRow row).notifyAdded row = u.markRow row := by
    rw [notifyAdded, if_pos (by
      rw [markRow_eq, hclear]
      exact decide_eq_true (Nat.succ_pos _))]
  refine ⟨u.bitsWith row, (u.select equals row).selectedItem, ?_, ?_⟩
  · rw [select_eq equals (by omega) (by omega), hmark, markRow_eq, hclear]
    rfl
  · refine rows_eq (pairwise_singleton _ _) fun i => ?_
    rw [bit_bitsWith, toNat_natCast, mem_singleton, hclear]
    refine ⟨.inl, ?_⟩
    rintro (hi | ⟨hi, -⟩)
    · exact hi
    · cases hi

theorem isSelected_eq (row : Nat) : s.isSelected row = s.selectedIndices.bit row := by
  rw [isSelected]
  split
  · rw [toNat_natCast]
  · next hout =>
    by_contra hne
    have hbit : s.selectedIndices.bit row = true := Bool.eq_true_of_not_eq_false (Ne.symm hne)
    exact hout ⟨by omega, Int.ofNat_lt.2 (lt_length hbit)⟩

/-- When the search for the only selected row finds it. -/
def FindsOnly (s : MultipleSelectionModelBase T) (row : Nat) : Prop :=
  (s.cursor.lastGetIndex = -1 → s.cursor.lastGetValue < s.getItemCount →
    s.cursor.lastGetValue < row) ∧
  (s.cursor.lastGetIndex = 1 → 0 < s.cursor.lastGetValue → row < s.cursor.lastGetValue)

theorem start_only_iff (hrows : b.rows = [row]) :
    s.cursor.start s.getItemCount b = 0 ↔ s.FindsOnly row := by
  have hle : b.rows.countP (fun r : Nat => (r : Int) ≤ s.cursor.lastGetValue) = 0 ↔
      s.cursor.lastGetValue < row := by
    rw [hrows, countP_eq_zero]
    simp
  have hlt : b.rows.countP (fun r : Nat => (r : Int) < s.cursor.lastGetValue) = 0 ↔
      s.cursor.lastGetValue ≤ row := by
    rw [hrows, countP_eq_zero]
    simp
  have hone : b.rows.countP (fun r : Nat => (r : Int) < s.cursor.lastGetValue) ≤ 1 := by
    have hlen := countP_le_length (p := fun r : Nat => decide ((r : Int) < s.cursor.lastGetValue))
      (l := b.rows)
    rw [hrows] at hlen ⊢
    exact hlen
  have hcard : b.cardinality = 1 := by rw [cardinality, hrows]; rfl
  rw [Cursor.start, hcard, FindsOnly]
  split
  · rw [hle]
    omega
  · split
    · split <;> omega
    · omega

theorem rows_split (hk : b.rows[k]? = some row) :
    b.rows = (b.clear row).rows.take k ++ row :: (b.clear row).rows.drop k ∧
      k ≤ (b.clear row).rows.length := by
  obtain ⟨hlt, hget⟩ := List.getElem?_eq_some_iff.1 hk
  have htake : (b.rows.take k).length = k := length_take_of_le (by omega)
  rw [rows_clear hk, take_left' htake, drop_left' htake, length_append, htake]
  refine ⟨?_, by omega⟩
  rw [← hget, getElem_cons_drop, take_append_drop]

/-- The rows on both sides of a retained one, split at its row. -/
theorem replay_clearAndSelect_iff {P L : List Int} (hk : k ≤ P.length)
    (hrow : k ≤ row) (hL : L = P.take k ++ (row : Int) :: P.drop k) (hnot : (row : Int) ∉ P) :
    (buildClearAndSelectChange P row).replay [(row : Int)] L = some [(row : Int)] ↔
      k = min row P.length := by
  have hmid : (if (P.length : Int) ≤ row then P.length
      else if (row : Int) < 0 then 0 else (row : Int).toNat) = min row P.length := by
    split
    · omega
    · split <;> omega
  have hlen : (P.take k).length = k := length_take_of_le hk
  unfold buildClearAndSelectChange
  dsimp only
  rw [hmid]
  set mid := min row P.length with hmin
  have htake : (P.take mid).length = mid := length_take_of_le (by omega)
  by_cases hsame : k = mid
  · refine iff_of_true ?_ hsame
    have hfst : (⟨0, 0, P.take mid⟩ : IndexSubChange).replay [(row : Int)] L =
        some ((row : Int) :: P.drop mid) := by
      have hprefix : L.take mid = P.take mid := by
        rw [hL, ← hsame, take_left' hlen]
      have hrest : L.drop mid = (row : Int) :: P.drop mid := by
        rw [hL, ← hsame, drop_left' hlen]
      rw [IndexSubChange.replay]
      simp only [toNat_zero, drop_zero, htake, hprefix, Nat.zero_add, hrest]
      simp
    by_cases hemp : (P.drop mid).isEmpty
    · rw [if_pos hemp, replay, foldlM_cons, hfst, List.isEmpty_iff.1 hemp]
      rfl
    · rw [if_neg hemp, replay, foldlM_cons, hfst]
      show (⟨1, 1, P.drop mid⟩ : IndexSubChange).replay [(row : Int)] ((row : Int) :: P.drop mid) >>= _ = _
      have hdrop : (P.drop mid).take (P.length - mid) = P.drop mid :=
        take_of_length_le (by rw [length_drop])
      have hbounds : (1 : Int) ≤ ((P.length - mid : Nat) : Int) + 1 ∧
          P.length - mid + 1 ≤ 1 + (P.length - mid) := by omega
      simp [IndexSubChange.replay, hdrop, hbounds]
  · refine iff_of_false (fun h => ?_) hsame
    -- the first part of the removed rows would have to hold the retained row
    have hne : ¬ L.take mid = P.take mid := by
      intro heq
      have hget : (L.take mid)[k]? = some (row : Int) := by
        rw [getElem?_take_of_lt (by omega), hL, getElem?_append_right (by omega), hlen]
        simp
      rw [heq, getElem?_take_of_lt (by omega)] at hget
      exact hnot (mem_of_getElem? hget)
    have hnone : (⟨0, 0, P.take mid⟩ : IndexSubChange).replay [(row : Int)] L = none := by
      rw [IndexSubChange.replay, if_neg]
      rintro ⟨-, -, -, -, heq⟩
      dsimp only at heq
      rw [toNat_zero, drop_zero, htake] at heq
      exact hne heq
    split at h
    · rw [replay, foldlM_cons, hnone] at h
      cases h
    · rw [replay, foldlM_cons, hnone] at h
      cases h

/-- When `clearAndSelect` of a row of the data reports what it does. -/
def ClearAndSelectReports (s : MultipleSelectionModelBase T) (row : Nat) : Prop :=
  if s.selectedIndices.bit row then
    (∀ j, j < row → s.selectedIndices.bit j = true) ∨
      ∀ j, row < j → s.selectedIndices.bit j = false
  else s.FindsOnly row

theorem index_eq_min_iff (hk : b.rows[k]? = some row) : k = min row (b.clear row).rows.length ↔
      (∀ j, j < row → b.bit j = true) ∨ ∀ j, row < j → b.bit j = false := by
  obtain ⟨hlt, hget⟩ := List.getElem?_eq_some_iff.1 hk
  have hlen : (b.clear row).rows.length = b.rows.length - 1 := by
    rw [rows_clear hk, length_append, length_take, length_drop]
    omega
  have hbit : b.bit row = true := mem_rows.1 (mem_of_getElem? hk)
  have hbelow : k = row ↔ ∀ j, j < row → b.bit j = true := by
    constructor
    · intro h j hj
      rw [h] at hk
      exact getElem?_self_iff.1 hk j (Nat.le_of_lt hj)
    · intro h
      have hself := getElem?_self_iff.2 fun j hj => (Nat.lt_or_eq_of_le hj).elim (h j)
        fun hj => hj ▸ hbit
      obtain ⟨hlt', hget'⟩ := List.getElem?_eq_some_iff.1 hself
      exact (b.rows_nodup.getElem_inj_iff).1 (hget.trans hget'.symm)
  have habove : k = b.rows.length - 1 ↔ ∀ j, row < j → b.bit j = false := by
    have hall := countP_le_getElem b.rows_sorted hk
    have hcnt : k = b.rows.length - 1 ↔ b.rows.countP (fun r => r < row + 1) = b.rows.length := by
      rw [hall]
      omega
    rw [hcnt, countP_eq_length]
    constructor
    · intro h j hj
      by_contra hne
      have hle := of_decide_eq_true (h j (mem_rows.2 (Bool.eq_true_of_not_eq_false hne)))
      omega
    · intro h r hr
      by_contra hgt
      have hfalse := h r (by simpa [Nat.succ_le_iff] using hgt)
      rw [mem_rows.1 hr] at hfalse
      cases hfalse
  have hle : k ≤ row := by
    have hself := countP_lt_getElem b.rows_sorted hk
    have hnd : (b.rows.filter fun r => r < row).length ≤ row :=
      length_le (b.rows_sorted.filter _) fun r hr => of_decide_eq_true (mem_filter.1 hr).2
    rw [← countP_eq_length_filter, hself] at hnd
    exact hnd
  rw [← hbelow, ← habove, hlen]
  omega

theorem index_le_row (hk : b.rows[k]? = some row) : k ≤ row := by
  have hcnt := countP_lt_getElem b.rows_sorted hk
  have hlen : (b.rows.filter fun r => r < row).length ≤ row :=
    length_le (b.rows_sorted.filter _) fun r hr =>
      of_decide_eq_true (mem_filter.1 hr).2
  rw [← countP_eq_length_filter, hcnt] at hlen
  exact hlen

theorem replay_retained_iff (hbit : b.bit row = true) :
    (buildClearAndSelectChange (indexList (b.clear row).rows) row).replay [(row : Int)]
        (indexList b.rows) = some [(row : Int)] ↔
      (∀ j, j < row → b.bit j = true) ∨ ∀ j, row < j → b.bit j = false := by
  obtain ⟨k, hk⟩ := getElem?_of_mem (mem_rows.2 hbit)
  obtain ⟨hspl, hle⟩ := rows_split hk
  have hlist : indexList b.rows = (indexList (b.clear row).rows).take k ++
      (row : Int) :: (indexList (b.clear row).rows).drop k := by
    conv_lhs => rw [hspl, indexList, map_append, map_cons, map_take, map_drop]
    rfl
  have hnot : (row : Int) ∉ indexList (b.clear row).rows := by
    rw [indexList, mem_map]
    rintro ⟨r, hr, hr'⟩
    have hsame : r = row := Int.ofNat.inj hr'
    rw [mem_rows, bit_clear, hsame] at hr
    simp at hr
  have hlen : (indexList (b.clear row).rows).length = (b.clear row).rows.length := length_map _
  rw [replay_clearAndSelect_iff (by rw [hlen]; exact hle) (index_le_row hk) hlist hnot, hlen]
  exact index_eq_min_iff hk

theorem replay_replaced_iff (hrows : b.rows = [row]) (hrow : row < s.getItemCount) (L : List Int) :
    (⟨(s.cursor.indexOf s.getItemCount b row).1, (s.cursor.indexOf s.getItemCount b row).1 + 1,
        L⟩ : IndexSubChange).replay [(row : Int)] L = some [(row : Int)] ↔ s.FindsOnly row := by
  have hbelow : ∀ r, b.bit r = true → r < s.getItemCount := by
    intro r hr
    rw [← mem_rows, hrows, mem_singleton] at hr
    omega
  have hk : b.rows[0]? = some row := by rw [hrows]; rfl
  have hidx := Cursor.indexOf_eq_iff (c := s.cursor) hbelow hk
  rw [← start_only_iff hrows, ← hidx]
  constructor
  · intro h
    rw [IndexSubChange.replay] at h
    split at h
    · next hcond =>
      have hbounds := hcond
      dsimp only at hbounds
      simp only [length_singleton] at hbounds
      omega
    · cases h
  · intro h
    rw [h, IndexSubChange.replay]
    simp

theorem Ready.clearAndSelect_faithful_iff [DecidableEq T] (h : s.Ready)
    (hrow : row < s.getItemCount) :
    Faithful s (s.clearAndSelect equals row) ↔ s.ClearAndSelectReports row := by
  obtain ⟨b, selectedItem, heq, hrows⟩ := selectOnly_eq equals s hrow
  have hbelow : ∀ r, (s.selectedIndices.clear row).bit r = true → r < s.getItemCount := by
    intro r hr
    rw [bit_clear, Bool.and_eq_true] at hr
    exact h.inside r hr.2
  have hview : OpenJfx.Controls.viewList s.getItemCount (s.selectedIndices.clear row) =
      indexList (s.selectedIndices.clear row).rows := viewList_eq hbelow
  have hfinal : indexList b.rows = [(row : Int)] := by
    rw [hrows]
    rfl
  rw [clearAndSelect, if_neg (by omega)]
  dsimp only
  rw [isSelected_eq, toNat_natCast, heq, hview]
  cases hbit : s.selectedIndices.bit row with
  | true =>
    have hreports : s.ClearAndSelectReports row ↔
        (∀ j, j < row → s.selectedIndices.bit j = true) ∨
          ∀ j, row < j → s.selectedIndices.bit j = false := by
      rw [ClearAndSelectReports, if_pos hbit]
    rw [hreports]
    split
    · next hone =>
      -- the only selected row: nothing happens
      refine iff_of_true (faithful_refl s) (.inr fun j hj => ?_)
      obtain ⟨r, hr⟩ := length_eq_one_iff.1 hone.2.1
      have hmem : ∀ i, s.selectedIndices.bit i = true → i = r := by
        intro i hi
        rw [← mem_rows, hr, mem_singleton] at hi
        exact hi
      by_contra hne
      have hj' := hmem j (Bool.eq_true_of_not_eq_false hne)
      have hrow' := hmem row hbit
      omega
    · rw [if_pos rfl, ← replay_retained_iff hbit, ← hfinal, faithful_iff_of_fired rfl]
      exact Iff.of_eq (congrArg (· = _) (replayChanges_singleton _ _ _))
  | false =>
    have hreports : s.ClearAndSelectReports row ↔ s.FindsOnly row := by
      rw [ClearAndSelectReports, if_neg (by rw [hbit]; exact Bool.false_ne_true)]
    have hsame : (s.selectedIndices.clear row).rows = s.selectedIndices.rows := by
      refine rows_eq s.selectedIndices.rows_sorted fun i => ?_
      rw [mem_rows, bit_clear, Bool.and_eq_true]
      refine ⟨fun hi => ⟨?_, hi⟩, fun hi => hi.2⟩
      have hne : i ≠ row := fun he => by
        rw [he, hbit] at hi
        cases hi
      simp [hne]
    rw [if_neg (fun hc => Bool.false_ne_true hc.1), if_neg Bool.false_ne_true, hreports,
      ← replay_replaced_iff hrows hrow s.list, ← hfinal, hsame, faithful_iff_of_fired rfl]
    exact Iff.of_eq (congrArg (· = _) (replayChanges_one _ _ _))

end MultipleSelectionModelBase

end OpenJfx.Controls
