/-
  OpenJfx.Controls.TextInputControl.UndoRedo

  Each record on the way back to the head describes the difference of two texts, `pre ++ oldText
  ++ post` and `pre ++ newText ++ post`.
-/

import OpenJfx.Controls.TextInputControl.Basic
import OpenJfx.Lib.ListAt

namespace OpenJfx.Controls.TextInputControl

open List Function Nat

variable {α : Type} {s : TextInputControl α} {text₀ : List α}

/-! ## The invariant -/

/-- The records from `id` lead to `text₀` in `n` steps and back. -/
inductive Undoes (records : Nat → UndoRedoChange α) (text₀ : List α) :
    Nat → List α → Nat → Prop where
  | head : Undoes records text₀ undoChangeHead text₀ 0
  | record {id n : Nat} {pre post : List α} (hpos : (records id).prev < id)
      (hst : (records id).start = pre.length)
      (hnxt : (records (records id).prev).next = some id)
      (hprev : Undoes records text₀ (records id).prev (pre ++ (records id).oldText ++ post) n) :
      Undoes records text₀ id (pre ++ (records id).newText ++ post) (n + 1)

/-- The links forward of the allocated records. -/
def LinksForward (s : TextInputControl α) : Prop :=
  ∀ id, id < s.count → ∀ next, (s.records id).next = some next → id < next ∧ next < s.count

/-- The undo chain leads back to `text₀`. -/
structure Sound (text₀ : List α) (s : TextInputControl α) : Prop where
  undoes : ∃ n, Undoes s.records text₀ s.undoChange s.content n
  allocated : s.undoChange < s.count
  links : s.LinksForward

variable {records : Nat → UndoRedoChange α} {n id : Nat} {text pre post mid : List α}
  {t : TextInputControl α}

theorem Undoes.congr {records' : Nat → UndoRedoChange α}
    (h : Undoes records text₀ id text n) (hbelow : ∀ j, j < id → records' j = records j)
    (hprev : (records' id).prev = (records id).prev) (hst : (records' id).start = (records id).start)
    (hold : (records' id).oldText = (records id).oldText)
    (hnew : (records' id).newText = (records id).newText) : Undoes records' text₀ id text n := by
  induction h with
  | head => exact .head
  | @record id n pre post hpos hs hnxt hp ih =>
    have hsame := hbelow _ hpos
    have hrec : Undoes records' text₀ (records id).prev (pre ++ (records id).oldText ++ post) n :=
      ih (fun j hj => hbelow j (Nat.lt_trans hj hpos)) (by rw [hsame]) (by rw [hsame]) (by rw [hsame])
        (by rw [hsame])
    rw [← hnew]
    refine .record (by rw [hprev]; exact hpos) (hst.trans hs) ?_ ?_
    · rw [hprev, hsame]
      exact hnxt
    · rw [hprev, hold]
      exact hrec

theorem new_sound (text : List α) : Sound text (new text) where
  undoes := ⟨0, .head⟩
  allocated := Nat.one_pos
  links := fun _ _ _ h => nomatch h

/-! ## Undo and redo -/

theorem delete_middle (pre mid post : List α) :
    Content.delete (pre ++ mid ++ post) pre.length (pre.length + mid.length) = .ok (pre ++ post) := by
  unfold Content.delete
  cases mid with
  | nil => simp
  | cons x mid =>
    rw [if_pos (by simp), if_pos (by simp)]
    congr 1
    rw [append_assoc, take_left' rfl, ← append_assoc, drop_left' (by simp)]

theorem insert_middle (pre mid post : List α) :
    Content.insert (pre ++ post) pre.length mid = .ok (pre ++ mid ++ post) := by
  unfold Content.insert
  cases mid with
  | nil => simp
  | cons x mid =>
    rw [if_neg (by simp), if_pos (by simp), take_left' rfl, drop_left' rfl]

theorem undo_eq (hid : s.undoChange ≠ undoChangeHead)
    (hst : s.current.start = pre.length) (hcon : s.content = pre ++ s.current.newText ++ post) :
    ∃ u, s.undo = .ok u ∧ u.content = pre ++ s.current.oldText ++ post ∧
      u.undoChange = s.current.prev ∧ u.records = s.records ∧ u.count = s.count := by
  have hundoable : s.isUndoable = true := decide_eq_true hid
  rw [undo, if_pos hundoable]
  dsimp only
  rw [hcon, hst, delete_middle]
  show ∃ u, (Content.insert (pre ++ post) pre.length s.current.oldText >>= _) = Except.ok u ∧ _
  rw [insert_middle]
  exact ⟨_, rfl, rfl, rfl, rfl, rfl⟩

theorem redo_eq {next : Nat} (hnxt : s.current.next = some next)
    (hst : (s.records next).start = pre.length)
    (hcon : s.content = pre ++ (s.records next).oldText ++ post) :
    ∃ u, s.redo = .ok u ∧ u.content = pre ++ (s.records next).newText ++ post ∧
      u.undoChange = next ∧ u.records = s.records ∧ u.count = s.count := by
  rw [redo, hnxt]
  dsimp only
  rw [hcon, hst, delete_middle]
  show ∃ u, (Content.insert (pre ++ post) pre.length (s.records next).newText >>= _) = Except.ok u ∧ _
  rw [insert_middle]
  exact ⟨_, rfl, rfl, rfl, rfl, rfl⟩

theorem undoTimes_of_not_undoable (h : s.isUndoable = false) (n : Nat) : s.undoTimes n = .ok s := by
  have hundo : s.undo = .ok s := by rw [undo, if_neg (by rw [h]; exact Bool.false_ne_true)]
  induction n with
  | zero => rfl
  | succ n ih =>
    rw [undoTimes, hundo]
    exact ih

theorem Undoes.undoTimes
    (h : Undoes records text₀ id text n) (hrecords : s.records = records) (hid : s.undoChange = id)
    (hcon : s.content = text) :
    ∃ u, s.undoTimes n = .ok u ∧ u.content = text₀ ∧ u.undoChange = undoChangeHead ∧
      u.records = records ∧ ∀ m, m < n → ∃ v, s.undoTimes m = .ok v ∧ v.isUndoable = true := by
  induction h generalizing s with
  | head => exact ⟨s, rfl, hcon, hid, hrecords, fun m hm => absurd hm (Nat.not_lt_zero m)⟩
  | @record id n pre post hpos hst hnxt hprev ih =>
    subst hid
    subst hrecords
    have hne : s.undoChange ≠ undoChangeHead := Nat.ne_of_gt (Nat.lt_of_le_of_lt (Nat.zero_le _) hpos)
    obtain ⟨u, hu, hucontent, huid, hurecords, -⟩ := undo_eq hne hst hcon
    obtain ⟨v, hv, hvcontent, hvid, hvrecords, hsteps⟩ := ih hurecords huid hucontent
    have hundo : ∀ m, s.undoTimes (m + 1) = u.undoTimes m := by
      intro m
      rw [TextInputControl.undoTimes, hu]
      rfl
    refine ⟨v, (hundo n).trans hv, hvcontent, hvid, hvrecords, fun m hm => ?_⟩
    cases m with
    | zero => exact ⟨s, rfl, decide_eq_true hne⟩
    | succ m =>
      rw [hundo]
      exact hsteps m (Nat.lt_of_succ_lt_succ hm)

theorem Undoes.redoTimes (h : Undoes records text₀ id text n) (hrecords : s.records = records)
    (hid : s.undoChange = undoChangeHead) (hcon : s.content = text₀) :
    ∃ u, s.redoTimes n = .ok u ∧ u.content = text ∧ u.undoChange = id ∧ u.records = records := by
  induction h with
  | head => exact ⟨s, rfl, hcon, hid, hrecords⟩
  | @record id n pre post hpos hst hnxt hprev ih =>
    obtain ⟨u, hu, hucontent, huid, hurecords⟩ := ih
    have hcur : u.current.next = some id := by rw [current, huid, hurecords]; exact hnxt
    obtain ⟨v, hv, hvcontent, hvid, hvrecords, -⟩ := redo_eq hcur
      (by rw [hurecords]; exact hst) (by rw [hurecords]; exact hucontent)
    rw [hurecords] at hvcontent hvrecords
    refine ⟨v, ?_, hvcontent, hvid, hvrecords⟩
    rw [TextInputControl.redoTimes, hu]
    exact hv

theorem Sound.restores (h : Sound text₀ s) : Restores text₀ s := by
  obtain ⟨n, hn⟩ := h.undoes
  obtain ⟨u, hu, hucontent, huid, hurecords, hsteps⟩ := hn.undoTimes rfl rfl rfl
  obtain ⟨r, hr, hrcontent, -, -⟩ := hn.redoTimes hurecords huid hucontent
  refine ⟨n, u, r, hu, hsteps, ?_, hucontent, hr, hrcontent⟩
  rw [isUndoable, huid]
  rfl

/-! ## Edits -/

theorem Undoes.inv (h : Undoes records text₀ id text n) (hid : id ≠ undoChangeHead) :
    ∃ m pre post, text = pre ++ (records id).newText ++ post ∧ (records id).start = pre.length ∧
      (records id).prev < id ∧ (records (records id).prev).next = some id ∧
      Undoes records text₀ (records id).prev (pre ++ (records id).oldText ++ post) m := by
  cases h with
  | head => exact absurd rfl hid
  | record hpos hst hnxt hprev => exact ⟨_, _, _, rfl, hst, hpos, hnxt, hprev⟩

/-- `t` has the records of `s` and maybe another text and selection. -/
structure SameRecords (s t : TextInputControl α) : Prop where
  records : t.records = s.records
  count : t.count = s.count
  undoChange : t.undoChange = s.undoChange

theorem replaceContent_eq (hcon : s.content = pre ++ mid ++ post)
    (value : List α) (anchor caretPosition : Int) :
    ∃ t, s.replaceContent pre.length (pre.length + mid.length) value anchor caretPosition =
        .ok (0, t) ∧ t.content = pre ++ value ++ post ∧ SameRecords s t := by
  have hdelete : s.deleteRange pre.length (pre.length + mid.length) = .ok (pre ++ post) := by
    rw [deleteRange, hcon]
    split
    · exact delete_middle pre mid post
    · next hemp =>
      have hnil : mid = [] := eq_nil_of_length_eq_zero (by omega)
      rw [hnil, append_nil]
  have hlen : (s.getLength : Int) = pre.length + mid.length + post.length := by
    rw [getLength, hcon, length_append, length_append]
    push_cast
    rfl
  have hadjust : (value.length : Int) - (((pre ++ value ++ post).length : Int) -
      ((s.getLength : Int) - ((pre.length + mid.length : Nat) - pre.length))) = 0 := by
    rw [hlen, length_append, length_append]
    push_cast
    omega
  rw [replaceContent, hdelete]
  show ∃ t, (Content.insert (pre ++ post) pre.length value >>= _) = Except.ok (0, t) ∧ _
  rw [insert_middle]
  refine ⟨_, congrArg Except.ok (Prod.ext hadjust rfl), rfl, rfl, rfl, rfl⟩

theorem getText_eq {pre mid post : List α} (hcon : s.content = pre ++ mid ++ post) {stop : Nat}
    (hstop : stop = pre.length + mid.length) : s.getText pre.length stop = .ok mid := by
  have hlen : s.getLength = pre.length + mid.length + post.length := by
    rw [getLength, hcon, length_append, length_append]
  rw [getText, if_neg (by omega), if_neg (by omega), Content.get, hcon, append_assoc,
    drop_left' rfl, hstop, Nat.add_sub_cancel_left, take_left' rfl]

theorem updateContent_eq (hcon : s.content = pre ++ mid ++ post)
    (text : List α) (anchor caretPosition : Int) (force : Bool) :
    ∃ t, t.content = pre ++ text ++ post ∧ SameRecords s t ∧
      s.updateContent pre.length (pre.length + mid.length) text anchor caretPosition force =
        if s.startsRecord force pre.length (pre.length + mid.length) then
          .ok (t.add pre.length mid text)
        else if pre.length ≠ pre.length + mid.length ∧ text.isEmpty then
          t.mergeDelete s.endOfUndoChange pre.length mid
        else .ok (t.setRecord t.undoChange { t.current with newText := t.current.newText ++ text }) := by
  obtain ⟨t, ht, htcon, hsame⟩ := replaceContent_eq hcon text anchor caretPosition
  refine ⟨t, htcon, hsame, ?_⟩
  have hold := getText_eq hcon rfl
  have hnew := @getText_eq _ _ _ _ _ htcon (((pre.length : Int) + text.length -
      (0 : Int)).toNat) (by omega)
  rw [updateContent, hold]
  show (s.replaceContent pre.length (pre.length + mid.length) text anchor caretPosition >>= _) = _
  rw [ht]
  show (t.getText pre.length ((pre.length : Int) + text.length - (0 : Int)).toNat >>= _) = _
  rw [hnew]
  rfl

theorem Sound.add (h : Sound text₀ s) (ht : SameRecords s t)
    (hcon : s.content = pre ++ mid ++ post)
    (htcon : t.content = pre ++ text ++ post) : Sound text₀ (t.add pre.length mid text) := by
  obtain ⟨n, hn⟩ := h.undoes
  have hlt : t.undoChange < t.count := by
    rw [ht.undoChange, ht.count]
    exact h.allocated
  have hfresh : ∀ j, j < t.count → j ≠ t.undoChange → (t.add pre.length mid text).records j =
      s.records j := by
    intro j hj hne
    show Function.update (Function.update t.records _ _) _ _ j = _
    rw [update_of_ne (Nat.ne_of_lt hj), update_of_ne hne, ht.records]
  have hcur : (t.add pre.length mid text).records t.undoChange =
      { s.records t.undoChange with next := some t.count } := by
    show Function.update (Function.update t.records _ _) _ _ t.undoChange = _
    rw [update_of_ne (Nat.ne_of_lt hlt), update_self, current, ht.records]
  have hnew : (t.add pre.length mid text).records t.count =
      ⟨pre.length, mid, text, t.undoChange, none⟩ := update_self _ _ _
  refine ⟨⟨n + 1, ?_⟩, Nat.lt_succ_self _, ?_⟩
  · show Undoes _ text₀ t.count t.content (n + 1)
    have hprev : Undoes (t.add pre.length mid text).records text₀ t.undoChange (pre ++ mid ++ post) n := by
      rw [← hcon]
      rw [← ht.undoChange] at hn
      exact hn.congr (fun j hj => hfresh j (Nat.lt_trans hj hlt) (Nat.ne_of_lt hj))
        (by rw [hcur]) (by rw [hcur]) (by rw [hcur]) (by rw [hcur])
    have hrecord := @Undoes.record _ ((t.add pre.length mid text).records) _ _ n _ _
        (by rw [hnew]; exact hlt) (by rw [hnew]) (by rw [hnew, hcur])
        (by rw [hnew]; exact hprev)
    rw [hnew] at hrecord
    rw [htcon]
    exact hrecord
  · intro id hid next hnxt
    show id < next ∧ next < t.count + 1
    have hid' : id < t.count + 1 := hid
    rcases Nat.lt_or_eq_of_le (Nat.lt_succ_iff.1 hid') with hid' | rfl
    · by_cases hc : id = t.undoChange
      · rw [hc, hcur] at hnxt
        obtain rfl : t.count = next := Option.some.inj hnxt
        exact ⟨hid', Nat.lt_succ_self _⟩
      · rw [hfresh id hid' hc] at hnxt
        have hlink := h.links id (by rw [← ht.count]; exact hid') next hnxt
        rw [← ht.count] at hlink
        exact ⟨hlink.1, Nat.lt_succ_of_lt hlink.2⟩
    · rw [hnew] at hnxt
      cases hnxt

theorem Sound.setRecord (h : Sound text₀ s) {t : TextInputControl α} (ht : SameRecords s t)
    {pre post pre' post' : List α} {n : Nat} {r : UndoRedoChange α} (hpos : s.current.prev < s.undoChange)
    (hlink : (s.records s.current.prev).next = some s.undoChange)
    (hprev : Undoes s.records text₀ s.current.prev (pre ++ s.current.oldText ++ post) n)
    (hrprev : r.prev = s.current.prev) (hrnext : r.next = s.current.next)
    (hrstart : r.start = pre'.length)
    (hold : pre' ++ r.oldText ++ post' = pre ++ s.current.oldText ++ post)
    (hnew : t.content = pre' ++ r.newText ++ post') : Sound text₀ (t.setRecord t.undoChange r) := by
  have hself : (t.setRecord t.undoChange r).records s.undoChange = r := by
    show Function.update t.records t.undoChange r s.undoChange = r
    rw [ht.undoChange, update_self]
  have hother : ∀ j, j ≠ s.undoChange → (t.setRecord t.undoChange r).records j = s.records j := by
    intro j hj
    show Function.update t.records t.undoChange r j = _
    rw [ht.undoChange, update_of_ne hj, ht.records]
  refine ⟨⟨n + 1, ?_⟩, ?_, ?_⟩
  · show Undoes _ text₀ t.undoChange t.content (n + 1)
    have hback : Undoes (t.setRecord t.undoChange r).records text₀ s.current.prev
        (pre' ++ r.oldText ++ post') n := by
      rw [hold]
      have hne := hother _ (Nat.ne_of_lt hpos)
      exact hprev.congr (fun j hj => hother j (Nat.ne_of_lt (Nat.lt_trans hj hpos)))
        (by rw [hne]) (by rw [hne]) (by rw [hne]) (by rw [hne])
    have hrecord := @Undoes.record _ ((t.setRecord t.undoChange r).records) _ _ n _ _
        (by rw [hself, hrprev]; exact hpos) (by rw [hself]; exact hrstart)
        (by rw [hself, hrprev, hother _ (Nat.ne_of_lt hpos)]; exact hlink)
        (by rw [hself, hrprev]; exact hback)
    rw [hself, ← hnew] at hrecord
    refine (congrArg (fun id => Undoes _ text₀ id _ _) ht.undoChange).mpr ?_
    exact hrecord
  · show t.undoChange < t.count
    rw [ht.undoChange, ht.count]
    exact h.allocated
  · intro id hid' next hnxt
    show id < next ∧ next < t.count
    rw [ht.count]
    have hlt : id < s.count := by rw [← ht.count]; exact hid'
    by_cases hc : id = s.undoChange
    · rw [hc, hself, hrnext] at hnxt
      rw [hc]
      exact h.links _ h.allocated next hnxt
    · rw [hother id hc] at hnxt
      exact h.links id hlt next hnxt

theorem Sound.discard (h : Sound text₀ s) (ht : SameRecords s t)
    {r : UndoRedoChange α} (hpos : s.current.prev < s.undoChange)
    (hprev : Undoes s.records text₀ s.current.prev t.content n)
    (hrprev : r.prev = s.current.prev) (hrnext : r.next = s.current.next) :
    Sound text₀ (t.setRecord t.undoChange r).discard := by
  have hcur : (t.setRecord t.undoChange r).current = r := update_self _ _ _
  have hbef : ∀ j, j ≠ s.undoChange → (t.setRecord t.undoChange r).records j = s.records j := by
    intro j hj
    show Function.update t.records t.undoChange r j = _
    rw [ht.undoChange, update_of_ne hj, ht.records]
  have hself : (t.setRecord t.undoChange r).discard.records s.current.prev =
      { s.records s.current.prev with next := s.current.next } := by
    show Function.update (t.setRecord t.undoChange r).records _ _ _ = _
    rw [hcur, hrprev, hrnext, update_self, hbef _ (Nat.ne_of_lt hpos)]
  have hother : ∀ j, j ≠ s.current.prev → j ≠ s.undoChange →
      (t.setRecord t.undoChange r).discard.records j = s.records j := by
    intro j hj hj'
    show Function.update (t.setRecord t.undoChange r).records _ _ _ = _
    rw [hcur, hrprev, update_of_ne hj, hbef j hj']
  refine ⟨⟨n, ?_⟩, ?_, ?_⟩
  · show Undoes _ text₀ (t.setRecord t.undoChange r).current.prev t.content n
    rw [hcur, hrprev]
    exact hprev.congr (fun j hj => hother j (Nat.ne_of_lt hj) (Nat.ne_of_lt (Nat.lt_trans hj hpos)))
      (by rw [hself]) (by rw [hself]) (by rw [hself]) (by rw [hself])
  · show (t.setRecord t.undoChange r).current.prev < t.count
    rw [hcur, hrprev, ht.count]
    exact Nat.lt_trans hpos h.allocated
  · intro id hid next hnxt
    show id < next ∧ next < t.count
    have hlt : id < s.count := by rw [← ht.count]; exact hid
    rw [ht.count]
    by_cases hp : id = s.current.prev
    · rw [hp, hself] at hnxt
      have hlink := h.links _ h.allocated next hnxt
      rw [hp]
      exact ⟨Nat.lt_trans hpos hlink.1, hlink.2⟩
    · by_cases hc : id = s.undoChange
      · have hr : (t.setRecord t.undoChange r).discard.records s.undoChange = r := by
          show Function.update (t.setRecord t.undoChange r).records _ _ _ = _
          rw [hcur, hrprev, update_of_ne (Nat.ne_of_gt hpos)]
          show Function.update t.records t.undoChange r s.undoChange = r
          rw [ht.undoChange, update_self]
        rw [hc, hr, hrnext] at hnxt
        rw [hc]
        exact h.links _ h.allocated next hnxt
      · rw [hother id hp hc] at hnxt
        exact h.links id hlt next hnxt

/-! ## Merged edits -/

/-- An edit that is merged leaves the current record right: an insertion, a deletion at the end of
    the new text, or one next to a record without new text, of one character if before it. -/
def MergesRight (s : TextInputControl α) (start stop : Nat) (text : List α) : Prop :=
  if start ≠ stop ∧ text.isEmpty then
    if s.current.newText.isEmpty then start = s.current.start ∨ stop = start + 1
    else s.current.start ≤ start ∧ stop = s.current.start + s.current.newText.length ∧
      (start = s.current.start → s.current.oldText = [])
  else start = stop

theorem merged {force : Bool} {start stop : Nat} (h : s.startsRecord force start stop = false) :
    s.undoChange ≠ undoChangeHead ∧
      (s.current.start + s.current.newText.length = start ∨
        s.current.start + s.current.newText.length = stop) := by
  simp only [startsRecord, endOfUndoChange, Bool.or_eq_false_iff, Bool.and_eq_false_iff,
    beq_eq_false_iff_ne, bne_eq_false_iff_eq, ne_eq] at h
  obtain ⟨⟨⟨⟨-, hne⟩, -⟩, hend⟩, -⟩ := h
  have hid : s.undoChange ≠ undoChangeHead := fun hc => hne (if_pos hc)
  rw [if_neg hid] at hend
  exact ⟨hid, by omega⟩

theorem endOfUndoChange_eq (hid : s.undoChange ≠ undoChangeHead) :
    s.endOfUndoChange = ((s.current.start + s.current.newText.length : Nat) : Int) := by
  rw [endOfUndoChange, if_neg hid]
  push_cast
  rfl

theorem SameRecords.current (ht : SameRecords s t) : t.current = s.current := by
  rw [TextInputControl.current, TextInputControl.current, ht.records, ht.undoChange]

theorem Sound.mergeDelete (h : Sound text₀ s) (ht : SameRecords s t)
    (hcon : s.content = pre ++ mid ++ post)
    (htcon : t.content = pre ++ post) (hmid : mid ≠ [])
    (hid : s.undoChange ≠ undoChangeHead)
    (hend : s.current.start + s.current.newText.length = pre.length ∨
      s.current.start + s.current.newText.length = pre.length + mid.length)
    (hright : s.MergesRight pre.length (pre.length + mid.length) []) :
    ∃ u, t.mergeDelete s.endOfUndoChange pre.length mid = .ok u ∧ Sound text₀ u := by
  obtain ⟨n, hn⟩ := h.undoes
  obtain ⟨m, pre0, post0, hspl, hst, hpos, hlink, hprev⟩ := hn.inv hid
  change s.content = pre0 ++ s.current.newText ++ post0 at hspl
  change s.current.start = pre0.length at hst
  have hlen : 0 < mid.length := length_pos_iff.2 hmid
  have htexts : pre ++ mid ++ post = pre0 ++ s.current.newText ++ post0 := hcon.symm.trans hspl
  rw [MergesRight, if_pos ⟨by omega, rfl⟩] at hright
  rw [TextInputControl.mergeDelete, ht.current, endOfUndoChange_eq hid]
  dsimp only
  by_cases hemp : s.current.newText = []
  · rw [if_pos (by rw [hemp]; rfl)] at hright
    rw [hemp, length_nil] at hend
    rw [hemp, append_nil] at htexts
    rw [hemp, length_nil, if_neg (Nat.lt_irrefl 0)]
    by_cases hfwd : pre.length = s.current.start
    · -- behind the record
      have hpre : pre = pre0 ∧ mid ++ post = post0 := by
        rw [append_assoc] at htexts
        exact append_inj htexts (by omega)
      rw [if_pos (by omega)]
      refine ⟨_, rfl, @Sound.setRecord _ _ _ h _ ht _ _ _ post _ _ hpos hlink hprev rfl rfl
        (hst.trans (congrArg List.length hpre.1.symm)) ?_ ?_⟩
      · rw [← hpre.2, hpre.1]
        simp
      · dsimp only
        rw [htcon, append_nil]
    · -- one character before it
      have hone : pre.length + mid.length = pre.length + 1 := hright.resolve_left hfwd
      have hpre : pre ++ mid = pre0 ∧ post = post0 := by
        refine append_inj htexts ?_
        rw [length_append]
        omega
      rw [if_neg (by omega)]
      refine ⟨_, rfl, @Sound.setRecord _ _ _ h _ ht _ _ pre post _ _ hpos hlink hprev rfl rfl ?_ ?_
          ?_⟩
      · show s.current.start - 1 = pre.length
        omega
      · rw [← hpre.1, hpre.2]
        simp
      · dsimp only
        rw [htcon, append_nil]
  · rw [if_neg (by simpa using hemp)] at hright
    obtain ⟨hle, hstop, hold⟩ := hright
    have hpos' : 0 < s.current.newText.length := length_pos_iff.2 hemp
    rw [if_pos hpos']
    -- the rest of the new text
    have hpre : pre ++ mid = pre0 ++ s.current.newText ∧ post = post0 := by
      refine append_inj htexts ?_
      rw [length_append, length_append]
      omega
    have hkept : pre = pre0 ++ s.current.newText.take (pre.length - pre0.length) := by
      have htake := congrArg (List.take pre.length) hpre.1
      rw [take_left' rfl, take_append, take_of_length_le (by omega)] at htake
      exact htake
    have hsub : substring s.current.newText ((pre.length : Int) - s.current.start) =
        .ok (s.current.newText.take (pre.length - pre0.length)) := by
      rw [substring, if_pos ⟨by omega, by omega⟩]
      congr 2
      omega
    rw [hsub]
    show ∃ u, Except.ok (if (s.current.newText.take (pre.length - pre0.length)).isEmpty = true
      then _ else _) = Except.ok u ∧ _
    by_cases hgone : s.current.newText.take (pre.length - pre0.length) = []
    · rw [if_pos (by rw [hgone]; rfl)]
      have hzero : pre.length = pre0.length := by
        rcases take_eq_nil_iff.1 hgone with hzero | hnil
        · omega
        · exact absurd hnil hemp
      have hback : Undoes s.records text₀ s.current.prev t.content m := by
        rw [hgone, append_nil] at hkept
        have hnil : s.current.oldText = [] := hold (by omega)
        change Undoes s.records text₀ s.current.prev (pre0 ++ s.current.oldText ++ post0) m at hprev
        rw [hnil, append_nil] at hprev
        rw [htcon, hkept, hpre.2]
        exact hprev
      exact ⟨_, rfl, h.discard ht hpos hback rfl rfl⟩
    · rw [if_neg (by simpa using hgone)]
      refine ⟨_, rfl, h.setRecord ht hpos hlink hprev rfl rfl hst rfl ?_⟩
      dsimp only
      rw [htcon, ← hkept, hpre.2]

/-- An edit keeps the records right, if it is not merged or merged rightly. -/
theorem Sound.updateContent (h : Sound text₀ s) {start stop : Nat} (hle : start ≤ stop)
    (hstop : stop ≤ s.getLength) (text : List α) (anchor caretPosition : Int) (force : Bool)
    (hright : s.startsRecord force start stop = false → s.MergesRight start stop text) :
    ∃ u, s.updateContent start stop text anchor caretPosition force = .ok u ∧ Sound text₀ u := by
  obtain ⟨n, rfl⟩ := Nat.exists_eq_add_of_le hle
  obtain ⟨pre, mid, post, hcon, rfl, rfl⟩ := ListAt.exists_split s.content hstop
  obtain ⟨t, htcon, hsame, heq⟩ := updateContent_eq hcon text anchor caretPosition force
  rw [heq]
  cases hmerge : s.startsRecord force pre.length (pre.length + mid.length) with
  | true =>
    rw [if_pos rfl]
    exact ⟨_, rfl, h.add hsame hcon htcon⟩
  | false =>
    obtain ⟨hid, hend⟩ := merged hmerge
    have hright := hright hmerge
    rw [if_neg Bool.false_ne_true]
    split
    · next hdelete =>
      obtain ⟨hne, htext⟩ := hdelete
      rw [List.isEmpty_iff.1 htext] at hright htcon
      have hmid : mid ≠ [] := fun hc => hne (by rw [hc]; rfl)
      rw [append_nil] at htcon
      exact h.mergeDelete hsame hcon htcon hmid hid hend hright
    · next hinsert =>
      rw [MergesRight, if_neg hinsert] at hright
      have hmid : mid = [] := eq_nil_of_length_eq_zero (by omega)
      obtain ⟨n, hn⟩ := h.undoes
      obtain ⟨m, pre0, post0, hspl, hst, hpos, hlink, hprev⟩ := hn.inv hid
      change s.content = pre0 ++ s.current.newText ++ post0 at hspl
      change s.current.start = pre0.length at hst
      have hpre : pre = pre0 ++ s.current.newText ∧ post = post0 := by
        rw [hmid, append_nil] at hcon
        refine append_inj (hcon.symm.trans hspl) ?_
        rw [length_append]
        omega
      rw [hsame.current]
      refine ⟨_, rfl, h.setRecord hsame hpos hlink hprev rfl rfl hst rfl ?_⟩
      dsimp only
      rw [htcon, hpre.1, hpre.2, append_assoc pre0]

/-! ## Runs -/

/-- The edit is of a range of the text. -/
def Op.Valid (s : TextInputControl α) : Op α → Prop
  | .replaceText start stop _ => start ≤ stop ∧ stop ≤ s.getLength
  | _ => True

/-- It follows the current one, and its old text is in place. -/
def RedoFits (s : TextInputControl α) : Option Nat → Prop
  | none => True
  | some next => (s.records next).prev = s.undoChange ∧ (s.records next).start ≤ s.getLength ∧
      s.content.get (s.records next).start
        ((s.records next).start + (s.records next).oldText.length) = (s.records next).oldText

/-- A merge is right, and the record that is redone fits. -/
def Op.Harmless (s : TextInputControl α) : Op α → Prop
  | .replaceText start stop text =>
    s.startsRecord (s.getLength = 0) start stop = false → s.MergesRight start stop text
  | .redo => s.RedoFits s.current.next
  | _ => True

theorem Sound.undo (h : Sound text₀ s) : ∃ u, s.undo = .ok u ∧ Sound text₀ u := by
  by_cases hid : s.undoChange = undoChangeHead
  · have hnot : ¬ s.isUndoable = true := by rw [isUndoable, hid]; exact Bool.false_ne_true
    rw [TextInputControl.undo, if_neg hnot]
    exact ⟨s, rfl, h⟩
  · obtain ⟨n, hn⟩ := h.undoes
    obtain ⟨m, pre, post, hcon, hst, hpos, -, hprev⟩ := hn.inv hid
    obtain ⟨u, hu, hucontent, huid, hurecords, hucount⟩ := undo_eq hid hst hcon
    refine ⟨u, hu, ⟨m, ?_⟩, ?_, ?_⟩
    · rw [hurecords, huid, hucontent]
      exact hprev
    · rw [huid, hucount]
      exact Nat.lt_trans hpos h.allocated
    · rw [LinksForward, hurecords, hucount]
      exact h.links

theorem Sound.redo (h : Sound text₀ s) (hfit : (Op.redo : Op α).Harmless s) :
    ∃ u, s.redo = .ok u ∧ Sound text₀ u := by
  cases hnxt : s.current.next with
  | none =>
    rw [TextInputControl.redo, hnxt]
    exact ⟨s, rfl, h⟩
  | some next =>
    rw [Op.Harmless, hnxt] at hfit
    obtain ⟨hprev, hst, hold⟩ := hfit
    obtain ⟨n, hn⟩ := h.undoes
    obtain ⟨hlt, hcnt⟩ := h.links _ h.allocated next hnxt
    set r := s.records next with hr
    -- the text around the old text of the record
    have hspl : s.content = s.content.take r.start ++ r.oldText ++
        s.content.drop (r.start + r.oldText.length) := by
      rw [Content.get, Nat.add_sub_cancel_left] at hold
      conv_lhs => rw [← take_append_drop r.start s.content]
      rw [append_assoc]
      congr 1
      conv_lhs => rw [← take_append_drop r.oldText.length (s.content.drop r.start), hold, drop_drop]
    have hlen : r.start = (s.content.take r.start).length := (length_take_of_le hst).symm
    obtain ⟨u, hu, hucontent, huid, hurecords, hucount⟩ := redo_eq hnxt hlen hspl
    refine ⟨u, hu, ⟨n + 1, ?_⟩, ?_, ?_⟩
    · rw [hurecords, huid, hucontent]
      refine Undoes.record (by rw [← hr, hprev]; exact hlt) hlen (by rw [← hr, hprev]; exact hnxt) ?_
      rw [← hr, hprev, ← hspl]
      exact hn
    · rw [huid, hucount]
      exact hcnt
    · rw [LinksForward, hurecords, hucount]
      exact h.links

theorem Sound.step (h : Sound text₀ s) {op : Op α} (hvalid : op.Valid s) (hharm : op.Harmless s) :
    ∃ u, s.step op = .ok u ∧ Sound text₀ u := by
  cases op with
  | replaceText start stop text =>
    rw [TextInputControl.step, replaceText, if_neg (Nat.not_lt.2 hvalid.1),
      if_neg (Nat.not_lt.2 hvalid.2)]
    exact h.updateContent hvalid.1 hvalid.2 text _ _ _ hharm
  | selectRange anchor caretPosition =>
    refine h.updateContent (Nat.le_refl _) (Nat.min_le_right _ _) [] _ _ _ fun _ => ?_
    rw [MergesRight, if_neg (fun hc => hc.1 rfl)]
  | undo => exact h.undo
  | redo => exact h.redo hharm

/-- All calls of a run are valid and harmless, each in the state it meets. -/
def HarmlessRun (s : TextInputControl α) : List (Op α) → Prop
  | [] => True
  | op :: ops => op.Valid s ∧ op.Harmless s ∧
    match s.step op with
    | .ok s' => HarmlessRun s' ops
    | .error _ => True

theorem Sound.run (h : Sound text₀ s) {ops : List (Op α)} (hrun : s.HarmlessRun ops) :
    ∃ u, s.run ops = .ok u ∧ Sound text₀ u := by
  induction ops generalizing s with
  | nil => exact ⟨s, rfl, h⟩
  | cons op ops ih =>
    obtain ⟨hvalid, hharm, hrest⟩ := hrun
    obtain ⟨u, hu, hsound⟩ := h.step hvalid hharm
    rw [hu] at hrest
    rw [TextInputControl.run, hu]
    exact ih hsound hrest

/-- Nothing fails, and undo and redo restore the texts. -/
theorem restores_of_harmlessRun (text : List α) (ops : List (Op α))
    (hrun : (new text).HarmlessRun ops) : ∃ s, (new text).run ops = .ok s ∧ Restores text s := by
  obtain ⟨s, hs, hsound⟩ := (new_sound text).run hrun
  exact ⟨s, hs, hsound.restores⟩

section Decidable

variable [DecidableEq α]

instance (s : TextInputControl α) (start stop : Nat) (text : List α) :
    Decidable (s.MergesRight start stop text) :=
  inferInstanceAs (Decidable (if start ≠ stop ∧ text.isEmpty then
    if s.current.newText.isEmpty then start = s.current.start ∨ stop = start + 1
    else s.current.start ≤ start ∧ stop = s.current.start + s.current.newText.length ∧
      (start = s.current.start → s.current.oldText = [])
  else start = stop))

instance (s : TextInputControl α) : (next : Option Nat) → Decidable (s.RedoFits next)
  | none => .isTrue trivial
  | some _ => inferInstanceAs (Decidable (_ ∧ _ ∧ _))

instance (s : TextInputControl α) : (op : Op α) → Decidable (op.Valid s)
  | .replaceText start stop _ => inferInstanceAs (Decidable (start ≤ stop ∧ stop ≤ s.getLength))
  | .selectRange _ _ => .isTrue trivial
  | .undo => .isTrue trivial
  | .redo => .isTrue trivial

instance (s : TextInputControl α) : (op : Op α) → Decidable (op.Harmless s)
  | .replaceText start stop text => inferInstanceAs
      (Decidable (s.startsRecord (s.getLength = 0) start stop = false → s.MergesRight start stop text))
  | .selectRange _ _ => .isTrue trivial
  | .undo => .isTrue trivial
  | .redo => inferInstanceAs (Decidable (s.RedoFits s.current.next))

instance decidableHarmlessRun (s : TextInputControl α) : (ops : List (Op α)) →
    Decidable (s.HarmlessRun ops)
  | [] => .isTrue trivial
  | op :: ops =>
    have : Decidable (match s.step op with
        | .ok s' => HarmlessRun s' ops
        | .error _ => True) :=
      match s.step op with
      | .ok s' => decidableHarmlessRun s' ops
      | .error _ => .isTrue trivial
    inferInstanceAs (Decidable (_ ∧ _ ∧ _))

end Decidable

/-- Typing, a backspace, undo and redo. -/
theorem restores_of_harmlessRun_typing :
    (new ['a', 'b']).HarmlessRun [.replaceText 1 1 ['x'], .replaceText 2 2 ['y'],
        .replaceText 2 3 [], .undo, .redo] ∧
      ∃ s, (new ['a', 'b']).run [.replaceText 1 1 ['x'], .replaceText 2 2 ['y'],
        .replaceText 2 3 [], .undo, .redo] = .ok s ∧ Restores ['a', 'b'] s := by
  have hrun : (new ['a', 'b']).HarmlessRun [.replaceText 1 1 ['x'], .replaceText 2 2 ['y'],
      .replaceText 2 3 [], .undo, .redo] := by decide
  exact ⟨hrun, restores_of_harmlessRun _ _ hrun⟩

/-- A deletion after a typed character, and one that ends at it. -/
theorem restores_fails :
    (∃ s, (new ['a', 'b', 'c']).run [.replaceText 1 1 ['x'], .replaceText 2 3 []] = .ok s ∧
        ¬ Restores ['a', 'b', 'c'] s) ∧
      (∃ s, (new ['a', 'b', 'c']).run [.replaceText 3 3 ['x']] = .ok s ∧ s.getLength = 4 ∧
        ∃ e, s.run [.replaceText 1 4 []] = .error e) := by
  refine ⟨⟨_, rfl, ?_⟩, _, rfl, rfl, _, rfl⟩
  rintro ⟨n, u, r, hu, -, hend, htext, -⟩
  cases n with
  | zero =>
    cases hu
    cases hend
  | succ n =>
    have hafter : u.content = ['a', 'c'] := by
      rw [undoTimes] at hu
      change (undoTimes _ n) = _ at hu
      rw [undoTimes_of_not_undoable rfl] at hu
      cases hu
      rfl
    rw [hafter] at htext
    exact absurd htext (by decide)

end OpenJfx.Controls.TextInputControl
