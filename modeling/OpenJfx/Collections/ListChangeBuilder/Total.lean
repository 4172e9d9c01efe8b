/-
  OpenJfx.Collections.ListChangeBuilder.Total

  Which builder calls never throw.  Only an append to a null `removed`, and a merge with one in
  `compress`, can go wrong; a builder in which every add/remove sub-change has a list and no
  update has one (`Sound`) stays so.
-/

import OpenJfx.Collections.ListChangeBuilder.Recording

namespace OpenJfx.Collections

open JavaM List Option SubChange

variable {E : Type}

/-! ## Properties of the `removed` lists alone -/

variable {x c prev : SubChange E} {list rest : List (SubChange E)} {pos : Int} {e : E}
  {b : ListChangeBuilder E}

section All

variable {P : SubChange E → Prop} {list : List (SubChange E)}

theorem all_shiftFrom (hP : ∀ c d, P c → P (c.shift d)) (h : ∀ c ∈ list, P c) (start : Nat)
    (d : Int) : ∀ c ∈ shiftFrom start d list, P c := by
  intro c hc
  rcases mem_append.mp hc with hc | hc
  · exact h c (mem_of_mem_take hc)
  · obtain ⟨x, hx, rfl⟩ := mem_map.mp hc
    exact hP x d (h x (mem_of_mem_drop hx))

section

variable (h : ∀ c ∈ list, P c)
include h

theorem all_set (i : Nat) (hx : P x) : ∀ c ∈ list.set i x, P c := by
  intro c hc
  rcases mem_or_eq_of_mem_set hc with hc | rfl
  · exact h c hc
  · exact hx

theorem all_insertIdx (i : Nat) (hx : P x) : ∀ c ∈ list.insertIdx i x, P c := by
  intro c hc
  rcases eq_or_mem_of_mem_insertIdx hc with rfl | hc
  · exact hx
  · exact h c hc

theorem all_eraseIdx (i : Nat) : ∀ c ∈ list.eraseIdx i, P c :=
  fun c hc => h c (mem_of_mem_eraseIdx hc)

theorem all_concat (hx : P x) : ∀ c ∈ list.dropLast ++ [x], P c := by
  intro c hc
  rcases mem_append.mp hc with hc | hc
  · exact h c (dropLast_sublist list |>.subset hc)
  · rw [mem_singleton.mp hc]
    exact hx

theorem all_modify {f : SubChange E → SubChange E} (hf : ∀ c, P c → P (f c))
    (i : Nat) : ∀ c ∈ list.modify i f, P c := by
  intro c hc
  obtain ⟨j, hj, rfl⟩ := mem_iff_getElem.mp hc
  rw [getElem_modify]
  split
  · exact hf _ (h _ (getElem_mem _))
  · exact h _ (getElem_mem _)

end

end All

theorem prevEndingAt_mem {idx : Nat} (h : prevEndingAt list idx pos = some c) : c ∈ list := by
  rw [prevEndingAt] at h
  split at h
  · exact mem_of_getElem? (filter_eq_some_iff.mp h).1
  · cases h

theorem nextStartingAt_mem {idx : Nat} (h : nextStartingAt list idx pos = some c) : c ∈ list :=
  mem_of_getElem? (filter_eq_some_iff.mp h).1

/-- Whatever their places and removed elements. -/
structure Stable (P : SubChange E → Prop) : Prop where
  move : ∀ c f t, P c → P { c with from_ := f, to_ := t }
  record : ∀ c r, P c → P { c with removed := some r }
  fresh : ∀ f t r, P ⟨f, t, some r, emptyPerm, false⟩

section Stable

variable {P : SubChange E → Prop} {list list' : List (SubChange E)}

section

variable (hP : Stable P)
include hP

theorem Stable.shiftFrom (h : ∀ c ∈ list, P c) (start : Nat) (d : Int) :
    ∀ c ∈ OpenJfx.Collections.shiftFrom start d list, P c :=
  all_shiftFrom (fun c d hc => hP.move c (c.from_ + d) (c.to_ + d) hc) h start d

/-- Sub-changes move, one may grow, and a new one has no removed elements. -/
theorem Stable.insertAdd (h : ∀ c ∈ list, P c) (from_ to_ : Int) :
    ∀ c ∈ OpenJfx.Collections.insertAdd from_ to_ list, P c := by
  rw [OpenJfx.Collections.insertAdd]
  split
  · split
    · rename_i c hprev
      apply hP.shiftFrom
      exact all_set h _ (hP.move c c.from_ to_ (h c (prevEndingAt_mem hprev)))
    · apply hP.shiftFrom
      exact all_insertIdx h _ (hP.fresh from_ to_ [])
  · apply hP.shiftFrom
    exact all_modify h (fun c hc => hP.move c c.from_ _ hc) _

theorem Stable.recordAdd (h : ∀ c ∈ list, P c) (from_ to_ : Int) :
    ∀ c ∈ ListChangeBuilder.recordAdd from_ to_ list, P c := by
  rw [ListChangeBuilder.recordAdd]
  cases hlast : list.getLast? with
  | none => exact hP.insertAdd h from_ to_
  | some last =>
    have hr := h last (mem_of_getLast? hlast)
    dsimp only
    split
    · exact all_concat h (hP.move last last.from_ _ hr)
    · split
      · exact all_concat h (hP.move last last.from_ _ hr)
      · exact hP.insertAdd h from_ to_

theorem Stable.addRemoved {c' : SubChange E} (hc : P c) (h : c.addRemoved e = some c') : P c' := by
  obtain ⟨r, -, rfl⟩ := map_eq_some_iff.mp h
  exact hP.record c _ hc

theorem Stable.addRemovedFirst {c' : SubChange E} {d : Int} (hc : P c)
    (h : (c.shift d).addRemovedFirst e = some c') : P c' := by
  obtain ⟨r, -, rfl⟩ := map_eq_some_iff.mp h
  exact hP.record _ _ (hP.move c (c.from_ + d) (c.to_ + d) hc)

/-- A list of removed elements grows, a range shrinks, or a sub-change is new. -/
theorem Stable.insertRemoved (h : ∀ c ∈ list, P c)
    (hok : OpenJfx.Collections.insertRemoved pos e list = .ok () list') : ∀ c ∈ list', P c := by
  simp only [OpenJfx.Collections.insertRemoved] at hok
  split at hok
  · split at hok
    -- the sub-change before ends at `pos`
    · rename_i c hprev
      split at hok
      · cases hok
      · rename_i c' hc'
        cases hok
        apply hP.shiftFrom
        exact all_set h _ (hP.addRemoved (h c (prevEndingAt_mem hprev)) hc')
    -- the next one starts there
    · rename_i c _ hnxt
      split at hok
      · cases hok
      · rename_i c' hc'
        cases hok
        apply hP.shiftFrom
        exact all_set h _ (hP.addRemovedFirst (h c (nextStartingAt_mem hnxt)) hc')
    · cases hok
      apply hP.shiftFrom
      exact all_insertIdx h _ (hP.fresh pos pos [e])
  -- inside what a sub-change has added
  · split at hok
    · cases hok
    · rename_i c hget
      have hc := hP.move c c.from_ (c.to_ - 1) (h c (mem_of_getElem? hget))
      split at hok
      · cases hok
        apply hP.shiftFrom
        exact all_eraseIdx (all_set h _ hc) _
      · cases hok
        apply hP.shiftFrom
        exact all_set h _ hc

/-- As `insertRemoved`, or an append to the last sub-change. -/
theorem Stable.recordRemove (h : ∀ c ∈ list, P c) {idx : Int}
    (hok : ListChangeBuilder.recordRemove idx e list = .ok () list') : ∀ c ∈ list', P c := by
  simp only [ListChangeBuilder.recordRemove] at hok
  split at hok
  · rename_i last hlast
    have hl := h last (mem_of_getLast? hlast)
    split at hok
    · split at hok
      · cases hok
      · rename_i c' hc'
        cases hok
        exact all_concat h (hP.addRemoved hl hc')
    · split at hok
      · split at hok
        · cases hok
        · rename_i c' hc'
          cases hok
          exact all_concat h (hP.addRemovedFirst hl hc')
      · exact hP.insertRemoved h hok
  · exact hP.insertRemoved h hok

end

end Stable

theorem stable_hasRemoved : Stable fun c : SubChange E => ∃ r, c.removed = some r :=
  ⟨fun _ _ _ => id, fun _ r _ => ⟨r, rfl⟩, fun _ _ r => ⟨r, rfl⟩⟩

/-- Being an add/remove sub-change is another. -/
def Plain (c : SubChange E) : Prop := c.perm = [] ∧ c.updated = false

theorem stable_plain : Stable (Plain : SubChange E → Prop) :=
  ⟨fun _ _ _ => id, fun _ _ => id, fun _ _ _ => ⟨rfl, rfl⟩⟩

/-! ## Adds and removes -/

theorem insertRemoved_total (h : HasRemoved list) (pos : Int) (e : E) :
    ∃ list', insertRemoved pos e list = .ok () list' := by
  rw [insertRemoved]
  cases hfind : findSubChange pos list with
  | found idx =>
    obtain ⟨c, hc, -⟩ := binarySearch_found hfind
    simp only [hc]
    split
    · exact ⟨_, rfl⟩
    · exact ⟨_, rfl⟩
  | notFound idx =>
    dsimp only
    cases hprev : prevEndingAt list idx pos with
    | some c =>
      obtain ⟨r, hr⟩ := h c (prevEndingAt_mem hprev)
      simp only [addRemoved, hr, map_some]
      exact ⟨_, rfl⟩
    | none =>
      cases hnxt : nextStartingAt list idx (pos + 1) with
      | some c =>
        obtain ⟨r, hr⟩ := h c (nextStartingAt_mem hnxt)
        simp only [addRemovedFirst, shift, hr, map_some]
        exact ⟨_, rfl⟩
      | none => exact ⟨_, rfl⟩

theorem recordRemove_returns (h : HasRemoved list) (idx : Int) (e : E) :
    ∃ list', ListChangeBuilder.recordRemove idx e list = .ok () list' := by
  rw [ListChangeBuilder.recordRemove]
  cases hlast : list.getLast? with
  | none => exact insertRemoved_total h idx e
  | some last =>
    obtain ⟨r, hr⟩ := h last (mem_of_getLast? hlast)
    dsimp only
    split
    · simp only [addRemoved, hr, map_some]
      exact ⟨_, rfl⟩
    · split
      · simp only [addRemovedFirst, shift, hr, map_some]
        exact ⟨_, rfl⟩
      · exact insertRemoved_total h idx e

/-- There is a list to append to. -/
theorem recordRemove_total (h : HasRemoved list) (idx : Int) (e : E) :
    ∃ list', ListChangeBuilder.recordRemove idx e list = .ok () list' ∧ HasRemoved list' := by
  obtain ⟨list', hok⟩ := recordRemove_returns h idx e
  exact ⟨list', hok, stable_hasRemoved.recordRemove h hok⟩

/-! ## Updates -/

/-- No sub-change has a list of removed elements. -/
def NoRemoved (list : List (SubChange E)) : Prop := ∀ c ∈ list, c.removed = none

/-- Updates never get a list. -/
theorem NoRemoved.insertUpdate (h : NoRemoved list) (pos : Int) :
    NoRemoved (insertUpdate pos list) := by
  rw [OpenJfx.Collections.insertUpdate]
  split
  · exact h
  · split
    · rename_i c hprev
      refine all_set h _ ?_
      exact h c (prevEndingAt_mem hprev)
    · rename_i c _ hnxt
      refine all_set h _ ?_
      exact h c (nextStartingAt_mem hnxt)
    · exact all_insertIdx h _ rfl

theorem NoRemoved.dropUpdate (h : NoRemoved list) (idx : Int) :
    NoRemoved (ListChangeBuilder.dropUpdate idx list) := by
  unfold ListChangeBuilder.dropUpdate
  split
  · exact h
  · split
    · exact all_shiftFrom (fun _ _ => id) h _ _
    · split
      · exact h
      · rename_i c hget
        split
        · exact all_shiftFrom (fun _ _ => id) (all_eraseIdx h _) _ _
        · refine all_shiftFrom (fun _ _ => id) (all_set h _ ?_) _ _
          exact h c (mem_of_getElem? hget)

theorem NoRemoved.splitUpdate (h : NoRemoved list) (from_ to_ : Int) :
    NoRemoved (ListChangeBuilder.splitUpdate from_ to_ list) := by
  unfold ListChangeBuilder.splitUpdate
  split
  · exact h
  · split
    · exact all_shiftFrom (fun _ _ => id) h _ _
    · split
      · exact h
      · rename_i c hget
        refine all_shiftFrom (fun _ _ => id) (all_insertIdx (all_set h _ ?_) _ ?_) _ _
        · exact h c (mem_of_getElem? hget)
        · rfl

/-! ## `compress` -/

/-- Two lists can be joined. -/
theorem compressLoop_total_hasRemoved
    (h : HasRemoved (prev :: rest)) : ∃ out, compressLoop prev rest = .ok out := by
  induction rest generalizing prev with
  | nil => exact ⟨_, rfl⟩
  | cons cur rest ih =>
    obtain ⟨r1, hr1⟩ := h.head
    obtain ⟨r2, hr2⟩ := h.tail.head
    rw [compressLoop, hr1, hr2]
    split
    · refine ih ?_
      intro c hc
      rcases mem_cons.mp hc with rfl | hc
      · exact ⟨_, rfl⟩
      · exact h.tail.tail c hc
    · obtain ⟨out, hout⟩ := ih h.tail
      exact ⟨prev :: out, by rw [hout]; rfl⟩

/-- Where there are no lists, none is joined. -/
theorem compressLoop_total_noRemoved
    (h : NoRemoved (prev :: rest)) : ∃ out, compressLoop prev rest = .ok out := by
  induction rest generalizing prev with
  | nil => exact ⟨_, rfl⟩
  | cons cur rest ih =>
    have hr1 := h prev mem_cons_self
    have htail : NoRemoved (cur :: rest) := fun c hc => h c (mem_cons_of_mem _ hc)
    have hr2 := htail cur mem_cons_self
    rw [compressLoop, hr1, hr2]
    split
    · refine ih ?_
      intro c hc
      rcases mem_cons.mp hc with rfl | hc
      · rfl
      · exact htail c (.tail _ hc)
    · obtain ⟨out, hout⟩ := ih htail
      exact ⟨prev :: out, by rw [hout]; rfl⟩

/-! ## The builder -/

namespace ListChangeBuilder

/-- A builder for which no call throws but for its lock. -/
structure Sound (b : ListChangeBuilder E) : Prop where
  hasRemoved : HasRemoved b.addRemoveChanges
  noRemoved : NoRemoved b.updateChanges

theorem sound_empty (lock : Int) (perm : Option (SubChange E)) :
    Sound (⟨lock, [], [], perm⟩ : ListChangeBuilder E) :=
  ⟨hasRemoved_nil, fun _ hc => by cases hc⟩

/-- Both kinds of sub-changes can be compressed. -/
theorem commitArray_total (h : Sound b) : ∃ array, commitArray b = .ok array := by
  obtain ⟨lock, ar, up, perm⟩ := b
  obtain ⟨har, hup⟩ := h
  cases up with
  | nil =>
    cases ar with
    | nil => exact ⟨_, rfl⟩
    | cons c ar =>
      obtain ⟨cs, hcs⟩ := compressLoop_total_hasRemoved har
      exact ⟨(perm.toList ++ cs ++ []).map finalize, by
        simp [commitArray, compress, hcs, Bind.bind, Except.bind, Pure.pure, Except.pure]⟩
  | cons u up =>
    obtain ⟨us, hus⟩ := compressLoop_total_noRemoved hup
    cases ar with
    | nil => exact ⟨(perm.toList ++ [] ++ us).map finalize, by
        simp [commitArray, compress, hus, Bind.bind, Except.bind, Pure.pure, Except.pure]⟩
    | cons c ar =>
      obtain ⟨cs, hcs⟩ := compressLoop_total_hasRemoved har
      exact ⟨(perm.toList ++ cs ++ us).map finalize, by
        simp [commitArray, compress, hus, hcs, Bind.bind, Except.bind, Pure.pure, Except.pure]⟩

/-- The last `endChange` empties the builder. -/
theorem Sound.endChange (h : Sound b) (hlock : 0 < b.changeLock) :
    ∃ fired b', Returns endChange b fired b' ∧ Sound b' ∧ b'.changeLock = b.changeLock - 1 := by
  simp only [Returns, ListChangeBuilder.endChange]
  rw [if_neg (by omega), commit]
  dsimp only
  split
  · split
    · exact ⟨_, _, rfl, sound_empty _ _, rfl⟩
    · obtain ⟨array, harray⟩ := commitArray_total (b := { b with changeLock := b.changeLock - 1 })
        { h with }
      rw [harray]
      exact ⟨_, _, rfl, sound_empty _ _, rfl⟩
  · exact ⟨_, _, rfl, { h with }, rfl⟩

theorem Sound.endChange_last (h : Sound b) (hlock : b.changeLock = 1) :
    ∃ fired, Returns ListChangeBuilder.endChange b fired new := by
  obtain ⟨lock, ar, up, perm⟩ := b
  dsimp only at hlock
  subst hlock
  simp only [Returns, ListChangeBuilder.endChange]
  rw [if_neg (by omega), commit]
  dsimp only
  split
  · split
    · exact ⟨_, rfl⟩
    · obtain ⟨array, harray⟩ := commitArray_total (b := ⟨1 - 1, ar, up, perm⟩)
        { h with }
      rw [harray]
      exact ⟨_, rfl⟩
  · next hemp =>
    have hsz : up.length + ar.length + perm.toList.length = 0 := by omega
    have har : ar = [] := length_eq_zero_iff.mp (by omega)
    have hup : up = [] := length_eq_zero_iff.mp (by omega)
    have hperm : perm = none := by
      cases perm with
      | none => rfl
      | some c => simp at hsz
    subst har hup hperm
    exact ⟨none, rfl⟩

theorem Sound.beginChange (h : Sound b) :
    ∃ b', Returns beginChange b () b' ∧ Sound b' ∧ b'.changeLock = b.changeLock + 1 :=
  ⟨_, rfl, { h with }, rfl⟩

theorem checkState_returns (h : b.changeLock ≠ 0) :
    Returns checkState b () b := by
  simp only [Returns, checkState, if_neg h]

theorem nextAdd_returns (h : b.changeLock ≠ 0) (from_ to_ : Int) : Returns (nextAdd from_ to_) b ()
      { b with
        addRemoveChanges := recordAdd from_ to_ b.addRemoveChanges
        updateChanges := splitUpdate from_ to_ b.updateChanges } :=
  (checkState_returns h).bind rfl

theorem nextRemove_returns (h : b.changeLock ≠ 0) {idx : Int}
    {cs : List (SubChange E)} (hcs : recordRemove idx e b.addRemoveChanges = .ok () cs) :
    Returns (nextRemove idx e) b ()
      { b with addRemoveChanges := cs, updateChanges := dropUpdate idx b.updateChanges } :=
  (checkState_returns h).bind ((Returns.zoom (m := recordRemove idx e) hcs).bind rfl)

section

variable (h : Sound b) (hlock : 0 < b.changeLock)
include h hlock

theorem Sound.nextAdd (from_ to_ : Int) :
    ∃ b', Returns (nextAdd from_ to_) b () b' ∧ Sound b' ∧ b'.changeLock = b.changeLock :=
  ⟨_, nextAdd_returns (by omega) from_ to_,
    ⟨stable_hasRemoved.recordAdd h.hasRemoved from_ to_, h.noRemoved.splitUpdate from_ to_⟩, rfl⟩

/-- A sound builder takes any call between `beginChange` and `endChange`. -/
theorem Sound.nextRemove (idx : Int) (e : E) :
    ∃ b', Returns (nextRemove idx e) b () b' ∧ Sound b' ∧ b'.changeLock = b.changeLock := by
  obtain ⟨cs, hcs, hr⟩ := recordRemove_total h.hasRemoved idx e
  exact ⟨_, nextRemove_returns (by omega) hcs, ⟨hr, h.noRemoved.dropUpdate idx⟩, rfl⟩

theorem Sound.nextRemoveAll (idx : Int) (removed : List E) :
    ∃ b', Returns (nextRemoveAll idx removed) b () b' ∧ Sound b' ∧
      b'.changeLock = b.changeLock := by
  have hloop : ∃ b', Returns (removed.forM (ListChangeBuilder.nextRemove idx)) b () b' ∧ Sound b' ∧
      b'.changeLock = b.changeLock := by
    induction removed generalizing b with
    | nil => exact ⟨b, rfl, h, rfl⟩
    | cons e removed ih =>
      obtain ⟨b1, hb1, h1, hl1⟩ := h.nextRemove hlock idx e
      obtain ⟨b2, hb2, h2, hl2⟩ := ih h1 (by omega)
      exact ⟨b2, hb1.bind hb2, h2, hl2.trans hl1⟩
  obtain ⟨b', hb', h', hl'⟩ := hloop
  exact ⟨b', (checkState_returns (by omega)).bind hb', h', hl'⟩

theorem Sound.nextSet (idx : Int) (old : E) :
    ∃ b', Returns (nextSet idx old) b () b' ∧ Sound b' ∧ b'.changeLock = b.changeLock := by
  obtain ⟨b1, hb1, h1, hl1⟩ := h.nextRemove hlock idx old
  obtain ⟨b2, hb2, h2, hl2⟩ := h1.nextAdd (by omega) idx (idx + 1)
  exact ⟨b2, hb1.bind hb2, h2, hl2.trans hl1⟩

theorem Sound.nextUpdate (idx : Int) :
    ∃ b', Returns (nextUpdate idx) b () b' ∧ Sound b' ∧ b'.changeLock = b.changeLock := by
  refine ⟨_, (checkState_returns (by omega)).bind rfl, ⟨h.hasRemoved, ?_⟩, rfl⟩
  dsimp only
  split
  · rename_i last hlast
    split
    · exact all_concat h.noRemoved (h.noRemoved last (mem_of_getLast? hlast))
    · exact h.noRemoved.insertUpdate idx
  · exact h.noRemoved.insertUpdate idx

end

end ListChangeBuilder

end OpenJfx.Collections
