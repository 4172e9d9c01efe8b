/-
  OpenJfx.Collections.ListChangeBuilder.Updates

  The update sub-changes of a block. The list carries a mark for every element on which
  `nextUpdate` has been called; `updateChanges` covers the marked positions, and `commit` fires
  them joined to ranges.
-/

import OpenJfx.Collections.ListChangeBuilder.UpdateRanges
import OpenJfx.Lib.Machine

namespace OpenJfx.Collections.ListChangeBuilder

open JavaM List SubChange Recorder

variable {perm : List Int} {from_ idx : Nat} {E : Type}

/-! ## Edits of a list with marks -/

/-- The elements, with a mark for each. -/
abbrev Marks (E : Type) := List (E × Bool)

/-- The element at `q` is marked. -/
def Marked (M : Marks E) (q : Int) : Prop := 0 ≤ q ∧ (M[q.toNat]?).map Prod.snd = some true

/-- A change of the list, or an update of one of its elements. -/
inductive Edit (E : Type) where
  | add (from_ : Nat) (added : List E)
  | remove (idx : Nat)
  | update (idx : Nat)
  /-- The permutation is in an array of the caller. -/
  | permute (from_ : Nat) (perm : List Int) (array : Nat)

open Edit

namespace Edit

/-- The list after the edit, when its positions are valid. -/
def perform (M : Marks E) : Edit E → Option (Marks E)
  | add from_ added =>
    if from_ ≤ M.length then some (M.take from_ ++ (added.map (·, false) ++ M.drop from_)) else none
  | remove idx => if idx < M.length then some (M.eraseIdx idx) else none
  | update idx => if idx < M.length then some (M.modify idx fun e => (e.1, true)) else none
  | permute from_ perm _ =>
    if from_ + perm.length ≤ M.length ∧ IsPermutation from_ perm then some (permuted from_ perm M)
    else none

/-- Its report to the builder; `M` is the list before the edit. -/
def report (M : Marks E) : Edit E → JavaM (Recorder E) Unit
  | add from_ added => onBuilder (nextAdd from_ (from_ + added.length))
  | remove idx => onBuilder ((M.drop idx).head?.toList.forM fun e => nextRemove idx e.1)
  | update idx => onBuilder (nextUpdate idx)
  | permute from_ perm array => do
    modify (fill array perm)
    Recorder.nextPermutation M.length from_ (from_ + perm.length) array perm

end Edit

section Marked

variable {M : Marks E} {q : Int}

theorem marked_add_of_lt (added : List E) (hq : q < from_) (hle : from_ ≤ M.length) :
    Marked (M.take from_ ++ (added.map (·, false) ++ M.drop from_)) q ↔ Marked M q := by
  rw [Marked, Marked]
  refine and_congr_right fun h0 => ?_
  rw [getElem?_append_left (by rw [length_take]; omega),
    getElem?_take_of_lt (by omega)]

theorem not_marked_added {added : List E} (hq : from_ ≤ q)
    (hq' : q < from_ + added.length) (hle : from_ ≤ M.length) :
    ¬ Marked (M.take from_ ++ (added.map (·, false) ++ M.drop from_)) q := by
  have hlen : (M.take from_).length = from_ := by rw [length_take]; omega
  rintro ⟨-, h⟩
  rw [getElem?_append_right (by omega), hlen,
    getElem?_append_left (by rw [length_map]; omega), getElem?_map,
    getElem?_eq_getElem (by omega)] at h
  cases h

theorem marked_add_of_ge {added : List E} (hq : from_ + added.length ≤ q) (hle : from_ ≤ M.length) :
    Marked (M.take from_ ++ (added.map (·, false) ++ M.drop from_)) q ↔
      Marked M (q - added.length) := by
  have hlen : (M.take from_).length = from_ := by rw [length_take]; omega
  have hidx : from_ + (q.toNat - from_ - added.length) = (q - added.length).toNat := by omega
  rw [Marked, Marked, getElem?_append_right (by omega), hlen,
    getElem?_append_right (by rw [length_map]; omega), length_map,
    getElem?_drop, hidx]
  exact and_congr_left fun _ => by omega

theorem marked_eraseIdx (idx : Nat) :
    Marked (M.eraseIdx idx) q ↔ if q < idx then Marked M q else Marked M (q + 1) := by
  split
  · rw [Marked, Marked]
    refine and_congr_right fun h0 => ?_
    rw [getElem?_eraseIdx_of_lt (by omega)]
  · have hidx : (q + 1).toNat = q.toNat + 1 := by omega
    rw [Marked, Marked, getElem?_eraseIdx_of_ge (by omega), hidx]
    exact and_congr_left fun _ => by omega

theorem marked_update (h : idx < M.length) :
    Marked (M.modify idx fun e => (e.1, true)) q ↔ Marked M q ∨ q = idx := by
  rw [Marked, Marked, getElem?_modify]
  by_cases hq : q = idx
  · subst hq
    simp [getElem?_eq_getElem h]
  · rw [or_iff_left hq]
    refine and_congr_right fun h0 => ?_
    have hne : idx ≠ q.toNat := by omega
    simp [hne]

theorem marked_permuted (hperm : IsPermutation from_ perm)
    (hle : (from_ : Int) + perm.length ≤ M.length) :
    Marked (permuted from_ perm M) q ↔ Marked M (source from_ perm q) := by
  have hlen := hperm.permuted_length (Int.natCast_nonneg from_) hle
  by_cases h0 : 0 ≤ q ∧ q < M.length
  · obtain ⟨h1, h2⟩ := hperm.source_bounds (Int.natCast_nonneg from_) hle h0.1 h0.2
    have hget := hperm.permuted_getElem? (Int.natCast_nonneg from_) hle (k := q.toNat) (by omega)
    rw [Int.toNat_of_nonneg h0.1] at hget
    rw [Marked, Marked, hget]
    exact and_congr_left fun _ => iff_of_true h0.1 h1
  · -- outside of the list nothing moves
    have hsource : source from_ perm q = q := if_neg (by omega)
    rw [hsource, Marked, Marked]
    refine and_congr_right fun h => ?_
    rw [getElem?_eq_none (by omega), getElem?_eq_none (by omega)]

end Marked

/-! ## Calls that throw -/

/-- The sub-change whose list `nextRemove(idx, e)` extends. -/
def takesRemoved (idx : Int) (list : List (SubChange E)) : Option (SubChange E) :=
  let searched :=
    match findSubChange idx list with
    | .found _ => none
    | .notFound i => (prevEndingAt list i idx).or (nextStartingAt list i (idx + 1))
  match list.getLast? with
  | some last => if last.to_ = idx ∨ last.from_ = idx + 1 then some last else searched
  | none => searched

variable {list : List (SubChange E)}

theorem insertRemoved_returns_iff {idx : Int} {e : E} :
    (∃ list', insertRemoved idx e list = .ok () list') ↔
      ∀ c, (match findSubChange idx list with
        | .found _ => none
        | .notFound i => (prevEndingAt list i idx).or (nextStartingAt list i (idx + 1))) = some c →
          c.removed.isSome := by
  rw [insertRemoved]
  cases hfind : findSubChange idx list with
  | found i =>
    obtain ⟨c, hc, -⟩ := binarySearch_found hfind
    simp only [hc]
    refine iff_of_true ?_ (fun _ h => by cases h)
    split <;> exact ⟨_, rfl⟩
  | notFound i =>
    dsimp only
    cases hprev : prevEndingAt list i idx with
    | some c =>
      cases hr : c.removed with
      | none | some r => simp [addRemoved, hr]
    | none =>
      cases hnxt : nextStartingAt list i (idx + 1) with
      | some c =>
        cases hr : c.removed with
        | none | some r => simp [addRemovedFirst, shift, hr]
      | none => simp

theorem recordRemove_returns_iff {idx : Int} {e : E} :
    (∃ list', recordRemove idx e list = .ok () list') ↔
      ∀ c, takesRemoved idx list = some c → c.removed.isSome := by
  rw [recordRemove, takesRemoved]
  cases hlast : list.getLast? with
  | none => exact insertRemoved_returns_iff
  | some last =>
    dsimp only
    by_cases hto : last.to_ = idx
    · rw [if_pos hto, if_pos (Or.inl hto)]
      cases hr : last.removed with
      | none | some r => simp [addRemoved, hr]
    · rw [if_neg hto]
      by_cases hfrom : last.from_ = idx + 1
      · rw [if_pos hfrom, if_pos (Or.inr hfrom)]
        cases hr : last.removed with
        | none | some r => simp [addRemovedFirst, shift, hr]
      · rw [if_neg hfrom, if_neg (not_or.mpr ⟨hto, hfrom⟩)]
        exact insertRemoved_returns_iff

/-- `compress` can join `b` to `a`. -/
def Joinable (a b : SubChange E) : Prop :=
  a.to_ = b.from_ → a.removed.isSome → b.removed.isSome

instance (a b : SubChange E) : Decidable (Joinable a b) :=
  inferInstanceAs (Decidable (_ → _ → _))

variable {prev : SubChange E}

theorem compressLoop_returns {rest : List (SubChange E)}
    (h : (prev :: rest).IsChain Joinable) : ∃ out, compressLoop prev rest = .ok out := by
  induction rest generalizing prev with
  | nil => exact ⟨[prev], rfl⟩
  | cons cur rest ih =>
    obtain ⟨hjoin, hrest⟩ := isChain_cons_cons.mp h
    rw [compressLoop]
    split
    · rename_i htouch
      have hjoined := hjoin htouch
      -- the joined sub-change has a list only if the second of the two has one
      have hchain : ∀ removed : Option (List E), (removed.isSome → cur.removed.isSome) →
          ({ prev with to_ := cur.to_, removed := removed } :: rest).IsChain Joinable := by
        intro removed himp
        cases rest with
        | nil => exact List.IsChain.singleton _
        | cons next rest =>
          obtain ⟨hnxt, hrest'⟩ := isChain_cons_cons.mp hrest
          exact isChain_cons_cons.mpr ⟨fun hto hr => hnxt hto (himp hr), hrest'⟩
      split
      · rename_i hp hc
        exact ih (hchain _ (by simp [hp]))
      · rename_i r hp hc
        exact ih (hchain _ (by rw [hc]; exact id))
      · rename_i hp hc
        rw [hp, hc] at hjoined
        cases hjoined rfl
      · rename_i p r hp hc
        exact ih (hchain _ (by rw [hc]; exact fun _ => rfl))
    · obtain ⟨out, hout⟩ := ih hrest
      exact ⟨prev :: out, by rw [hout]; rfl⟩

/-! ## Which sub-changes are updates -/

theorem stable_notUpdated : Stable fun c : SubChange E => c.updated = false :=
  ⟨fun _ _ _ => id, fun _ _ => id, fun _ _ _ => rfl⟩

section MoveAddRemove

variable {cs cs' : List (SubChange E)}

theorem notUpdated_growRun (h : ∀ c ∈ cs, c.updated = false) (i : Int) :
    ∀ c ∈ growRun false cs i, c.updated = false := by
  rw [growRun]
  split
  · rename_i last hlast
    split
    · exact forall_mem_append.mpr ⟨h, forall_mem_cons.mpr ⟨rfl, forall_mem_nil _⟩⟩
    · exact all_concat h (h last (mem_of_getLast? hlast))
  · exact forall_mem_cons.mpr ⟨rfl, forall_mem_nil _⟩

theorem notUpdated_attachRemoved (h : ∀ c ∈ cs, c.updated = false) (removed : List E) :
    ∀ c ∈ attachRemoved cs removed, c.updated = false := by
  rw [attachRemoved]
  split
  · rename_i last hlast
    exact all_concat h (h last (mem_of_getLast? hlast))
  · exact h

theorem notUpdated_addRuns (is : List Int) {s : List (SubChange E) × List (Int × List E)}
    (h : ∀ c ∈ s.1, c.updated = false) : ∀ c ∈ (is.foldl addRun s).1, c.updated = false := by
  induction is generalizing s with
  | nil => exact h
  | cons i is ih =>
    apply ih
    rw [addRun]
    split
    · exact notUpdated_growRun h i
    · exact notUpdated_attachRemoved (notUpdated_growRun h i) _

theorem notUpdated_insertAnchors (entries : List (Int × List E))
    (h : ∀ c ∈ cs, c.updated = false) (hok : entries.foldlM insertAnchor cs = .ok cs') :
    ∀ c ∈ cs', c.updated = false := by
  induction entries generalizing cs with
  | nil =>
    cases hok
    exact h
  | cons entry entries ih =>
    rw [foldlM_cons, insertAnchor] at hok
    split at hok
    · cases hok
    · exact ih (all_insertIdx h _ rfl) hok

theorem notUpdated_moveAddRemove {from_ : Int}
    (hok : moveAddRemove from_ (from_ + perm.length) perm cs = .ok cs') :
    ∀ c ∈ cs', c.updated = false := by
  rw [moveAddRemove, foldlM_addImages] at hok
  cases hput : cs.foldlM (putImage from_ (from_ + perm.length) perm) [] with
  | error e =>
    simp only [hput, bind, Except.bind] at hok
    cases hok
  | ok entries =>
    simp only [hput, bind, Except.bind] at hok
    exact notUpdated_insertAnchors _ (notUpdated_addRuns _ (forall_mem_nil _)) hok

end MoveAddRemove

theorem notUpdated_joinPermutation {p : Option (SubChange E)} {from_ to_ : Int}
    {c : SubChange E} (hp : ∀ d, p = some d → d.updated = false)
    (hok : joinPermutation p from_ to_ perm = .ok c) : c.updated = false := by
  cases p with
  | none =>
    cases hok
    rfl
  | some d =>
    rw [joinPermutation] at hok
    dsimp only at hok
    split at hok
    · cases hm : d.perm.mapM fun q => JavaArray.get perm (q - from_) with
      | error e =>
        simp only [hm, bind, Except.bind] at hok
        cases hok
      | ok perm' =>
        simp only [hm, bind, Except.bind, pure, Except.pure] at hok
        cases hok
        exact hp d rfl
    · cases hm : (segment id (min d.from_ from_) (max d.to_ to_ - min d.from_ from_).toNat).mapM
        (joinEntry d from_ to_ perm) with
      | error e =>
        simp only [hm, bind, Except.bind] at hok
        cases hok
      | ok perm' =>
        simp only [hm, bind, Except.bind, pure, Except.pure] at hok
        cases hok
        exact hp d rfl

variable {b : ListChangeBuilder E}

theorem notUpdated_movePermutation {n : Nat} {from_ to_ : Int} {c : SubChange E}
    (hp : ∀ d, b.permutationChange = some d → d.updated = false)
    (hok : movePermutation n from_ to_ perm b = .ok c) : c.updated = false := by
  rw [movePermutation] at hok
  split at hok
  · exact notUpdated_joinPermutation hp hok
  · cases horig : originalPermutation from_ to_ perm n b.addRemoveChanges with
    | error e =>
      simp only [horig, bind, Except.bind] at hok
      cases hok
    | ok newPerm =>
      simp only [horig, bind, Except.bind] at hok
      exact notUpdated_joinPermutation hp hok

theorem notUpdated_compressLoop {rest out : List (SubChange E)}
    (h : ∀ c ∈ prev :: rest, c.updated = false) (hout : compressLoop prev rest = .ok out) :
    ∀ c ∈ out, c.updated = false := by
  induction rest generalizing prev out with
  | nil =>
    cases hout
    exact h
  | cons cur rest ih =>
    obtain ⟨hprev, hrest⟩ := forall_mem_cons.mp h
    obtain ⟨hcur, htail⟩ := forall_mem_cons.mp hrest
    have hmerge : ∀ t r, ∀ c ∈ ({ prev with to_ := t, removed := r } : SubChange E) :: rest,
        c.updated = false := fun t r => forall_mem_cons.mpr ⟨hprev, htail⟩
    rw [compressLoop] at hout
    split at hout
    · split at hout
      · exact ih (hmerge _ _) hout
      · exact ih (hmerge _ _) hout
      · cases hout
      · exact ih (hmerge _ _) hout
    · cases htail : compressLoop cur rest with
      | error e =>
        rw [htail] at hout
        cases hout
      | ok out' =>
        rw [htail] at hout
        cases hout
        exact forall_mem_cons.mpr ⟨hprev, ih hrest htail⟩

/-! ## One edit -/

/-- In a change block, `updateChanges` covers the marked elements. -/
structure Follows (b : ListChangeBuilder E) (M : Marks E) : Prop where
  lock : b.changeLock = 1
  ranges : UpdateRanges b.updateChanges
  covered : ∀ q, covers b.updateChanges q = true ↔ Marked M q
  addRemove : ∀ c ∈ b.addRemoveChanges, c.updated = false
  permutation : ∀ c, b.permutationChange = some c → c.updated = false

/-- An insertion at the first position of a recorded update range. -/
def Edit.AtRangeStart (b : ListChangeBuilder E) : Edit E → Prop
  | .add from_ _ => ∃ c ∈ b.updateChanges, c.from_ = from_
  | _ => False

/-- A permutation that is composed in the array passed. -/
def Edit.Overwriting (M : Marks E) (r : Recorder E) : Edit E → Prop
  | .permute from_ perm array => r.Overwrites M.length from_ (from_ + perm.length) array
  | _ => False

/-- The edit cannot be recorded: a removal that goes to a sub-change without a list, or a
    permutation when they do not replay the list, or with a gap to the recorded one. -/
def Edit.Unrecordable (M : Marks E) (r : Recorder E) : Edit E → Prop
  | .remove idx => ∃ c, takesRemoved idx r.builder.addRemoveChanges = some c ∧ c.removed = none
  | .permute from_ perm array =>
    ¬ (∃ L₀ P, recordedPermutation L₀ (r.fill array perm).builder.permutationChange = some P ∧
        Tracks 0 r.builder.addRemoveChanges P (M.map Prod.fst)) ∨
      ¬ (r.builder.addRemoveChanges = [] → ∀ p ∈ r.builder.permutationChange,
        p.from_ ≤ from_ + perm.length ∧ from_ ≤ p.to_)
  | _ => False

variable {M : Marks E}

theorem Follows.lock_ne (h : Follows b M) :
    b.changeLock ≠ 0 := by
  have := h.lock
  omega

section Step

variable {b : ListChangeBuilder E} {M M' : Marks E}

theorem Follows.add (h : Follows b M) (added : List E) (hle : from_ ≤ M.length) :
    ∃ b', Returns (nextAdd from_ (from_ + added.length)) b () b' ∧
      Follows b' (M.take from_ ++ (added.map (·, false) ++ M.drop from_)) ∧
      ((∀ c ∈ b.updateChanges, c.from_ ≠ from_) → NoneEmpty b.updateChanges →
        NoneEmpty b'.updateChanges) := by
  have hft : (from_ : Int) ≤ from_ + added.length := by omega
  obtain ⟨hrngs, hbelow, hnew, habove⟩ := h.ranges.splitUpdate hft
  refine ⟨_, nextAdd_returns h.lock_ne _ _, ⟨h.lock, hrngs, fun q => ?_,
    stable_notUpdated.recordAdd h.addRemove _ _, h.permutation⟩,
    fun hne hall => hall.splitUpdate hne _⟩
  by_cases hq : q < from_
  · rw [hbelow q hq, h.covered, marked_add_of_lt added hq hle]
  · by_cases hq' : q < from_ + added.length
    · exact iff_of_false (hnew q (by omega) hq') (not_marked_added (by omega) hq' hle)
    · have hsub : q - ((from_ : Int) + added.length - from_) = q - added.length := by omega
      rw [habove q (by omega), h.covered, marked_add_of_ge (by omega) hle, hsub]

theorem Follows.remove (h : Follows b M) (e : E)
    (hrec : ∀ c, takesRemoved idx b.addRemoveChanges = some c → c.removed.isSome) :
    ∃ b', Returns (nextRemove idx e) b () b' ∧ Follows b' (M.eraseIdx idx) ∧
      (NoneEmpty b.updateChanges → NoneEmpty b'.updateChanges) := by
  obtain ⟨cs, hcs⟩ := (recordRemove_returns_iff (e := e)).mpr hrec
  obtain ⟨hrngs, hbelow, habove⟩ := h.ranges.dropUpdate idx
  refine ⟨_, nextRemove_returns h.lock_ne hcs, ⟨h.lock, hrngs, fun q => ?_,
    stable_notUpdated.recordRemove h.addRemove hcs, h.permutation⟩, fun hall => hall.dropUpdate _⟩
  rw [marked_eraseIdx]
  split
  · rename_i hq
    rw [hbelow q hq, h.covered]
  · rename_i hq
    rw [habove q (Int.not_lt.mp hq), h.covered]

theorem Follows.update (h : Follows b M) (hlt : idx < M.length) :
    ∃ b', Returns (nextUpdate idx) b () b' ∧
      Follows b' (M.modify idx fun e => (e.1, true)) ∧
      (NoneEmpty b.updateChanges → NoneEmpty b'.updateChanges) := by
  obtain ⟨us, hret, hrngs, hcov⟩ := nextUpdate_returns h.lock_ne h.ranges idx
  refine ⟨_, hret, ⟨h.lock, hrngs, fun q => ?_, h.addRemove, h.permutation⟩,
    fun hall => hall.nextUpdate hret h.lock_ne⟩
  rw [hcov, h.covered, marked_update hlt]

theorem Follows.permute (h : Follows b M)
    (hle : from_ + perm.length ≤ M.length) (hperm : IsPermutation from_ perm)
    (hreplays : ∃ L0 P, recordedPermutation L0 b.permutationChange = some P ∧
      Tracks 0 b.addRemoveChanges P (M.map Prod.fst))
    (htouch : b.addRemoveChanges = [] → ∀ p ∈ b.permutationChange,
      p.from_ ≤ from_ + perm.length ∧ from_ ≤ p.to_) :
    ∃ b', permutationStep M.length from_ (from_ + perm.length) perm b = .ok b' ∧
      Follows b' (permuted from_ perm M) ∧ NoneEmpty b'.updateChanges := by
  obtain ⟨L0, P, hP, ht⟩ := hreplays
  have hle' : (from_ : Int) + perm.length ≤ (M.map Prod.fst).length := by
    rw [length_map]
    omega
  obtain ⟨c, hc, -⟩ := movePermutation_spec hperm (Int.natCast_nonneg from_) hle' hP ht htouch
  rw [length_map] at hc hle'
  obtain ⟨W, hmove, -, -⟩ := moveAddRemove_spec hperm b.addRemoveChanges
  obtain ⟨us, hus, hrngs, hcov⟩ := moveUpdates_spec hperm b.updateChanges
  have hstep : permutationStep M.length from_ (from_ + perm.length) perm b
      = .ok ⟨b.changeLock, W.map Prod.fst, us, some c⟩ := by
    rw [permutationStep, hc, hmove, hus]
    rfl
  refine ⟨_, hstep, ⟨h.lock, hrngs, fun q => ?_,
    notUpdated_moveAddRemove hmove, ?_⟩, noneEmpty_moveUpdates hus⟩
  · rw [hcov, h.covered, marked_permuted hperm hle']
  · intro d hd
    cases hd
    exact notUpdated_movePermutation h.permutation hc

variable {r : Recorder E} {array : Nat}

theorem overwrites_fill {n : Nat} {from_ to_ : Int} :
    (r.fill array perm).Overwrites n from_ to_ array ↔ r.Overwrites n from_ to_ array := by
  rw [fill]
  split
  · simp only [Overwrites, Option.mem_map, exists_exists_and_eq_and]
  · exact Iff.rfl

theorem fill_builder : ∃ pc, (r.fill array perm).builder = { r.builder with permutationChange := pc } ∧
    ∀ p ∈ pc, ∃ p' ∈ r.builder.permutationChange,
      p.from_ = p'.from_ ∧ p.to_ = p'.to_ ∧ p.updated = p'.updated := by
  rw [fill]
  split
  · refine ⟨_, rfl, fun p hp => ?_⟩
    obtain ⟨p', hp', rfl⟩ := Option.mem_map.mp hp
    exact ⟨p', hp', rfl, rfl, rfl⟩
  · exact ⟨_, rfl, fun p hp => ⟨p, hp, rfl, rfl, rfl⟩⟩

/-- What one report does: it returns, and the ranges keep to the marks. -/
theorem Follows.edit (h : Follows r.builder M) {edit : Edit E} (hlegal : edit.perform M = some M')
    (hrec : ¬ edit.Unrecordable M r) (hkept : ¬ edit.Overwriting M r) :
    ∃ r', Returns (edit.report M) r () r' ∧ Follows r'.builder M' ∧
      (¬ edit.AtRangeStart r.builder → NoneEmpty r.builder.updateChanges →
        NoneEmpty r'.builder.updateChanges) := by
  cases edit with
  | add from_ added =>
    simp only [perform, Option.ite_none_right_eq_some, Option.some.injEq] at hlegal
    obtain ⟨hle, rfl⟩ := hlegal
    obtain ⟨b', hb', hf, hne⟩ := h.add added hle
    exact ⟨_, hb'.zoom, hf, fun hst hall => hne (fun c hc heq => hst ⟨c, hc, heq⟩) hall⟩
  | remove idx =>
    simp only [perform, Option.ite_none_right_eq_some, Option.some.injEq] at hlegal
    obtain ⟨hlt, rfl⟩ := hlegal
    have hsome : ∀ c, takesRemoved idx r.builder.addRemoveChanges = some c → c.removed.isSome :=
      fun c hc => Option.isSome_iff_ne_none.mpr fun hnone => hrec ⟨c, hc, hnone⟩
    obtain ⟨b', hb', hf, hne⟩ := h.remove (M[idx]).1 hsome
    refine ⟨{ r with builder := b' }, Returns.zoom ?_, hf, fun _ => hne⟩
    rw [drop_eq_getElem_cons hlt]
    exact hb'.bind rfl
  | update idx =>
    simp only [perform, Option.ite_none_right_eq_some, Option.some.injEq] at hlegal
    obtain ⟨hlt, rfl⟩ := hlegal
    obtain ⟨b', hb', hf, hne⟩ := h.update hlt
    exact ⟨_, hb'.zoom, hf, fun _ => hne⟩
  | permute from_ perm array =>
    simp only [perform, Option.ite_none_right_eq_some, Option.some.injEq] at hlegal
    obtain ⟨⟨hle, hperm⟩, rfl⟩ := hlegal
    obtain ⟨hreplays, htouch⟩ := not_or.mp hrec
    obtain ⟨pc, hfill, hpc⟩ := @fill_builder perm _ r array
    have hf : Follows (r.fill array perm).builder M := by
      rw [hfill]
      refine ⟨h.lock, h.ranges, h.covered, h.addRemove, fun p hp => ?_⟩
      obtain ⟨p', hp', -, -, hup⟩ := hpc p hp
      exact hup.trans (h.permutation p' hp')
    have hcs : (r.fill array perm).builder.addRemoveChanges = r.builder.addRemoveChanges := by
      rw [hfill]
    obtain ⟨b', hb', hf', hne⟩ := hf.permute hle hperm (by rw [hcs]; exact not_not.mp hreplays)
      fun hnil p hp => by
        rw [hfill] at hp
        obtain ⟨p', hp', hfrom, hto, -⟩ := hpc p hp
        rw [hfrom, hto]
        exact not_not.mp htouch (hcs ▸ hnil) p' hp'
    have hmodify : Returns (modify (fill array perm)) r () (r.fill array perm) := rfl
    exact ⟨_, hmodify.bind (nextPermutation_returns hf.lock_ne (mt overwrites_fill.mp hkept) hb'),
      hf', fun _ _ => hne⟩

end Step

/-! ## The end of the block -/

/-- The update sub-changes fired cover the marked elements. -/
structure DescribesUpdates (M : Marks E) (fired : List (SubChange E)) : Prop where
  ascending : (fired.filter (·.updated)).Pairwise fun a b => a.to_ < b.from_
  nonEmpty : ∀ c ∈ fired, c.updated = true → c.from_ < c.to_
  covered : ∀ q, (∃ c ∈ fired, c.updated = true ∧ c.from_ ≤ q ∧ q < c.to_) ↔ Marked M q

theorem describesUpdates_append {M : Marks E} {others us : List (SubChange E)}
    (hothers : ∀ c ∈ others, c.updated = false) (hupd : ∀ c ∈ us, c.updated = true)
    (hasc : us.Pairwise fun a b => a.to_ < b.from_) (hne : NoneEmpty us)
    (hcov : ∀ q, covers us q = true ↔ Marked M q) :
    DescribesUpdates M ((others ++ us).map finalize) := by
  have hmem : ∀ c ∈ (others ++ us).map finalize, c.updated = true →
      ∃ u ∈ us, c = u.finalize := by
    rw [forall_mem_map]
    intro c hc hup
    rcases mem_append.mp hc with hc | hc
    · have := hothers c hc
      rw [show c.updated = true from hup] at this
      cases this
    · exact ⟨c, hc, rfl⟩
  refine ⟨?_, ?_, fun q => ?_⟩
  · have hfilt : (others ++ us).filter ((·.updated) ∘ finalize) = us := by
      rw [filter_append, filter_eq_nil_iff.mpr, filter_eq_self.mpr, nil_append]
      · exact hupd
      · intro c hc hup
        have := hothers c hc
        rw [show c.updated = true from hup] at this
        cases this
    rw [filter_map, hfilt]
    exact pairwise_map.mpr hasc
  · intro c hc hup
    obtain ⟨u, hu, rfl⟩ := hmem c hc hup
    exact hne u hu
  · rw [← hcov, covers_iff]
    constructor
    · rintro ⟨c, hc, hup, hfrom, hto⟩
      obtain ⟨u, hu, rfl⟩ := hmem c hc hup
      exact ⟨u, hu, hfrom, hto⟩
    · rintro ⟨u, hu, hfrom, hto⟩
      exact ⟨u.finalize, mem_map_of_mem (mem_append_right _ hu), hupd u hu, hfrom, hto⟩

theorem commitArray_describes (h : Follows b M)
    (hne : NoneEmpty b.updateChanges) (hchain : b.addRemoveChanges.IsChain Joinable) :
    ∃ array, commitArray b = .ok array ∧ DescribesUpdates M array := by
  obtain ⟨lock, cs, us, pc⟩ := b
  obtain ⟨-, hrngs, hcov, hcs, hpc⟩ := h
  dsimp only at hrngs hcov hcs hpc hne hchain
  -- the updates, joined
  obtain ⟨us', hus, hrngs', hasc, hcov', hne'⟩ :
      ∃ us', (us = [] ∧ us' = [] ∨ us.isEmpty = false ∧ compress us = .ok us') ∧ UpdateRanges us' ∧ (us'.Pairwise fun a b => a.to_ < b.from_) ∧
        (∀ q, covers us' q = true ↔ covers us q = true) ∧ NoneEmpty us' := by
    cases us with
    | nil =>
      exact ⟨[], Or.inl ⟨rfl, rfl⟩, hrngs, List.Pairwise.nil, fun _ => Iff.rfl, hne⟩
    | cons u us =>
      obtain ⟨out, hout, h1, h2, -, h3, h4⟩ := hrngs.compressLoop
      exact ⟨out, Or.inr ⟨rfl, hout⟩, h1, h2, h3, h4 hne⟩
  -- the others
  obtain ⟨cs', hcs', hplain⟩ :
      ∃ cs', (cs = [] ∧ cs' = [] ∨ cs.isEmpty = false ∧ compress cs = .ok cs') ∧
        ∀ c ∈ cs', c.updated = false := by
    cases cs with
    | nil => exact ⟨[], Or.inl ⟨rfl, rfl⟩, hcs⟩
    | cons c cs =>
      obtain ⟨out, hout⟩ := compressLoop_returns hchain
      exact ⟨out, Or.inr ⟨rfl, hout⟩, notUpdated_compressLoop hcs hout⟩
  refine ⟨(pc.toList ++ cs' ++ us').map finalize, ?_, ?_⟩
  · rcases hus with ⟨rfl, rfl⟩ | ⟨hus0, hus⟩ <;> rcases hcs' with ⟨rfl, rfl⟩ | ⟨hcs0, hcs'⟩ <;>
      simp [commitArray, *, bind, Except.bind, pure, Except.pure]
  · refine describesUpdates_append ?_ hrngs'.updated hasc hne' fun q => (hcov' q).trans (hcov q)
    refine forall_mem_append.mpr ⟨fun c hc => hpc c (Option.mem_toList.mp hc), hplain⟩

theorem Follows.endChange_returns (h : Follows b M)
    (hne : NoneEmpty b.updateChanges) (hchain : b.addRemoveChanges.IsChain Joinable) :
    ∃ fired, Returns endChange b fired new ∧ DescribesUpdates M (fired.getD []) := by
  obtain ⟨array, harray, hdesc⟩ := commitArray_describes h hne hchain
  obtain ⟨lock, cs, us, pc⟩ := b
  obtain ⟨hlock, hrngs, hcov, hcs, hpc⟩ := h
  dsimp only at hlock hrngs hcov hcs hpc hne hchain
  subst hlock
  simp only [Returns, endChange]
  rw [if_neg (by omega), commit]
  dsimp only
  have hothers : ∀ c ∈ cs ++ pc.toList, c.updated = false :=
    forall_mem_append.mpr ⟨hcs, fun c hc => hpc c (Option.mem_toList.mp hc)⟩
  by_cases htotal : us.length + cs.length + pc.toList.length = 0
  · -- nothing to fire
    obtain ⟨rfl, rfl, rfl⟩ : us = [] ∧ cs = [] ∧ pc = none := by
      have hpc0 : pc.toList = [] := length_eq_zero_iff.mp (by omega)
      exact ⟨length_eq_zero_iff.mp (by omega), length_eq_zero_iff.mp (by omega),
        Option.toList_eq_nil_iff.mp hpc0⟩
    refine ⟨none, rfl, ?_⟩
    exact @describesUpdates_append _ _ [] _ hothers hrngs.updated List.Pairwise.nil hne hcov
  · rw [if_pos ⟨rfl, Nat.pos_of_ne_zero htotal⟩]
    by_cases hone : us.length + cs.length + pc.toList.length = 1
    · rw [if_pos hone]
      refine ⟨_, rfl, ?_⟩
      rw [Option.getD_some]
      cases us with
      | nil =>
        rw [append_nil, ← append_nil (cs ++ pc.toList)]
        exact describesUpdates_append hothers hrngs.updated List.Pairwise.nil hne hcov
      | cons u us =>
        rw [length_cons] at hone
        obtain ⟨rfl, rfl, hpc0⟩ : us = [] ∧ cs = [] ∧ pc.toList = [] :=
          ⟨length_eq_zero_iff.mp (by omega), length_eq_zero_iff.mp (by omega),
            length_eq_zero_iff.mp (by omega)⟩
        rw [hpc0, append_nil]
        exact @describesUpdates_append _ _ [] _ (forall_mem_nil _) hrngs.updated
          (pairwise_singleton _ _) hne hcov
    · rw [if_neg hone]
      have harray' : commitArray ⟨1 - 1, cs, us, pc⟩ = .ok array := harray
      rw [harray']
      exact ⟨some array, rfl, hdesc⟩

/-! ## Runs -/

/-- The marks, and the builder. -/
abbrev Block (E : Type) := Marks E × Recorder E

/-- One edit with its report, when it is legal and the report returns. -/
def Edit.step (s : Block E) (edit : Edit E) : Option (Block E) :=
  match edit.perform s.1, edit.report s.1 s.2 with
  | some M, .ok _ r => some (M, r)
  | _, _ => none

/-- No insertion at the start of an update range, and no array written that is still read. -/
def Edit.Harmless (s : Block E) (edit : Edit E) : Prop :=
  ¬ edit.AtRangeStart s.2.builder ∧ ¬ edit.Unrecordable s.1 s.2 ∧ ¬ edit.Overwriting s.1 s.2

/-- The list after a sequence of edits, all legal. -/
def performEdits (M : Marks E) (edits : List (Edit E)) : Option (Marks E) :=
  runActions perform M edits

/-- The reports of a sequence of edits. -/
def reportEdits : Marks E → List (Edit E) → JavaM (Recorder E) Unit
  | _, [] => pure ()
  | M, edit :: edits => do
    edit.report M
    reportEdits ((edit.perform M).getD M) edits

theorem Edit.step_eq_some {s : Block E} {edit : Edit E}
    (hM : edit.perform s.1 = some M) (hr : Returns (edit.report s.1) s.2 () r) :
    edit.step s = some (M, r) := by
  rw [step, hM, show edit.report s.1 s.2 = _ from hr]

theorem Follows.run {M' : Marks E} {edits : List (Edit E)}
    (h : Follows r.builder M) (hne : NoneEmpty r.builder.updateChanges)
    (hlegal : performEdits M edits = some M')
    (hall : AllSteps Edit.Harmless step (M, r) edits) :
    ∃ r', Returns (reportEdits M edits) r () r' ∧ Follows r'.builder M' ∧
      NoneEmpty r'.builder.updateChanges ∧ runActions step (M, r) edits = some (M', r') := by
  induction edits generalizing r M with
  | nil =>
    cases hlegal
    exact ⟨r, rfl, h, hne, rfl⟩
  | cons edit edits ih =>
    rw [performEdits, runActions_cons] at hlegal
    obtain ⟨M1, hM1, hlegal⟩ := Option.bind_eq_some_iff.mp hlegal
    obtain ⟨⟨hst, hrec, hkept⟩, hrest⟩ := hall
    obtain ⟨r1, hr1, h1, hne1⟩ := h.edit hM1 hrec hkept
    have hstep := step_eq_some (s := (M, r)) hM1 hr1
    obtain ⟨r', hr', h', hne', hrun⟩ := ih h1 (hne1 hst hne) hlegal (hrest _ hstep)
    refine ⟨r', ?_, h', hne', ?_⟩
    · rw [reportEdits, hM1]
      exact hr1.bind hr'
    · rw [runActions_cons, hstep]
      exact hrun

/-! ## Calls -/

/-- A call on the builder, with the edit of the list it describes. -/
inductive UpdateCall (E : Type) where
  | nextUpdate (idx : Nat)
  | nextAdd (from_ : Nat) (added : List E)
  | nextRemove (idx : Nat)
  | nextRemoveAll (idx count : Nat)
  | nextSet (idx : Nat) (element : E)
  | nextReplace (from_ count : Nat) (added : List E)
  | nextPermutation (from_ : Nat) (perm : List Int) (array : Nat)

namespace UpdateCall

/-- The edits it stands for. -/
def edits : UpdateCall E → List (Edit E)
  | nextUpdate idx => [.update idx]
  | nextAdd from_ added => [.add from_ added]
  | nextRemove idx => [.remove idx]
  | nextRemoveAll idx count => List.replicate count (.remove idx)
  | nextSet idx element => [.remove idx, .add idx [element]]
  | nextReplace from_ count added => List.replicate count (.remove from_) ++ [.add from_ added]
  | nextPermutation from_ perm array => [.permute from_ perm array]

/-- The call itself; `M` is the list before the edit. -/
def report (M : Marks E) : UpdateCall E → JavaM (Recorder E) Unit
  | nextUpdate idx => onBuilder (ListChangeBuilder.nextUpdate idx)
  | nextAdd from_ added => onBuilder (ListChangeBuilder.nextAdd from_ (from_ + added.length))
  | nextRemove idx =>
    onBuilder ((M.drop idx).head?.toList.forM fun e => ListChangeBuilder.nextRemove idx e.1)
  | nextRemoveAll idx count =>
    onBuilder (ListChangeBuilder.nextRemoveAll idx (((M.drop idx).take count).map Prod.fst))
  | nextSet idx _ =>
    onBuilder ((M.drop idx).head?.toList.forM fun e => ListChangeBuilder.nextSet idx e.1)
  | nextReplace from_ count added =>
    onBuilder (ListChangeBuilder.nextReplace from_ (from_ + added.length)
      (((M.drop from_).take count).map Prod.fst))
  | nextPermutation from_ perm array => do
    modify (fill array perm)
    Recorder.nextPermutation M.length from_ (from_ + perm.length) array perm

end UpdateCall

/-- The calls one after the other. -/
def reportUpdateCalls : Marks E → List (UpdateCall E) → JavaM (Recorder E) Unit
  | _, [] => pure ()
  | M, call :: calls => do
    call.report M
    reportUpdateCalls ((performEdits M call.edits).getD M) calls

/-- A list on none of whose elements `nextUpdate` has been called. -/
def unmarked (L : List E) : Marks E := L.map (·, false)

/-- `beginChange(); calls; endChange();` on the list `L`: what is fired. -/
def updateBlock (calls : List (UpdateCall E)) (L : List E) :
    JavaM (Recorder E) (Option (List (SubChange E))) := do
  onBuilder beginChange
  reportUpdateCalls (unmarked L) calls
  onBuilder endChange

section Calls

variable {b : ListChangeBuilder E} {r r' : Recorder E} {M M' : Marks E}

theorem onBuilder_returns {m : JavaM (ListChangeBuilder E) Unit} :
    Returns (onBuilder m) r () r' ↔ ∃ b', Returns m r.builder () b' ∧ r' = ⟨b', r.permArray⟩ := by
  constructor
  · intro h
    rw [Returns, onBuilder, zoom] at h
    split at h
    · rename_i hm
      cases h
      exact ⟨_, hm, rfl⟩
    · cases h
  · rintro ⟨b', hb', rfl⟩
    exact hb'.zoom

theorem report_remove_returns (hlt : idx < M.length)
    (h : Returns ((remove idx : Edit E).report M) r () r') :
    ∃ b', Returns (ListChangeBuilder.nextRemove idx M[idx].1) r.builder () b' ∧
      r' = ⟨b', r.permArray⟩ := by
  rw [report, onBuilder_returns, drop_eq_getElem_cons hlt] at h
  obtain ⟨b', hb', rfl⟩ := h
  obtain ⟨u, b1, h1, h2⟩ := Returns.of_bind hb'
  cases h2
  exact ⟨_, h1, rfl⟩

theorem report_add_returns {added : List E} (h : Returns ((add from_ added).report M) r () r') :
    ∃ b', Returns (ListChangeBuilder.nextAdd from_ (from_ + added.length)) r.builder () b' ∧
      r' = ⟨b', r.permArray⟩ :=
  onBuilder_returns.mp h

variable {edits : List (Edit E)}

theorem reportEdits_cons_returns {edit : Edit E} {M1 : Marks E}
    (hM1 : edit.perform M = some M1) (h : Returns (reportEdits M (edit :: edits)) r () r') :
    ∃ r1, Returns (edit.report M) r () r1 ∧ Returns (reportEdits M1 edits) r1 () r' := by
  rw [reportEdits, hM1] at h
  obtain ⟨u, r1, h1, h2⟩ := Returns.of_bind h
  exact ⟨r1, h1, h2⟩

theorem reportEdits_single_returns {edit : Edit E} {M1 : Marks E} (hM1 : edit.perform M = some M1)
    (h : Returns (reportEdits M [edit]) r () r') : Returns (edit.report M) r () r' := by
  obtain ⟨r1, h1, h2⟩ := reportEdits_cons_returns hM1 h
  cases h2
  exact h1

theorem removes_return {count : Nat}
    (hlegal : performEdits M (List.replicate count (.remove idx) ++ edits) = some M')
    (h : Returns (reportEdits M (List.replicate count (.remove idx) ++ edits)) r () r') :
    ∃ M1 b1, Returns ((((M.drop idx).take count).map Prod.fst).forM
        (ListChangeBuilder.nextRemove idx)) r.builder () b1 ∧
      performEdits M1 edits = some M' ∧
      Returns (reportEdits M1 edits) ⟨b1, r.permArray⟩ () r' := by
  induction count generalizing M r with
  | zero => exact ⟨M, r.builder, rfl, hlegal, h⟩
  | succ count ih =>
    rw [replicate_succ, cons_append] at hlegal h
    rw [performEdits, runActions_cons] at hlegal
    obtain ⟨M1, hM1, hlegal⟩ := Option.bind_eq_some_iff.mp hlegal
    obtain ⟨r1, h1, hrest⟩ := reportEdits_cons_returns hM1 h
    simp only [perform, Option.ite_none_right_eq_some, Option.some.injEq] at hM1
    obtain ⟨hlt, rfl⟩ := hM1
    obtain ⟨b1, hb1, rfl⟩ := report_remove_returns hlt h1
    obtain ⟨M2, b2, h2, hlegal', h3⟩ := ih hlegal hrest
    refine ⟨M2, b2, ?_, hlegal', h3⟩
    have hdrop : (M.eraseIdx idx).drop idx = M.drop (idx + 1) := by
      rw [eraseIdx_eq_take_drop_succ, drop_left' (by rw [length_take]; omega)]
    rw [hdrop] at h2
    rw [drop_eq_getElem_cons hlt, take_succ_cons, map_cons]
    exact hb1.bind h2

theorem UpdateCall.report_returns {call : UpdateCall E} (hlock : r.builder.changeLock ≠ 0)
    (hlegal : performEdits M call.edits = some M')
    (h : Returns (reportEdits M call.edits) r () r') : Returns (call.report M) r () r' := by
  have hsingle : ∀ edit : Edit E, performEdits M [edit] = some M' → edit.perform M = some M' := by
    intro edit hedit
    rw [performEdits, runActions_cons] at hedit
    obtain ⟨M1, hM1, hrest⟩ := Option.bind_eq_some_iff.mp hedit
    cases hrest
    exact hM1
  cases call with
  | nextUpdate idx | nextAdd from_ added | nextRemove idx | nextPermutation from_ perm array =>
    exact reportEdits_single_returns (hsingle _ hlegal) h
  | nextRemoveAll idx count =>
    rw [UpdateCall.edits, ← append_nil (List.replicate _ _)] at hlegal h
    obtain ⟨M1, b1, h1, -, h2⟩ := removes_return hlegal h
    cases h2
    exact onBuilder_returns.mpr ⟨b1, (checkState_returns hlock).bind h1, rfl⟩
  | nextReplace from_ count added =>
    obtain ⟨M1, b1, h1, hlegal1, h2⟩ := removes_return hlegal h
    rw [performEdits, runActions_cons] at hlegal1
    obtain ⟨M2, hM2, -⟩ := Option.bind_eq_some_iff.mp hlegal1
    obtain ⟨b2, hb2, rfl⟩ := report_add_returns (reportEdits_single_returns hM2 h2)
    exact onBuilder_returns.mpr ⟨b2, ((checkState_returns hlock).bind h1).bind hb2, rfl⟩
  | nextSet idx element =>
    rw [UpdateCall.edits, performEdits, runActions_cons] at hlegal
    obtain ⟨M1, hM1, hlegal⟩ := Option.bind_eq_some_iff.mp hlegal
    obtain ⟨r1, h1, h2⟩ := reportEdits_cons_returns hM1 h
    rw [runActions_cons] at hlegal
    obtain ⟨M2, hM2, -⟩ := Option.bind_eq_some_iff.mp hlegal
    have hadd := reportEdits_single_returns hM2 h2
    simp only [perform, Option.ite_none_right_eq_some, Option.some.injEq] at hM1
    obtain ⟨hlt, rfl⟩ := hM1
    obtain ⟨b1, hb1, rfl⟩ := report_remove_returns hlt h1
    obtain ⟨b2, hb2, rfl⟩ := report_add_returns hadd
    rw [UpdateCall.report, onBuilder_returns, drop_eq_getElem_cons hlt]
    exact ⟨b2, Returns.bind (hb1.bind hb2) rfl, rfl⟩

theorem Follows.calls {calls : List (UpdateCall E)} (h : Follows r.builder M)
    (hne : NoneEmpty r.builder.updateChanges)
    (hlegal : performEdits M (calls.flatMap UpdateCall.edits) = some M')
    (hall : AllSteps Edit.Harmless step (M, r) (calls.flatMap UpdateCall.edits)) :
    ∃ r', Returns (reportUpdateCalls M calls) r () r' ∧ Follows r'.builder M' ∧
      NoneEmpty r'.builder.updateChanges ∧
      runActions step (M, r) (calls.flatMap UpdateCall.edits) = some (M', r') := by
  induction calls generalizing r M with
  | nil =>
    cases hlegal
    exact ⟨r, rfl, h, hne, rfl⟩
  | cons call calls ih =>
    rw [flatMap_cons] at hlegal hall ⊢
    rw [performEdits, runActions_append] at hlegal
    obtain ⟨M1, hM1, hlegal⟩ := Option.bind_eq_some_iff.mp hlegal
    obtain ⟨hfst, hrest⟩ := hall.of_append
    obtain ⟨r1, hr1, h1, hne1, hrun1⟩ := h.run hne hM1 hfst
    obtain ⟨r', hr', h', hne', hrun⟩ := ih h1 hne1 hlegal (hrest _ hrun1)
    refine ⟨r', ?_, h', hne', ?_⟩
    · rw [reportUpdateCalls, show performEdits M call.edits = some M1 from hM1]
      exact (UpdateCall.report_returns h.lock_ne hM1 hr1).bind hr'
    · rw [runActions_append, hrun1]
      exact hrun

end Calls

/-- The state in which the calls of a block start. -/
def updateBlockStart (L : List E) : Block E := (unmarked L, ⟨⟨1, [], [], none⟩, none⟩)

theorem follows_start (L : List E) : Follows (updateBlockStart L).2.builder (updateBlockStart L).1 := by
  refine ⟨rfl, updateRanges_nil, fun q => iff_of_false Bool.false_ne_true ?_,
    forall_mem_nil _, fun c hc => by cases hc⟩
  rintro ⟨-, h⟩
  rw [updateBlockStart, unmarked, getElem?_map, Option.map_map] at h
  obtain ⟨e, -, he⟩ := Option.map_eq_some_iff.mp h
  cases he

/-- No call inserts at the first position of an update range, or writes into the array passed. -/
structure HarmlessBlock (calls : List (UpdateCall E)) (L : List E) : Prop where
  edits : AllSteps Edit.Harmless step (updateBlockStart L) (calls.flatMap UpdateCall.edits)
  /-- At the end no sub-change without a list of removed elements touches one
      before it that has such a list. -/
  joinable : ∀ s, runActions step (updateBlockStart L) (calls.flatMap UpdateCall.edits) = some s →
    s.2.builder.addRemoveChanges.IsChain Joinable

/-- The update sub-changes describe what is still in the list. -/
theorem updateBlock_describes (calls : List (UpdateCall E)) (L : List E) (M : Marks E)
    (hlegal : performEdits (unmarked L) (calls.flatMap UpdateCall.edits) = some M)
    (h : HarmlessBlock calls L) :
    ∃ fired array, Returns (updateBlock calls L) ⟨new, none⟩ fired ⟨new, array⟩ ∧
      DescribesUpdates M (fired.getD []) := by
  obtain ⟨r, hr, hfollows, hne, hrun⟩ := (follows_start L).calls (forall_mem_nil _) hlegal h.edits
  obtain ⟨fired, hfired, hdesc⟩ := hfollows.endChange_returns hne (h.joinable _ hrun)
  have hbegin : Returns (onBuilder beginChange) (⟨new, none⟩ : Recorder E) ()
      (updateBlockStart L).2 := rfl
  exact ⟨fired, r.permArray, hbegin.bind (hr.bind hfired.zoom), hdesc⟩

/-- An updated element that is moved is still reported. -/
theorem updateBlock_describes_moved :
    let calls : List (UpdateCall Nat) :=
      [.nextUpdate 0, .nextPermutation 0 [2, 0, 1] 0, .nextAdd 1 [9], .nextRemove 2]
    performEdits (unmarked [1, 2, 3]) (calls.flatMap UpdateCall.edits)
        = some [(2, false), (9, false), (1, true)] ∧
      ∃ fired array, Returns (updateBlock calls [1, 2, 3]) ⟨new, none⟩ fired ⟨new, array⟩ ∧
        DescribesUpdates [(2, false), (9, false), (1, true)] (fired.getD []) := by
  refine ⟨by decide, updateBlock_describes _ _ _ (by decide) ⟨?_, ?_⟩⟩
  · refine ⟨⟨id, id, id⟩, fun s₁ h₁ => ?_⟩
    cases h₁
    refine ⟨⟨id, not_or.mpr ⟨not_not.mpr ⟨[1, 2, 3], [1, 2, 3], rfl, rfl⟩,
      not_not.mpr fun _ p hp => by cases hp⟩, fun hover => by cases hover.1⟩, fun s₂ h₂ => ?_⟩
    cases h₂
    refine ⟨⟨?_, id, id⟩, fun s₃ h₃ => ?_⟩
    · rintro ⟨c, hc, hfrom⟩
      revert c
      decide
    cases h₃
    refine ⟨⟨id, ?_, id⟩, fun _ _ => trivial⟩
    rintro ⟨c, hc, hnone⟩
    cases hc
    cases hnone
  · intro s hs
    cases hs
    decide

/-- An insertion before an updated first element. -/
theorem updateBlock_fails :
    let calls : List (UpdateCall Nat) := [.nextUpdate 0, .nextAdd 0 [7]]
    performEdits (unmarked [1]) (calls.flatMap UpdateCall.edits) = some [(7, false), (1, true)] ∧
      ¬ ∃ fired array, Returns (updateBlock calls [1]) ⟨new, none⟩ fired ⟨new, array⟩ ∧
        DescribesUpdates [(7, false), (1, true)] (fired.getD []) := by
  refine ⟨by decide, ?_⟩
  rintro ⟨fired, array, hfired, hdesc⟩
  have hrun : Returns (updateBlock [.nextUpdate 0, .nextAdd 0 [7]] [1]) ⟨new, none⟩
      (some [⟨0, 1, some [], [], false⟩, ⟨0, 0, some [], [], true⟩, ⟨1, 2, some [], [], true⟩])
      (⟨new, none⟩ : Recorder Nat) := rfl
  obtain ⟨rfl, -⟩ := hfired.unique hrun
  exact absurd (hdesc.nonEmpty ⟨0, 0, some [], [], true⟩ (by decide) rfl) (by decide)

end OpenJfx.Collections.ListChangeBuilder
