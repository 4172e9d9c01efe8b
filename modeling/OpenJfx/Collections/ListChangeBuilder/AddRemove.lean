/-
  OpenJfx.Collections.ListChangeBuilder.AddRemove

  Whole change blocks of adds and removes, each reporting an edit just performed, and the `Change`
  that `commit` fires.  Every call is a sequence of two primitive ones (`Call.prims`); a primitive
  keeps the invariant `Recording` unless it meets `RemoveGoesWrong`.
-/

import OpenJfx.Collections.ListChangeBuilder.Total

namespace OpenJfx.Collections

open JavaM ListChangeBuilder List Option SubChange

variable {E : Type}

/-! ## `compress` and `commit` -/

variable {cs : List (SubChange E)} {p : Int}

theorem Tracks.merge {a b : SubChange E} {A B : List E}
    (h : Tracks p (a :: b :: cs) A B) (hab : a.to_ = b.from_) :
    Tracks p ({ a with to_ := b.to_, removed := some (a.getRemoved ++ b.getRemoved) } :: cs)
      A B := by
  obtain ⟨kept, added, A', B', hf, ht, rfl, rfl, kept', added', A'', B'', hf', ht', rfl, rfl, h⟩ := h
  obtain rfl : kept' = [] := length_eq_zero_iff.mp (by omega)
  refine ⟨kept, added ++ added', A'', B'', hf, ?_, ?_, by simp, h⟩
  · dsimp only
    rw [length_append]
    omega
  · simp [getRemoved]

variable {prev : SubChange E}

theorem compressLoop_spec {rest : List (SubChange E)} {A B : List E}
    (h : Tracks p (prev :: rest) A B) (hr : HasRemoved (prev :: rest)) :
    ∃ cs, compressLoop prev rest = .ok cs ∧ Tracks p cs A B ∧ HasRemoved cs ∧ Ascending cs ∧
      ∀ c ∈ cs, prev.from_ ≤ c.from_ := by
  induction rest generalizing p prev A B with
  | nil =>
    refine ⟨[prev], rfl, h, hr, ⟨?_, pairwise_singleton _ _⟩, ?_⟩
    · intro c hc
      exact (h.bounds c hc).2.1
    · intro c hc
      obtain rfl := mem_singleton.mp hc
      exact Int.le_refl _
  | cons cur rest ih =>
    obtain ⟨r1, hr1⟩ := hr.head
    obtain ⟨r2, hr2⟩ := hr.tail.head
    by_cases htouch : prev.to_ = cur.from_
    · have hm := h.merge htouch
      rw [getRemoved, getRemoved, hr1, hr2, getD_some, getD_some] at hm
      have hr' : HasRemoved ({ prev with to_ := cur.to_, removed := some (r1 ++ r2) } :: rest) := by
        intro c hc
        rcases mem_cons.mp hc with rfl | hc
        · exact ⟨_, rfl⟩
        · exact hr.tail.tail c hc
      obtain ⟨cs, hcs, ht, hr, ha, hfst⟩ := ih hm hr'
      refine ⟨cs, ?_, ht, hr, ha, hfst⟩
      simp only [compressLoop, if_pos htouch, hr1, hr2]
      exact hcs
    · obtain ⟨kept, added, A', B', hf, ht, rfl, rfl, h'⟩ := h
      obtain ⟨cs, hcs, hct, hcr, hca, hfst⟩ := ih h' hr.tail
      have hcur := (h'.bounds cur mem_cons_self).1
      refine ⟨prev :: cs, ?_, ⟨kept, added, A', B', hf, ht, rfl, rfl, hct⟩, ?_, ⟨?_, ?_⟩, ?_⟩
      · simp only [compressLoop, if_neg htouch, hcs, Except.map, Functor.map]
      · intro c hc
        rcases mem_cons.mp hc with rfl | hc
        · exact hr.head
        · exact hcr c hc
      · intro c hc
        rcases mem_cons.mp hc with rfl | hc
        · omega
        · exact hca.1 c hc
      · refine List.Pairwise.cons ?_ hca.2
        intro c hc
        have := hfst c hc
        omega
      · intro c hc
        rcases mem_cons.mp hc with rfl | hc
        · exact Int.le_refl _
        · have := hfst c hc
          omega

theorem Tracks.finalize {A B : List E} (h : Tracks p cs A B) : Tracks p (cs.map finalize) A B := by
  induction cs generalizing p A B with
  | nil => exact h
  | cons c cs ih =>
    obtain ⟨kept, added, A', B', hf, ht, rfl, rfl, h⟩ := h
    exact ⟨kept, added, A', B', hf, ht, rfl, rfl, ih h⟩

theorem Ascending.finalize (h : Ascending cs) :
    Ascending (cs.map finalize) := by
  refine ⟨?_, pairwise_map.mpr h.2⟩
  intro c hc
  obtain ⟨d, hd, rfl⟩ := mem_map.mp hc
  exact h.1 d hd

theorem plain_finalize (h : ∀ c ∈ cs, Plain c) : ∀ c ∈ cs.map finalize, Plain c := by
  intro c hc
  obtain ⟨d, hd, rfl⟩ := mem_map.mp hc
  exact h d hd

theorem plain_compressLoop {rest out : List (SubChange E)}
    (h : ∀ c ∈ prev :: rest, Plain c) (hout : compressLoop prev rest = .ok out) :
    ∀ c ∈ out, Plain c := by
  induction rest generalizing prev out with
  | nil =>
    cases hout
    exact h
  | cons cur rest ih =>
    have hprev : Plain prev := h prev mem_cons_self
    have htail : ∀ c ∈ cur :: rest, Plain c := fun c hc => h c (mem_cons_of_mem _ hc)
    -- a merged sub-change is plain as the first of the two is
    have hmerge : ∀ t r, ∀ c ∈ ({ prev with to_ := t, removed := r } : SubChange E) :: rest,
        Plain c := by
      intro t r c hc
      rcases mem_cons.mp hc with rfl | hc
      · exact hprev
      · exact htail c (.tail _ hc)
    rw [compressLoop] at hout
    split at hout
    · split at hout
      · exact ih (hmerge _ _) hout
      · exact ih (hmerge _ _) hout
      · cases hout
      · exact ih (hmerge _ _) hout
    · cases hrest : compressLoop cur rest with
      | error e =>
        rw [hrest] at hout
        cases hout
      | ok out' =>
        rw [hrest] at hout
        cases hout
        intro c hc
        rcases mem_cons.mp hc with rfl | hc
        · exact hprev
        · exact ih htail hrest c hc

/-- `depth` blocks deep, after edits from `L₀` to `L`. -/
structure Recording (L₀ L : List E) (depth : Nat) (b : ListChangeBuilder E) : Prop where
  lock : b.changeLock = depth + 1
  updates : b.updateChanges = []
  permutation : b.permutationChange = none
  hasRemoved : HasRemoved b.addRemoveChanges
  plain : ∀ c ∈ b.addRemoveChanges, Plain c
  tracks : Tracks 0 b.addRemoveChanges L₀ L

theorem Recording.start (L : List E) :
    Returns beginChange (new : ListChangeBuilder E) () ⟨1, [], [], none⟩ ∧
      Recording L L 0 (⟨1, [], [], none⟩ : ListChangeBuilder E) :=
  ⟨rfl, rfl, rfl, rfl, hasRemoved_nil, fun _ hc => (by cases hc), rfl⟩

variable {b : ListChangeBuilder E} {L₀ L : List E}

theorem Recording.endChange_returns (h : Recording L₀ L 0 b) :
    ∃ fired, Returns endChange b fired new ∧
      Tracks 0 (fired.getD []) L₀ L ∧ Ascending (fired.getD []) ∧
      (∀ c ∈ fired.getD [], Plain c) ∧ (fired = none ↔ b.addRemoveChanges = []) := by
  obtain ⟨hlock, hup, hperm, hr, hp, ht⟩ := h
  obtain ⟨lock, cs, ups, perm⟩ := b
  dsimp only at hlock hup hperm hr hp ht
  subst hlock hup hperm
  cases cs with
  | nil =>
    refine ⟨none, rfl, ht, ⟨?_, List.Pairwise.nil⟩, hp, by simp⟩
    intro c hc
    cases hc
  | cons c cs =>
    cases cs with
    | nil =>
      have hasc : Ascending [c] := by
        refine ⟨?_, pairwise_singleton _ _⟩
        intro d hd
        exact (ht.bounds d hd).2.1
      exact ⟨some [c.finalize], rfl, ht.finalize, hasc.finalize, plain_finalize hp, by simp⟩
    | cons d cs =>
      obtain ⟨out, hout, hot, -, hoa, -⟩ := compressLoop_spec ht hr
      refine ⟨some (out.map finalize), ?_, hot.finalize, hoa.finalize,
        plain_finalize (plain_compressLoop hp hout), by simp⟩
      simp [Returns, endChange, commit, commitArray, compress, hout, new, Bind.bind, Except.bind,
        Pure.pure, Except.pure]

/-! ## Primitive calls -/

/-- What every other call is made of. -/
inductive Prim (E : Type) where
  | add (from_ to_ : Int)
  | remove (idx : Int) (removed : E)

variable {L' : List E}

namespace Prim

/-- A call of the builder. -/
def report : Prim E → JavaM (ListChangeBuilder E) Unit
  | .add from_ to_ => nextAdd from_ to_
  | .remove idx removed => nextRemove idx removed

/-- The edit of the list a primitive call describes. -/
def Performs : Prim E → List E → List E → Prop
  | .add from_ to_, L, L' => ∃ X N Y, L = X ++ Y ∧ L' = X ++ (N ++ Y) ∧
      from_ = (X.length : Int) ∧ to_ = X.length + (N.length : Int)
  | .remove idx removed, L, L' => ∃ X Y, L = X ++ removed :: Y ∧ L' = X ++ Y ∧
      idx = (X.length : Int)

/-- A sequence of edits. -/
def PerformAll : List (Prim E) → List E → List E → Prop
  | [], L, L' => L = L'
  | p :: ps, L, L' => ∃ M, p.Performs L M ∧ PerformAll ps M L'

/-- No removal meets a state where it goes wrong. -/
def recordsCleanly : List (SubChange E) → List (Prim E) → Bool
  | _, [] => true
  | cs, .add from_ to_ :: ps => recordsCleanly (recordAdd from_ to_ cs) ps
  | cs, .remove idx removed :: ps =>
    !decide (RemoveGoesWrong idx cs) &&
      match recordRemove idx removed cs with
      | .ok _ cs' => recordsCleanly cs' ps
      | .error _ _ => true

theorem performAll_append {ps qs : List (Prim E)} :
    PerformAll (ps ++ qs) L L' ↔ ∃ M, PerformAll ps L M ∧ PerformAll qs M L' := by
  induction ps generalizing L with
  | nil => simp [PerformAll]
  | cons p ps ih =>
    simp only [cons_append, PerformAll, ih]
    constructor
    · rintro ⟨M, hp, M', hps, hqs⟩
      exact ⟨M', ⟨M, hp, hps⟩, hqs⟩
    · rintro ⟨M', ⟨M, hp, hps⟩, hqs⟩
      exact ⟨M, hp, M', hps, hqs⟩

end Prim

variable {d : Nat}

theorem Recording.lock_ne (h : Recording L₀ L d b) : b.changeLock ≠ 0 := by
  have := h.lock
  omega

theorem Recording.nextAdd_returns {X Y : List E} (h : Recording L₀ (X ++ Y) d b) (N : List E) :
    ∃ b', Returns (nextAdd X.length (X.length + N.length)) b () b' ∧
      Recording L₀ (X ++ (N ++ Y)) d b' ∧
      b'.addRemoveChanges = recordAdd X.length (X.length + N.length) b.addRemoveChanges := by
  obtain ⟨hr, ht⟩ := recordAdd_spec N h.tracks h.hasRemoved
  refine ⟨_, (checkState_returns h.lock_ne).bind rfl, ⟨h.lock, ?_, h.permutation, hr,
    stable_plain.recordAdd h.plain _ _, ht⟩, rfl⟩
  dsimp only
  rw [h.updates]
  rfl

theorem Recording.nextRemove_returns {X Y : List E} {e : E} (h : Recording L₀ (X ++ e :: Y) d b)
    (hok : ¬ RemoveGoesWrong X.length b.addRemoveChanges) :
    ∃ b', Returns (nextRemove X.length e) b () b' ∧ Recording L₀ (X ++ Y) d b' ∧
      recordRemove X.length e b.addRemoveChanges = .ok () b'.addRemoveChanges := by
  obtain ⟨cs', hcs', hr, ht⟩ := recordRemove_spec h.tracks h.hasRemoved hok
  refine ⟨_, (checkState_returns h.lock_ne).bind
    ((Returns.zoom (m := recordRemove X.length e) hcs').bind rfl),
    ⟨h.lock, ?_, h.permutation, hr, stable_plain.recordRemove h.plain hcs', ht⟩, hcs'⟩
  dsimp only
  rw [h.updates]
  rfl

theorem Recording.prims_return {ps qs : List (Prim E)} :
    ∀ {L L' : List E} {b : ListChangeBuilder E}, Recording L₀ L d b →
      Prim.PerformAll ps L L' → Prim.recordsCleanly b.addRemoveChanges (ps ++ qs) = true →
      ∃ b', Returns (ps.forM Prim.report) b () b' ∧ Recording L₀ L' d b' ∧
        Prim.recordsCleanly b'.addRemoveChanges qs = true := by
  induction ps with
  | nil =>
    intro L L' b h hp hclean
    rw [Prim.PerformAll] at hp
    subst hp
    exact ⟨b, rfl, h, hclean⟩
  | cons p ps ih =>
    intro L L' b h hp hclean
    obtain ⟨M, hp, hps⟩ := hp
    rw [cons_append] at hclean
    cases p with
    | add from_ to_ =>
      obtain ⟨X, N, Y, rfl, rfl, rfl, rfl⟩ := hp
      obtain ⟨b1, hb1, h1, hcs⟩ := h.nextAdd_returns N
      rw [Prim.recordsCleanly, ← hcs] at hclean
      obtain ⟨b', hb', h', hclean'⟩ := ih h1 hps hclean
      exact ⟨b', hb1.bind hb', h', hclean'⟩
    | remove idx removed =>
      obtain ⟨X, Y, rfl, rfl, rfl⟩ := hp
      simp only [Prim.recordsCleanly, Bool.and_eq_true, Bool.not_eq_true', decide_eq_false_iff_not]
        at hclean
      obtain ⟨b1, hb1, h1, hcs⟩ := h.nextRemove_returns hclean.1
      rw [hcs] at hclean
      obtain ⟨b', hb', h', hclean'⟩ := ih h1 hps hclean.2
      exact ⟨b', hb1.bind hb', h', hclean'⟩

/-! ## Calls -/

/-- A call inside a change block, with the edit of the list it reports. -/
inductive Call (E : Type) where
  | nextAdd (from_ : Nat) (added : List E)
  | nextRemove (idx : Nat)
  | nextRemoveAll (idx count : Nat)
  | nextSet (idx : Nat) (element : E)
  | nextReplace (from_ count : Nat) (added : List E)
  | beginChange
  | endChange

namespace Call

/-- The edit, on a list where its indices are valid. -/
def perform (L : List E) : Call E → Option (List E)
  | nextAdd from_ added =>
    if from_ ≤ L.length then some (L.take from_ ++ (added ++ L.drop from_)) else none
  | nextRemove idx => if idx < L.length then some (L.eraseIdx idx) else none
  | nextRemoveAll idx count =>
    if idx + count ≤ L.length then some (L.take idx ++ L.drop (idx + count)) else none
  | nextSet idx element => if idx < L.length then some (L.set idx element) else none
  | nextReplace from_ count added =>
    if from_ + count ≤ L.length then some (L.take from_ ++ (added ++ L.drop (from_ + count)))
    else none
  | beginChange => some L
  | endChange => some L

/-- The call itself, before the edit of `L`. -/
def report (L : List E) : Call E → JavaM (ListChangeBuilder E) Unit
  | nextAdd from_ added => ListChangeBuilder.nextAdd from_ (from_ + added.length)
  | nextRemove idx => (L.drop idx).head?.toList.forM (ListChangeBuilder.nextRemove idx)
  | nextRemoveAll idx count => ListChangeBuilder.nextRemoveAll idx ((L.drop idx).take count)
  | nextSet idx _ => (L.drop idx).head?.toList.forM (ListChangeBuilder.nextSet idx)
  | nextReplace from_ count added =>
    ListChangeBuilder.nextReplace from_ (from_ + added.length) ((L.drop from_).take count)
  | beginChange => ListChangeBuilder.beginChange
  | endChange => discard ListChangeBuilder.endChange

/-- The primitive calls it makes. -/
def prims (L : List E) : Call E → List (Prim E)
  | nextAdd from_ added => [.add from_ (from_ + added.length)]
  | nextRemove idx => (L.drop idx).head?.toList.map (.remove idx)
  | nextRemoveAll idx count => ((L.drop idx).take count).map (.remove idx)
  | nextSet idx _ => (L.drop idx).head?.toList.map (.remove idx) ++ [.add idx (idx + 1)]
  | nextReplace from_ count added =>
    ((L.drop from_).take count).map (.remove from_) ++ [.add from_ (from_ + added.length)]
  | beginChange => []
  | endChange => []

/-- `none` when the outermost block would end. -/
def depth (d : Nat) : Call E → Option Nat
  | beginChange => some (d + 1)
  | endChange => if 0 < d then some (d - 1) else none
  | _ => some d

end Call

/-- The list after a sequence of calls, all legal. -/
def performCalls : List (Call E) → List E → Option (List E)
  | [], L => some L
  | c :: cs, L => (c.perform L).bind (performCalls cs)

/-- The calls made for mutations of the list `L`. -/
def reportCalls : List (Call E) → List E → JavaM (ListChangeBuilder E) Unit
  | [], _ => pure ()
  | c :: cs, L => do
    c.report L
    reportCalls cs ((c.perform L).getD L)

/-- All primitive calls of a sequence of calls. -/
def primCalls : List (Call E) → List E → List (Prim E)
  | [], _ => []
  | c :: cs, L => c.prims L ++ primCalls cs ((c.perform L).getD L)

/-- The nesting depth after a sequence of calls. -/
def nesting : List (Call E) → Nat → Option Nat
  | [], d => some d
  | c :: cs, d => (c.depth d).bind (nesting cs)

/-- `beginChange(); calls; endChange();` on `L`. -/
def changeBlock (calls : List (Call E)) (L : List E) :
    JavaM (ListChangeBuilder E) (Option (List (SubChange E))) := do
  ListChangeBuilder.beginChange
  reportCalls calls L
  ListChangeBuilder.endChange

theorem performAll_removes (X R Y : List E) {idx : Int} (hidx : idx = X.length) :
    Prim.PerformAll (R.map (.remove idx)) (X ++ (R ++ Y)) (X ++ Y) := by
  induction R with
  | nil => exact rfl
  | cons e R ih => exact ⟨X ++ (R ++ Y), ⟨X, R ++ Y, by simp, rfl, hidx⟩, ih⟩

theorem performAll_add (X N Y : List E) {from_ to_ : Int} (hf : from_ = X.length)
    (ht : to_ = X.length + (N.length : Int)) :
    Prim.PerformAll [.add from_ to_] (X ++ Y) (X ++ (N ++ Y)) :=
  ⟨_, ⟨X, N, Y, rfl, rfl, hf, ht⟩, rfl⟩

variable {c : Call E}

theorem Call.perform_prims (h : c.perform L = some L') :
    Prim.PerformAll (c.prims L) L L' := by
  cases c with
  | nextAdd from_ added =>
    simp only [perform, ite_none_right_eq_some, Option.some.injEq] at h
    obtain ⟨hle, rfl⟩ := h
    have := @performAll_add _ (L.take from_) added (L.drop from_) from_ (from_ + added.length)
        (by simp; omega) (by simp; omega)
    rwa [take_append_drop] at this
  | nextRemove idx =>
    simp only [perform, ite_none_right_eq_some, Option.some.injEq] at h
    obtain ⟨hlt, rfl⟩ := h
    have := @performAll_removes _ (L.take idx) [L[idx]] (L.drop (idx + 1)) idx (by simp; omega)
    rw [singleton_append, ← drop_eq_getElem_cons hlt, take_append_drop,
      ← eraseIdx_eq_take_drop_succ] at this
    simpa [prims, hlt] using this
  | nextRemoveAll idx count =>
    simp only [perform, ite_none_right_eq_some, Option.some.injEq] at h
    obtain ⟨hle, rfl⟩ := h
    have := @performAll_removes _ (L.take idx) ((L.drop idx).take count) (L.drop (idx + count)) idx
        (by simp; omega)
    rwa [← drop_drop, take_append_drop, take_append_drop, drop_drop] at this
  | nextSet idx element =>
    simp only [perform, ite_none_right_eq_some, Option.some.injEq] at h
    obtain ⟨hlt, rfl⟩ := h
    have h1 := @performAll_removes _ (L.take idx) [L[idx]] (L.drop (idx + 1)) idx (by simp; omega)
    have h2 := @performAll_add _ (L.take idx) [element] (L.drop (idx + 1)) idx (idx + 1)
        (by simp; omega) (by simp; omega)
    rw [singleton_append, ← drop_eq_getElem_cons hlt, take_append_drop] at h1
    have := Prim.performAll_append.mpr ⟨_, h1, h2⟩
    rw [set_eq_take_append_cons_drop, if_pos hlt]
    simpa [prims, hlt] using this
  | nextReplace from_ count added =>
    simp only [perform, ite_none_right_eq_some, Option.some.injEq] at h
    obtain ⟨hle, rfl⟩ := h
    have h1 := @performAll_removes _ (L.take from_) ((L.drop from_).take count)
        (L.drop (from_ + count)) from_ (by simp; omega)
    have h2 := @performAll_add _ (L.take from_) added (L.drop (from_ + count)) from_
        (from_ + added.length) (by simp; omega) (by simp; omega)
    rw [← drop_drop, take_append_drop, take_append_drop, drop_drop] at h1
    exact Prim.performAll_append.mpr ⟨_, h1, h2⟩
  | beginChange | endChange => exact some.inj h

theorem checkState_bind {α : Type} (h : b.changeLock ≠ 0)
    (m : JavaM (ListChangeBuilder E) α) : (checkState >>= fun _ => m) b = m b := by
  have hcheck := checkState_returns h
  rw [Returns] at hcheck
  simp only [Bind.bind, EStateM.bind, hcheck]

theorem Prim.forM_removes (idx : Int) (removed : List E) :
    (removed.map (.remove idx)).forM Prim.report = removed.forM (nextRemove idx) := by
  induction removed with
  | nil => rfl
  | cons e removed ih => exact congrArg (fun m => nextRemove idx e >>= fun _ => m) ih

theorem Prim.forM_concat (ps : List (Prim E)) (p : Prim E) :
    (ps ++ [p]).forM Prim.report = ps.forM Prim.report >>= fun _ => p.report := by
  simp

theorem nextRemoveAll_eq (h : b.changeLock ≠ 0) (idx : Int) (removed : List E) :
    nextRemoveAll idx removed b = (removed.map (.remove idx)).forM Prim.report b := by
  rw [Prim.forM_removes]
  exact checkState_bind h _

/-- A legal call inside a block makes exactly its primitive calls. -/
theorem Call.report_eq
    (h : c.perform L = some L') (hb : b.changeLock ≠ 0) (hc : ∀ d, c.depth d = some d) :
    c.report L b = (c.prims L).forM Prim.report b := by
  cases c with
  | nextAdd from_ added => simp [report, prims, Prim.report]
  | nextRemove idx =>
    simp only [perform, ite_none_right_eq_some] at h
    simp [report, prims, h.1, Prim.report]
  | nextRemoveAll idx count => exact nextRemoveAll_eq hb _ _
  | nextSet idx element =>
    simp only [perform, ite_none_right_eq_some] at h
    simp [report, prims, h.1, Prim.report, ListChangeBuilder.nextSet]
  | nextReplace from_ count added =>
    rw [prims, Prim.forM_concat]
    simp only [report, ListChangeBuilder.nextReplace, Bind.bind, EStateM.bind, nextRemoveAll_eq hb,
      Prim.report]
  | beginChange | endChange => simpa [depth] using hc 0

theorem Recording.call_returns {d' : Nat} {qs : List (Prim E)}
    (h : Recording L₀ L d b) (hp : c.perform L = some L')
    (hd : c.depth d = some d')
    (hclean : Prim.recordsCleanly b.addRemoveChanges (c.prims L ++ qs) = true) :
    ∃ b', Returns (c.report L) b () b' ∧ Recording L₀ L' d' b' ∧
      Prim.recordsCleanly b'.addRemoveChanges qs = true := by
  by_cases hc : ∀ n, c.depth n = some n
  · obtain rfl : d = d' := by simpa [hc] using hd
    obtain ⟨b', hb', h', hq⟩ := h.prims_return (c.perform_prims hp) hclean
    refine ⟨b', ?_, h', hq⟩
    rw [Returns, c.report_eq hp h.lock_ne hc]
    exact hb'
  · -- only the nested `beginChange` and `endChange` move the depth, and they report no edit
    cases c with
    | beginChange =>
      cases hp
      cases hd
      refine ⟨{ b with changeLock := b.changeLock + 1 }, rfl,
        ⟨?_, h.updates, h.permutation, h.hasRemoved, h.plain, h.tracks⟩, hclean⟩
      have hlock := h.lock
      dsimp only
      omega
    | endChange =>
      cases hp
      simp only [Call.depth, ite_none_right_eq_some, Option.some.injEq] at hd
      obtain ⟨hpos, rfl⟩ := hd
      have hlock := h.lock
      refine ⟨{ b with changeLock := b.changeLock - 1 }, ?_,
        ⟨?_, h.updates, h.permutation, h.hasRemoved, h.plain, h.tracks⟩, hclean⟩
      · have hend : Returns ListChangeBuilder.endChange b none
            { b with changeLock := b.changeLock - 1 } := by
          simp only [Returns, ListChangeBuilder.endChange, commit]
          rw [if_neg (by omega), if_neg (by omega)]
        exact hend.bind rfl
      · dsimp only
        omega
    | _ => exact absurd (fun _ => rfl) hc

theorem Recording.calls_return {calls : List (Call E)} :
    ∀ {L L' : List E} {d d' : Nat} {b : ListChangeBuilder E}, Recording L₀ L d b →
      performCalls calls L = some L' → nesting calls d = some d' →
      Prim.recordsCleanly b.addRemoveChanges (primCalls calls L) = true →
      ∃ b', Returns (reportCalls calls L) b () b' ∧ Recording L₀ L' d' b' := by
  induction calls with
  | nil =>
    intro L L' d d' b h hp hd _
    cases hp
    cases hd
    exact ⟨b, rfl, h⟩
  | cons c calls ih =>
    intro L L' d d' b h hp hd hclean
    obtain ⟨M, hM, hp⟩ := bind_eq_some_iff.mp hp
    obtain ⟨k, hk, hd⟩ := bind_eq_some_iff.mp hd
    obtain ⟨b1, hb1, h1, hclean1⟩ := h.call_returns hM hk hclean
    rw [hM, getD_some] at hclean1
    obtain ⟨b', hb', h'⟩ := ih h1 hp hd hclean1
    refine ⟨b', hb1.bind ?_, h'⟩
    rw [hM, getD_some]
    exact hb'

/-- A clean block of legal edits fires ascending, disjoint ranges that replay the old list into the
    new one. -/
theorem changeBlock_replays [DecidableEq E] (calls : List (Call E)) (L₀ L : List E)
    (hlegal : performCalls calls L₀ = some L) (hnest : nesting calls 0 = some 0)
    (hclean : Prim.recordsCleanly [] (primCalls calls L₀) = true) :
    ∃ fired, Returns (changeBlock calls L₀) new fired new ∧
      Ascending (fired.getD []) ∧ replay L (fired.getD []) L₀ = some L := by
  obtain ⟨hbegin, hst⟩ := Recording.start L₀
  obtain ⟨b, hb, h⟩ := hst.calls_return hlegal hnest hclean
  obtain ⟨fired, hfired, ht, ha, -, -⟩ := h.endChange_returns
  exact ⟨fired, hbegin.bind (hb.bind hfired), ha, replay_of_tracks ht⟩

/-- An add, a removal inside it, a nested block. -/
theorem changeBlock_replays_mixed :
    let calls : List (Call Nat) := [.nextAdd 0 [7, 8], .nextRemove 1, .beginChange,
      .nextReplace 2 2 [9], .endChange, .nextSet 1 6]
    performCalls calls [1, 2, 3, 4] = some [7, 6, 9, 4] ∧
      ∃ fired, Returns (changeBlock calls [1, 2, 3, 4]) new fired new ∧
        Ascending (fired.getD []) ∧
        replay [7, 6, 9, 4] (fired.getD []) [1, 2, 3, 4] = some [7, 6, 9, 4] :=
  ⟨by decide, changeBlock_replays _ _ _ (by decide) (by decide) (by decide)⟩

/-- Two removals in front of two added ranges. -/
theorem changeBlock_goes_wrong :
    let calls : List (Call Nat) := [.nextAdd 0 [7], .nextAdd 2 [8], .nextRemove 1, .nextRemove 0]
    performCalls calls [1, 2] = some [8, 2] ∧ nesting calls 0 = some 0 ∧
      ∃ fired, Returns (changeBlock calls [1, 2]) new fired new ∧
        ¬ (Ascending (fired.getD []) ∧ replay [8, 2] (fired.getD []) [1, 2] = some [8, 2]) := by
  refine ⟨by decide, by decide, _, rfl, ?_⟩
  rintro ⟨-, h⟩
  revert h
  decide

end OpenJfx.Collections
