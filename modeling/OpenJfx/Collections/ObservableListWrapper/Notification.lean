/-
  OpenJfx.Collections.ObservableListWrapper.Notification

  What the listeners hear of one mutator call: exactly one change when the content is new, which
  replays the old content into the new one (`Notifies`).  For each bulk operation the recorded
  sub-changes have a shape that no removal goes wrong on.  Two calls are `Defective`:
  `remove(from, to)` over the end of the list, and sorting a sub-list.
-/

import OpenJfx.Collections.ObservableListWrapper.Steps
import OpenJfx.Collections.ListChangeBuilder.AddRemove
import OpenJfx.Collections.ListChangeBuilder.Shapes
import OpenJfx.Collections.ElementObserver
import OpenJfx.Collections.SortHelper.Result

namespace OpenJfx.Collections

open JavaM ListChangeBuilder List Int SubChange Option

variable {fromIndex toIndex index : Int} {E σ : Type}

/-! ## The property -/

/-- An element observer that knows the elements and does not throw. -/
structure Follower (E σ : Type) extends ElementCallbacks E σ where
  Knows : List E → σ → Prop
  knows_perm : ∀ {L L' s}, L.Perm L' → Knows L s → Knows L' s
  attach : ∀ {L s} x, Knows L s → ∃ s', Returns (attachListener x) s () s' ∧ Knows (x :: L) s'
  detach : ∀ {L s x}, Knows (x :: L) s → ∃ s', Returns (detachListener x) s () s' ∧ Knows L s'

/-- A list without an extractor. -/
def Follower.none : Follower E Unit where
  toElementCallbacks := ElementCallbacks.none
  Knows := fun _ _ => True
  knows_perm := fun _ _ => trivial
  attach := fun _ _ => ⟨(), rfl, trivial⟩
  detach := fun _ => ⟨(), rfl, trivial⟩

section ElementObserver

variable {Obj O : Type} [DecidableEq Obj] {extractor : Obj → List O} {L L' : List (Option Obj)}
  {s : ElementObserver Obj O} {x : Option Obj}

theorem count_le_of_perm (hperm : L.Perm L') (h : ∀ e, L.count (some e) ≤ s.counter e) (e : Obj) :
    L'.count (some e) ≤ s.counter e :=
  hperm.count_eq (some e) ▸ h e

variable [DecidableEq O]

theorem attachListener_counts (x : Option Obj) (h : ∀ e, L.count (some e) ≤ s.counter e) :
    ∃ s', Returns (ElementObserver.attachListener extractor x) s () s' ∧
      ∀ e, (x :: L).count (some e) ≤ s'.counter e := by
  obtain ⟨s', hs', hcnt⟩ := ElementObserver.counter_attachListener s x
  refine ⟨s', hs', fun e => ?_⟩
  have he := h e
  rw [hcnt, count_cons]
  simp only [beq_iff_eq]
  omega

theorem detachListener_counts (h : ∀ e, (x :: L).count (some e) ≤ s.counter e) :
    ∃ s', Returns (ElementObserver.detachListener extractor x) s () s' ∧
      ∀ e, L.count (some e) ≤ s'.counter e := by
  obtain ⟨s', hs', hcnt⟩ := ElementObserver.counter_detachListener (s := s) (x := x) (by
      rintro e rfl
      have he := h e
      rw [count_cons_self] at he
      omega)
  refine ⟨s', hs', fun e => ?_⟩
  have he := h e
  rw [count_cons] at he
  simp only [beq_iff_eq] at he
  rw [hcnt]
  omega

/-- A list with an extractor: every occurrence is counted. -/
def Follower.elementObserver (extractor : Obj → List O) :
    Follower (Option Obj) (ElementObserver Obj O) where
  attachListener := ElementObserver.attachListener extractor
  detachListener := ElementObserver.detachListener extractor
  Knows := fun L s => ∀ e, L.count (some e) ≤ s.counter e
  knows_perm := count_le_of_perm
  attach := attachListener_counts
  detach := detachListener_counts

end ElementObserver

variable {b : ListChangeBuilder E} {m : JavaM (ListChangeBuilder E) Unit} {c R L : List E}
  {cs : List (SubChange E)} {change : FiredChange E} {f : List E → List E} {equals : E → Bool}

namespace ObservableListWrapper

/-- `0 <= fromIndex <= toIndex <= size`. -/
def ValidRange (L : List E) (fromIndex toIndex : Int) : Prop :=
  0 ≤ fromIndex ∧ fromIndex ≤ toIndex ∧ toIndex ≤ L.length

instance (L : List E) (fromIndex toIndex : Int) : Decidable (ValidRange L fromIndex toIndex) :=
  inferInstanceAs (Decidable (_ ∧ _))

/-- `[fromIndex, toIndex)` replaced by what `f` makes of it. -/
def onRange (f : List E → List E) (L : List E) (fromIndex toIndex : Int) : List E :=
  if ValidRange L fromIndex toIndex then
    L.take fromIndex.toNat ++ (f ((L.drop fromIndex.toNat).take (toIndex - fromIndex).toNat) ++
      (L.drop fromIndex.toNat).drop (toIndex - fromIndex).toNat)
  else L

/-- What the interfaces prescribe; out of range nothing changes. -/
def prescribed (L : List E) : Call E → List E
  | .add index element => onRange (fun r => element :: r) L index index
  | .addLast element => L ++ [element]
  | .set index element => onRange (fun _ => [element]) L index (index + 1)
  | .remove index => onRange (fun _ => []) L index (index + 1)
  | .removeObject equals => L.eraseP equals
  | .removeFromTo fromIndex toIndex => onRange (fun _ => []) L fromIndex toIndex
  | .addAll c => L ++ c
  | .addAllAt index c => onRange (fun r => c ++ r) L index index
  | .setAll col => col
  | .removeAll contains => L.filter fun e => !contains e
  | .retainAll contains => L.filter contains
  | .clear => []
  | .sort c => L.mergeSort fun x y => c x y ≤ 0
  | .subListClear fromIndex toIndex => onRange (fun _ => []) L fromIndex toIndex
  | .subListRemoveAll fromIndex toIndex contains =>
    onRange (fun r => r.filter fun e => !contains e) L fromIndex toIndex
  | .subListRetainAll fromIndex toIndex contains =>
    onRange (fun r => r.filter contains) L fromIndex toIndex
  | .subListAddAll fromIndex toIndex index c =>
    onRange (fun r => if index < 0 ∨ r.length < index then r
      else r.take index.toNat ++ (c ++ r.drop index.toNat)) L fromIndex toIndex
  | .subListSort fromIndex toIndex c =>
    onRange (fun r => r.mergeSort fun x y => c x y ≤ 0) L fromIndex toIndex

/-- The comparators obey the contract of `java.util.Comparator`. -/
def Lawful : Call E → Prop
  | .sort c => SortHelper.IsComparator c
  | .subListSort _ _ c => SortHelper.IsComparator c
  | _ => True

variable [DecidableEq E]

/-- If the content is new, one change has been heard. -/
def Notified (L₀ L : List E) (fired : List (FiredChange E)) (w : ObservableListWrapper E σ) :
    Prop :=
  w.backingList = L ∧
    (L ≠ L₀ → ∃ change, w.fired = fired ++ [change] ∧ replayChange L change L₀ = some L)

/-- A change tells that `L₀` has become `L`. -/
def Describes (L₀ L : List E) (change : FiredChange E) : Prop :=
  (Tracks 0 change L₀ L ∧ ∀ c ∈ change, Plain c) ∨
    ∃ perm, change = [⟨0, L₀.length, some [], perm, false⟩] ∧ perm ≠ [] ∧ L.Perm L₀ ∧
      replayChange L change L₀ = some L

/-- `Notified`, outside of any block. -/
structure Reported (L₀ L : List E) (fired : List (FiredChange E))
    (w : ObservableListWrapper E σ) : Prop where
  content : w.backingList = L
  builder : w.builder = ListChangeBuilder.new
  listening : w.hasListeners = true
  heard : ∃ f : Option (FiredChange E), w.fired = fired ++ f.toList ∧ Describes L₀ L (f.getD [])

theorem replayChange_of_plain {final cur : List E}
    (h : ∀ c ∈ cs, Plain c) : replayChange final cs cur = replay final cs cur := by
  induction cs generalizing cur with
  | nil => rfl
  | cons c cs ih =>
    obtain ⟨hperm, hup⟩ := h c mem_cons_self
    rw [replayChange, replay, replaySubChange, wasPermutated, hperm, hup]
    simp only [isEmpty_nil, Bool.not_true, Bool.false_eq_true, if_false]
    congr 1
    funext cur'
    exact ih fun d hd => h d (.tail _ hd)

variable {L₀ : List E}

theorem Describes.replays (h : Describes L₀ L change) :
    replayChange L change L₀ = some L := by
  rcases h with ⟨ht, hp⟩ | ⟨_, -, -, -, hreplay⟩
  · rw [replayChange_of_plain hp]
    exact replay_of_tracks ht
  · exact hreplay

omit [DecidableEq E] in
theorem Tracks.moves {P A B : List E} (hp : ∀ c ∈ cs, Plain c) (h : Tracks P.length cs A B) :
    ∃ K, A.Perm (K ++ cs.flatMap getRemoved) ∧
      B.Perm (K ++ cs.flatMap (getAddedSubList (P ++ B))) := by
  induction cs generalizing P A B with
  | nil =>
    obtain rfl : A = B := h
    exact ⟨A, by simp, by simp⟩
  | cons c cs ih =>
    obtain ⟨kept, added, A', B', hfrom, hto, rfl, rfl, hrest⟩ := h
    obtain ⟨hperm, hupd⟩ := hp c mem_cons_self
    have hlength : c.to_ = ((P ++ (kept ++ added)).length : Int) := by
      rw [hto, hfrom]
      simp only [length_append]
      omega
    rw [hlength] at hrest
    obtain ⟨K, hA, hB⟩ := ih (fun d hd => hp d (mem_cons_of_mem c hd)) hrest
    have hadded : c.getAddedSubList (P ++ (kept ++ added ++ B')) = added := by
      have hsub := getAddedSubList_range (X := P ++ kept) (A := added) B' hperm hupd
        (by rw [hfrom, length_append]; omega) hto
      simpa using hsub
    refine ⟨kept ++ K, ?_, ?_⟩
    · rw [flatMap_cons, append_assoc, append_assoc]
      refine List.Perm.append_left kept ?_
      exact (List.Perm.append_left _ hA).trans (perm_append_comm_assoc _ _ _)
    · rw [flatMap_cons, hadded, append_assoc, append_assoc]
      refine List.Perm.append_left kept ?_
      have hfinal : P ++ (kept ++ (added ++ B')) = P ++ (kept ++ added) ++ B' := by simp
      rw [hfinal]
      exact (List.Perm.append_left _ hB).trans (perm_append_comm_assoc _ _ _)

theorem Describes.moves (h : Describes L₀ L change) :
    ∃ K, L₀.Perm (K ++ change.flatMap getRemoved) ∧
      L.Perm (K ++ change.flatMap (getAddedSubList L)) := by
  rcases h with ⟨ht, hp⟩ | ⟨perm, rfl, hne, hperm, -⟩
  · exact Tracks.moves (P := []) hp ht
  · refine ⟨L₀, by simp [getRemoved], ?_⟩
    simpa [getAddedSubList, wasAdded, wasPermutated, hne] using hperm

theorem Reported.notified {fired : List (FiredChange E)}
    {w : ObservableListWrapper E σ} (h : Reported L₀ L fired w) : Notified L₀ L fired w := by
  refine ⟨h.content, fun hne => ?_⟩
  obtain ⟨f, hf, hdesc⟩ := h.heard
  cases f with
  | none => exact absurd (some.inj hdesc.replays).symm hne
  | some change => exact ⟨change, hf, hdesc.replays⟩

/-- A list with a listener, outside of any change block. -/
structure Fresh (obs : Follower E σ) (L : List E) (w : ObservableListWrapper E σ) : Prop where
  content : w.backingList = L
  known : obs.Knows L w.observer
  builder : w.builder = ListChangeBuilder.new
  listening : w.hasListeners = true

/-- The call has the effect it should have, and its listeners know. -/
def Notifies (obs : Follower E σ) (w : ObservableListWrapper E σ) (call : Call E) : Prop :=
  Notified w.backingList (prescribed w.backingList call) w.fired
    (exec (call.run obs.toElementCallbacks) w)

/-- `remove(from, to)` over the end of the list, and sorting an unsorted sub-list. -/
def Defective (L : List E) : Call E → Prop
  | .removeFromTo fromIndex toIndex =>
    0 ≤ fromIndex ∧ fromIndex < L.length ∧ (L.length : Int) < toIndex
  | .subListSort fromIndex toIndex c =>
    onRange (fun r => r.mergeSort fun x y => c x y ≤ 0) L fromIndex toIndex ≠ L
  | _ => False

/-! ## Inside a change block -/

section Block

variable {obs : Follower E σ} {L₀ L X Y : List E} {d : Nat} {cs : List (SubChange E)} {e : E}
  {w : ObservableListWrapper E σ}

/-- `depth` blocks deep, with `cs` recorded, nothing fired. -/
structure Noting (obs : Follower E σ) (L₀ : List E) (depth : Nat) (fired : List (FiredChange E))
    (L : List E) (cs : List (SubChange E)) (w : ObservableListWrapper E σ) : Prop where
  content : w.backingList = L
  known : obs.Knows L w.observer
  recording : Recording L₀ L depth w.builder
  changes : w.builder.addRemoveChanges = cs
  listening : w.hasListeners = true
  unfired : w.fired = fired

variable {fired : List (FiredChange E)}

omit [DecidableEq E]

theorem block_nested {L' : List E} {Q : List (SubChange E) → Prop} (h : Recording L₀ L d b)
    (hm : ∀ b1, Recording L₀ L (d + 1) b1 → b1.addRemoveChanges = b.addRemoveChanges →
      ∃ b2, Returns m b1 () b2 ∧ Recording L₀ L' (d + 1) b2 ∧ Q b2.addRemoveChanges) :
    ∃ b', Returns (block m) b none b' ∧ Recording L₀ L' d b' ∧ Q b'.addRemoveChanges := by
  have hlock := h.lock
  obtain ⟨b2, hb2, h2, hQ⟩ := hm { b with changeLock := b.changeLock + 1 }
    ⟨by dsimp only; omega, h.updates, h.permutation, h.hasRemoved, h.plain, h.tracks⟩ rfl
  have hlock2 := h2.lock
  refine ⟨{ b2 with changeLock := b2.changeLock - 1 }, ?_,
    ⟨by dsimp only; omega, h2.updates, h2.permutation, h2.hasRemoved, h2.plain, h2.tracks⟩, hQ⟩
  have hend : Returns ListChangeBuilder.endChange b2 none
      { b2 with changeLock := b2.changeLock - 1 } := by
    simp only [Returns, ListChangeBuilder.endChange, commit]
    rw [if_neg (by omega), if_neg (by omega)]
  have hbegin : Returns ListChangeBuilder.beginChange b ()
      { b with changeLock := b.changeLock + 1 } := rfl
  exact hbegin.bind (hb2.bind hend)

theorem Noting.remove (h : Noting obs L₀ d fired (X ++ e :: Y) cs w)
    (hok : ¬ RemoveGoesWrong X.length cs) :
    ∃ w' cs', Returns (remove obs.toElementCallbacks X.length) w e w' ∧
      Noting obs L₀ d fired (X ++ Y) cs' w' ∧ recordRemove X.length e cs = .ok () cs' := by
  obtain ⟨s, hs, hknown⟩ := obs.detach (obs.knows_perm perm_middle h.known)
  obtain ⟨b, hb, hrec, hcs⟩ := block_nested (m := nextRemove X.length e)
    (Q := fun cs' => recordRemove X.length e cs = .ok () cs') h.recording (by
      intro b1 h1 heq
      rw [h.changes] at heq
      obtain ⟨b2, hb2, h2, hcs⟩ := h1.nextRemove_returns (heq ▸ hok)
      exact ⟨b2, hb2, h2, heq ▸ hcs⟩)
  refine ⟨_, b.addRemoveChanges, remove_returns h.content hs hb, ⟨rfl, hknown, hrec, rfl,
    h.listening, ?_⟩, hcs⟩
  simp [heard, h.unfired]

theorem Noting.add (e : E) (h : Noting obs L₀ d fired (X ++ Y) cs w) :
    ∃ w' cs', Returns (add obs.toElementCallbacks X.length e) w () w' ∧
      Noting obs L₀ d fired (X ++ e :: Y) cs' w' := by
  obtain ⟨s, hs, hknown⟩ := obs.attach e h.known
  obtain ⟨b, hb, hrec, -⟩ := block_nested (m := nextAdd X.length (X.length + 1))
    (Q := fun _ => True) h.recording (by
      intro b1 h1 heq
      obtain ⟨b2, hb2, h2, -⟩ := h1.nextAdd_returns [e]
      exact ⟨b2, hb2, h2, trivial⟩)
  refine ⟨_, b.addRemoveChanges, add_returns h.content hs hb, ⟨rfl,
    obs.knows_perm perm_middle.symm hknown, hrec, rfl, h.listening, ?_⟩⟩
  simp [heard, h.unfired]

theorem Noting.beginChange (h : Noting obs L₀ d fired L cs w) :
    ∃ w', Returns beginChange w () w' ∧ Noting obs L₀ (d + 1) fired L cs w' := by
  have hlock := h.recording.lock
  refine ⟨_, beginChange_returns, h.content, h.known, ⟨?_, h.recording.updates,
    h.recording.permutation, h.recording.hasRemoved, h.recording.plain, h.recording.tracks⟩,
    h.changes, h.listening, h.unfired⟩
  dsimp only
  omega

theorem Noting.endChange (h : Noting obs L₀ (d + 1) fired L cs w) :
    ∃ w', Returns endChange w () w' ∧ Noting obs L₀ d fired L cs w' := by
  have hlock := h.recording.lock
  have hend : Returns ListChangeBuilder.endChange w.builder none
      { w.builder with changeLock := w.builder.changeLock - 1 } := by
    simp only [Returns, ListChangeBuilder.endChange, commit]
    rw [if_neg (by omega), if_neg (by omega)]
  refine ⟨_, endChange_returns hend, h.content, h.known, ⟨?_, h.recording.updates,
    h.recording.permutation, h.recording.hasRemoved, h.recording.plain, h.recording.tracks⟩,
    h.changes, h.listening, ?_⟩
  · dsimp only
    omega
  · simp [heard, h.unfired]

theorem Fresh.beginChange (h : Fresh obs L w) :
    ∃ w', Returns beginChange w () w' ∧ Noting obs L 0 w.fired L [] w' := by
  refine ⟨_, beginChange_returns, h.content, h.known, ?_, ?_, h.listening, rfl⟩
  · rw [h.builder]
    exact (Recording.start L).2
  · rw [h.builder]
    rfl

/-- `nextRemove(0, list)` on a block that has recorded nothing. -/
theorem nextRemoveAll_oneAt
    (h : Recording L₀ (X ++ (R ++ Y)) d b) (hcs : OneAt X.length b.addRemoveChanges) :
    ∃ b', Returns (nextRemoveAll X.length R) b () b' ∧ Recording L₀ (X ++ Y) d b' := by
  have hloop : ∃ b', Returns (R.forM (nextRemove X.length)) b () b' ∧
      Recording L₀ (X ++ Y) d b' := by
    induction R generalizing b with
    | nil => exact ⟨b, rfl, h⟩
    | cons e R ih =>
      obtain ⟨b1, hb1, h1, hrec⟩ := h.nextRemove_returns hcs.ok
      obtain ⟨b2, hb2, h2⟩ := ih h1 (hcs.recordRemove hrec)
      exact ⟨b2, hb1.bind hb2, h2⟩
  obtain ⟨b', hb', h'⟩ := hloop
  exact ⟨b', (checkState_returns h.lock_ne).bind hb', h'⟩

theorem Follower.detachAll (obs : Follower E σ) {s : σ} (h : obs.Knows L s) :
    ∃ s', Returns (L.forM obs.detachListener) s () s' ∧ obs.Knows [] s' := by
  induction L generalizing s with
  | nil => exact ⟨s, rfl, h⟩
  | cons x L ih =>
    obtain ⟨s1, hs1, h1⟩ := obs.detach h
    obtain ⟨s2, hs2, h2⟩ := ih h1
    exact ⟨s2, hs1.bind hs2, h2⟩

theorem Noting.clear (h : Noting obs L₀ d fired L [] w) :
    ∃ w' cs, Returns (clear obs.toElementCallbacks) w () w' ∧
      Noting obs L₀ d fired [] cs w' := by
  obtain ⟨s, hs, hknown⟩ := Follower.detachAll obs h.known
  obtain ⟨b, hb, hrec, -⟩ := block_nested (m := nextRemoveAll 0 L)
    (Q := fun _ => True) h.recording (by
      intro b1 h1 heq
      obtain ⟨b2, hb2, h2⟩ := nextRemoveAll_oneAt (X := []) (R := L) (Y := []) (b := b1)
        (by simpa using h1) (Or.inl (heq.trans h.changes))
      exact ⟨b2, hb2, h2, trivial⟩)
  rw [← h.content] at hs hb
  refine ⟨_, b.addRemoveChanges, clear_returns h.listening hs hb, rfl, hknown, hrec, rfl,
    h.listening, ?_⟩
  simp [heard, h.unfired]

end Block

/-! ## The end of the outermost block -/

section Outermost

variable {obs : Follower E σ} {L₀ L X Y : List E} {d : Nat} {cs : List (SubChange E)} {e : E}
  {fired : List (FiredChange E)} {w : ObservableListWrapper E σ}

theorem reported_of_tracks {f : Option (FiredChange E)} (hL : w.backingList = L)
    (hb : w.builder = new) (hl : w.hasListeners = true) (hw : w.fired = fired ++ f.toList)
    (ht : Tracks 0 (f.getD []) L₀ L) (hp : ∀ c ∈ f.getD [], Plain c) : Reported L₀ L fired w :=
  ⟨hL, hb, hl, f, hw, .inl ⟨ht, hp⟩⟩

theorem Noting.fires (h : Noting obs L₀ 0 fired L cs w) :
    ∃ w', Returns ObservableListWrapper.endChange w () w' ∧ Reported L₀ L fired w' := by
  obtain ⟨f, hf, ht, -, hp, -⟩ := h.recording.endChange_returns
  refine ⟨_, endChange_returns hf, reported_of_tracks h.content rfl h.listening ?_ ht hp⟩
  simp [heard, h.listening, h.unfired]

theorem Fresh.unchanged (h : Fresh obs L w) : Reported L L w.fired w :=
  ⟨h.content, h.builder, h.listening, none, (append_nil _).symm,
    .inl ⟨rfl, fun _ hc => (by cases hc)⟩⟩

theorem Fresh.block_ends {α : Type} {body : JavaM (ObservableListWrapper E σ) α}
    (h : Fresh obs L₀ w)
    (hbody : ∀ w1, Noting obs L₀ 0 w.fired L₀ [] w1 →
      Ends body w1 fun w2 => ∃ cs, Noting obs L₀ 0 w.fired L cs w2) :
    Ends (do ObservableListWrapper.beginChange; withFinally body ObservableListWrapper.endChange) w
      (Reported L₀ L w.fired) := by
  obtain ⟨w1, hw1, h1⟩ := h.beginChange
  refine hw1.then_ends ((hbody w1 h1).withFinally ?_)
  rintro w2 ⟨cs, h2⟩
  exact h2.fires

omit [DecidableEq E] in
theorem Noting.block_ends {α : Type} {body : JavaM (ObservableListWrapper E σ) α} {L' : List E}
    (h : Noting obs L₀ d fired L cs w)
    (hbody : ∀ w1, Noting obs L₀ (d + 1) fired L cs w1 →
      Ends body w1 fun w2 => ∃ cs, Noting obs L₀ (d + 1) fired L' cs w2) :
    Ends (do ObservableListWrapper.beginChange; withFinally body ObservableListWrapper.endChange) w
      (fun w2 => ∃ cs, Noting obs L₀ d fired L' cs w2) := by
  obtain ⟨w1, hw1, h1⟩ := h.beginChange
  refine hw1.then_ends ((hbody w1 h1).withFinally ?_)
  rintro w2 ⟨cs, h2⟩
  obtain ⟨w3, hw3, h3⟩ := h2.endChange
  exact ⟨w3, hw3, cs, h3⟩

omit [DecidableEq E] in
theorem block_fires (hm : Returns m ⟨1, [], [], none⟩ () b) (h : Recording L₀ L 0 b) :
    ∃ f, Returns (block m) ListChangeBuilder.new f ListChangeBuilder.new ∧
      Tracks 0 (f.getD []) L₀ L ∧ (∀ c ∈ f.getD [], Plain c) ∧
      (f = none ↔ b.addRemoveChanges = []) := by
  obtain ⟨f, hf, ht, -, hp, hnone⟩ := h.endChange_returns
  exact ⟨f, (Recording.start L₀).1.bind (hm.bind hf), ht, hp, hnone⟩

theorem Fresh.remove (h : Fresh obs (X ++ e :: Y) w) :
    ∃ w', Returns (remove obs.toElementCallbacks X.length) w e w' ∧
      Reported (X ++ e :: Y) (X ++ Y) w.fired w' := by
  obtain ⟨s, hs, -⟩ := obs.detach (obs.knows_perm perm_middle h.known)
  obtain ⟨b, hb, hrec, -⟩ := (Recording.start (X ++ e :: Y)).2.nextRemove_returns
    (OneAt.ok (Or.inl rfl))
  obtain ⟨f, hf, ht, hp, -⟩ := block_fires hb hrec
  rw [← h.builder] at hf
  refine ⟨_, remove_returns h.content hs hf, reported_of_tracks rfl h.builder h.listening ?_ ht hp⟩
  simp [heard, h.listening]

theorem Fresh.add (e : E) (h : Fresh obs (X ++ Y) w) :
    ∃ w', Returns (add obs.toElementCallbacks X.length e) w () w' ∧
      Reported (X ++ Y) (X ++ e :: Y) w.fired w' := by
  obtain ⟨s, hs, -⟩ := obs.attach e h.known
  obtain ⟨b, hb, hrec, -⟩ := (Recording.start (X ++ Y)).2.nextAdd_returns [e]
  obtain ⟨f, hf, ht, hp, -⟩ := block_fires hb hrec
  rw [← h.builder] at hf
  refine ⟨_, add_returns h.content hs hf, reported_of_tracks rfl h.builder h.listening ?_ ht hp⟩
  simp [heard, h.listening]

theorem Fresh.set {old : E} (e : E) (h : Fresh obs (X ++ old :: Y) w) :
    ∃ w' change, Returns (set obs.toElementCallbacks X.length e) w old w' ∧
      Reported (X ++ old :: Y) (X ++ e :: Y) w.fired w' ∧ Fresh obs (X ++ e :: Y) w' ∧
      w'.fired = w.fired ++ [change] := by
  obtain ⟨s, hs, hknown⟩ := obs.detach (obs.knows_perm perm_middle h.known)
  obtain ⟨s', hs', hknown'⟩ := obs.attach e hknown
  obtain ⟨b1, hb1, h1, hcs1⟩ := (Recording.start (X ++ old :: Y)).2.nextRemove_returns
    (OneAt.ok (Or.inl rfl))
  obtain ⟨b2, hb2, h2, hcs2⟩ := h1.nextAdd_returns [e]
  have hset : Returns (nextSet X.length old) ⟨1, [], [], none⟩ () b2 := hb1.bind hb2
  obtain ⟨f, hf, ht, hp, hnone⟩ := block_fires hset h2
  -- the removal and the addition leave one sub-change
  have hne : b2.addRemoveChanges ≠ [] := by
    have hemp : recordRemove (X.length : Int) old []
        = .ok () [⟨X.length, X.length, some [old], emptyPerm, false⟩] := rfl
    rw [hemp, EStateM.Result.ok.injEq] at hcs1
    rw [hcs2, ← hcs1.2]
    simp [recordAdd]
  cases f with
  | none => exact absurd (hnone.mp rfl) hne
  | some change =>
    have hf' : Returns (block (nextSet X.length old)) w.builder (some change) new := h.builder ▸ hf
    refine ⟨_, change, set_returns h.content hs hs' hf', reported_of_tracks rfl rfl h.listening ?_ ht hp,
      ⟨rfl, obs.knows_perm perm_middle.symm hknown', rfl, h.listening⟩, ?_⟩
    · simp [heard, h.listening]
    · simp [heard, h.listening]

end Outermost

/-! ## The operations -/

section Operations

variable {obs : Follower E σ} {L L₀ X Y : List E} {d : Nat} {cs : List (SubChange E)}
  {fired : List (FiredChange E)} {w : ObservableListWrapper E σ}

omit [DecidableEq E] in
theorem ValidRange.split (h : ValidRange L fromIndex toIndex) :
    ∃ X R Y, L = X ++ (R ++ Y) ∧ (X.length : Int) = fromIndex ∧
      (R.length : Int) = toIndex - fromIndex ∧
      ∀ f, onRange f L fromIndex toIndex = X ++ (f R ++ Y) := by
  obtain ⟨h0, hle, hto⟩ := id h
  obtain ⟨X, R, Y, hL, hX, hR, hY, hlen, hk⟩ :=
    split_range (L := L) h0 (by omega) (toIndex - fromIndex).toNat
  refine ⟨X, R, Y, hL, hlen, ?_, ?_⟩
  · rcases hk with hk | ⟨hlt, rfl⟩
    · omega
    · have := congrArg List.length hL
      simp only [length_append, length_nil] at this
      omega
  · intro f
    rw [onRange, if_pos h, hX, hR, hY]

omit [DecidableEq E] in
theorem onRange_of_not (h : ¬ ValidRange L fromIndex toIndex)
    (f : List E → List E) : onRange f L fromIndex toIndex = L := if_neg h

omit [DecidableEq E] in
theorem Fresh.read (h : Fresh obs L w) :
    Returns (ObservableListWrapper.content : JavaM (ObservableListWrapper E σ) _) w L w := by
  rw [← h.content]
  rfl

omit [DecidableEq E] in
theorem Noting.read (h : Noting obs L₀ d fired L cs w) :
    Returns (ObservableListWrapper.content : JavaM (ObservableListWrapper E σ) _) w L w := by
  rw [← h.content]
  rfl

theorem Fresh.add_ends {e : E} (h : Fresh obs L w) :
    Ends (ObservableListWrapper.add obs.toElementCallbacks index e) w
      (Reported L (prescribed L (.add index e)) w.fired) := by
  rw [prescribed]
  by_cases hv : ValidRange L index index
  · obtain ⟨X, R, Y, rfl, rfl, hR, hon⟩ := hv.split
    obtain rfl : R = [] := length_eq_zero_iff.mp (by omega)
    rw [hon]
    obtain ⟨w', hw', h'⟩ := Fresh.add e h
    exact hw'.ends h'
  · rw [onRange_of_not hv]
    obtain ⟨s, hs, -⟩ := obs.attach e h.known
    rw [Ends, add_throws (by rw [h.content]; rw [ValidRange] at hv; omega) hs]
    exact ⟨h.content, h.builder, h.listening, none, (append_nil _).symm,
      .inl ⟨rfl, fun _ hc => (by cases hc)⟩⟩

theorem Fresh.addLast_ends {e : E} (h : Fresh obs L w) : Ends (addLast obs.toElementCallbacks e) w
      (Reported L (prescribed L (.addLast e)) w.fired) := by
  refine h.read.then_ends ?_
  have h' : Fresh obs (L ++ []) w := by rwa [append_nil]
  obtain ⟨w', hw', hn⟩ := h'.add e
  rw [append_nil] at hn
  exact hw'.ends hn

omit [DecidableEq E] in
theorem ValidRange.split_one (h : ValidRange L index (index + 1)) :
    ∃ X e Y, L = X ++ e :: Y ∧ (X.length : Int) = index ∧
      ∀ f, onRange f L index (index + 1) = X ++ (f [e] ++ Y) := by
  obtain ⟨X, R, Y, hL, hX, hR, hon⟩ := h.split
  obtain ⟨e, rfl⟩ := length_eq_one_iff.mp (show R.length = 1 by omega)
  exact ⟨X, e, Y, hL, hX, hon⟩

theorem Fresh.set_ends {e : E} (h : Fresh obs L w) :
    Ends (ObservableListWrapper.set obs.toElementCallbacks index e) w
      (Reported L (prescribed L (.set index e)) w.fired) := by
  rw [prescribed]
  by_cases hv : ValidRange L index (index + 1)
  · obtain ⟨X, old, Y, rfl, rfl, hon⟩ := hv.split_one
    rw [hon]
    obtain ⟨w', change, hw', h', -, -⟩ := Fresh.set e h
    exact hw'.ends h'
  · rw [onRange_of_not hv, Ends, set_throws (by rw [h.content]; rw [ValidRange] at hv; omega)]
    exact h.unchanged

theorem Fresh.remove_ends (h : Fresh obs L w) :
    Ends (ObservableListWrapper.remove obs.toElementCallbacks index) w
      (Reported L (prescribed L (.remove index)) w.fired) := by
  rw [prescribed]
  by_cases hv : ValidRange L index (index + 1)
  · obtain ⟨X, old, Y, rfl, rfl, hon⟩ := hv.split_one
    rw [hon]
    obtain ⟨w', hw', h'⟩ := Fresh.remove h
    exact hw'.ends h'
  · rw [onRange_of_not hv, Ends, remove_throws (by rw [h.content]; rw [ValidRange] at hv; omega)]
    exact h.unchanged

omit [DecidableEq E] in
theorem eraseP_at {i : Nat} (h : L.findIdx? equals = some i) :
    ∃ X e Y, L = X ++ e :: Y ∧ X.length = i ∧ L.eraseP equals = X ++ Y := by
  obtain ⟨hlt, hp, hbef⟩ := findIdx?_eq_some_iff_getElem.mp h
  have hv : ValidRange L (i : Int) ((i : Int) + 1) := ⟨by omega, by omega, by omega⟩
  obtain ⟨X, e, Y, rfl, hX, -⟩ := hv.split_one
  obtain rfl : i = X.length := by omega
  refine ⟨X, e, Y, rfl, rfl, ?_⟩
  rw [eraseP_append_right]
  · rw [eraseP_cons_of_pos (by simpa using hp)]
  · intro x hx
    obtain ⟨j, hj, rfl⟩ := getElem_of_mem hx
    have := hbef j hj
    rwa [getElem_append_left hj] at this

theorem Fresh.removeObject_ends (h : Fresh obs L w) :
    Ends (removeObject obs.toElementCallbacks equals) w
      (Reported L (prescribed L (.removeObject equals)) w.fired) := by
  refine h.read.then_ends ?_
  rw [prescribed]
  cases hidx : L.findIdx? equals with
  | none =>
    have hnone : L.eraseP equals = L := by
      apply eraseP_of_forall_not
      simpa [findIdx?_eq_none_iff] using hidx
    rw [hnone]
    exact Returns.ends rfl h.unchanged
  | some i =>
    obtain ⟨X, e, Y, rfl, rfl, herase⟩ := eraseP_at hidx
    rw [herase]
    obtain ⟨w', hw', h'⟩ := Fresh.remove h
    exact Returns.ends (hw'.bind rfl) h'

omit [DecidableEq E] in
theorem Noting.removeRepeated (h : Noting obs L₀ d fired (X ++ (R ++ Y)) [] w) :
    ∃ w', Returns (removeRepeated obs.toElementCallbacks X.length R.length) w () w' ∧
      ∃ cs, Noting obs L₀ d fired (X ++ Y) cs w' := by
  obtain ⟨w', hw', cs, h', -⟩ := @removeRepeated_rule _ _ _
      (fun L w => ∃ cs, Noting obs L₀ d fired L cs w ∧ OneAt X.length cs) X R (by
      rintro e - Y w ⟨cs, hw, hcs⟩
      obtain ⟨w', cs', hw', h', hrec⟩ := hw.remove hcs.ok
      exact ⟨w', hw', cs', h', hcs.recordRemove hrec⟩) Y _ ⟨[], h, Or.inl rfl⟩
  exact ⟨w', hw', cs, h'⟩

theorem Fresh.removeFromTo_reports (h : Fresh obs L w)
    (hok : toIndex ≤ fromIndex ∨ ValidRange L fromIndex toIndex) :
    Ends (removeFromTo obs.toElementCallbacks fromIndex toIndex) w
      (Reported L (prescribed L (.removeFromTo fromIndex toIndex)) w.fired) := by
  obtain ⟨w1, hw1, h1⟩ := h.beginChange
  rw [prescribed]
  refine hw1.then_ends ?_
  by_cases hv : ValidRange L fromIndex toIndex
  · obtain ⟨X, R, Y, rfl, rfl, hR, hon⟩ := hv.split
    obtain ⟨w2, hw2, cs, h2⟩ := h1.removeRepeated
    obtain ⟨w3, hw3, h3⟩ := h2.fires
    rw [hon, ← hR, toNat_natCast]
    exact (hw2.bind hw3).ends h3
  · have hn : (toIndex - fromIndex).toNat = 0 := by
      have hle := hok.resolve_right hv
      omega
    obtain ⟨w3, hw3, h3⟩ := h1.fires
    rw [onRange_of_not hv, hn]
    exact (Returns.bind (a := ()) rfl hw3).ends h3

theorem Fresh.removeFromTo_ends (h : Fresh obs L w)
    (hok : ¬ Defective L (.removeFromTo fromIndex toIndex)) :
    Ends (removeFromTo obs.toElementCallbacks fromIndex toIndex) w
      (Notified L (prescribed L (.removeFromTo fromIndex toIndex)) w.fired) := by
  by_cases hin : toIndex ≤ fromIndex ∨ ValidRange L fromIndex toIndex
  · exact (h.removeFromTo_reports hin).mono fun _ => Reported.notified
  · -- the first removal throws
    rw [not_or] at hin
    obtain ⟨w1, hw1, h1⟩ := h.beginChange
    rw [prescribed, onRange_of_not hin.2]
    refine hw1.then_ends ?_
    have hthrow := @removeRepeated_throws _ _ obs.toElementCallbacks w1 _ fromIndex 0
        ((toIndex - fromIndex).toNat) rfl (by
        rw [h1.content]
        simp only [ValidRange, Defective] at hin hok
        omega) (by omega)
    rw [Nat.zero_add] at hthrow
    refine Ends.bind (fun a t ht => ?_) (fun e t ht => ?_)
    · rw [Returns, hthrow] at ht
      cases ht
    · rw [hthrow] at ht
      cases ht
      exact ⟨h1.content, fun hne => absurd rfl hne⟩

theorem Fresh.removeIf_ends {p : E → Bool} (h : Fresh obs L w) :
    Ends (removeIf obs.toElementCallbacks p) w (Reported L (L.filter fun e => !p e) w.fired) := by
  obtain ⟨w1, hw1, h1⟩ := h.beginChange
  obtain ⟨w2, hw2, cs, h2, -⟩ := @removeMatching_rule _ _ _
      (fun k M w => ∃ cs, Noting obs L 0 w1.fired M cs w ∧ Behind k cs) p (by
      rintro A e Y w - ⟨cs, hw, hcs⟩
      obtain ⟨w', cs', hw', h', hrec⟩ := hw.remove hcs.ok
      exact ⟨w', hw', cs', h', hcs.recordRemove hrec⟩) (by
      rintro A e Y w - ⟨cs, hw, hcs⟩
      refine ⟨cs, hw, fun c hc => ?_, hcs.2⟩
      have := hcs.1 c hc
      push_cast at this
      omega) L [] w1 ⟨[], by rw [append_nil, h1.unfired]; exact h1, behind_nil _⟩
  rw [append_nil] at h2
  obtain ⟨w3, hw3, h3⟩ := h2.fires
  rw [h1.unfired] at h3
  exact Returns.ends (hw1.bind (h1.read.bind (hw2.bind (hw3.bind rfl)))) h3

omit [DecidableEq E] in
theorem Noting.addAll_ends (h : Noting obs L₀ d fired L cs w) :
    Ends (addAll obs.toElementCallbacks c) w
      (fun w' => ∃ cs, Noting obs L₀ d fired (L ++ c) cs w') := by
  refine h.block_ends fun w1 h1 => ?_
  obtain ⟨w2, hw2, cs2, h2⟩ := @addLast_rule _ _ _ (fun M w => ∃ cs, Noting obs L₀ (d + 1) fired M
      cs w) (fun M w hw => hw.choose_spec.content) (by
      rintro X e Y w ⟨cs, hw⟩
      obtain ⟨w', cs', hw', h'⟩ := hw.add e
      exact ⟨w', hw', cs', h'⟩) c _ _ ⟨cs, h1⟩
  exact Returns.ends (hw2.bind rfl) ⟨cs2, h2⟩

theorem Fresh.addAll_ends (h : Fresh obs L w) : Ends (addAll obs.toElementCallbacks c) w
      (Reported L (prescribed L (.addAll c)) w.fired) := by
  refine h.block_ends fun w1 h1 => ?_
  obtain ⟨w2, hw2, cs2, h2⟩ := @addLast_rule _ _ _ (fun M w' => ∃ cs, Noting obs L 0 w.fired M cs
      w') (fun M w hw => hw.choose_spec.content) (by
      rintro X e Y w ⟨cs, hw⟩
      obtain ⟨w', cs', hw', h'⟩ := hw.add e
      exact ⟨w', hw', cs', h'⟩) c _ _ ⟨[], h1⟩
  exact Returns.ends (hw2.bind rfl) ⟨cs2, h2⟩

omit [DecidableEq E] in
theorem Noting.addAllAt_body {index : Int} {c : List E} (h : Noting obs L₀ d fired L cs w) :
    Ends (do
        if index < 0 ∨ index > (← ObservableListWrapper.content).length then
          throw .indexOutOfBounds
        addEach obs.toElementCallbacks index c
        pure !c.isEmpty : JavaM (ObservableListWrapper E σ) Bool) w
      (fun w' => ∃ cs, Noting obs L₀ d fired (onRange (fun r => c ++ r) L index index) cs w') := by
  refine h.read.then_ends ?_
  by_cases hv : ValidRange L index index
  · obtain ⟨X, R, Y, rfl, rfl, hR, hon⟩ := hv.split
    obtain rfl : R = [] := length_eq_zero_iff.mp (by omega)
    rw [ValidRange] at hv
    rw [if_neg (by omega), hon]
    obtain ⟨w2, hw2, cs2, h2⟩ := @addEach_rule _ _ _ (fun M w' => ∃ cs, Noting obs L₀ d fired M cs
        w') (by
        rintro X e Y w ⟨cs, hw⟩
        obtain ⟨w', cs', hw', h'⟩ := hw.add e
        exact ⟨w', hw', cs', h'⟩) c X Y _ ⟨cs, h⟩
    rw [append_nil]
    exact Returns.ends (hw2.bind rfl) ⟨cs2, h2⟩
  · rw [onRange_of_not hv]
    rw [ValidRange] at hv
    rw [if_pos (by omega)]
    exact ⟨cs, h⟩

theorem Fresh.addAllAt_ends (h : Fresh obs L w) : Ends (addAllAt obs.toElementCallbacks index c) w
      (Reported L (prescribed L (.addAllAt index c)) w.fired) :=
  h.block_ends fun _ h1 => h1.addAllAt_body

theorem Fresh.setAll_ends {col : List E} (h : Fresh obs L w) :
    Ends (setAll obs.toElementCallbacks col) w
      (Reported L (prescribed L (.setAll col)) w.fired) := by
  refine h.block_ends fun w1 h1 => ?_
  obtain ⟨w2, cs2, hw2, h2⟩ := h1.clear
  exact hw2.then_ends (h2.addAll_ends.then_pure true)

theorem Fresh.clear_ends (h : Fresh obs L w) :
    Ends (ObservableListWrapper.clear obs.toElementCallbacks) w
      (Reported L (prescribed L .clear) w.fired) := by
  obtain ⟨s, hs, -⟩ := Follower.detachAll obs h.known
  obtain ⟨b, hb, hrec⟩ := nextRemoveAll_oneAt (X := []) (R := L) (Y := [])
    (by simpa using (Recording.start L).2) (Or.inl rfl)
  obtain ⟨f, hf, ht, hp, -⟩ := block_fires hb hrec
  have hf' : Returns (block (nextRemoveAll 0 w.backingList)) w.builder f new := by
    rw [h.content, h.builder]
    exact hf
  rw [← h.content] at hs
  refine (clear_returns h.listening hs hf').ends (reported_of_tracks rfl rfl h.listening ?_ ht hp)
  simp [heard, h.listening]

theorem Fresh.subList_ends {body : JavaM (ObservableListWrapper E σ) Unit} (h : Fresh obs L w)
    (hbody : ValidRange L fromIndex toIndex →
      Ends body w (Reported L (onRange f L fromIndex toIndex) w.fired)) :
    Ends (do subListRangeCheck fromIndex toIndex; body) w
      (Reported L (onRange f L fromIndex toIndex) w.fired) := by
  rcases subListRangeCheck_cases w fromIndex toIndex with ⟨e, he, hnot⟩ | ⟨hret, hv⟩
  · rw [h.content] at hnot
    rw [onRange_of_not hnot]
    refine Ends.bind (fun a t ht => ?_) (fun e' t ht => ?_)
    · rw [Returns, he] at ht
      cases ht
    · rw [he] at ht
      cases ht
      exact h.unchanged
  · rw [h.content] at hv
    exact hret.then_ends (hbody hv)

theorem Fresh.subListClear_ends (h : Fresh obs L w) :
    Ends (subListClear obs.toElementCallbacks fromIndex toIndex) w
      (Reported L (prescribed L (.subListClear fromIndex toIndex)) w.fired) := by
  rw [prescribed]
  refine h.subList_ends fun hv => h.block_ends fun w1 h1 => h1.block_ends fun w2 h2 => ?_
  obtain ⟨X, R, Y, rfl, rfl, hR, hon⟩ := hv.split
  obtain ⟨w3, hw3, cs, h3⟩ := h2.removeRepeated
  rw [hon, ← hR, toNat_natCast]
  exact hw3.ends ⟨cs, h3⟩

theorem Fresh.subListRemoveIf_ends {fromIndex toIndex : Int} {p : E → Bool} (h : Fresh obs L w) :
    Ends (subListRemoveIf obs.toElementCallbacks fromIndex toIndex p) w
      (Reported L (onRange (fun r => r.filter fun e => !p e) L fromIndex toIndex) w.fired) := by
  refine h.subList_ends fun hv => h.block_ends fun w1 h1 => ?_
  obtain ⟨X, R, Y, rfl, rfl, hR, hon⟩ := hv.split
  obtain ⟨w2, hw2, cs, h2, -⟩ := @iteratorRemoveIf_rule _ _ _
      (fun k M w' => ∃ cs, Noting obs (X ++ (R ++ Y)) 0 w.fired M cs w' ∧ UpTo k cs) p R
      (fun k M w hw => hw.choose_spec.1.content) (by
      rintro X e - Y w - ⟨cs, hw, hcs⟩
      obtain ⟨w', cs', hw', h', hrec⟩ := hw.remove hcs.ok
      have ht := hw.recording.tracks
      rw [hw.changes] at ht
      exact ⟨w', hw', cs', h', hcs.recordRemove ht hrec⟩) (by
      rintro X e Y w - ⟨cs, hw, hcs⟩
      refine ⟨cs, hw, fun c hc => ?_⟩
      have := hcs c hc
      push_cast
      omega) X Y _ ⟨[], h1, fun c hc => by cases hc⟩
  rw [hon, ← hR, toNat_natCast, toNat_natCast]
  exact hw2.ends ⟨cs, h2⟩

omit [DecidableEq E] in
theorem onRange_inside (h0 : 0 ≤ index) (h : index ≤ R.length) :
    onRange f (X ++ (R ++ Y)) (X.length + index) (X.length + index)
      = X ++ ((R.take index.toNat ++ (f [] ++ R.drop index.toNat)) ++ Y) := by
  have hn : ((X.length : Int) + index).toNat = X.length + index.toNat := by omega
  have hle : index.toNat ≤ R.length := by omega
  rw [onRange, if_pos ⟨by omega, Int.le_refl _, by simp only [length_append]; omega⟩, hn,
    take_length_add_append, drop_length_add_append, take_append_of_le_length hle,
    drop_append_of_le_length hle, Int.sub_self]
  simp

theorem Fresh.subListAddAll_ends (h : Fresh obs L w) :
    Ends (subListAddAll obs.toElementCallbacks fromIndex toIndex index c) w
      (Reported L (prescribed L (.subListAddAll fromIndex toIndex index c)) w.fired) := by
  rw [prescribed]
  refine h.subList_ends fun hv => h.block_ends fun w1 h1 => ?_
  obtain ⟨X, R, Y, rfl, rfl, hR, hon⟩ := hv.split
  rw [hon, ← hR]
  by_cases hi : index < 0 ∨ index > R.length
  · have hin : (if index < 0 ∨ R.length < index then R
        else R.take index.toNat ++ (c ++ R.drop index.toNat)) = R := if_pos hi
    rw [hin, if_pos hi]
    exact ⟨[], h1⟩
  · have hin : (if index < 0 ∨ R.length < index then R
        else R.take index.toNat ++ (c ++ R.drop index.toNat))
        = R.take index.toNat ++ (c ++ R.drop index.toNat) := if_neg hi
    rw [hin, if_neg hi]
    by_cases hc : c.isEmpty
    · rw [if_pos hc, List.isEmpty_iff.mp hc]
      exact Returns.ends rfl ⟨[], by simpa using h1⟩
    · rw [if_neg hc]
      have hadd := h1.block_ends fun w2 h2 => @Noting.addAllAt_body _ _ _ _ _ _ _ _ _
          (X.length + index) c h2
      rw [onRange_inside (by omega) (by omega), append_nil] at hadd
      exact Ends.discard hadd

variable {c : E → E → Int}

theorem Fresh.sort_ends (h : Fresh obs L w) (hc : SortHelper.IsComparator c) :
    Ends (sort c : JavaM (ObservableListWrapper E σ) Unit) w
      (Reported L (prescribed L (.sort c)) w.fired) := by
  refine h.read.then_ends ?_
  by_cases hL : L.isEmpty
  · rw [if_pos hL]
    obtain rfl := List.isEmpty_iff.mp hL
    rw [prescribed, mergeSort_nil]
    exact Returns.ends rfl h.unchanged
  · rw [if_neg hL]
    refine Returns.ends (a := ()) rfl ⟨SortHelper.sort_eq_mergeSort hc L, h.builder, h.listening,
      some [⟨0, L.length, some [], (SortHelper.sort c L).2, false⟩], ?_, ?_⟩
    · show (if w.hasListeners then _ else _) = _
      rw [if_pos h.listening]
      rfl
    · obtain ⟨-, -, -, -, hlen, -⟩ := SortHelper.sort_moves hc L
      have hne : (SortHelper.sort c L).2 ≠ [] := by
        rw [← length_pos_iff, hlen, length_pos_iff]
        simpa using hL
      have hperm : (SortHelper.sort c L).2.isEmpty = false := List.isEmpty_eq_false_iff.2 hne
      refine .inr ⟨_, rfl, hne, List.mergeSort_perm _ _, ?_⟩
      rw [Option.getD_some, replayChange, replaySubChange, wasPermutated, hperm]
      simp only [Bool.not_false, if_true, replayPermutation]
      rw [if_pos ⟨Int.le_refl 0, by omega, Int.le_refl _, SortHelper.sort_isPermutation hc L⟩,
        SortHelper.permuted_sort hc, SortHelper.sort_eq_mergeSort hc]
      rfl

theorem Fresh.setEach {xs : List E} :
    ∀ {X R Y : List E} {w : ObservableListWrapper E σ}, R.length = xs.length →
      Fresh obs (X ++ (R ++ Y)) w →
      ∃ w' changes, Returns (setEach obs.toElementCallbacks X.length xs) w () w' ∧
        w'.backingList = X ++ (xs ++ Y) ∧ w'.fired = w.fired ++ changes ∧
        changes.length = xs.length := by
  induction xs with
  | nil =>
    intro X R Y w hlen h
    obtain rfl := length_eq_zero_iff.mp hlen
    exact ⟨w, [], rfl, h.content, (append_nil _).symm, rfl⟩
  | cons x xs ih =>
    intro X R Y w hlen h
    cases R with
    | nil => cases hlen
    | cons old R =>
      obtain ⟨w1, change, hw1, -, h1, hf1⟩ := Fresh.set x h
      have h1' : Fresh obs ((X ++ [x]) ++ (R ++ Y)) w1 := by simpa using h1
      obtain ⟨w2, changes, hw2, hL2, hf2, hn⟩ := ih (by simpa using hlen) h1'
      refine ⟨w2, change :: changes, hw1.bind ?_, by simpa using hL2, ?_, by simp [hn]⟩
      · simpa using hw2
      · rw [hf2, hf1, append_assoc]
        rfl

theorem Fresh.subListSort (h : Fresh obs L w) (hv : ValidRange L fromIndex toIndex) :
    ∃ w' changes, Returns (subListSort obs.toElementCallbacks fromIndex toIndex c) w () w' ∧
      w'.backingList = onRange (fun r => r.mergeSort fun x y => c x y ≤ 0) L fromIndex toIndex ∧
      w'.fired = w.fired ++ changes ∧ (changes.length : Int) = toIndex - fromIndex := by
  have hcheck : Returns (subListRangeCheck fromIndex toIndex) w () w := by
    rcases subListRangeCheck_cases w fromIndex toIndex with ⟨e, -, hnot⟩ | ⟨hret, -⟩
    · rw [h.content] at hnot
      exact absurd hv hnot
    · exact hret
  have hread := h.read
  obtain ⟨X, R, Y, rfl, rfl, hR, hon⟩ := hv.split
  obtain ⟨w', changes, hw', hL', hf', hn⟩ := h.setEach (length_mergeSort R).symm
  refine ⟨w', changes, hcheck.bind (hread.bind ?_), by rw [hL', hon], hf', ?_⟩
  · rw [toNat_natCast, drop_left, ← hR, toNat_natCast, take_left]
    exact hw'
  · rw [hn, length_mergeSort, hR]

end Operations

/-! ## Every call -/

section Calls

variable {obs : Follower E σ} {L : List E} {w : ObservableListWrapper E σ} {call : Call E}

/-- Neither a `remove(from, to)` that throws nor sorting a sub-list. -/
def Reports (L : List E) : Call E → Prop
  | .removeFromTo fromIndex toIndex => toIndex ≤ fromIndex ∨ ValidRange L fromIndex toIndex
  | .subListSort _ _ _ => False
  | _ => True

theorem Fresh.call_reports (h : Fresh obs L w) (hlaw : Lawful call) (hcall : Reports L call) :
    Ends (call.run obs.toElementCallbacks) w (Reported L (prescribed L call) w.fired) := by
  cases call with
  | add index element => exact h.add_ends
  | addLast element => exact h.addLast_ends
  | set index element => exact h.set_ends.discard
  | remove index => exact h.remove_ends.discard
  | removeObject equals => exact h.removeObject_ends.discard
  | removeFromTo fromIndex toIndex => exact h.removeFromTo_reports hcall
  | addAll c => exact h.addAll_ends.discard
  | addAllAt index c => exact h.addAllAt_ends.discard
  | setAll col => exact h.setAll_ends.discard
  | removeAll contains => exact h.removeIf_ends.discard
  | retainAll contains =>
    have hret := h.removeIf_ends (p := fun e => !contains e)
    simp only [Bool.not_not] at hret
    exact hret.discard
  | clear => exact h.clear_ends
  | sort c => exact h.sort_ends hlaw
  | subListClear fromIndex toIndex => exact h.subListClear_ends
  | subListRemoveAll fromIndex toIndex contains => exact h.subListRemoveIf_ends
  | subListRetainAll fromIndex toIndex contains =>
    have hret := @Fresh.subListRemoveIf_ends _ _ _ _ _ _ fromIndex toIndex (fun e => !contains e) h
    simp only [Bool.not_not] at hret
    exact hret
  | subListAddAll fromIndex toIndex index c => exact h.subListAddAll_ends
  | subListSort fromIndex toIndex c => exact hcall.elim

theorem Fresh.call_ends (h : Fresh obs L w) (hlaw : Lawful call) (hok : ¬ Defective L call) :
    Ends (call.run obs.toElementCallbacks) w (Notified L (prescribed L call) w.fired) := by
  by_cases hcall : Reports L call
  · exact (h.call_reports hlaw hcall).mono fun _ => Reported.notified
  cases call with
  | removeFromTo fromIndex toIndex => exact h.removeFromTo_ends hok
  | subListSort fromIndex toIndex c =>
    -- nothing moves
    have hsame : prescribed L (.subListSort fromIndex toIndex c) = L := by
      by_contra hne
      exact hok hne
    rw [hsame]
    refine Ends.mono (P := fun w' => w'.backingList = L) ?_ fun w' hw' =>
      ⟨hw', fun hne => absurd rfl hne⟩
    by_cases hv : ValidRange L fromIndex toIndex
    · obtain ⟨w', changes, hw', hL', -, -⟩ := h.subListSort hv (c := c)
      exact hw'.ends (hL'.trans hsame)
    · rcases subListRangeCheck_cases w fromIndex toIndex with ⟨e, he, -⟩ | ⟨-, hv'⟩
      · refine Ends.bind (fun a t ht => ?_) (fun e' t ht => ?_)
        · rw [Returns, he] at ht
          cases ht
        · rw [he] at ht
          cases ht
          exact h.content
      · rw [h.content] at hv'
        exact absurd hv' hv
  | _ => exact absurd trivial hcall

omit [DecidableEq E] in
theorem Fresh.removeFromTo_defective (h : Fresh obs L w)
    (hbad : Defective L (.removeFromTo fromIndex toIndex)) :
    (exec (removeFromTo obs.toElementCallbacks fromIndex toIndex) w).backingList
      = L.take fromIndex.toNat := by
  obtain ⟨h0, hlt, hto⟩ := hbad
  have hv : ValidRange L fromIndex L.length := ⟨h0, by omega, Int.le_refl _⟩
  obtain ⟨X, R, Y, rfl, rfl, hR, -⟩ := hv.split
  obtain rfl : Y = [] := by
    rw [← length_eq_zero_iff]
    simp only [length_append] at hR
    omega
  obtain ⟨w1, hw1, h1⟩ := h.beginChange
  obtain ⟨w2, hw2, cs, h2⟩ := h1.removeRepeated
  simp only [append_nil, length_append] at hR hto
  obtain ⟨k, hk⟩ : ∃ k : Nat, (toIndex - X.length).toNat = R.length + (k + 1) :=
    ⟨(toIndex - X.length).toNat - R.length - 1, by omega⟩
  have hthrow := removeRepeated_throws (k := k + 1) hw2 (by rw [h2.content]; simp) (by omega)
  rw [exec, removeFromTo]
  simp only [Bind.bind, EStateM.bind, show ObservableListWrapper.beginChange w = _ from hw1, hk,
    hthrow]
  rw [h2.content, toNat_natCast, take_left, append_nil]

/-- A call notifies as it should exactly when it is not defective. -/
theorem notifies_iff (obs : Follower E σ) (w : ObservableListWrapper E σ) (call : Call E)
    (hw : Fresh obs w.backingList w) (hlaw : Lawful call) :
    Notifies obs w call ↔ ¬ Defective w.backingList call := by
  refine ⟨fun hn hbad => ?_, fun hok => (hw.call_ends hlaw hok).exec⟩
  obtain ⟨hcon, hfired⟩ := hn
  cases call with
  | removeFromTo fromIndex toIndex =>
    -- the range is no range of the list, so nothing should go
    have hgone := hw.removeFromTo_defective hbad
    obtain ⟨h₀, hlt, hto⟩ := hbad
    have hsame : prescribed w.backingList (.removeFromTo fromIndex toIndex) = w.backingList := by
      rw [prescribed]
      apply onRange_of_not
      rw [ValidRange]
      omega
    rw [hsame] at hcon
    have hlen := congrArg List.length (hgone.symm.trans hcon)
    rw [length_take] at hlen
    omega
  | subListSort fromIndex toIndex c =>
    have hv : ValidRange w.backingList fromIndex toIndex := by
      by_contra hv
      exact hbad (onRange_of_not hv _)
    obtain ⟨w', changes, hw', hL', hf', hn⟩ := hw.subListSort hv (c := c)
    obtain ⟨change, hone, -⟩ := hfired hbad
    have hexec : exec (Call.run obs.toElementCallbacks (.subListSort fromIndex toIndex c)) w
        = w' := by
      rw [exec, show Call.run obs.toElementCallbacks (.subListSort fromIndex toIndex c) w = _
        from hw']
    rw [hexec, hf'] at hone
    -- one change means one element, and that is sorted
    have hlen : changes.length = 1 := by
      rw [append_cancel_left hone]
      rfl
    apply hbad
    obtain ⟨X, R, Y, hL, hX, hR, hon⟩ := hv.split
    obtain ⟨x, rfl⟩ := length_eq_one_iff.mp (show R.length = 1 by omega)
    rw [hon, mergeSort_singleton, ← hL]
  | _ => exact hbad

/-- Removing two of three elements. -/
theorem notifies_iff_removeAll :
    let w : ObservableListWrapper Nat Unit := ⟨[3, 1, 3], ListChangeBuilder.new, (), true, []⟩
    Fresh Follower.none [3, 1, 3] w ∧
      (Notifies Follower.none w (.removeAll (· == 3)) ↔
        ¬ Defective [3, 1, 3] (.removeAll (· == 3))) :=
  ⟨⟨rfl, trivial, rfl, rfl⟩, notifies_iff Follower.none _ _ ⟨rfl, trivial, rfl, rfl⟩ trivial⟩

/-- `remove(1, 5)` tells nobody, sorting a sub-list twice. -/
theorem notifies_fails :
    let w : ObservableListWrapper Nat Unit := ⟨[3, 2, 1], ListChangeBuilder.new, (), true, []⟩
    ¬ Notifies Follower.none w (.removeFromTo 1 5) ∧
      ¬ Notifies Follower.none w (.subListSort 0 2 fun x y => (x : Int) - y) := by
  intro w
  refine ⟨fun h => ?_, fun h => ?_⟩
  · have := h.1
    revert this
    decide
  · have hfresh : Fresh Follower.none [3, 2, 1] w := ⟨rfl, trivial, rfl, rfl⟩
    have hv : ValidRange ([3, 2, 1] : List Nat) 0 2 := by decide
    obtain ⟨w', changes, hw', -, hf', hn⟩ := hfresh.subListSort hv
      (c := fun (x y : Nat) => (x : Int) - y)
    have hsort : ([3, 2] : List Nat).mergeSort (fun x y => decide ((x : Int) - y ≤ 0)) = [2, 3] := by
      simp [List.mergeSort, List.MergeSort.Internal.splitInTwo]
    have hnew : prescribed w.backingList (.subListSort 0 2 fun x y => (x : Int) - y) = [2, 3, 1] :=
      congrArg (· ++ [1]) hsort
    obtain ⟨change, hone, -⟩ := h.2 (by rw [hnew]; decide)
    rw [exec, show Call.run Follower.none.toElementCallbacks
      (.subListSort 0 2 fun (x y : Nat) => (x : Int) - y) w = _ from hw', hf'] at hone
    have := congrArg List.length hone
    simp only [length_append, length_singleton] at this
    omega

end Calls

end ObservableListWrapper

end OpenJfx.Collections
