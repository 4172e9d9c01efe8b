/-
  OpenJfx.Monocle.MultiTouch.Batches

  Reports in batches: the filter holds the newest back and may put an older one into the object
  the processor accumulates its state in.
-/

import OpenJfx.Monocle.MultiTouch.Contacts

namespace OpenJfx.Monocle

open List MultiTouchProcessor Contacts Function TouchState Option

variable {c : Contacts} {points : List Point} {rest : List PipelineInput}

/-! ## The contacts at the end of a report -/

namespace Contacts

/-- An ID that is not assigned has no coordinates. -/
structure Tidy (c : Contacts) : Prop where
  assigned : ∀ s, c.slots.ids s ≠ some idUnassigned
  coordinates : ∀ id, (∀ s, c.slots.ids s ≠ some id) → c.x id = none ∧ c.y id = none

theorem tidy_start : start.Tidy := ⟨fun _ => nofun, fun _ _ => ⟨rfl, rfl⟩⟩

theorem step_slots (c : Contacts) (e : InputEvent) : (c.step e).slots = c.slots.step e := by
  unfold step
  split
  · split <;> rfl
  · rfl
  · rfl
  · rfl

theorem report_slots (c : Contacts) (events : List InputEvent) :
    (c.report events).slots = events.foldl Slots.step c.slots := by
  induction events generalizing c with
  | nil => rfl
  | cons e events ih =>
    rw [report, foldl_cons, ← report, ih, step_slots, foldl_cons]

theorem Tidy.lost_of_absMtTrackingID (h : c.Tidy) {value id : Int}
    (hid : ∀ s, (c.slots.step (.absMtTrackingID value)).ids s ≠ some id) :
    (∀ s, c.slots.ids s ≠ some id) ∨ c.slots.current = some id ∧ id ≠ value := by
  by_cases hs : ∃ s, c.slots.ids s = some id
  · obtain ⟨s, hs⟩ := hs
    have hslot : s = c.slots.slot := by
      by_contra hne
      exact hid s (by simpa [Slots.step, hne] using hs)
    subst hslot
    refine .inr ⟨hs, fun heq => hid c.slots.slot ?_⟩
    subst heq
    have hne : id ≠ idUnassigned := fun heq => h.assigned _ (heq ▸ hs)
    simp [Slots.step, hne]
  · exact .inl fun s hs' => hs ⟨s, hs'⟩

theorem Tidy.step {c : Contacts} (h : c.Tidy) (e : InputEvent) : (c.step e).Tidy := by
  constructor
  · intro s
    rw [step_slots]
    cases e with
    | absMtTrackingID value =>
      simp only [Slots.step]
      by_cases hs : s = c.slots.slot
      · rw [hs, update_self]
        split
        · simp
        · next hne => exact fun heq => hne (some.inj heq)
      · rw [update_of_ne hs]
        exact h.assigned s
    | _ => exact h.assigned s
  · intro id hid
    rw [step_slots] at hid
    cases e with
    | absMtTrackingID value =>
      have hlost := h.lost_of_absMtTrackingID hid
      unfold Contacts.step
      cases hcur : c.slots.current with
      | none =>
        rw [hcur] at hlost
        exact h.coordinates id (hlost.resolve_right fun hsome => by simp at hsome)
      | some old =>
        by_cases hold : id = old
        · subst hold
          have hne : id ≠ value := by
            obtain hnone | hsome := hlost
            · exact (hnone _ hcur).elim
            · exact hsome.2
          simp [hne]
        · have hxy := h.coordinates id
            (hlost.resolve_right fun hsome => hold (some.inj (hsome.1.symm.trans hcur)))
          by_cases hval : old = value
          · simp only [if_pos hval]
            exact hxy
          · simp only [if_neg hval, update_of_ne hold]
            exact hxy
    | absMtPositionX value | absMtPositionY value =>
      have hxy := h.coordinates id hid
      unfold Contacts.step
      cases hcur : c.slots.current with
      | none => exact hxy
      | some old =>
        have hold : id ≠ old := fun heq => hid _ (heq ▸ hcur)
        simpa only [update_of_ne hold] using hxy
    | absMtSlot | absX | absY | btnTouch | synMtReport | synReport | other =>
      have hxy := h.coordinates id hid
      unfold Contacts.step
      cases c.slots.current <;> exact hxy

theorem Tidy.report (h : c.Tidy) (events : List InputEvent) : (c.report events).Tidy := by
  induction events generalizing c with
  | nil => exact h
  | cons e events ih => exact ih (h.step e)

/-- The contacts with the coordinates of an earlier moment. -/
def withCoordinates (c before : Contacts) : Contacts := { c with x := before.x, y := before.y }

end Contacts

/-! ## One report -/

/-- Every contact has both coordinates at the end. -/
def ReportConforms (c : Contacts) (events : List InputEvent) : Prop :=
  AllEvents (fun s _ e => Conforms s e) c.slots .empty events ∧ (c.report events).Complete

def ReportAttributed (c : Contacts) (events : List InputEvent) : Prop :=
  AllEvents Attributed c.slots .empty events

namespace MultiTouchProcessor

theorem processLoop_append (p : MultiTouchProcessor) (v : Locals) (es1 es2 : List InputEvent) :
    p.processLoop v (es1 ++ es2) =
      (p.processLoop v es1).1.processLoop (p.processLoop v es1).2 es2 := by
  induction es1 generalizing p v with
  | nil => rfl
  | cons e es1 ih =>
    rw [cons_append, processLoop, processLoop]
    exact ih _ _

theorem processEvent_frame (p : MultiTouchProcessor) (v : Locals) {e : InputEvent}
    (he : e ≠ .synReport) :
    (p.processEvent v e).1.filter = p.filter ∧ (p.processEvent v e).1.handed = p.handed := by
  cases e with
  | synReport => exact (he rfl).elim
  | absMtSlot value | absMtTrackingID value =>
    simp only [processEvent]
    split <;> exact ⟨rfl, rfl⟩
  | synMtReport =>
    simp only [processEvent]
    split
    · split <;> exact ⟨rfl, rfl⟩
    · exact ⟨rfl, rfl⟩
  | absX | absMtPositionX | absY | absMtPositionY | btnTouch | other => exact ⟨rfl, rfl⟩

end MultiTouchProcessor

variable {es : List InputEvent}

namespace Follows

variable {p : MultiTouchProcessor} {v : Locals} {c : Contacts} {g : Group}

theorem events (h : Follows p v c g)
    (hconf : AllEvents (fun s _ e => Conforms s e) c.slots g es)
    (hattr : AllEvents Attributed c.slots g es) :
    (∃ g', Follows (p.processLoop v es).1 (p.processLoop v es).2 (c.report es) g') ∧
      (p.processLoop v es).1.filter = p.filter ∧ (p.processLoop v es).1.handed = p.handed := by
  induction es generalizing p v c g with
  | nil => exact ⟨⟨g, h⟩, rfl, rfl⟩
  | cons e es ih =>
    have he : e ≠ .synReport := by
      rintro rfl
      exact hconf.1
    obtain ⟨hfilt, hhanded⟩ := p.processEvent_frame v he
    have hrest := ih (h.step hconf.1 hattr.1) (c.step_slots e ▸ hconf.2)
      (c.step_slots e ▸ hattr.2)
    rw [hfilt, hhanded] at hrest
    exact hrest

theorem replace (h : Follows p .start c .empty) {p' : MultiTouchProcessor}
    (hslot : p'.currentSlot = p.currentSlot) (hids : p'.slotToIDMap = p.slotToIDMap)
    (hcur : p'.currentID = p.currentID) {before : Contacts}
    (hrep : Represents p'.state.points before.x before.y) :
    Follows p' .start (c.withCoordinates before) .empty := by
  refine ⟨hslot.trans h.slot, hids.trans h.ids, hcur.trans h.current, h.range, rfl, rfl, nofun,
    nofun, rfl, before.x, before.y, hrep, ?_, ?_⟩
  all_goals
    show _ = withGroup _ c.slots.current none
    cases c.slots.current <;> rfl

theorem represents (h : Follows p .start c .empty) : Represents p.state.points c.x c.y := by
  have hsettle := h.settle
  rwa [if_neg fun hcond => h.given_iff.mp hcond.2 rfl] at hsettle

/-- One report. -/
theorem report (h : Follows p .start c .empty)
    (hconf : AllEvents (fun s _ e => Conforms s e) c.slots .empty es)
    (hattr : AllEvents Attributed c.slots .empty es) :
    ∃ p₁ : MultiTouchProcessor, Follows p₁ .start (c.report es) .empty ∧ p₁.filter = p.filter ∧
      p₁.handed = p.handed ∧ p.processLoop .start (es ++ [.synReport]) = (p₁.pushState, .start) := by
  obtain ⟨⟨g, h1⟩, hfilt, hhanded⟩ := h.events hconf hattr
  rw [processLoop_append]
  revert h1 hfilt hhanded
  generalize p.processLoop .start es = r
  obtain ⟨p₁, v1⟩ := r
  intro h1 hfilt hhanded
  have hsettle := h1.settle
  refine ⟨if p₁.currentID ≠ idUnassigned ∧ (v1.x ≠ coordUndefined ∨ v1.y ≠ coordUndefined) then
    p₁.updatePoint v1.x v1.y else p₁, ?_, ?_, ?_, ?_⟩
  · refine ⟨?_, ?_, ?_, h1.range, rfl, rfl, nofun, nofun, rfl, (c.report es).x, (c.report es).y,
      hsettle, ?_, ?_⟩
    · rw [← h1.slot]
      split <;> rfl
    · rw [← h1.ids]
      split <;> rfl
    · rw [← h1.current]
      split <;> rfl
    all_goals cases (c.report es).slots.current <;> rfl
  · rw [← hfilt]
    split <;> rfl
  · rw [← hhanded]
    split <;> rfl
  · have hreleased : v1.allPointsReleased = false := h1.notReleased
    simp only [processLoop, processEvent, hreleased, Bool.false_eq_true, if_false, and_comm]

end Follows

/-! ## The filter -/

theorem Represents.ids_sorted {ts : TouchState} {x y : Int → Option Int}
    (h : Represents ts.points x y) :
    (ts.sortPointsByID.points.map Point.id).Pairwise (· ≤ ·) := by
  refine TouchState.sortPointsByID_sorted fun p hp q hq => ?_
  have hp := h.range p hp
  have hq := h.range q hq
  omega

/-- At the end of a report the points are those of the IDs assigned. -/
theorem Represents.mem_ids (h : Represents points c.x c.y)
    (htidy : c.Tidy) (hcomp : c.Complete) (id : Int) :
    id ∈ points.map Point.id ↔ ∃ s, c.slots.ids s = some id := by
  constructor
  · intro hid
    obtain ⟨q, hq, rfl⟩ := mem_map.mp hid
    by_contra hnone
    obtain ⟨hx, hy⟩ := htidy.coordinates q.id fun s hs => hnone ⟨s, hs⟩
    have := ((h.mem q).mp hq).1
    simp [hx, hy] at this
  · rintro ⟨s, hs⟩
    exact mem_map.mpr ⟨⟨id, (c.x id).getD 0, (c.y id).getD 0⟩,
      (h.mem _).mpr ⟨.inl (hcomp s id hs).1, rfl, rfl⟩, rfl⟩

theorem Represents.mem_iff_has (h : Represents points c.x c.y)
    (htidy : c.Tidy) (hcomp : c.Complete) (q : Point) : q ∈ points ↔ c.Has q := by
  constructor
  · intro hq
    obtain ⟨s, hs⟩ := (h.mem_ids htidy hcomp q.id).mp (mem_map_of_mem hq)
    obtain ⟨hxsome, hysome⟩ := hcomp s _ hs
    obtain ⟨x, hx⟩ := Option.isSome_iff_exists.mp hxsome
    obtain ⟨y, hy⟩ := Option.isSome_iff_exists.mp hysome
    obtain ⟨-, hqx, hqy⟩ := (h.mem q).mp hq
    refine ⟨⟨s, hs⟩, ?_, ?_⟩
    · rw [hqx, hx, Option.getD_some]
    · rw [hqy, hy, Option.getD_some]
  · rintro ⟨-, hx, hy⟩
    exact (h.mem q).mpr ⟨by simp [hx], by simp [hx], by simp [hy]⟩

theorem canBeFoldedWith_iff {ts1 ts2 : TouchState} {c1 c2 : Contacts}
    (h1 : Represents ts1.points c1.x c1.y) (h2 : Represents ts2.points c2.x c2.y)
    (hs1 : (ts1.points.map Point.id).Pairwise (· ≤ ·))
    (hs2 : (ts2.points.map Point.id).Pairwise (· ≤ ·)) (ht1 : c1.Tidy) (ht2 : c2.Tidy)
    (hc1 : c1.Complete) (hc2 : c2.Complete) :
    ts1.canBeFoldedWith ts2 false = true ↔ c1.SameIDs c2 := by
  have hids : ts1.canBeFoldedWith ts2 false = true ↔
      ts2.points.map Point.id = ts1.points.map Point.id := by
    unfold TouchState.canBeFoldedWith
    by_cases hlen : ts2.points.length = ts1.points.length
    · simp [hlen]
    · simp only [hlen, ne_eq, not_false_eq_true, if_true, Bool.false_eq_true, false_iff]
      intro heq
      exact hlen (by simpa using congrArg List.length heq)
  rw [hids]
  constructor
  · intro heq id
    rw [← h1.mem_ids ht1 hc1, ← h2.mem_ids ht2 hc2, heq]
  · intro hsame
    refine List.Perm.eq_of_pairwise (fun a b _ _ => Int.le_antisymm) hs2 hs1 ?_
    rw [perm_ext_iff_of_nodup h2.nodup h1.nodup]
    intro id
    rw [h1.mem_ids ht1 hc1, h2.mem_ids ht2 hc2]
    exact (hsame id).symm

/-! ## Batches -/

/-- What reaches the pipeline: the reports, and the end of each call. -/
inductive PipelineInput where
  | report (events : List InputEvent)
  | flush

/-- The reports of the calls, with the ends of the calls between them. -/
def pipelineInputs (calls : List (List (List InputEvent))) : List PipelineInput :=
  calls.flatMap fun reports => reports.map .report ++ [.flush]

/-- A report is lost where the filter gives an older one out: it is pushed while another is held,
    and not with the IDs of two before it in the call. The next report then says again what was
    lost. -/
def LostRepeated (before now : Contacts) : FilterState → List PipelineInput → Prop
  | _, [] => True
  | _, .flush :: rest => LostRepeated before now .clean rest
  | held, .report events :: rest =>
    ((now.withCoordinates before).report events).x = (now.report events).x ∧
    ((now.withCoordinates before).report events).y = (now.report events).y ∧
    match held with
    | .clean => LostRepeated (now.report events) (now.report events) .pendingUnmodifiable rest
    | .pendingUnmodifiable =>
      (now.SameIDs (now.report events) →
        LostRepeated now (now.report events) .pendingModifiable rest) ∧
      (¬ now.SameIDs (now.report events) →
        LostRepeated now (now.report events) .pendingUnmodifiable rest)
    | .pendingModifiable =>
      (now.SameIDs (now.report events) →
        LostRepeated (now.report events) (now.report events) .pendingModifiable rest) ∧
      (¬ now.SameIDs (now.report events) →
        LostRepeated now (now.report events) .pendingUnmodifiable rest)

/-- Every report of a stream meets a condition on the contacts before it. -/
def AllReports (C : Contacts → List InputEvent → Prop) : Contacts → List (List InputEvent) → Prop
  | _, [] => True
  | c, events :: reports => C c events ∧ AllReports C (c.report events) reports

namespace MultiTouchProcessor

/-- The points last handed to `TouchInput.setState`. -/
def lastHanded (p : MultiTouchProcessor) : List Point :=
  (p.handed.getLast?.map TouchState.points).getD []

/-- One call of `processEvents` for each list of reports. -/
def run (p : MultiTouchProcessor) (calls : List (List (List InputEvent))) : MultiTouchProcessor :=
  calls.foldl (fun p reports => p.processEvents (reports.flatMap (· ++ [.synReport]))) p

end MultiTouchProcessor

/-- It goes on from `before`; the contacts of now are held. -/
structure InBatch (p : MultiTouchProcessor) (before now : Contacts) (held : FilterState) :
    Prop where
  follows : Follows p .start (now.withCoordinates before) .empty
  tidy : now.Tidy
  complete : now.Complete
  filterState : p.filter.filterState = held
  assignIDs : p.filter.assignIDs = false
  previous : held ≠ .clean → Represents p.filter.previousState.points now.x now.y
  sorted : held ≠ .clean → (p.filter.previousState.points.map Point.id).Pairwise (· ≤ ·)
  handed : held = .clean → ∀ q, q ∈ p.lastHanded ↔ now.Has q

theorem inBatch_new : InBatch .new .start .start .clean where
  follows := ⟨rfl, rfl, rfl, fun _ _ => nofun, rfl, rfl, nofun, nofun, rfl, _, _, represents_nil,
    rfl, rfl⟩
  tidy := Contacts.tidy_start
  complete := fun _ _ => nofun
  filterState := rfl
  assignIDs := rfl
  previous := fun h => (h rfl).elim
  sorted := fun h => (h rfl).elim
  handed := fun _ _ => ⟨fun hq => (not_mem_nil hq).elim, fun hq => nomatch hq.2.1⟩

namespace InBatch

variable {p p₁ : MultiTouchProcessor} {before now after : Contacts} {held : FilterState}

section

variable (h : InBatch p before now held)
include h

/-- The filter puts the held report into the processor's state. -/
theorem swapped (hheld : held ≠ .clean)
    (h1 : Follows p₁ .start after .empty) (htidy : after.Tidy) (hcomp : after.Complete)
    (held' : FilterState) (hheld' : held' ≠ .clean)
    (hpush : p₁.pushState =
      { p₁ with
        filter := { p.filter with
          previousState := p₁.state.sortPointsByID, filterState := held' }
        state := p.filter.previousState.sortPointsByID.assignPrimaryID
        handed := p₁.handed ++ [p.filter.previousState.sortPointsByID.assignPrimaryID] }) :
    InBatch p₁.pushState now after held' := by
  have hrep := h1.represents
  rw [hpush]
  refine ⟨h1.replace (by rfl) (by rfl) (by rfl) ?_, htidy, hcomp, rfl, h.assignIDs,
    fun _ => hrep.perm p₁.state.sortPointsByID_perm, fun _ => hrep.ids_sorted,
    fun heq => (hheld' heq).elim⟩
  show Represents (TouchState.assignPrimaryID _).points _ _
  rw [assignPrimaryID_points]
  exact (h.previous hheld).perm (sortPointsByID_perm _)

theorem kept (h1 : Follows p₁ .start after .empty)
    (htidy : after.Tidy) (hcomp : after.Complete) (held' : FilterState) (hheld' : held' ≠ .clean)
    (hpush : p₁.pushState =
      { p₁ with
        filter := { p.filter with
          previousState := p₁.state.sortPointsByID, filterState := held' }
        state := p₁.state.sortPointsByID }) :
    InBatch p₁.pushState after after held' := by
  have hrep := h1.represents
  have hsorted := hrep.perm p₁.state.sortPointsByID_perm
  rw [hpush]
  exact ⟨h1.replace (by rfl) (by rfl) (by rfl) hsorted, htidy, hcomp, rfl, h.assignIDs,
    fun _ => hsorted, fun _ => hrep.ids_sorted, fun heq => (hheld' heq).elim⟩

theorem report {events : List InputEvent} (hconf : ReportConforms now events)
    (hattr : ReportAttributed now events)
    (hlost : LostRepeated before now held (.report events :: rest)) :
    ∃ p' before' held', InBatch p' before' (now.report events) held' ∧
      LostRepeated before' (now.report events) held' rest ∧
      p.processLoop .start (events ++ [.synReport]) = (p', .start) := by
  obtain ⟨hx, hy, hrest⟩ := hlost
  obtain ⟨p₁, h1, hfilt, -, hloop⟩ := h.follows.report hconf.1 hattr
  have hafter : (now.withCoordinates before).report events = now.report events := by
    have hslots : ((now.withCoordinates before).report events).slots = (now.report events).slots := by
      rw [report_slots, report_slots]
      rfl
    revert hx hy hslots
    cases (now.withCoordinates before).report events
    cases now.report events
    rintro rfl rfl rfl
    rfl
  rw [hafter] at h1
  have htidy := h.tidy.report events
  have hcomp := hconf.2
  have hstate := h.filterState
  have hassign := h.assignIDs
  have hrep := h1.represents
  refine ⟨p₁.pushState, ?_⟩
  cases held with
  | clean =>
    have hpush := h.kept h1 htidy hcomp .pendingUnmodifiable nofun
      (by simp [pushState, LookaheadTouchFilter.filter, hfilt, hstate])
    exact ⟨_, _, hpush, hrest, hloop⟩
  | pendingUnmodifiable =>
    have hfold := canBeFoldedWith_iff (h.previous nofun) (hrep.perm p₁.state.sortPointsByID_perm)
      (h.sorted nofun) hrep.ids_sorted h.tidy htidy h.complete hcomp
    by_cases hsame : now.SameIDs (now.report events)
    · have hpush := h.swapped nofun h1 htidy hcomp .pendingModifiable nofun
        (by simp [pushState, LookaheadTouchFilter.filter, hfilt, hstate,
          hassign, hfold.mpr hsame, setState])
      exact ⟨_, _, hpush, hrest.1 hsame, hloop⟩
    · have hpush := h.swapped nofun h1 htidy hcomp .pendingUnmodifiable nofun
        (by simp [pushState, LookaheadTouchFilter.filter, hfilt, hstate,
          hassign, Bool.eq_false_iff.mpr (mt hfold.mp hsame), setState])
      exact ⟨_, _, hpush, hrest.2 hsame, hloop⟩
  | pendingModifiable =>
    have hfold := canBeFoldedWith_iff (hrep.perm p₁.state.sortPointsByID_perm) (h.previous nofun)
      hrep.ids_sorted (h.sorted nofun) htidy h.tidy hcomp h.complete
    by_cases hsame : now.SameIDs (now.report events)
    · have hfold := hfold.mpr fun id => (hsame id).symm
      have hpush := h.kept h1 htidy hcomp .pendingModifiable nofun
        (by simp [pushState, LookaheadTouchFilter.filter, hfilt, hstate,
          hassign, hfold])
      exact ⟨_, _, hpush, hrest.1 hsame, hloop⟩
    · have hfold := Bool.eq_false_iff.mpr (mt hfold.mp fun hsame' => hsame fun id => (hsame' id).symm)
      have hpush := h.swapped nofun h1 htidy hcomp .pendingUnmodifiable nofun
        (by simp [pushState, LookaheadTouchFilter.filter, hfilt, hstate,
          hassign, hfold, setState])
      exact ⟨_, _, hpush, hrest.2 hsame, hloop⟩

theorem flush (hlost : LostRepeated before now held (.flush :: rest)) :
    InBatch p.flush before now .clean ∧ LostRepeated before now .clean rest := by
  refine ⟨?_, hlost⟩
  have hstate := h.filterState
  by_cases hheld : held = .clean
  · subst hheld
    have hflush : p.flush = p := by
      simp [MultiTouchProcessor.flush, LookaheadTouchFilter.flush, hstate]
    rw [hflush]
    exact h
  · have hflush : p.flush =
        { p with
          filter := { p.filter with filterState := .clean }
          handed := p.handed ++ [p.filter.previousState.sortPointsByID.assignPrimaryID] } := by
      unfold MultiTouchProcessor.flush LookaheadTouchFilter.flush
      rw [hstate]
      cases held with
      | clean => exact (hheld rfl).elim
      | pendingUnmodifiable | pendingModifiable => rfl
    rw [hflush]
    refine ⟨h.follows.replace (by rfl) (by rfl) (by rfl) h.follows.represents, h.tidy, h.complete,
      rfl, h.assignIDs, fun hne => (hne rfl).elim, fun hne => (hne rfl).elim, fun _ q => ?_⟩
    have hpoints : Represents p.filter.previousState.sortPointsByID.points now.x now.y :=
      (h.previous hheld).perm (sortPointsByID_perm _)
    rw [← hpoints.mem_iff_has h.tidy h.complete]
    simp [lastHanded, assignPrimaryID_points]

theorem reports {reports more : List (List InputEvent)}
    (hconf : AllReports ReportConforms now (reports ++ more))
    (hattr : AllReports ReportAttributed now (reports ++ more))
    (hlost : LostRepeated before now held (reports.map .report ++ rest)) :
    ∃ p' before' held', InBatch p' before' (reports.foldl Contacts.report now) held' ∧
      AllReports ReportConforms (reports.foldl Contacts.report now) more ∧
      AllReports ReportAttributed (reports.foldl Contacts.report now) more ∧
      LostRepeated before' (reports.foldl Contacts.report now) held' rest ∧
      p.processLoop .start (reports.flatMap (· ++ [.synReport])) = (p', .start) := by
  induction reports generalizing p before now held with
  | nil => exact ⟨p, before, held, h, hconf, hattr, hlost, rfl⟩
  | cons events reports ih =>
    obtain ⟨p₁, before1, held1, h1, hlost1, hloop1⟩ := h.report hconf.1 hattr.1 hlost
    obtain ⟨p2, before2, held2, h2, hconforms2, hattr2, hlost2, hloop2⟩ :=
      ih h1 hconf.2 hattr.2 hlost1
    refine ⟨p2, before2, held2, h2, hconforms2, hattr2, hlost2, ?_⟩
    rw [flatMap_cons, processLoop_append, hloop1]
    exact hloop2

end

theorem run (h : InBatch p before now .clean) {calls : List (List (List InputEvent))}
    (hconf : AllReports ReportConforms now calls.flatten)
    (hattr : AllReports ReportAttributed now calls.flatten)
    (hlost : LostRepeated before now .clean (pipelineInputs calls)) (n : Nat) (q : Point) :
    q ∈ (p.run (calls.take n)).lastHanded ↔
      ((calls.take n).flatten.foldl Contacts.report now).Has q := by
  induction calls generalizing p before now n with
  | nil =>
    rw [take_nil]
    exact h.handed rfl q
  | cons reports calls ih =>
    cases n with
    | zero => exact h.handed rfl q
    | succ n =>
      rw [pipelineInputs, flatMap_cons, append_assoc] at hlost
      obtain ⟨p₁, before1, held1, h1, hconforms1, hattr1, hlost1, hloop⟩ :=
        h.reports hconf hattr hlost
      obtain ⟨h2, hlost2⟩ := h1.flush hlost1
      have hcall : p.processEvents (reports.flatMap (· ++ [.synReport])) = p₁.flush := by
        rw [processEvents, hloop]
      rw [take_succ_cons, flatten_cons, foldl_append, run, foldl_cons, hcall]
      exact ih h2 hconforms1 hattr1 hlost2 n

end InBatch

/-- For every protocol B stream and all calls: where every event is attributed and every lost report
    repeated, the points handed on last are the contacts with their latest coordinates. -/
theorem lastHanded_eq_contacts (calls : List (List (List InputEvent)))
    (hconf : AllReports ReportConforms .start calls.flatten)
    (hattr : AllReports ReportAttributed .start calls.flatten)
    (hlost : LostRepeated .start .start .clean (pipelineInputs calls)) (n : Nat) (q : Point) :
    q ∈ (new.run (calls.take n)).lastHanded ↔
      ((calls.take n).flatten.foldl Contacts.report .start).Has q :=
  inBatch_new.run hconf hattr hlost n q

-- One contact, whose second call has two reports.
def movedTwice (last : List InputEvent) : List (List (List InputEvent)) :=
  [[[.absMtTrackingID 7, .absMtPositionX 10, .absMtPositionY 10]],
   [[.absMtPositionX 20], [.absMtPositionY 20]],
   [last]]

theorem Contacts.complete_of_slot {id : Int} (hids : ∀ s ≠ 0, c.slots.ids s = none)
    (hid : c.slots.ids 0 = some id) (hx : (c.x id).isSome) (hy : (c.y id).isSome) :
    c.Complete := by
  intro s id' hs
  by_cases hzero : s = 0
  · subst hzero
    cases hid.symm.trans hs
    exact ⟨hx, hy⟩
  · rw [hids s hzero] at hs
    cases hs

theorem conforms_movedTwice {last : List InputEvent}
    (h : AllEvents (fun s _ e => Conforms s e) ⟨0, update (fun _ => none) 0 (some 7)⟩ .empty last)
    (hcomp : ((movedTwice last).flatten.foldl Contacts.report .start).Complete) :
    AllReports ReportConforms .start (movedTwice last).flatten := by
  have hfree : ∀ s : Int, s ≠ 0 →
      update (fun _ => none) 0 (some (7 : Int)) s = none := fun s hs =>
    update_of_ne hs _ _
  exact ⟨⟨⟨⟨by decide, by decide⟩, ⟨rfl, by decide⟩, ⟨rfl, by decide⟩, trivial⟩,
      complete_of_slot hfree rfl rfl rfl⟩,
    ⟨⟨⟨rfl, by decide⟩, trivial⟩, complete_of_slot hfree rfl rfl rfl⟩,
    ⟨⟨⟨rfl, by decide⟩, trivial⟩, complete_of_slot hfree rfl rfl rfl⟩,
    ⟨h, hcomp⟩, trivial⟩

theorem lastHanded_eq_contacts_movedTwice : AllReports ReportConforms .start
        (movedTwice [.absMtPositionX 30, .absMtPositionY 30]).flatten ∧
      AllReports ReportAttributed .start
        (movedTwice [.absMtPositionX 30, .absMtPositionY 30]).flatten ∧
      LostRepeated .start .start .clean
        (pipelineInputs (movedTwice [.absMtPositionX 30, .absMtPositionY 30])) ∧
      ((movedTwice [.absMtPositionX 30, .absMtPositionY 30]).flatten.foldl
        Contacts.report .start).Has ⟨7, 30, 30⟩ := by
  have hconf : AllReports ReportConforms .start
      (movedTwice [.absMtPositionX 30, .absMtPositionY 30]).flatten :=
    conforms_movedTwice ⟨⟨rfl, by decide⟩, ⟨rfl, by decide⟩, trivial⟩
      (complete_of_slot (fun s hs => update_of_ne hs _ _) rfl rfl rfl)
  have hattr : AllReports ReportAttributed .start
      (movedTwice [.absMtPositionX 30, .absMtPositionY 30]).flatten :=
    ⟨⟨.inr (.inr ⟨rfl, rfl⟩), .inl rfl, .inl rfl, trivial⟩, ⟨.inl rfl, trivial⟩,
      ⟨.inl rfl, trivial⟩, ⟨.inl rfl, .inl rfl, trivial⟩, trivial⟩
  have hlost : LostRepeated .start .start .clean
      (pipelineInputs (movedTwice [.absMtPositionX 30, .absMtPositionY 30])) := by
    refine ⟨rfl, rfl, rfl, rfl, rfl, rfl, fun _ => ?_, fun _ => ?_⟩
    all_goals exact ⟨rfl, (update_idem _ _ _).symm, trivial⟩
  exact ⟨hconf, hattr, hlost, (lastHanded_eq_contacts _ hconf hattr hlost 3 ⟨7, 30, 30⟩).mp
    (mem_singleton.mpr rfl)⟩

/-- A report is lost, and the next call goes on without it. -/
theorem lastHanded_ne_contacts :
    AllReports ReportConforms .start (movedTwice [.absMtPositionX 30]).flatten ∧
      ¬ ∀ q, q ∈ (new.run (movedTwice [.absMtPositionX 30])).lastHanded ↔
        ((movedTwice [.absMtPositionX 30]).flatten.foldl Contacts.report .start).Has q := by
  refine ⟨conforms_movedTwice ⟨⟨rfl, by decide⟩, trivial⟩
    (complete_of_slot (fun s hs => update_of_ne hs _ _) rfl rfl rfl), fun h => ?_⟩
  have hhas := (h ⟨7, 30, 10⟩).mp (mem_singleton.mpr rfl)
  exact absurd hhas.2.2 (by decide)

end OpenJfx.Monocle
