/-
  OpenJfx.Monocle.MultiTouch.Contacts

  What a protocol B stream says: the tracking ID of each slot and the coordinates last reported
  for it.  The processor writes the coordinates when the slot changes or the report ends, so in
  between its points lack those reported since.
-/

import OpenJfx.Monocle.MultiTouch.Basic

namespace OpenJfx.Monocle

open List MultiTouchProcessor Function TouchState

/-! ## The stream -/

/-- The slots of a device. -/
structure Slots where
  slot : Int
  ids : Int → Option Int

namespace Slots

/-- The ID assigned to the current slot. -/
def current (s : Slots) : Option Int := s.ids s.slot

/-- The protocol's slots, not the processor's. -/
def step (s : Slots) : InputEvent → Slots
  | .absMtSlot value => { s with slot := value }
  | .absMtTrackingID value =>
    { s with ids := update s.ids s.slot (if value = idUnassigned then none else some value) }
  | _ => s

end Slots

/-- The contacts on a device, with the coordinates of each ID. -/
structure Contacts where
  slots : Slots
  x : Int → Option Int
  y : Int → Option Int

namespace Contacts

def start : Contacts := ⟨⟨0, fun _ => none⟩, fun _ => none, fun _ => none⟩

/-- Another ID in a slot ends its contact. -/
def step (c : Contacts) (e : InputEvent) : Contacts :=
  match e, c.slots.current with
  | .absMtTrackingID value, some id =>
    if id = value then { c with slots := c.slots.step e }
    else
      { slots := c.slots.step e
        x := update c.x id none
        y := update c.y id none }
  | .absMtPositionX value, some id => { c with x := update c.x id (some value) }
  | .absMtPositionY value, some id => { c with y := update c.y id (some value) }
  | _, _ => { c with slots := c.slots.step e }

/-- The contacts after a report. -/
def report (c : Contacts) (events : List InputEvent) : Contacts := events.foldl step c

/-- A contact's point, as last reported for it. -/
def Has (c : Contacts) (q : Point) : Prop :=
  (∃ s, c.slots.ids s = some q.id) ∧ c.x q.id = some q.x ∧ c.y q.id = some q.y

/-- Every contact has reported both coordinates. -/
def Complete (c : Contacts) : Prop :=
  ∀ s id, c.slots.ids s = some id → (c.x id).isSome ∧ (c.y id).isSome

/-- The same IDs are assigned. -/
def SameIDs (c₁ c₂ : Contacts) : Prop :=
  ∀ id, (∃ s, c₁.slots.ids s = some id) ↔ ∃ s, c₂.slots.ids s = some id

end Contacts

/-- The coordinates reported since the last change of slot. -/
structure Group where
  x : Option Int
  y : Option Int
  deriving DecidableEq, Repr

namespace Group

def empty : Group := ⟨none, none⟩

def step (g : Group) : InputEvent → Group
  | .absMtSlot _ => empty
  | .absMtPositionX value => { g with x := some value }
  | .absMtPositionY value => { g with y := some value }
  | _ => g

end Group

/-- No negative IDs, no coordinates without a contact. -/
def Conforms (s : Slots) : InputEvent → Prop
  | .absMtSlot _ => True
  | .absMtTrackingID value => -1 ≤ value ∧ value < 2 ^ 31
  | .absMtPositionX value | .absMtPositionY value => s.current.isSome ∧ value ≠ coordUndefined
  | _ => False

/-- The processor attributes the event as the protocol does: an ID only to a slot with none, before
    its coordinates; no coordinate twice between slot changes; no slot left after a release and a
    report. -/
def Attributed (s : Slots) (g : Group) : InputEvent → Prop
  | .absMtSlot _ => g = .empty ∨ s.current.isSome
  | .absMtTrackingID value =>
    value = idUnassigned ∨ s.current = some value ∨ s.current = none ∧ g = .empty
  | .absMtPositionX value => g.x = none ∨ g.x = some value
  | .absMtPositionY value => g.y = none ∨ g.y = some value
  | _ => True

/-- A condition on the slots and coordinates before. -/
def AllEvents (C : Slots → Group → InputEvent → Prop) : Slots → Group → List InputEvent → Prop
  | _, _, [] => True
  | s, g, e :: events => C s g e ∧ AllEvents C (s.step e) (g.step e) events

/-! ## Points -/

/-- The points of the IDs with a coordinate; a missing coordinate is zero. -/
structure Represents (points : List Point) (x y : Int → Option Int) : Prop where
  nodup : (points.map Point.id).Nodup
  range : ∀ q ∈ points, 0 ≤ q.id ∧ q.id < 2 ^ 31
  mem : ∀ q, q ∈ points ↔
    ((x q.id).isSome ∨ (y q.id).isSome) ∧ q.x = (x q.id).getD 0 ∧ q.y = (y q.id).getD 0

theorem represents_nil : Represents [] (fun _ => none) fun _ => none :=
  ⟨nodup_nil, fun q hq => (not_mem_nil hq).elim, fun q => by simp⟩

variable {points : List Point} {x y : Int → Option Int} {id value : Int} {f : Point → Point}

theorem Represents.perm {points' : List Point}
    (h : Represents points x y) (hperm : points'.Perm points) : Represents points' x y :=
  ⟨(hperm.map _).nodup_iff.mpr h.nodup, fun q hq => h.range q (hperm.mem_iff.mp hq),
    fun q => hperm.mem_iff.trans (h.mem q)⟩

namespace TouchState

theorem mem_removeLoop {id : Int} {points : List Point} (h : (points.map Point.id).Nodup)
    (q : Point) : q ∈ removeLoop id points ↔ q ∈ points ∧ q.id ≠ id := by
  induction points using removeLoop.induct id with
  | case1 => simp [removeLoop]
  | case2 p hp =>
    rw [removeLoop, if_pos hp, mem_singleton]
    exact ⟨fun hq => (not_mem_nil hq).elim, fun hq => (hq.2 (hq.1 ▸ hp)).elim⟩
  | case3 p hp =>
    rw [removeLoop, if_neg hp, mem_singleton]
    exact ⟨fun hq => ⟨hq, hq ▸ hp⟩, And.left⟩
  | case4 p q' rest hp ih =>
    subst hp
    rw [removeLoop, if_pos rfl]
    simp only [map_cons, nodup_cons, mem_cons, mem_map, not_or, not_exists, not_and] at h
    grind
  | case5 p q' rest hp ih =>
    have hrest := ih (nodup_cons.mp h).2
    rw [removeLoop, if_neg hp, mem_cons, hrest]
    grind

theorem removeLoop_sublist (id : Int) (points : List Point) :
    (removeLoop id points).Sublist points := by
  induction points using removeLoop.induct id with
  | case1 => exact List.Sublist.slnil
  | case2 p hp =>
    rw [removeLoop, if_pos hp]
    exact nil_sublist _
  | case3 p hp =>
    rw [removeLoop, if_neg hp]
  | case4 p q rest hp ih =>
    rw [removeLoop, if_pos hp]
    exact (ih.cons_cons q).cons p
  | case5 p q rest hp ih =>
    rw [removeLoop, if_neg hp]
    exact ih.cons_cons p

end TouchState

theorem Represents.remove (h : Represents points x y) (id : Int) :
    Represents (removeLoop id points) (update x id none) (update y id none) := by
  have hmem := @TouchState.mem_removeLoop id points h.nodup
  refine ⟨((TouchState.removeLoop_sublist id points).map _).nodup h.nodup,
    fun q hq => h.range q ((hmem q).mp hq).1, fun q => ?_⟩
  rw [hmem, h.mem]
  by_cases hq : q.id = id
  · simp [hq]
  · simp [hq]

/-- The coordinates with those reported since the last change of slot. -/
def withGroup (m : Int → Option Int) : Option Int → Option Int → Int → Option Int
  | some id, some value => update m id (some value)
  | _, _ => m

namespace TouchState

theorem mem_modifyPointForID_go (hid : id ≠ -1) (h : (points.map Point.id).Nodup) (q : Point) :
    q ∈ modifyPointForID.go id f points ↔
      (∃ p ∈ points, p.id = id ∧ q = f p) ∨ q ∈ points ∧ q.id ≠ id := by
  induction points with
  | nil => simp [modifyPointForID.go]
  | cons p points ih =>
    rw [map_cons, nodup_cons] at h
    rw [modifyPointForID.go]
    split
    · next hp =>
      have hp : p.id = id := hp.resolve_left hid
      have hrest : ∀ r ∈ points, r.id ≠ id := fun r hr hr' =>
        h.1 (mem_map.mpr ⟨r, hr, hr'.trans hp.symm⟩)
      rw [mem_cons]
      grind
    · next hp =>
      rw [mem_cons, ih h.2]
      grind

theorem map_id_modifyPointForID_go (id : Int) (hf : ∀ p, (f p).id = p.id) (points : List Point) :
    (modifyPointForID.go id f points).map Point.id = points.map Point.id := by
  induction points with
  | nil => rfl
  | cons p points ih =>
    rw [modifyPointForID.go]
    split
    · rw [map_cons, map_cons, hf]
    · rw [map_cons, map_cons, ih]

end TouchState

/-- The point of an ID, added with zero coordinates if it is not there. -/
def TouchState.ensurePoint (ts : TouchState) (id : Int) : TouchState :=
  match ts.getPointForID id with
  | none => ts.addPoint ⟨id, 0, 0⟩
  | some _ => ts

theorem Represents.ensurePoint {ts : TouchState} (h : Represents ts.points x y) (hid : 0 ≤ id) :
    ((ts.ensurePoint id).points.map Point.id).Nodup ∧
      ∀ q, q ∈ (ts.ensurePoint id).points ↔
        q = ⟨id, (x id).getD 0, (y id).getD 0⟩ ∨ q ∈ ts.points ∧ q.id ≠ id := by
  unfold TouchState.ensurePoint
  split
  · next hnone =>
    have hne : ∀ q ∈ ts.points, q.id ≠ id := by
      intro q hq heq
      have := find?_eq_none.mp hnone q hq
      exact this (by simp [heq])
    have hxy : ¬ ((x id).isSome ∨ (y id).isSome) := fun hsome =>
      hne ⟨id, (x id).getD 0, (y id).getD 0⟩ ((h.mem _).mpr ⟨hsome, rfl, rfl⟩) rfl
    simp only [not_or, Option.not_isSome_iff_eq_none] at hxy
    constructor
    · rw [addPoint, map_append, nodup_append]
      refine ⟨h.nodup, by simp, fun a ha b hb => ?_⟩
      obtain ⟨q, hq, rfl⟩ := mem_map.mp ha
      rw [mem_singleton.mp hb]
      exact hne q hq
    · intro q
      rw [addPoint, mem_append, mem_singleton, hxy.1, hxy.2]
      constructor
      · rintro (hq | rfl)
        · exact .inr ⟨hq, hne q hq⟩
        · exact .inl rfl
      · rintro (rfl | hq)
        · exact .inr rfl
        · exact .inl hq.1
  · next p hsome =>
    refine ⟨h.nodup, fun q => ?_⟩
    have hp := mem_of_find?_eq_some hsome
    have hpid : p.id = id := by
      have := find?_some hsome
      simp only [decide_eq_true_eq] at this
      exact this.resolve_left (by omega)
    obtain ⟨hxy, hpx, hpy⟩ := (h.mem p).mp hp
    rw [hpid] at hxy hpx hpy
    constructor
    · intro hq
      by_cases hqid : q.id = id
      · obtain ⟨-, hqx, hqy⟩ := (h.mem q).mp hq
        rw [hqid] at hqx hqy
        left
        cases q
        simp_all
      · exact .inr ⟨hq, hqid⟩
    · rintro (rfl | hq)
      · exact (h.mem _).mpr ⟨hxy, rfl, rfl⟩
      · exact hq.1

theorem writtenCoordinate {value : Option Int} (h : value ≠ some coordUndefined)
    (m : Int → Option Int) (id : Int) :
    (if value.getD coordUndefined ≠ coordUndefined then value.getD coordUndefined
      else (m id).getD 0) = (withGroup m (some id) value id).getD 0 := by
  cases value with
  | none => simp [withGroup]
  | some v =>
    have hv : v ≠ coordUndefined := fun heq => h (heq ▸ rfl)
    simp [withGroup, hv]

theorem withGroup_of_ne (m : Int → Option Int) (value : Option Int) {other : Int}
    (h : other ≠ id) : withGroup m (some id) value other = m other := by
  cases value with
  | none => rfl
  | some v => exact update_of_ne h _ _

theorem isSome_withGroup (m : Int → Option Int) {value : Option Int} (id : Int)
    (h : value.isSome) : (withGroup m (some id) value id).isSome := by
  obtain ⟨v, rfl⟩ := Option.isSome_iff_exists.mp h
  simp [withGroup]

/-- The point of the current ID moves, or is added. -/
theorem Represents.updatePoint {p : MultiTouchProcessor}
    (h : Represents p.state.points x y) (hrng : 0 ≤ p.currentID ∧ p.currentID < 2 ^ 31) {g : Group}
    (hx : g.x ≠ some coordUndefined) (hy : g.y ≠ some coordUndefined) (hg : g ≠ .empty) :
    Represents (p.updatePoint (g.x.getD coordUndefined) (g.y.getD coordUndefined)).state.points
      (withGroup x (some p.currentID) g.x) (withGroup y (some p.currentID) g.y) := by
  obtain ⟨hnd, hmem⟩ := h.ensurePoint hrng.1
  have hne : p.currentID ≠ -1 := by omega
  have hpoints : ∀ q, q ∈ (p.updatePoint (g.x.getD coordUndefined)
      (g.y.getD coordUndefined)).state.points ↔
      q = ⟨p.currentID, (withGroup x (some p.currentID) g.x p.currentID).getD 0,
        (withGroup y (some p.currentID) g.y p.currentID).getD 0⟩ ∨
      q ∈ p.state.points ∧ q.id ≠ p.currentID := by
    intro q
    refine (TouchState.mem_modifyPointForID_go hne hnd q).trans ?_
    rw [← writtenCoordinate hx, ← writtenCoordinate hy]
    constructor
    · rintro (⟨r, hr, hrid, rfl⟩ | ⟨hq, hqid⟩)
      · obtain rfl | hr := (hmem r).mp hr
        · exact .inl rfl
        · exact (hr.2 hrid).elim
      · obtain rfl | hq := (hmem q).mp hq
        · exact (hqid rfl).elim
        · exact .inr hq
    · rintro (rfl | hq)
      · exact .inl ⟨_, (hmem _).mpr (.inl rfl), rfl, rfl⟩
      · exact .inr ⟨(hmem q).mpr (.inr hq), hq.2⟩
  have hgiven : g.x.isSome ∨ g.y.isSome := by
    cases g with
    | mk gx gy =>
      cases gx <;> cases gy <;> first | exact (hg rfl).elim | simp
  refine ⟨?_, fun q hq => ?_, fun q => ?_⟩
  · have hids := TouchState.map_id_modifyPointForID_go p.currentID (f := fun q =>
      { q with
        x := if g.x.getD coordUndefined ≠ coordUndefined then g.x.getD coordUndefined else q.x
        y := if g.y.getD coordUndefined ≠ coordUndefined then g.y.getD coordUndefined else q.y })
      (fun _ => rfl) (p.state.ensurePoint p.currentID).points
    exact hids ▸ hnd
  · obtain rfl | hq := (hpoints q).mp hq
    · exact hrng
    · exact h.range q hq.1
  · rw [hpoints]
    by_cases hq : q.id = p.currentID
    · have hsome : (withGroup x (some p.currentID) g.x p.currentID).isSome ∨
          (withGroup y (some p.currentID) g.y p.currentID).isSome :=
        hgiven.imp (isSome_withGroup x _) (isSome_withGroup y _)
      rw [hq]
      constructor
      · rintro (rfl | hq')
        · exact ⟨hsome, rfl, rfl⟩
        · exact (hq'.2 rfl).elim
      · rintro ⟨-, hqx, hqy⟩
        exact .inl (by cases q; simp_all)
    · rw [withGroup_of_ne x g.x hq, withGroup_of_ne y g.y hq, ← h.mem q]
      constructor
      · rintro (rfl | hq')
        · exact (hq rfl).elim
        · exact hq'.1
      · exact fun hq' => .inr ⟨hq', hq⟩

/-! ## The processor follows the stream -/

/-- Between two events of a report, the processor is where the stream is. -/
structure Follows (p : MultiTouchProcessor) (v : Locals) (c : Contacts) (g : Group) : Prop where
  slot : p.currentSlot = c.slots.slot
  ids : p.slotToIDMap = c.slots.ids
  current : p.currentID = c.slots.current.getD idUnassigned
  range : ∀ s id, c.slots.ids s = some id → 0 ≤ id ∧ id < 2 ^ 31
  x : v.x = g.x.getD coordUndefined
  y : v.y = g.y.getD coordUndefined
  x_ne : g.x ≠ some coordUndefined
  y_ne : g.y ≠ some coordUndefined
  notReleased : v.allPointsReleased = false
  points : ∃ x y, Represents p.state.points x y ∧
    c.x = withGroup x c.slots.current g.x ∧ c.y = withGroup y c.slots.current g.y

namespace Follows

variable {p : MultiTouchProcessor} {v : Locals} {c : Contacts} {g : Group}

section

variable (h : Follows p v c g)
include h

theorem currentID_eq_some (hid : c.slots.current = some id) :
    p.currentID = id ∧ 0 ≤ id ∧ id < 2 ^ 31 := by
  have hcur := h.current
  rw [hid] at hcur
  exact ⟨hcur, h.range _ _ hid⟩

theorem currentID_eq_none (hid : c.slots.current = none) :
    p.currentID = idUnassigned := by
  rw [h.current, hid]
  rfl

theorem assigned_iff : p.currentID ≠ idUnassigned ↔ c.slots.current.isSome := by
  cases hid : c.slots.current with
  | none => simp [h.currentID_eq_none hid]
  | some id =>
    obtain ⟨hcur, hrng⟩ := h.currentID_eq_some hid
    simp only [Option.isSome_some, iff_true, idUnassigned]
    omega

theorem given_iff : (v.x ≠ coordUndefined ∨ v.y ≠ coordUndefined) ↔ g ≠ .empty := by
  rw [h.x, h.y]
  have hx := h.x_ne
  have hy := h.y_ne
  obtain ⟨_ | gx, _ | gy⟩ := g <;> simp_all [Group.empty]

theorem settle :
    Represents (if p.currentID ≠ idUnassigned ∧ (v.x ≠ coordUndefined ∨ v.y ≠ coordUndefined) then
      p.updatePoint v.x v.y else p).state.points c.x c.y := by
  obtain ⟨x, y, hrep, hx, hy⟩ := h.points
  rw [hx, hy]
  cases hid : c.slots.current with
  | none =>
    rw [if_neg fun hcond => hcond.1 (h.currentID_eq_none hid)]
    exact hrep
  | some id =>
    by_cases hemp : g = .empty
    · rw [if_neg fun hcond => h.given_iff.mp hcond.2 hemp]
      subst hemp
      exact hrep
    · obtain ⟨hcur, hrng⟩ := h.currentID_eq_some hid
      have hassigned : p.currentID ≠ idUnassigned := h.assigned_iff.mpr (hid ▸ rfl)
      rw [if_pos ⟨hassigned, h.given_iff.mpr hemp⟩, h.x, h.y, ← hcur]
      exact hrep.updatePoint (hcur ▸ hrng) h.x_ne h.y_ne hemp

theorem absMtSlot (hg : g = .empty ∨ c.slots.current.isSome) (value : Int) :
    Follows (p.processEvent v (.absMtSlot value)).1 (p.processEvent v (.absMtSlot value)).2
      (c.step (.absMtSlot value)) .empty := by
  have hsettle := h.settle
  have hstep : c.step (.absMtSlot value) = { c with slots := { c.slots with slot := value } } := by
    unfold Contacts.step
    cases c.slots.current <;> rfl
  rw [hstep]
  by_cases hcond : p.currentID ≠ idUnassigned ∧ (v.x ≠ coordUndefined ∨ v.y ≠ coordUndefined)
  · rw [if_pos hcond] at hsettle
    simp only [processEvent, if_pos hcond]
    refine ⟨rfl, h.ids, ?_, h.range, rfl, rfl, nofun, nofun, h.notReleased, c.x, c.y, hsettle, ?_, ?_⟩
    · show (p.slotToIDMap value).getD idUnassigned = _
      rw [h.ids]
      rfl
    all_goals cases Slots.current _ <;> rfl
  · have hemp : g = .empty := by
      by_contra hne
      exact hcond ⟨h.assigned_iff.mpr (hg.resolve_left hne), h.given_iff.mpr hne⟩
    subst hemp
    rw [if_neg hcond] at hsettle
    simp only [processEvent, if_neg hcond]
    refine ⟨rfl, h.ids, ?_, h.range, h.x, h.y, nofun, nofun, h.notReleased, c.x, c.y, hsettle, ?_, ?_⟩
    · show (p.slotToIDMap value).getD idUnassigned = _
      rw [h.ids]
      rfl
    all_goals cases Slots.current _ <;> rfl

/-- The contact of the slot is released. -/
theorem release : Follows (p.processEvent v (.absMtTrackingID idUnassigned)).1
      (p.processEvent v (.absMtTrackingID idUnassigned)).2
      (c.step (.absMtTrackingID idUnassigned)) g := by
  obtain ⟨x, y, hrep, hx, hy⟩ := h.points
  have hcur' : (c.slots.step (.absMtTrackingID idUnassigned)).current = none := by
    simp [Slots.step, Slots.current]
  have hrng : ∀ s id, (c.slots.step (.absMtTrackingID idUnassigned)).ids s = some id →
      0 ≤ id ∧ id < 2 ^ 31 := by
    intro s id hs
    simp only [Slots.step, if_true] at hs
    by_cases hslot : s = c.slots.slot
    · simp [hslot] at hs
    · rw [update_of_ne hslot] at hs
      exact h.range s id hs
  cases hid : c.slots.current with
  | none =>
    have hstep : c.step (.absMtTrackingID idUnassigned) =
        { c with slots := c.slots.step (.absMtTrackingID idUnassigned) } := by
      simp only [Contacts.step, hid]
    have hcond : ¬ p.currentID ≠ idUnassigned := fun hne => hne (h.currentID_eq_none hid)
    rw [hstep]
    simp only [processEvent, true_and, if_neg hcond, if_true]
    refine ⟨h.slot, ?_, ?_, hrng, h.x, h.y, h.x_ne, h.y_ne, h.notReleased, x, y, hrep, ?_, ?_⟩
    · rw [h.ids, h.slot]
      rfl
    · rw [hcur']
      rfl
    · rw [hx, hid, hcur']
    · rw [hy, hid, hcur']
  | some id =>
    obtain ⟨hcur, hid0⟩ := h.currentID_eq_some hid
    have hne : id ≠ idUnassigned := by
      simp only [idUnassigned]
      omega
    have hstep : c.step (.absMtTrackingID idUnassigned) =
        { slots := c.slots.step (.absMtTrackingID idUnassigned)
          x := update c.x id none
          y := update c.y id none } := by
      simp only [Contacts.step, hid, if_neg hne]
    have hcond : p.currentID ≠ idUnassigned := hcur ▸ hne
    rw [hstep]
    simp only [processEvent, true_and, if_pos hcond, if_true]
    have hforget : ∀ (m : Int → Option Int) (value : Option Int),
        update (withGroup m (some id) value) id none = update m id none := by
      intro m value
      cases value with
      | none => rfl
      | some value => exact update_idem _ _ _
    refine ⟨h.slot, ?_, ?_, hrng, h.x, h.y, h.x_ne, h.y_ne, h.notReleased,
      update x id none, update y id none, ?_, ?_, ?_⟩
    · show update p.slotToIDMap p.currentSlot _ = _
      rw [h.ids, h.slot]
      rfl
    · rw [hcur']
      rfl
    · show Represents (removeLoop p.currentID p.state.points) _ _
      rw [hcur]
      exact hrep.remove id
    · rw [hx, hid, hforget, hcur']
      rfl
    · rw [hy, hid, hforget, hcur']
      rfl

theorem assign (hval : 0 ≤ value ∧ value < 2 ^ 31)
    (hfree : c.slots.current = some value ∨ c.slots.current = none ∧ g = .empty) :
    Follows (p.processEvent v (.absMtTrackingID value)).1
      (p.processEvent v (.absMtTrackingID value)).2 (c.step (.absMtTrackingID value)) g := by
  have hne : value ≠ idUnassigned := by
    simp only [idUnassigned]
    omega
  have hstep : c.step (.absMtTrackingID value) =
      { c with slots := c.slots.step (.absMtTrackingID value) } := by
    obtain hid | ⟨hid, -⟩ := hfree
    · simp only [Contacts.step, hid, if_true]
    · simp only [Contacts.step, hid]
  have hcur' : (c.slots.step (.absMtTrackingID value)).current = some value := by
    simp [Slots.step, Slots.current, hne]
  have hcond : ¬ (value = idUnassigned ∧ p.currentID ≠ idUnassigned) := fun hcond => hne hcond.1
  obtain ⟨x, y, hrep, hx, hy⟩ := h.points
  rw [hstep]
  simp only [processEvent, if_neg hcond]
  refine ⟨h.slot, ?_, ?_, ?_, h.x, h.y, h.x_ne, h.y_ne, h.notReleased, x, y, hrep, ?_, ?_⟩
  · rw [h.ids, h.slot]
    rfl
  · rw [hcur']
    rfl
  · intro s id hs
    simp only [Slots.step, if_neg hne] at hs
    by_cases hslot : s = c.slots.slot
    · rw [hslot, update_self, Option.some.injEq] at hs
      exact hs ▸ hval
    · rw [update_of_ne hslot] at hs
      exact h.range s id hs
  · obtain hid | ⟨hid, rfl⟩ := hfree
    · rw [hx, hid, hcur']
    · rw [hx, hid, hcur']
      rfl
  · obtain hid | ⟨hid, rfl⟩ := hfree
    · rw [hy, hid, hcur']
    · rw [hy, hid, hcur']
      rfl

theorem absMtPositionX (hid : c.slots.current.isSome)
    (hval : value ≠ coordUndefined) (hg : g.x = none ∨ g.x = some value) :
    Follows (p.processEvent v (.absMtPositionX value)).1
      (p.processEvent v (.absMtPositionX value)).2 (c.step (.absMtPositionX value))
      { g with x := some value } := by
  obtain ⟨id, hid⟩ := Option.isSome_iff_exists.mp hid
  obtain ⟨x, y, hrep, hx, hy⟩ := h.points
  have hstep : c.step (.absMtPositionX value) =
      { c with x := update c.x id (some value) } := by
    simp only [Contacts.step, hid]
  have hv : (if v.x = coordUndefined then { v with x := value } else v) = { v with x := value } := by
    have hvx := h.x
    obtain hnone | hsome := hg
    · rw [hnone, Option.getD_none] at hvx
      rw [if_pos hvx]
    · rw [hsome] at hvx
      rw [if_neg (hvx ▸ hval)]
      cases v
      exact congrArg (Locals.mk · _ _) hvx
  rw [hstep]
  simp only [processEvent, hv]
  refine ⟨h.slot, h.ids, h.current, h.range, rfl, h.y, fun heq => hval (Option.some.inj heq),
    h.y_ne, h.notReleased, x, y, hrep, ?_, hy⟩
  show update c.x id (some value) = withGroup x c.slots.current (some value)
  rw [hx, hid]
  obtain hnone | hsome := hg
  · rw [hnone]
    rfl
  · rw [hsome]
    exact update_idem _ _ _

theorem absMtPositionY (hid : c.slots.current.isSome)
    (hval : value ≠ coordUndefined) (hg : g.y = none ∨ g.y = some value) :
    Follows (p.processEvent v (.absMtPositionY value)).1
      (p.processEvent v (.absMtPositionY value)).2 (c.step (.absMtPositionY value))
      { g with y := some value } := by
  obtain ⟨id, hid⟩ := Option.isSome_iff_exists.mp hid
  obtain ⟨x, y, hrep, hx, hy⟩ := h.points
  have hstep : c.step (.absMtPositionY value) =
      { c with y := update c.y id (some value) } := by
    simp only [Contacts.step, hid]
  have hv : (if v.y = coordUndefined then { v with y := value } else v) = { v with y := value } := by
    have hvy := h.y
    obtain hnone | hsome := hg
    · rw [hnone, Option.getD_none] at hvy
      rw [if_pos hvy]
    · rw [hsome] at hvy
      rw [if_neg (hvy ▸ hval)]
      cases v
      exact congrArg (Locals.mk _ · _) hvy
  rw [hstep]
  simp only [processEvent, hv]
  refine ⟨h.slot, h.ids, h.current, h.range, h.x, rfl, h.x_ne,
    fun heq => hval (Option.some.inj heq), h.notReleased, x, y, hrep, hx, ?_⟩
  show update c.y id (some value) = withGroup y c.slots.current (some value)
  rw [hy, hid]
  obtain hnone | hsome := hg
  · rw [hnone]
    rfl
  · rw [hsome]
    exact update_idem _ _ _

theorem step {e : InputEvent} (hconf : Conforms c.slots e) (hattr : Attributed c.slots g e) :
    Follows (p.processEvent v e).1 (p.processEvent v e).2 (c.step e) (g.step e) := by
  cases e with
  | absMtSlot value => exact h.absMtSlot hattr value
  | absMtTrackingID value =>
    by_cases hval : value = idUnassigned
    · subst hval
      exact h.release
    · refine h.assign ⟨?_, hconf.2⟩ (hattr.resolve_left hval)
      have := hconf.1
      simp only [idUnassigned] at hval
      omega
  | absMtPositionX value => exact h.absMtPositionX hconf.1 hconf.2 hattr
  | absMtPositionY value => exact h.absMtPositionY hconf.1 hconf.2 hattr
  | absX | absY | btnTouch | synMtReport | synReport | other => exact hconf.elim

end

end Follows

end OpenJfx.Monocle
