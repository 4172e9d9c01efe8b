/-
  OpenJfx.Event.CompositeEventHandler.Links

  The record list as a doubly linked list: `Links c L` says that the records `L`
  are the list of `c` and store pairwise different processors.  `remove` takes one
  record of the list out, `append` puts a new one at its end; neither touches the
  links of the records outside the list.
-/

import Mathlib.Data.List.Perm.Subperm
import OpenJfx.Event.CompositeEventHandler.Basic

namespace OpenJfx.Event.CompositeEventHandler

open List Option

variable {H : Type} {c : CompositeEventHandler H} {L A B : List Nat}

/-! ## Writing one link -/

theorem nextRecord_setNextRecord {p : Nat} (hp : p < c.records.length) (v : Option Nat) (r : Nat) :
    (c.setNextRecord p v).nextRecord r = if some r = some p then v else c.nextRecord r := by
  unfold nextRecord setNextRecord
  rw [getElem?_modify]
  by_cases hr : r = p
  · subst hr
    simp [getElem?_eq_getElem hp]
  · simp [hr, Ne.symm hr]

@[simp] theorem prevRecord_setNextRecord (p : Nat) (v : Option Nat) (r : Nat) :
    (c.setNextRecord p v).prevRecord r = c.prevRecord r := by
  unfold prevRecord setNextRecord
  rw [getElem?_modify]
  cases c.records[r]? with
  | none => rfl
  | some x => simp only [Option.map_eq_map, map_some, bind_some]; split <;> rfl

@[simp] theorem stored_setNextRecord (p : Nat) (v : Option Nat) (r : Nat) :
    (c.setNextRecord p v).stored r = c.stored r := by
  unfold stored setNextRecord
  rw [getElem?_modify]
  cases c.records[r]? with
  | none => rfl
  | some x => simp only [Option.map_eq_map, map_some]; split <;> rfl

@[simp] theorem length_setNextRecord (p : Nat) (v : Option Nat) :
    (c.setNextRecord p v).records.length = c.records.length := by
  simp [setNextRecord]

theorem prevRecord_setPrevRecord {p : Nat} (hp : p < c.records.length) (v : Option Nat) (r : Nat) :
    (c.setPrevRecord p v).prevRecord r = if some r = some p then v else c.prevRecord r := by
  unfold prevRecord setPrevRecord
  rw [getElem?_modify]
  by_cases hr : r = p
  · subst hr
    simp [getElem?_eq_getElem hp]
  · simp [hr, Ne.symm hr]

@[simp] theorem nextRecord_setPrevRecord (p : Nat) (v : Option Nat) (r : Nat) :
    (c.setPrevRecord p v).nextRecord r = c.nextRecord r := by
  unfold nextRecord setPrevRecord
  rw [getElem?_modify]
  cases c.records[r]? with
  | none => rfl
  | some x => simp only [Option.map_eq_map, map_some, bind_some]; split <;> rfl

@[simp] theorem stored_setPrevRecord (p : Nat) (v : Option Nat) (r : Nat) :
    (c.setPrevRecord p v).stored r = c.stored r := by
  unfold stored setPrevRecord
  rw [getElem?_modify]
  cases c.records[r]? with
  | none => rfl
  | some x => simp only [Option.map_eq_map, map_some]; split <;> rfl

@[simp] theorem length_setPrevRecord (p : Nat) (v : Option Nat) :
    (c.setPrevRecord p v).records.length = c.records.length := by
  simp [setPrevRecord]

theorem nextRecord_setAfter {prev : Option Nat} (hp : ∀ p ∈ prev, p < c.records.length)
    (v : Option Nat) (r : Nat) :
    (c.setAfter prev v).nextRecord r = if some r = prev then v else c.nextRecord r := by
  cases prev with
  | none => rfl
  | some p => exact nextRecord_setNextRecord (hp p rfl) v r

@[simp] theorem prevRecord_setAfter (prev v : Option Nat) (r : Nat) :
    (c.setAfter prev v).prevRecord r = c.prevRecord r := by
  cases prev with
  | none => rfl
  | some p => exact prevRecord_setNextRecord p v r

@[simp] theorem stored_setAfter (prev v : Option Nat) (r : Nat) :
    (c.setAfter prev v).stored r = c.stored r := by
  cases prev with
  | none => rfl
  | some p => exact stored_setNextRecord p v r

@[simp] theorem length_setAfter (prev v : Option Nat) :
    (c.setAfter prev v).records.length = c.records.length := by
  cases prev with
  | none => rfl
  | some p => exact length_setNextRecord p v

@[simp] theorem firstRecord_setAfter (prev v : Option Nat) :
    (c.setAfter prev v).firstRecord = if prev = none then v else c.firstRecord := by
  cases prev <;> rfl

@[simp] theorem lastRecord_setAfter (prev v : Option Nat) :
    (c.setAfter prev v).lastRecord = c.lastRecord := by
  cases prev <;> rfl

theorem prevRecord_setBefore {next : Option Nat} (hn : ∀ n ∈ next, n < c.records.length)
    (v : Option Nat) (r : Nat) :
    (c.setBefore next v).prevRecord r = if some r = next then v else c.prevRecord r := by
  cases next with
  | none => rfl
  | some n => exact prevRecord_setPrevRecord (hn n rfl) v r

@[simp] theorem nextRecord_setBefore (next v : Option Nat) (r : Nat) :
    (c.setBefore next v).nextRecord r = c.nextRecord r := by
  cases next with
  | none => rfl
  | some n => exact nextRecord_setPrevRecord n v r

@[simp] theorem stored_setBefore (next v : Option Nat) (r : Nat) :
    (c.setBefore next v).stored r = c.stored r := by
  cases next with
  | none => rfl
  | some n => exact stored_setPrevRecord n v r

@[simp] theorem length_setBefore (next v : Option Nat) :
    (c.setBefore next v).records.length = c.records.length := by
  cases next with
  | none => rfl
  | some n => exact length_setPrevRecord n v

@[simp] theorem firstRecord_setBefore (next v : Option Nat) :
    (c.setBefore next v).firstRecord = c.firstRecord := by
  cases next <;> rfl

@[simp] theorem lastRecord_setBefore (next v : Option Nat) :
    (c.setBefore next v).lastRecord = if next = none then v else c.lastRecord := by
  cases next <;> rfl

/-! ## The list -/

/-- `L` is the linked list. -/
structure Links (c : CompositeEventHandler H) (L : List Nat) : Prop where
  linked : DoublyLinked c.nextRecord c.prevRecord c.firstRecord c.lastRecord L
  created : ∀ r ∈ L, r < c.records.length
  distinct : (L.map c.stored).Nodup

theorem Links.new : Links (CompositeEventHandler.new : CompositeEventHandler H) [] where
  linked := DoublyLinked.nil
  created := by simp
  distinct := by simp

/-- No two records of the list store the same processor with the same kind. -/
theorem Links.stored_ne {r x : Nat} (h : Links c (A ++ r :: B)) (hx : x ∈ A ++ B) :
    c.stored x ≠ c.stored r := by
  have hd : (A.map c.stored ++ c.stored r :: B.map c.stored).Nodup := by
    simpa using h.distinct
  obtain ⟨-, hcons, hdisj⟩ := nodup_append.mp hd
  rcases mem_append.mp hx with hA | hB
  · exact hdisj _ (mem_map_of_mem hA) _ mem_cons_self
  · intro heq
    exact (nodup_cons.mp hcons).1 (heq ▸ mem_map_of_mem hB)

/-! ## remove -/

@[simp] theorem stored_remove (record r : Nat) : (c.remove record).stored r = c.stored r := by
  simp [remove]

@[simp] theorem length_remove (record : Nat) :
    (c.remove record).records.length = c.records.length := by
  simp [remove]

theorem nextRecord_remove {record : Nat}
    (hp : ∀ p ∈ c.prevRecord record, p < c.records.length) (r : Nat) :
    (c.remove record).nextRecord r =
      if some r = c.prevRecord record then c.nextRecord record else c.nextRecord r := by
  rw [remove, nextRecord_setBefore, nextRecord_setAfter hp]

theorem prevRecord_remove {record : Nat}
    (hn : ∀ n ∈ c.nextRecord record, n < c.records.length) (r : Nat) :
    (c.remove record).prevRecord r =
      if some r = c.nextRecord record then c.prevRecord record else c.prevRecord r := by
  have hn' : ∀ n ∈ c.nextRecord record,
      n < (c.setAfter (c.prevRecord record) (c.nextRecord record)).records.length := by
    simpa using hn
  rw [remove, prevRecord_setBefore hn', prevRecord_setAfter]

theorem firstRecord_remove (record : Nat) : (c.remove record).firstRecord =
      if c.prevRecord record = none then c.nextRecord record else c.firstRecord := by
  simp [remove]

theorem lastRecord_remove (record : Nat) : (c.remove record).lastRecord =
      if c.nextRecord record = none then c.prevRecord record else c.lastRecord := by
  simp [remove]

variable {record : Nat}

theorem Links.prev_created (h : Links c L) (hr : record ∈ L) :
    ∀ p ∈ c.prevRecord record, p < c.records.length :=
  fun p hp => h.created p (h.linked.prev_mem hr hp)

theorem Links.next_created (h : Links c L) (hr : record ∈ L) :
    ∀ n ∈ c.nextRecord record, n < c.records.length :=
  fun n hn => h.created n (h.linked.next_mem hr hn)

theorem Links.remove (h : Links c (A ++ record :: B)) : Links (c.remove record) (A ++ B) where
  linked := by
    have hr : record ∈ A ++ record :: B := by simp
    exact h.linked.unlink (fun x _ => nextRecord_remove (h.prev_created hr) x)
      (fun x _ => prevRecord_remove (h.next_created hr) x) (firstRecord_remove record)
      (lastRecord_remove record)
  created := by
    intro r hr
    rw [length_remove]
    exact h.created r (by simp only [mem_append, mem_cons] at hr ⊢; tauto)
  distinct := by
    have hsub : List.Sublist ((A ++ B).map c.stored) ((A ++ record :: B).map c.stored) :=
      (List.Sublist.append_left (sublist_cons_self record B) A).map c.stored
    have hmap : (A ++ B).map (c.remove record).stored = (A ++ B).map c.stored :=
      map_congr_left fun r _ => stored_remove record r
    rw [hmap]
    exact h.distinct.sublist hsub

theorem Links.nextRecord_remove_of_not_mem (h : Links c (A ++ record :: B)) {r : Nat}
    (hr : r ∉ A ++ B) : (c.remove record).nextRecord r = c.nextRecord r := by
  have hrec : record ∈ A ++ record :: B := by simp
  rw [nextRecord_remove (h.prev_created hrec) r]
  have hne : some r ≠ c.prevRecord record := by
    rw [h.linked.prev_eq A record B rfl]
    intro heq
    exact hr (mem_append_left B (mem_of_getLast? heq.symm))
  rw [if_neg hne]

/-! ## append -/

/-- A new record put at the end of the list. -/
def addRecord (c : CompositeEventHandler H) (eventProcessor : H) (isFilter : Bool) :
    CompositeEventHandler H :=
  let created := c.createRecord eventProcessor isFilter
  created.append created.lastRecord c.records.length

theorem createRecord_nextRecord (p : H) (f : Bool) (r : Nat) :
    (c.createRecord p f).nextRecord r = c.nextRecord r := by
  unfold createRecord nextRecord
  rcases Nat.lt_trichotomy r c.records.length with hr | rfl | hr
  · simp only [getElem?_append_left hr]
  · simp
  · rw [getElem?_eq_none (by simp; omega), getElem?_eq_none (by omega)]

theorem createRecord_prevRecord (p : H) (f : Bool) (r : Nat) :
    (c.createRecord p f).prevRecord r = c.prevRecord r := by
  unfold createRecord prevRecord
  rcases Nat.lt_trichotomy r c.records.length with hr | rfl | hr
  · simp only [getElem?_append_left hr]
  · simp
  · rw [getElem?_eq_none (by simp; omega), getElem?_eq_none (by omega)]

theorem createRecord_stored (p : H) (f : Bool) (r : Nat) : (c.createRecord p f).stored r =
      if r = c.records.length then some (p, f) else c.stored r := by
  unfold createRecord stored
  rcases Nat.lt_trichotomy r c.records.length with hr | rfl | hr
  · simp only [getElem?_append_left hr, if_neg (Nat.ne_of_lt hr)]
  · simp
  · rw [getElem?_eq_none (by simp; omega), getElem?_eq_none (by omega),
      if_neg (Nat.ne_of_gt hr)]

theorem stored_append (prev : Option Nat) (new r : Nat) :
    (c.append prev new).stored r = c.stored r := by
  simp [append]

theorem length_append (prev : Option Nat) (new : Nat) :
    (c.append prev new).records.length = c.records.length := by
  simp [append]

@[simp] theorem length_addRecord (p : H) (f : Bool) :
    (c.addRecord p f).records.length = c.records.length + 1 := by
  unfold addRecord
  rw [length_append, createRecord, List.length_append]
  rfl

theorem stored_addRecord (p : H) (f : Bool) (r : Nat) :
    (c.addRecord p f).stored r = if r = c.records.length then some (p, f) else c.stored r := by
  unfold addRecord
  rw [stored_append, createRecord_stored]

section

variable (h : Links c L) (p : H) (f : Bool)
include h

theorem Links.after_lastRecord : (c.createRecord p f).after c.lastRecord = none := by
  cases hl : c.lastRecord with
  | none =>
    have hL : L = [] := getLast?_eq_none_iff.mp (h.linked.last_eq.symm.trans hl)
    exact h.linked.first_eq.trans (by rw [hL]; rfl)
  | some x =>
    obtain ⟨A, hA⟩ := getLast?_eq_some_iff.mp (h.linked.last_eq.symm.trans hl)
    exact (createRecord_nextRecord p f x).trans (h.linked.next_eq A x [] hA)

theorem Links.lastRecord_created : ∀ x ∈ c.lastRecord, x < (c.createRecord p f).records.length := by
  intro x hx
  rw [h.linked.last_eq] at hx
  rw [createRecord, List.length_append]
  exact Nat.lt_succ_of_lt (h.created x (mem_of_getLast? hx))

theorem Links.addRecord_eq : c.addRecord p f =
      ((((c.createRecord p f).setAfter c.lastRecord (some c.records.length)).setBefore none
        (some c.records.length)).setPrevRecord c.records.length c.lastRecord).setNextRecord
          c.records.length none := by
  show (c.createRecord p f).append c.lastRecord c.records.length = _
  rw [append, h.after_lastRecord]

theorem Links.nextRecord_addRecord (r : Nat) : (c.addRecord p f).nextRecord r =
      if r = c.records.length then none
      else if some r = c.lastRecord then some c.records.length else c.nextRecord r := by
  rw [h.addRecord_eq, nextRecord_setNextRecord (by simp [createRecord]),
    nextRecord_setPrevRecord, nextRecord_setBefore,
    nextRecord_setAfter (h.lastRecord_created p f), createRecord_nextRecord]
  simp only [Option.some.injEq]

theorem Links.prevRecord_addRecord (r : Nat) : (c.addRecord p f).prevRecord r =
      if r = c.records.length then c.lastRecord else c.prevRecord r := by
  rw [h.addRecord_eq, prevRecord_setNextRecord, prevRecord_setPrevRecord (by simp [createRecord]),
    prevRecord_setBefore (by simp), prevRecord_setAfter, createRecord_prevRecord]
  simp only [Option.some.injEq, reduceCtorEq, if_false]

end

theorem Links.addRecord (h : Links c L) {p : H} {f : Bool}
    (hfresh : ∀ r ∈ L, c.stored r ≠ some (p, f)) :
    Links (c.addRecord p f) (L ++ [c.records.length]) where
  linked := by
    have hnew : c.records.length ∉ L := fun hmem => Nat.lt_irrefl _ (h.created _ hmem)
    have hne : ∀ x ∈ L, x ≠ c.records.length := fun x hx heq => hnew (heq ▸ hx)
    have hlast : (c.addRecord p f).lastRecord = some c.records.length := by
      rw [h.addRecord_eq]
      rfl
    rw [hlast]
    refine h.linked.push hnew ?_ ?_ ?_ ?_ ?_
    · intro x hx
      rw [h.nextRecord_addRecord, if_neg (hne x hx)]
    · rw [h.nextRecord_addRecord, if_pos rfl]
    · intro x hx
      rw [h.prevRecord_addRecord, if_neg (hne x hx)]
    · rw [h.prevRecord_addRecord, if_pos rfl]
    · rw [h.addRecord_eq]
      show ((c.createRecord p f).setAfter c.lastRecord (some c.records.length)).firstRecord = _
      rw [firstRecord_setAfter]
      rfl
  created := by
    intro r hr
    rw [length_addRecord]
    rcases mem_append.mp hr with hL | hnew
    · exact Nat.lt_succ_of_lt (h.created r hL)
    · rw [mem_singleton.mp hnew]
      exact Nat.lt_succ_self _
  distinct := by
    have hold : L.map (c.addRecord p f).stored = L.map c.stored := by
      apply map_congr_left
      intro r hr
      rw [stored_addRecord, if_neg (Nat.ne_of_lt (h.created r hr))]
    rw [map_append, hold, nodup_append]
    refine ⟨h.distinct, by simp, ?_⟩
    intro a ha b hb
    obtain ⟨r, hr, rfl⟩ := mem_map.mp ha
    have hb' : b = some (p, f) := by
      simpa [stored_addRecord] using hb
    rw [hb']
    exact hfresh r hr

theorem Links.nextRecord_addRecord_of_not_mem (h : Links c L) (p : H) (f : Bool) {r : Nat}
    (hL : r ∉ L) : (c.addRecord p f).nextRecord r = c.nextRecord r := by
  have hne : some r ≠ c.lastRecord := by
    rw [h.linked.last_eq]
    intro heq
    exact hL (mem_of_getLast? heq.symm)
  rw [h.nextRecord_addRecord, if_neg hne]
  by_cases hr : r = c.records.length
  · rw [if_pos hr, nextRecord, hr, getElem?_eq_none (Nat.le_refl _)]
    rfl
  · rw [if_neg hr]

/-! ## Walking the list -/

/-- The records from `record` on, `fuel` of them at most. -/
def walk (c : CompositeEventHandler H) : Nat → Option Nat → List Nat
  | 0, _ => []
  | _ + 1, none => []
  | fuel + 1, some record => record :: walk c fuel (c.nextRecord record)

/-- The records of the list, in order. -/
def linkedRecords (c : CompositeEventHandler H) : List Nat :=
  c.walk c.records.length c.firstRecord

theorem Links.walk_eq (h : Links c L) {fuel : Nat} (hL : L = A ++ B) (hfuel : B.length ≤ fuel) :
    c.walk fuel B.head? = B := by
  induction B generalizing A fuel with
  | nil => cases fuel <;> rfl
  | cons b B ih =>
    cases fuel with
    | zero => simp at hfuel
    | succ fuel =>
      have hb : c.nextRecord b = B.head? := h.linked.next_eq A b B hL
      show b :: c.walk fuel (c.nextRecord b) = b :: B
      rw [hb, ih (A := A ++ [b]) (by simp [hL]) (by simpa using hfuel)]

theorem Links.linkedRecords_eq (h : Links c L) : c.linkedRecords = L := by
  have hlen : L.length ≤ c.records.length := by
    have hsub : L ⊆ List.range c.records.length := fun r hr =>
      mem_range.mpr (h.created r hr)
    simpa using (subperm_of_subset h.linked.nodup hsub).length_le
  rw [linkedRecords, h.linked.first_eq]
  exact h.walk_eq (A := []) rfl hlen

end OpenJfx.Event.CompositeEventHandler
