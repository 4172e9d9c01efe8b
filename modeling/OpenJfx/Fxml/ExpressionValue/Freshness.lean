/-
  OpenJfx.Fxml.ExpressionValue.Freshness

  When an expression value is told of every edit that changes it: a chain stays attached along its
  path (`Attached`) if the collection tells every monitor whose entry it changes.  Overlooked are
  a move of elements to the index of a list, and the put of an equal collection.
-/

import OpenJfx.Fxml.ExpressionValue.Basic
import OpenJfx.Fxml.Expression.Precedence
import OpenJfx.Lib.Machine

namespace OpenJfx.Fxml

open List

variable {r : Nat} {key : Key} {D L : Type}

/-! ## Objects along a key path -/

section Definitions

variable (lib : Library D) (objects : Objects D L)

/-- The object that the next monitor is attached to. -/
def successor (h : Heap L) (v : Val L) (key : Key) : Option (Val L) :=
  match get lib objects h v key with
  | .ok .null => none
  | .ok w => some w
  | .error _ => none

/-- The objects that the keys of a path are looked up in. -/
def visits (h : Heap L) : Option (Val L) → List Key → List (Val L × Key)
  | some v, key :: path => (v, key) :: visits h (successor lib objects h v key) path
  | _, _ => []

/-- A chain of monitors is attached to the objects along its path. -/
def Attached (h : Heap L) : List (KeyPathMonitor L) → Option (Val L) → Prop
  | [], _ => True
  | m :: rest, v =>
    m.namespaceValue = v ∧ Attached h rest (v.bind fun w => successor lib objects h w m.key)

/-! ## The condition on an edit -/

variable [DecidableEq L]

/-- The edit changes what an object has at a key without telling the monitor: an index after the
    edited range, or a value replaced by an equal one. -/
def Overlooked (h : Heap L) (e : Edit L) (v : Val L) (key : Key) : Prop :=
  match e with
  | .put r changed value =>
    v = .ref r ∧ key = changed ∧ ∃ entries old, h.coll r = .map entries ∧
      valueAt key entries = some old ∧ old ≠ value ∧
      putIsSilent (edit h (.put r changed value)).1 old value = true
  | .remove _ _ => False
  | .splice r start removed added =>
    v = .ref r ∧ ∃ elements i, h.coll r = .list elements ∧
      start + removed ≤ elements.length ∧ parseInt lib key = some (Int.ofNat i) ∧
      start + added.length ≤ i ∧ elements[i]? ≠ elements[i - added.length + removed]?

/-- The collection tells the monitor of the edit. -/
def Heard (h : Heap L) (e : Edit L) (v : Val L) (key : Key) : Prop :=
  v = .ref e.place ∧ ∃ change, (edit h e).2 = some change ∧ hears lib key change = true

/-- No operator reads a difference in the contents of its operands. -/
def OperatorsAlike (h h' : Heap L) (root : Val L) : Expression D → Prop
  | .literal _ => True
  | .var _ => True
  | .unary op operand => OperatorsAlike h h' root operand ∧
    ∀ v, evaluate lib objects h root operand = .ok v → objects.unary h op v = objects.unary h' op v
  | .binary op left right => OperatorsAlike h h' root left ∧ OperatorsAlike h h' root right ∧
    ∀ v w, evaluate lib objects h root left = .ok v → evaluate lib objects h root right = .ok w →
      objects.binary h op v w = objects.binary h' op v w

namespace ExpressionValue

/-- The objects along the key paths, with their keys. -/
def watched (s : ExpressionValue D L) : List (Val L × Key) :=
  s.expression.getArguments.flatMap fun path => visits lib objects s.heap (some s.root) path

/-- The condition under which the value is told of an edit. -/
structure Careful (s : ExpressionValue D L) (e : Edit L) : Prop where
  /-- No watched entry is changed behind the back of its monitor. -/
  told : ∀ p ∈ s.watched lib objects, ¬ Overlooked lib s.heap e p.1 p.2
  /-- There is a value for a change listener to be called with. -/
  evaluates : s.listener = .change → (∃ p ∈ s.watched lib objects, Heard lib s.heap e p.1 p.2) →
    ∃ v, getValue lib objects (edit s.heap e).1 s.root s.expression = .ok v
  operators : OperatorsAlike lib objects s.heap (edit s.heap e).1 s.root s.expression
  /-- The conversion of the value reads no difference in its contents. -/
  coerce : ∀ v, evaluate lib objects s.heap s.root s.expression = .ok v →
    objects.coerce s.heap v = objects.coerce (edit s.heap e).1 v

/-- A changed value is notified, and so is no edit off the key paths. -/
def Fresh (s : ExpressionValue D L) (e : Edit L) : Prop :=
  (s.value lib objects ≠ (s.step lib objects e).value lib objects →
    s.notifications < (s.step lib objects e).notifications) ∧
  (s.notifications < (s.step lib objects e).notifications →
    ∃ key, (.ref e.place, key) ∈ s.watched lib objects)

/-- Every chain of monitors is attached along its key path. -/
structure Watching (s : ExpressionValue D L) : Prop where
  keys : s.argumentMonitors.map (·.map KeyPathMonitor.key) = s.expression.getArguments
  attached : ∀ chain ∈ s.argumentMonitors, Attached lib objects s.heap chain (some s.root)

end ExpressionValue

end Definitions

variable {lib : Library D} {objects : Objects D L}

/-! ## Looking up a key -/

theorem Heap.coll_set_of_ne (h : Heap L) {r' : Nat} (hr : r' ≠ r) (c : Coll L) :
    Heap.coll (h.set r c) r' = h.coll r' := by
  simp only [Heap.coll, getD_eq_getElem?_getD, getElem?_set_ne hr.symm]

theorem Heap.coll_set_self (h : Heap L) (c : Coll L) :
    Heap.coll (h.set r c) r = c ∨ h.set r c = h := by
  by_cases hr : r < h.length
  · exact .inl (by simp [Heap.coll, hr])
  · exact .inr (set_eq_of_length_le (by omega))

variable {h h' : Heap L} {elements : List (Val L)} {chain before monitors : List (KeyPathMonitor L)}
  {v : Option (Val L)} {e : Edit L} {root : Val L} {expression : Expression D}

theorem get_congr (hr : h.coll r = h'.coll r) (key : Key) :
    get lib objects h (.ref r) key = get lib objects h' (.ref r) key := by
  rw [get, get, hr]

theorem get_map {entries : List (Key × Val L)} (hr : h.coll r = .map entries) (key : Key) :
    get lib objects h (.ref r) key = .ok ((valueAt key entries).getD .null) := by
  rw [get, hr]

theorem get_list (hr : h.coll r = .list elements) {i : Int} (hi : parseInt lib key = some i) :
    get lib objects h (.ref r) key =
      if 0 ≤ i then
        match elements[i.toNat]? with
        | some v => .ok v
        | none => .error .indexOutOfBounds
      else .error .indexOutOfBounds := by
  rewrite [get, hr]
  dsimp only
  rewrite [hi]
  rfl

theorem get_list_of_not_index (hr : h.coll r = .list elements) (hi : parseInt lib key = none) :
    get lib objects h (.ref r) key = .error .numberFormat := by
  simp only [get, hr, hi]

/-- The collection put at a place of the heap, if there is such a place. -/
theorem get_set (h : Heap L) (c : Coll L) (hc : Heap.coll (h.set r c) r = c →
      get lib objects h (.ref r) key = get lib objects (h.set r c) (.ref r) key) :
    get lib objects h (.ref r) key = get lib objects (h.set r c) (.ref r) key := by
  obtain hself | hsame := Heap.coll_set_self h (r := r) c
  · exact hc hself
  · rw [hsame]

/-! ## Chains of monitors -/

theorem successor_congr {v : Val L} (hget : get lib objects h v key = get lib objects h' v key) :
    successor lib objects h v key = successor lib objects h' v key := by
  unfold successor
  rw [hget]

theorem getPath_null (h : Heap L) (path : List Key) :
    getPath lib objects h .null path = .ok .null := by
  induction path with
  | nil => rfl
  | cons key path ih => exact ih

/-- A path goes on from the successor, or has nothing to go on from. -/
theorem getPath_cons (h : Heap L) (v : Val L) (key : Key) (path : List Key) :
    getPath lib objects h v (key :: path) =
      match successor lib objects h v key with
      | some w => getPath lib objects h w path
      | none => get lib objects h v key := by
  rw [getPath]
  unfold successor
  cases hget : get lib objects h v key with
  | error thrown => rfl
  | ok w =>
    cases w with
    | null => exact getPath_null h path
    | leaf object | ref r => rfl

theorem unmonitor_attached (h : Heap L) (chain : List (KeyPathMonitor L)) :
    Attached lib objects h (unmonitor chain) none := by
  induction chain with
  | nil => trivial
  | cons m rest ih => exact ⟨rfl, ih⟩

theorem new_attached (h : Heap L) (path : List Key) :
    Attached lib objects h (path.map fun key => ⟨key, none⟩) none := by
  induction path with
  | nil => trivial
  | cons key path ih => exact ⟨rfl, ih⟩

theorem monitor_attached {h : Heap L} {chain : List (KeyPathMonitor L)} {v : Val L}
    (hchain : Attached lib objects h chain none) :
    Attached lib objects h (monitor lib objects h chain v).1 (some v) := by
  induction chain generalizing v with
  | nil => trivial
  | cons m rest ih =>
    cases rest with
    | nil => exact ⟨rfl, trivial⟩
    | cons next rest =>
      have hrest : Attached lib objects h (next :: rest) none := hchain.2
      rw [monitor]
      cases hget : get lib objects h v m.key with
      | error thrown => exact ⟨rfl, by simpa [successor, hget] using hrest⟩
      | ok w =>
        cases w with
        | null => exact ⟨rfl, by simpa [successor, hget] using hrest⟩
        | leaf object | ref r => exact ⟨rfl, by simpa [successor, hget] using ih hrest⟩

theorem remonitor_attached (h : Heap L) (m : KeyPathMonitor L) (next : List (KeyPathMonitor L)) :
    Attached lib objects h (remonitor lib objects h m next)
      (m.namespaceValue.bind fun w => successor lib objects h w m.key) := by
  cases next with
  | nil => trivial
  | cons n rest =>
    rw [remonitor]
    cases hns : m.namespaceValue with
    | none => exact unmonitor_attached h _
    | some v =>
      simp only [Option.getD_some, Option.bind_some]
      cases hget : get lib objects h v m.key with
      | error thrown => simpa [successor, hget] using unmonitor_attached h (n :: rest)
      | ok w =>
        have hdetached : Attached lib objects h (unmonitor (n :: rest)) none :=
          unmonitor_attached h (n :: rest)
        have hattach := @monitor_attached _ _ _ _ _ _ w hdetached
        cases w with
        | null => simpa [successor, hget] using unmonitor_attached h (n :: rest)
        | leaf object | ref r => simpa [successor, hget] using hattach

-- The monitors keep their keys.

theorem unmonitor_keys (chain : List (KeyPathMonitor L)) :
    (unmonitor chain).map KeyPathMonitor.key = chain.map KeyPathMonitor.key := by
  simp [unmonitor]

theorem monitor_keys (h : Heap L) (chain : List (KeyPathMonitor L)) (v : Val L) :
    (monitor lib objects h chain v).1.map KeyPathMonitor.key =
      chain.map KeyPathMonitor.key := by
  induction chain generalizing v with
  | nil => rfl
  | cons m rest ih =>
    cases rest with
    | nil => rfl
    | cons next rest =>
      rw [monitor]
      split
      · rfl
      · simp only [map_cons]
        rw [ih]
        rfl
      · rfl

theorem remonitor_keys (h : Heap L) (m : KeyPathMonitor L) (next : List (KeyPathMonitor L)) :
    (remonitor lib objects h m next).map KeyPathMonitor.key =
      next.map KeyPathMonitor.key := by
  unfold remonitor
  split
  · rfl
  · split
    · exact unmonitor_keys _
    · rw [monitor_keys, unmonitor_keys]
    · exact unmonitor_keys _

theorem detached_of_attached_none
    (hchain : Attached lib objects h chain none) : ∀ m ∈ chain, m.namespaceValue = none := by
  induction chain with
  | nil => exact forall_mem_nil _
  | cons m rest ih => exact forall_mem_cons.mpr ⟨hchain.1, ih hchain.2⟩

theorem attached_none
    (hchain : Attached lib objects h chain none) : Attached lib objects h' chain none := by
  induction chain with
  | nil => trivial
  | cons m rest ih => exact ⟨hchain.1, ih hchain.2⟩

theorem mem_visits_of_attached
    (hchain : Attached lib objects h chain v) {m : KeyPathMonitor L} (hm : m ∈ chain)
    {w : Val L} (hns : m.namespaceValue = some w) :
    (w, m.key) ∈ visits lib objects h v (chain.map KeyPathMonitor.key) := by
  induction chain generalizing v with
  | nil => cases hm
  | cons m' rest ih =>
    cases v with
    | none => cases (detached_of_attached_none hchain m hm).symm.trans hns
    | some v =>
      obtain ⟨hns', hrest⟩ := hchain
      rw [map_cons, visits]
      rcases mem_cons.mp hm with rfl | hm
      · obtain rfl : v = w := Option.some_inj.mp (hns'.symm.trans hns)
        exact .head _
      · exact .tail _ (ih hrest hm)

variable [DecidableEq L]

theorem notify_keys (h : Heap L) (throws : Bool) (r : Nat) (change : Change)
    (before monitors : List (KeyPathMonitor L)) :
    (notify lib objects h throws r change before monitors).1.map KeyPathMonitor.key =
      monitors.map KeyPathMonitor.key := by
  induction before generalizing monitors with
  | nil => rfl
  | cons b before ih =>
    cases monitors with
    | nil => rfl
    | cons m rest =>
      rw [notify]
      split
      · simp only [map_cons, ih, remonitor_keys]
      · simp only [map_cons, ih]

/-! ## What a notification does to a chain -/

theorem notify_attached (throws : Bool) (r : Nat) (change : Change)
    (hm : Attached lib objects h monitors v) :
    Attached lib objects h (notify lib objects h throws r change before monitors).1 v := by
  induction before generalizing monitors v with
  | nil => exact hm
  | cons b before ih =>
    cases monitors with
    | nil => exact hm
    | cons m rest =>
      rw [notify]
      split
      · exact ⟨hm.1, ih (hm.1 ▸ remonitor_attached h m rest)⟩
      · exact ⟨hm.1, ih hm.2⟩

/-- What is changed at the keys of a path is told to the monitors there. -/
def Told (lib : Library D) (objects : Objects D L) (h h' : Heap L) (throws : Bool) (r : Nat)
    (change : Change) (positions : List (Val L × Key)) : Prop :=
  ∀ p ∈ positions, (p.1 = .ref r ∧ hears lib p.2 change = true ∧ throws = false) ∨
    get lib objects h p.1 p.2 = get lib objects h' p.1 p.2

section Chain

variable {h h' : Heap L} {throws : Bool} {r : Nat} {change : Change}

theorem notify_detached (hbef : Attached lib objects h before none) :
    notify lib objects h' throws r change before monitors = (monitors, 0) := by
  induction before generalizing monitors with
  | nil => rw [notify.eq_def]
  | cons b before ih =>
    cases monitors with
    | nil => rw [notify.eq_def]
    | cons m rest =>
      have hb : b.namespaceValue = none := hbef.1
      rw [notify, if_neg (by simp [hb]), ih hbef.2]

/-- After the calls the chain is attached in the changed namespace. -/
theorem notify_attached_of_told (hchain : Attached lib objects h chain v)
    (htold : Told lib objects h h' throws r change
      (visits lib objects h v (chain.map KeyPathMonitor.key))) :
    Attached lib objects h' (notify lib objects h' throws r change chain chain).1 v := by
  induction chain generalizing v with
  | nil => trivial
  | cons m rest ih =>
    cases v with
    | none =>
      rw [notify_detached hchain]
      exact attached_none hchain
    | some v =>
      obtain ⟨hns, hrest⟩ := hchain
      rw [map_cons, visits, Told, forall_mem_cons] at htold
      rw [notify]
      split
      · next hcall =>
        exact ⟨hns, notify_attached throws r change (hns ▸ remonitor_attached h' m rest)⟩
      · next hcall =>
        rw [hns, Option.some_inj] at hcall
        have hget := htold.1.resolve_left hcall
        have hnxt := successor_congr hget
        refine ⟨hns, ?_⟩
        rw [Option.bind_some] at hrest ⊢
        rw [← hnxt]
        exact ih hrest htold.2

theorem getPath_eq_of_told {v : Val L} (hchain : Attached lib objects h chain (some v))
    (htold : Told lib objects h h' throws r change
      (visits lib objects h (some v) (chain.map KeyPathMonitor.key)))
    (hcnt : (notify lib objects h' throws r change chain chain).2 = 0) :
    getPath lib objects h v (chain.map KeyPathMonitor.key) =
      getPath lib objects h' v (chain.map KeyPathMonitor.key) := by
  induction chain generalizing v with
  | nil => rfl
  | cons m rest ih =>
    obtain ⟨hns, hrest⟩ := hchain
    rw [map_cons, visits, Told, forall_mem_cons] at htold
    rw [notify] at hcnt
    split at hcnt
    · simp at hcnt
    · next hcall =>
      rw [hns, Option.some_inj] at hcall
      have hget := htold.1.resolve_left hcall
      rw [map_cons, getPath_cons, getPath_cons, ← successor_congr hget, ← hget]
      cases hw : successor lib objects h v m.key with
      | none => rfl
      | some w =>
        rw [Option.bind_some, hw] at hrest
        rw [hw] at htold
        exact ih hrest htold.2 hcnt

theorem exists_of_notify (hcnt : 0 < (notify lib objects h' throws r change before monitors).2) :
    ∃ b ∈ before, b.namespaceValue = some (.ref r) := by
  induction before generalizing monitors with
  | nil =>
    rw [notify.eq_def] at hcnt
    exact absurd hcnt (by simp)
  | cons b before ih =>
    cases monitors with
    | nil =>
      rw [notify.eq_def] at hcnt
      exact absurd hcnt (by simp)
    | cons m rest =>
      rw [notify] at hcnt
      split at hcnt
      · next hcall => exact ⟨b, .head _, hcall.1⟩
      · obtain ⟨b', hb', hns⟩ := ih hcnt
        exact ⟨b', .tail _ hb', hns⟩

end Chain

/-! ## What an edit changes -/

theorem coll_edit_of_ne (h : Heap L) (e : Edit L) (hr : r ≠ e.place) :
    Heap.coll (edit h e).1 r = h.coll r := by
  cases e with
  | put r' key value =>
    simp only [edit]
    split
    · split <;> exact Heap.coll_set_of_ne h hr _
    · rfl
  | remove r' key =>
    simp only [edit]
    split
    · split
      · exact Heap.coll_set_of_ne h hr _
      · rfl
    · rfl
  | splice r' start removed added =>
    simp only [edit]
    split
    · rfl
    · split
      · exact Heap.coll_set_of_ne h hr _
      · rfl

theorem heard_or_get_eq_put {changed : Key} {value : Val L}
    (hno : ¬ Overlooked lib h (.put r changed value) (.ref r) key) :
    Heard lib h (.put r changed value) (.ref r) key ∨
      get lib objects h (.ref r) key =
        get lib objects (edit h (.put r changed value)).1 (.ref r) key := by
  cases hc : h.coll r with
  | list elements =>
    right
    simp only [edit, hc]
  | map entries =>
    have hset : (edit h (.put r changed value)).1 =
        h.set r (.map (modifyOr changed value (fun _ => value) entries)) := by
      simp only [edit, hc]
      split <;> rfl
    by_cases hkey : key = changed
    · subst hkey
      cases hold : valueAt key entries with
      | none => exact .inl ⟨rfl, .map key, by simp only [edit, hc, hold], by simp [hears]⟩
      | some old =>
        by_cases hsilent : putIsSilent (edit h (.put r key value)).1 old value = true
        · -- A silent put leaves the value, unless it is overlooked.
          have hval : old = value := by
            by_contra hne
            exact hno ⟨rfl, rfl, entries, old, hc, hold, hne, hsilent⟩
          right
          rw [hset]
          refine get_set h _ fun hself => ?_
          rw [get_map hc, get_map hself, valueAt_modifyOr, hold, if_pos rfl, hval]
        · left
          rw [hset] at hsilent
          refine ⟨rfl, .map key, ?_, by simp [hears]⟩
          simp only [edit, hc, hold]
          rw [if_neg hsilent]
    · right
      rw [hset]
      refine get_set h _ fun hself => ?_
      rw [get_map hc, get_map hself, valueAt_modifyOr, if_neg hkey]

theorem heard_or_get_eq_remove {removed : Key} : Heard lib h (.remove r removed) (.ref r) key ∨
      get lib objects h (.ref r) key =
        get lib objects (edit h (.remove r removed)).1 (.ref r) key := by
  cases hc : h.coll r with
  | list elements =>
    right
    simp only [edit, hc]
  | map entries =>
    by_cases hpresent : (valueAt removed entries).isSome = true
    · by_cases hkey : key = removed
      · subst hkey
        left
        exact ⟨rfl, .map key, by simp only [edit, hc, if_pos hpresent], by simp [hears]⟩
      · right
        simp only [edit, hc, if_pos hpresent]
        refine get_set h _ fun hself => ?_
        rw [get_map hc, get_map hself, valueAt_filter_ne hkey]
    · right
      simp only [edit, hc]
      rw [if_neg hpresent]

variable {added : List (Val L)}

omit [DecidableEq L] in
theorem getElem?_splice {start removed i : Nat}
    (hfits : start + removed ≤ elements.length) (hi : i < start ∨ start + added.length ≤ i) :
    (elements.take start ++ added ++ elements.drop (start + removed))[i]? =
      if i < start then elements[i]? else elements[i - added.length + removed]? := by
  have htake : (elements.take start).length = start := by
    rw [length_take]
    omega
  split
  · next hlt =>
    rw [append_assoc, getElem?_append_left (by omega), getElem?_take, if_pos hlt]
  · next hge =>
    have hlen : (elements.take start ++ added).length = start + added.length := by
      rw [length_append, htake]
    rw [getElem?_append_right (by omega), getElem?_drop, hlen]
    congr 1
    omega

theorem heard_or_get_eq_splice {start removed : Nat}
    (hno : ¬ Overlooked lib h (.splice r start removed added) (.ref r) key) :
    Heard lib h (.splice r start removed added) (.ref r) key ∨
      get lib objects h (.ref r) key =
        get lib objects (edit h (.splice r start removed added)).1 (.ref r) key := by
  cases hc : h.coll r with
  | map entries =>
    right
    simp only [edit, hc]
  | list elements =>
    by_cases hfits : start + removed ≤ elements.length
    · have hedit : edit h (.splice r start removed added) =
          (h.set r (.list (elements.take start ++ added ++ elements.drop (start + removed))),
            some (.list start (start + added.length))) := by
        simp only [edit, hc, if_pos hfits]
      cases hi : parseInt lib key with
      | none =>
        right
        rw [hedit]
        refine get_set h _ fun hself => ?_
        rw [get_list_of_not_index hc hi, get_list_of_not_index hself hi]
      | some i =>
        by_cases hin : (start : Int) ≤ i ∧ i < (start + added.length : Nat)
        · left
          refine ⟨rfl, .list start (start + added.length), by rw [hedit], ?_⟩
          simp only [hears, hi, Bool.and_eq_true, decide_eq_true_eq]
          exact hin
        · right
          rw [hedit]
          refine get_set h _ fun hself => ?_
          rw [get_list hc hi, get_list hself hi]
          by_cases hpos : 0 ≤ i
          · -- Outside the range the elements are the same, or the edit is overlooked.
            have hout : i.toNat < start ∨ start + added.length ≤ i.toNat := by omega
            have hsame : elements[i.toNat]? =
                (elements.take start ++ added ++ elements.drop (start + removed))[i.toNat]? := by
              rw [getElem?_splice hfits hout]
              split
              · rfl
              · next hge =>
                by_contra hne
                have hidx : i = Int.ofNat i.toNat := (Int.toNat_of_nonneg hpos).symm
                exact hno ⟨rfl, elements, i.toNat, hc, hfits, hidx ▸ hi, by omega, hne⟩
            rw [if_pos hpos, if_pos hpos, hsame]
          · rw [if_neg hpos, if_neg hpos]
    · right
      simp only [edit, hc, if_neg hfits]

theorem heard_or_get_eq {v : Val L} (hno : ¬ Overlooked lib h e v key) :
    Heard lib h e v key ∨ get lib objects h v key = get lib objects (edit h e).1 v key := by
  cases v with
  | null | leaf object => exact .inr rfl
  | ref r =>
    by_cases hr : r = e.place
    · cases e with
      | put r' changed value =>
        obtain rfl : r = r' := hr
        exact heard_or_get_eq_put hno
      | remove r' removed =>
        obtain rfl : r = r' := hr
        exact heard_or_get_eq_remove
      | splice r' start removed added =>
        obtain rfl : r = r' := hr
        exact heard_or_get_eq_splice hno
    · exact .inr (get_congr (coll_edit_of_ne h e hr).symm key)

/-! ## The value of the expression -/

omit [DecidableEq L] in
/-- An expression whose variables keep their values keeps its value. -/
theorem evaluate_congr (hpaths : ∀ path ∈ expression.getArguments,
      getPath lib objects h root path = getPath lib objects h' root path)
    (hop : OperatorsAlike lib objects h h' root expression) :
    evaluate lib objects h root expression = evaluate lib objects h' root expression := by
  induction expression with
  | literal value => rfl
  | var keyPath => exact hpaths keyPath mem_cons_self
  | unary op operand ih =>
    rw [evaluate, evaluate, ← ih hpaths hop.1]
    cases hv : evaluate lib objects h root operand with
    | error thrown => rfl
    | ok v => exact hop.2 v hv
  | binary op left right ihl ihr =>
    rw [Expression.getArguments, forall_mem_append] at hpaths
    rw [evaluate, evaluate, ← ihl hpaths.1 hop.1, ← ihr hpaths.2 hop.2.1]
    cases hv : evaluate lib objects h root left with
    | error thrown => rfl
    | ok v =>
      cases hw : evaluate lib objects h root right with
      | error thrown => rfl
      | ok w => exact hop.2.2 v w hv hw

namespace ExpressionValue

/-! ## One edit -/

variable {s : ExpressionValue D L}

omit [DecidableEq L] in
theorem Watching.exists_chain (hs : s.Watching lib objects) {path : List Key}
    (hpath : path ∈ s.expression.getArguments) :
    ∃ chain ∈ s.argumentMonitors, chain.map KeyPathMonitor.key = path := by
  rw [← hs.keys] at hpath
  exact mem_map.mp hpath

omit [DecidableEq L] in
theorem Watching.mem_watched (hs : s.Watching lib objects)
    (hchain : chain ∈ s.argumentMonitors) {p : Val L × Key}
    (hp : p ∈ visits lib objects s.heap (some s.root) (chain.map KeyPathMonitor.key)) :
    p ∈ s.watched lib objects := by
  have hpath : chain.map KeyPathMonitor.key ∈ s.expression.getArguments := by
    rw [← hs.keys]
    exact mem_map_of_mem hchain
  exact mem_flatMap.mpr ⟨_, hpath, hp⟩

omit [DecidableEq L] in
theorem throws_of_evaluates
    (heval : s.listener = .change → ∃ v, getValue lib objects h s.root s.expression = .ok v) :
    s.throws lib objects h = false := by
  unfold throws
  cases hl : s.listener with
  | invalidation => rfl
  | change =>
    obtain ⟨v, hv⟩ := heval hl
    rw [hv]

theorem told_of_careful (hs : s.Watching lib objects)
    (hcare : s.Careful lib objects e) {change : Change}
    (hchg : (edit s.heap e).2 = some change)
    (hchain : chain ∈ s.argumentMonitors) :
    Told lib objects s.heap (edit s.heap e).1 (s.throws lib objects (edit s.heap e).1) e.place
      change (visits lib objects s.heap (some s.root) (chain.map KeyPathMonitor.key)) := by
  intro p hp
  have hwatched := hs.mem_watched hchain hp
  rcases heard_or_get_eq (hcare.told p hwatched) with hheard | hget
  · have hcall : s.throws lib objects (edit s.heap e).1 = false :=
      throws_of_evaluates fun hl => hcare.evaluates hl ⟨p, hwatched, hheard⟩
    obtain ⟨hplace, change', hchg', hhears⟩ := hheard
    cases hchg.symm.trans hchg'
    exact .inl ⟨hplace, hhears, hcall⟩
  · exact .inr hget

/-- An edit that is not reported changes nothing that is watched. -/
theorem told_of_silent (hs : s.Watching lib objects)
    (hcare : s.Careful lib objects e) (hsilent : (edit s.heap e).2 = none)
    (hchain : chain ∈ s.argumentMonitors) (change : Change) :
    Told lib objects s.heap (edit s.heap e).1 true e.place change
      (visits lib objects s.heap (some s.root) (chain.map KeyPathMonitor.key)) := by
  intro p hp
  rcases heard_or_get_eq (hcare.told p (hs.mem_watched hchain hp)) with hheard | hget
  · obtain ⟨_, change', hchg', _⟩ := hheard
    cases hsilent.symm.trans hchg'
  · exact .inr hget

theorem step_silent (hsilent : (edit s.heap e).2 = none) :
    s.step lib objects e = { s with heap := (edit s.heap e).1 } := by
  rw [step]
  cases hedit : edit s.heap e with
  | mk h' change =>
    rw [hedit] at hsilent
    cases hsilent
    rfl

theorem step_reported {change : Change} (hchg : (edit s.heap e).2 = some change) :
    s.step lib objects e = { s with
      heap := (edit s.heap e).1
      argumentMonitors := s.argumentMonitors.map fun chain =>
        (notify lib objects (edit s.heap e).1 (s.throws lib objects (edit s.heap e).1) e.place
          change chain chain).1
      notifications := s.notifications + (s.argumentMonitors.map fun chain =>
        (notify lib objects (edit s.heap e).1 (s.throws lib objects (edit s.heap e).1) e.place
          change chain chain).2).sum } := by
  rw [step]
  cases hedit : edit s.heap e with
  | mk h' change' =>
    rw [hedit] at hchg
    cases hchg
    simp only [map_map, Function.comp_def]

theorem step_heap (e : Edit L) : (s.step lib objects e).heap = (edit s.heap e).1 := by
  cases hchg : (edit s.heap e).2 with
  | none => rw [step_silent hchg]
  | some change => rw [step_reported hchg]

theorem step_expression (e : Edit L) : (s.step lib objects e).expression = s.expression ∧
    (s.step lib objects e).root = s.root := by
  cases hchg : (edit s.heap e).2 with
  | none => rw [step_silent hchg]; exact ⟨rfl, rfl⟩
  | some change => rw [step_reported hchg]; exact ⟨rfl, rfl⟩

section

variable (hs : s.Watching lib objects) (hcare : s.Careful lib objects e)
include hs hcare

/-- The monitors are attached along the key paths after a careful edit too. -/
theorem watching_step : (s.step lib objects e).Watching lib objects := by
  cases hchg : (edit s.heap e).2 with
  | none =>
    rw [step_silent hchg]
    refine ⟨hs.keys, fun chain hchain => ?_⟩
    have hnew := notify_attached_of_told (hs.attached chain hchain)
      (told_of_silent hs hcare hchg hchain (.list 0 0))
    rwa [notify_throws] at hnew
  | some change =>
    rw [step_reported hchg]
    refine ⟨?_, fun chain' hchain' => ?_⟩
    · simp only [map_map, Function.comp_def, notify_keys]
      exact hs.keys
    · obtain ⟨chain, hchain, rfl⟩ := mem_map.mp hchain'
      exact notify_attached_of_told (hs.attached chain hchain)
        (told_of_careful hs hcare hchg hchain)

theorem getPath_eq_of_unnotified
    (hcnt : ¬ s.notifications < (s.step lib objects e).notifications) {path : List Key}
    (hpath : path ∈ s.expression.getArguments) :
    getPath lib objects s.heap s.root path =
      getPath lib objects (edit s.heap e).1 s.root path := by
  obtain ⟨chain, hchain, rfl⟩ := hs.exists_chain hpath
  cases hchg : (edit s.heap e).2 with
  | none =>
    exact getPath_eq_of_told (hs.attached chain hchain)
      (told_of_silent hs hcare hchg hchain (.list 0 0)) (by rw [notify_throws])
  | some change =>
    rw [step_reported hchg] at hcnt
    refine getPath_eq_of_told (hs.attached chain hchain)
      (told_of_careful hs hcare hchg hchain) ?_
    have hzero := Nat.eq_zero_of_not_pos fun hpos => hcnt (Nat.lt_add_of_pos_right hpos)
    exact List.sum_eq_zero_iff_forall_eq_nat.mp hzero _ (mem_map.mpr ⟨chain, hchain, rfl⟩)

theorem fresh_of_careful : s.Fresh lib objects e := by
  constructor
  · intro hvalue
    by_contra hcnt
    refine hvalue ?_
    have heval := evaluate_congr (fun path hpath =>
      getPath_eq_of_unnotified hs hcare hcnt hpath) hcare.operators
    rw [value, value, step_heap, (step_expression e).1, (step_expression e).2, getValue, getValue,
      ← heval]
    cases hv : evaluate lib objects s.heap s.root s.expression with
    | error thrown => rfl
    | ok v => exact hcare.coerce v hv
  · intro hcnt
    cases hchg : (edit s.heap e).2 with
    | none =>
      rw [step_silent hchg] at hcnt
      exact absurd hcnt (Nat.lt_irrefl _)
    | some change =>
      rw [step_reported hchg] at hcnt
      obtain ⟨n, hn, hpos⟩ := List.sum_pos_iff_exists_pos_nat.mp (Nat.pos_of_lt_add_right hcnt)
      obtain ⟨chain, hchain, rfl⟩ := mem_map.mp hn
      obtain ⟨b, hb, hns⟩ := exists_of_notify hpos
      exact ⟨b.key, hs.mem_watched hchain
        (mem_visits_of_attached (hs.attached chain hchain) hb hns)⟩

end

/-! ## Runs of edits -/

omit [DecidableEq L] in
theorem attached_of_monitorArguments {chains attached : List (List (KeyPathMonitor L))}
    (hdetached : ∀ chain ∈ chains, Attached lib objects h chain none)
    (hok : monitorArguments lib objects h root chains = .ok attached) :
    attached.map (·.map KeyPathMonitor.key) = chains.map (·.map KeyPathMonitor.key) ∧
      ∀ chain ∈ attached, Attached lib objects h chain (some root) := by
  induction chains generalizing attached with
  | nil =>
    cases hok
    exact ⟨rfl, forall_mem_nil _⟩
  | cons chain rest ih =>
    rw [forall_mem_cons] at hdetached
    rw [monitorArguments] at hok
    cases hm : monitor lib objects h chain root with
    | mk chain' thrown =>
      rw [hm] at hok
      cases thrown with
      | some t => cases hok
      | none =>
        cases hrest : monitorArguments lib objects h root rest with
        | error t =>
          simp only [hrest] at hok
          cases hok
        | ok rest' =>
          simp only [hrest] at hok
          cases hok
          have hhead : Attached lib objects h (monitor lib objects h chain root).1 (some root) :=
            monitor_attached hdetached.1
          have hkeys : (monitor lib objects h chain root).1.map KeyPathMonitor.key =
            chain.map KeyPathMonitor.key := monitor_keys h chain root
          rw [hm] at hhead hkeys
          obtain ⟨hkeys', hattached⟩ := ih hdetached.2 hrest
          exact ⟨by rw [map_cons, map_cons, hkeys', hkeys],
            forall_mem_cons.mpr ⟨hhead, hattached⟩⟩

omit [DecidableEq L] in
theorem watching_addListener
    {listener : Listener} (hok : addListener lib objects h root expression listener = .ok s) :
    s.Watching lib objects := by
  unfold addListener at hok
  cases hm : monitorArguments lib objects h root
      (expression.getArguments.map fun path => path.map fun key => ⟨key, none⟩) with
  | error t =>
    simp only [hm] at hok
    cases hok
  | ok attached =>
    have hs : s = ⟨h, root, expression, listener, attached, 0⟩ := by
      simp only [hm, Except.bind] at hok
      split at hok
      · cases hok
      · cases hok
        rfl
    obtain ⟨hkeys, hattached⟩ := attached_of_monitorArguments (by
      rintro chain hchain
      obtain ⟨path, _, rfl⟩ := mem_map.mp hchain
      exact new_attached h path) hm
    subst hs
    refine ⟨?_, hattached⟩
    rw [hkeys]
    simp [map_map, Function.comp_def]

theorem fresh_of_watching (hs : s.Watching lib objects) {edits : List (Edit L)}
    (hcare : AllSteps (Careful lib objects) (fun s e => some (s.step lib objects e)) s edits) :
    AllSteps (Fresh lib objects) (fun s e => some (s.step lib objects e)) s edits := by
  induction edits generalizing s with
  | nil => trivial
  | cons e edits ih =>
    refine ⟨fresh_of_careful hs hcare.1, fun s' hs' => ?_⟩
    cases hs'
    exact ih (watching_step hs hcare.1) (hcare.2 _ rfl)

/-- In every run of careful edits with a listener, each edit that changes the value is notified, and
    no edit off the key paths is. -/
theorem fresh_of_run {h : Heap L} {root : Val L} {expression : Expression D}
    {listener : Listener} (hok : addListener lib objects h root expression listener = .ok s)
    {edits : List (Edit L)}
    (hcare : AllSteps (Careful lib objects) (fun s e => some (s.step lib objects e)) s edits) :
    AllSteps (Fresh lib objects) (fun s e => some (s.step lib objects e)) s edits :=
  fresh_of_watching (watching_addListener hok) hcare

/-! ## A list in a map -/

/-- Numbers without properties, and a conversion that changes nothing. -/
def numberObjects : Objects Nat Nat where
  bean _ _ := .null
  literal _ := .null
  unary _ _ _ := .error .unsupportedOperation
  binary _ _ _ _ := .error .unsupportedOperation
  coerce _ v := .ok v

/-- The namespace with the list `[1, 2, 3]` at the key `l`. -/
def numbers : Heap Nat :=
  [.map [(['l'.toNat], .ref 1)], .list [.leaf 1, .leaf 2, .leaf 3]]

def secondNumber : Expression Nat := .var [['l'.toNat], ['1'.toNat]]

/-- A value that replaces the watched element is notified. -/
theorem fresh_of_run_set : ∃ s,
    addListener asciiLibrary numberObjects numbers (.ref 0) secondNumber .change = .ok s ∧
      AllSteps (Fresh asciiLibrary numberObjects)
        (fun s e => some (s.step asciiLibrary numberObjects e)) s [.splice 1 1 1 [.leaf 7]] := by
  refine ⟨_, rfl, @fresh_of_run _ _ _ _ _ _ numbers (.ref 0) secondNumber .change rfl _
    ⟨⟨?_, ?_, trivial, fun _ _ => rfl⟩, fun _ _ => trivial⟩⟩
  · intro p hp
    replace hp : p ∈ [(Val.ref 0, ['l'.toNat]), (Val.ref 1, ['1'.toNat])] := hp
    rw [mem_pair] at hp
    rcases hp with rfl | rfl
    · rintro ⟨hplace, _⟩
      cases hplace
    · rintro ⟨_, elements, i, _, _, hi, hout, _⟩
      obtain rfl : 1 = i := Int.ofNat.inj (Option.some_inj.mp hi)
      exact absurd hout (by decide)
  · exact fun _ _ => ⟨.leaf 7, rfl⟩

/-- The watched element moves, and nobody is told. -/
theorem not_fresh_remove : ∃ s,
    addListener asciiLibrary numberObjects numbers (.ref 0) secondNumber .invalidation = .ok s ∧
      ¬ AllSteps (Fresh asciiLibrary numberObjects)
        (fun s e => some (s.step asciiLibrary numberObjects e)) s [.splice 1 0 1 []] := by
  refine ⟨_, rfl, fun hall => ?_⟩
  have hchanged : (Except.ok (.leaf 2) : Except Thrown (Val Nat)) ≠ .ok (.leaf 3) := by decide
  exact absurd (hall.1.1 hchanged) (Nat.lt_irrefl 0)

end ExpressionValue

end OpenJfx.Fxml
