/-
  OpenJfx.Binding.MapValueChange

  What `SingleMapChange` and `Generic` of `MapExpressionHelper` tell their map change listeners
  when the observed map is replaced by another one.  The comparison of the two maps is spelled out
  twice in the source.  Values may be null; a listener is a registration, numbered from 0.
-/

import OpenJfx.Lib.JavaM
import OpenJfx.Lib.KeyedList

namespace OpenJfx.Binding.MapExpressionHelper

open List Function MapExpressionHelper

variable {K V : Type}

/-- An `ObservableMap`; a null value is `none`. -/
structure ObservableMap (K V : Type) where
  ref : Nat
  entries : List (K × Option V)
  nodup : (entries.map Prod.fst).Nodup

/-- `MapListenerHelper.SimpleChange`. -/
structure SimpleChange (K V : Type) where
  key : Option K
  old : Option V
  added : Option V
  removeOp : Bool
  addOp : Bool
  deriving DecidableEq, Repr

namespace SimpleChange

/-- The constructor sets no field. -/
def new : SimpleChange K V := ⟨none, none, none, false, false⟩

def setRemoved (key : K) (old : Option V) (_ : SimpleChange K V) : SimpleChange K V :=
  ⟨some key, old, none, true, false⟩

def setAdded (key : K) (added : Option V) (_ : SimpleChange K V) : SimpleChange K V :=
  ⟨some key, none, added, false, true⟩

def setPut (key : K) (old added : Option V) (_ : SimpleChange K V) : SimpleChange K V :=
  ⟨some key, old, added, true, true⟩

end SimpleChange

/-- A call of a registered listener. -/
inductive Notification (K V : Type) where
  | invalidated (i : Nat)
  | changed (i : Nat)
  | onChanged (i : Nat) (change : SimpleChange K V)

/-- The change object that all calls share, and the calls made so far. -/
structure Notifying (K V : Type) where
  change : SimpleChange K V
  sent : List (Notification K V)

/-- Nothing sent yet. -/
def Notifying.start : Notifying K V := ⟨.new, []⟩

/-- One of the setters of the change object. -/
def setChange (f : SimpleChange K V → SimpleChange K V) : JavaM (Notifying K V) Unit :=
  modify fun s => { s with change := f s.change }

/-- Call the listener. -/
def send (notification : SimpleChange K V → Notification K V) : JavaM (Notifying K V) Unit :=
  modify fun s => { s with sent := s.sent ++ [notification s.change] }

/-- `oldEntry == null ? newEntry != null : !newEntry.equals(oldEntry)`. -/
def entryDiffers [DecidableEq V] : Option V → Option V → Except JavaException Bool
  | none, newEntry => .ok newEntry.isSome
  | some _, none => .error .nullPointer
  | some oldEntry, some newEntry => .ok (newEntry ≠ oldEntry)

/-- The two values are one object, or both null. -/
def sameObject (a b : Option (ObservableMap K V)) : Bool := a.map ObservableMap.ref = b.map ObservableMap.ref

section Comparing

variable [DecidableEq K] [DecidableEq V]

def ObservableMap.containsKey (m : ObservableMap K V) (key : K) : Bool :=
  (valueAt key m.entries).isSome

def ObservableMap.get (m : ObservableMap K V) (key : K) : Option V := (valueAt key m.entries).join

/-- The change object is set and delivered. -/
def announce (deliver : JavaM (Notifying K V) Unit) (f : SimpleChange K V → SimpleChange K V) :
    JavaM (Notifying K V) Unit := do
  setChange f
  deliver

/-- A round of the loop over the entries of the old map. -/
def compareOldEntry (deliver : JavaM (Notifying K V) Unit) (currentValue : ObservableMap K V) :
    K × Option V → JavaM (Notifying K V) Unit
  | (key, oldEntry) =>
    if currentValue.containsKey key then do
      let newEntry := currentValue.get key
      if ← JavaM.ofExcept (entryDiffers oldEntry newEntry) then
        announce deliver (SimpleChange.setPut key oldEntry newEntry)
    else announce deliver (SimpleChange.setRemoved key oldEntry)

/-- A round of the loop over the entries of the new map. -/
def compareNewEntry (deliver : JavaM (Notifying K V) Unit) (oldValue : ObservableMap K V) :
    K × Option V → JavaM (Notifying K V) Unit
  | (key, value) =>
    if oldValue.containsKey key then pure ()
    else announce deliver (SimpleChange.setAdded key value)

/-- The comparison of the two maps. -/
def compareMaps (deliver : JavaM (Notifying K V) Unit) (oldValue currentValue : Option (ObservableMap K V)) :
    JavaM (Notifying K V) Unit :=
  match currentValue, oldValue with
  | none, none => throw .nullPointer
  | none, some oldValue =>
    oldValue.entries.forM fun (key, value) => announce deliver (SimpleChange.setRemoved key value)
  | some currentValue, none =>
    currentValue.entries.forM fun (key, value) => announce deliver (SimpleChange.setAdded key value)
  | some currentValue, some oldValue => do
    oldValue.entries.forM (compareOldEntry deliver currentValue)
    currentValue.entries.forM (compareNewEntry deliver oldValue)

/-- The change of every key in turn, from one map to the other. -/
def SingleMapChange.fireValueChangedEvent (oldValue currentValue : Option (ObservableMap K V)) :
    JavaM (Notifying K V) Unit :=
  if sameObject currentValue oldValue then pure ()
  else compareMaps (send (.onChanged 0)) oldValue currentValue

/-- A call of each of the listeners of a kind. -/
def sendAll (size : Nat) (notification : Nat → SimpleChange K V → Notification K V) :
    JavaM (Notifying K V) Unit :=
  (List.range size).forM fun i => send (notification i)

/-- `change` is a change inside of the map, or null. -/
def Generic.notifyListeners (invalidationSize changeSize mapChangeSize : Nat)
    (oldValue currentValue : Option (ObservableMap K V)) (change : Option (SimpleChange K V)) :
    JavaM (Notifying K V) Unit := do
  sendAll invalidationSize fun i _ => .invalidated i
  if ¬ sameObject currentValue oldValue ∨ change.isSome then
    sendAll changeSize fun i _ => .changed i
    if 0 < mapChangeSize then
      match change with
      | some change =>
        setChange fun _ => change
        sendAll mapChangeSize .onChanged
      | none => compareMaps (sendAll mapChangeSize .onChanged) oldValue currentValue

/-- `Generic.fireValueChangedEvent`: `currentValue` is kept up to date. -/
def Generic.fireValueChangedEvent (invalidationSize changeSize mapChangeSize : Nat)
    (currentValue value : Option (ObservableMap K V)) : JavaM (Notifying K V) Unit :=
  if changeSize = 0 ∧ mapChangeSize = 0 then
    notifyListeners invalidationSize changeSize mapChangeSize currentValue currentValue none
  else notifyListeners invalidationSize changeSize mapChangeSize currentValue value none

end Comparing

/-! ## What a call sends -/

/-- `m` returns after sending `ns`. -/
def Sends (m : JavaM (Notifying K V) Unit) (ns : List (Notification K V)) : Prop :=
  ∀ s, ∃ change, JavaM.Returns m s () ⟨change, s.sent ++ ns⟩

/-- `m` throws, wherever it starts. -/
def Throws (m : JavaM (Notifying K V) Unit) : Prop := ∀ s, ∃ e t, m s = .error e t

/-- What a call sends depends on the content. -/
def Delivers (deliver : JavaM (Notifying K V) Unit)
    (ns : SimpleChange K V → List (Notification K V)) : Prop :=
  ∀ s, JavaM.Returns deliver s () { s with sent := s.sent ++ ns s.change }

theorem Sends.nil : Sends (pure () : JavaM (Notifying K V) Unit) [] :=
  fun s => ⟨s.change, by rw [append_nil]; rfl⟩

variable {m deliver m' : JavaM (Notifying K V) Unit} {α : Type} {f : α → JavaM (Notifying K V) Unit}
  {ns : SimpleChange K V → List (Notification K V)} {c : SimpleChange K V} {e : K × Option V}
  {old current : Option (ObservableMap K V)} {key : K} {changes : List (SimpleChange K V)}
  {mapChangeSize : Nat}

theorem Sends.bind {ns ns' : List (Notification K V)}
    (h : Sends m ns) (h' : Sends m' ns') : Sends (m >>= fun _ => m') (ns ++ ns') := by
  intro s
  obtain ⟨change, hm⟩ := h s
  obtain ⟨change', hm'⟩ := h' ⟨change, s.sent ++ ns⟩
  refine ⟨change', hm.bind ?_⟩
  rw [← append_assoc]
  exact hm'

theorem Throws.bind_left (h : Throws m)
    (f : Unit → JavaM (Notifying K V) Unit) : Throws (m >>= f) := by
  intro s
  obtain ⟨e, t, hm⟩ := h s
  exact ⟨e, t, by simp only [Bind.bind, EStateM.bind, hm]⟩

theorem Throws.bind_right {ns : List (Notification K V)}
    (h : Sends m ns) (h' : Throws m') : Throws (m >>= fun _ => m') := by
  intro s
  obtain ⟨change, hm⟩ := h s
  obtain ⟨e, t, hm'⟩ := h' ⟨change, s.sent ++ ns⟩
  exact ⟨e, t, by simp only [Bind.bind, EStateM.bind, show m s = _ from hm, hm']⟩

theorem Sends.forM
    {ns : α → List (Notification K V)} {l : List α} (h : ∀ a ∈ l, Sends (f a) (ns a)) :
    Sends (l.forM f) (l.flatMap ns) := by
  induction l with
  | nil => exact Sends.nil
  | cons a l ih =>
    rw [forM_eq_forM, forM_cons, flatMap_cons]
    exact (h a mem_cons_self).bind (ih fun b hb => h b (mem_cons_of_mem _ hb))

theorem Throws.forM {l : List α} (h : ∀ a ∈ l, (∃ ns, Sends (f a) ns) ∨ Throws (f a))
    {a : α} (ha : a ∈ l) (hthrows : Throws (f a)) : Throws (l.forM f) := by
  induction l with
  | nil => cases ha
  | cons b l ih =>
    rw [forM_eq_forM, forM_cons]
    cases h b mem_cons_self with
    | inl hb =>
      obtain ⟨ns, hb⟩ := hb
      cases mem_cons.mp ha with
      | inl heq => exact (heq ▸ hthrows).bind_left _
      | inr ha => exact Throws.bind_right hb (ih (fun c hc => h c (mem_cons_of_mem _ hc)) ha)
    | inr hb => exact hb.bind_left _

theorem Delivers.announce (h : Delivers deliver ns)
    {f : SimpleChange K V → SimpleChange K V} (hf : ∀ c', f c' = c) :
    Sends (announce deliver f) (ns c) := by
  intro s
  have hset : JavaM.Returns (setChange f) s () { s with change := c } := by
    rw [← hf s.change]
    rfl
  exact ⟨c, hset.bind (h _)⟩

theorem send_delivers (notification : SimpleChange K V → Notification K V) :
    Delivers (send notification) fun c => [notification c] := fun _ => rfl

theorem sendAll_delivers (size : Nat) (notification : Nat → SimpleChange K V → Notification K V) :
    Delivers (sendAll size notification) fun c => (List.range size).map (notification · c) := by
  intro s
  rw [sendAll]
  generalize List.range size = l
  induction l generalizing s with
  | nil => exact congrArg (fun sent => EStateM.Result.ok () (Notifying.mk s.change sent)) (by simp)
  | cons i l ih =>
    rw [forM_eq_forM, forM_cons]
    have hsend : JavaM.Returns (send (notification i)) s ()
        { s with sent := s.sent ++ [notification i s.change] } := rfl
    have hrest := ih { s with sent := s.sent ++ [notification i s.change] }
    rw [append_assoc] at hrest
    exact hsend.bind hrest

/-! ## The changes between two maps -/

variable [DecidableEq K] [DecidableEq V]

/-- The changes that an entry of the old map gives rise to. -/
def oldChanges (current : ObservableMap K V) (e : K × Option V) : List (SimpleChange K V) :=
  match valueAt e.1 current.entries with
  | some newEntry => if e.2 = newEntry then [] else [⟨some e.1, e.2, newEntry, true, true⟩]
  | none => [⟨some e.1, e.2, none, true, false⟩]

/-- The changes that an entry of the new map gives rise to. -/
def newChanges (old : ObservableMap K V) (e : K × Option V) : List (SimpleChange K V) :=
  if old.containsKey e.1 then [] else [⟨some e.1, none, e.2, false, true⟩]

/-- The changes from one map to another. -/
def mapChanges : Option (ObservableMap K V) → Option (ObservableMap K V) → List (SimpleChange K V)
  | none, none => []
  | some old, none => old.entries.map fun e => ⟨some e.1, e.2, none, true, false⟩
  | none, some current => current.entries.map fun e => ⟨some e.1, none, e.2, false, true⟩
  | some old, some current =>
    old.entries.flatMap (oldChanges current) ++ current.entries.flatMap (newChanges old)

/-- The value of a key, `some none` being a null value. -/
def lookup (m : Option (ObservableMap K V)) (key : K) : Option (Option V) :=
  m.bind fun m => valueAt key m.entries

/-- A key loses its value to null. -/
def NullsValue (old current : Option (ObservableMap K V)) : Prop :=
  ∃ key v, lookup old key = some (some v) ∧ lookup current key = some none

omit [DecidableEq V] in
theorem valueAt_of_mem (m : ObservableMap K V) (he : e ∈ m.entries) :
    valueAt e.1 m.entries = some e.2 :=
  lookup_of_mem m.nodup he

theorem Delivers.compareOldEntry (h : Delivers deliver ns) (current : ObservableMap K V)
    (hok : ¬ (e.2.isSome ∧ valueAt e.1 current.entries = some none)) :
    Sends (compareOldEntry deliver current e) ((oldChanges current e).flatMap ns) := by
  obtain ⟨key, oldEntry⟩ := e
  cases hkey : valueAt key current.entries with
  | none =>
    have hcontains : current.containsKey key = false := by rw [ObservableMap.containsKey, hkey]; rfl
    simp only [compareOldEntry, oldChanges, hkey, hcontains, Bool.false_eq_true,
      if_false, flatMap_singleton]
    exact h.announce fun _ => rfl
  | some newEntry =>
    have hcontains : current.containsKey key = true := by rw [ObservableMap.containsKey, hkey]; rfl
    have hget : current.get key = newEntry := by rw [ObservableMap.get, hkey]; rfl
    simp only [compareOldEntry, oldChanges, hkey, hcontains, if_true, hget]
    have hdiffers : entryDiffers oldEntry newEntry = .ok (decide (oldEntry ≠ newEntry)) := by
      cases oldEntry with
      | none => cases newEntry <;> simp [entryDiffers]
      | some o =>
        cases newEntry with
        | none => exact absurd ⟨rfl, hkey⟩ hok
        | some n => simp [entryDiffers, eq_comm]
    rw [hdiffers]
    by_cases heq : oldEntry = newEntry
    · rw [if_pos heq, decide_eq_false (fun hne => hne heq)]
      exact Sends.nil
    · rw [if_neg heq, decide_eq_true heq, flatMap_singleton]
      exact h.announce fun _ => rfl

/-- A round over an entry that is put to null calls `equals` on null. -/
theorem compareOldEntry_throws (deliver : JavaM (Notifying K V) Unit)
    (current : ObservableMap K V) (hbad : e.2.isSome ∧ valueAt e.1 current.entries = some none) :
    Throws (compareOldEntry deliver current e) := by
  obtain ⟨key, oldEntry⟩ := e
  obtain ⟨o, rfl⟩ := Option.isSome_iff_exists.mp hbad.1
  intro s
  have hkey : valueAt key current.entries = some none := hbad.2
  have hcontains : current.containsKey key = true := by rw [ObservableMap.containsKey, hkey]; rfl
  have hget : current.get key = none := by rw [ObservableMap.get, hkey]; rfl
  simp only [compareOldEntry, hcontains, if_true, hget]
  exact ⟨.nullPointer, s, rfl⟩

omit [DecidableEq V] in
theorem Delivers.compareNewEntry (h : Delivers deliver ns)
    (old : ObservableMap K V) (e : K × Option V) :
    Sends (MapExpressionHelper.compareNewEntry deliver old e) ((newChanges old e).flatMap ns) := by
  obtain ⟨key, value⟩ := e
  rw [MapExpressionHelper.compareNewEntry, newChanges]
  by_cases hcontains : old.containsKey key = true
  · rw [if_pos hcontains, if_pos hcontains]
    exact Sends.nil
  · rw [if_neg hcontains, if_neg hcontains, flatMap_singleton]
    exact h.announce fun _ => rfl

theorem Delivers.compareMaps (h : Delivers deliver ns) (hne : ¬ (old = none ∧ current = none))
    (hok : ¬ NullsValue old current) :
    Sends (MapExpressionHelper.compareMaps deliver old current) ((mapChanges old current).flatMap ns) := by
  match old, current with
  | none, none => exact absurd ⟨rfl, rfl⟩ hne
  | some old, none | none, some current =>
    rw [mapChanges, flatMap_map]
    exact Sends.forM fun e _ => h.announce fun _ => rfl
  | some old, some current =>
    rw [mapChanges, flatMap_append, flatMap_assoc, flatMap_assoc]
    refine Sends.bind (Sends.forM fun e he => h.compareOldEntry current fun ⟨hsome, hnull⟩ => ?_)
      (Sends.forM fun e _ => h.compareNewEntry old e)
    obtain ⟨v, hv⟩ := Option.isSome_iff_exists.mp hsome
    exact hok ⟨e.1, v, (valueAt_of_mem old he).trans (by rw [hv]), hnull⟩

theorem Delivers.compareMaps_throws (h : Delivers deliver ns) (hbad : NullsValue old current) :
    Throws (MapExpressionHelper.compareMaps deliver old current) := by
  obtain ⟨key, v, hold, hcur⟩ := hbad
  match old, current with
  | none, _ => cases hold
  | some _, none => cases hcur
  | some old, some current =>
    have hmem : (key, some v) ∈ old.entries := mem_of_lookup hold
    refine Throws.bind_left (Throws.forM
      (fun e _ => ?_) hmem (compareOldEntry_throws deliver current ⟨rfl, hcur⟩)) _
    by_cases hnull : e.2.isSome ∧ valueAt e.1 current.entries = some none
    · exact .inr (compareOldEntry_throws deliver current hnull)
    · exact .inl ⟨_, h.compareOldEntry current hnull⟩

/-! ## Replaying the changes -/

/-- What a listener that mirrors the map does with a change. -/
def SimpleChange.apply (c : SimpleChange K V) (m : K → Option (Option V)) : K → Option (Option V) :=
  match c.key with
  | none => m
  | some key =>
    let m := if c.removeOp then Function.update m key none else m
    if c.addOp then Function.update m key (some c.added) else m

/-- The map after the changes, on top of `m`. -/
def replay (changes : List (SimpleChange K V)) (m : K → Option (Option V)) : K → Option (Option V) :=
  changes.foldl (fun m c => c.apply m) m

/-- What should be told of a key. -/
def changeAt (old current : Option (ObservableMap K V)) (key : K) : Option (SimpleChange K V) :=
  match lookup old key, lookup current key with
  | none, none => none
  | some o, none => some ⟨some key, o, none, true, false⟩
  | none, some n => some ⟨some key, none, n, false, true⟩
  | some o, some n => if o = n then none else some ⟨some key, o, n, true, true⟩

theorem key_of_changeAt (h : changeAt old current key = some c) : c.key = some key := by
  rw [changeAt] at h
  split at h
  · cases h
  · cases h; rfl
  · cases h; rfl
  · split at h
    · cases h
    · cases h; rfl

theorem mem_oldChanges {old current : ObservableMap K V} (he : e ∈ old.entries)
    (c : SimpleChange K V) :
    c ∈ oldChanges current e ↔ changeAt (some old) (some current) e.1 = some c := by
  have hold : lookup (some old) e.1 = some e.2 := valueAt_of_mem old he
  have hcur : lookup (some current) e.1 = valueAt e.1 current.entries := rfl
  rw [oldChanges, changeAt, hold, hcur]
  cases valueAt e.1 current.entries with
  | none => simp [eq_comm]
  | some newEntry =>
    simp only []
    split
    · simp
    · simp [eq_comm]

theorem mem_newChanges {old current : ObservableMap K V}
    (he : e ∈ current.entries) (c : SimpleChange K V) :
    c ∈ newChanges old e ↔
      lookup (some old) e.1 = none ∧ changeAt (some old) (some current) e.1 = some c := by
  have hcur : lookup (some current) e.1 = some e.2 := valueAt_of_mem current he
  have hold : lookup (some old) e.1 = valueAt e.1 old.entries := rfl
  rw [newChanges, changeAt, hcur, hold, ObservableMap.containsKey]
  cases valueAt e.1 old.entries with
  | none => simp [eq_comm]
  | some o => simp

theorem mem_mapChanges (old current : Option (ObservableMap K V)) (c : SimpleChange K V) :
    c ∈ mapChanges old current ↔ ∃ key, changeAt old current key = some c := by
  match old, current with
  | none, none => simp [mapChanges, changeAt, lookup]
  | some old, none =>
    rw [mapChanges, mem_map]
    constructor
    · rintro ⟨e, he, rfl⟩
      have hold : lookup (some old) e.1 = some e.2 := valueAt_of_mem old he
      have hcur : lookup (none : Option (ObservableMap K V)) e.1 = none := rfl
      exact ⟨e.1, by rw [changeAt, hold, hcur]⟩
    · rintro ⟨key, hkey⟩
      have hcur : lookup (none : Option (ObservableMap K V)) key = none := rfl
      rw [changeAt, hcur] at hkey
      cases hold : lookup (some old) key with
      | none => rw [hold] at hkey; cases hkey
      | some o =>
        rw [hold] at hkey
        exact ⟨(key, o), mem_of_lookup hold, Option.some.inj hkey⟩
  | none, some current =>
    rw [mapChanges, mem_map]
    constructor
    · rintro ⟨e, he, rfl⟩
      have hcur : lookup (some current) e.1 = some e.2 := valueAt_of_mem current he
      have hold : lookup (none : Option (ObservableMap K V)) e.1 = none := rfl
      exact ⟨e.1, by rw [changeAt, hcur, hold]⟩
    · rintro ⟨key, hkey⟩
      have hold : lookup (none : Option (ObservableMap K V)) key = none := rfl
      rw [changeAt, hold] at hkey
      cases hcur : lookup (some current) key with
      | none => rw [hcur] at hkey; cases hkey
      | some n =>
        rw [hcur] at hkey
        exact ⟨(key, n), mem_of_lookup hcur, Option.some.inj hkey⟩
  | some old, some current =>
    rw [mapChanges, mem_append, mem_flatMap, mem_flatMap]
    constructor
    · rintro (⟨e, he, hc⟩ | ⟨e, he, hc⟩)
      · exact ⟨e.1, (mem_oldChanges he c).mp hc⟩
      · exact ⟨e.1, ((mem_newChanges he c).mp hc).2⟩
    · rintro ⟨key, hkey⟩
      cases hold : lookup (some old) key with
      | some o =>
        have he : (key, o) ∈ old.entries := mem_of_lookup hold
        exact .inl ⟨(key, o), he, (mem_oldChanges he c).mpr hkey⟩
      | none =>
        cases hcur : lookup (some current) key with
        | none => rw [changeAt, hold, hcur] at hkey; cases hkey
        | some n =>
          have he : (key, n) ∈ current.entries := mem_of_lookup hcur
          exact .inr ⟨(key, n), he, (mem_newChanges he c).mpr ⟨hold, hkey⟩⟩

omit [DecidableEq K] [DecidableEq V] in
theorem keys_flatMap_sublist {f : K × Option V → List (SimpleChange K V)}
    (hf : ∀ e, (f e).length ≤ 1 ∧ ∀ c ∈ f e, c.key = some e.1) (entries : List (K × Option V)) :
    ((entries.flatMap f).map SimpleChange.key).Sublist (entries.map fun e => some e.1) := by
  induction entries with
  | nil => exact List.Sublist.refl _
  | cons e entries ih =>
    rw [flatMap_cons, map_append, map_cons]
    obtain ⟨hlen, hkey⟩ := hf e
    match hfe : f e with
    | [] => exact ih.cons _
    | [c] =>
      rw [hfe] at hkey
      rw [map_singleton, hkey c mem_cons_self]
      exact ih.cons_cons _
    | _ :: _ :: _ =>
      rw [hfe] at hlen
      simp at hlen

omit [DecidableEq K] [DecidableEq V] in
theorem nodup_keys (m : ObservableMap K V) : (m.entries.map fun e => some e.1).Nodup := by
  have hmap : (m.entries.map fun e => some e.1) = (m.entries.map Prod.fst).map some := by
    rw [map_map]
    rfl
  rw [hmap]
  exact m.nodup.map fun _ _ h => Option.some.inj h

theorem mapChanges_nodup (old current : Option (ObservableMap K V)) :
    ((mapChanges old current).map SimpleChange.key).Nodup := by
  match old, current with
  | none, none => exact nodup_nil
  | some old, none =>
    rw [mapChanges, map_map]
    exact nodup_keys old
  | none, some current =>
    rw [mapChanges, map_map]
    exact nodup_keys current
  | some old, some current =>
    rw [mapChanges, map_append]
    refine nodup_append'.mpr ⟨(nodup_keys old).sublist (keys_flatMap_sublist (fun e => ?_) _),
      (nodup_keys current).sublist (keys_flatMap_sublist (fun e => ?_) _), ?_⟩
    · rw [oldChanges]
      split
      · split <;> simp
      · simp
    · rw [newChanges]
      split <;> simp
    · intro key hold hcur
      obtain ⟨c, hc, hckey⟩ := mem_map.mp hold
      obtain ⟨c', hc', hckey'⟩ := mem_map.mp hcur
      obtain ⟨e, he, hc⟩ := mem_flatMap.mp hc
      obtain ⟨e', he', hc'⟩ := mem_flatMap.mp hc'
      obtain ⟨hnone, hat'⟩ := (mem_newChanges he' c').mp hc'
      have hat := (mem_oldChanges he c).mp hc
      have hsame : e.1 = e'.1 := Option.some.inj <|
        (key_of_changeAt hat).symm.trans (hckey.trans (hckey'.symm.trans (key_of_changeAt hat')))
      have hsome : lookup (some old) e.1 = some e.2 := valueAt_of_mem old he
      rw [hsame, hnone] at hsome
      cases hsome

/-- What a change leaves at its key. -/
def SimpleChange.result (c : SimpleChange K V) : Option (Option V) :=
  if c.addOp then some c.added else none

omit [DecidableEq V] in
theorem apply_of_ne (h : c.key ≠ some key) (m : K → Option (Option V)) : c.apply m key = m key := by
  cases hkey : c.key with
  | none => rw [SimpleChange.apply, hkey]
  | some key' =>
    have hne : key ≠ key' := fun heq => h (by rw [hkey, heq])
    rw [SimpleChange.apply, hkey]
    simp only []
    split
    · rw [update_of_ne hne]
      split
      · rw [update_of_ne hne]
      · rfl
    · split
      · rw [update_of_ne hne]
      · rfl

omit [DecidableEq V] in
theorem apply_self (h : c.key = some key)
    (hop : c.removeOp = true ∨ c.addOp = true) (m : K → Option (Option V)) :
    c.apply m key = c.result := by
  rw [SimpleChange.apply, h, SimpleChange.result]
  simp only []
  split
  · rw [update_self]
  · rw [if_pos (hop.resolve_right ‹_›), update_self]

omit [DecidableEq V] in
theorem replay_of_not_mem
    (h : some key ∉ changes.map SimpleChange.key) (m : K → Option (Option V)) :
    replay changes m key = m key := by
  induction changes generalizing m with
  | nil => rfl
  | cons c changes ih =>
    rw [map_cons, mem_cons, not_or] at h
    exact (ih h.2 (c.apply m)).trans (apply_of_ne (Ne.symm h.1) m)

omit [DecidableEq V] in
theorem replay_of_mem
    (hnd : (changes.map SimpleChange.key).Nodup) (hc : c ∈ changes) (hkey : c.key = some key)
    (hop : c.removeOp = true ∨ c.addOp = true) (m : K → Option (Option V)) :
    replay changes m key = c.result := by
  induction changes generalizing m with
  | nil => cases hc
  | cons c0 changes ih =>
    rw [map_cons, nodup_cons] at hnd
    cases mem_cons.mp hc with
    | inl heq =>
      subst heq
      exact (replay_of_not_mem (hkey ▸ hnd.1) (c.apply m)).trans (apply_self hkey hop m)
    | inr hc => exact ih hnd.2 hc (c0.apply m)

/-- The changes are a minimal account of what happened to the map. -/
structure Faithful (old current : Option (ObservableMap K V)) (changes : List (SimpleChange K V)) :
    Prop where
  once : (changes.map SimpleChange.key).Nodup
  only_different : ∀ c ∈ changes, ∃ key, c.key = some key ∧ lookup old key ≠ lookup current key
  replay_eq : replay changes (lookup old) = lookup current

theorem mapChanges_faithful (old current : Option (ObservableMap K V)) :
    Faithful old current (mapChanges old current) where
  once := mapChanges_nodup old current
  only_different c hc := by
    obtain ⟨key, hkey⟩ := (mem_mapChanges old current c).mp hc
    refine ⟨key, key_of_changeAt hkey, fun heq => ?_⟩
    rw [changeAt, heq] at hkey
    cases hn : lookup current key with
    | none => rw [hn] at hkey; cases hkey
    | some n => simp [hn] at hkey
  replay_eq := by
    funext key
    cases hat : changeAt old current key with
    | none =>
      rw [replay_of_not_mem]
      · rw [changeAt] at hat
        split at hat
        · rename_i ho hn
          rw [ho, hn]
        · cases hat
        · cases hat
        · rename_i ho hn
          split at hat
          · rename_i heq
            rw [ho, hn, heq]
          · cases hat
      · intro hmem
        obtain ⟨c, hc, hckey⟩ := mem_map.mp hmem
        obtain ⟨key', hat'⟩ := (mem_mapChanges old current c).mp hc
        obtain rfl := Option.some.inj (hckey.symm.trans (key_of_changeAt hat'))
        cases hat.symm.trans hat'
    | some c =>
      have hc := (mem_mapChanges old current c).mpr ⟨key, hat⟩
      have hresult : (c.removeOp = true ∨ c.addOp = true) ∧ c.result = lookup current key := by
        rw [changeAt] at hat
        split at hat
        · cases hat
        · rename_i hn
          cases hat
          exact ⟨.inl rfl, hn.symm⟩
        · rename_i hn
          cases hat
          exact ⟨.inr rfl, hn.symm⟩
        · rename_i hn
          split at hat
          · cases hat
          · cases hat
            exact ⟨.inl rfl, hn.symm⟩
      exact (replay_of_mem (mapChanges_nodup old current) hc (key_of_changeAt hat) hresult.1 _).trans
        hresult.2

/-! ## The two classes -/

/-- The changes that the listener with number `i` has been told. -/
def Notifying.deliveredTo (i : Nat) (s : Notifying K V) : List (SimpleChange K V) :=
  s.sent.filterMap fun
    | .onChanged j change => if j = i then some change else none
    | _ => none

omit [DecidableEq K] [DecidableEq V] in
theorem deliveredTo_append (i : Nat) (change : SimpleChange K V) (ns ns' : List (Notification K V)) :
    (⟨change, ns ++ ns'⟩ : Notifying K V).deliveredTo i =
      (⟨change, ns⟩ : Notifying K V).deliveredTo i ++ (⟨change, ns'⟩ : Notifying K V).deliveredTo i :=
  filterMap_append

theorem filterMap_range_single (a : α) {i n : Nat} (hi : i < n) :
    (List.range n).filterMap (fun j => if j = i then some a else none) = [a] := by
  induction n with
  | zero => omega
  | succ n ih =>
    rw [range_succ, filterMap_append]
    by_cases hin : i = n
    · have hnone : (List.range n).filterMap (fun j => if j = i then some a else none) = [] := by
        refine filterMap_eq_nil_iff.mpr fun j hj => if_neg ?_
        have := mem_range.mp hj
        omega
      rw [hnone, nil_append, hin]
      simp
    · rw [ih (by omega)]
      simp [Ne.symm hin]

omit [DecidableEq K] [DecidableEq V] in
theorem deliveredTo_sendAll {i n : Nat} (hi : i < n) (c : SimpleChange K V)
    (changes : List (SimpleChange K V)) :
    (⟨c, changes.flatMap fun c => (List.range n).map (.onChanged · c)⟩ : Notifying K V).deliveredTo i =
      changes := by
  induction changes with
  | nil => rfl
  | cons c0 changes ih =>
    rw [flatMap_cons, deliveredTo_append, ih, Notifying.deliveredTo, filterMap_map]
    exact congrArg (· ++ changes) (filterMap_range_single c0 hi)

omit [DecidableEq K] [DecidableEq V] in
theorem deliveredTo_others (i : Nat) (c : SimpleChange K V) (n n' : Nat) :
    (⟨c, (List.range n).map .invalidated ++ (List.range n').map .changed⟩ :
      Notifying K V).deliveredTo i = [] := by
  refine filterMap_eq_nil_iff.mpr fun notification h => ?_
  cases mem_append.mp h with
  | inl h | inr h =>
    obtain ⟨j, -, rfl⟩ := mem_map.mp h
    rfl

omit [DecidableEq K] [DecidableEq V] in
theorem sendAll_sends (n : Nat) (notification : Nat → Notification K V) :
    Sends (sendAll n fun i _ => notification i) ((List.range n).map notification) :=
  fun s => ⟨s.change, sendAll_delivers n (fun i _ => notification i) s⟩

omit [DecidableEq K] [DecidableEq V] in
theorem not_both_null (hne : sameObject current old = false) : ¬ (old = none ∧ current = none) := by
  rintro ⟨rfl, rfl⟩
  cases hne

theorem SingleMapChange.sends
    (hne : sameObject current old = false) (hok : ¬ NullsValue old current) :
    Sends (SingleMapChange.fireValueChangedEvent old current)
      ((mapChanges old current).flatMap fun c => [.onChanged 0 c]) := by
  rw [SingleMapChange.fireValueChangedEvent, hne]
  exact (send_delivers (.onChanged 0)).compareMaps (not_both_null hne) hok

theorem SingleMapChange.throws
    (hne : sameObject current old = false) (hbad : NullsValue old current) :
    Throws (SingleMapChange.fireValueChangedEvent old current) := by
  rw [SingleMapChange.fireValueChangedEvent, hne]
  exact (send_delivers (.onChanged 0)).compareMaps_throws hbad

theorem Generic.fire_eq (hne : sameObject current old = false) (invalidationSize changeSize : Nat)
    (hsz : 0 < mapChangeSize) :
    Generic.fireValueChangedEvent invalidationSize changeSize mapChangeSize old current =
      (sendAll invalidationSize fun i _ => .invalidated i) >>= fun _ =>
        (sendAll changeSize fun i _ => .changed i) >>= fun _ =>
          compareMaps (sendAll mapChangeSize .onChanged) old current := by
  rw [Generic.fireValueChangedEvent, if_neg (by omega), Generic.notifyListeners]
  simp only [hne, Bool.false_eq_true, not_false_eq_true, true_or, if_true, hsz]

theorem Generic.sends (hne : sameObject current old = false) (hok : ¬ NullsValue old current)
    (invalidationSize changeSize : Nat) (hsz : 0 < mapChangeSize) :
    Sends (Generic.fireValueChangedEvent invalidationSize changeSize mapChangeSize old current)
      (((List.range invalidationSize).map .invalidated ++ (List.range changeSize).map .changed) ++
        (mapChanges old current).flatMap fun c => (List.range mapChangeSize).map (.onChanged · c)) := by
  rw [Generic.fire_eq hne invalidationSize changeSize hsz, append_assoc]
  exact (sendAll_sends _ _).bind ((sendAll_sends _ _).bind
    ((sendAll_delivers mapChangeSize .onChanged).compareMaps (not_both_null hne) hok))

/-- Both tell all listeners the same. -/
def DeliverAlike (old current : Option (ObservableMap K V)) : Prop :=
  ∃ changes, Faithful old current changes ∧
    (∃ t, SingleMapChange.fireValueChangedEvent old current .start = .ok () t ∧
      t.deliveredTo 0 = changes) ∧
    ∀ invalidationSize changeSize mapChangeSize, 0 < mapChangeSize →
      ∃ t, Generic.fireValueChangedEvent invalidationSize changeSize mapChangeSize old current .start =
        .ok () t ∧ ∀ i < mapChangeSize, t.deliveredTo i = changes

/-- The listeners of both classes are told a minimal faithful account of the change if and only if
    no key loses its value to null. -/
theorem deliverAlike_iff {old current : Option (ObservableMap K V)}
    (hne : sameObject current old = false) :
    DeliverAlike old current ↔ ¬ NullsValue old current := by
  constructor
  · rintro ⟨changes, -, ⟨t, ht, -⟩, -⟩ hbad
    obtain ⟨e, u, hu⟩ := SingleMapChange.throws hne hbad .start
    rw [ht] at hu
    cases hu
  · intro hok
    refine ⟨mapChanges old current, mapChanges_faithful old current, ?_, ?_⟩
    · obtain ⟨c, hc⟩ := SingleMapChange.sends hne hok .start
      refine ⟨_, hc, ?_⟩
      exact deliveredTo_sendAll (n := 1) Nat.one_pos c _
    · intro invalidationSize changeSize mapChangeSize hsz
      obtain ⟨c, hc⟩ := Generic.sends hne hok invalidationSize changeSize hsz .start
      refine ⟨_, hc, fun i hi => ?_⟩
      rw [Notifying.start, nil_append, deliveredTo_append, deliveredTo_others,
        deliveredTo_sendAll hi, nil_append]

/-- Null values that stay, come and go, beside values that change. -/
theorem deliverAlike_nulls :
    DeliverAlike (some ⟨0, [(1, some 10), (2, none), (3, some 30), (5, none)], by decide⟩ :
        Option (ObservableMap Nat Nat))
      (some ⟨1, [(4, none), (2, some 20), (1, some 11), (5, none)], by decide⟩) := by
  refine (deliverAlike_iff rfl).mpr ?_
  rintro ⟨key, v, hold, hcur⟩
  have hmem := mem_of_lookup hold
  have hmem' := mem_of_lookup hcur
  simp at hmem hmem'
  omega

/-- A key that loses its value to null: `equals` is called on null. -/
theorem deliverAlike_fails :
    ¬ DeliverAlike (some ⟨0, [(1, some 10)], by decide⟩ : Option (ObservableMap Nat Nat))
      (some ⟨1, [(1, none)], by decide⟩) := by
  rintro ⟨changes, -, ⟨t, ht, -⟩, -⟩
  cases ht

end OpenJfx.Binding.MapExpressionHelper
