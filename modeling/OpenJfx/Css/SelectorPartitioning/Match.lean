/-
  OpenJfx.Css.SelectorPartitioning.Match

  `match` agrees with a scan over all selectors that were filed.
-/

import OpenJfx.Css.SelectorPartitioning.Basic

namespace OpenJfx.Css.SelectorPartitioning

open List Option

variable {styleClasses : Option (Finset String)} {order : IterationOrder} {e : Entry}

/-- No id or type but the query's, and only its style classes. -/
def Accepts (id type : Option String) (styleClasses : Option (Finset String))
    (s : SimpleSelector) : Prop :=
  (s.id = "" ∨ id = some s.id) ∧ (s.name = "*" ∨ type = some s.name) ∧
    s.styleClassSet ⊆ styleClasses.getD ∅

instance (id type : Option String) (styleClasses : Option (Finset String)) (s : SimpleSelector) :
    Decidable (Accepts id type styleClasses s) :=
  inferInstanceAs (Decidable (_ ∧ _))

/-- Every slot of a map is under the key of its partition. -/
def KeyedSlots (slots : List (PartitionKey × Slot)) : Prop :=
  ∀ s ∈ slots, s.2.partitionKey = s.1

/-- Every slot stands under the key that it has. -/
structure Keyed (p : SelectorPartitioning) : Prop where
  types : ∀ t ∈ p.typeMap, KeyedSlots t.2.slots
  ids : ∀ i ∈ p.idMap, ∀ t ∈ i.2.slots, KeyedSlots t.2.referents

/-! ## What a query collects grows by the filed selector -/

/-- The style classes are among those of the query. -/
def classesMatch (query : Option (Finset String)) (styleClasses : Finset String) : Prop :=
  ∃ key ∈ query, styleClasses ⊆ key

instance (query : Option (Finset String)) (styleClasses : Finset String) :
    Decidable (classesMatch query styleClasses) :=
  inferInstanceAs (Decidable (∃ key ∈ query, styleClasses ⊆ key))

variable {slots : List (PartitionKey × Slot)} {α : Type} {id : Option String}
  {p : SelectorPartitioning}

theorem keyedSlots_onSlot {key : PartitionKey} {f : Slot → Slot}
    (h : KeyedSlots slots) (hf : ∀ s, (f s).partitionKey = s.partitionKey) :
    KeyedSlots (modifyOr key (Slot.new key) f slots) :=
  forall_modifyOr (P := fun (k : PartitionKey) (s : Slot) => s.partitionKey = k) h
    (fun s hs => (hf s).trans hs) rfl

/-- Those of a slot whose style classes are all in `key`. -/
def Slot.entriesFor (key : Finset String) (s : Slot) : List Entry :=
  match s.partitionKey with
  | .styleClasses other => if other ⊆ key then s.selectors else []
  | .name _ => []

theorem styleClassEntries_addSelector {query : Option (Finset String)}
    {styleClasses : Finset String} (h : KeyedSlots slots) :
    (styleClassEntries order query (modifyOr (.styleClasses styleClasses)
      (Slot.new (.styleClasses styleClasses)) (Slot.addSelector e) slots)).Perm
      (styleClassEntries order query slots ++
        if classesMatch query styleClasses then [e] else []) := by
  cases query with
  | none => simp [styleClassEntries, classesMatch]
  | some key =>
    have hmatch : classesMatch (some key) styleClasses ↔ styleClasses ⊆ key := by
      simp [classesMatch]
    simp only [styleClassEntries, hmatch]
    have horder : ∀ m : List (PartitionKey × Slot), ((order.order m).flatMap fun s =>
        s.2.entriesFor key).Perm (m.flatMap fun s => s.2.entriesFor key) :=
      fun m => (order.perm m).flatMap_right _
    apply (horder _).trans
    apply List.Perm.trans _ ((horder slots).symm.append_right _)
    apply flatMap_modifyOr (P := fun k (s : Slot) => s.partitionKey = k) (g := Slot.entriesFor key)
      h
    · intro s hs
      simp only [Slot.entriesFor, show (Slot.addSelector e s).partitionKey = s.partitionKey from rfl,
        hs]
      split
      · exact List.Perm.refl _
      · exact List.Perm.refl _
    · rfl
    · simp only [Slot.entriesFor, Slot.new, Slot.partitionKey, Slot.selectors, ite_self]

/-- What a query finds at a slot under a type, in the partition of an id. -/
def slotEntries (order : IterationOrder) (query : Option (Finset String)) (slot : Slot) :
    List Entry :=
  slot.selectors ++ styleClassEntries order query slot.referents

/-- What a query finds at the partition of a type. -/
def partitionEntries (order : IterationOrder) (query : Option (Finset String))
    (partition : Partition) : List Entry :=
  partition.selectors ++ styleClassEntries order query partition.slots

/-- What a query finds at the partition of an id. -/
def idPartitionEntries (order : IterationOrder) (query : Option (Finset String))
    (typeKey : PartitionKey) (partition : Partition) : List Entry :=
  partition.selectors ++
    (typeKeys typeKey).flatMap (collectAt (slotEntries order query) partition.slots)

theorem typeEntries_eq (p : SelectorPartitioning) (typeKey : PartitionKey)
    (query : Option (Finset String)) : p.typeEntries order typeKey query
      = (typeKeys typeKey).flatMap (collectAt (partitionEntries order query) p.typeMap) := by
  rw [typeEntries]
  congr 1
  funext typePK
  rw [collectAt]
  cases p.typeMap.lookup typePK <;> rfl

theorem idEntries_eq (p : SelectorPartitioning) (idKey typeKey : PartitionKey)
    (query : Option (Finset String)) : p.idEntries order idKey typeKey query
      = [idKey].flatMap (collectAt (idPartitionEntries order query typeKey) p.idMap) := by
  rw [flatMap_singleton, idEntries, collectAt]
  cases p.idMap.lookup idKey with
  | none => rfl
  | some partition =>
    dsimp only
    rw [idPartitionEntries]
    congr 2
    funext typePK
    rw [collectAt]
    cases partition.slots.lookup typePK <;> rfl

theorem styleClassEntries_nil (query : Option (Finset String)) :
    styleClassEntries order query [] = [] := by
  cases query with
  | none => rfl
  | some key => rw [styleClassEntries, perm_nil.mp (order.perm []), flatMap_nil]

theorem typeKeys_nodup (typeKey : PartitionKey) : (typeKeys typeKey).Nodup := by
  rw [typeKeys]
  split
  · exact nodup_singleton _
  · next h => simp [h]

theorem mem_typeKeys {typeKey k : PartitionKey} :
    k ∈ typeKeys typeKey ↔ k = .wildcard ∨ k = typeKey := by
  rw [typeKeys]
  split
  · next h => simp [h]
  · simp [or_comm]

theorem perm_append_grow {a b b' extra : List α} (h : b'.Perm (b ++ extra)) :
    (a ++ b').Perm (a ++ b ++ extra) := by
  rw [append_assoc]
  exact h.append_left a

theorem perm_grow_append {a a' b extra : List α} (h : a'.Perm (a ++ extra)) :
    (a' ++ b).Perm (a ++ b ++ extra) := by
  apply (h.append_right b).trans
  rw [append_assoc, append_assoc]
  exact List.Perm.append_left a perm_append_comm

section Growth

variable {query : Option (Finset String)} {typeKey k idKey queryId : PartitionKey}
  {p : SelectorPartitioning} {extra : List Entry}

theorem typeEntries_onPartition {f : Partition → Partition} (h : Keyed p)
    (hf : ∀ partition, KeyedSlots partition.slots → (partitionEntries order query (f partition)).Perm
      (partitionEntries order query partition ++ extra)) :
    (({ p with typeMap := onPartition k f p.typeMap } : SelectorPartitioning).typeEntries order
      typeKey query).Perm (p.typeEntries order typeKey query ++
        if k ∈ typeKeys typeKey then extra else []) := by
  rw [typeEntries_eq, typeEntries_eq]
  apply flatMap_collectAt_modifyOr (P := fun partition => KeyedSlots partition.slots) h.types hf
  · nofun
  · rw [partitionEntries, Partition.new, styleClassEntries_nil]
    rfl
  · exact typeKeys_nodup typeKey

/-- A partition of the id map whose slot for a type is changed. -/
theorem idEntries_onPartition {f : Slot → Slot} (h : Keyed p)
    (hf : ∀ slot, KeyedSlots slot.referents → (slotEntries order query (f slot)).Perm
      (slotEntries order query slot ++ extra)) :
    (({ p with idMap := onPartition idKey (Partition.onSlot k f) p.idMap } :
      SelectorPartitioning).idEntries order queryId typeKey query).Perm
      (p.idEntries order queryId typeKey query ++
        if idKey ∈ [queryId] then if k ∈ typeKeys typeKey then extra else [] else []) := by
  rw [idEntries_eq, idEntries_eq]
  apply flatMap_collectAt_modifyOr
    (P := fun partition => ∀ t ∈ partition.slots, KeyedSlots t.2.referents) h.ids
  · intro partition hslots
    apply perm_append_grow
    apply flatMap_collectAt_modifyOr (P := fun slot => KeyedSlots slot.referents) hslots hf
    · nofun
    · rw [slotEntries, Slot.new, Slot.referents, styleClassEntries_nil]
      rfl
    · exact typeKeys_nodup typeKey
  · nofun
  · rw [idPartitionEntries, Partition.new]
    simp [collectAt]
  · exact nodup_singleton _

theorem typeEntries_touch (h : Keyed p) :
    (({ p with typeMap := touch k p.typeMap } : SelectorPartitioning).typeEntries order
      typeKey query).Perm (p.typeEntries order typeKey query) := by
  have := @typeEntries_onPartition order query typeKey k _ _ id h fun partition _ => by
      rw [append_nil]
      exact List.Perm.refl _
  rwa [ite_self, append_nil] at this

/-! ## The places a selector can be filed at -/

theorem slotEntries_addSelector (slot : Slot) : (slotEntries order query (slot.addSelector e)).Perm
    (slotEntries order query slot ++ [e]) :=
  perm_grow_append (List.Perm.refl _)

theorem slotEntries_onSlot {styleClasses : Finset String} (slot : Slot)
    (h : KeyedSlots slot.referents) :
    (slotEntries order query (slot.onSlot (.styleClasses styleClasses) (Slot.addSelector e))).Perm
      (slotEntries order query slot ++ if classesMatch query styleClasses then [e] else []) :=
  perm_append_grow (styleClassEntries_addSelector h)

theorem partitionEntries_addSelector (partition : Partition) :
    (partitionEntries order query (partition.addSelector e)).Perm
      (partitionEntries order query partition ++ [e]) :=
  perm_grow_append (List.Perm.refl _)

theorem partitionEntries_onSlot {styleClasses : Finset String} (partition : Partition)
    (h : KeyedSlots partition.slots) :
    (partitionEntries order query
      (partition.onSlot (.styleClasses styleClasses) (Slot.addSelector e))).Perm
      (partitionEntries order query partition ++
        if classesMatch query styleClasses then [e] else []) :=
  perm_append_grow (styleClassEntries_addSelector h)

end Growth

/-- A selector with the keys `k` is found by a query with the keys `q`. -/
def Hits (q k : Keys) : Prop :=
  (k.id = none ∨ k.id = q.id) ∧ (k.type = some .wildcard ∨ k.type = q.type) ∧
    ∀ styleClasses ∈ k.styleClasses, classesMatch q.styleClasses styleClasses

instance (q k : Keys) : Decidable (Hits q k) := by
  unfold Hits
  infer_instance

section File

variable {p : SelectorPartitioning} {qid : Option PartitionKey} {query : Option (Finset String)}
  {queryType typeKey idKey : PartitionKey} {styleClasses : Option (Finset String)}

theorem ite_ite_singleton {a b : Prop} [Decidable a] [Decidable b] (x : α) :
    (if a then if b then [x] else [] else []) = if a ∧ b then [x] else [] := by
  by_cases ha : a <;> simp [ha]

theorem hits_iff_of_type : Hits ⟨qid, some queryType, query⟩ ⟨none, some typeKey, styleClasses⟩ ↔
    typeKey ∈ typeKeys queryType ∧ ∀ c ∈ styleClasses, classesMatch query c := by
  rw [Hits, mem_typeKeys]
  simp

theorem hits_iff_of_id : Hits ⟨qid, some queryType, query⟩ ⟨some idKey, some typeKey, styleClasses⟩ ↔
    some idKey = qid ∧ typeKey ∈ typeKeys queryType ∧ ∀ c ∈ styleClasses, classesMatch query c := by
  rw [Hits, mem_typeKeys]
  simp

theorem collect_of_type {p' : SelectorPartitioning} {extra : List Entry} (hid : p'.idMap = p.idMap)
    (htype : (p'.typeEntries order queryType query).Perm
      (p.typeEntries order queryType query ++ extra)) :
    (p'.collect order ⟨qid, some queryType, query⟩).Perm
      (p.collect order ⟨qid, some queryType, query⟩ ++ extra) := by
  cases qid with
  | none => exact htype
  | some queryId =>
    rw [collect, collect, idEntries_eq, idEntries_eq, hid]
    exact perm_append_grow htype

/-- With an id: what is found with the id grows, for a query with that id. -/
theorem collect_of_id {p' : SelectorPartitioning} {extra : List Entry}
    (hid : ∀ queryId, (p'.idEntries order queryId queryType query).Perm
      (p.idEntries order queryId queryType query ++ if idKey ∈ [queryId] then extra else []))
    (htype : (p'.typeEntries order queryType query).Perm (p.typeEntries order queryType query)) :
    (p'.collect order ⟨qid, some queryType, query⟩).Perm
      (p.collect order ⟨qid, some queryType, query⟩ ++ if some idKey = qid then extra else []) := by
  cases qid with
  | none =>
    rw [if_neg (by simp), append_nil]
    exact htype
  | some queryId =>
    have := hid queryId
    simp only [mem_singleton] at this
    simp only [Option.some.injEq]
    rw [collect, collect]
    exact (this.append htype).trans (perm_grow_append (List.Perm.refl _))

/-- Filing a selector adds it to what the queries collect that find it. -/
theorem collect_fileAt (h : Keyed p) (e : Entry) {k : Keys} (hk : k.type.isSome) :
    ((p.fileAt e k).collect order ⟨qid, some queryType, query⟩).Perm
      (p.collect order ⟨qid, some queryType, query⟩ ++
        if Hits ⟨qid, some queryType, query⟩ k then [e] else []) := by
  obtain ⟨idKey, typeKey, styleClasses⟩ := k
  obtain ⟨typeKey, rfl⟩ := isSome_iff_exists.mp hk
  cases idKey with
  | none =>
    simp only [hits_iff_of_type]
    cases styleClasses with
    | none =>
      have hgrow := @typeEntries_onPartition order query queryType typeKey _ _ _ h
        fun partition _ => partitionEntries_addSelector (e := e) partition
      simp only [mem_def, reduceCtorEq, false_imp_iff, implies_true, and_true]
      exact collect_of_type (p := p) rfl hgrow
    | some c =>
      have hgrow := @typeEntries_onPartition order query queryType typeKey _ _ _ h
        fun partition hp => @partitionEntries_onSlot _ e _ c partition hp
      rw [ite_ite_singleton] at hgrow
      simp only [mem_def, Option.some.injEq, forall_eq']
      exact collect_of_type (p := p) rfl hgrow
  | some idKey =>
    simp only [hits_iff_of_id]
    cases styleClasses with
    | none =>
      have hid := fun queryId => @idEntries_onPartition order query queryType typeKey idKey queryId
          _ _ _ h
        fun slot _ => slotEntries_addSelector (e := e) slot
      have hgrow := @collect_of_id _ p qid _ _ _ (p.fileAt e ⟨some idKey, some typeKey, none⟩) _ hid
          (typeEntries_touch h)
      rw [ite_ite_singleton] at hgrow
      simp only [mem_def, reduceCtorEq, false_imp_iff, implies_true, and_true]
      exact hgrow
    | some c =>
      have hid := fun queryId => @idEntries_onPartition order query queryType typeKey idKey queryId
          _ _ _ h
        fun slot hs => @slotEntries_onSlot _ e _ c slot hs
      have hgrow := @collect_of_id _ p qid _ _ _ (p.fileAt e ⟨some idKey, some typeKey, some c⟩) _
          hid (typeEntries_touch h)
      rw [ite_ite_singleton, ite_ite_singleton] at hgrow
      simp only [mem_def, Option.some.injEq, forall_eq']
      exact hgrow

theorem Keyed.fileAt (h : Keyed p) (e : Entry) (k : Keys) : Keyed (p.fileAt e k) := by
  have htouch : ∀ typeKey, ∀ t ∈ touch typeKey p.typeMap, KeyedSlots t.2.slots := fun typeKey =>
    forall_modifyOr (P := fun _ (partition : Partition) => KeyedSlots partition.slots) h.types
      (fun _ hp => hp) nofun
  obtain ⟨_ | idKey, _ | typeKey, _ | c⟩ := k
  · exact h
  · exact h
  · refine ⟨?_, h.ids⟩
    exact forall_modifyOr (P := fun _ (partition : Partition) => KeyedSlots partition.slots) h.types
      (fun _ hp => hp) nofun
  · refine ⟨?_, h.ids⟩
    exact forall_modifyOr (P := fun _ (partition : Partition) => KeyedSlots partition.slots) h.types
      (fun _ hp => keyedSlots_onSlot hp fun _ => rfl) nofun
  · exact h
  · exact h
  · refine ⟨htouch typeKey, ?_⟩
    apply forall_modifyOr (P := fun _ (partition : Partition) =>
      ∀ t ∈ partition.slots, KeyedSlots t.2.referents) h.ids
    · intro partition hp
      exact forall_modifyOr (P := fun _ (slot : Slot) => KeyedSlots slot.referents) hp
        (fun _ hs => hs) nofun
    · nofun
  · refine ⟨htouch typeKey, ?_⟩
    apply forall_modifyOr (P := fun _ (partition : Partition) =>
      ∀ t ∈ partition.slots, KeyedSlots t.2.referents) h.ids
    · intro partition hp
      exact forall_modifyOr (P := fun _ (slot : Slot) => KeyedSlots slot.referents) hp
        (fun _ hs => keyedSlots_onSlot hs fun _ => rfl) nofun
    · nofun

end File

/-! ## Sequences of selectors -/

theorem nameKey_eq (name : Option String) : (name.filter (· ≠ "")).map PartitionKey.name
      = if name = none ∨ name = some "" then none else name.map .name := by
  cases name with
  | none => rfl
  | some n => by_cases hn : n = "" <;> simp [Option.filter, hn]

theorem hits_iff_accepts {type : String} {s : SimpleSelector} (hname : s.name ≠ "")
    (htype : type ≠ "") :
    Hits (keysOf id (some type) styleClasses) (selectorKeys s) ↔
      Accepts id (some type) styleClasses s := by
  have hids : ((selectorKeys s).id = none ∨
      (selectorKeys s).id = (keysOf id (some type) styleClasses).id) ↔
      (s.id = "" ∨ id = some s.id) := by
    simp only [selectorKeys, keysOf, nameKey_eq]
    by_cases hs : s.id = ""
    · simp [hs]
    · cases id with
      | none => simp [hs]
      | some i => by_cases hi : i = "" <;> simp [hs, hi, eq_comm]
  have htypes : ((selectorKeys s).type = some .wildcard ∨
      (selectorKeys s).type = (keysOf id (some type) styleClasses).type) ↔
      (s.name = "*" ∨ some type = some s.name) := by
    simp only [selectorKeys, keysOf, nameKey_eq]
    simp [hname, htype, PartitionKey.wildcard, eq_comm]
  have hcls : (∀ c ∈ (selectorKeys s).styleClasses,
      classesMatch (keysOf id (some type) styleClasses).styleClasses c) ↔
      s.styleClassSet ⊆ styleClasses.getD ∅ := by
    simp only [selectorKeys, keysOf, classesMatch, mem_def, filter_eq_some_iff,
      Option.some.injEq, decide_eq_true_eq, Finset.card_pos]
    constructor
    · intro h
      by_cases hemp : s.styleClassSet.Nonempty
      · obtain ⟨key, ⟨hkey, -⟩, hsub⟩ := h _ ⟨rfl, hemp⟩
        rw [hkey]
        exact hsub
      · rw [Finset.not_nonempty_iff_eq_empty.mp hemp]
        exact Finset.empty_subset _
    · rintro hsub c ⟨rfl, hne⟩
      -- the classes of the query are not empty either
      obtain ⟨x, hx⟩ := hne
      have hx' := hsub hx
      cases styleClasses with
      | none => cases hx'
      | some key => exact ⟨key, ⟨rfl, x, hx'⟩, hsub⟩
  rw [Hits, Accepts, hids, htypes, hcls]

/-- `partition` for each selector of a list, in order. -/
def partitionAll (selectors : List Selector) : Except JavaException SelectorPartitioning :=
  selectors.foldlM partition new

/-- The last simple selector has a type name. -/
def HasType (selector : Selector) : Prop := ∃ s, selector.subject = some s ∧ s.name ≠ ""

/-- The selectors of a list that a scan accepts, with their positions. -/
def scan (selectors : List Selector) (id type : Option String)
    (styleClasses : Option (Finset String)) : List Entry :=
  selectors.zipIdx.filter fun e => e.1.subject.any fun s => decide (Accepts id type styleClasses s)

/-- Every query collects what a scan of `done` accepts. -/
structure Filed (done : List Selector) (p : SelectorPartitioning) : Prop where
  keyed : Keyed p
  ordinal : p.ordinal = done.length
  collects : ∀ (order : IterationOrder) (id : Option String) (type : String)
    (styleClasses : Option (Finset String)), type ≠ "" →
    (p.collect order (keysOf id (some type) styleClasses)).Perm
      (scan done id (some type) styleClasses)

theorem keysOf_eq {type : String} (htype : type ≠ "") : keysOf id (some type) styleClasses
      = ⟨(keysOf id (some type) styleClasses).id, some (.name type),
        (keysOf id (some type) styleClasses).styleClasses⟩ := by
  simp only [keysOf, nameKey_eq]
  simp [htype]

theorem filed_new : Filed [] new := by
  refine ⟨⟨nofun, nofun⟩, rfl, ?_⟩
  intro order id type styleClasses htype
  have hnone : ∀ qid query, new.collect order ⟨qid, some (.name type), query⟩ = [] := by
    intro qid query
    cases qid <;> simp [collect, idEntries, typeEntries, new]
  rw [keysOf_eq htype, hnone]
  exact List.Perm.refl _

theorem fileAt_ordinal (p : SelectorPartitioning) (e : Entry) (k : Keys) :
    (p.fileAt e k).ordinal = p.ordinal := by
  obtain ⟨_ | idKey, _ | typeKey, _ | c⟩ := k <;> rfl

theorem Filed.partition {done : List Selector} (h : Filed done p)
    {selector : Selector} (hselector : HasType selector) :
    ∃ p', p.partition selector = .ok p' ∧ Filed (done ++ [selector]) p' := by
  obtain ⟨s, hs, hname⟩ := hselector
  have hkeyed : Keyed { p with ordinal := p.ordinal + 1 } := ⟨h.keyed.types, h.keyed.ids⟩
  refine ⟨_, by rw [SelectorPartitioning.partition, hs], hkeyed.fileAt _ _, ?_, ?_⟩
  · rw [fileAt_ordinal, h.ordinal, length_append]
    rfl
  · intro order id type styleClasses htype
    have hkeys : (selectorKeys s).type.isSome := by
      rw [selectorKeys, keysOf_eq hname]
      rfl
    have hgrow := @collect_fileAt order _ ((keysOf id (some type) styleClasses).id)
        ((keysOf id (some type) styleClasses).styleClasses) (.name type) hkeyed
        (selector, p.ordinal) _ hkeys
    rw [← keysOf_eq htype] at hgrow
    simp only [hits_iff_accepts hname htype] at hgrow
    have hscan : scan (done ++ [selector]) id (some type) styleClasses
        = scan done id (some type) styleClasses ++
          if Accepts id (some type) styleClasses s then [(selector, p.ordinal)] else [] := by
      rw [scan, zipIdx_append, filter_append, h.ordinal, Nat.zero_add]
      congr 1
      by_cases hacc : Accepts id (some type) styleClasses s <;> simp [hs, hacc]
    rw [hscan]
    exact hgrow.trans ((h.collects order id type styleClasses htype).append_right _)

theorem filed_partitionAll {selectors done : List Selector}
    (h : Filed done p) (htypes : ∀ selector ∈ selectors, HasType selector) :
    ∃ p', selectors.foldlM SelectorPartitioning.partition p = .ok p' ∧
      Filed (done ++ selectors) p' := by
  induction selectors generalizing done p with
  | nil => exact ⟨p, rfl, by rwa [append_nil]⟩
  | cons selector selectors ih =>
    obtain ⟨p1, hp1, h1⟩ := h.partition (htypes selector mem_cons_self)
    obtain ⟨p', hp', h'⟩ := ih h1 fun x hx => htypes x (mem_cons_of_mem _ hx)
    refine ⟨p', ?_, by simpa using h'⟩
    rw [foldlM_cons, hp1]
    exact hp'

theorem scan_sorted (selectors : List Selector) (id type : Option String)
    (styleClasses : Option (Finset String)) :
    (scan selectors id type styleClasses).Pairwise fun a b => a.2 < b.2 := by
  apply List.Pairwise.filter
  have hsort : (selectors.zipIdx.map Prod.snd).Pairwise (· < ·) := by
    rw [zipIdx_map_snd, ← range_eq_range']
    exact pairwise_lt_range
  exact pairwise_map.mp hsort

theorem mergeSort_eq_scan {selectors : List Selector} {type : Option String} {l : List Entry}
    (h : l.Perm (scan selectors id type styleClasses)) :
    l.mergeSort (fun a b => decide (a.2 ≤ b.2)) = scan selectors id type styleClasses := by
  have hscan := scan_sorted selectors id type styleClasses
  apply List.Perm.eq_of_pairwise
  · intro a b ha hb hab hba
    -- an entry is the selector at its position
    have hget : ∀ x, x ∈ l.mergeSort (fun a b => decide (a.2 ≤ b.2)) ∨
        x ∈ scan selectors id type styleClasses → selectors[x.2]? = some x.1 := by
      intro x hx
      have hx : x ∈ scan selectors id type styleClasses :=
        hx.elim (fun hx => h.mem_iff.mp (mem_mergeSort.mp hx)) fun hx => hx
      exact mem_zipIdx_iff_getElem?.mp (mem_filter.mp hx).1
    have hpos : a.2 = b.2 := Nat.le_antisymm hab hba
    have hselector : some a.1 = some b.1 := by
      rw [← hget a (Or.inl ha), ← hget b (Or.inr hb), hpos]
    exact Prod.ext (some.inj hselector) hpos
  · have := @pairwise_mergeSort _ (fun a b : Entry => decide (a.2 ≤ b.2))
      (by simp only [decide_eq_true_eq]; intro a b c; exact Nat.le_trans)
      (by simp only [Bool.or_eq_true, decide_eq_true_eq]; intro a b; exact Nat.le_total _ _) l
    exact this.imp of_decide_eq_true
  · exact hscan.imp Nat.le_of_lt
  · exact (List.mergeSort_perm _ _).trans h

/-- What a plain scan accepts, once and in order. -/
theorem match_eq_scan (order : IterationOrder) (selectors : List Selector)
    (htypes : ∀ selector ∈ selectors, HasType selector) (id : Option String) (type : String)
    (htype : type ≠ "") (styleClasses : Option (Finset String)) :
    ∃ p, partitionAll selectors = .ok p ∧
      p.match_ order id (some type) styleClasses = scan selectors id (some type) styleClasses := by
  obtain ⟨p, hp, hfiled⟩ := filed_partitionAll filed_new htypes
  rw [nil_append] at hfiled
  exact ⟨p, hp, mergeSort_eq_scan (hfiled.collects order id type styleClasses htype)⟩

/-- A selector by type and class, one by id, and one for every node. -/
theorem match_eq_scan_three :
    let selectors : List Selector := [.simple ⟨"Label", {"a"}, "", ∅, .inherit⟩,
      .compound ⟨[⟨"Pane", ∅, "", ∅, .inherit⟩, ⟨"*", {"a", "b"}, "x", ∅, .inherit⟩], [.child], rfl⟩,
      .simple ⟨"*", ∅, "", ∅, .inherit⟩]
    ∃ p, partitionAll selectors = .ok p ∧
      p.match_ ⟨List.reverse, reverse_perm⟩ (some "x") (some "Label") (some {"a"})
        = scan selectors (some "x") (some "Label") (some {"a"}) := by
  apply match_eq_scan
  · intro selector hselector
    simp only [mem_cons, not_mem_nil, or_false] at hselector
    rcases hselector with rfl | rfl | rfl
    · exact ⟨_, rfl, by decide⟩
    · exact ⟨_, rfl, by decide⟩
    · exact ⟨_, rfl, by decide⟩
  · decide

end OpenJfx.Css.SelectorPartitioning
