/-
  OpenJfx.Css.SelectorPartitioning.Basic

  `com.sun.javafx.css.SelectorPartitioning`: selectors are filed under the id, type and style
  classes of their last simple selector, and `match` walks from these keys of a node.  A `HashMap`
  is the list of its entries; the order of its `values()` is a parameter (`IterationOrder`).  Of a
  slot's partition only the key is read, so a slot has the key; the ordinal of a selector is kept
  beside it.
-/

import OpenJfx.Css.CompoundSelector
import OpenJfx.Lib.KeyedList
import OpenJfx.Lib.JavaM

namespace OpenJfx.Css

/-- The selector itself, or the last one. -/
def Selector.subject : Selector → Option SimpleSelector
  | .simple s => some s
  | .compound c => c.selectors.getLast?

/-- `PartitionKey`: the key is a name, or a set of style classes. -/
inductive PartitionKey where
  | name (s : String)
  | styleClasses (s : Finset String)
  deriving DecidableEq

def PartitionKey.wildcard : PartitionKey := .name "*"

/-- In what order the values of a `HashMap` are iterated. -/
structure IterationOrder where
  order : ∀ {V : Type}, List V → List V
  perm : ∀ {V : Type} (l : List V), (order l).Perm l

namespace SelectorPartitioning

/-- A selector with its ordinal. -/
abbrev Entry := Selector × Nat

/-- `Slot`, with the key of its partition. -/
inductive Slot where
  | mk (partitionKey : PartitionKey) (referents : List (PartitionKey × Slot))
      (selectors : List Entry)

namespace Slot

def partitionKey : Slot → PartitionKey
  | .mk key _ _ => key

def referents : Slot → List (PartitionKey × Slot)
  | .mk _ referents _ => referents

def selectors : Slot → List Entry
  | .mk _ _ selectors => selectors

def new (key : PartitionKey) : Slot := .mk key [] []

def addSelector (e : Entry) (s : Slot) : Slot :=
  .mk s.partitionKey s.referents (s.selectors ++ [e])

/-- `partition(id, map)`, and what is then done with the slot. -/
def onSlot (id : PartitionKey) (f : Slot → Slot) (s : Slot) : Slot :=
  .mk s.partitionKey (modifyOr id (Slot.new id) f s.referents) s.selectors

end Slot

/-- `Partition`. -/
structure Partition where
  key : PartitionKey
  slots : List (PartitionKey × Slot)
  selectors : List Entry

namespace Partition

def new (key : PartitionKey) : Partition := ⟨key, [], []⟩

def addSelector (e : Entry) (p : Partition) : Partition :=
  { p with selectors := p.selectors ++ [e] }

/-- `partition(id, map)`, and what is then done with the slot. -/
def onSlot (id : PartitionKey) (f : Slot → Slot) (p : Partition) : Partition :=
  { p with slots := modifyOr id (Slot.new id) f p.slots }

end Partition

end SelectorPartitioning

open SelectorPartitioning

/-- The maps by their entries, and the number of selectors added. -/
structure SelectorPartitioning where
  idMap : List (PartitionKey × Partition)
  typeMap : List (PartitionKey × Partition)
  styleClassMap : List (PartitionKey × Partition)
  ordinal : Nat

namespace SelectorPartitioning

def new : SelectorPartitioning := ⟨[], [], [], 0⟩

/-- `getPartition(key, map)`, and what is then done with the partition. -/
def onPartition (key : PartitionKey) (f : Partition → Partition)
    (map : List (PartitionKey × Partition)) : List (PartitionKey × Partition) :=
  modifyOr key (Partition.new key) f map

/-- `getPartition(key, map)` for a slot. -/
def touch (key : PartitionKey) (map : List (PartitionKey × Partition)) :
    List (PartitionKey × Partition) :=
  onPartition key id map

/-- Id, type and style classes, where given. -/
structure Keys where
  id : Option PartitionKey
  type : Option PartitionKey
  styleClasses : Option (Finset String)

/-- Empty ids and style classes give no key. -/
def keysOf (id type : Option String) (styleClasses : Option (Finset String)) : Keys where
  id := (id.filter (· ≠ "")).map .name
  type := (type.filter (· ≠ "")).map .name
  styleClasses := styleClasses.filter (0 < ·.card)

def selectorKeys (s : SimpleSelector) : Keys :=
  keysOf (some s.id) (some s.name) (some s.styleClassSet)

/-- `partition(Selector)`; without a type it is not filed. -/
def fileAt (p : SelectorPartitioning) (e : Entry) : Keys → SelectorPartitioning
  | ⟨some idKey, some typeKey, some styleClasses⟩ =>
    { p with
      idMap := onPartition idKey (Partition.onSlot typeKey
        (Slot.onSlot (.styleClasses styleClasses) (Slot.addSelector e))) p.idMap
      typeMap := touch typeKey p.typeMap
      styleClassMap := touch (.styleClasses styleClasses) p.styleClassMap }
  | ⟨some idKey, some typeKey, none⟩ =>
    { p with
      idMap := onPartition idKey (Partition.onSlot typeKey (Slot.addSelector e)) p.idMap
      typeMap := touch typeKey p.typeMap }
  | ⟨none, some typeKey, some styleClasses⟩ =>
    { p with
      typeMap := onPartition typeKey
        (Partition.onSlot (.styleClasses styleClasses) (Slot.addSelector e)) p.typeMap
      styleClassMap := touch (.styleClasses styleClasses) p.styleClassMap }
  | ⟨none, some typeKey, none⟩ =>
    { p with typeMap := onPartition typeKey (Partition.addSelector e) p.typeMap }
  | ⟨_, none, _⟩ => p

/-- The selector goes into the slot of its last part. -/
def partition (p : SelectorPartitioning) (selector : Selector) :
    Except JavaException SelectorPartitioning :=
  match selector.subject with
  | some s =>
    .ok ({ p with ordinal := p.ordinal + 1 }.fileAt (selector, p.ordinal) (selectorKeys s))
  | none => .error .indexOutOfBounds

/-! ## `match` -/

variable (order : IterationOrder)

/-- The loop over the slots of style classes. -/
def styleClassEntries (styleClasses : Option (Finset String))
    (slots : List (PartitionKey × Slot)) : List Entry :=
  match styleClasses with
  | none => []
  | some key =>
    (order.order slots).flatMap fun s =>
      match s.2.partitionKey with
      | .styleClasses other => if other ⊆ key then s.2.selectors else []
      | .name _ => []

/-- The type, and then the wildcard. -/
def typeKeys (typeKey : PartitionKey) : List PartitionKey :=
  if typeKey = .wildcard then [.wildcard] else [typeKey, .wildcard]

/-- The first round of the loop of `match`: selectors with an id. -/
def idEntries (p : SelectorPartitioning) (idKey typeKey : PartitionKey)
    (styleClasses : Option (Finset String)) : List Entry :=
  match p.idMap.lookup idKey with
  | none => []
  | some partition =>
    partition.selectors ++ (typeKeys typeKey).flatMap fun typePK =>
      match partition.slots.lookup typePK with
      | none => []
      | some slot => slot.selectors ++ styleClassEntries order styleClasses slot.referents

/-- The second round: selectors without an id. -/
def typeEntries (p : SelectorPartitioning) (typeKey : PartitionKey)
    (styleClasses : Option (Finset String)) : List Entry :=
  (typeKeys typeKey).flatMap fun typePK =>
    match p.typeMap.lookup typePK with
    | none => []
    | some partition =>
      partition.selectors ++ styleClassEntries order styleClasses partition.slots

/-- What the loop of `match` collects; without a type nothing is found. -/
def collect (p : SelectorPartitioning) : Keys → List Entry
  | ⟨some idKey, some typeKey, styleClasses⟩ =>
    p.idEntries order idKey typeKey styleClasses ++ p.typeEntries order typeKey styleClasses
  | ⟨none, some typeKey, styleClasses⟩ => p.typeEntries order typeKey styleClasses
  | ⟨_, none, _⟩ => []

/-- `match`: what was collected, sorted by ordinal. -/
def match_ (p : SelectorPartitioning) (selectorId selectorType : Option String)
    (selectorStyleClass : Option (Finset String)) : List Entry :=
  (p.collect order (keysOf selectorId selectorType selectorStyleClass)).mergeSort
    fun a b => decide (a.2 ≤ b.2)

end SelectorPartitioning

end OpenJfx.Css
