/-
  OpenJfx.Css.BitSet.Basic

  Model of `com.sun.javafx.css.BitSet`, the sets of pseudo-classes and style
  classes, as arrays of 64-bit words.

  Representation choices:

    * the elements are numbered by the subclass: `Numbering` gives `getT` and
      `getIndex`, which are inverse to each other;
    * a collection argument is `none` when it is null or not of the same class;
    * a call gives its result, the changes the listeners are told of, in order,
      and the set afterwards.
-/

import OpenJfx.Lib.JavaM
import OpenJfx.Lib.WordBits

namespace OpenJfx.Css

open List

/-- `getT` and `getIndex` of a subclass. -/
structure Numbering (T : Type) where
  getT : Nat → T
  getIndex : T → Nat
  getT_getIndex : ∀ t, getT (getIndex t) = t
  getIndex_getT : ∀ i, getIndex (getT i) = i

/-- The fields of a `BitSet`, with what it asks of its listener helper. -/
structure BitSet where
  bits : List Word
  hasListeners : Bool
  deriving DecidableEq, Repr

namespace BitSet

/-- `BitSet.Change`. -/
structure Change (T : Type) where
  element : T
  removed : Bool
  deriving DecidableEq, Repr

/-- What a call does. -/
structure Outcome (T : Type) where
  result : Bool
  told : List (Change T)
  after : BitSet

variable {T : Type}

def new : BitSet := ⟨[], false⟩

/-- `Long.bitCount`. -/
def bitCount (w : Word) : Nat := ((range 64).filter w.getLsbD).length

/-- The bits are counted word by word. -/
def size (s : BitSet) : Nat := (s.bits.map bitCount).sum

/-- Every word is zero. -/
def isEmpty (s : BitSet) : Bool := s.bits.all (· == 0#64)

/-- `1l << (getIndex(t) % Long.SIZE)`. -/
def bit (i : Nat) : Word := 1#64 <<< (i % 64)

/-- `notifyObservers` for every bit of `words`, word by word. -/
def notifyObservers (N : Numbering T) (s : BitSet) (removed : Bool) (words : List Word) :
    List (Change T) :=
  if s.hasListeners then
    (range words.length).flatMap fun n =>
      ((range 64).filter fun b => 1#64 <<< b &&& wordAt words n == 1#64 <<< b).map fun b =>
        ⟨N.getT (64 * n + b), removed⟩
  else []

/-! ## One element -/

/-- The array grows up to the word of the element. -/
def add (N : Numbering T) (s : BitSet) (t : Option T) : Outcome T :=
  match t with
  | none => ⟨false, [], s⟩
  | some t =>
    let element := N.getIndex t / 64
    let bits := s.bits ++ replicate (element + 1 - s.bits.length) 0#64
    let temp := wordAt bits element
    let bits := bits.set element (temp ||| bit (N.getIndex t))
    let modified := wordAt bits element != temp
    ⟨modified, if modified && s.hasListeners then [⟨t, false⟩] else [], { s with bits := bits }⟩

/-- An array of zero words is replaced by an empty one. -/
def remove (N : Numbering T) (s : BitSet) (t : Option T) : Outcome T :=
  match t with
  | none => ⟨false, [], s⟩
  | some t =>
    let element := N.getIndex t / 64
    if s.bits.length ≤ element then ⟨false, [], s⟩
    else
      let temp := wordAt s.bits element
      let bits := s.bits.set element (temp &&& ~~~bit (N.getIndex t))
      if wordAt bits element != temp then
        ⟨true, if s.hasListeners then [⟨t, true⟩] else [],
          { s with bits := if bits.all (· == 0#64) then [] else bits }⟩
      else ⟨false, [], { s with bits := bits }⟩

/-- Beyond the array there is nothing. -/
def contains (N : Numbering T) (s : BitSet) (t : Option T) : Bool :=
  match t with
  | none => false
  | some t =>
    let element := N.getIndex t / 64
    decide (element < s.bits.length) &&
      wordAt s.bits element &&& bit (N.getIndex t) == bit (N.getIndex t)

/-! ## Two sets -/

/-- A longer array is not contained. -/
def containsAll (s : BitSet) (c : Option BitSet) : Bool :=
  match c with
  | none => false
  | some other =>
    if s.bits.length = 0 ∧ other.bits.length = 0 then true
    else if s.bits.length < other.bits.length then false
    else (range other.bits.length).all fun n =>
      wordAt s.bits n &&& wordAt other.bits n == wordAt other.bits n

section Words

variable (s other : BitSet)

/-- The larger length of the two arrays. -/
def maxLength : Nat :=
  if s.bits.length < other.bits.length then other.bits.length else s.bits.length

/-- The smaller length of the two arrays. -/
def minLength : Nat :=
  if s.bits.length < other.bits.length then s.bits.length else other.bits.length

/-- `union` of `addAll`. -/
def union : List Word :=
  (range (maxLength s other)).map fun n =>
    if n < s.bits.length ∧ n < other.bits.length then wordAt s.bits n ||| wordAt other.bits n
    else if n < s.bits.length then wordAt s.bits n
    else wordAt other.bits n

/-- `modified` of `addAll`. -/
def unionModified : Bool :=
  (range (maxLength s other)).any fun n =>
    if n < s.bits.length ∧ n < other.bits.length then wordAt (union s other) n != wordAt s.bits n
    else if n < s.bits.length then false
    else true

/-- `bitsAdded` of `addAll`; the words that only the receiver has are skipped. -/
def bitsAdded : List Word :=
  (range (maxLength s other)).map fun n =>
    if n < s.bits.length ∧ n < other.bits.length then ~~~wordAt s.bits n &&& wordAt other.bits n
    else if n < s.bits.length then 0#64
    else wordAt other.bits n

/-- `intersection` of `retainAll`. -/
def intersection : List Word :=
  (range (minLength s other)).map fun n => wordAt s.bits n &&& wordAt other.bits n

/-- `modified` of `retainAll`. -/
def intersectionModified : Bool :=
  decide (s.bits.length > minLength s other) || (range (minLength s other)).any fun n =>
      wordAt (intersection s other) n != wordAt s.bits n

/-- `bitsRemoved` of `retainAll`. -/
def bitsNotRetained : List Word :=
  (range s.bits.length).map fun n =>
    if n < other.bits.length then wordAt s.bits n &&& ~~~wordAt other.bits n else wordAt s.bits n

/-- `difference` of `removeAll`. -/
def difference : List Word :=
  (range (minLength s other)).map fun n => wordAt s.bits n &&& ~~~wordAt other.bits n

/-- `modified` of `removeAll`. -/
def differenceModified : Bool :=
  (range (minLength s other)).any fun n => wordAt (difference s other) n != wordAt s.bits n

/-- The words of what leaves, up to the shorter array. -/
def bitsRemoved : List Word :=
  (range (minLength s other)).map fun n => wordAt s.bits n &&& wordAt other.bits n

end Words

/-- A longer array counts as a modification. -/
def addAll (N : Numbering T) (s : BitSet) (c : Option BitSet) : Outcome T :=
  match c with
  | none => ⟨false, [], s⟩
  | some other =>
    if unionModified s other then
      ⟨true, s.notifyObservers N false (bitsAdded s other), { s with bits := union s other }⟩
    else ⟨false, [], s⟩

/-- `clear()`; it has no result. -/
def clear (N : Numbering T) (s : BitSet) : List (Change T) × BitSet :=
  (s.notifyObservers N true s.bits, { s with bits := [] })

/-- A null argument clears the set. -/
def retainAll (N : Numbering T) (s : BitSet) (c : Option BitSet) : Outcome T :=
  match c with
  | none => ⟨true, (s.clear N).1, (s.clear N).2⟩
  | some other =>
    if intersectionModified s other then
      ⟨true, s.notifyObservers N true (bitsNotRetained s other),
        { s with
          bits := if (intersection s other).all (· == 0#64) then [] else intersection s other }⟩
    else ⟨false, [], s⟩

/-- The words beyond the shorter array are dropped. -/
def removeAll (N : Numbering T) (s : BitSet) (c : Option BitSet) : Outcome T :=
  match c with
  | none => ⟨false, [], s⟩
  | some other =>
    if differenceModified s other then
      ⟨true, s.notifyObservers N true (bitsRemoved s other),
        { s with
          bits := if (difference s other).all (· == 0#64) then [] else difference s other }⟩
    else ⟨false, [], s⟩

/-! ## The iterator -/

/-- The fields of the iterator. -/
structure Iterator where
  next : Int
  element : Nat
  index : Int
  deriving DecidableEq, Repr

def iterator : Iterator := ⟨-1, 0, -1⟩

/-- From its loop on; the array may have become shorter. -/
def hasNextLoop (bits : List Word) (it : Iterator) : Except JavaException Bool × Iterator :=
  if 63 ≤ it.next then
    if it.element + 1 < bits.length then
      if 1#64 &&& wordAt bits (it.element + 1) == 1#64 then
        (.ok true, ⟨0, it.element + 1, 64 * (it.element + 1)⟩)
      else hasNextLoop bits ⟨0, it.element + 1, it.index⟩
    else (.ok false, ⟨it.next + 1, it.element + 1, it.index⟩)
  else if it.element < bits.length then
    if 1#64 <<< (it.next + 1).toNat &&& wordAt bits it.element == 1#64 <<< (it.next + 1).toNat then
      (.ok true, ⟨it.next + 1, it.element, 64 * it.element + (it.next + 1)⟩)
    else hasNextLoop bits ⟨it.next + 1, it.element, it.index⟩
  else (.error .indexOutOfBounds, ⟨it.next + 1, it.element, it.index⟩)
termination_by (bits.length - it.element, (64 - it.next).toNat)

def hasNext (s : BitSet) (it : Iterator) : Except JavaException Bool × Iterator :=
  if s.bits.length = 0 then (.ok false, it) else hasNextLoop s.bits it

/-- Before the first element `index` is -1, where `getT` is null: `remove` leaves the set alone. -/
def iteratorRemove (N : Numbering T) (s : BitSet) (it : Iterator) : Outcome T :=
  s.remove N (if it.index < 0 then none else some (N.getT it.index.toNat))

/-! ## `hashCode` and `equals` -/

/-- `hashCode()`, an `int`. -/
def hashCode (s : BitSet) : BitVec 32 :=
  s.bits.foldl (fun (hash : BitVec 32) (mask : Word) =>
    71#32 * hash + (mask ^^^ mask >>> 32).setWidth 32) 7#32

/-- `equals` of two sets of the same class. -/
def equals (s other : BitSet) : Bool :=
  decide (s.bits.length = other.bits.length) &&
    (range s.bits.length).all fun n => wordAt s.bits n == wordAt other.bits n

end BitSet

end OpenJfx.Css
