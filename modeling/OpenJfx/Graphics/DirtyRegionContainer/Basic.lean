/-
  OpenJfx.Graphics.DirtyRegionContainer.Basic

  `DirtyRegionContainer` with the part of `RectBounds` it uses.  The coordinates are a linear
  order, the area is a parameter.  The entries of the heap are arrays that its slots refer to:
  after `takeMinWithMap` two slots may share one.  `none` is a read outside of an array, or a loop
  that does not end.
-/

import OpenJfx.Lib.ParentMap
import Mathlib.Tactic.Ring

namespace OpenJfx.Graphics

/-! ## RectBounds -/

/-- `RectBounds`. -/
structure RectBounds (K : Type) where
  minX : K
  minY : K
  maxX : K
  maxY : K
  deriving DecidableEq

namespace RectBounds

variable {K : Type} [LinearOrder K]

def isEmpty (r : RectBounds K) : Bool := !(r.minX ≤ r.maxX ∧ r.minY ≤ r.maxY)

/-- `makeEmpty()`, and a new `RectBounds`. -/
def empty [Zero K] [One K] [Neg K] : RectBounds K := ⟨0, 0, -1, -1⟩

/-- An empty region adds nothing. -/
def unionWith (r other : RectBounds K) : RectBounds K :=
  if other.isEmpty then r
  else if r.isEmpty then other
  else ⟨min r.minX other.minX, min r.minY other.minY, max r.maxX other.maxX, max r.maxY other.maxY⟩

def contains (r other : RectBounds K) : Bool :=
  if r.isEmpty || other.isEmpty then false
  else r.minX ≤ other.minX ∧ other.maxX ≤ r.maxX ∧ r.minY ≤ other.minY ∧ other.maxY ≤ r.maxY

/-- Regions that touch intersect. -/
def intersects (r other : RectBounds K) : Bool :=
  if other.isEmpty || r.isEmpty then false
  else r.minX ≤ other.maxX ∧ r.minY ≤ other.maxY ∧ other.minX ≤ r.maxX ∧ other.minY ≤ r.maxY

/-- The bounds after `deriveWithNewBounds(other)`. -/
def newBounds [Zero K] [One K] [Neg K] (other : RectBounds K) : RectBounds K :=
  if other.isEmpty then empty else other

end RectBounds

/-! ## The heap -/

/-- An entry of the heap: an area and the indices of two regions. -/
structure Entry where
  area : Int
  i : Nat
  j : Nat
  deriving DecidableEq

/-- The array of references, and what they refer to. -/
structure Heap where
  slots : List Nat
  entries : Nat → Entry

namespace Heap

/-- `new int[length][3]`. -/
def new (length : Nat) : Heap := ⟨List.range length, fun _ => ⟨0, 0, 0⟩⟩

def setEntry (h : Heap) (id : Nat) (e : Entry) : Heap :=
  { h with entries := Function.update h.entries id e }

/-- The child that `siftDown` compares with. -/
def smallerChild (h : Heap) (heapSize child : Nat) : Option Nat := do
  let left ← h.slots[child]?
  if child + 1 < heapSize then
    let right ← h.slots[child + 1]?
    return if (h.entries right).area < (h.entries left).area then child + 1 else child
  else return child

/-- `heapify` from an index on. -/
def siftDown (heapSize : Nat) : Nat → Nat → Heap → Option Heap
  | 0, _, _ => none
  | fuel + 1, i, h =>
    if i < heapSize / 2 then do
      let child ← h.smallerChild heapSize (2 * i + 1)
      let below ← h.slots[child]?
      let above ← h.slots[i]?
      if (h.entries above).area ≤ (h.entries below).area then return h
      else siftDown heapSize fuel child { h with slots := (h.slots.set child above).set i below }
    else return h

/-- `heapify`, from index `i` down. -/
def heapify (heapSize : Nat) : Nat → Heap → Option Heap
  | 0, h => h.siftDown heapSize (heapSize + 1) 0
  | i + 1, h => do heapify heapSize i (← h.siftDown heapSize (heapSize + 1) (i + 1))

end Heap

/-- `1 << idx` as a long. -/
def bit (idx : Nat) : BitVec 64 := (1#32 <<< (idx % 32)).signExtend 64

/-! ## The container -/

/-- The slots, of which the first `emptyIndex` are taken. -/
structure DirtyRegionContainer (K : Type) where
  dirtyRegions : List (RectBounds K)
  emptyIndex : Nat
  heap : Option Heap

/-- Two places of an array are exchanged. -/
def swap {α : Type} (l : List α) (i j : Nat) : Option (List α) := do
  let x ← l[i]?
  let y ← l[j]?
  return (l.set i y).set j x

namespace DirtyRegionContainer

section Compress

variable {K : Type} [LinearOrder K] (area : RectBounds K → RectBounds K → Int)

/-- `unifiedRegionArea(i0, i1)`. -/
def unifiedRegionArea (regions : List (RectBounds K)) (i0 i1 : Nat) : Option Int := do
  let r0 ← regions[i0]?
  let r1 ← regions[i1]?
  return area r0 r1

/-- The region that the one at `idx` has been merged into. -/
def resolveMap (map : List Nat) (idx : Nat) : Option Nat := resolveParent map (map.length + 1) idx

/-- What `heapCompress` works on. -/
structure Compression (K : Type) where
  regions : List (RectBounds K)
  map : List Nat
  invalidMask : BitVec 64
  heap : Heap
  heapSize : Nat

/-- The entry was computed with a region that has been merged since. -/
def Compression.isInvalid (c : Compression K) (e : Entry) : Bool :=
  0 < ((bit e.i ||| bit e.j) &&& c.invalidMask).toInt

/-- The loop of `takeMinWithMap`. -/
def recompute (c : Compression K) : Nat → Heap → Option (Nat × Heap)
  | 0, _ => none
  | fuel + 1, h => do
    let temp ← h.slots[0]?
    let e := h.entries temp
    if c.isInvalid e then
      let newArea ← unifiedRegionArea area c.regions (← resolveMap c.map e.i) (← resolveMap c.map e.j)
      let h ← (h.setEntry temp { e with area := newArea }).siftDown c.heapSize (c.heapSize + 1) 0
      let top ← h.slots[0]?
      if top = temp then return (temp, h) else recompute c fuel h
    else return (temp, h)

/-- As many rounds as the loop can take. -/
def recomputeFuel (h : Heap) : Nat := (h.slots.length + 1) * (h.slots.length + 2)

def takeMinWithMap (c : Compression K) : Option (Entry × Compression K) := do
  let (temp, h) ← recompute area c (recomputeFuel c.heap) c.heap
  -- the entry stays at the top, and the last one is dropped
  let _ ← h.slots[c.heapSize - 1]?
  let h ← Heap.siftDown c.heapSize (c.heapSize + 1) 0 { h with slots := h.slots.set (c.heapSize - 1) temp }
  return (h.entries temp, { c with heap := h, heapSize := c.heapSize - 1 })

/-- One round of the first loop of `heapCompress`. -/
def mergeMin (c : Compression K) : Option (Compression K) := do
  let (e, c) ← takeMinWithMap area c
  let idx0 ← resolveMap c.map e.i
  let idx1 ← resolveMap c.map e.j
  if idx0 ≠ idx1 then
    let r0 ← c.regions[idx0]?
    let r1 ← c.regions[idx1]?
    return { c with
      regions := c.regions.set idx0 (r0.unionWith r1)
      map := c.map.set idx1 idx0
      invalidMask := c.invalidMask ||| bit idx0 ||| bit idx1 }
  else return c

/-- So many of the least pairs are merged. -/
def mergeRounds : Nat → Compression K → Option (Compression K)
  | 0, c => some c
  | n + 1, c => do mergeRounds n (← mergeMin area c)

end Compress

/-- `while (map[emptyIndex - 1] != emptyIndex - 1) --emptyIndex`. -/
def trim (map : List Nat) : Nat → Option Nat
  | 0 => none
  | e + 1 =>
    match map[e]? with
    | none => none
    | some m => if m = e then some (e + 1) else trim map e

/-- The second loop of `heapCompress`, with `n` rounds at most to come. -/
def moveUnused {α : Type} : Nat → Nat → List Nat → List α → Nat → Option (List α × Nat)
  | 0, _, _, regions, emptyIndex => some (regions, emptyIndex)
  | n + 1, i, map, regions, emptyIndex =>
    if i < emptyIndex then do
      let m ← map[i]?
      if m ≠ i then
        let emptyIndex ← trim map emptyIndex
        if i < emptyIndex - 1 then
          moveUnused n (i + 1) (map.set i i) (← swap regions i (emptyIndex - 1)) (emptyIndex - 1)
        else moveUnused n (i + 1) map regions emptyIndex
      else moveUnused n (i + 1) map regions emptyIndex
    else some (regions, emptyIndex)

/-- The pairs of indices below `n`, in the order of the loops. -/
def indexPairs (n : Nat) : List (Nat × Nat) :=
  (List.range (n - 1)).flatMap fun i => (List.range' (i + 1) (n - 1 - i)).map fun j => (i, j)

variable {K : Type} [LinearOrder K] (area : RectBounds K → RectBounds K → Int)

/-- Filling the heap from slot `k` on. -/
def fill (regions : List (RectBounds K)) : List (Nat × Nat) → Nat → Heap → Option Heap
  | [], _, h => some h
  | (i, j) :: pairs, k, h => do
    let entry ← h.slots[k]?
    let newArea ← unifiedRegionArea area regions i j
    fill regions pairs (k + 1) (h.setEntry entry ⟨newArea, i, j⟩)

/-- The product is an `int` in the source: it is this one for `n * (n - 1) < 2 ^ 31`. -/
def compressHeap (s : DirtyRegionContainer K) : Option (DirtyRegionContainer K) := do
  let n := s.dirtyRegions.length
  let heap := s.heap.getD (Heap.new (n * (n - 1) / 2))
  let heapSize := heap.slots.length
  let heap ← fill area s.dirtyRegions (indexPairs n) 0 heap
  let heap ← heap.heapify heapSize (heapSize / 2)
  let c ← mergeRounds area (n / 2) ⟨s.dirtyRegions, List.range n, 0, heap, heapSize⟩
  let (regions, emptyIndex) ← moveUnused s.emptyIndex 0 c.map c.regions s.emptyIndex
  return ⟨regions, emptyIndex, some c.heap⟩

/-- The loop of `addDirtyRegion`, with `n` rounds to come. -/
def absorb : Nat → RectBounds K → Nat → DirtyRegionContainer K →
    Option (RectBounds K × DirtyRegionContainer K)
  | 0, region, _, s => some (region, s)
  | n + 1, region, tempIndex, s => do
    let dr ← s.dirtyRegions[tempIndex]?
    if region.intersects dr then
      let regions ← swap s.dirtyRegions tempIndex (s.emptyIndex - 1)
      absorb n (region.unionWith dr) tempIndex
        { s with dirtyRegions := regions, emptyIndex := s.emptyIndex - 1 }
    else absorb n region (tempIndex + 1) s

variable [Zero K] [One K] [Neg K]

/-- `addDirtyRegion`, with the depth of the recursion bounded by `fuel`. -/
def addDirtyRegionFuel : Nat → DirtyRegionContainer K → RectBounds K → Option (DirtyRegionContainer K)
  | 0, _, _ => none
  | fuel + 1, s, region =>
    if region.isEmpty then some s
    else do
      let (region, s) ← absorb s.emptyIndex region 0 s
      if s.emptyIndex < s.dirtyRegions.length then
        return { s with
          dirtyRegions := s.dirtyRegions.set s.emptyIndex region.newBounds
          emptyIndex := s.emptyIndex + 1 }
      else if s.dirtyRegions.length = 1 then
        let dr ← s.dirtyRegions[0]?
        return { s with dirtyRegions := s.dirtyRegions.set 0 (dr.unionWith region) }
      else addDirtyRegionFuel fuel (← s.compressHeap area) region

/-- `compress` calls `addDirtyRegion` once more. -/
def addDirtyRegion (s : DirtyRegionContainer K) (region : RectBounds K) :
    Option (DirtyRegionContainer K) :=
  addDirtyRegionFuel area 2 s region

/-- `merge(other)`, given the regions of the other container. -/
def merge (s : DirtyRegionContainer K) : List (RectBounds K) → Option (DirtyRegionContainer K)
  | [] => some s
  | region :: regions => do merge (← s.addDirtyRegion area region) regions

def reset (s : DirtyRegionContainer K) : DirtyRegionContainer K := { s with emptyIndex := 0 }

def new (count : Nat) : DirtyRegionContainer K := ⟨List.replicate count RectBounds.empty, 0, none⟩

/-- `size()` and the regions that count. -/
def stored {K : Type} (s : DirtyRegionContainer K) : List (RectBounds K) :=
  s.dirtyRegions.take s.emptyIndex

/-! ## Runs -/

/-- A method. -/
inductive Op (K : Type) where
  | addDirtyRegion (region : RectBounds K)
  | merge (other : List (RectBounds K))
  | reset

/-- None where it throws, or does not end. -/
def step (s : DirtyRegionContainer K) : Op K → Option (DirtyRegionContainer K)
  | .addDirtyRegion region => s.addDirtyRegion area region
  | .merge other => s.merge area other
  | .reset => some s.reset

/-- None where a step does not end. -/
def run (s : DirtyRegionContainer K) : List (Op K) → Option (DirtyRegionContainer K)
  | [] => some s
  | op :: ops => do run (← s.step area op) ops

/-- Added since the last reset, after `added`. -/
def addedSince {K : Type} (added : List (RectBounds K)) : List (Op K) → List (RectBounds K)
  | [] => added
  | .addDirtyRegion region :: ops => addedSince (added ++ [region]) ops
  | .merge other :: ops => addedSince (added ++ other) ops
  | .reset :: ops => addedSince [] ops

end DirtyRegionContainer

end OpenJfx.Graphics
