/-
  OpenJfx.Prism.ResourcePool.Basic

  `BaseResourcePool` and its `ManagedResource`s: a linked list of weak references with the sum of
  their sizes.  Traversals are run link by link, so that another thread may call `dispose()` in
  between and an unreferenced resource may vanish; `_isgone` reads `disposalRequested` twice.
-/

import OpenJfx.Lib.Machine

namespace OpenJfx.Prism

/-! ## Data -/

/-- `resource` is not null; `frees` counts `free()`. -/
structure ManagedResource where
  resource : Bool
  lockcount : Int
  employcount : Int
  permanent : Bool
  mismatchDetected : Bool
  disposalRequested : Bool
  age : Nat
  frees : Nat
  /-- The object has been garbage collected. -/
  collected : Bool
  deriving DecidableEq, Repr

open ManagedResource

/-- `WeakLinkedList`, with the object that its reference is to. -/
structure WeakLink where
  id : Nat
  size : Nat
  deriving DecidableEq, Repr

/-- The traversals of one call of `cleanup(long)`. -/
inductive Stage where
  | obsolete
  | tester (stage : Fin 6)
  | lastChance (desperate : Bool)
  deriving DecidableEq, Repr

/-- What the list is traversed for. -/
inductive Traversal where
  | cleanup (needed wanted : Int) (stage : Stage)
  | check (forgiveStaleLocks : Bool)
  | resourceFreed (freed : Nat)
  deriving DecidableEq, Repr

/-- The manager's thread, with the list that the pool has. -/
inductive Manager where
  | idle (links : List WeakLink)
  /-- The links up to `prev` have been passed, `cur` is the first of the others. -/
  | traversing (t : Traversal) (passed rest : List WeakLink)
  /-- The resource of `cur` has not been found to be disposed of yet. -/
  | testing (t : Traversal) (passed : List WeakLink) (cur : WeakLink) (rest : List WeakLink)
  deriving DecidableEq, Repr

/-- What the pool throws. -/
inductive PoolError where
  /-- "Negative resource amount". -/
  | negativeResourceAmount
  /-- "unmanaged resource freed from pool". -/
  | unmanagedResourceFreed
  /-- "New target … larger than max" or "smaller than initial target". -/
  | badTarget
  deriving DecidableEq, Repr

/-- `BaseResourcePool`, its resources and the exceptions it has thrown. -/
structure ResourcePool where
  resources : List ManagedResource
  manager : Manager
  managedSize : Int
  origTarget : Int
  curTarget : Int
  maxSize : Int
  /-- There is a `sharedParent`. -/
  shared : Bool
  thrown : List PoolError
  deriving DecidableEq, Repr

/-- The value of a `long` expression. -/
def toLong (n : Int) : Int := n.bmod (2 ^ 64)

/-! ## Resources -/

namespace ManagedResource

/-- A resource after its constructor, which locks it. -/
def new : ManagedResource := ⟨true, 1, 0, false, false, false, 0, 0, false⟩

def isValid (mr : ManagedResource) : Bool := mr.resource && !mr.disposalRequested

def isLocked (mr : ManagedResource) : Bool := decide (mr.lockcount > 0)

def isInteresting (mr : ManagedResource) : Bool := decide (mr.employcount > 0)

/-- `free()` and `resource = null`. -/
def release (mr : ManagedResource) : ManagedResource :=
  { mr with resource := false, frees := mr.frees + 1 }

def lock (mr : ManagedResource) : ManagedResource :=
  { mr with lockcount := mr.lockcount + 1, age := 0 }

/-- `unlock()`, which asserts that the resource is locked. -/
def unlock (mr : ManagedResource) : ManagedResource :=
  if mr.isLocked then { mr with lockcount := mr.lockcount - 1 } else mr

def makePermanent (mr : ManagedResource) : ManagedResource :=
  if mr.isLocked then { mr with permanent := true } else mr

def contentsUseful (mr : ManagedResource) : ManagedResource :=
  if mr.isLocked then { mr with employcount := mr.employcount + 1 } else mr

def contentsNotUseful (mr : ManagedResource) : ManagedResource :=
  if mr.employcount ≤ 0 then mr else { mr with employcount := mr.employcount - 1 }

def unlockall (mr : ManagedResource) : ManagedResource := { mr with lockcount := 0 }

def setMismatched (mr : ManagedResource) : ManagedResource := { mr with mismatchDetected := true }

def bumpAge (mr : ManagedResource) (forever : Nat) : ManagedResource :=
  if mr.age < forever then { mr with age := mr.age + 1 } else mr

end ManagedResource

def forever : Nat := 1024

def recentlyUseful : Nat := 100

def recent : Nat := 10

def stageTester (mr : ManagedResource) : Fin 6 → Bool
  | 0 => !mr.isInteresting && decide (mr.age > forever)
  | 1 => !mr.isInteresting && decide (mr.age > forever / 2)
  | 2 => !mr.isInteresting && decide (mr.age > recent)
  | 3 => decide (mr.age > forever)
  | 4 => decide (mr.age > forever / 2)
  | 5 => decide (mr.age > recentlyUseful)

def Stage.test (mr : ManagedResource) : Stage → Bool
  | .obsolete => false
  | .tester stage => stageTester mr stage
  | .lastChance _ => true

/-! ## The pool -/

def Manager.links : Manager → List WeakLink
  | .idle links => links
  | .traversing _ passed rest => passed ++ rest
  | .testing _ passed cur rest => passed ++ cur :: rest

/-- The manager's thread itself has a reference to the object. -/
def Manager.holds (m : Manager) (id : Nat) : Bool :=
  match m with
  | .idle _ => false
  | .traversing (.resourceFreed freed) _ _ => decide (freed = id)
  | .traversing _ _ _ => false
  | .testing _ _ cur _ => decide (cur.id = id)

namespace ResourcePool

/-- An empty pool. -/
def new (target max : Int) (shared : Bool) : ResourcePool :=
  ⟨[], .idle [], 0, target, target, max, shared, []⟩

def modify (p : ResourcePool) (id : Nat) (f : ManagedResource → ManagedResource) : ResourcePool :=
  { p with resources := p.resources.modify id f }

/-- `used()`; a shared parent answers for itself. -/
def used (p : ResourcePool) (parentUsed : Int) : Int := if p.shared then parentUsed else p.managedSize

def recordAllocated (p : ResourcePool) (size : Int) : ResourcePool :=
  { p with managedSize := toLong (p.managedSize + size) }

/-- An exception ends what the manager's thread does. -/
def throw (p : ResourcePool) (e : PoolError) : ResourcePool :=
  { p with manager := .idle p.manager.links, thrown := p.thrown ++ [e] }

/-- `recordFree`, and then `next` unless it throws. -/
def recordFree (p : ResourcePool) (size : Int) (next : ResourcePool → ResourcePool) : ResourcePool :=
  let p := { p with managedSize := toLong (p.managedSize - size) }
  if p.managedSize < 0 then p.throw .negativeResourceAmount else next p

/-- `setTarget`, the last thing that `cleanup` does. -/
def setTarget (p : ResourcePool) (newTarget : Int) : ResourcePool :=
  if newTarget > p.maxSize then p.throw .badTarget
  else if newTarget < p.origTarget then p.throw .badTarget
  else { p with curTarget := newTarget }

/-- The constructor of a resource. -/
def create (p : ResourcePool) (links : List WeakLink) (size : Nat) : ResourcePool :=
  let p : ResourcePool :=
    { p with
      resources := p.resources ++ [.new]
      manager := .idle (⟨p.resources.length, size⟩ :: links) }
  p.recordAllocated size

/-- `dispose()` on the manager's thread. -/
def dispose (p : ResourcePool) (links : List WeakLink) (id : Nat) (mr : ManagedResource) : ResourcePool :=
  if mr.resource then
    { p.modify id (fun mr => { mr.release with disposalRequested := false }) with
      manager := .traversing (.resourceFreed id) [] links }
  else p

/-- Stage after stage is freed until there is room. -/
def prepareForAllocation (p : ResourcePool) (links : List WeakLink) (needed parentUsed : Int) :
    ResourcePool :=
  if toLong (p.used parentUsed + needed) ≤ p.curTarget then p
  else
    let wanted := p.curTarget.tdiv 16
    let wanted := if wanted < needed then needed else wanted
    { p with manager := .traversing (.cleanup needed wanted .obsolete) [] links }

/-- The growth of the target after the stages, or the first last chance. -/
def grow (p : ResourcePool) (links : List WeakLink) (needed wanted parentUsed : Int) : ResourcePool :=
  let rem := toLong (p.maxSize - p.used parentUsed)
  let wanted := if wanted > rem then needed else wanted
  if wanted ≤ rem then
    let grow := (p.maxSize - p.origTarget).tdiv 32
    let grow := if grow < wanted then wanted else if grow > rem then rem else grow
    ({ p with manager := .idle links } : ResourcePool).setTarget (toLong (p.used parentUsed + grow))
  else { p with manager := .traversing (.cleanup needed wanted (.lastChance false)) [] links }

/-- What follows a traversal of `cleanup`. -/
def afterPass (p : ResourcePool) (links : List WeakLink) (needed wanted parentUsed : Int) :
    Stage → ResourcePool
  | .obsolete =>
    if toLong (p.used parentUsed + wanted) ≤ p.curTarget then { p with manager := .idle links }
    else { p with manager := .traversing (.cleanup needed wanted (.tester 0)) [] links }
  | .tester stage =>
    if toLong (p.used parentUsed + wanted) ≤ p.curTarget then { p with manager := .idle links }
    else if stage.val < 5 then
      { p with manager := .traversing (.cleanup needed wanted (.tester (stage + 1))) [] links }
    else p.grow links needed wanted parentUsed
  | .lastChance desperate =>
    if toLong (p.used parentUsed + needed) ≤ p.maxSize then
      if toLong (p.used parentUsed + needed) > p.curTarget then
        ({ p with manager := .idle links } : ResourcePool).setTarget
          (toLong (p.used parentUsed + needed))
      else { p with manager := .idle links }
    else if desperate then { p with manager := .idle links }
    else { p with manager := .traversing (.cleanup needed wanted (.lastChance true)) [] links }

/-- The end of the list. -/
def finish (p : ResourcePool) (links : List WeakLink) (parentUsed : Int) : Traversal → ResourcePool
  | .cleanup needed wanted stage => p.afterPass links needed wanted parentUsed stage
  | .check _ => { p with manager := .idle links }
  | .resourceFreed _ => ({ p with manager := .idle links } : ResourcePool).throw .unmanagedResourceFreed

/-- The link is taken out of the list, and its size out of the sum. -/
def unlink (p : ResourcePool) (t : Traversal) (passed : List WeakLink) (cur : WeakLink)
    (rest : List WeakLink) : ResourcePool :=
  p.recordFree cur.size fun p => { p with manager := .traversing t passed rest }

/-- A turn, up to the second read of `disposalRequested`. -/
def visit (p : ResourcePool) (t : Traversal) (passed : List WeakLink) (cur : WeakLink)
    (rest : List WeakLink) (mr : ManagedResource) : ResourcePool :=
  match t with
  | .resourceFreed freed =>
    if cur.id = freed then p.recordFree cur.size fun p => { p with manager := .idle (passed ++ rest) }
    else if mr.collected then p.unlink t passed cur rest
    else { p with manager := .traversing t (passed ++ [cur]) rest }
  | _ =>
    if mr.collected then p.unlink t passed cur rest
    else if mr.disposalRequested then
      (p.modify cur.id fun mr => { mr.release with disposalRequested := false }).unlink t passed cur rest
    else { p with manager := .testing t passed cur rest }

/-- A turn for a resource not gone. -/
def checkLocks (forgiveStaleLocks : Bool) (mr : ManagedResource) : ManagedResource :=
  if mr.permanent then mr
  else
    let mr :=
      if mr.isLocked && !mr.mismatchDetected then
        if forgiveStaleLocks then mr.unlockall else mr.setMismatched
      else mr
    mr.bumpAge forever

/-- The rest of the turn, from the second read on. -/
def revisit (p : ResourcePool) (t : Traversal) (passed : List WeakLink) (cur : WeakLink)
    (rest : List WeakLink) (mr : ManagedResource) : ResourcePool :=
  if mr.isValid then
    match t with
    | .cleanup _ _ stage =>
      if !mr.permanent && !mr.isLocked && stage.test mr then
        (p.modify cur.id release).unlink t passed cur rest
      else { p with manager := .traversing t (passed ++ [cur]) rest }
    | .check forgiveStaleLocks =>
      { p.modify cur.id (checkLocks forgiveStaleLocks) with
        manager := .traversing t (passed ++ [cur]) rest }
    | .resourceFreed _ => { p with manager := .traversing t (passed ++ [cur]) rest }
  else p.unlink t passed cur rest

/-! ## Steps -/

/-- The manager, `dispose` elsewhere, the collector. -/
inductive Action where
  | create (size : Nat)
  | lock (id : Nat)
  | unlock (id : Nat)
  | makePermanent (id : Nat)
  | contentsUseful (id : Nat)
  | contentsNotUseful (id : Nat)
  | dispose (id : Nat)
  | disposeElsewhere (id : Nat)
  | collect (id : Nat)
  | prepareForAllocation (size parentUsed : Int)
  | freeDisposalRequestedAndCheckResources (forgiveStaleLocks : Bool)
  /-- The next part of a turn of the loop that the manager's thread is in. -/
  | turn (parentUsed : Int)
  deriving DecidableEq, Repr

/-- The resource with a reference that can still be used. -/
def reachable (p : ResourcePool) (id : Nat) : Option ManagedResource :=
  (p.resources[id]?).filter fun mr => !mr.collected

def apply (p : ResourcePool) (id : Nat) (f : ManagedResource → ManagedResource) :
    Option ResourcePool :=
  (p.reachable id).map fun _ => p.modify id f

/-- None where the step is not possible. -/
def step (p : ResourcePool) : Action → Option ResourcePool
  | .create size =>
    match p.manager with
    | .idle links => some (p.create links size)
    | _ => none
  | .lock id => p.apply id lock
  | .unlock id => p.apply id unlock
  | .makePermanent id => p.apply id makePermanent
  | .contentsUseful id => p.apply id contentsUseful
  | .contentsNotUseful id => p.apply id contentsNotUseful
  | .dispose id =>
    match p.manager with
    | .idle links => (p.reachable id).map (p.dispose links id)
    | _ => none
  | .disposeElsewhere id => p.apply id fun mr => { mr with disposalRequested := true }
  | .collect id =>
    if p.manager.holds id then none
    else p.apply id fun mr => { mr with collected := true }
  | .prepareForAllocation size parentUsed =>
    match p.manager with
    | .idle links => some (p.prepareForAllocation links size parentUsed)
    | _ => none
  | .freeDisposalRequestedAndCheckResources forgiveStaleLocks =>
    match p.manager with
    | .idle links => some { p with manager := .traversing (.check forgiveStaleLocks) [] links }
    | _ => none
  | .turn parentUsed =>
    match p.manager with
    | .idle _ => none
    | .traversing t passed [] => some (p.finish passed parentUsed t)
    | .traversing t passed (cur :: rest) => (p.resources[cur.id]?).map (p.visit t passed cur rest)
    | .testing t passed cur rest => (p.resources[cur.id]?).map (p.revisit t passed cur rest)

end ResourcePool

end OpenJfx.Prism
