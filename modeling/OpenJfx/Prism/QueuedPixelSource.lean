/-
  OpenJfx.Prism.QueuedPixelSource

  The pixels on their way to the screen. `id` is the identity of a `Pixels` object, `IntBuffer`
  the memory, which several can share; `saved` holds weak references.
-/

import OpenJfx.Lib.Machine
import Mathlib.Data.List.Nodup
import Mathlib.Data.List.Perm.Subperm

namespace OpenJfx.Prism

open List Option Nat Bool

variable {ints : IntBuffer} {S : Type}

/-! ## The source -/

/-- The memory of a buffer. -/
structure IntBuffer where
  address : Nat
  capacity : Nat
  deriving DecidableEq, Repr

/-- A `Pixels` object. -/
structure Pixels (S : Type) where
  id : Nat
  width : Int
  height : Int
  scale : S
  ints : IntBuffer
  deriving Repr

/-- `QueuedPixelSource`. -/
structure QueuedPixelSource (S : Type) where
  beingConsumed : Option (Pixels S) := none
  enqueued : Option (Pixels S) := none
  saved : List (Option (Pixels S)) := []

/-- `usesSameBuffer`; two objects have different views. -/
def usesSameBuffer (p : Pixels S) : Option (Pixels S) → Bool
  | none => false
  | some q => p.id == q.id

/-- What `getUnusedPixels` finds among the saved ones. -/
inductive Unused (S : Type) where
  | pixels (p : Pixels S)
  | reuseBuffer (ints : IntBuffer)
  | nothing

namespace QueuedPixelSource

/-- Whether a saved one is in use. -/
def inUse (s : QueuedPixelSource S) (p : Pixels S) : Bool :=
  usesSameBuffer p s.beingConsumed || usesSameBuffer p s.enqueued

/-- The loop of `getUnusedPixels`, with the entries it leaves in `saved`. -/
def scan [BEq S] (s : QueuedPixelSource S) (w h : Int) (scale : S) :
    List (Option (Pixels S)) → Unused S × List (Option (Pixels S))
  | [] => (.nothing, [])
  | none :: rest => s.scan w h scale rest
  | some p :: rest =>
    if s.inUse p then
      let found := s.scan w h scale rest
      (found.1, some p :: found.2)
    else if p.width == w && p.height == h && p.scale == scale then (.pixels p, some p :: rest)
    else if w * h ≤ p.ints.capacity then (.reuseBuffer p.ints, rest)
    else s.scan w h scale rest

theorem scan_sublist [BEq S] {s : QueuedPixelSource S} {w h : Int} {scale : S}
    {saved : List (Option (Pixels S))} : (s.scan w h scale saved).2.Sublist saved := by
  fun_induction s.scan w h scale saved with
  | case1 => exact List.Sublist.refl _
  | case2 rest ih => exact ih.cons _
  | case3 p rest huse found ih => exact ih.cons_cons _
  | case4 p rest huse hmatch => exact List.Sublist.refl _
  | case5 p rest huse hmatch hfits => exact sublist_cons_self _ _
  | case6 p rest huse hmatch hfits ih => exact ih.cons _

end QueuedPixelSource

/-! ## Producer and consumer -/

/-- What has happened to the pixels in the queue. -/
inductive Event (S : Type) where
  | enqueued (p : Pixels S)
  | taken
  | skipped

/-- The pixels enqueued last, unless they have been taken or skipped. -/
def latest : List (Event S) → Option (Pixels S)
  | [] => none
  | .enqueued p :: _ => some p
  | .taken :: _ => none
  | .skipped :: _ => none

/-- The source with its producer. -/
structure Session (S : Type) where
  source : QueuedPixelSource S := {}
  /-- The pixels the producer is filling. -/
  producing : Option (Pixels S) := none
  /-- The next object, and the next memory. -/
  created : Nat := 0
  allocated : Nat := 0
  /-- The history of the queue, with the latest event first. -/
  history : List (Event S) := []

/-- A call of the producer or the consumer, or a collection. -/
inductive Call (S : Type) where
  | getUnusedPixels (w h : Int) (scale : S)
  | enqueuePixels
  | getLatestPixels
  | doneWithPixels
  | skipLatestPixels
  /-- The garbage collector clears the saved reference at an index. -/
  | clear (index : Nat)

namespace Session

/-- The reference is saved; an empty size is refused. -/
def createPixels (s : Session S) (w h : Int) (scale : S) (ints : IntBuffer)
    (saved : List (Option (Pixels S))) : Session S :=
  if w ≤ 0 ∨ h ≤ 0 ∨ ints.capacity < w * h then
    { s with source := { s.source with saved := saved }, producing := none }
  else
    let p : Pixels S := ⟨s.created, w, h, scale, ints⟩
    { s with
      source := { s.source with saved := saved ++ [some p] }
      producing := some p
      created := s.created + 1 }

/-- The result is `producing`; none is an exception. -/
def getUnusedPixels [BEq S] (s : Session S) (w h : Int) (scale : S) : Session S :=
  match s.source.scan w h scale s.source.saved with
  | (.pixels p, saved) =>
    { s with source := { s.source with saved := saved }, producing := some p }
  | (.reuseBuffer ints, saved) => s.createPixels w h scale ints saved
  | (.nothing, saved) =>
    if w * h < 0 then
      { s with source := { s.source with saved := saved }, producing := none }
    else
      createPixels { s with allocated := s.allocated + 1 } w h scale
        ⟨s.allocated, (w * h).toNat⟩ saved

/-- Whether someone has a strong reference to a `Pixels`. -/
def isHeld (s : Session S) (p : Pixels S) : Bool :=
  usesSameBuffer p s.source.beingConsumed || usesSameBuffer p s.source.enqueued ||
    usesSameBuffer p s.producing

/-- A call; none where it may not be made. -/
def step [BEq S] (s : Session S) : Call S → Option (Session S)
  | .getUnusedPixels w h scale => some (s.getUnusedPixels w h scale)
  | .enqueuePixels =>
    match s.producing with
    | some p => some { s with
        source := { s.source with enqueued := some p }
        producing := none
        history := .enqueued p :: s.history }
    | none => none
  | .getLatestPixels =>
    match s.source.beingConsumed, s.source.enqueued with
    | none, some p => some { s with
        source := { s.source with beingConsumed := some p, enqueued := none }
        history := .taken :: s.history }
    | none, none => some s
    | some _, _ => none
  | .doneWithPixels => some { s with source := { s.source with beingConsumed := none } }
  | .skipLatestPixels =>
    match s.source.beingConsumed with
    | none => some { s with
        source := { s.source with enqueued := none }
        history := .skipped :: s.history }
    | some _ => none
  | .clear index =>
    match s.source.saved[index]? with
    | some (some p) =>
      if s.isHeld p then none
      else some { s with source := { s.source with saved := s.source.saved.set index none } }
    | _ => none

end Session

/-! ## The scan -/

variable {saved : List (Option (Pixels S))} {p : Pixels S} {s : Session S} {scale : S}

namespace QueuedPixelSource

/-- The saved `Pixels` that have not been cleared. -/
def live (saved : List (Option (Pixels S))) : List (Pixels S) := saved.filterMap id

@[simp] theorem live_nil : live ([] : List (Option (Pixels S))) = [] := rfl

@[simp] theorem live_cons_some (p : Pixels S) (saved : List (Option (Pixels S))) :
    live (some p :: saved) = p :: live saved := rfl

theorem live_append (saved saved' : List (Option (Pixels S))) :
    live (saved ++ saved') = live saved ++ live saved' := filterMap_append

theorem mem_live :
    p ∈ live saved ↔ some p ∈ saved := by
  simp [live]

theorem length_live
    (hall : ∀ entry ∈ saved, ∃ p, entry = some p) : (live saved).length = saved.length := by
  induction saved with
  | nil => rfl
  | cons entry saved ih =>
    obtain ⟨⟨p, rfl⟩, hrest⟩ := forall_mem_cons.mp hall
    rw [live_cons_some, length_cons, length_cons, ih hrest]

/-- The objects that are in use. -/
def used (s : QueuedPixelSource S) : List Nat :=
  (s.beingConsumed.toList ++ s.enqueued.toList).map Pixels.id

theorem inUse_iff (s : QueuedPixelSource S) (p : Pixels S) : s.inUse p = true ↔ p.id ∈ s.used := by
  unfold inUse used usesSameBuffer
  cases s.beingConsumed <;> cases s.enqueued <;> simp

section Scan

variable [BEq S] {s : QueuedPixelSource S} {w h : Int} {scale : S}
  {saved : List (Option (Pixels S))}

theorem live_scan_sublist : (live (s.scan w h scale saved).2).Sublist (live saved) :=
  scan_sublist.filterMap _

theorem mem_scan_of_inUse (hp : p ∈ live saved) (huse : s.inUse p = true) :
    p ∈ live (s.scan w h scale saved).2 := by
  fun_induction s.scan w h scale saved with
  | case1 => exact hp
  | case2 rest ih => exact ih hp
  | case3 q rest _ found ih =>
    rcases mem_cons.mp hp with rfl | hp
    · exact .head _
    · exact .tail _ (ih hp)
  | case4 q rest _ _ => exact hp
  | case5 q rest hq _ _ =>
    rcases mem_cons.mp hp with rfl | hp
    · exact absurd huse hq
    · exact hp
  | case6 q rest hq _ _ ih =>
    rcases mem_cons.mp hp with rfl | hp
    · exact absurd huse hq
    · exact ih hp

theorem scan_pixels (hfound : (s.scan w h scale saved).1 = .pixels p) :
    p ∈ live (s.scan w h scale saved).2 ∧ s.inUse p = false ∧ p.width = w ∧ p.height = h ∧
      (p.scale == scale) = true := by
  fun_induction s.scan w h scale saved with
  | case1 => cases hfound
  | case2 rest ih => exact ih hfound
  | case3 q rest huse found ih =>
    obtain ⟨hmem, hrest⟩ := ih hfound
    exact ⟨.tail _ hmem, hrest⟩
  | case4 q rest huse hmatch =>
    cases hfound
    simp only [and_eq_true, beq_iff_eq] at hmatch
    exact ⟨.head _, eq_false_iff.mpr huse, hmatch.1.1, hmatch.1.2, hmatch.2⟩
  | case5 q rest huse hmatch hfits => cases hfound
  | case6 q rest huse hmatch hfits ih => exact ih hfound

theorem scan_reuseBuffer
    (hmemory : (live saved).Pairwise fun p q => p.ints.address ≠ q.ints.address)
    (hfound : (s.scan w h scale saved).1 = .reuseBuffer ints) :
    (∃ p ∈ live saved, p.ints = ints) ∧ w * h ≤ ints.capacity ∧
      (s.scan w h scale saved).2.length < saved.length ∧
      ∀ q ∈ live (s.scan w h scale saved).2, q.ints.address ≠ ints.address := by
  fun_induction s.scan w h scale saved with
  | case1 => cases hfound
  | case2 rest ih =>
    obtain ⟨hmem, hfits, hlen, hapart⟩ := ih hmemory hfound
    exact ⟨hmem, hfits, lt_succ_of_lt hlen, hapart⟩
  | case3 q rest huse found ih =>
    obtain ⟨hhead, htail⟩ := pairwise_cons.mp hmemory
    obtain ⟨⟨p, hp, rfl⟩, hfits, hlen, hapart⟩ := ih htail hfound
    exact ⟨⟨p, .tail _ hp, rfl⟩, hfits, succ_lt_succ hlen,
      forall_mem_cons.mpr ⟨hhead p hp, hapart⟩⟩
  | case4 q rest huse hmatch => cases hfound
  | case5 q rest huse hmatch hfits =>
    cases hfound
    obtain ⟨hhead, htail⟩ := pairwise_cons.mp hmemory
    exact ⟨⟨q, .head _, rfl⟩, hfits, lt_succ_self _, fun p hp => (hhead p hp).symm⟩
  | case6 q rest huse hmatch hfits ih =>
    obtain ⟨⟨p, hp, heq⟩, hrest, hlen, hapart⟩ := ih (pairwise_cons.mp hmemory).2 hfound
    exact ⟨⟨p, .tail _ hp, heq⟩, hrest, lt_succ_of_lt hlen, hapart⟩

theorem scan_nothing (hfound : (s.scan w h scale saved).1 = .nothing) :
    ∀ entry ∈ (s.scan w h scale saved).2, ∃ p, entry = some p ∧ s.inUse p = true := by
  fun_induction s.scan w h scale saved with
  | case1 => exact forall_mem_nil _
  | case2 rest ih => exact ih hfound
  | case3 q rest huse found ih => exact forall_mem_cons.mpr ⟨⟨q, rfl, huse⟩, ih hfound⟩
  | case4 q rest huse hmatch | case5 q rest huse hmatch hfits => cases hfound
  | case6 q rest huse hmatch hfits ih => exact ih hfound

theorem length_scan_nothing (hids : (live saved).Pairwise fun p q => p.id ≠ q.id)
    (hfound : (s.scan w h scale saved).1 = .nothing) :
    (s.scan w h scale saved).2.length ≤ 2 := by
  have hall := scan_nothing hfound
  have hids' : (live (s.scan w h scale saved).2).Pairwise fun p q => p.id ≠ q.id :=
    hids.sublist live_scan_sublist
  generalize (s.scan w h scale saved).2 = left at hall hids'
  have hlen : left.length = ((live left).map Pixels.id).length := by
    rw [length_map, length_live fun entry hentry => (hall entry hentry).imp fun _ h => h.1]
  have hsub : (live left).map Pixels.id ⊆ s.used := by
    intro i hi
    obtain ⟨p, hp, rfl⟩ := mem_map.mp hi
    obtain ⟨q, heq, huse⟩ := hall _ (mem_live.mp hp)
    cases heq
    exact (inUse_iff s p).mp huse
  have hnd : ((live left).map Pixels.id).Nodup := pairwise_map.mpr hids'
  rw [hlen]
  have hused : s.used.length ≤ 2 := by
    unfold used
    cases s.beingConsumed <;> cases s.enqueued <;> simp
  exact Nat.le_trans (hnd.subperm hsub).length_le hused

end Scan

end QueuedPixelSource

namespace Session

open QueuedPixelSource

/-! ## The invariant -/

/-- What is in use is saved, each with its memory. -/
structure Inv (s : Session S) : Prop where
  ids : (live s.source.saved).Pairwise fun p q => p.id ≠ q.id
  memory : (live s.source.saved).Pairwise fun p q => p.ints.address ≠ q.ints.address
  fits : ∀ p ∈ live s.source.saved, 0 < p.width ∧ 0 < p.height ∧ p.width * p.height ≤ p.ints.capacity
  fresh : ∀ p ∈ live s.source.saved, p.id < s.created ∧ p.ints.address < s.allocated
  consumed : ∀ p ∈ s.source.beingConsumed, p ∈ live s.source.saved
  enqueued : ∀ p ∈ s.source.enqueued, p ∈ live s.source.saved
  producing : ∀ p ∈ s.producing, p ∈ live s.source.saved ∧ s.source.inUse p = false
  apart : ∀ p ∈ s.source.beingConsumed, ∀ q ∈ s.source.enqueued, p.id ≠ q.id
  pending : s.source.enqueued = latest s.history
  bounded : s.source.saved.length ≤ 3

theorem inv_new : ({} : Session S).Inv := by
  constructor <;> simp [inUse, usesSameBuffer, latest]

/-- Saved `Pixels` that are not the ones in use do not share their memory. -/
theorem Inv.address_ne (hs : s.Inv) {q : Pixels S}
    (hp : p ∈ live s.source.saved) (hq : q ∈ live s.source.saved) (hid : p.id ≠ q.id) :
    p.ints.address ≠ q.ints.address := by
  intro haddress
  have heq := inj_on_of_nodup_map (pairwise_map.mpr hs.memory) hp hq haddress
  exact hid (congrArg Pixels.id heq)

theorem Inv.scanned [BEq S] {s : Session S} (hs : s.Inv) {w h : Int} {scale : S} :
    Inv { s with
      source := { s.source with saved := (s.source.scan w h scale s.source.saved).2 }
      producing := none } := by
  have hsub : (live (s.source.scan w h scale s.source.saved).2).Sublist (live s.source.saved) :=
    live_scan_sublist
  have hkept : ∀ p ∈ live s.source.saved, s.source.inUse p = true →
      p ∈ live (s.source.scan w h scale s.source.saved).2 :=
    fun p hp huse => mem_scan_of_inUse hp huse
  refine ⟨hs.ids.sublist hsub, hs.memory.sublist hsub, fun p hp => hs.fits p (hsub.subset hp),
    fun p hp => hs.fresh p (hsub.subset hp), fun p hp => ?_, fun p hp => ?_, nofun, hs.apart,
    hs.pending, Nat.le_trans scan_sublist.length_le hs.bounded⟩
  · refine hkept p (hs.consumed p hp) ((inUse_iff _ _).mpr ?_)
    exact mem_map_of_mem (mem_append_left _ (mem_toList.mpr hp))
  · refine hkept p (hs.enqueued p hp) ((inUse_iff _ _).mpr ?_)
    exact mem_map_of_mem (mem_append_right _ (mem_toList.mpr hp))

theorem inUse_eq_false {s : QueuedPixelSource S}
    (hc : ∀ q ∈ s.beingConsumed, p.id ≠ q.id) (he : ∀ q ∈ s.enqueued, p.id ≠ q.id) :
    s.inUse p = false := by
  rw [← not_eq_true, inUse_iff]
  intro hmem
  obtain ⟨q, hq, hid⟩ := mem_map.mp hmem
  rcases mem_append.mp hq with hq | hq
  · exact hc q (mem_toList.mp hq) hid.symm
  · exact he q (mem_toList.mp hq) hid.symm

theorem ne_of_inUse_eq_false {s : QueuedPixelSource S} (h : s.inUse p = false) :
    (∀ q ∈ s.beingConsumed, p.id ≠ q.id) ∧ ∀ q ∈ s.enqueued, p.id ≠ q.id := by
  rw [← not_eq_true, inUse_iff] at h
  refine ⟨fun q hq hid => h ?_, fun q hq hid => h ?_⟩
  · rw [hid]
    exact mem_map_of_mem (mem_append_left _ (mem_toList.mpr hq))
  · rw [hid]
    exact mem_map_of_mem (mem_append_right _ (mem_toList.mpr hq))

theorem Inv.createPixels {s : Session S} (hs : Inv { s with producing := none }) {w h : Int}
    {scale : S} {ints : IntBuffer} (haddress : ints.address < s.allocated)
    (hapart : ∀ q ∈ live s.source.saved, q.ints.address ≠ ints.address)
    (hbounded : s.source.saved.length < 3) :
    (s.createPixels w h scale ints s.source.saved).Inv := by
  rw [Session.createPixels]
  split
  · exact hs
  · next hvalid =>
    have hlive : live (s.source.saved ++ [some ⟨s.created, w, h, scale, ints⟩]) =
        live s.source.saved ++ [⟨s.created, w, h, scale, ints⟩] := live_append _ _
    have hnew : ∀ q ∈ live s.source.saved, q.id ≠ s.created :=
      fun q hq => Nat.ne_of_lt (hs.fresh q hq).1
    constructor
    · rw [hlive, pairwise_append]
      refine ⟨hs.ids, pairwise_singleton _ _, fun q hq p hp => ?_⟩
      rw [mem_singleton.mp hp]
      exact hnew q hq
    · rw [hlive, pairwise_append]
      refine ⟨hs.memory, pairwise_singleton _ _, fun q hq p hp => ?_⟩
      rw [mem_singleton.mp hp]
      exact hapart q hq
    · rw [hlive, forall_mem_append, forall_mem_singleton]
      refine ⟨hs.fits, ?_⟩
      dsimp only
      omega
    · rw [hlive, forall_mem_append, forall_mem_singleton]
      exact ⟨fun q hq => ⟨lt_succ_of_lt (hs.fresh q hq).1, (hs.fresh q hq).2⟩,
        lt_succ_self _, haddress⟩
    · intro p hp
      rw [hlive]
      exact mem_append_left _ (hs.consumed p hp)
    · intro p hp
      rw [hlive]
      exact mem_append_left _ (hs.enqueued p hp)
    · rintro p hp
      cases hp
      rw [hlive]
      exact ⟨mem_append_right _ (mem_singleton_self _),
        inUse_eq_false (fun q hq => (hnew q (hs.consumed q hq)).symm)
          (fun q hq => (hnew q (hs.enqueued q hq)).symm)⟩
    · exact hs.apart
    · exact hs.pending
    · rw [length_append]
      exact hbounded

theorem Inv.allocate (hs : s.Inv) : Inv { s with allocated := s.allocated + 1 } where
  ids := hs.ids
  memory := hs.memory
  fits := hs.fits
  fresh := fun p hp => ⟨(hs.fresh p hp).1, lt_succ_of_lt (hs.fresh p hp).2⟩
  consumed := hs.consumed
  enqueued := hs.enqueued
  producing := hs.producing
  apart := hs.apart
  pending := hs.pending
  bounded := hs.bounded

theorem Inv.getUnusedPixels [BEq S] (hs : s.Inv) (w h : Int) (scale : S) :
    (s.getUnusedPixels w h scale).Inv := by
  have hscanned := @Inv.scanned _ _ _ hs w h scale
  unfold Session.getUnusedPixels
  cases hscan : s.source.scan w h scale s.source.saved with
  | mk found saved =>
    rw [hscan] at hscanned
    cases found with
    | pixels p =>
      obtain ⟨hmem, huse, -⟩ := scan_pixels (congrArg Prod.fst hscan)
      rw [hscan] at hmem
      exact ⟨hscanned.ids, hscanned.memory, hscanned.fits, hscanned.fresh, hscanned.consumed,
        hscanned.enqueued, fun q hq => mem_some.mp hq ▸ ⟨hmem, huse⟩, hscanned.apart,
        hscanned.pending, hscanned.bounded⟩
    | reuseBuffer ints =>
      obtain ⟨⟨p, hp, rfl⟩, -, hlen, hapart⟩ :=
        scan_reuseBuffer hs.memory (congrArg Prod.fst hscan)
      rw [hscan] at hlen hapart
      exact @Inv.createPixels _ { s with source := { s.source with saved := saved } } hscanned _ _ _ _
        (hs.fresh p hp).2 hapart (Nat.lt_of_lt_of_le hlen hs.bounded)
    | nothing =>
      have hlen := length_scan_nothing hs.ids (congrArg Prod.fst hscan)
      rw [hscan] at hlen
      dsimp only
      split
      · exact hscanned
      · exact @Inv.createPixels _ { s with
          source := { s.source with saved := saved }
          allocated := s.allocated + 1 } hscanned.allocate _ _ _ _ (lt_succ_self _)
          (fun q hq => Nat.ne_of_lt (hscanned.fresh q hq).2) (lt_succ_of_le hlen)

theorem live_set_none {index : Nat} (hp : saved[index]? = some (some p)) :
    (live (saved.set index none)).Sublist (live saved) ∧
      ∀ q ∈ live saved, q.id ≠ p.id → q ∈ live (saved.set index none) := by
  induction saved generalizing index with
  | nil => cases hp
  | cons entry saved ih =>
    cases index with
    | zero =>
      cases hp
      refine ⟨sublist_cons_self _ _, fun q hq hne => ?_⟩
      rcases mem_cons.mp hq with rfl | hq
      · exact absurd rfl hne
      · exact hq
    | succ index =>
      obtain ⟨hsub, hkept⟩ := ih hp
      cases entry with
      | none => exact ⟨hsub, hkept⟩
      | some p0 =>
        refine ⟨hsub.cons_cons _, fun q hq hne => ?_⟩
        rcases mem_cons.mp hq with rfl | hq
        · exact .head _
        · exact .tail _ (hkept q hq hne)

theorem usesSameBuffer_eq_false {o : Option (Pixels S)}
    (h : usesSameBuffer p o = false) : ∀ q ∈ o, q.id ≠ p.id := by
  intro q hq hid
  rw [mem_def.mp hq] at h
  simp [usesSameBuffer, hid] at h

theorem Inv.step [BEq S] {s s' : Session S} {call : Call S} (hs : s.Inv)
    (hstep : s.step call = some s') : s'.Inv := by
  cases call with
  | getUnusedPixels w h scale =>
    cases hstep
    exact hs.getUnusedPixels w h scale
  | enqueuePixels =>
    rw [Session.step] at hstep
    split at hstep
    · next p hp =>
      cases hstep
      obtain ⟨hmem, huse⟩ := hs.producing p hp
      refine ⟨hs.ids, hs.memory, hs.fits, hs.fresh, hs.consumed, ?_, nofun, ?_, rfl, hs.bounded⟩
      · intro q hq
        exact mem_some.mp hq ▸ hmem
      · intro q hq r hr
        rw [← mem_some.mp hr]
        exact ((ne_of_inUse_eq_false huse).1 q hq).symm
    · cases hstep
  | getLatestPixels =>
    rw [Session.step] at hstep
    split at hstep
    · next p hconsumed henqueued =>
      cases hstep
      refine ⟨hs.ids, hs.memory, hs.fits, hs.fresh, ?_, nofun, ?_, nofun, rfl, hs.bounded⟩
      · intro q hq
        exact mem_some.mp hq ▸ hs.enqueued p henqueued
      · intro q hq
        obtain ⟨hmem, huse⟩ := hs.producing q hq
        refine ⟨hmem, inUse_eq_false (fun r hr => ?_) nofun⟩
        rw [← mem_some.mp hr]
        exact (ne_of_inUse_eq_false huse).2 p henqueued
    · cases hstep
      exact hs
    · cases hstep
  | doneWithPixels =>
    cases hstep
    refine ⟨hs.ids, hs.memory, hs.fits, hs.fresh, nofun, hs.enqueued, ?_, nofun, hs.pending,
      hs.bounded⟩
    intro q hq
    obtain ⟨hmem, huse⟩ := hs.producing q hq
    exact ⟨hmem, inUse_eq_false nofun (ne_of_inUse_eq_false huse).2⟩
  | skipLatestPixels =>
    rw [Session.step] at hstep
    split at hstep
    · next hconsumed =>
      cases hstep
      refine ⟨hs.ids, hs.memory, hs.fits, hs.fresh, hs.consumed, nofun, ?_, ?_, rfl, hs.bounded⟩
      · intro q hq
        obtain ⟨hmem, huse⟩ := hs.producing q hq
        exact ⟨hmem, inUse_eq_false (ne_of_inUse_eq_false huse).1 nofun⟩
      · intro q hq r hr
        cases hr
    · cases hstep
  | clear index =>
    rw [Session.step] at hstep
    split at hstep
    · next p hp =>
      split at hstep
      · cases hstep
      · next hheld =>
        cases hstep
        obtain ⟨hsub, hkept⟩ := live_set_none hp
        -- whoever holds a `Pixels` holds another one
        rw [not_eq_true, isHeld, or_eq_false_iff, or_eq_false_iff] at hheld
        obtain ⟨⟨hc, he⟩, hh⟩ := hheld
        exact ⟨hs.ids.sublist hsub, hs.memory.sublist hsub, fun q hq => hs.fits q (hsub.subset hq),
          fun q hq => hs.fresh q (hsub.subset hq),
          fun q hq => hkept q (hs.consumed q hq) (usesSameBuffer_eq_false hc q hq),
          fun q hq => hkept q (hs.enqueued q hq) (usesSameBuffer_eq_false he q hq),
          fun q hq => ⟨hkept q (hs.producing q hq).1 (usesSameBuffer_eq_false hh q hq),
            (hs.producing q hq).2⟩, hs.apart, hs.pending,
          by rw [length_set]; exact hs.bounded⟩
    · cases hstep

/-! ## Runs -/

theorem inv_of_run [BEq S] {calls : List (Call S)}
    (hrun : runActions Session.step {} calls = some s) : s.Inv :=
  runActions_invariant (fun _ _ _ hs hstep => hs.step hstep) inv_new hrun

/-- The pixels in the producer's hands share no memory with those in use. -/
theorem Inv.producing_apart (hs : s.Inv) (hp : p ∈ s.producing) :
    (∀ q ∈ s.source.beingConsumed, q.ints.address ≠ p.ints.address) ∧
      ∀ q ∈ s.source.enqueued, q.ints.address ≠ p.ints.address := by
  obtain ⟨hmem, huse⟩ := hs.producing p hp
  obtain ⟨hc, he⟩ := ne_of_inUse_eq_false huse
  exact ⟨fun q hq => hs.address_ne (hs.consumed q hq) hmem (hc q hq).symm,
    fun q hq => hs.address_ne (hs.enqueued q hq) hmem (he q hq).symm⟩

/-- `getUnusedPixels` touches neither the queue nor the consumer. -/
theorem getUnusedPixels_source [BEq S] (s : Session S) (w h : Int) (scale : S) :
    (s.getUnusedPixels w h scale).source.beingConsumed = s.source.beingConsumed ∧
      (s.getUnusedPixels w h scale).source.enqueued = s.source.enqueued := by
  unfold Session.getUnusedPixels Session.createPixels
  split
  · exact ⟨rfl, rfl⟩
  · split <;> exact ⟨rfl, rfl⟩
  · split
    · exact ⟨rfl, rfl⟩
    · split <;> exact ⟨rfl, rfl⟩

theorem createPixels_producing {w h : Int}
    (hp : p ∈ (s.createPixels w h scale ints saved).producing) :
    p.width = w ∧ p.height = h ∧ p.scale = scale := by
  unfold Session.createPixels at hp
  split at hp
  · cases hp
  · cases hp
    exact ⟨rfl, rfl, rfl⟩

theorem getUnusedPixels_requested [BEq S] {w h : Int}
    (hp : p ∈ (s.getUnusedPixels w h scale).producing) :
    p.width = w ∧ p.height = h ∧ (p.scale = scale ∨ (p.scale == scale) = true) := by
  unfold Session.getUnusedPixels at hp
  cases hscan : s.source.scan w h scale s.source.saved with
  | mk found saved =>
    rw [hscan] at hp
    cases found with
    | pixels q =>
      cases hp
      obtain ⟨-, -, hw, hh, hscale⟩ := scan_pixels (congrArg Prod.fst hscan)
      exact ⟨hw, hh, Or.inr hscale⟩
    | reuseBuffer ints =>
      obtain ⟨hw, hh, hscale⟩ := createPixels_producing hp
      exact ⟨hw, hh, Or.inl hscale⟩
    | nothing =>
      dsimp only at hp
      split at hp
      · cases hp
      · obtain ⟨hw, hh, hscale⟩ := createPixels_producing hp
        exact ⟨hw, hh, Or.inl hscale⟩

theorem createPixels_returns {w h : Int} (hw : 0 < w) (hh : 0 < h) (hfits : w * h ≤ ints.capacity) :
    ∃ p, p ∈ (s.createPixels w h scale ints saved).producing := by
  rw [Session.createPixels, if_neg (by omega)]
  exact ⟨_, rfl⟩

theorem getUnusedPixels_returns [BEq S] (s : Session S)
    (hmemory : (live s.source.saved).Pairwise fun p q => p.ints.address ≠ q.ints.address)
    {w h : Int} (hw : 0 < w) (hh : 0 < h) (scale : S) :
    ∃ p, p ∈ (s.getUnusedPixels w h scale).producing := by
  have hpos : 0 < w * h := Int.mul_pos hw hh
  unfold Session.getUnusedPixels
  cases hscan : s.source.scan w h scale s.source.saved with
  | mk found saved =>
    cases found with
    | pixels q => exact ⟨q, rfl⟩
    | reuseBuffer ints =>
      obtain ⟨-, hfits, -⟩ := scan_reuseBuffer hmemory (congrArg Prod.fst hscan)
      exact createPixels_returns hw hh hfits
    | nothing =>
      dsimp only
      rw [if_neg (by omega)]
      exact createPixels_returns hw hh (by dsimp only; omega)

/-- In every interleaving the producer is given pixels of the requested size, with memory nobody
    else uses until they are enqueued; the consumer gets the latest; and at most three are saved. -/
theorem unused_of_run [BEq S] {calls : List (Call S)} {s : Session S}
    (hrun : runActions Session.step {} calls = some s) :
    (∀ w h scale, ∀ p ∈ (s.getUnusedPixels w h scale).producing,
      p.width = w ∧ p.height = h ∧ (p.scale = scale ∨ (p.scale == scale) = true) ∧
        w * h ≤ p.ints.capacity ∧
        (∀ q ∈ s.source.beingConsumed, q.ints.address ≠ p.ints.address) ∧
        ∀ q ∈ s.source.enqueued, q.ints.address ≠ p.ints.address) ∧
    (∀ w h scale, 0 < w → 0 < h → ∃ p, p ∈ (s.getUnusedPixels w h scale).producing) ∧
    (∀ p ∈ s.producing, (∀ q ∈ s.source.beingConsumed, q.ints.address ≠ p.ints.address) ∧
      ∀ q ∈ s.source.enqueued, q.ints.address ≠ p.ints.address) ∧
    (s.source.beingConsumed = none → ∃ s', s.step .getLatestPixels = some s' ∧
      s'.source.beingConsumed = latest s.history) ∧
    s.source.saved.length ≤ 3 := by
  have hs := inv_of_run hrun
  refine ⟨fun w h scale p hp => ?_, fun w h scale hw hh =>
    getUnusedPixels_returns s hs.memory hw hh scale, fun p hp => hs.producing_apart hp, ?_,
    hs.bounded⟩
  · obtain ⟨hw, hh, hscale⟩ := getUnusedPixels_requested hp
    have hnew := hs.getUnusedPixels w h scale
    have hfits := (hnew.fits p (hnew.producing p hp).1).2.2
    rw [hw, hh] at hfits
    obtain ⟨hc, he⟩ := hnew.producing_apart hp
    rw [(getUnusedPixels_source s w h scale).1] at hc
    rw [(getUnusedPixels_source s w h scale).2] at he
    exact ⟨hw, hh, hscale, hfits, hc, he⟩
  · intro hconsumed
    rw [← hs.pending]
    obtain henqueued | ⟨p, henqueued⟩ := eq_none_or_eq_some s.source.enqueued
    · refine ⟨s, ?_, ?_⟩
      · rw [Session.step, hconsumed, henqueued]
      · rw [hconsumed, henqueued]
    · refine ⟨{ s with
        source := { s.source with beingConsumed := some p, enqueued := none }
        history := .taken :: s.history }, ?_, ?_⟩
      · rw [Session.step, hconsumed, henqueued]
      · exact henqueued.symm

/-- Two sizes in flight, and a third one that uses old memory again. -/
theorem unused_of_run_threeSizes : ∃ s : Session Int,
    runActions Session.step ({} : Session Int) [.getUnusedPixels 4 4 1, .enqueuePixels,
      .getLatestPixels, .getUnusedPixels 2 2 1, .enqueuePixels, .getUnusedPixels 3 3 1,
      .enqueuePixels, .clear 1, .doneWithPixels] = some s ∧ s.source.saved.length ≤ 3 := by
  have hrun : (runActions Session.step ({} : Session Int) [.getUnusedPixels 4 4 1, .enqueuePixels,
      .getLatestPixels, .getUnusedPixels 2 2 1, .enqueuePixels, .getUnusedPixels 3 3 1,
      .enqueuePixels, .clear 1, .doneWithPixels]).isSome = true := by decide
  obtain ⟨s, hs⟩ := isSome_iff_exists.mp hrun
  exact ⟨s, hs, (unused_of_run hs).2.2.2.2⟩

end Session

end OpenJfx.Prism
