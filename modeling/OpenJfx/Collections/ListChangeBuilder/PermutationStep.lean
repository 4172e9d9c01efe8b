/-
  OpenJfx.Collections.ListChangeBuilder.PermutationStep

  `nextPermutation` on a builder that replays an original list into the current one.  The
  permutation of the original list keeps the removed elements where they are, but the moved
  sub-changes put them elsewhere; the two agree when `PermutesCleanly`.
-/

import OpenJfx.Collections.ListChangeBuilder.AddRemove
import OpenJfx.Collections.ListChangeBuilder.MovedChanges

namespace OpenJfx.Collections.ListChangeBuilder

open JavaM SubChange Prod

variable {E : Type} {from_ : Int} {perm : List Int}

/-- The permutation, then the sub-changes, give `L`. -/
def Replays [DecidableEq E] (b : ListChangeBuilder E) (L₀ L : List E) : Prop :=
  ∃ P, recordedPermutation L₀ b.permutationChange = some P ∧
    Placed 0 b.addRemoveChanges L.length ∧ replay L b.addRemoveChanges P = some L

/-- With `perm` in an array of the caller, the builder replays the permuted list, and can go on. -/
def PermutationKept [DecidableEq E] (r : Recorder E) (L₀ L : List E) (from_ : Int) (array : Nat)
    (perm : List Int) : Prop :=
  ∃ r', Returns (Recorder.nextPermutation L.length from_ (from_ + perm.length) array perm) r () r' ∧
    Replays r'.builder L₀ (permuted from_ perm L) ∧
    ∀ ps L', Prim.PerformAll ps (permuted from_ perm L) L' →
      ∃ b'', Returns (ps.forM Prim.report) r'.builder () b''

/-- Removed blocks stay, and every added run has one. -/
structure PermutesCleanly (b : ListChangeBuilder E) (from_ : Int) (perm : List Int) : Prop where
  /-- No block is overwritten by a later one with the same position. -/
  distinct : b.addRemoveChanges.Pairwise fun c d =>
    c.from_ = d.from_ → d.removed.isSome = true → c.removedIsEmpty = true
  /-- The blocks keep their order. -/
  ascending : b.addRemoveChanges.Pairwise fun c d =>
    c.removedIsEmpty = false → d.removedIsEmpty = false →
      image from_ perm c.from_ < image from_ perm d.from_
  /-- Each block has as many kept positions before it as it had. -/
  level : ∀ c ∈ b.addRemoveChanges, c.removedIsEmpty = false →
    keptBefore (movedCovers from_ perm b.addRemoveChanges) (image from_ perm c.from_)
      = keptBefore (covers b.addRemoveChanges) c.from_
  runs : EveryRunAnchored from_ perm b.addRemoveChanges
  /-- Without add/remove sub-changes the new range and that of the recorded
      permutation overlap or touch. -/
  touching : b.addRemoveChanges = [] → ∀ p ∈ b.permutationChange,
    p.from_ ≤ from_ + perm.length ∧ from_ ≤ p.to_

/-! ## The kept elements -/

theorem filter_origins {M : List E} {O : List Int} {flags : List Bool}
    (h : O.map (fun o => decide (o = -1)) = flags) :
    ((M.zip O).filter fun x => x.2 ≠ -1).map fst
      = ((M.zip flags).filter fun x => !x.2).map fst := by
  subst h
  induction M generalizing O with
  | nil => rfl
  | cons x M ih =>
    cases O with
    | nil => rfl
    | cons o O =>
      by_cases ho : o = -1
      · simpa [ho] using ih (O := O)
      · simpa [ho] using ih (O := O)

variable {cs : List (SubChange E)} {L : List E} {W : List (SubChange E × List (Int × List E))}
  {b : ListChangeBuilder E}

theorem keptOf_eq_origins (h : Placed 0 cs L.length) : keptOf 0 cs L
      = ((L.zip (origins 0 0 cs L.length)).filter fun x => x.2 ≠ -1).map fst := by
  have h' : Placed 0 cs (0 + L.length) := by rwa [Int.zero_add]
  rw [keptOf_eq_filter h', filter_origins (origins_eq_covers h' (Int.le_refl _))]

variable {cs' : List (SubChange E)}

theorem keptOf_eq_movedKept (hperm : IsPermutation from_ perm) (h0 : 0 ≤ from_)
    (hle : from_ + perm.length ≤ L.length)
    (hplaced : Placed 0 cs L.length) (hplaced' : Placed 0 cs' L.length)
    (hcovers : ∀ q, covers cs' q = movedCovers from_ perm cs q) :
    keptOf 0 cs' (permuted from_ perm L) = (movedKept from_ perm cs L).map fst := by
  have hlen := hperm.permuted_length h0 hle
  have hplaced0 : Placed 0 cs (0 + L.length) := by rwa [Int.zero_add]
  have horigins := @origins_eq_covers _ _ 0 _ _ hplaced0 (Int.le_refl _)
  have hOlen : (origins 0 0 cs L.length).length = L.length := by
    have := congrArg List.length horigins
    rwa [List.length_map, segment_length] at this
  rw [keptOf_eq_filter (by rw [hlen, Int.zero_add]; exact hplaced'), movedKept, filter_origins]
  rw [hlen]
  apply List.ext_getElem?
  intro k
  by_cases hk : k < L.length
  · obtain ⟨h1, h2⟩ := hperm.source_bounds h0 hle (p := k) (by omega) (by omega)
    have hget := congrArg (fun l : List Bool => l[(source from_ perm k).toNat]?) horigins
    simp only [List.getElem?_map] at hget
    rw [segment_getElem? _ _ _ _ (by omega), Int.toNat_of_nonneg h1, Int.zero_add] at hget
    rw [List.getElem?_map, hperm.permuted_getElem? h0 (by rw [hOlen]; exact hle) (by omega), hget,
      segment_getElem? _ _ _ _ hk, hcovers, Int.zero_add]
    rfl
  · rw [List.getElem?_eq_none, List.getElem?_eq_none]
    · rw [segment_length]
      omega
    · rw [List.length_map, hperm.permuted_length h0 (by rw [hOlen]; exact hle), hOlen]
      omega

/-! ## The removed elements -/

theorem removedIsEmpty_eq_false {c : SubChange E} :
    c.removedIsEmpty = false ↔ c.getRemoved ≠ [] := by
  rw [removedIsEmpty, List.isEmpty_eq_false_iff]

theorem anchor_eq_some {c : SubChange E} {e : Int × List E} :
    anchor from_ perm c = some e ↔ e.1 = image from_ perm c.from_ ∧ c.removed = some e.2 := by
  rw [anchor, Option.map_eq_some_iff]
  constructor
  · rintro ⟨r, hr, rfl⟩
    exact ⟨rfl, hr⟩
  · rintro ⟨h1, h2⟩
    exact ⟨e.2, h2, by rw [← h1]⟩

section Clean

variable {b : ListChangeBuilder E}

theorem PermutesCleanly.newRemoved_perm (h : PermutesCleanly b from_ perm)
    (hperm : IsPermutation from_ perm) :
    (nonempty (newRemoved from_ perm b.addRemoveChanges)).Perm
      (nonempty (b.addRemoveChanges.filterMap (anchor from_ perm))) := by
  apply mapPutAll_nonempty (by simp)
  apply List.pairwise_filterMap.mpr
  apply h.distinct.imp
  intro c d hcd x hx y hy heq
  obtain ⟨hx1, hx2⟩ := anchor_eq_some.mp hx
  obtain ⟨hy1, hy2⟩ := anchor_eq_some.mp hy
  have hfrom : c.from_ = d.from_ := hperm.image_injective (by rw [← hx1, ← hy1, heq])
  have hemp := hcd hfrom (by rw [hy2]; rfl)
  rwa [removedIsEmpty, List.isEmpty_iff, getRemoved, hx2] at hemp

theorem PermutesCleanly.anchors_sorted (h : PermutesCleanly b from_ perm) :
    (nonempty (b.addRemoveChanges.filterMap (anchor from_ perm))).Pairwise
      fun x y => x.1 < y.1 := by
  rw [nonempty, List.pairwise_filter]
  apply List.pairwise_filterMap.mpr
  apply h.ascending.imp
  intro c d hcd x hx y hy hne hne'
  obtain ⟨hx1, hx2⟩ := anchor_eq_some.mp hx
  obtain ⟨hy1, hy2⟩ := anchor_eq_some.mp hy
  rw [hx1, hy1]
  apply hcd
  · rw [removedIsEmpty, getRemoved, hx2]
    simpa using hne
  · rw [removedIsEmpty, getRemoved, hy2]
    simpa using hne'

theorem anchoredEntries_anchors (f : Int → Bool) (cs : List (SubChange E)) :
    anchoredEntries f (cs.filterMap (anchor from_ perm))
      = cs.flatMap fun c => c.getRemoved.map fun x =>
          (keptBefore f (image from_ perm c.from_), x) := by
  induction cs with
  | nil => rfl
  | cons c cs ih =>
    cases hr : c.removed with
    | none =>
      rw [List.filterMap_cons_none (by rw [anchor, hr]; rfl), List.flatMap_cons, ih,
        getRemoved, hr]
      rfl
    | some r =>
      rw [List.filterMap_cons_some (b := (image from_ perm c.from_, r)) (by rw [anchor, hr]; rfl),
        List.flatMap_cons, anchoredEntries, List.flatMap_cons, getRemoved, hr]
      exact congrArg _ ih

theorem PermutesCleanly.anchored_eq (h : PermutesCleanly b from_ perm)
    (hperm : IsPermutation from_ perm)
    (hW : Built (newRemoved from_ perm b.addRemoveChanges)
      (newAdded from_ perm b.addRemoveChanges) W [])
    (h0 : ∀ w ∈ W, 0 ≤ w.1.from_) :
    anchored (covers (W.map fst)) (W.map fst)
      = anchored (covers b.addRemoveChanges) b.addRemoveChanges := by
  have hcovers : covers (W.map fst) = movedCovers from_ perm b.addRemoveChanges := by
    funext q
    rw [Bool.eq_iff_iff, hW.covered, mem_newAdded hperm]
  have hcomp := hW.complete
  rw [List.append_nil] at hcomp
  -- both lists of non-empty entries are sorted by position
  have hent : nonempty (W.flatMap snd)
      = nonempty (b.addRemoveChanges.filterMap (anchor from_ perm)) := by
    apply List.Perm.eq_of_pairwise _ (hW.ordered.sublist List.filter_sublist) h.anchors_sorted
      ((hcomp.filter _).trans (h.newRemoved_perm hperm))
    intro x y _ _ hxy hyx
    omega
  calc anchored (covers (W.map fst)) (W.map fst)
      = anchoredEntries (covers (W.map fst)) (W.flatMap snd) := hW.anchored_eq h0 hW.covered
    _ = anchoredEntries (covers (W.map fst))
          (b.addRemoveChanges.filterMap (anchor from_ perm)) := by
        rw [anchoredEntries_nonempty, hent, ← anchoredEntries_nonempty]
    _ = anchored (covers b.addRemoveChanges) b.addRemoveChanges := by
        rw [anchoredEntries_anchors, hcovers, anchored]
        apply List.flatMap_congr
        intro c hc
        by_cases hemp : c.removedIsEmpty = false
        · rw [h.level c hc hemp]
        · rw [removedIsEmpty_eq_false, not_not] at hemp
          rw [hemp]
          rfl

end Clean

/-! ## The whole step -/

theorem keptBefore_zero (added : Int → Bool) : keptBefore added 0 = 0 := rfl

theorem removedSlots_moved {M : List E} (hlen : M.length = L.length)
    (h : Placed 0 cs L.length) (h' : Placed 0 cs' M.length)
    (hanchored : anchored (covers cs') cs' = anchored (covers cs) cs)
    (hkept : (keptOf 0 cs' M).length = (keptOf 0 cs L).length) :
    removedSlots 0 cs' L.length = removedSlots 0 cs L.length := by
  have hb := blocks_eq_anchored h (Int.le_refl _) fun _ _ => rfl
  have hb' := blocks_eq_anchored h' (Int.le_refl _) fun _ _ => rfl
  rw [keptBefore_zero] at hb hb'
  rw [← hlen, removedSlots_eq_weave (by rwa [Int.zero_add]) 0, hlen,
    removedSlots_eq_weave (by rwa [Int.zero_add]) 0, hb, hb', hanchored, hkept]

theorem moveUpdates_eq (from_ : Int) (perm : List Int) (us : List (SubChange E)) :
    moveUpdates from_ (from_ + perm.length) perm us
      = .ok ((newAdded from_ perm us).foldl (growRun true) []) := by
  rw [moveUpdates, foldlM_addImages]
  rfl

theorem movePermutation_spec (hperm : IsPermutation from_ perm) (h0 : 0 ≤ from_) {L0 P : List E}
    (hle : from_ + perm.length ≤ L.length)
    (hP : recordedPermutation L0 b.permutationChange = some P)
    (ht : Tracks 0 b.addRemoveChanges P L)
    (htouch : b.addRemoveChanges = [] → ∀ p ∈ b.permutationChange,
      p.from_ ≤ from_ + perm.length ∧ from_ ≤ p.to_) :
    ∃ c, movePermutation L.length from_ (from_ + perm.length) perm b = .ok c ∧
      recordedPermutation L0 (some c) = some (fillSlots (removedSlots 0 b.addRemoveChanges L.length)
            ((movedKept from_ perm b.addRemoveChanges L).map fst)) := by
  by_cases hcs : b.addRemoveChanges = []
  · rw [hcs, Tracks] at ht
    subst ht
    obtain ⟨c, hc, hrec⟩ := joinPermutation_spec hP hperm h0 hle (htouch hcs)
    refine ⟨c, by rw [movePermutation, hcs]; exact hc, ?_⟩
    rw [hrec, hcs]
    -- without sub-changes every element is kept
    have hlen := hperm.permuted_length h0 hle
    have hplaced : Placed (E := E) 0 [] P.length := Int.natCast_nonneg _
    have htracks : Tracks 0 [] (fillSlots (removedSlots 0 [] (permuted from_ perm P).length)
        (keptOf 0 [] (permuted from_ perm P))) (permuted from_ perm P) :=
      Placed.tracks (Int.le_add_of_nonneg_right (by omega))
    rw [Tracks, keptOf_eq_movedKept hperm h0 hle hplaced hplaced fun _ => rfl, hlen] at htracks
    rw [htracks]
  · obtain ⟨newPerm, hnew, hlen, hisperm, hpermuted⟩ := originalPermutation_spec hperm h0 hle ht
    obtain ⟨c, hc, hrec⟩ := joinPermutation_spec hP hisperm (Int.le_refl 0) (by omega) (by
      intro p hp
      rw [Option.mem_def] at hp
      rw [hp] at hP
      have hlen0 := recordedPermutation_length hP
      obtain ⟨⟨h1, h2, h3, -⟩, -⟩ := replayPermutation_eq_some.mp hP
      omega)
    rw [Int.zero_add] at hc
    refine ⟨c, ?_, by rw [hrec, hpermuted]⟩
    rw [movePermutation, if_neg (by simpa using hcs), hnew]
    exact hc

/-- The step returns on a builder that tracks the original list. -/
theorem permutationStep_spec (hperm : IsPermutation from_ perm) (h0 : 0 ≤ from_) {L0 P : List E}
    (hle : from_ + perm.length ≤ L.length)
    (hP : recordedPermutation L0 b.permutationChange = some P)
    (ht : Tracks 0 b.addRemoveChanges P L)
    (htouch : b.addRemoveChanges = [] → ∀ p ∈ b.permutationChange,
      p.from_ ≤ from_ + perm.length ∧ from_ ≤ p.to_) :
    ∃ b' W, permutationStep L.length from_ (from_ + perm.length) perm b = .ok b' ∧
      b'.changeLock = b.changeLock ∧ b'.addRemoveChanges = W.map fst ∧
      recordedPermutation L0 b'.permutationChange
        = some (fillSlots (removedSlots 0 b.addRemoveChanges L.length)
            ((movedKept from_ perm b.addRemoveChanges L).map fst)) ∧
      Built (newRemoved from_ perm b.addRemoveChanges) (newAdded from_ perm b.addRemoveChanges)
        W [] ∧
      (EveryRunAnchored from_ perm b.addRemoveChanges → HasRemoved b'.addRemoveChanges) := by
  obtain ⟨c, hc, hrec⟩ := movePermutation_spec hperm h0 hle hP ht htouch
  obtain ⟨W, hmove, hW, hrem⟩ := moveAddRemove_spec hperm b.addRemoveChanges
  refine ⟨⟨b.changeLock, W.map fst,
    (newAdded from_ perm b.updateChanges).foldl (growRun true) [], some c⟩, W, ?_, rfl, rfl, hrec,
    hW, hrem⟩
  rw [permutationStep, hc, hmove, moveUpdates_eq]
  rfl

theorem nextPermutation_returns {r : Recorder E} {b' : ListChangeBuilder E} {n : Nat} {to_ : Int}
    {array : Nat} (hlock : r.builder.changeLock ≠ 0) (hkept : ¬ r.Overwrites n from_ to_ array)
    (h : permutationStep n from_ to_ perm r.builder = .ok b') :
    Returns (Recorder.nextPermutation n from_ to_ array perm) r ()
      ⟨b', r.arrayAfter n from_ to_ array⟩ := by
  have hstep : r.permutationStep n from_ to_ array perm
      = .ok ⟨b', r.arrayAfter n from_ to_ array⟩ := by
    rw [Recorder.permutationStep, if_neg hkept, h]
    rfl
  simp only [Returns, Recorder.nextPermutation, Recorder.onBuilder, zoom, bind, EStateM.bind,
    checkState, if_neg hlock, get, getThe, MonadStateOf.get, JavaM.ofExcept, set]
  unfold EStateM.get EStateM.set
  simp only [hstep]

theorem reports_return (hlock : b.changeLock ≠ 0)
    (h : HasRemoved b.addRemoveChanges) (ps : List (Prim E)) :
    ∃ b', Returns (ps.forM Prim.report) b () b' := by
  induction ps generalizing b with
  | nil => exact ⟨b, rfl⟩
  | cons p ps ih =>
    cases p with
    | add from_ to_ =>
      obtain ⟨b', hb'⟩ := ih (b := { b with
        addRemoveChanges := recordAdd from_ to_ b.addRemoveChanges
        updateChanges := splitUpdate from_ to_ b.updateChanges }) hlock
        (stable_hasRemoved.recordAdd h from_ to_)
      exact ⟨b', (nextAdd_returns hlock from_ to_).bind hb'⟩
    | remove idx removed =>
      obtain ⟨cs, hcs, hr⟩ := recordRemove_total h idx removed
      obtain ⟨b', hb'⟩ := ih (b := { b with
        addRemoveChanges := cs
        updateChanges := dropUpdate idx b.updateChanges }) hlock hr
      exact ⟨b', (nextRemove_returns hlock hcs).bind hb'⟩

theorem PermutesCleanly.tracks (hperm : IsPermutation from_ perm) (h0 : 0 ≤ from_) {P : List E}
    (hle : from_ + perm.length ≤ L.length)
    (ht : Tracks 0 b.addRemoveChanges P L) (hclean : PermutesCleanly b from_ perm)
    (hW : Built (newRemoved from_ perm b.addRemoveChanges)
      (newAdded from_ perm b.addRemoveChanges) W []) :
    Tracks 0 (W.map fst) (fillSlots (removedSlots 0 b.addRemoveChanges L.length)
        ((movedKept from_ perm b.addRemoveChanges L).map fst)) (permuted from_ perm L) := by
  have hplaced := ht.placed
  rw [Int.zero_add] at hplaced
  have hlen := hperm.permuted_length h0 hle
  have hplaced' := hW.placed hperm h0 hle hplaced
  have hcovers : ∀ q, covers (W.map fst) q = movedCovers from_ perm b.addRemoveChanges q := by
    intro q
    rw [Bool.eq_iff_iff, hW.covered, mem_newAdded hperm]
  have hkept := keptOf_eq_movedKept hperm h0 hle hplaced hplaced' hcovers
  have hanchored := hclean.anchored_eq hperm hW fun w hw =>
    (hplaced'.bounds w.1 (List.mem_map_of_mem hw)).1
  have hcnt : (keptOf 0 (W.map fst) (permuted from_ perm L)).length
      = (keptOf 0 b.addRemoveChanges L).length := by
    have h1 := (movedSlots_perm hperm h0 hle ht).1
    have h2 := (@Tracks.fillSlots_eq _ _ 0 _ _ _ ht (Int.le_refl _)).2.1
    rw [hkept, List.length_map, keptOf_eq_origins hplaced, List.length_map]
    omega
  have hslots := removedSlots_moved hlen hplaced (by rw [hlen]; exact hplaced') hanchored hcnt
  have htracks := Placed.tracks (p := 0) (B := permuted from_ perm L)
    (by rw [Int.zero_add, hlen]; exact hplaced')
  rwa [hkept, hlen, hslots] at htracks

/-- A clean permutation, and any edit after it. -/
theorem permutationKept_of_cleanly [DecidableEq E] (r : Recorder E) (L₀ L : List E) (from_ : Int)
    (array : Nat) (perm : List Int) (hlock : r.builder.changeLock ≠ 0)
    (hreplays : Replays r.builder L₀ L) (hperm : IsPermutation from_ perm) (h₀ : 0 ≤ from_)
    (hle : from_ + perm.length ≤ L.length) (hclean : PermutesCleanly r.builder from_ perm)
    (hkept : ¬ r.Overwrites L.length from_ (from_ + perm.length) array) :
    PermutationKept r L₀ L from_ array perm := by
  obtain ⟨P, hP, hplaced, hreplay⟩ := hreplays
  have ht := tracks_of_replay hreplay hplaced
  obtain ⟨b', W, hstep, hlock', hcs, hrec, hW, hrem⟩ :=
    permutationStep_spec hperm h₀ hle hP ht hclean.touching
  have ht' := hclean.tracks hperm h₀ hle ht hW
  refine ⟨_, nextPermutation_returns hlock hkept hstep, ⟨_, hrec, ?_, ?_⟩, ?_⟩
  · rw [hcs, hperm.permuted_length h₀ hle]
    exact hW.placed hperm h₀ hle hplaced
  · rw [hcs]
    exact replay_of_tracks ht'
  · intro ps L' _
    exact reports_return (by rw [hlock']; exact hlock) (hrem hclean.runs) ps

/-- A permutation, a replaced element next to an added one, and a permutation of both. -/
theorem permutationKept_of_cleanly_moved :
    let r : Recorder Nat :=
      ⟨⟨1, [⟨1, 3, some [1], [], false⟩], [], some ⟨0, 2, none, [1, 0], false⟩⟩, some 0⟩
    permuted 1 [2, 1, 4, 3] [2, 8, 9, 3, 4] = [2, 9, 8, 4, 3] ∧
      PermutationKept r [1, 2, 3, 4] [2, 8, 9, 3, 4] 1 1 [2, 1, 4, 3] := by
  refine ⟨by decide, permutationKept_of_cleanly _ _ _ _ _ _ (by decide)
    ⟨[2, 1, 3, 4], by decide, by decide, by decide⟩ (by decide) (by decide) (by decide)
    ⟨by decide, by decide, by decide, by decide, nofun⟩ (by decide)⟩

/-- The first of three elements is removed and the others are swapped: the removed element stays
    first, while its sub-change goes behind. -/
theorem permutation_not_kept :
    let r : Recorder Nat := ⟨⟨1, [⟨0, 0, some [1], [], false⟩], [], none⟩, none⟩
    Replays r.builder [1, 2, 3] [2, 3] ∧ IsPermutation 0 [1, 0] ∧
      ¬ PermutationKept r [1, 2, 3] [2, 3] 0 0 [1, 0] := by
  refine ⟨⟨[1, 2, 3], by decide, by decide, by decide⟩, by decide, ?_⟩
  rintro ⟨r', hr', ⟨P, hP, -, hreplay⟩, -⟩
  have hrun : Returns (Recorder.nextPermutation 2 0 2 0 [1, 0])
      (⟨⟨1, [⟨0, 0, some [1], [], false⟩], [], none⟩, none⟩ : Recorder Nat) ()
      ⟨⟨1, [⟨1, 1, some [1], [], false⟩], [], some ⟨0, 3, none, [0, 2, 1], false⟩⟩, none⟩ := by
    rfl
  obtain ⟨-, rfl⟩ := hr'.unique hrun
  obtain rfl : [1, 3, 2] = P := Option.some.inj ((by decide :
    some [1, 3, 2] = recordedPermutation [1, 2, 3]
      (some (⟨0, 3, none, [0, 2, 1], false⟩ : SubChange Nat))).trans hP)
  revert hreplay
  decide

/-- A rotation passed twice in one array is recorded as no permutation at all. -/
example : Returns (Recorder.nextPermutation 3 0 3 0 [1, 2, 0])
    (⟨⟨1, [], [], some ⟨0, 3, none, [1, 2, 0], false⟩⟩, some 0⟩ : Recorder Nat) ()
    ⟨⟨1, [], [], some ⟨0, 3, none, [2, 0, 2], false⟩⟩, some 0⟩ := by rfl

end OpenJfx.Collections.ListChangeBuilder
