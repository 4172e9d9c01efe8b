/-
  OpenJfx.Prism.ResourcePool.Cleanup

  The contract of `cleanup(long)`: it makes room or says that it cannot, without an exception.

  The hope of a sixteenth of the target may be too much for the pool when the request is not.
-/

import OpenJfx.Prism.ResourcePool.Accounting

namespace OpenJfx.Prism

open Option

open OpenJfx (runActions AllSteps)

/-- A call of `cleanup` at the end of a traversal. -/
structure PassEnd where
  needed : Int
  wanted : Int
  stage : Stage
  used : Int

/-- The amounts of the call of `cleanup` that is going on. -/
def Manager.call : Manager → Option (Int × Int)
  | .traversing (.cleanup needed wanted _) _ _ => some (needed, wanted)
  | .testing (.cleanup needed wanted _) _ _ _ => some (needed, wanted)
  | _ => none

def Manager.isIdle : Manager → Bool
  | .idle _ => true
  | _ => false

namespace ResourcePool

/-- The stage and the room with which a pass has ended. -/
def passEnd (p : ResourcePool) : Action → Option PassEnd
  | .turn parentUsed =>
    match p.manager with
    | .traversing (.cleanup needed wanted stage) _ [] =>
      some ⟨needed, wanted, stage, p.used parentUsed⟩
    | _ => none
  | _ => none

/-- The result, where the call returns. -/
def passResult (p : ResourcePool) (e : PassEnd) : Bool :=
  match e.stage with
  | .lastChance _ => decide (toLong (e.used + e.needed) ≤ p.maxSize)
  | _ => true

/-- What was needed and used, and the result. -/
def returned (p : ResourcePool) (a : Action) (p' : ResourcePool) : Option (Int × Int × Bool) :=
  if p'.manager.isIdle then
    match a with
    | .prepareForAllocation needed parentUsed => some (needed, p.used parentUsed, true)
    | _ => (p.passEnd a).map fun e => (e.needed, e.used, p.passResult e)
  else none

/-- What a step must and must not do. -/
structure Contract (p : ResourcePool) (a : Action) (p' : ResourcePool) : Prop where
  thrown : p'.thrown = []
  target : p.origTarget ≤ p'.curTarget ∧ p'.curTarget ≤ p.maxSize
  spared : ∀ parentUsed, a = .turn parentUsed → p.manager.call.isSome → ∀ (id : Nat) (mr : ManagedResource),
    p.resources[id]? = some mr → mr.isLocked ∨ mr.permanent → mr.disposalRequested = false →
      p'.resources[id]? = some mr
  room : ∀ needed used, p.returned a p' = some (needed, used, true) → used + needed ≤ p'.curTarget
  noRoom : ∀ needed used, p.returned a p' = some (needed, used, false) → p.maxSize < used + needed

/-- The hope fits, the request does not, or no less is used. -/
def MayGrow (p : ResourcePool) (e : PassEnd) : Prop :=
  e.used + e.wanted ≤ p.maxSize ∨ p.maxSize < e.used + e.needed ∨
    p.origTarget ≤ e.used + max e.needed ((p.maxSize - p.origTarget).tdiv 32)

/-- The amounts are not negative, no more is used than the maximum, the sums are `long` values, and
    the target may grow where it does. -/
def Fits (p : ResourcePool) (a : Action) : Prop :=
  p.Undisturbed a ∧
  (match a with
    | .prepareForAllocation needed parentUsed => 0 ≤ needed ∧ 0 ≤ p.used parentUsed ∧
        p.used parentUsed ≤ p.maxSize ∧ p.used parentUsed + needed < 2 ^ 63
    | _ => True) ∧
  ∀ e ∈ p.passEnd a, (p.shared → 0 ≤ e.used ∧ e.used ≤ p.maxSize) ∧ e.used + e.wanted < 2 ^ 63 ∧
    (e.stage = .tester (Fin.last 5) → p.MayGrow e)

/-! ## The decisions -/

/-- Another traversal, or the end of the call. -/
def Decided (p : ResourcePool) (needed used : Int) (room : Bool) (p' : ResourcePool) : Prop :=
  (∃ links wanted stage, needed ≤ wanted ∧
      p' = { p with manager := .traversing (.cleanup needed wanted stage) [] links }) ∨
    ∃ links target, p' = { p with manager := .idle links, curTarget := target } ∧
      p.origTarget ≤ target ∧ target ≤ p.maxSize ∧ (room = true → used + needed ≤ target) ∧
      (room = false → p.maxSize < used + needed)

section Decisions

variable {p : ResourcePool} {needed wanted parentUsed : Int} (links : List WeakLink)

theorem setTarget_decided {n : Int} (hle : n ≤ p.maxSize) (hge : p.origTarget ≤ n)
    (hroom : p.used parentUsed + needed ≤ n) :
    Decided p needed (p.used parentUsed) true
      (({ p with manager := .idle links } : ResourcePool).setTarget n) := by
  rw [setTarget, if_neg (Int.not_lt.mpr hle), if_neg (Int.not_lt.mpr hge)]
  exact .inr ⟨links, n, rfl, hge, hle, fun _ => hroom, by simp⟩

section

variable (hcur : p.origTarget ≤ p.curTarget) (hcur' : p.curTarget ≤ p.maxSize)
  (hmax : p.maxSize < 2 ^ 63) (horig : 0 ≤ p.origTarget)
include hcur hcur' hmax horig

theorem grow_decided (hle : needed ≤ wanted)
    (hused : 0 ≤ p.used parentUsed) (hused' : p.used parentUsed ≤ p.maxSize)
    (hmore : p.curTarget < p.used parentUsed + wanted)
    (hgrow : p.MayGrow ⟨needed, wanted, .tester 5, p.used parentUsed⟩) :
    Decided p needed (p.used parentUsed) true (p.grow links needed wanted parentUsed) := by
  have hrem : toLong (p.maxSize - p.used parentUsed) = p.maxSize - p.used parentUsed :=
    toLong_eq (by omega) (by omega)
  simp only [MayGrow] at hgrow
  rw [grow]
  simp only [hrem]
  generalize (p.maxSize - p.origTarget).tdiv 32 = base at *
  -- the target that is set, in each of the cases
  have hset : ∀ wanted', needed ≤ wanted' → wanted' ≤ p.maxSize - p.used parentUsed →
      (wanted' = wanted ∨ wanted' = needed ∧ p.maxSize < p.used parentUsed + wanted) →
      Decided p needed (p.used parentUsed) true (({ p with manager := .idle links } : ResourcePool).setTarget
        (toLong (p.used parentUsed + if base < wanted' then wanted' else
          if base > p.maxSize - p.used parentUsed then p.maxSize - p.used parentUsed else base))) := by
    intro wanted' hle' hroom hor
    generalize hg : (if base < wanted' then wanted' else
      if base > p.maxSize - p.used parentUsed then p.maxSize - p.used parentUsed else base) = g
    have hlow : needed ≤ g ∧ g ≤ p.maxSize - p.used parentUsed ∧ p.origTarget ≤ p.used parentUsed + g := by
      split at hg
      · omega
      · split at hg <;> omega
    obtain ⟨h1, h2, h3⟩ := hlow
    rw [toLong_eq (by omega) (by omega)]
    exact setTarget_decided links (by omega) h3 (by omega)
  by_cases hhope : wanted > p.maxSize - p.used parentUsed
  · rw [if_pos hhope]
    by_cases hroom : needed ≤ p.maxSize - p.used parentUsed
    · rw [if_pos hroom]
      exact hset needed (Int.le_refl _) hroom (.inr ⟨rfl, by omega⟩)
    · rw [if_neg hroom]
      exact .inl ⟨links, needed, .lastChance false, Int.le_refl _, rfl⟩
  · rw [if_neg hhope, if_pos (Int.not_lt.mp hhope)]
    exact hset wanted hle (Int.not_lt.mp hhope) (.inl rfl)

theorem afterPass_decided (hneeded : 0 ≤ needed) (hle : needed ≤ wanted)
    (hused : 0 ≤ p.used parentUsed) (hused' : p.used parentUsed ≤ p.maxSize)
    (hsum : p.used parentUsed + wanted < 2 ^ 63) {stage : Stage}
    (hgrow : stage = .tester 5 → p.MayGrow ⟨needed, wanted, stage, p.used parentUsed⟩) :
    Decided p needed (p.used parentUsed) (p.passResult ⟨needed, wanted, stage, p.used parentUsed⟩)
      (p.afterPass links needed wanted parentUsed stage) := by
  have hwanted := toLong_eq (n := p.used parentUsed + wanted) (by omega) hsum
  have hneed := toLong_eq (n := p.used parentUsed + needed) (by omega) (by omega)
  have hidle : ∀ b, (b = true → p.used parentUsed + needed ≤ p.curTarget) →
      (b = false → p.maxSize < p.used parentUsed + needed) →
      Decided p needed (p.used parentUsed) b { p with manager := .idle links } :=
    fun b h1 h2 => .inr ⟨links, p.curTarget, rfl, hcur, hcur', h1, h2⟩
  cases stage with
  | obsolete =>
    show Decided p needed (p.used parentUsed) true _
    rw [afterPass, hwanted]
    split
    · exact hidle true (fun _ => by omega) (by simp)
    · exact .inl ⟨links, wanted, _, hle, rfl⟩
  | tester stage =>
    show Decided p needed (p.used parentUsed) true _
    rw [afterPass, hwanted]
    split
    · exact hidle true (fun _ => by omega) (by simp)
    · split
      · exact .inl ⟨links, wanted, _, hle, rfl⟩
      · obtain rfl : stage = 5 := by omega
        exact grow_decided links hcur hcur' hmax horig hle hused hused' (by omega) (hgrow rfl)
  | lastChance desperate =>
    show Decided p needed (p.used parentUsed) (decide (toLong (p.used parentUsed + needed) ≤ _)) _
    rw [afterPass, hneed]
    split
    · rename_i hroom
      simp only [hroom, decide_true]
      split
      · exact setTarget_decided links hroom (by omega) (Int.le_refl _)
      · exact hidle true (fun _ => by omega) (by simp)
    · rename_i hroom
      simp only [hroom, decide_false]
      split
      · exact hidle false (by simp) fun _ => by omega
      · exact .inl ⟨links, wanted, _, hle, rfl⟩

end

end Decisions

/-! ## The steps -/

/-- What holds between the steps. -/
structure Fit (p : ResourcePool) : Prop where
  inv : p.Inv
  origTarget_nonneg : 0 ≤ p.origTarget
  origTarget_le : p.origTarget ≤ p.curTarget
  curTarget_le : p.curTarget ≤ p.maxSize
  maxSize_lt : p.maxSize < 2 ^ 63
  thrown : p.thrown = []
  call : ∀ c ∈ p.manager.call, 0 ≤ c.1 ∧ c.1 ≤ c.2 ∧ (p.shared = false → p.managedSize ≤ p.maxSize)

/-- Nothing is decided. -/
structure Stays (p p' : ResourcePool) : Prop where
  origTarget : p'.origTarget = p.origTarget
  curTarget : p'.curTarget = p.curTarget
  maxSize : p'.maxSize = p.maxSize
  shared : p'.shared = p.shared
  thrown : p'.thrown = p.thrown
  call : p'.manager.call = none ∨ p'.manager.call = p.manager.call ∧ p'.managedSize ≤ p.managedSize

/-- What is locked or permanent is spared, unless requested. -/
def Spares (p p' : ResourcePool) : Prop :=
  ∀ (id : Nat) (mr : ManagedResource), p.resources[id]? = some mr → mr.isLocked ∨ mr.permanent →
    mr.disposalRequested = false → p'.resources[id]? = some mr

section Steps

variable {p p' : ResourcePool} {t : Traversal} {passed rest : List WeakLink} {cur : WeakLink}
  {mr : ManagedResource}

theorem Fit.stays (h : p.Fit) (hs : Stays p p') (hinv : p'.Inv) : p'.Fit where
  inv := hinv
  origTarget_nonneg := hs.origTarget ▸ h.origTarget_nonneg
  origTarget_le := by rw [hs.origTarget, hs.curTarget]; exact h.origTarget_le
  curTarget_le := by rw [hs.curTarget, hs.maxSize]; exact h.curTarget_le
  maxSize_lt := hs.maxSize ▸ h.maxSize_lt
  thrown := hs.thrown.trans h.thrown
  call c hc := by
    obtain hnone | ⟨hsame, hsz⟩ := hs.call
    · rw [hnone] at hc
      cases hc
    · obtain ⟨h1, h2, h3⟩ := h.call c (hsame ▸ hc)
      rw [hs.shared, hs.maxSize]
      exact ⟨h1, h2, fun hshared => Int.le_trans hsz (h3 hshared)⟩

theorem Fit.contract (h : p.Fit) (hs : Stays p p') {a : Action} (hret : p.returned a p' = none)
    (hspare : ∀ u, a = .turn u → p.manager.call.isSome → Spares p p') : p.Contract a p' where
  thrown := hs.thrown.trans h.thrown
  target := by rw [hs.curTarget]; exact ⟨h.origTarget_le, h.curTarget_le⟩
  spared := hspare
  room _ _ hsome := by cases hret.symm.trans hsome
  noRoom _ _ hsome := by cases hret.symm.trans hsome

theorem Stays.unlink (h : p.Inv) (hlinks : p.manager.links = passed ++ cur :: rest)
    (hcall : p.manager.call = (Manager.traversing t passed rest).call) (resources : List ManagedResource) :
    Stays p (({ p with resources } : ResourcePool).unlink t passed cur rest) ∧
      (({ p with resources } : ResourcePool).unlink t passed cur rest).resources = resources := by
  have hsum := h.sum
  have hcut := sizes_cut passed cur rest
  rw [hlinks] at hsum
  rw [ResourcePool.unlink, @recordFree_eq { p with resources } _ _ _ hsum h.bound]
  refine ⟨⟨rfl, rfl, rfl, rfl, rfl, .inr ⟨hcall.symm, ?_⟩⟩, rfl⟩
  simp only []
  omega

theorem visit_stays (h : p.Inv) (hm : p.manager = .traversing t passed (cur :: rest))
    (hmr : p.resources[cur.id]? = some mr) :
    Stays p (p.visit t passed cur rest mr) ∧
      (p.manager.call.isSome → Spares p (p.visit t passed cur rest mr)) := by
  have hlinks : p.manager.links = passed ++ cur :: rest := by rw [hm]; rfl
  have hcall : p.manager.call = (Manager.traversing t passed rest).call := by rw [hm]; cases t <;> rfl
  obtain ⟨hgone, hres⟩ := Stays.unlink h hlinks hcall p.resources
  have hspare : Spares p (p.unlink t passed cur rest) := fun id mr hid _ _ => by rw [hres]; exact hid
  have hkeep : ∀ m : Manager, m.call = p.manager.call →
      Stays p { p with manager := m } ∧ (p.manager.call.isSome → Spares p { p with manager := m }) :=
    fun m hm' => ⟨⟨rfl, rfl, rfl, rfl, rfl, .inr ⟨hm', Int.le_refl _⟩⟩, fun _ _ _ hid _ _ => hid⟩
  -- the traversals of `cleanup` and of the check take this course
  have hfound : Stays p (if mr.collected then p.unlink t passed cur rest
      else if mr.disposalRequested then
        (p.modify cur.id fun mr => { mr.release with disposalRequested := false }).unlink t passed cur rest
      else { p with manager := .testing t passed cur rest }) ∧ (p.manager.call.isSome →
      Spares p (if mr.collected then p.unlink t passed cur rest
      else if mr.disposalRequested then
        (p.modify cur.id fun mr => { mr.release with disposalRequested := false }).unlink t passed cur rest
      else { p with manager := .testing t passed cur rest })) := by
    split
    · exact ⟨hgone, fun _ => hspare⟩
    split
    · rename_i hd
      obtain ⟨hgone', hres'⟩ := Stays.unlink h hlinks hcall
        (p.modify cur.id fun mr => { mr.release with disposalRequested := false }).resources
      refine ⟨hgone', fun _ id mr' hid _ hnot => ?_⟩
      have hne : id ≠ cur.id := by
        rintro rfl
        cases hmr.symm.trans hid
        rw [hd] at hnot
        cases hnot
      exact hres' ▸ (modify_get.2.1 id hne).trans hid
    · exact hkeep _ (by rw [hm]; cases t <;> rfl)
  cases t with
  | resourceFreed freed =>
    have hsum := h.sum
    rw [hlinks] at hsum
    rw [visit]
    split
    · rw [recordFree_eq hsum h.bound]
      exact ⟨⟨rfl, rfl, rfl, rfl, rfl, .inl rfl⟩, fun _ _ _ hid _ _ => hid⟩
    split
    · exact ⟨hgone, fun _ => hspare⟩
    · exact hkeep _ (by rw [hm]; rfl)
  | cleanup needed wanted stage | check forgiveStaleLocks => exact hfound

theorem revisit_stays (h : p.Inv) (hm : p.manager = .testing t passed cur rest)
    (hmr : p.resources[cur.id]? = some mr) :
    Stays p (p.revisit t passed cur rest mr) ∧
      (p.manager.call.isSome → Spares p (p.revisit t passed cur rest mr)) := by
  have hlinks : p.manager.links = passed ++ cur :: rest := by rw [hm]; rfl
  have hcall : p.manager.call = (Manager.traversing t passed rest).call := by rw [hm]; cases t <;> rfl
  have hstep : (Manager.traversing t (passed ++ [cur]) rest).call = p.manager.call := by
    rw [hm]
    cases t <;> rfl
  rw [ResourcePool.revisit.eq_def]
  split
  · cases t with
    | resourceFreed freed =>
      exact ⟨⟨rfl, rfl, rfl, rfl, rfl, .inl rfl⟩, fun _ _ _ hid _ _ => hid⟩
    | cleanup needed wanted stage =>
      simp only []
      split
      · rename_i hfree
        obtain ⟨hgone, hres⟩ := Stays.unlink h hlinks hcall
          (p.modify cur.id ManagedResource.release).resources
        refine ⟨hgone, fun _ id mr' hid hlocked _ => ?_⟩
        have hne : id ≠ cur.id := by
          rintro rfl
          cases hmr.symm.trans hid
          simp only [Bool.and_eq_true, Bool.not_eq_true'] at hfree
          rw [hfree.1.1, hfree.1.2] at hlocked
          exact hlocked.elim (by simp) (by simp)
        exact hres ▸ (modify_get.2.1 id hne).trans hid
      · exact ⟨⟨rfl, rfl, rfl, rfl, rfl, .inr ⟨hstep, Int.le_refl _⟩⟩, fun _ _ _ hid _ _ => hid⟩
    | check forgiveStaleLocks =>
      exact ⟨⟨rfl, rfl, rfl, rfl, rfl, .inl rfl⟩, fun hsome => by rw [hm] at hsome; cases hsome⟩
  · obtain ⟨hgone, hres⟩ := Stays.unlink h hlinks hcall p.resources
    exact ⟨hgone, fun _ id mr' hid _ _ => by rw [hres]; exact hid⟩

theorem Fit.afterPass (h : p.Fit) {needed wanted parentUsed : Int} {stage : Stage}
    (hm : p.manager = .traversing (.cleanup needed wanted stage) passed [])
    (ha : p.Fits (.turn parentUsed))
    (hinv : (p.afterPass passed needed wanted parentUsed stage).Inv) :
    (p.afterPass passed needed wanted parentUsed stage).Fit ∧
      p.Contract (.turn parentUsed) (p.afterPass passed needed wanted parentUsed stage) := by
  have hend : p.passEnd (.turn parentUsed) = some ⟨needed, wanted, stage, p.used parentUsed⟩ := by
    rw [passEnd, hm]
  obtain ⟨-, -, hfits⟩ := ha
  obtain ⟨hshared, hsum, hgrow⟩ := hfits _ hend
  obtain ⟨hneeded, hle, hsz⟩ := h.call (needed, wanted) (by rw [hm]; rfl)
  have hused : 0 ≤ p.used parentUsed ∧ p.used parentUsed ≤ p.maxSize := by
    cases hs : p.shared with
    | true => exact hshared hs
    | false =>
      have hpos := h.inv.sum
      rw [used, hs]
      exact ⟨by simp only [Bool.false_eq_true, if_false]; omega, hsz hs⟩
  have hdecided := afterPass_decided passed h.origTarget_le h.curTarget_le h.maxSize_lt
    h.origTarget_nonneg hneeded hle hused.1 hused.2 hsum hgrow
  obtain ⟨links, wanted', stage', hle', heq⟩ | ⟨links, target, heq, horig, hmax, hroom, hno⟩ := hdecided
  · rw [heq] at hinv ⊢
    refine ⟨⟨hinv, h.origTarget_nonneg, h.origTarget_le, h.curTarget_le, h.maxSize_lt, h.thrown, ?_⟩,
      ⟨h.thrown, ⟨h.origTarget_le, h.curTarget_le⟩, fun _ _ _ _ _ hid _ _ => hid, nofun, nofun⟩⟩
    rintro c ⟨⟩
    exact ⟨hneeded, hle', hsz⟩
  · have hreturned : p.returned (.turn parentUsed)
        { p with manager := .idle links, curTarget := target } =
          some (needed, p.used parentUsed, p.passResult ⟨needed, wanted, stage, p.used parentUsed⟩) := by
      show (p.passEnd (.turn parentUsed)).map _ = _
      rw [hend]
      rfl
    rw [heq] at hinv ⊢
    refine ⟨⟨hinv, h.origTarget_nonneg, horig, hmax, h.maxSize_lt, h.thrown, nofun⟩,
      ⟨h.thrown, ⟨horig, hmax⟩, fun _ _ _ _ _ hid _ _ => hid, fun n u hret => ?_, fun n u hret => ?_⟩⟩
    · obtain ⟨rfl, rfl, hresult⟩ : needed = n ∧ p.used parentUsed = u ∧ _ = true := by
        simpa using hreturned.symm.trans hret
      exact hroom hresult
    · obtain ⟨rfl, rfl, hresult⟩ : needed = n ∧ p.used parentUsed = u ∧ _ = false := by
        simpa using hreturned.symm.trans hret
      exact hno hresult

/-- A fitting step leaves a fit pool, and keeps the contract. -/
theorem Fit.step (h : p.Fit) {a : Action} (ha : p.Fits a) (hstep : p.step a = some p') :
    p'.Fit ∧ p.Contract a p' := by
  have hinv := h.inv.step ha.1 hstep
  have hother : Stays p p' → p.returned a p' = none →
      (∀ u, a = .turn u → p.manager.call.isSome → Spares p p') → p'.Fit ∧ p.Contract a p' :=
    fun hs hret hspare => ⟨h.stays hs hinv, h.contract hs hret hspare⟩
  have happly : ∀ id f, p.apply id f = some p' → Stays p p' := by
    intro id f hp
    obtain ⟨mr, -, rfl⟩ := map_eq_some_iff.1 hp
    exact ⟨rfl, rfl, rfl, rfl, rfl, .inr ⟨rfl, Int.le_refl _⟩⟩
  have hnone : p.passEnd a = none → (∀ n u, a ≠ .prepareForAllocation n u) → p.returned a p' = none := by
    intro hend hprepare
    unfold returned
    split
    · split
      · exact absurd rfl (hprepare _ _)
      · rw [hend]
        rfl
    · rfl
  cases a with
  | create size =>
    refine hother ?_ (hnone rfl (by simp)) (by simp)
    rw [ResourcePool.step] at hstep
    split at hstep
    · cases hstep
      exact ⟨rfl, rfl, rfl, rfl, rfl, .inl rfl⟩
    · cases hstep
  | lock id | unlock id | makePermanent id | contentsUseful id | contentsNotUseful id =>
    exact hother (happly id _ hstep) (hnone rfl (by simp)) (by simp)
  | dispose id =>
    refine hother ?_ (hnone rfl (by simp)) (by simp)
    rw [ResourcePool.step] at hstep
    split at hstep
    · rename_i links hm
      obtain ⟨mr, -, rfl⟩ := map_eq_some_iff.1 hstep
      rw [ResourcePool.dispose]
      split
      · exact ⟨rfl, rfl, rfl, rfl, rfl, .inl rfl⟩
      · exact ⟨rfl, rfl, rfl, rfl, rfl, .inl (by rw [hm]; rfl)⟩
    · cases hstep
  | disposeElsewhere id => exact hother (happly id _ hstep) (hnone rfl (by simp)) (by simp)
  | collect id =>
    rw [ResourcePool.step] at hstep
    split at hstep
    · cases hstep
    · exact hother (happly id _ hstep) (hnone rfl (by simp)) (by simp)
  | prepareForAllocation needed parentUsed =>
    obtain ⟨hneeded, hused, hused', hsum⟩ := ha.2.1
    rw [ResourcePool.step] at hstep
    split at hstep
    · rename_i links hm
      cases hstep
      rw [ResourcePool.prepareForAllocation, toLong_eq (by omega) hsum] at hinv ⊢
      split at hinv
      · rename_i hroom
        rw [if_pos hroom]
        refine ⟨h, h.thrown, ⟨h.origTarget_le, h.curTarget_le⟩, by simp, fun n u hret => ?_, fun n u hret => ?_⟩
        · simp only [returned, hm, Manager.isIdle, if_true, Option.some.injEq, Prod.mk.injEq] at hret
          omega
        · simp [returned, hm, Manager.isIdle] at hret
      · rename_i hroom
        rw [if_neg hroom]
        refine ⟨⟨hinv, h.origTarget_nonneg, h.origTarget_le, h.curTarget_le, h.maxSize_lt, h.thrown, ?_⟩,
          h.thrown, ⟨h.origTarget_le, h.curTarget_le⟩, by simp,
          by simp [returned, Manager.isIdle], by simp [returned, Manager.isIdle]⟩
        rintro c ⟨⟩
        refine ⟨hneeded, by simp only []; split <;> omega, fun hshared => ?_⟩
        simpa [used, show p.shared = false from hshared] using hused'
    · cases hstep
  | freeDisposalRequestedAndCheckResources forgiveStaleLocks =>
    refine hother ?_ (hnone rfl (by simp)) (by simp)
    rw [ResourcePool.step] at hstep
    split at hstep
    · cases hstep
      exact ⟨rfl, rfl, rfl, rfl, rfl, .inl rfl⟩
    · cases hstep
  | turn parentUsed =>
    -- only the end of a pass returns something
    rw [ResourcePool.step] at hstep
    split at hstep
    · cases hstep
    · rename_i t passed hm
      cases hstep
      cases t with
      | cleanup needed wanted stage => exact h.afterPass hm ha hinv
      | check forgiveStaleLocks =>
        exact hother ⟨rfl, rfl, rfl, rfl, rfl, .inl rfl⟩ (hnone (by rw [passEnd, hm]) (by simp))
          fun _ _ hsome => by rw [hm] at hsome; cases hsome
      | resourceFreed freed =>
        have hstands := h.inv.stands
        rw [hm] at hstands
        exact absurd (hstands freed rfl).1 List.not_mem_nil
    · rename_i t passed cur rest hm
      obtain ⟨mr, hmr, rfl⟩ := map_eq_some_iff.1 hstep
      obtain ⟨hs, hspare⟩ := visit_stays h.inv hm hmr
      exact hother hs (hnone (by rw [passEnd, hm]; cases t <;> rfl) (by simp)) fun _ _ => hspare
    · rename_i t passed cur rest hm
      obtain ⟨mr, hmr, rfl⟩ := map_eq_some_iff.1 hstep
      obtain ⟨hs, hspare⟩ := revisit_stays h.inv hm hmr
      exact hother hs (hnone (by rw [passEnd, hm]) (by simp)) fun _ _ => hspare

end Steps

/-! ## Runs -/

instance (p : ResourcePool) (e : PassEnd) : Decidable (p.MayGrow e) := inferInstanceAs (Decidable (_ ∨ _))

instance (p : ResourcePool) (a : Action) : Decidable (p.Fits a) :=
  have : Decidable (match a with
      | .prepareForAllocation needed parentUsed => 0 ≤ needed ∧ 0 ≤ p.used parentUsed ∧
          p.used parentUsed ≤ p.maxSize ∧ p.used parentUsed + needed < 2 ^ 63
      | _ => True) := by split <;> infer_instance
  inferInstanceAs (Decidable (_ ∧ _ ∧ _))

/-- Room is made by freeing one of two. -/
def makesRoom : List Action :=
  [.create 900, .create 100, .unlock 1, .collect 1, .prepareForAllocation 100 0, .turn 0, .turn 0, .turn 0,
    .turn 0]

/-- One of two is gone, the other too large. -/
def vanished : List Action :=
  [.create 1550, .create 50, .collect 1, .prepareForAllocation 10 0] ++ List.replicate 21 (.turn 0)

/-- No negative amount is needed, and no more is used than the maximum. -/
def Sensible (p : ResourcePool) : Action → Prop
  | .prepareForAllocation needed parentUsed => 0 ≤ needed ∧ p.used parentUsed ≤ p.maxSize
  | _ => True

instance (p : ResourcePool) (a : Action) : Decidable (p.Sensible a) := by
  unfold Sensible
  split <;> infer_instance

end ResourcePool

end OpenJfx.Prism
