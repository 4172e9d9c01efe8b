/-
  OpenJfx.Prism.ResourcePool.Accounting

  Resources are released once, and the pool's sum is that of its list.  A resource that is still
  there has a link, and one that is not has none, but for the one that `dispose()` is looking for;
  so what takes a link out frees a resource or finds it gone.
-/

import OpenJfx.Prism.ResourcePool.Basic
import Mathlib.Algebra.Order.BigOperators.Group.List
import Mathlib.Data.List.Nodup

namespace OpenJfx.Prism

open List Option ManagedResource

open OpenJfx (runActions AllSteps)

variable {mr : ManagedResource} {f : ManagedResource → ManagedResource} {p p' : ResourcePool}
  {passed rest links : List WeakLink} {cur : WeakLink} {t : Traversal}

/-! ## The invariant -/

/-- Still there and not freed, or freed once. -/
structure ManagedResource.Ok (mr : ManagedResource) : Prop where
  frees_le : mr.frees ≤ 1
  frees_eq : mr.resource = true → mr.frees = 0

theorem ManagedResource.Ok.release (h : mr.Ok) (hmr : mr.resource = true) : mr.release.Ok :=
  ⟨by rw [ManagedResource.release, h.frees_eq hmr], nofun⟩

/-- The resource that `dispose()` is looking for. -/
def Manager.freeing : Manager → Option Nat
  | .traversing (.resourceFreed freed) _ _ => some freed
  | _ => none

/-- Between its two reads of `disposalRequested`. -/
def Manager.tests (m : Manager) (id : Nat) : Bool :=
  match m with
  | .testing _ _ cur _ => decide (cur.id = id)
  | _ => false

/-- The resource at hand is as the manager's thread has found it. -/
def Manager.Stands (resources : List ManagedResource) : Manager → Prop
  | .idle _ => True
  | .traversing t _ rest => ∀ freed, t = .resourceFreed freed → freed ∈ rest.map WeakLink.id ∧
      ∃ mr : ManagedResource, resources[freed]? = some mr ∧ mr.collected = false ∧ mr.resource = false
  | .testing t _ cur _ => (∀ freed, t ≠ .resourceFreed freed) ∧
      ∃ mr : ManagedResource, resources[cur.id]? = some mr ∧ mr.collected = false ∧ mr.resource = true ∧
        mr.disposalRequested = false

def sizes (links : List WeakLink) : Nat := (links.map WeakLink.size).sum

variable {id : Nat}

namespace ResourcePool

/-- What is managed is what the linked resources take. -/
structure Inv (p : ResourcePool) : Prop where
  nodup : (p.manager.links.map WeakLink.id).Nodup
  id_lt : ∀ l ∈ p.manager.links, l.id < p.resources.length
  sum : p.managedSize = sizes p.manager.links
  bound : p.managedSize < 2 ^ 63
  thrown : ∀ e ∈ p.thrown, e = .badTarget
  ok : ∀ (i : Nat) (mr : ManagedResource), p.resources[i]? = some mr → mr.Ok
  linked : ∀ (i : Nat) (mr : ManagedResource), p.resources[i]? = some mr → mr.collected = false →
    (i ∈ p.manager.links.map WeakLink.id ↔ mr.resource = true ∨ p.manager.freeing = some i)
  stands : p.manager.Stands p.resources

theorem inv_new (target max : Int) (shared : Bool) : (new target max shared).Inv where
  nodup := nodup_nil
  id_lt := forall_mem_nil _
  sum := rfl
  bound := show (0 : Int) < 2 ^ 63 by decide
  thrown := forall_mem_nil _
  ok _ _ h := by cases h
  linked _ _ h := by cases h
  stands := trivial

theorem toLong_eq {n : Int} (h1 : 0 ≤ n) (h2 : n < 2 ^ 63) : toLong n = n :=
  Int.bmod_eq_of_le (by omega) (by omega)

/-! ## Steps that take no link away -/

/-- Objects may have vanished. -/
structure SameResources (r r' : List ManagedResource) : Prop where
  length : r'.length = r.length
  get : ∀ (i : Nat) (mr' : ManagedResource), r'[i]? = some mr' → ∃ mr : ManagedResource, r[i]? = some mr ∧ mr'.resource = mr.resource ∧
    mr'.frees = mr.frees ∧ (mr'.collected = false → mr.collected = false)

theorem SameResources.refl (r : List ManagedResource) : SameResources r r :=
  ⟨rfl, fun _ mr h => ⟨mr, h, rfl, rfl, fun hc => hc⟩⟩

theorem SameResources.modify (r : List ManagedResource) (id : Nat)
    (hf : ∀ mr, (f mr).resource = mr.resource ∧ (f mr).frees = mr.frees ∧
      ((f mr).collected = false → mr.collected = false)) : SameResources r (r.modify id f) := by
  refine ⟨length_modify _ _ _, fun i mr' h => ?_⟩
  rw [getElem?_modify] at h
  obtain ⟨mr, hmr, rfl⟩ := map_eq_some_iff.1 h
  refine ⟨mr, hmr, ?_⟩
  split
  · exact hf mr
  · exact ⟨rfl, rfl, fun hc => hc⟩

theorem Inv.replace (h : p.Inv) (hres : SameResources p.resources p'.resources)
    (hlinks : p'.manager.links = p.manager.links) (hsz : p'.managedSize = p.managedSize)
    (hthrown : ∀ e ∈ p'.thrown, e ∈ p.thrown ∨ e = .badTarget)
    (hfreeing : p'.manager.freeing = p.manager.freeing) (hstands : p'.manager.Stands p'.resources) :
    p'.Inv where
  nodup := hlinks ▸ h.nodup
  id_lt := by rw [hlinks, hres.length]; exact h.id_lt
  sum := by rw [hlinks, hsz]; exact h.sum
  bound := hsz ▸ h.bound
  thrown e he := (hthrown e he).elim (h.thrown e) id
  ok i mr' hmr' := by
    obtain ⟨mr, hmr, hresource, hfrees, -⟩ := hres.get i mr' hmr'
    obtain ⟨hle, heq⟩ := h.ok i mr hmr
    exact ⟨hfrees ▸ hle, fun hr => hfrees ▸ heq (hresource ▸ hr)⟩
  linked i mr' hmr' hc := by
    obtain ⟨mr, hmr, hresource, -, hcollected⟩ := hres.get i mr' hmr'
    rw [hlinks, hfreeing, hresource]
    exact h.linked i mr hmr (hcollected hc)
  stands := hstands

/-! ## Steps that take a link away -/

theorem sizes_cons (l : WeakLink) (links : List WeakLink) : sizes (l :: links) = l.size + sizes links :=
  sum_cons

theorem sizes_cut (passed : List WeakLink) (cur : WeakLink) (rest : List WeakLink) :
    sizes (passed ++ cur :: rest) = sizes (passed ++ rest) + cur.size := by
  simp only [sizes, map_append, map_cons, sum_append, sum_cons]
  omega

theorem recordFree_eq (hsum : p.managedSize = sizes (passed ++ cur :: rest))
    (hbound : p.managedSize < 2 ^ 63) (next : ResourcePool → ResourcePool) :
    p.recordFree cur.size next = next { p with managedSize := sizes (passed ++ rest) } := by
  have hcut := sizes_cut passed cur rest
  have hsz : toLong (p.managedSize - cur.size) = sizes (passed ++ rest) := by
    rw [toLong_eq (by omega) (by omega)]
    omega
  rw [recordFree]
  simp only [hsz]
  exact if_neg (by omega)

/-- A link is gone, and its resource has been freed or has vanished. -/
theorem Inv.removed (h : p.Inv) (hlinks : p.manager.links = passed ++ cur :: rest)
    (hlinks' : p'.manager.links = passed ++ rest) (hsz : p'.managedSize = sizes (passed ++ rest))
    (hthrown : p'.thrown = p.thrown) (hlen : p'.resources.length = p.resources.length)
    (hothers : ∀ i, i ≠ cur.id → p'.resources[i]? = p.resources[i]?)
    (hcur : ∀ mr, p'.resources[cur.id]? = some mr → mr.Ok ∧ (mr.collected = false → mr.resource = false))
    (hfreeing : ∀ i, i ≠ cur.id → (p'.manager.freeing = some i ↔ p.manager.freeing = some i))
    (hfreed : p'.manager.freeing ≠ some cur.id) (hstands : p'.manager.Stands p'.resources) : p'.Inv := by
  have hnd := h.nodup
  rw [hlinks, map_append, map_cons, nodup_middle, nodup_cons] at hnd
  rw [← map_append] at hnd
  have hmem : ∀ i, i ≠ cur.id → (i ∈ (passed ++ rest).map WeakLink.id ↔
      i ∈ p.manager.links.map WeakLink.id) := by
    intro i hi
    rw [hlinks, map_append, map_append, map_cons, mem_append, mem_append, mem_cons, or_iff_right hi]
  have hcut := sizes_cut passed cur rest
  have hsum := h.sum
  have hbound := h.bound
  rw [hlinks] at hsum
  refine ⟨by rw [hlinks']; exact hnd.2, ?_, by rw [hlinks', hsz], by omega, hthrown ▸ h.thrown, ?_,
    ?_, hstands⟩
  · intro l hl
    rw [hlinks'] at hl
    rw [hlen]
    refine h.id_lt l ?_
    rw [hlinks]
    exact (mem_append.1 hl).elim (mem_append_left _)
      fun hl => mem_append_right _ (.tail _ hl)
  · intro i mr hmr
    by_cases hi : i = cur.id
    · subst hi
      exact (hcur mr hmr).1
    · exact h.ok i mr (hothers i hi ▸ hmr)
  · intro i mr hmr hc
    rw [hlinks']
    by_cases hi : i = cur.id
    · subst hi
      refine ⟨fun hin => absurd hin hnd.1, fun hor => hor.elim (fun hr => ?_) fun hf => absurd hf hfreed⟩
      rw [(hcur mr hmr).2 hc] at hr
      cases hr
    · rw [hmem i hi, hfreeing i hi]
      exact h.linked i mr (hothers i hi ▸ hmr) hc

/-- A link that is taken out in a traversal of `cleanup` or of the check. -/
theorem Inv.unlink {p1 : ResourcePool} (h : p.Inv)
    (hlinks : p.manager.links = passed ++ cur :: rest)
    (hnone : p.manager.freeing = none) (ht : ∀ freed, t ≠ .resourceFreed freed)
    (hsz : p1.managedSize = p.managedSize) (hthrown : p1.thrown = p.thrown)
    (hlen : p1.resources.length = p.resources.length)
    (hothers : ∀ i, i ≠ cur.id → p1.resources[i]? = p.resources[i]?)
    (hcur : ∀ mr : ManagedResource, p1.resources[cur.id]? = some mr →
      mr.Ok ∧ (mr.collected = false → mr.resource = false)) :
    (p1.unlink t passed cur rest).Inv := by
  have hsum := h.sum
  rw [hlinks] at hsum
  rw [ResourcePool.unlink, recordFree_eq (hsz.trans hsum) (hsz ▸ h.bound)]
  have hfreeing : Manager.freeing (.traversing t passed rest) = none := by
    cases t with
    | resourceFreed freed => exact absurd rfl (ht freed)
    | cleanup _ _ _ | check _ => rfl
  refine h.removed hlinks rfl rfl hthrown hlen hothers hcur (fun i _ => ?_) ?_
    fun freed heq => absurd heq (ht freed)
  · rw [hnone]
    exact iff_of_eq (congrArg (· = some i) hfreeing)
  · exact fun hsome => by cases hfreeing.symm.trans hsome

theorem modify_get {p : ResourcePool} {id : Nat} {f : ManagedResource → ManagedResource} :
    (p.modify id f).resources.length = p.resources.length ∧
      (∀ i, i ≠ id → (p.modify id f).resources[i]? = p.resources[i]?) ∧
      (p.modify id f).resources[id]? = (p.resources[id]?).map f := by
  refine ⟨length_modify _ _ _, fun i hi => ?_, ?_⟩
  · rw [modify, getElem?_modify]
    simp only [if_neg (Ne.symm hi)]
    exact Option.map_id'
  · rw [modify, getElem?_modify]
    simp only [if_true]
    rfl

/-! ## The turns of the loops -/

theorem Inv.resource_of_link (h : p.Inv) (hlinks : p.manager.links = passed ++ cur :: rest)
    (hmr : p.resources[cur.id]? = some mr) (hc : mr.collected = false)
    (hfreed : p.manager.freeing ≠ some cur.id) : mr.resource = true := by
  refine ((h.linked cur.id mr hmr hc).1 ?_).resolve_right hfreed
  rw [hlinks, map_append]
  exact mem_append_right _ mem_cons_self

theorem Inv.visit_found (h : p.Inv) (hm : p.manager = .traversing t passed (cur :: rest))
    (ht : ∀ freed, t ≠ .resourceFreed freed)
    (hmr : p.resources[cur.id]? = some mr) :
    (if mr.collected then p.unlink t passed cur rest
      else if mr.disposalRequested then
        (p.modify cur.id fun mr => { mr.release with disposalRequested := false }).unlink t passed cur rest
      else { p with manager := .testing t passed cur rest }).Inv := by
  have hlinks : p.manager.links = passed ++ cur :: rest := by rw [hm]; rfl
  have hnone : p.manager.freeing = none := by
    rw [hm]
    cases t with
    | resourceFreed freed => exact absurd rfl (ht freed)
    | cleanup _ _ _ | check _ => rfl
  have hok := h.ok cur.id mr hmr
  by_cases hc : mr.collected = true
  · rw [if_pos hc]
    refine h.unlink hlinks hnone ht rfl rfl rfl (fun _ _ => rfl) fun mr' hmr' => ?_
    obtain rfl := some.inj (hmr.symm.trans hmr')
    exact ⟨hok, fun hf => by rw [hc] at hf; cases hf⟩
  rw [if_neg hc]
  have hc := Bool.eq_false_of_not_eq_true hc
  have hresource := h.resource_of_link hlinks hmr hc (by rw [hnone]; exact nofun)
  by_cases hd : mr.disposalRequested = true
  · rw [if_pos hd]
    obtain ⟨hlen, hothers, hget⟩ :=
      @modify_get p cur.id fun mr => { mr.release with disposalRequested := false }
    refine h.unlink hlinks hnone ht rfl rfl hlen hothers fun mr' hmr' => ?_
    rw [hget, hmr] at hmr'
    cases hmr'
    obtain ⟨hle, -⟩ := hok.release hresource
    exact ⟨⟨hle, nofun⟩, fun _ => rfl⟩
  · rw [if_neg hd]
    refine h.replace (.refl _) hlinks.symm rfl (fun e he => .inl he) hnone.symm ⟨ht, mr, hmr, hc, hresource, ?_⟩
    exact Bool.eq_false_of_not_eq_true hd

theorem Inv.visit_freed (h : p.Inv) {freed : Nat}
    (hm : p.manager = .traversing (.resourceFreed freed) passed (cur :: rest))
    (hmr : p.resources[cur.id]? = some mr) :
    (p.visit (.resourceFreed freed) passed cur rest mr).Inv := by
  have hlinks : p.manager.links = passed ++ cur :: rest := by rw [hm]; rfl
  have hfreeing : p.manager.freeing = some freed := by rw [hm]; rfl
  have hstands := h.stands
  rw [hm] at hstands
  obtain ⟨hmem, mrf, hmrf, hcf, hrf⟩ := hstands freed rfl
  have hsum := h.sum
  rw [hlinks] at hsum
  have hok := h.ok cur.id mr hmr
  rw [visit]
  by_cases hid : cur.id = freed
  · rw [if_pos hid, recordFree_eq hsum h.bound]
    refine h.removed hlinks rfl rfl rfl rfl (fun _ _ => rfl) (fun mr' hmr' => ?_) (fun i hi => ?_) nofun
      trivial
    · obtain rfl := some.inj (hmr.symm.trans hmr')
      rw [hid] at hmr
      obtain rfl := some.inj (hmr.symm.trans hmrf)
      exact ⟨hok, fun _ => hrf⟩
    · rw [hfreeing]
      exact ⟨nofun, fun heq => absurd (some.inj heq).symm (hid ▸ hi)⟩
  rw [if_neg hid]
  have hmem' : freed ∈ rest.map WeakLink.id := (mem_cons.1 hmem).resolve_left (Ne.symm hid)
  have hstands' : ∀ freed', Traversal.resourceFreed freed = .resourceFreed freed' →
      freed' ∈ rest.map WeakLink.id ∧ ∃ mr : ManagedResource, p.resources[freed']? = some mr ∧
        mr.collected = false ∧ mr.resource = false := by
    rintro _ ⟨⟩
    exact ⟨hmem', mrf, hmrf, hcf, hrf⟩
  by_cases hc : mr.collected = true
  · rw [if_pos hc, ResourcePool.unlink, recordFree_eq hsum h.bound]
    refine h.removed hlinks rfl rfl rfl rfl (fun _ _ => rfl) (fun mr' hmr' => ?_)
      (fun i _ => by rw [hfreeing]; rfl) (fun heq => hid (some.inj heq).symm) hstands'
    obtain rfl := some.inj (hmr.symm.trans hmr')
    exact ⟨hok, fun hf => by rw [hc] at hf; cases hf⟩
  · rw [if_neg hc]
    refine h.replace (.refl _) ?_ rfl (fun e he => .inl he) hfreeing.symm hstands'
    rw [hlinks]
    exact append_assoc _ _ _

theorem checkLocks_fields (forgiveStaleLocks : Bool) (mr : ManagedResource) :
    (checkLocks forgiveStaleLocks mr).resource = mr.resource ∧
      (checkLocks forgiveStaleLocks mr).frees = mr.frees ∧
      ((checkLocks forgiveStaleLocks mr).collected = false → mr.collected = false) := by
  have hbump : ∀ (mr : ManagedResource) (n : Nat), (mr.bumpAge n).resource = mr.resource ∧
      (mr.bumpAge n).frees = mr.frees ∧ (mr.bumpAge n).collected = mr.collected := by
    intro mr n
    rw [bumpAge]
    split <;> exact ⟨rfl, rfl, rfl⟩
  rw [checkLocks]
  split
  · exact ⟨rfl, rfl, fun hc => hc⟩
  · simp only [hbump]
    split
    · split <;> exact ⟨rfl, rfl, fun hc => hc⟩
    · exact ⟨rfl, rfl, fun hc => hc⟩

/-- The second read of `disposalRequested` finds what the first one has. -/
theorem Inv.revisit (h : p.Inv) (hm : p.manager = .testing t passed cur rest)
    (hmr : p.resources[cur.id]? = some mr) :
    (p.revisit t passed cur rest mr).Inv := by
  have hlinks : p.manager.links = passed ++ cur :: rest := by rw [hm]; rfl
  have hnone : p.manager.freeing = none := by rw [hm]; rfl
  have hstands := h.stands
  rw [hm] at hstands
  obtain ⟨ht, mr', hmr', hc, hresource, hd⟩ := hstands
  obtain rfl := some.inj (hmr.symm.trans hmr')
  have hvalid : mr.isValid = true := by
    rw [isValid, hresource, hd]
    rfl
  have hkept : passed ++ [cur] ++ rest = passed ++ cur :: rest := append_assoc _ _ _
  rw [ResourcePool.revisit.eq_def, if_pos hvalid]
  cases t with
  | resourceFreed freed => exact absurd rfl (ht freed)
  | cleanup needed wanted stage =>
    simp only []
    split
    · obtain ⟨hlen, hothers, hget⟩ := @modify_get p cur.id ManagedResource.release
      refine h.unlink hlinks hnone ht rfl rfl hlen hothers fun mr' hmr' => ?_
      rw [hget, hmr] at hmr'
      cases hmr'
      exact ⟨(h.ok cur.id mr hmr).release hresource, fun _ => rfl⟩
    · exact h.replace (.refl _) (hkept.trans hlinks.symm) rfl (fun e he => .inl he) hnone.symm
        fun freed heq => absurd heq (ht freed)
  | check forgiveStaleLocks =>
    exact h.replace (.modify _ _ (checkLocks_fields forgiveStaleLocks)) (hkept.trans hlinks.symm) rfl
      (fun e he => .inl he) hnone.symm fun freed heq => absurd heq (ht freed)

/-- Another traversal starts, or none, and the target may be another one. -/
structure Rests (p p' : ResourcePool) : Prop where
  resources : p'.resources = p.resources
  links : p'.manager.links = p.manager.links
  managedSize : p'.managedSize = p.managedSize
  thrown : ∀ e ∈ p'.thrown, e ∈ p.thrown ∨ e = .badTarget
  freeing : p'.manager.freeing = none
  stands : ∀ r, p'.manager.Stands r

theorem Inv.rests (h : p.Inv) (hp : Rests p p') (hnone : p.manager.freeing = none) : p'.Inv :=
  h.replace (hp.resources ▸ .refl _) hp.links hp.managedSize hp.thrown (hp.freeing.trans hnone.symm)
    (hp.stands _)

section

variable (hlinks : p.manager.links = links)
include hlinks

theorem Rests.idle :
    Rests p { p with manager := .idle links } :=
  ⟨rfl, hlinks.symm, rfl, fun _ he => .inl he, rfl, fun _ => trivial⟩

theorem Rests.cleanup (needed wanted : Int) (stage : Stage) :
    Rests p { p with manager := .traversing (.cleanup needed wanted stage) [] links } :=
  ⟨rfl, hlinks.symm, rfl, fun _ he => .inl he, rfl, fun _ => nofun⟩

theorem Rests.setTarget (newTarget : Int) :
    Rests p (({ p with manager := .idle links } : ResourcePool).setTarget newTarget) := by
  have hthrow : Rests p (({ p with manager := .idle links } : ResourcePool).throw .badTarget) :=
    ⟨rfl, hlinks.symm, rfl, fun _ he => (mem_append.1 he).imp_right mem_singleton.1, rfl,
      fun _ => trivial⟩
  rw [ResourcePool.setTarget]
  split
  · exact hthrow
  · split
    · exact hthrow
    · exact ⟨rfl, hlinks.symm, rfl, fun _ he => .inl he, rfl, fun _ => trivial⟩

theorem Rests.afterPass (needed wanted parentUsed : Int) (stage : Stage) :
    Rests p (p.afterPass links needed wanted parentUsed stage) := by
  cases stage with
  | obsolete =>
    rw [ResourcePool.afterPass]
    split
    · exact .idle hlinks
    · exact .cleanup hlinks _ _ _
  | tester stage =>
    rw [ResourcePool.afterPass]
    split
    · exact .idle hlinks
    · split
      · exact .cleanup hlinks _ _ _
      · rw [grow]
        generalize (if wanted > toLong (p.maxSize - p.used parentUsed) then needed else wanted) = wanted'
        simp only []
        split
        · exact .setTarget hlinks _
        · exact .cleanup hlinks _ _ _
  | lastChance desperate =>
    rw [ResourcePool.afterPass]
    split
    · split
      · exact .setTarget hlinks _
      · exact .idle hlinks
    · split
      · exact .idle hlinks
      · exact .cleanup hlinks _ _ _

end

/-- The search of `resourceFreed` does not come to the end of the list. -/
theorem Inv.finish (h : p.Inv) (hm : p.manager = .traversing t passed []) (parentUsed : Int) :
    (p.finish passed parentUsed t).Inv := by
  have hlinks : p.manager.links = passed := by rw [hm]; exact append_nil _
  cases t with
  | cleanup needed wanted stage =>
    exact h.rests (.afterPass hlinks _ _ _ _) (by rw [hm]; rfl)
  | check forgiveStaleLocks => exact h.rests (.idle hlinks) (by rw [hm]; rfl)
  | resourceFreed freed =>
    have hstands := h.stands
    rw [hm] at hstands
    exact absurd (hstands freed rfl).1 not_mem_nil

/-! ## Steps -/

theorem Inv.create (h : p.Inv) (hm : p.manager = .idle links)
    {size : Nat} (hroom : p.managedSize + size < 2 ^ 63) : (p.create links size).Inv := by
  have hlinks : p.manager.links = links := by rw [hm]; rfl
  have hlt := h.id_lt
  have hsum := h.sum
  have hnd := h.nodup
  rw [hlinks] at hlt hsum hnd
  have hfresh : p.resources.length ∉ links.map WeakLink.id := by
    intro hin
    obtain ⟨l, hl, heq⟩ := mem_map.1 hin
    have := hlt l hl
    omega
  have hsz : (p.create links size).managedSize = sizes (⟨p.resources.length, size⟩ :: links) := by
    show toLong (p.managedSize + size) = _
    rw [toLong_eq (by omega) hroom, hsum, sizes_cons, Int.natCast_add, Int.add_comm]
  have hget : ∀ (i : Nat) (mr : ManagedResource), (p.create links size).resources[i]? = some mr →
      p.resources[i]? = some mr ∨ (i = p.resources.length ∧ mr = .new) := by
    intro i mr hmr
    rw [ResourcePool.create, recordAllocated, getElem?_append] at hmr
    split at hmr
    · exact .inl hmr
    · next hi =>
      rw [getElem?_singleton] at hmr
      split at hmr
      · exact .inr ⟨by omega, (some.inj hmr).symm⟩
      · cases hmr
  refine ⟨nodup_cons.2 ⟨hfresh, hnd⟩, ?_, hsz, ?_, h.thrown, ?_, ?_, trivial⟩
  · have hlen : (p.create links size).resources.length = p.resources.length + 1 := length_append
    rw [hlen]
    exact forall_mem_cons.2 ⟨Nat.lt_succ_self _, fun l hl => Nat.lt_succ_of_lt (hlt l hl)⟩
  · show toLong (p.managedSize + size) < _
    rw [toLong_eq (by omega) hroom]
    exact hroom
  · intro i mr hmr
    obtain hmr | ⟨-, rfl⟩ := hget i mr hmr
    · exact h.ok i mr hmr
    · exact ⟨Nat.zero_le 1, fun _ => rfl⟩
  · intro i mr hmr hc
    have hmem : i ∈ ((⟨p.resources.length, size⟩ : WeakLink) :: links).map WeakLink.id ↔
        i = p.resources.length ∨ i ∈ links.map WeakLink.id := mem_cons
    refine hmem.trans ?_
    obtain hmr | ⟨rfl, rfl⟩ := hget i mr hmr
    · have hi := (List.getElem?_eq_some_iff.1 hmr).1
      have hlink := h.linked i mr hmr hc
      rw [hm] at hlink
      rw [or_iff_right (by omega)]
      exact hlink
    · exact ⟨fun _ => .inl rfl, fun _ => .inl rfl⟩

theorem Inv.dispose (h : p.Inv) (hm : p.manager = .idle links) (hmr : p.resources[id]? = some mr)
    (hc : mr.collected = false) :
    (p.dispose links id mr).Inv := by
  have hlinks : p.manager.links = links := by rw [hm]; rfl
  have hfreeing : p.manager.freeing = none := by rw [hm]; rfl
  rw [ResourcePool.dispose]
  by_cases hr : mr.resource = true
  · rw [if_pos hr]
    obtain ⟨hlen, hothers, hget⟩ :=
      @modify_get p id fun mr => { mr.release with disposalRequested := false }
    have hmem := (h.linked id mr hmr hc).2 (.inl hr)
    rw [hmr, map_some] at hget
    have hok := (h.ok id mr hmr).release hr
    refine ⟨hlinks ▸ h.nodup, ?_, hlinks ▸ h.sum, h.bound, h.thrown, ?_, ?_, ?_⟩
    · intro l hl
      exact hlen ▸ h.id_lt l (hlinks ▸ hl)
    · intro i mr' hmr'
      by_cases hi : i = id
      · subst hi
        obtain rfl := some.inj (hget.symm.trans hmr')
        exact ⟨hok.frees_le, nofun⟩
      · exact h.ok i mr' ((hothers i hi).symm.trans hmr')
    · intro i mr' hmr' hc'
      by_cases hi : i = id
      · subst hi
        exact ⟨fun _ => .inr rfl, fun _ => hlinks ▸ hmem⟩
      · have hlink := h.linked i mr' ((hothers i hi).symm.trans hmr') hc'
        rw [hlinks, hfreeing, or_iff_left nofun] at hlink
        exact hlink.trans (or_iff_left fun heq => hi (some.inj heq).symm).symm
    · rintro _ ⟨⟩
      exact ⟨hlinks ▸ hmem, _, hget, hc, rfl⟩
  · rw [if_neg hr]
    exact h

/-- No write between the reads; the sizes fit a `long`. -/
def Undisturbed (p : ResourcePool) : Action → Prop
  | .disposeElsewhere id => p.manager.tests id = false
  | .create size => p.managedSize + size < 2 ^ 63
  | _ => True

instance (p : ResourcePool) (a : Action) : Decidable (p.Undisturbed a) :=
  match a with
  | .disposeElsewhere id => inferInstanceAs (Decidable (p.manager.tests id = false))
  | .create size => inferInstanceAs (Decidable (p.managedSize + size < 2 ^ 63))
  | .lock _ | .unlock _ | .makePermanent _ | .contentsUseful _ | .contentsNotUseful _ | .dispose _
  | .collect _ | .prepareForAllocation _ _ | .freeDisposalRequestedAndCheckResources _ | .turn _ =>
    inferInstanceAs (Decidable True)

theorem Inv.apply (h : p.Inv) (hf : ∀ mr, (f mr).resource = mr.resource ∧ (f mr).frees = mr.frees ∧
      ((f mr).collected = false → mr.collected = false))
    (hstands : ∀ mr, p.manager.holds id = true → (f mr).collected = mr.collected ∧
      ((∃ t passed cur rest, p.manager = .testing t passed cur rest) →
        (f mr).disposalRequested = mr.disposalRequested))
    (hp : p.apply id f = some p') : p'.Inv := by
  obtain ⟨mr, -, rfl⟩ := map_eq_some_iff.1 hp
  obtain ⟨-, hothers, hget⟩ := @modify_get p id f
  refine h.replace (.modify _ _ hf) rfl rfl (fun _ he => .inl he) rfl ?_
  have hs := h.stands
  show p.manager.Stands _
  cases hm : p.manager with
  | idle links => trivial
  | traversing t passed rest =>
    rw [hm] at hs
    rintro freed rfl
    obtain ⟨hmem, mrf, hmrf, hc, hr⟩ := hs freed rfl
    by_cases hi : freed = id
    · subst hi
      have hholds : p.manager.holds freed = true := by
        rw [hm]
        exact decide_eq_true rfl
      refine ⟨hmem, f mrf, by rw [hget, hmrf]; rfl, ?_, ?_⟩
      · rw [(hstands mrf hholds).1]
        exact hc
      · rw [(hf mrf).1]
        exact hr
    · exact ⟨hmem, mrf, (hothers freed hi).trans hmrf, hc, hr⟩
  | testing t passed cur rest =>
    rw [hm] at hs
    obtain ⟨ht, mrc, hmrc, hc, hr, hd⟩ := hs
    by_cases hi : cur.id = id
    · subst hi
      have hholds : p.manager.holds cur.id = true := by
        rw [hm]
        exact decide_eq_true rfl
      obtain ⟨hcol, hdis⟩ := hstands mrc hholds
      refine ⟨ht, f mrc, by rw [hget, hmrc]; rfl, hcol.trans hc, (hf mrc).1.trans hr, ?_⟩
      rw [hdis ⟨t, passed, cur, rest, hm⟩]
      exact hd
    · exact ⟨ht, mrc, (hothers cur.id hi).trans hmrc, hc, hr, hd⟩

/-- The fields that traversals rely on stay. -/
def Keeps (f : ManagedResource → ManagedResource) : Prop :=
  ∀ mr, (f mr).resource = mr.resource ∧ (f mr).frees = mr.frees ∧
    (f mr).collected = mr.collected ∧ (f mr).disposalRequested = mr.disposalRequested

theorem keeps_lock : Keeps lock := fun _ => ⟨rfl, rfl, rfl, rfl⟩

theorem keeps_unlock : Keeps unlock := by
  intro mr
  rw [unlock]
  split <;> exact ⟨rfl, rfl, rfl, rfl⟩

theorem keeps_makePermanent : Keeps makePermanent := by
  intro mr
  rw [makePermanent]
  split <;> exact ⟨rfl, rfl, rfl, rfl⟩

theorem keeps_contentsUseful : Keeps contentsUseful := by
  intro mr
  rw [contentsUseful]
  split <;> exact ⟨rfl, rfl, rfl, rfl⟩

theorem keeps_contentsNotUseful : Keeps contentsNotUseful := by
  intro mr
  rw [contentsNotUseful]
  split <;> exact ⟨rfl, rfl, rfl, rfl⟩

theorem Inv.apply_of_keeps (h : p.Inv) (hf : Keeps f) (hp : p.apply id f = some p') : p'.Inv := by
  refine h.apply (fun mr => ?_) (fun mr _ => ?_) hp
  · obtain ⟨hr, hn, hc, -⟩ := hf mr
    exact ⟨hr, hn, fun hc' => hc.symm.trans hc'⟩
  · obtain ⟨-, -, hc, hd⟩ := hf mr
    exact ⟨hc, fun _ => hd⟩

theorem reachable_eq_some
    (h : p.reachable id = some mr) : p.resources[id]? = some mr ∧ mr.collected = false := by
  obtain ⟨hmr, hc⟩ := filter_eq_some_iff.1 h
  exact ⟨hmr, by simpa using hc⟩

/-- Every undisturbed step keeps the invariant. -/
theorem Inv.step {p p' : ResourcePool} {a : Action} (h : p.Inv) (ha : p.Undisturbed a)
    (hstep : p.step a = some p') : p'.Inv := by
  cases a with
  | create size =>
    rw [ResourcePool.step] at hstep
    split at hstep
    · next links hm =>
      cases hstep
      exact h.create hm ha
    · cases hstep
  | lock id => exact h.apply_of_keeps keeps_lock hstep
  | unlock id => exact h.apply_of_keeps keeps_unlock hstep
  | makePermanent id => exact h.apply_of_keeps keeps_makePermanent hstep
  | contentsUseful id => exact h.apply_of_keeps keeps_contentsUseful hstep
  | contentsNotUseful id => exact h.apply_of_keeps keeps_contentsNotUseful hstep
  | dispose id =>
    rw [ResourcePool.step] at hstep
    split at hstep
    · next links hm =>
      obtain ⟨mr, hmr, rfl⟩ := map_eq_some_iff.1 hstep
      obtain ⟨hget, hc⟩ := reachable_eq_some hmr
      exact h.dispose hm hget hc
    · cases hstep
  | disposeElsewhere id =>
    refine h.apply (f := fun mr => { mr with disposalRequested := true })
      (fun mr => ⟨rfl, rfl, fun hc => hc⟩) (fun mr hholds => ⟨rfl, ?_⟩) hstep
    rintro ⟨t, passed, cur, rest, hm⟩
    rw [hm] at hholds
    rw [Undisturbed, hm] at ha
    cases hholds.symm.trans ha
  | collect id =>
    rw [ResourcePool.step] at hstep
    split at hstep
    · cases hstep
    · next hholds =>
      exact h.apply (f := fun mr => { mr with collected := true })
        (fun mr => ⟨rfl, rfl, nofun⟩) (fun mr hholds' => absurd hholds' hholds) hstep
  | prepareForAllocation size parentUsed =>
    rw [ResourcePool.step] at hstep
    split at hstep
    · next links hm =>
      cases hstep
      rw [ResourcePool.prepareForAllocation]
      split
      · exact h
      · exact h.rests (.cleanup (by rw [hm]; rfl) _ _ _) (by rw [hm]; rfl)
    · cases hstep
  | freeDisposalRequestedAndCheckResources forgiveStaleLocks =>
    rw [ResourcePool.step] at hstep
    split at hstep
    · next links hm =>
      cases hstep
      refine h.replace (.refl _) ?_ rfl (fun _ he => .inl he) ?_ fun freed => nofun
      · rw [hm]
        rfl
      · rw [hm]
        rfl
    · cases hstep
  | turn parentUsed =>
    rw [ResourcePool.step] at hstep
    split at hstep
    · cases hstep
    · next t passed hm =>
      cases hstep
      exact h.finish hm parentUsed
    · next t passed cur rest hm =>
      obtain ⟨mr, hmr, rfl⟩ := map_eq_some_iff.1 hstep
      cases t with
      | resourceFreed freed => exact h.visit_freed hm hmr
      | cleanup needed wanted stage | check forgiveStaleLocks => exact h.visit_found hm nofun hmr
    · next t passed cur rest hm =>
      obtain ⟨mr, hmr, rfl⟩ := map_eq_some_iff.1 hstep
      exact h.revisit hm hmr

/-! ## Runs -/

/-- What holds of the accounts. -/
structure Accounted (p : ResourcePool) : Prop where
  freed_once : ∀ (i : Nat) (mr : ManagedResource), p.resources[i]? = some mr → mr.frees ≤ 1
  sum : p.managedSize = sizes p.manager.links
  linked_once : ∀ (i : Nat) (mr : ManagedResource), p.resources[i]? = some mr → mr.collected = false →
    mr.resource = true → (p.manager.links.map WeakLink.id).count i = 1
  not_negative : .negativeResourceAmount ∉ p.thrown
  managed : .unmanagedResourceFreed ∉ p.thrown

theorem Inv.accounted (h : p.Inv) : p.Accounted where
  freed_once i mr hmr := (h.ok i mr hmr).frees_le
  sum := h.sum
  linked_once i mr hmr hc hr := by
    rw [count_eq_one_of_mem h.nodup]
    exact (h.linked i mr hmr hc).2 (.inl hr)
  not_negative he := nomatch h.thrown _ he
  managed he := nomatch h.thrown _ he

/-- If the two reads of `_isgone` are undisturbed, resources are freed once and the sizes add up. -/
theorem accounted_of_run {target max : Int} {shared : Bool} {actions : List Action} {p : ResourcePool}
    (hrun : runActions step (new target max shared) actions = some p)
    (hall : AllSteps Undisturbed step (new target max shared) actions) : p.Accounted :=
  (OpenJfx.runActions_invariant_of (fun _ _ _ hp ha hstep => hp.step ha hstep) (inv_new _ _ _) hall
    hrun).accounted

/-- One on another thread and freed, one on the manager's. -/
def disposals : List Action :=
  [.create 5, .create 7, .unlock 1, .disposeElsewhere 0, .prepareForAllocation 1 0,
    .turn 0, .turn 0, .turn 0, .turn 0, .collect 0, .dispose 1, .turn 0]

theorem accounted_of_run_disposals : ∃ p, runActions step (new 10 16 false) disposals = some p ∧
      p.resources.map frees = [1, 1] ∧ p.Accounted := by
  obtain ⟨p, hp⟩ := isSome_iff_exists.1
    (show (runActions step (new 10 16 false) disposals).isSome by decide)
  refine ⟨p, hp, ?_, accounted_of_run hp (by decide)⟩
  have hfrees : (runActions step (new 10 16 false) disposals).map (fun p =>
      p.resources.map frees) = some [1, 1] := by decide
  rw [hp] at hfrees
  exact some.inj hfrees

/-- Disposed of between the reads, and again later. -/
def disturbed : List Action :=
  [.create 5, .freeDisposalRequestedAndCheckResources false, .turn 0, .disposeElsewhere 0, .turn 0,
    .turn 0, .dispose 0, .turn 0]

/-- The resource has lost its link, and `dispose()` does not find it. -/
theorem accounted_fails :
    ¬ ∀ (target max : Int) (shared : Bool) (actions : List Action) (p : ResourcePool),
      runActions step (new target max shared) actions = some p → p.Accounted := by
  intro h
  exact (h 10 16 false disturbed _ rfl).managed (by decide)

end ResourcePool

end OpenJfx.Prism
