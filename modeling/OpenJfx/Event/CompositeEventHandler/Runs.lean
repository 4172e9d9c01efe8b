/-
  OpenJfx.Event.CompositeEventHandler.Runs

  What holds along every run. A dispatch on a record taken out of the list continues with the link
  this record had then. If the record after it is taken out as well, the dispatch still visits it.
-/

import OpenJfx.Event.CompositeEventHandler.Links

namespace OpenJfx.Event

open CompositeEventHandler List

variable {H : Type} (isWeak : H → Bool)

/-! ## The property -/

/-- A doubly linked list with each processor, for each kind, at most once. -/
def WellFormed (c : CompositeEventHandler H) : Prop :=
  ∃ L, DoublyLinked c.nextRecord c.prevRecord c.firstRecord c.lastRecord L ∧
    (∀ r ∈ L, r < c.records.length) ∧ (L.map c.stored).Nodup

/-- Well formed, and nothing removed is invoked. -/
def Consistent (s : State H) : Prop :=
  WellFormed s.handler ∧ ∀ a p, s.invoked isWeak a = some p → p ∉ s.removed

/-- The states of the runs whose steps all meet `ok`. -/
inductive Reaches [DecidableEq H] (ok : State H → Action H → Prop) : State H → Prop
  | start : Reaches ok State.new
  | step {s s' : State H} {a : Action H} (h : Reaches ok s) (hok : ok s a)
      (hstep : step isWeak s a = some s') : Reaches ok s'

/-! ## The condition -/

/-- The record is passed: of the other kind, still connected. -/
def Harmless (c : CompositeEventHandler H) (capturing : Bool) (r : Nat) : Prop :=
  ∃ p, c.stored r = some (p, !capturing) ∧ isWeak p = false

/-- The record at which the links from `record` on come back to the list. -/
inductive ResumesAt (c : CompositeEventHandler H) : Option Nat → Nat → Prop
  | here {r : Nat} (hr : r ∈ c.linkedRecords) : ResumesAt c (some r) r
  | later {r x : Nat} (hr : r ∉ c.linkedRecords) (h : ResumesAt c (c.nextRecord r) x) :
      ResumesAt c (some r) x

/-- The step does not take out the record at which a dispatch, standing on a record that is out of
    the list already, continues, unless it passes it without doing anything. -/
def Spares [DecidableEq H] (s : State H) (a : Action H) : Prop :=
  ∀ x, s.unlinked isWeak a = some x →
    ∀ capturing r, Frame.dispatch capturing (some r) .handling ∈ s.stack →
      r ∉ s.handler.linkedRecords → ResumesAt s.handler (s.handler.nextRecord r) x →
        Harmless isWeak s.handler capturing x

/-! ## Where a dispatch is going -/

/-- Records that are passed lead from `record` to the list. -/
inductive Leads (c : CompositeEventHandler H) (L : List Nat) (capturing : Bool) :
    Option Nat → Prop
  | done : Leads c L capturing none
  | linked {r : Nat} (hr : r ∈ L) : Leads c L capturing (some r)
  | pass {r : Nat} (hr : Harmless isWeak c capturing r)
      (h : Leads c L capturing (c.nextRecord r)) : Leads c L capturing (some r)

variable {isWeak} {c c' : CompositeEventHandler H} {L L' A B : List Nat} {capturing : Bool}
  {o : Option Nat} {r : Nat} {f : Frame H} {s s' : State H}

theorem Leads.of_head (hL : ∀ x ∈ B, x ∈ L) : Leads isWeak c L capturing B.head? := by
  cases B with
  | nil => exact .done
  | cons b B => exact .linked (hL b mem_cons_self)

theorem Leads.next (h : Links c L) (hr : r ∈ L) :
    Leads isWeak c L capturing (c.nextRecord r) := by
  cases hn : c.nextRecord r with
  | none => exact .done
  | some x => exact .linked (h.linked.next_mem hr hn)

theorem Leads.mono (h : Leads isWeak c L capturing o) (hL : ∀ r ∈ L, r ∈ L')
    (hsto : ∀ r p, c.stored r = some p → c'.stored r = some p)
    (hnxt : ∀ r ∉ L, c'.nextRecord r = c.nextRecord r) : Leads isWeak c' L' capturing o := by
  induction h with
  | done => exact .done
  | linked hr => exact .linked (hL _ hr)
  | @pass r hr h ih =>
    by_cases hmem : r ∈ L
    · exact .linked (hL r hmem)
    · obtain ⟨p, hp, hweak⟩ := hr
      refine .pass ⟨p, hsto r _ hp, hweak⟩ ?_
      rw [hnxt r hmem]
      exact ih

theorem Leads.remove (h : Leads isWeak c (A ++ r :: B) capturing o) (hlinks : Links c (A ++ r :: B))
    (hspare : ResumesAt c o r → Harmless isWeak c capturing r) :
    Leads isWeak (c.remove r) (A ++ B) capturing o := by
  -- a record of the list stays in it, or it is the one taken out and is passed
  have hmember : ∀ x ∈ A ++ r :: B, (x = r → Harmless isWeak c capturing r) →
      Leads isWeak (c.remove r) (A ++ B) capturing (some x) := by
    intro x hx hxr
    by_cases hmem : x ∈ A ++ B
    · exact .linked hmem
    · obtain rfl : x = r := by
        simp only [mem_append, mem_cons, not_or] at hx hmem
        tauto
      obtain ⟨p, hp, hweak⟩ := hxr rfl
      refine .pass ⟨p, by rw [stored_remove]; exact hp, hweak⟩ ?_
      rw [hlinks.nextRecord_remove_of_not_mem hmem, hlinks.linked.next_eq A x B rfl]
      exact .of_head fun y hy => mem_append_right A hy
  induction h with
  | done => exact .done
  | @linked x hx =>
    apply hmember x hx
    rintro rfl
    exact hspare (.here (hlinks.linkedRecords_eq ▸ hx))
  | @pass x hx h ih =>
    by_cases hmem : x ∈ A ++ r :: B
    · apply hmember x hmem
      rintro rfl
      exact hx
    · obtain ⟨p, hp, hweak⟩ := hx
      refine .pass ⟨p, by rw [stored_remove]; exact hp, hweak⟩ ?_
      have hout : x ∉ A ++ B := by
        simp only [mem_append, mem_cons, not_or] at hmem ⊢
        tauto
      rw [hlinks.nextRecord_remove_of_not_mem hout]
      exact ih fun hres => hspare (.later (hlinks.linkedRecords_eq ▸ hmem) hres)

/-! ## The frames -/

variable (isWeak) in
/-- A frame below the top of the stack: a callback of it is running. -/
def Waits (c : CompositeEventHandler H) (L : List Nat) : Frame H → Prop
  | .dispatch capturing (some r) .handling =>
    r ∈ L ∨ Leads isWeak c L capturing (c.nextRecord r)
  | .eventHandler => True
  | _ => False

variable (isWeak) in
/-- The top frame; `find` has not found what it looks for. -/
def OnTop (c : CompositeEventHandler H) (L : List Nat) : Frame H → Prop
  | .dispatch capturing (some r) .handling =>
    r ∈ L ∨ Leads isWeak c L capturing (c.nextRecord r)
  | .dispatch capturing record _ => Leads isWeak c L capturing record
  | .eventHandler => True
  | .find _ eventProcessor isFilter record =>
    ∃ A B, L = A ++ B ∧ record = B.head? ∧ ∀ x ∈ A, c.stored x ≠ some (eventProcessor, isFilter)

theorem Leads.onTop (h : Leads isWeak c L capturing o) :
    OnTop isWeak c L (.dispatch capturing o .checking) := by
  cases o with
  | none | some r => exact h

theorem Waits.onTop (h : Waits isWeak c L f) : OnTop isWeak c L f := by
  match f with
  | .dispatch _ (some _) .handling => exact h
  | .dispatch _ (some _) .checking | .dispatch _ (some _) .calling | .dispatch _ none _ =>
    exact h.elim
  | .eventHandler => exact trivial
  | .find .. => exact h.elim

theorem OnTop.waits (h : OnTop isWeak c L f) (hf : f.isCallback = true) :
    Waits isWeak c L f := by
  match f with
  | .dispatch _ (some _) .handling => exact h
  | .eventHandler => exact trivial

theorem Waits.mono (h : Waits isWeak c L f) (hL : ∀ r ∈ L, r ∈ L')
    (hsto : ∀ r p, c.stored r = some p → c'.stored r = some p)
    (hnxt : ∀ r ∉ L, c'.nextRecord r = c.nextRecord r) : Waits isWeak c' L' f := by
  match f with
  | .dispatch capturing (some r) .handling =>
    by_cases hr : r ∈ L
    · exact .inl (hL r hr)
    · have hleads : Leads isWeak c L capturing (c.nextRecord r) := h.resolve_left hr
      refine .inr ?_
      rw [hnxt r hr]
      exact hleads.mono hL hsto hnxt
  | .eventHandler => exact trivial

theorem Waits.remove (h : Waits isWeak c (A ++ r :: B) f) (hlinks : Links c (A ++ r :: B))
    (hspare : ∀ capturing x, f = .dispatch capturing (some x) .handling →
      x ∉ c.linkedRecords → ResumesAt c (c.nextRecord x) r → Harmless isWeak c capturing r) :
    Waits isWeak (c.remove r) (A ++ B) f := by
  match f with
  | .dispatch capturing (some x) .handling =>
    by_cases hx : x ∈ A ++ B
    · exact .inl hx
    · refine .inr ?_
      rw [hlinks.nextRecord_remove_of_not_mem hx]
      by_cases hxr : x = r
      · rw [hxr, hlinks.linked.next_eq A r B rfl]
        exact .of_head fun y hy => mem_append_right A hy
      · have hout : x ∉ A ++ r :: B := by
          simp only [mem_append, mem_cons, not_or] at hx ⊢
          tauto
        exact (h.resolve_left hout).remove hlinks
          (hspare capturing x rfl (hlinks.linkedRecords_eq ▸ hout))
  | .eventHandler => exact trivial

/-! ## The invariant -/

variable (isWeak) in
/-- The list `L` is sound, and every call under way finds its way in it. -/
structure Invariant (s : State H) (L : List Nat) : Prop where
  links : Links s.handler L
  kept : ∀ r ∈ L, ∀ p ∈ s.removed, s.handler.stored r ≠ some p
  top : ∀ f ∈ s.stack.head?, OnTop isWeak s.handler L f
  waiting : ∀ f ∈ s.stack.tail, Waits isWeak s.handler L f

theorem Invariant.new : Invariant isWeak (State.new : State H) [] where
  links := Links.new
  kept := by simp
  top := by simp [State.new]
  waiting := by simp [State.new]

variable {g : Frame H} {callers : List (Frame H)} {a : Action H} {record : Option Nat}

theorem Invariant.withTop (h : Invariant isWeak s L)
    (hstk : s.stack = f :: callers) (hg : OnTop isWeak s.handler L g) :
    Invariant isWeak { s with stack := g :: callers } L where
  links := h.links
  kept := h.kept
  top := by
    intro f' hf'
    obtain rfl : g = f' := by simpa using hf'
    exact hg
  waiting := by
    intro f' hf'
    exact h.waiting f' (by rw [hstk]; exact hf')

theorem Invariant.callers_onTop
    (h : ∀ f ∈ callers, Waits isWeak c L f) : ∀ f ∈ callers.head?, OnTop isWeak c L f :=
  fun f hf => (h f (mem_of_mem_head? hf)).onTop

theorem Invariant.callers_tail
    (h : ∀ f ∈ callers, Waits isWeak c L f) : ∀ f ∈ callers.tail, Waits isWeak c L f :=
  fun f hf => h f (mem_of_mem_tail hf)

section

variable (h : Invariant isWeak s L) (hstk : s.stack = f :: callers)
include h hstk

theorem Invariant.callers_wait : ∀ g ∈ callers, Waits isWeak s.handler L g := by
  intro g hg
  exact h.waiting g (by rw [hstk]; exact hg)

theorem Invariant.top_of_eq : OnTop isWeak s.handler L f := h.top f (by rw [hstk]; rfl)

theorem Invariant.pop : Invariant isWeak { s with stack := callers } L where
  links := h.links
  kept := h.kept
  top := Invariant.callers_onTop (h.callers_wait hstk)
  waiting := Invariant.callers_tail (h.callers_wait hstk)

end

/-- A caller starts something: what was at the top of the stack waits. -/
theorem Invariant.push (h : Invariant isWeak s L) (hcaller : s.callerRuns = true)
    (hg : OnTop isWeak s.handler L g) :
    Invariant isWeak { s with stack := g :: s.stack } L where
  links := h.links
  kept := h.kept
  top := by
    intro f hf
    obtain rfl : g = f := by simpa using hf
    exact hg
  waiting := by
    intro f hf
    have hf : f ∈ s.stack := hf
    cases hstk : s.stack with
    | nil => simp [hstk] at hf
    | cons f' callers =>
      rw [hstk] at hf
      rcases mem_cons.mp hf with rfl | hmem
      · have hcb : f.isCallback = true := by simpa [State.callerRuns, hstk] using hcaller
        exact (h.top_of_eq hstk).waits hcb
      · exact h.callers_wait hstk f hmem

theorem Invariant.kept_remove (h : Invariant isWeak s (A ++ r :: B)) :
    ∀ x ∈ A ++ B, ∀ p ∈ s.removed, (s.handler.remove r).stored x ≠ some p := by
  intro x hx p hp
  rw [stored_remove]
  exact h.kept x (by simp only [mem_append, mem_cons] at hx ⊢; tauto) p hp

theorem nextRecord_removed (h : Links c (A ++ r :: B)) : (c.remove r).nextRecord r = B.head? := by
  have hr : r ∉ A ++ B := by
    have hnd := h.linked.nodup
    rw [nodup_middle] at hnd
    exact (nodup_cons.mp hnd).1
  rw [h.nextRecord_remove_of_not_mem hr, h.linked.next_eq A r B rfl]

theorem isDisconnected_not_harmless (h : s.isDisconnected isWeak r = true) :
    ¬Harmless isWeak s.handler capturing r := by
  rintro ⟨p, hp, hweak⟩
  simp [State.isDisconnected, hp, hweak] at h

theorem handles_not_harmless {p : H × Bool} (h : s.handles isWeak capturing r = some p) :
    ¬Harmless isWeak s.handler capturing r := by
  rintro ⟨q, hq, -⟩
  have hp : s.handler.stored r = some p := Option.eq_some_of_filter_eq_some h
  have hkind : (p.2 == capturing) = true := by
    have := (Option.filter_eq_some_iff.mp h).2
    exact (Bool.and_eq_true_iff.mp this).1
  obtain rfl : p = (q, !capturing) := Option.some.inj (hp.symm.trans hq)
  simp at hkind

theorem Leads.mem_of_not_harmless (h : Leads isWeak c L capturing (some r))
    (hr : ¬Harmless isWeak c capturing r) : r ∈ L := by
  cases h with
  | linked hmem => exact hmem
  | pass hharm => exact absurd hharm hr

/-- The callers keep waiting when the top of the stack takes a record out. -/
theorem Invariant.callers_remove [DecidableEq H] (h : Invariant isWeak s (A ++ r :: B))
    (hstk : s.stack = f :: callers) (hspare : Spares isWeak s a)
    (hunlinked : s.unlinked isWeak a = some r) :
    ∀ g ∈ callers, Waits isWeak (s.handler.remove r) (A ++ B) g := by
  intro g hg
  refine (h.callers_wait hstk g hg).remove h.links ?_
  intro capturing x hgx hx hres
  have hmem : Frame.dispatch capturing (some x) .handling ∈ s.stack := by
    rw [hstk, ← hgx]
    exact mem_cons_of_mem f hg
  exact hspare r hunlinked capturing x hmem hx hres

variable [DecidableEq H]

theorem Invariant.skip (h : Invariant isWeak s (A ++ r :: B)) (hstk : s.stack = f :: callers)
    (hspare : Spares isWeak s a) (hunlinked : s.unlinked isWeak a = some r)
    (hg : OnTop isWeak (s.handler.remove r) (A ++ B) g) :
    Invariant isWeak { s with handler := s.handler.remove r, stack := g :: callers } (A ++ B) where
  links := h.links.remove
  kept := h.kept_remove
  top := by
    intro f' hf'
    obtain rfl : g = f' := by simpa using hf'
    exact hg
  waiting := h.callers_remove hstk hspare hunlinked

/-! ## The end of a call -/

section Conclude

variable {purpose : Purpose} {p : H} {isFilter : Bool} {callers : List (Frame H)}

/-- A processor that is not stored is added at the end of the list. -/
theorem Invariant.conclude_add (h : Invariant isWeak s L)
    (hstk : s.stack = f :: callers) (hfresh : ∀ x ∈ L, s.handler.stored x ≠ some (p, isFilter)) :
    Invariant isWeak (s.conclude .add p isFilter none callers)
      (L ++ [s.handler.records.length]) := by
  have hsto : ∀ r q, s.handler.stored r = some q →
      (s.handler.addRecord p isFilter).stored r = some q := by
    intro r q hq
    have hlt : r ≠ s.handler.records.length := by
      rintro rfl
      simp [CompositeEventHandler.stored] at hq
    rw [stored_addRecord, if_neg hlt, hq]
  have hwait : ∀ g ∈ callers, Waits isWeak (s.handler.addRecord p isFilter)
      (L ++ [s.handler.records.length]) g := by
    intro g hg
    exact (h.callers_wait hstk g hg).mono (fun r hr => mem_append_left _ hr) hsto
      (fun r hr => h.links.nextRecord_addRecord_of_not_mem p isFilter hr)
  refine ⟨h.links.addRecord hfresh, ?_, Invariant.callers_onTop hwait, Invariant.callers_tail hwait⟩
  intro r hr q hq
  have hq' : q ∈ s.removed ∧ q ≠ (p, isFilter) := by simpa [State.conclude] using hq
  show (s.handler.addRecord p isFilter).stored r ≠ some q
  rw [stored_addRecord]
  rcases mem_append.mp hr with hL | hnew
  · rw [if_neg (Nat.ne_of_lt (h.links.created r hL))]
    exact h.kept r hL q hq'.1
  · rw [if_pos (mem_singleton.mp hnew)]
    intro heq
    exact hq'.2 (Option.some.inj heq).symm

theorem Invariant.conclude_remove (h : Invariant isWeak s (A ++ r :: B))
    (hstk : s.stack = f :: callers) (hspare : Spares isWeak s a)
    (hunlinked : s.unlinked isWeak a = some r)
    (hr : s.handler.stored r = some (p, isFilter)) :
    Invariant isWeak (s.conclude .remove p isFilter (some r) callers) (A ++ B) := by
  have hwait := h.callers_remove hstk hspare hunlinked
  refine ⟨h.links.remove, ?_, Invariant.callers_onTop hwait, Invariant.callers_tail hwait⟩
  intro x hx q hq
  rcases mem_cons.mp hq with rfl | hq
  · show (s.handler.remove r).stored x ≠ _
    rw [stored_remove, ← hr]
    exact h.links.stored_ne hx
  · exact h.kept_remove x hx q hq

theorem Invariant.conclude_unchanged {found : Option Nat} (h : Invariant isWeak s L)
    (hstk : s.stack = f :: callers)
    (hpurpose : (purpose = .add ∧ found.isSome) ∨ purpose = .contains ∨
      (purpose = .remove ∧ found = none ∧
        ∀ x ∈ L, s.handler.stored x ≠ some (p, isFilter))) :
    Invariant isWeak (s.conclude purpose p isFilter found callers) L := by
  have hpop := h.pop hstk
  rcases hpurpose with ⟨rfl, hfound⟩ | rfl | ⟨rfl, rfl, hnot⟩
  · obtain ⟨x, rfl⟩ := Option.isSome_iff_exists.mp hfound
    refine ⟨hpop.links, ?_, hpop.top, hpop.waiting⟩
    intro r hr q hq
    exact h.kept r hr q (mem_filter.mp hq).1
  · have hsame : s.conclude .contains p isFilter found callers = { s with stack := callers } := by
      cases found <;> rfl
    rw [hsame]
    exact hpop
  · refine ⟨hpop.links, ?_, hpop.top, hpop.waiting⟩
    intro r hr q hq
    rcases mem_cons.mp hq with rfl | hq
    · exact hnot r hr
    · exact h.kept r hr q hq

end Conclude

/-! ## One step -/

theorem Invariant.proceed_find {purpose : Purpose} {p : H} {isFilter : Bool}
    (h : Invariant isWeak s L)
    (hstk : s.stack = .find purpose p isFilter record :: callers)
    (hspare : Spares isWeak s .proceed) (hstep : s.proceed isWeak = some s') :
    ∃ L', Invariant isWeak s' L' := by
  obtain ⟨A, B, rfl, rfl, hA⟩ := h.top_of_eq hstk
  cases B with
  | nil =>
    -- the processor is not in the list
    obtain rfl : s.conclude purpose p isFilter none callers = s' := by
      simpa [State.proceed, hstk] using hstep
    have hnot : ∀ x ∈ A ++ [], s.handler.stored x ≠ some (p, isFilter) := by
      simpa using hA
    cases purpose with
    | add => exact ⟨_, h.conclude_add hstk hnot⟩
    | remove => exact ⟨_, h.conclude_unchanged hstk (.inr (.inr ⟨rfl, rfl, hnot⟩))⟩
    | contains => exact ⟨_, h.conclude_unchanged hstk (.inr (.inl rfl))⟩
  | cons r B =>
    have hstk' : s.stack = .find purpose p isFilter (some r) :: callers := hstk
    by_cases hdis : s.isDisconnected isWeak r = true
    · have hunlinked : s.unlinked isWeak .proceed = some r := by
        simp [State.unlinked, hstk', hdis]
      simp only [State.proceed, hstk', hdis, if_true, Option.some.injEq] at hstep
      subst hstep
      refine ⟨A ++ B, h.skip hstk hspare hunlinked ⟨A, B, rfl, ?_, ?_⟩⟩
      · exact nextRecord_removed h.links
      · intro x hx
        rw [stored_remove]
        exact hA x hx
    · by_cases hstores : s.handler.stores r p isFilter = true
      · obtain rfl : s.conclude purpose p isFilter (some r) callers = s' := by
          simpa [State.proceed, hstk', hdis, hstores] using hstep
        cases purpose with
        | add => exact ⟨_, h.conclude_unchanged hstk (.inl ⟨rfl, rfl⟩)⟩
        | remove =>
          have hunlinked : s.unlinked isWeak .proceed = some r := by
            simp [State.unlinked, hstk', hdis, hstores]
          have hr : s.handler.stored r = some (p, isFilter) := by
            simpa [CompositeEventHandler.stores] using hstores
          exact ⟨_, h.conclude_remove hstk hspare hunlinked hr⟩
        | contains => exact ⟨_, h.conclude_unchanged hstk (.inr (.inl rfl))⟩
      · obtain rfl : _ = s' := by
          simpa [State.proceed, hstk', hdis, hstores] using hstep
        refine ⟨A ++ r :: B, h.withTop hstk ⟨A ++ [r], B, by simp, ?_, ?_⟩⟩
        · exact h.links.linked.next_eq A r B rfl
        · intro x hx
          rcases mem_append.mp hx with hx | hx
          · exact hA x hx
          · rw [mem_singleton.mp hx]
            simpa [CompositeEventHandler.stores] using hstores

theorem Invariant.proceed_dispatch {phase : Phase} (h : Invariant isWeak s L)
    (hstk : s.stack = .dispatch capturing record phase :: callers)
    (hspare : Spares isWeak s .proceed) (hstep : s.proceed isWeak = some s') :
    ∃ L', Invariant isWeak s' L' := by
  have htop := h.top_of_eq hstk
  match record, phase with
  | none, _ =>
    simp only [State.proceed, hstk] at hstep
    split at hstep
    · cases hstep
      exact ⟨L, h.withTop hstk trivial⟩
    · cases hstep
      exact ⟨L, h.pop hstk⟩
  | some r, .checking =>
    have hleads : Leads isWeak s.handler L capturing (some r) := htop
    by_cases hdis : s.isDisconnected isWeak r = true
    · have hr : r ∈ L := hleads.mem_of_not_harmless (isDisconnected_not_harmless hdis)
      obtain ⟨A, B, rfl⟩ := append_of_mem hr
      have hunlinked : s.unlinked isWeak .proceed = some r := by
        simp [State.unlinked, hstk, hdis]
      simp only [State.proceed, hstk, hdis, if_true, Option.some.injEq] at hstep
      subst hstep
      have hnxt : Leads isWeak (s.handler.remove r) (A ++ B) capturing B.head? :=
        .of_head fun y hy => mem_append_right A hy
      rw [← nextRecord_removed h.links] at hnxt
      exact ⟨A ++ B, h.skip hstk hspare hunlinked hnxt.onTop⟩
    · obtain rfl : _ = s' := by simpa [State.proceed, hstk, hdis] using hstep
      exact ⟨L, h.withTop hstk hleads⟩
  | some r, .calling =>
    have hleads : Leads isWeak s.handler L capturing (some r) := htop
    cases hhandles : s.handles isWeak capturing r with
    | some p =>
      have hr : r ∈ L := hleads.mem_of_not_harmless (handles_not_harmless hhandles)
      obtain rfl : _ = s' := by simpa [State.proceed, hstk, hhandles] using hstep
      exact ⟨L, h.withTop hstk (.inl hr)⟩
    | none =>
      obtain rfl : _ = s' := by simpa [State.proceed, hstk, hhandles] using hstep
      have hnxt : Leads isWeak s.handler L capturing (s.handler.nextRecord r) := by
        cases hleads with
        | linked hr => exact .next h.links hr
        | pass _ hnxt => exact hnxt
      exact ⟨L, h.withTop hstk hnxt.onTop⟩
  | some r, .handling => simp [State.proceed, hstk] at hstep

theorem Invariant.proceed (h : Invariant isWeak s L) (hspare : Spares isWeak s .proceed)
    (hstep : s.proceed isWeak = some s') : ∃ L', Invariant isWeak s' L' := by
  cases hstk : s.stack with
  | nil => simp [State.proceed, hstk] at hstep
  | cons f callers =>
    match f with
    | .find .. => exact h.proceed_find hstk hspare hstep
    | .dispatch .. => exact h.proceed_dispatch hstk hspare hstep
    | .eventHandler => simp [State.proceed, hstk] at hstep

omit [DecidableEq H] in
/-- After a callback the dispatch goes on from where its record leads. -/
theorem Invariant.callbackReturns (h : Invariant isWeak s L)
    (hstep : s.callbackReturns = some s') : Invariant isWeak s' L := by
  unfold State.callbackReturns at hstep
  split at hstep
  case h_1 capturing r callers hstk =>
    cases hstep
    have htop : r ∈ L ∨ Leads isWeak s.handler L capturing (s.handler.nextRecord r) :=
      h.top_of_eq hstk
    have hnxt : Leads isWeak s.handler L capturing (s.handler.nextRecord r) :=
      htop.elim (fun hr => .next h.links hr) id
    exact h.withTop hstk hnxt.onTop
  case h_2 callers hstk =>
    cases hstep
    exact h.pop hstk
  case h_3 => simp at hstep

omit [DecidableEq H] in
theorem Invariant.callbackThrows (h : Invariant isWeak s L)
    (hstep : s.callbackThrows = some s') : Invariant isWeak s' L := by
  unfold State.callbackThrows at hstep
  split at hstep
  case h_1 hstk =>
    cases hstep
    exact h.pop hstk
  case h_2 hstk =>
    cases hstep
    exact h.pop hstk
  case h_3 => simp at hstep

omit [DecidableEq H] in
theorem Invariant.setEventHandler (h : Invariant isWeak s L) (e : Option H) :
    Invariant isWeak { s with handler := { s.handler with eventHandler := e } } L where
  links := ⟨h.links.linked, h.links.created, h.links.distinct⟩
  kept := h.kept
  top := by
    intro f hf
    have htop := h.top f hf
    match f with
    | .dispatch capturing (some r) .handling =>
      exact htop.imp_right fun hleads =>
        hleads.mono (fun _ => id) (fun _ _ => id) (fun _ _ => rfl)
    | .dispatch capturing (some r) .checking | .dispatch capturing (some r) .calling =>
      exact Leads.mono htop (fun _ => id) (fun _ _ => id) (fun _ _ => rfl)
    | .dispatch capturing none _ => exact Leads.done
    | .eventHandler => exact trivial
    | .find .. => exact htop
  waiting := by
    intro f hf
    exact (h.waiting f hf).mono (fun _ => id) (fun _ _ => id) (fun _ _ => rfl)

theorem Invariant.step {a : Action H} (h : Invariant isWeak s L) (hspare : Spares isWeak s a)
    (hstep : step isWeak s a = some s') : ∃ L', Invariant isWeak s' L' := by
  cases a with
  | setEventHandler e =>
    simp only [Event.step] at hstep
    split at hstep
    case isTrue =>
      cases hstep
      exact ⟨L, h.setEventHandler e⟩
    case isFalse => simp at hstep
  | call purpose p isFilter =>
    simp only [Event.step] at hstep
    split at hstep
    case isTrue hcaller =>
      cases hstep
      exact ⟨L, h.push hcaller ⟨[], L, rfl, h.links.linked.first_eq, by simp⟩⟩
    case isFalse => simp at hstep
  | dispatchEvent capturing =>
    simp only [Event.step] at hstep
    split at hstep
    case isTrue hcaller =>
      cases hstep
      have hfst : Leads isWeak s.handler L capturing s.handler.firstRecord := by
        rw [h.links.linked.first_eq]
        exact .of_head fun _ hy => hy
      exact ⟨L, h.push hcaller hfst.onTop⟩
    case isFalse => simp at hstep
  | callbackReturns => exact ⟨L, h.callbackReturns hstep⟩
  | callbackThrows => exact ⟨L, h.callbackThrows hstep⟩
  | proceed => exact h.proceed hspare hstep
  | collect p =>
    cases hstep
    exact ⟨L, h.links, h.kept, h.top, h.waiting⟩

omit [DecidableEq H] in
theorem Invariant.invoked {p : H × Bool} (h : Invariant isWeak s L)
    (hp : s.invoked isWeak a = some p) : p ∉ s.removed := by
  unfold State.invoked at hp
  split at hp
  case h_2 => simp at hp
  case h_1 =>
    split at hp
    case h_2 => simp at hp
    case h_1 capturing r callers hstk =>
      have hleads : Leads isWeak s.handler L capturing (some r) := h.top_of_eq hstk
      have hr : r ∈ L := hleads.mem_of_not_harmless (handles_not_harmless hp)
      intro hrem
      exact h.kept r hr p hrem (Option.eq_some_of_filter_eq_some hp)

/-! ## Every run -/

theorem Reaches.invariant (h : Reaches isWeak (Spares isWeak) s) : ∃ L, Invariant isWeak s L := by
  induction h with
  | start => exact ⟨[], .new⟩
  | step _ hspare hstep ih =>
    obtain ⟨L, hL⟩ := ih
    exact hL.step hspare hstep

/-- In every run whose steps never take out the record at which a dispatch would come back, the list
    is well formed and no removed processor is invoked. -/
theorem consistent_of_spares (h : Reaches isWeak (Spares isWeak) s) : Consistent isWeak s := by
  obtain ⟨L, hL⟩ := h.invariant
  exact ⟨⟨L, hL.links.linked, hL.links.created, hL.links.distinct⟩, fun _ _ hp => hL.invoked hp⟩

/-! ## Runs given by their actions -/

/-- The run, as long as the actions pass the check. -/
def runChecked (isWeak : H → Bool) (check : State H → Action H → Bool) :
    State H → List (Action H) → Option (State H)
  | s, [] => some s
  | s, a :: actions =>
    if check s a then (step isWeak s a).bind fun s' => runChecked isWeak check s' actions
    else none

theorem Reaches.runChecked {ok : State H → Action H → Prop} {check : State H → Action H → Bool}
    (hok : ∀ s a, check s a = true → ok s a) {actions : List (Action H)}
    (h : Reaches isWeak ok s) (hrun : Event.runChecked isWeak check s actions = some s') :
    Reaches isWeak ok s' := by
  induction actions generalizing s with
  | nil =>
    cases hrun
    exact h
  | cons a actions ih =>
    rw [Event.runChecked] at hrun
    split at hrun
    case isTrue hcheck =>
      obtain ⟨t, ht, hrest⟩ := Option.bind_eq_some_iff.mp hrun
      exact ih (.step h (hok s a hcheck) ht) hrest
    case isFalse => simp at hrun

/-- Nothing is taken out, or every dispatch stands on a record of the list. -/
def standsInList (isWeak : H → Bool) (s : State H) (a : Action H) : Bool :=
  (s.unlinked isWeak a).isNone || s.stack.all fun
    | .dispatch _ (some r) .handling => s.handler.linkedRecords.contains r
    | _ => true

theorem spares_of_standsInList (s : State H) (a : Action H)
    (h : standsInList isWeak s a = true) : Spares isWeak s a := by
  intro x hx capturing r hmem hout
  rw [standsInList, hx, Option.isNone_some, Bool.false_or, all_eq_true] at h
  have hr : r ∈ s.handler.linkedRecords := by simpa using h _ hmem
  exact absurd hr hout

/-- Two handlers, the first of which removes itself when it is called. -/
def selfRemovingRun : List (Action String) :=
  [.addEventHandler "A", .proceed, .addEventHandler "B", .proceed, .proceed,
    .dispatchBubblingEvent, .proceed, .proceed,
    .removeEventHandler "A", .proceed, .callbackReturns, .proceed]

theorem consistent_of_spares_selfRemoving :
    ∃ s, runChecked (fun _ => false) (standsInList fun _ => false) State.new selfRemovingRun = some s ∧
      s.invoked (fun _ => false) .proceed = some ("B", false) ∧
      s.removed = [("A", false)] ∧ Consistent (fun _ => false) s := by
  have hsome : (runChecked (fun _ => false) (standsInList fun _ => false) State.new
      selfRemovingRun).isSome = true := by decide
  obtain ⟨s, hs⟩ := Option.isSome_iff_exists.mp hsome
  have hseen : (runChecked (fun _ => false) (standsInList fun _ => false) State.new
      selfRemovingRun).map (fun s => (s.invoked (fun _ => false) .proceed, s.removed)) =
        some (some ("B", false), [("A", false)]) := by decide
  rw [hs] at hseen
  obtain ⟨hinvoked, hrem⟩ := Prod.mk.inj (Option.some.inj hseen)
  exact ⟨s, hs, hinvoked, hrem,
    consistent_of_spares (Reaches.start.runChecked spares_of_standsInList hs)⟩

/-- The first of two removes itself and the second. -/
def removingBothRun : List (Action String) :=
  [.addEventHandler "A", .proceed, .addEventHandler "B", .proceed, .proceed,
    .dispatchBubblingEvent, .proceed, .proceed,
    .removeEventHandler "A", .proceed, .removeEventHandler "B", .proceed,
    .callbackReturns, .proceed]

/-- The second is invoked after its removal has returned. -/
theorem removed_handler_invoked :
    ¬∀ s : State String, Reaches (fun _ => false) (fun _ _ => True) s →
      Consistent (fun _ => false) s := by
  intro hall
  have hsome : (runChecked (fun _ => false) (fun _ _ => true) State.new
      removingBothRun).isSome = true := by decide
  obtain ⟨s, hs⟩ := Option.isSome_iff_exists.mp hsome
  have hseen : (runChecked (fun _ => false) (fun _ _ => true) State.new
      removingBothRun).map (fun s => (s.invoked (fun _ => false) .proceed, s.removed)) =
        some (some ("B", false), [("B", false), ("A", false)]) := by decide
  rw [hs] at hseen
  obtain ⟨hinvoked, hrem⟩ := Prod.mk.inj (Option.some.inj hseen)
  have hreaches : Reaches (fun _ => false) (fun _ _ => True) s :=
    Reaches.start.runChecked (fun _ _ _ => trivial) hs
  refine (hall s hreaches).2 .proceed ("B", false) hinvoked ?_
  rw [hrem]
  exact .head _

end OpenJfx.Event
