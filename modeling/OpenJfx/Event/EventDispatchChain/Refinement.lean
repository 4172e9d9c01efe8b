/-
  OpenJfx.Event.EventDispatchChain.Refinement

  The chain refines a list, whatever the dispatchers do while they are dispatched.

  What carries the proof is a frame: calls on a chain leave all cells below its reserved
  count as they are, but for the link of its last cell.  This link is not followed, so a
  chain that is restored after a nested dispatch is still there.
-/

import OpenJfx.Event.EventDispatchChain.Basic

namespace OpenJfx.Event.EventDispatchChainImpl

open List JavaArray

variable {D E W : Type} {c c' c'' : EventDispatchChainImpl D} {l : List D}

/-! ## Lists in the arrays -/

/-- The cells from `index` to `tail` hold the list. -/
def Linked (dispatchers : List (Option D)) (nextLinks : List Nat) (reserved tail : Nat) :
    Nat → List D → Prop
  | _, [] => True
  | index, [d] => dispatchers[index]? = some (some d) ∧ index < reserved ∧ index = tail
  | index, d :: d' :: l => dispatchers[index]? = some (some d) ∧ index < reserved ∧ index ≠ tail ∧
      ∃ next, nextLinks[index]? = some next ∧
        Linked dispatchers nextLinks reserved tail next (d' :: l)

section Linked

variable {dispatchers dispatchers' : List (Option D)} {nextLinks nextLinks' : List Nat}
  {reserved reserved' tail index : Nat}

theorem Linked.congr (h : Linked dispatchers nextLinks reserved tail index l)
    (hle : reserved ≤ reserved')
    (hdispatchers : ∀ i < reserved, dispatchers'[i]? = dispatchers[i]?)
    (hlinks : ∀ i < reserved, i ≠ tail → nextLinks'[i]? = nextLinks[i]?) :
    Linked dispatchers' nextLinks' reserved' tail index l := by
  induction l generalizing index with
  | nil => trivial
  | cons d l ih =>
    cases l with
    | nil =>
      obtain ⟨hd, hlt, htail⟩ := h
      exact ⟨(hdispatchers index hlt).trans hd, by omega, htail⟩
    | cons d' l =>
      obtain ⟨hd, hlt, hne, next, hnxt, hrest⟩ := h
      exact ⟨(hdispatchers index hlt).trans hd, by omega, hne, next,
        (hlinks index hlt hne).trans hnxt, ih hrest⟩

theorem Linked.head (h : Linked dispatchers nextLinks reserved tail index (d :: l)) :
    dispatchers[index]? = some (some d) ∧ index < reserved := by
  cases l with
  | nil | cons d' l => exact ⟨h.1, h.2.1⟩

theorem Linked.rest {next : Nat} (h : Linked dispatchers nextLinks reserved tail index (d :: l))
    (hnxt : nextLinks[index]? = some next) :
    Linked dispatchers nextLinks reserved tail next l := by
  cases l with
  | nil => trivial
  | cons d' l =>
    obtain ⟨-, -, -, next', hnxt', hrest⟩ := h
    rw [hnxt] at hnxt'
    rwa [Option.some.inj hnxt']

theorem Linked.tail_lt (h : Linked dispatchers nextLinks reserved tail index (d :: l)) :
    tail < reserved := by
  induction l generalizing index d with
  | nil =>
    obtain ⟨-, hlt, rfl⟩ := h
    exact hlt
  | cons d' l ih =>
    obtain ⟨-, -, -, next, -, hrest⟩ := h
    exact ih hrest

theorem Linked.snoc {d0 d : D} (h : Linked dispatchers nextLinks reserved tail index (d0 :: l))
    (hdispatchers : ∀ i < reserved, dispatchers'[i]? = dispatchers[i]?)
    (hlinks : ∀ i < reserved, i ≠ tail → nextLinks'[i]? = nextLinks[i]?)
    (hnew : dispatchers'[reserved]? = some (some d)) (hlink : nextLinks'[tail]? = some reserved) :
    Linked dispatchers' nextLinks' (reserved + 1) reserved index (d0 :: (l ++ [d])) := by
  induction l generalizing index d0 with
  | nil =>
    obtain ⟨hd, hlt, rfl⟩ := h
    exact ⟨(hdispatchers index hlt).trans hd, by omega, by omega, reserved, hlink, hnew, by omega,
      rfl⟩
  | cons d' l ih =>
    obtain ⟨hd, hlt, hne, next, hnxt, hrest⟩ := h
    exact ⟨(hdispatchers index hlt).trans hd, by omega, by omega, next,
      (hlinks index hlt hne).trans hnxt, ih hrest⟩

theorem Linked.cons {d0 d : D} (h : Linked dispatchers nextLinks reserved tail index (d0 :: l))
    (hdispatchers : ∀ i < reserved, dispatchers'[i]? = dispatchers[i]?)
    (hlinks : ∀ i < reserved, nextLinks'[i]? = nextLinks[i]?)
    (hnew : dispatchers'[reserved]? = some (some d)) (hlink : nextLinks'[reserved]? = some index) :
    Linked dispatchers' nextLinks' (reserved + 1) tail reserved (d :: d0 :: l) := by
  have htail := h.tail_lt
  exact ⟨hnew, by omega, by omega, index, hlink,
    h.congr (by omega) hdispatchers fun i hi _ => hlinks i hi⟩

end Linked

/-- The invariant: the chain holds the list. -/
structure Represents (c : EventDispatchChainImpl D) (l : List D) : Prop where
  lengths : c.nextLinks.length = c.dispatchers.length
  fits : c.reservedCount ≤ c.dispatchers.length
  active : c.activeCount = l.length
  linked : Linked c.dispatchers c.nextLinks c.reservedCount c.tailIndex c.headIndex l

theorem visibleFrom_eq {index : Nat}
    (h : Linked c.dispatchers c.nextLinks c.reservedCount c.tailIndex index l) :
    c.visibleFrom l.length index = l.map some := by
  induction l generalizing index with
  | nil => rfl
  | cons d l ih =>
    rw [length_cons, visibleFrom, h.head.1, map_cons]
    cases l with
    | nil => rfl
    | cons d' l =>
      obtain ⟨-, -, -, next, hnxt, hrest⟩ := h
      rw [hnxt, Option.getD_some, Option.getD_some, ih hrest]

theorem Represents.visible (h : Represents c l) : c.visible = l.map some := by
  rw [EventDispatchChainImpl.visible, h.active]
  exact visibleFrom_eq h.linked

theorem Represents.new : Represents (EventDispatchChainImpl.new : EventDispatchChainImpl D) [] :=
  ⟨rfl, Nat.le_refl _, rfl, trivial⟩

/-! ## The frame -/

/-- What calls on the chain `c` leave as it is. -/
structure Keeps (c c' : EventDispatchChainImpl D) : Prop where
  reserved : c.reservedCount ≤ c'.reservedCount
  dispatchers : ∀ i < c.reservedCount, c'.dispatchers[i]? = c.dispatchers[i]?
  nextLinks : ∀ i < c.reservedCount, i ≠ c.tailIndex → c'.nextLinks[i]? = c.nextLinks[i]?
  tail : c'.tailIndex = c.tailIndex ∨ c.reservedCount ≤ c'.tailIndex

theorem Keeps.refl (c : EventDispatchChainImpl D) : Keeps c c :=
  ⟨Nat.le_refl _, fun _ _ => rfl, fun _ _ _ => rfl, .inl rfl⟩

theorem Keeps.trans (h : Keeps c c') (h' : Keeps c' c'') : Keeps c c'' where
  reserved := Nat.le_trans h.reserved h'.reserved
  dispatchers := fun i hi =>
    (h'.dispatchers i (Nat.lt_of_lt_of_le hi h.reserved)).trans (h.dispatchers i hi)
  nextLinks := by
    intro i hi hne
    have hne' : i ≠ c'.tailIndex := by
      rcases h.tail with heq | hle
      · rw [heq]
        exact hne
      · omega
    rw [h'.nextLinks i (Nat.lt_of_lt_of_le hi h.reserved) hne', h.nextLinks i hi hne]
  tail := by
    have := h.reserved
    rcases h'.tail with heq | hle
    · rw [heq]
      exact h.tail
    · omega

/-! ## append and prepend -/

/-- There is room for one more cell, and the others are where they were. -/
structure Room (c c' : EventDispatchChainImpl D) : Prop where
  lengths : c'.nextLinks.length = c'.dispatchers.length
  fits : c.reservedCount < c'.dispatchers.length
  counters : c'.reservedCount = c.reservedCount ∧ c'.activeCount = c.activeCount ∧
    c'.headIndex = c.headIndex ∧ c'.tailIndex = c.tailIndex
  dispatchers : ∀ i < c.reservedCount, c'.dispatchers[i]? = c.dispatchers[i]?
  nextLinks : ∀ i < c.reservedCount, c'.nextLinks[i]? = c.nextLinks[i]?

theorem ensureCapacity_spec (hlengths : c.nextLinks.length = c.dispatchers.length)
    (hfits : c.reservedCount ≤ c.dispatchers.length) :
    ∃ c', ensureCapacity (c.reservedCount + 1) c = .ok c' ∧ Room c c' := by
  obtain ⟨n, hn, hlt⟩ : ∃ n, (c.reservedCount + 1 + capacityGrowthFactor - 1) /
      capacityGrowthFactor * capacityGrowthFactor = n ∧ c.reservedCount < n := by
    refine ⟨_, rfl, ?_⟩
    rw [capacityGrowthFactor]
    omega
  rw [ensureCapacity, hn, if_neg (by omega)]
  split
  · -- new arrays
    have hcopy : ∀ {α : Type} (a : List α) (x : α), c.reservedCount ≤ a.length →
        copy a 0 (List.replicate n x) 0 c.reservedCount =
          .ok (a.take c.reservedCount ++ List.replicate (n - c.reservedCount) x) := by
      intro α a x ha
      rw [copy_eq_ok (by omega) (by omega) (by omega) (by omega)
        (by rw [length_replicate]; omega)]
      simp
    have hget : ∀ {α : Type} (a : List α) (x : α), c.reservedCount ≤ a.length →
        ∀ i < c.reservedCount,
          (a.take c.reservedCount ++ List.replicate (n - c.reservedCount) x)[i]? = a[i]? := by
      intro α a x ha i hi
      rw [getElem?_append_left (by rw [length_take]; omega), getElem?_take_of_lt hi]
    have hlen : ∀ {α : Type} (a : List α) (x : α), c.reservedCount ≤ a.length →
        (a.take c.reservedCount ++ List.replicate (n - c.reservedCount) x).length = n := by
      intro α a x ha
      rw [length_append, length_take, length_replicate]
      omega
    have hlinks : c.reservedCount ≤ c.nextLinks.length := by omega
    refine ⟨{ c with
      dispatchers := c.dispatchers.take c.reservedCount ++
        List.replicate (n - c.reservedCount) none
      nextLinks := c.nextLinks.take c.reservedCount ++
        List.replicate (n - c.reservedCount) 0 }, ?_, ?_⟩
    · rw [new_eq_ok (by omega), new_eq_ok (by omega)]
      simp only [Int.toNat_natCast, bind, Except.bind, hcopy _ _ hfits, hcopy _ _ hlinks]
      rfl
    · exact ⟨by rw [hlen _ _ hfits, hlen _ _ hlinks], by rw [hlen _ _ hfits]; exact hlt,
        ⟨rfl, rfl, rfl, rfl⟩, hget _ _ hfits, hget _ _ hlinks⟩
  · exact ⟨c, rfl, hlengths, by omega, ⟨rfl, rfl, rfl, rfl⟩, fun _ _ => rfl, fun _ _ => rfl⟩

variable {c₁ : EventDispatchChainImpl D}

theorem Room.dispatchers_set (hroom : Room c c₁) (d : D) (i : Nat) (hi : i < c.reservedCount) :
    (c₁.dispatchers.set c.reservedCount (some d))[i]? = c.dispatchers[i]? := by
  rw [getElem?_set_ne (by omega), hroom.dispatchers i hi]

theorem Room.nextLinks_set (hroom : Room c c₁) {k : Nat} (next i : Nat) (hi : i < c.reservedCount)
    (hne : i ≠ k) : (c₁.nextLinks.set k next)[i]? = c.nextLinks[i]? := by
  rw [getElem?_set_ne hne.symm, hroom.nextLinks i hi]

theorem insertFirst_spec (hroom : Room c c₁)
    (d : D) : ∃ c', insertFirst d c₁ = .ok c' ∧ Represents c' [d] ∧ Keeps c c' := by
  obtain ⟨hreserved, -, -, -⟩ := hroom.counters
  have hfits := hroom.fits
  rw [insertFirst, set_eq_ok (by omega) (by omega), hreserved]
  refine ⟨_, rfl, ⟨?_, ?_, rfl, ?_, ?_, ?_⟩, Nat.le_succ _, hroom.dispatchers_set d,
    fun i hi _ => hroom.nextLinks i hi, .inr (Nat.le_refl _)⟩
  · simp [hroom.lengths]
  · simp
    omega
  · simp [hfits]
  · exact Nat.lt_succ_self _
  · rfl

theorem Room.insert (hroom : Room c c₁) {l' : List D} {d : D} {k next head tail : Nat}
    (hlink : Linked (c₁.dispatchers.set c.reservedCount (some d)) (c₁.nextLinks.set k next)
      (c.reservedCount + 1) tail head l') (hactive : c₁.activeCount + 1 = l'.length)
    (hk : k = c.tailIndex ∨ k = c.reservedCount)
    (htail : tail = c.tailIndex ∨ c.reservedCount ≤ tail) :
    let c' := { c₁ with
      dispatchers := c₁.dispatchers.set c.reservedCount (some d)
      nextLinks := c₁.nextLinks.set k next
      headIndex := head
      tailIndex := tail
      activeCount := c₁.activeCount + 1
      reservedCount := c.reservedCount + 1 }
    Represents c' l' ∧ Keeps c c' := by
  have hfits := hroom.fits
  refine ⟨⟨?_, ?_, hactive, hlink⟩, Nat.le_succ _, hroom.dispatchers_set d, fun i hi hne =>
    hroom.nextLinks_set next i hi (by omega), htail⟩
  · simp [hroom.lengths]
  · simp
    omega

theorem append_spec (h : Represents c l) (d : D) :
    ∃ c', append d c = .ok c' ∧ Represents c' (l ++ [d]) ∧ Keeps c c' := by
  obtain ⟨c₁, hcap, hroom⟩ := ensureCapacity_spec h.lengths h.fits
  have hactive := hroom.counters.2.1.trans h.active
  rw [append, hcap]
  simp only [bind, Except.bind]
  cases l with
  | nil =>
    rw [if_pos (show c₁.activeCount = 0 from hactive)]
    exact insertFirst_spec hroom d
  | cons d0 l =>
    obtain ⟨hreserved, -, hhead, htail⟩ := hroom.counters
    have hfits := hroom.fits
    have hlengths := hroom.lengths
    have hlt := h.linked.tail_lt
    rw [if_neg (by rw [hactive]; simp), hreserved, htail, set_eq_ok (by omega) (by omega),
      set_eq_ok (by omega) (by omega)]
    refine ⟨_, rfl, hroom.insert ?_ (by rw [hactive]; simp) (.inl rfl) (.inr (Nat.le_refl _))⟩
    rw [hhead]
    exact h.linked.snoc (hroom.dispatchers_set d) (hroom.nextLinks_set _)
      (getElem?_set_self (by omega)) (getElem?_set_self (by omega))

theorem prepend_spec (h : Represents c l) (d : D) :
    ∃ c', prepend d c = .ok c' ∧ Represents c' (d :: l) ∧ Keeps c c' := by
  obtain ⟨c₁, hcap, hroom⟩ := ensureCapacity_spec h.lengths h.fits
  have hactive := hroom.counters.2.1.trans h.active
  rw [prepend, hcap]
  simp only [bind, Except.bind]
  cases l with
  | nil =>
    rw [if_pos (show c₁.activeCount = 0 from hactive)]
    exact insertFirst_spec hroom d
  | cons d0 l =>
    obtain ⟨hreserved, -, hhead, htail⟩ := hroom.counters
    have hfits := hroom.fits
    have hlengths := hroom.lengths
    rw [if_neg (by rw [hactive]; simp), hreserved, hhead, set_eq_ok (by omega) (by omega),
      set_eq_ok (by omega) (by omega)]
    refine ⟨_, rfl, hroom.insert ?_ (by rw [hactive]; simp) (.inr rfl) (.inl htail)⟩
    rw [htail]
    exact h.linked.cons (hroom.dispatchers_set d)
      (fun i hi => hroom.nextLinks_set _ i hi (Nat.ne_of_lt hi))
      (getElem?_set_self (by omega)) (getElem?_set_self (by omega))

/-! ## Dispatching -/

/-- The same event and world, or both overflow. -/
inductive Agrees {C C' α : Type} (R : C → C' → Prop) :
    Outcome (C × W) α → Outcome (C' × W) α → Prop
  | returns {c : C} {c' : C'} (a : α) (w : W) (h : R c c') :
      Agrees R (.returns a (c, w)) (.returns a (c', w))
  | overflows : Agrees R .overflows .overflows

/-- The chain holds the list, and the cells of the chain before are kept. -/
def RepresentsKept (before c : EventDispatchChainImpl D) (l : List D) : Prop :=
  Represents c l ∧ Keeps before c

variable {behave : D → Option E → W → Program D E W} {stack : Nat}

/-- A program runs on the chain as on the list, if nested dispatches do. -/
theorem run_agrees
    (hdispatch : ∀ (event : Option E) (c : EventDispatchChainImpl D) (l : List D) (w : W),
      Represents c l → Agrees (RepresentsKept c) (dispatchEvent behave stack event (c, w))
        (ListChain.dispatchEvent behave stack event (l, w)))
    (p : Program D E W) {before : EventDispatchChainImpl D} (h : RepresentsKept before c l) :
    Agrees (RepresentsKept before) (p.run (calls behave stack) c)
      (p.run (ListChain.calls behave stack) l) := by
  induction p generalizing c l with
  | returns event w => exact .returns event w h
  | append d w next ih =>
    obtain ⟨c', hok, hrep, hkeeps⟩ := append_spec h.1 d
    rw [Program.run, Program.run]
    simp only [calls, ListChain.calls, hok]
    exact ih ⟨hrep, h.2.trans hkeeps⟩
  | prepend d w next ih =>
    obtain ⟨c', hok, hrep, hkeeps⟩ := prepend_spec h.1 d
    rw [Program.run, Program.run]
    simp only [calls, ListChain.calls, hok]
    exact ih ⟨hrep, h.2.trans hkeeps⟩
  | dispatchEvent event w next ih =>
    rw [Program.run, Program.run]
    have hcall := hdispatch event c l w h.1
    simp only [calls, ListChain.calls]
    revert hcall
    generalize dispatchEvent behave stack event (c, w) = outcome
    generalize ListChain.dispatchEvent behave stack event (l, w) = outcome'
    intro hcall
    cases hcall with
    | overflows => exact .overflows
    | returns returnEvent w' hrep => exact ih returnEvent w' ⟨hrep.1, h.2.trans hrep.2⟩

/-- The chain without its head. -/
def popped (c : EventDispatchChainImpl D) (nextLink : Nat) : EventDispatchChainImpl D :=
  { c with headIndex := nextLink, activeCount := c.activeCount - 1 }

theorem Represents.dispatchEvent_cons (behave : D → Option E → W → Program D E W) {d : D}
    (h : Represents c (d :: l)) :
    ∃ nextLink, Represents (popped c nextLink) l ∧ ∀ stack event w,
      dispatchEvent behave (stack + 1) event (c, w) =
        ((behave d event w).run (calls behave stack) (popped c nextLink)).andThen
          fun returnEvent s => .returns returnEvent (popSaved c s.1, s.2) := by
  obtain ⟨hd, hlt⟩ := h.linked.head
  have hfits := h.fits
  have hin : c.headIndex < c.nextLinks.length := by
    rw [h.lengths]
    omega
  have hlink : c.nextLinks[c.headIndex]? = some c.nextLinks[c.headIndex] := getElem?_eq_getElem hin
  refine ⟨_, ⟨h.lengths, hfits, ?_, h.linked.rest hlink⟩, ?_⟩
  · show c.activeCount - 1 = l.length
    rw [h.active]
    rfl
  · intro stack event w
    rw [dispatchEvent, if_neg (by rw [h.active]; simp),
      get_eq_ok (by omega) hd, get_eq_ok (by omega) hlink]
    rfl

theorem Represents.popSaved (h : Represents c l)
    (hkeeps : Keeps c c₁) {l1 : List D} (h1 : Represents c₁ l1) :
    RepresentsKept c (popSaved c c₁) l := by
  have hle := hkeeps.reserved
  have hfits := h1.fits
  refine ⟨⟨h1.lengths, ?_, h.active, ?_⟩, Nat.le_refl _, hkeeps.dispatchers, hkeeps.nextLinks,
    .inl rfl⟩
  · show c.reservedCount ≤ c₁.dispatchers.length
    omega
  · exact h.linked.congr (Nat.le_refl _) hkeeps.dispatchers hkeeps.nextLinks

theorem dispatchEvent_agrees (stack : Nat) (event : Option E) (c : EventDispatchChainImpl D)
    (l : List D) (w : W) (h : Represents c l) :
    Agrees (RepresentsKept c) (dispatchEvent behave stack event (c, w))
      (ListChain.dispatchEvent behave stack event (l, w)) := by
  induction stack generalizing event c l w with
  | zero => exact .overflows
  | succ stack ih =>
    cases l with
    | nil =>
      rw [dispatchEvent, if_pos (show c.activeCount = 0 from h.active)]
      exact .returns event w ⟨h, Keeps.refl c⟩
    | cons d rest =>
      obtain ⟨nextLink, hrest, hcall⟩ := h.dispatchEvent_cons behave
      have hkept : RepresentsKept c (popped c nextLink) rest :=
        ⟨hrest, Nat.le_refl _, fun _ _ => rfl, fun _ _ _ => rfl, .inl rfl⟩
      have hrun := run_agrees ih (behave d event w) hkept
      rw [hcall, ListChain.dispatchEvent]
      change Agrees _ _ (((behave d event w).run (ListChain.calls behave stack) rest).andThen _)
      revert hrun
      generalize (behave d event w).run (calls behave stack) (popped c nextLink) = outcome
      generalize (behave d event w).run (ListChain.calls behave stack) rest = outcome'
      intro hrun
      cases hrun with
      | overflows => exact .overflows
      | returns returnEvent w' hrep => exact .returns _ w' (h.popSaved hrep.2 hrep.1)

/-! ## The refinement -/

theorem Agrees.mono {C C' α : Type} {R R' : C → C' → Prop} {outcome : Outcome (C × W) α}
    {outcome' : Outcome (C' × W) α} (h : Agrees R outcome outcome') (hR : ∀ c c', R c c' → R' c c') :
    Agrees R' outcome outcome' := by
  cases h with
  | returns a w h => exact .returns a w (hR _ _ h)
  | overflows => exact .overflows

theorem ListChain.dispatchEvent_returns {event returnEvent : Option E} {l l' : List D} {w w' : W}
    (h : ListChain.dispatchEvent behave stack event (l, w) = .returns returnEvent (l', w')) :
    l' = l := by
  cases stack with
  | zero => cases h
  | succ stack =>
    cases l with
    | nil =>
      rw [ListChain.dispatchEvent] at h
      cases h
      rfl
    | cons d rest =>
      rw [ListChain.dispatchEvent] at h
      revert h
      generalize (behave d event w).run _ rest = outcome
      intro h
      cases outcome with
      | returns e s =>
        cases h
        rfl
      | throws e s | overflows => cases h

/-- Chains behave as the lists they are related to: `append` and `prepend`, a dispatch and every
    program of calls. No call throws, and a dispatch leaves the chain as before. -/
structure Refines (behave : D → Option E → W → Program D E W)
    (R : EventDispatchChainImpl D → List D → Prop) : Prop where
  new : R EventDispatchChainImpl.new []
  visible : ∀ c l, R c l → c.visible = l.map some
  append : ∀ c l, R c l → ∀ d, ∃ c', append d c = .ok c' ∧ R c' (l ++ [d])
  prepend : ∀ c l, R c l → ∀ d, ∃ c', prepend d c = .ok c' ∧ R c' (d :: l)
  dispatchEvent_nil : ∀ c, R c [] → ∀ stack event w,
    dispatchEvent behave (stack + 1) event (c, w) = .returns event (c, w)
  dispatchEvent_cons : ∀ c d rest, R c (d :: rest) → ∃ c₁, R c₁ rest ∧ ∀ stack event w,
    dispatchEvent behave (stack + 1) event (c, w) =
      ((behave d event w).run (calls behave stack) c₁).andThen
        fun returnEvent s => .returns returnEvent (popSaved c s.1, s.2)
  dispatchEvent : ∀ c l, R c l → ∀ stack event w,
    Agrees R (EventDispatchChainImpl.dispatchEvent behave stack event (c, w))
      (ListChain.dispatchEvent behave stack event (l, w))
  program : ∀ c l, R c l → ∀ stack (p : Program D E W),
    Agrees R (p.run (calls behave stack) c) (p.run (ListChain.calls behave stack) l)
  restored : ∀ c l, R c l → ∀ stack event w returnEvent c' w',
    EventDispatchChainImpl.dispatchEvent behave stack event (c, w) = .returns returnEvent (c', w') →
      R c' l

/-- The chain refines a list, for all dispatchers. -/
theorem refines_list (behave : D → Option E → W → Program D E W) : Refines behave Represents where
  new := Represents.new
  visible := fun _ _ h => h.visible
  append := by
    intro c l h d
    obtain ⟨c', hok, hrep, -⟩ := append_spec h d
    exact ⟨c', hok, hrep⟩
  prepend := by
    intro c l h d
    obtain ⟨c', hok, hrep, -⟩ := prepend_spec h d
    exact ⟨c', hok, hrep⟩
  dispatchEvent_nil := by
    intro c h stack event w
    rw [EventDispatchChainImpl.dispatchEvent, if_pos (show c.activeCount = 0 from h.active)]
  dispatchEvent_cons := by
    intro c d rest h
    obtain ⟨nextLink, hrest, hcall⟩ := h.dispatchEvent_cons behave
    exact ⟨_, hrest, hcall⟩
  dispatchEvent := fun c l h stack event w =>
    (dispatchEvent_agrees stack event c l w h).mono fun _ _ h => h.1
  program := fun c l h stack p =>
    (run_agrees (dispatchEvent_agrees stack) p ⟨h, Keeps.refl c⟩).mono fun _ _ h => h.1
  restored := by
    intro c l h stack event w returnEvent c' w' hreturn
    have hagr := @dispatchEvent_agrees _ _ _ behave stack event c l w h
    rw [hreturn] at hagr
    generalize hlist : ListChain.dispatchEvent behave stack event (l, w) = outcome at hagr
    cases hagr with
    | returns _ _ hrep =>
      rw [← ListChain.dispatchEvent_returns hlist]
      exact hrep.1

end OpenJfx.Event.EventDispatchChainImpl
