/-
  OpenJfx.Css.CompoundSelector

  `com.sun.javafx.css.CompoundSelector`: `applies` and `stateMatches` over a node and its
  ancestors.  An assignment gives each simple selector the height of its ancestor.  `applies`
  finds out whether there is one in which every simple selector applies; `stateMatches` takes the
  nearest ancestor that applies at a descendant combinator, and never goes back.
-/

import OpenJfx.Css.SimpleSelector

namespace OpenJfx.Css

open List Option Bool

variable {l : List Styleable}

/-- `com.sun.javafx.css.Combinator`. -/
inductive Combinator where
  | child
  | descendant
  deriving DecidableEq, Repr

/-- There is exactly one combinator less than there are selectors. -/
structure CompoundSelector where
  selectors : List SimpleSelector
  relationships : List Combinator
  lengths : relationships.length = selectors.length - 1

/-- `com.sun.javafx.css.Selector`, of two kinds. -/
inductive Selector where
  | simple (selector : SimpleSelector)
  | compound (selector : CompoundSelector)

variable {i d : Nat} {p : Nat → Nat → Prop} {q : Nat → Nat → Nat → Prop} {test : Styleable → Bool}

namespace CompoundSelector

/-- `while (parent != null) { if (test(parent)) return true; parent = parent.getStyleableParent(); }` -/
def anyAncestor (test : List Styleable → Bool) : List Styleable → Bool
  | [] => false
  | parent :: rest => test (parent :: rest) || anyAncestor test rest

/-- From `index` down the chain of ancestors. -/
def appliesFrom (c : CompoundSelector) : Nat → List Styleable → Bool
  | _, [] => false
  | 0, styleable :: _ => c.selectors[0]?.any (·.applies styleable)
  | index + 1, styleable :: ancestors =>
    c.selectors[index + 1]?.any (·.applies styleable) &&
      match c.relationships[index]? with
      | some .child => !ancestors.isEmpty && c.appliesFrom index ancestors
      | _ => anyAncestor (c.appliesFrom index) ancestors

/-- From the last selector, at the node, to its ancestors. -/
def applies (c : CompoundSelector) (chain : List Styleable) : Bool :=
  match c.selectors.length with
  | 0 => false
  | last + 1 => c.appliesFrom last chain

/-- The ancestors from the nearest one on that passes the test. -/
def firstAncestor (test : Styleable → Bool) : List Styleable → List Styleable
  | [] => []
  | parent :: rest => if test parent then parent :: rest else firstAncestor test rest

/-- The private `stateMatches`, from `index` down. -/
def stateMatchesFrom (c : CompoundSelector) : Nat → List Styleable → Option (Finset String) → Bool
  | _, [], _ => false
  | 0, _ :: _, states => c.selectors[0]?.any (·.stateMatches states)
  | index + 1, _ :: ancestors, states =>
    c.selectors[index + 1]?.any (·.stateMatches states) &&
      match c.relationships[index]? with
      | some .child =>
        ancestors.head?.any fun parent =>
          c.selectors[index]?.any (·.applies parent) &&
            c.stateMatchesFrom index ancestors parent.pseudoClassStates
      | _ =>
        let found := firstAncestor (fun parent => c.selectors[index]?.any (·.applies parent)) ancestors
        found.head?.any fun parent => c.stateMatchesFrom index found parent.pseudoClassStates

/-- `stateMatches(Styleable, Set)`. -/
def stateMatches (c : CompoundSelector) (chain : List Styleable) (states : Option (Finset String)) :
    Bool :=
  match c.selectors.length with
  | 0 => false
  | last + 1 => c.stateMatchesFrom last chain states

/-! ## Assignments -/

section Assignments

variable (c : CompoundSelector) (chain : List Styleable)

/-- The selectors up to `n` at heights above the start of `chain`. -/
structure Assigns (n : Nat) (height : Nat → Nat) : Prop where
  start : height n = 0
  child : ∀ i < n, c.relationships[i]? = some .child → height i = height (i + 1) + 1
  descendant : ∀ i < n, height (i + 1) < height i

/-- There is a styleable there, and `i` applies to it. -/
def AppliesAt (i height : Nat) : Prop :=
  ∃ selector styleable, c.selectors[i]? = some selector ∧ chain[height]? = some styleable ∧
    selector.applies styleable = true

/-- The pseudo-classes that are active at a height: `states` for the start. -/
def activeStates (states : Option (Finset String)) (height : Nat) : Option (Finset String) :=
  if height = 0 then states else chain[height]?.bind Styleable.pseudoClassStates

/-- The pseudo-classes of the simple selector `i` are active at the height. -/
def ActiveAt (states : Option (Finset String)) (i height : Nat) : Prop :=
  ∃ selector, c.selectors[i]? = some selector ∧
    selector.stateMatches (activeStates chain states height) = true

/-- Between the heights of `i + 1` and `i`, joined by a descendant combinator, `i` applies
    nowhere. -/
def NearestAt (i below height : Nat) : Prop :=
  c.relationships[i]? ≠ some .child → ∀ h, below < h → h < height → ¬ AppliesAt c chain i h

end Assignments

/-- The index of the last simple selector. -/
def last (c : CompoundSelector) : Nat := c.selectors.length - 1

/-- Every simple selector applies at its height. -/
structure Applies (c : CompoundSelector) (chain : List Styleable) (height : Nat → Nat) : Prop where
  assigns : Assigns c c.last height
  applies : ∀ i ≤ c.last, AppliesAt c chain i (height i)

/-- Every simple selector applies, its pseudo-classes active. -/
structure Matches (c : CompoundSelector) (chain : List Styleable) (states : Option (Finset String))
    (height : Nat → Nat) : Prop extends Applies c chain height where
  active : ∀ i ≤ c.last, ActiveAt c chain states i (height i)

/-- A descendant combinator takes the nearest ancestor. -/
def Nearest (c : CompoundSelector) (chain : List Styleable) (height : Nat → Nat) : Prop :=
  ∀ i < c.last, NearestAt c chain i (height (i + 1)) (height i)

variable {c : CompoundSelector} {chain : List Styleable} {n : Nat} {height : Nat → Nat}
  {states : Option (Finset String)}

/-! ## Assignments one selector at a time -/

theorem Assigns.le (h : Assigns c n height) {j : Nat} (hij : i ≤ j) (hj : j ≤ n) :
    height j ≤ height i := by
  induction hij with
  | refl => exact Nat.le_refl _
  | @step m him ih =>
    have := h.descendant m hj
    have := ih (Nat.le_of_lt hj)
    show height (m + 1) ≤ height i
    omega

theorem Assigns.rest (h : Assigns c (n + 1) height) :
    Assigns c n fun i => height i - height n := by
  refine ⟨Nat.sub_self _, ?_, ?_⟩
  · intro i hi hchild
    have := h.child i (by omega) hchild
    have := h.le (i := i + 1) (j := n) (by omega) (by omega)
    show height i - height n = height (i + 1) - height n + 1
    omega
  · intro i hi
    have := h.descendant i (by omega)
    have := h.le (i := i + 1) (j := n) (by omega) (by omega)
    show height (i + 1) - height n < height i - height n
    omega

/-- An assignment continued by one selector `d` levels below. -/
def lifted (n d : Nat) (height : Nat → Nat) (i : Nat) : Nat := if i ≤ n then d + height i else 0

theorem lifted_of_le (hi : i ≤ n) : lifted n d height i = d + height i := if_pos hi

theorem lifted_last : lifted n d height (n + 1) = 0 := if_neg (by omega)

theorem Assigns.lift (h : Assigns c n height) (hd : 0 < d)
    (hchild : c.relationships[n]? = some .child → d = 1) :
    Assigns c (n + 1) (lifted n d height) := by
  refine ⟨lifted_last, ?_, ?_⟩
  · intro i hi hrel
    rw [lifted_of_le (by omega)]
    by_cases hin : i = n
    · subst hin
      rw [lifted_last, h.start, hchild hrel]
    · rw [lifted_of_le (by omega), h.child i (by omega) hrel]
      omega
  · intro i hi
    rw [lifted_of_le (i := i) (by omega)]
    by_cases hin : i = n
    · subst hin
      rw [lifted_last]
      omega
    · rw [lifted_of_le (by omega)]
      have := h.descendant i (by omega)
      omega

theorem exists_assigns_succ : (∃ height, Assigns c (n + 1) height ∧ (∀ i ≤ n + 1, p i (height i)) ∧
      ∀ i < n + 1, q i (height (i + 1)) (height i)) ↔
    p (n + 1) 0 ∧ ∃ d, 0 < d ∧ (c.relationships[n]? = some .child → d = 1) ∧ q n 0 d ∧
      ∃ height, Assigns c n height ∧ (∀ i ≤ n, p i (d + height i)) ∧
        ∀ i < n, q i (d + height (i + 1)) (d + height i) := by
  constructor
  · rintro ⟨height, ha, hp, hq⟩
    have hst := ha.start
    have habove : ∀ i ≤ n, height n + (height i - height n) = height i := by
      intro i hi
      have := ha.le hi (by omega)
      omega
    refine ⟨by rw [← hst]; exact hp _ (Nat.le_refl _), height n, ?_, ?_, ?_,
      fun i => height i - height n, ha.rest, ?_, ?_⟩
    · have := ha.descendant n (by omega)
      omega
    · intro hrel
      rw [ha.child n (by omega) hrel, hst]
    · rw [← hst]
      exact hq n (by omega)
    · intro i hi
      rw [habove i hi]
      exact hp i (by omega)
    · intro i hi
      rw [habove i (by omega), habove (i + 1) (by omega)]
      exact hq i (by omega)
  · rintro ⟨hp, d, hd, hchild, hqn, height, ha, hps, hqs⟩
    refine ⟨lifted n d height, ha.lift hd hchild, ?_, ?_⟩
    · intro i hi
      by_cases hin : i = n + 1
      · rw [hin, lifted_last]
        exact hp
      · rw [lifted_of_le (by omega)]
        exact hps i (by omega)
    · intro i hi
      rw [lifted_of_le (i := i) (by omega)]
      by_cases hin : i = n
      · rw [hin, lifted_last, ha.start]
        exact hqn
      · rw [lifted_of_le (by omega)]
        exact hqs i (by omega)

theorem exists_assigns_zero : (∃ height, Assigns c 0 height ∧ (∀ i ≤ 0, p i (height i)) ∧
      ∀ i < 0, q i (height (i + 1)) (height i)) ↔ p 0 0 := by
  constructor
  · rintro ⟨height, ha, hp, -⟩
    have := hp 0 (Nat.le_refl _)
    rwa [ha.start] at this
  · intro h
    refine ⟨fun _ => 0, ⟨rfl, nofun, nofun⟩, ?_, nofun⟩
    intro i hi
    rw [Nat.le_zero.mp hi]
    exact h

/-! ## Heights above an ancestor -/

theorem appliesAt_drop {d i h : Nat} :
    AppliesAt c (chain.drop d) i h ↔ AppliesAt c chain i (d + h) := by
  rw [AppliesAt, AppliesAt, getElem?_drop]

theorem nearestAt_drop {below h : Nat} :
    NearestAt c (chain.drop d) i below h ↔ NearestAt c chain i (d + below) (d + h) := by
  simp only [NearestAt, appliesAt_drop]
  constructor
  · intro hn hrel k h1 h2
    have := hn hrel (k - d) (by omega) (by omega)
    rwa [show d + (k - d) = k by omega] at this
  · intro hn hrel k h1 h2
    exact hn hrel (d + k) (by omega) (by omega)

theorem activeAt_drop {d i h : Nat} (hd : 0 < d) :
    ActiveAt c (chain.drop d) (chain[d]?.bind Styleable.pseudoClassStates) i h ↔
      ActiveAt c chain states i (d + h) := by
  have hactive : activeStates (chain.drop d) (chain[d]?.bind Styleable.pseudoClassStates) h
      = activeStates chain states (d + h) := by
    rw [activeStates, activeStates, if_neg (show d + h ≠ 0 by omega), getElem?_drop]
    split
    · next hh => rw [hh, Nat.add_zero]
    · rfl
  rw [ActiveAt, ActiveAt, hactive]

/-! ## `applies` -/

theorem any_applies_iff {styleable : Styleable} {ancestors : List Styleable} :
    (c.selectors[i]?.any (·.applies styleable)) = true ↔
      AppliesAt c (styleable :: ancestors) i 0 := by
  rw [Option.any_eq_true, AppliesAt]
  constructor
  · rintro ⟨selector, h1, h2⟩
    exact ⟨selector, styleable, h1, rfl, h2⟩
  · rintro ⟨selector, styleable', h1, h2, h3⟩
    cases h2
    exact ⟨selector, h1, h3⟩

theorem anyAncestor_iff {test : List Styleable → Bool}
    (hnil : test [] = false) : anyAncestor test l = true ↔ ∃ d, test (l.drop d) = true := by
  induction l with
  | nil =>
    rw [anyAncestor]
    simp [hnil]
  | cons parent rest ih =>
    rw [anyAncestor, or_eq_true, ih]
    constructor
    · rintro (h | ⟨d, h⟩)
      · exact ⟨0, h⟩
      · exact ⟨d + 1, h⟩
    · rintro ⟨d, h⟩
      cases d with
      | zero => exact Or.inl h
      | succ d => exact Or.inr ⟨d, h⟩

theorem appliesFrom_nil : c.appliesFrom n [] = false := by
  cases n <;> rfl

theorem appliesFrom_iff : c.appliesFrom n chain = true ↔
    ∃ height, Assigns c n height ∧ (∀ i ≤ n, AppliesAt c chain i (height i)) ∧
      ∀ i < n, True := by
  induction n generalizing chain with
  | zero =>
    rw [exists_assigns_zero (q := fun _ _ _ => True)]
    cases chain with
    | nil => simp [appliesFrom, AppliesAt]
    | cons styleable ancestors => exact any_applies_iff
  | succ n ih =>
    rw [exists_assigns_succ (q := fun _ _ _ => True)]
    cases chain with
    | nil => simp [appliesFrom, AppliesAt]
    | cons styleable ancestors =>
      have hrec : ∀ d, c.appliesFrom n (ancestors.drop d) = true ↔
          ∃ height, Assigns c n height ∧
            (∀ i ≤ n, AppliesAt c (styleable :: ancestors) i (d + 1 + height i)) ∧
            ∀ i < n, True := by
        intro d
        rw [ih]
        have hdrop : ancestors.drop d = (styleable :: ancestors).drop (d + 1) := rfl
        simp only [hdrop, appliesAt_drop]
      rw [appliesFrom, and_eq_true, any_applies_iff]
      refine and_congr_right fun _ => ?_
      split
      · next hrel =>
        -- the parent
        have hpar : (!ancestors.isEmpty && c.appliesFrom n ancestors) = true ↔
            c.appliesFrom n (ancestors.drop 0) = true := by
          cases ancestors with
          | nil => simp [appliesFrom_nil]
          | cons parent rest => simp
        rw [hpar, hrec]
        constructor
        · intro h
          exact ⟨1, by omega, fun _ => rfl, trivial, by simpa using h⟩
        · rintro ⟨d, -, hd, -, h⟩
          rw [hd hrel] at h
          simpa using h
      · next hrel =>
        -- any ancestor
        rw [anyAncestor_iff appliesFrom_nil]
        constructor
        · rintro ⟨d, h⟩
          exact ⟨d + 1, by omega, fun hchild => absurd hchild hrel, trivial, (hrec d).mp h⟩
        · rintro ⟨d, hd, -, -, h⟩
          refine ⟨d - 1, (hrec _).mpr ?_⟩
          rwa [show d - 1 + 1 = d by omega]

/-! ## `stateMatches` -/

theorem any_stateMatches_iff :
    (c.selectors[i]?.any (·.stateMatches states)) = true ↔ ActiveAt c chain states i 0 := by
  rw [Option.any_eq_true, ActiveAt, activeStates, if_pos rfl]

theorem firstAncestor_eq_cons {parent : Styleable}
    {rest : List Styleable} (h : firstAncestor test l = parent :: rest) :
    test parent = true ∧ ∃ d, l.drop d = parent :: rest ∧
      ∀ e < d, ∀ x, l[e]? = some x → test x = false := by
  induction l with
  | nil => cases h
  | cons x l ih =>
    rw [firstAncestor] at h
    split at h
    · next hx =>
      cases h
      exact ⟨hx, 0, rfl, nofun⟩
    · next hx =>
      obtain ⟨hp, d, hd, hbef⟩ := ih h
      refine ⟨hp, d + 1, hd, ?_⟩
      intro e he y hy
      cases e with
      | zero =>
        cases hy
        simpa using hx
      | succ e => exact hbef e (by omega) y hy

theorem firstAncestor_eq_nil (h : firstAncestor test l = []) : ∀ x ∈ l, test x = false := by
  induction l with
  | nil => simp
  | cons x l ih =>
    rw [firstAncestor] at h
    split at h
    · cases h
    · next hx =>
      intro y hy
      rcases mem_cons.mp hy with rfl | hy
      · simpa using hx
      · exact ih h y hy

/-- The heights that `stateMatches` looks at. -/
def Taken (c : CompoundSelector) (chain : List Styleable) (states : Option (Finset String))
    (n : Nat) : Prop :=
  ∃ height, Assigns c n height ∧
    (∀ i ≤ n, AppliesAt c chain i (height i) ∧ ActiveAt c chain states i (height i)) ∧
    ∀ i < n, NearestAt c chain i (height (i + 1)) (height i)

theorem taken_drop (hd : 0 < d) :
    Taken c (chain.drop d) (chain[d]?.bind Styleable.pseudoClassStates) n ↔
      ∃ height, Assigns c n height ∧
        (∀ i ≤ n, AppliesAt c chain i (d + height i) ∧ ActiveAt c chain states i (d + height i)) ∧
        ∀ i < n, NearestAt c chain i (d + height (i + 1)) (d + height i) := by
  simp only [Taken, appliesAt_drop, nearestAt_drop, @activeAt_drop _ _ states _ _ _ hd]

theorem stateMatchesFrom_iff (happ : AppliesAt c chain n 0) :
    c.stateMatchesFrom n chain states = true ↔ Taken c chain states n := by
  induction n generalizing chain states with
  | zero =>
    rw [Taken, exists_assigns_zero (p := fun i h => AppliesAt c chain i h ∧
      ActiveAt c chain states i h) (q := fun i => NearestAt c chain i)]
    cases chain with
    | nil => simp [AppliesAt] at happ
    | cons styleable ancestors =>
      rw [stateMatchesFrom, any_stateMatches_iff]
      exact ⟨fun h => ⟨happ, h⟩, fun h => h.2⟩
  | succ n ih =>
    rw [Taken, exists_assigns_succ (p := fun i h => AppliesAt c chain i h ∧
      ActiveAt c chain states i h) (q := fun i => NearestAt c chain i)]
    cases chain with
    | nil => simp [AppliesAt] at happ
    | cons styleable ancestors =>
      rw [stateMatchesFrom, and_eq_true, any_stateMatches_iff, and_iff_right happ]
      refine and_congr_right fun _ => ?_
      -- the recursive call at the ancestor `d` levels up
      have hrec : ∀ (d : Nat) (parent : Styleable) (rest : List Styleable), 0 < d →
          (styleable :: ancestors).drop d = parent :: rest →
          AppliesAt c (styleable :: ancestors) n d →
          (c.stateMatchesFrom n (parent :: rest) parent.pseudoClassStates = true ↔
            ∃ height, Assigns c n height ∧
              (∀ i ≤ n, AppliesAt c (styleable :: ancestors) i (d + height i) ∧
                ActiveAt c (styleable :: ancestors) states i (d + height i)) ∧
              ∀ i < n, NearestAt c (styleable :: ancestors) i (d + height (i + 1))
                (d + height i)) := by
        intro d parent rest hd hdrop happd
        have hpar : (styleable :: ancestors)[d]? = some parent := by
          have := @getElem?_drop _ (styleable :: ancestors) d 0
          rw [hdrop] at this
          simpa using this.symm
        rw [← taken_drop hd, hdrop, hpar]
        apply ih
        rw [← hdrop, appliesAt_drop]
        exact happd
      split
      · next hrel =>
        -- the parent
        cases ancestors with
        | nil =>
          constructor
          · intro h
            cases h
          · rintro ⟨d, hd, hone, -, height, -, hall, -⟩
            obtain ⟨⟨selector, x, -, hx, -⟩, -⟩ := hall n (Nat.le_refl _)
            rw [hone hrel, Nat.add_comm, getElem?_cons_succ] at hx
            cases hx
        | cons parent rest =>
          rw [head?_cons, any_some, and_eq_true, any_applies_iff]
          have hone : AppliesAt c (parent :: rest) n 0 ↔
              AppliesAt c (styleable :: parent :: rest) n 1 :=
            @appliesAt_drop _ (styleable :: parent :: rest) 1 _ 0
          rw [hone]
          constructor
          · rintro ⟨happ1, hstate⟩
            refine ⟨1, by omega, fun _ => rfl, fun hne => absurd hrel hne, ?_⟩
            exact (hrec 1 parent rest (by omega) rfl happ1).mp hstate
          · rintro ⟨d, -, hd, -, height, ha, hall, hnear⟩
            obtain rfl := hd hrel
            have happ1 := (hall n (Nat.le_refl _)).1
            rw [ha.start] at happ1
            exact ⟨happ1, (hrec 1 parent rest (by omega) rfl happ1).mpr ⟨height, ha, hall, hnear⟩⟩
      · next hrel =>
        -- the nearest ancestor that the simple selector applies to
        dsimp only
        cases hfound : firstAncestor (fun parent => c.selectors[n]?.any (·.applies parent))
            ancestors with
        | nil =>
          constructor
          · intro h
            cases h
          · rintro ⟨d, hd, -, -, height, ha, hall, -⟩
            obtain ⟨⟨selector, x, hsel, hx, happx⟩, -⟩ := hall n (Nat.le_refl _)
            rw [ha.start, Nat.add_zero, show d = d - 1 + 1 by omega,
              getElem?_cons_succ] at hx
            have := firstAncestor_eq_nil hfound x (mem_of_getElem? hx)
            rw [hsel, any_some, happx] at this
            cases this
        | cons parent rest =>
          obtain ⟨htest, e, hdrop, hbef⟩ := firstAncestor_eq_cons hfound
          have happe : AppliesAt c (styleable :: ancestors) n (e + 1) := by
            rw [any_applies_iff, ← hdrop] at htest
            rwa [← appliesAt_drop (d := e + 1) (h := 0)]
          rw [head?_cons, any_some, hrec (e + 1) parent rest (by omega) hdrop happe]
          constructor
          · intro h
            refine ⟨e + 1, by omega, fun hchild => absurd hchild hrel, ?_, h⟩
            rintro - k hk1 hk2 ⟨selector, x, hsel, hx, happx⟩
            rw [show k = k - 1 + 1 by omega, getElem?_cons_succ] at hx
            have := hbef (k - 1) (by omega) x hx
            rw [hsel, any_some, happx] at this
            cases this
          · rintro ⟨d, hd, -, hnear, height, ha, hall, hnears⟩
            -- any other ancestor would have this one before it, or come before it
            have happd := (hall n (Nat.le_refl _)).1
            rw [ha.start, Nat.add_zero] at happd
            have hle : ¬ e + 1 < d := fun hlt => hnear hrel (e + 1) (by omega) hlt happe
            have hge : ¬ d < e + 1 := by
              intro hlt
              obtain ⟨selector, x, hsel, hx, happx⟩ := happd
              rw [show d = d - 1 + 1 by omega, getElem?_cons_succ] at hx
              have := hbef (d - 1) (by omega) x hx
              rw [hsel, any_some, happx] at this
              cases this
            obtain rfl : d = e + 1 := by omega
            exact ⟨height, ha, hall, hnears⟩

/-! ## The two calls -/

theorem applies_iff : c.applies chain = true ↔ ∃ height, Applies c chain height := by
  rw [applies]
  split
  · next hlen =>
    have hnil := length_eq_zero_iff.mp hlen
    constructor
    · intro h
      cases h
    · rintro ⟨height, h⟩
      obtain ⟨selector, -, hsel, -⟩ := h.applies 0 (Nat.zero_le _)
      rw [hnil] at hsel
      cases hsel
  · next m hlen =>
    have hlast : c.last = m := by
      rw [last, hlen]
      rfl
    rw [appliesFrom_iff]
    constructor
    · rintro ⟨height, ha, happ, -⟩
      exact ⟨height, by rw [hlast]; exact ha, by rw [hlast]; exact happ⟩
    · rintro ⟨height, ha, happ⟩
      rw [hlast] at ha happ
      exact ⟨height, ha, happ, fun _ _ => trivial⟩

theorem stateMatches_iff (h : ∃ height, Applies c chain height) :
    c.stateMatches chain states = true ↔
      ∃ height, Matches c chain states height ∧ Nearest c chain height := by
  obtain ⟨height, happ⟩ := h
  have hnode : AppliesAt c chain c.last 0 := by
    have := happ.applies c.last (Nat.le_refl _)
    rwa [happ.assigns.start] at this
  rw [stateMatches]
  split
  · next hlen =>
    obtain ⟨selector, -, hsel, -⟩ := hnode
    rw [length_eq_zero_iff.mp hlen] at hsel
    cases hsel
  · next m hlen =>
    have hlast : c.last = m := by
      rw [last, hlen]
      rfl
    rw [stateMatchesFrom_iff (by rw [← hlast]; exact hnode), ← hlast]
    constructor
    · rintro ⟨height, ha, hall, hnear⟩
      exact ⟨height, ⟨⟨ha, fun i hi => (hall i hi).1⟩, fun i hi => (hall i hi).2⟩, hnear⟩
    · rintro ⟨height, hm, hnear⟩
      exact ⟨height, hm.assigns, fun i hi => ⟨hm.applies i hi, hm.active i hi⟩, hnear⟩

/-- `applies` and, where it holds, `stateMatches` ask for assignments. -/
structure SearchesAssignments (c : CompoundSelector) (chain : List Styleable)
    (states : Option (Finset String)) : Prop where
  applies : c.applies chain = true ↔ ∃ height, Applies c chain height
  stateMatches : c.applies chain = true →
    (c.stateMatches chain states = true ↔ ∃ height, Matches c chain states height)

/-- Right exactly when, if any matches, the nearest ones do. -/
theorem searchesAssignments_iff (c : CompoundSelector) (chain : List Styleable)
    (states : Option (Finset String)) :
    SearchesAssignments c chain states ↔ ((∃ height, Matches c chain states height) →
      ∃ height, Matches c chain states height ∧ Nearest c chain height) := by
  constructor
  · rintro h ⟨height, hm⟩
    have happ : ∃ height, Applies c chain height := ⟨height, hm.toApplies⟩
    rw [← stateMatches_iff happ, h.stateMatches (applies_iff.mpr happ)]
    exact ⟨height, hm⟩
  · intro h
    refine ⟨applies_iff, ?_⟩
    intro happ
    rw [stateMatches_iff (applies_iff.mp happ)]
    constructor
    · rintro ⟨height, hm, -⟩
      exact ⟨height, hm⟩
    · exact h

def hoveredListCell : CompoundSelector :=
  ⟨[⟨"*", {"list"}, "", {"hover"}, .inherit⟩, ⟨"*", {"cell"}, "", ∅, .inherit⟩], [.descendant], rfl⟩

/-- A cell in a list in a list of which the outer one is hovered. -/
def cellInNestedLists : List Styleable :=
  [⟨none, none, [some "cell"], some ∅, none⟩, ⟨none, none, [some "list"], some ∅, none⟩,
    ⟨none, none, [some "list"], some {"hover"}, none⟩]

/-- The outer list matches, but only the inner one is looked at. -/
theorem stateMatches_stops_at_inner : hoveredListCell.applies cellInNestedLists = true ∧
      hoveredListCell.stateMatches cellInNestedLists (some ∅) = false ∧
      ∃ height, Matches hoveredListCell cellInNestedLists (some ∅) height := by
  refine ⟨by decide, by decide, fun i => if i = 0 then 2 else 0, ⟨⟨⟨rfl, ?_, ?_⟩, ?_⟩, ?_⟩⟩
  · intro i hi hchild
    obtain rfl : i = 0 := by
      simp only [hoveredListCell, last, length_cons, length_nil] at hi
      omega
    cases hchild
  · intro i hi
    obtain rfl : i = 0 := by
      simp only [hoveredListCell, last, length_cons, length_nil] at hi
      omega
    decide
  · intro i hi
    obtain rfl | rfl : i = 0 ∨ i = 1 := by
      simp only [hoveredListCell, last, length_cons, length_nil] at hi
      omega
    · exact ⟨_, _, rfl, rfl, by decide⟩
    · exact ⟨_, _, rfl, rfl, by decide⟩
  · intro i hi
    obtain rfl | rfl : i = 0 ∨ i = 1 := by
      simp only [hoveredListCell, last, length_cons, length_nil] at hi
      omega
    · exact ⟨_, rfl, by decide⟩
    · exact ⟨_, rfl, by decide⟩

end CompoundSelector

end OpenJfx.Css
