/-
  OpenJfx.Binding.BidirectionalBinding.Runs

  The heaps that calls of `set`, `get`, `addListener` and `BidirectionalBinding.bind` build
  from new properties, and what `set` does to each of them: the cascade ends, the component
  of the property holds the new value and nothing else has changed.
-/

import OpenJfx.Binding.BidirectionalBinding.Cascade

namespace OpenJfx.Binding.Bidirectional

open List Option IntegerProperty

variable {P : Type} [DecidableEq P]

variable {b : BidirectionalIntegerBinding P} {fuel : Nat} {h : Heap P}

namespace Heap

/-! ## More fuel -/

/-- `set'` returns what `set` returns, where that returns. -/
def Extends (set set' : Heap P → P → BitVec 32 → Option (Heap P)) : Prop :=
  ∀ h p v r, set h p v = some r → set' h p v = some r

section Extends

variable {set set' : Heap P → P → BitVec 32 → Option (Heap P)} {p : P} {h r : Heap P}

theorem Extends.changed (hx : Extends set set')
    {v : BitVec 32} (hr : Heap.changed set h b p v = some r) :
    Heap.changed set' h b p v = some r := by
  unfold Heap.changed at hr ⊢
  split
  · next hup => rwa [if_pos hup] at hr
  · next hup =>
    rw [if_neg hup] at hr
    obtain ⟨h', hcall, rfl⟩ := map_eq_some_iff.1 hr
    refine map_eq_some_iff.2 ⟨h', ?_, rfl⟩
    split at hcall
    · next hp => rw [if_pos hp, hx _ _ _ _ hcall]
    · next hp => rw [if_neg hp, hx _ _ _ _ hcall]

theorem Extends.changedEach (hx : Extends set set') {bs : List (BidirectionalIntegerBinding P)}
    (hr : Heap.changedEach set p bs h = some r) : Heap.changedEach set' p bs h = some r := by
  induction bs generalizing h with
  | nil => exact hr
  | cons b bs ih =>
    simp only [Heap.changedEach, bind_eq_bind, bind_eq_some_iff] at hr ⊢
    obtain ⟨h', hchanged, hrest⟩ := hr
    exact ⟨h', hx.changed hchanged, ih hrest⟩

theorem Extends.fireValueChangedEvent (hx : Extends set set')
    (hr : Heap.fireValueChangedEvent set h p = some r) :
    Heap.fireValueChangedEvent set' h p = some r := by
  unfold Heap.fireValueChangedEvent at hr ⊢
  cases hhelp : (h.properties p).helper with
  | null | singleInvalidation listener => simpa only [hhelp] using hr
  | singleChange listener oldValue =>
    simp only [hhelp] at hr ⊢
    split
    · next hne => exact hx.changed (by rwa [if_pos hne] at hr)
    · next heq => rwa [if_neg heq] at hr
  | generic invalidationListeners listeners oldValue =>
    simp only [hhelp] at hr ⊢
    split
    · next hpos =>
      rw [if_pos hpos] at hr
      split
      · next hne => exact hx.changedEach (by rwa [if_pos hne] at hr)
      · next heq => rwa [if_neg heq] at hr
    · next hzero => rwa [if_neg hzero] at hr

theorem Extends.markInvalid (hx : Extends set set') (hr : Heap.markInvalid set h p = some r) :
    Heap.markInvalid set' h p = some r := by
  unfold Heap.markInvalid at hr ⊢
  split
  · next hvalid => exact hx.fireValueChangedEvent (by rwa [if_pos hvalid] at hr)
  · next hvalid => rwa [if_neg hvalid] at hr

end Extends

theorem set_extends_succ (fuel : Nat) : Extends (set (P := P) fuel) (set (fuel + 1)) := by
  induction fuel with
  | zero =>
    intro h p v r hr
    cases hr
  | succ fuel ih =>
    intro h p v r hr
    rw [set] at hr ⊢
    split
    · next hne => exact ih.markInvalid (by rwa [if_pos hne] at hr)
    · next heq => rwa [if_neg heq] at hr

theorem set_mono {fuel' : Nat} (hle : fuel ≤ fuel') :
    Extends (set (P := P) fuel) (set fuel') := by
  induction hle with
  | refl => exact fun _ _ _ _ hr => hr
  | step _ ih => exact fun h p v r hr => set_extends_succ _ h p v r (ih h p v r hr)

/-! ## Reachable heaps -/

/-- Between two calls from outside. -/
structure Settled (h : Heap P) : Prop extends Wired h where
  idle : ∀ i, h.updating i = false
  agree : ∀ p q, Linked h.bindings p q → h.value p = h.value q

/-- The heaps that calls from outside build up from new properties. -/
inductive Reachable : Heap P → Prop
  | new (initialValue : P → BitVec 32) :
      Reachable ⟨fun p => .new (initialValue p), [], fun _ => false⟩
  | get {h : Heap P} (p : P) : Reachable h → Reachable (h.modify p IntegerProperty.get)
  | addInvalidationListener {h : Heap P} (p : P) (listener : InvalidationListener) :
      Reachable h → Reachable (h.modify p (IntegerProperty.addInvalidationListener listener))
  | set {h h' : Heap P} (fuel : Nat) (p : P) (newValue : BitVec 32) :
      Reachable h → h.set fuel p newValue = some h' → Reachable h'
  | bind {h h' : Heap P} (fuel : Nat) (property1 property2 : P) :
      Reachable h → h.bind fuel property1 property2 = .ok (some h') → Reachable h'

section Settled

variable [Fintype P]

theorem Settled.set {h : Heap P} (hs : Settled h) (p : P) (v : BitVec 32) :
    ∃ h', (∀ fuel, Fintype.card P < fuel → h.set fuel p v = some h') ∧ Settled h' ∧
      h'.bindings = h.bindings ∧ (∀ q, Connected h.bindings p q → h'.value q = v) ∧
      ∀ q, ¬ Connected h.bindings p q → h'.properties q = h.properties q := by
  have hguarded : Guarded v h := fun b _ hup => absurd hup (by simp [hs.idle])
  obtain ⟨h', hset, hprog, hp⟩ :=
    converges v (Fintype.card P) h p hs.toWired hguarded (Finset.card_le_univ _)
  have hreach : ∀ q, Connected h.bindings p q → h'.value q = v := by
    intro q hq
    induction hq with
    | refl => exact hp
    | @tail q r _ hlink ih =>
      by_cases hqv : h.value q = v
      · exact hprog.value_of_eq ((hs.agree q r hlink).symm.trans hqv)
      · obtain ⟨b, hb, hends, rfl⟩ := hlink.exists_other
        exact hprog.closed q hqv ih b ((hs.mem_changeListeners q b).2 ⟨hb, hends⟩)
  refine ⟨h', hset, ⟨hprog.wired hs.toWired, ?_, ?_⟩, hprog.bindings, hreach,
    hprog.frame⟩
  · intro i
    rw [hprog.updating]
    exact hs.idle i
  · intro q r hlink
    rw [hprog.bindings] at hlink
    by_cases hq : Connected h.bindings p q
    · rw [hreach q hq, hreach r (hq.tail hlink)]
    · have hr : ¬ Connected h.bindings p r := fun hr => hq (hr.tail hlink.symm)
      show (h'.properties q).value = (h'.properties r).value
      rw [hprog.frame q hq, hprog.frame r hr]
      exact hs.agree q r hlink

end Settled

omit [DecidableEq P] in
theorem Settled.new (initialValue : P → BitVec 32) :
    Settled (⟨fun p => .new (initialValue p), [], fun _ => false⟩ : Heap P) where
  mem_changeListeners p b := by
    simp [changeListeners, IntegerProperty.new, Helper.changeListeners]
  id_lt b hb := by cases hb
  id_inj b hb := by cases hb
  inSync p hne := absurd rfl hne
  idle _ := rfl
  agree p q hlink := by
    obtain ⟨b, hb, _⟩ := hlink
    cases hb

theorem Settled.modify (hs : Settled h) {p : P} {f : IntegerProperty P → IntegerProperty P}
    (hval : (f (h.properties p)).value = h.value p)
    (hsame : (f (h.properties p)).helper.changeListeners = h.changeListeners p)
    (hsync : (f (h.properties p)).InSync) : Settled (h.modify p f) where
  toWired := hs.toWired.modify hsame hsync
  idle := hs.idle
  agree q r hlink := by
    have hkept : ∀ q, (h.modify p f).value q = h.value q := by
      intro q
      show (h.modify p fun _ => f (h.properties p)).value q = h.value q
      rw [value_modify]
      split
      · next hq => rw [hq, hval]
      · rfl
    rw [hkept, hkept]
    exact hs.agree q r hlink

theorem Settled.get (hs : Settled h) (p : P) :
    Settled (h.modify p IntegerProperty.get) := by
  apply hs.modify rfl rfl
  intro hne
  exact ⟨rfl, (hs.inSync p hne).2⟩

theorem Settled.addInvalidationListener (hs : Settled h) (p : P) (listener : InvalidationListener) :
    Settled (h.modify p (IntegerProperty.addInvalidationListener listener)) := by
  have hsync := hs.inSync p
  apply hs.modify
  · unfold IntegerProperty.addInvalidationListener
    split <;> rfl
  · unfold IntegerProperty.addInvalidationListener
    split <;> simp_all [changeListeners, Helper.changeListeners]
  · unfold IntegerProperty.addInvalidationListener
    split
    · exact fun hne => absurd rfl hne
    · exact fun hne => absurd rfl hne
    · exact fun _ => ⟨rfl, rfl⟩
    · next hhelp =>
      intro hne
      have hkept := hsync (by rwa [hhelp])
      rw [hhelp] at hkept
      exact ⟨rfl, hkept.2⟩

/-! ## `bind` -/

omit [DecidableEq P] in
theorem addListener_value (b : BidirectionalIntegerBinding P) (property : IntegerProperty P) :
    (property.addListener b).value = property.value := by
  unfold addListener
  split
  · rfl
  · rfl
  · rfl
  · dsimp only
    split <;> rfl

omit [DecidableEq P] in
theorem addListener_changeListeners (b : BidirectionalIntegerBinding P)
    (property : IntegerProperty P) :
    (property.addListener b).helper.changeListeners =
      property.helper.changeListeners ++ [b] := by
  unfold addListener
  split
  · next hhelp => rw [hhelp]; rfl
  · next hhelp => rw [hhelp]; rfl
  · next hhelp => rw [hhelp]; rfl
  · next hhelp =>
    rw [hhelp]
    dsimp only
    split <;> rfl

omit [DecidableEq P] in
theorem addListener_inSync (b : BidirectionalIntegerBinding P) {property : IntegerProperty P}
    (hsync : property.InSync) : (property.addListener b).InSync := by
  unfold addListener
  split
  · exact fun _ => ⟨rfl, rfl⟩
  · exact fun _ => ⟨rfl, rfl⟩
  · exact fun _ => ⟨rfl, rfl⟩
  · next _ changeListeners _ hhelp =>
    dsimp only
    split
    · exact fun _ => ⟨rfl, rfl⟩
    · next hlen =>
      intro _
      have hne : changeListeners ≠ [] := by
        rintro rfl
        exact hlen rfl
      have hkept := hsync (by rwa [hhelp])
      rw [hhelp] at hkept
      exact hkept

/-- The two calls of `addListener` at the end of `bind`. -/
def addBinding (h : Heap P) (binding : BidirectionalIntegerBinding P) : Heap P :=
  { (h.modify binding.property1 (addListener binding)).modify binding.property2
      (addListener binding) with
    bindings := h.bindings ++ [binding] }

theorem addBinding_properties (hne : b.property1 ≠ b.property2) (q : P) :
    ((h.addBinding b).properties q = (h.properties q).addListener b ∧ b.Ends q) ∨
      ((h.addBinding b).properties q = h.properties q ∧ ¬ b.Ends q) := by
  by_cases h2 : q = b.property2
  · left
    subst h2
    refine ⟨?_, .inr rfl⟩
    simp [addBinding, modify_properties_of_ne _ hne.symm]
  · by_cases h1 : q = b.property1
    · left
      subst h1
      refine ⟨?_, .inl rfl⟩
      simp [addBinding, modify_properties_of_ne _ h2]
    · right
      refine ⟨?_, fun hends => hends.elim (fun h => h1 h.symm) fun h => h2 h.symm⟩
      simp [addBinding, modify_properties_of_ne _ h2, modify_properties_of_ne _ h1]

theorem addBinding_value
    (hne : b.property1 ≠ b.property2) (q : P) : (h.addBinding b).value q = h.value q := by
  unfold value
  rcases addBinding_properties (h := h) hne q with ⟨hq, _⟩ | ⟨hq, _⟩
  · rw [hq, addListener_value]
  · rw [hq]

/-- A new binding between properties of one value. -/
theorem Settled.addBinding (hs : Settled h)
    (hne : b.property1 ≠ b.property2) (hid : b.id = h.bindings.length)
    (hagree : h.value b.property1 = h.value b.property2) : Settled (h.addBinding b) where
  mem_changeListeners q b' := by
    show b' ∈ ((h.addBinding b).properties q).helper.changeListeners ↔
      b' ∈ h.bindings ++ [b] ∧ b'.Ends q
    have hold : b' ∈ (h.properties q).helper.changeListeners ↔ b' ∈ h.bindings ∧ b'.Ends q :=
      hs.mem_changeListeners q b'
    rcases addBinding_properties (h := h) hne q with ⟨hq, hends⟩ | ⟨hq, hends⟩
    · rw [hq, addListener_changeListeners, mem_append, mem_append, hold, mem_singleton]
      constructor
      · rintro (⟨hmem, hends'⟩ | rfl)
        · exact ⟨.inl hmem, hends'⟩
        · exact ⟨.inr rfl, hends⟩
      · rintro ⟨hmem | rfl, hends'⟩
        · exact .inl ⟨hmem, hends'⟩
        · exact .inr rfl
    · rw [hq, hold, mem_append, mem_singleton]
      constructor
      · rintro ⟨hmem, hends'⟩
        exact ⟨.inl hmem, hends'⟩
      · rintro ⟨hmem | rfl, hends'⟩
        · exact ⟨hmem, hends'⟩
        · exact absurd hends' hends
  id_lt b' hb' := by
    show b'.id < (h.bindings ++ [b]).length
    rw [length_append, length_singleton]
    rcases mem_append.1 hb' with hmem | hmem
    · exact Nat.lt_succ_of_lt (hs.id_lt b' hmem)
    · rw [mem_singleton.1 hmem, hid]
      exact Nat.lt_succ_self _
  id_inj b1 hb1 b2 hb2 heq := by
    rcases mem_append.1 hb1 with hmem1 | hmem1 <;> rcases mem_append.1 hb2 with hmem2 | hmem2
    · exact hs.id_inj b1 hmem1 b2 hmem2 heq
    · have hlt := hs.id_lt b1 hmem1
      rw [heq, mem_singleton.1 hmem2, hid] at hlt
      exact absurd hlt (Nat.lt_irrefl _)
    · have hlt := hs.id_lt b2 hmem2
      rw [← heq, mem_singleton.1 hmem1, hid] at hlt
      exact absurd hlt (Nat.lt_irrefl _)
    · rw [mem_singleton.1 hmem1, mem_singleton.1 hmem2]
  inSync q := by
    rcases addBinding_properties (h := h) hne q with ⟨hq, _⟩ | ⟨hq, _⟩
    · rw [hq]
      exact addListener_inSync b (hs.inSync q)
    · rw [hq]
      exact hs.inSync q
  idle := hs.idle
  agree q r hlink := by
    rw [addBinding_value hne, addBinding_value hne]
    obtain ⟨b', hb', hends⟩ := hlink
    rcases mem_append.1 hb' with hmem | hmem
    · exact hs.agree q r ⟨b', hmem, hends⟩
    · obtain rfl := mem_singleton.1 hmem
      rcases hends with ⟨rfl, rfl⟩ | ⟨rfl, rfl⟩
      · exact hagree
      · exact hagree.symm

section Runs

variable [Fintype P]

theorem Settled.set_eq {h' : Heap P} (hs : Settled h) {p : P} {v : BitVec 32}
    (hset : h.set fuel p v = some h') :
    Settled h' ∧ h'.bindings = h.bindings ∧ (∀ q, Connected h.bindings p q → h'.value q = v) ∧
      ∀ q, ¬ Connected h.bindings p q → h'.properties q = h.properties q := by
  obtain ⟨r, hr, hsett⟩ := hs.set p v
  have hmax : h.set (max fuel (Fintype.card P + 1)) p v = some h' :=
    set_mono (Nat.le_max_left _ _) h p v h' hset
  rw [hr _ (by omega)] at hmax
  cases hmax
  exact hsett

theorem Settled.bind {h' : Heap P} (hs : Settled h) {property1 property2 : P}
    (hbind : h.bind fuel property1 property2 = .ok (some h')) : Settled h' := by
  unfold Heap.bind at hbind
  by_cases hne : property1 = property2
  · rw [if_pos hne] at hbind
    cases hbind
  · rw [if_neg hne] at hbind
    obtain ⟨h1, hset, rfl⟩ := map_eq_some_iff.1 (Except.ok.inj hbind)
    have hs0 := hs.get property2
    obtain ⟨hs1, hbindings, hconnected, hframe⟩ := hs0.set_eq hset
    have hvalue1 : h1.value property1 = h.value property2 := hconnected property1 .refl
    have hvalue2 : h1.value property2 = h.value property2 := by
      by_cases hc : Connected (h.modify property2 IntegerProperty.get).bindings property1 property2
      · exact hconnected property2 hc
      · unfold value
        rw [hframe property2 hc, modify_properties_self]
        rfl
    refine hs1.addBinding (b := ⟨h.bindings.length, property1, property2⟩) hne ?_ ?_
    · rw [hbindings]
      rfl
    · exact hvalue1.trans hvalue2.symm

theorem Reachable.settled (hr : Reachable h) : Settled h := by
  induction hr with
  | new initialValue => exact .new initialValue
  | get p _ ih => exact ih.get p
  | addInvalidationListener p listener _ ih => exact ih.addInvalidationListener p listener
  | set _ _ _ _ hset ih => exact (ih.set_eq hset).1
  | bind _ _ _ _ hbind ih => exact ih.bind hbind

/-- `set` reaches the component, and no others. -/
theorem Reachable.set_converges {h : Heap P} (hr : Reachable h) (p : P) (v : BitVec 32) :
    ∃ h', (∀ fuel, Fintype.card P < fuel → h.set fuel p v = some h') ∧
      (∀ q, Connected h.bindings p q → h'.value q = v) ∧
      ∀ q, ¬ Connected h.bindings p q → h'.properties q = h.properties q := by
  obtain ⟨h', hset, _, _, hconnected, hframe⟩ := hr.settled.set p v
  exact ⟨h', hset, hconnected, hframe⟩

end Runs

/-- A cycle of three, and a fourth on its own. -/
theorem Reachable.set_converges_cycle :
    ∃ h : Heap (Fin 4), h.bindings = [⟨0, 0, 1⟩, ⟨1, 1, 2⟩, ⟨2, 2, 0⟩, ⟨3, 0, 1⟩] ∧
      Reachable h ∧ ∃ h', (∀ fuel, 4 < fuel → h.set fuel 1 7 = some h') ∧
        (∀ q, Connected h.bindings 1 q → h'.value q = 7) ∧
        ∀ q, ¬ Connected h.bindings 1 q → h'.properties q = h.properties q := by
  have h₀ := Reachable.new fun i : Fin 4 => BitVec.ofNat 32 i
  have h₁ := h₀.bind 5 0 1 rfl
  have h₂ := h₁.bind 5 1 2 rfl
  have h₃ := h₂.bind 5 2 0 rfl
  have hr := h₃.bind 5 0 1 rfl
  exact ⟨_, rfl, hr, hr.set_converges 1 7⟩

end Heap

end OpenJfx.Binding.Bidirectional
