/-
  OpenJfx.Css.BitSet.Equality

  `equals`, `hashCode` and `containsAll` look at the arrays with their length,
  so two sets with the same elements are told apart when one of them has zero
  words at the end, which a removal leaves there.  They are extensional exactly
  where the lengths agree with the elements.
-/

import OpenJfx.Css.BitSet.Runs

namespace OpenJfx.Css.BitSet

variable {a b : BitSet}

/-- The calls see the elements of the two sets only. -/
structure Extensional (a b : BitSet) : Prop where
  equals : a.equals b = true ↔ members a.bits = members b.bits
  hashCode : members a.bits = members b.bits → a.hashCode = b.hashCode
  containsAll : a.containsAll (some b) = true ↔ members b.bits ⊆ members a.bits

/-- Equal sets have equal lengths. -/
structure LengthsAgree (a b : BitSet) : Prop where
  of_subset : members b.bits ⊆ members a.bits → b.bits.length ≤ a.bits.length
  of_eq : members a.bits = members b.bits → a.bits.length ≤ b.bits.length

theorem equals_iff : a.equals b = true ↔ a.bits = b.bits := by
  rw [BitSet.equals, Bool.and_eq_true, decide_eq_true_iff, List.all_eq_true]
  constructor
  · rintro ⟨hlen, hall⟩
    apply List.ext_getElem hlen
    intro n h1 h2
    have := hall n (List.mem_range.mpr h1)
    rw [beq_iff_eq, wordAt_eq_getElem h1, wordAt_eq_getElem h2] at this
    exact this
  · intro h
    rw [h]
    simp

/-- The lengths of the arrays agree with the elements. -/
theorem extensional_iff (a b : BitSet) : Extensional a b ↔ LengthsAgree a b := by
  constructor
  · intro h
    refine ⟨?_, ?_⟩
    · intro hsub
      have := (containsAll_iff.mp (h.containsAll.mpr hsub)).2
      omega
    · intro heq
      rw [equals_iff.mp (h.equals.mpr heq)]
  · intro h
    have hbits : members a.bits = members b.bits → a.bits = b.bits := by
      intro heq
      apply words_ext _ (members_eq_iff.mp heq)
      exact Nat.le_antisymm (h.of_eq heq) (h.of_subset (by rw [heq]))
    refine ⟨?_, ?_, ?_⟩
    · rw [equals_iff]
      exact ⟨fun heq => by rw [heq], hbits⟩
    · intro heq
      rw [BitSet.hashCode, BitSet.hashCode, hbits heq]
    · rw [containsAll_iff]
      refine ⟨fun hsub => hsub.1, fun hsub => ⟨hsub, ?_⟩⟩
      have := h.of_subset hsub
      omega

/-- The sets a run of calls leaves. -/
def World.run {T : Type} (N : Numbering T) (ops : List (Op T)) : World :=
  ops.foldl (fun w op => (step N w op).after) World.new

/-- `{0, 64}` without 64 again is not equal to `{0}`, nor contained in it. -/
theorem removed_word_not_extensional :
    let w := World.run natNumbering
      [.add 0 (some 0), .add 0 (some 64), .remove 0 (some 64), .add 1 (some 0)]
    w.content 0 = w.content 1 ∧ (w.sets 0).equals (w.sets 1) = false ∧
      (w.sets 1).containsAll (some (w.sets 0)) = false := by
  decide

end OpenJfx.Css.BitSet
