/-
  OpenJfx.Lib.AcyclicRank

  Relations without cycles on a finite type.  An element is ranked by the number of
  elements below it: a recursion that goes down the relation ends before the number of all
  elements is used up.
-/

import Mathlib.Data.Set.Card

namespace OpenJfx

variable {α : Type} {r : α → α → Prop} {a b : α}

/-- No element is below itself. -/
def Acyclic (r : α → α → Prop) : Prop := ∀ a, ¬ Relation.TransGen r a a

/-- The number of elements below `a`. -/
noncomputable def rank (r : α → α → Prop) (a : α) : Nat :=
  Set.ncard { b | Relation.TransGen r b a }

namespace Acyclic

theorem swap (h : Acyclic r) : Acyclic (Function.swap r) := fun a ha =>
  h a (Relation.transGen_swap.1 ha)

theorem rank_lt [Finite α] (h : Acyclic r) (hba : r b a) : rank r b < rank r a := by
  have hsub : { c | Relation.TransGen r c b } ⊆ { c | Relation.TransGen r c a } :=
    fun c hc => Relation.TransGen.tail hc hba
  have hb : b ∈ { c | Relation.TransGen r c a } := Relation.TransGen.single hba
  exact Set.ncard_lt_ncard ⟨hsub, fun hsup => h b (hsup hb)⟩

theorem rank_lt_card [Finite α] (h : Acyclic r) (a : α) : rank r a < Nat.card α := by
  refine Set.ncard_lt_card fun huniv => h a ?_
  have ha : a ∈ { b | Relation.TransGen r b a } := huniv ▸ Set.mem_univ a
  exact ha

end Acyclic

end OpenJfx
