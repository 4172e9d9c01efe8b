/-
  OpenJfx.Fxml.Expression.OperatorStack

  The operator stack on an expression written with enough parentheses.  An operator pops those
  that give way to it, except a unary one; so the stack after `w` is `(sorted w).2`, and a unary
  operator followed by a binary one keeps waiting below it.
-/

import OpenJfx.Fxml.Expression.Basic
import Mathlib.Data.List.TakeWhile
import Mathlib.Tactic.Ring

namespace OpenJfx.Fxml

open List Expression Token Yard Option

variable {op : Operator} {D : Type}

/-! ## Written expressions -/

/-- An operand without parts, with the text it is written as. -/
inductive Leaf (D : Type) where
  | literal (text : List Unit16) (value : Literal D)
  | var (text : List Unit16) (keyPath : List (List Unit16))
  deriving DecidableEq

def Leaf.token : Leaf D → Token D
  | .literal _ value => .literal value
  | .var _ keyPath => .var keyPath

def Leaf.tree : Leaf D → Expression D
  | .literal _ value => .literal value
  | .var _ keyPath => .var keyPath

/-- An expression as it is written, with its parentheses. -/
inductive Written (D : Type) where
  | leaf (operand : Leaf D)
  | group (inner : Written D)
  | unary (operator : Operator) (operand : Written D)
  | binary (operator : Operator) (left right : Written D)
  deriving DecidableEq

namespace Written

/-- The tree that precedence and grouping make of it. -/
def tree : Written D → Expression D
  | leaf operand => operand.tree
  | group inner => inner.tree
  | unary op operand => .unary op operand.tree
  | binary op left right => .binary op left.tree right.tree

/-- The tokens, from left to right. -/
def tokens : Written D → List (Token D)
  | leaf operand => [operand.token]
  | group inner => .beginGroup :: inner.tokens ++ [.endGroup]
  | unary op operand => .unaryOperator op :: operand.tokens
  | binary op left right => left.tokens ++ .binaryOperator op :: right.tokens

/-- The operator of a binary expression without parentheses around it. -/
def bare? : Written D → Option Operator
  | binary op _ _ => some op
  | _ => none

/-- The parentheses suffice: the left operand is no looser than the operator, the right one
    tighter. -/
def Sufficient : Written D → Prop
  | leaf _ => True
  | group inner => inner.Sufficient
  | unary op operand => op.isUnary = true ∧ operand.Sufficient ∧ operand.bare? = none
  | binary op left right => op.isUnary = false ∧ left.Sufficient ∧ right.Sufficient ∧
      (∀ op' ∈ left.bare?, op.priority ≤ op'.priority) ∧
      (∀ op' ∈ right.bare?, op.priority < op'.priority)

/-- It ends with the operand of a unary operator. -/
def endsUnary : Written D → Bool
  | leaf _ => false
  | group _ => false
  | unary _ _ => true
  | binary _ _ right => right.endsUnary

/-- No unary expression is followed by a binary operator in its group. -/
def UnaryLast : Written D → Prop
  | leaf _ => True
  | group inner => inner.UnaryLast
  | unary _ operand => operand.UnaryLast
  | binary _ left right => left.UnaryLast ∧ right.UnaryLast ∧ left.endsUnary = false

end Written

/-! ## Postfix lists -/

/-- The postfix list of a tree. -/
def Expression.postorder : Expression D → List (Token D)
  | .literal value => [.literal value]
  | .var keyPath => [.var keyPath]
  | .unary op operand => operand.postorder ++ [.unaryOperator op]
  | .binary op left right => left.postorder ++ right.postorder ++ [.binaryOperator op]

/-- Every operator of a tree stands where it belongs. -/
def Expression.Proper : Expression D → Prop
  | .literal _ => True
  | .var _ => True
  | .unary op operand => op.isUnary = true ∧ operand.Proper
  | .binary op left right => op.isUnary = false ∧ left.Proper ∧ right.Proper

variable {w : Written D} {t : Token D} {ts ops : List (Token D)}

theorem Written.Sufficient.proper (h : w.Sufficient) : w.tree.Proper := by
  induction w with
  | leaf operand => cases operand <;> trivial
  | group inner ih => exact ih h
  | unary op operand ih => exact ⟨h.1, ih h.2.1⟩
  | binary op left right ihl ihr => exact ⟨h.1, ihl h.2.1, ihr h.2.2.1⟩

theorem buildAll_postorder {e : Expression D} (h : e.Proper) (rest : List (Token D))
    (stack : List (Expression D)) :
    buildAll (e.postorder ++ rest) stack = buildAll rest (e :: stack) := by
  induction e generalizing rest stack with
  | literal value | var keyPath => rfl
  | unary op operand ih =>
    simp only [postorder, append_assoc]
    rw [ih h.2]
    simp [buildAll, build, h.1]
  | binary op left right ihl ihr =>
    simp only [postorder, append_assoc]
    rw [ihl h.2.1, ihr h.2.2]
    simp [buildAll, build, h.1]

theorem build_postorder {stack stack1 : List (Expression D)} (h : build t stack = .ok stack1) :
    stack1.reverse.flatMap postorder =
      stack.reverse.flatMap postorder ++ [t] := by
  cases t with
  | literal value | var keyPath =>
    cases h
    simp [postorder]
  | unaryOperator op =>
    cases stack with
    | nil => cases h
    | cons operand stack =>
      rw [build] at h
      split at h
      · cases h
        simp [postorder]
      · cases h
  | binaryOperator op =>
    match stack, h with
    | right :: left :: stack, h =>
      rw [build] at h
      split at h
      · cases h
      · cases h
        simp [postorder]
    | [_], h | [], h => cases h
  | beginGroup | endGroup => cases h

theorem buildAll_eq {stack stack1 : List (Expression D)} (h : buildAll ts stack = .ok stack1) :
    stack1.reverse.flatMap postorder =
      stack.reverse.flatMap postorder ++ ts := by
  induction ts generalizing stack with
  | nil =>
    cases h
    simp
  | cons t ts ih =>
    rw [buildAll] at h
    split at h
    · next stack2 hbuild =>
      rw [ih h, build_postorder hbuild, append_assoc]
      rfl
    · cases h

theorem buildTree_eq_iff {e : Expression D} (he : e.Proper) :
    buildTree ts = .ok e ↔ ts = e.postorder := by
  constructor
  · intro h
    unfold buildTree at h
    split at h
    · next e' hbuild =>
      cases h
      have := buildAll_eq hbuild
      simpa using this.symm
    · cases h
    · cases h
  · rintro rfl
    have := buildAll_postorder he [] []
    rw [append_nil] at this
    unfold buildTree
    rw [this]
    rfl

/-! ## The stack -/

namespace Written

/-- What an expression has put out, and what it leaves on the stack. -/
def sorted : Written D → List (Token D) × List (Token D)
  | leaf operand => ([operand.token], [])
  | group inner => (inner.sorted.1 ++ inner.sorted.2, [])
  | unary op operand => (operand.sorted.1, operand.sorted.2 ++ [.unaryOperator op])
  | binary op left right =>
    (left.sorted.1 ++ left.sorted.2.takeWhile (yields op.priority) ++ right.sorted.1,
      right.sorted.2 ++ .binaryOperator op :: left.sorted.2.dropWhile (yields op.priority))

/-- The postfix list the parser makes of an expression. -/
def sortedTokens (w : Written D) : List (Token D) := w.sorted.1 ++ w.sorted.2

end Written

theorem priority_le (op : Operator) : op.priority ≤ 6 := by cases op <;> decide

theorem isUnary_iff (op : Operator) : op.isUnary = true ↔ op.priority = 6 := by
  cases op <;> decide

theorem yields_unaryOperator (h : op.isUnary = true) (p : Nat) :
    (unaryOperator op : Token D).yields p = false := by
  simp [yields, operator?, (isUnary_iff op).mp h, Operator.maxPriority]

theorem yields_binaryOperator (h : op.isUnary = false) (p : Nat) :
    (binaryOperator op : Token D).yields p = decide (p ≤ op.priority) := by
  have hne : op.priority ≠ 6 := fun h6 => by
    rw [(isUnary_iff op).mpr h6] at h
    cases h
  simp [yields, operator?, Operator.maxPriority, hne]

theorem yields_six (t : Token D) : t.yields 6 = false := by
  unfold yields
  split
  · next op _ =>
    have := priority_le op
    by_cases h : op.priority = 6
    · simp [h, Operator.maxPriority]
    · simp [show ¬ 6 ≤ op.priority by omega]
  · rfl

theorem yields_mono {p q : Nat} (hpq : p ≤ q) (h : t.yields q = true) :
    t.yields p = true := by
  unfold yields at h ⊢
  split at h
  · simp only [Bool.and_eq_true, decide_eq_true_eq] at h ⊢
    exact ⟨hpq.trans h.1, h.2⟩
  · cases h

/-- The stack below an expression stays as it is. -/
def Blocks (stack : List (Token D)) (w : Written D) : Prop :=
  ∀ op ∈ w.bare?, ∀ t ∈ stack.head?, t.yields op.priority = false

theorem takeWhile_append_of_head {p : Token D → Bool} {a b : List (Token D)}
    (h : ∀ t ∈ b.head?, p t = false) :
    (a ++ b).takeWhile p = a.takeWhile p ∧ (a ++ b).dropWhile p = a.dropWhile p ++ b := by
  induction a with
  | nil =>
    cases b with
    | nil => exact ⟨rfl, rfl⟩
    | cons t b =>
      have ht := h t rfl
      simp [ht]
  | cons x a ih =>
    cases hx : p x
    · simp [hx]
    · simp only [cons_append, takeWhile_cons_of_pos hx, dropWhile_cons_of_pos hx,
        ih.1, ih.2, and_self]

theorem Written.sorted_operators (w : Written D) :
    ∀ t ∈ w.sorted.2, ∃ op, t = .unaryOperator op ∨ t = .binaryOperator op := by
  induction w with
  | leaf operand | group inner ih => intro t ht; cases ht
  | unary op operand ih =>
    intro t ht
    rcases mem_append.mp ht with ht | ht
    · exact ih t ht
    · exact ⟨op, Or.inl (mem_singleton.mp ht)⟩
  | binary op left right ihl ihr =>
    intro t ht
    rcases mem_append.mp ht with ht | ht
    · exact ihr t ht
    · rcases mem_cons.mp ht with rfl | ht
      · exact ⟨op, Or.inr rfl⟩
      · exact ihl t ((dropWhile_suffix _).subset ht)

theorem popGroup_operators {stack out : List (Token D)}
    (h : ∀ t ∈ ops, ∃ op, t = .unaryOperator op ∨ t = .binaryOperator op) :
    popGroup out (ops ++ .beginGroup :: stack) = .ok ⟨out ++ ops, stack⟩ := by
  induction ops generalizing out with
  | nil => simp [popGroup]
  | cons t ops ih =>
    obtain ⟨op, rfl | rfl⟩ := h t mem_cons_self
    · simp only [cons_append, popGroup]
      rw [ih fun t' ht' => h t' (mem_cons_of_mem _ ht')]
      simp
    · simp only [cons_append, popGroup]
      rw [ih fun t' ht' => h t' (mem_cons_of_mem _ ht')]
      simp

/-- The tokens of a list, one after the other. -/
def Yard.processAll (y : Yard D) (ts : List (Token D)) : Except Failure (Yard D) :=
  ts.foldlM process y

theorem Yard.processAll_append {y y1 : Yard D} {a b : List (Token D)}
    (h : y.processAll a = .ok y1) : y.processAll (a ++ b) = y1.processAll b := by
  unfold processAll at h ⊢
  rw [foldlM_append, h]
  rfl

theorem Yard.processAll_cons {y y1 : Yard D}
    (h : y.process t = .ok y1) : y.processAll (t :: ts) = y1.processAll ts := by
  unfold processAll
  rw [foldlM_cons, h]
  rfl

theorem Blocks.of_head {stack : List (Token D)}
    (h : ∀ p, t.yields p = false) : Blocks (t :: stack) w := by
  intro op _ t' ht'
  obtain rfl : t = t' := some.inj ht'
  exact h op.priority

theorem Yard.process_unary (y : Yard D) (h : op.isUnary = true) :
    y.process (.unaryOperator op) = .ok ⟨y.tokens, .unaryOperator op :: y.stack⟩ := by
  have hno : ∀ l : List (Token D), l.takeWhile (yields op.priority) = [] ∧
      l.dropWhile (yields op.priority) = l := by
    intro l
    rw [(isUnary_iff op).mp h]
    cases l with
    | nil => exact ⟨rfl, rfl⟩
    | cons t l => simp [yields_six]
  simp only [process, pushOperator, (hno y.stack).1, (hno y.stack).2, append_nil]

theorem Written.processAll_tokens (w : Written D) (hw : w.Sufficient) (y : Yard D)
    (hblocks : Blocks y.stack w) :
    y.processAll w.tokens = .ok ⟨y.tokens ++ w.sorted.1, w.sorted.2 ++ y.stack⟩ := by
  induction w generalizing y with
  | leaf operand => cases operand <;> rfl
  | group inner ih =>
    have hinner := ih hw ⟨y.tokens, .beginGroup :: y.stack⟩ (.of_head fun p => rfl)
    show y.processAll (.beginGroup :: (inner.tokens ++ [.endGroup])) = _
    rw [processAll_cons (show y.process .beginGroup = _ from rfl), processAll_append hinner]
    have hpop : process
        ⟨y.tokens ++ inner.sorted.1, inner.sorted.2 ++ .beginGroup :: y.stack⟩ .endGroup =
          .ok ⟨y.tokens ++ inner.sorted.1 ++ inner.sorted.2, y.stack⟩ :=
      popGroup_operators inner.sorted_operators
    rw [processAll_cons hpop]
    simp only [processAll, foldlM_nil, sorted, append_assoc, nil_append]
    rfl
  | unary op operand ih =>
    obtain ⟨hop, hoperand, -⟩ := hw
    show y.processAll (.unaryOperator op :: operand.tokens) = _
    rw [processAll_cons (y.process_unary hop), ih hoperand _ (.of_head (yields_unaryOperator hop))]
    simp [sorted]
  | binary op left right ihl ihr =>
    obtain ⟨hop, hleft, hright, hle, hlt⟩ := hw
    have hleftBlocks : Blocks y.stack left := by
      intro op' hop' t ht
      by_contra hyields
      have hbelow := yields_mono (hle op' hop') (Bool.eq_true_of_not_eq_false hyields)
      rw [hblocks op rfl t ht] at hbelow
      cases hbelow
    obtain ⟨htake, hdrop⟩ := @takeWhile_append_of_head D (yields op.priority)
      left.sorted.2 y.stack (hblocks op rfl)
    have hpush : process ⟨y.tokens ++ left.sorted.1, left.sorted.2 ++ y.stack⟩
        (.binaryOperator op) = .ok ⟨y.tokens ++ left.sorted.1 ++
          left.sorted.2.takeWhile (yields op.priority),
          .binaryOperator op :: (left.sorted.2.dropWhile (yields op.priority) ++ y.stack)⟩ := by
      simp only [process, pushOperator, htake, hdrop]
    show y.processAll (left.tokens ++ .binaryOperator op :: right.tokens) = _
    rw [processAll_append (ihl hleft y hleftBlocks), processAll_cons hpush, ihr hright]
    · simp [sorted]
    · intro op' hop' t ht
      obtain rfl : binaryOperator op = t := some.inj ht
      have := hlt op' hop'
      rw [yields_binaryOperator hop]
      exact decide_eq_false (by omega)

/-! ## When the order is right -/

def isOperand : Token D → Bool
  | .literal _ | .var _ => true
  | _ => false

def isUnaryOperator : Token D → Bool
  | .unaryOperator _ => true
  | _ => false

/-- The number of pairs of an operand and a later unary operator. -/
def operandsBefore : List (Token D) → Nat
  | [] => 0
  | t :: ts => operandsBefore ts + (if isOperand t then ts.countP isUnaryOperator else 0)

theorem operandsBefore_append (a b : List (Token D)) : operandsBefore (a ++ b) =
    operandsBefore a + operandsBefore b + a.countP isOperand * b.countP isUnaryOperator := by
  induction a with
  | nil => simp [operandsBefore]
  | cons t a ih =>
    simp only [cons_append, operandsBefore, ih, countP_append, countP_cons]
    split <;> ring

theorem countP_isOperand_eq_zero
    (h : ∀ t ∈ ops, ∃ op, t = .unaryOperator op ∨ t = .binaryOperator op) :
    ops.countP isOperand = 0 := by
  rw [countP_eq_zero]
  intro t ht
  obtain ⟨op, rfl | rfl⟩ := h t ht <;> simp [isOperand]

theorem operandsBefore_operators (h : ops.countP isOperand = 0) :
    operandsBefore ops = 0 := by
  induction ops with
  | nil => rfl
  | cons t ops ih =>
    rw [countP_cons] at h
    have hnot : isOperand t = false := by
      cases ht : isOperand t
      · rfl
      · rw [ht] at h
        simp at h
    simp [operandsBefore, hnot, ih (by omega)]

namespace Written

/-- The parser puts out the tokens of the postfix list, in whatever order. -/
theorem countP_sorted (w : Written D) (p : Token D → Bool) :
    w.sortedTokens.countP p = w.tree.postorder.countP p := by
  induction w with
  | leaf operand => cases operand <;> rfl
  | group inner ih => simpa [sortedTokens, sorted, tree] using ih
  | unary op operand ih =>
    simp only [sortedTokens, sorted, tree, postorder, countP_append] at ih ⊢
    omega
  | binary op left right ihl ihr =>
    have hspl : left.sorted.2.countP p =
        (left.sorted.2.takeWhile (yields op.priority)).countP p +
          (left.sorted.2.dropWhile (yields op.priority)).countP p := by
      rw [← countP_append, takeWhile_append_dropWhile]
    simp only [sortedTokens, sorted, tree, postorder, countP_append, countP_cons] at ihl ihr ⊢
    simp only [countP_nil]
    omega

theorem countP_isOperand_pos (w : Written D) : 0 < w.tree.postorder.countP isOperand := by
  induction w with
  | leaf operand => cases operand <;> simp [tree, Leaf.tree, postorder, isOperand]
  | group inner ih => exact ih
  | unary op operand ih | binary op left right ihl ihr =>
    simp only [tree, postorder, countP_append]
    omega

section

variable (hw : w.Sufficient)
include hw

theorem sorted_unary (h : .unaryOperator op ∈ w.sorted.2) : op.isUnary = true := by
  induction w with
  | leaf operand | group inner ih => cases h
  | unary op' operand ih =>
    rcases mem_append.mp h with h | h
    · exact ih hw.2.1 h
    · obtain rfl : op = op' := by simpa using h
      exact hw.1
  | binary op' left right ihl ihr =>
    rcases mem_append.mp h with h | h
    · exact ihr hw.2.2.1 h
    · rcases mem_cons.mp h with h | h
      · cases h
      · exact ihl hw.2.1 ((dropWhile_suffix _).subset h)

theorem sorted_binary (h : .binaryOperator op ∈ w.sorted.2) :
    op.isUnary = false ∧ ∃ op' ∈ w.bare?, op'.priority ≤ op.priority := by
  induction w with
  | leaf operand | group inner ih => cases h
  | unary op' operand ih =>
    rcases mem_append.mp h with h | h
    · obtain ⟨-, op1, hop1, -⟩ := ih hw.2.1 h
      rw [hw.2.2] at hop1
      cases hop1
    · simp at h
  | binary op' left right ihl ihr =>
    obtain ⟨hop', hleft, hright, hle, hlt⟩ := hw
    rcases mem_append.mp h with h | h
    · obtain ⟨hnot, op1, hop1, hprio⟩ := ihr hright h
      exact ⟨hnot, op', rfl, (hlt op1 hop1).le.trans hprio⟩
    · rcases mem_cons.mp h with h | h
      · cases h
        exact ⟨hop', op, rfl, le_rfl⟩
      · obtain ⟨hnot, op1, hop1, hprio⟩ := ihl hleft ((dropWhile_suffix _).subset h)
        exact ⟨hnot, op', rfl, (hle op1 hop1).trans hprio⟩

theorem countP_takeWhile (p : Nat) :
    (w.sorted.2.takeWhile (yields p)).countP isUnaryOperator = 0 := by
  rw [countP_eq_zero]
  intro t ht hunary
  have hyields : t.yields p = true := mem_takeWhile_imp ht
  have hmem : t ∈ w.sorted.2 := ( takeWhile_prefix _).subset ht
  cases t with
  | unaryOperator op =>
    rw [yields_unaryOperator (sorted_unary hw hmem)] at hyields
    cases hyields
  | _ => cases hunary

theorem countP_dropWhile (p : Nat) : (w.sorted.2.dropWhile (yields p)).countP isUnaryOperator =
      w.sorted.2.countP isUnaryOperator := by
  have h := congrArg (List.countP isUnaryOperator)
    (takeWhile_append_dropWhile (p := yields p) (l := w.sorted.2))
  rw [countP_append, countP_takeWhile hw, Nat.zero_add] at h
  exact h

omit hw in
/-- The parser's pairs of a binary expression: those of its parts, between them, and one for each
    operand on the right and each unary operator that waits on the left. -/
theorem operandsBefore_binary {left right : Written D} (hleft : left.Sufficient) :
    operandsBefore (binary op left right).sortedTokens =
      operandsBefore left.sortedTokens + operandsBefore right.sortedTokens +
        left.tree.postorder.countP isOperand * right.tree.postorder.countP isUnaryOperator +
        right.tree.postorder.countP isOperand * left.sorted.2.countP isUnaryOperator := by
  have hl := left.countP_sorted isOperand
  have hr := right.countP_sorted isOperand
  have hu := right.countP_sorted isUnaryOperator
  have hlOps := countP_isOperand_eq_zero left.sorted_operators
  have hrOps := countP_isOperand_eq_zero right.sorted_operators
  have hdrop := countP_dropWhile hleft op.priority
  have htake := countP_takeWhile hleft op.priority
  have hspl : (left.sorted.2.takeWhile (yields op.priority)).countP isOperand +
      (left.sorted.2.dropWhile (yields op.priority)).countP isOperand = 0 := by
    rw [← countP_append, takeWhile_append_dropWhile, hlOps]
  have htakeOps : (left.sorted.2.takeWhile (yields op.priority)).countP isOperand = 0 := by
    omega
  have hdropOps : (left.sorted.2.dropWhile (yields op.priority)).countP isOperand = 0 := by
    omega
  unfold sortedTokens at hl hr hu ⊢
  rw [countP_append] at hl hr hu
  simp only [sorted, operandsBefore_append, countP_append, operandsBefore,
    operandsBefore_operators hlOps, operandsBefore_operators hrOps,
    operandsBefore_operators htakeOps, operandsBefore_operators hdropOps, htakeOps,
    htake, hdrop, hlOps, hrOps, ← hl, ← hr, ← hu, countP_cons]
  simp [isOperand, isUnaryOperator]
  ring

theorem endsUnary_iff (hlast : w.UnaryLast) :
    w.endsUnary = true ↔ 0 < w.sorted.2.countP isUnaryOperator := by
  induction w with
  | leaf operand | group inner ih => simp [endsUnary, sorted]
  | unary op operand ih => simp [endsUnary, sorted, isUnaryOperator]
  | binary op left right ihl ihr =>
    have hleft := ihl hw.2.1 hlast.1
    have hzero : left.sorted.2.countP isUnaryOperator = 0 := by
      by_contra hne
      rw [hlast.2.2] at hleft
      exact Bool.false_ne_true (hleft.mpr (by omega))
    have hdrop := countP_dropWhile hw.2.1 op.priority
    rw [hzero] at hdrop
    show right.endsUnary = true ↔ _
    rw [ihr hw.2.2.1 hlast.2.1]
    simp only [sorted, countP_append, countP_cons, hdrop, isUnaryOperator]
    simp

/-- Every unary operator comes at or after its place, and all at it only if no unary expression is
    followed by a binary operator. -/
theorem operandsBefore_le : operandsBefore w.tree.postorder ≤ operandsBefore w.sortedTokens ∧
      (operandsBefore w.sortedTokens = operandsBefore w.tree.postorder → w.UnaryLast) := by
  induction w with
  | leaf operand => cases operand <;> exact ⟨le_rfl, fun _ => trivial⟩
  | group inner ih =>
    have h := ih hw
    simpa [sortedTokens, sorted, tree, UnaryLast] using h
  | unary op operand ih =>
    obtain ⟨hle, himp⟩ := ih hw.2.1
    have hcnt := operand.countP_sorted isOperand
    have hsort : (unary op operand).sortedTokens =
        operand.sortedTokens ++ [.unaryOperator op] := by
      simp [sortedTokens, sorted]
    rw [hsort]
    simp only [tree, postorder, operandsBefore_append, hcnt]
    exact ⟨by omega, fun h => himp (by omega)⟩
  | binary op left right ihl ihr =>
    obtain ⟨hleL, himpL⟩ := ihl hw.2.1
    obtain ⟨hleR, himpR⟩ := ihr hw.2.2.1
    rw [operandsBefore_binary hw.2.1]
    have htree : operandsBefore (binary op left right).tree.postorder =
        operandsBefore left.tree.postorder + operandsBefore right.tree.postorder +
          left.tree.postorder.countP isOperand * right.tree.postorder.countP isUnaryOperator := by
      simp only [tree, postorder, operandsBefore_append, operandsBefore]
      simp [isUnaryOperator]
    rw [htree]
    refine ⟨by omega, fun h => ?_⟩
    have hpos := right.countP_isOperand_pos
    have hwait : right.tree.postorder.countP isOperand * left.sorted.2.countP isUnaryOperator = 0 :=
      by omega
    have hnone : left.sorted.2.countP isUnaryOperator = 0 :=
      (Nat.mul_eq_zero.mp hwait).resolve_left (by omega)
    have hlastL := himpL (by omega)
    refine ⟨hlastL, himpR (by omega), ?_⟩
    by_contra hends
    have := (endsUnary_iff hw.2.1 hlastL).mp (Bool.eq_true_of_not_eq_false hends)
    omega

theorem sortedTokens_eq (hlast : w.UnaryLast) :
    w.sortedTokens = w.tree.postorder := by
  induction w with
  | leaf operand => cases operand <;> rfl
  | group inner ih => simpa [sortedTokens, sorted, tree] using ih hw hlast
  | unary op operand ih =>
    have h := ih hw.2.1 hlast
    unfold sortedTokens at h
    simp only [sortedTokens, sorted, tree, postorder, ← h, append_assoc]
  | binary op left right ihl ihr =>
    have hl := ihl hw.2.1 hlast.1
    have hr := ihr hw.2.2.1 hlast.2.1
    have hnone : left.sorted.2.countP isUnaryOperator = 0 := by
      by_contra hne
      have := (endsUnary_iff hw.2.1 hlast.1).mpr (by omega)
      rw [hlast.2.2] at this
      cases this
    -- all the operators of the left operand give way
    have hall : ∀ t ∈ left.sorted.2, t.yields op.priority = true := by
      intro t ht
      obtain ⟨op', rfl | rfl⟩ := left.sorted_operators t ht
      · exact absurd rfl (countP_eq_zero.mp hnone _ ht)
      · obtain ⟨hnot, op1, hop1, hprio⟩ := sorted_binary hw.2.1 ht
        rw [yields_binaryOperator hnot]
        exact decide_eq_true ((hw.2.2.2.1 op1 hop1).trans hprio)
    have htake : left.sorted.2.takeWhile (yields op.priority) = left.sorted.2 :=
      takeWhile_eq_self_iff.mpr hall
    have hdrop : left.sorted.2.dropWhile (yields op.priority) = [] := dropWhile_eq_nil_iff.mpr hall
    unfold sortedTokens at hl hr
    simp only [sortedTokens, sorted, tree, postorder, htake, hdrop, ← hl, ← hr, append_assoc]

/-- The list builds the tree that is written exactly when no unary expression is followed by a
    binary operator. -/
theorem buildTree_iff :
    buildTree w.sortedTokens = .ok w.tree ↔ w.UnaryLast := by
  rw [buildTree_eq_iff hw.proper]
  constructor
  · intro h
    exact (operandsBefore_le hw).2 (by rw [h])
  · exact sortedTokens_eq hw

end

end Written

end OpenJfx.Fxml
