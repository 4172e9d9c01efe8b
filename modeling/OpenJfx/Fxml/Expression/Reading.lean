/-
  OpenJfx.Fxml.Expression.Reading

  The tokens of a text, read one by one with the whitespace before them.  A name that begins with
  a keyword is read as the keyword (`NoKeywordNames`), and one that is the beginning of a keyword
  is pushed back with one character too many at the end of the text (`CleanEnd`).
-/

import Mathlib.Data.List.TakeDrop
import OpenJfx.Fxml.Expression.OperatorStack

namespace OpenJfx.Fxml

open List Written

variable {rest keyword input : List Unit16} {c : Unit16}

variable {D : Type} (lib : Library D)

/-! ## Texts -/

def Operator.text : Operator → List Unit16
  | negate => ['-'].map Char.toNat
  | not => ['!'].map Char.toNat
  | multiply => ['*'].map Char.toNat
  | divide => ['/'].map Char.toNat
  | modulo => ['%'].map Char.toNat
  | add => ['+'].map Char.toNat
  | subtract => ['-'].map Char.toNat
  | greaterThan => ['>'].map Char.toNat
  | greaterThanOrEqualTo => ['>', '='].map Char.toNat
  | lessThan => ['<'].map Char.toNat
  | lessThanOrEqualTo => ['<', '='].map Char.toNat
  | equalTo => ['=', '='].map Char.toNat
  | notEqualTo => ['!', '='].map Char.toNat
  | and => ['&', '&'].map Char.toNat
  | or => ['|', '|'].map Char.toNat

def Leaf.text : Leaf D → List Unit16
  | .literal text _ => text
  | .var text _ => text

/-- A token with its text. -/
structure Piece (D : Type) where
  token : Token D
  text : List Unit16

def beginPiece : Piece D := ⟨.beginGroup, ['('].map Char.toNat⟩
def endPiece : Piece D := ⟨.endGroup, [')'].map Char.toNat⟩

/-- The pieces of an expression, from left to right. -/
def Written.pieces : Written D → List (Piece D)
  | leaf operand => [⟨operand.token, operand.text⟩]
  | group inner => beginPiece :: inner.pieces ++ [endPiece]
  | unary op operand => ⟨.unaryOperator op, op.text⟩ :: operand.pieces
  | binary op left right => left.pieces ++ ⟨.binaryOperator op, op.text⟩ :: right.pieces

/-- A text is made of pieces, with whitespace before and behind them. -/
inductive Spells : List (Piece D) → List Unit16 → Prop
  | done (ws : List Unit16) (hws : ∀ c ∈ ws, lib.isWhitespace c = true) : Spells [] ws
  | piece (ws : List Unit16) (hws : ∀ c ∈ ws, lib.isWhitespace c = true) (p : Piece D)
      {ps : List (Piece D)} {rest : List Unit16} (hrest : Spells ps rest) :
      Spells (p :: ps) (ws ++ p.text ++ rest)

/-- An operand can end here. -/
def EndsOperand (rest : List Unit16) : Prop :=
  ∀ c ∈ rest.head?, lib.isWhitespace c = true ∨ c ∈ operatorChars

/-- The text of an operand stands for it: a keyword, a number, a string with the rest `body`, or a
    name that is read as its key path. -/
inductive Leaf.Readable : Leaf D → Prop
  | null : Leaf.Readable (.literal nullKeyword .null)
  | true : Leaf.Readable (.literal trueKeyword (.bool true))
  | false : Leaf.Readable (.literal falseKeyword (.bool false))
  | number (c : Unit16) (cs : List Unit16) (value : Literal D) (first : lib.isDigit c = true)
      (number : ∀ x ∈ c :: cs, isNumberChar lib x = true)
      (denotes : numberValue lib (c :: cs) = .ok value) : Leaf.Readable (.literal (c :: cs) value)
  | string (quote : Unit16) (body value : List Unit16) (delimiter : quote ∈ [34, 39])
      (denotes : ∀ rest, readString lib quote (body ++ rest) = .ok (value, rest)) :
      Leaf.Readable (.literal (quote :: body) (.string value))
  | name (c : Unit16) (cs : List Unit16) (keyPath : List (List Unit16))
      (first : lib.isJavaIdentifierStart c = true)
      (denotes : ∀ rest, EndsOperand lib rest →
        parsePath lib (c :: cs ++ rest) = .ok (keyPath, rest)) :
      Leaf.Readable (.var (c :: cs) keyPath)

/-- All the operands of an expression are readable. -/
def Written.Readable : Written D → Prop
  | leaf operand => operand.Readable lib
  | group inner => inner.Readable
  | unary _ operand => operand.Readable
  | binary _ left right => left.Readable ∧ right.Readable

def keywords : List (List Unit16) := [nullKeyword, trueKeyword, falseKeyword]

/-- No name in the expression begins with a keyword. -/
def Written.NoKeywordNames : Written D → Prop
  | leaf (.literal _ _) => True
  | leaf (.var text _) => ∀ keyword ∈ keywords, ¬ keyword <+: text
  | group inner => inner.NoKeywordNames
  | unary _ operand => operand.NoKeywordNames
  | binary _ left right => left.NoKeywordNames ∧ right.NoKeywordNames

/-- The name at the very end of an expression. -/
def Written.lastName : Written D → Option (List Unit16)
  | leaf (.literal _ _) => none
  | leaf (.var text _) => some text
  | group _ => none
  | unary _ operand => operand.lastName
  | binary _ _ right => right.lastName

/-- The text does not end with a name that is the beginning of a keyword. -/
def CleanEnd (w : Written D) (text : List Unit16) : Prop :=
  ∀ name ∈ w.lastName, ∀ keyword ∈ keywords, name <+: keyword →
    ∀ c ∈ text.getLast?, lib.isWhitespace c = true

/-! ## Operands -/

variable {lib}

theorem EndsOperand.head_not_part (h : EndsOperand lib rest) :
    ∀ c ∈ rest.head?, isKeyChar lib c = false ∧ isNumberChar lib c = false ∧
      lib.isJavaIdentifierStart c = false ∧ c ≠ '['.toNat ∧ c ≠ '.'.toNat := by
  intro c hc
  rcases h c hc with hw | ho
  · obtain ⟨hdigit, hst, hpart, hmem⟩ := lib.whitespace_plain c hw
    have hne : c ≠ 46 ∧ c ≠ 91 ∧ c ≠ 101 ∧ c ≠ 69 := by
      refine ⟨?_, ?_, ?_, ?_⟩ <;> rintro rfl <;> simp at hmem
    refine ⟨by simp [isKeyChar, hpart], ?_, hst, hne.2.1, hne.1⟩
    simp only [isNumberChar, hdigit, Bool.false_or, Bool.or_eq_false_iff, beq_eq_false_iff_ne]
    exact ⟨⟨hne.1, hne.2.2.1⟩, hne.2.2.2⟩
  · obtain ⟨-, hdigit, hst, hpart⟩ := lib.operator_plain c ho
    have hne : c ≠ 46 ∧ c ≠ 91 ∧ c ≠ 101 ∧ c ≠ 69 := by
      refine ⟨?_, ?_, ?_, ?_⟩ <;> rintro rfl <;> revert ho <;> decide
    refine ⟨by simp [isKeyChar, hpart], ?_, hst, hne.2.1, hne.1⟩
    simp only [isNumberChar, hdigit, Bool.false_or, Bool.or_eq_false_iff, beq_eq_false_iff_ne]
    exact ⟨⟨hne.1, hne.2.2.1⟩, hne.2.2.2⟩

theorem takeWhile_append_stop {p : Unit16 → Bool} {a b : List Unit16}
    (ha : ∀ c ∈ a, p c = true) (hb : ∀ c ∈ b.head?, p c = false) :
    (a ++ b).takeWhile p = a ∧ (a ++ b).dropWhile p = b := by
  rw [takeWhile_append_of_pos ha, dropWhile_append_of_pos ha]
  cases b with
  | nil => simp
  | cons c b => simp [hb c rfl]

theorem skipPeriod_of_ne (h : ∀ c ∈ rest.head?, c ≠ '.'.toNat) :
    skipPeriod rest = .ok rest := by
  unfold skipPeriod
  rw [if_neg]
  intro hdot
  exact h _ hdot rfl

theorem parsePathLoop_stop
    (h : ∀ c ∈ rest.head?, lib.isJavaIdentifierStart c = false ∧ c ≠ '['.toNat) (fuel : Nat)
    (keys : List (List Unit16)) : parsePathLoop lib (fuel + 1) keys rest = .ok (keys, rest) := by
  cases rest with
  | nil => rfl
  | cons c rest =>
    obtain ⟨hst, hbracket⟩ := h c rfl
    have hno : (lib.isJavaIdentifierStart c || c == '['.toNat) = false := by
      rw [hst, Bool.false_or, beq_eq_false_iff_ne]
      exact hbracket
    rw [parsePathLoop, hno, if_neg Bool.false_ne_true]

/-- One round of the loop: a key, the period behind it, and the rest. -/
theorem parsePathLoop_cons {key rest' : List Unit16}
    (hc : lib.isJavaIdentifierStart c = true ∨ c = '['.toNat)
    (hread : readKey lib c rest = .ok (key, rest')) (hkey : key ≠ []) (fuel : Nat)
    (keys : List (List Unit16)) : parsePathLoop lib (fuel + 1) keys (c :: rest) =
      skipPeriod rest' >>= parsePathLoop lib fuel (keys ++ [key]) := by
  have hyes : (lib.isJavaIdentifierStart c || c == '['.toNat) = true := by
    rcases hc with hc | rfl
    · rw [hc, Bool.true_or]
    · rw [beq_self_eq_true, Bool.or_true]
  rw [parsePathLoop, hyes, if_pos rfl, hread]
  simp only []
  cases skipPeriod rest' with
  | error failure => rfl
  | ok rest'' =>
    simp only [hkey, if_false]
    rfl

variable {cs buffer text ws : List Unit16} {op : Operator} {ps : List (Piece D)}

theorem readKey_identifier (hkey : ∀ x ∈ c :: cs, isKeyChar lib x = true)
    (hrest : ∀ x ∈ rest.head?, isKeyChar lib x = false) :
    readKey lib c (cs ++ rest) = .ok (c :: cs, rest) := by
  have hbracket : c ≠ '['.toNat := by
    have := hkey c mem_cons_self
    simp only [isKeyChar, Bool.and_eq_true, bne_iff_ne] at this
    exact this.1.2
  have hstop := takeWhile_append_stop hkey hrest
  unfold readKey
  rw [if_neg hbracket, span_eq_takeWhile_dropWhile, ← cons_append, hstop.1, hstop.2]

theorem parsePathLoop_keys {fuel : Nat} {keys keys' : List (List Unit16)}
    (h : parsePathLoop lib fuel keys input = .ok (keys', rest)) : keys <+: keys' := by
  induction fuel generalizing keys input with
  | zero =>
    cases h
    exact prefix_refl _
  | succ fuel ih =>
    cases input with
    | nil =>
      cases h
      exact prefix_refl _
    | cons c input =>
      rw [parsePathLoop] at h
      split at h
      · split at h
        · cases h
        · split at h
          · cases h
          · split at h
            · cases h
            · exact (prefix_append _ _).trans (ih h)
      · cases h
        exact prefix_refl _

theorem parsePath_identifier {c : Unit16} {cs rest : List Unit16}
    (hc : lib.isJavaIdentifierStart c = true) (hkey : ∀ x ∈ c :: cs, isKeyChar lib x = true)
    (hrest : ∀ x ∈ rest.head?, isKeyChar lib x = false) :
    parsePath lib (c :: cs ++ rest) =
      skipPeriod rest >>= parsePathLoop lib (cs.length + rest.length + 1) [c :: cs] := by
  unfold parsePath
  rw [cons_append, parsePathLoop_cons (Or.inl hc) (readKey_identifier hkey hrest)
    (cons_ne_nil _ _), nil_append, length_cons, length_append]
  cases skipPeriod rest with
  | error failure => rfl
  | ok rest' =>
    simp only [bind, Except.bind]
    cases hloop : parsePathLoop lib (cs.length + rest.length + 1) [c :: cs] rest' with
    | error failure => rfl
    | ok r =>
      have hne : r.1 ≠ [] := by
        intro hnil
        have := parsePathLoop_keys hloop
        rw [hnil] at this
        exact cons_ne_nil _ _ (prefix_nil.mp this)
      simp only [hne, if_false]

theorem Leaf.readable_identifier
    (hst : lib.isJavaIdentifierStart c = true) (hkey : ∀ x ∈ c :: cs, isKeyChar lib x = true) :
    Leaf.Readable lib (.var (c :: cs) [c :: cs]) := by
  refine .name c cs _ hst fun rest hrest => ?_
  rw [parsePath_identifier hst hkey fun x hx => (hrest.head_not_part x hx).1,
    skipPeriod_of_ne fun x hx => (hrest.head_not_part x hx).2.2.2.2]
  exact parsePathLoop_stop (fun x hx =>
    ⟨(hrest.head_not_part x hx).2.2.1, (hrest.head_not_part x hx).2.2.2.1⟩) _ _

/-! ## Keywords -/

theorem keywordLoop_match (keyword rest buffer : List Unit16) (i : Nat) :
    ∃ buffer', keywordLoop keyword i ⟨keyword ++ rest, buffer⟩ =
      (i + keyword.length, ⟨rest, buffer'⟩) ∧ buffer'.length = buffer.length := by
  induction keyword generalizing i buffer with
  | nil => exact ⟨buffer, rfl, rfl⟩
  | cons k keyword ih =>
    obtain ⟨buffer', hloop, hlen⟩ := ih (buffer.set i k) (i + 1)
    refine ⟨buffer', ?_, by rw [hlen, length_set]⟩
    rw [cons_append, keywordLoop, if_pos rfl, hloop, length_cons]
    congr 1
    omega

theorem readKeyword_match (keyword rest buffer : List Unit16) :
    ∃ buffer', readKeyword keyword ⟨keyword ++ rest, buffer⟩ = (true, ⟨rest, buffer'⟩) ∧
      buffer'.length = buffer.length := by
  obtain ⟨buffer', hloop, hlen⟩ := keywordLoop_match keyword rest buffer 0
  refine ⟨buffer', ?_, hlen⟩
  unfold readKeyword
  rw [hloop]
  simp

theorem keywordLoop_mismatch (hin : ¬ keyword <+: input)
    (hkey : ¬ input <+: keyword) (buffer : List Unit16) (i : Nat)
    (hbuf : i + keyword.length ≤ buffer.length) :
    ∃ j buffer', keywordLoop keyword i ⟨input, buffer⟩ = (i + j, ⟨input.drop j, buffer'⟩) ∧
      j < keyword.length ∧ buffer'.take (i + j + 1) = buffer.take i ++ input.take (j + 1) ∧
      buffer'.length = buffer.length := by
  induction keyword generalizing input buffer i with
  | nil => exact absurd nil_prefix hin
  | cons k keyword ih =>
    rw [length_cons] at hbuf
    have htake : ∀ c, (buffer.set i c).take (i + 1) = buffer.take i ++ [c] := by
      intro c
      have hi : i < (buffer.set i c).length := by
        rw [length_set]
        omega
      rw [take_add_one, getElem?_eq_getElem hi, getElem_set_self, take_set_of_le le_rfl]
      rfl
    cases input with
    | nil => exact absurd nil_prefix hkey
    | cons c input =>
      by_cases heq : k = c
      · subst heq
        obtain ⟨j, buffer', hloop, hj, hread, hlen⟩ :=
          ih (fun h => hin (cons_prefix_cons.mpr ⟨rfl, h⟩))
            (fun h => hkey (cons_prefix_cons.mpr ⟨rfl, h⟩)) (buffer.set i k) (i + 1)
            (by rw [length_set]; omega)
        refine ⟨j + 1, buffer', ?_, by rw [length_cons]; omega, ?_,
          by rw [hlen, length_set]⟩
        · rw [keywordLoop, if_pos rfl, hloop, drop_succ_cons]
          congr 1
          omega
        · rw [show i + (j + 1) + 1 = i + 1 + j + 1 by omega, hread, htake, take_succ_cons,
            append_assoc]
          rfl
      · refine ⟨0, buffer.set i c, ?_, by rw [length_cons]; omega, htake c, length_set ..⟩
        rw [keywordLoop, if_neg heq]
        rfl

theorem readKeyword_mismatch (hin : ¬ keyword <+: input)
    (hkey : ¬ input <+: keyword) (buffer : List Unit16)
    (hbuf : keyword.length ≤ buffer.length) :
    ∃ buffer', readKeyword keyword ⟨input, buffer⟩ = (false, ⟨input, buffer'⟩) ∧
      buffer'.length = buffer.length := by
  obtain ⟨j, buffer', hloop, hj, hread, hlen⟩ :=
    keywordLoop_mismatch hin hkey buffer 0 (by omega)
  rw [Nat.zero_add] at hloop hread
  refine ⟨buffer', ?_, hlen⟩
  unfold readKeyword
  rw [hloop]
  simp only []
  rw [if_pos hj, hread, take_zero, nil_append, tail_drop, take_append_drop]

theorem prefix_of_stop {a b : List Unit16} (h : keyword <+: a ++ b)
    (hb : ∀ c ∈ b.head?, c ∉ keyword) : keyword <+: a := by
  obtain ⟨tail, htail⟩ := h
  rcases append_eq_append_iff.mp htail with ⟨x, ha, -⟩ | ⟨x, ha, hbx⟩
  · exact ⟨x, ha.symm⟩
  · cases x with
    | nil =>
      rw [append_nil] at ha
      exact ha ▸ prefix_refl _
    | cons c x =>
      refine absurd (ha ▸ mem_append_right _ mem_cons_self) (hb c ?_)
      rw [hbx]
      rfl

theorem nil_of_prefix_stop {a b : List Unit16} (h : a ++ b <+: keyword)
    (hb : ∀ c ∈ b.head?, c ∉ keyword) : b = [] := by
  cases b with
  | nil => rfl
  | cons c b => exact absurd (h.subset (mem_append_right _ mem_cons_self)) (hb c rfl)

theorem keyword_letter (hmem : keyword ∈ keywords)
    (hc : c ∈ keyword) : c ∈ nullKeyword ++ trueKeyword ++ falseKeyword ∧ c ∉ operatorChars ∧
      c ≠ '.'.toNat ∧ c ≠ '['.toNat ∧ c < 128 := by
  have hall : ∀ k ∈ keywords, ∀ c ∈ k, c ∈ nullKeyword ++ trueKeyword ++ falseKeyword ∧
      c ∉ operatorChars ∧ c ≠ '.'.toNat ∧ c ≠ '['.toNat ∧ c < 128 := by decide
  exact hall keyword hmem c hc

theorem EndsOperand.not_letter (h : EndsOperand lib rest)
    (hmem : keyword ∈ keywords) : ∀ c ∈ rest.head?, c ∉ keyword := by
  intro c hc hletter
  obtain ⟨hin, hop, -⟩ := keyword_letter hmem hletter
  rcases h c hc with hw | ho
  · rw [(lib.letter_plain c hin).1] at hw
    cases hw
  · exact hop ho

theorem keyword_mismatch {name : List Unit16} (hmem : keyword ∈ keywords)
    (hname : ¬ keyword <+: name) (hrest : EndsOperand lib rest)
    (hend : rest = [] → ¬ name <+: keyword) :
    ¬ keyword <+: name ++ rest ∧ ¬ name ++ rest <+: keyword := by
  have hnot := hrest.not_letter hmem
  refine ⟨fun h => hname (prefix_of_stop h hnot), fun h => ?_⟩
  have hnil := nil_of_prefix_stop h hnot
  rw [hnil, append_nil] at h
  exact hend hnil h

/-! ## Reading one token -/

theorem quote_iff (c : Unit16) : (c = '"'.toNat ∨ c = '\''.toNat) ↔ c ∈ [34, 39] := by
  simp

theorem readToken_keyword {keyword : List Unit16} {value : Literal D}
    (h : (keyword, value) ∈ [(nullKeyword, Literal.null), (trueKeyword, .bool true),
      (falseKeyword, .bool false)]) (unary : Bool) (rest buffer : List Unit16) :
    ∃ c cs buffer', keyword = c :: cs ∧ lib.isWhitespace c = false ∧
      readToken lib unary c (cs ++ rest) buffer = .ok (.literal value, ⟨rest, buffer'⟩) ∧
      buffer'.length = buffer.length := by
  obtain ⟨buffer', hread, hlen⟩ := readKeyword_match keyword rest buffer
  have hdigit : ∀ c ∈ nullKeyword ++ trueKeyword ++ falseKeyword, lib.isDigit c = false := by
    intro c hc
    cases hd : lib.isDigit c
    · rfl
    · have := (lib.digit_plain c hd).1
      rw [(lib.letter_plain c hc).2] at this
      cases this
  have hmatch : ∀ v : Literal D, readKeywordOrVariable lib keyword v ⟨keyword ++ rest, buffer⟩ =
      .ok (.literal v, ⟨rest, buffer'⟩) := by
    intro v
    unfold readKeywordOrVariable
    rw [hread]
  simp only [mem_cons, not_mem_nil, or_false, Prod.mk.injEq] at h
  rcases h with ⟨rfl, rfl⟩ | ⟨rfl, rfl⟩ | ⟨rfl, rfl⟩
  · refine ⟨_, _, buffer', rfl, (lib.letter_plain _ (by decide)).1, ?_, hlen⟩
    unfold readToken
    rw [if_pos rfl]
    exact hmatch _
  · refine ⟨_, _, buffer', rfl, (lib.letter_plain _ (by decide)).1, ?_, hlen⟩
    unfold readToken
    rw [if_neg (by decide), if_neg (by decide), hdigit _ (by decide), if_neg Bool.false_ne_true,
      if_pos rfl]
    exact hmatch _
  · refine ⟨_, _, buffer', rfl, (lib.letter_plain _ (by decide)).1, ?_, hlen⟩
    unfold readToken
    rw [if_neg (by decide), if_neg (by decide), hdigit _ (by decide), if_neg Bool.false_ne_true,
      if_neg (by decide), if_pos rfl]
    exact hmatch _

theorem readToken_start {c : Unit16} (hc : lib.isJavaIdentifierStart c = true) :
    (∃ keyword ∈ keywords, ∃ value : Literal D, keyword.head? = some c ∧ ∀ unary rest buffer,
      readToken lib unary c rest buffer =
        readKeywordOrVariable lib keyword value ⟨c :: rest, buffer⟩) ∨
    (∀ keyword ∈ keywords, keyword.head? ≠ some c) ∧ ∀ unary rest buffer,
      readToken lib unary c rest buffer = readVariable lib ⟨c :: rest, buffer⟩ := by
  have hquote : ¬ (c = '"'.toNat ∨ c = '\''.toNat) := fun h =>
    lib.start_plain c hc ((quote_iff c).mp h)
  have hdigit : lib.isDigit c = false := by
    cases hd : lib.isDigit c
    · rfl
    · rw [(lib.digit_plain c hd).1] at hc
      cases hc
  unfold readToken
  simp only [hquote, hdigit, hc, if_false, if_true, Bool.false_eq_true]
  by_cases hn : c = 'n'.toNat
  · refine Or.inl ⟨nullKeyword, by decide, .null, by rw [hn]; rfl, fun unary rest buffer => ?_⟩
    rw [if_pos hn]
  by_cases ht : c = 't'.toNat
  · refine Or.inl ⟨trueKeyword, by decide, .bool true, by rw [ht]; rfl,
      fun unary rest buffer => ?_⟩
    rw [if_neg hn, if_pos ht]
  by_cases hf : c = 'f'.toNat
  · refine Or.inl ⟨falseKeyword, by decide, .bool false, by rw [hf]; rfl,
      fun unary rest buffer => ?_⟩
    rw [if_neg hn, if_neg ht, if_pos hf]
  refine Or.inr ⟨?_, fun unary rest buffer => ?_⟩
  · intro keyword hmem hhead
    simp only [keywords, mem_cons, not_mem_nil, or_false] at hmem
    rcases hmem with rfl | rfl | rfl
    · exact hn (Option.some.inj hhead).symm
    · exact ht (Option.some.inj hhead).symm
    · exact hf (Option.some.inj hhead).symm
  · rw [if_neg hn, if_neg ht, if_neg hf]

/-- A readable operand is the next token, if what follows ends it. -/
theorem readToken_leaf {operand : Leaf D} (h : operand.Readable lib)
    (hnames : (leaf operand).NoKeywordNames)
    (hrest : EndsOperand lib rest)
    (hend : ∀ name ∈ (leaf operand).lastName, rest = [] →
      ∀ keyword ∈ keywords, ¬ name <+: keyword)
    (unary : Bool) (hbuf : buffer.length = 6) :
    ∃ c cs buffer', operand.text = c :: cs ∧ lib.isWhitespace c = false ∧ c ≠ '='.toNat ∧
      readToken lib unary c (cs ++ rest) buffer = .ok (operand.token, ⟨rest, buffer'⟩) ∧
      buffer'.length = 6 := by
  have hstartNe : ∀ c, lib.isJavaIdentifierStart c = true → c ≠ '='.toNat := by
    rintro c hc rfl
    rw [(lib.operator_plain _ (by decide)).2.2.1] at hc
    cases hc
  have hstartWs : ∀ c, lib.isJavaIdentifierStart c = true → lib.isWhitespace c = false := by
    intro c hc
    cases hw : lib.isWhitespace c
    · rfl
    · rw [(lib.whitespace_plain c hw).2.1] at hc
      cases hc
  have hkeyword : ∀ keyword value, (keyword, value) ∈ [(nullKeyword, Literal.null),
      (trueKeyword, .bool true), (falseKeyword, .bool false)] →
      ∃ c cs buffer', (Leaf.literal keyword value : Leaf D).text = c :: cs ∧
        lib.isWhitespace c = false ∧ c ≠ '='.toNat ∧
        readToken lib unary c (cs ++ rest) buffer = .ok (.literal value, ⟨rest, buffer'⟩) ∧
        buffer'.length = 6 := by
    intro keyword value hmem
    obtain ⟨c, cs, buffer', hc, hws, hread, hlen⟩ := readToken_keyword hmem unary rest buffer
    refine ⟨c, cs, buffer', hc, hws, ?_, hread, hlen.trans hbuf⟩
    rintro rfl
    simp only [mem_cons, not_mem_nil, or_false, Prod.mk.injEq] at hmem
    rcases hmem with ⟨rfl, -⟩ | ⟨rfl, -⟩ | ⟨rfl, -⟩ <;> simp [nullKeyword, trueKeyword, falseKeyword] at hc
  cases h with
  | null | true | false => exact hkeyword _ _ (by simp)
  | number c cs value first number denotes =>
    -- no keyword begins with a digit
    have hstop := takeWhile_append_stop number fun x hx => (hrest.head_not_part x hx).2.1
    obtain ⟨hst, hquote⟩ := lib.digit_plain c first
    have hletter : c ≠ 'n'.toNat := by
      rintro rfl
      rw [(lib.letter_plain _ (by decide)).2] at hst
      cases hst
    refine ⟨c, cs, buffer, rfl, ?_, ?_, ?_, hbuf⟩
    · cases hw : lib.isWhitespace c
      · rfl
      · rw [(lib.whitespace_plain c hw).1] at first
        cases first
    · rintro rfl
      rw [(lib.operator_plain _ (by decide)).2.1] at first
      cases first
    · unfold readToken
      rw [if_neg hletter, if_neg (fun h => hquote ((quote_iff c).mp h)), first, if_pos rfl,
        ← cons_append, hstop.1, hstop.2, denotes]
      rfl
  | string quote body value delimiter denotes =>
    have hq : quote = 34 ∨ quote = 39 := by simpa using delimiter
    have hws : lib.isWhitespace quote = false := by
      cases hw : lib.isWhitespace quote
      · rfl
      · exact absurd delimiter fun hd => (lib.whitespace_plain quote hw).2.2.2 (by
          rcases hq with rfl | rfl <;> simp)
    refine ⟨quote, body, buffer, rfl, hws, ?_, ?_, hbuf⟩
    · rcases hq with rfl | rfl <;> decide
    · unfold readToken
      rw [if_neg (by rcases hq with rfl | rfl <;> decide), if_pos ((quote_iff quote).mpr delimiter),
        denotes]
      rfl
  | name c cs keyPath first denotes =>
    -- with the first letter of a keyword, the keyword is tried first
    have hvar : ∀ b, readVariable lib ⟨c :: cs ++ rest, b⟩ = .ok (.var keyPath, ⟨rest, b⟩) := by
      intro b
      unfold readVariable
      rw [denotes rest hrest]
    have hor : ∀ keyword ∈ keywords, ∀ value, ∃ buffer',
        readKeywordOrVariable lib keyword value ⟨c :: cs ++ rest, buffer⟩ =
          .ok (.var keyPath, ⟨rest, buffer'⟩) ∧ buffer'.length = 6 := by
      intro keyword hmem value
      obtain ⟨hin, hkey⟩ := keyword_mismatch hmem (hnames keyword hmem) hrest
        fun hnil => hend _ rfl hnil keyword hmem
      have hshort : ∀ k ∈ keywords, k.length ≤ 6 := by decide
      obtain ⟨buffer', hread, hlen⟩ := readKeyword_mismatch hin hkey buffer
        (hbuf ▸ hshort keyword hmem)
      refine ⟨buffer', ?_, hlen.trans hbuf⟩
      unfold readKeywordOrVariable
      rw [hread]
      exact hvar buffer'
    have hread : ∃ buffer', readToken lib unary c (cs ++ rest) buffer =
        .ok (.var keyPath, ⟨rest, buffer'⟩) ∧ buffer'.length = 6 := by
      rcases @readToken_start D lib c first with ⟨keyword, hmem, value, -, hread⟩ | ⟨-, hread⟩
      · rw [hread]
        exact hor keyword hmem value
      · rw [hread]
        exact ⟨buffer, hvar buffer, hbuf⟩
    obtain ⟨buffer', hread, hlen⟩ := hread
    exact ⟨c, cs, buffer', rfl, hstartWs c first, hstartNe c first, hread, hlen⟩

theorem readToken_operator (hc : c ∈ operatorChars) (unary : Bool) (rest buffer : List Unit16) :
    readToken lib unary c rest buffer =
      match (if unary then readUnary c rest else readBinary c rest) with
      | .ok (token, rest') => .ok (token, ⟨rest', buffer⟩)
      | .error failure => .error failure := by
  obtain ⟨-, hdigit, hst, -⟩ := lib.operator_plain c hc
  have hplain : ∀ c ∈ operatorChars, c ≠ 'n'.toNat ∧ ¬ (c = '"'.toNat ∨ c = '\''.toNat) ∧
      c ≠ 't'.toNat ∧ c ≠ 'f'.toNat := by decide
  obtain ⟨hn, hquote, ht, hf⟩ := hplain c hc
  unfold readToken
  rw [if_neg hn, if_neg hquote, hdigit, if_neg Bool.false_ne_true, if_neg ht, if_neg hf, hst]
  exact if_neg Bool.false_ne_true

theorem operator_text (op : Operator) : ∃ c cs, op.text = c :: cs ∧ c ∈ operatorChars := by
  cases op <;> exact ⟨_, _, rfl, by decide⟩

theorem readToken_unary {op : Operator} (hop : op.isUnary = true) (rest buffer : List Unit16) :
    ∃ c, op.text = [c] ∧ c ∈ operatorChars ∧ c ≠ '='.toNat ∧
      readToken lib true c rest buffer = .ok (.unaryOperator op, ⟨rest, buffer⟩) := by
  cases op with
  | negate =>
    refine ⟨'-'.toNat, rfl, by decide, by decide, ?_⟩
    rw [readToken_operator (by decide)]
    rfl
  | not =>
    refine ⟨'!'.toNat, rfl, by decide, by decide, ?_⟩
    rw [readToken_operator (by decide)]
    rfl
  | _ => cases hop

theorem readToken_binary (hop : op.isUnary = false)
    (hrest : ∀ c ∈ rest.head?, c ≠ '='.toNat) (buffer : List Unit16) :
    ∃ c cs, op.text = c :: cs ∧ c ∈ operatorChars ∧
      readToken lib false c (cs ++ rest) buffer = .ok (.binaryOperator op, ⟨rest, buffer⟩) := by
  have hstrict : ∀ strict orEqual : Operator,
      (readComparison strict orEqual rest : Except Failure (Token D × List Unit16)) =
        .ok (.binaryOperator strict, rest) := by
    intro strict orEqual
    exact if_neg fun h => hrest _ h rfl
  cases op with
  | negate | not => cases hop
  | greaterThan | lessThan =>
    refine ⟨_, [], rfl, by decide, ?_⟩
    rw [readToken_operator (by decide)]
    show (match (readComparison _ _ rest : Except Failure (Token D × List Unit16)) with
      | .ok (token, rest') => Except.ok (token, (⟨rest', buffer⟩ : Source))
      | .error failure => .error failure) = _
    rw [hstrict]
  | _ =>
    refine ⟨_, _, rfl, by decide, ?_⟩
    rw [readToken_operator (by decide)]
    rfl


/-! ## Reading an expression -/

/-- An operator or the end of a group comes next, or nothing. -/
def FollowsOperand (ps : List (Piece D)) : Prop :=
  ∀ p ∈ ps.head?, ∃ c cs, p.text = c :: cs ∧ c ∈ operatorChars

theorem Spells.cons {p : Piece D} {ps : List (Piece D)} {text : List Unit16}
    (h : Spells lib (p :: ps) text) :
    ∃ ws rest, (∀ c ∈ ws, lib.isWhitespace c = true) ∧ text = ws ++ p.text ++ rest ∧
      Spells lib ps rest := by
  cases h with
  | piece ws hws p hrest => exact ⟨ws, _, hws, rfl, hrest⟩

theorem Spells.endsOperand (h : Spells lib ps text)
    (hps : FollowsOperand ps) : EndsOperand lib text := by
  intro c hc
  cases h with
  | done _ hws => exact Or.inl (hws c (mem_of_mem_head? hc))
  | piece ws hws p hrest =>
    cases ws with
    | nil =>
      obtain ⟨x, xs, hx, hmem⟩ := hps p rfl
      rw [hx] at hc
      obtain rfl : x = c := by simpa using hc
      exact Or.inr hmem
    | cons w ws =>
      obtain rfl : w = c := by simpa using hc
      exact Or.inl (hws w mem_cons_self)

theorem Spells.nil_of_nil (h : Spells lib ps []) (hps : FollowsOperand ps) : ps = [] := by
  generalize htext : ([] : List Unit16) = text at h
  cases h with
  | done _ _ => rfl
  | piece ws hws p hrest =>
    obtain ⟨x, xs, hx, -⟩ := hps p rfl
    rw [hx] at htext
    simp at htext

/-- A text that is made of an operand and more does not begin with `=`. -/
theorem Written.Readable.head_ne {w : Written D} (hr : w.Readable lib) (hw : w.Sufficient)
    (h : Spells lib (w.pieces ++ ps) text) :
    ∀ c ∈ text.head?, c ≠ '='.toNat := by
  have hfst : ∃ p ps', w.pieces = p :: ps' ∧ ∃ c cs, p.text = c :: cs ∧ c ≠ '='.toNat := by
    clear h
    induction w with
    | leaf operand =>
      refine ⟨_, [], rfl, ?_⟩
      cases hr with
      | null | true | false => exact ⟨_, _, rfl, by decide⟩
      | number c cs value first number denotes =>
        refine ⟨c, cs, rfl, ?_⟩
        rintro rfl
        rw [(lib.operator_plain _ (by decide)).2.1] at first
        cases first
      | string quote body value delimiter denotes =>
        refine ⟨quote, body, rfl, ?_⟩
        rintro rfl
        revert delimiter
        decide
      | name c cs keyPath first denotes =>
        refine ⟨c, cs, rfl, ?_⟩
        rintro rfl
        rw [(lib.operator_plain _ (by decide)).2.2.1] at first
        cases first
    | group inner ih => exact ⟨_, _, rfl, _, _, rfl, by decide⟩
    | unary op operand ih =>
      obtain ⟨c, hc, -, hne, -⟩ := @readToken_unary D lib op hw.1 [] []
      exact ⟨_, _, rfl, c, [], hc, hne⟩
    | binary op left right ihl ihr =>
      obtain ⟨p, ps', hp, hchar⟩ := ihl hr.1 hw.2.1
      exact ⟨p, _, by rw [pieces, hp, cons_append], hchar⟩
  obtain ⟨p, ps', hp, x, xs, hx, hne⟩ := hfst
  rw [hp, cons_append] at h
  intro c hc
  cases h with
  | piece ws hws _ hrest =>
    cases ws with
    | nil =>
      rw [hx] at hc
      obtain rfl : x = c := by simpa using hc
      exact hne
    | cons w ws =>
      obtain rfl : w = c := by simpa using hc
      rintro rfl
      have := hws _ mem_cons_self
      rw [(lib.operator_plain _ (by decide)).1] at this
      cases this

section

variable (hws : ∀ x ∈ ws, lib.isWhitespace x = true)
include hws

theorem tokenizeLoop_step {unary : Bool} {buffer' : List Unit16}
    {t : Token D} (hc : lib.isWhitespace c = false)
    (hread : readToken lib unary c (cs ++ rest) buffer = .ok (t, ⟨rest, buffer'⟩)) (fuel : Nat)
    (y : Yard D) :
    tokenizeLoop lib (fuel + 1) unary ⟨ws ++ (c :: cs) ++ rest, buffer⟩ y =
      y.process t >>= tokenizeLoop lib fuel t.expectsOperand ⟨rest, buffer'⟩ := by
  have hdrop : (ws ++ (c :: cs) ++ rest).dropWhile lib.isWhitespace = c :: (cs ++ rest) := by
    rw [append_assoc, dropWhile_append_of_pos hws, cons_append,
      dropWhile_cons_of_neg (by simp [hc])]
  rw [tokenizeLoop]
  simp only [hdrop, hread]
  cases y.process t with
  | error failure | ok y1 => rfl

theorem tokenizeLoop_operator {unary : Bool} {t : Token D} (hc : c ∈ operatorChars)
    (hread : readToken lib unary c (cs ++ rest) buffer = .ok (t, ⟨rest, buffer⟩)) (fuel : Nat)
    (y : Yard D) :
    tokenizeLoop lib (fuel + 1) unary ⟨ws ++ (c :: cs) ++ rest, buffer⟩ y =
      y.process t >>= tokenizeLoop lib fuel t.expectsOperand ⟨rest, buffer⟩ :=
  tokenizeLoop_step hws (lib.operator_plain c hc).1 hread fuel y

theorem tokenizeLoop_beginGroup (fuel : Nat) (y : Yard D) :
    tokenizeLoop lib (fuel + 1) true ⟨ws ++ (beginPiece : Piece D).text ++ rest, buffer⟩ y =
      y.process .beginGroup >>= tokenizeLoop lib fuel true ⟨rest, buffer⟩ := by
  show tokenizeLoop lib (fuel + 1) true ⟨ws ++ ('('.toNat :: []) ++ rest, buffer⟩ y = _
  exact tokenizeLoop_operator hws (by decide) (by rw [readToken_operator (by decide)]; rfl) fuel y

theorem tokenizeLoop_endGroup (fuel : Nat) (y : Yard D) :
    tokenizeLoop lib (fuel + 1) false ⟨ws ++ (endPiece : Piece D).text ++ rest, buffer⟩ y =
      y.process .endGroup >>= tokenizeLoop lib fuel false ⟨rest, buffer⟩ := by
  show tokenizeLoop lib (fuel + 1) false ⟨ws ++ (')'.toNat :: []) ++ rest, buffer⟩ y = _
  exact tokenizeLoop_operator hws (by decide) (by rw [readToken_operator (by decide)]; rfl) fuel y

end

theorem tokenizeLoop_unary (hop : op.isUnary = true)
    (hws : ∀ x ∈ ws, lib.isWhitespace x = true) (fuel : Nat) (y : Yard D) :
    tokenizeLoop lib (fuel + 1) true ⟨ws ++ op.text ++ rest, buffer⟩ y =
      y.process (.unaryOperator op) >>= tokenizeLoop lib fuel true ⟨rest, buffer⟩ := by
  obtain ⟨c, hc, hmem, -, hread⟩ := @readToken_unary D lib op hop rest buffer
  rw [hc]
  exact tokenizeLoop_operator hws hmem hread fuel y

theorem tokenizeLoop_binary (hop : op.isUnary = false)
    (hws : ∀ x ∈ ws, lib.isWhitespace x = true) (hrest : ∀ c ∈ rest.head?, c ≠ '='.toNat)
    (fuel : Nat) (y : Yard D) :
    tokenizeLoop lib (fuel + 1) false ⟨ws ++ op.text ++ rest, buffer⟩ y =
      y.process (.binaryOperator op) >>= tokenizeLoop lib fuel true ⟨rest, buffer⟩ := by
  obtain ⟨c, cs, hc, hmem, hread⟩ := readToken_binary hop hrest buffer
  rw [hc]
  exact tokenizeLoop_operator hws hmem hread fuel y

theorem Written.pieces_group (inner : Written D) (ps : List (Piece D)) :
    (group inner).pieces ++ ps = beginPiece :: (inner.pieces ++ endPiece :: ps) := by
  simp [pieces]

theorem Written.pieces_binary (op : Operator) (left right : Written D) (ps : List (Piece D)) :
    (binary op left right).pieces ++ ps =
      left.pieces ++ (⟨.binaryOperator op, op.text⟩ :: (right.pieces ++ ps)) := by
  simp [pieces]

theorem Written.length_group (inner : Written D) (fuel : Nat) :
    fuel + (group inner).pieces.length = fuel + 1 + inner.pieces.length + 1 := by
  simp only [pieces, length_append, length_cons, length_nil]
  omega

theorem Written.length_binary (op : Operator) (left right : Written D) (fuel : Nat) :
    fuel + (binary op left right).pieces.length =
      fuel + right.pieces.length + 1 + left.pieces.length := by
  simp only [pieces, length_append, length_cons]
  omega

theorem Yard.processAll_cons_bind (y : Yard D) (t : Token D) (ts : List (Token D)) :
    y.processAll (t :: ts) = y.process t >>= fun y1 => y1.processAll ts :=
  foldlM_cons

theorem Yard.processAll_append_bind (y : Yard D) (a b : List (Token D)) :
    y.processAll (a ++ b) = y.processAll a >>= fun y1 => y1.processAll b :=
  foldlM_append

theorem getLast_of_append {pre : List Unit16} (h : c ∈ text.getLast?) :
    c ∈ (pre ++ text).getLast? := by
  rw [getLast?_append]
  rw [Option.mem_def] at h ⊢
  rw [h]
  rfl

/-- A leaf that is the beginning of a keyword has something behind it. -/
theorem leaf_not_last {operand : Leaf D}
    (hend : CleanEnd lib (.leaf operand) (ws ++ operand.text ++ rest)) :
    ∀ name ∈ (leaf operand).lastName, rest = [] →
      ∀ keyword ∈ keywords, ¬ (name ≠ [] ∧ name <+: keyword) := by
  rintro name hname rfl keyword hkeyword ⟨hne, hpre⟩
  have hlast := hend name hname keyword hkeyword hpre
  have htext : operand.text = name := by
    cases operand with
    | literal text value => cases hname
    | var text keyPath => exact Option.some.inj hname
  rw [append_nil, htext] at hlast
  have hwhite := hlast _ (getLast_of_append (getLast?_eq_some_getLast hne))
  have hletter : name.getLast hne ∈ nullKeyword ++ trueKeyword ++ falseKeyword := by
    have hmem := hpre.subset (getLast_mem hne)
    simp only [keywords, mem_cons, not_mem_nil, or_false] at hkeyword
    simp only [mem_append]
    rcases hkeyword with rfl | rfl | rfl
    · exact Or.inl (Or.inl hmem)
    · exact Or.inl (Or.inr hmem)
    · exact Or.inr hmem
  rw [(lib.letter_plain _ hletter).1] at hwhite
  cases hwhite

/-- The tokens of an expression are read and processed, whatever follows. -/
theorem tokenizeLoop_written (w : Written D) (hw : w.Sufficient) (hr : w.Readable lib)
    (hn : w.NoKeywordNames) {ps : List (Piece D)} (hps : FollowsOperand ps) {text : List Unit16}
    (hspells : Spells lib (w.pieces ++ ps) text)
    (hend : ps = [] → CleanEnd lib w text) {buffer : List Unit16} (hbuf : buffer.length = 6) :
    ∃ pre text' buffer', text = pre ++ text' ∧ Spells lib ps text' ∧ buffer'.length = 6 ∧
      ∀ fuel (y : Yard D), tokenizeLoop lib (fuel + w.pieces.length) true ⟨text, buffer⟩ y =
        y.processAll w.tokens >>= tokenizeLoop lib fuel false ⟨text', buffer'⟩ := by
  induction w generalizing ps text buffer with
  | leaf operand =>
    obtain ⟨ws, rest, hws, rfl, hrest⟩ := hspells.cons
    have hne : operand.text ≠ [] := by
      intro hnil
      cases hr <;> cases hnil
    obtain ⟨c, cs, buffer', htext, hc, -, hread, hbuf'⟩ :=
      readToken_leaf hr hn (hrest.endsOperand hps) (fun name hname hnil keyword hkeyword hpre =>
          leaf_not_last (hend (by subst hnil; exact hrest.nil_of_nil hps)) name hname hnil
            keyword hkeyword ⟨by
              intro h0
              subst h0
              cases operand with
              | literal text value => cases hname
              | var text keyPath => exact hne (Option.some.inj hname), hpre⟩) true hbuf
    refine ⟨ws ++ operand.text, rest, buffer', rfl, hrest, hbuf', fun fuel y => ?_⟩
    show tokenizeLoop lib (fuel + 1) true ⟨ws ++ operand.text ++ rest, buffer⟩ y = _
    rw [htext, tokenizeLoop_step hws hc hread]
    cases operand <;> rfl
  | group inner ih =>
    rw [pieces_group] at hspells
    obtain ⟨ws, rest, hws, rfl, hrest⟩ := hspells.cons
    have hclose : FollowsOperand (endPiece :: ps) := by
      rintro p ⟨⟩
      exact ⟨_, _, rfl, by decide⟩
    obtain ⟨pre, text', buffer', rfl, hspells', hbuf', hinner⟩ :=
      ih hw hr hn hclose hrest (nofun) hbuf
    obtain ⟨ws', rest', hws', rfl, hrest'⟩ := hspells'.cons
    refine ⟨ws ++ (beginPiece : Piece D).text ++ (pre ++ (ws' ++ (endPiece : Piece D).text)),
      rest', buffer', by simp only [append_assoc], hrest', hbuf', fun fuel y => ?_⟩
    show _ = y.processAll (.beginGroup :: (inner.tokens ++ [.endGroup])) >>= _
    rw [length_group, tokenizeLoop_beginGroup hws, Yard.processAll_cons_bind, bind_assoc]
    congr 1
    funext y1
    rw [hinner, Yard.processAll_append_bind, bind_assoc]
    congr 1
    funext y2
    rw [tokenizeLoop_endGroup hws', Yard.processAll_cons_bind, bind_assoc]
    congr 1
  | unary op operand ih =>
    obtain ⟨ws, rest, hws, rfl, hrest⟩ := hspells.cons
    obtain ⟨pre, text', buffer', rfl, hspells', hbuf', hoperand⟩ :=
      ih hw.2.1 hr hn hps hrest (fun hnil name hname keyword hkeyword hpre c hc =>
        hend hnil name hname keyword hkeyword hpre c (getLast_of_append hc)) hbuf
    refine ⟨ws ++ op.text ++ pre, text', buffer', by simp only [append_assoc], hspells', hbuf',
      fun fuel y => ?_⟩
    show tokenizeLoop lib (fuel + operand.pieces.length + 1) true _ y =
      y.processAll (.unaryOperator op :: operand.tokens) >>= _
    rw [tokenizeLoop_unary hw.1 hws, Yard.processAll_cons_bind, bind_assoc]
    congr 1
    funext y1
    exact hoperand fuel y1
  | binary op left right ihl ihr =>
    rw [pieces_binary] at hspells
    have hop : FollowsOperand (⟨.binaryOperator op, op.text⟩ :: (right.pieces ++ ps)) := by
      rintro p ⟨⟩
      exact operator_text op
    obtain ⟨pre, text1, buffer1, rfl, hspells1, hbuffer1, hleft⟩ :=
      ihl hw.2.1 hr.1 hn.1 hop hspells (nofun) hbuf
    obtain ⟨ws, rest, hws, rfl, hrest⟩ := hspells1.cons
    obtain ⟨pre2, text2, buffer2, rfl, hspells2, hbuffer2, hright⟩ :=
      ihr hw.2.2.1 hr.2 hn.2 hps hrest (fun hnil name hname keyword hkeyword hpre c hc =>
        hend hnil name hname keyword hkeyword hpre c
          (getLast_of_append (getLast_of_append hc))) hbuffer1
    refine ⟨pre ++ (ws ++ op.text ++ pre2), text2, buffer2, by simp only [append_assoc],
      hspells2, hbuffer2, fun fuel y => ?_⟩
    show _ = y.processAll (left.tokens ++ .binaryOperator op :: right.tokens) >>= _
    rw [length_binary, hleft, Yard.processAll_append_bind, bind_assoc]
    congr 1
    funext y1
    rw [tokenizeLoop_binary hw.1 hws (hr.2.head_ne hw.2.2.1 hrest), Yard.processAll_cons_bind,
      bind_assoc]
    congr 1
    funext y2
    exact hright fuel y2

end OpenJfx.Fxml
