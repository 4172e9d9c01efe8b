/-
  OpenJfx.Fxml.Expression.Precedence

  From the text of an expression to its tree.  The operands are put out in the order they are
  read, so a name read as a keyword shows in the postfix list; without such names the list is that
  of the operator stack.
-/

import OpenJfx.Fxml.Expression.Reading

namespace OpenJfx.Fxml

open List Written

variable {text : List Unit16} {D : Type} {lib : Library D}

/-! ## The whole text -/

variable {w : Written D} {y : Yard D} {ts : List (Token D)}

theorem Written.Readable.text_ne_nil (hr : w.Readable lib) : ∀ p ∈ w.pieces, p.text ≠ [] := by
  induction w with
  | leaf operand =>
    intro p hp
    obtain rfl := mem_singleton.mp hp
    intro hnil
    cases hr <;> cases hnil
  | group inner ih =>
    intro p hp
    rcases mem_append.mp hp with hp | hp
    · rcases mem_cons.mp hp with rfl | hp
      · exact cons_ne_nil _ _
      · exact ih hr p hp
    · rw [mem_singleton.mp hp]
      exact cons_ne_nil _ _
  | unary op operand ih =>
    intro p hp
    rcases mem_cons.mp hp with rfl | hp
    · cases op <;> exact cons_ne_nil _ _
    · exact ih hr p hp
  | binary op left right ihl ihr =>
    intro p hp
    rcases mem_append.mp hp with hp | hp
    · exact ihl hr.1 p hp
    · rcases mem_cons.mp hp with rfl | hp
      · cases op <;> exact cons_ne_nil _ _
      · exact ihr hr.2 p hp

theorem Spells.length_le {ps : List (Piece D)} (h : Spells lib ps text)
    (hne : ∀ p ∈ ps, p.text ≠ []) : ps.length ≤ text.length := by
  induction h with
  | done ws hws => exact Nat.zero_le _
  | piece ws hws p hrest ih =>
    have hp := length_pos_iff.mpr (hne p mem_cons_self)
    have hps := ih fun p' hp' => hne p' (mem_cons_of_mem _ hp')
    simp only [length_cons, length_append]
    omega

theorem valueOf_written (hw : w.Sufficient) (hr : w.Readable lib)
    (hn : w.NoKeywordNames) (ht : Spells lib w.pieces text)
    (hend : CleanEnd lib w text) : valueOf lib text = buildTree w.sortedTokens := by
  obtain ⟨pre, text', buffer', -, hrest, -, hloop⟩ :=
    @tokenizeLoop_written D lib w hw hr hn [] (fun p hp => by cases hp) text
      (by rwa [append_nil]) (fun _ => hend) (List.replicate 6 0) rfl
  have hlen := ht.length_le hr.text_ne_nil
  obtain ⟨fuel, hfuel⟩ : ∃ fuel, 2 * text.length + 2 = fuel + 1 + w.pieces.length :=
    ⟨2 * text.length + 1 - w.pieces.length, by omega⟩
  have hyard := w.processAll_tokens hw ⟨[], []⟩ (fun op _ t ht => by cases ht)
  have hdone : text'.dropWhile lib.isWhitespace = [] := by
    cases hrest with
    | done _ hws => exact dropWhile_eq_nil_iff.mpr hws
  have htokens : tokenize lib text = .ok w.sortedTokens := by
    unfold tokenize
    rw [hfuel, hloop, hyard]
    show tokenizeLoop lib (fuel + 1) false ⟨text', buffer'⟩ _ = _
    rw [tokenizeLoop]
    simp only [hdone]
    simp [sortedTokens]
  unfold valueOf
  rw [htokens]

/-! ## Names that begin with a keyword -/

/-- The stack holds operators and groups only. -/
def Yard.Plain (y : Yard D) : Prop := ∀ t ∈ y.stack, isOperand t = false

/-- The operands that have been put out. -/
def Yard.operands (y : Yard D) : List (Token D) := y.tokens.filter isOperand

theorem filter_isOperand_eq_nil {ts : List (Token D)} (h : ∀ t ∈ ts, isOperand t = false) :
    ts.filter isOperand = [] := by
  rw [filter_eq_nil_iff]
  intro t ht
  rw [h t ht]
  exact Bool.false_ne_true

theorem popGroup_spec {tokens stack : List (Token D)}
    (h : popGroup tokens stack = .ok y) (hstk : ∀ t ∈ stack, isOperand t = false) :
    tokens <+: y.tokens ∧ y.tokens.filter isOperand = tokens.filter isOperand ∧ y.Plain := by
  induction stack generalizing tokens with
  | nil => cases h
  | cons t stack ih =>
    have hrest : ∀ t ∈ stack, isOperand t = false := fun t' ht' => hstk t' (mem_cons_of_mem _ ht')
    have ht : isOperand t = false := hstk t mem_cons_self
    have hnxt : popGroup (tokens ++ [t]) stack = .ok y →
        tokens <+: y.tokens ∧ y.tokens.filter isOperand = tokens.filter isOperand ∧ y.Plain := by
      intro hpop
      obtain ⟨hpre, hfilt, hplain⟩ := ih hpop hrest
      refine ⟨(prefix_append _ _).trans hpre, ?_, hplain⟩
      rw [hfilt, filter_append, @filter_isOperand_eq_nil D [t] (by simpa using ht),
        append_nil]
    cases t with
    | beginGroup =>
      cases h
      exact ⟨prefix_refl _, rfl, hrest⟩
    | literal value | var keyPath => cases ht
    | unaryOperator op | binaryOperator op | endGroup => exact hnxt h

theorem Yard.pushOperator_spec (hy : y.Plain) {t : Token D}
    (ht : isOperand t = false) (op : Operator) :
    y.tokens <+: (y.pushOperator t op).tokens ∧ (y.pushOperator t op).operands = y.operands ∧
      (y.pushOperator t op).Plain := by
  refine ⟨prefix_append _ _, ?_, ?_⟩
  · have hpopped : (y.stack.takeWhile (Token.yields op.priority)).filter isOperand = [] :=
      filter_isOperand_eq_nil fun t' ht' => hy t' (( takeWhile_prefix _).subset ht')
    unfold Yard.operands Yard.pushOperator
    rw [filter_append, hpopped, append_nil]
  · intro t' ht'
    rcases mem_cons.mp ht' with rfl | ht'
    · exact ht
    · exact hy t' ((dropWhile_suffix _).subset ht')

theorem Yard.process_spec {y1 : Yard D} (hy : y.Plain) {t : Token D} (h : y.process t = .ok y1) :
    y.tokens <+: y1.tokens ∧ y1.operands = y.operands ++ [t].filter isOperand ∧ y1.Plain := by
  cases t with
  | literal value | var keyPath =>
    cases h
    exact ⟨prefix_append _ _, filter_append .., hy⟩
  | unaryOperator op =>
    cases h
    obtain ⟨hpre, hops, hplain⟩ := y.pushOperator_spec hy (t := .unaryOperator op) rfl op
    exact ⟨hpre, by rw [hops]; exact (append_nil _).symm, hplain⟩
  | binaryOperator op =>
    cases h
    obtain ⟨hpre, hops, hplain⟩ := y.pushOperator_spec hy (t := .binaryOperator op) rfl op
    exact ⟨hpre, by rw [hops]; exact (append_nil _).symm, hplain⟩
  | beginGroup =>
    cases h
    refine ⟨prefix_refl _, (append_nil _).symm, fun t ht => ?_⟩
    rcases mem_cons.mp ht with rfl | ht
    · rfl
    · exact hy t ht
  | endGroup =>
    obtain ⟨hpre, hops, hplain⟩ := popGroup_spec h hy
    exact ⟨hpre, by rw [Yard.operands, hops]; exact (append_nil _).symm, hplain⟩

theorem Yard.processAll_spec {y1 : Yard D} (hy : y.Plain) (h : y.processAll ts = .ok y1) :
    y1.operands = y.operands ++ ts.filter isOperand ∧ y1.Plain := by
  induction ts generalizing y with
  | nil =>
    cases h
    exact ⟨(append_nil _).symm, hy⟩
  | cons t ts ih =>
    rw [Yard.processAll_cons_bind] at h
    cases hstep : y.process t with
    | error failure =>
      rw [hstep] at h
      cases h
    | ok y2 =>
      rw [hstep] at h
      obtain ⟨-, hops, hplain⟩ := Yard.process_spec hy hstep
      obtain ⟨hall, hplain1⟩ := ih hplain h
      refine ⟨?_, hplain1⟩
      rw [hall, hops, append_assoc, ← filter_append]
      rfl

theorem tokenizeLoop_isPrefix_operands {fuel : Nat} {unary : Bool} {s : Source} (hy : y.Plain)
    (h : tokenizeLoop lib fuel unary s y = .ok ts) : y.tokens <+: ts := by
  induction fuel generalizing unary s y with
  | zero => cases h
  | succ fuel ih =>
    rw [tokenizeLoop] at h
    split at h
    · cases h
      exact prefix_append _ _
    · split at h
      · cases h
      · split at h
        · cases h
        · next y1 hprocess =>
          obtain ⟨hpre, -, hplain⟩ := Yard.process_spec hy hprocess
          exact hpre.trans (ih hplain h)

/-- The operands of a tree are those of the text, in the same order. -/
theorem Written.filter_postorder (w : Written D) :
    w.tree.postorder.filter isOperand = w.tokens.filter isOperand := by
  induction w with
  | leaf operand => cases operand <;> rfl
  | group inner ih => simpa [tree, tokens, isOperand] using ih
  | unary op operand ih =>
    simp only [tree, tokens, Expression.postorder, filter_append, ih]
    simp [isOperand]
  | binary op left right ihl ihr =>
    simp only [tree, tokens, Expression.postorder, filter_append, ihl, ihr]
    simp [isOperand]

/-- A name that begins with a keyword is lost, by induction on the expression. -/
theorem tokenizeLoop_keywordName (w : Written D) (hw : w.Sufficient) (hr : w.Readable lib)
    (hn : ¬ w.NoKeywordNames) {ps : List (Piece D)} {text : List Unit16}
    (hspells : Spells lib (w.pieces ++ ps) text) {buffer : List Unit16}
    (hbuf : buffer.length = 6) {fuel : Nat} {y : Yard D} (hy : y.Plain) {ts : List (Token D)}
    (h : tokenizeLoop lib (fuel + w.pieces.length) true ⟨text, buffer⟩ y = .ok ts) :
    ¬ y.operands ++ w.tokens.filter isOperand <+: ts.filter isOperand := by
  induction w generalizing ps text buffer fuel y with
  | leaf operand =>
    cases operand with
    | literal text value => exact absurd trivial hn
    | var name keyPath =>
      simp only [Written.NoKeywordNames, not_forall, not_not] at hn
      obtain ⟨keyword, hkeyword, tail, rfl⟩ := hn
      obtain ⟨value, hval⟩ : ∃ value : Literal D, (keyword, value) ∈
          [(nullKeyword, Literal.null), (trueKeyword, .bool true), (falseKeyword, .bool false)] := by
        simp only [keywords, mem_cons, not_mem_nil, or_false] at hkeyword
        rcases hkeyword with rfl | rfl | rfl
        · exact ⟨_, mem_cons_self⟩
        · exact ⟨_, mem_cons_of_mem _ mem_cons_self⟩
        · exact ⟨_, mem_cons_of_mem _ (mem_cons_of_mem _ mem_cons_self)⟩
      obtain ⟨ws, rest, hws, rfl, hrest⟩ := hspells.cons
      obtain ⟨c, cs, buffer', rfl, hc, hread, -⟩ :=
        @readToken_keyword D lib _ _ hval true (tail ++ rest) buffer
      have htext : ws ++ (c :: cs ++ tail) ++ rest = ws ++ (c :: cs) ++ (tail ++ rest) := by
        simp only [append_assoc]
      have hstep : tokenizeLoop lib (fuel + 1) true ⟨ws ++ (c :: cs ++ tail) ++ rest, buffer⟩ y =
          .ok ts := h
      rw [htext, tokenizeLoop_step hws hc hread] at hstep
      obtain ⟨rest', hrest'⟩ := tokenizeLoop_isPrefix_operands
        (show Yard.Plain ⟨y.tokens ++ [.literal value], y.stack⟩ from hy) hstep
      rintro ⟨rest'', hrest''⟩
      rw [← hrest', filter_append, filter_append] at hrest''
      unfold Yard.operands at hrest''
      rw [append_assoc, append_assoc] at hrest''
      have := append_cancel_left hrest''
      cases this
  | group inner ih =>
    rw [pieces_group] at hspells
    obtain ⟨ws, rest, hws, rfl, hrest⟩ := hspells.cons
    rw [length_group, tokenizeLoop_beginGroup hws] at h
    obtain ⟨-, hops, hplain⟩ := Yard.process_spec hy (t := .beginGroup) rfl
    have hinner := ih hw hr hn hrest hbuf hplain h
    rw [hops] at hinner
    simpa [tokens, isOperand] using hinner
  | unary op operand ih =>
    obtain ⟨ws, rest, hws, rfl, hrest⟩ := hspells.cons
    have hstep : tokenizeLoop lib (fuel + operand.pieces.length + 1) true
        ⟨ws ++ op.text ++ rest, buffer⟩ y = .ok ts := h
    rw [tokenizeLoop_unary hw.1 hws] at hstep
    obtain ⟨-, hops, hplain⟩ := Yard.process_spec hy (t := .unaryOperator op) rfl
    have hoperand := ih hw.2.1 hr hn hrest hbuf hplain hstep
    rw [hops] at hoperand
    simpa [tokens, isOperand] using hoperand
  | binary op left right ihl ihr =>
    rw [pieces_binary] at hspells
    rw [length_binary] at h
    have htokens : (binary op left right).tokens.filter isOperand =
        left.tokens.filter isOperand ++ right.tokens.filter isOperand := by
      simp [tokens, isOperand]
    rw [htokens]
    by_cases hleft : left.NoKeywordNames
    · have hright : ¬ right.NoKeywordNames := fun hright => hn ⟨hleft, hright⟩
      have hop : FollowsOperand (⟨.binaryOperator op, op.text⟩ :: (right.pieces ++ ps)) := by
        rintro p ⟨⟩
        exact operator_text op
      obtain ⟨pre, text1, buffer1, -, hspells1, hbuffer1, hloop⟩ :=
        tokenizeLoop_written left hw.2.1 hr.1 hleft hop hspells (by simp) hbuf
      rw [hloop] at h
      cases hall : y.processAll left.tokens with
      | error failure =>
        rw [hall] at h
        cases h
      | ok y1 =>
        rw [hall] at h
        obtain ⟨hops1, hplain1⟩ := Yard.processAll_spec hy hall
        obtain ⟨ws, rest, hws, rfl, hrest⟩ := hspells1.cons
        have hstep : tokenizeLoop lib (fuel + right.pieces.length + 1) false
            ⟨ws ++ op.text ++ rest, buffer1⟩ y1 = .ok ts := h
        rw [tokenizeLoop_binary hw.1 hws (hr.2.head_ne hw.2.2.1 hrest)] at hstep
        obtain ⟨-, hops2, hplain2⟩ := Yard.process_spec hplain1 (t := .binaryOperator op) rfl
        have hoperand := ihr hw.2.2.1 hr.2 hright hrest hbuffer1 hplain2 hstep
        rw [hops2, hops1] at hoperand
        simpa [isOperand] using hoperand
    · intro hpre
      refine ihl hw.2.1 hr.1 hleft hspells hbuf hy h ((?_ : _ <+: _).trans hpre)
      rw [← append_assoc]
      exact prefix_append _ _

theorem valueOf_keywordName (hw : w.Sufficient) (hr : w.Readable lib)
    (hn : ¬ w.NoKeywordNames) (ht : Spells lib w.pieces text) :
    valueOf lib text ≠ .ok w.tree := by
  intro hval
  unfold valueOf at hval
  split at hval
  · next ts htokens =>
    have hpost := (buildTree_eq_iff hw.proper).mp hval
    have hlen := ht.length_le hr.text_ne_nil
    obtain ⟨fuel, hfuel⟩ : ∃ fuel, 2 * text.length + 2 = fuel + w.pieces.length :=
      ⟨2 * text.length + 2 - w.pieces.length, by omega⟩
    unfold tokenize at htokens
    rw [hfuel] at htokens
    refine @tokenizeLoop_keywordName D lib w hw hr hn [] text (by rwa [append_nil]) _ rfl _
      ⟨[], []⟩ (fun t ht => by cases ht) ts htokens ?_
    rw [hpost, w.filter_postorder]
    exact prefix_refl _
  · cases hval

/-! ## Every text -/

/-- A text with enough parentheses is parsed to the tree it writes out exactly when no unary
    expression is followed by a binary operator in its group and no name begins with a keyword. -/
theorem valueOf_iff_unaryLast {w : Written D} (hw : w.Sufficient) (hr : w.Readable lib)
    {text : List Unit16} (ht : Spells lib w.pieces text) (hend : CleanEnd lib w text) :
    valueOf lib text = .ok w.tree ↔ w.UnaryLast ∧ w.NoKeywordNames := by
  by_cases hn : w.NoKeywordNames
  · rw [valueOf_written hw hr hn ht hend, buildTree_iff hw]
    exact ⟨fun h => ⟨h, hn⟩, fun h => h.1⟩
  · exact ⟨fun h => absurd h (valueOf_keywordName hw hr hn ht), fun h => absurd h.2 hn⟩

/-- The library on the characters of ASCII, without decimal fractions. -/
def asciiLibrary : Library Nat where
  isWhitespace (c : Nat) := c == 32 || (decide (9 ≤ c) && decide (c ≤ 13)) ||
    (decide (28 ≤ c) && decide (c ≤ 31))
  isDigit (c : Nat) := decide (48 ≤ c) && decide (c ≤ 57)
  isISOControl (c : Nat) := decide (c ≤ 31) || c == 127
  isJavaIdentifierStart (c : Nat) := (decide (65 ≤ c) && decide (c ≤ 90)) ||
    (decide (97 ≤ c) && decide (c ≤ 122)) || c == 95 || c == 36
  isJavaIdentifierPart (c : Nat) := (decide (65 ≤ c) && decide (c ≤ 90)) ||
    (decide (97 ≤ c) && decide (c ≤ 122)) || (decide (48 ≤ c) && decide (c ≤ 57)) || c == 95 ||
    c == 36 || decide (c ≤ 8) || (decide (14 ≤ c) && decide (c ≤ 27)) || c == 127
  digit (c : Nat) radix := if 48 ≤ c ∧ c ≤ 57 ∧ c - 48 < radix then some (c - 48) else none
  parseDouble _ := none
  operator_plain := by decide
  whitespace_plain := by
    intro (c : Nat) hc
    simp only [Bool.or_eq_true, Bool.and_eq_true, decide_eq_true_eq, beq_iff_eq] at hc
    simp only [Bool.or_eq_false_iff, Bool.and_eq_false_iff, decide_eq_false_iff_not,
      beq_eq_false_iff_ne, mem_cons, not_mem_nil, not_or]
    refine ⟨?_, ?_, ?_, ?_⟩ <;> grind
  digit_plain := by
    intro (c : Nat) hc
    simp only [Bool.and_eq_true, decide_eq_true_eq] at hc
    simp only [Bool.or_eq_false_iff, Bool.and_eq_false_iff, decide_eq_false_iff_not,
      beq_eq_false_iff_ne, mem_cons, not_mem_nil, not_or]
    grind
  start_plain := by
    intro (c : Nat) hc
    simp only [Bool.or_eq_true, Bool.and_eq_true, decide_eq_true_eq, beq_iff_eq] at hc
    simp only [mem_cons, not_mem_nil, not_or]
    grind
  letter_plain := by decide

/-- A variable of one letter. -/
def letter (c : Char) : Written Nat := .leaf (.var [c.toNat] [[c.toNat]])

theorem letter_readable {c : Char} (hst : asciiLibrary.isJavaIdentifierStart c.toNat = true)
    (hkey : isKeyChar asciiLibrary c.toNat = true) : (letter c).Readable asciiLibrary :=
  Leaf.readable_identifier hst fun _ hx => mem_singleton.mp hx ▸ hkey

/-- The text `a+-b`: the unary expression is the last of its group. -/
theorem valueOf_iff_unaryLast_sum : valueOf asciiLibrary (['a', '+', '-', 'b'].map Char.toNat) =
      .ok (.binary .add (.var [['a'.toNat]]) (.unary .negate (.var [['b'.toNat]]))) := by
  refine (valueOf_iff_unaryLast (w := .binary .add (letter 'a') (.unary .negate (letter 'b')))
    ?_ ?_ ?_ ?_).mpr ?_
  · exact ⟨rfl, trivial, ⟨rfl, trivial, rfl⟩, (fun op hop => by cases hop),
      fun op hop => by cases hop⟩
  · exact ⟨letter_readable rfl rfl, letter_readable rfl rfl⟩
  · exact .piece [] (fun c hc => by cases hc) ⟨.var [['a'.toNat]], ['a'.toNat]⟩
      (.piece [] (fun c hc => by cases hc) ⟨.binaryOperator .add, Operator.text .add⟩
        (.piece [] (fun c hc => by cases hc) ⟨.unaryOperator .negate, Operator.text .negate⟩
          (.piece [] (fun c hc => by cases hc) ⟨.var [['b'.toNat]], ['b'.toNat]⟩
            (.done [] fun c hc => by cases hc))))
  · rintro name ⟨⟩ keyword hkeyword hpre
    revert keyword
    decide
  · refine ⟨⟨trivial, trivial, rfl⟩, ?_, ?_⟩
    · show ∀ keyword ∈ keywords, ¬ keyword <+: ['a'.toNat]
      decide
    · show ∀ keyword ∈ keywords, ¬ keyword <+: ['b'.toNat]
      decide

/-- The text `-a+b` is parsed as `-(a+b)`. -/
theorem valueOf_negate_sum : ∃ (w : Written Nat) (text : List Unit16), w.Sufficient ∧
    w.Readable asciiLibrary ∧ Spells asciiLibrary w.pieces text ∧
    valueOf asciiLibrary text ≠ .ok w.tree ∧
    valueOf asciiLibrary text =
      .ok (.unary .negate (.binary .add (.var [['a'.toNat]]) (.var [['b'.toNat]]))) := by
  have hval : valueOf asciiLibrary (['-', 'a', '+', 'b'].map Char.toNat) =
      .ok (.unary .negate (.binary .add (.var [['a'.toNat]]) (.var [['b'.toNat]]))) := by rfl
  refine ⟨.binary .add (.unary .negate (letter 'a')) (letter 'b'),
    ['-', 'a', '+', 'b'].map Char.toNat, ?_, ?_, ?_, ?_, hval⟩
  · exact ⟨rfl, ⟨rfl, trivial, rfl⟩, trivial, (fun op hop => by cases hop),
      fun op hop => by cases hop⟩
  · exact ⟨letter_readable rfl rfl, letter_readable rfl rfl⟩
  · exact .piece [] (fun c hc => by cases hc) ⟨.unaryOperator .negate, Operator.text .negate⟩
      (.piece [] (fun c hc => by cases hc) ⟨.var [['a'.toNat]], ['a'.toNat]⟩
        (.piece [] (fun c hc => by cases hc) ⟨.binaryOperator .add, Operator.text .add⟩
          (.piece [] (fun c hc => by cases hc) ⟨.var [['b'.toNat]], ['b'.toNat]⟩
            (.done [] fun c hc => by cases hc))))
  · rw [hval]
    intro h
    cases h

end OpenJfx.Fxml
