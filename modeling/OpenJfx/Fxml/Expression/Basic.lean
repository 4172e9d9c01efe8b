/-
  OpenJfx.Fxml.Expression.Basic

  The parser of binding expressions in FXML.  `tokenize` sorts the tokens into postfix order,
  `parse` builds the tree.  A text is the list of its UTF-16 code units, a reader the units still
  to be read; `readKeyword` pushes back from `pushbackBuffer`.  `Library` holds the character
  classes and number formats of the Java library.
-/

import Mathlib.Tactic.Ring

namespace OpenJfx.Fxml

/-- A UTF-16 code unit. -/
abbrev Unit16 := Nat

/-! ## The Java library -/

/-- The characters of the operators and groups. -/
def operatorChars : List Unit16 :=
  ['+', '-', '*', '/', '%', '=', '!', '>', '<', '&', '|', '(', ')'].map Char.toNat

def nullKeyword : List Unit16 := ['n', 'u', 'l', 'l'].map Char.toNat
def trueKeyword : List Unit16 := ['t', 'r', 'u', 'e'].map Char.toNat
def falseKeyword : List Unit16 := ['f', 'a', 'l', 's', 'e'].map Char.toNat

/-- What the parser uses of `java.lang.Character` and `java.lang.Double`. -/
structure Library (D : Type) where
  isWhitespace : Unit16 → Bool
  isDigit : Unit16 → Bool
  isISOControl : Unit16 → Bool
  isJavaIdentifierStart : Unit16 → Bool
  isJavaIdentifierPart : Unit16 → Bool
  /-- `Character.digit`. -/
  digit : Unit16 → Nat → Option Nat
  parseDouble : List Unit16 → Option D
  /-- Operators are nothing else. -/
  operator_plain : ∀ c ∈ operatorChars, isWhitespace c = false ∧ isDigit c = false ∧
    isJavaIdentifierStart c = false ∧ isJavaIdentifierPart c = false
  /-- Whitespace separates names and numbers. -/
  whitespace_plain : ∀ c, isWhitespace c = true → isDigit c = false ∧
    isJavaIdentifierStart c = false ∧ isJavaIdentifierPart c = false ∧
    c ∉ [46, 91, 101, 69, 34, 39]
  /-- A digit does not begin a name, and is no quotation mark. -/
  digit_plain : ∀ c, isDigit c = true → isJavaIdentifierStart c = false ∧ c ∉ [34, 39]
  start_plain : ∀ c, isJavaIdentifierStart c = true → c ∉ [34, 39]
  /-- The letters of the keywords begin names and are no whitespace. -/
  letter_plain : ∀ c ∈ nullKeyword ++ trueKeyword ++ falseKeyword,
    isWhitespace c = false ∧ isJavaIdentifierStart c = true

/-! ## Expressions -/

/-- The enumeration `Operator`. -/
inductive Operator where
  | negate | not | multiply | divide | modulo | add | subtract
  | greaterThan | greaterThanOrEqualTo | lessThan | lessThanOrEqualTo
  | equalTo | notEqualTo | and | or
  deriving DecidableEq, Repr

namespace Operator

/-- `getPriority`. -/
def priority : Operator → Nat
  | negate | not => 6
  | multiply | divide | modulo => 5
  | add | subtract => 4
  | greaterThan | greaterThanOrEqualTo | lessThan | lessThanOrEqualTo => 3
  | equalTo | notEqualTo => 2
  | and => 1
  | or => 0

/-- `MAX_PRIORITY`. -/
def maxPriority : Nat := 6

def isUnary : Operator → Bool
  | negate | not => true
  | _ => false

end Operator

/-- The value of a `LiteralExpression`. -/
inductive Literal (D : Type) where
  | null
  | bool (value : Bool)
  | string (value : List Unit16)
  | long (value : Int)
  | double (value : D)
  deriving DecidableEq, Repr

/-- An expression tree. -/
inductive Expression (D : Type) where
  | literal (value : Literal D)
  | var (keyPath : List (List Unit16))
  | unary (operator : Operator) (operand : Expression D)
  | binary (operator : Operator) (left right : Expression D)
  deriving DecidableEq, Repr

/-- `Expression.Token`. -/
inductive Token (D : Type) where
  | literal (value : Literal D)
  | var (keyPath : List (List Unit16))
  | unaryOperator (operator : Operator)
  | binaryOperator (operator : Operator)
  | beginGroup
  | endGroup
  deriving DecidableEq, Repr

/-- The exceptions of the parser. -/
inductive Failure where
  | illegalIdentifierCharacter
  | illegalCharacterInIndexValue
  | unterminatedQuotedIdentifier
  | unterminatedBracketedIdentifier
  | illegalTerminatorCharacter
  | missingIdentifier
  | invalidPath
  | unsupportedEscapeSequence
  | unterminatedString
  | numberFormat
  | unexpectedCharacter
  | noSuchElement
  | unsupportedOperation
  | invalidExpression
  deriving DecidableEq, Repr

variable {D : Type} (lib : Library D)

/-! ## Numbers and strings -/

/-- The digits of a number, most significant first. -/
def digitsValue (radix : Nat) : List Unit16 → Nat → Option Nat
  | [], value => some value
  | c :: rest, value =>
    match lib.digit c radix with
    | some d => digitsValue radix rest (value * radix + d)
    | none => none

/-- A sign, digits, and a value in range. -/
def parseInteger (radix : Nat) (least greatest : Int) (text : List Unit16) : Option Int :=
  let negative := decide (text.head? = some '-'.toNat)
  let digits := if negative ∨ text.head? = some '+'.toNat then text.tail else text
  if digits = [] then none
  else
    match digitsValue lib radix digits 0 with
    | some n =>
      let value : Int := if negative then -n else n
      if least ≤ value ∧ value ≤ greatest then some value else none
    | none => none

def parseLong (text : List Unit16) : Option Int :=
  parseInteger lib 10 (-2 ^ 63) (2 ^ 63 - 1) text

/-- A character of a number. -/
def isNumberChar (c : Unit16) : Bool :=
  lib.isDigit c || c == '.'.toNat || c == 'e'.toNat || c == 'E'.toNat

/-- The value of a number: a long unless it has a decimal point. -/
def numberValue (text : List Unit16) : Except Failure (Literal D) :=
  if '.'.toNat ∈ text then
    match lib.parseDouble text with
    | some d => .ok (.double d)
    | none => .error .numberFormat
  else
    match parseLong lib text with
    | some n => .ok (.long n)
    | none => .error .numberFormat

/-- The character an escape sequence stands for, with what follows; missing digits are read at the
    end. -/
def readEscape (t : Unit16) : List Unit16 → Except Failure (Unit16 × List Unit16)
  | [] => .error .unsupportedEscapeSequence
  | c :: rest =>
    if c = 'b'.toNat then .ok (8, rest)
    else if c = 'f'.toNat then .ok (12, rest)
    else if c = 'n'.toNat then .ok (10, rest)
    else if c = 'r'.toNat then .ok (13, rest)
    else if c = 't'.toNat then .ok (9, rest)
    else if c = 'u'.toNat then
      match rest with
      | a :: b :: c :: d :: rest' =>
        match parseInteger lib 16 (-2 ^ 31) (2 ^ 31 - 1) [a, b, c, d] with
        | some value => .ok ((value % 65536).toNat, rest')
        | none => .error .numberFormat
      | _ => .error .numberFormat
    else if c = '\\'.toNat ∨ c = '/'.toNat ∨ c = '"'.toNat ∨ c = '\''.toNat ∨ c = t then
      .ok (c, rest)
    else .error .unsupportedEscapeSequence

/-- The loop up to `t`, with fuel for the text. -/
def readStringLoop (t : Unit16) : Nat → List Unit16 → List Unit16 →
    Except Failure (List Unit16 × List Unit16)
  | 0, _, _ => .error .unterminatedString
  | _ + 1, _, [] => .error .unterminatedString
  | fuel + 1, value, c :: rest =>
    if c = t then .ok (value, rest)
    else if lib.isISOControl c then readStringLoop t fuel value rest
    else if c = '\\'.toNat then
      match readEscape lib t rest with
      | .ok (e, rest') => readStringLoop t fuel (value ++ [e]) rest'
      | .error failure => .error failure
    else readStringLoop t fuel (value ++ [c]) rest

/-- A string, after its opening delimiter. -/
def readString (t : Unit16) (input : List Unit16) : Except Failure (List Unit16 × List Unit16) :=
  readStringLoop lib t (input.length + 1) [] input

/-! ## Key paths -/

/-- A bracketed key, with `quoted` and `bracketed`. -/
def readBracketLoop (quote : Unit16) : Nat → Bool → List Unit16 → List Unit16 →
    Except Failure (Bool × Bool × List Unit16 × List Unit16)
  | 0, quoted, key, input => .ok (quoted, true, key, input)
  | _ + 1, quoted, key, [] => .ok (quoted, true, key, [])
  | fuel + 1, quoted, key, c :: rest =>
    if lib.isISOControl c then .error .illegalIdentifierCharacter
    else if !quoted && !lib.isDigit c then .error .illegalCharacterInIndexValue
    else
      let closes := quoted && rest.head? == some quote
      let quoted := quoted && !closes
      let rest := if closes then rest.tail else rest
      if rest.head? = some ']'.toNat then .ok (quoted, false, key ++ [c], rest)
      else readBracketLoop quote fuel quoted (key ++ [c]) rest

/-- A bracketed key, after its opening bracket. -/
def readBracketed (input : List Unit16) : Except Failure (List Unit16 × List Unit16) :=
  let quoted := input.head? = some '"'.toNat ∨ input.head? = some '\''.toNat
  let quote := if quoted then input.head?.getD 0 else 0
  let input := if quoted then input.tail else input
  match readBracketLoop lib quote (input.length + 1) (decide quoted) [] input with
  | .error failure => .error failure
  | .ok (true, _, _, _) => .error .unterminatedQuotedIdentifier
  | .ok (false, true, _, _) => .error .unterminatedBracketedIdentifier
  | .ok (false, false, key, rest) => .ok (key, rest.tail)

/-- A character that continues an identifier in a key path. -/
def isKeyChar (c : Unit16) : Bool :=
  c != '.'.toNat && c != '['.toNat && lib.isJavaIdentifierPart c

/-- One key of a path. -/
def readKey (c : Unit16) (rest : List Unit16) : Except Failure (List Unit16 × List Unit16) :=
  if c = '['.toNat then readBracketed lib rest
  else .ok ((c :: rest).span (isKeyChar lib))

/-- The period after a key. -/
def skipPeriod (input : List Unit16) : Except Failure (List Unit16) :=
  if input.head? = some '.'.toNat then
    if input.tail = [] then .error .illegalTerminatorCharacter else .ok input.tail
  else .ok input

/-- The loop of `KeyPath.parse`. -/
def parsePathLoop : Nat → List (List Unit16) → List Unit16 →
    Except Failure (List (List Unit16) × List Unit16)
  | 0, elements, input => .ok (elements, input)
  | _ + 1, elements, [] => .ok (elements, [])
  | fuel + 1, elements, c :: rest =>
    if lib.isJavaIdentifierStart c || c == '['.toNat then
      match readKey lib c rest with
      | .error failure => .error failure
      | .ok (key, input) =>
        match skipPeriod input with
        | .error failure => .error failure
        | .ok input =>
          if key = [] then .error .missingIdentifier
          else parsePathLoop fuel (elements ++ [key]) input
    else .ok (elements, c :: rest)

/-- `KeyPath.parse`: the character after the path is pushed back. -/
def parsePath (input : List Unit16) : Except Failure (List (List Unit16) × List Unit16) :=
  match parsePathLoop lib (input.length + 1) [] input with
  | .error failure => .error failure
  | .ok (elements, rest) => if elements = [] then .error .invalidPath else .ok (elements, rest)

/-! ## Tokens -/

/-- The reader of the parser and its `pushbackBuffer`. -/
structure Source where
  input : List Unit16
  buffer : List Unit16
  deriving DecidableEq, Repr

/-- The loop of `readKeyword` from index `i` on, with the index it ends at. -/
def keywordLoop : List Unit16 → Nat → Source → Nat × Source
  | [], i, s => (i, s)
  | _ :: _, i, ⟨[], buffer⟩ => (i, ⟨[], buffer⟩)
  | k :: keyword, i, ⟨c :: rest, buffer⟩ =>
    if k = c then keywordLoop keyword (i + 1) ⟨rest, buffer.set i c⟩
    else (i, ⟨c :: rest, buffer.set i c⟩)

/-- A mismatch pushes back `i + 1` characters. -/
def readKeyword (keyword : List Unit16) (s : Source) : Bool × Source :=
  let (i, s₁) := keywordLoop keyword 0 s
  if i < keyword.length then
    (false, ⟨s₁.buffer.take (i + 1) ++ s₁.input.tail, s₁.buffer⟩)
  else (true, s₁)

/-- A key path. -/
def readVariable (s : Source) : Except Failure (Token D × Source) :=
  match parsePath lib s.input with
  | .ok (keyPath, rest) => .ok (.var keyPath, { s with input := rest })
  | .error failure => .error failure

/-- A keyword, or a variable that begins with the same letter. -/
def readKeywordOrVariable (keyword : List Unit16) (value : Literal D) (s : Source) :
    Except Failure (Token D × Source) :=
  match readKeyword keyword s with
  | (true, s₁) => .ok (.literal value, s₁)
  | (false, s₁) => readVariable lib s₁

/-- An operator or a group where an operand is expected. -/
def readUnary (c : Unit16) (rest : List Unit16) : Except Failure (Token D × List Unit16) :=
  if c = '-'.toNat then .ok (.unaryOperator .negate, rest)
  else if c = '!'.toNat then .ok (.unaryOperator .not, rest)
  else if c = '('.toNat then .ok (.beginGroup, rest)
  else .error .unexpectedCharacter

/-- Two characters that have no short form. -/
def readSecond (second : Char) (operator : Operator) (rest : List Unit16) :
    Except Failure (Token D × List Unit16) :=
  if rest.head? = some second.toNat then .ok (.binaryOperator operator, rest.tail)
  else .error .unexpectedCharacter

/-- A comparison, with or without equality. -/
def readComparison (strict orEqual : Operator) (rest : List Unit16) :
    Except Failure (Token D × List Unit16) :=
  if rest.head? = some '='.toNat then .ok (.binaryOperator orEqual, rest.tail)
  else .ok (.binaryOperator strict, rest)

/-- An operator or the end of a group after an operand. -/
def readBinary (c : Unit16) (rest : List Unit16) : Except Failure (Token D × List Unit16) :=
  if c = '+'.toNat then .ok (.binaryOperator .add, rest)
  else if c = '-'.toNat then .ok (.binaryOperator .subtract, rest)
  else if c = '*'.toNat then .ok (.binaryOperator .multiply, rest)
  else if c = '/'.toNat then .ok (.binaryOperator .divide, rest)
  else if c = '%'.toNat then .ok (.binaryOperator .modulo, rest)
  else if c = '='.toNat then readSecond '=' .equalTo rest
  else if c = '!'.toNat then readSecond '=' .notEqualTo rest
  else if c = '>'.toNat then readComparison .greaterThan .greaterThanOrEqualTo rest
  else if c = '<'.toNat then readComparison .lessThan .lessThanOrEqualTo rest
  else if c = '&'.toNat then readSecond '&' .and rest
  else if c = '|'.toNat then readSecond '|' .or rest
  else if c = ')'.toNat then .ok (.endGroup, rest)
  else .error .unexpectedCharacter

/-- The next token, whose first character is `c`. -/
def readToken (unary : Bool) (c : Unit16) (rest : List Unit16) (buffer : List Unit16) :
    Except Failure (Token D × Source) :=
  if c = 'n'.toNat then readKeywordOrVariable lib nullKeyword .null ⟨c :: rest, buffer⟩
  else if c = '"'.toNat ∨ c = '\''.toNat then
    match readString lib c rest with
    | .ok (value, rest') => .ok (.literal (.string value), ⟨rest', buffer⟩)
    | .error failure => .error failure
  else if lib.isDigit c then
    match numberValue lib ((c :: rest).takeWhile (isNumberChar lib)) with
    | .ok value => .ok (.literal value, ⟨(c :: rest).dropWhile (isNumberChar lib), buffer⟩)
    | .error failure => .error failure
  else if c = 't'.toNat then
    readKeywordOrVariable lib trueKeyword (.bool true) ⟨c :: rest, buffer⟩
  else if c = 'f'.toNat then
    readKeywordOrVariable lib falseKeyword (.bool false) ⟨c :: rest, buffer⟩
  else if lib.isJavaIdentifierStart c then readVariable lib ⟨c :: rest, buffer⟩
  else
    match (if unary then readUnary c rest else readBinary c rest) with
    | .ok (token, rest') => .ok (token, ⟨rest', buffer⟩)
    | .error failure => .error failure

/-! ## Postfix order -/

/-- The postfix list so far and the stack of operators, its top first. -/
structure Yard (D : Type) where
  tokens : List (Token D)
  stack : List (Token D)
  deriving DecidableEq

namespace Token

/-- The operator a token stands for. -/
def operator? : Token D → Option Operator
  | .unaryOperator op => some op
  | .binaryOperator op => some op
  | _ => none

/-- An operator of the stack that gives way to one of priority `priority`. -/
def yields (priority : Nat) (t : Token D) : Bool :=
  match t.operator? with
  | some op => decide (priority ≤ op.priority) && decide (op.priority ≠ Operator.maxPriority)
  | none => false

/-- Whether an operand is expected after a token. -/
def expectsOperand : Token D → Bool
  | .literal _ | .var _ | .endGroup => false
  | _ => true

end Token

/-- The operators up to the beginning of the group are popped. -/
def popGroup : List (Token D) → List (Token D) → Except Failure (Yard D)
  | _, [] => .error .noSuchElement
  | tokens, t :: stack =>
    match t with
    | .beginGroup => .ok ⟨tokens, stack⟩
    | _ => popGroup (tokens ++ [t]) stack

/-- An operator comes in: those that give way to it are popped first. -/
def Yard.pushOperator (y : Yard D) (t : Token D) (operator : Operator) : Yard D :=
  ⟨y.tokens ++ y.stack.takeWhile (Token.yields operator.priority),
    t :: y.stack.dropWhile (Token.yields operator.priority)⟩

/-- One token of the shunting yard. -/
def Yard.process (y : Yard D) : Token D → Except Failure (Yard D)
  | .literal value => .ok { y with tokens := y.tokens ++ [.literal value] }
  | .var keyPath => .ok { y with tokens := y.tokens ++ [.var keyPath] }
  | .unaryOperator operator => .ok (y.pushOperator (.unaryOperator operator) operator)
  | .binaryOperator operator => .ok (y.pushOperator (.binaryOperator operator) operator)
  | .beginGroup => .ok { y with stack := .beginGroup :: y.stack }
  | .endGroup => popGroup y.tokens y.stack

/-- A round may push back a character that was not there. -/
def tokenizeLoop : Nat → Bool → Source → Yard D → Except Failure (List (Token D))
  | 0, _, _, _ => .error .unexpectedCharacter
  | fuel + 1, unary, s, y =>
    match s.input.dropWhile lib.isWhitespace with
    | [] => .ok (y.tokens ++ y.stack)
    | c :: rest =>
      match readToken lib unary c rest s.buffer with
      | .error failure => .error failure
      | .ok (token, s₁) =>
        match y.process token with
        | .error failure => .error failure
        | .ok y₁ => tokenizeLoop fuel token.expectsOperand s₁ y₁

/-- `tokenize`, with a new buffer of `PUSHBACK_BUFFER_SIZE` characters. -/
def tokenize (text : List Unit16) : Except Failure (List (Token D)) :=
  tokenizeLoop lib (2 * text.length + 2) true ⟨text, List.replicate 6 0⟩ ⟨[], []⟩

/-! ## Trees -/

/-- One token of the postfix list. -/
def build : Token D → List (Expression D) → Except Failure (List (Expression D))
  | .literal value, stack => .ok (.literal value :: stack)
  | .var keyPath, stack => .ok (.var keyPath :: stack)
  | .unaryOperator operator, operand :: stack =>
    if operator.isUnary then .ok (.unary operator operand :: stack)
    else .error .unsupportedOperation
  | .unaryOperator _, [] => .error .noSuchElement
  | .binaryOperator operator, right :: left :: stack =>
    if operator.isUnary then .error .unsupportedOperation
    else .ok (.binary operator left right :: stack)
  | .binaryOperator _, _ => .error .noSuchElement
  | .beginGroup, _ => .error .unsupportedOperation
  | .endGroup, _ => .error .unsupportedOperation

/-- The loop of `parse` over the postfix list. -/
def buildAll : List (Token D) → List (Expression D) → Except Failure (List (Expression D))
  | [], stack => .ok stack
  | t :: rest, stack =>
    match build t stack with
    | .ok stack₁ => buildAll rest stack₁
    | .error failure => .error failure

/-- The tree of a postfix list. -/
def buildTree (tokens : List (Token D)) : Except Failure (Expression D) :=
  match buildAll tokens [] with
  | .ok [expression] => .ok expression
  | .ok _ => .error .invalidExpression
  | .error failure => .error failure

/-- `Expression.valueOf`. -/
def valueOf (text : List Unit16) : Except Failure (Expression D) :=
  match tokenize lib text with
  | .ok tokens => buildTree tokens
  | .error failure => .error failure

end OpenJfx.Fxml
