/-
  OpenJfx.Input.KeyCombination

  The names of key combinations: how a `KeyCharacterCombination` is written out, and how
  `valueOf` splits a text into tokens and reads them.
-/

import OpenJfx.Network.Cookie

namespace OpenJfx.Input.KeyCombination

open List
open Network (Text text Ascii asciiLower)

/-! ## Combinations -/

/-- `KeyCombination.ModifierValue`. -/
inductive ModifierValue where
  | down
  | up
  | any
  deriving DecidableEq

/-- The key of a modifier. -/
inductive ModifierKey where
  | shift
  | control
  | alt
  | meta_
  | shortcut
  deriving DecidableEq

def ModifierKey.getName : ModifierKey → Text
  | shift => text ['S', 'h', 'i', 'f', 't']
  | control => text ['C', 't', 'r', 'l']
  | alt => text ['A', 'l', 't']
  | meta_ => text ['M', 'e', 't', 'a']
  | shortcut => text ['S', 'h', 'o', 'r', 't', 'c', 'u', 't']

/-- `KeyCombination.Modifier`. -/
structure Modifier where
  key : ModifierKey
  value : ModifierValue
  deriving DecidableEq

def ignore : Text := text ['I', 'g', 'n', 'o', 'r', 'e']

def Modifier.toString (m : Modifier) : Text :=
  (if m.value = .any then ignore ++ text [' '] else []) ++ m.key.getName

/-- `POSSIBLE_MODIFIERS`. -/
def possibleModifiers : List Modifier :=
  [ModifierKey.shift, .control, .alt, .meta_, .shortcut].flatMap fun key =>
    [⟨key, .down⟩, ⟨key, .any⟩]

/-- The five modifiers of a combination. -/
structure Modifiers where
  shift : ModifierValue
  control : ModifierValue
  alt : ModifierValue
  meta_ : ModifierValue
  shortcut : ModifierValue
  deriving DecidableEq

/-- `KeyCodeCombination` and `KeyCharacterCombination`. -/
inductive Combination (K : Type) where
  | keyCode (code : K) (modifiers : Modifiers)
  | keyCharacter (character : Text) (modifiers : Modifiers)
  deriving DecidableEq

/-- What `valueOf` throws. -/
inductive Failure where
  | illegalArgument (message : Text)
  | stringIndexOutOfBounds
  deriving DecidableEq

/-! ## Writing -/

def quote : Nat := '\''.toNat
def backslash : Nat := '\\'.toNat
def plus : Nat := '+'.toNat

/-- A modifier that is up leaves no trace. -/
def addModifierIntoString (sb : Text) (modifierKey : ModifierKey)
    (modifierValue : ModifierValue) : Text :=
  if modifierValue = .up then sb
  else (if sb.length > 0 then sb ++ [plus] else sb) ++
    Modifier.toString ⟨modifierKey, modifierValue⟩

def addModifiersIntoString (m : Modifiers) : Text :=
  let sb := addModifierIntoString [] .shift m.shift
  let sb := addModifierIntoString sb .control m.control
  let sb := addModifierIntoString sb .alt m.alt
  let sb := addModifierIntoString sb .meta_ m.meta_
  addModifierIntoString sb .shortcut m.shortcut

/-- `replace("'", "\\'")`. -/
def escape (character : Text) : Text :=
  character.flatMap fun c => if c = quote then [backslash, quote] else [c]

/-- `KeyCharacterCombination.getName`. -/
def getName (character : Text) (m : Modifiers) : Text :=
  let sb := addModifiersIntoString m
  (if sb.length > 0 then sb ++ [plus] else sb) ++ quote :: (escape character ++ [quote])

/-! ## Splitting -/

/-- The state of the loop in `splitName`. -/
inductive State where
  | basic
  | whitespace
  | separator
  | quoted
  deriving DecidableEq

/-- The local variables of the loop of `splitName`. -/
structure Splitting where
  state : State
  tokenStart : Nat
  tokenEnd : Int
  tokens : List Text

/-- A blank, or a control character from tab to return. -/
def isWhitespace (c : Nat) : Bool :=
  c = 32 || 9 ≤ c && c ≤ 13

def cannotParse (value : Text) : Failure :=
  .illegalArgument (text "Cannot parse key binding ".toList ++ value)

/-- The body of the loop, at `chars[i] = c`. -/
def splitStep (name chars : Text) (i c : Nat) (s : Splitting) : Except Failure Splitting :=
  match s.state with
  | .basic =>
    if isWhitespace c then .ok { s with tokenEnd := i, state := .whitespace }
    else if c = plus then .ok { s with tokenEnd := i, state := .separator }
    else if c = quote ∧ (i = 0 ∨ chars[i - 1]? ≠ some backslash) then
      .ok { s with state := .quoted }
    else .ok s
  | .whitespace =>
    if isWhitespace c then .ok s
    else if c = plus then .ok { s with state := .separator }
    else .ok { s with state := if c = quote then .quoted else .basic, tokenEnd := -1 }
  | .separator =>
    if isWhitespace c then .ok s
    else if c = plus ∨ s.tokenEnd ≤ s.tokenStart then .error (cannotParse name)
    else .ok {
      state := if c = quote then .quoted else .basic
      tokenStart := i
      tokenEnd := -1
      tokens := s.tokens ++ [(chars.drop s.tokenStart).take (s.tokenEnd - s.tokenStart).toNat] }
  | .quoted =>
    if c = quote ∧ chars[i - 1]? ≠ some backslash then .ok { s with state := .basic } else .ok s

def splitLoop (name chars : Text) : Nat → Text → Splitting → Except Failure Splitting
  | _, [], s => .ok s
  | i, c :: rest, s => splitStep name chars i c s >>= splitLoop name chars (i + 1) rest

/-- After the loop, the last token. -/
def splitEnd (name chars : Text) (s : Splitting) : Except Failure (List Text) :=
  match s.state with
  | .basic | .whitespace => .ok (s.tokens ++ [chars.drop s.tokenStart])
  | .separator | .quoted => .error (cannotParse name)

/-- `String.trim`. -/
def trim (t : Text) : Text :=
  ((t.dropWhile (· ≤ 32)).reverse.dropWhile (· ≤ 32)).reverse

/-- The tokens of a name. -/
def splitName (name : Text) : Except Failure (List Text) :=
  splitLoop name (trim name) 0 (trim name) ⟨.basic, 0, -1, []⟩ >>= splitEnd name (trim name)

/-! ## Reading -/

def asciiUpper (c : Nat) : Nat := if 97 ≤ c ∧ c ≤ 122 then c - 32 else c

/-- The cases of the root locale, and the table of the key codes. -/
structure Library (K : Type) where
  toUpperCase : Text → Text
  toLowerCase : Text → Text
  getKeyCode : Text → Option K
  getName : K → Text
  isUndefined : K → Bool
  toUpperCase_ascii : ∀ t, Ascii t → toUpperCase t = t.map asciiUpper
  toLowerCase_ascii : ∀ t, Ascii t → toLowerCase t = t.map asciiLower

/-- `split("\\s+")`: an empty text is one word, and one before leading white space is kept. -/
def splitWords (token : Text) : List Text :=
  let words := (token.splitOnP isWhitespace).filter (· ≠ [])
  if token = [] ∨ words ≠ [] ∧ token.head?.any isWhitespace then [] :: words else words

section Reading

variable {K : Type} (lib : Library K)

def appendWord (sb : Text) : Text → Except Failure Text
  | [] => .error .stringIndexOutOfBounds
  | c :: word => .ok ((if sb.length > 0 then sb ++ text [' '] else sb) ++ lib.toUpperCase [c] ++
      lib.toLowerCase word)

/-- Each word with its first letter in upper case. -/
def normalizeToken (token : Text) : Except Failure Text :=
  (splitWords token).foldlM (appendWord lib) []

/-- By the name that `toString` gives. -/
def getModifier (name : Text) : Option Modifier :=
  possibleModifiers.find? fun modifier => modifier.toString = name

/-- A key that is given twice throws. -/
def getModifierValue (modifierKey : ModifierKey) :
    List Modifier → ModifierValue → Except Failure ModifierValue
  | [], modifierValue => .ok modifierValue
  | modifier :: modifiers, modifierValue =>
    if modifier.key = modifierKey then
      if modifierValue ≠ .up then
        .error (.illegalArgument (text (if modifier.value ≠ modifierValue
          then "Conflicting modifiers specified!" else "Duplicate modifiers specified!").toList))
      else getModifierValue modifierKey modifiers modifier.value
    else getModifierValue modifierKey modifiers modifierValue

/-- The constructor of a combination. -/
def newModifiers (modifiers : List Modifier) : Except Failure Modifiers := do
  let shift ← getModifierValue .shift modifiers .up
  let control ← getModifierValue .control modifiers .up
  let alt ← getModifierValue .alt modifiers .up
  let meta_ ← getModifierValue .meta_ modifiers .up
  let shortcut ← getModifierValue .shortcut modifiers .up
  return ⟨shift, control, alt, meta_, shortcut⟩

def validateKeyCode (code : K) : Except Failure Unit :=
  if getModifier (lib.getName code) ≠ none then
    .error (.illegalArgument (text "Key code must not match modifier key!".toList))
  else if lib.isUndefined code then
    .error (.illegalArgument (text "Key code must differ from undefined value!".toList))
  else .ok ()

/-- `replace("\\'", "'")`. -/
def unescape : Text → Text
  | [] => []
  | [c] => [c]
  | c :: d :: t => if c = backslash ∧ d = quote then quote :: unescape t else c :: unescape (d :: t)

/-- The local variables of the loop of `valueOf`. -/
structure Reading (K : Type) where
  modifiers : List Modifier
  keyCode : Option K
  keyCharacter : Option Text

/-- A modifier, a quoted character or a key. -/
def readToken (value : Text) (r : Reading K) (token : Text) : Except Failure (Reading K) :=
  if token.length > 2 ∧ token.head? = some quote ∧ token.getLast? = some quote then
    if r.keyCode.isSome ∨ r.keyCharacter.isSome then .error (cannotParse value)
    else .ok { r with keyCharacter := some (unescape token.tail.dropLast) }
  else normalizeToken lib token >>= fun normalizedToken =>
    match getModifier normalizedToken with
    | some modifier => .ok { r with modifiers := r.modifiers ++ [modifier] }
    | none =>
      if r.keyCode.isSome ∨ r.keyCharacter.isSome then .error (cannotParse value)
      else match lib.getKeyCode normalizedToken with
        | some code => .ok { r with keyCode := some code }
        | none => .ok { r with keyCharacter := some token }

/-- Exactly one key is wanted. -/
def newCombination (value : Text) (r : Reading K) : Except Failure (Combination K) :=
  match r.keyCode, r.keyCharacter with
  | none, none => .error (cannotParse value)
  | some code, _ => do
    let m ← newModifiers r.modifiers
    validateKeyCode lib code
    return .keyCode code m
  | none, some character => return .keyCharacter character (← newModifiers r.modifiers)

/-- `KeyCombination.valueOf`. -/
def valueOf (value : Text) : Except Failure (Combination K) := do
  let tokens ← splitName value
  let r ← tokens.foldlM (readToken lib value) ⟨[], none, none⟩
  newCombination lib value r

end Reading

/-! ## The exceptions of `valueOf` -/

section Exceptions

variable {α β K : Type} {lib : Library K} {name chars rest t : Text} {i c : Nat} {s : Splitting}

/-- The call returns a result with `P`, or throws an `IllegalArgumentException`. -/
def Safe (P : α → Prop) : Except Failure α → Prop
  | .ok a => P a
  | .error e => e ≠ .stringIndexOutOfBounds

theorem Safe.bind {P : α → Prop} {Q : β → Prop} {x : Except Failure α} {f : α → Except Failure β}
    (hx : Safe P x) (hf : ∀ a, P a → Safe Q (f a)) : Safe Q (x >>= f) := by
  cases x with
  | error e => exact hx
  | ok a => exact hf a hx

theorem Safe.foldlM {f : β → α → Except Failure β} {l : List α}
    (h : ∀ a ∈ l, ∀ b, Safe (fun _ => True) (f b a)) (b : β) :
    Safe (fun _ => True) (l.foldlM f b) := by
  induction l generalizing b with
  | nil => trivial
  | cons a l ih =>
    obtain ⟨ha, hl⟩ := forall_mem_cons.mp h
    exact (ha b).bind fun b' _ => ih hl b'

/-- The text begins with a character that is not white space. -/
def Solid (t : Text) : Prop := ∃ c t', t = c :: t' ∧ isWhitespace c = false

/-- The parts found so far have no bounding whitespace. -/
structure Splits (chars : Text) (s : Splitting) : Prop where
  tokens : ∀ t ∈ s.tokens, Solid t
  token : Solid (chars.drop s.tokenStart)

theorem Splits.step (h : Splits chars s) (hrest : chars.drop i = c :: rest) :
    Safe (Splits chars) (splitStep name chars i c s) := by
  unfold splitStep
  cases s.state with
  | separator =>
    dsimp only
    by_cases hws : isWhitespace c = true
    · rwa [if_pos hws]
    rw [if_neg hws]
    by_cases hend : c = plus ∨ s.tokenEnd ≤ s.tokenStart
    · rw [if_pos hend]
      nofun
    · rw [if_neg hend]
      refine ⟨fun t ht => ?_, ⟨c, rest, hrest, eq_false_of_ne_true hws⟩⟩
      rcases mem_append.mp ht with ht | ht
      · exact h.tokens t ht
      · obtain ⟨d, u, hd, hdws⟩ := h.token
        obtain ⟨n, hn⟩ : ∃ n, (s.tokenEnd - s.tokenStart).toNat = n + 1 :=
          ⟨(s.tokenEnd - s.tokenStart).toNat - 1, by omega⟩
        rw [mem_singleton.mp ht, hd, hn, take_succ_cons]
        exact ⟨d, _, rfl, hdws⟩
  | _ =>
    dsimp only
    split_ifs <;> exact ⟨h.tokens, h.token⟩

theorem Splits.loop (h : Splits chars s) (hrest : chars.drop i = rest) :
    Safe (Splits chars) (splitLoop name chars i rest s) := by
  induction rest generalizing i s with
  | nil => exact h
  | cons c rest ih =>
    refine (h.step hrest).bind fun s' h' => ih h' ?_
    rw [← drop_drop, hrest, drop_one, tail_cons]

theorem solid_trim (h : trim t ≠ []) : Solid (trim t) := by
  obtain ⟨c, u, hu⟩ := exists_cons_of_ne_nil h
  obtain ⟨w, hw⟩ : trim t <+: t.dropWhile (· ≤ 32) := by
    rw [trim, ← reverse_suffix, reverse_reverse]
    exact dropWhile_suffix _
  have hhead := head?_dropWhile_not (fun c : Nat => decide (c ≤ 32)) t
  rw [← hw, hu] at hhead
  refine ⟨c, u, hu, ?_⟩
  have hc : ¬ c ≤ 32 := of_decide_eq_false hhead
  simp only [isWhitespace, Bool.or_eq_false_iff, Bool.and_eq_false_iff, decide_eq_false_iff_not]
  omega

theorem splitName_safe (h : trim name ≠ []) :
    Safe (fun tokens => ∀ t ∈ tokens, Solid t) (splitName name) := by
  have hs : Splits (trim name) ⟨.basic, 0, -1, []⟩ := ⟨nofun, solid_trim h⟩
  refine (hs.loop rfl).bind fun s h => ?_
  have htokens : ∀ t ∈ s.tokens ++ [(trim name).drop s.tokenStart], Solid t := fun t ht =>
    (mem_append.mp ht).elim (h.tokens t) fun ht => mem_singleton.mp ht ▸ h.token
  unfold splitEnd
  cases s.state with
  | basic => exact htokens
  | whitespace => exact htokens
  | separator => nofun
  | quoted => nofun

theorem normalizeToken_safe (h : Solid t) : Safe (fun _ => True) (normalizeToken lib t) := by
  obtain ⟨c, u, rfl, hc⟩ := h
  rw [normalizeToken, splitWords, if_neg (by simp [hc])]
  refine Safe.foldlM (fun w hw sb => ?_) []
  obtain ⟨d, w, rfl⟩ := exists_cons_of_ne_nil (of_decide_eq_true (mem_filter.mp hw).2)
  trivial

theorem readToken_safe (h : Solid t) (value : Text) (r : Reading K) :
    Safe (fun _ => True) (readToken lib value r t) := by
  have htoken : ∀ {p : Prop} [Decidable p] {x : Except Failure (Reading K)},
      Safe (fun _ => True) x →
      Safe (fun _ => True) (if p then .error (cannotParse value) else x) := by
    intro p _ x hx
    split
    · nofun
    · exact hx
  rw [readToken]
  split
  · exact htoken trivial
  · refine (normalizeToken_safe h).bind fun t' _ => ?_
    cases getModifier t' with
    | some modifier => trivial
    | none =>
      refine htoken ?_
      cases lib.getKeyCode t' <;> trivial

theorem getModifierValue_safe (key : ModifierKey) (modifiers : List Modifier)
    (v : ModifierValue) : Safe (fun _ => True) (getModifierValue key modifiers v) := by
  induction modifiers generalizing v with
  | nil => trivial
  | cons modifier modifiers ih =>
    rw [getModifierValue]
    split
    · split
      · nofun
      · exact ih _
    · exact ih _

theorem newModifiers_safe (modifiers : List Modifier) :
    Safe (fun _ => True) (newModifiers modifiers) :=
  have hkey := fun key => getModifierValue_safe key modifiers .up
  (hkey _).bind fun _ _ => (hkey _).bind fun _ _ => (hkey _).bind fun _ _ =>
    (hkey _).bind fun _ _ => (hkey _).bind fun _ _ => trivial

theorem newCombination_safe (value : Text) (r : Reading K) :
    Safe (fun _ => True) (newCombination lib value r) := by
  have hvalid : ∀ code, Safe (fun _ => True) (validateKeyCode lib code) := fun code => by
    rw [validateKeyCode]
    split
    · nofun
    · split
      · nofun
      · trivial
  obtain ⟨modifiers, keyCode, keyCharacter⟩ := r
  cases keyCode with
  | some code => exact (newModifiers_safe _).bind fun m _ => (hvalid code).bind fun _ _ => trivial
  | none =>
    cases keyCharacter with
    | none => nofun
    | some character => exact (newModifiers_safe _).bind fun _ _ => trivial

/-- Only a blank text has a token in which no first character is found. -/
theorem valueOf_safe_iff (lib : Library K) (value : Text) :
    Safe (fun _ => True) (valueOf lib value) ↔ trim value ≠ [] := by
  constructor
  · intro h htrim
    rw [valueOf, splitName, htrim] at h
    exact h rfl
  · intro h
    exact (splitName_safe h).bind fun tokens hsolid =>
      (Safe.foldlM (fun t ht r => readToken_safe (hsolid t ht) value r) _).bind fun r _ =>
        newCombination_safe value r

end Exceptions

/-! ## Reading a name that was written -/

/-- What `getName` shows of a modifier. -/
def shownModifier (key : ModifierKey) (value : ModifierValue) : List Modifier :=
  if value = .up then [] else [⟨key, value⟩]

/-- The modifiers that are written out. -/
def shown (m : Modifiers) : List Modifier :=
  shownModifier .shift m.shift ++ (shownModifier .control m.control ++
    (shownModifier .alt m.alt ++ (shownModifier .meta_ m.meta_ ++
      shownModifier .shortcut m.shortcut)))

/-- The tokens of modifiers, each with the plus sign behind it. -/
def written (ms : List Modifier) : Text :=
  ms.flatMap fun modifier => modifier.toString ++ [plus]

def quotedToken (character : Text) : Text :=
  quote :: (escape character ++ [quote])

section Names

variable {K : Type} {lib : Library K} {name chars rest w : Text} {i c : Nat} {s : Splitting}
  {tokens : List Text} {ms : List Modifier}

/-- A text to which the next token is appended. -/
def separated (sb : Text) : Text :=
  if sb.length > 0 then sb ++ [plus] else sb

def Plain (c : Nat) : Prop :=
  isWhitespace c = false ∧ c ≠ plus ∧ c ≠ quote

instance (c : Nat) : Decidable (Plain c) :=
  inferInstanceAs (Decidable (_ ∧ _))

/-- A modifier's token: plain characters, with a space between two words at most. -/
theorem toString_words (modifier : Modifier) :
    ∃ c w, modifier.toString = c :: w ∧ 32 < c ∧ Plain c ∧ ((∀ d ∈ w, Plain d) ∨
      ∃ w₁ d w₂, w = w₁ ++ 32 :: d :: w₂ ∧ Plain d ∧ (∀ d ∈ w₁, Plain d) ∧ ∀ d ∈ w₂, Plain d) := by
  obtain ⟨key, value⟩ := modifier
  have hkey : ∃ c w, key.getName = c :: w ∧ 32 < c ∧ Plain c ∧ ∀ d ∈ w, Plain d := by
    cases key <;> exact ⟨_, _, rfl, by decide, by decide, by decide⟩
  obtain ⟨c, w, hname, hlt, hc, hw⟩ := hkey
  by_cases hany : value = .any
  · refine ⟨_, _, by rw [Modifier.toString, if_pos hany, hname]; rfl, by decide, by decide,
      .inr ⟨text ['g', 'n', 'o', 'r', 'e'], c, w, rfl, hc, by decide, hw⟩⟩
  · exact ⟨c, w, by rw [Modifier.toString, if_neg hany, nil_append, hname], hlt, hc, .inl hw⟩

theorem separated_addModifier (sb : Text) (key : ModifierKey) (value : ModifierValue) :
    separated (addModifierIntoString sb key value) =
      separated sb ++ written (shownModifier key value) := by
  rw [addModifierIntoString, shownModifier]
  split
  · exact (append_nil _).symm
  · obtain ⟨c, w, hw, -⟩ := toString_words ⟨key, value⟩
    change separated (separated sb ++ _) = _
    rw [separated, if_pos (by rw [hw, length_append, length_cons]; omega), append_assoc]
    simp [written]

theorem getName_eq (character : Text) (m : Modifiers) :
    getName character m = written (shown m) ++ quotedToken character := by
  change separated (addModifiersIntoString m) ++ _ = _
  simp only [addModifiersIntoString, separated_addModifier, shown, written, flatMap_append,
    append_assoc]
  rfl

theorem trim_getName (character : Text) (m : Modifiers) :
    trim (getName character m) = getName character m := by
  have hhead : ∃ c w, getName character m = c :: w ∧ ¬ c ≤ 32 := by
    rw [getName_eq]
    cases shown m with
    | nil => exact ⟨quote, _, rfl, by decide⟩
    | cons modifier ms =>
      obtain ⟨c, w, hw, hlt, -⟩ := toString_words modifier
      exact ⟨c, _, by rw [written, flatMap_cons, hw]; rfl, Nat.not_le.mpr hlt⟩
  have hlast : (getName character m).reverse =
      quote :: (written (shown m) ++ quote :: escape character).reverse := by
    rw [getName_eq, quotedToken]
    simp
  obtain ⟨c, w, hw, hc⟩ := hhead
  rw [trim, hw, dropWhile_cons_of_neg (by simpa using hc), ← hw, hlast,
    dropWhile_cons_of_neg (by decide), ← hlast, reverse_reverse]

/-! ## Splitting a name that was written -/

theorem splitLoop_plain (hs : s.state = .basic) (hw : ∀ d ∈ w, Plain d) :
    splitLoop name chars i (w ++ rest) s = splitLoop name chars (i + w.length) rest s := by
  induction w generalizing i with
  | nil => rfl
  | cons d w ih =>
    obtain ⟨⟨h1, h2, h3⟩, hw⟩ := forall_mem_cons.mp hw
    have hstep : splitStep name chars i d s = .ok s := by
      rw [splitStep, hs]
      simp [h1, h2, h3]
    rw [cons_append, splitLoop, hstep, length_cons, Nat.add_comm w.length, ← Nat.add_assoc]
    exact ih hw

theorem splitLoop_space (hs : s.state = .basic) (hend : s.tokenEnd = -1) (hc : Plain c) :
    splitLoop name chars i (32 :: c :: rest) s = splitLoop name chars (i + 2) rest s := by
  obtain ⟨state, tokenStart, tokenEnd, tokens⟩ := s
  obtain rfl : state = .basic := hs
  obtain rfl : tokenEnd = -1 := hend
  obtain ⟨h1, h2, h3⟩ := hc
  have hstep : splitStep name chars (i + 1) c ⟨.whitespace, tokenStart, i, tokens⟩ =
      .ok ⟨.basic, tokenStart, -1, tokens⟩ := by
    simp [splitStep, h1, h2, h3]
  change splitStep name chars (i + 1) c _ >>= _ = _
  rw [hstep]
  rfl

/-- Whatever comes now begins the next token. -/
def Ready (name chars : Text) (i : Nat) (tokens : List Text) (s : Splitting) : Prop :=
  ∀ c, isWhitespace c = false → c ≠ plus → splitStep name chars i c s =
    .ok ⟨if c = quote then .quoted else .basic, i, -1, tokens⟩

theorem ready_zero : Ready name chars 0 [] ⟨.basic, 0, -1, []⟩ := by
  intro c h1 h2
  by_cases hc : c = quote
  · rw [hc]
    rfl
  · simp [splitStep, h1, h2, hc]

theorem Ready.modifier (h : Ready name chars i tokens s) {modifier : Modifier}
    (hchars : chars.drop i = modifier.toString ++ plus :: rest) :
    ∃ s', splitLoop name chars i (modifier.toString ++ plus :: rest) s =
        splitLoop name chars (i + modifier.toString.length + 1) rest s' ∧
      Ready name chars (i + modifier.toString.length + 1) (tokens ++ [modifier.toString]) s' := by
  obtain ⟨c, w, hw, -, hc, hwords⟩ := toString_words modifier
  have hword : splitLoop name chars (i + 1) (w ++ plus :: rest) ⟨.basic, i, -1, tokens⟩ =
      splitLoop name chars (i + modifier.toString.length) (plus :: rest)
        ⟨.basic, i, -1, tokens⟩ := by
    rw [hw, length_cons]
    rcases hwords with hplain | ⟨w₁, d, w₂, rfl, hd, h1, h2⟩
    · rw [splitLoop_plain rfl hplain]
      congr 1
      omega
    · rw [append_assoc, splitLoop_plain rfl h1, cons_append, cons_append,
        splitLoop_space rfl rfl hd, splitLoop_plain rfl h2, length_append, length_cons, length_cons]
      congr 1
      omega
  refine ⟨⟨.separator, i, (i + modifier.toString.length : Nat), tokens⟩, ?_, fun d h1 h2 => ?_⟩
  · have hstep := h c hc.1 hc.2.1
    rw [if_neg hc.2.2] at hstep
    rw [hw, cons_append, splitLoop, hstep, ← hw]
    exact hword
  · have hpos : 0 < modifier.toString.length := by rw [hw]; exact Nat.succ_pos _
    have htoken : (chars.drop i).take (((i + modifier.toString.length : Nat) : Int) - i).toNat =
        modifier.toString := by
      rw [hchars, show (((i + modifier.toString.length : Nat) : Int) - i).toNat =
        modifier.toString.length by omega, take_left]
    rw [splitStep]
    dsimp only
    rw [if_neg (by rw [h1]; decide), if_neg (by omega), htoken]

theorem Ready.modifiers (h : Ready name chars i tokens s)
    (hchars : chars.drop i = written ms ++ rest) :
    ∃ i' s', splitLoop name chars i (written ms ++ rest) s = splitLoop name chars i' rest s' ∧
      Ready name chars i' (tokens ++ ms.map Modifier.toString) s' ∧ chars.drop i' = rest := by
  induction ms generalizing i s tokens with
  | nil => exact ⟨i, s, rfl, by rwa [map_nil, append_nil], hchars⟩
  | cons modifier ms ih =>
    have hsplit : written (modifier :: ms) ++ rest =
        modifier.toString ++ plus :: (written ms ++ rest) := by
      simp [written]
    rw [hsplit] at hchars ⊢
    obtain ⟨s', hs', h'⟩ := h.modifier hchars
    have hdrop : chars.drop (i + modifier.toString.length + 1) = written ms ++ rest := by
      rw [Nat.add_assoc, ← drop_drop, hchars, drop_length_add_append]
      rfl
    rw [hs', map_cons, append_cons]
    exact ih h' hdrop

theorem splitLoop_escape (hs : s.state = .quoted) (hchars : chars.drop i = escape w ++ rest) :
    splitLoop name chars i (escape w ++ rest) s =
      splitLoop name chars (i + (escape w).length) rest s := by
  induction w generalizing i with
  | nil => rfl
  | cons c w ih =>
    have hskip : ∀ (j d : Nat), d ≠ quote → splitStep name chars j d s = .ok s := by
      intro j d hd
      simp [splitStep, hs, hd]
    by_cases hc : c = quote
    · have hesc : escape (c :: w) = backslash :: quote :: escape w := by simp [escape, hc]
      rw [hesc] at hchars ⊢
      have hprev : chars[i]? = some backslash := by
        rw [← Nat.add_zero i, ← getElem?_drop, hchars]
        rfl
      have hquote : splitStep name chars (i + 1) quote s = .ok s := by
        simp [splitStep, hs, hprev]
      rw [cons_append, cons_append, splitLoop, hskip i _ (by decide)]
      change splitStep name chars (i + 1) quote s >>= _ = _
      rw [hquote]
      refine (ih (i := i + 1 + 1) (by rw [Nat.add_assoc, ← drop_drop, hchars]; rfl)).trans ?_
      rw [length_cons, length_cons]
      congr 1
      omega
    · have hesc : escape (c :: w) = c :: escape w := by simp [escape, hc]
      rw [hesc] at hchars ⊢
      rw [cons_append, splitLoop, hskip i c hc]
      refine (ih (by rw [← drop_drop, hchars]; rfl)).trans ?_
      rw [length_cons]
      congr 1
      omega

theorem getLast?_escape (character : Text) :
    (quote :: escape character).getLast? = some backslash ↔
      character.getLast? = some backslash := by
  rcases eq_nil_or_concat' character with rfl | ⟨t, c, rfl⟩
  · exact ⟨fun h => absurd h (by decide), nofun⟩
  · rw [escape, flatMap_append, getLast?_concat]
    by_cases hc : c = quote
    · simp [hc, getLast?_cons]
    · simp [hc, getLast?_cons]

/-- The last token is read to its end, unless the quote at the end looks escaped. -/
theorem Ready.quoted (h : Ready name chars i tokens s) {character : Text}
    (hchars : chars.drop i = quotedToken character) :
    (splitLoop name chars i (quotedToken character) s >>= splitEnd name chars) =
      if character.getLast? = some backslash then .error (cannotParse name)
      else .ok (tokens ++ [quotedToken character]) := by
  have hquote := h quote (by decide) (by decide)
  rw [if_pos rfl] at hquote
  have hlast : chars[i + 1 + (escape character).length - 1]? =
      (quote :: escape character).getLast? := by
    have hindex : i + 1 + (escape character).length - 1 = i + (escape character).length := by
      omega
    rw [hindex, ← getElem?_drop, hchars, quotedToken, ← cons_append,
      getElem?_append_left (by simp), getLast?_eq_getElem?]
    rfl
  rw [quotedToken] at hchars ⊢
  rw [splitLoop, hquote]
  change (splitLoop name chars (i + 1) (escape character ++ [quote]) _ >>= _) = _
  rw [splitLoop_escape rfl (by rw [← drop_drop, hchars]; rfl), splitLoop, splitStep]
  dsimp only
  rw [hlast]
  have hiff := getLast?_escape character
  by_cases hescaped : character.getLast? = some backslash
  · rw [if_neg (fun h => h.2 (hiff.mpr hescaped)), if_pos hescaped]
    rfl
  · rw [if_pos ⟨rfl, mt hiff.mp hescaped⟩, if_neg hescaped, ← hchars]
    rfl

theorem splitName_getName (character : Text) (m : Modifiers) :
    splitName (getName character m) =
      if character.getLast? = some backslash then .error (cannotParse (getName character m))
      else .ok ((shown m).map Modifier.toString ++ [quotedToken character]) := by
  rw [splitName, trim_getName]
  have hzero : Ready (getName character m) (getName character m) 0 [] _ := ready_zero
  obtain ⟨i, s, hs, hready, hdrop⟩ := hzero.modifiers (getName_eq character m)
  rw [getName_eq] at hs ⊢
  rw [hs]
  rw [getName_eq] at hready hdrop
  exact hready.quoted hdrop

/-! ## Reading the tokens -/

theorem unescape_escape (character : Text) : unescape (escape character) = character := by
  induction character with
  | nil => rfl
  | cons c t ih =>
    by_cases hc : c = quote
    · have hesc : escape (c :: t) = backslash :: quote :: escape t := by simp [escape, hc]
      rw [hesc, unescape, if_pos ⟨rfl, rfl⟩, ih, hc]
    · have hesc : escape (c :: t) = c :: escape t := by simp [escape, hc]
      have hhead : ∀ d u, escape t = d :: u → d ≠ quote := by
        intro d u hd
        cases t with
        | nil => cases hd
        | cons e t =>
          rw [escape, flatMap_cons] at hd
          split at hd
          · rw [← (cons.inj hd).1]
            decide
          · rw [← (cons.inj hd).1]
            assumption
      rw [hesc]
      cases hd : escape t with
      | nil => rw [← ih, hd, unescape, unescape]
      | cons d u => rw [unescape, if_neg (fun h => hhead d u hd h.2), ← hd, ih]

/-- A word that has a capital at the beginning and no other. -/
def Capitalized (word : Text) : Prop :=
  Ascii word ∧ (word.take 1).map asciiUpper = word.take 1 ∧
    (word.drop 1).map asciiLower = word.drop 1

theorem appendWord_eq (h : Capitalized (c :: w)) (sb : Text) :
    appendWord lib sb (c :: w) =
      .ok ((if sb.length > 0 then sb ++ text [' '] else sb) ++ c :: w) := by
  obtain ⟨hascii, hc, hw⟩ := h
  rw [appendWord, lib.toUpperCase_ascii [c] fun d hd => hascii d (by
    rw [mem_singleton.mp hd]; exact mem_cons_self),
    lib.toLowerCase_ascii w fun d hd => hascii d (mem_cons_of_mem _ hd)]
  have hc : [c].map asciiUpper = [c] := hc
  have hw : w.map asciiLower = w := hw
  rw [hc, hw, append_assoc]
  rfl

theorem getName_capitalized (key : ModifierKey) : Capitalized key.getName := by
  cases key <;> exact ⟨(by decide : ∀ d ∈ _, d < 128), rfl, rfl⟩

theorem normalizeToken_toString (modifier : Modifier) :
    normalizeToken lib modifier.toString = .ok modifier.toString := by
  obtain ⟨key, value⟩ := modifier
  have hname : ∃ c w, key.getName = c :: w := by cases key <;> exact ⟨_, _, rfl⟩
  obtain ⟨c, w, hw⟩ := hname
  have hkey := hw ▸ getName_capitalized key
  rw [normalizeToken]
  by_cases hany : value = .any
  · have hwords : splitWords (Modifier.toString ⟨key, value⟩) = [ignore, c :: w] := by
      rw [hany, ← hw]
      cases key <;> decide
    have hignore : appendWord lib [] ignore = .ok ignore :=
      appendWord_eq ⟨(by decide : ∀ d ∈ ignore, d < 128), rfl, rfl⟩ []
    rw [hwords, foldlM_cons, hignore]
    change (appendWord lib ignore (c :: w) >>= pure) = _
    rw [appendWord_eq hkey, Modifier.toString, if_pos hany, hw]
    rfl
  · have hwords : splitWords key.getName = [c :: w] := by
      rw [← hw]
      cases key <;> decide
    rw [Modifier.toString, if_neg hany, nil_append, hwords]
    change (appendWord lib [] (c :: w) >>= pure) = _
    rw [appendWord_eq hkey, hw]
    rfl

theorem readToken_modifier {modifier : Modifier} (hup : modifier.value ≠ .up) (value : Text)
    (r : Reading K) : readToken lib value r modifier.toString =
      .ok { r with modifiers := r.modifiers ++ [modifier] } := by
  obtain ⟨c, w, hw, -, hc, -⟩ := toString_words modifier
  have hfound : getModifier modifier.toString = some modifier := by
    obtain ⟨key, v⟩ := modifier
    cases v with
    | up => exact absurd rfl hup
    | down => cases key <;> decide
    | any => cases key <;> decide
  rw [readToken, if_neg, normalizeToken_toString]
  · change (match getModifier modifier.toString with | some modifier => _ | none => _) = _
    rw [hfound]
  · rintro ⟨-, hhead, -⟩
    rw [hw] at hhead
    exact hc.2.2 (Option.some.inj hhead)

theorem foldlM_readToken (hup : ∀ modifier ∈ ms, modifier.value ≠ .up) (value : Text)
    (r : Reading K) : (ms.map Modifier.toString).foldlM (readToken lib value) r =
      .ok { r with modifiers := r.modifiers ++ ms } := by
  induction ms generalizing r with
  | nil => rw [append_nil]; rfl
  | cons modifier ms ih =>
    obtain ⟨h1, h2⟩ := forall_mem_cons.mp hup
    rw [map_cons, foldlM_cons, readToken_modifier h1]
    refine (ih h2 _).trans ?_
    rw [append_assoc]
    rfl

theorem shown_value {m : Modifiers} : ∀ modifier ∈ shown m, modifier.value ≠ .up := by
  have hone : ∀ key value, ∀ modifier ∈ shownModifier key value, modifier.value ≠ .up := by
    intro key value modifier hmem
    rw [shownModifier] at hmem
    split at hmem
    · cases hmem
    · rw [mem_singleton.mp hmem]
      assumption
  simp only [shown, forall_mem_append]
  exact ⟨hone _ _, hone _ _, hone _ _, hone _ _, hone _ _⟩

theorem getModifierValue_skip {key key' : ModifierKey} (h : key' ≠ key) (value w : ModifierValue)
    (ms : List Modifier) :
    getModifierValue key (shownModifier key' value ++ ms) w = getModifierValue key ms w := by
  rw [shownModifier]
  split
  · rfl
  · exact if_neg h

theorem getModifierValue_shown (key : ModifierKey) (value : ModifierValue) (ms : List Modifier) :
    getModifierValue key (shownModifier key value ++ ms) .up = getModifierValue key ms value := by
  rw [shownModifier]
  split
  · next h => rw [h]; rfl
  · simp [getModifierValue]

theorem newModifiers_shown (m : Modifiers) : newModifiers (shown m) = .ok m := by
  rw [newModifiers, shown, ← append_nil (shownModifier .shortcut m.shortcut)]
  simp only [getModifierValue_shown, getModifierValue_skip, ne_eq, reduceCtorEq, not_false_eq_true,
    getModifierValue]
  rfl

/-- An empty character is read with its quotes, and a backslash at the end escapes the quote. -/
theorem valueOf_getName_iff (lib : Library K) (character : Text) (m : Modifiers) :
    valueOf lib (getName character m) = .ok (.keyCharacter character m) ↔
      character ≠ [] ∧ character.getLast? ≠ some backslash := by
  rw [valueOf, splitName_getName]
  by_cases hescaped : character.getLast? = some backslash
  · rw [if_pos hescaped]
    exact ⟨nofun, fun h => absurd hescaped h.2⟩
  rw [if_neg hescaped]
  change ((_ ++ [_]).foldlM (readToken lib _) _ >>= newCombination lib _) = _ ↔ _
  rw [foldlM_append, foldlM_readToken shown_value]
  change (readToken lib _ ⟨shown m, none, none⟩ (quotedToken character) >>= pure >>=
    newCombination lib _) = _ ↔ _
  rw [bind_pure, readToken]
  by_cases hnil : character = []
  · refine ⟨fun h => ?_, fun h => absurd hnil h.1⟩
    have hnormal : normalizeToken lib [quote, quote] = .ok [quote, quote] :=
      congrArg (· >>= pure)
        (appendWord_eq ⟨(by decide : ∀ d ∈ [quote, quote], d < 128), rfl, rfl⟩ [])
    rw [hnil, if_neg (by decide)] at h
    change ((normalizeToken lib [quote, quote] >>= _) >>= _) = _ at h
    rw [hnormal] at h
    change ((match lib.getKeyCode [quote, quote] with
      | some code => _ | none => _) >>= newCombination lib _) = _ at h
    cases hcode : lib.getKeyCode [quote, quote] with
    | some code =>
      rw [hcode] at h
      change (newModifiers (shown m) >>= _) = _ at h
      rw [newModifiers_shown] at h
      change (validateKeyCode lib code >>= _) = _ at h
      cases hvalid : validateKeyCode lib code with
      | error e => rw [hvalid] at h; cases h
      | ok u => rw [hvalid] at h; cases h
    | none =>
      rw [hcode] at h
      change (newModifiers (shown m) >>= _) = _ at h
      rw [newModifiers_shown] at h
      cases h
  · refine ⟨fun _ => ⟨hnil, hescaped⟩, fun _ => ?_⟩
    have hlen : 0 < (escape character).length := length_pos_iff.mpr fun h =>
      hnil (by rw [← unescape_escape character, h]; rfl)
    rw [if_pos ⟨by simp [quotedToken]; omega, rfl,
      by rw [quotedToken, ← cons_append, getLast?_concat]⟩, if_neg (by simp),
      quotedToken, tail_cons, dropLast_concat, unescape_escape]
    change (newModifiers (shown m) >>= _) = _
    rw [newModifiers_shown]
    rfl

end Names

/-- `valueOf` reads back the names with a character that is not empty and has no backslash at the
    end, and throws another exception exactly for blank texts. -/
theorem valueOf_getName_and_safe_iff {K : Type} (lib : Library K) :
    (∀ character m, valueOf lib (getName character m) = .ok (.keyCharacter character m) ↔
      character ≠ [] ∧ character.getLast? ≠ some backslash) ∧
    ∀ value, ((∃ c, valueOf lib value = .ok c) ∨
      ∃ message, valueOf lib value = .error (.illegalArgument message)) ↔ trim value ≠ [] := by
  refine ⟨valueOf_getName_iff lib, fun value => ?_⟩
  rw [← valueOf_safe_iff lib value]
  rcases valueOf lib value with (message | _) | c <;> simp [Safe]

def asciiLibrary : Library Unit where
  toUpperCase t := t.map asciiUpper
  toLowerCase t := t.map asciiLower
  getKeyCode _ := none
  getName _ := []
  isUndefined _ := false
  toUpperCase_ascii _ _ := rfl
  toLowerCase_ascii _ _ := rfl

/-- `Shift+'\'` is not read to the end, and nothing is found in an empty text. -/
theorem valueOf_fails :
    (¬ ∀ character m, valueOf asciiLibrary (getName character m) =
      .ok (.keyCharacter character m)) ∧
    ¬ ∀ value, (∃ c, valueOf asciiLibrary value = .ok c) ∨
      ∃ message, valueOf asciiLibrary value = .error (.illegalArgument message) := by
  constructor
  · intro h
    exact absurd (h [backslash] ⟨.down, .up, .up, .up, .up⟩) (by decide)
  · intro h
    have herr : valueOf asciiLibrary [] = .error .stringIndexOutOfBounds := rfl
    obtain ⟨c, hc⟩ | ⟨message, hmessage⟩ := h []
    · cases herr.symm.trans hc
    · cases herr.symm.trans hmessage

end OpenJfx.Input.KeyCombination
