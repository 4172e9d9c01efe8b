/-
  OpenJfx.Fxml.Expression.Variables

  When the text of a key path is read as one variable.  A name that goes on behind a keyword is
  cut in two, one that is the beginning of it is pushed back with a character more at the end of
  the text, and a character outside the basic plane is read as two.
-/

import OpenJfx.Fxml.Expression.Precedence

namespace OpenJfx.Fxml

open List Option

variable {rest keyword rest' buffer : List Unit16} {c : Unit16} {s₁ s : Source} {unary : Bool}
  {points : List Nat} {es : List Element} {fuel : Nat}

variable {D : Type} (lib : Library D)

/-! ## Key paths and their texts -/

/-- The code units of a code point. -/
def unitsOf (c : Nat) : List Unit16 :=
  if c < 65536 then [c] else [55296 + (c - 65536) / 1024, 56320 + (c - 65536) % 1024]

/-- The code units of a string. -/
def utf16 (points : List Nat) : List Unit16 := points.flatMap unitsOf

/-- Separators are apart, half surrogates in no class. -/
structure Library.Separates : Prop where
  separator_part : lib.isJavaIdentifierPart '.'.toNat = false ∧
    lib.isJavaIdentifierPart '['.toNat = false
  start_part : ∀ c, lib.isJavaIdentifierStart c = true → lib.isJavaIdentifierPart c = true
  digit_index : ∀ c, lib.isDigit c = true → lib.isISOControl c = false ∧ c ≠ ']'.toNat
  surrogate_plain : ∀ c, 55296 ≤ c → c < 56320 → lib.isWhitespace c = false ∧
    lib.isDigit c = false ∧ lib.isJavaIdentifierStart c = false ∧
    lib.isJavaIdentifierPart c = false

/-- An identifier, as a list of code points. -/
def IsIdentifier : List Nat → Prop
  | [] => False
  | c :: cs => lib.isJavaIdentifierStart c = true ∧
    (∀ x ∈ cs, lib.isJavaIdentifierPart x = true) ∧ ∀ x ∈ c :: cs, x < 1114112

open IsIdentifier

instance : DecidablePred (IsIdentifier lib)
  | [] => inferInstanceAs (Decidable False)
  | c :: cs => inferInstanceAs (Decidable (lib.isJavaIdentifierStart c = true ∧
      (∀ x ∈ cs, lib.isJavaIdentifierPart x = true) ∧ ∀ x ∈ c :: cs, x < 1114112))

/-- An element of a key path. -/
inductive Element where
  | identifier (points : List Nat)
  | index (digits : List Unit16)
  deriving DecidableEq, Repr

namespace Element

/-- The element as a string. -/
def key : Element → List Unit16
  | identifier points => utf16 points
  | index digits => digits

def Valid : Element → Prop
  | identifier points => IsIdentifier lib points
  | index digits => digits ≠ [] ∧ ∀ d ∈ digits, lib.isDigit d = true

/-- Every character of the element is one code unit. -/
def Basic : Element → Prop
  | identifier points => ∀ c ∈ points, c < 65536
  | index _ => True

instance : DecidablePred (Valid lib)
  | identifier points => inferInstanceAs (Decidable (IsIdentifier lib points))
  | index digits => inferInstanceAs (Decidable (digits ≠ [] ∧ ∀ d ∈ digits, lib.isDigit d = true))

instance : DecidablePred Basic
  | identifier points => inferInstanceAs (Decidable (∀ c ∈ points, c < 65536))
  | index _ => inferInstanceAs (Decidable True)

/-- The text of an element that is not the first. -/
def text : Element → List Unit16
  | identifier points => '.'.toNat :: utf16 points
  | index digits => '['.toNat :: (digits ++ [']'.toNat])

end Element

/-- The text of element `i` in `KeyPath.toString`. -/
def elementString (i : Nat) (element : List Unit16) : List Unit16 :=
  if lib.isDigit (element.headD 0) then '['.toNat :: (element ++ [']'.toNat])
  else if 0 < i then '.'.toNat :: element
  else element

/-- `KeyPath.toString`. -/
def keyPathString (elements : List (List Unit16)) : List Unit16 :=
  elements.zipIdx.flatMap fun (element, i) => elementString lib i element

/-- A key path that begins with an identifier that is no keyword. -/
structure VariablePath where
  first : List Nat
  elements : List Element
  first_identifier : IsIdentifier lib first
  first_plain : utf16 first ∉ keywords
  elements_valid : ∀ e ∈ elements, e.Valid lib

namespace VariablePath

variable {lib}

def all (p : VariablePath lib) : List Element := .identifier p.first :: p.elements

/-- The elements as strings. -/
def keyPath (p : VariablePath lib) : List (List Unit16) := p.all.map Element.key

/-- The dotted text of the path. -/
def text (p : VariablePath lib) : List Unit16 := keyPathString lib p.keyPath

end VariablePath

/-! ## Runs of the parser -/

/-- The states of the loop of `tokenize` over `text`. -/
inductive Reached (text : List Unit16) : Bool → Source → Yard D → Prop
  | start : Reached text true ⟨text, List.replicate 6 0⟩ ⟨[], []⟩
  | token {unary : Bool} {s s₁ : Source} {y y₁ : Yard D} {c : Unit16} {rest : List Unit16}
      {t : Token D} (h : Reached text unary s y)
      (hinput : s.input.dropWhile lib.isWhitespace = c :: rest)
      (hread : readToken lib unary c rest s.buffer = .ok (t, s₁))
      (hprocess : y.process t = .ok y₁) : Reached text t.expectsOperand s₁ y₁

/-- `keyPath` is next, and `rest` behind it but for whitespace. -/
def ReadsVariable (unary : Bool) (s : Source) (keyPath : List (List Unit16))
    (rest : List Unit16) : Prop :=
  ∃ c cs s₁, s.input.dropWhile lib.isWhitespace = c :: cs ∧
    readToken lib unary c cs s.buffer = .ok (.var keyPath, s₁) ∧
    s₁.input.dropWhile lib.isWhitespace = rest.dropWhile lib.isWhitespace

/-- The path is not broken up: single code units, a first identifier that does not go on behind a
    keyword, and whitespace next in the buffer where it begins a keyword at the end of the text. -/
def VariablePath.Unbroken {lib : Library D} (p : VariablePath lib) (buffer rest : List Unit16) :
    Prop :=
  (∀ e ∈ p.all, e.Basic) ∧ (∀ keyword ∈ keywords, ¬ keyword <+: utf16 p.first) ∧
    (rest = [] → ∀ keyword ∈ keywords, p.text <+: keyword →
      lib.isWhitespace (buffer.getD p.text.length 0) = true)

instance {lib : Library D} (p : VariablePath lib) (buffer rest : List Unit16) :
    Decidable (p.Unbroken buffer rest) :=
  inferInstanceAs (Decidable ((∀ e ∈ p.all, e.Basic) ∧
    (∀ keyword ∈ keywords, ¬ keyword <+: utf16 p.first) ∧
    (rest = [] → ∀ keyword ∈ keywords, p.text <+: keyword →
      lib.isWhitespace (buffer.getD p.text.length 0) = true)))

variable {lib}

/-! ## The buffer -/

theorem keywordLoop_buffer (keyword : List Unit16) (i : Nat) (s : Source) :
    (keywordLoop keyword i s).2.buffer.length = s.buffer.length := by
  induction keyword generalizing i s with
  | nil => rfl
  | cons k keyword ih =>
    obtain ⟨input, buffer⟩ := s
    cases input with
    | nil => rfl
    | cons c input =>
      rw [keywordLoop]
      split
      · rw [ih, length_set]
      · exact length_set

theorem readKeyword_buffer (keyword : List Unit16) (s : Source) :
    (readKeyword keyword s).2.buffer.length = s.buffer.length := by
  have h := keywordLoop_buffer keyword 0 s
  unfold readKeyword
  generalize keywordLoop keyword 0 s = r at h
  obtain ⟨i, s₁⟩ := r
  simp only []
  split <;> exact h

variable {t : Token D} {value : Literal D} {text digits input : List Unit16} {y : Yard D} {c : Nat}
  {keyPath : List (List Unit16)}

theorem readVariable_buffer (h : readVariable lib s = .ok (t, s₁)) :
    s₁.buffer = s.buffer := by
  unfold readVariable at h
  split at h
  · cases h
    rfl
  · cases h

theorem readKeywordOrVariable_buffer (h : readKeywordOrVariable lib keyword value s = .ok (t, s₁)) :
    s₁.buffer.length = s.buffer.length := by
  have hlen := readKeyword_buffer keyword s
  unfold readKeywordOrVariable at h
  split at h
  · next s2 hread =>
    rw [hread] at hlen
    cases h
    exact hlen
  · next s2 hread =>
    rw [hread] at hlen
    rw [readVariable_buffer h]
    exact hlen

theorem readToken_buffer (h : readToken lib unary c rest buffer = .ok (t, s₁)) :
    s₁.buffer.length = buffer.length := by
  unfold readToken at h
  split at h
  · exact readKeywordOrVariable_buffer h
  split at h
  · split at h <;> cases h
    rfl
  split at h
  · split at h <;> cases h
    rfl
  split at h
  · exact readKeywordOrVariable_buffer h
  split at h
  · exact readKeywordOrVariable_buffer h
  split at h
  · rw [readVariable_buffer h]
  · split at h <;> cases h
    rfl

theorem Reached.buffer_length (h : Reached lib text unary s y) : s.buffer.length = 6 := by
  induction h with
  | start => rfl
  | token _ _ hread _ ih => rw [readToken_buffer hread, ih]

/-! ## The dotted text -/

theorem unitsOf_ne_nil (c : Nat) : unitsOf c ≠ [] := by
  unfold unitsOf
  split <;> exact cons_ne_nil _ _

theorem unitsOf_of_lt (h : c < 65536) : unitsOf c = [c] := if_pos h

theorem utf16_basic (h : ∀ c ∈ points, c < 65536) : utf16 points = points := by
  induction points with
  | nil => rfl
  | cons c points ih =>
    unfold utf16 at ih ⊢
    rw [flatMap_cons, unitsOf_of_lt (h c mem_cons_self), ih fun x hx => h x (mem_cons_of_mem _ hx)]
    rfl

/-- An identifier begins with a unit that is no digit and no whitespace. -/
theorem IsIdentifier.utf16_eq (hsep : lib.Separates)
    (h : IsIdentifier lib points) : ∃ c cs, utf16 points = c :: cs ∧ lib.isDigit c = false ∧
      lib.isWhitespace c = false ∧
      (lib.isJavaIdentifierStart c = true ∨ 55296 ≤ c ∧ c < 56320) := by
  cases points with
  | nil => exact h.elim
  | cons c points =>
    obtain ⟨hst, -, hrng⟩ := h
    by_cases hc : c < 65536
    · refine ⟨c, utf16 points, ?_, ?_, ?_, Or.inl hst⟩
      · unfold utf16
        rw [flatMap_cons, unitsOf_of_lt hc]
        rfl
      · cases hd : lib.isDigit c
        · rfl
        · rw [(lib.digit_plain c hd).1] at hst
          cases hst
      · cases hw : lib.isWhitespace c
        · rfl
        · rw [(lib.whitespace_plain c hw).2.1] at hst
          cases hst
    · have hlt := hrng c mem_cons_self
      have hhigh : (c - 65536) / 1024 < 1024 := by omega
      have hplain := hsep.surrogate_plain (55296 + (c - 65536) / 1024) (Nat.le_add_right _ _)
        (Nat.add_lt_add_left hhigh 55296)
      refine ⟨55296 + (c - 65536) / 1024, (56320 + (c - 65536) % 1024) :: utf16 points, ?_,
        hplain.2.1, hplain.1, Or.inr ⟨Nat.le_add_right _ _, Nat.add_lt_add_left hhigh 55296⟩⟩
      unfold utf16
      rw [flatMap_cons, unitsOf, if_neg hc]
      rfl

theorem elementString_succ (hsep : lib.Separates) {e : Element} (he : e.Valid lib) (i : Nat) :
    elementString lib (i + 1) e.key = e.text := by
  cases e with
  | identifier points =>
    obtain ⟨c, cs, heq, hdigit, -, -⟩ := utf16_eq hsep he
    simp only [Element.key, Element.text, heq, elementString, headD_cons, hdigit,
      Bool.false_eq_true, if_false, Nat.succ_pos, if_true]
  | index digits =>
    obtain ⟨hne, hdigits⟩ := he
    cases digits with
    | nil => exact absurd rfl hne
    | cons d digits =>
      simp only [Element.key, Element.text, elementString, headD_cons,
        hdigits d mem_cons_self, if_true]

theorem zipIdx_texts (hsep : lib.Separates) {elements : List Element}
    (h : ∀ e ∈ elements, e.Valid lib) (i : Nat) :
    (((elements.map Element.key).zipIdx (i + 1)).flatMap fun (element, j) =>
      elementString lib j element) = elements.flatMap Element.text := by
  induction elements generalizing i with
  | nil => rfl
  | cons e elements ih =>
    rw [map_cons, zipIdx_cons, flatMap_cons, flatMap_cons,
      ih (fun e' he' => h e' (mem_cons_of_mem _ he'))]
    exact congrArg (· ++ _) (elementString_succ hsep (h e mem_cons_self) i)

namespace VariablePath

variable (p : VariablePath lib)

theorem all_valid : ∀ e ∈ p.all, e.Valid lib := by
  intro e he
  rcases mem_cons.mp he with rfl | he
  · exact p.first_identifier
  · exact p.elements_valid e he

theorem text_eq (hsep : lib.Separates) :
    p.text = utf16 p.first ++ p.elements.flatMap Element.text := by
  obtain ⟨c, cs, heq, hdigit, -, -⟩ := utf16_eq hsep p.first_identifier
  show keyPathString lib (utf16 p.first :: p.elements.map Element.key) = _
  unfold keyPathString
  rw [zipIdx_cons, flatMap_cons, zipIdx_texts hsep p.elements_valid]
  congr 1
  simp only [heq, elementString, headD_cons, hdigit, Bool.false_eq_true, if_false, Nat.lt_irrefl]

theorem period_text (hsep : lib.Separates) : '.'.toNat :: p.text = p.all.flatMap Element.text := by
  rw [text_eq p hsep]
  rfl

end VariablePath

/-! ## Reading the elements -/

/-- `rest'` is left when a period is skipped. -/
structure Stops (lib : Library D) (rest rest' : List Unit16) : Prop where
  head : ∀ c ∈ rest.head?, isKeyChar lib c = false
  period : skipPeriod rest = .ok rest'
  stop : ∀ c ∈ rest'.head?, lib.isJavaIdentifierStart c = false ∧ c ≠ '['.toNat

theorem skipPeriod_period (h : rest ≠ []) :
    skipPeriod ('.'.toNat :: rest) = .ok rest := by
  unfold skipPeriod
  simp only [head?_cons, if_true, tail_cons, h, if_false]

theorem EndsOperand.stops (h : EndsOperand lib rest) : Stops lib rest rest where
  head c hc := (h.head_not_part c hc).1
  period := skipPeriod_of_ne fun c hc => (h.head_not_part c hc).2.2.2.2
  stop c hc := ⟨(h.head_not_part c hc).2.2.1, (h.head_not_part c hc).2.2.2.1⟩

theorem readBracketLoop_digits (hsep : lib.Separates) (quote : Unit16)
    (hne : digits ≠ []) (h : ∀ d ∈ digits, lib.isDigit d = true)
    (hfuel : digits.length ≤ fuel) (key rest : List Unit16) :
    readBracketLoop lib quote fuel false key (digits ++ ']'.toNat :: rest) =
      .ok (false, false, key ++ digits, ']'.toNat :: rest) := by
  induction digits generalizing fuel key with
  | nil => exact absurd rfl hne
  | cons d digits ih =>
    obtain ⟨fuel, rfl⟩ : ∃ n, fuel = n + 1 := ⟨fuel - 1, by
      rw [length_cons] at hfuel
      omega⟩
    have hd := h d mem_cons_self
    rw [cons_append, readBracketLoop, (hsep.digit_index d hd).1, hd]
    simp only [Bool.false_eq_true, if_false, Bool.not_false, Bool.not_true, Bool.and_false,
      Bool.false_and]
    cases digits with
    | nil => rfl
    | cons x digits =>
      have hx := h x (mem_cons_of_mem _ mem_cons_self)
      rw [if_neg (by simpa using (hsep.digit_index x hx).2),
        ih (cons_ne_nil _ _) (fun d' hd' => h d' (.tail _ hd'))
          (by rw [length_cons] at hfuel; omega), append_assoc]
      rfl

theorem readKey_index (hsep : lib.Separates) (hne : digits ≠ [])
    (h : ∀ d ∈ digits, lib.isDigit d = true) (rest : List Unit16) :
    readKey lib '['.toNat (digits ++ ']'.toNat :: rest) = .ok (digits, rest) := by
  cases digits with
  | nil => exact absurd rfl hne
  | cons d digits =>
    have hquote : ¬ (some d = some '"'.toNat ∨ some d = some '\''.toNat) := by
      rw [some.injEq, some.injEq]
      exact fun hq => (lib.digit_plain d (h d mem_cons_self)).2 ((quote_iff d).mp hq)
    unfold readKey readBracketed
    rw [if_pos rfl]
    simp only [cons_append, head?_cons, hquote, if_false, decide_false]
    rw [← cons_append, readBracketLoop_digits hsep _ hne h (by rw [length_append]; omega)]
    rfl

theorem isKeyChar_of_part (hsep : lib.Separates)
    (h : lib.isJavaIdentifierPart c = true) : isKeyChar lib c = true := by
  have hdot : c ≠ '.'.toNat := by
    rintro rfl
    rw [hsep.separator_part.1] at h
    cases h
  have hbracket : c ≠ '['.toNat := by
    rintro rfl
    rw [hsep.separator_part.2] at h
    cases h
  simp only [isKeyChar, h, Bool.and_true, Bool.and_eq_true, bne_iff_ne]
  exact ⟨hdot, hbracket⟩

theorem IsIdentifier.keyChars (hsep : lib.Separates) {cs : List Nat}
    (h : IsIdentifier lib (c :: cs)) : ∀ x ∈ c :: cs, isKeyChar lib x = true := by
  intro x hx
  rcases mem_cons.mp hx with rfl | hx
  · exact isKeyChar_of_part hsep (hsep.start_part _ h.1)
  · exact isKeyChar_of_part hsep (h.2.1 x hx)

theorem texts_head (es : List Element) (hrest : ∀ c ∈ rest.head?, isKeyChar lib c = false) :
    ∀ c ∈ (es.flatMap Element.text ++ rest).head?, isKeyChar lib c = false := by
  cases es with
  | nil => exact hrest
  | cons e es =>
    intro c hc
    cases e with
    | identifier points =>
      obtain rfl : '.'.toNat = c := some.inj hc
      rfl
    | index digits =>
      obtain rfl : '['.toNat = c := some.inj hc
      rfl

theorem parsePathLoop_elements (hsep : lib.Separates)
    (hvalid : ∀ e ∈ es, e.Valid lib) (hbasic : ∀ e ∈ es, e.Basic)
    (hstops : Stops lib rest rest') (hfuel : es.length < fuel)
    (keys : List (List Unit16)) :
    (skipPeriod (es.flatMap Element.text ++ rest) >>= parsePathLoop lib fuel keys) =
      .ok (keys ++ es.map Element.key, rest') := by
  induction es generalizing fuel keys with
  | nil =>
    obtain ⟨fuel, rfl⟩ : ∃ n, fuel = n + 1 := ⟨fuel - 1, by
      rw [length_nil] at hfuel
      omega⟩
    rw [flatMap_nil, nil_append, hstops.period, map_nil, append_nil]
    exact parsePathLoop_stop hstops.stop fuel keys
  | cons e es ih =>
    obtain ⟨fuel, rfl⟩ : ∃ n, fuel = n + 1 := ⟨fuel - 1, by
      rw [length_cons] at hfuel
      omega⟩
    have hless : es.length < fuel := by
      rw [length_cons] at hfuel
      omega
    have hrest := ih (fun e' he' => hvalid e' (.tail _ he'))
      (fun e' he' => hbasic e' (.tail _ he')) hless (keys ++ [e.key])
    have hhead := texts_head es hstops.head
    rw [flatMap_cons, append_assoc, map_cons, append_cons]
    rw [← hrest]
    cases e with
    | identifier points =>
      have hid := hvalid _ mem_cons_self
      have hkey : (Element.identifier points).key = points := utf16_basic (hbasic _ mem_cons_self)
      cases points with
      | nil => exact hid.elim
      | cons c cs =>
        have htext : (Element.identifier (c :: cs)).text = '.'.toNat :: c :: cs :=
          congrArg ('.'.toNat :: ·) hkey
        rw [htext, cons_append, skipPeriod_period (by simp), hkey]
        exact parsePathLoop_cons (Or.inl hid.1)
          (readKey_identifier (keyChars hsep hid) hhead) (cons_ne_nil _ _) fuel
          keys
    | index digits =>
      obtain ⟨hne, hdigits⟩ := hvalid _ mem_cons_self
      have htext : (Element.index digits).text ++ (es.flatMap Element.text ++ rest) =
          '['.toNat :: (digits ++ ']'.toNat :: (es.flatMap Element.text ++ rest)) := by
        simp [Element.text]
      have hne' : ∀ c ∈ ((Element.index digits).text ++
          (es.flatMap Element.text ++ rest)).head?, c ≠ '.'.toNat := by
        rintro c hc
        obtain rfl : '['.toNat = c := some.inj hc
        decide
      rw [skipPeriod_of_ne hne', htext]
      exact parsePathLoop_cons (Or.inr rfl) (readKey_index hsep hne hdigits _) hne fuel keys

theorem texts_length (es : List Element) : es.length ≤ (es.flatMap Element.text).length := by
  induction es with
  | nil => exact Nat.zero_le _
  | cons e es ih =>
    have he : 0 < e.text.length := by cases e <;> exact Nat.succ_pos _
    rw [flatMap_cons, length_append, length_cons]
    omega

theorem parsePath_elements (hsep : lib.Separates) {cs : List Nat}
    (hvalid : ∀ e ∈ Element.identifier (c :: cs) :: es, e.Valid lib)
    (hbasic : ∀ e ∈ Element.identifier (c :: cs) :: es, e.Basic)
    (hstops : Stops lib rest rest') :
    parsePath lib (c :: cs ++ (es.flatMap Element.text ++ rest)) =
      .ok ((c :: cs) :: es.map Element.key, rest') := by
  have hid := hvalid _ mem_cons_self
  have hlen := texts_length es
  rw [parsePath_identifier hid.1 (keyChars hsep hid) (texts_head es hstops.head)]
  exact parsePathLoop_elements hsep (fun e he => hvalid e (.tail _ he))
    (fun e he => hbasic e (.tail _ he)) hstops
    (by rw [length_append]; omega) _

/-! ## Characters outside the basic plane -/

theorem utf16_cut (h : ¬ ∀ c ∈ points, c < 65536) :
    ∃ pre sup post, points = pre ++ sup :: post ∧ (∀ c ∈ pre, c < 65536) ∧ ¬ sup < 65536 := by
  induction points with
  | nil => exact absurd (fun c hc => by cases hc) h
  | cons c points ih =>
    by_cases hc : c < 65536
    · obtain ⟨pre, sup, post, heq, hpre, hsup⟩ := ih fun hall =>
        h fun x hx => (mem_cons.mp hx).elim (fun hxc => hxc ▸ hc) (hall x)
      refine ⟨c :: pre, sup, post, by rw [heq, cons_append], ?_, hsup⟩
      intro x hx
      exact (mem_cons.mp hx).elim (fun hxc => hxc ▸ hc) (hpre x)
    · exact ⟨[], c, points, rfl, (fun x hx => by cases hx), hc⟩

theorem IsIdentifier.lt (h : IsIdentifier lib points) : ∀ c ∈ points, c < 1114112 := by
  cases points with
  | nil => exact h.elim
  | cons c cs => exact h.2.2

theorem stops_surrogate (hsep : lib.Separates) {sup : Nat} (hsup : ¬ sup < 65536)
    (hlt : sup < 1114112) (tail : List Unit16) :
    Stops lib (unitsOf sup ++ tail) (unitsOf sup ++ tail) ∧
      Stops lib ('.'.toNat :: (unitsOf sup ++ tail)) (unitsOf sup ++ tail) := by
  have hhigh : (sup - 65536) / 1024 < 1024 := by omega
  obtain ⟨-, -, hst, hpart⟩ := hsep.surrogate_plain (55296 + (sup - 65536) / 1024)
    (Nat.le_add_right _ _) (Nat.add_lt_add_left hhigh 55296)
  have hhead : ∀ c ∈ (unitsOf sup ++ tail).head?, c = 55296 + (sup - 65536) / 1024 := by
    intro c hc
    unfold unitsOf at hc
    rw [if_neg hsup] at hc
    exact (some.inj hc).symm
  have hkey : ∀ c ∈ (unitsOf sup ++ tail).head?, isKeyChar lib c = false := by
    intro c hc
    rw [hhead c hc, isKeyChar, hpart, Bool.and_false]
  have hstop : ∀ c ∈ (unitsOf sup ++ tail).head?,
      lib.isJavaIdentifierStart c = false ∧ c ≠ '['.toNat := by
    intro c hc
    rw [hhead c hc]
    refine ⟨hst, ?_⟩
    have hbracket : '['.toNat < 55296 := by decide
    intro heq
    exact absurd heq (Nat.ne_of_gt (Nat.lt_of_lt_of_le hbracket (Nat.le_add_right _ _)))
  constructor
  · refine ⟨hkey, skipPeriod_of_ne fun c hc => ?_, hstop⟩
    rw [hhead c hc]
    have hdot : '.'.toNat < 55296 := by decide
    exact Nat.ne_of_gt (Nat.lt_of_lt_of_le hdot (Nat.le_add_right _ _))
  · refine ⟨?_, skipPeriod_period ?_, hstop⟩
    · intro c hc
      obtain rfl : '.'.toNat = c := some.inj hc
      rfl
    · simp [unitsOf_ne_nil]

/-- Where a broken path is cut. -/
theorem exists_stop (hsep : lib.Separates) (hvalid : ∀ e ∈ es, e.Valid lib)
    (hbasic : ¬ ∀ e ∈ es, e.Basic) (tail : List Unit16) :
    ∃ (es' : List Element) (rest rest' : List Unit16), (∀ e ∈ es', e.Valid lib) ∧ (∀ e ∈ es', e.Basic) ∧
      es.flatMap Element.text ++ tail = es'.flatMap Element.text ++ rest ∧ Stops lib rest rest' ∧
      es'.map Element.key ≠ es.map Element.key := by
  induction es with
  | nil => exact absurd (fun e he => by cases he) hbasic
  | cons e es ih =>
    by_cases he : e.Basic
    · obtain ⟨es', rest, rest', hvalid', hbasic', htext, hstops, hkeys⟩ :=
        ih (fun e' he' => hvalid e' (.tail _ he')) fun hall =>
          hbasic fun x hx => (mem_cons.mp hx).elim (fun hxe => hxe ▸ he) (hall x)
      refine ⟨e :: es', rest, rest', ?_, ?_, ?_, hstops, ?_⟩
      · intro x hx
        exact (mem_cons.mp hx).elim (fun hxe => hxe ▸ hvalid e mem_cons_self) (hvalid' x)
      · intro x hx
        exact (mem_cons.mp hx).elim (fun hxe => hxe ▸ he) (hbasic' x)
      · rw [flatMap_cons, flatMap_cons, append_assoc, htext, append_assoc]
      · intro heq
        exact hkeys (List.cons.inj heq).2
    · cases e with
      | index digits => exact absurd trivial he
      | identifier points =>
        have hid := hvalid _ mem_cons_self
        obtain ⟨pre, sup, post, rfl, hpre, hsup⟩ := utf16_cut he
        have hall := lt hid
        have hlt := hall sup (mem_append_right _ mem_cons_self)
        have hunits : utf16 (pre ++ sup :: post) = pre ++ (unitsOf sup ++ utf16 post) := by
          have hfst := utf16_basic hpre
          unfold utf16 at hfst ⊢
          rw [flatMap_append, hfst, flatMap_cons]
        obtain ⟨hplain, hperiod⟩ := stops_surrogate hsep hsup hlt
          (utf16 post ++ (es.flatMap Element.text ++ tail))
        have htext : (Element.identifier (pre ++ sup :: post) :: es).flatMap Element.text ++ tail =
            '.'.toNat :: (pre ++ (unitsOf sup ++
              (utf16 post ++ (es.flatMap Element.text ++ tail)))) := by
          simp only [flatMap_cons, Element.text, hunits, cons_append, append_assoc]
        cases pre with
        | nil =>
          refine ⟨[], _, _, (fun e he => by cases he), (fun e he => by cases he), ?_, hperiod,
            nofun⟩
          rw [htext]
          rfl
        | cons c cs =>
          have hpart : IsIdentifier lib (c :: cs) :=
            ⟨hid.1, fun x hx => hid.2.1 x (mem_append_left _ hx),
              fun x hx => hall x (mem_append_left _ hx)⟩
          refine ⟨[.identifier (c :: cs)], _, _, ?_, ?_, ?_, hplain, ?_⟩
          · intro e he
            rw [mem_singleton.mp he]
            exact hpart
          · intro e he
            rw [mem_singleton.mp he]
            exact hpre
          · rw [htext]
            have hown : utf16 (c :: cs) = c :: cs := utf16_basic hpre
            simp only [flatMap_cons, flatMap_nil, Element.text, hown, append_nil, cons_append]
          · intro heq
            have hkey : utf16 (c :: cs) = utf16 (c :: cs ++ sup :: post) := (List.cons.inj heq).1
            rw [hunits, utf16_basic hpre] at hkey
            have hnil := self_eq_append_right.mp hkey
            exact unitsOf_ne_nil sup (append_eq_nil_iff.mp hnil).1

theorem VariablePath.parsePath_basic (hsep : lib.Separates) (p : VariablePath lib)
    (hbasic : ∀ e ∈ p.all, e.Basic) (hrest : EndsOperand lib rest) :
    parsePath lib (p.text ++ rest) = .ok (p.keyPath, rest) := by
  have hown := utf16_basic (hbasic _ mem_cons_self : ∀ c ∈ p.first, c < 65536)
  have hid := p.first_identifier
  have hp := p.text_eq hsep
  have hvalid := p.all_valid
  have hkeyPath : p.keyPath = utf16 p.first :: p.elements.map Element.key := rfl
  unfold VariablePath.all at hbasic hvalid
  rw [hown] at hp hkeyPath
  generalize p.first = first at hid hp hvalid hbasic hkeyPath
  cases first with
  | nil => exact hid.elim
  | cons c cs =>
    rw [hp, append_assoc, parsePath_elements hsep hvalid hbasic hrest.stops, hkeyPath]

/-- With a character that takes two units it is read as other keys. -/
theorem VariablePath.parsePath_broken (hsep : lib.Separates) (p : VariablePath lib)
    (hbasic : ¬ ∀ e ∈ p.all, e.Basic)
    (hst : ∀ c ∈ p.text.head?, lib.isJavaIdentifierStart c = true) (rest rest' : List Unit16) :
    parsePath lib (p.text ++ rest) ≠ .ok (p.keyPath, rest') := by
  intro hparse
  obtain ⟨es', rest1, rest2, hvalid', hbasic', htext, hstops, hkeys⟩ :=
    exists_stop hsep p.all_valid hbasic rest
  rw [← p.period_text hsep, cons_append] at htext
  cases es' with
  | nil =>
    -- the text itself begins with half a surrogate pair
    obtain ⟨c, cs, hfst, -, -, -⟩ := utf16_eq hsep p.first_identifier
    have hp : p.text = c :: (cs ++ p.elements.flatMap Element.text) := by
      rw [p.text_eq hsep, hfst, cons_append]
    have hskip := hstops.period
    rw [hp] at hst
    rw [← (show _ = rest1 from htext), hp, cons_append,
      skipPeriod_period (cons_ne_nil _ _)] at hskip
    have hnot := (hstops.stop c (by rw [← Except.ok.inj hskip]; rfl)).1
    rw [hst c rfl] at hnot
    cases hnot
  | cons e es' =>
    cases e with
    | index digits =>
      have hsame : '.'.toNat = '['.toNat := (List.cons.inj htext).1
      revert hsame
      decide
    | identifier points =>
      have hid := hvalid' _ mem_cons_self
      have hown := utf16_basic (hbasic' _ mem_cons_self : ∀ c ∈ points, c < 65536)
      cases points with
      | nil => exact hid.elim
      | cons c cs =>
        have hp : p.text ++ rest = c :: cs ++ (es'.flatMap Element.text ++ rest1) := by
          have htail := (List.cons.inj htext).2
          rw [htail, ← append_assoc]
          exact congrArg (· ++ _ ++ _) hown
        rw [hp, parsePath_elements hsep hvalid' hbasic' hstops] at hparse
        have hsame := congrArg Prod.fst (Except.ok.inj hparse)
        refine hkeys (Eq.trans ?_ hsame)
        show utf16 (c :: cs) :: _ = _
        rw [hown]

/-! ## The end of the text -/

theorem keywordLoop_end (h : input <+: keyword)
    (hlt : input.length < keyword.length) (buffer : List Unit16) (i : Nat)
    (hbuf : i + input.length < buffer.length) :
    ∃ buffer', keywordLoop keyword i ⟨input, buffer⟩ = (i + input.length, ⟨[], buffer'⟩) ∧
      buffer'.take (i + input.length + 1) =
        buffer.take i ++ input ++ [buffer.getD (i + input.length) 0] := by
  induction input generalizing keyword buffer i with
  | nil =>
    rw [length_nil, Nat.add_zero] at hbuf ⊢
    obtain ⟨k, keyword', rfl⟩ := exists_cons_of_length_pos hlt
    refine ⟨buffer, rfl, ?_⟩
    rw [append_nil, take_add_one, getD_eq_getElem?_getD, getElem?_eq_getElem hbuf]
    rfl
  | cons c input ih =>
    cases keyword with
    | nil => exact absurd hlt (Nat.not_lt_zero _)
    | cons k keyword =>
      obtain ⟨rfl, htail⟩ := cons_prefix_cons.mp h
      rw [length_cons] at hbuf hlt
      rw [length_cons] at hlt
      have hi : i < (buffer.set i c).length := by
        rw [length_set]
        omega
      obtain ⟨buffer', hloop, htake⟩ := ih htail (Nat.lt_of_succ_lt_succ hlt) (buffer.set i c)
        (i + 1) (by rw [length_set]; omega)
      have hset : (buffer.set i c).take (i + 1) = buffer.take i ++ [c] := by
        rw [take_add_one, getElem?_eq_getElem hi, getElem_set_self, take_set_of_le le_rfl]
        rfl
      have hidx : i + (input.length + 1) = i + 1 + input.length := by omega
      refine ⟨buffer', ?_, ?_⟩
      · rw [keywordLoop, if_pos rfl, hloop, length_cons, hidx]
      · rw [length_cons, hidx, htake, hset, append_assoc (buffer.take i) [c] input]
        have hother : (buffer.set i c).getD (i + 1 + input.length) 0 =
            buffer.getD (i + 1 + input.length) 0 := by
          simp only [getD_eq_getElem?_getD]
          rw [getElem?_set_ne (by omega)]
        rw [hother]
        rfl

theorem readKeyword_end (h : input <+: keyword) (hlt : input.length < keyword.length)
    (hbuf : input.length < buffer.length) :
    ∃ buffer', readKeyword keyword ⟨input, buffer⟩ =
      (false, ⟨input ++ [buffer.getD input.length 0], buffer'⟩) := by
  obtain ⟨buffer', hloop, htake⟩ := keywordLoop_end h hlt buffer 0 (by omega)
  rw [Nat.zero_add] at hloop htake
  refine ⟨buffer', ?_⟩
  unfold readKeyword
  rw [hloop]
  simp only []
  rw [if_pos hlt, htake, take_zero, nil_append, tail_nil, append_nil]

theorem parsePath_stray {cs : List Unit16} (hc : lib.isJavaIdentifierStart c = true)
    (hkey : ∀ x ∈ c :: cs, isKeyChar lib x = true) (x : Unit16) :
    (∃ rest, parsePath lib (c :: cs ++ [x]) = .ok ([c :: cs], rest) ∧
      rest.dropWhile lib.isWhitespace = []) ↔ lib.isWhitespace x = true := by
  by_cases hx : isKeyChar lib x = true
  · -- the stray character becomes part of the name
    have hlong : ∀ y ∈ c :: (cs ++ [x]), isKeyChar lib y = true := by
      intro y hy
      rw [← cons_append, mem_append, mem_singleton] at hy
      exact hy.elim (hkey y) fun hyx => hyx ▸ hx
    have hparse : parsePath lib (c :: cs ++ [x]) = .ok ([c :: (cs ++ [x])], []) := by
      have hread := @parsePath_identifier D lib c (cs ++ [x]) [] hc hlong fun y hy => by cases hy
      rw [append_nil] at hread
      exact hread
    constructor
    · rintro ⟨rest, hread, -⟩
      rw [hparse] at hread
      have hsame : [c :: (cs ++ [x])] = [c :: cs] := congrArg Prod.fst (Except.ok.inj hread)
      simp at hsame
    · intro hw
      have hpart := (lib.whitespace_plain x hw).2.2.1
      rw [isKeyChar, hpart, Bool.and_false] at hx
      cases hx
  have hx : isKeyChar lib x = false := by simpa using hx
  have hparse := @parsePath_identifier D lib c cs [x] hc hkey fun y hy => by
    obtain rfl : x = y := some.inj hy
    exact hx
  rw [hparse]
  by_cases hdot : x = '.'.toNat
  · subst hdot
    constructor
    · rintro ⟨rest, hread, -⟩
      cases hread
    · intro hw
      exact absurd (lib.whitespace_plain _ hw).2.2.2 (by decide)
  rw [skipPeriod_of_ne fun y hy => by
    obtain rfl : x = y := some.inj hy
    exact hdot]
  by_cases hst : lib.isJavaIdentifierStart x = true ∨ x = '['.toNat
  · -- a key begins behind the name and is not there
    have hfail : ∀ fuel keys r, parsePathLoop lib (fuel + 1) keys [x] ≠ .ok r := by
      intro fuel keys r
      have hyes : (lib.isJavaIdentifierStart x || x == '['.toNat) = true := by
        rcases hst with h | rfl
        · rw [h, Bool.true_or]
        · rw [beq_self_eq_true, Bool.or_true]
      rw [parsePathLoop, hyes, if_pos rfl]
      by_cases hbracket : x = '['.toNat
      · rw [hbracket]
        intro h
        cases h
      · have hread : readKey lib x [] = .ok ([], [x]) := by
          unfold readKey
          rw [if_neg hbracket, span_eq_takeWhile_dropWhile,
            takeWhile_cons_of_neg (by simp [hx]), dropWhile_cons_of_neg (by simp [hx])]
        rw [hread]
        simp only []
        rw [skipPeriod_of_ne fun y hy => by
          obtain rfl : x = y := some.inj hy
          exact hdot]
        intro h
        cases h
    constructor
    · rintro ⟨rest, hread, -⟩
      exact absurd hread (hfail _ _ _)
    · intro hw
      obtain ⟨-, hnot, -, hmem⟩ := lib.whitespace_plain x hw
      rcases hst with h | rfl
      · rw [hnot] at h
        cases h
      · exact absurd hmem (by decide)
  · have hstop : ∀ y ∈ [x].head?, lib.isJavaIdentifierStart y = false ∧ y ≠ '['.toNat := by
      intro y hy
      obtain rfl : x = y := some.inj hy
      exact ⟨by simpa using fun h => hst (Or.inl h), fun h => hst (Or.inr h)⟩
    have hloop : (Except.ok [x] >>= parsePathLoop lib (cs.length + [x].length + 1) [c :: cs]) =
        .ok ([c :: cs], [x]) := parsePathLoop_stop hstop _ _
    rw [hloop]
    constructor
    · rintro ⟨rest, hread, hrest⟩
      cases hread
      by_contra hw
      rw [dropWhile_cons_of_neg hw] at hrest
      cases hrest
    · intro hw
      exact ⟨[x], rfl, by rw [dropWhile_cons_of_pos hw, dropWhile_nil]⟩

/-! ## Reading the variable -/

theorem readUnary_ne_var :
    readUnary c rest ≠ .ok ((.var keyPath : Token D), rest') := by
  intro h
  unfold readUnary at h
  repeat' first | cases h | split at h

theorem readUnary_char {r : Token D × List Unit16}
    (h : readUnary c rest = .ok r) : c ∈ operatorChars := by
  unfold readUnary at h
  split at h
  · next hc => exact hc ▸ by decide
  split at h
  · next hc => exact hc ▸ by decide
  split at h
  · next hc => exact hc ▸ by decide
  · cases h

theorem readSecond_operator {second : Char} {operator : Operator}
    (h : readSecond second operator rest = .ok (t, rest')) :
    t = .binaryOperator operator := by
  unfold readSecond at h
  split at h <;> cases h
  rfl

theorem readComparison_operator {strict orEqual : Operator}
    (h : readComparison strict orEqual rest = .ok (t, rest')) :
    ∃ op, t = .binaryOperator op := by
  unfold readComparison at h
  split at h <;> cases h <;> exact ⟨_, rfl⟩

theorem ok_of_ite {α : Type} {p : Prop} [Decidable p] {a b : Except Failure α} {r : α}
    (h : (if p then a else b) = .ok r) : a = .ok r ∨ b = .ok r := by
  split at h
  · exact Or.inl h
  · exact Or.inr h

theorem readBinary_operator
    (h : readBinary c rest = .ok (t, rest')) : (∃ op, t = .binaryOperator op) ∨ t = .endGroup := by
  unfold readBinary at h
  repeat' first
    | exact Or.inl ⟨_, readSecond_operator h⟩
    | exact Or.inl (readComparison_operator h)
    | cases h; exact Or.inl ⟨_, rfl⟩
    | cases h; exact Or.inr rfl
    | cases h
    | rcases ok_of_ite h with h | h

theorem readKeywordOrVariable_operand (h : readKeywordOrVariable lib keyword value s = .ok
    (t, s₁)) :
    t = .literal value ∨ ∃ keyPath, t = .var keyPath := by
  unfold readKeywordOrVariable at h
  split at h
  · cases h
    exact Or.inl rfl
  · unfold readVariable at h
    split at h <;> cases h
    exact Or.inr ⟨_, rfl⟩

theorem readToken_cases (h : readToken lib unary c rest buffer = .ok (t, s₁)) :
    (∃ value, t = .literal value) ∨
    (lib.isJavaIdentifierStart c = true ∧ ∃ keyPath, t = .var keyPath) ∨
    ∃ rest', (if unary then readUnary c rest else readBinary c rest) = .ok (t, rest') := by
  have hname : ∀ {keyword : List Unit16} {value : Literal D},
      c ∈ nullKeyword ++ trueKeyword ++ falseKeyword →
      readKeywordOrVariable lib keyword value ⟨c :: rest, buffer⟩ = .ok (t, s₁) →
      (∃ value, t = .literal value) ∨
      (lib.isJavaIdentifierStart c = true ∧ ∃ keyPath, t = .var keyPath) ∨
      ∃ rest', (if unary then readUnary c rest else readBinary c rest) = .ok (t, rest') := by
    intro keyword value hc hread
    rcases readKeywordOrVariable_operand hread with hlit | hvar
    · exact Or.inl ⟨value, hlit⟩
    · exact Or.inr (Or.inl ⟨(lib.letter_plain c hc).2, hvar⟩)
  unfold readToken at h
  split at h
  · next hc => exact hname (hc ▸ by decide) h
  split at h
  · split at h <;> cases h
    exact Or.inl ⟨_, rfl⟩
  split at h
  · split at h <;> cases h
    exact Or.inl ⟨_, rfl⟩
  split at h
  · next hc => exact hname (hc ▸ by decide) h
  split at h
  · next hc => exact hname (hc ▸ by decide) h
  split at h
  · next hc =>
    unfold readVariable at h
    split at h <;> cases h
    exact Or.inr (Or.inl ⟨hc, _, rfl⟩)
  · split at h
    · next t' rest' hread =>
      cases h
      exact Or.inr (Or.inr ⟨rest', hread⟩)
    · cases h

theorem start_of_readToken (h : readToken lib unary c rest buffer = .ok (.var keyPath, s₁)) :
    lib.isJavaIdentifierStart c = true := by
  rcases readToken_cases h with ⟨value, hlit⟩ | ⟨hc, -⟩ | ⟨rest', hread⟩
  · cases hlit
  · exact hc
  · split at hread
    · exact absurd hread readUnary_ne_var
    · rcases readBinary_operator hread with ⟨op, hop⟩ | hop <;> cases hop

theorem readToken_ne_beginGroup
    (h : readToken lib false c rest buffer = .ok (.beginGroup, s₁)) : False := by
  rcases readToken_cases h with ⟨value, hlit⟩ | ⟨-, keyPath, hvar⟩ | ⟨rest', hread⟩
  · cases hlit
  · cases hvar
  · rw [if_neg Bool.false_ne_true] at hread
    rcases readBinary_operator hread with ⟨op, hop⟩ | hop <;> cases hop

theorem readVariable_reads : readVariable lib s = .ok ((.var keyPath : Token D), s₁) ↔
      parsePath lib s.input = .ok (keyPath, s₁.input) ∧ s₁.buffer = s.buffer := by
  unfold readVariable
  cases parsePath lib s.input with
  | error failure =>
    constructor
    · intro h
      cases h
    · rintro ⟨h, -⟩
      cases h
  | ok r =>
    obtain ⟨input, buffer⟩ := s₁
    constructor
    · intro h
      cases h
      exact ⟨rfl, rfl⟩
    · rintro ⟨h, hbuf⟩
      obtain rfl : buffer = s.buffer := hbuf
      cases h
      rfl

theorem keyword_unique {k k' : List Unit16} (hk : k ∈ keywords) (hk' : k' ∈ keywords)
    (h : k.head? = some c) (h' : k'.head? = some c) : k = k' := by
  have hall : ∀ a ∈ keywords, ∀ b ∈ keywords, a.head? = b.head? → a = b := by decide
  exact hall k hk k' hk' (h.trans h'.symm)

theorem head_of_isPrefix {l l' : List Unit16} (h : l <+: l') (hl : l.head? = some c) :
    l'.head? = some c := by
  obtain ⟨tail, rfl⟩ := h
  rw [head?_append, hl]
  rfl

theorem keyword_head (hmem : keyword ∈ keywords)
    (h : keyword <+: text) : keyword.head? = text.head? := by
  obtain ⟨tail, rfl⟩ := h
  simp only [keywords, mem_cons, not_mem_nil, or_false] at hmem
  rcases hmem with rfl | rfl | rfl <;> rfl

namespace VariablePath

variable (p : VariablePath lib)

theorem texts_not_letter (hmem : keyword ∈ keywords) (es : List Element) :
    ∀ c ∈ (es.flatMap Element.text).head?, c ∉ keyword := by
  intro c hc hletter
  obtain ⟨-, -, hdot, hbracket, -⟩ := keyword_letter hmem hletter
  cases es with
  | nil => cases hc
  | cons e es =>
    cases e with
    | identifier points => exact hdot (some.inj hc).symm
    | index digits => exact hbracket (some.inj hc).symm

/-- A path that is the beginning of a keyword is one identifier. -/
theorem eq_first_of_prefix (hsep : lib.Separates)
    (hmem : keyword ∈ keywords) (h : p.text <+: keyword) :
    p.elements = [] ∧ (∀ e ∈ p.all, e.Basic) ∧ p.text = p.first := by
  rw [p.text_eq hsep] at h
  have hnil := nil_of_prefix_stop h (texts_not_letter hmem p.elements)
  have helements : p.elements = [] := by
    have hlen := texts_length p.elements
    rw [hnil, length_nil] at hlen
    exact eq_nil_of_length_eq_zero (by omega)
  rw [hnil, append_nil] at h
  have hbasic : ∀ c ∈ p.first, c < 65536 := by
    by_contra hnot
    obtain ⟨pre, sup, post, hfst, -, hsup⟩ := utf16_cut hnot
    have hhigh : 55296 + (sup - 65536) / 1024 ∈ utf16 p.first := by
      refine mem_flatMap.mpr ⟨sup, hfst ▸ mem_append_right _ mem_cons_self, ?_⟩
      unfold unitsOf
      rw [if_neg hsup]
      exact .head _
    have hsmall := (keyword_letter hmem (h.subset hhigh)).2.2.2.2
    have hlarge : 128 ≤ 55296 + (sup - 65536) / 1024 := by omega
    exact absurd hsmall (Nat.not_lt.mpr hlarge)
  refine ⟨helements, ?_, ?_⟩
  · intro e he
    unfold all at he
    rw [helements, mem_singleton] at he
    rw [he]
    exact hbasic
  · rw [p.text_eq hsep, hnil, append_nil, utf16_basic hbasic]

/-- What is read is the path, and `rest` is left but for whitespace. -/
def Yields (rest : List Unit16) (read : Except Failure (Token D × Source)) : Prop :=
  ∃ s₁, read = .ok (.var p.keyPath, s₁) ∧
    s₁.input.dropWhile lib.isWhitespace = rest.dropWhile lib.isWhitespace

theorem readVariable_yields (hsep : lib.Separates) (hrest : EndsOperand lib rest)
    (hheads : ∀ x ∈ p.text.head?, lib.isJavaIdentifierStart x = true) (buffer : List Unit16) :
    p.Yields rest (readVariable lib ⟨p.text ++ rest, buffer⟩) ↔ ∀ e ∈ p.all, e.Basic := by
  by_cases hbasic : ∀ e ∈ p.all, e.Basic
  · refine iff_of_true ⟨⟨rest, buffer⟩, readVariable_reads.mpr ⟨?_, rfl⟩, rfl⟩ hbasic
    exact p.parsePath_basic hsep hbasic hrest
  · refine iff_of_false ?_ hbasic
    rintro ⟨s₁, hread, -⟩
    exact p.parsePath_broken hsep hbasic hheads rest _ (readVariable_reads.mp hread).1

/-- The name goes on behind the keyword, which is read alone. -/
theorem not_yields_of_prefix (hsep : lib.Separates) (h : keyword <+: utf16 p.first)
    (value : Literal D) :
    ¬ p.Yields rest (readKeywordOrVariable lib keyword value ⟨p.text ++ rest, buffer⟩) := by
  rintro ⟨s₁, hvar, -⟩
  have hpre : keyword <+: p.text ++ rest := by
    rw [p.text_eq hsep, append_assoc]
    exact h.trans (prefix_append _ _)
  obtain ⟨tail, htail⟩ := hpre
  obtain ⟨buffer', hmatch, -⟩ := readKeyword_match keyword tail buffer
  unfold readKeywordOrVariable at hvar
  rw [← htail, hmatch] at hvar
  cases hvar

/-- The text ends before the keyword does, and a character of the buffer comes behind it. -/
theorem yields_end_iff (hsep : lib.Separates) (hmem : keyword ∈ keywords)
    (hheads : ∀ x ∈ p.text.head?, lib.isJavaIdentifierStart x = true)
    (hpre : p.text <+: keyword) (hlt : p.text.length < keyword.length)
    (hbuf : p.text.length < buffer.length) (value : Literal D) :
    p.Yields [] (readKeywordOrVariable lib keyword value ⟨p.text, buffer⟩) ↔
      lib.isWhitespace (buffer.getD p.text.length 0) = true := by
  obtain ⟨helements, hbasic, hown⟩ := p.eq_first_of_prefix hsep hmem hpre
  obtain ⟨buffer', hend⟩ := readKeyword_end hpre hlt hbuf
  have hid := p.first_identifier
  have hkeyPath : p.keyPath = [p.text] := by
    show utf16 p.first :: p.elements.map Element.key = _
    rw [helements, hown, utf16_basic (hbasic _ mem_cons_self : ∀ x ∈ p.first, x < 65536)]
    rfl
  obtain ⟨c, cs, htext⟩ : ∃ c cs, p.text = c :: cs := by
    obtain ⟨c, cs, hfst, -⟩ := utf16_eq hsep hid
    exact ⟨c, _, by rw [p.text_eq hsep, hfst, cons_append]⟩
  rw [← hown, htext] at hid
  have hst : lib.isJavaIdentifierStart c = true := hheads c (by rw [htext]; rfl)
  have hstray := parsePath_stray hst (keyChars hsep hid) (buffer.getD p.text.length 0)
  rw [← htext] at hstray
  rw [← hstray, Yields, readKeywordOrVariable, hend, hkeyPath]
  constructor
  · rintro ⟨s₁, hvar, hwhite⟩
    exact ⟨s₁.input, (readVariable_reads.mp hvar).1, hwhite⟩
  · rintro ⟨input, hparse, hwhite⟩
    exact ⟨⟨input, buffer'⟩, readVariable_reads.mpr ⟨hparse, rfl⟩, hwhite⟩

theorem yields_mismatch_iff (hsep : lib.Separates) (hrest : EndsOperand lib rest)
    (hheads : ∀ x ∈ p.text.head?, lib.isJavaIdentifierStart x = true)
    (hin : ¬ keyword <+: p.text ++ rest) (hkey : ¬ p.text ++ rest <+: keyword)
    (hbuf : keyword.length ≤ buffer.length) (value : Literal D) :
    p.Yields rest (readKeywordOrVariable lib keyword value ⟨p.text ++ rest, buffer⟩) ↔
      ∀ e ∈ p.all, e.Basic := by
  obtain ⟨buffer', hmiss, -⟩ := readKeyword_mismatch hin hkey buffer hbuf
  rw [readKeywordOrVariable, hmiss]
  exact p.readVariable_yields hsep hrest hheads buffer'

/-- A path with the first letter of the keyword. -/
theorem readKeywordOrVariable_yields (hsep : lib.Separates) (hmem : keyword ∈ keywords)
    (hhead : keyword.head? = p.text.head?) (hrest : EndsOperand lib rest)
    (hheads : ∀ x ∈ p.text.head?, lib.isJavaIdentifierStart x = true)
    (hbuf : buffer.length = 6) (value : Literal D) :
    p.Yields rest (readKeywordOrVariable lib keyword value ⟨p.text ++ rest, buffer⟩) ↔
      p.Unbroken buffer rest := by
  obtain ⟨c, cs, hfst, -⟩ := utf16_eq hsep p.first_identifier
  have htext : p.text.head? = some c := by rw [p.text_eq hsep, hfst]; rfl
  have hfirst : (utf16 p.first).head? = some c := by rw [hfst]; rfl
  have hunique : ∀ k ∈ keywords, k.head? = some c → k = keyword := fun k hk h =>
    keyword_unique hk hmem h (hhead.trans htext)
  by_cases hlong : keyword <+: utf16 p.first
  · exact iff_of_false (p.not_yields_of_prefix hsep hlong value) fun h => h.2.1 keyword hmem hlong
  have hname : ¬ keyword <+: p.text := by
    intro hpre
    rw [p.text_eq hsep] at hpre
    exact hlong (prefix_of_stop hpre (texts_not_letter hmem p.elements))
  have hothers : ∀ k ∈ keywords, ¬ k <+: utf16 p.first := by
    intro k hk hpre
    exact hlong (hunique k hk ((keyword_head hk hpre).trans hfirst) ▸ hpre)
  have hshort : keyword.length ≤ 6 := by
    have hall : ∀ k ∈ keywords, k.length ≤ 6 := by decide
    exact hall keyword hmem
  by_cases hcut : rest = [] ∧ p.text <+: keyword
  · obtain ⟨rfl, hpre⟩ := hcut
    have hlt : p.text.length < keyword.length := by
      rcases Nat.lt_or_ge p.text.length keyword.length with h | h
      · exact h
      · exact absurd (hpre.eq_of_length_le h ▸ prefix_refl _) hname
    rw [append_nil, p.yields_end_iff hsep hmem hheads hpre hlt (by omega)]
    exact ⟨fun hw => ⟨(p.eq_first_of_prefix hsep hmem hpre).2.1, hothers, fun _ _ _ _ => hw⟩,
      fun h => h.2.2 rfl keyword hmem hpre⟩
  · obtain ⟨hin, hkey⟩ := keyword_mismatch hmem hname hrest fun hnil hpre => hcut ⟨hnil, hpre⟩
    rw [p.yields_mismatch_iff hsep hrest hheads hin hkey (hbuf ▸ hshort)]
    refine ⟨fun hbasic => ⟨hbasic, hothers, fun hnil k hk hpre => ?_⟩, fun h => h.1⟩
    exact absurd ⟨hnil, hunique k hk (head_of_isPrefix hpre htext) ▸ hpre⟩ hcut

/-- The next token is the path exactly when the path is not broken up. -/
theorem reads_iff (hsep : lib.Separates) {ws rest : List Unit16} {s : Source}
    (hws : ∀ c ∈ ws, lib.isWhitespace c = true) (hinput : s.input = ws ++ p.text ++ rest)
    (hrest : EndsOperand lib rest) (hbuf : s.buffer.length = 6) (unary : Bool) :
    ReadsVariable lib unary s p.keyPath rest ↔ p.Unbroken s.buffer rest := by
  obtain ⟨c, cs', hfst, -, hwhite, hbegin⟩ := utf16_eq hsep p.first_identifier
  obtain ⟨cs, htext⟩ : ∃ cs, p.text = c :: cs := ⟨_, by rw [p.text_eq hsep, hfst, cons_append]⟩
  have hdrop : s.input.dropWhile lib.isWhitespace = c :: (cs ++ rest) := by
    rw [hinput, append_assoc, dropWhile_append_of_pos hws, htext, cons_append,
      dropWhile_cons_of_neg (by simp [hwhite])]
  have hreads : ReadsVariable lib unary s p.keyPath rest ↔
      p.Yields rest (readToken lib unary c (cs ++ rest) s.buffer) := by
    constructor
    · rintro ⟨c', cs'', s₁, hdrop', hread, hend⟩
      rw [hdrop] at hdrop'
      cases hdrop'
      exact ⟨s₁, hread, hend⟩
    · rintro ⟨s₁, hread, hend⟩
      exact ⟨c, cs ++ rest, s₁, hdrop, hread, hend⟩
  rw [hreads]
  by_cases hst : lib.isJavaIdentifierStart c = true
  swap
  · -- half a surrogate pair begins no token
    refine iff_of_false (fun ⟨s₁, hread, _⟩ => hst (start_of_readToken hread)) fun h => ?_
    have hown := utf16_basic (h.1 _ mem_cons_self : ∀ x ∈ p.first, x < 65536)
    have hid := p.first_identifier
    rw [hown] at hfst
    rw [hfst] at hid
    exact hst hid.1
  have hheads : ∀ x ∈ p.text.head?, lib.isJavaIdentifierStart x = true := by
    intro x hx
    rw [htext] at hx
    obtain rfl : c = x := some.inj hx
    exact hst
  have hall : c :: (cs ++ rest) = p.text ++ rest := by rw [htext, cons_append]
  have hhead : p.text.head? = some c := by rw [htext]; rfl
  rcases @readToken_start D lib c hst with ⟨keyword, hmem, value, hkey, hread⟩ | ⟨hnone, hread⟩
  · rw [hread, hall]
    exact p.readKeywordOrVariable_yields hsep hmem (hkey.trans hhead.symm) hrest hheads hbuf value
  · rw [hread, hall, p.readVariable_yields hsep hrest hheads]
    refine ⟨fun hbasic => ⟨hbasic, fun k hk hpre => ?_, fun _ k hk hpre => ?_⟩, fun h => h.1⟩
    · exact hnone k hk ((keyword_head hk hpre).trans (by rw [hfst]; rfl))
    · exact absurd (head_of_isPrefix hpre hhead) (hnone k hk)

end VariablePath

/-! ## The variable alone -/

/-- Whether a token ends up in the postfix list. -/
def Token.isListed : Token D → Bool
  | .beginGroup | .endGroup => false
  | _ => true

/-- The number of tokens that are in the postfix list or will be. -/
def Yard.weight (y : Yard D) : Nat := y.tokens.countP Token.isListed + y.stack.countP Token.isListed

theorem popGroup_weight {tokens stack : List (Token D)} (h : popGroup tokens stack = .ok y) :
    y.weight = tokens.countP Token.isListed + stack.countP Token.isListed := by
  induction stack generalizing tokens with
  | nil => cases h
  | cons t stack ih =>
    have hnxt : popGroup (tokens ++ [t]) stack = .ok y →
        y.weight = tokens.countP Token.isListed + (t :: stack).countP Token.isListed := by
      intro hpop
      rw [ih hpop, countP_append, countP_cons, countP_cons, countP_nil]
      omega
    cases t with
    | beginGroup =>
      cases h
      rw [countP_cons_of_neg Bool.false_ne_true]
      rfl
    | _ => exact hnxt h

theorem Yard.process_weight {y1 : Yard D} (h : y.process t = .ok y1) :
    y1.weight = y.weight + if t.isListed then 1 else 0 := by
  have hpush : ∀ op, (y.pushOperator t op).weight = y.weight + if t.isListed then 1 else 0 := by
    intro op
    have hspl := congrArg (List.countP Token.isListed)
      (takeWhile_append_dropWhile (p := Token.yields op.priority) (l := y.stack))
    rw [countP_append] at hspl
    unfold Yard.pushOperator Yard.weight
    rw [countP_append, countP_cons]
    omega
  cases t with
  | literal value | var keyPath =>
    cases h
    simp only [Yard.weight, countP_append, countP_singleton]
    omega
  | unaryOperator op | binaryOperator op =>
    cases h
    exact hpush op
  | beginGroup =>
    cases h
    simp only [Yard.weight, countP_cons]
    rfl
  | endGroup => exact popGroup_weight h

theorem tokenizeLoop_weight
    {ts : List (Token D)} (h : tokenizeLoop lib fuel unary s y = .ok ts) : y.weight ≤ ts.length := by
  induction fuel generalizing unary s y with
  | zero => cases h
  | succ fuel ih =>
    rw [tokenizeLoop] at h
    split at h
    · cases h
      rw [length_append]
      exact Nat.add_le_add countP_le_length countP_le_length
    split at h
    · cases h
    split at h
    · cases h
    · next y1 hprocess =>
      have hstep := Yard.process_weight hprocess
      have hrest := ih h
      omega

theorem tokenizeLoop_operand {u : Token D}
    (h : tokenizeLoop lib fuel false s ⟨[t], []⟩ = .ok [u]) (ht : t.isListed = true) :
    t = u ∧ s.input.dropWhile lib.isWhitespace = [] := by
  cases fuel with
  | zero => cases h
  | succ fuel =>
    rw [tokenizeLoop] at h
    split at h
    · next hdone =>
      cases h
      exact ⟨rfl, hdone⟩
    · next c rest hdrop =>
      split at h
      · cases h
      next t2 s2 hread =>
      split at h
      · cases h
      next y1 hprocess =>
      exfalso
      have hstep := Yard.process_weight hprocess
      have hrest := tokenizeLoop_weight h
      have hone : (⟨[t], []⟩ : Yard D).weight = 1 := by
        simp [Yard.weight, ht]
      rw [hone] at hstep
      rw [length_singleton, hstep] at hrest
      have hlisted : t2.isListed = false := by
        cases hl : t2.isListed
        · rfl
        · rw [hl] at hrest
          exact absurd hrest (by decide)
      -- neither a group can begin behind an operand nor one end that has not begun
      cases t2 with
      | beginGroup => exact readToken_ne_beginGroup hread
      | endGroup => cases hprocess
      | _ => cases hlisted

/-- The whole text is one variable exactly when its first token is. -/
theorem VariablePath.valueOf_iff (hsep : lib.Separates) (p : VariablePath lib) :
    valueOf lib p.text = .ok (.var p.keyPath) ↔
      ReadsVariable lib true ⟨p.text, List.replicate 6 0⟩ p.keyPath [] := by
  obtain ⟨c, cs', hfst, -, hwhite, hbegin⟩ := utf16_eq hsep p.first_identifier
  obtain ⟨cs, htext⟩ : ∃ cs, p.text = c :: cs := ⟨_, by rw [p.text_eq hsep, hfst, cons_append]⟩
  have hdrop : p.text.dropWhile lib.isWhitespace = c :: cs := by
    rw [htext, dropWhile_cons_of_neg (by simp [hwhite])]
  have hval : valueOf lib p.text = .ok (.var p.keyPath) ↔
      tokenize lib p.text = .ok [.var p.keyPath] := by
    unfold valueOf
    cases tokenize lib p.text with
    | error failure => exact iff_of_false (nofun) (nofun)
    | ok ts =>
      rw [Except.ok.injEq]
      exact buildTree_eq_iff trivial
  rw [hval]
  unfold tokenize
  rw [show 2 * p.text.length + 2 = (2 * p.text.length + 1) + 1 from rfl, tokenizeLoop]
  simp only [hdrop]
  constructor
  · intro h
    split at h
    · cases h
    next t s₁ hread =>
    split at h
    · cases h
    next y1 hprocess =>
    have hnotop : c ∉ operatorChars := by
      intro hop
      rcases hbegin with hst | ⟨hlarge, -⟩
      · rw [(lib.operator_plain c hop).2.2.1] at hst
        cases hst
      · have hall : ∀ x ∈ operatorChars, x < 55296 := by decide
        exact absurd (hall c hop) (Nat.not_lt.mpr hlarge)
    have hdone : t = .var p.keyPath ∧ s₁.input.dropWhile lib.isWhitespace = [] := by
      rcases readToken_cases hread with ⟨value, rfl⟩ | ⟨-, keyPath, rfl⟩ | ⟨rest', htable⟩
      · cases hprocess
        exact tokenizeLoop_operand h rfl
      · cases hprocess
        exact tokenizeLoop_operand h rfl
      · rw [if_pos rfl] at htable
        exact absurd (readUnary_char htable) hnotop
    obtain ⟨rfl, hrest⟩ := hdone
    exact ⟨c, cs, s₁, hdrop, hread, hrest⟩
  · rintro ⟨c', cs'', s₁, hdrop', hread, hrest⟩
    rw [hdrop] at hdrop'
    cases hdrop'
    simp only [hread, Yard.process, Token.expectsOperand, nil_append]
    have hnil : s₁.input.dropWhile lib.isWhitespace = [] := hrest
    rw [tokenizeLoop]
    simp only [hnil, append_nil]

/-! ## Every key path -/

/-- A key path is read as one variable, wherever an operand can stand, exactly when it is not broken
    up; alone, its text is then the variable. -/
theorem readsVariable_iff_unbroken (hsep : lib.Separates) (p : VariablePath lib) :
    (∀ {text ws rest : List Unit16} {unary : Bool} {s : Source} {y : Yard D},
      Reached lib text unary s y → (∀ c ∈ ws, lib.isWhitespace c = true) →
      s.input = ws ++ p.text ++ rest → EndsOperand lib rest →
      (ReadsVariable lib unary s p.keyPath rest ↔ p.Unbroken s.buffer rest)) ∧
    (valueOf lib p.text = .ok (.var p.keyPath) ↔ p.Unbroken (List.replicate 6 0) []) := by
  constructor
  · intro text ws rest unary s y hreached hws hinput hrest
    exact p.reads_iff hsep hws hinput hrest hreached.buffer_length unary
  · rw [p.valueOf_iff hsep]
    exact @VariablePath.reads_iff D lib p hsep [] [] ⟨p.text, List.replicate 6 0⟩
      (fun c hc => by cases hc) (append_nil _).symm (fun c hc => by cases hc) rfl true

theorem asciiLibrary_separates : asciiLibrary.Separates where
  separator_part := by decide
  start_part := by
    intro (c : Nat) hc
    simp only [asciiLibrary, Bool.or_eq_true, Bool.and_eq_true, decide_eq_true_eq,
      beq_iff_eq] at hc ⊢
    omega
  digit_index := by
    intro (c : Nat) hc
    simp only [asciiLibrary, Bool.or_eq_false_iff, Bool.and_eq_true, decide_eq_true_eq,
      decide_eq_false_iff_not, beq_eq_false_iff_ne] at hc ⊢
    have hbracket : c ≠ 93 := by omega
    exact ⟨⟨by omega, by omega⟩, hbracket⟩
  surrogate_plain := by
    intro (c : Nat) (hlow : 55296 ≤ c) hhigh
    simp only [asciiLibrary, Bool.or_eq_false_iff, Bool.and_eq_false_iff, decide_eq_false_iff_not,
      beq_eq_false_iff_ne]
    refine ⟨?_, ?_, ?_, ?_⟩ <;> grind

def namePath (first : List Nat) (hfst : IsIdentifier asciiLibrary first)
    (hplain : utf16 first ∉ keywords) : VariablePath asciiLibrary :=
  ⟨first, [], hfst, hplain, fun e he => by cases he⟩

/-- The path `tab[1].x`. -/
def tabPath : VariablePath asciiLibrary where
  first := ['t', 'a', 'b'].map Char.toNat
  elements := [.index (['1'].map Char.toNat), .identifier (['x'].map Char.toNat)]
  first_identifier := by decide
  first_plain := by decide
  elements_valid := by decide

/-- The path `tab[1].x`, alone and before an operator. -/
theorem readsVariable_iff_unbroken_tab :
    valueOf asciiLibrary (['t', 'a', 'b', '[', '1', ']', '.', 'x'].map Char.toNat) =
      .ok (.var ([['t', 'a', 'b'], ['1'], ['x']].map (·.map Char.toNat))) ∧
    ReadsVariable asciiLibrary true
      ⟨['t', 'a', 'b', '[', '1', ']', '.', 'x', '+', 'y'].map Char.toNat, List.replicate 6 0⟩
      ([['t', 'a', 'b'], ['1'], ['x']].map (·.map Char.toNat)) (['+', 'y'].map Char.toNat) := by
  have h := readsVariable_iff_unbroken asciiLibrary_separates tabPath
  refine ⟨h.2.mpr (by decide), (@h.1 _ [] _ _ _ _ .start (fun c hc => by cases hc) rfl ?_).mpr ?_⟩
  · intro c hc
    obtain rfl : '+'.toNat = c := some.inj hc
    exact Or.inr (by decide)
  · decide

/-- A keyword and a name, and `n` with an empty character. -/
theorem readsVariable_fails : (∃ p : VariablePath asciiLibrary,
      p.text = ['n', 'u', 'l', 'l', 'a', 'b', 'l', 'e'].map Char.toNat ∧
      valueOf asciiLibrary p.text = .error .invalidExpression) ∧
    ∃ p : VariablePath asciiLibrary, p.text = ['n'].map Char.toNat ∧
      p.keyPath = [['n'.toNat]] ∧ valueOf asciiLibrary p.text = .ok (.var [['n'.toNat, 0]]) :=
  ⟨⟨namePath (['n', 'u', 'l', 'l', 'a', 'b', 'l', 'e'].map Char.toNat) (by decide) (by decide),
    rfl, rfl⟩, ⟨namePath (['n'].map Char.toNat) (by decide) (by decide), rfl, rfl, rfl⟩⟩

end OpenJfx.Fxml
