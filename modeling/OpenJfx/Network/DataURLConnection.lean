/-
  OpenJfx.Network.DataURLConnection

  The handler of `data:` URLs.  `urlDecode` makes a string of each series of `%xy` with the
  charset of the URL and encodes the whole again.  `segments` parts a text as the loop does.
-/

import OpenJfx.Lib.JavaArray
import OpenJfx.Network.Cookie

namespace OpenJfx.Network

open List Option

open OpenJfx (JavaException)

/-! ## The Java library -/

/-- The value of an ASCII character as a hexadecimal digit. -/
def hexDigit (c : Nat) : Option Nat :=
  if 48 ≤ c ∧ c ≤ 57 then some (c - 48)
  else if 65 ≤ c ∧ c ≤ 70 then some (c - 55)
  else if 97 ≤ c ∧ c ≤ 102 then some (c - 87)
  else none

/-- Strings of bytes, and bytes of strings. -/
structure Charset where
  name : Text
  decode : List UInt8 → Text
  encode : Text → List UInt8

/-- What the handler uses of the Java library beyond ASCII. -/
structure DataLibrary where
  /-- `Character.digit(c, 16)`. -/
  digit : Nat → Option Nat
  toLowerCase : Text → Text
  equalsIgnoreCase : Text → Text → Bool
  forName : Text → Option Charset
  /-- `Base64.getMimeDecoder().decode`. -/
  mimeDecode : Text → Except JavaException (List UInt8)
  digit_ascii : ∀ c < 128, digit c = hexDigit c
  toLowerCase_ascii : ∀ t, Ascii t → toLowerCase t = t.map asciiLower
  equalsIgnoreCase_ascii : ∀ a b, Ascii a → Ascii b →
    equalsIgnoreCase a b = decide (a.map asciiLower = b.map asciiLower)

variable {pair : Nat → Nat → Option UInt8}

namespace DataURLConnection

variable (lib : DataLibrary)

/-- Bytes beyond ASCII become the replacement character. -/
def asciiChar (b : UInt8) : Nat := if b < 128 then b.toNat else 0xFFFD

def asciiByte (c : Nat) : UInt8 := if c < 128 then UInt8.ofNat c else 63

/-- What cannot be encoded becomes a question mark. -/
def asciiEncode : Text → List UInt8
  | [] => []
  | [c] => [asciiByte c]
  | c :: d :: rest =>
    if 0xD800 ≤ c ∧ c < 0xDC00 ∧ 0xDC00 ≤ d ∧ d < 0xE000 then 63 :: asciiEncode rest
    else asciiByte c :: asciiEncode (d :: rest)

def usAscii : Charset where
  name := text ['U', 'S', '-', 'A', 'S', 'C', 'I', 'I']
  decode bytes := bytes.map asciiChar
  encode := asciiEncode

/-- Two characters, of which the first may be a sign. -/
def parseInt (x y : Nat) : Option UInt8 :=
  if x < 48 then
    if x = 45 then (lib.digit y).map fun d => UInt8.ofNat (256 - d)
    else if x = 43 then (lib.digit y).map UInt8.ofNat
    else none
  else do
    let a ← lib.digit x
    let b ← lib.digit y
    return UInt8.ofNat (16 * a + b)

/-! ## Decoding -/

/-- Bytes, the characters passed and those after. -/
def series (capacity : Nat) (bytes : List UInt8) :
    Text → Except JavaException (List UInt8 × Text × Text)
  | [] => .ok (bytes, [], [])
  | 37 :: x :: y :: rest =>
    match parseInt lib x y with
    | none => .ok (bytes, [37, x, y], rest)
    | some b =>
      if bytes.length < capacity then series capacity (bytes ++ [b]) rest
      else .error .indexOutOfBounds
  -- not enough characters
  | 37 :: rest => .ok (bytes, 37 :: rest, [])
  | c :: rest => .ok (bytes, [], c :: rest)

/-- The loop of `urlDecode`, with at most `fuel` turns. -/
def decodeLoop (charset : Charset) (capacity : Option Nat) (sb : Text) :
    Nat → Text → Except JavaException Text
  | 0, _ => .ok sb
  | _ + 1, [] => .ok sb
  | fuel + 1, c :: rest =>
    if c = 37 then
      let capacity := capacity.getD ((c :: rest).length / 3)
      match series lib capacity [] (c :: rest) with
      | .error e => .error e
      | .ok (bytes, literal, rest) =>
        let sb := if bytes.length > 0 then sb ++ charset.decode bytes else sb
        decodeLoop charset (some capacity) (sb ++ literal) fuel rest
    else decodeLoop charset capacity (sb ++ [c]) fuel rest

/-- `URLDecoder.decode`. -/
def urlDecode (str : Text) (charset : Charset) : Except JavaException Text :=
  decodeLoop lib charset none [] str.length str

/-! ## Opening a URL -/

/-- The connection, or the exception of the constructor. -/
inductive OpenError where
  /-- `ProtocolException`: "Invalid URL, ',' not found in: " and the URL. -/
  | protocol (message url : Text)
  | unsupportedEncoding
  | runtime (e : JavaException)
  deriving DecidableEq, Repr

/-- `DataURLConnection`. -/
structure Connection where
  mediaType : Text
  data : List UInt8
  deriving DecidableEq, Repr

def indexOf (c : Nat) (t : Text) : Option Nat := t.findIdx? (· = c)

/-- `split(";", -1)`. -/
def splitSemicolons : Text → List Text
  | [] => [[]]
  | c :: rest =>
    if c = 59 then [] :: splitSemicolons rest
    else match splitSemicolons rest with
      | [] => [[c]]
      | first :: others => (c :: first) :: others

def base64Name : Text := text ['b', 'a', 's', 'e', '6', '4']

def charsetPrefix : Text := text ['c', 'h', 'a', 'r', 's', 'e', 't', '=']

def textPlain : Text := text ['t', 'e', 'x', 't', '/', 'p', 'l', 'a', 'i', 'n']

/-- What the components before the comma say. -/
structure Metadata where
  mimeType : Option Text
  parameters : List Text
  charset : Option Charset
  base64 : Bool

/-- The loop over the components, from index `i`. -/
def readComponents (m : Metadata) (i : Nat) : List Text → Except OpenError Metadata
  | [] => .ok m
  | component :: rest =>
    if lib.equalsIgnoreCase component base64Name then
      readComponents { m with base64 := true } (i + 1) rest
    else if i = 0 ∧ 61 ∉ component then
      readComponents { m with mimeType := some component } (i + 1) rest
    else
      let m := { m with parameters := m.parameters ++ [component] }
      if charsetPrefix.isPrefixOf (lib.toLowerCase component) then
        match lib.forName (component.drop 8) with
        | some charset => readComponents { m with charset := some charset } (i + 1) rest
        | none => .error .unsupportedEncoding
      else readComponents m (i + 1) rest

/-- `\\s` of a regular expression. -/
def isSpace (c : Nat) : Bool := c = 32 || (9 ≤ c && c ≤ 13)

/-- The constructor. -/
def openURL (url : Text) : Except OpenError Connection := do
  let content := match indexOf 58 url with
    | some i => url.drop (i + 1)
    | none => url
  match indexOf 44 content with
  | none =>
    .error (.protocol (text ['I', 'n', 'v', 'a', 'l', 'i', 'd', ' ', 'U', 'R', 'L', ',', ' ', '\'', ',',
      '\'', ' ', 'n', 'o', 't', ' ', 'f', 'o', 'u', 'n', 'd', ' ', 'i', 'n', ':', ' ']) url)
  | some commaPosition =>
    let dataString := content.drop (commaPosition + 1)
    let m ← readComponents lib ⟨none, [], none, false⟩ 0 (splitSemicolons (content.take commaPosition))
    let mimeType := match m.mimeType with
      | none | some [] => textPlain
      | some mimeType => mimeType
    let charset := m.charset.getD usAscii
    let parameters :=
      if m.charset.isNone ∧ (text ['t', 'e', 'x', 't', '/']).isPrefixOf (lib.toLowerCase mimeType) then
        (charsetPrefix ++ charset.name) :: m.parameters
      else m.parameters
    let mediaType := mimeType ++ parameters.flatMap (59 :: ·)
    let decoded := if m.base64 then urlDecode lib dataString usAscii else urlDecode lib dataString charset
    match decoded with
    | .error e => .error (.runtime e)
    | .ok s =>
      if m.base64 then
        match lib.mimeDecode (s.filter fun c => !isSpace c) with
        | .error e => .error (.runtime e)
        | .ok data => .ok ⟨mediaType, data⟩
      else .ok ⟨mediaType, charset.encode s⟩

def Connection.getContentLength (c : Connection) : Int := c.data.length

/-! ## Segments -/

/-- What a part of the URL stands for. -/
inductive Segment where
  | literal (c : Nat)
  | byte (b : UInt8)
  | malformed (cs : Text)
  deriving DecidableEq, Repr

/-- `pair` tells the characters after a percent sign. -/
def segments (pair : Nat → Nat → Option UInt8) : Text → List Segment
  | [] => []
  | c :: x :: y :: rest =>
    if c = 37 then
      match pair x y with
      | some b => .byte b :: segments pair rest
      | none => .malformed [c, x, y] :: segments pair rest
    else .literal c :: segments pair (x :: y :: rest)
  | c :: rest =>
    if c = 37 then [.malformed (c :: rest)] else .literal c :: segments pair rest

/-- The bytes of a series, as a string. -/
def flush (decode : List UInt8 → Text) (bytes : List UInt8) : Text :=
  if bytes.length > 0 then decode bytes else []

/-- The string of some segments, after the bytes of a series. -/
def assemble (decode : List UInt8 → Text) (bytes : List UInt8) : List Segment → Text
  | [] => flush decode bytes
  | .literal c :: rest => flush decode bytes ++ c :: assemble decode [] rest
  | .byte b :: rest => assemble decode (bytes ++ [b]) rest
  | .malformed cs :: rest => flush decode bytes ++ cs ++ assemble decode [] rest

/-- A series ends where the segments go on with something else. -/
theorem series_eq (decode : List UInt8 → Text) {capacity : Nat} {bytes : List UInt8} {str : Text}
    (hroom : 3 * bytes.length + str.length < 3 * (capacity + 1)) :
    ∃ bytes' literal rest, series lib capacity bytes str = .ok (bytes', literal, rest) ∧
      rest.length ≤ str.length ∧ (str.head? = some 37 → rest.length < str.length) ∧
      assemble decode bytes (segments (parseInt lib) str) =
        flush decode bytes' ++ literal ++ assemble decode [] (segments (parseInt lib) rest) := by
  fun_induction series lib capacity bytes str with
  | case1 bytes =>
    exact ⟨bytes, [], [], rfl, Nat.le_refl _, nofun, by simp [segments, assemble, flush]⟩
  | case2 bytes x y rest hnone =>
    refine ⟨bytes, [37, x, y], rest, rfl, by simp only [length_cons]; omega,
      fun _ => by simp only [length_cons]; omega, ?_⟩
    rw [segments, if_pos rfl, hnone]
    rfl
  | case3 bytes x y rest b hb hlt ih =>
    obtain ⟨bytes', literal, rest', hrun, hle, -, heq⟩ := ih (by
      simp only [length_append, length_cons, length_nil] at hroom ⊢
      omega)
    refine ⟨bytes', literal, rest', hrun, by simp only [length_cons]; omega,
      fun _ => by simp only [length_cons]; omega, ?_⟩
    rw [segments, if_pos rfl, hb]
    exact heq
  | case4 bytes x y rest b hb hfull =>
    simp only [length_cons] at hroom
    omega
  | case5 bytes rest hshort =>
    refine ⟨bytes, 37 :: rest, [], rfl, Nat.zero_le _, fun _ => Nat.succ_pos _, ?_⟩
    match rest, hshort with
    | [], _ | [x], _ => simp [segments, assemble, flush]
    | x :: y :: rest, hshort => exact absurd rfl (hshort x y rest)
  | case6 bytes c rest hpair hpercent =>
    have hc : c ≠ 37 := hpercent
    refine ⟨bytes, [], c :: rest, rfl, Nat.le_refl _, fun h => absurd (some.inj h) hc, ?_⟩
    rw [append_nil]
    match rest with
    | [] | [x] | x :: y :: rest => simp [segments, assemble, flush, hc]

theorem segments_cons {c : Nat} (hc : c ≠ 37) (rest : Text) :
    segments pair (c :: rest) = .literal c :: segments pair rest := by
  match rest with
  | [] | [x] | x :: y :: rest => simp [segments, hc]

theorem decodeLoop_eq (charset : Charset) {capacity : Option Nat} (sb : Text) {fuel : Nat} {str : Text}
    (hfuel : str.length ≤ fuel) (hcapacity : ∀ n, capacity = some n → str.length < 3 * (n + 1)) :
    decodeLoop lib charset capacity sb fuel str =
      .ok (sb ++ assemble charset.decode [] (segments (parseInt lib) str)) := by
  induction fuel generalizing capacity sb str with
  | zero =>
    obtain rfl := length_eq_zero_iff.1 (Nat.le_zero.1 hfuel)
    simp [decodeLoop, segments, assemble, flush]
  | succ fuel ih =>
    cases str with
    | nil => simp [decodeLoop, segments, assemble, flush]
    | cons c rest =>
      rw [decodeLoop]
      have hlen : (c :: rest).length < 3 * (capacity.getD ((c :: rest).length / 3) + 1) := by
        cases capacity with
        | none =>
          rw [getD_none]
          omega
        | some n => exact hcapacity n rfl
      by_cases hc : c = 37
      · rw [if_pos hc]
        obtain ⟨bytes, literal, rest', hrun, hle, hlt, heq⟩ :=
          @series_eq lib charset.decode (capacity.getD ((c :: rest).length / 3)) [] (c :: rest)
            (by rw [length_nil]; omega)
        have hlt := hlt (congrArg some hc)
        simp only [hrun]
        rw [ih _ (by omega) (by rintro _ ⟨⟩; omega), heq, flush]
        split
        · simp only [append_assoc]
        · simp only [append_assoc, nil_append]
      · rw [if_neg hc, ih _ (Nat.le_of_succ_le_succ hfuel)
          (fun n hn => Nat.lt_of_succ_lt (hcapacity n hn)), segments_cons hc, assemble]
        simp [flush]

theorem urlDecode_eq (str : Text) (charset : Charset) :
    urlDecode lib str charset = .ok (assemble charset.decode [] (segments (parseInt lib) str)) :=
  decodeLoop_eq lib charset [] (Nat.le_refl _) nofun

/-! ## ASCII -/

/-- What a segment becomes with `US_ASCII`. -/
def Segment.ascii : Segment → Text
  | .literal c => [c]
  | .byte b => [asciiChar b]
  | .malformed cs => cs

theorem assemble_usAscii (bytes : List UInt8) (l : List Segment) :
    assemble usAscii.decode bytes l = bytes.map asciiChar ++ l.flatMap Segment.ascii := by
  have hflush : ∀ bytes, flush usAscii.decode bytes = bytes.map asciiChar := by
    intro bytes
    cases bytes <;> rfl
  induction l generalizing bytes with
  | nil => rw [assemble, hflush, flatMap_nil, append_nil]
  | cons segment l ih =>
    cases segment with
    | literal c => rw [assemble, hflush, ih]; rfl
    | byte b => rw [assemble, ih, map_append, append_assoc]; rfl
    | malformed cs => rw [assemble, hflush, ih, append_assoc]; rfl

/-- Two hexadecimal digits. -/
def hexPair (x y : Nat) : Option UInt8 := do
  let a ← hexDigit x
  let b ← hexDigit y
  return UInt8.ofNat (16 * a + b)

theorem ascii_of_hexDigit {c a : Nat} (h : hexDigit c = some a) : 48 ≤ c ∧ c < 128 := by
  rw [hexDigit] at h
  split at h
  · omega
  · split at h
    · omega
    · split at h
      · omega
      · cases h

theorem parseInt_of_hexPair {x y : Nat} {b : UInt8} (h : hexPair x y = some b) :
    parseInt lib x y = some b := by
  obtain ⟨a, ha, h1⟩ := bind_eq_some_iff.1 h
  obtain ⟨a', ha', h2⟩ := bind_eq_some_iff.1 h1
  have hx := ascii_of_hexDigit ha
  have hy := ascii_of_hexDigit ha'
  rw [parseInt, if_neg (by omega), lib.digit_ascii x hx.2, lib.digit_ascii y hy.2]
  exact h

/-! ## The bytes of a URL -/

/-- The text writes each byte as `%xy` or literally. -/
inductive Writes : List UInt8 → Text → Prop
  | nil : Writes [] []
  | pair {bytes : List UInt8} {t : Text} {x y : Nat} {b : UInt8} (hb : hexPair x y = some b)
      (h : Writes bytes t) : Writes (b :: bytes) (37 :: x :: y :: t)
  | literal {bytes : List UInt8} {t : Text} {b : UInt8} (hb : b < 128) (hpercent : b ≠ 37)
      (h : Writes bytes t) : Writes (b :: bytes) (b.toNat :: t)

theorem Writes.segments {bytes : List UInt8} {t : Text} (h : Writes bytes t) :
    (segments (parseInt lib) t).flatMap Segment.ascii = bytes.map asciiChar := by
  induction h with
  | nil => rfl
  | pair hb _ ih =>
    rw [DataURLConnection.segments, if_pos rfl, parseInt_of_hexPair lib hb, flatMap_cons, ih]
    rfl
  | @literal bytes t b hb hpercent _ ih =>
    have hne : b.toNat ≠ 37 := fun h => hpercent (UInt8.toNat_inj.1 h)
    rw [segments_cons hne, flatMap_cons, ih, map_cons, asciiChar, if_pos hb]
    rfl

theorem asciiEncode_map (bytes : List UInt8) :
    asciiEncode (bytes.map asciiChar) = bytes.map fun b => if b < 128 then b else 63 := by
  have hchar : ∀ b, ¬ (0xD800 ≤ asciiChar b ∧ asciiChar b < 0xDC00) := by
    intro b
    rw [asciiChar]
    split
    · have := b.toNat_lt
      omega
    · omega
  have hbyte : ∀ b, asciiByte (asciiChar b) = if b < 128 then b else 63 := by
    intro b
    rw [asciiChar]
    by_cases hb : b < 128
    · have hlt : b.toNat < 128 := UInt8.lt_iff_toNat_lt.1 hb
      rw [if_pos hb, if_pos hb, asciiByte, if_pos hlt, UInt8.ofNat_toNat]
    · rw [if_neg hb, if_neg hb]
      rfl
  induction bytes with
  | nil => rfl
  | cons b bytes ih =>
    cases bytes with
    | nil => exact congrArg (fun x => [x]) (hbyte b)
    | cons b' bytes =>
      rw [map_cons, map_cons, asciiEncode, if_neg fun h => hchar b ⟨h.1, h.2.1⟩, hbyte]
      exact congrArg (_ :: ·) ih

theorem asciiEncode_eq_iff (bytes : List UInt8) :
    asciiEncode (bytes.map asciiChar) = bytes ↔ ∀ b ∈ bytes, b < 128 := by
  rw [asciiEncode_map]
  constructor
  · intro h b hb
    rw [← h] at hb
    obtain ⟨b', -, rfl⟩ := mem_map.1 hb
    split
    · next hlt => exact hlt
    · decide
  · intro h
    refine (map_congr_left fun b hb => if_pos (h b hb)).trans (map_id' bytes)

/-! ## Opening -/

/-- The media type of a URL without parameters. -/
structure MediaType (type : Text) : Prop where
  ascii : Ascii type
  no_comma : 44 ∉ type
  no_semicolon : 59 ∉ type
  no_equals : 61 ∉ type
  slash : type = [] ∨ 47 ∈ type

/-- `data:`, the media type, a comma and the data. -/
def dataURL (type t : Text) : Text := text ['d', 'a', 't', 'a', ':'] ++ type ++ 44 :: t

theorem splitSemicolons_eq {t : Text} (h : 59 ∉ t) : splitSemicolons t = [t] := by
  induction t with
  | nil => rfl
  | cons c t ih =>
    rw [mem_cons, not_or] at h
    rw [splitSemicolons, if_neg (Ne.symm h.1), ih h.2]

theorem indexOf_append {c : Nat} {pre : Text} (h : c ∉ pre) (t : Text) :
    indexOf c (pre ++ c :: t) = some pre.length := by
  induction pre with
  | nil => simp [indexOf, findIdx?_cons]
  | cons d pre ih =>
    rw [mem_cons, not_or] at h
    have ih := ih h.2
    rw [indexOf] at ih ⊢
    rw [cons_append, findIdx?_cons, decide_eq_false (Ne.symm h.1), ih]
    rfl

theorem openURL_eq {type : Text} (h : MediaType type) (t : Text) :
    ∃ mediaType, openURL lib (dataURL type t) = .ok ⟨mediaType,
      asciiEncode (assemble usAscii.decode [] (segments (parseInt lib) t))⟩ := by
  have hcolon : indexOf 58 (dataURL type t) = some 4 :=
    @indexOf_append 58 (text ['d', 'a', 't', 'a']) (by decide) (type ++ 44 :: t)
  have hdrop : (dataURL type t).drop (4 + 1) = type ++ 44 :: t := rfl
  have hcomma := indexOf_append h.no_comma t
  have htake : (type ++ 44 :: t).take type.length = type := take_left
  have hdata : (type ++ 44 :: t).drop (type.length + 1) = t := by
    rw [← drop_drop, drop_left]
    rfl
  have hbase64 : lib.equalsIgnoreCase type base64Name = false := by
    rw [lib.equalsIgnoreCase_ascii type base64Name h.ascii (show ∀ c ∈ base64Name, c < 128 by decide)]
    refine decide_eq_false fun heq => ?_
    obtain rfl | hslash := h.slash
    · cases heq
    · have hmem : asciiLower 47 ∈ type.map asciiLower := mem_map_of_mem hslash
      rw [heq] at hmem
      exact absurd hmem (by decide)
  have hread : readComponents lib ⟨none, [], none, false⟩ 0 [type] =
      .ok ⟨some type, [], none, false⟩ := by
    rw [readComponents, if_neg (by rw [hbase64]; exact Bool.false_ne_true),
      if_pos ⟨rfl, h.no_equals⟩, readComponents]
  rw [openURL]
  simp only [hcolon, hdrop, hcomma, htake, hdata, splitSemicolons_eq h.no_semicolon, hread, bind,
    Except.bind, urlDecode_eq, getD_none, if_false, Bool.false_eq_true]
  exact ⟨_, rfl⟩

/-! ## Malformed sequences -/

/-- A percent sign is followed by a sign and a digit, which are parsed. -/
def Misread : Text → Prop
  | [] => False
  | c :: x :: y :: rest =>
    if c = 37 then ((parseInt lib x y).isSome ∧ hexPair x y = none) ∨ Misread rest
    else Misread (x :: y :: rest)
  | _ :: rest => Misread rest

/-- The length of the string that the segments become. -/
def decodedLength (pair : Nat → Nat → Option UInt8) (t : Text) : Nat :=
  ((segments pair t).flatMap Segment.ascii).length

theorem decodedLength_cons {c : Nat} (hc : c ≠ 37) (rest : Text) :
    decodedLength pair (c :: rest) = decodedLength pair rest + 1 := by
  rw [decodedLength, segments_cons hc, flatMap_cons, length_append, Nat.add_comm]
  rfl

/-- The segments are those of the hexadecimal pairs unless one is misread. -/
theorem segments_or_shorter (t : Text) :
    (¬ Misread lib t ∧ segments (parseInt lib) t = segments hexPair t) ∨
      (Misread lib t ∧ decodedLength (parseInt lib) t < decodedLength hexPair t) := by
  fun_induction Misread lib t with
  | case1 => exact .inl ⟨fun h => h, rfl⟩
  | case2 x y rest ih =>
    have hlen : ∀ {pair : Nat → Nat → Option UInt8} {b : UInt8}, pair x y = some b →
        decodedLength pair (37 :: x :: y :: rest) = 1 + decodedLength pair rest := by
      intro pair b hb
      rw [decodedLength, segments, if_pos rfl, hb, flatMap_cons, length_append]
      rfl
    have hlen' : ∀ {pair : Nat → Nat → Option UInt8}, pair x y = none →
        decodedLength pair (37 :: x :: y :: rest) = 3 + decodedLength pair rest := by
      intro pair hnone
      rw [decodedLength, segments, if_pos rfl, hnone, flatMap_cons, length_append]
      rfl
    obtain hnone | ⟨b, hb⟩ := eq_none_or_eq_some (hexPair x y)
    · obtain hnone' | ⟨b, hb⟩ := eq_none_or_eq_some (parseInt lib x y)
      · refine ih.imp (fun ⟨hno, heq⟩ => ⟨?_, ?_⟩) fun ⟨hyes, hlt⟩ => ⟨.inr hyes, ?_⟩
        · rw [hnone']
          exact fun h => h.elim (fun h => nomatch h.1) hno
        · rw [segments, segments, if_pos rfl, if_pos rfl, hnone, hnone', heq]
        · rw [hlen' hnone, hlen' hnone']
          omega
      · refine .inr ⟨.inl ⟨by rw [hb]; rfl, hnone⟩, ?_⟩
        have hle : decodedLength (parseInt lib) rest ≤ decodedLength hexPair rest :=
          ih.elim (fun h => Nat.le_of_eq (by rw [decodedLength, h.2]; rfl)) fun h => Nat.le_of_lt h.2
        rw [hlen hb, hlen' hnone]
        omega
    · have hb' := parseInt_of_hexPair lib hb
      refine ih.imp (fun ⟨hno, heq⟩ => ⟨?_, ?_⟩) fun ⟨hyes, hlt⟩ => ⟨.inr hyes, ?_⟩
      · rw [hb]
        exact fun h => h.elim (fun h => nomatch h.2) hno
      · rw [segments, segments, if_pos rfl, if_pos rfl, hb, hb', heq]
      · rw [hlen hb, hlen hb']
        omega
  | case3 c x y rest hc ih =>
    refine ih.imp (fun ⟨hno, heq⟩ => ⟨hno, ?_⟩) fun ⟨hyes, hlt⟩ => ⟨hyes, ?_⟩
    · rw [segments_cons hc, segments_cons hc, heq]
    · rw [decodedLength_cons hc, decodedLength_cons hc]
      omega
  | case4 c rest hshort ih =>
    by_cases hc : c = 37
    · have hno : ¬ Misread lib rest := by
        match rest, hshort with
        | [], _ | [x], _ => exact fun h => h
        | x :: y :: rest, hshort => exact absurd rfl (hshort x y rest)
      have hsame : ∀ pair, segments pair (c :: rest) = [.malformed (c :: rest)] := by
        intro pair
        match rest, hshort with
        | [], _ | [x], _ => simp [segments, hc]
        | x :: y :: rest, hshort => exact absurd rfl (hshort x y rest)
      exact .inl ⟨hno, (hsame _).trans (hsame _).symm⟩
    · refine ih.imp (fun ⟨hno, heq⟩ => ⟨hno, ?_⟩) fun ⟨hyes, hlt⟩ => ⟨hyes, ?_⟩
      · rw [segments_cons hc, segments_cons hc, heq]
      · rw [decodedLength_cons hc, decodedLength_cons hc]
        omega

/-- The segments are a text's own characters, one after the other. -/
inductive Parts (pair : Nat → Nat → Option UInt8) : Text → List Segment → Prop
  | nil : Parts pair [] []
  | literal {c : Nat} {t : Text} {l : List Segment} (hc : c ≠ 37) (h : Parts pair t l) :
      Parts pair (c :: t) (.literal c :: l)
  | byte {x y : Nat} {b : UInt8} {t : Text} {l : List Segment} (hb : pair x y = some b)
      (h : Parts pair t l) : Parts pair (37 :: x :: y :: t) (.byte b :: l)
  | malformed {x y : Nat} {t : Text} {l : List Segment} (hnone : pair x y = none)
      (h : Parts pair t l) : Parts pair (37 :: x :: y :: t) (.malformed [37, x, y] :: l)
  | truncated {t : Text} (ht : t.length < 2) : Parts pair (37 :: t) [.malformed (37 :: t)]

theorem parts_segments (pair : Nat → Nat → Option UInt8) (t : Text) : Parts pair t (segments pair t) := by
  fun_induction segments pair t with
  | case1 => exact .nil
  | case2 x y rest b hb ih => exact .byte hb ih
  | case3 x y rest hnone ih => exact .malformed hnone ih
  | case4 c x y rest hc ih => exact .literal hc ih
  | case5 rest hshort =>
    refine .truncated ?_
    match rest, hshort with
    | [], _ => exact Nat.zero_lt_two
    | [x], _ => exact Nat.one_lt_two
    | x :: y :: rest, hshort => exact absurd rfl (hshort x y rest)
  | case6 c rest hshort hc ih => exact .literal hc ih

/-- A text with malformed sequences as they are, and the others decoded. -/
def decodedText (t : Text) : Text := assemble usAscii.decode [] (segments hexPair t)

/-- ASCII bytes, and no malformed sequence misread. -/
theorem decodes_iff {type : Text} (h : MediaType type) : (∀ bytes t, Writes bytes t →
      ((∃ c, openURL lib (dataURL type t) = .ok c ∧ c.data = bytes ∧
        c.getContentLength = bytes.length) ↔ ∀ b ∈ bytes, b < 128)) ∧
      ∀ t, Parts hexPair t (segments hexPair t) ∧
        (urlDecode lib t usAscii = .ok (decodedText t) ↔ ¬ Misread lib t) := by
  constructor
  · intro bytes t hwrites
    obtain ⟨mediaType, hopen⟩ := openURL_eq lib h t
    rw [hopen, assemble_usAscii, hwrites.segments lib, map_nil, nil_append]
    rw [← asciiEncode_eq_iff]
    constructor
    · rintro ⟨c, hc, hdata, -⟩
      cases hc
      exact hdata
    · intro heq
      exact ⟨_, rfl, heq, congrArg (fun l : List UInt8 => (l.length : Int)) heq⟩
  · intro t
    refine ⟨parts_segments hexPair t, ?_⟩
    rw [urlDecode_eq, Except.ok.injEq, decodedText]
    obtain ⟨hno, heq⟩ | ⟨hyes, hlt⟩ := segments_or_shorter lib t
    · rw [heq]
      exact ⟨fun _ => hno, fun _ => rfl⟩
    · refine ⟨fun heq => ?_, fun hno => absurd hyes hno⟩
      rw [assemble_usAscii, assemble_usAscii] at heq
      exact absurd (congrArg List.length heq) (Nat.ne_of_lt hlt)

/-- Nothing beyond ASCII, no charset and no Base64. -/
def asciiLibrary : DataLibrary where
  digit c := if c < 128 then hexDigit c else none
  toLowerCase t := if ∀ c ∈ t, c < 128 then t.map asciiLower else t
  equalsIgnoreCase a b := decide (a.map asciiLower = b.map asciiLower)
  forName _ := none
  mimeDecode _ := .error .illegalArgument
  digit_ascii _ hc := if_pos hc
  toLowerCase_ascii _ ht := if_pos ht
  equalsIgnoreCase_ascii _ _ _ _ := rfl

def imagePng : Text := text ['i', 'm', 'a', 'g', 'e', '/', 'p', 'n', 'g']

theorem mediaType_imagePng : MediaType imagePng :=
  ⟨show ∀ c ∈ imagePng, c < 128 by decide, by decide, by decide, by decide, .inr (by decide)⟩

/-- Data of the type `image/png`. -/
theorem decodes_iff_imagePng : (∀ bytes t, Writes bytes t →
      ((∃ c, openURL asciiLibrary (dataURL imagePng t) = .ok c ∧ c.data = bytes ∧
        c.getContentLength = bytes.length) ↔ ∀ b ∈ bytes, b < 128)) ∧
      ∀ t, Parts hexPair t (segments hexPair t) ∧
        (urlDecode asciiLibrary t usAscii = .ok (decodedText t) ↔ ¬ Misread asciiLibrary t) :=
  decodes_iff asciiLibrary mediaType_imagePng

/-- `%89` comes back as a question mark, and `%+5` as a single character. -/
theorem decodes_fails :
    (¬ ∀ bytes t, Writes bytes t → ∃ c, openURL asciiLibrary (dataURL imagePng t) = .ok c ∧
        c.data = bytes ∧ c.getContentLength = bytes.length) ∧
      ¬ ∀ t, urlDecode asciiLibrary t usAscii = .ok (decodedText t) := by
  constructor
  · intro h
    obtain ⟨c, hc, hdata, -⟩ := h [0x89] (text ['%', '8', '9']) (.pair (by decide) .nil)
    have hopen : openURL asciiLibrary (dataURL imagePng (text ['%', '8', '9'])) =
        .ok ⟨imagePng, [63]⟩ := by decide
    rw [hopen] at hc
    cases hc
    exact absurd hdata (by decide)
  · intro h
    exact absurd (h (text ['%', '+', '5'])) (by decide)

end DataURLConnection

end OpenJfx.Network
