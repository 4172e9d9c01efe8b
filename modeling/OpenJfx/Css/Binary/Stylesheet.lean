/-
  OpenJfx.Css.Binary.Stylesheet

  The binary form of `com.sun.javafx.css.Stylesheet`: selectors, declarations, rules and
  font faces, and the string store that goes before them.  The URL of a stylesheet is not
  written.

  A rule that is read keeps the bytes of its declarations and decodes them when they are
  asked for.
-/

import OpenJfx.Css.Binary.ParsedValueImpl
import OpenJfx.Css.CompoundSelector
import OpenJfx.Lib.ModifiedUtf8

namespace OpenJfx.Css.Binary

open OpenJfx.DataStream OpenJfx.InternTable OpenJfx.ModifiedUtf8

variable {P : Platform}

/-- A string of the store, by its index. -/
def readString (strings : List (Option String)) : DataInput (Option String) :=
  lookup strings readShort

/-! ## Selectors -/

/-- A selector made by the constructor of `SimpleSelector`. -/
def ConstructedSelector : Type :=
  { s : SimpleSelector // ∃ name styleClasses pseudoClasses id,
      s = SimpleSelector.new name styleClasses pseudoClasses id }

/-- The constructor of `SimpleSelector`. -/
def ConstructedSelector.new (name : Option String) (styleClasses pseudoClasses : List (Option String))
    (id : Option String) : ConstructedSelector :=
  ⟨SimpleSelector.new name styleClasses pseudoClasses id, name, styleClasses, pseudoClasses, id,
    rfl⟩

/-- `SimpleSelector` and `CompoundSelector`. -/
inductive Selector where
  | simple (s : ConstructedSelector)
  | compound (selectors : List ConstructedSelector) (relationships : List Combinator)

def TYPE_SIMPLE : Int := 1

def TYPE_COMPOUND : Int := 2

/-- The functional pseudo-class `dir`, if any. -/
def directionName : NodeOrientation → List String
  | .rightToLeft => ["dir(rtl)"]
  | .leftToRight => ["dir(ltr)"]
  | .inherit => []

def writeName (name : String) : Put (Option String) := .index writeShort (some name)

/-- `SimpleSelector.writeBinary`. -/
def writeSimple (P : Platform) (selector : ConstructedSelector) : Put (Option String) :=
  let s := selector.1
  Put.all [.bytes (writeByte TYPE_SIMPLE), writeName s.name,
    .bytes (writeShort s.styleClassSet.card),
    .each writeName (P.styleClasses.iterate s.styleClassSet),
    writeName s.id,
    .bytes (writeShort (s.pseudoClassState.card + (directionName s.nodeOrientation).length : Nat)),
    .each writeName (P.pseudoClasses.iterate s.pseudoClassState),
    .each writeName (directionName s.nodeOrientation)]

/-- `Enum.ordinal`. -/
def ordinal : Combinator → Int
  | .child => 0
  | .descendant => 1

/-- A tag for the class comes before the selector. -/
def Selector.writeBinary (P : Platform) : Selector → Put (Option String)
  | .simple s => writeSimple P s
  | .compound selectors relationships =>
    Put.all [.bytes (writeByte TYPE_COMPOUND),
      .bytes (writeShort selectors.length), .each (writeSimple P) selectors,
      .bytes (writeShort relationships.length),
      .each (fun c => .bytes (writeByte (ordinal c))) relationships]

/-- `SimpleSelector.readBinary`. -/
def readSimple (strings : List (Option String)) : DataInput ConstructedSelector := do
  let name ← readString strings
  let nStyleClasses ← readShort
  let styleClasses ← readMany (readString strings) nStyleClasses.toNat
  let id ← readString strings
  let nPseudoclasses ← readShort
  let pseudoclasses ← readMany (readString strings) nPseudoclasses.toNat
  return .new name styleClasses pseudoclasses id

/-- A selector of a compound selector; others fail the cast. -/
def readMember (strings : List (Option String)) : DataInput ConstructedSelector := do
  let type ← readByte
  if type = TYPE_SIMPLE then readSimple strings else throw .classCast

/-- An ordinal that is not known is read as `DESCENDANT`. -/
def readCombinator : DataInput Combinator := do
  let n ← readByte
  return if n = ordinal .child then .child else .descendant

/-- `CompoundSelector.readBinary`. -/
def readCompound (strings : List (Option String)) : DataInput Selector := do
  let nSelectors ← readShort
  let selectors ← readMany (readMember strings) nSelectors.toNat
  let nRelationships ← readShort
  let relationships ← readMany readCombinator nRelationships.toNat
  return .compound selectors relationships

def Selector.readBinary (strings : List (Option String)) : DataInput Selector := do
  let type ← readByte
  if type = TYPE_SIMPLE then
    let s ← readSimple strings
    return .simple s
  else readCompound strings

/-- `new ArrayList(n)` for a loop that reads `n` elements. -/
def readCounted {α : Type} (r : DataInput α) (n : Int) : DataInput (List α) :=
  if n < 0 then throw (.exception .illegalArgument) else readMany r n.toNat

/-! ## Declarations and rules -/

/-- `Declaration`. -/
structure Declaration (P : Platform) where
  property : String
  parsedValue : ParsedValueImpl P
  important : Bool

def Declaration.writeBinary (d : Declaration P) : Put (Option String) :=
  Put.all [writeName d.property, d.parsedValue.writeBinary, .bytes (writeBoolean d.important)]

/-- The constructor refuses a null name. -/
def Declaration.readBinary (strings : List (Option String)) (depth : Nat) :
    DataInput (Declaration P) := do
  let propertyName ← readString strings
  let parsedValue ← ParsedValueImpl.readBinary strings depth
  let important ← readBoolean
  match propertyName with
  | some propertyName => return ⟨propertyName, parsedValue, important⟩
  | none => throw (.exception .illegalArgument)

/-- A rule made from its lists; the declarations may be null. -/
structure Rule (P : Platform) where
  selectors : List Selector
  declarations : Option (List (Declaration P))

/-- Write into a `ByteArrayOutputStream`, then its size and its bytes. -/
def buffered (p : Put (Option String)) : Put (Option String) := fun table =>
  match p table with
  | .error e => .error e
  | .ok (bs, table) =>
    if bs.length < 2 ^ 31 then .ok (writeInt bs.length ++ bs, table) else .error .outOfMemory

/-- They stand behind their length in bytes. -/
def writeDeclarations (decls : List (Declaration P)) : Put (Option String) :=
  Put.all [.bytes (writeShort decls.length), .each Declaration.writeBinary decls]

def Rule.writeBinary (r : Rule P) : Put (Option String) :=
  Put.all [.bytes (writeShort r.selectors.length), .each (Selector.writeBinary P) r.selectors,
    match r.declarations with
    | some decls => buffered (writeDeclarations decls)
    | none => .bytes (writeShort 0)]

/-- A rule made by `readBinary`. -/
structure LoadedRule where
  selectors : List Selector
  serializedDecls : List UInt8
  deriving Inhabited

/-- The declarations stay in their buffer. -/
def LoadedRule.readBinary (strings : List (Option String)) : DataInput LoadedRule := do
  let nSelectors ← readShort
  let selectors ← readCounted (Selector.readBinary strings) nSelectors
  let nBytes ← readInt
  if nBytes < 0 then throw (.exception .negativeArraySize)
  else
    let buf ← readFully nBytes.toNat
    return ⟨selectors, buf⟩

/-- What the buffer of a rule is read as. -/
def readDeclarations (strings : List (Option String)) (depth : Nat) :
    DataInput (List (Declaration P)) := do
  let nDeclarations ← readShort
  readCounted (Declaration.readBinary strings depth) nDeclarations

/-- An `IOException` leaves an empty list. -/
def LoadedRule.getUnobservedDeclarationList (strings : List (Option String)) (depth : Nat)
    (r : LoadedRule) : Except Throwable (List (Declaration P)) :=
  match (readDeclarations strings depth).run r.serializedDecls with
  | .ok (decls, _) => .ok decls
  | .error .io => .ok []
  | .error e => .error e

/-! ## Font faces -/

/-- `FontFace.FontFaceSrcType`. -/
inductive FontFaceSrcType where
  | url | local_ | reference
  deriving DecidableEq, Repr

def FontFaceSrcType.name : FontFaceSrcType → String
  | .url => "URL"
  | .local_ => "LOCAL"
  | .reference => "REFERENCE"

def FontFaceSrcType.valueOf (name : String) : Option FontFaceSrcType :=
  [FontFaceSrcType.url, .local_, .reference].find? (·.name == name)

/-- `FontFace.FontFaceSrc`. -/
structure FontFaceSrc where
  type : Option FontFaceSrcType
  src : Option String
  format : Option String

/-- `type.name()` throws when there is no type. -/
def FontFaceSrc.writeBinary (f : FontFaceSrc) : Put (Option String) :=
  match f.type with
  | some type =>
    Put.all [.index writeInt (some type.name), .index writeInt f.src, .index writeInt f.format]
  | none => .throw (.exception .nullPointer)

def FontFaceSrc.readBinary (strings : List (Option String)) : DataInput FontFaceSrc := do
  let name ← lookup strings readInt
  let type : DataInput (Option FontFaceSrcType) :=
    match name with
    | none => pure none
    | some name =>
      match FontFaceSrcType.valueOf name with
      | some type => pure (some type)
      | none => throw (.exception .illegalArgument)
  let type ← type
  let src ← lookup strings readInt
  let format ← lookup strings readInt
  return ⟨type, src, format⟩

/-- A map from strings to strings, as its set of entries. -/
def StringMap : Type :=
  { m : Finset (Option String × Option String) // ∀ e ∈ m, ∀ e' ∈ m, e.1 = e'.1 → e = e' }

namespace StringMap

def empty : StringMap := ⟨∅, by simp⟩

/-- `HashMap.put`. -/
def put (m : StringMap) (entry : Option String × Option String) : StringMap :=
  ⟨insert entry (m.1.filter fun e => e.1 ≠ entry.1), by
    intro e he e' he' hkey
    simp only [Finset.mem_insert, Finset.mem_filter] at he he'
    rcases he with rfl | ⟨he, hne⟩ <;> rcases he' with rfl | ⟨he', hne'⟩
    · rfl
    · exact absurd hkey.symm hne'
    · exact absurd hkey hne
    · exact m.2 e he e' he' hkey⟩

end StringMap

/-- `FontFace`. -/
structure FontFace where
  descriptors : StringMap
  sources : List FontFaceSrc

def writeEntry (entry : Option String × Option String) : Put (Option String) :=
  Put.all [.index writeInt entry.1, .index writeInt entry.2]

def FontFace.writeBinary (P : Platform) (f : FontFace) : Put (Option String) :=
  Put.all [.bytes (writeShort f.descriptors.1.card),
    .each writeEntry (P.descriptors.iterate f.descriptors.1),
    .bytes (writeShort f.sources.length),
    .each FontFaceSrc.writeBinary f.sources]

def readEntry (strings : List (Option String)) : DataInput (Option String × Option String) := do
  let key ← lookup strings readInt
  let value ← lookup strings readInt
  return (key, value)

def FontFace.readBinary (strings : List (Option String)) : DataInput FontFace := do
  let nEntries ← readShort
  let entries ← readCounted (readEntry strings) nEntries
  let nSources ← readShort
  let sources ← readCounted (FontFaceSrc.readBinary strings) nSources
  return ⟨entries.foldl StringMap.put .empty, sources⟩

/-! ## Stylesheets -/

/-- `javafx.css.StyleOrigin`. -/
inductive StyleOrigin where
  | userAgent | user | author | inline
  deriving DecidableEq, Repr

def StyleOrigin.name : StyleOrigin → String
  | .userAgent => "USER_AGENT"
  | .user => "USER"
  | .author => "AUTHOR"
  | .inline => "INLINE"

/-- `valueOf` throws on null and on other names. -/
def StyleOrigin.valueOf (name : Option String) : DataInput StyleOrigin :=
  match name with
  | none => throw (.exception .nullPointer)
  | some name =>
    match [StyleOrigin.userAgent, .user, .author, .inline].find? (·.name == name) with
    | some origin => pure origin
    | none => throw (.exception .illegalArgument)

/-- `Stylesheet`, without its URL. -/
structure Stylesheet (P : Platform) where
  origin : StyleOrigin
  rules : List (Rule P)
  fontFaces : List FontFace

/-- The origin, the rules and the font faces. -/
def Stylesheet.writeBinary (s : Stylesheet P) : Put (Option String) :=
  Put.all [writeName s.origin.name,
    .bytes (writeShort s.rules.length), .each Rule.writeBinary s.rules,
    .bytes (writeShort s.fontFaces.length), .each (FontFace.writeBinary P) s.fontFaces]

/-- A stylesheet made by `readBinary`. -/
structure LoadedStylesheet where
  origin : StyleOrigin
  rules : List LoadedRule
  fontFaces : List FontFace
  stringStore : List (Option String)

def LoadedStylesheet.readBinary (strings : List (Option String)) :
    DataInput LoadedStylesheet := do
  let name ← readString strings
  let origin ← StyleOrigin.valueOf name
  let nRules ← readShort
  let rules ← readCounted (LoadedRule.readBinary strings) nRules
  let nFontFaces ← readShort
  let fontFaces ← readMany (FontFace.readBinary strings) nFontFaces.toNat
  return ⟨origin, rules, fontFaces, strings⟩

/-- The rules of a stylesheet that has been read, with their declarations. -/
def LoadedStylesheet.resolve (depth : Nat) (s : LoadedStylesheet) :
    Except Throwable (Stylesheet P) := do
  let rules ← s.rules.mapM fun r =>
    (r.getUnobservedDeclarationList s.stringStore depth).map fun decls =>
      (⟨r.selectors, some decls⟩ : Rule P)
  return ⟨s.origin, rules, s.fontFaces⟩

/-! ## The string store -/

/-- The strings other than null. -/
def writeStrings : List (Option String) → Except Throwable (List UInt8)
  | [] => .ok []
  | none :: strings => writeStrings strings
  | some s :: strings => do
    let bytes ← writeUTF s
    let rest ← writeStrings strings
    return bytes ++ rest

/-- The index of null, or -1. -/
def nullIndex (strings : List (Option String)) : Int :=
  if none ∈ strings then strings.idxOf none else -1

/-- The count and the index of null come before the strings. -/
def StringStore.writeBinary (strings : List (Option String)) : Except Throwable (List UInt8) := do
  let bytes ← writeStrings strings
  return writeShort strings.length ++ (writeShort (nullIndex strings) ++ bytes)

/-- The loop of `StringStore.readBinary`, from index `n` on. -/
def readStrings (nullIndex : Int) : Nat → Nat → DataInput (List (Option String))
  | _, 0 => return []
  | n, count + 1 =>
    if (n : Int) = nullIndex then do
      let strings ← readStrings nullIndex (n + 1) count
      return none :: strings
    else do
      let s ← readUTF
      let strings ← readStrings nullIndex (n + 1) count
      return some s :: strings

def StringStore.readBinary : DataInput (List (Option String)) := do
  let nStrings ← readShort
  let nullIndex ← readShort
  if nStrings < 0 then throw (.exception .negativeArraySize)
  else readStrings nullIndex 0 nStrings.toNat

/-! ## Writing and reading back -/

/-- The string store and the stylesheet. -/
def Stylesheet.toBinary (s : Stylesheet P) : Except Throwable (List UInt8) := do
  let (bytes, strings) ← s.writeBinary []
  let store ← StringStore.writeBinary strings
  return store ++ bytes

/-- The string store, then the stylesheet. -/
def load : DataInput LoadedStylesheet := do
  let strings ← StringStore.readBinary
  LoadedStylesheet.readBinary strings

/-- Reading consumes exactly the bytes written, and has the same result when the stack is deep
    enough. -/
def Stylesheet.RoundTrips (s : Stylesheet P) : Prop :=
  ∃ bytes, s.toBinary = .ok bytes ∧
    ∃ loaded, load.run bytes = .ok (loaded, []) ∧
      ∃ depth₀, ∀ depth, depth₀ ≤ depth → loaded.resolve depth = .ok s

end OpenJfx.Css.Binary
