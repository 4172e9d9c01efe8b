/-
  OpenJfx.Css.Binary.ParsedValueImpl

  `com.sun.javafx.css.ParsedValueImpl`: the tree of a parsed value, and how it is
  written to and read from a binary stylesheet.  Strings are written as indices into
  the string store.

  A reader that comes back on itself has `depth` calls on the stack at most.
-/

import OpenJfx.Lib.InternTable

namespace OpenJfx.Css.Binary

open OpenJfx.DataStream OpenJfx.InternTable

/-! ## Numbers -/

/-- `Double.isNaN` of the double with these bits. -/
def isNaN (bits : BitVec 64) : Bool :=
  decide (0x7ff0000000000000#64 < bits &&& 0x7fffffffffffffff#64)

/-- The bits that `doubleToLongBits` gives for the double with these bits. -/
def collapseNaN (bits : BitVec 64) : BitVec 64 :=
  if isNaN bits then 0x7ff8000000000000#64 else bits

theorem collapseNaN_collapseNaN (bits : BitVec 64) :
    collapseNaN (collapseNaN bits) = collapseNaN bits := by
  unfold collapseNaN
  split <;> rfl

/-- A `double`, with one NaN. -/
structure Double where
  bits : BitVec 64
  collapsed : collapseNaN bits = bits
  deriving DecidableEq

/-- Every NaN becomes the one NaN. -/
def longBitsToDouble (bits : BitVec 64) : Double :=
  ⟨collapseNaN bits, collapseNaN_collapseNaN bits⟩

/-- Neither below 0 nor above 1. -/
def Double.InUnit (d : Double) : Prop :=
  isNaN d.bits = true ∨ d.bits ≤ 0x3ff0000000000000#64 ∨ d.bits = 0x8000000000000000#64

instance (d : Double) : Decidable d.InUnit := inferInstanceAs (Decidable (_ ∨ _ ∨ _))

/-- The order in which the iterator of a set or map visits the elements. -/
structure IterationOrder (α : Type) [DecidableEq α] where
  iterate : Finset α → List α
  nodup : ∀ s, (iterate s).Nodup
  toFinset : ∀ s, (iterate s).toFinset = s

theorem IterationOrder.length {α : Type} [DecidableEq α] (order : IterationOrder α)
    (s : Finset α) : (order.iterate s).length = s.card := by
  rw [← List.toFinset_card_of_nodup (order.nodup s), order.toFinset]

/-- What the code takes from the platform: `asFloat d` is `(double)(float) d`, `isURL` accepts the
    URLs, and the sets of a selector and the map of a font face have some order. -/
structure Platform where
  asFloat : Double → Double
  asFloat_asFloat : ∀ d, asFloat (asFloat d) = asFloat d
  asFloat_inUnit : ∀ d, d.InUnit → (asFloat d).InUnit
  isURL : String → Bool
  styleClasses : IterationOrder String
  pseudoClasses : IterationOrder String
  descriptors : IterationOrder (Option String × Option String)

variable {P : Platform}

/-- A component of a colour is a `float`. -/
def Platform.Component (P : Platform) : Type := { d : Double // d.InUnit ∧ P.asFloat d = d }

/-- `javafx.scene.paint.Color`. -/
structure Color (P : Platform) where
  red : P.Component
  green : P.Component
  blue : P.Component
  opacity : P.Component

/-- `com.sun.javafx.css.SizeUnits`. -/
inductive SizeUnits where
  | percent | in_ | cm | mm | em | ex | pt | pc | px | deg | grad | rad | turn | s | ms
  deriving DecidableEq, Repr

namespace SizeUnits

def name : SizeUnits → String
  | percent => "PERCENT"
  | in_ => "IN"
  | cm => "CM"
  | mm => "MM"
  | em => "EM"
  | ex => "EX"
  | pt => "PT"
  | pc => "PC"
  | px => "PX"
  | deg => "DEG"
  | grad => "GRAD"
  | rad => "RAD"
  | turn => "TURN"
  | s => "S"
  | ms => "MS"

def values : List SizeUnits :=
  [percent, in_, cm, mm, em, ex, pt, pc, px, deg, grad, rad, turn, s, ms]

/-- `Enum.valueOf`. -/
def valueOf (name : Option String) : Option SizeUnits :=
  values.find? fun units => some units.name == name

theorem valueOf_name (units : SizeUnits) : valueOf (some units.name) = some units := by
  cases units <;> decide

theorem name_of_valueOf {name : Option String} {units : SizeUnits}
    (h : valueOf name = some units) : some units.name = name := by
  simpa using List.find?_some h

end SizeUnits

/-- `com.sun.javafx.css.Size`. -/
structure Size where
  value : Double
  units : SizeUnits
  deriving DecidableEq

/-! ## Converters -/

/-- A subclass's of `StyleConverterImpl`, an `EnumConverter`, … -/
inductive StyleConverter where
  | impl (className : String)
  | enum (enumClass : String)
  | foreign
  deriving DecidableEq, Repr

namespace StyleConverter

/-- The name of the class `EnumConverter`. -/
def enumConverter : String := "com.sun.javafx.css.converters.EnumConverter"

/-- A class name and the class made. -/
def instances : List (String × String) :=
  let itself := fun name : String => (name, name)
  [itself "com.sun.javafx.css.converters.BooleanConverter",
   itself "com.sun.javafx.css.converters.ColorConverter",
   itself "com.sun.javafx.css.converters.CursorConverter",
   itself "com.sun.javafx.css.converters.EffectConverter",
   itself "com.sun.javafx.css.converters.EffectConverter$DropShadowConverter",
   itself "com.sun.javafx.css.converters.EffectConverter$InnerShadowConverter",
   itself "com.sun.javafx.css.converters.FontConverter",
   itself "com.sun.javafx.css.converters.FontConverter$FontStyleConverter",
   ("com.sun.javafx.css.converters.FontConverter$StyleConverter",
     "com.sun.javafx.css.converters.FontConverter$FontStyleConverter"),
   itself "com.sun.javafx.css.converters.FontConverter$FontWeightConverter",
   ("com.sun.javafx.css.converters.FontConverter$WeightConverter",
     "com.sun.javafx.css.converters.FontConverter$FontWeightConverter"),
   itself "com.sun.javafx.css.converters.FontConverter$FontSizeConverter",
   ("com.sun.javafx.css.converters.FontConverter$SizeConverter",
     "com.sun.javafx.css.converters.FontConverter$FontSizeConverter"),
   itself "com.sun.javafx.css.converters.InsetsConverter",
   itself "com.sun.javafx.css.converters.InsetsConverter$SequenceConverter",
   itself "com.sun.javafx.css.converters.PaintConverter",
   itself "com.sun.javafx.css.converters.PaintConverter$SequenceConverter",
   itself "com.sun.javafx.css.converters.PaintConverter$LinearGradientConverter",
   itself "com.sun.javafx.css.converters.PaintConverter$RadialGradientConverter",
   itself "com.sun.javafx.css.converters.SizeConverter",
   itself "com.sun.javafx.css.converters.SizeConverter$SequenceConverter",
   itself "com.sun.javafx.css.converters.StringConverter",
   itself "com.sun.javafx.css.converters.StringConverter$SequenceConverter",
   itself "com.sun.javafx.css.converters.URLConverter",
   itself "com.sun.javafx.css.converters.URLConverter$SequenceConverter",
   itself "com.sun.javafx.scene.layout.region.BackgroundPositionConverter",
   ("com.sun.javafx.scene.layout.region.BackgroundImage$BackgroundPositionConverter",
     "com.sun.javafx.scene.layout.region.BackgroundPositionConverter"),
   itself "com.sun.javafx.scene.layout.region.BackgroundSizeConverter",
   ("com.sun.javafx.scene.layout.region.BackgroundImage$BackgroundSizeConverter",
     "com.sun.javafx.scene.layout.region.BackgroundSizeConverter"),
   itself "com.sun.javafx.scene.layout.region.BorderImageSliceConverter",
   ("com.sun.javafx.scene.layout.region.BorderImage$SliceConverter",
     "com.sun.javafx.scene.layout.region.BorderImageSliceConverter"),
   itself "com.sun.javafx.scene.layout.region.BorderImageWidthConverter",
   itself "com.sun.javafx.scene.layout.region.BorderImageWidthsSequenceConverter",
   itself "com.sun.javafx.scene.layout.region.BorderStrokeStyleSequenceConverter",
   ("com.sun.javafx.scene.layout.region.StrokeBorder$BorderStyleSequenceConverter",
     "com.sun.javafx.scene.layout.region.BorderStrokeStyleSequenceConverter"),
   itself "com.sun.javafx.scene.layout.region.BorderStyleConverter",
   ("com.sun.javafx.scene.layout.region.StrokeBorder$BorderStyleConverter",
     "com.sun.javafx.scene.layout.region.BorderStyleConverter"),
   itself "com.sun.javafx.scene.layout.region.LayeredBackgroundPositionConverter",
   ("com.sun.javafx.scene.layout.region.BackgroundImage$LayeredBackgroundPositionConverter",
     "com.sun.javafx.scene.layout.region.LayeredBackgroundPositionConverter"),
   itself "com.sun.javafx.scene.layout.region.LayeredBackgroundSizeConverter",
   ("com.sun.javafx.scene.layout.region.BackgroundImage$LayeredBackgroundSizeConverter",
     "com.sun.javafx.scene.layout.region.LayeredBackgroundSizeConverter"),
   itself "com.sun.javafx.scene.layout.region.LayeredBorderPaintConverter",
   ("com.sun.javafx.scene.layout.region.StrokeBorder$LayeredBorderPaintConverter",
     "com.sun.javafx.scene.layout.region.LayeredBorderPaintConverter"),
   itself "com.sun.javafx.scene.layout.region.LayeredBorderStyleConverter",
   ("com.sun.javafx.scene.layout.region.StrokeBorder$LayeredBorderStyleConverter",
     "com.sun.javafx.scene.layout.region.LayeredBorderStyleConverter"),
   itself "com.sun.javafx.scene.layout.region.RepeatStructConverter",
   ("com.sun.javafx.scene.layout.region.BackgroundImage$BackgroundRepeatConverter",
     "com.sun.javafx.scene.layout.region.RepeatStructConverter"),
   ("com.sun.javafx.scene.layout.region.BorderImage$RepeatConverter",
     "com.sun.javafx.scene.layout.region.RepeatStructConverter"),
   itself "com.sun.javafx.scene.layout.region.SliceSequenceConverter",
   ("com.sun.javafx.scene.layout.region.BorderImage$SliceSequenceConverter",
     "com.sun.javafx.scene.layout.region.SliceSequenceConverter"),
   itself "com.sun.javafx.scene.layout.region.StrokeBorderPaintConverter",
   ("com.sun.javafx.scene.layout.region.StrokeBorder$BorderPaintConverter",
     "com.sun.javafx.scene.layout.region.StrokeBorderPaintConverter"),
   itself "com.sun.javafx.scene.layout.region.Margins$Converter",
   itself "com.sun.javafx.scene.layout.region.Margins$SequenceConverter",
   ("javafx.scene.layout.CornerRadiiConverter",
     "com.sun.javafx.scene.layout.region.CornerRadiiConverter"),
   itself "com.sun.javafx.scene.layout.region.CornerRadiiConverter",
   itself "com.sun.javafx.css.parser.DeriveColorConverter",
   itself "com.sun.javafx.css.parser.DeriveSizeConverter",
   itself "com.sun.javafx.css.parser.LadderConverter",
   itself "com.sun.javafx.css.parser.StopConverter"]

/-- The cases of `EnumConverter.getInstance`. -/
def enumInstances : List (String × String) :=
  let itself := fun name : String => (name, name)
  [itself "com.sun.javafx.cursor.CursorType", itself "javafx.scene.layout.BackgroundRepeat",
   ("com.sun.javafx.scene.layout.region.Repeat", "javafx.scene.layout.BackgroundRepeat"),
   itself "javafx.geometry.HPos",
   itself "javafx.geometry.Orientation",
   itself "javafx.geometry.Pos",
   itself "javafx.geometry.Side",
   itself "javafx.geometry.VPos",
   itself "javafx.scene.effect.BlendMode",
   itself "javafx.scene.effect.BlurType",
   itself "javafx.scene.paint.CycleMethod",
   itself "javafx.scene.shape.ArcType",
   itself "javafx.scene.shape.StrokeLineCap",
   itself "javafx.scene.shape.StrokeLineJoin",
   itself "javafx.scene.shape.StrokeType",
   itself "javafx.scene.text.FontPosture",
   itself "javafx.scene.text.FontSmoothingType",
   itself "javafx.scene.text.FontWeight",
   itself "javafx.scene.text.TextAlignment"]

/-- Null for a class that is not in the table. -/
def getInstance (className : String) : Option StyleConverter :=
  (instances.find? fun e => e.1 = className).map fun e => .impl e.2

/-- The converter for the values of an enumeration. -/
def getEnumInstance (enumClass : String) : Option StyleConverter :=
  (enumInstances.find? fun e => e.1 = enumClass).map fun e => .enum e.2

/-- The converter of a value, null included. -/
def writeBinary : Option StyleConverter → Put (Option String)
  | some (.impl className) =>
    Put.all [.bytes (writeBoolean true), .index writeShort (some className)]
  | some (.enum enumClass) =>
    Put.all [.bytes (writeBoolean true), .index writeShort (some enumConverter),
      .index writeShort (some enumClass)]
  | some .foreign | none => .bytes (writeBoolean false)

/-- `EnumConverter.readBinary`. -/
def readEnum (strings : List (Option String)) : DataInput (Option StyleConverter) := do
  let index ← readShort
  let entry : DataInput (Option String) :=
    if 0 ≤ index ∧ index ≤ strings.length then lookup strings (pure index) else pure none
  let ename ← entry
  match ename with
  | none => return none
  | some ename => return if ename = "" then none else getEnumInstance ename

/-- `StyleConverterImpl.readBinary`. -/
def readImpl (strings : List (Option String)) : DataInput (Option StyleConverter) := do
  let cname ← lookup strings readShort
  match cname with
  | none => return none
  | some cname =>
    if cname = "" then return none
    else if enumConverter.toList.isPrefixOf cname.toList then readEnum strings
    else return getInstance cname

/-- The converter of a value, after the flag that tells whether there is one. -/
def readBinary (strings : List (Option String)) : DataInput (Option StyleConverter) := do
  let hasType ← readBoolean
  if hasType then readImpl strings else return none

end StyleConverter

/-! ## Values -/

mutual

/-- `containsLookups` and the hash code are computed. -/
inductive ParsedValueImpl (P : Platform) : Type
  | mk (value : Value P) (converter : Option StyleConverter) (lookup : Bool)

/-- `other` is of a class that `writeBinary` does not know. -/
inductive Value (P : Platform) : Type
  | null
  | value (v : ParsedValueImpl P)
  | array (values : List (Option (ParsedValueImpl P)))
  | layers (layers : List (Option (List (Option (ParsedValueImpl P)))))
  | string (s : String)
  | color (c : Color P)
  | enum (enumClass name : String)
  | boolean (b : Bool)
  | url (u : { s : String // P.isURL s = true })
  | size (s : Size)
  | other

end

/-- The tags. -/
def NULL_VALUE : Int := 0

def VALUE : Int := 1

def VALUE_ARRAY : Int := 2

def ARRAY_OF_VALUE_ARRAY : Int := 3

def STRING : Int := 4

def COLOR : Int := 5

def ENUM : Int := 6

def BOOLEAN : Int := 7

def URL : Int := 8

def SIZE : Int := 9

mutual

/-- A tag for the type of the value comes before it. -/
def ParsedValueImpl.writeBinary : ParsedValueImpl P → Put (Option String)
  | .mk value converter lookup =>
    Put.all [.bytes (writeBoolean lookup), StyleConverter.writeBinary converter, value.writeBinary]

def Value.writeBinary : Value P → Put (Option String)
  | .null => .bytes (writeByte NULL_VALUE)
  | .value v => Put.all [.bytes (writeByte VALUE), v.writeBinary]
  | .array values =>
    Put.all [.bytes (writeByte VALUE_ARRAY), .bytes (writeByte VALUE),
      .bytes (writeInt values.length), writeElements values]
  | .layers layers =>
    Put.all [.bytes (writeByte ARRAY_OF_VALUE_ARRAY), .bytes (writeByte VALUE),
      .bytes (writeInt layers.length), writeLayers layers]
  | .color c =>
    Put.all [.bytes (writeByte COLOR), .bytes (writeLong c.red.1.bits),
      .bytes (writeLong c.green.1.bits), .bytes (writeLong c.blue.1.bits),
      .bytes (writeLong c.opacity.1.bits)]
  | .enum _ name => Put.all [.bytes (writeByte ENUM), .index writeShort (some name)]
  | .boolean b => Put.all [.bytes (writeByte BOOLEAN), .bytes (writeBoolean b)]
  | .size s =>
    Put.all [.bytes (writeByte SIZE), .bytes (writeLong s.value.bits),
      .index writeShort (some s.units.name)]
  | .string s => Put.all [.bytes (writeByte STRING), .index writeShort (some s)]
  | .url u => Put.all [.bytes (writeByte URL), .index writeShort (some u.1)]
  | .other => .throw .internalError

/-- The loop over the elements of an array. -/
def writeElements : List (Option (ParsedValueImpl P)) → Put (Option String)
  | [] => Put.all []
  | none :: values => (Put.all [.bytes (writeByte NULL_VALUE)]).seq (writeElements values)
  | some v :: values =>
    (Put.all [.bytes (writeByte VALUE), v.writeBinary]).seq (writeElements values)

/-- The loop over the arrays of an array. -/
def writeLayers : List (Option (List (Option (ParsedValueImpl P)))) → Put (Option String)
  | [] => Put.all []
  | none :: layers =>
    (Put.all [.bytes (writeByte NULL_VALUE), .bytes (writeInt 0)]).seq (writeLayers layers)
  | some values :: layers =>
    (Put.all [.bytes (writeByte VALUE), .bytes (writeInt values.length),
      writeElements values]).seq (writeLayers layers)

end

/-- One round of the loop over the elements of an array. -/
def readElement (readValue : DataInput (ParsedValueImpl P)) :
    DataInput (Option (ParsedValueImpl P)) := do
  let vtype ← readByte
  if vtype = VALUE then
    let v ← readValue
    return some v
  else return none

/-- An array after its tag; null when it has no elements. -/
def readArray (readValue : DataInput (ParsedValueImpl P)) :
    DataInput (Option (List (Option (ParsedValueImpl P)))) := do
  let _ ← readByte
  let nVals ← readInt
  let values ← readMany (readElement readValue) nVals.toNat
  return if 0 < nVals then some values else none

/-- An array of arrays after its tag. -/
def readLayers (readValue : DataInput (ParsedValueImpl P)) : DataInput (Value P) := do
  let _ ← readByte
  let nLayers ← readInt
  let layers ← readMany (readArray readValue) nLayers.toNat
  return if 0 < nLayers then .layers layers else .null

/-- `Color.color`, which checks the range and stores floats. -/
def component (bits : BitVec 64) : DataInput P.Component :=
  let d := longBitsToDouble bits
  if h : d.InUnit then pure ⟨P.asFloat d, P.asFloat_inUnit d h, P.asFloat_asFloat d⟩
  else throw (.exception .illegalArgument)

/-- Four doubles, as their bits. -/
def readColor : DataInput (Color P) := do
  let r ← readLong
  let g ← readLong
  let b ← readLong
  let a ← readLong
  return ⟨← component r, ← component g, ← component b, ← component a⟩

/-- An unknown unit is reported and read as pixels. -/
def readSize (strings : List (Option String)) : DataInput Size := do
  let value ← readLong
  let units ← lookup strings readShort
  return ⟨longBitsToDouble value, (SizeUnits.valueOf units).getD .px⟩

/-- A string, which the store may hold as null. -/
def ofString : Option String → Value P
  | some s => .string s
  | none => .null

/-- `new URL(str)`. -/
def readURL (strings : List (Option String)) : DataInput (Value P) := do
  let str ← lookup strings readShort
  match str with
  | some str => if h : P.isURL str = true then return .url ⟨str, h⟩ else throw .internalError
  | none => throw .internalError

/-- What `readBinary` reads after the tag. -/
def readTagged (readValue : DataInput (ParsedValueImpl P)) (strings : List (Option String))
    (valType : Int) : DataInput (Value P) :=
  if valType = VALUE then do
    let v ← readValue
    return .value v
  else if valType = VALUE_ARRAY then do
    let values ← readArray readValue
    match values with
    | some values => return .array values
    | none => return .null
  else if valType = ARRAY_OF_VALUE_ARRAY then readLayers readValue
  else if valType = COLOR then do
    let c ← readColor
    return .color c
  else if valType = ENUM then do
    let ename ← lookup strings readShort
    return ofString ename
  else if valType = BOOLEAN then do
    let b ← readBoolean
    return .boolean b
  else if valType = SIZE then do
    let s ← readSize strings
    return .size s
  else if valType = STRING then do
    let str ← lookup strings readShort
    return ofString str
  else if valType = URL then readURL strings
  else if valType = NULL_VALUE then return .null
  else throw .internalError

/-- `ParsedValueImpl.readBinary` at the current version. -/
def ParsedValueImpl.readBinary (strings : List (Option String)) :
    Nat → DataInput (ParsedValueImpl P)
  | 0 => throw .stackOverflow
  | depth + 1 => do
    let lookup ← readBoolean
    let converter ← StyleConverter.readBinary strings
    let valType ← readByte
    let value ← readTagged (ParsedValueImpl.readBinary strings depth) strings valType
    return .mk value converter lookup

end OpenJfx.Css.Binary
