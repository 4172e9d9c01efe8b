/-
  OpenJfx.Iio.Gif.Basic

  The decoder of GIF image data (`GIFImageLoader2.LZWDecoder`), for code sizes
  that the tables have room for.

  An array is the function of its elements, with the bounds checked at each
  access.  The bytes of the current block behind its length are never read, so
  a block is the list of its bytes.
-/

import OpenJfx.Lib.BitString

namespace OpenJfx.Iio.Gif

/-- What the decoder throws. -/
inductive Failure where
  | eof
  | outOfSequence
  | arrayIndexOutOfBounds
  deriving DecidableEq, Repr

/-! ## The input buffer -/

/-- The input buffer of `LZWDecoder`, with what is left of the stream. -/
structure Input where
  block : List UInt8
  blockPos : Nat
  inData : Nat
  inBits : Nat
  stream : List UInt8

namespace Input

/-- The next block. -/
def readData (i : Input) : Except Failure Input :=
  match i.stream with
  | [] => .error .eof
  | blockLength :: stream =>
    if 0 < blockLength.toNat then
      if stream.length < blockLength.toNat then .error .eof
      else
        .ok { i with
          block := stream.take blockLength.toNat
          blockPos := 0
          stream := stream.drop blockLength.toNat }
    else .error .eof

/-- A new block is read when one is used up. -/
def nextByte (i : Input) : Except Failure (Nat × Input) := do
  let i ← if i.blockPos = i.block.length then i.readData else .ok i
  match i.block[i.blockPos]? with
  | some b => return (b.toNat, { i with blockPos := i.blockPos + 1 })
  | none => .error .arrayIndexOutOfBounds

/-- The loop of `getCode`; each turn adds eight bits. -/
def fillBits (codeSize : Nat) : (fuel : Nat) → Input → Except Failure Input
  | 0, i => .ok i
  | fuel + 1, i =>
    if i.inBits < codeSize then do
      let (b, i) ← i.nextByte
      fillBits codeSize fuel
        { i with inData := i.inData ||| b <<< i.inBits, inBits := i.inBits + 8 }
    else .ok i

/-- `getCode`, with the code and its mask for a code size. -/
def getCode (codeSize : Nat) (i : Input) : Except Failure (Nat × Input) := do
  let i ← i.fillBits codeSize codeSize
  let codeMask := (1 <<< codeSize) - 1
  return (i.inData &&& codeMask,
    { i with inBits := i.inBits - codeSize, inData := i.inData >>> codeSize })

end Input

/-! ## The table -/

def tableSize : Nat := 4096

/-- The code sizes and the table of `LZWDecoder`. -/
structure Table where
  initCodeSize : Nat
  codeSize : Nat
  tableIndex : Nat
  oldCode : Nat
  prefixCode : Nat → Int
  suffix : Nat → UInt8
  initial : Nat → UInt8
  length : Nat → Nat

namespace Table

def clearCode (t : Table) : Nat := 1 <<< t.initCodeSize

def eofCode (t : Table) : Nat := t.clearCode + 1

/-- The single bytes; the next codes are the two control codes. -/
def initTable (t : Table) : Table :=
  let numEntries := 1 <<< t.initCodeSize
  { t with
    prefixCode := fun _ => -1
    suffix := fun i => if i < numEntries then UInt8.ofNat i else t.suffix i
    initial := fun i => if i < numEntries then UInt8.ofNat i else t.initial i
    length := fun _ => 1
    codeSize := t.initCodeSize + 1
    tableIndex := numEntries + 2
    oldCode := 0 }

/-- The entry that a code adds to the table. -/
def addEntry (t : Table) (code : Nat) : Except Failure Table :=
  let ti := t.tableIndex
  if code > ti then .error .outOfSequence
  else
    let newSuffixIndex := if code < ti then code else t.oldCode
    let oc := t.oldCode
    -- the first of the four stores at index `ti` throws
    if tableSize ≤ ti then .error .arrayIndexOutOfBounds
    else
      let initial := t.initial
      let tableIndex := ti + 1
      .ok { t with
        prefixCode := Function.update t.prefixCode ti oc
        suffix := Function.update t.suffix ti (initial newSuffixIndex)
        initial := Function.update initial ti (initial oc)
        length := Function.update t.length ti (t.length oc + 1)
        tableIndex
        codeSize :=
          if tableIndex = 1 <<< t.codeSize ∧ tableIndex < tableSize then t.codeSize + 1
          else t.codeSize }

/-- The loop that reverses a code: the first `len` bytes of `string`. -/
def reverseCode (t : Table) : (len : Nat) → (c : Int) → Except Failure (List UInt8)
  | 0, _ => .ok []
  | len + 1, c =>
    if 0 ≤ c ∧ c < tableSize then do
      let string ← t.reverseCode len (t.prefixCode c.toNat)
      return string ++ [t.suffix c.toNat]
    else .error .arrayIndexOutOfBounds

end Table

/-! ## The decoder -/

/-- The decoder with its input. -/
structure LZWDecoder where
  table : Table
  input : Input

namespace LZWDecoder

/-- The constructor, which reads the initial code size. -/
def new : List UInt8 → Except Failure LZWDecoder
  | [] => .error .eof
  | initCodeSize :: stream =>
    .ok ⟨Table.initTable
        { initCodeSize := initCodeSize.toNat, codeSize := 0, tableIndex := 0, oldCode := 0
          prefixCode := fun _ => 0, suffix := fun _ => 0, initial := fun _ => 0
          length := fun _ => 0 },
      ⟨[], 0, 0, 0, stream⟩⟩

/-- The end of `readString`: the string of a code. -/
def stringOf (d : LZWDecoder) (code : Nat) : Except Failure (Option (List UInt8) × LZWDecoder) :=
  let len := d.table.length code
  if tableSize < len then .error .arrayIndexOutOfBounds
  else do
    let string ← d.table.reverseCode len code
    return (some string, { d with table := { d.table with oldCode := code } })

/-- The part of `readString` behind a clear code. -/
def readCleared (table : Table) (input : Input) :
    Except Failure (Option (List UInt8) × LZWDecoder) := do
  let table := table.initTable
  let (code, input) ← input.getCode table.codeSize
  if code = table.eofCode then return (none, ⟨table, input⟩)
  else stringOf ⟨table, input⟩ code

/-- `readString`; none is the end of the stream. -/
def readString (d : LZWDecoder) : Except Failure (Option (List UInt8) × LZWDecoder) := do
  let (code, input) ← d.input.getCode d.table.codeSize
  if code = d.table.eofCode then return (none, { d with input })
  else if code = d.table.clearCode then readCleared d.table input
  else do
    let table ← d.table.addEntry code
    stringOf ⟨table, input⟩ code

/-- The strings up to the end code concatenate. -/
inductive Reads : LZWDecoder → List UInt8 → Prop where
  | done {d d' : LZWDecoder} (h : d.readString = .ok (none, d')) : Reads d []
  | next {d d' : LZWDecoder} {string rest : List UInt8} (h : d.readString = .ok (some string, d'))
      (hrest : Reads d' rest) : Reads d (string ++ rest)

end LZWDecoder

end OpenJfx.Iio.Gif
