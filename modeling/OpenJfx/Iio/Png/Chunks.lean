/-
  OpenJfx.Iio.Png.Chunks

  The chunks in front of the image data (`PNGImageLoader2.parsePngMeta()`): length, type, data and
  CRC.

  The handlers take the data of a chunk whole, whatever the state of the loader, but for two: the
  readers of a gray and of an RGB transparency return at once when the length is not theirs.
-/

import OpenJfx.Iio.Png.IDATStream

namespace OpenJfx.Iio.Png

open OpenJfx.DataStream List Decodes

def IEND_TYPE : Int := 0x49454e44

def PLTE_TYPE : Int := 0x504c5445

def tRNS_TYPE : Int := 0x74524e53

def PNG_COLOR_GRAY : Int := 0

def PNG_COLOR_RGB : Int := 2

def PNG_COLOR_PALETTE : Int := 3

/-- What `parsePngMeta()` reads and writes of `PNGImageLoader2`. -/
structure PngMeta where
  bitDepth : Nat
  colorType : Int
  tRNS_present : Bool
  tRNS_GRAY_RGB : Bool
  trnsR : Int
  trnsG : Int
  trnsB : Int
  palette : Option (List (List UInt8))
  deriving DecidableEq, Repr

open PngMeta

namespace PngMeta

def skip (n : Nat) : DataInput Unit := do
  let _ ← readFully n
  return ()

/-- Entries that the chunk leaves out are 0. -/
def readPaletteChunk (m : PngMeta) (chunkLength : Nat) : DataInput PngMeta := do
  let paletteEntries := 2 ^ m.bitDepth
  let numEntries := min (chunkLength / 3) paletteEntries
  let paletteData ← readFully chunkLength
  let entries (k : Nat) := (List.range paletteEntries).map fun i =>
    if i < numEntries then (paletteData[3 * i + k]?).getD 0 else 0
  return { m with palette := some [entries 0, entries 1, entries 2] }

/-- A second palette, or one without use, is skipped. -/
def parsePaletteChunk (m : PngMeta) (chunkLength : Nat) : DataInput PngMeta :=
  if m.palette.isNone ∧ m.colorType = PNG_COLOR_PALETTE then m.readPaletteChunk chunkLength
  else do
    skip chunkLength
    return m

/-- The result is whether the palette got an alpha channel. -/
def readPaletteTransparency (m : PngMeta) (chunkLength : Nat) : DataInput (Bool × PngMeta) :=
  match m.palette with
  | none => do
    skip chunkLength
    return (false, m)
  | some palette => do
    let paletteLength := (palette.headD []).length
    let nRead := min chunkLength paletteLength
    let alpha ← readFully nRead
    skip (chunkLength - nRead)
    let alpha := alpha ++ List.replicate (paletteLength - nRead) 255
    return (true, { m with palette := some (palette.take 3 ++ [alpha]) })

/-- Whether it was read: of another length nothing is. -/
def readGrayTransparency (m : PngMeta) (chunkLength : Nat) : DataInput (Bool × PngMeta) :=
  if chunkLength = 2 then do
    let trnsG ← readShort
    return (true, { m with trnsG })
  else return (false, m)

/-- Whether it was read: of another length nothing is. -/
def readRgbTransparency (m : PngMeta) (chunkLength : Nat) : DataInput (Bool × PngMeta) :=
  if chunkLength = 6 then do
    let trnsR ← readShort
    let trnsG ← readShort
    let trnsB ← readShort
    return (true, { m with trnsR, trnsG, trnsB })
  else return (false, m)

/-- By the colour type. -/
def parseTransparencyChunk (m : PngMeta) (chunkLength : Nat) : DataInput PngMeta :=
  if m.colorType = PNG_COLOR_PALETTE then do
    let (present, m) ← m.readPaletteTransparency chunkLength
    return { m with tRNS_present := present }
  else if m.colorType = PNG_COLOR_GRAY then do
    let (present, m) ← m.readGrayTransparency chunkLength
    return { m with tRNS_GRAY_RGB := present, tRNS_present := present }
  else if m.colorType = PNG_COLOR_RGB then do
    let (present, m) ← m.readRgbTransparency chunkLength
    return { m with tRNS_GRAY_RGB := present, tRNS_present := present }
  else do
    skip chunkLength
    return m

/-- The data of a chunk that does not end the loop. -/
def parseChunk (m : PngMeta) (chunkLength : Nat) (type : Int) : DataInput PngMeta :=
  if type = PLTE_TYPE then m.parsePaletteChunk chunkLength
  else if type = tRNS_TYPE then m.parseTransparencyChunk chunkLength
  else do
    skip chunkLength
    return m

/-- A turn behind `readChunk()`, with the result. -/
def handleChunk (m : PngMeta) (length type : Int) : DataInput (Option Int × PngMeta) :=
  if length < 0 then throw .io
  else if type = IDAT_TYPE then return (some length, m)
  else if type = IEND_TYPE then return (some 0, m)
  else do
    let m ← m.parseChunk length.toNat type
    let _ ← readInt
    return (none, m)

/-- A turn of the loop of `parsePngMeta()`. -/
def turn (m : PngMeta) : DataInput (Option Int × PngMeta) := do
  let length ← readInt
  let type ← readInt
  m.handleChunk length type

/-- Chunk after chunk, up to the image data. -/
def parseLoop : (fuel : Nat) → PngMeta → DataInput (Int × PngMeta)
  | 0, _ => throw .io
  | fuel + 1, m => do
    let (result, m) ← m.turn
    match result with
    | some length => return (length, m)
    | none => parseLoop fuel m

/-- `parsePngMeta()`; a turn reads eight bytes at least. -/
def parsePngMeta (m : PngMeta) : DataInput (Int × PngMeta) := fun bytes =>
  (parseLoop (bytes.length + 1) m).run bytes

end PngMeta

/-! ## Framing -/

/-- `crc` are the four bytes behind the data. -/
structure Chunk where
  type : Int
  data : List UInt8
  crc : Int
  type_int : type.bmod (2 ^ 32) = type
  type_ne : type ≠ IDAT_TYPE
  length_lt : data.length < 2 ^ 31

def chunkHeader (length : Nat) (type : Int) : List UInt8 := writeInt length ++ writeInt type

def Chunk.bytes (c : Chunk) : List UInt8 :=
  chunkHeader c.data.length c.type ++ (c.data ++ writeInt c.crc)

/-- The chunks, the header of the first IDAT chunk and what is behind it. -/
def framed (chunks : List Chunk) (length : Nat) (rest : List UInt8) : List UInt8 :=
  chunks.flatMap Chunk.bytes ++ (chunkHeader length IDAT_TYPE ++ rest)

/-- Every chunk takes a turn that reads its header, its data and its CRC. -/
def TakesChunks : PngMeta → List Chunk → PngMeta → Prop
  | m, [], m' => m' = m
  | m, c :: chunks, m'' =>
    ∃ m', Decodes m.turn c.bytes (none, m') ∧ TakesChunks m' chunks m''

/-- The lengths of a tRNS chunk that is taken whole. -/
def TakesTransparency (colorType : Int) (length : Nat) : Prop :=
  (colorType = PNG_COLOR_GRAY → length = 0 ∨ length = 2) ∧
    (colorType = PNG_COLOR_RGB → length = 0 ∨ length = 6)

/-- The chunk does not end the loop, and its handler takes it whole. -/
def Chunk.Taken (colorType : Int) (c : Chunk) : Prop :=
  c.type ≠ IEND_TYPE ∧ (c.type = tRNS_TYPE → TakesTransparency colorType c.data.length)

/-! ## The handlers -/

variable {m m' : PngMeta} {bs : List UInt8} {n : Nat}

theorem decodes_unique {α : Type} {r : DataInput α} {a b : α} {bs bs' : List UInt8}
    (h : Decodes r bs a) (h' : Decodes r (bs ++ bs') b) : a = b ∧ bs' = [] := by
  have hrun := h bs'
  have hrun' := h' []
  rw [append_nil, hrun] at hrun'
  cases hrun'
  exact ⟨rfl, rfl⟩

theorem decodes_skip (hn : bs.length = n) : Decodes (skip n) bs () := (readFully hn).map (pure ())

theorem decodes_skip_return (hn : bs.length = n) (m : PngMeta) :
    Decodes (do skip n; return m) bs m :=
  (decodes_skip hn).map (pure m)

theorem parsePaletteChunk_takes (m : PngMeta) (hn : bs.length = n) :
    ∃ m', Decodes (m.parsePaletteChunk n) bs m' ∧ m'.colorType = m.colorType := by
  unfold parsePaletteChunk
  split
  · exact ⟨_, (readFully hn).map (pure _), rfl⟩
  · exact ⟨m, decodes_skip_return hn m, rfl⟩

theorem readPaletteTransparency_takes (m : PngMeta) (hn : bs.length = n) :
    ∃ present m', Decodes (m.readPaletteTransparency n) bs (present, m') ∧
      m'.colorType = m.colorType := by
  unfold readPaletteTransparency
  split
  · exact ⟨_, _, (decodes_skip hn).map (pure _), rfl⟩
  · rename_i palette _
    have hread : (bs.take (min n (palette.headD []).length)).length =
        min n (palette.headD []).length := by
      rw [length_take, hn]
      omega
    have hskip : (bs.drop (min n (palette.headD []).length)).length =
        n - min n (palette.headD []).length := by
      rw [length_drop, hn]
    rw [← take_append_drop (min n (palette.headD []).length) bs]
    exact ⟨_, _, (readFully hread).bind ((decodes_skip hskip).map (pure _)), rfl⟩

theorem decodes_readShort (a b : UInt8) : ∃ v, Decodes readShort [a, b] v := ⟨_, fun _ => rfl⟩

theorem readGrayTransparency_takes (m : PngMeta) (hn : bs.length = n) (h : n = 2) :
    ∃ m', Decodes (m.readGrayTransparency n) bs (true, m') ∧ m'.colorType = m.colorType := by
  unfold readGrayTransparency
  rw [if_pos h]
  obtain ⟨a, b, rfl⟩ := length_eq_two.mp (hn.trans h)
  obtain ⟨v, hv⟩ := decodes_readShort a b
  exact ⟨_, hv.map (pure _), rfl⟩

theorem readRgbTransparency_takes (m : PngMeta) (hn : bs.length = n) (h : n = 6) :
    ∃ m', Decodes (m.readRgbTransparency n) bs (true, m') ∧ m'.colorType = m.colorType := by
  unfold readRgbTransparency
  rw [if_pos h]
  obtain ⟨a, b, c, d, e, f, rfl⟩ : ∃ a b c d e f, bs = [a, b] ++ ([c, d] ++ [e, f]) := by
    match bs, hn.trans h with
    | [a, b, c, d, e, f], _ => exact ⟨a, b, c, d, e, f, rfl⟩
  obtain ⟨r, hr⟩ := decodes_readShort a b
  obtain ⟨g, hg⟩ := decodes_readShort c d
  obtain ⟨v, hv⟩ := decodes_readShort e f
  exact ⟨_, hr.bind (hg.bind (hv.map (pure _))), rfl⟩

theorem expecting_takes {r : DataInput (Bool × PngMeta)} (m : PngMeta) (k : Nat)
    (f : Bool → PngMeta → PngMeta) (hf : ∀ present m, (f present m).colorType = m.colorType)
    (hn : bs.length = n)
    (hyes : n = k → ∃ m', Decodes r bs (true, m') ∧ m'.colorType = m.colorType)
    (hno : n ≠ k → Decodes r [] (false, m)) :
    (n = 0 ∨ n = k → ∃ m', Decodes (do let (present, m) ← r; return f present m) bs m' ∧
      m'.colorType = m.colorType) ∧
    (¬ (n = 0 ∨ n = k) → n ≠ 0 ∧
      ∃ m', Decodes (do let (present, m) ← r; return f present m) [] m') := by
  by_cases hk : n = k
  · obtain ⟨m', hread, hcolor⟩ := hyes hk
    exact ⟨fun _ => ⟨_, hread.map (pure _), (hf _ _).trans hcolor⟩,
      fun hnot => absurd (Or.inr hk) hnot⟩
  · refine ⟨fun h => ?_, fun hnot => ⟨fun h0 => hnot (Or.inl h0), _, (hno hk).map (pure _)⟩⟩
    obtain rfl := List.length_eq_zero_iff.mp (hn.trans (h.resolve_right hk))
    exact ⟨_, (hno hk).map (pure _), hf _ _⟩

theorem parseTransparencyChunk_takes (m : PngMeta) (hn : bs.length = n) :
    (TakesTransparency m.colorType n →
      ∃ m', Decodes (m.parseTransparencyChunk n) bs m' ∧ m'.colorType = m.colorType) ∧
    (¬ TakesTransparency m.colorType n →
      n ≠ 0 ∧ ∃ m', Decodes (m.parseTransparencyChunk n) [] m') := by
  unfold parseTransparencyChunk TakesTransparency
  by_cases hpalette : m.colorType = PNG_COLOR_PALETTE
  · rw [if_pos hpalette]
    refine ⟨fun _ => ?_, fun hno => absurd ⟨fun h => ?_, fun h => ?_⟩ hno⟩
    · obtain ⟨present, m', hread, hcolor⟩ := readPaletteTransparency_takes m hn
      exact ⟨_, hread.map (pure _), hcolor⟩
    all_goals exact absurd (hpalette.symm.trans h) (by decide)
  rw [if_neg hpalette]
  by_cases hgray : m.colorType = PNG_COLOR_GRAY
  · rw [if_pos hgray, forall_prop_of_true hgray, and_iff_left fun h =>
      absurd (hgray.symm.trans h) (by decide)]
    refine expecting_takes m 2 (fun present m =>
      { m with tRNS_GRAY_RGB := present, tRNS_present := present }) (fun _ _ => rfl) hn
      (readGrayTransparency_takes m hn) fun h => ?_
    rw [readGrayTransparency, if_neg h]
    exact pure _
  rw [if_neg hgray]
  by_cases hrgb : m.colorType = PNG_COLOR_RGB
  · rw [if_pos hrgb, forall_prop_of_true hrgb, and_iff_right fun h => absurd h hgray]
    refine expecting_takes m 6 (fun present m =>
      { m with tRNS_GRAY_RGB := present, tRNS_present := present }) (fun _ _ => rfl) hn
      (readRgbTransparency_takes m hn) fun h => ?_
    rw [readRgbTransparency, if_neg h]
    exact pure _
  · rw [if_neg hrgb]
    exact ⟨fun _ => ⟨m, decodes_skip_return hn m, rfl⟩,
      fun hno => absurd ⟨fun h => absurd h hgray, fun h => absurd h hrgb⟩ hno⟩

/-! ## A turn -/

theorem parseChunk_takes (m : PngMeta) (hn : bs.length = n) {type : Int} :
    ((type = tRNS_TYPE → TakesTransparency m.colorType n) →
      ∃ m', Decodes (m.parseChunk n type) bs m' ∧ m'.colorType = m.colorType) ∧
    (¬ (type = tRNS_TYPE → TakesTransparency m.colorType n) →
      n ≠ 0 ∧ ∃ m', Decodes (m.parseChunk n type) [] m') := by
  unfold parseChunk
  by_cases hplte : type = PLTE_TYPE
  · rw [if_pos hplte]
    exact ⟨fun _ => parsePaletteChunk_takes m hn,
      fun hno => absurd (fun h => absurd (hplte.symm.trans h) (by decide)) hno⟩
  rw [if_neg hplte]
  by_cases htrns : type = tRNS_TYPE
  · rw [if_pos htrns, forall_prop_of_true htrns]
    exact parseTransparencyChunk_takes m hn
  · rw [if_neg htrns]
    exact ⟨fun _ => ⟨m, decodes_skip_return hn m, rfl⟩, fun hno => absurd (absurd · htrns) hno⟩

theorem decodes_header {length : Nat} {type : Int} (hlen : length < 2 ^ 31)
    (htype : type.bmod (2 ^ 32) = type) {result : Option Int × PngMeta}
    (h : Decodes (m.handleChunk length type) bs result) :
    Decodes m.turn (chunkHeader length type ++ bs) result := by
  have hread := readInt length
  have hread' := readInt type
  rw [bmod_int hlen] at hread
  rw [htype] at hread'
  rw [chunkHeader, append_assoc]
  exact hread.bind (hread'.bind h)

theorem decodes_crc (m : PngMeta) (a b c d : UInt8) :
    Decodes (do let _ ← readInt; return ((none : Option Int), m)) [a, b, c, d] (none, m) :=
  fun _ => rfl

theorem handleChunk_eq {length : Nat} {type : Int} (hne : type ≠ IDAT_TYPE)
    (hend : type ≠ IEND_TYPE) : m.handleChunk length type = (do
      let m ← m.parseChunk length type
      let _ ← readInt
      return (none, m)) := by
  unfold handleChunk
  rw [if_neg (by omega), if_neg hne, if_neg hend, Int.toNat_natCast]

theorem turn_takes (m : PngMeta) {c : Chunk} (h : c.Taken m.colorType) :
    ∃ m', Decodes m.turn c.bytes (none, m') ∧ m'.colorType = m.colorType := by
  obtain ⟨m', hread, hcolor⟩ := (@parseChunk_takes c.data _ m rfl c.type).1 h.2
  refine ⟨m', decodes_header c.length_lt c.type_int ?_, hcolor⟩
  rw [handleChunk_eq c.type_ne h.1]
  exact hread.bind (decodes_crc m' _ _ _ _)

theorem taken_of_turn {c : Chunk} (h : Decodes m.turn c.bytes (none, m')) :
    c.Taken m.colorType := by
  have hheader := fun {bs} {result} => @decodes_header m bs _ _ c.length_lt c.type_int result
  have hend : c.type ≠ IEND_TYPE := by
    intro hend
    have hstop : Decodes (m.handleChunk c.data.length c.type) [] (some 0, m) := by
      unfold handleChunk
      rw [if_neg (by omega), if_neg c.type_ne, if_pos hend]
      exact pure _
    have hread := hheader hstop
    rw [append_nil] at hread
    cases (decodes_unique hread h).1
  refine ⟨hend, ?_⟩
  by_contra hno
  obtain ⟨hne, m1, hread⟩ := (@parseChunk_takes c.data _ m rfl c.type).2 hno
  obtain ⟨x, y, z, w, rest, hspl, hrest⟩ : ∃ x y z w rest, c.data ++ writeInt c.crc =
      [x, y, z, w] ++ rest ∧ rest ≠ [] := by
    match hdata : c.data with
    | [] => exact absurd (congrArg length hdata) hne
    | [x] | [x, y] | [x, y, z] => exact ⟨_, _, _, _, _, rfl, cons_ne_nil _ _⟩
    | x :: y :: z :: w :: rest => exact ⟨x, y, z, w, rest ++ writeInt c.crc, rfl, by simp [writeInt, bigEndian]⟩
  rw [Chunk.bytes, hspl, ← append_assoc] at h
  rw [handleChunk_eq c.type_ne hend] at hheader
  exact hrest (decodes_unique (hheader (hread.bind (decodes_crc m1 x y z w))) h).2

/-! ## The loop -/

theorem takesChunks_iff (m : PngMeta) (chunks : List Chunk) :
    (∃ m', TakesChunks m chunks m') ↔ ∀ c ∈ chunks, c.Taken m.colorType := by
  induction chunks generalizing m with
  | nil => exact iff_of_true ⟨m, rfl⟩ (by simp)
  | cons c chunks ih =>
    rw [forall_mem_cons]
    constructor
    · rintro ⟨m'', m', hturn, hrest⟩
      have htaken := taken_of_turn hturn
      obtain ⟨m1, hturn1, hcolor⟩ := turn_takes m htaken
      have hsame := (decodes_unique hturn1 ((append_nil c.bytes).symm ▸ hturn)).1
      obtain rfl : m1 = m' := congrArg Prod.snd hsame
      exact ⟨htaken, hcolor ▸ (ih m1).mp ⟨m'', hrest⟩⟩
    · rintro ⟨htaken, hall⟩
      obtain ⟨m', hturn, hcolor⟩ := turn_takes m htaken
      obtain ⟨m'', hrest⟩ := (ih m').mpr (hcolor ▸ hall)
      exact ⟨m'', m', hturn, hrest⟩

/-- The loop takes the chunks and ends behind the header of the IDAT chunk. -/
theorem parseLoop_framed {chunks : List Chunk} (h : TakesChunks m chunks m') {length : Nat}
    (hlen : length < 2 ^ 31) {fuel : Nat} (hfuel : chunks.length < fuel) :
    Decodes (parseLoop fuel m) (framed chunks length []) ((length : Int), m') := by
  rcases fuel with _ | fuel
  · omega
  induction chunks generalizing m fuel with
  | nil =>
    obtain rfl : m' = m := h
    have hstop : Decodes (m'.handleChunk length IDAT_TYPE) [] (some (length : Int), m') := by
      unfold handleChunk
      rw [if_neg (by omega), if_pos rfl]
      exact pure _
    exact (decodes_header hlen (by decide) hstop).map (pure _)
  | cons c chunks ih =>
    obtain ⟨m1, hturn, hrest⟩ := h
    rw [length_cons] at hfuel
    rcases fuel with _ | fuel
    · omega
    rw [framed, flatMap_cons, append_assoc]
    exact hturn.bind (ih hrest fuel (by omega))

theorem length_le_framed (chunks : List Chunk) (length : Nat) (rest : List UInt8) :
    chunks.length ≤ (framed chunks length rest).length := by
  have hle : chunks.length ≤ (chunks.flatMap Chunk.bytes).length := by
    induction chunks with
    | nil => exact Nat.le_refl _
    | cons c chunks ih =>
      have hpos : 8 ≤ c.bytes.length := by
        simp only [Chunk.bytes, chunkHeader, length_append, writeInt_length]
        omega
      rw [flatMap_cons, length_append, length_cons]
      omega
  rw [framed, length_append]
  omega

/-- `parsePngMeta` takes every chunk whole, up to the data of the first IDAT chunk, if and only if
    no chunk is an IEND chunk or a tRNS chunk of a length that is neither 0 nor expected. -/
theorem framing_iff (m : PngMeta) (chunks : List Chunk) {length : Nat} (hlen : length < 2 ^ 31)
    (rest : List UInt8) :
    (∃ m', TakesChunks m chunks m' ∧
      m.parsePngMeta.run (framed chunks length rest) = .ok (((length : Int), m'), rest)) ↔
      ∀ c ∈ chunks, c.type ≠ IEND_TYPE ∧
        (c.type = tRNS_TYPE → TakesTransparency m.colorType c.data.length) := by
  refine Iff.trans ⟨fun ⟨m', h, _⟩ => ⟨m', h⟩, fun ⟨m', h⟩ => ⟨m', h, ?_⟩⟩
    (takesChunks_iff m chunks)
  have hframed : framed chunks length rest = framed chunks length [] ++ rest := by
    simp [framed]
  show (parseLoop _ m).run _ = _
  rw [hframed]
  have hfuel := Nat.lt_succ_of_le (length_le_framed chunks length rest)
  rw [hframed] at hfuel
  exact parseLoop_framed h hlen hfuel rest

/-- A palette, its transparency and an empty chunk of another kind. -/
theorem framing_iff_palette : ∃ m chunks, chunks.map Chunk.type = [PLTE_TYPE, tRNS_TYPE, 0] ∧
    ∃ m', TakesChunks m chunks m' ∧
      m.parsePngMeta.run (framed chunks 5 [1]) = .ok ((5, m'), [1]) :=
  ⟨⟨1, PNG_COLOR_PALETTE, false, false, 0, 0, 0, none⟩,
    [⟨PLTE_TYPE, [1, 2, 3], 0, by decide, by decide, by decide⟩,
      ⟨tRNS_TYPE, [9, 8, 7, 6], 0, by decide, by decide, by decide⟩,
      ⟨0, [], 0, by decide, by decide, by decide⟩], rfl,
    (framing_iff ⟨1, PNG_COLOR_PALETTE, false, false, 0, 0, 0, none⟩
      [⟨PLTE_TYPE, [1, 2, 3], 0, by decide, by decide, by decide⟩,
        ⟨tRNS_TYPE, [9, 8, 7, 6], 0, by decide, by decide, by decide⟩,
        ⟨0, [], 0, by decide, by decide, by decide⟩] (by decide) [1]).mpr (by
          unfold TakesTransparency
          decide)⟩

/-- A tRNS chunk of two bytes in an RGB image. -/
theorem framing_fails : ∃ (c : Chunk) (m : PngMeta), c.type = tRNS_TYPE ∧ c.data = [0, 0] ∧
    m.parsePngMeta.run (framed [c] 5 [1]) = .error .io ∧
    ¬ ∃ m', TakesChunks m [c] m' ∧
      m.parsePngMeta.run (framed [c] 5 [1]) = .ok ((5, m'), [1]) := by
  refine ⟨⟨tRNS_TYPE, [0, 0], 0xffff, by decide, by decide, by decide⟩,
    ⟨8, PNG_COLOR_RGB, false, false, 0, 0, 0, none⟩, rfl, rfl, by decide, ?_⟩
  rintro ⟨m', -, hrun⟩
  have hfails : (⟨8, PNG_COLOR_RGB, false, false, 0, 0, 0, none⟩ : PngMeta).parsePngMeta.run
      (framed [⟨tRNS_TYPE, [0, 0], 0xffff, by decide, by decide, by decide⟩] 5 [1]) =
        .error .io := by decide
  rw [hfails] at hrun
  cases hrun

end OpenJfx.Iio.Png
