/-
  OpenJfx.Iio.Png.IDATStream

  The stream of the image data (`PNGIDATChunkInputStream`): the data of consecutive
  IDAT chunks, one after the other.

  A call that finds the current chunk used up goes on to the next one, once.  If
  that one is empty the call returns -1, as at the end of the data, whatever
  follows.
-/

import OpenJfx.Lib.DataStream

namespace OpenJfx.Iio.Png

open OpenJfx.DataStream List

def IDAT_TYPE : Int := 0x49444154

/-- `PNGIDATChunkInputStream`; `source` are the bytes ahead. -/
structure PNGIDATChunkInputStream where
  source : List UInt8
  numBytesAvailable : Int
  foundAllIDATChunks : Bool
  nextChunkLength : Int
  nextChunkType : Int
  deriving DecidableEq, Repr

/-- The calls of a reader, with the length that is asked for. -/
inductive ReadCall where
  | read
  | readArray (len : Nat)
  deriving DecidableEq, Repr

namespace PNGIDATChunkInputStream

def new (input : List UInt8) (firstIDATChunkLength : Int) : Except Throwable PNGIDATChunkInputStream :=
  if firstIDATChunkLength < 0 then .error .io else .ok ⟨input, firstIDATChunkLength, false, 0, 0⟩

/-- The CRC of a chunk, and length and type of the next. -/
def readHeader : DataInput (Int × Int) := do
  let _ ← readFully 4
  let chunkLength ← readInt
  if chunkLength < 0 then throw .io
  else
    let chunkType ← readInt
    return (chunkLength, chunkType)

/-- The checksum is skipped, and the next header read. -/
def nextChunk (s : PNGIDATChunkInputStream) : Except Throwable PNGIDATChunkInputStream :=
  if s.foundAllIDATChunks then .ok s
  else do
    let ((chunkLength, chunkType), source) ← readHeader.run s.source
    if chunkType = IDAT_TYPE then
      .ok { s with source, numBytesAvailable := s.numBytesAvailable + chunkLength }
    else
      .ok { s with
        source, foundAllIDATChunks := true, nextChunkLength := chunkLength, nextChunkType := chunkType }

/-- `nextChunk()` where the chunk is used up and there is more to read. -/
def refill (s : PNGIDATChunkInputStream) (more : Bool) : Except Throwable PNGIDATChunkInputStream :=
  if s.numBytesAvailable = 0 ∧ more then s.nextChunk else .ok s

/-- `read()`; none is -1. -/
def read (s : PNGIDATChunkInputStream) : Except Throwable (Option UInt8 × PNGIDATChunkInputStream) := do
  let s ← s.refill true
  if s.numBytesAvailable = 0 then return (none, s)
  else
    let s := { s with numBytesAvailable := s.numBytesAvailable - 1 }
    return (s.source.head?, { s with source := s.source.tail })

/-- How many bytes `source.read(b, off, n)` reads of those ahead. -/
abbrev Reads := List UInt8 → Nat → Nat

/-- At least one byte and at most as many as are asked for. -/
def Reads.Proper (reads : Reads) : Prop :=
  ∀ source n, source ≠ [] → 0 < n → 0 < reads source n ∧ reads source n ≤ min n source.length

/-- It stores `total`; a turn reads one byte at least. -/
def readLoop (reads : Reads) : (fuel : Nat) → PNGIDATChunkInputStream → (len : Nat) →
    (total : List UInt8) → Except Throwable (List UInt8 × PNGIDATChunkInputStream)
  | 0, s, _, total => .ok (total, s)
  | fuel + 1, s, len, total =>
    if s.numBytesAvailable > 0 ∧ len > 0 then
      if s.source = [] then .error .io
      else do
        let numToRead := if (len : Int) < s.numBytesAvailable then len else s.numBytesAvailable.toNat
        let numRead := reads s.source numToRead
        let total := total ++ s.source.take numRead
        let s := { s with
          source := s.source.drop numRead, numBytesAvailable := s.numBytesAvailable - numRead }
        let len := len - numRead
        let s ← s.refill (len > 0)
        readLoop reads fuel s len total
    else .ok (total, s)

/-- `read(b, off, len)`: the bytes stored, or none for -1. -/
def readArray (reads : Reads) (s : PNGIDATChunkInputStream) (len : Nat) :
    Except Throwable (Option (List UInt8) × PNGIDATChunkInputStream) := do
  let s ← s.refill true
  if s.numBytesAvailable = 0 then return (none, s)
  else
    let (total, s) ← readLoop reads len s len []
    return (some total, s)

/-- The bytes that a call delivers. -/
def call (reads : Reads) (s : PNGIDATChunkInputStream) :
    ReadCall → Except Throwable (Option (List UInt8) × PNGIDATChunkInputStream)
  | .read => do
    let (b, s) ← s.read
    return (b.map fun b => [b], s)
  | .readArray len => s.readArray reads len

end PNGIDATChunkInputStream

/-! ## Chunks -/

/-- An IDAT chunk; `crc` are the four bytes behind the data. -/
structure IDATChunk where
  data : List UInt8
  crc : Int

/-- A chunk of another kind, and the rest. -/
structure DataEnd where
  length : Int
  type : Int
  rest : List UInt8
  length_nonneg : 0 ≤ length
  length_lt : length < 2 ^ 31
  type_int : type.bmod (2 ^ 32) = type
  type_ne : type ≠ IDAT_TYPE

/-- The bytes behind the data of a chunk. -/
def following (last : DataEnd) (crc : Int) : List IDATChunk → List UInt8
  | [] => writeInt crc ++ (writeInt last.length ++ (writeInt last.type ++ last.rest))
  | c :: chunks =>
    writeInt crc ++ (writeInt c.data.length ++ (writeInt IDAT_TYPE ++ (c.data ++ following last c.crc chunks)))

/-- In order, and -1 just when there is none. -/
structure Delivered (length : Nat) (ahead : List UInt8) (result : Option (List UInt8))
    (ahead' : List UInt8) : Prop where
  eof : result = none ↔ ahead = []
  inOrder : ahead = result.getD [] ++ ahead'
  length_le : (result.getD []).length ≤ length
  some_of_pos : 0 < length → ahead ≠ [] → result.getD [] ≠ []

def ReadCall.length : ReadCall → Nat
  | .read => 1
  | .readArray len => len

/-- The calls deliver the data ahead, and leave the bytes of `rest`. -/
def Delivers (reads : PNGIDATChunkInputStream.Reads) (rest : List UInt8) :
    PNGIDATChunkInputStream → (ahead : List UInt8) → List ReadCall → Prop
  | _, _, [] => True
  | s, ahead, call :: calls => ∃ result s' ahead', s.call reads call = .ok (result, s') ∧
      Delivered call.length ahead result ahead' ∧ rest <:+ s'.source ∧ Delivers reads rest s' ahead' calls

variable {reads : PNGIDATChunkInputStream.Reads}

section Positions

variable {last : DataEnd} {s : PNGIDATChunkInputStream} {d : List UInt8} {c : IDATChunk}
  {chunks : List IDATChunk}

/-- `d` is left and `chunks` behind it, or all is read. -/
inductive IsAt (last : DataEnd) : PNGIDATChunkInputStream → List UInt8 → List IDATChunk → Prop
  | inChunk (d : List UInt8) (crc : Int) (chunks : List IDATChunk) (n t : Int) :
    IsAt last ⟨d ++ following last crc chunks, d.length, false, n, t⟩ d chunks
  | atEnd (n t : Int) : IsAt last ⟨last.rest, 0, true, n, t⟩ [] []

def dataOf (chunks : List IDATChunk) : List UInt8 := chunks.flatMap IDATChunk.data

theorem IsAt.numBytesAvailable (h : IsAt last s d chunks) : s.numBytesAvailable = d.length := by
  cases h <;> rfl

theorem suffix_following (last : DataEnd) (crc : Int) (chunks : List IDATChunk) :
    last.rest <:+ following last crc chunks := by
  induction chunks generalizing crc with
  | nil => exact ⟨writeInt crc ++ writeInt last.length ++ writeInt last.type, by simp [following]⟩
  | cons c chunks ih =>
    refine (ih c.crc).trans ⟨writeInt crc ++ writeInt c.data.length ++ writeInt IDAT_TYPE ++ c.data, ?_⟩
    simp [following]

theorem IsAt.suffix (h : IsAt last s d chunks) : last.rest <:+ s.source := by
  cases h with
  | inChunk _ crc _ n t => exact (suffix_following last _ chunks).trans (suffix_append _ _)
  | atEnd n t => exact suffix_refl _

theorem readHeader_eq (crc : Int) {length type : Int} (hpos : 0 ≤ length) (hlt : length < 2 ^ 31)
    (htype : type.bmod (2 ^ 32) = type) (rest : List UInt8) :
    PNGIDATChunkInputStream.readHeader.run
        (writeInt crc ++ (writeInt length ++ (writeInt type ++ rest))) = .ok ((length, type), rest) := by
  have hlen : length.bmod (2 ^ 32) = length := Int.bmod_eq_of_le (by omega) (by omega)
  have hread := Decodes.readInt length
  have hread' := Decodes.readInt type
  rw [hlen] at hread
  rw [htype] at hread'
  have hall : Decodes PNGIDATChunkInputStream.readHeader
      (writeInt crc ++ (writeInt length ++ writeInt type)) (length, type) := by
    refine (Decodes.readFully (writeInt_length crc)).bind (hread.bind ?_)
    rw [if_neg (Int.not_lt.mpr hpos)]
    exact hread'.map (Decodes.pure (length, type))
  have hrun := hall rest
  rw [append_assoc, append_assoc] at hrun
  exact hrun

/-- The data of the chunk that comes next. -/
def nextData : List IDATChunk → List UInt8
  | [] => []
  | c :: _ => c.data

theorem nextData_append (chunks : List IDATChunk) : nextData chunks ++ dataOf chunks.tail = dataOf chunks := by
  cases chunks <;> rfl

theorem IsAt.nextChunk (h : IsAt last s [] chunks) (hsizes : ∀ c ∈ chunks, c.data.length < 2 ^ 31) :
    ∃ s', s.nextChunk = .ok s' ∧ IsAt last s' (nextData chunks) chunks.tail := by
  cases h with
  | atEnd n t => exact ⟨_, rfl, .atEnd n t⟩
  | inChunk _ crc _ n t =>
    cases chunks with
    | nil =>
      refine ⟨_, ?_, .atEnd last.length last.type⟩
      simp only [PNGIDATChunkInputStream.nextChunk, following, nil_append,
        readHeader_eq _ last.length_nonneg last.length_lt last.type_int, Bool.false_eq_true, if_false]
      exact if_neg last.type_ne
    | cons c chunks =>
      refine ⟨_, ?_, .inChunk c.data c.crc chunks n t⟩
      have hlen := Int.ofNat_lt.mpr (hsizes c mem_cons_self)
      have hheader := readHeader_eq crc (Int.natCast_nonneg c.data.length) hlen
        (show IDAT_TYPE.bmod (2 ^ 32) = IDAT_TYPE by decide) (c.data ++ following last c.crc chunks)
      simp only [PNGIDATChunkInputStream.nextChunk, following, nil_append, hheader,
        Bool.false_eq_true, if_false]
      show Except.ok (PNGIDATChunkInputStream.mk _ (0 + (c.data.length : Int)) _ _ _) = _
      rw [Int.zero_add]

/-- A call that finds the data used up goes on to the next chunk. -/
theorem IsAt.enter (h : IsAt last s d chunks) (hsizes : ∀ c ∈ chunks, c.data.length < 2 ^ 31)
    (hgap : d = [] → nextData chunks = [] → dataOf chunks = []) :
    ∃ s' d' chunks', s.refill true = .ok s' ∧
      IsAt last s' d' chunks' ∧ chunks' <:+ chunks ∧ d' ++ dataOf chunks' = d ++ dataOf chunks ∧
      (d' = [] → d ++ dataOf chunks = []) := by
  rw [PNGIDATChunkInputStream.refill, h.numBytesAvailable]
  by_cases hd : d = []
  · subst hd
    obtain ⟨s', hs', hat⟩ := h.nextChunk hsizes
    exact ⟨s', _, _, (if_pos ⟨rfl, rfl⟩).trans hs', hat, tail_suffix _, nextData_append _, hgap rfl⟩
  · have hpos := length_pos_iff.mpr hd
    rw [if_neg (by omega)]
    exact ⟨s, d, chunks, rfl, h, suffix_refl _, rfl, fun hnil => absurd hnil hd⟩

theorem IsAt.readLoop (hreads : reads.Proper)
    (hsizes : ∀ c ∈ chunks, c.data.length < 2 ^ 31) (h : IsAt last s d chunks) {fuel len : Nat}
    (hfuel : len ≤ fuel) (total : List UInt8) :
    ∃ bytes s' d' chunks', PNGIDATChunkInputStream.readLoop reads fuel s len total = .ok (total ++ bytes, s') ∧
      IsAt last s' d' chunks' ∧ chunks' <:+ chunks ∧
      d ++ dataOf chunks = bytes ++ (d' ++ dataOf chunks') ∧ bytes.length ≤ len ∧
      (0 < len → d ≠ [] → bytes ≠ []) := by
  induction fuel generalizing s d chunks len total with
  | zero =>
    obtain rfl := Nat.le_zero.mp hfuel
    exact ⟨[], s, d, chunks, by rw [append_nil]; rfl, h, suffix_refl _, rfl, Nat.le_refl 0,
      fun hlt => absurd hlt (Nat.lt_irrefl 0)⟩
  | succ fuel ih =>
    rw [PNGIDATChunkInputStream.readLoop, h.numBytesAvailable]
    by_cases hmore : (d.length : Int) > 0 ∧ len > 0
    · obtain ⟨hd, hlen⟩ := hmore
      have hdne : d ≠ [] := length_pos_iff.mp (by omega)
      cases h with
      | atEnd n t => exact absurd rfl hdne
      | inChunk _ crc _ n t =>
        have hne : d ++ following last crc chunks ≠ [] := by simp [hdne]
        rw [if_pos ⟨hd, hlen⟩, if_neg hne]
        generalize hto : (if (len : Int) < d.length then len else (d.length : Int).toNat) = numToRead
        have hle : 0 < numToRead ∧ numToRead ≤ len ∧ numToRead ≤ d.length := by
          split at hto <;> omega
        obtain ⟨hread, hread'⟩ := hreads _ numToRead hne hle.1
        simp only []
        generalize reads (d ++ following last crc chunks) numToRead = numRead at *
        have hnum : numRead ≤ numToRead := Nat.le_trans hread' (Nat.min_le_left ..)
        rw [take_append_of_le_length (by omega), drop_append_of_le_length (by omega)]
        have hat : IsAt last ⟨d.drop numRead ++ following last crc chunks, (d.length : Int) - numRead, false, n, t⟩
            (d.drop numRead) chunks := by
          have hlength : (d.length : Int) - numRead = (d.drop numRead).length := by
            rw [length_drop]
            omega
          rw [hlength]
          exact .inChunk _ _ _ _ _
        -- after the turn the stream stands in the same chunk or in the next one
        obtain ⟨s1, d1, chunks1, hs1, hat1, hsuffix1, hdata1⟩ : ∃ s1 d1 chunks1,
            PNGIDATChunkInputStream.refill ⟨d.drop numRead ++ following last crc chunks,
              (d.length : Int) - numRead, false, n, t⟩ (len - numRead > 0) =
              .ok s1 ∧ IsAt last s1 d1 chunks1 ∧ chunks1 <:+ chunks ∧
              d1 ++ dataOf chunks1 = d.drop numRead ++ dataOf chunks := by
          rw [PNGIDATChunkInputStream.refill]
          split
          · rename_i hend
            have hend : (d.length : Int) - numRead = 0 := hend.1
            have hnil : d.drop numRead = [] := drop_eq_nil_of_le (by omega)
            rw [hnil] at hat ⊢
            obtain ⟨s1, hs1, hat1⟩ := hat.nextChunk hsizes
            exact ⟨s1, _, _, hs1, hat1, tail_suffix _, nextData_append _⟩
          · exact ⟨_, _, _, rfl, hat, suffix_refl _, rfl⟩
        obtain ⟨bytes, s', d', chunks', hrun, hat', hsuffix', hdata', hlength', -⟩ :=
          ih (fun c hc => hsizes c (hsuffix1.subset hc)) hat1 (show len - numRead ≤ fuel by omega)
            (total ++ d.take numRead)
        refine ⟨d.take numRead ++ bytes, s', d', chunks', ?_, hat', hsuffix'.trans hsuffix1, ?_, ?_, fun _ _ => ?_⟩
        · rw [hs1]
          exact hrun.trans (by rw [append_assoc])
        · rw [append_assoc, ← hdata', hdata1, ← append_assoc, take_append_drop]
        · rw [length_append, length_take]
          omega
        · have hpos : 0 < (d.take numRead).length := by
            rw [length_take]
            omega
          exact append_ne_nil_of_left_ne_nil (length_pos_iff.mp hpos) _
    · rw [if_neg hmore]
      refine ⟨[], s, d, chunks, by rw [append_nil], h, suffix_refl _, rfl, Nat.zero_le _,
        fun hlen hd => absurd ⟨?_, hlen⟩ hmore⟩
      have := length_pos_iff.mpr hd
      omega

theorem IsAt.read_byte (reads : PNGIDATChunkInputStream.Reads) {s1 : PNGIDATChunkInputStream} {b : UInt8}
    (hs1 : s.refill true = .ok s1) (h : IsAt last s1 (b :: d) chunks) :
    ∃ s', s.call reads .read = .ok (some [b], s') ∧ IsAt last s' d chunks := by
  cases h with
  | inChunk _ crc _ n t =>
    have hne : ¬ ((b :: d).length : Int) = 0 := by rw [length_cons]; omega
    have hsub : ((b :: d).length : Int) - 1 = d.length := by rw [length_cons]; omega
    refine ⟨_, ?_, .inChunk d crc chunks n t⟩
    rw [PNGIDATChunkInputStream.call, PNGIDATChunkInputStream.read, hs1, ← hsub]
    simp only [bind, Except.bind, pure, Except.pure, if_neg hne]
    rfl

theorem IsAt.call (hreads : reads.Proper)
    (hsizes : ∀ c ∈ chunks, c.data.length < 2 ^ 31) (h : IsAt last s d chunks)
    (hgap : d = [] → nextData chunks = [] → dataOf chunks = []) (call : ReadCall) :
    ∃ result s' d' chunks', s.call reads call = .ok (result, s') ∧ IsAt last s' d' chunks' ∧
      chunks' <:+ chunks ∧ Delivered call.length (d ++ dataOf chunks) result (d' ++ dataOf chunks') := by
  obtain ⟨s1, d1, chunks1, hs1, hat1, hsuffix1, hdata1, hend1⟩ := h.enter hsizes hgap
  have havail := hat1.numBytesAvailable
  rw [← hdata1] at hend1 ⊢
  by_cases hd : d1 = []
  · have hzero : s1.numBytesAvailable = 0 := by rw [havail, hd]; rfl
    refine ⟨none, s1, d1, chunks1, ?_, hat1, hsuffix1,
      ⟨iff_of_true rfl (hend1 hd), rfl, Nat.zero_le _, fun _ hne => absurd (hend1 hd) hne⟩⟩
    cases call with
    | read =>
      simp only [PNGIDATChunkInputStream.call, PNGIDATChunkInputStream.read, hs1]
      simp [bind, Except.bind, pure, Except.pure, hzero]
    | readArray len =>
      simp only [PNGIDATChunkInputStream.call, PNGIDATChunkInputStream.readArray, hs1]
      simp [bind, Except.bind, pure, Except.pure, hzero]
  · have hpos := length_pos_iff.mpr hd
    have hne : ¬ s1.numBytesAvailable = 0 := by omega
    have hahead : d1 ++ dataOf chunks1 ≠ [] := append_ne_nil_of_left_ne_nil hd _
    cases call with
    | read =>
      obtain ⟨b, d1, rfl⟩ := exists_cons_of_ne_nil hd
      obtain ⟨s', hcall, hat'⟩ := hat1.read_byte reads hs1
      exact ⟨some [b], s', d1, chunks1, hcall, hat', hsuffix1,
        ⟨iff_of_false nofun hahead, rfl, Nat.le_refl 1, fun _ _ => cons_ne_nil _ _⟩⟩
    | readArray len =>
      obtain ⟨bytes, s', d', chunks', hrun, hat', hsuffix', hdata', hlength', hsome⟩ :=
        hat1.readLoop hreads (fun c hc => hsizes c (hsuffix1.subset hc)) (Nat.le_refl len) []
      refine ⟨some bytes, s', d', chunks', ?_, hat', hsuffix'.trans hsuffix1,
        ⟨iff_of_false nofun hahead, hdata', hlength', fun hlen _ => hsome hlen hd⟩⟩
      simp only [PNGIDATChunkInputStream.call, PNGIDATChunkInputStream.readArray, hs1]
      simp only [bind, Except.bind, pure, Except.pure, if_neg hne, hrun, nil_append]

/-! ## Runs -/

/-- No empty chunk has data behind it. -/
def NoGap (chunks : List IDATChunk) : Prop := chunks.Pairwise fun a b => a.data = [] → b.data = []

theorem NoGap.nextData (h : NoGap chunks) (hnil : nextData chunks = []) : dataOf chunks = [] := by
  cases chunks with
  | nil => rfl
  | cons c chunks =>
    have hrest := (pairwise_cons.mp h).1
    refine flatMap_eq_nil_iff.mpr fun c' hc' => ?_
    obtain rfl | hc' := mem_cons.mp hc'
    · exact hnil
    · exact hrest c' hc' hnil

theorem IsAt.delivers (hreads : reads.Proper)
    (hsizes : ∀ c ∈ chunks, c.data.length < 2 ^ 31) (hgap : NoGap chunks) (h : IsAt last s d chunks)
    (calls : List ReadCall) : Delivers reads last.rest s (d ++ dataOf chunks) calls := by
  induction calls generalizing s d chunks with
  | nil => trivial
  | cons call calls ih =>
    obtain ⟨result, s', d', chunks', hcall, hat, hsuffix, hdelivered⟩ :=
      h.call hreads hsizes (fun _ => hgap.nextData) call
    exact ⟨result, s', _, hcall, hdelivered, hat.suffix,
      ih (fun c hc => hsizes c (hsuffix.subset hc)) (hgap.sublist hsuffix.sublist) hat⟩

theorem delivers_tail {rest ahead bytes : List UInt8}
    {s' : PNGIDATChunkInputStream} {call : ReadCall}
    (hall : ∀ calls, Delivers reads rest s (bytes ++ ahead) calls)
    (hcall : s.call reads call = .ok (some bytes, s')) (calls : List ReadCall) :
    Delivers reads rest s' ahead calls := by
  obtain ⟨result, s'', ahead', hcall', hdelivered, -, htail⟩ := hall (call :: calls)
  rw [hcall] at hcall'
  obtain ⟨rfl, rfl⟩ := Prod.mk.inj (Except.ok.inj hcall')
  rwa [append_cancel_left hdelivered.inOrder]

theorem IsAt.drained (h : IsAt last s d chunks)
    (hall : ∀ calls, Delivers reads last.rest s (d ++ dataOf chunks) calls) :
    ∃ s', IsAt last s' [] chunks ∧ ∀ calls, Delivers reads last.rest s' (dataOf chunks) calls := by
  induction d generalizing s with
  | nil => exact ⟨s, h, hall⟩
  | cons b d ih =>
    have hrefill : s.refill true = .ok s := by
      rw [PNGIDATChunkInputStream.refill, h.numBytesAvailable, length_cons]
      exact if_neg fun hzero => by omega
    obtain ⟨s', hcall, hat⟩ := h.read_byte reads hrefill
    have hahead : b :: d ++ dataOf chunks = [b] ++ (d ++ dataOf chunks) := rfl
    exact ih hat (delivers_tail (hahead ▸ hall) hcall)

/-- Single bytes are read up to an empty chunk, which ends the stream. -/
theorem IsAt.noGap (hsizes : ∀ c ∈ chunks, c.data.length < 2 ^ 31) (h : IsAt last s d chunks)
    (hall : ∀ calls, Delivers reads last.rest s (d ++ dataOf chunks) calls) : NoGap chunks := by
  induction chunks generalizing s d with
  | nil => exact List.Pairwise.nil
  | cons c chunks ih =>
    obtain ⟨s, h, hall⟩ := h.drained hall
    obtain ⟨s1, hs1, hat⟩ := h.nextChunk hsizes
    have hrefill : s.refill true = .ok s1 := by
      rw [PNGIDATChunkInputStream.refill, h.numBytesAvailable]
      exact (if_pos ⟨rfl, rfl⟩).trans hs1
    cases hdata : c.data with
    | nil =>
      obtain ⟨result, s', ahead', hcall, hdelivered, -⟩ := hall [.read]
      have hzero : s1.numBytesAvailable = 0 := by rw [hat.numBytesAvailable, nextData, hdata]; rfl
      have hnone : s.call reads .read = .ok (none, s1) := by
        rw [PNGIDATChunkInputStream.call, PNGIDATChunkInputStream.read, hrefill]
        simp [bind, Except.bind, pure, Except.pure, hzero]
      rw [hnone] at hcall
      cases hcall
      have hemp := flatMap_eq_nil_iff.mp (hdelivered.eof.mp rfl)
      exact pairwise_of_forall_mem_list fun _ _ b hb _ => hemp b hb
    | cons b xs =>
      have hat' : IsAt last s1 (b :: xs) chunks := hdata ▸ hat
      obtain ⟨s', hcall, hat''⟩ := hat'.read_byte reads hrefill
      have hahead : dataOf (c :: chunks) = [b] ++ (xs ++ dataOf chunks) := by
        rw [dataOf, flatMap_cons, hdata]
        rfl
      rw [hahead] at hall
      refine pairwise_cons.mpr ⟨fun _ _ hnil => ?_, ih (fun c' hc' => hsizes c' (mem_cons_of_mem c hc'))
        hat'' (delivers_tail hall hcall)⟩
      rw [hdata] at hnil
      cases hnil

end Positions

/-- Every mix of calls delivers the data of all chunks, then -1, and leaves what is behind the next
    header, just when no empty chunk but the first has data behind it. -/
theorem delivers_iff {reads : PNGIDATChunkInputStream.Reads} (hreads : reads.Proper) (last : DataEnd)
    (c : IDATChunk) (chunks : List IDATChunk) (hsizes : ∀ c' ∈ c :: chunks, c'.data.length < 2 ^ 31) :
    ∃ s, PNGIDATChunkInputStream.new (c.data ++ following last c.crc chunks) c.data.length = .ok s ∧
      ((∀ calls, Delivers reads last.rest s (dataOf (c :: chunks)) calls) ↔ NoGap chunks) := by
  have hat : IsAt last ⟨_, c.data.length, false, 0, 0⟩ c.data chunks := .inChunk c.data c.crc chunks 0 0
  have hsizes' := (forall_mem_cons.mp hsizes).2
  exact ⟨_, if_neg (by omega), hat.noGap hsizes', fun hgap => hat.delivers hreads hsizes' hgap⟩

/-- A source that reads as much as it is asked for. -/
def readsAll : PNGIDATChunkInputStream.Reads := fun source n => min n source.length

theorem readsAll_proper : readsAll.Proper := by
  intro source n hne hn
  have := length_pos_iff.mpr hne
  rw [readsAll]
  omega

theorem endOfImage_length : (0 : Int) ≤ 0 := by decide

/-- The header of an empty IEND chunk follows. -/
def endOfImage : DataEnd :=
  ⟨0, 0x49454e44, [174, 66, 96, 130], endOfImage_length, by decide, by decide, by decide⟩

/-- Two bytes in one chunk, and one in another. -/
theorem delivers_iff_twoChunks :
    ∃ s, PNGIDATChunkInputStream.new (([1, 2] : List UInt8) ++ following endOfImage 0 [⟨[3], 0⟩]) 2 = .ok s ∧
      ((∀ calls, Delivers readsAll [174, 66, 96, 130] s [1, 2, 3] calls) ↔ NoGap [⟨[3], 0⟩]) :=
  delivers_iff readsAll_proper endOfImage ⟨[1, 2], 0⟩ [⟨[3], 0⟩] (by simp)

/-- A byte, an empty chunk and another byte: the second call of `read()` returns -1. -/
theorem delivers_fails :
    ∃ s, PNGIDATChunkInputStream.new (([1] : List UInt8) ++ following endOfImage 0 [⟨[], 0⟩, ⟨[2], 0⟩]) 1 = .ok s ∧
      ¬ Delivers readsAll [174, 66, 96, 130] s [1, 2] [.read, .read] := by
  refine ⟨_, rfl, ?_⟩
  rintro ⟨result, s', ahead, hcall, hdelivered, -, result', s'', ahead', hcall', hdelivered', -⟩
  have hruns : (PNGIDATChunkInputStream.call readsAll
      ⟨[1] ++ following endOfImage 0 [⟨[], 0⟩, ⟨[2], 0⟩], 1, false, 0, 0⟩ .read).bind (fun r =>
      (r.2.call readsAll .read).map fun r' => (r.1, r'.1)) = .ok (some [1], none) := by decide
  rw [hcall] at hruns
  simp only [Except.bind, hcall', Except.map, Except.ok.injEq, Prod.mk.injEq] at hruns
  have hemp := hdelivered'.eof.mp hruns.2
  have hone := hdelivered.inOrder
  rw [hemp, hruns.1] at hone
  cases hone

end OpenJfx.Iio.Png
