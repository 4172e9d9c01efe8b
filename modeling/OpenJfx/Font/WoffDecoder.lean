/-
  OpenJfx.Font.WoffDecoder

  The check of a WOFF file's header and table directory, and the places at which the
  decoder then writes the tables.  Both add the padded lengths up in `int` arithmetic, so
  what the check compares with `totalSfntSize` is the size modulo 2^32.
-/

import Mathlib.Algebra.Order.BigOperators.Group.List
import OpenJfx.Iio.Bytes

namespace OpenJfx.Font.WoffDecoder

open Iio (toInt toInt_lt toInt_toInt_add)
open List

/-! ## The file -/

def v1ttTag : Int := 0x00010000
def trueTag : Int := 0x74727565
def ottoTag : Int := 0x4f54544f
def woffTag : Int := 0x774F4646

def TTCHEADERSIZE : Int := 12
def DIRECTORYENTRYSIZE : Int := 16
def WOFFHEADERSIZE : Nat := 44
def WOFFDIRECTORYENTRYSIZE : Nat := 20

/-- The bytes `[pos, pos + width)`, the most significant one first. -/
def bigEndian (file : List UInt8) (pos width : Nat) : Nat :=
  ((file.drop pos).take width).foldl (fun val b => val * 256 + b.toNat) 0

def getInt (file : List UInt8) (pos : Nat) : Int := toInt (bigEndian file pos 4)

def getShort (file : List UInt8) (pos : Nat) : Int := Int.bmod (bigEndian file pos 2) (2 ^ 16)

/-- The fields read of the header. -/
structure WoffHeader where
  signature : Int
  flavor : Int
  numTables : Int
  reserved : Int
  totalSfntSize : Int

/-- An entry of the table directory. -/
structure WoffDirectoryEntry where
  tag : Int
  offset : Int
  comLength : Int
  origLength : Int
  origChecksum : Int
  index : Nat

def woffHeader (file : List UInt8) : WoffHeader where
  signature := getInt file 0
  flavor := getInt file 4
  numTables := getShort file 12
  reserved := getShort file 14
  totalSfntSize := getInt file 16

def woffDirectoryEntry (file : List UInt8) (index : Nat) : WoffDirectoryEntry :=
  let pos := WOFFHEADERSIZE + index * WOFFDIRECTORYENTRYSIZE
  { tag := getInt file pos
    offset := getInt file (pos + 4)
    comLength := getInt file (pos + 8)
    origLength := getInt file (pos + 12)
    origChecksum := getInt file (pos + 16)
    index }

def woffTableDirectory (file : List UInt8) : List WoffDirectoryEntry :=
  (range (woffHeader file).numTables.toNat).map (woffDirectoryEntry file)

/-! ## The check -/

/-- What the decoder throws. -/
inductive Failure where
  | exception (message : String)
  | negativeArraySize
  | io
  deriving DecidableEq

def reject (c : Prop) [Decidable c] (e : Failure) : Except Failure Unit :=
  if c then .error e else .ok ()

/-- `(length + 3) & ~3` -/
def padded (length : Int) : Int := toInt (length + 3) - toInt (length + 3) % 4

def headerOffset (file : List UInt8) : Int :=
  WOFFHEADERSIZE + (woffHeader file).numTables * WOFFDIRECTORYENTRYSIZE

def headerSize (file : List UInt8) : Int :=
  TTCHEADERSIZE + (woffHeader file).numTables * DIRECTORYENTRYSIZE

def checkTables (file : List UInt8) : List WoffDirectoryEntry → Int → Except Failure Unit
  | [], size => reject (size ≠ (woffHeader file).totalSfntSize)
      (.exception "WoffDecoder: invalid totalSfntSize")
  | table :: tables, size => do
    -- `prevTag` keeps its first value, 0: no round assigns it.
    reject (table.tag ≤ 0) (.exception "WoffDecoder: table directory not ordered by tag")
    let endOffset := toInt (table.offset + table.comLength)
    reject (¬ (headerOffset file ≤ table.offset ∧ table.offset ≤ file.length))
      (.exception "WoffDecoder: invalid table offset")
    reject (¬ (table.offset ≤ endOffset ∧ endOffset ≤ file.length))
      (.exception "WoffDecoder: invalid table offset")
    reject (table.comLength > table.origLength)
      (.exception "WoffDecoder: invalid compressed length")
    let size := toInt (size + padded table.origLength)
    reject (size > (woffHeader file).totalSfntSize)
      (.exception "WoffDecoder: invalid totalSfntSize")
    checkTables file tables size

/-- The reads stay inside the file: each follows the check of the size that it needs. -/
def initWoffTables (file : List UInt8) : Except Failure Unit := do
  reject (file.length < WOFFHEADERSIZE) (.exception "WoffDecoder: invalid filesize")
  reject ((woffHeader file).signature ≠ woffTag) (.exception "WoffDecoder: invalid signature")
  reject ((woffHeader file).reserved ≠ 0) (.exception "WoffDecoder: invalid reserved != 0")
  reject (file.length < headerOffset file) (.exception "WoffDecoder: invalid filesize")
  reject ((woffHeader file).numTables < 0) .negativeArraySize
  checkTables file (woffTableDirectory file) (headerSize file)

/-! ## The tables written -/

/-- One table's directory entry with the bytes that stand at its `offset`. -/
structure Write where
  table : WoffDirectoryEntry
  offset : Int
  bytes : List UInt8

variable (inflate : List UInt8 → Nat → Except Failure (List UInt8)) (file : List UInt8)

def readTable (table : WoffDirectoryEntry) : Except Failure (List UInt8) := do
  let bytes := (file.drop table.offset.toNat).take table.comLength.toNat
  if table.comLength = table.origLength then
    return bytes
  let output ← inflate bytes table.origLength.toNat
  reject (output.length ≠ table.origLength.toNat)
    (.exception "WoffDecoder: failure expanding table")
  return output

/-- `pos` is the position of the writer, which `seek` compares with its argument. -/
def writeTables : List WoffDirectoryEntry → Int → Int → List Write × Except Failure Unit
  | [], _, _ => ([], .ok ())
  | table :: tables, offset, pos =>
    match readTable inflate file table with
    | .error e => ([], .error e)
    | .ok bytes =>
      -- `seek` throws at a negative position, unless the writer stands there already.
      if offset ≠ pos ∧ offset < 0 then ([], .error .io)
      else
        let rest := writeTables tables (toInt (offset + padded table.origLength))
          (toInt (offset + bytes.length))
        (⟨table, offset, bytes⟩ :: rest.1, rest.2)

def sortedTables : List WoffDirectoryEntry :=
  (woffTableDirectory file).mergeSort fun o1 o2 => toInt (o1.offset - o2.offset) ≤ 0

def decode : List Write × Except Failure Unit :=
  let format := (woffHeader file).flavor
  match initWoffTables file with
  | .error e => ([], .error e)
  | .ok () =>
    if format ≠ v1ttTag ∧ format ≠ trueTag ∧ format ≠ ottoTag then
      ([], .error (.exception "WoffDecoder: invalid flavor"))
    -- So does `setLength` at a negative length.
    else if (woffHeader file).totalSfntSize < 0 then ([], .error .io)
    else writeTables inflate file (sortedTables file) (headerSize file) 0

/-- The tables with the offsets at which `writeTables` puts them. -/
def layoutFrom : List WoffDirectoryEntry → Int → List (WoffDirectoryEntry × Int)
  | [], _ => []
  | table :: tables, offset =>
    (table, offset) :: layoutFrom tables (toInt (offset + padded table.origLength))

def layout : List (WoffDirectoryEntry × Int) := layoutFrom (sortedTables file) (headerSize file)

/-! ## Sizes over the integers -/

/-- The padded lengths of tables, without wrapping. -/
def total (tables : List WoffDirectoryEntry) : Int :=
  (tables.map fun table => (table.origLength + 3) / 4 * 4).sum

/-- The size of the sfnt file, without wrapping. -/
def sfntSize : Int := headerSize file + total (woffTableDirectory file)

/-- The compressed table lies in the file, behind the directory. -/
structure InSource (table : WoffDirectoryEntry) : Prop where
  offset : headerOffset file ≤ table.offset
  inside : table.offset + table.comLength ≤ file.length
  comLength : 0 ≤ table.comLength
  origLength : table.comLength ≤ table.origLength

/-- The tables lie apart from each other, and fill the sfnt file. -/
structure WellFormed : Prop where
  numTables : 0 ≤ (woffHeader file).numTables
  tables : (layout file).map Prod.fst ~ woffTableDirectory file
  source : ∀ p ∈ layout file, InSource file p.1
  aligned : ∀ p ∈ layout file, 4 ∣ p.2
  disjoint : (layout file).Pairwise fun p q => p.2 + p.1.origLength ≤ q.2
  bounds : ∀ p ∈ layout file, headerSize file ≤ p.2 ∧
    p.2 + p.1.origLength ≤ (woffHeader file).totalSfntSize
  size : sfntSize file = (woffHeader file).totalSfntSize

/-- What is written is a prefix of a layout, and all of it when the code returns. -/
def Places (r : List Write × Except Failure Unit) (l : List (WoffDirectoryEntry × Int)) : Prop :=
  r.1.map (fun w => (w.table, w.offset)) <+: l ∧
    (r.2 = .ok () → r.1.map (fun w => (w.table, w.offset)) = l)

/-- Only well formed files are accepted, and the rest is not decoded. -/
structure Sound : Prop where
  accepted : initWoffTables file = .ok () → WellFormed file
  written : Places (decode inflate file) (layout file)
  rejected : ∀ e, initWoffTables file = .error e → decode inflate file = ([], .error e)

variable {inflate file} {table : WoffDirectoryEntry} {tables : List WoffDirectoryEntry}
  {size offset pos : Int}

theorem reject_eq_ok {c : Prop} [Decidable c] {e : Failure} : reject c e = .ok () ↔ ¬ c := by
  by_cases h : c
  · exact iff_of_false (by rw [reject, if_pos h]; nofun) (not_not_intro h)
  · exact iff_of_true (if_neg h) h

theorem reject_bind {c : Prop} [Decidable c] {e : Failure} {f : Unit → Except Failure Unit} :
    (reject c e >>= f) = .ok () ↔ ¬ c ∧ f () = .ok () := by
  by_cases h : c
  · exact iff_of_false (by rw [reject, if_pos h]; nofun) fun h' => h'.1 h
  · rw [reject, if_neg h]
    exact (and_iff_right h).symm

theorem toInt_spec (n : Int) :
    (∃ k, toInt n = n - 2 ^ 32 * k) ∧ -2 ^ 31 ≤ toInt n ∧ toInt n < 2 ^ 31 := by
  refine ⟨⟨(n + 2 ^ 31) / 2 ^ 32, ?_⟩, ?_, toInt_lt n⟩
  · rw [toInt, Int.bmod_def]
    split <;> omega
  · rw [toInt, Int.bmod_def]
    split <;> omega

theorem toInt_of_bounds (h1 : 0 ≤ size) (h2 : size < 2 ^ 31) : toInt size = size := by
  obtain ⟨⟨k, hk⟩, hmin, hmax⟩ := toInt_spec size
  omega

/-- An end that is not before the start is one that did not wrap. -/
theorem toInt_add_of_le {start length : Int} (hst : 0 ≤ start) (hlt : start < 2 ^ 31)
    (hlen : -2 ^ 31 ≤ length ∧ length < 2 ^ 31) (h : start ≤ toInt (start + length)) :
    0 ≤ length ∧ toInt (start + length) = start + length := by
  obtain ⟨⟨k, hk⟩, hmin, hmax⟩ := toInt_spec (start + length)
  omega

theorem toInt_add_padded {length : Int} :
    toInt (size + padded length) = toInt (size + (length + 3) / 4 * 4) := by
  obtain ⟨⟨k, hk⟩, hmin, hmax⟩ := toInt_spec (length + 3)
  have hpad : padded length = (length + 3) / 4 * 4 - 2 ^ 32 * k := by
    rw [padded]
    omega
  rw [hpad, ← Int.add_sub_assoc]
  exact Int.sub_mul_bmod_self_left ..

theorem total_cons :
    total (table :: tables) = (table.origLength + 3) / 4 * 4 + total tables := sum_cons

theorem getInt_bounds (pos : Nat) : -2 ^ 31 ≤ getInt file pos ∧ getInt file pos < 2 ^ 31 :=
  (toInt_spec _).2

theorem woffHeader_bounds (file : List UInt8) :
    (woffHeader file).numTables < 2 ^ 15 ∧ (woffHeader file).totalSfntSize < 2 ^ 31 := by
  dsimp only [woffHeader, getShort]
  exact ⟨Int.bmod_lt (by decide), (getInt_bounds _).2⟩

theorem woffDirectoryEntry_bounds (index : Nat) :
    (woffDirectoryEntry file index).offset < 2 ^ 31 ∧
      -2 ^ 31 ≤ (woffDirectoryEntry file index).comLength ∧
      (woffDirectoryEntry file index).comLength < 2 ^ 31 := by
  dsimp only [woffDirectoryEntry]
  exact ⟨(getInt_bounds _).2, getInt_bounds _⟩

/-- What an accepted table satisfies, and the size that the rounds leave. -/
theorem checkTables_eq_ok (hdir : ∀ t ∈ tables, ∃ i, t = woffDirectoryEntry file i)
    (hoff : 0 ≤ headerOffset file) (hsize : toInt size = size)
    (h : checkTables file tables size = .ok ()) :
    (∀ t ∈ tables, InSource file t) ∧
      toInt (size + total tables) = (woffHeader file).totalSfntSize := by
  induction tables generalizing size with
  | nil =>
    refine ⟨nofun, ?_⟩
    rw [total, map_nil, sum_nil, add_zero, hsize]
    exact not_not.mp (reject_eq_ok.mp h)
  | cons table tables ih =>
    obtain ⟨-, h⟩ := reject_bind.mp h
    obtain ⟨hst, h⟩ := reject_bind.mp h
    obtain ⟨hend, h⟩ := reject_bind.mp h
    obtain ⟨hle, h⟩ := reject_bind.mp h
    obtain ⟨-, h⟩ := reject_bind.mp h
    obtain ⟨i, rfl⟩ := hdir table (.head _)
    obtain ⟨hoffset, hcom⟩ := woffDirectoryEntry_bounds i
    obtain ⟨hst, -⟩ := not_not.mp hst
    obtain ⟨hse, hend⟩ := not_not.mp hend
    obtain ⟨hcom, heq⟩ := toInt_add_of_le (hoff.trans hst) hoffset hcom hse
    obtain ⟨hs, htotal⟩ := ih (fun t ht => hdir t (.tail _ ht)) (Int.bmod_bmod ..) h
    refine ⟨forall_mem_cons.mpr ⟨⟨hst, heq ▸ hend, hcom, not_lt.mp hle⟩, hs⟩, ?_⟩
    rw [← htotal, total_cons, ← toInt, toInt_add_padded, toInt_toInt_add, add_assoc]

theorem total_nonneg (h : ∀ t ∈ tables, 0 ≤ t.origLength) : 0 ≤ total tables := by
  refine sum_nonneg fun n hn => ?_
  obtain ⟨t, ht, rfl⟩ := mem_map.mp hn
  have hle := h t ht
  omega

theorem layoutFrom_map : (layoutFrom tables offset).map Prod.fst = tables := by
  induction tables generalizing offset with
  | nil => rfl
  | cons table tables ih => rw [layoutFrom, map_cons, ih]

/-- Where the offsets do not wrap, each table stands behind the ones before it. -/
theorem layoutFrom_spec (hlen : ∀ t ∈ tables, 0 ≤ t.origLength) (h1 : 0 ≤ offset) (h2 : 4 ∣ offset)
    (h3 : offset + total tables < 2 ^ 31) :
    (∀ p ∈ layoutFrom tables offset, 4 ∣ p.2 ∧ offset ≤ p.2 ∧
      p.2 + p.1.origLength ≤ offset + total tables) ∧
    (layoutFrom tables offset).Pairwise fun p q => p.2 + p.1.origLength ≤ q.2 := by
  induction tables generalizing offset with
  | nil => exact ⟨nofun, .nil⟩
  | cons table tables ih =>
    obtain ⟨ht, hts⟩ := forall_mem_cons.mp hlen
    have hrest : 0 ≤ total tables := total_nonneg hts
    rw [total_cons] at h3 ⊢
    have hnext : toInt (offset + padded table.origLength) =
        offset + (table.origLength + 3) / 4 * 4 := by
      rw [toInt_add_padded]
      exact toInt_of_bounds (by omega) (by omega)
    obtain ⟨hall, hpair⟩ := @ih (offset + (table.origLength + 3) / 4 * 4) hts
      (by omega) (by omega) (by omega)
    rw [layoutFrom, hnext]
    refine ⟨forall_mem_cons.mpr ⟨⟨h2, Int.le_refl _, ?_⟩, fun p hp => ?_⟩, pairwise_cons.mpr
      ⟨fun p hp => ?_, hpair⟩⟩
    · dsimp only
      omega
    · obtain ⟨hmod, hle, hend⟩ := hall p hp
      exact ⟨hmod, by omega, by omega⟩
    · have hle := (hall p hp).2.1
      dsimp only
      omega

theorem Places.error {l : List (WoffDirectoryEntry × Int)} {e : Failure} :
    Places ([], .error e) l := ⟨ nil_prefix, nofun⟩

theorem writeTables_places :
    Places (writeTables inflate file tables offset pos) (layoutFrom tables offset) := by
  induction tables generalizing offset pos with
  | nil => exact ⟨ nil_prefix, fun _ => rfl⟩
  | cons table tables ih =>
    unfold writeTables
    split
    · exact .error
    · split
      · exact .error
      · exact ⟨(prefix_cons_inj _).mpr ih.1, fun h => congrArg (_ :: ·) (ih.2 h)⟩

theorem decode_places : Places (decode inflate file) (layout file) := by
  unfold decode
  split
  · exact .error
  · dsimp only
    split
    · exact .error
    · split
      · exact .error
      · exact writeTables_places

theorem initWoffTables_eq_ok (h : initWoffTables file = .ok ()) :
    0 ≤ (woffHeader file).numTables ∧ (∀ t ∈ woffTableDirectory file, InSource file t) ∧
      toInt (sfntSize file) = (woffHeader file).totalSfntSize := by
  obtain ⟨-, h⟩ := reject_bind.mp h
  obtain ⟨-, h⟩ := reject_bind.mp h
  obtain ⟨-, h⟩ := reject_bind.mp h
  obtain ⟨-, h⟩ := reject_bind.mp h
  obtain ⟨hnum, h⟩ := reject_bind.mp h
  have hnum : 0 ≤ (woffHeader file).numTables := not_lt.mp hnum
  have hmax := (woffHeader_bounds file).1
  refine ⟨hnum, checkTables_eq_ok (fun t ht => ?_) ?_ ?_ h⟩
  · obtain ⟨i, -, rfl⟩ := mem_map.mp ht
    exact ⟨i, rfl⟩
  · rw [headerOffset, WOFFHEADERSIZE, WOFFDIRECTORYENTRYSIZE]
    omega
  · rw [headerSize, TTCHEADERSIZE, DIRECTORYENTRYSIZE]
    exact toInt_of_bounds (by omega) (by omega)

/-- The layout of an accepted file is well formed exactly if the size of the sfnt file is an
    `int`: the check compares it modulo 2^32 only. -/
theorem sound_iff :
    Sound inflate file ↔ (initWoffTables file = .ok () → sfntSize file < 2 ^ 31) := by
  constructor
  · intro h hok
    rw [(h.accepted hok).size]
    exact (woffHeader_bounds _).2
  · intro hlt
    refine ⟨fun hok => ?_, decode_places, fun e he => by rw [decode, he]⟩
    obtain ⟨hnum, hsource, htotal⟩ := initWoffTables_eq_ok hok
    have hperm : sortedTables file ~ woffTableDirectory file := mergeSort_perm ..
    have hmap : (layout file).map Prod.fst = sortedTables file := layoutFrom_map
    have hsource : ∀ t ∈ sortedTables file, InSource file t := fun t ht =>
      hsource t (hperm.mem_iff.mp ht)
    have hlen : ∀ t ∈ sortedTables file, 0 ≤ t.origLength := fun t ht =>
      (hsource t ht).comLength.trans (hsource t ht).origLength
    have hsum : total (sortedTables file) = total (woffTableDirectory file) :=
      (hperm.map _).sum_eq
    have hheader : 12 ≤ headerSize file ∧ 4 ∣ headerSize file := by
      rw [headerSize, TTCHEADERSIZE, DIRECTORYENTRYSIZE]
      omega
    have hrest := total_nonneg hlen
    have hlt := hlt hok
    rw [sfntSize, ← hsum] at hlt htotal
    have hsize := htotal.symm.trans (toInt_of_bounds (by omega) hlt)
    obtain ⟨hall, hpair⟩ := layoutFrom_spec hlen (by omega) hheader.2 hlt
    exact {
      numTables := hnum
      tables := hmap ▸ hperm
      source := fun p hp => hsource p.1 (hmap ▸ mem_map_of_mem hp)
      aligned := fun p hp => (hall p hp).1
      disjoint := hpair
      bounds := fun p hp => ⟨(hall p hp).2.1, (hall p hp).2.2.trans hsize.ge⟩
      size := by rw [sfntSize, ← hsum, hsize] }

/-- A header and the entries of two tables of `2 ^ 31 - 4` bytes. -/
def wrappingFile : List UInt8 :=
  [0x77, 0x4F, 0x46, 0x46, 0, 1, 0, 0, 0, 0, 0, 84, 0, 2, 0, 0, 0, 0, 0, 36] ++ replicate 24 0 ++
  [0, 0, 0, 1, 0, 0, 0, 84, 0, 0, 0, 0, 0x7F, 0xFF, 0xFF, 0xFC, 0, 0, 0, 0] ++
  [0, 0, 0, 2, 0, 0, 0, 84, 0, 0, 0, 0, 0x7F, 0xFF, 0xFF, 0xFC, 0, 0, 0, 0]

theorem wrappingFile_accepted :
    initWoffTables wrappingFile = .ok () ∧ ¬ WellFormed wrappingFile :=
  ⟨by decide, fun h => absurd h.size (by decide)⟩

end OpenJfx.Font.WoffDecoder
