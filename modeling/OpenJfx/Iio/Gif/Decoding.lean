/-
  OpenJfx.Iio.Gif.Decoding

  The decoder on the image data of an encoder.  Behind every code its table is
  the encoder's before that code.  The next entry finds no room once the table
  is full, and a clear code behind a clear code is taken for data.
-/

import OpenJfx.Iio.Gif.Tables

namespace OpenJfx.Iio.Gif

open List

variable {code : Nat} {string : List UInt8}

/-! ## The decoder -/

variable {sent : Nat} {input : Input} {entries : List (List UInt8)}

theorem lt_two_pow_codeWidth {size : Nat} (hle : code ≤ firstEntry size + sent)
    (hlt : code < tableSize) : code < 2 ^ codeWidth size (sent + 1) := by
  have hself := Nat.lt_size_self (firstEntry size + sent)
  rw [codeWidth, Nat.add_sub_cancel]
  rcases Nat.le_total 12 (Nat.size (firstEntry size + sent)) with h | h
  · rw [Nat.min_eq_left h]
    exact hlt
  · rw [Nat.min_eq_right h]
    omega

namespace LZWDecoder

variable {d : LZWDecoder} {size : Nat} {known : List (List UInt8)} {old rest : List UInt8}
  {items : List Item} {padding : List Bool}

theorem stringOf_eq (h : d.table.Spells code string) :
    d.stringOf code = .ok (some string, { d with table := { d.table with oldCode := code } }) := by
  have hlen := h.length_eq
  have hle := h.length_le
  have hlt := h.code_lt
  unfold stringOf
  simp only [hlen]
  rw [if_neg (by omega), h.reverseCode_eq]
  rfl

/-- It knows the encoder's table before the code. -/
structure Synced (d : LZWDecoder) (size : Nat) (known : List (List UInt8)) (old rest : List UInt8)
    (items : List Item) (padding : List Bool) : Prop where
  knows : d.table.Knows size known
  spells_old : d.table.Spells d.table.oldCode old
  old_lt : d.table.oldCode < d.table.tableIndex
  bits : d.input.HasBits (itemBits size (known.length + 1) items ++ padding)
  encodes : Encodes size (enter size known old rest) rest items

/-- The string behind `readString` is the next part of the sequence. -/
theorem reads_append_iff {d' : LZWDecoder}
    (h : d.readString = .ok (some string, d')) : d.Reads (string ++ rest) ↔ d'.Reads rest := by
  constructor
  · generalize hall : string ++ rest = all
    rintro (hdone | ⟨hnxt, hrest⟩)
    · rw [h] at hdone
      cases hdone
    · rw [h] at hnxt
      cases hnxt
      exact append_cancel_left hall ▸ hrest
  · exact .next h

theorem readString_of_getCode (h : d.input.getCode d.table.codeSize = .ok (code, input)) :
    d.readString =
      if code = d.table.eofCode then .ok (none, { d with input })
      else if code = d.table.clearCode then readCleared d.table input
      else d.table.addEntry code >>= fun table => stringOf ⟨table, input⟩ code := by
  unfold readString
  rw [h]
  rfl

theorem Synced.readString_end (h : d.Synced size known old rest [] padding) :
    rest = [] ∧ ∃ d', d.readString = .ok (none, d') := by
  have hencodes := h.encodes
  generalize enter size known old rest = entries at hencodes
  cases hencodes
  have hcode : 2 ^ size + 1 < 2 ^ d.table.codeSize := by
    have hroom := h.knows.room
    rw [h.knows.codeSize]
    rw [firstEntry] at hroom
    exact lt_two_pow_codeWidth (by rw [firstEntry]; omega) (by omega)
  have hbits := h.bits
  rw [itemBits, ← h.knows.codeSize] at hbits
  obtain ⟨input, hget, -⟩ := Input.getCode_eq hbits hcode
  exact ⟨rfl, _, (readString_of_getCode hget).trans (if_pos h.knows.eofCode.symm)⟩

theorem ne_of_codeString
    (h : codeString size entries code = some string) : code ≠ 2 ^ size ∧ code ≠ 2 ^ size + 1 := by
  unfold codeString firstEntry at h
  split at h
  · omega
  · split at h
    · cases h
    · omega

section

variable (h : d.Synced size known old rest (.data code :: items) padding)
include h

/-- A code of the encoder is read, and is no clear or end code. -/
theorem Synced.getCode_data (hcode : codeString size entries code = some string)
    (hle : code ≤ firstEntry size + known.length) (hlt : code < tableSize) :
    ∃ input : Input, input.HasBits (itemBits size (known.length + 1 + 1) items ++ padding) ∧
      d.readString = d.table.addEntry code >>= fun table => stringOf ⟨table, input⟩ code := by
  obtain ⟨hclear, heof⟩ := ne_of_codeString hcode
  have hbits := h.bits
  rw [itemBits, ← h.knows.codeSize, append_assoc] at hbits
  obtain ⟨input, hget, hrest⟩ :=
    Input.getCode_eq hbits (h.knows.codeSize ▸ lt_two_pow_codeWidth hle hlt)
  refine ⟨input, hrest, ?_⟩
  rw [readString_of_getCode hget, h.knows.eofCode, h.knows.clearCode, if_neg heof, if_neg hclear]

theorem Synced.readString_data (hroom : firstEntry size + known.length < tableSize) :
    ∃ d' string rest' entry, rest = string ++ rest' ∧ d.readString = .ok (some string, d') ∧
      d'.Synced size (known ++ [entry]) string rest' items padding := by
  have hencodes := h.encodes
  generalize hent : enter size known old rest = entries at hencodes
  cases hencodes with
  | @data _ string rest' _ _ hcode hnxt =>
    -- the string is not empty, and begins as the rest of the sequence does
    obtain ⟨c, hhead, rfl⟩ : ∃ c, string.head? = some c ∧ entries = known ++ [old ++ [c]] := by
      cases hall : string ++ rest' with
      | nil =>
        rw [hall] at hent
        subst hent
        have hhead := (h.knows.spells hcode).1.head?_eq
        rw [(append_eq_nil_iff.mp hall).1] at hhead
        cases hhead
      | cons c more =>
        rw [hall] at hent
        have hent : entries = known ++ [old ++ [c]] := by
          rw [← hent]
          exact if_pos hroom
        subst hent
        have hne : string ≠ [] := by
          obtain hknown | ⟨-, rfl⟩ := Table.codeString_append size known _ hcode
          · have hhead := (h.knows.spells hknown).1.head?_eq
            rintro rfl
            cases hhead
          · simp
        obtain ⟨c', tail, rfl⟩ := exists_cons_of_ne_nil hne
        rw [cons_append, List.cons.injEq] at hall
        exact ⟨c, by rw [hall.1, head?_cons], rfl⟩
    obtain ⟨table, hadd, hknows, hspells⟩ :=
      Table.addEntry_eq h.knows hroom h.spells_old h.old_lt hhead hcode
    have hle : code ≤ firstEntry size + known.length := by
      obtain hknown | ⟨rfl, -⟩ := Table.codeString_append size known _ hcode
      · have := (h.knows.spells hknown).2
        rw [h.knows.tableIndex] at this
        exact Nat.le_of_lt this
      · exact Nat.le_refl _
    obtain ⟨input, hbits, hread⟩ := h.getCode_data hcode hle hspells.code_lt
    refine ⟨⟨{ table with oldCode := code }, input⟩, string, rest', old ++ [c], rfl, ?_, ?_⟩
    · rw [hread, hadd]
      exact stringOf_eq hspells
    · have hlen : (known ++ [old ++ [c]]).length + 1 = known.length + 1 + 1 := by
        rw [length_append, length_singleton]
      refine ⟨hknows.withOldCode code, hspells.withOldCode code, ?_, hlen ▸ hbits, hnxt⟩
      show code < table.tableIndex
      rw [hknows.tableIndex, length_append, length_singleton]
      omega

theorem Synced.readString_full (hfull : ¬ firstEntry size + known.length < tableSize) :
    d.readString = .error .arrayIndexOutOfBounds := by
  have hencodes := h.encodes
  have hent : enter size known old rest = known := by
    cases rest with
    | nil => rfl
    | cons c rest => exact if_neg hfull
  rw [hent] at hencodes
  cases hencodes with
  | @data _ string rest' _ _ hcode hnxt =>
    obtain ⟨hspells, hlt⟩ := h.knows.spells hcode
    have hti := h.knows.tableIndex
    obtain ⟨input, -, hread⟩ := h.getCode_data hcode (by omega) hspells.code_lt
    have hadd : d.table.addEntry code = .error .arrayIndexOutOfBounds := by
      simp only [Table.addEntry]
      rw [if_neg (by omega), if_pos (by omega)]
    rw [hread, hadd]
    rfl

end

/-- A clear code and what follows it, with what the decoder then returns. -/
theorem readString_clear (hinit : d.table.initCodeSize = size)
    (hwidth : d.table.codeSize = codeWidth size sent)
    (hlt : 2 ^ size < 2 ^ d.table.codeSize)
    (hbits : d.input.HasBits (itemBits size sent (.clear :: items) ++ padding)) :
    ∃ input : Input, input.HasBits (itemBits size 0 items ++ padding) ∧
      d.readString = readCleared d.table input := by
  have hclear : d.table.clearCode = 2 ^ size := by
    rw [Table.clearCode, hinit, Nat.one_shiftLeft]
  rw [itemBits, ← hwidth, append_assoc] at hbits
  obtain ⟨input, hget, hrest⟩ := Input.getCode_eq hbits hlt
  refine ⟨input, hrest, ?_⟩
  rw [readString_of_getCode hget, Table.eofCode, hclear, if_neg (by omega), if_pos rfl]

theorem readCleared_end (hsz : 2 ≤ size ∧ size ≤ 8) {table : Table}
    (hinit : table.initCodeSize = size) (hbits : input.HasBits (itemBits size 0 [] ++ padding)) :
    ∃ d', readCleared table input = .ok (none, d') := by
  have hknows := Table.knows_initTable hsz hinit
  have hlow := (two_pow_bounds hsz).1
  have hcodeSize : table.initTable.codeSize = codeWidth size 0 := hknows.codeSize
  have hlt : 2 ^ size + 1 < 2 ^ table.initTable.codeSize := by
    rw [hcodeSize, codeWidth_first hsz (Nat.zero_le 1), Nat.pow_succ]
    omega
  rw [itemBits, ← hcodeSize] at hbits
  obtain ⟨input', hget, -⟩ := Input.getCode_eq hbits hlt
  refine ⟨⟨table.initTable, input'⟩, ?_⟩
  unfold readCleared
  simp only [hget, bind, Except.bind]
  exact if_pos hknows.eofCode.symm

theorem readCleared_data (hsz : 2 ≤ size ∧ size ≤ 8) {table : Table}
    (hinit : table.initCodeSize = size)
    (hbits : input.HasBits (itemBits size 0 (.data code :: items) ++ padding))
    (hencodes : Encodes size [] rest (.data code :: items)) :
    ∃ d' string rest', rest = string ++ rest' ∧ readCleared table input = .ok (some string, d') ∧
      d'.Synced size [] string rest' items padding := by
  have hknows := Table.knows_initTable hsz hinit
  cases hencodes with
  | @data _ string rest' _ _ hcode hnxt =>
    obtain ⟨hspells, hlt⟩ := hknows.spells hcode
    obtain ⟨hclear, heof⟩ := ne_of_codeString hcode
    have hcodeSize : table.initTable.codeSize = codeWidth size 0 := hknows.codeSize
    have hcodelt : code < 2 ^ table.initTable.codeSize := by
      rw [hknows.codeSize]
      rw [hknows.tableIndex] at hlt
      exact lt_two_pow_codeWidth (Nat.le_of_lt hlt) hspells.code_lt
    rw [itemBits, ← hcodeSize, append_assoc] at hbits
    obtain ⟨input', hget, hrest⟩ := Input.getCode_eq hbits hcodelt
    refine ⟨⟨{ table.initTable with oldCode := code }, input'⟩, string, rest', rfl, ?_,
      ⟨hknows.withOldCode code, hspells.withOldCode code, hlt, hrest, hnxt⟩⟩
    unfold readCleared
    simp only [hget, bind, Except.bind]
    rw [hknows.eofCode, if_neg heof]
    exact stringOf_eq hspells

theorem reads_clear_iff (hsz : 2 ≤ size ∧ size ≤ 8) (hinit : d.table.initCodeSize = size)
    (hwidth : d.table.codeSize = codeWidth size sent)
    (hlt : 2 ^ size < 2 ^ d.table.codeSize)
    (hbits : d.input.HasBits (itemBits size sent (.clear :: items) ++ padding))
    (hencodes : Encodes size [] rest items) (hclear : NoClearTwice true items)
    (hnxt : ∀ (code : Nat) (items' : List Item) (d' : LZWDecoder) (string rest' : List UInt8),
      items = .data code :: items' → d'.Synced size [] string rest' items' padding →
      NoClearTwice false items' → (d'.Reads rest' ↔ RoomForAll size 1 items')) :
    d.Reads rest ↔ RoomForAll size 0 items := by
  obtain ⟨input, hrest, hread⟩ := readString_clear hinit hwidth hlt hbits
  cases items with
  | nil =>
    cases hencodes
    obtain ⟨d', hend⟩ := readCleared_end hsz hinit hrest
    exact ⟨fun _ => trivial, fun _ => .done (hread.trans hend)⟩
  | cons item items =>
    cases item with
    | clear => exact nomatch hclear.1
    | data code =>
      obtain ⟨d', string, rest', rfl, hstring, hsynced⟩ :=
        readCleared_data hsz hinit hrest hencodes
      have hroom : firstEntry size + (0 - 1) < tableSize := by
        have := (two_pow_bounds hsz).2
        rw [firstEntry, tableSize]
        omega
      rw [reads_append_iff (hread.trans hstring), hnxt code items d' string rest' rfl hsynced hclear]
      exact ⟨fun h => ⟨hroom, h⟩, And.right⟩

theorem Synced.reads_iff (hsz : 2 ≤ size ∧ size ≤ 8) {n : Nat} (hn : items.length ≤ n)
    (h : d.Synced size known old rest items padding) (hclear : NoClearTwice false items) :
    d.Reads rest ↔ RoomForAll size (known.length + 1) items := by
  induction n generalizing d known old rest items with
  | zero =>
    cases items with
    | nil =>
      obtain ⟨rfl, d', hend⟩ := h.readString_end
      exact ⟨fun _ => trivial, fun _ => .done hend⟩
    | cons => simp at hn
  | succ n ih =>
    cases items with
    | nil =>
      obtain ⟨rfl, d', hend⟩ := h.readString_end
      exact ⟨fun _ => trivial, fun _ => .done hend⟩
    | cons item items =>
      rw [length_cons, Nat.add_le_add_iff_right] at hn
      cases item with
      | data code =>
        by_cases hroom : firstEntry size + known.length < tableSize
        · obtain ⟨d', string, rest', entry, rfl, hread, hsynced⟩ := h.readString_data hroom
          have hlen : (known ++ [entry]).length = known.length + 1 := by
            rw [length_append, length_singleton]
          rw [reads_append_iff hread, ih hn hsynced hclear, hlen]
          exact ⟨fun h => ⟨hroom, h⟩, And.right⟩
        · have hread := h.readString_full hroom
          refine ⟨fun hreads => ?_, fun hall => (hroom hall.1).elim⟩
          rcases hreads with hdone | ⟨hnxt, -⟩
          · rw [hread] at hdone
            cases hdone
          · rw [hread] at hnxt
            cases hnxt
      | clear =>
        have hencodes : Encodes size [] rest items := by
          have hencodes := h.encodes
          generalize enter size known old rest = entries at hencodes
          cases hencodes with
          | clear hnxt => exact hnxt
        have hlt : 2 ^ size < 2 ^ d.table.codeSize := by
          have hroom := h.knows.room
          rw [firstEntry] at hroom
          rw [h.knows.codeSize]
          exact lt_two_pow_codeWidth (by rw [firstEntry]; omega) (by omega)
        refine reads_clear_iff hsz h.knows.initCodeSize h.knows.codeSize hlt h.bits hencodes
          hclear.2 fun code items' d' string rest' heq hsynced hclear' => ?_
        subst heq
        exact ih (Nat.le_of_succ_le hn) hsynced hclear'

/-- For every image data in which no clear code follows another directly, the strings concatenate to
    the sequence if and only if only first codes after a clear code arrive when the table is
    full. -/
theorem reads_iff_roomForAll (hsz : 2 ≤ size ∧ size ≤ 8) {sequence : List UInt8}
    {items : List Item} (hencodes : Encodes size [] sequence items) (data : ImageData size items)
    (hclear : NoClearTwice true items) :
    (∃ d, new data.bytes = .ok d ∧ d.Reads sequence) ↔ RoomForAll size 0 items := by
  have hnat : (UInt8.ofNat size).toNat = size := by
    rw [UInt8.toNat_ofNat']
    exact Nat.mod_eq_of_lt (by omega)
  obtain ⟨d, hnew, hinit, hwidth, hinput⟩ : ∃ d, new data.bytes = .ok d ∧
      d.table.initCodeSize = size ∧ d.table.codeSize = size + 1 ∧
      d.input = ⟨[], 0, 0, 0, blockBytes data.blocks ++ data.behind⟩ :=
    ⟨_, rfl, hnat, congrArg (· + 1) hnat, rfl⟩
  have hbits : d.input.HasBits (itemBits size 0 (.clear :: items) ++ data.padding) := by
    rw [hinput, ← data.bits]
    exact ⟨[], data.blocks.flatten, rfl, rfl,
      ⟨data.blocks, data.behind, data.length_blocks, Nat.le_refl _, rfl, rfl⟩, rfl⟩
  have hlow := (two_pow_bounds hsz).1
  have hlt : 2 ^ size < 2 ^ d.table.codeSize := by
    rw [hwidth, Nat.pow_succ]
    omega
  have hreads := reads_clear_iff hsz hinit
    (hwidth.trans (codeWidth_first hsz (Nat.zero_le 1)).symm) hlt hbits hencodes hclear
    fun code items' d' string rest' heq hsynced hclear' =>
      hsynced.reads_iff hsz (Nat.le_refl _) hclear'
  rw [← hreads]
  constructor
  · rintro ⟨d', hnew', h⟩
    rw [hnew] at hnew'
    exact Except.ok.inj hnew' ▸ h
  · exact fun h => ⟨d, hnew, h⟩

-- Three equal indices; the second code is not in the decoder's table yet.
def threeOnes : ImageData 2 [.data 1, .data 6] where
  blocks := [[140], [11]]
  padding := [false, false, false, false]
  behind := [0]
  length_blocks := by decide
  bits := rfl

theorem encodes_threeOnes : Encodes 2 [] [1, 1, 1] [.data 1, .data 6] :=
  @Encodes.data 2 [] [1] [1, 1] 1 _ rfl (@Encodes.data 2 [[1, 1]] [1, 1] [] 6 [] rfl .done)

/-- Three pixels of one colour. -/
theorem reads_iff_roomForAll_threeOnes :
    RoomForAll 2 0 [.data 1, .data 6] ∧ ∃ d, new threeOnes.bytes = .ok d ∧ d.Reads [1, 1, 1] := by
  have hroom : RoomForAll 2 0 [.data 1, .data 6] := ⟨by decide, by decide, trivial⟩
  exact ⟨hroom, (reads_iff_roomForAll ⟨by decide, by decide⟩ encodes_threeOnes threeOnes
    trivial).mpr hroom⟩

-- One index behind two clear codes.
def clearedTwice : ImageData 2 [.clear, .data 1] where
  blocks := [[100, 10]]
  padding := [false, false, false, false]
  behind := [0]
  length_blocks := by decide
  bits := rfl

/-- The second clear code is returned as a string of its own. -/
theorem not_reads_clearedTwice : Encodes 2 [] [1] [.clear, .data 1] ∧
      ¬ ∃ d, new clearedTwice.bytes = .ok d ∧ d.Reads [1] := by
  refine ⟨.clear (@Encodes.data 2 [] [1] [] 1 [] rfl .done), ?_⟩
  rintro ⟨d, hnew, hreads⟩
  cases hnew
  generalize hsequence : ([1] : List UInt8) = sequence at hreads
  rcases hreads with hdone | ⟨hnxt, -⟩
  · cases hsequence
  · have hfst := congrArg (fun r => r.toOption.bind Prod.fst) hnxt
    have hstring : some [(0 : UInt8)] = some _ := hfst
    rw [← Option.some.inj hstring] at hsequence
    cases hsequence

end LZWDecoder

end OpenJfx.Iio.Gif
