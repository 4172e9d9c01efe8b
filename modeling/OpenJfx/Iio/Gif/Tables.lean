/-
  OpenJfx.Iio.Gif.Tables

  The two halves of the decoder.  Its input buffer always holds the bits that
  are still to come, whatever the sub-blocks.  Its table spells the strings of
  the entries it knows, and it enters the last string with the first index of
  the next one when the next code has told it.
-/

import OpenJfx.Iio.Gif.Encoding

namespace OpenJfx.Iio.Gif

open List Nat Function Option

variable {known : List (List UInt8)}

/-! ## Bits -/

variable {i : Input} {code size : Nat} {t : Table} {string : List UInt8}

namespace Input

/-- The bytes that are still to come. -/
def HasBytes (i : Input) (bytes : List UInt8) : Prop :=
  ∃ blocks behind, (∀ block ∈ blocks, 1 ≤ block.length ∧ block.length ≤ 255) ∧
    i.blockPos ≤ i.block.length ∧ i.stream = blockBytes blocks ++ behind ∧
    bytes = i.block.drop i.blockPos ++ blocks.flatten

/-- The bits that are still to come: those in the buffer, and the bytes. -/
def HasBits (i : Input) (bits : List Bool) : Prop :=
  ∃ buffered bytes, buffered.length = i.inBits ∧ i.inData = ofBits buffered ∧ i.HasBytes bytes ∧
    bits = buffered ++ byteBits bytes

theorem nextByte_of_block {b : UInt8} (h : i.block[i.blockPos]? = some b) :
    i.nextByte = .ok (b.toNat, { i with blockPos := i.blockPos + 1 }) := by
  have hlt := (List.getElem?_eq_some_iff.mp h).1
  unfold nextByte
  rw [if_neg (by omega)]
  simp only [bind, Except.bind, h]
  rfl

theorem nextByte_eq {b : UInt8} {bytes : List UInt8} (h : i.HasBytes (b :: bytes)) :
    ∃ i', i.nextByte = .ok (b.toNat, i') ∧ i'.HasBytes bytes ∧ i'.inData = i.inData ∧
      i'.inBits = i.inBits := by
  obtain ⟨blocks, behind, hlen, hpos, hstream, hbytes⟩ := h
  by_cases hend : i.blockPos = i.block.length
  · -- the block is used up, and the next one has at least a byte
    rw [hend, drop_length, nil_append] at hbytes
    cases blocks with
    | nil => cases hbytes
    | cons block blocks =>
      have hblock := hlen block mem_cons_self
      have hnat : (UInt8.ofNat block.length).toNat = block.length := by
        rw [UInt8.toNat_ofNat']
        exact Nat.mod_eq_of_lt (by omega)
      simp only [blockBytes, flatMap_cons, cons_append] at hstream
      have hread : i.readData = .ok
          { i with block := block, blockPos := 0, stream := blockBytes blocks ++ behind } := by
        simp only [readData, hstream, hnat]
        rw [if_pos (by omega), if_neg (by simp), append_assoc, take_left,
          drop_left]
        rfl
      cases block with
      | nil => simp at hblock
      | cons b' block =>
        rw [flatten_cons, cons_append, List.cons.injEq] at hbytes
        obtain ⟨rfl, rfl⟩ := hbytes
        refine ⟨{ i with block := b :: block, blockPos := 1, stream := blockBytes blocks ++ behind },
          ?_, ⟨blocks, behind, fun c hc => hlen c (.tail _ hc), by simp, rfl, rfl⟩,
          rfl, rfl⟩
        unfold nextByte
        rw [if_pos hend, hread]
        rfl
  · have hlt : i.blockPos < i.block.length := by omega
    rw [drop_eq_getElem_cons hlt, cons_append, List.cons.injEq] at hbytes
    refine ⟨_, nextByte_of_block ?_, ⟨blocks, behind, hlen, ?_, hstream, hbytes.2⟩, rfl, rfl⟩
    · rw [getElem?_eq_getElem hlt, hbytes.1]
    · exact hlt

theorem fillBits_eq {i : Input} {bits : List Bool} (h : i.HasBits bits) {codeSize : Nat}
    (hbits : codeSize ≤ bits.length) {fuel : Nat} (hfuel : codeSize ≤ i.inBits + 8 * fuel) :
    ∃ i', i.fillBits codeSize fuel = .ok i' ∧ i'.HasBits bits ∧ codeSize ≤ i'.inBits := by
  induction fuel generalizing i with
  | zero => exact ⟨i, rfl, h, by omega⟩
  | succ fuel ih =>
    rw [fillBits]
    by_cases hlt : i.inBits < codeSize
    · obtain ⟨buffered, bytes, hlen, hdata, hbytes, rfl⟩ := h
      cases bytes with
      | nil =>
        simp only [byteBits, flatMap_nil, append_nil] at hbits
        omega
      | cons b bytes =>
        obtain ⟨i', hnxt, hbytes', hdata', hbits'⟩ := nextByte_eq hbytes
        have hholds : HasBits
            { i' with
              inData := i'.inData ||| b.toNat <<< i'.inBits
              inBits := i'.inBits + 8 } (buffered ++ byteBits (b :: bytes)) := by
          refine ⟨buffered ++ natBits 8 b.toNat, bytes, ?_, ?_, hbytes', ?_⟩
          · rw [length_append, length_natBits, hlen, hbits']
          · rw [← ofBits_or_shiftLeft _ (UInt8.toNat_lt b), ← hdata, hlen, hdata', hbits']
          · rw [byteBits, flatMap_cons, append_assoc]
            rfl
        obtain ⟨i'', hfill, hrest⟩ := ih hholds (by show _ ≤ i'.inBits + 8 + _; omega)
        refine ⟨i'', ?_, hrest⟩
        rw [if_pos hlt, hnxt]
        exact hfill
    · exact ⟨i, if_neg hlt, h, by omega⟩

theorem getCode_eq {codeSize : Nat} {bits : List Bool}
    (h : i.HasBits (natBits codeSize code ++ bits)) (hcode : code < 2 ^ codeSize) :
    ∃ i', i.getCode codeSize = .ok (code, i') ∧ i'.HasBits bits := by
  obtain ⟨i1, hfill, ⟨buffered, bytes, hlen, hdata, hbytes, hbits⟩, henough⟩ :=
    @fillBits_eq _ _ h codeSize (by simp) codeSize (by omega)
  -- the buffer starts with the code
  obtain ⟨rest, rfl, rfl⟩ : ∃ rest, buffered = natBits codeSize code ++ rest ∧
      bits = rest ++ byteBits bytes := by
    rcases append_eq_append_iff.mp hbits with ⟨rest, hbuffered, hrest⟩ | ⟨rest, hnat, hrest⟩
    · exact ⟨rest, hbuffered, hrest⟩
    · have hrestlength : rest.length = 0 := by
        have := congrArg List.length hnat
        rw [length_natBits, length_append, hlen] at this
        omega
      rw [length_eq_zero_iff.mp hrestlength, append_nil] at hnat
      rw [length_eq_zero_iff.mp hrestlength, nil_append] at hrest
      exact ⟨[], by rw [hnat, append_nil], hrest.symm⟩
  have hmod := ofBits_append_mod (natBits codeSize code) rest
  have hdiv := ofBits_append_div (natBits codeSize code) rest
  rw [length_natBits, ofBits_natBits hcode] at hmod
  rw [length_natBits] at hdiv
  refine ⟨{ i1 with inBits := i1.inBits - codeSize, inData := i1.inData >>> codeSize }, ?_,
    ⟨rest, bytes, ?_, ?_, hbytes, rfl⟩⟩
  · unfold getCode
    rw [hfill, one_shiftLeft]
    simp only [bind, Except.bind, pure, Except.pure, Nat.and_two_pow_sub_one_eq_mod, hdata, hmod]
  · show rest.length = i1.inBits - codeSize
    rw [← hlen, length_append, length_natBits, Nat.add_sub_cancel_left]
  · show i1.inData >>> codeSize = ofBits rest
    rw [hdata, Nat.shiftRight_eq_div_pow, hdiv]

end Input

/-! ## The table -/

namespace Table

/-- A code of the table spells a string. A code points to a smaller one. -/
inductive Spells (t : Table) : Nat → List UInt8 → Prop where
  | root {code : Nat} {b : UInt8} (hcode : code < tableSize) (hlen : t.length code = 1)
      (hsuffix : t.suffix code = b) (hinitial : t.initial code = b) : Spells t code [b]
  | entry {code old : Nat} {string : List UInt8} {c : UInt8} (hcode : code < tableSize)
      (hlt : old < code) (hpar : t.prefixCode code = old) (h : Spells t old string)
      (hlen : t.length code = string.length + 1) (hsuffix : t.suffix code = c)
      (hinitial : string.head? = some (t.initial code)) : Spells t code (string ++ [c])

namespace Spells

variable {t : Table} {code : Nat} {string : List UInt8}

section

variable (h : t.Spells code string)
include h

theorem code_lt : code < tableSize := by
  cases h <;> assumption

theorem length_eq : t.length code = string.length := by
  cases h with
  | root _ hlen => exact hlen
  | entry _ _ _ _ hlen => rw [hlen, length_append, length_singleton]

theorem head?_eq : string.head? = some (t.initial code) := by
  cases h with
  | root _ _ _ hinitial => rw [hinitial, head?_cons]
  | entry _ _ _ _ _ _ hinitial =>
    rw [head?_append, hinitial]
    rfl

theorem length_le : string.length ≤ code + 1 := by
  induction h with
  | root => exact Nat.succ_le_succ (Nat.zero_le _)
  | entry _ hlt _ _ _ _ _ ih =>
    rw [length_append, length_singleton]
    omega

theorem reverseCode_eq :
    t.reverseCode string.length code = .ok string := by
  induction h with
  | root hcode _ hsuffix =>
    rw [length_singleton, reverseCode, if_pos ⟨Int.natCast_nonneg _, Int.ofNat_lt.mpr hcode⟩,
      Int.toNat_natCast, hsuffix]
    rfl
  | entry hcode _ hpar _ _ hsuffix _ ih =>
    rw [length_append, length_singleton, reverseCode,
      if_pos ⟨Int.natCast_nonneg _, Int.ofNat_lt.mpr hcode⟩, Int.toNat_natCast, hpar, ih, hsuffix]
    rfl

theorem congr {t' : Table} {n : Nat} (hcode : code < n)
    (hpar : ∀ i < n, t'.prefixCode i = t.prefixCode i) (hsuffix : ∀ i < n, t'.suffix i = t.suffix i)
    (hinitial : ∀ i < n, t'.initial i = t.initial i) (hlen : ∀ i < n, t'.length i = t.length i) :
    t'.Spells code string := by
  induction h with
  | root h1 h2 h3 h4 =>
    exact .root h1 ((hlen _ hcode).trans h2) ((hsuffix _ hcode).trans h3)
      ((hinitial _ hcode).trans h4)
  | entry h1 hlt h2 _ h3 h4 h5 ih =>
    exact .entry h1 hlt ((hpar _ hcode).trans h2) (ih (by omega)) ((hlen _ hcode).trans h3)
      ((hsuffix _ hcode).trans h4) ((hinitial _ hcode).symm ▸ h5)

theorem withOldCode (oldCode : Nat) : Spells { t with oldCode } code string :=
  h.congr (Nat.lt_succ_self code) (fun _ _ => rfl) (fun _ _ => rfl) (fun _ _ => rfl) fun _ _ => rfl

end

end Spells

/-- The table of the decoder has the given entries. -/
structure Knows (t : Table) (size : Nat) (known : List (List UInt8)) : Prop where
  initCodeSize : t.initCodeSize = size
  indices : ∀ i < 2 ^ size, t.Spells i [UInt8.ofNat i]
  entries : ∀ j string, known[j]? = some string → t.Spells (firstEntry size + j) string
  tableIndex : t.tableIndex = firstEntry size + known.length
  codeSize : t.codeSize = codeWidth size (known.length + 1)
  room : firstEntry size + known.length ≤ tableSize

theorem Knows.withOldCode
    (h : t.Knows size known) (oldCode : Nat) : Knows { t with oldCode } size known :=
  ⟨h.initCodeSize, fun i hi => (h.indices i hi).withOldCode oldCode,
    fun j string hj => (h.entries j string hj).withOldCode oldCode, h.tableIndex, h.codeSize, h.room⟩

theorem Knows.clearCode (h : t.Knows size known) : t.clearCode = 2 ^ size := by
  rw [Table.clearCode, h.initCodeSize, one_shiftLeft]

theorem Knows.eofCode (h : t.Knows size known) : t.eofCode = 2 ^ size + 1 := by
  rw [Table.eofCode, h.clearCode]

end Table

section Sizes

variable {size : Nat} (hsz : 2 ≤ size ∧ size ≤ 8)

include hsz

theorem two_pow_bounds : 4 ≤ 2 ^ size ∧ 2 ^ size ≤ 256 :=
  ⟨(Nat.pow_le_pow_right (by omega) hsz.1 : 2 ^ 2 ≤ 2 ^ size),
    (Nat.pow_le_pow_right (by omega) hsz.2 : 2 ^ size ≤ 2 ^ 8)⟩

theorem codeWidth_first {sent : Nat} (h : sent ≤ 1) : codeWidth size sent = size + 1 := by
  obtain ⟨hlow, -⟩ := two_pow_bounds hsz
  have hzero : sent - 1 = 0 := by omega
  have hpow : 2 ^ (size + 1) = 2 ^ size * 2 := Nat.pow_succ ..
  have hnat : Nat.size (firstEntry size) = size + 1 := by
    have hle : Nat.size (firstEntry size) ≤ size + 1 :=
      size_le.mpr (by rw [firstEntry, hpow]; omega)
    have hgt : size < Nat.size (firstEntry size) := Nat.lt_size.mpr (by rw [firstEntry]; omega)
    omega
  rw [codeWidth, hzero, Nat.add_zero, hnat]
  omega

end Sizes

/-- The width grows when the table index reaches the next power of two. -/
theorem codeWidth_succ {size sent : Nat} (h : firstEntry size + sent < tableSize) :
    (if firstEntry size + sent + 1 = 1 <<< codeWidth size (sent + 1) ∧
        firstEntry size + sent + 1 < tableSize then codeWidth size (sent + 1) + 1
      else codeWidth size (sent + 1)) = codeWidth size (sent + 1 + 1) := by
  simp only [codeWidth, Nat.add_sub_cancel, one_shiftLeft, ← Nat.add_assoc]
  generalize firstEntry size + sent = n at h ⊢
  have h12 : Nat.size n ≤ 12 := size_le.mpr h
  have hself := Nat.lt_size_self n
  rw [min_eq_right h12]
  by_cases hpow : n + 1 = 2 ^ Nat.size n
  · have hgrown : Nat.size (n + 1) = Nat.size n + 1 := by
      rw [hpow, Nat.size_pow]
    rw [hgrown]
    by_cases hlt : n + 1 < tableSize
    · have hlt12 : Nat.size n < 12 := by
        rw [hpow] at hlt
        exact (Nat.pow_lt_pow_iff_right (by omega)).mp (show 2 ^ Nat.size n < 2 ^ 12 from hlt)
      rw [if_pos ⟨hpow, hlt⟩, min_eq_right hlt12]
    · rw [if_neg fun hcond => hlt hcond.2]
      have hge : 12 ≤ Nat.size n := by
        refine (Nat.pow_le_pow_iff_right (by omega : 1 < 2)).mp ?_
        rw [← hpow]
        exact Nat.not_lt.mp hlt
      omega
  · have hsame : Nat.size (n + 1) = Nat.size n := by
      refine Nat.le_antisymm (size_le.mpr (by omega)) (Nat.size_le_size (Nat.le_succ n))
    rw [if_neg fun hcond => hpow hcond.1, hsame, min_eq_right h12]

namespace Table

variable {t : Table} {size : Nat} {known : List (List UInt8)}

theorem knows_initTable (hsz : 2 ≤ size ∧ size ≤ 8) (h : t.initCodeSize = size) :
    t.initTable.Knows size [] where
  initCodeSize := h
  indices := by
    intro i hi
    have hnum : i < 1 <<< t.initCodeSize := by rwa [h, one_shiftLeft]
    have hroom : i < tableSize := by
      have := two_pow_bounds hsz
      rw [tableSize]
      omega
    exact .root hroom rfl (if_pos hnum) (if_pos hnum)
  entries := nofun
  tableIndex := by
    show 1 <<< t.initCodeSize + 2 = _
    rw [h, one_shiftLeft]
    rfl
  codeSize := by
    show t.initCodeSize + 1 = _
    rw [h]
    exact (codeWidth_first hsz (Nat.le_refl 1)).symm
  room := by
    have := two_pow_bounds hsz
    rw [length_nil, firstEntry, tableSize]
    omega

theorem Knows.spells (h : t.Knows size known) (hcode : codeString size known code = some string) :
    t.Spells code string ∧ code < t.tableIndex := by
  have htable := h.tableIndex
  unfold codeString at hcode
  split at hcode
  · next hlt =>
    cases hcode
    refine ⟨h.indices code hlt, ?_⟩
    rw [htable, firstEntry]
    omega
  · split at hcode
    · cases hcode
    · next hge =>
      have hlt := (List.getElem?_eq_some_iff.mp hcode).1
      have hspells := h.entries _ _ hcode
      rw [Nat.add_sub_cancel' (Nat.not_lt.mp hge)] at hspells
      exact ⟨hspells, by omega⟩

theorem codeString_append (size : Nat) (known : List (List UInt8)) (entry : List UInt8)
    (h : codeString size (known ++ [entry]) code = some string) :
    codeString size known code = some string ∨
      code = firstEntry size + known.length ∧ string = entry := by
  unfold codeString at h ⊢
  split at h
  · next hlt => exact .inl ((if_pos hlt).trans h)
  · next hlt =>
    split at h
    · cases h
    · next hge =>
      rw [if_neg hlt, if_neg hge]
      by_cases hlast : code - firstEntry size < known.length
      · rw [getElem?_append_left hlast] at h
        exact .inl h
      · have hlt' := (List.getElem?_eq_some_iff.mp h).1
        rw [length_append, length_singleton] at hlt'
        have hidx : code - firstEntry size = known.length := by omega
        rw [hidx, getElem?_concat_length, Option.some.injEq] at h
        exact .inr ⟨by omega, h.symm⟩

theorem addEntry_eq (h : t.Knows size known) (hroom : firstEntry size + known.length < tableSize)
    {old : List UInt8} {c : UInt8} (hold : t.Spells t.oldCode old)
    (holdlt : t.oldCode < t.tableIndex) (hhead : string.head? = some c)
    (hcode : codeString size (known ++ [old ++ [c]]) code = some string) :
    ∃ t', t.addEntry code = .ok t' ∧ t'.Knows size (known ++ [old ++ [c]]) ∧
      t'.Spells code string := by
  have hti := h.tableIndex
  -- the new suffix is the first index of the string, also where the code is new
  have hsuffix : t.initial (if code < t.tableIndex then code else t.oldCode) = c ∧
      code ≤ t.tableIndex := by
    obtain hknown | ⟨rfl, rfl⟩ := codeString_append size known _ hcode
    · obtain ⟨hspells, hlt⟩ := h.spells hknown
      rw [if_pos hlt]
      exact ⟨some.inj (hspells.head?_eq.symm.trans hhead), Nat.le_of_lt hlt⟩
    · rw [if_neg (by omega)]
      rw [head?_append, hold.head?_eq] at hhead
      exact ⟨some.inj hhead, by omega⟩
  let t' : Table :=
    { t with
      prefixCode := update t.prefixCode t.tableIndex t.oldCode
      suffix := update t.suffix t.tableIndex c
      initial := update t.initial t.tableIndex (t.initial t.oldCode)
      length := update t.length t.tableIndex (t.length t.oldCode + 1)
      tableIndex := t.tableIndex + 1
      codeSize := codeWidth size (known.length + 1 + 1) }
  have hadd : t.addEntry code = .ok t' := by
    have hwidth := @codeWidth_succ size known.length hroom
    rw [← hti] at hwidth
    simp only [addEntry, hsuffix.1]
    rw [if_neg (by omega), if_neg (by omega), h.codeSize, hwidth]
  have hbelow : ∀ {i s}, t.Spells i s → i < t.tableIndex → t'.Spells i s := fun hs hi =>
    hs.congr hi (fun j hj => update_of_ne (Nat.ne_of_lt hj) _ _)
      (fun j hj => update_of_ne (Nat.ne_of_lt hj) _ _)
      (fun j hj => update_of_ne (Nat.ne_of_lt hj) _ _)
      (fun j hj => update_of_ne (Nat.ne_of_lt hj) _ _)
  have hnew : t'.Spells t.tableIndex (old ++ [c]) := by
    refine .entry (by omega) holdlt (update_self ..) (hbelow hold holdlt) ?_
      (update_self ..) ?_
    · exact (update_self ..).trans (by rw [hold.length_eq])
    · show old.head? = some (update t.initial t.tableIndex _ t.tableIndex)
      rw [update_self, hold.head?_eq]
  refine ⟨t', hadd, ⟨h.initCodeSize, ?_, ?_, ?_, ?_, ?_⟩, ?_⟩
  · intro i hi
    refine hbelow (h.indices i hi) ?_
    rw [hti, firstEntry]
    omega
  · intro j s hj
    by_cases hlt : j < known.length
    · rw [getElem?_append_left hlt] at hj
      exact hbelow (h.entries j s hj) (by omega)
    · have hlt' := (List.getElem?_eq_some_iff.mp hj).1
      rw [length_append, length_singleton] at hlt'
      have hidx : j = known.length := by omega
      rw [hidx, getElem?_concat_length, Option.some.injEq] at hj
      rw [hidx, ← hti, ← hj]
      exact hnew
  · show t.tableIndex + 1 = _
    rw [hti, length_append, length_singleton, Nat.add_assoc]
  · show codeWidth size (known.length + 1 + 1) = _
    rw [length_append, length_singleton]
  · rw [length_append, length_singleton]
    omega
  · obtain hknown | ⟨rfl, rfl⟩ := codeString_append size known _ hcode
    · obtain ⟨hspells, hlt⟩ := h.spells hknown
      exact hbelow hspells hlt
    · rw [← hti]
      exact hnew

end Table

end OpenJfx.Iio.Gif
