/-
  OpenJfx.Css.Binary.Decoding

  What is written of a persistable stylesheet is read back, part by part: each writer
  and its reader go through the same bytes, as long as the string store is small enough
  for its indices.
-/

import OpenJfx.Css.Binary.Persistable

namespace OpenJfx.Css.Binary

open ParsedValueImpl

open List hiding lookup

open OpenJfx.DataStream OpenJfx.InternTable OpenJfx.ModifiedUtf8

variable {strings entries : List (Option String)} {name : String} {names : List String}
  {P : Platform}

/-! ## Counts, tags and names -/

/-- A short reads back below 2^15. -/
theorem decodes_short {n : Nat} (h : n < 2 ^ 15) : Decodes readShort (writeShort n) n := by
  have hread := Decodes.readShort n
  rwa [bmod_short h] at hread

theorem decodes_int {n : Nat} (h : n < 2 ^ 31) : Decodes readInt (writeInt n) n := by
  have hread := Decodes.readInt n
  rwa [bmod_int h] at hread

theorem encodes_string (hlen : entries.length ≤ 2 ^ 15) (s : Option String) :
    Encodes entries (Put.index writeShort s) (lookup entries readShort) s :=
  EncodesTo.index (fun _ hi => decodes_short hi) hlen s

theorem encodes_intString (hlen : entries.length ≤ 2 ^ 15) (s : Option String) :
    Encodes entries (Put.index writeInt s) (lookup entries readInt) s :=
  EncodesTo.index (fun _ hi => decodes_int hi) (hlen.trans (by decide)) s

/-- Names go through the string store. -/
theorem encodes_names (hlen : entries.length ≤ 2 ^ 15) (names : List String) :
    Encodes entries (Put.each writeName names) (readMany (readString entries) names.length)
      (names.map some) :=
  EncodesTo.each fun name _ => encodes_string hlen (some name)

/-! ## Converters -/

namespace StyleConverter

theorem encodes_enumClass (hlen : entries.length ≤ 2 ^ 15) {enumClass : String}
    (h : getEnumInstance enumClass = some (.enum enumClass)) (hne : enumClass ≠ "") :
    Encodes entries (Put.index writeShort (some enumClass)) (readEnum entries)
      (some (.enum enumClass)) := by
  intro table
  refine ⟨_, _, rfl, prefix_intern _ table, fun hpre => ⟨_, ?_, rfl⟩⟩
  have hget : entries[(intern (some enumClass) table).1]? = some (some enumClass) := by
    obtain ⟨rest, rfl⟩ := hpre
    have hx := intern_getElem? (some enumClass) table
    rw [getElem?_append_left (List.getElem?_eq_some_iff.1 hx).1, hx]
  have hlt : (intern (some enumClass) table).1 < entries.length :=
    (List.getElem?_eq_some_iff.1 hget).1
  refine (decodes_short (hlt.trans_le hlen)).map ?_
  have hrng : (0 : Int) ≤ ((intern (some enumClass) table).1 : Int) ∧
      ((intern (some enumClass) table).1 : Int) ≤ entries.length := by omega
  have hentry : lookup entries (pure ((intern (some enumClass) table).1 : Int)) =
      pure (some enumClass) := by
    simp [lookup, hget]
  simp only [if_pos hrng, hentry, pure_bind, if_neg hne, h]
  exact Decodes.pure _

/-- A converter is written as its class, and an enumeration's with the enumeration. -/
theorem encodes (hlen : entries.length ≤ 2 ^ 15) {converter : Option StyleConverter}
    (h : Persistable converter) :
    Encodes entries (writeBinary converter) (readBinary entries) converter := by
  match converter, h with
  | none, _ => exact EncodesTo.bytes ((Decodes.readBoolean false).map (Decodes.pure none))
  | some (.impl className), h =>
    obtain ⟨hne, hnot⟩ := instances_names _ (getInstance_self.1 h)
    refine (EncodesTo.bytes (Decodes.readBoolean true)).cons ?_
    refine (encodes_string hlen (some className)).cons ?_
    have hread : (if className = "" then pure none
        else if enumConverter.toList.isPrefixOf className.toList then readEnum entries
        else pure (getInstance className) : DataInput (Option StyleConverter)) =
        pure (some (.impl className)) := by
      rw [if_neg hne, hnot, if_neg (by decide), h]
    show Encodes entries (Put.all []) (if className = "" then _ else _) _
    rw [hread]
    exact EncodesTo.done _
  | some (.enum enumClass), h =>
    have hne := enumInstances_names _ (getEnumInstance_self.1 h)
    refine (EncodesTo.bytes (Decodes.readBoolean true)).cons ?_
    refine (encodes_string hlen (some enumConverter)).cons ?_
    have hread : (if enumConverter = "" then pure none
        else if enumConverter.toList.isPrefixOf enumConverter.toList then readEnum entries
        else pure (getInstance enumConverter) : DataInput (Option StyleConverter)) =
        readEnum entries := by
      rw [if_neg (by simp [enumConverter]), if_pos (by simp)]
    show Encodes entries _ (if enumConverter = "" then _ else _) _
    rw [hread]
    exact (encodes_enumClass hlen h hne).last

end StyleConverter

/-! ## Values -/

theorem decodes_tag {tag : Int} (h : tag.bmod (2 ^ 8) = tag) :
    Decodes readByte (writeByte tag) tag := by
  have hread := Decodes.readByte tag
  rwa [h] at hread

theorem decodes_component (c : P.Component) :
    Decodes (component c.1.bits) [] c := by
  have hd : longBitsToDouble c.1.bits = c.1 := by
    obtain ⟨⟨bits, hbits⟩, _⟩ := c
    simp only [longBitsToDouble, Double.mk.injEq]
    exact hbits
  have hc : component c.1.bits = (pure c : DataInput P.Component) := by
    unfold component
    simp only [hd, dif_pos c.2.1]
    congr 1
    exact Subtype.ext c.2.2
  rw [hc]
  exact Decodes.pure c

theorem decodes_color (c : Color P) :
    Encodes entries (Put.all [.bytes (writeLong c.red.1.bits), .bytes (writeLong c.green.1.bits),
      .bytes (writeLong c.blue.1.bits), .bytes (writeLong c.opacity.1.bits)]) readColor c := by
  refine (EncodesTo.bytes (Decodes.readLong _)).cons ((EncodesTo.bytes (Decodes.readLong _)).cons
    ((EncodesTo.bytes (Decodes.readLong _)).cons
      (EncodesTo.last ((EncodesTo.bytes (Decodes.readLong _)).map ?_))))
  exact (decodes_component c.red).map ((decodes_component c.green).map
    ((decodes_component c.blue).map ((decodes_component c.opacity).map (Decodes.pure _))))

theorem encodes_size (hlen : entries.length ≤ 2 ^ 15) (s : Size) :
    Encodes entries (Put.all [.bytes (writeLong s.value.bits),
      .index writeShort (some s.units.name)]) (readSize entries) s := by
  refine (EncodesTo.bytes (Decodes.readLong _)).cons ((encodes_string hlen _).cons ?_)
  have hs : (⟨longBitsToDouble s.value.bits, (SizeUnits.valueOf (some s.units.name)).getD .px⟩ :
      Size) = s := by
    obtain ⟨⟨bits, hbits⟩, units⟩ := s
    simp only [longBitsToDouble, SizeUnits.valueOf_name, Option.getD_some]
    congr
  rw [hs]
  exact EncodesTo.done s

/-- An array of values, each of which reads back. -/
theorem encodes_array {readValue : DataInput (ParsedValueImpl P)}
    {values : List (Option (ParsedValueImpl P))} (hpos : 0 < values.length)
    (hlt : values.length < 2 ^ 31)
    (h : Encodes entries (writeElements values)
      (readMany (readElement readValue) values.length) values) :
    Encodes entries (Put.all [.bytes (writeByte VALUE), .bytes (writeInt values.length),
      writeElements values]) (readArray readValue) (some values) := by
  refine (EncodesTo.bytes (decodes_tag rfl)).cons ((EncodesTo.bytes (decodes_int hlt)).cons ?_)
  rw [Int.toNat_natCast]
  refine h.cons ?_
  rw [if_pos (by omega)]
  exact EncodesTo.done _

mutual

/-- By induction on the value; it reads back from some depth on. -/
theorem ParsedValueImpl.encodes (hlen : entries.length ≤ 2 ^ 15) :
    (v : ParsedValueImpl P) → v.Persistable → ∃ depth0, ∀ depth, depth0 ≤ depth →
      Encodes entries v.writeBinary (readBinary entries depth) v
  | .mk value converter lookup, h => by
    rw [ParsedValueImpl.Persistable] at h
    obtain ⟨depth0, hval⟩ := value.encodes hlen h.2
    refine ⟨depth0 + 1, fun depth hdepth => ?_⟩
    rcases depth with _ | depth
    · omega
    rw [writeBinary, readBinary]
    refine (EncodesTo.bytes (Decodes.readBoolean lookup)).cons
      ((StyleConverter.encodes hlen h.1).cons ?_)
    have hread : Encodes entries (Put.all [value.writeBinary])
        (readByte >>= readTagged (readBinary entries depth) entries >>=
          fun value => pure (mk value converter lookup))
        (.mk value converter lookup) :=
      (hval depth (by omega)).cons (EncodesTo.done _)
    rwa [bind_assoc] at hread

/-- The kinds of values, one by one. -/
theorem Value.encodes (hlen : entries.length ≤ 2 ^ 15) :
    (v : Value P) → v.Persistable → ∃ depth0, ∀ depth, depth0 ≤ depth →
      Encodes entries v.writeBinary (readByte >>= readTagged (readBinary entries depth) entries) v
  | .null, _ => by
    refine ⟨0, fun depth _ => ?_⟩
    rw [Value.writeBinary]
    exact (EncodesTo.bytes (decodes_tag rfl)).map (Decodes.pure _)
  | .value v, h => by
    rw [Value.Persistable] at h
    obtain ⟨depth0, hv⟩ := v.encodes hlen h
    refine ⟨depth0, fun depth hdepth => ?_⟩
    rw [Value.writeBinary]
    exact (EncodesTo.bytes (decodes_tag rfl)).cons ((hv depth hdepth).cons (EncodesTo.done _))
  | .array values, h => by
    rw [Value.Persistable] at h
    obtain ⟨hpos, hlt, hvalues⟩ := h
    obtain ⟨depth0, helements⟩ := encodes_elements hlen values hvalues
    refine ⟨depth0, fun depth hdepth => ?_⟩
    rw [Value.writeBinary]
    refine (EncodesTo.bytes (decodes_tag rfl)).cons ?_
    exact (encodes_array hpos hlt (helements depth hdepth)).map (Decodes.pure _)
  | .layers layers, h => by
    rw [Value.Persistable] at h
    obtain ⟨hpos, hlt, hlayers⟩ := h
    obtain ⟨depth0, harrays⟩ := encodes_layers hlen layers hlayers
    refine ⟨depth0, fun depth hdepth => ?_⟩
    rw [Value.writeBinary]
    refine (EncodesTo.bytes (decodes_tag rfl)).cons ((EncodesTo.bytes (decodes_tag rfl)).cons
      ((EncodesTo.bytes (decodes_int hlt)).cons ?_))
    rw [Int.toNat_natCast]
    refine (harrays depth hdepth).cons ?_
    rw [if_pos (by omega)]
    exact EncodesTo.done _
  | .string s, _ => by
    refine ⟨0, fun depth _ => ?_⟩
    rw [Value.writeBinary]
    exact (EncodesTo.bytes (decodes_tag rfl)).cons
      ((encodes_string hlen (some s)).cons (EncodesTo.done _))
  | .color c, _ => by
    refine ⟨0, fun depth _ => ?_⟩
    rw [Value.writeBinary]
    exact (EncodesTo.bytes (decodes_tag rfl)).cons ((decodes_color c).map (Decodes.pure _))
  | .enum _ _, h => by
    rw [Value.Persistable] at h
    exact h.elim
  | .boolean b, _ => by
    refine ⟨0, fun depth _ => ?_⟩
    rw [Value.writeBinary]
    exact (EncodesTo.bytes (decodes_tag rfl)).cons
      ((EncodesTo.bytes (Decodes.readBoolean b)).cons (EncodesTo.done _))
  | .url u, _ => by
    refine ⟨0, fun depth _ => ?_⟩
    rw [Value.writeBinary]
    refine (EncodesTo.bytes (decodes_tag rfl)).cons ((encodes_string hlen (some u.1)).cons ?_)
    dsimp only
    rw [dif_pos u.2]
    exact EncodesTo.done _
  | .size s, _ => by
    refine ⟨0, fun depth _ => ?_⟩
    rw [Value.writeBinary]
    exact (EncodesTo.bytes (decodes_tag rfl)).cons ((encodes_size hlen s).map (Decodes.pure _))
  | .other, h => by
    rw [Value.Persistable] at h
    exact h.elim

theorem encodes_elements (hlen : entries.length ≤ 2 ^ 15) :
    (values : List (Option (ParsedValueImpl P))) → ElementsPersistable values →
      ∃ depth0, ∀ depth, depth0 ≤ depth → Encodes entries (writeElements values)
        (readMany (readElement (readBinary entries depth)) values.length) values
  | [], _ => by
    refine ⟨0, fun depth _ => ?_⟩
    rw [writeElements]
    exact EncodesTo.done _
  | none :: values, h => by
    rw [ElementsPersistable] at h
    obtain ⟨depth0, hvalues⟩ := encodes_elements hlen values h
    refine ⟨depth0, fun depth hdepth => ?_⟩
    rw [writeElements]
    have hnone : Encodes entries (Put.all [.bytes (writeByte NULL_VALUE)])
        (readElement (readBinary (P := P) entries depth)) none :=
      EncodesTo.last ((EncodesTo.bytes (decodes_tag rfl)).map (Decodes.pure none))
    exact hnone.seq ((hvalues depth hdepth).map (Decodes.pure _))
  | some v :: values, h => by
    rw [ElementsPersistable] at h
    obtain ⟨depth1, hv⟩ := v.encodes hlen h.1
    obtain ⟨depth2, hvalues⟩ := encodes_elements hlen values h.2
    refine ⟨max depth1 depth2, fun depth hdepth => ?_⟩
    rw [writeElements]
    have hsome : Encodes entries (Put.all [.bytes (writeByte VALUE), v.writeBinary])
        (readElement (readBinary entries depth)) (some v) :=
      (EncodesTo.bytes (decodes_tag rfl)).cons
        ((hv depth (by omega)).cons (EncodesTo.done (some v)))
    exact hsome.seq ((hvalues depth (by omega)).map (Decodes.pure _))

theorem encodes_layers (hlen : entries.length ≤ 2 ^ 15) :
    (layers : List (Option (List (Option (ParsedValueImpl P))))) → LayersPersistable layers →
      ∃ depth0, ∀ depth, depth0 ≤ depth → Encodes entries (writeLayers layers)
        (readMany (readArray (readBinary entries depth)) layers.length) layers
  | [], _ => by
    refine ⟨0, fun depth _ => ?_⟩
    rw [writeLayers]
    exact EncodesTo.done _
  | none :: layers, h => by
    rw [LayersPersistable] at h
    obtain ⟨depth0, hlayers⟩ := encodes_layers hlen layers h
    refine ⟨depth0, fun depth hdepth => ?_⟩
    rw [writeLayers]
    have hnone : Encodes entries (Put.all [.bytes (writeByte NULL_VALUE), .bytes (writeInt 0)])
        (readArray (readBinary (P := P) entries depth)) none :=
      (EncodesTo.bytes (decodes_tag rfl)).cons
        (EncodesTo.last ((EncodesTo.bytes (decodes_int (by decide))).map (Decodes.pure none)))
    exact hnone.seq ((hlayers depth hdepth).map (Decodes.pure _))
  | some values :: layers, h => by
    rw [LayersPersistable] at h
    obtain ⟨⟨hpos, hlt, hvalues⟩, hrest⟩ := h
    obtain ⟨depth1, helements⟩ := encodes_elements hlen values hvalues
    obtain ⟨depth2, hlayers⟩ := encodes_layers hlen layers hrest
    refine ⟨max depth1 depth2, fun depth hdepth => ?_⟩
    rw [writeLayers]
    exact (encodes_array hpos hlt (helements depth (by omega))).seq
      ((hlayers depth (by omega)).map (Decodes.pure _))

end

/-! ## Selectors -/

/-- Null and empty names are left out. -/
theorem givenNames_append (xs ys : List (Option String)) : SimpleSelector.givenNames (xs ++ ys) =
      SimpleSelector.givenNames xs ++ SimpleSelector.givenNames ys :=
  filterMap_append

theorem givenNames_map_some (h : ∀ name ∈ names, name ≠ "") :
    SimpleSelector.givenNames (names.map some) = names := by
  induction names with
  | nil => rfl
  | cons name names ih =>
    have hname := h name mem_cons_self
    have hrest := ih fun x hx => h x (mem_cons_of_mem name hx)
    unfold SimpleSelector.givenNames at hrest ⊢
    simp [hname, hrest]

theorem ne_empty_of_mem_givenNames {names : List (Option String)}
    (h : name ∈ SimpleSelector.givenNames names) : name ≠ "" := by
  obtain ⟨entry, _, hentry⟩ := mem_filterMap.1 h
  cases entry with
  | none => cases hentry
  | some s =>
    by_cases hs : s = ""
    · simp [hs] at hentry
    · simp only [if_neg hs, Option.some.injEq] at hentry
      exact hentry ▸ hs

/-- One round of the loop over the pseudo-classes. -/
def pseudoStep (acc : Finset String × NodeOrientation) (pclass : String) :
    Finset String × NodeOrientation :=
  if SimpleSelector.isDir pclass then
    (acc.1, if SimpleSelector.isDirRtl pclass then .rightToLeft else .leftToRight)
  else (insert pclass acc.1, acc.2)

theorem readPseudoClasses_eq (names : List String) :
    SimpleSelector.readPseudoClasses names = names.foldl pseudoStep (∅, .inherit) := rfl

theorem foldl_pseudoStep (h : ∀ name ∈ names, SimpleSelector.isDir name = false)
    (acc : Finset String × NodeOrientation) :
    names.foldl pseudoStep acc = (acc.1 ∪ names.toFinset, acc.2) := by
  induction names generalizing acc with
  | nil => simp
  | cons name names ih =>
    have hname := h name mem_cons_self
    rw [foldl_cons, ih fun x hx => h x (mem_cons_of_mem name hx)]
    simp [pseudoStep, hname]

/-- The set gets only names from the list that are no directions. -/
theorem mem_foldl_pseudoStep {acc : Finset String × NodeOrientation}
    (h : name ∈ (names.foldl pseudoStep acc).1) :
    name ∈ acc.1 ∨ (name ∈ names ∧ SimpleSelector.isDir name = false) := by
  induction names generalizing acc with
  | nil => exact .inl h
  | cons x names ih =>
    rcases ih h with hacc | ⟨hmem, hdir⟩
    · unfold pseudoStep at hacc
      split at hacc
      · exact .inl hacc
      · next hx =>
        rcases Finset.mem_insert.1 hacc with rfl | hacc
        · exact .inr ⟨.head _, by simpa using hx⟩
        · exact .inl hacc
    · exact .inr ⟨mem_cons_of_mem x hmem, hdir⟩

theorem isDir_names : SimpleSelector.isDir "dir(rtl)" = true ∧
    SimpleSelector.isDirRtl "dir(rtl)" = true ∧ SimpleSelector.isDir "dir(ltr)" = true ∧
    SimpleSelector.isDirRtl "dir(ltr)" = false := by
  decide

theorem foldl_directionName (state : Finset String) (orientation : NodeOrientation) :
    (directionName orientation).foldl pseudoStep (state, .inherit) = (state, orientation) := by
  obtain ⟨hrtl, hrtl', hltr, hltr'⟩ := isDir_names
  cases orientation with
  | inherit => rfl
  | leftToRight => simp [directionName, pseudoStep, hltr, hltr']
  | rightToLeft => simp [directionName, pseudoStep, hrtl, hrtl']

theorem ConstructedSelector.styleClass_ne_empty (selector : ConstructedSelector)
    (h : name ∈ selector.1.styleClassSet) : name ≠ "" := by
  obtain ⟨s, _, styleClasses, _, _, rfl⟩ := selector
  exact ne_empty_of_mem_givenNames (mem_toFinset.1 h)

theorem ConstructedSelector.pseudoClass_plain (selector : ConstructedSelector)
    (h : name ∈ selector.1.pseudoClassState) :
    name ≠ "" ∧ SimpleSelector.isDir name = false := by
  obtain ⟨s, _, _, pseudoClasses, _, rfl⟩ := selector
  rcases mem_foldl_pseudoStep h with hemp | ⟨hgiven, hdir⟩
  · simp at hemp
  · exact ⟨ne_empty_of_mem_givenNames hgiven, hdir⟩

/-- The names written construct the same selector. -/
theorem ConstructedSelector.new_written (selector : ConstructedSelector)
    {classes pseudos : List String}
    (hcls : classes.toFinset = selector.1.styleClassSet)
    (hpseudos : pseudos.toFinset = selector.1.pseudoClassState) :
    ConstructedSelector.new (some selector.1.name) (classes.map some)
      (pseudos.map some ++ (directionName selector.1.nodeOrientation).map some)
      (some selector.1.id) = selector := by
  have hclass : ∀ c ∈ classes, c ≠ "" := fun c hc =>
    selector.styleClass_ne_empty (hcls ▸ mem_toFinset.2 hc)
  have hpseudo : ∀ p ∈ pseudos, p ≠ "" ∧ SimpleSelector.isDir p = false := fun p hp =>
    selector.pseudoClass_plain (hpseudos ▸ mem_toFinset.2 hp)
  have hdirection : ∀ n ∈ directionName selector.1.nodeOrientation, n ≠ "" := by
    cases selector.1.nodeOrientation <;> simp [directionName]
  have hread : SimpleSelector.readPseudoClasses (SimpleSelector.givenNames
      (pseudos.map some ++ (directionName selector.1.nodeOrientation).map some)) =
      (selector.1.pseudoClassState, selector.1.nodeOrientation) := by
    rw [givenNames_append, givenNames_map_some fun p hp => (hpseudo p hp).1,
      givenNames_map_some hdirection, readPseudoClasses_eq, foldl_append,
      foldl_pseudoStep fun p hp => (hpseudo p hp).2, Finset.empty_union, hpseudos]
    exact foldl_directionName _ _
  apply Subtype.ext
  show SimpleSelector.new _ _ _ _ = selector.1
  unfold SimpleSelector.new
  rw [hread, givenNames_map_some hclass, hcls]
  rfl

variable {α : Type} {selector : ConstructedSelector} {decls : List (Declaration P)}
  {s : Stylesheet P}

theorem readMany_add (r : DataInput α) (m n : Nat) : readMany r (m + n) = do
      let as ← readMany r m
      let bs ← readMany r n
      return as ++ bs := by
  induction m with
  | zero => simp [readMany]
  | succ m ih =>
    rw [Nat.succ_add, readMany, ih]
    simp [readMany]

section

variable (hlen : entries.length ≤ 2 ^ 15)
include hlen

/-- A simple selector reads back. -/
theorem encodes_simple (h : selector.Persistable) :
    ∃ ps, writeSimple P selector = Put.all (.bytes (writeByte TYPE_SIMPLE) :: ps) ∧
      Encodes entries (Put.all ps) (readSimple entries) selector := by
  refine ⟨_, rfl, ?_⟩
  set classes := P.styleClasses.iterate selector.1.styleClassSet with hcls
  set pseudos := P.pseudoClasses.iterate selector.1.pseudoClassState with hpseudos
  have hnClasses : selector.1.styleClassSet.card = classes.length := (P.styleClasses.length _).symm
  have hnPseudos : selector.1.pseudoClassState.card = pseudos.length :=
    (P.pseudoClasses.length _).symm
  refine (encodes_string hlen (some selector.1.name)).cons
    ((EncodesTo.bytes (decodes_short h.1)).cons ?_)
  rw [Int.toNat_natCast, hnClasses]
  refine (encodes_names hlen classes).cons ((encodes_string hlen (some selector.1.id)).cons
    ((EncodesTo.bytes (decodes_short h.2)).cons ?_))
  rw [Int.toNat_natCast, hnPseudos, readMany_add, bind_assoc]
  refine (encodes_names hlen pseudos).cons ?_
  rw [bind_assoc]
  refine (encodes_names hlen (directionName selector.1.nodeOrientation)).cons ?_
  rw [pure_bind, selector.new_written (P.styleClasses.toFinset _) (P.pseudoClasses.toFinset _)]
  exact EncodesTo.done selector

theorem encodes_member (h : selector.Persistable) :
    Encodes entries (writeSimple P selector) (readMember entries) selector := by
  obtain ⟨ps, heq, hps⟩ := encodes_simple (P := P) hlen h
  rw [heq]
  exact (EncodesTo.bytes (decodes_tag rfl)).cons hps

omit hlen in
theorem encodes_combinator (c : Combinator) :
    Encodes entries (.bytes (writeByte (ordinal c))) readCombinator c := by
  cases c with
  | child | descendant => exact EncodesTo.bytes ((decodes_tag rfl).map (Decodes.pure _))

/-- Both classes of selectors, by their tags. -/
theorem Selector.encodes {s : Selector} (h : s.Persistable) :
    Encodes entries (s.writeBinary P) (Selector.readBinary entries) s := by
  cases s with
  | simple s =>
    obtain ⟨ps, heq, hps⟩ := encodes_simple (P := P) hlen h
    show Encodes entries (writeSimple P s) _ _
    rw [heq]
    exact (EncodesTo.bytes (decodes_tag rfl)).cons (hps.map (Decodes.pure _))
  | compound selectors relationships =>
    obtain ⟨hsels, hall, hrelationships⟩ := h
    have hmembers := EncodesTo.each (g := id) fun s hs => encodes_member (P := P) hlen (hall s hs)
    have hcombinators : Encodes entries
        (Put.each (fun c => .bytes (writeByte (ordinal c))) relationships)
        (readMany readCombinator relationships.length) (relationships.map id) :=
      EncodesTo.each fun c _ => encodes_combinator c
    rw [map_id] at hmembers hcombinators
    refine (EncodesTo.bytes (decodes_tag rfl)).cons
      ((EncodesTo.bytes (decodes_short hsels)).cons ?_)
    rw [Int.toNat_natCast]
    refine hmembers.cons ((EncodesTo.bytes (decodes_short hrelationships)).cons ?_)
    rw [Int.toNat_natCast]
    exact hcombinators.cons (EncodesTo.done _)

/-! ## Declarations and rules -/

omit hlen in
theorem readCounted_natCast (r : DataInput α) (n : Nat) :
    readCounted r n = readMany r n := by
  rw [readCounted, if_neg (by omega), Int.toNat_natCast]

omit hlen in
theorem exists_depth {Q : α → Nat → Prop} {xs : List α}
    (h : ∀ x ∈ xs, ∃ depth0, ∀ depth, depth0 ≤ depth → Q x depth) :
    ∃ depth0, ∀ depth, depth0 ≤ depth → ∀ x ∈ xs, Q x depth := by
  induction xs with
  | nil => exact ⟨0, by simp⟩
  | cons x xs ih =>
    obtain ⟨depth1, h1⟩ := h x mem_cons_self
    obtain ⟨depth2, h2⟩ := ih fun y hy => h y (mem_cons_of_mem x hy)
    refine ⟨max depth1 depth2, fun depth hdepth y hy => ?_⟩
    rcases mem_cons.1 hy with rfl | hy
    · exact h1 depth (by omega)
    · exact h2 depth (by omega) y hy

/-- Its value reads back at every depth from some on. -/
theorem Declaration.encodes {d : Declaration P}
    (h : d.parsedValue.Persistable) : ∃ depth0, ∀ depth, depth0 ≤ depth →
      Encodes entries d.writeBinary (Declaration.readBinary entries depth) d := by
  obtain ⟨depth0, hval⟩ := d.parsedValue.encodes hlen h
  refine ⟨depth0, fun depth hdepth => ?_⟩
  exact (encodes_string hlen (some d.property)).cons ((hval depth hdepth).cons
    ((EncodesTo.bytes (Decodes.readBoolean d.important)).cons (EncodesTo.done d)))

theorem encodes_declarations
    (hlt : decls.length < 2 ^ 15) (h : ∀ d ∈ decls, d.parsedValue.Persistable) :
    ∃ depth0, ∀ depth, depth0 ≤ depth →
      Encodes entries (writeDeclarations decls) (readDeclarations entries depth) decls := by
  obtain ⟨depth0, hall⟩ := exists_depth fun d hd => Declaration.encodes hlen (h d hd)
  refine ⟨depth0, fun depth hdepth => ?_⟩
  have heach : Encodes entries (Put.each Declaration.writeBinary decls)
      (readMany (Declaration.readBinary entries depth) decls.length) (decls.map id) :=
    EncodesTo.each fun d hd => hall depth hdepth d hd
  rw [map_id] at heach
  refine (EncodesTo.bytes (decodes_short hlt)).cons ?_
  rw [readCounted_natCast]
  exact heach.last

omit hlen in
/-- The selectors and, in the end, the declarations of `r`. -/
def LoadedRule.Resolves (entries : List (Option String)) (r : Rule P) (loaded : LoadedRule) :
    Prop :=
  loaded.selectors = r.selectors ∧ ∃ decls, r.declarations = some decls ∧ ∃ depth₀, ∀ depth,
    depth₀ ≤ depth → loaded.getUnobservedDeclarationList entries depth = .ok decls

/-- The buffer of a rule's declarations reads back as a whole. -/
theorem encodes_buffered (hlt : decls.length < 2 ^ 15) (hsz : declarationsSize decls < 2 ^ 31)
    (h : ∀ d ∈ decls, d.parsedValue.Persistable) (selectors : List Selector) :
    EncodesTo entries (buffered (writeDeclarations decls)) (do
        let nBytes ← readInt
        if nBytes < 0 then throw (.exception .negativeArraySize)
        else
          let buf ← readFully nBytes.toNat
          return (⟨selectors, buf⟩ : LoadedRule))
      fun loaded => loaded.selectors = selectors ∧ ∃ depth0, ∀ depth, depth0 ≤ depth →
        loaded.getUnobservedDeclarationList entries depth = .ok decls := by
  obtain ⟨depth0, hdecls⟩ := encodes_declarations hlen hlt h
  intro table
  obtain ⟨bs, table', hok, hpre, -⟩ := hdecls depth0 (Nat.le_refl _) table
  have hlength : bs.length = declarationsSize decls := (adds_writeDeclarations decls _ _ _ hok).2
  refine ⟨writeInt bs.length ++ bs, table', ?_, hpre, fun hprefix => ?_⟩
  · simp only [buffered, hok]
    rw [if_pos (by omega)]
  · refine ⟨⟨selectors, bs⟩, ?_, rfl, depth0, fun depth hdepth => ?_⟩
    · refine (decodes_int (by omega)).bind ?_
      rw [if_neg (by omega), Int.toNat_natCast]
      exact (Decodes.readFully rfl).map (Decodes.pure _)
    · obtain ⟨bs', table'', hok', -, hdec⟩ := hdecls depth hdepth table
      rw [hok] at hok'
      cases hok'
      obtain ⟨_, hrun, rfl⟩ := hdec hprefix
      have hrun := hrun []
      rw [append_nil] at hrun
      simp only [LoadedRule.getUnobservedDeclarationList, hrun]

/-- A rule reads back as one with a buffer. -/
theorem Rule.encodes {r : Rule P} (h : r.Persistable) :
    EncodesTo entries r.writeBinary (LoadedRule.readBinary entries)
      (LoadedRule.Resolves entries r) := by
  obtain ⟨hsels, hall, hdecls⟩ := h
  cases hsome : r.declarations with
  | none =>
    rw [hsome] at hdecls
    exact hdecls.elim
  | some decls =>
    rw [hsome] at hdecls
    obtain ⟨hlt, hsz, hvalues⟩ := hdecls
    have heach : Encodes entries (Put.each (Selector.writeBinary P) r.selectors)
        (readMany (Selector.readBinary entries) r.selectors.length) (r.selectors.map id) :=
      EncodesTo.each fun s hs => Selector.encodes hlen (hall s hs)
    rw [map_id] at heach
    have hresolves := (encodes_buffered hlen hlt hsz hvalues r.selectors).imp
      (R := LoadedRule.Resolves entries r)
      fun loaded hloaded => ⟨hloaded.1, decls, hsome, hloaded.2⟩
    unfold Rule.writeBinary
    rw [hsome]
    refine (EncodesTo.bytes (decodes_short hsels)).cons ?_
    rw [readCounted_natCast]
    exact heach.cons hresolves.last

/-! ## Font faces -/

theorem FontFaceSrc.encodes {src : FontFaceSrc} (h : src.type.isSome = true) :
    Encodes entries src.writeBinary (FontFaceSrc.readBinary entries) src := by
  obtain ⟨type, src, format⟩ := src
  cases type with
  | none => cases h
  | some type =>
    have htype : FontFaceSrcType.valueOf type.name = some type := by
      cases type <;> decide
    refine (encodes_intString hlen (some type.name)).cons ?_
    simp only [htype, pure_bind]
    exact (encodes_intString hlen src).cons ((encodes_intString hlen format).cons
      (EncodesTo.done _))

omit hlen in
/-- Entries with different keys are put side by side. -/
theorem foldl_put {es : List (Option String × Option String)} {m : StringMap}
    (hm : ∀ e ∈ es, ∀ e' ∈ m.1, e'.1 ≠ e.1) (hes : es.Pairwise fun e e' => e.1 ≠ e'.1) :
    (es.foldl StringMap.put m).1 = m.1 ∪ es.toFinset := by
  induction es generalizing m with
  | nil => simp
  | cons e es ih =>
    rw [pairwise_cons] at hes
    have hput : (m.put e).1 = insert e m.1 := by
      have hfilt : (m.1.filter fun e' => e'.1 ≠ e.1) = m.1 :=
        Finset.filter_true_of_mem fun e' he' => hm e mem_cons_self e' he'
      show insert e (m.1.filter fun e' => e'.1 ≠ e.1) = _
      rw [hfilt]
    rw [foldl_cons, ih ?_ hes.2, hput]
    · simp
    · intro e' he' e'' he''
      rw [hput] at he''
      rcases Finset.mem_insert.1 he'' with rfl | he''
      · exact hes.1 e' he'
      · exact hm e' (mem_cons_of_mem e he') e'' he''

theorem FontFace.encodes {f : FontFace} (h : f.Persistable) :
    Encodes entries (f.writeBinary P) (FontFace.readBinary entries) f := by
  obtain ⟨hdescriptors, hsources, htypes⟩ := h
  set es := P.descriptors.iterate f.descriptors.1 with hes
  have hentry : ∀ e, Encodes entries (writeEntry e) (readEntry entries) e := fun e =>
    (encodes_intString hlen e.1).cons ((encodes_intString hlen e.2).cons (EncodesTo.done _))
  have hent : Encodes entries (Put.each writeEntry es) (readMany (readEntry entries) es.length)
      (es.map id) := EncodesTo.each fun e _ => hentry e
  have hsrcs : Encodes entries (Put.each FontFaceSrc.writeBinary f.sources)
      (readMany (FontFaceSrc.readBinary entries) f.sources.length) (f.sources.map id) :=
    EncodesTo.each fun src hsrc => FontFaceSrc.encodes hlen (htypes src hsrc)
  rw [map_id] at hent hsrcs
  have hmap : es.foldl StringMap.put .empty = f.descriptors := by
    apply Subtype.ext
    have hpairwise : es.Pairwise fun e e' => e.1 ≠ e'.1 := by
      refine (P.descriptors.nodup f.descriptors.1).imp_of_mem ?_
      intro e e' he he' hne hkey
      have hmem : ∀ x ∈ es, x ∈ f.descriptors.1 := fun x hx => by
        rw [← P.descriptors.toFinset f.descriptors.1]
        exact mem_toFinset.2 hx
      exact hne (f.descriptors.2 e (hmem e he) e' (hmem e' he') hkey)
    rw [foldl_put (by simp [StringMap.empty]) hpairwise]
    show ∅ ∪ es.toFinset = f.descriptors.1
    rw [Finset.empty_union, hes, P.descriptors.toFinset]
  refine (EncodesTo.bytes (decodes_short hdescriptors)).cons ?_
  rw [readCounted_natCast, ← P.descriptors.length]
  refine hent.cons ((EncodesTo.bytes (decodes_short hsources)).cons ?_)
  rw [readCounted_natCast]
  refine hsrcs.cons ?_
  rw [hmap]
  exact EncodesTo.done _

/-! ## The stylesheet -/

omit hlen in
theorem StyleOrigin.valueOf_name (origin : StyleOrigin) :
    StyleOrigin.valueOf (some origin.name) = pure origin := by
  have hfind : [StyleOrigin.userAgent, .user, .author, .inline].find? (·.name == origin.name) =
      some origin := by
    cases origin <;> decide
  simp only [StyleOrigin.valueOf, hfind]

omit hlen in
/-- What is read of a stylesheet, up to the declarations of its rules. -/
def LoadedStylesheet.Resolves (entries : List (Option String)) (s : Stylesheet P)
    (loaded : LoadedStylesheet) : Prop :=
  loaded.origin = s.origin ∧ List.Forall₂ (LoadedRule.Resolves entries) s.rules loaded.rules ∧
    loaded.fontFaces = s.fontFaces ∧ loaded.stringStore = entries

/-- A stylesheet reads back, the declarations still in buffers. -/
theorem Stylesheet.encodes (h : s.Persistable) :
    EncodesTo entries s.writeBinary (LoadedStylesheet.readBinary entries)
      (LoadedStylesheet.Resolves entries s) := by
  have hrules : EncodesTo entries (Put.each Rule.writeBinary s.rules)
      (readMany (LoadedRule.readBinary entries) s.rules.length)
      (List.Forall₂ (LoadedRule.Resolves entries) s.rules) :=
    EncodesTo.eachTo fun r hr => Rule.encodes hlen (h.rules r hr)
  have hfonts : Encodes entries (Put.each (FontFace.writeBinary P) s.fontFaces)
      (readMany (FontFace.readBinary entries) s.fontFaces.length) (s.fontFaces.map id) :=
    EncodesTo.each fun f hf => FontFace.encodes hlen (h.fontFaces f hf)
  rw [map_id] at hfonts
  refine (encodes_string hlen (some s.origin.name)).cons ?_
  rw [StyleOrigin.valueOf_name, pure_bind]
  refine (EncodesTo.bytes (decodes_short h.rules_length)).cons ?_
  rw [readCounted_natCast]
  refine (hrules.consTo (R := fun rules loaded => loaded = ⟨s.origin, rules, s.fontFaces, entries⟩)
    fun rules => ?_).imp ?_
  · refine (EncodesTo.bytes (decodes_short h.fontFaces_length)).cons ?_
    rw [Int.toNat_natCast]
    exact hfonts.cons (EncodesTo.done _)
  · rintro loaded ⟨rules, hresolves, rfl⟩
    exact ⟨rfl, hresolves, rfl, rfl⟩

end

theorem LoadedStylesheet.Resolves.resolve {loaded : LoadedStylesheet}
    (h : loaded.Resolves entries s) :
    ∃ depth0, ∀ depth, depth0 ≤ depth → loaded.resolve depth = .ok s := by
  obtain ⟨horigin, hrules, hfonts, hstore⟩ := h
  have hmap : ∀ {rules : List (Rule P)} {loadedRules : List LoadedRule},
      List.Forall₂ (LoadedRule.Resolves entries) rules loadedRules →
      ∃ depth0, ∀ depth, depth0 ≤ depth → (loadedRules.mapM fun r =>
        (r.getUnobservedDeclarationList entries depth).map fun decls =>
          (⟨r.selectors, some decls⟩ : Rule P)) = .ok rules := by
    intro rules loadedRules hall
    induction hall with
    | nil => exact ⟨0, fun _ _ => rfl⟩
    | @cons r l rules loadedRules hrule _ ih =>
      obtain ⟨hsels, decls, hdecls, depth1, hget⟩ := hrule
      obtain ⟨depth2, hrest⟩ := ih
      refine ⟨max depth1 depth2, fun depth hdepth => ?_⟩
      have hr : (⟨l.selectors, some decls⟩ : Rule P) = r := by
        rw [hsels, ← hdecls]
      simp only [mapM_cons, hget depth (by omega), hrest depth (by omega), ← hr]
      rfl
  obtain ⟨depth0, hresolve⟩ := hmap hrules
  refine ⟨depth0, fun depth hdepth => ?_⟩
  have hrun := hresolve depth hdepth
  rw [← hstore] at hrun
  simp only [LoadedStylesheet.resolve, hrun, horigin, hfonts, bind, Except.bind, pure, Except.pure]

/-! ## The string store -/

/-- Null stands at `nullIndex` alone, `k` being the first index. -/
def NullAt (nullIndex : Int) (k : Nat) (strings : List (Option String)) : Prop :=
  ∀ i, strings[i]? = some none ↔ i < strings.length ∧ ((k + i : Nat) : Int) = nullIndex

theorem nullAt_tail {nullIndex : Int} {k : Nat} {s : Option String} (h : NullAt nullIndex k
    (s :: strings)) :
    NullAt nullIndex (k + 1) strings := by
  intro i
  have hi := h (i + 1)
  rw [getElem?_cons_succ] at hi
  rw [hi]
  simp only [length_cons, Nat.add_lt_add_iff_right]
  have hcomm : k + (i + 1) = k + 1 + i := by omega
  rw [hcomm]

/-- Different strings have one null at most, which `nullIndex` finds. -/
theorem nullAt_nullIndex (h : strings.Nodup) :
    NullAt (nullIndex strings) 0 strings := by
  intro i
  unfold nullIndex
  split
  · next hmem =>
    constructor
    · intro hi
      obtain ⟨hlt, hget⟩ := List.getElem?_eq_some_iff.1 hi
      have hidx := h.idxOf_getElem i hlt
      rw [hget] at hidx
      exact ⟨hlt, by omega⟩
    · rintro ⟨_, hi⟩
      have hidx : i = strings.idxOf none := by omega
      rw [hidx]
      exact getElem?_idxOf hmem
  · next hmem =>
    constructor
    · exact fun hi => absurd (mem_of_getElem? hi) hmem
    · rintro ⟨_, hi⟩
      omega

theorem decodes_readStrings {nullIndex : Int} : ∀ {strings : List (Option String)} {k : Nat}
    {bs : List UInt8}, NullAt nullIndex k strings → writeStrings strings = .ok bs →
    Decodes (readStrings nullIndex k strings.length) bs strings
  | [], k, bs, _, hwrite => by
    cases hwrite
    exact Decodes.pure []
  | none :: strings, k, bs, hnull, hwrite => by
    have hk : (k : Int) = nullIndex := by simpa using (hnull 0).1 rfl
    rw [length_cons, readStrings, if_pos hk]
    exact (decodes_readStrings (nullAt_tail hnull) hwrite).map (Decodes.pure _)
  | some s :: strings, k, bs, hnull, hwrite => by
    have hk : ¬ (k : Int) = nullIndex := fun hk => by
      have h0 := (hnull 0).2 ⟨by simp, by simpa using hk⟩
      simp at h0
    rw [writeStrings] at hwrite
    cases hs : writeUTF s with
    | error e =>
      rw [hs] at hwrite
      cases hwrite
    | ok bytes =>
      cases hstrings : writeStrings strings with
      | error e =>
        rw [hs, hstrings] at hwrite
        cases hwrite
      | ok rest =>
        rw [hs, hstrings] at hwrite
        cases hwrite
        rw [length_cons, readStrings, if_neg hk]
        exact (decodes_readUTF hs).bind
          ((decodes_readStrings (nullAt_tail hnull) hstrings).map (Decodes.pure _))

theorem nullIndex_bmod (h : strings.length < 2 ^ 15) :
    (nullIndex strings).bmod (2 ^ 16) = nullIndex strings := by
  unfold nullIndex
  split
  · next hmem =>
    have hlt := idxOf_lt_length_iff.2 hmem
    exact bmod_short (by omega)
  · rfl

/-- The string store reads back. -/
theorem StringStore.decodes (hnd : strings.Nodup)
    (hlen : strings.length < 2 ^ 15) {bs : List UInt8}
    (h : StringStore.writeBinary strings = .ok bs) :
    Decodes StringStore.readBinary bs strings := by
  unfold StringStore.writeBinary at h
  cases hwrite : writeStrings strings with
  | error e =>
    rw [hwrite] at h
    cases h
  | ok bytes =>
    rw [hwrite] at h
    cases h
    have hnull := Decodes.readShort (nullIndex strings)
    rw [nullIndex_bmod hlen] at hnull
    refine (decodes_short hlen).bind (hnull.bind ?_)
    rw [if_neg (by omega), Int.toNat_natCast]
    exact decodes_readStrings (nullAt_nullIndex hnd) hwrite

theorem writeStrings_eq_ok_iff : (∃ bs, writeStrings strings = .ok bs) ↔
      ∀ str, some str ∈ strings → (utfBytes str).length ≤ 65535 := by
  induction strings with
  | nil => exact ⟨fun _ str hstr => absurd hstr not_mem_nil, fun _ => ⟨[], rfl⟩⟩
  | cons s strings ih =>
    cases s with
    | none =>
      show (∃ bs, writeStrings strings = .ok bs) ↔ _
      rw [ih]
      simp
    | some s =>
      have hcons : (∃ bs, writeStrings (some s :: strings) = .ok bs) ↔
          (utfBytes s).length ≤ 65535 ∧ ∃ bs, writeStrings strings = .ok bs := by
        rw [writeStrings, writeUTF]
        by_cases hs : (utfBytes s).length ≤ 65535
        · rw [if_pos hs]
          cases hwrite : writeStrings strings with
          | error e => simp [bind, Except.bind]
          | ok bs => simp [bind, Except.bind, pure, Except.pure, hs]
        · rw [if_neg hs]
          simp [bind, Except.bind, hs]
      rw [hcons, ih]
      simp

/-- A stylesheet that the format can hold reads back as it was. -/
theorem Stylesheet.Persistable.roundTrips (h : s.Persistable) :
    s.RoundTrips := by
  set entries := internAll s.strings [] with hent
  have hlen : entries.length < 2 ^ 15 := by
    rw [hent, internAll_nil_length]
    exact h.strings_card
  obtain ⟨bytes, table, hwrite, -, hdec⟩ := Stylesheet.encodes hlen.le h []
  have htable : table = entries := s.interns_writeBinary _ _ _ hwrite
  subst htable
  obtain ⟨loaded, hread, hresolves⟩ := hdec prefix_rfl
  have hutf : ∀ str, some str ∈ entries → (utfBytes str).length ≤ 65535 := fun str hstr => by
    rw [hent] at hstr
    rcases mem_internAll.1 hstr with hnil | hmem
    · exact absurd hnil not_mem_nil
    · exact h.strings_utf str hmem
  obtain ⟨strs, hstrs⟩ := writeStrings_eq_ok_iff.2 hutf
  have hstore : StringStore.writeBinary entries =
      .ok (writeShort entries.length ++ (writeShort (nullIndex entries) ++ strs)) := by
    rw [StringStore.writeBinary, hstrs]
    rfl
  have hnd : entries.Nodup := hent ▸ nodup_internAll s.strings nodup_nil
  refine ⟨writeShort entries.length ++ (writeShort (nullIndex entries) ++ strs) ++ bytes, ?_,
    loaded, ?_, hresolves.resolve⟩
  · rw [Stylesheet.toBinary, hwrite]
    show (StringStore.writeBinary entries >>= fun store => pure (store ++ bytes)) = _
    rw [hstore]
    rfl
  · have hload := (StringStore.decodes hnd hlen hstore).bind hread
    have hrun := hload []
    rwa [append_nil] at hrun

end OpenJfx.Css.Binary
