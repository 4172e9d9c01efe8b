/-
  OpenJfx.Css.Binary.Persistable

  Which stylesheets survive being written and read: `Persistable`.  Counts written as `short` must
  be below 2^15; a rule needs a list of declarations, whose bytes a buffer can hold; no array of a
  value may be empty; enum constants and other objects do not come back; a converter must be found
  again by the name of its class.
-/

import OpenJfx.Css.Binary.Stylesheet

namespace OpenJfx.Css.Binary

open List hiding lookup

open OpenJfx.DataStream OpenJfx.InternTable OpenJfx.ModifiedUtf8

variable {P : Platform}

/-! ## Converters and values -/

variable {table : List (String × String)} {p : Put (Option String)}

namespace StyleConverter

/-- The name of the class leads back to the converter. -/
def Persistable : Option StyleConverter → Prop
  | some (.impl className) => getInstance className = some (.impl className)
  | some (.enum enumClass) => getEnumInstance enumClass = some (.enum enumClass)
  | some .foreign => False
  | none => True

/-- What goes into the string store. -/
def strings : Option StyleConverter → List (Option String)
  | some (.impl className) => [some className]
  | some (.enum enumClass) => [some enumConverter, some enumClass]
  | some .foreign | none => []

/-- How many bytes are written. -/
def binarySize : Option StyleConverter → Nat
  | some (.impl _) => 3
  | some (.enum _) => 5
  | some .foreign | none => 1

theorem adds_writeBinary (converter : Option StyleConverter) :
    Adds (writeBinary converter) (strings converter) (binarySize converter) := by
  match converter with
  | some (.impl className) =>
    exact (Adds.bytes _).cons ((Adds.index writeShort_length _).cons Adds.done)
  | some (.enum enumClass) =>
    exact (Adds.bytes _).cons ((Adds.index writeShort_length _).cons
      ((Adds.index writeShort_length _).cons Adds.done))
  | some .foreign | none => exact Adds.bytes _

theorem isPrefixOf_ofList {name : List Char} (h : List.isPrefixOf ['c', 'o', 'm', '.', 's', 'u', 'n',
    '.', 'j', 'a', 'v', 'a', 'f', 'x', '.', 'c', 's', 's', '.', 'c', 'o', 'n', 'v', 'e', 'r', 't',
    'e', 'r', 's', '.', 'E', 'n', 'u', 'm', 'C', 'o', 'n', 'v', 'e', 'r', 't', 'e', 'r'] name = false) :
    enumConverter.toList.isPrefixOf (String.ofList name).toList = false := by
  rw [enumConverter, String.toList_ofList, String.toList_ofList]
  exact h

/-- No class of the table would be taken for an `EnumConverter`. -/
theorem instances_not_enum : ∀ e ∈ instances,
    enumConverter.toList.isPrefixOf e.1.toList = false := by
  simp only [instances, forall_mem_cons]
  repeat' apply And.intro
  all_goals first
    | exact isPrefixOf_ofList rfl
    | simp

theorem instances_names (e : String × String) (he : e ∈ instances) :
    e.1 ≠ "" ∧ enumConverter.toList.isPrefixOf e.1.toList = false := by
  refine ⟨?_, instances_not_enum e he⟩
  have h : ∀ e ∈ instances, e.1 ≠ "" := by simp [instances]
  exact h e he

theorem enumInstances_names : ∀ e ∈ enumInstances, e.1 ≠ "" := by
  simp [enumInstances]

/-- `String.hashCode` without the overflow. -/
def hashCode (s : String) : Nat := s.toList.foldl (fun h c => 31 * h + c.toNat) 0

theorem hashCodes_cons {cs : List Char} {names : List String} {codes : List Nat}
    (h : names.map hashCode = codes) : (String.ofList cs :: names).map hashCode =
      cs.foldl (fun h c => 31 * h + c.toNat) 0 :: codes := by
  rw [map_cons, h, hashCode, String.toList_ofList]

theorem nodup_of_hashCodes {names : List String} {codes : List Nat}
    (h : names.map hashCode = codes) (hnodup : codes.Nodup) : names.Nodup := by
  rw [← h] at hnodup
  exact hnodup.of_map hashCode

set_option maxRecDepth 8000 in
theorem instances_keys : (instances.map Prod.fst).Nodup := by
  simp only [instances, map_cons, map_nil]
  apply nodup_of_hashCodes
  · repeat' apply hashCodes_cons
    exact map_nil
  · decide

theorem enumInstances_keys : (enumInstances.map Prod.fst).Nodup := by
  simp only [enumInstances, map_cons, map_nil]
  apply nodup_of_hashCodes
  · repeat' apply hashCodes_cons
    exact map_nil
  · decide

theorem closed_of (h : ∀ e ∈ table, e.1 = e.2 ∨ (e.2, e.2) ∈ table) :
    ∀ e ∈ table, (e.2, e.2) ∈ table := by
  intro e he
  rcases h e he with heq | hmem
  · rwa [show (e.2, e.2) = e from Prod.ext heq.symm rfl]
  · exact hmem

/-- A former name leads to a class that is found by its own name, too. -/
theorem instances_closed : ∀ e ∈ instances, (e.2, e.2) ∈ instances := by
  apply closed_of
  simp only [instances, forall_mem_cons]
  repeat' apply And.intro
  all_goals first
    | exact Or.inl rfl
    | exact Or.inr (by repeat first | exact .head _ | apply Mem.tail)
    | simp

theorem enumInstances_closed : ∀ e ∈ enumInstances, (e.2, e.2) ∈ enumInstances := by
  apply closed_of
  simp only [enumInstances, forall_mem_cons]
  repeat' apply And.intro
  all_goals first
    | exact Or.inl rfl
    | exact Or.inr (by repeat first | exact .head _ | apply Mem.tail)
    | simp

theorem find?_key (hkeys : (table.map Prod.fst).Nodup)
    {e : String × String} (he : e ∈ table) : (table.find? fun e' => e'.1 = e.1) = some e := by
  induction table with
  | nil => cases he
  | cons e' table ih =>
    rw [map_cons, nodup_cons] at hkeys
    rcases mem_cons.1 he with rfl | he
    · simp
    · have hne : e'.1 ≠ e.1 := fun h => hkeys.1 (h ▸ mem_map_of_mem he)
      rw [find?_cons_of_neg (by simpa using hne)]
      exact ih hkeys.2 he

/-- The converter of a class is found by the name of the class. -/
theorem find?_self (hkeys : (table.map Prod.fst).Nodup)
    {f : String → StyleConverter} (hf : Function.Injective f) {name : String} :
    ((table.find? fun e => e.1 = name).map fun e => f e.2) = some (f name) ↔
      (name, name) ∈ table := by
  constructor
  · intro h
    obtain ⟨e, he, heq⟩ := Option.map_eq_some_iff.1 h
    have hkey : e.1 = name := by simpa using find?_some he
    have hmem := mem_of_find?_eq_some he
    rwa [show e = (name, name) from Prod.ext hkey (hf heq)] at hmem
  · intro h
    rw [find?_key hkeys h]
    rfl

theorem getInstance_self {className : String} :
    getInstance className = some (.impl className) ↔ (className, className) ∈ instances :=
  find?_self instances_keys fun _ _ => StyleConverter.impl.inj

theorem getEnumInstance_self {enumClass : String} :
    getEnumInstance enumClass = some (.enum enumClass) ↔
      (enumClass, enumClass) ∈ enumInstances :=
  find?_self enumInstances_keys fun _ _ => StyleConverter.enum.inj

end StyleConverter

mutual

/-- What the format can hold. -/
def ParsedValueImpl.Persistable : ParsedValueImpl P → Prop
  | .mk value converter _ => StyleConverter.Persistable converter ∧ value.Persistable

def Value.Persistable : Value P → Prop
  | .value v => v.Persistable
  | .array values => 0 < values.length ∧ values.length < 2 ^ 31 ∧ ElementsPersistable values
  | .layers layers => 0 < layers.length ∧ layers.length < 2 ^ 31 ∧ LayersPersistable layers
  | .enum _ _ | .other => False
  | .null | .string _ | .color _ | .boolean _ | .url _ | .size _ => True

def ElementsPersistable : List (Option (ParsedValueImpl P)) → Prop
  | [] => True
  | none :: values => ElementsPersistable values
  | some v :: values => v.Persistable ∧ ElementsPersistable values

def LayersPersistable : List (Option (List (Option (ParsedValueImpl P)))) → Prop
  | [] => True
  | none :: layers => LayersPersistable layers
  | some values :: layers =>
    (0 < values.length ∧ values.length < 2 ^ 31 ∧ ElementsPersistable values) ∧
      LayersPersistable layers

end

mutual

/-- What goes into the string store, in the order of writing. -/
def ParsedValueImpl.strings : ParsedValueImpl P → List (Option String)
  | .mk value converter _ => StyleConverter.strings converter ++ value.strings

def Value.strings : Value P → List (Option String)
  | .value v => v.strings
  | .array values => elementStrings values
  | .layers layers => layerStrings layers
  | .string s => [some s]
  | .enum _ name => [some name]
  | .url u => [some u.1]
  | .size s => [some s.units.name]
  | .null | .color _ | .boolean _ | .other => []

def elementStrings : List (Option (ParsedValueImpl P)) → List (Option String)
  | [] => []
  | none :: values => elementStrings values
  | some v :: values => v.strings ++ elementStrings values

def layerStrings : List (Option (List (Option (ParsedValueImpl P)))) → List (Option String)
  | [] => []
  | none :: layers => layerStrings layers
  | some values :: layers => elementStrings values ++ layerStrings layers

end

mutual

/-- How many bytes are written. -/
def ParsedValueImpl.binarySize : ParsedValueImpl P → Nat
  | .mk value converter _ => 1 + (StyleConverter.binarySize converter + value.binarySize)

def Value.binarySize : Value P → Nat
  | .null => 1
  | .value v => 1 + v.binarySize
  | .array values => 6 + elementsSize values
  | .layers layers => 6 + layersSize layers
  | .string _ | .enum _ _ | .url _ => 3
  | .color _ => 33
  | .boolean _ => 2
  | .size _ => 11
  | .other => 0

def elementsSize : List (Option (ParsedValueImpl P)) → Nat
  | [] => 0
  | none :: values => 1 + elementsSize values
  | some v :: values => 1 + v.binarySize + elementsSize values

def layersSize : List (Option (List (Option (ParsedValueImpl P)))) → Nat
  | [] => 0
  | none :: layers => 5 + layersSize layers
  | some values :: layers => 5 + elementsSize values + layersSize layers

end

theorem Adds.of_eq {xs ys : List (Option String)} {m n : Nat}
    (h : Adds p xs m) (hxs : xs = ys) (hmn : m = n) : Adds p ys n := by
  subst hxs hmn
  exact h

mutual

theorem ParsedValueImpl.adds_writeBinary : (v : ParsedValueImpl P) →
    Adds v.writeBinary v.strings v.binarySize
  | .mk value converter lookup => by
    have h := (Adds.bytes (writeBoolean lookup)).cons
      ((StyleConverter.adds_writeBinary converter).cons (value.adds_writeBinary.cons Adds.done))
    rw [ParsedValueImpl.writeBinary]
    exact Adds.of_eq h (by simp [ParsedValueImpl.strings])
      (by simp [ParsedValueImpl.binarySize])

theorem Value.adds_writeBinary : (v : Value P) → Adds v.writeBinary v.strings v.binarySize
  | .null => by
    rw [Value.writeBinary]
    exact Adds.bytes _
  | .value v => by
    rw [Value.writeBinary]
    exact Adds.of_eq ((Adds.bytes _).cons (v.adds_writeBinary.cons Adds.done))
      (by simp [Value.strings]) (by simp [Value.binarySize])
  | .array values => by
    rw [Value.writeBinary]
    exact Adds.of_eq ((Adds.bytes _).cons ((Adds.bytes _).cons ((Adds.bytes _).cons
      ((adds_writeElements values).cons Adds.done))))
      (by simp [Value.strings]) (by simp [Value.binarySize]; omega)
  | .layers layers => by
    rw [Value.writeBinary]
    exact Adds.of_eq ((Adds.bytes _).cons ((Adds.bytes _).cons ((Adds.bytes _).cons
      ((adds_writeLayers layers).cons Adds.done))))
      (by simp [Value.strings]) (by simp [Value.binarySize]; omega)
  | .color c => by
    rw [Value.writeBinary]
    exact (Adds.bytes _).cons ((Adds.bytes _).cons ((Adds.bytes _).cons ((Adds.bytes _).cons
      ((Adds.bytes _).cons Adds.done))))
  | .enum _ name => by
    rw [Value.writeBinary]
    exact (Adds.bytes _).cons ((Adds.index writeShort_length _).cons Adds.done)
  | .boolean b => by
    rw [Value.writeBinary]
    exact (Adds.bytes _).cons ((Adds.bytes _).cons Adds.done)
  | .size s => by
    rw [Value.writeBinary]
    exact (Adds.bytes _).cons ((Adds.bytes _).cons
      ((Adds.index writeShort_length _).cons Adds.done))
  | .string s | .url u => by
    rw [Value.writeBinary]
    exact (Adds.bytes _).cons ((Adds.index writeShort_length _).cons Adds.done)
  | .other => by
    rw [Value.writeBinary]
    exact Adds.throw _ _ _

theorem adds_writeElements : (values : List (Option (ParsedValueImpl P))) →
    Adds (writeElements values) (elementStrings values) (elementsSize values)
  | [] => by
    rw [writeElements]
    exact Adds.done
  | none :: values => by
    rw [writeElements]
    exact Adds.of_eq (((Adds.bytes _).cons Adds.done).seq (adds_writeElements values))
      (by simp [elementStrings]) (by simp [elementsSize])
  | some v :: values => by
    rw [writeElements]
    exact Adds.of_eq (((Adds.bytes _).cons (v.adds_writeBinary.cons Adds.done)).seq
      (adds_writeElements values)) (by simp [elementStrings]) (by simp [elementsSize])

theorem adds_writeLayers : (layers : List (Option (List (Option (ParsedValueImpl P))))) →
    Adds (writeLayers layers) (layerStrings layers) (layersSize layers)
  | [] => by
    rw [writeLayers]
    exact Adds.done
  | none :: layers => by
    rw [writeLayers]
    exact Adds.of_eq (((Adds.bytes _).cons ((Adds.bytes _).cons Adds.done)).seq
      (adds_writeLayers layers)) (by simp [layerStrings]) (by simp [layersSize])
  | some values :: layers => by
    rw [writeLayers]
    exact Adds.of_eq (((Adds.bytes _).cons ((Adds.bytes _).cons
      ((adds_writeElements values).cons Adds.done))).seq (adds_writeLayers layers))
      (by simp [layerStrings]) (by simp [layersSize]; omega)

end

/-! ## Selectors, rules, font faces and stylesheets -/

/-- The names that a selector writes. -/
def simpleStrings (P : Platform) (selector : ConstructedSelector) : List (Option String) :=
  let s := selector.1
  some s.name :: ((P.styleClasses.iterate s.styleClassSet).map some ++
    (some s.id :: ((P.pseudoClasses.iterate s.pseudoClassState).map some ++
      (directionName s.nodeOrientation).map some)))

/-- Its counts are shorts. -/
def ConstructedSelector.Persistable (selector : ConstructedSelector) : Prop :=
  selector.1.styleClassSet.card < 2 ^ 15 ∧
    selector.1.pseudoClassState.card + (directionName selector.1.nodeOrientation).length < 2 ^ 15

namespace Selector

def Persistable : Selector → Prop
  | .simple s => s.Persistable
  | .compound selectors relationships =>
    selectors.length < 2 ^ 15 ∧ (∀ s ∈ selectors, s.Persistable) ∧ relationships.length < 2 ^ 15

def strings (P : Platform) : Selector → List (Option String)
  | .simple s => simpleStrings P s
  | .compound selectors _ => selectors.flatMap (simpleStrings P)

end Selector

namespace Declaration

def strings (d : Declaration P) : List (Option String) := some d.property :: d.parsedValue.strings

def binarySize (d : Declaration P) : Nat := 3 + d.parsedValue.binarySize

end Declaration

/-- The number of bytes that the declarations of a rule take. -/
def declarationsSize (decls : List (Declaration P)) : Nat :=
  2 + (decls.map Declaration.binarySize).sum

namespace Rule

/-- There are declarations, even if none. -/
def Persistable (r : Rule P) : Prop :=
  r.selectors.length < 2 ^ 15 ∧ (∀ s ∈ r.selectors, s.Persistable) ∧
    match r.declarations with
    | some decls =>
      decls.length < 2 ^ 15 ∧ declarationsSize decls < 2 ^ 31 ∧
        ∀ d ∈ decls, d.parsedValue.Persistable
    | none => False

def strings (r : Rule P) : List (Option String) :=
  r.selectors.flatMap (Selector.strings P) ++ (r.declarations.getD []).flatMap Declaration.strings

end Rule

namespace FontFace

def Persistable (f : FontFace) : Prop :=
  f.descriptors.1.card < 2 ^ 15 ∧ f.sources.length < 2 ^ 15 ∧
    ∀ src ∈ f.sources, src.type.isSome = true

def sourceStrings (src : FontFaceSrc) : List (Option String) :=
  [src.type.map FontFaceSrcType.name, src.src, src.format]

def strings (P : Platform) (f : FontFace) : List (Option String) :=
  (P.descriptors.iterate f.descriptors.1).flatMap (fun e => [e.1, e.2]) ++
    f.sources.flatMap sourceStrings

end FontFace

namespace Stylesheet

/-- All strings of a stylesheet, as they are put into the store. -/
def strings (s : Stylesheet P) : List (Option String) :=
  some s.origin.name :: (s.rules.flatMap Rule.strings ++ s.fontFaces.flatMap (FontFace.strings P))

/-- The condition under which a stylesheet survives. -/
structure Persistable (s : Stylesheet P) : Prop where
  rules_length : s.rules.length < 2 ^ 15
  rules : ∀ r ∈ s.rules, r.Persistable
  fontFaces_length : s.fontFaces.length < 2 ^ 15
  fontFaces : ∀ f ∈ s.fontFaces, f.Persistable
  strings_card : s.strings.toFinset.card < 2 ^ 15
  strings_utf : ∀ str, some str ∈ s.strings → (utfBytes str).length ≤ 65535

end Stylesheet

/-! ## What is put into the store -/

theorem interns_writeNames (names : List String) :
    Interns (Put.each writeName names) (names.map some) := by
  rw [map_eq_flatMap]
  exact Interns.each fun name _ => Interns.index writeShort (some name)

theorem interns_writeSimple (selector : ConstructedSelector) :
    Interns (writeSimple P selector) (simpleStrings P selector) := by
  have h := (Interns.bytes (writeByte TYPE_SIMPLE)).cons
    ((Interns.index writeShort (some selector.1.name)).cons
      ((Interns.bytes (writeShort selector.1.styleClassSet.card)).cons
        ((interns_writeNames (P.styleClasses.iterate selector.1.styleClassSet)).cons
          ((Interns.index writeShort (some selector.1.id)).cons
            ((Interns.bytes (writeShort (selector.1.pseudoClassState.card +
              (directionName selector.1.nodeOrientation).length : Nat))).cons
              ((interns_writeNames (P.pseudoClasses.iterate selector.1.pseudoClassState)).cons
                ((interns_writeNames (directionName selector.1.nodeOrientation)).cons
                  Interns.done)))))))
  simp only [nil_append, append_nil, singleton_append] at h
  exact h

theorem Selector.interns_writeBinary (s : Selector) :
    Interns (s.writeBinary P) (s.strings P) := by
  cases s with
  | simple s => exact interns_writeSimple s
  | compound selectors relationships =>
    have h1 : Interns (Put.each (writeSimple P) selectors)
        (selectors.flatMap (simpleStrings P)) := Interns.each fun s _ => interns_writeSimple s
    have h2 : Interns (Put.each (fun c => .bytes (writeByte (ordinal c))) relationships)
        (relationships.flatMap fun _ => ([] : List (Option String))) :=
      Interns.each fun c _ => Interns.bytes _
    have h := (Interns.bytes (writeByte TYPE_COMPOUND)).cons ((Interns.bytes (writeShort
      selectors.length)).cons (h1.cons ((Interns.bytes (writeShort relationships.length)).cons
        (h2.cons Interns.done))))
    have hnil : relationships.flatMap (fun _ => ([] : List (Option String))) = [] := by simp
    simp only [hnil, nil_append, append_nil] at h
    exact h

theorem Declaration.adds_writeBinary (d : Declaration P) :
    Adds d.writeBinary d.strings d.binarySize := by
  have hname : Adds (writeName d.property) [some d.property] 2 := Adds.index writeShort_length _
  have h := hname.cons (d.parsedValue.adds_writeBinary.cons
    ((Adds.bytes (writeBoolean d.important)).cons Adds.done))
  exact Adds.of_eq h (by simp [Declaration.strings]) (by simp [Declaration.binarySize]; omega)

theorem adds_writeDeclarations (decls : List (Declaration P)) :
    Adds (writeDeclarations decls) (decls.flatMap Declaration.strings)
      (declarationsSize decls) := by
  have heach : Adds (Put.each Declaration.writeBinary decls) (decls.flatMap Declaration.strings)
      (decls.map Declaration.binarySize).sum :=
    Adds.each fun d _ => Declaration.adds_writeBinary d
  have h := (Adds.bytes (writeShort decls.length)).cons (heach.cons Adds.done)
  exact Adds.of_eq h (by simp) (by simp [declarationsSize])

theorem buffered_eq_ok {xs : List (Option String)} {n : Nat}
    (hp : Adds p xs n) {table table' : List (Option String)} {bs : List UInt8}
    (h : buffered p table = .ok (bs, table')) : n < 2 ^ 31 ∧ table' = internAll xs table := by
  unfold buffered at h
  split at h
  · cases h
  · next bs1 table1 hok =>
    obtain ⟨htable, hlen⟩ := hp _ _ _ hok
    split at h
    · next hlt =>
      cases h
      exact ⟨hlen ▸ hlt, htable⟩
    · cases h

theorem Rule.interns_writeBinary (r : Rule P) : Interns r.writeBinary r.strings := by
  have hsels : Interns (Put.each (Selector.writeBinary P) r.selectors)
      (r.selectors.flatMap (Selector.strings P)) :=
    Interns.each fun s _ => Selector.interns_writeBinary s
  have hcnt : Interns (Put.bytes (writeShort r.selectors.length)) ([] : List (Option String)) :=
    Interns.bytes _
  unfold Rule.writeBinary Rule.strings
  cases r.declarations with
  | none =>
    have h := hcnt.cons (hsels.cons ((Interns.bytes (writeShort 0)).cons Interns.done))
    simp only [nil_append, append_nil] at h
    simpa using h
  | some decls =>
    have hbuffered : Interns (buffered (writeDeclarations decls))
        (decls.flatMap Declaration.strings) :=
      fun table bs table' hok => (buffered_eq_ok (adds_writeDeclarations decls) hok).2
    have h := hcnt.cons (hsels.cons (hbuffered.cons Interns.done))
    simp only [nil_append, append_nil] at h
    exact h

theorem FontFaceSrc.interns_writeBinary (src : FontFaceSrc) :
    Interns src.writeBinary (FontFace.sourceStrings src) := by
  unfold FontFaceSrc.writeBinary FontFace.sourceStrings
  cases src.type with
  | none => exact Interns.throw _ _
  | some type =>
    exact (Interns.index writeInt _).cons ((Interns.index writeInt _).cons
      ((Interns.index writeInt _).cons Interns.done))

theorem FontFace.interns_writeBinary (f : FontFace) :
    Interns (f.writeBinary P) (f.strings P) := by
  have h1 : Interns (Put.each writeEntry (P.descriptors.iterate f.descriptors.1))
      ((P.descriptors.iterate f.descriptors.1).flatMap fun e => [e.1, e.2]) :=
    Interns.each fun e _ =>
      (Interns.index writeInt e.1).cons ((Interns.index writeInt e.2).cons Interns.done)
  have h2 : Interns (Put.each FontFaceSrc.writeBinary f.sources)
      (f.sources.flatMap sourceStrings) :=
    Interns.each fun src _ => FontFaceSrc.interns_writeBinary src
  have h := (Interns.bytes (writeShort f.descriptors.1.card)).cons (h1.cons
    ((Interns.bytes (writeShort f.sources.length)).cons (h2.cons Interns.done)))
  simp only [nil_append, append_nil] at h
  exact h

theorem Stylesheet.interns_writeBinary (s : Stylesheet P) :
    Interns s.writeBinary s.strings := by
  have h1 : Interns (Put.each Rule.writeBinary s.rules) (s.rules.flatMap Rule.strings) :=
    Interns.each fun r _ => Rule.interns_writeBinary r
  have h2 : Interns (Put.each (FontFace.writeBinary P) s.fontFaces)
      (s.fontFaces.flatMap (FontFace.strings P)) :=
    Interns.each fun f _ => FontFace.interns_writeBinary f
  have h := (Interns.index writeShort (some s.origin.name)).cons
    ((Interns.bytes (writeShort s.rules.length)).cons (h1.cons
      ((Interns.bytes (writeShort s.fontFaces.length)).cons (h2.cons Interns.done))))
  simp only [nil_append, append_nil, singleton_append] at h
  exact h

end OpenJfx.Css.Binary
