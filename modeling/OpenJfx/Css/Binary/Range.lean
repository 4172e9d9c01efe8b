/-
  OpenJfx.Css.Binary.Range

  What the readers can return, whatever the bytes: each part is persistable, and its
  strings are among those of the store it was read with and a few that the code itself
  supplies (`known`).  A stylesheet that comes back as it was is made of such parts.
-/

import OpenJfx.Css.Binary.Decoding

namespace OpenJfx.Css.Binary

open OpenJfx.DataStream OpenJfx.InternTable OpenJfx.ModifiedUtf8 List Finset Yields SimpleSelector

variable {P : Platform} {strings : List (Option String)}

/-! ## Strings -/

/-- The strings of a part that need not come from the store. -/
def known : List (Option String) :=
  [none, some "*", some "", some SizeUnits.px.name, some "dir(rtl)", some "dir(ltr)",
    some StyleConverter.enumConverter] ++
    (StyleConverter.instances.map (fun e => some e.2) ++
      StyleConverter.enumInstances.map (fun e => some e.2))

/-- All of `xs` come from the store or are known. -/
def Covered (strings xs : List (Option String)) : Prop := ∀ x ∈ xs, x ∈ strings ∨ x ∈ known

variable {α : Type}

namespace Covered

theorem nil : Covered strings [] := fun _ h => absurd h not_mem_nil

theorem cons {x : Option String} {xs : List (Option String)} (hx : x ∈ strings ∨ x ∈ known)
    (hxs : Covered strings xs) : Covered strings (x :: xs) := by
  intro y hy
  rcases mem_cons.1 hy with rfl | hy
  · exact hx
  · exact hxs y hy

theorem append {xs ys : List (Option String)} (hxs : Covered strings xs)
    (hys : Covered strings ys) : Covered strings (xs ++ ys) := by
  intro y hy
  rcases mem_append.1 hy with hy | hy
  · exact hxs y hy
  · exact hys y hy

theorem flatMap {f : α → List (Option String)} {as : List α}
    (h : ∀ a ∈ as, Covered strings (f a)) : Covered strings (as.flatMap f) := by
  intro y hy
  obtain ⟨a, ha, hya⟩ := mem_flatMap.1 hy
  exact h a ha y hya

theorem card {xs : List (Option String)} (h : Covered strings xs) :
    xs.toFinset.card ≤ strings.length + known.length := by
  have hsub : xs.toFinset ⊆ (strings ++ known).toFinset := by
    intro x hx
    rw [mem_toFinset] at hx ⊢
    exact mem_append.2 (h x hx)
  calc xs.toFinset.card ≤ (strings ++ known).toFinset.card := card_le_card hsub
    _ ≤ (strings ++ known).length := toFinset_card_le _
    _ = strings.length + known.length := length_append

end Covered

theorem yields_readString : Yields (readString strings) (· ∈ strings) :=
  yields_lookup strings readShort

/-! ## Converters -/

namespace StyleConverter

/-- What is said of a converter that has been read. -/
def Read (strings : List (Option String)) (converter : Option StyleConverter) : Prop :=
  Persistable converter ∧ Covered strings (StyleConverter.strings converter)

theorem read_none : Read strings none := ⟨trivial, Covered.nil⟩

theorem read_getInstance (cname : String) : Read strings (getInstance cname) := by
  cases hfind : instances.find? fun e => e.1 = cname with
  | none =>
    rw [getInstance, hfind]
    exact read_none
  | some e =>
    have hmem := mem_of_find?_eq_some hfind
    rw [getInstance, hfind]
    refine ⟨getInstance_self.2 (instances_closed e hmem), Covered.cons (.inr ?_) Covered.nil⟩
    exact mem_append_right _ (mem_append_left _ (mem_map_of_mem (f := fun e => some e.2) hmem))

theorem read_getEnumInstance (ename : String) : Read strings (getEnumInstance ename) := by
  cases hfind : enumInstances.find? fun e => e.1 = ename with
  | none =>
    rw [getEnumInstance, hfind]
    exact read_none
  | some e =>
    have hmem := mem_of_find?_eq_some hfind
    rw [getEnumInstance, hfind]
    refine ⟨getEnumInstance_self.2 (enumInstances_closed e hmem), Covered.cons (.inr ?_)
      (Covered.cons (.inr ?_) Covered.nil)⟩
    · exact mem_append_left _ (by simp)
    · exact mem_append_right _ (mem_append_right _ (mem_map_of_mem (f := fun e => some e.2) hmem))

theorem yields_readEnum : Yields (readEnum strings) (Read strings) := by
  refine skip fun index => skip fun ename => ?_
  cases ename with
  | none => exact pure read_none
  | some ename =>
    refine pure ?_
    split
    · exact read_none
    · exact read_getEnumInstance ename

theorem yields_readBinary : Yields (readBinary strings) (Read strings) := by
  refine skip fun hasType => ite (fun _ => ?_) fun _ => pure read_none
  refine skip fun cname => ?_
  cases cname with
  | none => exact pure read_none
  | some cname =>
    refine ite (fun _ => pure read_none) fun _ => ?_
    exact ite (fun _ => yields_readEnum) fun _ => pure (read_getInstance cname)

end StyleConverter

/-! ## Values -/

/-- What is said of a value that has been read. -/
def ParsedValueImpl.Read (strings : List (Option String)) (v : ParsedValueImpl P) : Prop :=
  v.Persistable ∧ Covered strings v.strings

/-- A value that comes out of the format. -/
def Value.Read (strings : List (Option String)) (v : Value P) : Prop :=
  v.Persistable ∧ Covered strings v.strings

/-- The elements of an array, null or not. -/
def ElementsRead (strings : List (Option String)) (values : List (Option (ParsedValueImpl P))) :
    Prop :=
  ElementsPersistable values ∧ Covered strings (elementStrings values)

theorem elementsRead_of_forall {values : List (Option (ParsedValueImpl P))}
    (h : ∀ e ∈ values, ∀ v, e = some v → v.Read strings) : ElementsRead strings values := by
  induction values with
  | nil =>
    rw [ElementsRead, ElementsPersistable, elementStrings]
    exact ⟨trivial, Covered.nil⟩
  | cons e values ih =>
    have hrest := ih fun e' he' => h e' (mem_cons_of_mem e he')
    cases e with
    | none =>
      rw [ElementsRead, ElementsPersistable, elementStrings]
      exact hrest
    | some v =>
      have hv := h (some v) mem_cons_self v rfl
      rw [ElementsRead, ElementsPersistable, elementStrings]
      exact ⟨⟨hv.1, hrest.1⟩, hv.2.append hrest.2⟩

/-- An array that has been read is null or has elements. -/
def ArrayRead (strings : List (Option String))
    (values : Option (List (Option (ParsedValueImpl P)))) : Prop :=
  ∀ vs, values = some vs → 0 < vs.length ∧ vs.length < 2 ^ 31 ∧ ElementsRead strings vs

theorem layersRead_of_forall {layers : List (Option (List (Option (ParsedValueImpl P))))}
    (h : ∀ layer ∈ layers, ArrayRead strings layer) :
    LayersPersistable layers ∧ Covered strings (layerStrings layers) := by
  induction layers with
  | nil =>
    rw [LayersPersistable, layerStrings]
    exact ⟨trivial, Covered.nil⟩
  | cons layer layers ih =>
    have hrest := ih fun layer' hl => h layer' (mem_cons_of_mem layer hl)
    cases layer with
    | none =>
      rw [LayersPersistable, layerStrings]
      exact hrest
    | some values =>
      obtain ⟨hpos, hlt, hvalues⟩ := h (some values) mem_cons_self values rfl
      rw [LayersPersistable, layerStrings]
      exact ⟨⟨⟨hpos, hlt, hvalues.1⟩, hrest.1⟩, hvalues.2.append hrest.2⟩

section Values

variable {readValue : DataInput (ParsedValueImpl P)}

section

variable (h : Yields readValue (ParsedValueImpl.Read strings))
include h

theorem yields_readElement :
    Yields (readElement readValue) fun e => ∀ v, e = some v → v.Read strings := by
  refine skip fun vtype => ite (fun _ => ?_) fun _ => pure (by simp)
  refine h.bind fun v hv => pure ?_
  intro v' hv'
  cases hv'
  exact hv

theorem yields_readArray :
    Yields (readArray readValue) (ArrayRead strings) := by
  refine skip fun _ => readInt.bind fun nVals hn => ?_
  refine ((yields_readElement h).readMany nVals.toNat).bind fun values hvalues => pure ?_
  intro vs hvs
  split at hvs
  · next hpos =>
    cases hvs
    exact ⟨by omega, by omega, elementsRead_of_forall hvalues.2⟩
  · cases hvs

omit h in
theorem value_read_null : Value.Read strings (.null : Value P) := by
  rw [Value.Read, Value.Persistable, Value.strings]
  exact ⟨trivial, Covered.nil⟩

theorem yields_readLayers :
    Yields (readLayers readValue) (Value.Read strings) := by
  refine skip fun _ => readInt.bind fun nLayers hn => ?_
  refine ((yields_readArray h).readMany nLayers.toNat).bind fun layers hlayers => pure ?_
  split
  · next hpos =>
    have hread := layersRead_of_forall hlayers.2
    rw [Value.Read, Value.Persistable, Value.strings]
    exact ⟨⟨by omega, by omega, hread.1⟩, hread.2⟩
  · exact value_read_null

omit h in
theorem yields_readSize : Yields (readSize strings) fun s =>
    some s.units.name ∈ strings ∨ some s.units.name ∈ known := by
  refine skip fun value => (yields_lookup strings readShort).bind fun units hunits =>
    pure ?_
  cases hval : SizeUnits.valueOf units with
  | none => exact .inr (mem_append_left _ (by simp))
  | some u =>
    rw [Option.getD_some, SizeUnits.name_of_valueOf hval]
    exact .inl hunits

omit h in
theorem ofString_read {s : Option String} (h : s ∈ strings) :
    Value.Read strings (ofString s : Value P) := by
  cases s with
  | none => exact value_read_null
  | some s =>
    rw [ofString, Value.Read, Value.Persistable, Value.strings]
    exact ⟨trivial, Covered.cons (.inl h) Covered.nil⟩

omit h in
theorem yields_readURL : Yields (readURL strings) (Value.Read (P := P) strings) := by
  refine (yields_lookup strings readShort).bind fun str hstr => ?_
  cases str with
  | none => exact throw _
  | some str =>
    dsimp only
    split
    · next hurl =>
      refine pure ?_
      rw [Value.Read, Value.Persistable, Value.strings]
      exact ⟨trivial, Covered.cons (.inl hstr) Covered.nil⟩
    · exact throw _

theorem yields_readTagged (valType : Int) :
    Yields (readTagged readValue strings valType) (Value.Read strings) := by
  unfold readTagged
  refine Yields.ite (fun _ => ?_) fun _ => Yields.ite (fun _ => ?_) fun _ =>
    Yields.ite (fun _ => yields_readLayers h) fun _ => Yields.ite (fun _ => ?_) fun _ =>
    Yields.ite (fun _ => ?_) fun _ => Yields.ite (fun _ => ?_) fun _ =>
    Yields.ite (fun _ => ?_) fun _ => Yields.ite (fun _ => ?_) fun _ =>
    Yields.ite (fun _ => yields_readURL) fun _ =>
    Yields.ite (fun _ => Yields.pure value_read_null) fun _ => Yields.throw _
  · refine h.bind fun v hv => pure ?_
    rw [Value.Read, Value.Persistable, Value.strings]
    exact hv
  · refine (yields_readArray h).bind fun values hvalues => ?_
    cases values with
    | none => exact pure value_read_null
    | some values =>
      obtain ⟨hpos, hlt, hread⟩ := hvalues values rfl
      refine pure ?_
      rw [Value.Read, Value.Persistable, Value.strings]
      exact ⟨⟨hpos, hlt, hread.1⟩, hread.2⟩
  · refine skip fun c => pure ?_
    rw [Value.Read, Value.Persistable, Value.strings]
    exact ⟨trivial, Covered.nil⟩
  · exact (yields_lookup strings readShort).bind fun s hs => pure (ofString_read hs)
  · refine skip fun b => pure ?_
    rw [Value.Read, Value.Persistable, Value.strings]
    exact ⟨trivial, Covered.nil⟩
  · refine yields_readSize.bind fun s hs => pure ?_
    rw [Value.Read, Value.Persistable, Value.strings]
    exact ⟨trivial, Covered.cons hs Covered.nil⟩
  · exact (yields_lookup strings readShort).bind fun s hs => pure (ofString_read hs)

end

end Values

theorem ParsedValueImpl.yields_readBinary (depth : Nat) :
    Yields (ParsedValueImpl.readBinary (P := P) strings depth) (ParsedValueImpl.Read strings) := by
  induction depth with
  | zero => exact throw _
  | succ depth ih =>
    refine skip fun lookup => StyleConverter.yields_readBinary.bind fun converter hconv =>
      skip fun valType => (yields_readTagged ih valType).bind fun value hval =>
        pure ?_
    rw [ParsedValueImpl.Read, ParsedValueImpl.Persistable, ParsedValueImpl.strings]
    exact ⟨⟨hconv.1, hval.1⟩, hconv.2.append hval.2⟩

/-! ## Selectors -/

theorem mem_of_mem_givenNames {names : List (Option String)} {name : String}
    (h : name ∈ givenNames names) : some name ∈ names := by
  obtain ⟨entry, hmem, hentry⟩ := mem_filterMap.1 h
  cases entry with
  | none => cases hentry
  | some s =>
    by_cases hs : s = ""
    · simp [hs] at hentry
    · simp only [if_neg hs, Option.some.injEq] at hentry
      exact hentry ▸ hmem

/-- A round adds a name to the set or decides the orientation, never both. -/
theorem card_foldl_pseudoStep (names : List String) (acc : Finset String × NodeOrientation) :
    (names.foldl pseudoStep acc).1.card + (directionName (names.foldl pseudoStep acc).2).length ≤
      acc.1.card + (directionName acc.2).length + names.length := by
  induction names generalizing acc with
  | nil => exact Nat.le_refl _
  | cons name names ih =>
    have hstep : (pseudoStep acc name).1.card + (directionName (pseudoStep acc name).2).length ≤
        acc.1.card + (directionName acc.2).length + 1 := by
      have hone : ∀ o : NodeOrientation, (directionName o).length ≤ 1 := fun o => by
        cases o <;> simp [directionName]
      unfold pseudoStep
      split
      · have h1 := hone (if isDirRtl name then .rightToLeft else .leftToRight)
        show acc.1.card + (directionName (if isDirRtl name then .rightToLeft
          else .leftToRight)).length ≤ _
        omega
      · have h1 := card_insert_le name acc.1
        show (insert name acc.1).card + (directionName acc.2).length ≤ _
        omega
    have hrest := ih (pseudoStep acc name)
    rw [foldl_cons, length_cons]
    omega

/-- What is said of a selector that has been read. -/
def ConstructedSelector.Read (P : Platform) (strings : List (Option String))
    (s : ConstructedSelector) : Prop :=
  s.Persistable ∧ Covered strings (simpleStrings P s)

theorem covered_names {names : List String} (h : ∀ name ∈ names, some name ∈ strings) :
    Covered strings (names.map some) := by
  intro x hx
  obtain ⟨name, hname, rfl⟩ := mem_map.1 hx
  exact .inl (h name hname)

theorem covered_directionName (orientation : NodeOrientation) :
    Covered strings ((directionName orientation).map some) := by
  cases orientation with
  | inherit => exact Covered.nil
  | leftToRight | rightToLeft => exact Covered.cons (.inr (mem_append_left _ (by simp))) Covered.nil

theorem ConstructedSelector.read_new {name id : Option String}
    {styleClasses pseudoClasses : List (Option String)} (hname : name ∈ strings)
    (hid : id ∈ strings) (hcls : ∀ c ∈ styleClasses, c ∈ strings)
    (hpseudos : ∀ p ∈ pseudoClasses, p ∈ strings) (hnClasses : styleClasses.length < 2 ^ 15)
    (hnPseudos : pseudoClasses.length < 2 ^ 15) :
    (ConstructedSelector.new name styleClasses pseudoClasses id).Read P strings := by
  have hgiven : ∀ names : List (Option String),
      (givenNames names).length ≤ names.length := fun names =>
    length_filterMap_le _ _
  have hiterate : ∀ (order : IterationOrder String) (set : Finset String) {n : String},
      n ∈ order.iterate set → n ∈ set := fun order set n hn => by
    rw [← order.toFinset set]
    exact mem_toFinset.2 hn
  refine ⟨⟨?_, ?_⟩, Covered.cons ?_ (Covered.append ?_ (Covered.cons ?_ (Covered.append ?_
    (covered_directionName _))))⟩
  · have hcard := toFinset_card_le (givenNames styleClasses)
    show (givenNames styleClasses).toFinset.card < 2 ^ 15
    exact (hcard.trans (hgiven styleClasses)).trans_lt hnClasses
  · have hcard := card_foldl_pseudoStep (givenNames pseudoClasses) (∅, .inherit)
    have hle := hgiven pseudoClasses
    show ((givenNames pseudoClasses).foldl pseudoStep (∅, .inherit)).1.card +
      (directionName ((givenNames pseudoClasses).foldl pseudoStep (∅, .inherit)).2).length < 2 ^ 15
    rw [show (∅ : Finset String).card + (directionName .inherit).length = 0 from rfl,
      Nat.zero_add] at hcard
    exact (hcard.trans hle).trans_lt hnPseudos
  · cases name with
    | none => exact .inr (mem_append_left _ (by simp [new, SimpleSelector.new]))
    | some name => exact .inl hname
  · refine covered_names fun c hc => hcls _ (mem_of_mem_givenNames ?_)
    exact mem_toFinset.1 (hiterate P.styleClasses _ hc)
  · cases id with
    | none => exact .inr (mem_append_left _ (by simp [new, SimpleSelector.new]))
    | some id => exact .inl hid
  · refine covered_names fun p hp => hpseudos _ ?_
    rcases mem_foldl_pseudoStep (hiterate P.pseudoClasses _ hp) with hemp | ⟨hgiven, -⟩
    · exact absurd hemp (notMem_empty p)
    · exact mem_of_mem_givenNames hgiven

theorem yields_many {r : DataInput α} {Q : α → Prop} (h : Yields r Q) {n : Int} (hn : n < 2 ^ 15) :
    Yields (readMany r n.toNat) fun as => as.length < 2 ^ 15 ∧ ∀ a ∈ as, Q a :=
  (h.readMany n.toNat).imp fun as has => ⟨by have := has.1; omega, has.2⟩

theorem yields_counted {r : DataInput α} {Q : α → Prop} (h : Yields r Q) {n : Int}
    (hn : n < 2 ^ 15) :
    Yields (readCounted r n) fun as => as.length < 2 ^ 15 ∧ ∀ a ∈ as, Q a :=
  ite (fun _ => throw _) fun _ => yields_many h hn

theorem yields_readSimple : Yields (readSimple strings) (ConstructedSelector.Read P strings) :=
  yields_readString.bind fun _ hname => readShort.bind fun _ hnClasses =>
    (yields_many yields_readString hnClasses).bind fun _ hcls =>
    yields_readString.bind fun _ hid => readShort.bind fun _ hnPseudos =>
    (yields_many yields_readString hnPseudos).bind fun _ hpseudos =>
    pure (ConstructedSelector.read_new hname hid hcls.2 hpseudos.2 hcls.1 hpseudos.1)

theorem yields_readMember : Yields (readMember strings) (ConstructedSelector.Read P strings) :=
  skip fun _ => ite (fun _ => yields_readSimple) fun _ => throw _

/-- What is said of a selector of either kind. -/
def Selector.Read (P : Platform) (strings : List (Option String)) (s : Selector) : Prop :=
  s.Persistable ∧ Covered strings (s.strings P)

theorem Selector.yields_readBinary :
    Yields (Selector.readBinary strings) (Selector.Read P strings) := by
  refine skip fun type => ite (fun _ => ?_) fun _ => ?_
  · exact yields_readSimple.bind fun s hs => pure hs
  · refine readShort.bind fun nSelectors hn =>
      (yields_many (yields_readMember (P := P)) hn).bind fun selectors hsels =>
      readShort.bind fun nRelationships hn' =>
      (yields_many (trivial readCombinator) hn').bind fun relationships hrelationships =>
      pure ⟨⟨hsels.1, fun s hs => (hsels.2 s hs).1, hrelationships.1⟩, ?_⟩
    exact Covered.flatMap fun s hs => (hsels.2 s hs).2

/-! ## Declarations and rules -/

/-- What is said of a declaration. -/
def Declaration.Read (strings : List (Option String)) (d : Declaration P) : Prop :=
  d.parsedValue.Persistable ∧ Covered strings d.strings

theorem Declaration.yields_readBinary (depth : Nat) :
    Yields (Declaration.readBinary (P := P) strings depth) (Declaration.Read strings) := by
  refine yields_readString.bind fun propertyName hname =>
    (ParsedValueImpl.yields_readBinary depth).bind fun parsedValue hval =>
    skip fun important => ?_
  cases propertyName with
  | none => exact throw _
  | some propertyName => exact pure ⟨hval.1, Covered.cons (.inl hname) hval.2⟩

theorem yields_readDeclarations (depth : Nat) :
    Yields (readDeclarations (P := P) strings depth) fun decls =>
      decls.length < 2 ^ 15 ∧ ∀ d ∈ decls, d.Read strings :=
  readShort.bind fun _ hn => yields_counted (Declaration.yields_readBinary depth) hn

theorem LoadedRule.declarations_read {depth : Nat} {r : LoadedRule} {decls : List (Declaration P)}
    (h : r.getUnobservedDeclarationList strings depth = .ok decls) :
    decls.length < 2 ^ 15 ∧ ∀ d ∈ decls, d.Read strings := by
  unfold LoadedRule.getUnobservedDeclarationList at h
  split at h
  · next decls' rest hrun =>
    cases h
    exact yields_readDeclarations depth _ _ _ hrun
  · cases h
    exact ⟨by simp, by simp⟩
  · cases h

/-- A rule that comes out of the format. -/
def LoadedRule.Read (P : Platform) (strings : List (Option String)) (r : LoadedRule) : Prop :=
  r.selectors.length < 2 ^ 15 ∧ ∀ s ∈ r.selectors, s.Read P strings

theorem LoadedRule.yields_readBinary :
    Yields (LoadedRule.readBinary strings) (LoadedRule.Read P strings) :=
  readShort.bind fun _ hn => (yields_counted Selector.yields_readBinary hn).bind
    fun _ hsels => skip fun _ => ite (fun _ => throw _) fun _ =>
    skip fun _ => pure hsels

/-! ## Font faces -/

theorem foldl_put_subset (es : List (Option String × Option String)) (m : StringMap) :
    (es.foldl StringMap.put m).1 ⊆ m.1 ∪ es.toFinset := by
  induction es generalizing m with
  | nil => simp
  | cons e es ih =>
    refine (ih (m.put e)).trans ?_
    intro e' he'
    have hput : (m.put e).1 ⊆ insert e m.1 := insert_subset_insert e (Finset.filter_subset _ _)
    rw [toFinset_cons]
    rcases mem_union.1 he' with he' | he'
    · rcases mem_insert.1 (hput he') with rfl | he'
      · simp
      · simp [he']
    · simp [mem_toFinset.1 he']

/-- What is said of a font face; its sources may have come without a type. -/
def FontFace.Read (P : Platform) (strings : List (Option String)) (f : FontFace) : Prop :=
  f.descriptors.1.card < 2 ^ 15 ∧ f.sources.length < 2 ^ 15 ∧ Covered strings (f.strings P)

theorem FontFaceSrc.yields_readBinary : Yields (FontFaceSrc.readBinary strings) fun src =>
    Covered strings (FontFace.sourceStrings src) := by
  refine (yields_lookup strings readInt).bind fun name hname => ?_
  refine bind (P := fun type => type.map FontFaceSrcType.name ∈ strings) ?_
    fun type htype => (yields_lookup strings readInt).bind fun src hsrc =>
      (yields_lookup strings readInt).bind fun format hformat =>
        pure (Covered.cons (.inl htype) (Covered.cons (.inl hsrc)
          (Covered.cons (.inl hformat) Covered.nil)))
  cases name with
  | none => exact pure hname
  | some name =>
    dsimp only
    cases hval : FontFaceSrcType.valueOf name with
    | none => exact throw _
    | some type =>
      have hname' : type.name = name := by simpa using find?_some hval
      refine pure ?_
      rw [Option.map_some, hname']
      exact hname

theorem yields_readEntry : Yields (readEntry strings) fun e => e.1 ∈ strings ∧ e.2 ∈ strings :=
  (yields_lookup strings readInt).bind fun _ hkey =>
    (yields_lookup strings readInt).bind fun _ hval => pure ⟨hkey, hval⟩

theorem FontFace.yields_readBinary :
    Yields (FontFace.readBinary strings) (FontFace.Read P strings) := by
  refine readShort.bind fun nEntries hn =>
    (yields_counted yields_readEntry hn).bind fun entries hent =>
    readShort.bind fun nSources hn' =>
    (yields_counted FontFaceSrc.yields_readBinary hn').bind fun sources hsources =>
    pure ?_
  have hsub : (entries.foldl StringMap.put .empty).1 ⊆ entries.toFinset := by
    have h := foldl_put_subset entries .empty
    rwa [show StringMap.empty.1 = ∅ from rfl, empty_union] at h
  refine ⟨?_, hsources.1, Covered.append (Covered.flatMap ?_) (Covered.flatMap hsources.2)⟩
  · have hcard := (card_le_card hsub).trans (toFinset_card_le entries)
    exact hcard.trans_lt hent.1
  · intro e he
    have hmem : e ∈ entries.toFinset := by
      refine hsub ?_
      rw [← P.descriptors.toFinset (entries.foldl StringMap.put .empty).1]
      exact mem_toFinset.2 he
    have hboth := hent.2 e (mem_toFinset.1 hmem)
    exact Covered.cons (.inl hboth.1) (Covered.cons (.inl hboth.2) Covered.nil)

/-! ## Stylesheets -/

/-- What is said of a stylesheet that has been read. -/
structure LoadedStylesheet.Read (P : Platform) (strings : List (Option String))
    (s : LoadedStylesheet) : Prop where
  origin : some s.origin.name ∈ strings
  rules_length : s.rules.length < 2 ^ 15
  rules : ∀ r ∈ s.rules, r.Read P strings
  fontFaces_length : s.fontFaces.length < 2 ^ 15
  fontFaces : ∀ f ∈ s.fontFaces, f.Read P strings
  stringStore : s.stringStore = strings

theorem yields_valueOf (name : Option String) :
    Yields (StyleOrigin.valueOf name) fun origin => name = some origin.name := by
  cases name with
  | none => exact throw _
  | some name =>
    unfold StyleOrigin.valueOf
    dsimp only
    split
    · next origin hfind =>
      have hname : origin.name = name := by simpa using find?_some hfind
      exact pure (by rw [hname])
    · exact throw _

theorem LoadedStylesheet.yields_readBinary :
    Yields (LoadedStylesheet.readBinary strings) (LoadedStylesheet.Read P strings) :=
  yields_readString.bind fun name hname => (yields_valueOf name).bind fun _ horigin =>
    readShort.bind fun _ hn => (yields_counted LoadedRule.yields_readBinary hn).bind
    fun _ hrules => readShort.bind fun _ hn' =>
    (yields_many FontFace.yields_readBinary hn').bind fun _ hfonts =>
    pure ⟨horigin ▸ hname, hrules.1, hrules.2, hfonts.1, hfonts.2, rfl⟩

end OpenJfx.Css.Binary
