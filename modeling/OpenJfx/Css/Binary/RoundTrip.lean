/-
  OpenJfx.Css.Binary.RoundTrip

  A stylesheet survives being written and read if and only if it is persistable. What comes back
  has been read, and what has been read is persistable part by part.
-/

import OpenJfx.Css.Binary.Range

namespace OpenJfx.Css.Binary

open OpenJfx.DataStream OpenJfx.InternTable OpenJfx.ModifiedUtf8 List Finset

variable {P : Platform} {strings : List (Option String)}

/-! ## What writing tells -/

theorem Rule.declarationsSize_lt {r : Rule P} {table table' : List (Option String)}
    {bs : List UInt8} (h : r.writeBinary table = .ok (bs, table')) {decls : List (Declaration P)}
    (hdecls : r.declarations = some decls) : declarationsSize decls < 2 ^ 31 := by
  unfold Rule.writeBinary at h
  rw [hdecls] at h
  obtain ⟨table1, bs1, table2, hok⟩ := Put.all_eq_ok h
    (p := buffered (writeDeclarations decls)) (by simp)
  exact (buffered_eq_ok (adds_writeDeclarations decls) hok).1

theorem FontFace.types_isSome {f : FontFace} {table table' : List (Option String)}
    {bs : List UInt8} (h : f.writeBinary P table = .ok (bs, table')) :
    ∀ src ∈ f.sources, src.type.isSome = true := by
  intro src hsrc
  obtain ⟨_, _, _, hsources⟩ := Put.all_eq_ok h
    (p := Put.each FontFaceSrc.writeBinary f.sources) (by simp)
  obtain ⟨_, _, _, hok⟩ := Put.each_eq_ok hsources hsrc
  unfold FontFaceSrc.writeBinary at hok
  cases htype : src.type with
  | none =>
    rw [htype] at hok
    cases hok
  | some type => rfl

variable {s : Stylesheet P}

theorem Stylesheet.toBinary_eq_ok {bytes : List UInt8} (h : s.toBinary = .ok bytes) :
    ∃ body table strs, s.writeBinary [] = .ok (body, table) ∧ writeStrings table = .ok strs ∧
      bytes = writeShort table.length ++ (writeShort (nullIndex table) ++ strs) ++ body := by
  unfold Stylesheet.toBinary at h
  cases hwrite : s.writeBinary [] with
  | error e =>
    rw [hwrite] at h
    cases h
  | ok result =>
    obtain ⟨body, table⟩ := result
    rw [hwrite] at h
    change (StringStore.writeBinary table >>= fun store => pure (store ++ body)) = _ at h
    unfold StringStore.writeBinary at h
    cases hstrs : writeStrings table with
    | error e =>
      rw [hstrs] at h
      cases h
    | ok strs =>
      rw [hstrs] at h
      cases h
      exact ⟨body, table, strs, rfl, hstrs, rfl⟩

/-! ## What reading tells -/

theorem yields_readStrings (nullIndex : Int) (k count : Nat) :
    Yields (readStrings nullIndex k count) fun strings => strings.length = count := by
  induction count generalizing k with
  | zero => exact Yields.pure rfl
  | succ count ih =>
    unfold readStrings
    refine Yields.ite (fun _ => ?_) fun _ => Yields.skip fun s => ?_
    · exact (ih (k + 1)).bind fun strings hlen => Yields.pure (by simp [hlen])
    · exact (ih (k + 1)).bind fun strings hlen => Yields.pure (by simp [hlen])

/-- The number of strings is what the `short` at the front says. -/
theorem StringStore.length_of_run {n : Int} {bytes rest : List UInt8}
    (h : StringStore.readBinary.run (writeShort n ++ bytes) = .ok (strings, rest)) :
    n.bmod (2 ^ 16) = strings.length := by
  obtain ⟨m, bytes', hm, hrun⟩ := run_bind_eq_ok h
  rw [Decodes.readShort n bytes] at hm
  cases hm
  have hyields : Yields (do
      let nullIndex ← readShort
      if n.bmod (2 ^ 16) < 0 then throw (.exception .negativeArraySize)
      else readStrings nullIndex 0 (n.bmod (2 ^ 16)).toNat)
      fun strings => n.bmod (2 ^ 16) = strings.length := by
    refine Yields.skip fun nullIndex => Yields.ite (fun _ => Yields.throw _) fun hnn => ?_
    exact (yields_readStrings nullIndex 0 _).imp fun strings hlen => by omega
  exact hyields _ _ _ hrun

theorem forall₂_of_mapM {α β ε : Type} {f : α → Except ε β} {as : List α} {bs : List β}
    (h : as.mapM f = .ok bs) : List.Forall₂ (fun a b => f a = .ok b) as bs := by
  induction as generalizing bs with
  | nil =>
    cases h
    exact .nil
  | cons a as ih =>
    rw [mapM_cons] at h
    cases ha : f a with
    | error e =>
      rw [ha] at h
      cases h
    | ok b =>
      cases has : as.mapM f with
      | error e =>
        rw [ha, has] at h
        cases h
      | ok bs' =>
        rw [ha, has] at h
        cases h
        exact .cons ha (ih has)

theorem exists_left_of_forall₂ {α β : Type} {R : α → β → Prop} {as : List α} {bs : List β}
    (h : List.Forall₂ R as bs) {b : β} (hb : b ∈ bs) : ∃ a ∈ as, R a b := by
  obtain ⟨i, hi, rfl⟩ := getElem_of_mem hb
  have hlt : i < as.length := h.length_eq ▸ hi
  exact ⟨as[i], getElem_mem hlt, h.get hlt hi⟩

/-- A rule that comes from one that was read. -/
def Rule.ComesFrom (strings : List (Option String)) (depth : Nat) (l : LoadedRule) (r : Rule P) :
    Prop :=
  ∃ decls, l.getUnobservedDeclarationList strings depth = .ok decls ∧
    r = ⟨l.selectors, some decls⟩

theorem LoadedStylesheet.resolve_eq_ok {loaded : LoadedStylesheet} {depth : Nat}
    (h : loaded.resolve depth = .ok s) :
    s.origin = loaded.origin ∧ s.fontFaces = loaded.fontFaces ∧
      List.Forall₂ (Rule.ComesFrom loaded.stringStore depth) loaded.rules s.rules := by
  unfold LoadedStylesheet.resolve at h
  cases hrules : loaded.rules.mapM fun r =>
      (r.getUnobservedDeclarationList loaded.stringStore depth).map fun decls =>
        (⟨r.selectors, some decls⟩ : Rule P) with
  | error e =>
    rw [hrules] at h
    cases h
  | ok rules =>
    rw [hrules] at h
    cases h
    refine ⟨rfl, rfl, (forall₂_of_mapM hrules).imp ?_⟩
    intro l r hr
    cases hdecls : l.getUnobservedDeclarationList (P := P) loaded.stringStore depth with
    | error e =>
      rw [hdecls] at hr
      cases hr
    | ok decls =>
      rw [hdecls] at hr
      cases hr
      exact ⟨decls, hdecls, rfl⟩

/-- The rule is persistable but for the size of its declarations. -/
theorem Rule.ComesFrom.read {depth : Nat} {l : LoadedRule} {r : Rule P}
    (h : r.ComesFrom strings depth l) (hl : l.Read P strings)
    (hsz : ∀ decls, r.declarations = some decls → declarationsSize decls < 2 ^ 31) :
    r.Persistable ∧ Covered strings r.strings := by
  obtain ⟨decls, hdecls, rfl⟩ := h
  have hread := LoadedRule.declarations_read hdecls
  refine ⟨⟨hl.1, fun s hs => (hl.2 s hs).1, hread.1, hsz decls rfl,
    fun d hd => (hread.2 d hd).1⟩, ?_⟩
  exact (Covered.flatMap fun s hs => (hl.2 s hs).2).append
    (Covered.flatMap fun d hd => (hread.2 d hd).2)

/-! ## The round trip -/

theorem known_length : known.length < 2 ^ 16 := by
  decide

theorem Stylesheet.RoundTrips.persistable (h : s.RoundTrips) :
    s.Persistable := by
  obtain ⟨bytes, hwritten, loaded, hload, depth, hresolve⟩ := h
  have hresolve := hresolve depth (Nat.le_refl _)
  obtain ⟨body, table, strs, hwrite, hstrs, rfl⟩ := Stylesheet.toBinary_eq_ok hwritten
  have htable : table = internAll s.strings [] := s.interns_writeBinary _ _ _ hwrite
  have hmem : ∀ x, x ∈ table ↔ x ∈ s.strings := fun x => by
    rw [htable, mem_internAll]
    simp
  have hlen : table.length = s.strings.toFinset.card := by
    rw [htable, internAll_nil_length]
  obtain ⟨strings, rest, hstore, hsheet⟩ := run_bind_eq_ok hload
  rw [append_assoc] at hstore
  have hcnt := StringStore.length_of_run hstore
  have hread := LoadedStylesheet.yields_readBinary (P := P) _ _ _ hsheet
  obtain ⟨horigin, hfonts, hrules⟩ := LoadedStylesheet.resolve_eq_ok hresolve
  rw [hread.stringStore] at hrules
  have hruleOk : ∀ r ∈ s.rules, r.Persistable ∧ Covered strings r.strings := by
    intro r hr
    obtain ⟨l, hl, hfrom⟩ := exists_left_of_forall₂ hrules hr
    refine hfrom.read (hread.rules l hl) fun decls hdecls => ?_
    obtain ⟨_, _, _, heach⟩ := Put.all_eq_ok hwrite
      (p := Put.each Rule.writeBinary s.rules) (by simp)
    obtain ⟨_, _, _, hok⟩ := Put.each_eq_ok heach hr
    exact Rule.declarationsSize_lt hok hdecls
  have hfontOk : ∀ f ∈ s.fontFaces, f.Read P strings := by
    rw [hfonts]
    exact hread.fontFaces
  have hcovered : Covered strings s.strings := Covered.cons (.inl (horigin ▸ hread.origin))
      ((Covered.flatMap fun r hr => (hruleOk r hr).2).append
        (Covered.flatMap fun f hf => (hfontOk f hf).2.2))
  refine ⟨?_, fun r hr => (hruleOk r hr).1, ?_, ?_, ?_, ?_⟩
  · rw [← hrules.length_eq]
    exact hread.rules_length
  · rw [hfonts]
    exact hread.fontFaces_length
  · intro f hf
    obtain ⟨_, _, _, heach⟩ := Put.all_eq_ok hwrite
      (p := Put.each (FontFace.writeBinary P) s.fontFaces) (by simp)
    obtain ⟨_, _, _, hok⟩ := Put.each_eq_ok heach hf
    exact ⟨(hfontOk f hf).1, (hfontOk f hf).2.1, FontFace.types_isSome hok⟩
  · -- A size that wraps around leaves at least 2^16 strings out.
    have hcard := hcovered.card
    have hknown := known_length
    rw [Int.bmod_def] at hcnt
    rw [← hlen] at hcard ⊢
    split at hcnt <;> omega
  · exact fun str hstr => writeStrings_eq_ok_iff.1 ⟨strs, hstrs⟩ str ((hmem _).2 hstr)

/-- Which stylesheets come back as they were. -/
theorem Stylesheet.roundTrips_iff (s : Stylesheet P) : s.RoundTrips ↔ s.Persistable :=
  ⟨Stylesheet.RoundTrips.persistable, Stylesheet.Persistable.roundTrips⟩

/-- A platform that can do what the example below needs. -/
noncomputable def examplePlatform : Platform where
  asFloat d := d
  asFloat_asFloat _ := rfl
  asFloat_inUnit _ h := h
  isURL _ := false
  styleClasses := ⟨Finset.toList, nodup_toList, toList_toFinset⟩
  pseudoClasses := ⟨Finset.toList, nodup_toList, toList_toFinset⟩
  descriptors := ⟨Finset.toList, nodup_toList, toList_toFinset⟩

/-- What the parser makes of `1s`. -/
def oneSecond : ParsedValueImpl P :=
  .mk (.value (.mk (.size ⟨longBitsToDouble 0x3ff0000000000000#64, .s⟩) none false))
    (some (.impl "com.sun.javafx.css.converters.DurationConverter")) false

/-- `* { -fx-delay: 1s; }`. -/
def delaySheet : Stylesheet P where
  origin := .author
  rules := [⟨[.simple (.new (some "*") [] [] (some ""))], some [⟨"-fx-delay", oneSecond, false⟩]⟩]
  fontFaces := []

/-- A duration comes back without its converter. -/
theorem delaySheet_not_roundTrips : ¬ (delaySheet (P := examplePlatform)).RoundTrips := by
  intro h
  have hrule := h.persistable.rules _ mem_cons_self
  have hval : (oneSecond (P := examplePlatform)).Persistable := hrule.2.2.2.2 _ mem_cons_self
  rw [oneSecond, ParsedValueImpl.Persistable] at hval
  have hnone := StyleConverter.getInstance_self.1 hval.1
  simp [StyleConverter.instances] at hnone

end OpenJfx.Css.Binary
