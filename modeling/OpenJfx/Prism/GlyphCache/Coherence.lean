/-
  OpenJfx.Prism.GlyphCache.Coherence

  A rectangle that a lookup returns shows the glyph looked up.  What breaks this is a second
  overflow in one `render`: the first has dropped the cache from the context, so the second clears
  the packer under its entries.
-/

import OpenJfx.Prism.GlyphCache.Basic

namespace OpenJfx.Prism

open List Option Function GlyphCache

variable {P : Nat → Nat → Rectangle → Prop} {cache code sub : Nat} {rendering : Option Nat}
  {S : Type} {c : GlyphCache S}

namespace GlyphCache

/-- The codes of glyphs and the positions that a key has room for. -/
def InRange (glyphCode subPixel : Nat) : Prop := glyphCode < 2 ^ 31 ∧ subPixel < 16

theorem segIndex_eq {glyphCode subPixel : Nat} (h : InRange glyphCode subPixel) :
    segIndex glyphCode subPixel = subPixel * 2 ^ 27 + glyphCode / 32 := by
  have hlt : glyphCode >>> 5 < 2 ^ 27 := by
    rw [Nat.shiftRight_eq_div_pow]
    have := h.1
    omega
  rw [segIndex, Nat.or_comm, ← Nat.shiftLeft_add_eq_or_of_lt hlt, Nat.shiftLeft_eq,
    Nat.shiftRight_eq_div_pow]

/-- A key and an index in its segment belong to one glyph and position. -/
theorem segIndex_inj {code' sub' : Nat} (h : InRange code sub) (h' : InRange code' sub')
    (hkey : segIndex code sub = segIndex code' sub') (hidx : code % SEGSIZE = code' % SEGSIZE) :
    code = code' ∧ sub = sub' := by
  rw [segIndex_eq h, segIndex_eq h'] at hkey
  have hlt := h.1
  have hlt' := h'.1
  simp only [SEGSIZE] at hidx
  omega

/-- Every rectangle of a cache satisfies `P`, given its key and index. -/
def AllRects (P : Nat → Nat → Rectangle → Prop) (c : GlyphCache S) : Prop :=
  ∀ e ∈ c.glyphDataMap, ∀ j data r, e.2[j]? = some (some data) → data.rect = some r → P e.1 j r

theorem AllRects.mono {Q : Nat → Nat → Rectangle → Prop} (h : AllRects P c)
    (himp : ∀ k j r, P k j r → Q k j r) : AllRects Q c :=
  fun e he j data r hj hr => himp _ _ _ (h e he j data r hj hr)

theorem AllRects.withSegment (h : AllRects P c) (key : Nat) : AllRects P (c.withSegment key) := by
  rw [GlyphCache.withSegment]
  split
  · exact h
  · intro e he j data r hj hr
    cases mem_cons.mp he with
    | inl heq =>
      subst heq
      rw [getElem?_replicate] at hj
      split at hj <;> cases hj
    | inr he => exact h e he j data r hj hr

theorem AllRects.store (h : AllRects P c)
    {key index : Nat} {data : GlyphData} (hdata : ∀ r, data.rect = some r → P key index r) :
    AllRects P (c.store key index data) := by
  intro e he j data' r hj hr
  obtain ⟨e0, he0, rfl⟩ := mem_map.mp he
  by_cases hkey : e0.1 = key
  · rw [if_pos hkey] at hj ⊢
    simp only [getElem?_set] at hj
    split at hj
    · rename_i hij
      split at hj
      · cases hj
        rw [hkey, ← hij]
        exact hdata r hr
      · cases hj
    · exact h e0 he0 j data' r hj hr
  · rw [if_neg hkey] at hj ⊢
    exact h e0 he0 j data' r hj hr

theorem AllRects.entry (h : AllRects P c) {data : GlyphData} {r : Rectangle}
    (hentry : c.entry code sub = some data)
    (hr : data.rect = some r) : P (segIndex code sub) (code % SEGSIZE) r := by
  rw [GlyphCache.entry] at hentry
  obtain ⟨segment, hsegment, hget⟩ := bind_eq_some_iff.mp hentry
  have hmem : (segIndex code sub, segment) ∈ c.glyphDataMap := mem_of_lookup hsegment
  exact h _ hmem _ data r (join_eq_some_iff.mp hget) hr

@[simp] theorem withSegment_strike (c : GlyphCache S) (key : Nat) :
    (c.withSegment key).strike = c.strike := by
  rw [withSegment]
  split <;> rfl

/-- A cache without rectangles. -/
def NoRects (c : GlyphCache S) : Prop :=
  ∀ e ∈ c.glyphDataMap, ∀ entry ∈ e.2, ∀ data ∈ entry, data.rect = none

instance (c : GlyphCache S) : Decidable c.NoRects :=
  inferInstanceAs (Decidable (∀ e ∈ c.glyphDataMap, ∀ entry ∈ e.2, ∀ data ∈ entry, data.rect = none))

theorem NoRects.allRects (h : c.NoRects) (P : Nat → Nat → Rectangle → Prop) :
    AllRects P c := by
  intro e he j data r hj hr
  have hnone := h e he _ (mem_of_getElem? hj) data rfl
  rw [hr] at hnone
  cases hnone

end GlyphCache

namespace GlyphCaches

/-! ## The invariant -/

/-- It is placed, and its texels show the glyph. -/
def Shows (s : GlyphCaches S) (strike : S) (key index : Nat) (r : Rectangle) : Prop :=
  s.packer.Placed r ∧
    ∀ code sub, GlyphCache.InRange code sub → segIndex code sub = key →
      code % GlyphCache.SEGSIZE = index →
      ∀ texel, r.Contains texel → s.texture texel = some ⟨strike, code, sub⟩

/-- The known caches and the one rendering show glyphs. -/
structure Inv (width height : Nat) (rendering : Option Nat) (s : GlyphCaches S) : Prop where
  valid : s.packer.Valid
  length : s.packer.length = width
  size : s.packer.size = height
  registered : ∀ e ∈ s.glyphCaches, ∃ c, s.caches e.2 = some c ∧ c.strike = e.1
  fresh : ∀ cache, s.nextCache ≤ cache → s.caches cache = none
  shows : ∀ cache c, s.Registered cache ∨ rendering = some cache → s.caches cache = some c →
    c.AllRects (s.Shows c.strike)

variable {width height : Nat} {s : GlyphCaches S}

theorem inv_new : Inv width height none (new width height : GlyphCaches S) :=
  ⟨RectanglePacker.valid_new width height, rfl, rfl, nofun, fun _ _ => rfl, nofun⟩

/-- After a render its cache matters only if the context knows it. -/
theorem Inv.finished (h : Inv width height rendering s) : Inv width height none s :=
  { h with shows := fun cache c hlive hc => h.shows cache c (.inl (hlive.resolve_right nofun)) hc }

/-- The cache of a strike: one the context knows, or a new one. -/
theorem Inv.getGlyphCache [DecidableEq S] (h : Inv width height none s) (strike : S) :
    Inv width height (some (s.getGlyphCache strike).1) (s.getGlyphCache strike).2 := by
  rw [GlyphCaches.getGlyphCache]
  split
  · rename_i cache hcache
    have hregistered : s.Registered cache := ⟨_, mem_of_lookup hcache, rfl⟩
    refine { h with shows := fun cache' c hlive hc => h.shows cache' c (.inl ?_) hc }
    cases hlive with
    | inl hlive => exact hlive
    | inr heq => exact some.inj heq ▸ hregistered
  · refine ⟨h.valid, h.length, h.size, fun e he => ?_, fun cache hcache => ?_, fun cache c hlive hc => ?_⟩
    · cases mem_cons.mp he with
      | inl heq =>
        subst heq
        exact ⟨_, update_self .., rfl⟩
      | inr he =>
        obtain ⟨c, hc, hstrike⟩ := h.registered e he
        refine ⟨c, ?_, hstrike⟩
        have hne : e.2 ≠ s.nextCache := fun heq => by
          rw [h.fresh e.2 (Nat.le_of_eq heq.symm)] at hc
          cases hc
        exact (update_of_ne hne ..).trans hc
    · have hcache : s.nextCache + 1 ≤ cache := hcache
      exact (update_of_ne (by omega) ..).trans (h.fresh cache (by omega))
    · by_cases hnxt : cache = s.nextCache
      · subst hnxt
        cases (update_self ..).symm.trans hc
        exact nofun
      · refine h.shows cache c (.inl ?_) ((update_of_ne hnxt ..).symm.trans hc)
        cases hlive with
        | inl hlive =>
          obtain ⟨e, he, heq⟩ := hlive
          cases mem_cons.mp he with
          | inl hnew => exact absurd (heq.symm.trans (by rw [hnew])) hnxt
          | inr he => exact ⟨e, he, heq⟩
        | inr heq => exact absurd (some.inj heq).symm hnxt

/-! ## The steps of a lookup -/

theorem updateCache_caches (cache cache' : Nat) (f : GlyphCache S → GlyphCache S)
    (s : GlyphCaches S) : (s.updateCache cache f).caches cache' =
      if cache' = cache then (s.caches cache).map f else s.caches cache' :=
  update_apply ..

theorem Inv.updateCache (h : Inv width height rendering s) (cache : Nat)
    {f : GlyphCache S → GlyphCache S} (hstrike : ∀ c, (f c).strike = c.strike)
    (hf : ∀ c, s.caches cache = some c → c.AllRects (s.Shows c.strike) →
      (f c).AllRects (s.Shows c.strike)) : Inv width height rendering (s.updateCache cache f) where
  valid := h.valid
  length := h.length
  size := h.size
  registered e he := by
    obtain ⟨c, hc, hc'⟩ := h.registered e he
    by_cases heq : e.2 = cache
    · refine ⟨f c, ?_, (hstrike c).trans hc'⟩
      rw [updateCache_caches, if_pos heq, ← heq, hc, map_some]
    · exact ⟨c, by rw [updateCache_caches, if_neg heq, hc], hc'⟩
  fresh cache' hcache := by
    have hnone := h.fresh cache' hcache
    rw [updateCache_caches]
    split
    · rename_i heq
      rw [← heq, hnone, map_none]
    · exact hnone
  shows cache' c hlive hc := by
    rw [updateCache_caches] at hc
    split at hc
    · rename_i heq
      obtain ⟨c0, hc0, rfl⟩ := map_eq_some_iff.mp hc
      rw [hstrike]
      exact hf c0 hc0 (h.shows cache' c0 hlive (heq ▸ hc0))
    · exact h.shows cache' c hlive hc

theorem Inv.clearAll (h : Inv width height (some cache) s)
    (hsafe : s.Registered cache ∨ ∀ c ∈ s.caches cache, c.AllRects fun _ _ _ => False) :
    Inv width height (some cache) s.clearAll where
  valid := RectanglePacker.valid_clear _
  length := h.length
  size := h.size
  registered := nofun
  fresh cache' hcache := by
    have hnone := h.fresh cache' hcache
    simp only [GlyphCaches.clearAll, clearGlyphCaches, hnone]
    split <;> rfl
  shows cache' c hlive hc := by
    have heq : cache = cache' := some.inj (hlive.resolve_left fun hreg => by
      obtain ⟨e, he, -⟩ := hreg
      cases he)
    subst heq
    simp only [GlyphCaches.clearAll, clearGlyphCaches] at hc
    split at hc
    · obtain ⟨c0, -, rfl⟩ := map_eq_some_iff.mp hc
      exact nofun
    · exact ((hsafe.resolve_left ‹_›) c hc).mono fun _ _ _ => False.elim

theorem clearAll_caches (hc : s.caches cache = some c) :
    ∃ c', s.clearAll.caches cache = some c' ∧ c'.strike = c.strike := by
  simp only [GlyphCaches.clearAll, clearGlyphCaches, hc]
  split
  · exact ⟨_, rfl, rfl⟩
  · exact ⟨c, rfl, rfl⟩

/-- A rectangle is placed, after clearing everything if need be. -/
theorem Inv.makeRoom (h : Inv width height (some cache) s) (rect : Rectangle)
    (hsafe : (s.packer.add rect).1 = none →
      s.Registered cache ∨ ∀ c ∈ s.caches cache, c.AllRects fun _ _ _ => False)
    (hwidth : rect.width ≤ width) (hheight : rect.height ≤ height)
    (hmin : RectanglePacker.MIN_SIZE ≤ height) (hround : RectanglePacker.ROUND_UP ∣ height) :
    ∃ s0 r p, s.makeRoom rect = (r, { s0 with packer := p }) ∧ Inv width height (some cache) s0 ∧
      s0.packer.Places rect r p ∧
      ∀ c, s.caches cache = some c → ∃ c0, s0.caches cache = some c0 ∧ c0.strike = c.strike := by
  rw [GlyphCaches.makeRoom]
  cases hadd : s.packer.add rect with
  | mk placed packer =>
    cases placed with
    | some r => exact ⟨s, r, packer, rfl, h, h.valid.add_some hadd, fun c hc => ⟨c, hc, rfl⟩⟩
    | none =>
      have hdims := s.packer.add_dimensions rect
      rw [hadd] at hdims
      have hlen : packer.length = width := hdims.1.trans h.length
      have hsz : packer.size = height := hdims.2.trans h.size
      have hclear : ({ s with packer := packer } : GlyphCaches S).clearAll.packer = packer.clear := rfl
      have h0 : Inv width height (some cache) ({ s with packer := packer } : GlyphCaches S).clearAll := by
        have hs := h.clearAll (hsafe (by rw [hadd]))
        exact ⟨RectanglePacker.valid_clear _, hlen, hsz, hs.registered, hs.fresh, hs.shows⟩
      obtain ⟨r, p, hp⟩ := RectanglePacker.add_clear_isSome packer rect (by omega)
        (by omega) (by omega) (by rwa [hsz])
      refine ⟨_, r, p, ?_, h0, h0.valid.add_some (hclear ▸ hp), fun c hc => clearAll_caches hc⟩
      simp only [hclear, hp]

theorem Inv.upload (h : Inv width height rendering s)
    {rect r : Rectangle} {p : RectanglePacker} (hplaces : s.packer.Places rect r p)
    (image : GlyphImage S) :
    Inv width height rendering (({ s with packer := p } : GlyphCaches S).upload r image) where
  valid := hplaces.valid
  length := hplaces.length.trans h.length
  size := hplaces.size.trans h.size
  registered := h.registered
  fresh := h.fresh
  shows cache c hlive hc := (h.shows cache c hlive hc).mono fun key j r0 hshows => by
    refine ⟨hplaces.kept r0 hshows.1, fun code sub hrng hkey hj texel hin => ?_⟩
    have hold := hshows.2 code sub hrng hkey hj texel hin
    exact (if_neg (hplaces.apart r0 hshows.1 texel hin)).trans hold

/-! ## Lookups -/

/-- The rectangle that a glyph needs. -/
def neededRect : Glyph → Option Rectangle
  | .image width height => some (paddedRect width height)
  | _ => none

/-- Room, or a cache that is known or empty. -/
def Lookup.Safe (glyph : S → Nat → Nat → Glyph) (l : Lookup S) : Prop :=
  ∀ c ∈ l.before.caches l.cache, c.entry l.glyphCode l.subPixel = none →
    ∀ rect ∈ neededRect (glyph c.strike l.glyphCode l.subPixel),
      (l.before.packer.add rect).1 = none → l.before.Registered l.cache ∨ c.NoRects

instance (glyph : S → Nat → Nat → Glyph) (l : Lookup S) : Decidable (l.Safe glyph) :=
  inferInstanceAs (Decidable (∀ c ∈ l.before.caches l.cache, _ → ∀ rect ∈ neededRect _, _ → _))

/-- The texels were written last by its image. -/
def Lookup.Coherent (l : Lookup S) : Prop :=
  ∀ c ∈ l.before.caches l.cache, ∀ data ∈ l.result, ∀ r ∈ data.rect, ∀ texel, r.Contains texel →
    l.after.texture texel = some ⟨c.strike, l.glyphCode, l.subPixel⟩

/-- A safe lookup of a glyph that is not in the cache and has an image. -/
theorem Inv.upload_glyph (h : Inv width height (some cache) s) (hc : s.caches cache = some c)
    (hrng : GlyphCache.InRange code sub) {w l : Nat} (hw : w + 2 ≤ width) (hl : l + 2 ≤ height)
    (hmin : RectanglePacker.MIN_SIZE ≤ height) (hround : RectanglePacker.ROUND_UP ∣ height)
    (hsafe : (s.packer.add (paddedRect w l)).1 = none →
      s.Registered cache ∨ c.AllRects fun _ _ _ => False) :
    ∃ (s0 : GlyphCaches S) (r : Rectangle) (p : RectanglePacker),
      s.makeRoom (paddedRect w l) = (r, { s0 with packer := p }) ∧
      (r.x + r.width ≤ p.length ∧ r.y + r.height ≤ p.size) ∧
      Inv width height (some cache)
        ((({ s0 with packer := p } : GlyphCaches S).upload r ⟨c.strike, code, sub⟩).updateCache cache
          (·.store (segIndex code sub) (code % GlyphCache.SEGSIZE) ⟨some r⟩)) := by
  obtain ⟨s0, r, p, hroom, h0, hplaces, hstrike⟩ := h.makeRoom (paddedRect w l)
    (fun hfull => (hsafe hfull).imp_right fun hnone c' hc' => by
      cases hc.symm.trans hc'
      exact hnone) hw hl hmin hround
  obtain ⟨c0, hc0, hc0'⟩ := hstrike c hc
  refine ⟨s0, r, p, hroom, ⟨?_, ?_⟩, (h0.upload hplaces _).updateCache cache (fun _ => rfl)
    fun c1 hc1 hall => hall.store fun r' hr' => ?_⟩
  · rw [hplaces.length]
    exact hplaces.right_le
  · rw [hplaces.size]
    exact hplaces.bottom_le
  · cases hr'
    cases hc0.symm.trans hc1
    refine ⟨hplaces.placed, fun code' sub' hrng' hkey hidx texel hin => ?_⟩
    obtain ⟨rfl, rfl⟩ := GlyphCache.segIndex_inj hrng' hrng hkey hidx
    exact (if_pos hin).trans (by rw [hc0'])

theorem Inv.lookup {glyph : S → Nat → Nat → Glyph}
    (h : Inv width height (some cache) s) (hrng : GlyphCache.InRange code sub)
    (hfits : ∀ strike w l, glyph strike code sub = .image w l → w + 2 ≤ width ∧ l + 2 ≤ height)
    (hmin : RectanglePacker.MIN_SIZE ≤ height) (hround : RectanglePacker.ROUND_UP ∣ height)
    (hsafe : (s.lookup glyph cache code sub).Safe glyph) :
    Inv width height (some cache) (s.lookup glyph cache code sub).after ∧
      (s.lookup glyph cache code sub).Coherent := by
  simp only [Lookup.Coherent, GlyphCaches.lookup]
  rw [getCachedGlyph]
  cases hc : s.caches cache with
  | none => exact ⟨h, nofun⟩
  | some c =>
    have hsafe := hsafe c hc
    simp only []
    cases hentry : c.entry code sub with
    | some data =>
      refine ⟨h, fun c' hc' data' hdata r hr texel hin => ?_⟩
      cases hc'
      cases hdata
      exact ((h.shows cache c (.inr rfl) hc).entry hentry hr).2 code sub hrng rfl rfl texel hin
    | none =>
      have h1 : Inv width height (some cache)
          (s.updateCache cache (·.withSegment (segIndex code sub))) :=
        h.updateCache cache (fun c => c.withSegment_strike _) fun c _ hall => hall.withSegment _
      cases hglyph : glyph c.strike code sub with
      | absent => exact ⟨h1, fun _ _ _ hdata => by cases hdata⟩
      | blank =>
        refine ⟨h1.updateCache cache (fun _ => rfl) fun c _ hall => hall.store nofun, ?_⟩
        intro c' _ data hdata r hr
        cases hdata
        cases hr
      | image w l =>
        have hsafe := hsafe hentry (paddedRect w l) (congrArg neededRect hglyph)
        obtain ⟨hw, hl⟩ := hfits c.strike w l hglyph
        have hc1 : (s.updateCache cache (·.withSegment (segIndex code sub))).caches cache =
            some (c.withSegment (segIndex code sub)) := by
          rw [updateCache_caches, if_pos rfl, hc, map_some]
        obtain ⟨s0, r, p, hroom, hinside, h2⟩ := h1.upload_glyph hc1 hrng hw hl hmin hround
          fun hfull => (hsafe hfull).imp_right fun hnone => (hnone.allRects _).withSegment _
        rw [GlyphCache.withSegment_strike] at h2
        simp only [hroom, if_pos hinside]
        refine ⟨h2, fun c' hc' data hdata r' hr' texel hin => ?_⟩
        cases hc'
        cases hdata
        cases hr'
        exact if_pos hin

/-! ## Sequences of strings -/

section Strings

variable {glyph : S → Nat → Nat → Glyph}

theorem Inv.render {gl : List ListedGlyph} (h : Inv width height (some cache) s)
    (hrng : ∀ g ∈ gl, GlyphCache.InRange g.glyphCode g.subPixel)
    (hfits : ∀ strike code sub w l, glyph strike code sub = .image w l →
      w + 2 ≤ width ∧ l + 2 ≤ height)
    (hmin : RectanglePacker.MIN_SIZE ≤ height) (hround : RectanglePacker.ROUND_UP ∣ height)
    (hsafe : ∀ l ∈ (s.render glyph cache gl).1, l.Safe glyph) :
    Inv width height (some cache) (s.render glyph cache gl).2 ∧
      ∀ l ∈ (s.render glyph cache gl).1, l.Coherent := by
  induction gl generalizing s with
  | nil => exact ⟨h, nofun⟩
  | cons g gl ih =>
    have hrest : ∀ g ∈ gl, GlyphCache.InRange g.glyphCode g.subPixel :=
      fun g' hg' => hrng g' (.tail _ hg')
    simp only [GlyphCaches.render] at hsafe ⊢
    split
    · rw [if_pos ‹_›] at hsafe
      exact ih h hrest hsafe
    · rw [if_neg ‹_›] at hsafe
      split
      · rw [if_pos ‹_›] at hsafe
        obtain ⟨h', hl⟩ := h.lookup (hrng g mem_cons_self) (fun strike w l => hfits strike _ _ w l)
          hmin hround (hsafe _ mem_cons_self)
        refine ⟨h', fun l hmem => ?_⟩
        rw [mem_singleton.mp hmem]
        exact hl
      · rw [if_neg ‹_›] at hsafe
        obtain ⟨h', hl⟩ := h.lookup (hrng g mem_cons_self) (fun strike w l => hfits strike _ _ w l)
          hmin hround (hsafe _ mem_cons_self)
        obtain ⟨h'', hrest⟩ := ih h' hrest fun l hmem => hsafe l (mem_cons_of_mem _ hmem)
        refine ⟨h'', fun l hmem => ?_⟩
        cases mem_cons.mp hmem with
        | inl heq => rw [heq]; exact hl
        | inr hmem => exact hrest l hmem

/-- Whatever is drawn, in a store at least as high as a level: if no lookup runs into the gap, every
    one returns a rectangle that shows its glyph. -/
theorem lookups_coherent [DecidableEq S] (hmin : RectanglePacker.MIN_SIZE ≤ height)
    (hround : RectanglePacker.ROUND_UP ∣ height)
    (hfits : ∀ strike code sub w l, glyph strike code sub = .image w l →
      w + 2 ≤ width ∧ l + 2 ≤ height)
    (strings : List (S × List ListedGlyph))
    (hrng : ∀ string ∈ strings, ∀ g ∈ string.2, GlyphCache.InRange g.glyphCode g.subPixel)
    (hsafe : ∀ l ∈ drawStrings glyph strings (new width height), l.Safe glyph) :
    ∀ l ∈ drawStrings glyph strings (new width height), l.Coherent := by
  generalize hs : (new width height : GlyphCaches S) = s at hsafe ⊢
  have h : Inv width height none s := hs ▸ inv_new
  clear hs
  induction strings generalizing s with
  | nil => exact nofun
  | cons string strings ih =>
    obtain ⟨strike, gl⟩ := string
    simp only [drawStrings, drawString, mem_append] at hsafe ⊢
    obtain ⟨h', hl⟩ := (h.getGlyphCache strike).render (hrng _ mem_cons_self) hfits hmin hround
      fun l hmem => hsafe l (.inl hmem)
    have hrest := ih (fun string hmem => hrng string (.tail _ hmem)) _
      (fun l hmem => hsafe l (.inr hmem)) h'.finished
    exact fun l hmem => hmem.elim (hl l) (hrest l)

/-- Three glyphs in a store with room for one. -/
theorem lookups_coherent_overflow : ∃ lookups, drawStrings (fun _ _ _ => .image 4 4)
        [(0, [⟨1, 0, false⟩, ⟨2, 0, false⟩]), (1, [⟨1, 0, false⟩]), (0, [⟨2, 0, false⟩, ⟨2, 3, false⟩])]
        (new 8 8 : GlyphCaches Nat) = lookups ∧ ∀ l ∈ lookups, l.Coherent :=
  ⟨_, rfl, lookups_coherent (by decide) (by decide) (by rintro _ _ _ _ _ ⟨⟩; decide) _
    (by simp [GlyphCache.InRange]) (by decide)⟩

/-- A glyph is returned though it was written over. -/
theorem lookups_fail : ¬ ∀ l ∈ drawStrings (fun _ _ _ => .image 4 4)
        [((), [⟨1, 0, false⟩, ⟨2, 0, false⟩, ⟨3, 0, false⟩, ⟨4, 0, false⟩, ⟨3, 0, false⟩])]
        (new 8 8 : GlyphCaches Unit), l.Coherent := by
  intro h
  have hlast := h _ (getLast_mem (by decide))
  have hshown := hlast _ (some_get (by decide)).symm _
    (some_get (by decide)).symm _ (some_get (by decide)).symm (0, 0)
    (by decide)
  exact absurd hshown (by decide)

end Strings

end GlyphCaches

end OpenJfx.Prism
