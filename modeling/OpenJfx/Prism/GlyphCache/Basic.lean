/-
  OpenJfx.Prism.GlyphCache.Basic

  `GlyphCache` and the caches of a `BaseContext` for one antialiasing mode, which share a packer
  and its texture.  A cache that the context has dropped lives on while its `render` runs.  The
  texture keeps, for each texel, the glyph image written there last.
-/

import OpenJfx.Lib.KeyedList
import OpenJfx.Prism.RectanglePacker
import Mathlib.Tactic.Ring

namespace OpenJfx.Prism

variable {S : Type}

/-- The image of a glyph of a strike at a sub-pixel position. -/
structure GlyphImage (S : Type) where
  strike : S
  glyphCode : Nat
  subPixel : Nat
  deriving DecidableEq

/-- `GlyphData`: the rectangle on the backing store, null for whitespace. -/
structure GlyphData where
  rect : Option Rectangle
  deriving DecidableEq, Repr

/-- The cache of a strike, by its chunks. -/
structure GlyphCache (S : Type) where
  strike : S
  glyphDataMap : List (Nat × List (Option GlyphData))

namespace GlyphCache

/-- `SEGSIZE`, glyphs are kept in blocks of this size. -/
def SEGSIZE : Nat := 32

/-- The key of a segment. -/
def segIndex (glyphCode subPixel : Nat) : Nat := glyphCode >>> 5 ||| subPixel <<< 27

/-- The entry of a cache for a glyph. -/
def entry (c : GlyphCache S) (glyphCode subPixel : Nat) : Option GlyphData :=
  (valueAt (segIndex glyphCode subPixel) c.glyphDataMap).bind fun segment =>
    (segment[glyphCode % SEGSIZE]?).join

/-- `glyphDataMap.put(segIndex, segment)` where there is none. -/
def withSegment (c : GlyphCache S) (segIndex : Nat) : GlyphCache S :=
  match valueAt segIndex c.glyphDataMap with
  | some _ => c
  | none => { c with glyphDataMap := (segIndex, List.replicate SEGSIZE none) :: c.glyphDataMap }

/-- Not seen by a cache that has been cleared since. -/
def store (c : GlyphCache S) (segIndex subIndex : Nat) (data : GlyphData) : GlyphCache S :=
  { c with
    glyphDataMap := c.glyphDataMap.map fun e =>
      if e.1 = segIndex then (e.1, e.2.set subIndex (some data)) else e }

end GlyphCache

/-- What `strike.getGlyph(glyphCode)` and `getPixelData(subPixel)` give. -/
inductive Glyph where
  /-- No glyph. -/
  | absent
  /-- No pixel data. -/
  | blank
  | image (width height : Nat)

/-- The glyph caches of a context, its packer and the texture. -/
structure GlyphCaches (S : Type) where
  caches : Nat → Option (GlyphCache S)
  nextCache : Nat
  glyphCaches : List (S × Nat)
  packer : RectanglePacker
  texture : Nat × Nat → Option (GlyphImage S)

namespace GlyphCaches

def new (width height : Nat) : GlyphCaches S where
  caches := fun _ => none
  nextCache := 0
  glyphCaches := []
  packer := .new width height
  texture := fun _ => none

/-! ## The caches of a context -/

/-- `BaseContext.getGlyphCache`: the cache of the strike. -/
def getGlyphCache [DecidableEq S] (strike : S) (s : GlyphCaches S) : Nat × GlyphCaches S :=
  match valueAt strike s.glyphCaches with
  | some cache => (cache, s)
  | none =>
    (s.nextCache, { s with
      caches := Function.update s.caches s.nextCache (some ⟨strike, []⟩)
      nextCache := s.nextCache + 1
      glyphCaches := (strike, s.nextCache) :: s.glyphCaches })

/-- The context knows the cache. -/
def Registered (s : GlyphCaches S) (cache : Nat) : Prop := ∃ e ∈ s.glyphCaches, e.2 = cache

instance (s : GlyphCaches S) (cache : Nat) : Decidable (s.Registered cache) :=
  inferInstanceAs (Decidable (∃ e ∈ s.glyphCaches, e.2 = cache))

/-- `BaseContext.clearGlyphCaches`. -/
def clearGlyphCaches (s : GlyphCaches S) : GlyphCaches S :=
  { s with
    caches := fun cache =>
      if s.Registered cache then (s.caches cache).map fun c => { c with glyphDataMap := [] }
      else s.caches cache
    glyphCaches := [] }

/-- The caches and the packer. -/
def clearAll (s : GlyphCaches S) : GlyphCaches S :=
  { s.clearGlyphCaches with packer := s.packer.clear }

/-! ## Looking up a glyph -/

def updateCache (cache : Nat) (f : GlyphCache S → GlyphCache S) (s : GlyphCaches S) :
    GlyphCaches S :=
  { s with caches := Function.update s.caches cache ((s.caches cache).map f) }

/-- The rectangle of an image with its border, not yet placed. -/
def paddedRect (width height : Nat) : Rectangle := ⟨0, 0, width + 2, height + 2⟩

/-- If there is none, everything is cleared first. -/
def makeRoom (rect : Rectangle) (s : GlyphCaches S) : Rectangle × GlyphCaches S :=
  match s.packer.add rect with
  | (some rect, packer) => (rect, { s with packer := packer })
  | (none, packer) =>
    let s := { s with packer := packer }.clearAll
    match s.packer.add rect with
    | (some rect, packer) => (rect, { s with packer := packer })
    | (none, packer) => (rect, { s with packer := packer })

/-- The border goes over the rest of the rectangle. -/
def upload (rect : Rectangle) (image : GlyphImage S) (s : GlyphCaches S) : GlyphCaches S :=
  { s with texture := fun texel => if rect.Contains texel then some image else s.texture texel }

/-- A glyph not found is rasterised and packed. -/
def getCachedGlyph (glyph : S → Nat → Nat → Glyph) (cache glyphCode subPixel : Nat)
    (s : GlyphCaches S) : Option GlyphData × GlyphCaches S :=
  match s.caches cache with
  | none => (none, s)
  | some c =>
    match c.entry glyphCode subPixel with
    | some data => (some data, s)
    | none =>
      let segIndex := GlyphCache.segIndex glyphCode subPixel
      let subIndex := glyphCode % GlyphCache.SEGSIZE
      let s := s.updateCache cache (·.withSegment segIndex)
      match glyph c.strike glyphCode subPixel with
      | .absent => (none, s)
      | .blank =>
        let data : GlyphData := ⟨none⟩
        (some data, s.updateCache cache (·.store segIndex subIndex data))
      | .image width height =>
        let (rect, s) := s.makeRoom (paddedRect width height)
        -- an update that does not fit into the store throws
        if rect.x + rect.width ≤ s.packer.length ∧ rect.y + rect.height ≤ s.packer.size then
          let data : GlyphData := ⟨some rect⟩
          let s := s.upload rect ⟨c.strike, glyphCode, subPixel⟩
          (some data, s.updateCache cache (·.store segIndex subIndex data))
        else (none, s)

/-! ## Rendering -/

/-- With its sub-pixel position; it may be clipped. -/
structure ListedGlyph where
  glyphCode : Nat
  subPixel : Nat
  behindClip : Bool

/-- Its arguments, result and the states around it. -/
structure Lookup (S : Type) where
  cache : Nat
  glyphCode : Nat
  subPixel : Nat
  before : GlyphCaches S
  result : Option GlyphData
  after : GlyphCaches S

/-- A call, with what it answers. -/
def lookup (glyph : S → Nat → Nat → Glyph) (cache glyphCode subPixel : Nat) (s : GlyphCaches S) :
    Lookup S :=
  let (result, after) := s.getCachedGlyph glyph cache glyphCode subPixel
  ⟨cache, glyphCode, subPixel, s, result, after⟩

/-- The loop of `render`, with the lookups it makes. -/
def render (glyph : S → Nat → Nat → Glyph) (cache : Nat) :
    List ListedGlyph → GlyphCaches S → List (Lookup S) × GlyphCaches S
  | [], s => ([], s)
  | g :: gl, s =>
    -- the invisible glyph behind a supplementary character
    if g.glyphCode &&& 0xffffff = 0xffff then render glyph cache gl s
    else
      let l := s.lookup glyph cache g.glyphCode g.subPixel
      if l.result.isSome ∧ g.behindClip then ([l], l.after)
      else
        let (lookups, s) := render glyph cache gl l.after
        (l :: lookups, s)

/-- A string is drawn with the cache that the context has for its strike. -/
def drawString [DecidableEq S] (glyph : S → Nat → Nat → Glyph) (strike : S) (gl : List ListedGlyph)
    (s : GlyphCaches S) : List (Lookup S) × GlyphCaches S :=
  let (cache, s) := s.getGlyphCache strike
  s.render glyph cache gl

/-- The lookups of a sequence of strings. -/
def drawStrings [DecidableEq S] (glyph : S → Nat → Nat → Glyph) :
    List (S × List ListedGlyph) → GlyphCaches S → List (Lookup S)
  | [], _ => []
  | (strike, gl) :: strings, s =>
    let (lookups, s) := s.drawString glyph strike gl
    lookups ++ drawStrings glyph strings s

end GlyphCaches

end OpenJfx.Prism
