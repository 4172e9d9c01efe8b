/-
  OpenJfx.Text.PrismTextLayout

  Model of the attributes of `com.sun.javafx.text.PrismTextLayout`: direction, alignment and
  bounds type are packed into one word, with what the analysis found and what is cached.
-/

import OpenJfx.Lib.Machine

namespace OpenJfx.Text

/-! ## The flags of `TextLayout` -/

def FLAGS_WRAPPED : BitVec 32 := 1 <<< 7
def FLAGS_CACHED_UNDERLINE : BitVec 32 := 1 <<< 9
def FLAGS_CACHED_STRIKETHROUGH : BitVec 32 := 1 <<< 10
def FLAGS_LAST : BitVec 32 := 1 <<< 11
def ANALYSIS_MASK : BitVec 32 := FLAGS_LAST - 1

def ALIGN_LEFT : BitVec 32 := 1 <<< 18
def ALIGN_CENTER : BitVec 32 := 1 <<< 19
def ALIGN_RIGHT : BitVec 32 := 1 <<< 20
def ALIGN_JUSTIFY : BitVec 32 := 1 <<< 21
def ALIGN_MASK : BitVec 32 := ALIGN_LEFT ||| ALIGN_CENTER ||| ALIGN_RIGHT ||| ALIGN_JUSTIFY

def DIRECTION_LTR : BitVec 32 := 1 <<< 10
def DIRECTION_RTL : BitVec 32 := 1 <<< 11
def DIRECTION_DEFAULT_LTR : BitVec 32 := 1 <<< 12
def DIRECTION_DEFAULT_RTL : BitVec 32 := 1 <<< 13
def DIRECTION_MASK : BitVec 32 :=
  DIRECTION_LTR ||| DIRECTION_RTL ||| DIRECTION_DEFAULT_LTR ||| DIRECTION_DEFAULT_RTL

def BOUNDS_CENTER : BitVec 32 := 1 <<< 14
def BOUNDS_MASK : BitVec 32 := BOUNDS_CENTER

def TYPE_UNDERLINE : BitVec 32 := 1 <<< 1
def TYPE_STRIKETHROUGH : BitVec 32 := 1 <<< 2

/-- From `FLAGS_ANALYSIS_VALID` to `FLAGS_RTL_BASE`. -/
def layoutFlags : BitVec 32 := 0x1fe

/-! ## The layout -/

/-- Null or not; the spans are objects. -/
structure PrismTextLayout where
  flags : BitVec 32
  spans : Option (List Nat)
  strike : Bool
  lines : Bool
  visualBounds : Bool
  wrapWidth : Float32
  spacing : Float32
  layoutWidth : Float32

namespace PrismTextLayout

def new : PrismTextLayout := ⟨ALIGN_LEFT, none, false, false, false, 0, 0, 0⟩

/-- The lines and the cached bounds are dropped. -/
def relayout (s : PrismTextLayout) : PrismTextLayout :=
  { s with
    visualBounds := false
    layoutWidth := 0
    flags := s.flags &&&
      ~~~(FLAGS_WRAPPED ||| FLAGS_CACHED_UNDERLINE ||| FLAGS_CACHED_STRIKETHROUGH)
    lines := false }

/-- The flags of the analysis are dropped as well. -/
def reset (s : PrismTextLayout) : PrismTextLayout :=
  relayout { s with flags := s.flags &&& ~~~ANALYSIS_MASK }

/-- The same spans are no change. -/
def setContent (spans : Option (List Nat)) (s : PrismTextLayout) : PrismTextLayout :=
  if spans = s.spans then s else { reset s with spans, strike := false }

def setText (s : PrismTextLayout) : PrismTextLayout := { reset s with spans := none, strike := true }

def setDirection (direction : BitVec 32) (s : PrismTextLayout) : PrismTextLayout :=
  if s.flags &&& DIRECTION_MASK = direction then s
  else reset { s with flags := s.flags &&& ~~~DIRECTION_MASK ||| (direction &&& DIRECTION_MASK) }

def setBoundsType (type : BitVec 32) (s : PrismTextLayout) : PrismTextLayout :=
  if s.flags &&& BOUNDS_MASK = type then s
  else reset { s with flags := s.flags &&& ~~~BOUNDS_MASK ||| (type &&& BOUNDS_MASK) }

def align : Int → BitVec 32
  | 1 => ALIGN_CENTER
  | 2 => ALIGN_RIGHT
  | 3 => ALIGN_JUSTIFY
  | _ => ALIGN_LEFT

def setAlignment (alignment : Int) (s : PrismTextLayout) : PrismTextLayout :=
  if s.flags &&& ALIGN_MASK = align alignment then s
  else
    let s := if align alignment = ALIGN_JUSTIFY ∨ s.flags &&& ALIGN_JUSTIFY ≠ 0 then reset s else s
    relayout { s with flags := s.flags &&& ~~~ALIGN_MASK ||| align alignment }

/-- An infinite or negative width, or NaN, is 0. -/
def setWrapWidth (newWidth : Float32) (s : PrismTextLayout) : PrismTextLayout :=
  let newWidth := if newWidth.isInf || newWidth.isNaN then 0 else newWidth
  let wrapped := { s with wrapWidth := if newWidth > 0 then newWidth else 0 }
  if s.lines && s.wrapWidth != 0 && newWidth != 0 && s.flags &&& ALIGN_LEFT != 0 &&
      (if newWidth > s.wrapWidth then s.flags &&& FLAGS_WRAPPED == 0
        else newWidth >= s.layoutWidth) then wrapped
  else relayout wrapped

def setLineSpacing (spacing : Float32) (s : PrismTextLayout) : PrismTextLayout :=
  if s.spacing == spacing then s else relayout { s with spacing }

/-- Flags, width, and whether it sets `lines`. -/
structure Outcome where
  found : BitVec 32
  layoutWidth : Float32
  completes : Bool

/-- Lines are built only once. -/
def ensureLayout (s : PrismTextLayout) (o : Outcome) : PrismTextLayout :=
  if s.lines then s
  else { s with
    flags := s.flags ||| (o.found &&& layoutFlags)
    layoutWidth := o.layoutWidth
    lines := o.completes }

def getVisualBounds (type : BitVec 32) (o : Outcome) (s : PrismTextLayout) : PrismTextLayout :=
  let s := ensureLayout s o
  if !s.lines || !s.strike then s
  else
    let underline := type &&& TYPE_UNDERLINE != 0
    let hasUnderline := s.flags &&& FLAGS_CACHED_UNDERLINE != 0
    let strikethrough := type &&& TYPE_STRIKETHROUGH != 0
    let hasStrikethrough := s.flags &&& FLAGS_CACHED_STRIKETHROUGH != 0
    if s.visualBounds && underline == hasUnderline && strikethrough == hasStrikethrough then s
    else
      { s with
        flags := s.flags &&& ~~~(FLAGS_CACHED_STRIKETHROUGH ||| FLAGS_CACHED_UNDERLINE) |||
          ((if underline then FLAGS_CACHED_UNDERLINE else 0) |||
            if strikethrough then FLAGS_CACHED_STRIKETHROUGH else 0)
        visualBounds := true }

/-- A setter. -/
inductive Call where
  | setContent (spans : Option (List Nat))
  | setText
  | setDirection (direction : BitVec 32)
  | setAlignment (alignment : Int)
  | setBoundsType (type : BitVec 32)
  | setWrapWidth (newWidth : Float32)
  | setLineSpacing (spacing : Float32)
  | getLines (o : Outcome)
  | getVisualBounds (type : BitVec 32) (o : Outcome)

def apply (s : PrismTextLayout) : Call → PrismTextLayout
  | .setContent spans => setContent spans s
  | .setText => setText s
  | .setDirection direction => setDirection direction s
  | .setAlignment alignment => setAlignment alignment s
  | .setBoundsType type => setBoundsType type s
  | .setWrapWidth newWidth => setWrapWidth newWidth s
  | .setLineSpacing spacing => setLineSpacing spacing s
  | .getLines o => ensureLayout s o
  | .getVisualBounds type o => getVisualBounds type o s

/-! ## The attributes -/

/-- What the setters set among the flags. -/
@[ext] structure Attributes where
  direction : BitVec 32
  alignment : BitVec 32
  boundsType : BitVec 32

/-- What the flags say. -/
def attributes (s : PrismTextLayout) : Attributes :=
  ⟨s.flags &&& DIRECTION_MASK, s.flags &&& ALIGN_MASK, s.flags &&& BOUNDS_MASK⟩

/-- What a setter asks for. -/
def Attributes.after (a : Attributes) : Call → Attributes
  | .setDirection direction => { a with direction }
  | .setAlignment alignment => { a with alignment := align alignment }
  | .setBoundsType type => { a with boundsType := type &&& BOUNDS_MASK }
  | _ => a

/-- A layout, and what the setters have asked for. -/
structure Run where
  layout : PrismTextLayout
  asked : Attributes

def step (r : Run) (c : Call) : Option Run := some ⟨r.layout.apply c, r.asked.after c⟩

def start : Run := ⟨new, new.attributes⟩

/-- One of the direction constants is set. -/
def Allowed : Call → Prop
  | .setDirection direction =>
    direction ∈ [DIRECTION_LTR, DIRECTION_RTL, DIRECTION_DEFAULT_LTR, DIRECTION_DEFAULT_RTL]
  | _ => True

/-- No use for the bit with two meanings. -/
def Harmless (r : Run) : Call → Prop
  | .setDirection direction => direction ≠ DIRECTION_LTR
  | .getVisualBounds type o => type &&& TYPE_STRIKETHROUGH = 0 ∨ r.layout.strike = false ∨
      r.layout.lines = false ∧ o.completes = false
  | _ => True

/-- The directions that have a bit to themselves. -/
def directions : BitVec 32 := DIRECTION_MASK &&& ~~~DIRECTION_LTR

/-- The flags say what was asked for, and the bit with two uses is not set. -/
structure Encodes (flags : BitVec 32) (a : Attributes) : Prop where
  unused : flags &&& DIRECTION_LTR = 0#32
  direction : flags &&& directions = a.direction
  alignment : flags &&& ALIGN_MASK = a.alignment
  boundsType : flags &&& BOUNDS_MASK = a.boundsType

/-- The bits that make up the attributes. -/
def attributeBits : BitVec 32 := directions ||| ALIGN_MASK ||| BOUNDS_MASK

variable {f b c m : BitVec 32} {a : Attributes} {s : PrismTextLayout}

theorem put_and (f c b m : BitVec 32) : (f &&& c ||| b) &&& m = f &&& (c &&& m) ||| b &&& m := by
  rw [BitVec.and_or_distrib_right, BitVec.and_assoc]

theorem put_other (hc : c &&& m = m) (hb : b &&& m = 0#32) : (f &&& c ||| b) &&& m = f &&& m := by
  rw [put_and, hc, hb, BitVec.or_zero]

theorem put_self (hc : c &&& m = 0#32) : (f &&& c ||| b) &&& m = b &&& m := by
  rw [put_and, hc, BitVec.and_zero, BitVec.zero_or]

theorem and_mask (b k : BitVec 32) : b &&& k &&& k = b &&& k := by
  rw [BitVec.and_assoc, BitVec.and_self]

theorem put_field {k : BitVec 32} (hb : b &&& k = b) (hm : ~~~k &&& m = m) :
    (f &&& ~~~k ||| b) &&& m = f &&& m := by
  have hemp : k &&& ~~~k = 0#32 := BitVec.and_not_self k
  refine put_other hm ?_
  rw [← hb, ← hm, BitVec.and_assoc, ← BitVec.and_assoc k, hemp, BitVec.zero_and, BitVec.and_zero]

theorem Encodes.put (h : Encodes f a) (hc : c &&& attributeBits = attributeBits)
    (hb : b &&& (DIRECTION_LTR ||| attributeBits) = 0#32) : Encodes (f &&& c ||| b) a := by
  have hkeep : ∀ m, attributeBits &&& m = m → (f &&& c ||| b) &&& m = f &&& m := by
    intro m hm
    refine put_other ?_ ?_
    · rw [← hm, ← BitVec.and_assoc, hc]
    · rw [← hm, ← BitVec.and_assoc, show attributeBits = (DIRECTION_LTR ||| attributeBits) &&&
        attributeBits from rfl, ← BitVec.and_assoc, hb, BitVec.zero_and, BitVec.zero_and]
  refine ⟨?_, (hkeep _ rfl).trans h.direction, (hkeep _ rfl).trans h.alignment,
    (hkeep _ rfl).trans h.boundsType⟩
  rw [put_and, BitVec.and_comm c, ← BitVec.and_assoc, h.unused, BitVec.zero_and, BitVec.zero_or,
    show DIRECTION_LTR = (DIRECTION_LTR ||| attributeBits) &&& DIRECTION_LTR from rfl,
    ← BitVec.and_assoc, hb, BitVec.zero_and]

theorem Encodes.relayout (h : Encodes s.flags a) : Encodes s.relayout.flags a := by
  have hput := h.put (c := ~~~(FLAGS_WRAPPED ||| FLAGS_CACHED_UNDERLINE |||
    FLAGS_CACHED_STRIKETHROUGH)) (b := 0#32) rfl rfl
  rwa [BitVec.or_zero] at hput

theorem Encodes.reset (h : Encodes s.flags a) : Encodes s.reset.flags a := by
  have hput := h.put (c := ~~~ANALYSIS_MASK) (b := 0#32) rfl rfl
  rw [BitVec.or_zero] at hput
  exact Encodes.relayout (s := { s with flags := s.flags &&& ~~~ANALYSIS_MASK }) hput

theorem Encodes.ensureLayout (h : Encodes s.flags a) (o : Outcome) :
    Encodes (s.ensureLayout o).flags a := by
  unfold PrismTextLayout.ensureLayout
  split
  · exact h
  · have hput := h.put (c := BitVec.allOnes 32) (b := o.found &&& layoutFlags) rfl
      ((BitVec.and_assoc _ _ _).trans BitVec.and_zero)
    rwa [BitVec.and_allOnes] at hput

theorem Encodes.setDirection (h : Encodes s.flags a) {direction : BitVec 32}
    (hmem : direction ∈ [DIRECTION_RTL, DIRECTION_DEFAULT_LTR, DIRECTION_DEFAULT_RTL]) :
    Encodes (s.setDirection direction).flags { a with direction } := by
  have hbits : direction &&& DIRECTION_MASK &&& DIRECTION_LTR = 0#32 ∧
      direction &&& ~~~DIRECTION_LTR = direction ∧
      direction &&& DIRECTION_MASK &&& directions = direction := by
    simp only [List.mem_cons, List.not_mem_nil, or_false] at hmem
    rcases hmem with rfl | rfl | rfl <;> exact ⟨rfl, rfl, rfl⟩
  unfold PrismTextLayout.setDirection
  split
  · next hsame =>
    refine { h with direction := ?_ }
    rw [directions, ← BitVec.and_assoc, hsame, hbits.2.1]
  · refine Encodes.reset ⟨?_, ?_, ?_, ?_⟩
    · exact (put_self rfl).trans hbits.1
    · exact (put_self rfl).trans hbits.2.2
    · exact (put_field (and_mask _ _) rfl).trans h.alignment
    · exact (put_field (and_mask _ _) rfl).trans h.boundsType

theorem Encodes.setBoundsType (h : Encodes s.flags a) (type : BitVec 32) :
    Encodes (s.setBoundsType type).flags { a with boundsType := type &&& BOUNDS_MASK } := by
  unfold PrismTextLayout.setBoundsType
  split
  · next hsame =>
    refine { h with boundsType := ?_ }
    rw [← hsame, and_mask]
  · have hput : ∀ m, ~~~BOUNDS_MASK &&& m = m →
        (s.flags &&& ~~~BOUNDS_MASK ||| (type &&& BOUNDS_MASK)) &&& m = s.flags &&& m :=
      fun m hm => put_field (and_mask _ _) hm
    exact Encodes.reset ⟨(hput _ rfl).trans h.unused, (hput _ rfl).trans h.direction,
      (hput _ rfl).trans h.alignment, (put_self rfl).trans (and_mask _ _)⟩

theorem align_and (alignment : Int) : align alignment &&& ALIGN_MASK = align alignment := by
  unfold align
  split <;> rfl

theorem Encodes.setAlignment (h : Encodes s.flags a) (alignment : Int) :
    Encodes (s.setAlignment alignment).flags { a with alignment := align alignment } := by
  unfold PrismTextLayout.setAlignment
  split
  · next hsame => exact { h with alignment := hsame }
  · have hreset : Encodes (if align alignment = ALIGN_JUSTIFY ∨ s.flags &&& ALIGN_JUSTIFY ≠ 0
        then s.reset else s).flags a := by
      split
      · exact h.reset
      · exact h
    have halign := align_and alignment
    exact Encodes.relayout ⟨(put_field halign rfl).trans hreset.unused, (put_field halign rfl).trans
      hreset.direction, (put_self rfl).trans halign, (put_field halign rfl).trans hreset.boundsType⟩

theorem Encodes.setWrapWidth (h : Encodes s.flags a) (newWidth : Float32) :
    Encodes (s.setWrapWidth newWidth).flags a :=
  iteInduction (motive := fun s => Encodes (PrismTextLayout.flags s) a) (fun _ => h)
    fun _ => Encodes.relayout h

theorem ensureLayout_strike (o : Outcome) :
    (s.ensureLayout o).strike = s.strike ∧
      (s.lines = false → (s.ensureLayout o).lines = o.completes) := by
  unfold ensureLayout
  split
  · next hlines => exact ⟨rfl, fun hne => absurd hlines (by simp [hne])⟩
  · exact ⟨rfl, fun _ => rfl⟩

theorem Encodes.getVisualBounds (h : Encodes s.flags a) {type : BitVec 32} {o : Outcome}
    (hharm : type &&& TYPE_STRIKETHROUGH = 0 ∨ s.strike = false ∨
      s.lines = false ∧ o.completes = false) :
    Encodes (s.getVisualBounds type o).flags a := by
  have hlayout := h.ensureLayout o
  obtain ⟨hstrike, hlines⟩ := ensureLayout_strike (s := s) o
  unfold PrismTextLayout.getVisualBounds
  dsimp only
  split
  · exact hlayout
  · next hcomp =>
    split
    · exact hlayout
    · have htype : type &&& TYPE_STRIKETHROUGH = 0 := by
        rcases hharm with h | h | h
        · exact h
        · simp [hstrike, h] at hcomp
        · simp [hlines h.1, h.2] at hcomp
      rw [htype]
      refine hlayout.put rfl ?_
      split <;> rfl

theorem Encodes.step {r r' : Run} {call : Call} (h : Encodes r.layout.flags r.asked)
    (hcall : Allowed call ∧ Harmless r call) (hstep : step r call = some r') :
    Encodes r'.layout.flags r'.asked := by
  cases hstep
  obtain ⟨hallowed, hharm⟩ := hcall
  cases call with
  | setContent spans =>
    dsimp only [apply, setContent]
    split
    · exact h
    · exact h.reset
  | setText => exact h.reset
  | setDirection direction =>
    exact h.setDirection ((List.mem_cons.mp hallowed).resolve_left hharm)
  | setAlignment alignment => exact h.setAlignment alignment
  | setBoundsType type => exact h.setBoundsType type
  | setWrapWidth newWidth => exact h.setWrapWidth newWidth
  | setLineSpacing spacing =>
    dsimp only [apply, setLineSpacing]
    split
    · exact h
    · exact Encodes.relayout h
  | getLines o => exact h.ensureLayout o
  | getVisualBounds type o => exact h.getVisualBounds hharm

/-- The flags say what the setters have asked for. -/
theorem attributes_of_run {calls : List Call} {r : Run}
    (hcalls : AllSteps (fun r call => Allowed call ∧ Harmless r call) step start calls)
    (hrun : runActions step start calls = some r) : r.layout.attributes = r.asked := by
  obtain ⟨hunused, hdirection, halignment, hboundsType⟩ :=
    runActions_invariant_of (P := fun r => Encodes r.layout.flags r.asked)
      (fun _ _ _ h hcall hstep => h.step hcall hstep) (⟨rfl, rfl, rfl, rfl⟩) hcalls hrun
  refine Attributes.ext ?_ halignment hboundsType
  rw [attributes, show DIRECTION_MASK = directions ||| DIRECTION_LTR from rfl, BitVec.and_or_distrib_left,
    hdirection, hunused, BitVec.or_zero]

/-- From right to left, and centred. -/
theorem attributes_of_run_rtl : ∃ r,
    runActions step start [.setDirection DIRECTION_RTL, .setAlignment 1] = some r ∧
      r.layout.attributes = ⟨DIRECTION_RTL, ALIGN_CENTER, 0⟩ :=
  ⟨_, rfl, @attributes_of_run [.setDirection DIRECTION_RTL, .setAlignment 1] _
    ⟨⟨by simp [Allowed], by simp only [Harmless]; decide⟩, fun _ _ =>
      ⟨⟨trivial, trivial⟩, fun _ _ => trivial⟩⟩ rfl⟩

/-- The bit of `DIRECTION_LTR` is cleared by the call that sets it. -/
theorem attributes_fails : ¬∀ (calls : List Call) (r : Run), (∀ call ∈ calls, Allowed call) →
    runActions step start calls = some r → r.layout.attributes = r.asked := by
  intro h
  have hsame := h [.setDirection DIRECTION_LTR] _ (by simp [Allowed]) rfl
  exact absurd (congrArg Attributes.direction hsame) (by decide)

end PrismTextLayout

end OpenJfx.Text
