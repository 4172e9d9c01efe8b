/-
  OpenJfx.Monocle.LinuxEventBuffer

  The buffer between the thread that reads an input device and the application thread. A step is a
  synchronized block.
-/

import OpenJfx.Lib.Machine

namespace OpenJfx.Monocle

open List Nat

variable {struct : EventStruct} {b : LinuxEventBuffer}

/-! ## The buffer -/

/-- `EventStruct32Bit` and `EventStruct64Bit`. -/
inductive EventStruct where
  | bits32
  | bits64
  deriving DecidableEq, Repr

namespace EventStruct

def typeIndex : EventStruct → Nat
  | bits32 => 8
  | bits64 => 16

def valueIndex : EventStruct → Nat
  | bits32 => 12
  | bits64 => 20

def size : EventStruct → Nat
  | bits32 => 16
  | bits64 => 24

end EventStruct

def eventBufferSize : Nat := 1000

/-- An event line as it is read from the device. -/
structure Line (struct : EventStruct) where
  bytes : List UInt8
  length_eq : bytes.length = struct.size

/-- `getInt(index) == 0`. -/
def intIsZero (bytes : List UInt8) (index : Nat) : Bool :=
  ((bytes.drop index).take 4).all (· == 0)

/-- The terminator `EV_SYN SYN_REPORT 0`, type and code read as one number. -/
def isSync (struct : EventStruct) (bytes : List UInt8) : Bool :=
  intIsZero bytes struct.typeIndex && intIsZero bytes struct.valueIndex

/-- What is used of `java.nio.ByteBuffer`. -/
structure ByteBuffer where
  content : List UInt8
  position : Nat
  limit : Nat

namespace ByteBuffer

def allocate (capacity : Nat) : ByteBuffer := ⟨List.replicate capacity 0, 0, capacity⟩

def put (bb : ByteBuffer) (bytes : List UInt8) : ByteBuffer :=
  { bb with
    content := bb.content.take bb.position ++ bytes ++
      bb.content.drop (bb.position + bytes.length)
    position := bb.position + bytes.length }

/-- `compact`: what is between position and limit goes to the front. -/
def compact (bb : ByteBuffer) : ByteBuffer :=
  let remaining := bb.limit - bb.position
  { content := (bb.content.drop bb.position).take remaining ++ bb.content.drop remaining
    position := remaining
    limit := bb.content.length }

end ByteBuffer

/-- The buffer with the positions it keeps. -/
structure LinuxEventBuffer where
  bb : ByteBuffer
  positionOfLastSync : Int
  currentPosition : Nat
  mark : Nat

namespace LinuxEventBuffer

variable (struct : EventStruct)

def new : LinuxEventBuffer := ⟨.allocate (struct.size * eventBufferSize), 0, 0, 0⟩

/-- `put`, where there is room. -/
def put (b : LinuxEventBuffer) (event : List UInt8) : LinuxEventBuffer :=
  { b with
    positionOfLastSync := if isSync struct event then b.bb.position else b.positionOfLastSync
    bb := b.bb.put event }

/-- Positions start again at the front. -/
def startIteration (b : LinuxEventBuffer) : LinuxEventBuffer :=
  { b with currentPosition := 0, mark := 0 }

/-- What has not been read moves to the front. -/
def compact (b : LinuxEventBuffer) : LinuxEventBuffer :=
  { b with
    positionOfLastSync := b.positionOfLastSync - b.currentPosition
    bb := ByteBuffer.compact { b.bb with position := b.currentPosition, limit := b.bb.position } }

/-- Only up to the last synchronisation. -/
def hasNextEvent (b : LinuxEventBuffer) : Bool := decide (b.currentPosition ≤ b.positionOfLastSync)

/-- `nextEvent`; none is the `IllegalStateException`. -/
def nextEvent (b : LinuxEventBuffer) : Option LinuxEventBuffer :=
  if b.currentPosition > b.positionOfLastSync then none
  else some { b with currentPosition := b.currentPosition + struct.size }

/-- The bytes of the current line, as the getters read them. -/
def currentLine (b : LinuxEventBuffer) : List UInt8 :=
  (b.bb.content.drop b.currentPosition).take struct.size

end LinuxEventBuffer

/-! ## The threads -/

/-- Where the application thread is in `EventProcessor.run`. -/
inductive Stage where
  | idle
  | testing
  | reading
  | advancing
  | ending
  deriving DecidableEq, Repr

/-- An input device, with the lines put and read so far. -/
structure LinuxInputDevice (struct : EventStruct) where
  buffer : LinuxEventBuffer
  scheduled : Bool
  /-- How many runs of the processor wait in the queue of the application
      thread. -/
  queued : Nat
  stage : Stage
  /-- An exception was thrown or bytes were read that had not been put. -/
  failed : Bool
  put : List (Line struct)
  /-- The lines read in the iterations that have ended. -/
  iterations : List (List (List UInt8))
  /-- The lines read in the current iteration. -/
  current : List (List UInt8)

/-- A step of the reader or of the FX thread. -/
inductive DeviceAction (struct : EventStruct) where
  | put (line : Line struct)
  | run
  | hasNextEvent
  | readLine
  | nextEvent
  | endIteration

namespace LinuxInputDevice

variable {struct : EventStruct}

def new (struct : EventStruct) : LinuxInputDevice struct :=
  { buffer := .new struct, scheduled := false, queued := 0, stage := .idle, failed := false,
    put := [], iterations := [], current := [] }

/-- The reader puts a line and schedules the processor after a terminator. -/
def putLine (d : LinuxInputDevice struct) (line : Line struct) : LinuxInputDevice struct :=
  let schedules := isSync struct line.bytes && !d.scheduled
  { d with
    buffer := d.buffer.put struct line.bytes
    scheduled := d.scheduled || schedules
    queued := if schedules then d.queued + 1 else d.queued
    put := d.put ++ [line] }

/-- The last synchronized block of `EventProcessor.run`. -/
def endIteration (d : LinuxInputDevice struct) : LinuxInputDevice struct :=
  { d with
    queued := if d.buffer.hasNextEvent then d.queued + 1 else d.queued
    scheduled := d.scheduled && d.buffer.hasNextEvent
    buffer := d.buffer.compact
    stage := .idle
    iterations := d.iterations ++ [d.current]
    current := [] }

/-- None where the step is not possible. -/
def step (d : LinuxInputDevice struct) : DeviceAction struct → Option (LinuxInputDevice struct)
  | .put line =>
    if d.buffer.bb.limit - d.buffer.bb.position < line.bytes.length then none
    else some (d.putLine line)
  | .run =>
    if d.stage = .idle ∧ 0 < d.queued then
      some { d with queued := d.queued - 1, buffer := d.buffer.startIteration, stage := .testing }
    else none
  | .hasNextEvent =>
    if d.stage = .testing then
      some { d with stage := if d.buffer.hasNextEvent then .reading else .ending }
    else none
  | .readLine =>
    if d.stage = .reading then
      some { d with
        stage := .advancing
        current := d.current ++ [d.buffer.currentLine struct]
        failed := d.failed ||
          decide (d.buffer.bb.position < d.buffer.currentPosition + struct.size) }
    else none
  | .nextEvent =>
    if d.stage = .advancing then
      match d.buffer.nextEvent struct with
      | some buffer => some { d with stage := .testing, buffer := buffer }
      | none => some { d with stage := .ending, failed := true }
    else none
  | .endIteration => if d.stage = .ending then some d.endIteration else none

end LinuxInputDevice

/-! ## The lines that are held -/

theorem struct_size_pos (struct : EventStruct) : 0 < struct.size := by
  cases struct <;> decide

/-- The bytes of some lines. -/
def lineBytes {struct : EventStruct} (lines : List (Line struct)) : List (List UInt8) :=
  lines.map Line.bytes

theorem drop_flatten_lineBytes (lines : List (Line struct)) (k : Nat) :
    (lineBytes lines).flatten.drop (struct.size * k) = (lineBytes (lines.drop k)).flatten := by
  induction k generalizing lines with
  | zero => simp
  | succ k ih =>
    cases lines with
    | nil => simp [lineBytes]
    | cons line lines =>
      have hline := line.length_eq
      rw [mul_succ, Nat.add_comm, ← drop_drop]
      simp only [lineBytes, map_cons, flatten_cons, drop_succ_cons]
      rw [← hline, drop_left, hline]
      exact ih lines

/-- The buffer holds some lines, one after the other from its beginning. -/
structure LinuxEventBuffer.Holds {struct : EventStruct} (b : LinuxEventBuffer)
    (held : List (Line struct)) : Prop where
  limit_eq : b.bb.limit = b.bb.content.length
  position_eq : b.bb.position = struct.size * held.length
  fits : b.bb.position ≤ b.bb.content.length
  take_eq : b.bb.content.take b.bb.position = (lineBytes held).flatten

variable {k : Nat}

namespace LinuxEventBuffer

variable {struct : EventStruct} {held : List (Line struct)}

theorem Holds.put (h : b.Holds held)
    (line : Line struct) (hroom : ¬ b.bb.limit - b.bb.position < line.bytes.length) :
    (b.put struct line.bytes).Holds (held ++ [line]) := by
  have hline := line.length_eq
  have hlimit := h.limit_eq
  have hfits := h.fits
  have hpos := h.position_eq
  have hlen : (b.bb.content.take b.bb.position ++ line.bytes ++
      b.bb.content.drop (b.bb.position + line.bytes.length)).length = b.bb.content.length := by
    simp only [length_append, length_take, length_drop]
    omega
  refine ⟨?_, ?_, ?_, ?_⟩
  · show b.bb.limit = List.length _
    rw [hlimit]
    exact hlen.symm
  · show b.bb.position + line.bytes.length = _
    rw [hpos, hline, length_append, length_singleton, mul_succ]
  · show b.bb.position + line.bytes.length ≤ List.length _
    refine Nat.le_trans ?_ (Nat.le_of_eq hlen.symm)
    omega
  · show List.take (b.bb.position + line.bytes.length) (b.bb.content.take b.bb.position ++
      line.bytes ++ b.bb.content.drop (b.bb.position + line.bytes.length)) = _
    have htake : (b.bb.content.take b.bb.position ++ line.bytes).length =
        b.bb.position + line.bytes.length := by
      rw [length_append, length_take]
      omega
    rw [← htake, take_left, h.take_eq]
    simp [lineBytes]

theorem Holds.currentLine (h : b.Holds held) {line : Line struct} (hk : held[k]? = some line)
    (hpos : b.currentPosition = struct.size * k) :
    b.currentLine struct = line.bytes ∧ b.currentPosition + struct.size ≤ b.bb.position := by
  obtain ⟨hlt, hget⟩ := List.getElem?_eq_some_iff.mp hk
  have hle : struct.size * k + struct.size ≤ b.bb.position := by
    rw [h.position_eq, ← mul_succ]
    exact Nat.mul_le_mul_left _ hlt
  refine ⟨?_, by rw [hpos]; exact hle⟩
  have hinside : (b.bb.content.drop (struct.size * k)).take struct.size =
      ((b.bb.content.take b.bb.position).drop (struct.size * k)).take struct.size := by
    rw [drop_take, take_take, Nat.min_eq_left (by omega)]
  unfold LinuxEventBuffer.currentLine
  rw [hpos, hinside, h.take_eq, drop_flatten_lineBytes, drop_eq_getElem_cons hlt, hget]
  have hline := line.length_eq
  simp only [lineBytes, map_cons, flatten_cons]
  rw [← hline, take_left]

theorem Holds.compact (h : b.Holds held) (hk : k ≤ held.length)
    (hposition : b.currentPosition = struct.size * k) :
    b.compact.Holds (held.drop k) := by
  have hmul : struct.size * k ≤ struct.size * held.length := Nat.mul_le_mul_left _ hk
  have hsub : struct.size * held.length - struct.size * k = struct.size * (held.length - k) :=
    (Nat.mul_sub ..).symm
  have hpos := h.position_eq
  have hfits := h.fits
  have hremaining : b.bb.position - b.currentPosition = struct.size * (held.length - k) := by
    rw [hposition, hpos, hsub]
  have hlen : ((b.bb.content.drop b.currentPosition).take (b.bb.position - b.currentPosition)
      ++ b.bb.content.drop (b.bb.position - b.currentPosition)).length = b.bb.content.length := by
    simp only [length_append, length_take, length_drop]
    omega
  refine ⟨hlen.symm, ?_, ?_, ?_⟩
  · show b.bb.position - b.currentPosition = _
    rw [hremaining, length_drop]
  · show b.bb.position - b.currentPosition ≤ List.length _
    refine Nat.le_trans ?_ (Nat.le_of_eq hlen.symm)
    omega
  · show List.take (b.bb.position - b.currentPosition)
      ((b.bb.content.drop b.currentPosition).take (b.bb.position - b.currentPosition) ++
        b.bb.content.drop (b.bb.position - b.currentPosition)) = _
    have hfst : ((b.bb.content.drop b.currentPosition).take
        (b.bb.position - b.currentPosition)).length = b.bb.position - b.currentPosition := by
      rw [length_take, length_drop]
      omega
    have hinside : (b.bb.content.drop b.currentPosition).take (b.bb.position - b.currentPosition) =
          (b.bb.content.take b.bb.position).drop b.currentPosition := drop_take.symm
    rw [take_append_of_le_length (Nat.le_of_eq hfst.symm), take_of_length_le
      (Nat.le_of_eq hfst), hinside, h.take_eq, hposition, drop_flatten_lineBytes]

end LinuxEventBuffer

/-! ## The last terminator -/

/-- The line at index `j` is a terminator and none behind it is. -/
structure LastSync {struct : EventStruct} (held : List (Line struct)) (j : Nat) : Prop where
  sync : ∃ line, held[j]? = some line ∧ isSync struct line.bytes = true
  none_later : ∀ i line, j < i → held[i]? = some line → isSync struct line.bytes = false

variable {j : Nat}

theorem LastSync.lt {held : List (Line struct)} (h : LastSync held j) : j < held.length := by
  obtain ⟨line, hline, -⟩ := h.sync
  exact (List.getElem?_eq_some_iff.mp hline).1

theorem LastSync.append_sync (held : List (Line struct))
    {line : Line struct} (hline : isSync struct line.bytes = true) :
    LastSync (held ++ [line]) held.length := by
  refine ⟨⟨line, by simp, hline⟩, ?_⟩
  intro i line' hi hget
  have := (List.getElem?_eq_some_iff.mp hget).1
  rw [length_append, length_singleton] at this
  omega

theorem LastSync.append {held : List (Line struct)}
    (h : LastSync held j) {line : Line struct} (hline : isSync struct line.bytes = false) :
    LastSync (held ++ [line]) j := by
  obtain ⟨sync, hsync, hbytes⟩ := h.sync
  refine ⟨⟨sync, by rw [getElem?_append_left h.lt]; exact hsync, hbytes⟩, ?_⟩
  intro i line' hi hget
  by_cases hlt : i < held.length
  · rw [getElem?_append_left hlt] at hget
    exact h.none_later i line' hi hget
  · rw [getElem?_append_right (by omega)] at hget
    have hzero : i - held.length = 0 := by
      have := (List.getElem?_eq_some_iff.mp hget).1
      rw [length_singleton] at this
      omega
    rw [hzero] at hget
    cases hget
    exact hline

theorem LastSync.drop {held : List (Line struct)}
    (h : LastSync held j) (hk : k ≤ j) : LastSync (held.drop k) (j - k) := by
  obtain ⟨sync, hsync, hbytes⟩ := h.sync
  refine ⟨⟨sync, ?_, hbytes⟩, ?_⟩
  · rw [getElem?_drop, Nat.add_sub_cancel' hk]
    exact hsync
  · intro i line hi hget
    rw [getElem?_drop] at hget
    exact h.none_later (k + i) line (by omega) hget

/-! ## The invariant -/

namespace LinuxInputDevice

variable {struct : EventStruct}

/-- An iteration ends with a terminator. -/
def EndsWithSync (struct : EventStruct) (iteration : List (List UInt8)) : Prop :=
  ∃ line : Line struct, iteration.getLast? = some line.bytes ∧ isSync struct line.bytes = true

/-- At line `k` of those held, the last terminator at `j`. -/
def Progress (held : List (Line struct)) (j k : Nat) (current : List (List UInt8)) : Stage → Prop
  | .idle => False
  | .testing => k ≤ j + 1 ∧ current = lineBytes (held.take k)
  | .reading => k ≤ j ∧ current = lineBytes (held.take k)
  | .advancing => k ≤ j ∧ current = lineBytes (held.take (k + 1))
  | .ending => k ≤ j + 1 ∧ current = lineBytes (held.take k) ∧ 0 < k ∧
      ∃ line, held[k - 1]? = some line ∧ isSync struct line.bytes = true

/-- What the processor is doing fits the lines that are held. -/
inductive Activity (d : LinuxInputDevice struct) (held : List (Line struct)) : Prop
  | quiet (idle : d.stage = .idle) (scheduled : d.scheduled = false) (queued : d.queued = 0)
      (current : d.current = [])
      (none : ∀ line ∈ held, isSync struct line.bytes = false) : Activity d held
  | waiting (j : Nat) (idle : d.stage = .idle) (scheduled : d.scheduled = true)
      (queued : d.queued = 1) (current : d.current = []) (last : LastSync held j)
      (position : d.buffer.positionOfLastSync = (struct.size * j : Nat)) : Activity d held
  | running (j k : Nat) (scheduled : d.scheduled = true) (queued : d.queued = 0)
      (last : LastSync held j)
      (position : d.buffer.positionOfLastSync = (struct.size * j : Nat))
      (reading : d.buffer.currentPosition = struct.size * k)
      (progress : Progress held j k d.current d.stage) : Activity d held

/-- Of the lines put, `done` have been handed on and `held` are in the buffer. -/
structure Inv (d : LinuxInputDevice struct) (done held : List (Line struct)) : Prop where
  put_eq : d.put = done ++ held
  holds : d.buffer.Holds held
  failed : d.failed = false
  iterations_eq : d.iterations.flatten = lineBytes done
  ends : ∀ iteration ∈ d.iterations, EndsWithSync struct iteration
  activity : Activity d held

theorem inv_new : Inv (new struct) [] [] := by
  refine ⟨rfl, ⟨?_, rfl, Nat.zero_le _, rfl⟩, rfl, rfl, fun i hi => (not_mem_nil hi).elim,
    .quiet rfl rfl rfl rfl fun line hline => (not_mem_nil hline).elim⟩
  show struct.size * eventBufferSize = List.length (List.replicate _ _)
  rw [length_replicate]

variable {held done : List (Line struct)} {d : LinuxInputDevice struct}

theorem lineBytes_take_append (hk : k ≤ held.length)
    (line : Line struct) : lineBytes ((held ++ [line]).take k) = lineBytes (held.take k) := by
  rw [take_append_of_le_length hk]

theorem Progress.append {j' : Nat} {current : List (List UInt8)}
    {stage : Stage} (h : Progress held j k current stage) (hj : j < held.length) (hjj' : j ≤ j')
    (line : Line struct) : Progress (held ++ [line]) j' k current stage := by
  cases stage with
  | idle => exact h
  | testing | reading | advancing =>
    obtain ⟨hk, hcur⟩ := h
    exact ⟨by omega, by rw [lineBytes_take_append (by omega)]; exact hcur⟩
  | ending =>
    obtain ⟨hk, hcur, hpos, sync, hsync, hbytes⟩ := h
    exact ⟨by omega, by rw [lineBytes_take_append (by omega)]; exact hcur, hpos, sync,
      by rw [getElem?_append_left (by omega)]; exact hsync, hbytes⟩

/-! ## Steps -/

theorem putLine_inv (h : Inv d done held) (line : Line struct)
    (hroom : ¬ d.buffer.bb.limit - d.buffer.bb.position < line.bytes.length) :
    Inv (d.putLine line) done (held ++ [line]) := by
  refine ⟨?_, h.holds.put line hroom, h.failed, h.iterations_eq, h.ends, ?_⟩
  · show d.put ++ [line] = _
    rw [h.put_eq, append_assoc]
  have hposition := h.holds.position_eq
  cases hsync : isSync struct line.bytes with
  | true =>
    have hlast := LastSync.append_sync held hsync
    have hpos : (d.putLine line).buffer.positionOfLastSync =
        (struct.size * held.length : Nat) := by
      rw [← hposition]
      exact if_pos hsync
    cases h.activity with
    | quiet idle scheduled queued current none =>
      refine .waiting held.length idle ?_ ?_ current hlast hpos
      · simp [putLine, hsync, scheduled]
      · simp [putLine, hsync, scheduled, queued]
    | waiting j idle scheduled queued current last position =>
      refine .waiting held.length idle ?_ ?_ current hlast hpos
      · simp [putLine, scheduled]
      · simp [putLine, scheduled, queued]
    | running j k scheduled queued last position reading progress =>
      have hj := last.lt
      refine .running held.length k ?_ ?_ hlast hpos reading (progress.append hj (by omega) line)
      · simp [putLine, scheduled]
      · simp [putLine, scheduled, queued]
  | false =>
    have hpos : (d.putLine line).buffer.positionOfLastSync = d.buffer.positionOfLastSync :=
      if_neg (by rw [hsync]; exact Bool.false_ne_true)
    cases h.activity with
    | quiet idle scheduled queued current none =>
      refine .quiet idle ?_ ?_ current ?_
      · simp [putLine, hsync, scheduled]
      · simp [putLine, hsync, queued]
      · intro line' hline'
        rcases mem_append.mp hline' with hline' | hline'
        · exact none line' hline'
        · rw [mem_singleton.mp hline']
          exact hsync
    | waiting j idle scheduled queued current last position =>
      refine .waiting j idle ?_ ?_ current (last.append hsync) (hpos.trans position)
      · simp [putLine, scheduled]
      · simp [putLine, hsync, queued]
    | running j k scheduled queued last position reading progress =>
      refine .running j k ?_ ?_ (last.append hsync) (hpos.trans position) reading
        (progress.append last.lt (Nat.le_refl j) line)
      · simp [putLine, scheduled]
      · simp [putLine, hsync, queued]

theorem hasNextEvent_iff (hpos : b.positionOfLastSync = (struct.size * j : Nat))
    (hreading : b.currentPosition = struct.size * k) : b.hasNextEvent = true ↔ k ≤ j := by
  unfold LinuxEventBuffer.hasNextEvent
  rw [decide_eq_true_iff, hpos, hreading, Int.ofNat_le]
  exact ⟨fun h => Nat.le_of_mul_le_mul_left h (struct_size_pos struct),
    fun h => Nat.mul_le_mul_left _ h⟩

theorem endIteration_inv (h : Inv d done held) (hstage : d.stage = .ending) :
    ∃ done' held', Inv d.endIteration done' held' := by
  cases h.activity with
  | quiet idle | waiting j idle => rw [hstage] at idle; cases idle
  | running j k scheduled queued last position reading progress =>
    rw [hstage] at progress
    obtain ⟨hk, hcur, hpos, sync, hsync, hbytes⟩ := progress
    have hj := last.lt
    have hnxt := hasNextEvent_iff position reading
    refine ⟨done ++ held.take k, held.drop k, ?_, h.holds.compact (by omega) reading, h.failed, ?_,
      ?_, ?_⟩
    · show d.put = _
      rw [h.put_eq, append_assoc, take_append_drop]
    · show (d.iterations ++ [d.current]).flatten = _
      rw [flatten_append, h.iterations_eq, flatten_singleton, hcur]
      exact (map_append ..).symm
    · intro iteration hiteration
      rcases mem_append.mp hiteration with hiteration | hiteration
      · exact h.ends iteration hiteration
      · refine ⟨sync, ?_, hbytes⟩
        have hlast : (held.take k).getLast? = some sync := by
          rw [getLast?_eq_getElem?, length_take, Nat.min_eq_left (by omega),
            getElem?_take_of_lt (by omega)]
          exact hsync
        rw [mem_singleton.mp hiteration, hcur, lineBytes, getLast?_map, hlast]
        rfl
    · by_cases hle : k ≤ j
      · -- a terminator came in after the last test: the processor is scheduled again
        have hyes := hnxt.mpr hle
        refine .waiting (j - k) rfl ?_ ?_ rfl (last.drop hle) ?_
        · simp [endIteration, scheduled, hyes]
        · simp [endIteration, queued, hyes]
        · show d.buffer.positionOfLastSync - d.buffer.currentPosition = _
          rw [position, reading, Nat.mul_sub, Int.ofNat_sub (Nat.mul_le_mul_left _ hle)]
      · have hno : d.buffer.hasNextEvent = false := by
          rw [← Bool.not_eq_true, hnxt]
          exact hle
        refine .quiet rfl ?_ ?_ rfl ?_
        · simp [endIteration, hno]
        · simp [endIteration, hno, queued]
        · intro line hline
          obtain ⟨i, hi⟩ := getElem?_of_mem hline
          rw [getElem?_drop] at hi
          exact last.none_later (k + i) line (by omega) hi

theorem step_inv {d d' : LinuxInputDevice struct} {action : DeviceAction struct}
    (h : ∃ done held, Inv d done held) (hstep : d.step action = some d') :
    ∃ done held, Inv d' done held := by
  obtain ⟨done, held, h⟩ := h
  cases action with
  | put line =>
    rw [step] at hstep
    split at hstep
    · cases hstep
    · next hroom =>
      cases hstep
      exact ⟨done, _, putLine_inv h line hroom⟩
  | run =>
    rw [step] at hstep
    split at hstep
    · next henabled =>
      cases hstep
      refine ⟨done, held, h.put_eq, ⟨h.holds.limit_eq, h.holds.position_eq, h.holds.fits,
        h.holds.take_eq⟩, h.failed, h.iterations_eq, h.ends, ?_⟩
      cases h.activity with
      | quiet idle scheduled queued => exact absurd henabled.2 (by rw [queued]; exact Nat.lt_irrefl 0)
      | waiting j idle scheduled queued current last position =>
        refine .running j 0 scheduled ?_ last position rfl ⟨Nat.zero_le _, current⟩
        show d.queued - 1 = 0
        rw [queued]
      | running j k scheduled queued =>
        exact absurd henabled.2 (by rw [queued]; exact Nat.lt_irrefl 0)
    · cases hstep
  | hasNextEvent =>
    rw [step] at hstep
    split at hstep
    · next hstage =>
      cases hstep
      refine ⟨done, held, h.put_eq, h.holds, h.failed, h.iterations_eq, h.ends, ?_⟩
      cases h.activity with
      | quiet idle | waiting j idle => rw [hstage] at idle; cases idle
      | running j k scheduled queued last position reading progress =>
        rw [hstage] at progress
        obtain ⟨hk, hcur⟩ := progress
        have hnxt := hasNextEvent_iff position reading
        refine .running j k scheduled queued last position reading ?_
        show Progress held j k d.current (if d.buffer.hasNextEvent = true then _ else _)
        split
        · next hyes => exact ⟨hnxt.mp hyes, hcur⟩
        · next hno =>
          -- the line before is the last terminator
          have hkj : k = j + 1 := by
            have : ¬ k ≤ j := fun hle => hno (hnxt.mpr hle)
            omega
          subst hkj
          exact ⟨hk, hcur, succ_pos j, last.sync⟩
    · cases hstep
  | readLine =>
    rw [step] at hstep
    split at hstep
    · next hstage =>
      cases hstep
      cases h.activity with
      | quiet idle | waiting j idle => rw [hstage] at idle; cases idle
      | running j k scheduled queued last position reading progress =>
        rw [hstage] at progress
        obtain ⟨hk, hcur⟩ := progress
        have hj := last.lt
        have hget : held[k]? = some held[k] := getElem?_eq_getElem (by omega)
        obtain ⟨hline, hinside⟩ := h.holds.currentLine hget reading
        refine ⟨done, held, h.put_eq, h.holds, ?_, h.iterations_eq, h.ends,
          .running j k scheduled queued last position reading ⟨hk, ?_⟩⟩
        · show (d.failed || decide _) = false
          rw [h.failed, Bool.false_or, decide_eq_false_iff_not]
          omega
        · show d.current ++ [d.buffer.currentLine struct] = _
          rw [hcur, hline, take_add_one, hget]
          simp only [lineBytes, map_append, Option.toList_some, map_cons, map_nil]
    · cases hstep
  | nextEvent =>
    rw [step] at hstep
    split at hstep
    · next hstage =>
      cases h.activity with
      | quiet idle | waiting j idle => rw [hstage] at idle; cases idle
      | running j k scheduled queued last position reading progress =>
        rw [hstage] at progress
        obtain ⟨hk, hcur⟩ := progress
        have hyes := (hasNextEvent_iff position reading).mpr hk
        have hadvance : d.buffer.nextEvent struct =
            some { d.buffer with currentPosition := d.buffer.currentPosition + struct.size } := by
          unfold LinuxEventBuffer.nextEvent
          rw [if_neg (Int.not_lt.mpr (of_decide_eq_true hyes))]
        rw [hadvance] at hstep
        cases hstep
        refine ⟨done, held, h.put_eq, ⟨h.holds.limit_eq, h.holds.position_eq, h.holds.fits,
          h.holds.take_eq⟩, h.failed, h.iterations_eq, h.ends,
          .running j (k + 1) scheduled queued last position ?_ ⟨by omega, hcur⟩⟩
        show d.buffer.currentPosition + struct.size = _
        rw [reading, mul_succ]
    · cases hstep
  | endIteration =>
    rw [step] at hstep
    split at hstep
    · next hstage =>
      cases hstep
      exact endIteration_inv h hstage
    · cases hstep

/-! ## Every interleaving -/

/-- The lines read so far, over all the iterations. -/
def read (d : LinuxInputDevice struct) : List (List UInt8) := d.iterations.flatten ++ d.current

/-- What has been read are the lines put before those that are left. -/
theorem Inv.read_eq (h : Inv d done held) :
    ∃ n, n ≤ held.length ∧ d.read = lineBytes (done ++ held.take n) ∧ (d.stage = .idle → n = 0) := by
  have hread : ∀ n, d.current = lineBytes (held.take n) →
      d.read = lineBytes (done ++ held.take n) := by
    intro n hcur
    unfold read
    rw [h.iterations_eq, hcur]
    exact (map_append ..).symm
  cases h.activity with
  | quiet idle scheduled queued current => exact ⟨0, Nat.zero_le _, hread 0 current, fun _ => rfl⟩
  | waiting j idle scheduled queued current =>
    exact ⟨0, Nat.zero_le _, hread 0 current, fun _ => rfl⟩
  | running j k scheduled queued last position reading progress =>
    have hj := last.lt
    cases hstage : d.stage with
    | idle =>
      rw [hstage] at progress
      exact progress.elim
    | testing | reading =>
      rw [hstage] at progress
      exact ⟨k, by have := progress.1; omega, hread k progress.2, nofun⟩
    | advancing =>
      rw [hstage] at progress
      exact ⟨k + 1, by have := progress.1; omega, hread (k + 1) progress.2, nofun⟩
    | ending =>
      rw [hstage] at progress
      exact ⟨k, by have := progress.1; omega, hread k progress.2.1, nofun⟩

/-- In every interleaving the lines put are read in order and once, every iteration ends with a
    terminator, nothing is thrown, and the processor is scheduled while a terminator is unread. -/
theorem run_delivers {struct : EventStruct} {actions : List (DeviceAction struct)}
    {d : LinuxInputDevice struct} (h : runActions step (new struct) actions = some d) :
    d.read <+: lineBytes d.put ∧
      (∀ iteration ∈ d.iterations, EndsWithSync struct iteration) ∧
      d.failed = false ∧
      ((∃ line ∈ d.put.drop d.read.length, isSync struct line.bytes = true) →
        0 < d.queued ∨ d.stage ≠ .idle) := by
  obtain ⟨done, held, hinv⟩ := runActions_invariant
    (P := fun d : LinuxInputDevice struct => ∃ done held, Inv d done held)
    (fun _ _ _ hs hstep => step_inv hs hstep) ⟨[], [], inv_new⟩ h
  obtain ⟨n, hn, hread, hidle⟩ := hinv.read_eq
  refine ⟨?_, hinv.ends, hinv.failed, ?_⟩
  · rw [hread, hinv.put_eq]
    refine ⟨lineBytes (held.drop n), ?_⟩
    rw [lineBytes, lineBytes, ← map_append, append_assoc, take_append_drop]
    rfl
  · rintro ⟨line, hline, hsync⟩
    by_contra hcontra
    rw [not_or, Decidable.not_not] at hcontra
    obtain ⟨hqueued, hstage⟩ := hcontra
    have hzero := hidle hstage
    subst hzero
    have hlen : d.read.length = done.length := by
      rw [hread, lineBytes, length_map, take_zero, append_nil]
    rw [hlen, hinv.put_eq, drop_left] at hline
    cases hinv.activity with
    | quiet idle scheduled queued current none =>
      rw [none line hline] at hsync
      cases hsync
    | waiting j idle scheduled queued => exact hqueued (by rw [queued]; exact Nat.one_pos)
    | running j k scheduled queued last position reading progress =>
      rw [hstage] at progress
      exact progress

/-- A line of ones and a terminator, put and read in one iteration. -/
def oneEvent : List (DeviceAction .bits32) :=
  [.put ⟨List.replicate 16 1, rfl⟩, .put ⟨List.replicate 16 0, rfl⟩, .run, .hasNextEvent,
    .readLine, .nextEvent, .hasNextEvent, .readLine, .nextEvent, .hasNextEvent, .endIteration]

theorem run_delivers_oneEvent :
    ∃ d : LinuxInputDevice .bits32, runActions step (new .bits32) oneEvent = some d ∧
      d.read.length = 2 ∧ d.read <+: lineBytes d.put ∧ d.failed = false := by
  have hlen : (runActions step (new .bits32) oneEvent).map (·.read.length) = some 2 := rfl
  obtain ⟨d, hd, hread⟩ := Option.map_eq_some_iff.mp hlen
  exact ⟨d, hd, hread, (run_delivers hd).1, (run_delivers hd).2.2.1⟩

end LinuxInputDevice

end OpenJfx.Monocle
