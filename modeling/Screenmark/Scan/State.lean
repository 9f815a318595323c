/-
  Screenmark — the state of a scan.

  A scan goes through the frames of a recording once. The *cursor* is the frame
  that is worked on and where the footage stands; the image of a frame is read
  when the first target needs it, and kept for the others. The *log* says for
  every frame that is done which targets were worked out, what was observed for
  each, and how its image was had. The *report* counts moves, images, failures and
  frames as they come.
-/
import Screenmark.Scan.Instruments
import Screenmark.Scan.Trigger
import Screenmark.Workspace

namespace Screenmark

/-! ## The cursor -/

/-- The frame that is worked on, and where the footage stands. -/
structure Cursor where
  frame : Nat
  /-- The frame whose image was read last. -/
  latest : Option Nat
  /-- Whether the place of the footage is not known, since it failed. -/
  isLost : Bool
deriving DecidableEq

namespace Cursor

/-- Before the first frame. -/
def start : Cursor := ⟨0, none, false⟩

/-- The frame that is read next. -/
def upcoming (c : Cursor) : Nat :=
  match c.latest with
  | some f => f + 1
  | none => 0

/-- Whether the footage has to be moved to read the frame. -/
def needsSeek (c : Cursor) : Bool := c.isLost || c.upcoming != c.frame

end Cursor

/-! ## The log -/

/-- How the image of a frame was had. -/
inductive ImageUse where
  | unneeded
  | failed
  | decoded
deriving DecidableEq

/-- What was observed for one target at one frame. -/
structure LogEntry where
  /-- The place of the target among the targets. -/
  place : Nat
  triggered : Bool
  observed : Observation
deriving DecidableEq

/-- What happened at one frame; the entries stand in the order in which the
    targets were worked out. -/
structure FrameRecord where
  entries : List LogEntry
  image : ImageUse
  sought : Bool
deriving DecidableEq

namespace FrameRecord

/-- Whether no target was worked out. -/
def isIdle (r : FrameRecord) : Bool := r.entries.all (!·.triggered)

/-- The observation for a target, in the order of the targets. -/
def observed (r : FrameRecord) (place : Nat) (t : Target) : Observation :=
  ((r.entries.find? (·.place = place)).map (·.observed)).getD (.neutral t.kind)

/-- The observations for all targets, in their order. -/
def row (r : FrameRecord) (ts : List Target) : List Observation :=
  ts.zipIdx.map fun (t, i) => r.observed i t

end FrameRecord

/-- What a scan counts. -/
structure ScanReport where
  frames : Nat
  decoded : Nat
  seeks : Nat
  failures : Nat
  /-- The frames at which no target was worked out. -/
  idle : Nat
  aborted : Bool
  tables : List String
deriving DecidableEq

namespace ScanReport

/-- A scan without frames. -/
def empty : ScanReport := ⟨0, 0, 0, 0, 0, false, []⟩

/-- One move of the footage more. -/
def countSeek (r : ScanReport) : ScanReport := { r with seeks := r.seeks + 1 }

/-- One image more. -/
def countDecoded (r : ScanReport) : ScanReport := { r with decoded := r.decoded + 1 }

/-- One frame more whose image could not be had. -/
def countFailure (r : ScanReport) : ScanReport := { r with failures := r.failures + 1 }

/-- A frame that is done, after which there are `frames`. -/
def countFrame (r : ScanReport) (frames : Nat) (isIdle : Bool) : ScanReport :=
  { r with frames := frames, idle := if isIdle then r.idle + 1 else r.idle }

end ScanReport

/-! ## Sheets -/

/-- The sheets of a scan: one of all targets, and one of each. -/
structure Sheets where
  combined : Sheet
  own : List Sheet
deriving DecidableEq

namespace Sheets

/-- The columns of a target. -/
def columns (t : Target) : List String := observationColumns t.name t.action.columnSuffix

/-- The sheets of targets, without records. -/
def start (o : Outlet) (ts : List Target) : Sheets where
  combined := .start (o.combinedPath (ts.map (·.name))) ("Frame" :: ts.flatMap columns)
  own := ts.map fun t => .start (o.sheetPath t.name) ("Frame" :: columns t)

/-- Writes the observations of a frame into the sheets of single targets. -/
def writeOwn (frame : Nat) : List Sheet → List Observation → Except Failure (List Sheet)
  | s :: ss, o :: os => do
    let s ← s.writeFrame frame [o]
    pure (s :: (← writeOwn frame ss os))
  | ss, _ => .ok ss

/-- The sheets with the observations of one frame more. -/
def write (s : Sheets) (frame : Nat) (row : List Observation) : Except Failure Sheets := do
  let combined ← s.combined.writeFrame frame row
  pure ⟨combined, ← writeOwn frame s.own row⟩

/-- All sheets. -/
def all (s : Sheets) : List Sheet := s.combined :: s.own

end Sheets

/-! ## The state -/

/-- The image of the frame that is worked on. -/
inductive FrameImage where
  | untouched
  | failed
  | ready (image : GreyImage)

/-- How the image was had. -/
def FrameImage.use : FrameImage → ImageUse
  | .untouched => .unneeded
  | .failed => .failed
  | .ready _ => .decoded

/-- What the frames of a scan change. -/
structure ScanState (σ : Type) where
  work : Workspace σ
  cursor : Cursor
  image : FrameImage
  /-- Whether the footage was moved for this frame. -/
  sought : Bool
  sheets : Option Sheets
  /-- What was counted so far. -/
  report : ScanReport
  /-- What happened at the frames that are done, the latest first. -/
  log : List FrameRecord

/-- A step of a scan. -/
abbrev Scanning (σ : Type) := EStateM Failure (ScanState σ)

namespace Scanning

variable {σ α : Type}

/-- A result that does not hang on the state. -/
def ofExcept : Except Failure α → Scanning σ α
  | .ok a => pure a
  | .error e => throw e

/-- A step on the workspace. -/
def onWork (m : Work σ α) : Scanning σ α := fun s =>
  match m s.work with
  | .ok a w => .ok a { s with work := w }
  | .error e w => .error e { s with work := w }

/-- Counts something. -/
def count (f : ScanReport → ScanReport) : Scanning σ Unit :=
  modify fun s => { s with report := f s.report }

/-- A use of an instrument. -/
def use (f : σ → α × σ) : Scanning σ α := fun s =>
  let (a, w) := f s.work.world
  .ok a { s with work := { s.work with world := w } }

end Scanning

end Screenmark
