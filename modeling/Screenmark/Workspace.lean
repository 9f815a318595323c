/-
  Screenmark — what a session works on.

  A session works on its files, its tracks and its status, beside a world that
  the library does not know: the recording and the programs that look at its
  frames. `Work` are the steps on all of them that can fail; a step that fails
  leaves what it did until then.
-/
import Screenmark.Output.Outlet
import Screenmark.Series.Tracks
import Screenmark.Status

namespace Screenmark

/-- What a session works on. -/
structure Workspace (σ : Type) where
  /-- The recording and the programs that look at it. -/
  world : σ
  files : Tree
  tracks : Tracks
  status : Status

/-- A step that can fail. -/
abbrev Work (σ : Type) := EStateM Failure (Workspace σ)

namespace Work

variable {σ α : Type}

/-- A result that does not hang on the workspace. -/
def ofExcept : Except Failure α → Work σ α
  | .ok a => pure a
  | .error e => throw e

/-- Shows a phase. -/
def enter (p : Phase) : Work σ Unit := modify fun w => { w with status := w.status.enter p }

/-- Shows the progress. -/
def advance (progress : Single) : Work σ Unit :=
  modify fun w => { w with status := w.status.advance progress }

/-- Shows a warning about a subject. -/
def warn (subject message : String) : Work σ Unit :=
  modify fun w => { w with status := w.status.warn subject message }

/-- Puts in a complete track. -/
def insert (name : String) (t : Track) : Work σ Unit :=
  modify fun w => { w with tracks := w.tracks.insert name t }

/-- Changes the files, or fails. -/
def changeFiles (f : Tree → Except Failure (Tree × α)) : Work σ α := do
  match f (← get).files with
  | .ok (t, a) =>
    modify fun w => { w with files := t }
    pure a
  | .error e => throw e

/-- Writes a timeline of segments, unless timelines are not wanted. -/
def writeSegments (o : Outlet) (name : String) (segments : List Segment) (frames : Nat)
    (p : Provenance) : Work σ (List String) :=
  changeFiles fun t => o.writeSegments t name segments frames p

/-- Writes a timeline of overlays, unless overlays are not wanted. -/
def writeOverlays (o : Outlet) (name : String) (overlays : List Overlay) (frames : Nat)
    (p : Provenance) : Work σ (List String) :=
  changeFiles fun t => o.writeOverlays t name overlays frames p

/-- Opens a sheet. -/
def openSheet (s : Sheet) : Work σ Unit :=
  changeFiles fun t => (Outlet.openSheet t s).map (·, ())

/-- Keeps the records of sheets: all that can be written, even if that fails for some. -/
def keepSheets (ss : List Sheet) : Work σ Unit := do
  let t := (← get).files
  modify fun w => { w with files := ss.foldl Outlet.keepSheet t }
  match Outlet.keepFault? t ss with
  | none => pure ()
  | some e => throw e

end Work

end Screenmark
