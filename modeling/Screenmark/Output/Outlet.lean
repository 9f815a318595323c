/-
  Screenmark — the files that a session writes.

  An outlet is a folder and the name of a recording, from which the names of all
  files follow: a sheet of all targets, sheets of single series, and timelines.
  Which of them are written is chosen by the settings.

  A sheet is there from its start on, at first with the column names alone; its
  records are held back, and put into the file when the sheet is `kept`.
-/
import Screenmark.Files.Tree
import Screenmark.Output.Sheet
import Screenmark.Output.Timeline
import Screenmark.Settings

namespace Screenmark

/-- Where and how files are written. -/
structure Outlet where
  folder : String
  stem : String
  clock : Clock
  processor : String
  outputs : Outputs

namespace Outlet

/-! ## Names of files -/

/-- The sheet of all targets. -/
def combinedPath (o : Outlet) (names : List String) : String :=
  Path.join o.folder (o.stem ++ String.join (names.map ("+" ++ ·)) ++ ".csv")

/-- The sheet of one series. -/
def sheetPath (o : Outlet) (name : String) : String :=
  Path.join o.folder (o.stem ++ "_" ++ name ++ ".csv")

/-- The sheet of the starts and ends of nested runs. -/
def startEndPath (o : Outlet) (name : String) : String :=
  Path.join o.folder (o.stem ++ "_" ++ name ++ "StartEnd.csv")

/-- The timeline of segments. -/
def segmentsPath (o : Outlet) (name : String) : String :=
  Path.join o.folder (o.stem ++ "-" ++ name ++ "-segments.json")

/-- The timeline of overlays. -/
def overlaysPath (o : Outlet) (name : String) : String :=
  Path.join o.folder (o.stem ++ "-" ++ name ++ "-overlays.json")

/-! ## Writing -/

/-- The tree with a text written. -/
def writeText (t : Tree) (path text : String) : Except Failure Tree :=
  (t.write path (.text text)).mapError (.unwritten path)

/-- The timeline of entries. -/
def timeline (o : Outlet) (name : String) (entries : Entries) (frames : Nat) (p : Provenance) :
    Timeline :=
  ⟨o.stem ++ "-" ++ name, entries, frames, o.clock, p, o.processor⟩

/-- The tree with a timeline of segments, and its path, unless timelines are not
    wanted. -/
def writeSegments (o : Outlet) (t : Tree) (name : String) (segments : List Segment)
    (frames : Nat) (p : Provenance) : Except Failure (Tree × List String) :=
  if o.outputs.timelines then
    let path := o.segmentsPath name
    (writeText t path (o.timeline name (.segments segments) frames p).text).map (·, [path])
  else .ok (t, [])

/-- The tree with a timeline of overlays, and its path, unless overlays are not
    wanted. -/
def writeOverlays (o : Outlet) (t : Tree) (name : String) (overlays : List Overlay)
    (frames : Nat) (p : Provenance) : Except Failure (Tree × List String) :=
  if o.outputs.overlays then
    let path := o.overlaysPath name
    (writeText t path (o.timeline name (.overlays overlays) frames p).text).map (·, [path])
  else .ok (t, [])

/-- The tree with a sheet that is still without records. -/
def openSheet (t : Tree) (s : Sheet) : Except Failure Tree := writeText t s.path s.header

/-- The tree with the records of a sheet that was opened before; it stays as it is if
    they cannot be written. -/
def keepSheet (t : Tree) (s : Sheet) : Tree := (writeText t s.path s.text).toOption.getD t

/-- The first fault when sheets are kept, one after the other. -/
def keepFault? (t : Tree) : List Sheet → Option Failure
  | [] => none
  | s :: ss =>
    match writeText t s.path s.text with
    | .ok t => keepFault? t ss
    | .error e => some e

end Outlet

end Screenmark
