/-
  Screenmark — running a session.

  A run makes a plan of its rules, makes and loads templates, scans the frames,
  applies the rules for events and derives further series, in this order; the
  status shows each phase. A session that is stopped during the scan does neither
  of the last two. Whatever fails ends the run, but the files written until then
  stay.

  `Session.run` gives the summary of the run, and the session after it.
-/
import Screenmark.Derivation.Run
import Screenmark.Scan.Run
import Screenmark.Session.Hooks

namespace Screenmark

/-- What a run did. -/
structure Summary where
  stem : String
  frames : Nat
  fps : Single
  rules : Nat
  scan : ScanReport
  hookSegments : Nat
  derivation : DerivationReport
  /-- All files written. -/
  files : List String
  aborted : Bool
  counts : TrackCounts
deriving DecidableEq

namespace Session

variable {σ : Type}

/-- The frame rate, the number of frames and the size of the frames. Without
    footage the longest track tells how many there are. -/
structure Shape where
  fps : Single
  frames : Nat
  width : Nat
  height : Nat

/-- The shape of a recording with the given tracks. -/
def shape (s : Session σ) (ts : Tracks) : Except Failure Shape :=
  match s.instruments.footage, s.settings.fps with
  | some f, _ => .ok ⟨f.fps, f.frames, f.width, f.height⟩
  | none, some fps => .ok ⟨fps, ts.longest, 0, 0⟩
  | none, none => .error (.input .noFrameRate)

/-- The clock of the recording. -/
def clock (s : Session σ) (fps : Single) : Clock :=
  match s.firstMinute with
  | some m => (Clock.ofStem s.stem fps).withFirstMinute m
  | none => .ofStem s.stem fps

/-- Where and how the session writes files. -/
def outlet (s : Session σ) (fps : Single) : Outlet :=
  ⟨s.outputFolder, s.stem, s.clock fps, s.settings.processor, s.settings.outputs⟩

/-- Creates the folder of the files. -/
def createFolder (folder : String) : Work σ Unit := Work.changeFiles fun t =>
  match t.createFolders folder with
  | .ok t => .ok (t, ())
  | .error e => .error (.unwritten folder e)

/-! ## Timelines of tracks -/

/-- Writes the timelines of a track. -/
def writeTrack (s : Session σ) (o : Outlet) (sh : Shape) (name : String) (t : Track)
    (hasOverlays : Bool) (p : Provenance) : Work σ (List String) := do
  let threshold := s.settings.threshold
  let files ← Work.writeSegments o name (t.segments threshold name) sh.frames p
  if hasOverlays then
    return files ++ (← Work.writeOverlays o name (t.overlays threshold sh.width sh.height name)
      sh.frames p)
  else return files

/-- Writes the timelines of a track of an earlier run. -/
def writeLogged (s : Session σ) (o : Outlet) (sh : Shape) (name : String) :
    Work σ (List String) := do
  match (← get).tracks.find? name with
  | none => return []
  | some t => s.writeTrack o sh name t t.template.isSome ⟨name, "logged", .vision⟩

/-- Where the entries of a target come from. -/
def sourceOf (t : Target) : SourceTag :=
  match t.stage with
  | .accessibility => .accessibility
  | .template | .text _ => .vision

/-- Writes the timelines of a target. -/
def writeTarget (s : Session σ) (o : Outlet) (sh : Shape) (t : Target) : Work σ (List String) := do
  match (← get).tracks.find? t.name with
  | none => return []
  | some track =>
    s.writeTrack o sh t.name track (t.stage = .template) ⟨t.label, t.action.name, sourceOf t⟩

/-- The files of one step after another. -/
def collect {α : Type} (f : α → Work σ (List String)) : List α → Work σ (List String)
  | [] => pure []
  | a :: as => do
    let files ← f a
    return files ++ (← collect f as)

/-! ## The run -/

/-- What comes after the scan, for a session that was not stopped. -/
def finish (s : Session σ) (p : Plan) (o : Outlet) (sh : Shape) (m : Summary) :
    Work σ Summary := do
  Work.enter .inputHooks
  let (segments, hookFiles) ← s.applyHooks p o sh.frames sh.width sh.height
  let derivation ← Derivation.run s.settings p sh.frames (some o)
  Work.advance .one
  return { m with
    hookSegments := segments
    derivation := derivation
    files := m.files ++ hookFiles ++ derivation.files
    counts := (← get).tracks.counts }

/-- The phases of a run. -/
def phases (s : Session σ) (rules : List String) : Work σ Summary := do
  Work.enter .compiling
  let tracks := (← get).tracks
  let plan ← Work.ofExcept ((Plan.compile rules tracks.loggedNames).mapError .rules)
  let sh ← Work.ofExcept (s.shape tracks)
  let o := s.outlet sh.fps
  createFolder o.folder
  let logged ← if s.settings.outputs.loggedTimelines then
      collect (s.writeLogged o sh) tracks.loggedNames
    else pure []
  Work.enter .preparing
  s.makeTemplates plan
  let templates ← Work.ofExcept (s.loadTemplates plan (← get).files)
  let scan : Scan σ := ⟨plan, s.settings, templates, s.instruments, s.stopped⟩
  let report ← scan.run sh.frames (some o)
  let timelines ← collect (s.writeTarget o sh) scan.targets
  let summary : Summary := {
    stem := s.stem
    frames := sh.frames
    fps := sh.fps
    rules := plan.rules.length
    scan := report
    hookSegments := 0
    derivation := Derivation.noReport
    files := logged ++ report.tables ++ timelines
    aborted := report.aborted
    counts := (← get).tracks.counts }
  if report.aborted then return summary else s.finish plan o sh summary

/-- What the status shows after a run. -/
def doneMessage (m : Summary) : String :=
  m.stem ++ ": " ++ toString m.frames ++ " frames, " ++ toString m.files.length ++ " files"

/-- The status after a run. -/
def statusAfter (r : Except Failure Summary) (s : Status) : Status :=
  match r with
  | .ok m => s.succeed (if m.aborted then .aborted else .done) (doneMessage m)
  | .error e => s.fail s.phase e.message

/-- Runs the session: the summary or the failure, and the session after it. -/
def run (s : Session σ) (rules : List String) : Except Failure Summary × Session σ :=
  let (r, s) := s.after (s.phases rules)
  (r, { s with work := { s.work with status := statusAfter r s.work.status } })

end Session

end Screenmark
