/-
  Screenmark — sessions.

  A session is about one recording. It has its settings, the folder with its
  data, the name of the recording and the instruments to look at it; it keeps
  the first minute, if it was given one, and whether it was told to stop.

  `Session.ingest` takes in a file of an earlier run: tracks, which must be as
  long as each other up to one frame, or a first minute.
-/
import Screenmark.Session.Logs
import Screenmark.Workspace

namespace Screenmark

/-- One recording and what is known about it. -/
structure Session (σ : Type) where
  settings : Settings
  /-- The folder of templates, and of the files written if no other is given. -/
  dataFolder : String
  /-- The name of the recording. -/
  stem : String
  instruments : Instruments σ
  firstMinute : Option FirstMinute
  /-- Whether the session was told to stop. -/
  stopped : Bool
  work : Workspace σ

namespace Session

variable {σ : Type}

/-- A session without tracks, for a recording given by its path. -/
def start (settings : Settings) (dataFolder video : String) (instruments : Instruments σ)
    (world : σ) (files : Tree) : Session σ where
  settings := settings
  dataFolder := dataFolder
  stem := recordingStem video
  instruments := instruments
  firstMinute := none
  stopped := false
  work := ⟨world, files, .empty settings.threshold, .initial⟩

/-- The session after it was told to stop. -/
def stop (s : Session σ) : Session σ := { s with stopped := true }

/-- The folder of the files written. -/
def outputFolder (s : Session σ) : String := s.settings.outputDir.getD s.dataFolder

/-- The file of a template. -/
def templatePath (s : Session σ) (name : String) : String :=
  Path.join s.dataFolder (name ++ ".png")

/-- The session after a step on its workspace. -/
def after {α : Type} (s : Session σ) (m : Work σ α) : Except Failure α × Session σ :=
  match m s.work with
  | .ok a w => (.ok a, { s with work := w })
  | .error e w => (.error e, { s with work := w })

/-! ## Files of earlier runs -/

/-- Puts in a track of an earlier run, with the size of its template if there is
    one. -/
def addLogged (s : Session σ) (a : LoggedAnnotation) : Work σ Unit := do
  let path := s.templatePath a.name
  let files := (← get).files
  if files.contains path then
    let p ← Work.ofExcept (files.readPicture path)
    Work.insert a.name { a.track with template := some p.size }
  else Work.insert a.name a.track

/-- Takes in what a file holds; gives the first minute, if it is one. -/
def takeIn (s : Session σ) (f : LoggedFile) : Work σ (Option FirstMinute) := do
  match f with
  | .firstMinute m => return some m
  | .annotations _ as =>
    as.forM s.addLogged
    let tracks := (← get).tracks
    Work.ofExcept (tracks.checkAligned tracks.loggedNames)
    return none

/-- Reads a file and takes in what it holds. -/
def readLogged (s : Session σ) (path : String) : Work σ (Option FirstMinute) := do
  Work.enter .ingesting
  s.takeIn (← Work.ofExcept (LoggedFile.load (← get).files path s.settings.threshold))

/-- The session with a file of an earlier run taken in. -/
def ingest (s : Session σ) (path : String) : Except Failure Unit × Session σ :=
  match s.after (s.readLogged path) with
  | (.ok first, s) => (.ok (), { s with firstMinute := first.or s.firstMinute })
  | (.error e, s) => (.error e, s)

end Session

end Screenmark
