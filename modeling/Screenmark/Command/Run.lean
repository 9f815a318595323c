/-
  Screenmark — the command.

  The command reads its arguments and its configuration, and then makes a plan
  of the rules and shows it (a dry run), or runs a session for each recording and
  shows what came of it. It is a function of its words and of the files below
  the machine, and tells what it writes and which files there are then.

  * `Command.run` is the command;
  * `Problem` is what can stop it, and `Trouble` what can stop the session of
    one recording.

  What there is beside the files, the zone of the clock and the plug-in, is a
  parameter.
-/
import Screenmark.Command.Config
import Screenmark.Command.Plugin
import Screenmark.Command.Report
import Screenmark.Rule.Reading
import Screenmark.Scan.Stills
import Screenmark.Session.Run
import Screenmark.Toml.Reader

namespace Screenmark

namespace Command

/-! ## What can go wrong -/

/-- Why a recording has no summary. -/
inductive Trouble where
  | noFrameRate
  | frames (folder : String) (cause : Failure)
  | snapshots (path : String) (cause : Failure)
  | logged (path : String) (cause : Failure)
  | session (stem : String) (cause : Failure)

namespace Trouble

/-- The wordings of a failure and of what is below it. -/
def chain (e : Failure) : List String := e.message :: e.reasons

/-- The wordings of a trouble, the nearest first. -/
def reasons : Trouble → List String
  | .noFrameRate => ["Image sequences need a frame rate (--fps or [input] fps)"]
  | .frames folder e => ("Failed to open frames: " ++ Text.quoted folder) :: chain e
  | .snapshots path e =>
    ("Failed to load accessibility snapshots: " ++ Text.quoted path) :: chain e
  | .logged path e => ("Failed to ingest logged series: " ++ Text.quoted path) :: chain e
  | .session stem e => ("Session '" ++ stem ++ "' failed") :: chain e

/-- The wording of a trouble in one line. -/
def message (t : Trouble) : String := ": ".intercalate t.reasons

end Trouble

/-- Why the command fails. -/
inductive Problem where
  | noConfig (path : String) (fault : FileFault)
  | malformedConfig (path : String)
  | invalidConfig (path : String) (threshold : Single)
  | threshold (value : Single)
  | noRulesFile (path : String) (fault : FileFault)
  | logged (path : String) (cause : Failure)
  | rules (fault : RuleFault)
  | noRecordings
  | plugin (path : String) (fault : PluginFault)
  | recordings (failed all : Nat)

namespace Problem

/-- The wording of a threshold that is not from zero to one. -/
def thresholdMessage (x : Single) : String := "Threshold " ++ x.plain ++ " is outside [0, 1]"

/-- The wordings of a problem, the nearest first. -/
def reasons : Problem → List String
  | .noConfig path e => ["Failed to read config file: " ++ Text.quoted path, e.message]
  | .malformedConfig path =>
    ["Failed to parse config file: " ++ Text.quoted path, "the file is malformed"]
  | .invalidConfig path x => ["Invalid config file: " ++ Text.quoted path, thresholdMessage x]
  | .threshold x => [thresholdMessage x]
  | .noRulesFile path e => ["Failed to read rules file: " ++ Text.quoted path, e.message]
  | .logged path e =>
    ("Failed to read logged series: " ++ Text.quoted path) :: Trouble.chain e
  | .rules e => ["Failed to compile rules", e.message]
  | .noRecordings => ["No recordings to process; pass --video or set [input] videos"]
  | .plugin path e => ("Failed to load plug-in: " ++ Text.quoted path) :: e.reasons path
  | .recordings failed all => [toString failed ++ " of " ++ toString all ++ " recordings failed"]

/-- The lines below the first one: one cause alone, or all of them with their
    numbers. -/
def causeLines : List String → List String
  | [] => []
  | [cause] => ["", "Caused by:", "    " ++ cause]
  | causes => ["", "Caused by:"] ++
      causes.zipIdx.map fun (cause, i) => padStart 5 (toString i) ++ ": " ++ cause

/-- The lines that tell a problem. -/
def lines (p : Problem) : List String :=
  match p.reasons with
  | [] => []
  | first :: causes => ("Error: " ++ first) :: causeLines causes

end Problem

/-! ## The configuration -/

/-- The configuration in a file. -/
def loadConfig (files : Tree) (path : String) : Except Problem Config :=
  match files.readText path with
  | .error e => .error (.noConfig path e)
  | .ok content =>
    match (Toml.read? content).bind Config.ofDatum? with
    | none => .error (.malformedConfig path)
    | some c =>
      if c.isValid then .ok c else .error (.invalidConfig path c.settings.threshold)

/-- The configuration that arguments ask for. -/
def configOf (files : Tree) (a : Arguments) : Except Problem Config := do
  let c ← match a.config with
    | none => pure .default
    | some path => loadConfig files path
  let c := c.withArguments a
  if c.isValid then pure c else throw (.threshold c.settings.threshold)

/-- The rules of a configuration: its own, and then those of its file. -/
def Config.allRules (c : Config) (files : Tree) : Except Problem (List String) :=
  match c.rulesFile with
  | none => .ok c.rules
  | some path =>
    match files.readText path with
    | .error e => .error (.noRulesFile path e)
    | .ok content => .ok (c.rules ++ Rule.texts content)

/-! ## Dry runs -/

/-- The names of the series in the files of earlier runs. -/
def loggedNames (c : Config) (files : Tree) (stem : String) : Except Problem (List String) :=
  c.input.logged.foldlM (fun names file =>
    let path := c.input.resolve file stem
    match LoggedFile.load files path c.settings.threshold with
    | .error e => .error (.logged path e)
    | .ok (.firstMinute _) => .ok names
    | .ok (.annotations _ as) => .ok (names ++ as.map (·.name))) []

/-- The plan of the rules for the first recording. -/
def planOf (c : Config) (files : Tree) (rules : List String) : Except Problem Plan := do
  let stem := (c.input.videos.head?.map recordingStem).getD ""
  (Plan.compile rules (← loggedNames c files stem)).mapError .rules

/-! ## Sessions -/

section

variable {π : Type} (m : Machine π) (plugin : Option (Plugin π)) (c : Config)

/-- The frames of a recording. -/
def ownFootage (s : Stills) : Footage (Places π) :=
  s.footage Places.own fun n p => { p with own := n }

/-- Opens a folder of frames. -/
def openFrames (fps : Single) (files : Tree) (folder : String) (p : Places π) :
    Except Failure (Footage (Places π)) × Places π :=
  ((Stills.open? files folder fps).map (·.footage Places.other fun n p => { p with other := n }),
    { p with other := 0 })

/-- The instruments without the frames of the recording. -/
def logInstruments (files : Tree) (stem : String) :
    Except Trouble (Instruments (Places π)) := do
  let snapshots ← match c.input.snapshotLog with
    | none => pure none
    | some log =>
      let path := c.input.resolve log stem
      match SnapshotLog.load files path with
      | .ok log => pure (some log)
      | .error e => throw (.snapshots path e)
  pure { Instruments.none with
    matcher := plugin.map Plugin.matcher
    recogniser := plugin.map Plugin.recogniser
    snapshots := snapshots.map fun log frame p => (log.at? frame, p)
    events := c.input.hookLog.map fun log files p =>
      (InputLog.load m.zone files (c.input.resolve log stem), p) }

/-- The instruments for a recording. -/
def instruments (files : Tree) (stem : String) : Except Trouble (Instruments (Places π)) :=
  match c.input.frames with
  | none => logInstruments m plugin c files stem
  | some frames => do
    let folder := c.input.resolve frames stem
    match c.input.frameRate c.settings with
    | none => throw .noFrameRate
    | some fps =>
      match Stills.open? files folder fps with
      | .error e => throw (.frames folder e)
      | .ok stills =>
        let logs ← logInstruments m plugin c files stem
        pure { logs with footage := some (ownFootage stills), recordings := some (openFrames fps) }

/-- Takes in the files of earlier runs, up to the first that fails. -/
def ingestAll (s : Session (Places π)) :
    List String → Except Trouble Unit × Session (Places π)
  | [] => (.ok (), s)
  | path :: paths =>
    match s.ingest path with
    | (.ok _, s) => ingestAll s paths
    | (.error e, s) => (.error (.logged path e), s)

/-- What one session leaves to the next. -/
structure Ground (π : Type) where
  files : Tree
  /-- What the plug-in remembers. -/
  memory : π

/-- The session for a recording. -/
def sessionOf (g : Ground π) (video : String) (i : Instruments (Places π)) : Session (Places π) :=
  Session.start c.sessionSettings c.input.dataFolder video i ⟨0, 0, g.memory⟩ g.files

/-- What a session leaves. -/
def groundOf (s : Session (Places π)) : Ground π := ⟨s.work.files, s.work.world.plugin⟩

/-- Runs the session for a recording. -/
def process (rules : List String) (g : Ground π) (video : String) :
    Except Trouble Summary × Ground π :=
  let stem := recordingStem video
  match instruments m plugin c g.files stem with
  | .error e => (.error e, g)
  | .ok i =>
    let logged := c.input.logged.map fun file => c.input.resolve file stem
    match ingestAll (sessionOf c g video i) logged with
    | (.error e, s) => (.error e, groundOf s)
    | (.ok _, s) =>
      let (r, s) := s.run rules
      (r.mapError (.session stem), groundOf s)

/-- Runs the sessions for recordings. Several of them may run at a time, in whatever order
    they come to the files and to the plug-in; here each begins when the one before it has
    ended. -/
def processAll (rules : List String) (g : Ground π) : List String → List Processed × Ground π
  | [] => ([], g)
  | video :: videos =>
    let (r, g) := process m plugin c rules g video
    let (ps, g) := processAll rules g videos
    (⟨video, r.mapError Trouble.message⟩ :: ps, g)

/-- The plug-in of the configuration, if it has one. -/
def loadPlugin : Except Problem (Option (Plugin π)) :=
  match c.plugin with
  | none => .ok none
  | some path =>
    match m.load path with
    | .ok p => .ok (some p)
    | .error e => .error (.plugin path e)

end

/-! ## The command -/

/-- What the command does: what it writes, why it fails, and the files after
    it. -/
structure Outcome where
  code : Nat
  output : String
  problem : Option Problem
  files : Tree

namespace Outcome

/-- A command that does what it was asked to. -/
def success (output : String) (files : Tree) : Outcome := ⟨0, output, none, files⟩

/-- A command that fails. -/
def failure (output : String) (p : Problem) (files : Tree) : Outcome := ⟨1, output, some p, files⟩

/-- A command that does not understand its arguments. -/
def refused (files : Tree) : Outcome := ⟨2, "", none, files⟩

end Outcome

/-- The name and version of the command. -/
def versionLine : String := "annotation-cli 0.1.0\n"

/-- Help for the arguments. -/
def help : String := unlines ("Usage: annotation-cli [OPTIONS]" :: "" :: "Options:" ::
  Choice.all.map fun c =>
    (match c.short? with
      | some s => "  -" ++ String.ofList [s] ++ ", --"
      | none => "      --") ++ c.long ++ (if c.takesValue then " <VALUE>" else ""))

section

variable {π : Type} (m : Machine π)

/-- Runs the sessions of a configuration. -/
def runSessions (c : Config) (rules : List String) (files : Tree) : Outcome :=
  if c.input.videos.isEmpty then .failure "" .noRecordings files
  else
    match loadPlugin m c with
    | .error p => .failure "" p files
    | .ok plugin =>
      let (ps, g) := processAll m plugin c rules ⟨files, m.fresh⟩ c.input.videos
      if failures ps = 0 then .success (runReport ps) g.files
      else .failure (runReport ps) (.recordings (failures ps) ps.length) g.files

/-- Runs the command for a configuration. -/
def runConfig (c : Config) (rules : List String) (dryRun : Bool) (files : Tree) : Outcome :=
  if rules = [] then .success noRules files
  else if dryRun then
    match planOf c files rules with
    | .ok p => .success (planReport p) files
    | .error e => .failure "" e files
  else runSessions m c rules files

/-- Runs the command with its words. -/
def run (files : Tree) (words : List String) : Outcome :=
  match Arguments.read? words with
  | none => .refused files
  | some .version => .success versionLine files
  | some .help => .success help files
  | some (.run a) =>
    match do
      let c ← configOf files a
      let rules ← c.allRules files
      pure (c, rules) with
    | .error e => .failure "" e files
    | .ok (c, rules) => runConfig m c rules a.dryRun files

end

end Command

end Screenmark
