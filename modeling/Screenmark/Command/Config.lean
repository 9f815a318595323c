/-
  Screenmark — the configuration of the command.

  A configuration says which recordings to process, where their files are, which
  rules apply and with which settings. It comes from a file, if there is one, and
  the arguments change it: lists of recordings are replaced, lists of rules and
  of logged files grow, and every other argument takes the place of the value in
  the file.

  The paths of a configuration are seen from its data folder, and in them a mark
  stands for the name of the recording.
-/
import Screenmark.Command.Arguments
import Screenmark.Files.Path
import Screenmark.Settings

namespace Screenmark

namespace Command

/-- What is looked at. -/
structure Input where
  dataFolder : String
  videos : List String
  /-- The folder of the frames. -/
  frames : Option String
  /-- The frame rate of the frames. -/
  fps : Option Single
  /-- Files of earlier runs. -/
  logged : List String
  hookLog : Option String
  snapshotLog : Option String

/-- A configuration. -/
structure Config where
  input : Input
  rules : List String
  rulesFile : Option String
  settings : Settings
  plugin : Option String

namespace Input

/-- The input where nothing is given. -/
def default : Input := ⟨".", [], none, none, [], none, none⟩

/-- The mark in paths that stands for the name of the recording. -/
def stemMark : String := "\x7bstem\x7d"

/-- The path of a file for the recording with the given name. -/
def resolve (i : Input) (path stem : String) : String :=
  Path.join i.dataFolder (Text.replaceAll stemMark stem path)

/-- The frame rate of the frames. -/
def frameRate (i : Input) (s : Settings) : Option Single := i.fps.or s.fps

/-- The input in a configuration file. -/
def ofDatum? (d : Datum) : Option Input := do
  let fs ← d.fields? ["data_dir", "videos", "frames", "fps", "logged", "hook_log",
    "accessibility_log"] 7
  let field (i : Nat) : Option Datum := fs[i]?.getD none
  let texts (i : Nat) : Option (List String) :=
    Datum.withDefault [] (Datum.list? Datum.string?) (field i)
  some {
    dataFolder := ← Datum.withDefault default.dataFolder Datum.string? (field 0)
    videos := ← texts 1
    frames := ← Datum.optional Datum.string? (field 2)
    fps := ← Datum.optional Datum.single? (field 3)
    logged := ← texts 4
    hookLog := ← Datum.optional Datum.string? (field 5)
    snapshotLog := ← Datum.optional Datum.string? (field 6) }

end Input

namespace Config

/-- The configuration where nothing is given. -/
def default : Config := ⟨.default, [], none, .default, none⟩

/-- The rules and the file of further rules in a configuration file. -/
def rulesOf? (d : Datum) : Option (List String × Option String) := do
  let fs ← d.fields? ["definitions", "file"] 2
  some (← Datum.withDefault [] (Datum.list? Datum.string?) (fs[0]?.getD none),
    ← Datum.optional Datum.string? (fs[1]?.getD none))

/-- The library of the plug-in in a configuration file. -/
def pluginOf? (d : Datum) : Option (Option String) := do
  let fs ← d.fields? ["library"] 1
  Datum.optional Datum.string? (fs[0]?.getD none)

/-- The configuration that a file says. -/
def ofDatum? (d : Datum) : Option Config := do
  let fs ← d.fields? ["input", "rules", "engine", "plugin"] 0
  let field (i : Nat) : Option Datum := fs[i]?.getD none
  let (rules, rulesFile) ← Datum.withDefault ([], none) rulesOf? (field 1)
  some {
    input := ← Datum.withDefault .default Input.ofDatum? (field 0)
    rules := rules
    rulesFile := rulesFile
    settings := ← Datum.withDefault .default Settings.ofDatum? (field 2)
    plugin := ← Datum.withDefault none pluginOf? (field 3) }

/-- The configuration changed by arguments. -/
def withArguments (c : Config) (a : Arguments) : Config where
  input := {
    dataFolder := a.dataFolder.getD c.input.dataFolder
    videos := if a.videos = [] then c.input.videos else a.videos
    frames := a.frames.or c.input.frames
    fps := a.fps.or c.input.fps
    logged := c.input.logged ++ a.logged
    hookLog := c.input.hookLog
    snapshotLog := c.input.snapshotLog }
  rules := c.rules ++ a.rules
  rulesFile := a.rulesFile.or c.rulesFile
  settings := { c.settings with
    outputDir := a.output.or c.settings.outputDir
    threshold := a.threshold.getD c.settings.threshold }
  plugin := a.plugin.or c.plugin

/-- Whether the threshold is from zero to one. -/
def isValid (c : Config) : Bool :=
  Binary.zero ≤ c.settings.threshold && c.settings.threshold ≤ Binary.one

/-- The settings of a session: without a frame rate of their own they have that
    of the input. -/
def sessionSettings (c : Config) : Settings :=
  { c.settings with fps := c.settings.fps.or c.input.fps }

end Config

end Command

end Screenmark
