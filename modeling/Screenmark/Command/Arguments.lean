/-
  Screenmark — the arguments of the command.

  An option has a long name after two dashes and perhaps a short one, a single
  character after one dash. Some options take a value: the rest of the word
  after `=`, the rest of a word of short names, or the next word, which must not
  look like an option. An option that is not a list may be given once. There are
  no other arguments.

  * `Arguments.read?` is what the words ask for; the first fault, or the first
    question for the version or for help, decides.
-/
import Screenmark.Binary.Reading
import Screenmark.Text.Lines
import Screenmark.Text.Numeral
import Screenmark.Word

namespace Screenmark

namespace Command

/-! ## Options -/

/-- An option of the command. -/
inductive Choice where
  | config | video | dataFolder | frames | fps | rule | rulesFile | logged | plugin
  | output | threshold | dryRun | jobs | verbose | quiet | help | version
deriving DecidableEq

namespace Choice

/-- All options. -/
def all : List Choice := [.config, .video, .dataFolder, .frames, .fps, .rule, .rulesFile,
  .logged, .plugin, .output, .threshold, .dryRun, .jobs, .verbose, .quiet, .help, .version]

/-- The long name of an option. -/
def long : Choice → String
  | .config => "config"
  | .video => "video"
  | .dataFolder => "data-dir"
  | .frames => "frames"
  | .fps => "fps"
  | .rule => "rule"
  | .rulesFile => "rules-file"
  | .logged => "logged"
  | .plugin => "plugin"
  | .output => "output"
  | .threshold => "threshold"
  | .dryRun => "dry-run"
  | .jobs => "jobs"
  | .verbose => "verbose"
  | .quiet => "quiet"
  | .help => "help"
  | .version => "version"

/-- The short name of an option. -/
def short? : Choice → Option Char
  | .config => some 'c'
  | .dataFolder => some 'd'
  | .rule => some 'r'
  | .output => some 'o'
  | .jobs => some 'j'
  | .verbose => some 'v'
  | .quiet => some 'q'
  | .help => some 'h'
  | .version => some 'V'
  | _ => none

/-- Whether an option takes a value. -/
def takesValue : Choice → Bool
  | .dryRun | .verbose | .quiet | .help | .version => false
  | _ => true

/-- The option with a long name. -/
def ofLong? (name : String) : Option Choice := all.find? (·.long = name)

/-- The option with a short name. -/
def ofShort? (c : Char) : Option Choice := all.find? (·.short? = some c)

end Choice

/-! ## Values -/

/-- What the arguments of a run say. -/
structure Arguments where
  config : Option String
  videos : List String
  dataFolder : Option String
  frames : Option String
  fps : Option Single
  rules : List String
  rulesFile : Option String
  logged : List String
  plugin : Option String
  output : Option String
  threshold : Option Single
  dryRun : Bool
  jobs : Option Nat
  verbosity : Nat
  quiet : Bool

/-- What the arguments ask for. -/
inductive Request where
  | version
  | help
  | run (a : Arguments)

namespace Arguments

/-- No arguments. -/
def none : Arguments where
  config := .none
  videos := []
  dataFolder := .none
  frames := .none
  fps := .none
  rules := []
  rulesFile := .none
  logged := []
  plugin := .none
  output := .none
  threshold := .none
  dryRun := false
  jobs := .none
  verbosity := 0
  quiet := false

/-- A value that is given for the first time. -/
def once {α : Type} (old : Option α) (new : Option α) : Option (Option α) :=
  if old.isSome then .none else new.map some

/-- A path, which must not be empty. -/
def path? (value : String) : Option String := if value.isEmpty then .none else some value

/-- The arguments with a value for an option. -/
def give (a : Arguments) (c : Choice) (value : String) : Option Arguments :=
  match c with
  | .config => (once a.config (path? value)).map fun v => { a with config := v }
  | .video => (path? value).map fun v => { a with videos := a.videos ++ [v] }
  | .dataFolder => (once a.dataFolder (path? value)).map fun v => { a with dataFolder := v }
  | .frames => (once a.frames (some value)).map fun v => { a with frames := v }
  | .fps => (once a.fps (Binary.ofText? value)).map fun v => { a with fps := v }
  | .rule => some { a with rules := a.rules ++ [value] }
  | .rulesFile => (once a.rulesFile (path? value)).map fun v => { a with rulesFile := v }
  | .logged => some { a with logged := a.logged ++ [value] }
  | .plugin => (once a.plugin (path? value)).map fun v => { a with plugin := v }
  | .output => (once a.output (path? value)).map fun v => { a with output := v }
  | .threshold => (once a.threshold (Binary.ofText? value)).map fun v => { a with threshold := v }
  | .jobs =>
    (once a.jobs (Text.readNat? Word.bound64 value.toList)).map fun v => { a with jobs := v }
  | .dryRun | .verbose | .quiet | .help | .version => .none

/-- The arguments with an option that takes no value. -/
def raise (a : Arguments) (c : Choice) : Option Arguments :=
  match c with
  | .dryRun => if a.dryRun then .none else some { a with dryRun := true }
  | .quiet => if a.quiet then .none else some { a with quiet := true }
  | .verbose => some { a with verbosity := a.verbosity + 1 }
  | _ => .none

/-! ## Reading -/

/-- What is known after a word. -/
inductive Step where
  /-- the next word; it is the value of `pending` if there is one -/
  | next (pending : Option Choice) (a : Arguments)
  | done (r : Request)

/-- What is known after an option that takes no value. -/
def flag (a : Arguments) (c : Choice) : Option Step :=
  match c with
  | .help => some (.done .help)
  | .version => some (.done .version)
  | c => (a.raise c).map (.next .none)

/-- What is known after the short names of a word. -/
def shorts (a : Arguments) : List Char → Option Step
  | [] => some (.next .none a)
  | n :: ns =>
    match Choice.ofShort? n with
    | .none => .none
    | some c =>
      if c.takesValue then
        match ns with
        | [] => some (.next (some c) a)
        | '=' :: v => (a.give c (String.ofList v)).map (.next .none)
        | v => (a.give c (String.ofList v)).map (.next .none)
      else
        match a.flag c with
        | some (.next _ a) => shorts a ns
        | s => s

/-- What is known after a long name, and perhaps a value behind `=`. -/
def longName (a : Arguments) (name : String) (value : Option String) : Option Step :=
  match Choice.ofLong? name, value with
  | .none, _ => .none
  | some c, some v => if c.takesValue then (a.give c v).map (.next .none) else .none
  | some c, .none => if c.takesValue then some (.next (some c) a) else a.flag c

/-- What is known after a word that looks like an option. -/
def word (a : Arguments) : List Char → Option Step
  | '-' :: '-' :: cs =>
    match Text.splitFirst '=' cs with
    | some (name, value) => a.longName (String.ofList name) (some (String.ofList value))
    | .none => a.longName (String.ofList cs) .none
  | '-' :: c :: cs => a.shorts (c :: cs)
  | _ => .none

/-- Whether a word looks like an option. -/
def isOption (w : String) : Bool := w.startsWith "-" && w != "-"

/-- What the words ask for, after the arguments `a` and an option that waits for
    its value. -/
def readFrom (pending : Option Choice) (a : Arguments) : List String → Option Request
  | [] => if pending.isSome then .none else some (.run a)
  | w :: ws =>
    match pending with
    | some c =>
      if isOption w then .none
      else
        match a.give c w with
        | some a => readFrom .none a ws
        | .none => .none
    | .none =>
      if w = "--" then if ws = [] then some (.run a) else .none
      else
        match a.word w.toList with
        | some (.next pending a) => readFrom pending a ws
        | some (.done r) => some r
        | .none => .none

/-- What the words ask for. -/
def read? (words : List String) : Option Request := readFrom .none .none words

end Arguments

end Command

end Screenmark
