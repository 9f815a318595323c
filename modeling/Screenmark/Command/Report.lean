/-
  Screenmark — the reports of the command.

  The report of a dry run shows the plan: the rules with their families, the
  templates, and what every series waits for. The report of a run shows each
  recording and what was made of it, or why nothing was.
-/
import Screenmark.Binary.Layout
import Screenmark.Session.Run

namespace Screenmark

namespace Command

/-- The lines of a text, each with its end. -/
def unlines (ls : List String) : String := String.join (ls.map (· ++ "\n"))

/-- The text filled up with spaces at its end. -/
def padEnd (width : Nat) (s : String) : String :=
  s ++ String.ofList (List.replicate (width - s.length) ' ')

/-- The text filled up with spaces at its start. -/
def padStart (width : Nat) (s : String) : String :=
  String.ofList (List.replicate (width - s.length) ' ') ++ s

/-- A line across the report. -/
def across (c : Char) : String := String.ofList (List.replicate 47 c)

/-- The head of a report. -/
def banner (title : String) : List String := [across '═', "  " ++ title, across '═', ""]

/-- What is told when there are no rules. -/
def noRules : String := unlines [
  "Annotation Engine - No rules specified",
  "",
  "Quick Start:",
  "  annotation-cli --video talk.mp4 --frames frames/\x7bstem\x7d --fps 25 \\",
  "      --rule 'matchTemplate(logo)' --plugin libocr.so",
  "",
  "For all options:",
  "  annotation-cli --config config.toml",
  "",
  "Use --help for more options"]

/-! ## Plans -/

/-- The line of the rule with a number. -/
def ruleLine (r : Rule) (number : Nat) : String :=
  "  " ++ padStart 3 (toString number) ++ ". " ++ padEnd 14 r.family.name ++ " " ++ r.shown

/-- The line of a template. -/
def templateLine (p : Plan) (name : String) : String :=
  "  " ++ name ++ (if p.isAutoRegistered name then " (auto-registered)" else "")

/-- The line of what a series waits for. -/
def prerequisiteLine (name : String) (p : Predecessors) : String :=
  "  " ++ padEnd 20 name ++ " " ++
    if p.isEmpty then "unconstrained"
    else "logged: [" ++ ", ".intercalate p.logged ++ "]  new: [" ++ ", ".intercalate p.new ++ "]"

/-- The report of a dry run. -/
def planReport (p : Plan) : String := unlines (
  banner "Annotation Engine - Dry Run" ++
  ["Rules (" ++ toString p.rules.length ++ "):"] ++
  (p.rules.zipIdx 1).map (fun (r, number) => ruleLine r number) ++
  ["", "Template targets (" ++ toString p.templates.length ++ "):"] ++
  p.templates.map (templateLine p) ++
  ["", "Dependency graph:", across '─'] ++
  p.prerequisites.nodes.entries.map fun (name, q) => prerequisiteLine name q)

/-! ## Runs -/

/-- A recording and its summary, or the reason why there is none. -/
structure Processed where
  video : String
  result : Except String Summary

/-- The lines of a recording. -/
def Processed.lines (p : Processed) : List String :=
  match p.result with
  | .error reason => ["✗ " ++ Text.quoted p.video, "    " ++ reason]
  | .ok m =>
    [(if m.aborted then "⚠ aborted " else "✓ ") ++ m.stem ++ " (" ++ Text.quoted p.video ++ ")",
      s!"    Frames:   {m.frames} at {m.fps.plain} fps ({m.scan.decoded} decoded, " ++
        s!"{m.scan.seeks} seeks, {m.scan.failures} decode failures)",
      s!"    Series:   {m.counts.logged} logged, {m.counts.extracted} extracted, " ++
        s!"{m.counts.derived} derived",
      s!"    Segments: {m.derivation.segments} derived, {m.hookSegments} from input hooks"] ++
    (if m.derivation.failures = 0 then []
      else [s!"    Expression failures: {m.derivation.failures}"]) ++
    ["    Files:    " ++ toString m.files.length]

/-- How many recordings have no summary. -/
def failures (ps : List Processed) : Nat := ps.countP fun p => !p.result.toBool

/-- The report of a run. -/
def runReport (ps : List Processed) : String := unlines (
  banner "Annotation Engine - Run Summary" ++ ps.flatMap Processed.lines ++
  ["", across '─', toString ps.length ++ " recordings, " ++
    toString (ps.length - failures ps) ++ " succeeded, " ++ toString (failures ps) ++ " failed"])

end Command

end Screenmark
