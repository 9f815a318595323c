/-
  Screenmark — applying conversion rules.

  The conversion rules of a plan are applied in the order in which they stand;
  each derived series is put among the tracks, so that later rules can use it.
  The segments of a rule are written into a timeline, and nested runs into
  sheets.
-/
import Screenmark.Derivation.Sheets
import Screenmark.Plan.Basic
import Screenmark.Workspace

namespace Screenmark

/-- What the conversion rules of a session gave. -/
structure DerivationReport where
  rules : Nat
  segments : Nat
  failures : Nat
  files : List String
deriving DecidableEq

namespace Derivation

variable {σ : Type}

/-- No rules. -/
def noReport : DerivationReport := ⟨0, 0, 0, []⟩

/-- The result of a conversion rule, its nested runs if it has such, and its
    warnings. -/
def derive (ts : Tracks) (threshold : Single) (r : Rule) (frames : Nat) :
    Except Failure (Derived × Option Nested × List String) :=
  match r.action with
  | .eval => (eval ts r frames threshold).map fun (d, ws) => (d, none, ws)
  | .matchFirstValueOf => (matchFirstValueOf ts r frames).map fun d => (d, none, [])
  | .triggerBySegmentsOf => (triggerBySegmentsOf ts r frames).map fun d => (d, none, [])
  | .nestByLastVariable => (nestByLastVariable ts r frames).map fun n => (n.derived, some n, [])
  | a => .error (.input (.notConversion a))

/-- Writes the sheets of nested runs. -/
def writeNested (o : Outlet) (n : Nested) : Work σ (List String) := do
  let starts := startSheet o n
  Work.openSheet starts
  let spans := startEndSheet o n
  Work.openSheet spans
  let starts ← Work.ofExcept (n.rows.foldlM
    (fun s row => s.write (startRecord o.clock n row)) starts)
  let spans ← Work.ofExcept (n.rows.foldlM
    (fun s row => s.write (startEndRecord o.clock n row)) spans)
  Work.keepSheets [starts, spans]
  pure [starts.path, spans.path]

/-- Writes what a rule gave. -/
def write (o : Outlet) (r : Rule) (d : Derived) (n : Option Nested) (frames : Nat) :
    Work σ (List String) := do
  let files ← Work.writeSegments o d.name d.segments frames ⟨d.name, r.action.name, .conversion⟩
  match n with
  | some n => if o.outputs.tables then return files ++ (← writeNested o n) else return files
  | none => return files

/-- Applies one rule. -/
def apply (s : Settings) (o : Option Outlet) (frames : Nat) (report : DerivationReport)
    (r : Rule) : Work σ DerivationReport := do
  let (d, n, warnings) ← Work.ofExcept (derive (← get).tracks s.threshold r frames)
  for message in warnings do Work.warn ("rule '" ++ r.label ++ "'") message
  let files ← match o with
    | some o => write o r d n frames
    | none => pure []
  Work.insert d.name d.track
  pure ⟨report.rules + 1, report.segments + d.segments.length, report.failures + d.failures,
    report.files ++ files⟩

/-- Applies the conversion rules of a plan. -/
def run (s : Settings) (p : Plan) (frames : Nat) (o : Option Outlet) :
    Work σ DerivationReport := do
  let rules := p.ofFamily .conversion
  if rules.isEmpty then return noReport
  Work.enter .deriving
  rules.foldlM (apply s o frames) noReport

end Derivation

end Screenmark
