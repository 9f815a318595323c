import Screenmark.Word
import Screenmark.Names
import Screenmark.Text.Blank
import Screenmark.Text.Lines
import Screenmark.Text.Quoted
import Screenmark.Binary.Layout
import Screenmark.Binary.Reading
import Screenmark.Files.Path
import Screenmark.Formula.Eval
import Screenmark.Json.Printer
import Screenmark.Json.Reader
import Screenmark.Plan.Basic
import Screenmark.Series.Tracks
import Screenmark.Settings
import Screenmark.Status
import Screenmark.Events.Typing
import Screenmark.Output.Marks
import Screenmark.Scan.Reading
import Screenmark.Time.Clock
import Screenmark.Output.Sheet
import Screenmark.Scan.Target
import Screenmark.Output.Outlet
import Screenmark.Events.Log
import Screenmark.Events.Placement
import Screenmark.Screen.Snapshot
import Screenmark.Series.Logged
import Screenmark.Derivation.Run
import Screenmark.Scan.Run
import Screenmark.Scan.Stills
import Screenmark.Session.Run
import Screenmark.Toml.Table
import Screenmark.Toml.Reader
import Screenmark.Session.Logs
import Screenmark.Session.Basic
import Screenmark.Command.Arguments
import Screenmark.Command.Config
import Screenmark.Command.Report
import Screenmark.Command.Run
import Screenmark.Main
import Screenmark.Proofs.Plan.Permutation
import Screenmark.Proofs.Plan.Coherence
import Screenmark.Proofs.Plan.Search
import Screenmark.Proofs.Scan.Schedule
import Screenmark.Proofs.Scan.Trigger
import Screenmark.Proofs.Scan.Footage
import Screenmark.Proofs.Scan.Confluence
import Screenmark.Proofs.Scan.Sheets
import Screenmark.Proofs.Scan.Tables
import Screenmark.Proofs.Formula.Grammar
import Screenmark.Proofs.Formula.Acceptance
import Screenmark.Proofs.Rule.Spacing
import Screenmark.Proofs.Derivation.Commuting
import Screenmark.Proofs.Rule.Shown
import Screenmark.Proofs.Derivation.Writing
import Screenmark.Proofs.Derivation.Order
import Screenmark.Proofs.Derivation.Repeat
import Screenmark.Proofs.Series.Runs
import Screenmark.Proofs.Derivation.Guard
import Screenmark.Proofs.Events.Placement
import Screenmark.Proofs.Session.Hooks
import Screenmark.Proofs.Session.Guard
import Screenmark.Proofs.Scan.Stop
import Screenmark.Proofs.Session.Phases
import Screenmark.Proofs.Session.Abort
import Screenmark.Proofs.Session.Turns
import Screenmark.Proofs.Events.Log
import Screenmark.Proofs.Series.Alignment
import Screenmark.Proofs.Session.Ingest
import Screenmark.Proofs.Output.Marks
import Screenmark.Proofs.Output.Naming
import Screenmark.Proofs.Derivation.Within
import Screenmark.Proofs.Derivation.Trace
import Screenmark.Proofs.Output.Trace
import Screenmark.Proofs.Scan.Trace
import Screenmark.Proofs.Session.Trace
import Screenmark.Proofs.Session.Timelines
import Screenmark.Proofs.Session.Paths
import Screenmark.Proofs.Binary.Rounding
import Screenmark.Proofs.Status
import Screenmark.Proofs.Scan.Phases
import Screenmark.Proofs.Session.Course
import Screenmark.Proofs.Formula.Grouping
import Screenmark.Proofs.Formula.Writing
import Screenmark.Proofs.Formula.Precedence
import Screenmark.Proofs.Formula.Lexing
import Screenmark.Proofs.Formula.Spelling
import Screenmark.Proofs.Derivation.Operands
import Screenmark.Proofs.Derivation.Formulas
import Screenmark.Proofs.Derivation.Values
import Screenmark.Proofs.Derivation.Pulses
import Screenmark.Proofs.Derivation.Nesting
import Screenmark.Proofs.Binary.Widening
import Screenmark.Proofs.Derivation.Chaining
import Screenmark.Proofs.Geometry.Rect
import Screenmark.Proofs.Scan.Region
import Screenmark.Proofs.Scan.Anchors
import Screenmark.Proofs.Events.Segments
import Screenmark.Proofs.Events.Writing
import Screenmark.Proofs.Text.Words
import Screenmark.Proofs.Scan.Reading
import Screenmark.Proofs.Scan.Cleaned
import Screenmark.Proofs.Series.Logged
import Screenmark.Proofs.Scan.Prefix
import Screenmark.Proofs.Session.Selection
import Screenmark.Proofs.Formula.Longest
import Screenmark.Proofs.Formula.Places
import Screenmark.Proofs.Formula.Gaps
import Screenmark.Proofs.Formula.Spaceless
import Screenmark.Proofs.Rule.Embedding
import Screenmark.Proofs.Scan.Failures
import Screenmark.Proofs.Series.Origins
import Screenmark.Proofs.Session.Origins
import Screenmark.Proofs.Text.Numeral
import Screenmark.Proofs.Time.Timecode
import Screenmark.Proofs.Time.Start
import Screenmark.Proofs.Command.Rate
import Screenmark.Proofs.Output.Encoding
import Screenmark.Proofs.Series.Appending
