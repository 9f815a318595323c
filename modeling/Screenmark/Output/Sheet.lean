/-
  Screenmark — sheets.

  A sheet is a table with a fixed number of columns, written as a text: a line
  with the quoted column names, then a line for each record. The fields of a
  record stand there as they are given; `quotedField` prepares a text for a
  field, and drops the quotes in it.

  An observation takes three columns, for its place and its sample.
-/
import Screenmark.Failure
import Screenmark.Text.Lines

namespace Screenmark

/-- A text as a field of a sheet. -/
def quotedField (s : String) : String := "\"" ++ Text.without (· == '"') s ++ "\""

/-- The names of the three columns of an observation. -/
def observationColumns (name suffix : String) : List String :=
  [name ++ "_x", name ++ "_y", name ++ "_" ++ suffix]

/-- The three fields of an observation. -/
def observationFields (o : Observation) : List String :=
  [o.x.plain, o.y.plain,
    match o.sample with
    | .number x => x.plain
    | .text s => quotedField s]

/-- A table that is being written. -/
structure Sheet where
  path : String
  columns : List String
  /-- The records so far, the latest first. -/
  latest : List (List String)
deriving DecidableEq

namespace Sheet

/-- The sheet without records. -/
def start (path : String) (columns : List String) : Sheet := ⟨path, columns, []⟩

/-- The records so far, in order. -/
def records (s : Sheet) : List (List String) := s.latest.reverse

/-- The sheet with one more record, which must have a field for each column. -/
def write (s : Sheet) (record : List String) : Except Failure Sheet :=
  if record.length = s.columns.length then .ok { s with latest := record :: s.latest }
  else .error (.consistency (.rowWidth record.length s.path s.columns.length))

/-- The sheet with the observations of one frame more. -/
def writeFrame (s : Sheet) (frame : Nat) (row : List Observation) : Except Failure Sheet :=
  s.write (toString frame :: row.flatMap observationFields)

/-- The line of a record. -/
def line (record : List String) : String := ",".intercalate record ++ "\n"

/-- The line of the column names. -/
def header (s : Sheet) : String := line (s.columns.map fun c => "\"" ++ c ++ "\"")

/-- The sheet as a text. -/
def text (s : Sheet) : String := s.header ++ String.join (s.records.map line)

end Sheet

end Screenmark
