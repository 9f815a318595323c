/-
  Screenmark — the sheets of nested runs.

  Nested runs are written into two sheets with a record for each row. One lists
  when the run of every operand starts, and how long the row is; the other
  lists when it starts and when it ends. An operand of texts also has a column
  for its text. Where no run overlaps the row, the fields are empty.
-/
import Screenmark.Derivation.Basic
import Screenmark.Output.Outlet

namespace Screenmark

namespace Derivation

variable (c : Clock)

/-- The column with the text of an operand, if it is one of texts. -/
def valueColumn (name : String) (isText : Bool) : List String :=
  if isText then [name ++ "Value"] else []

/-- The columns of the sheet of starts. -/
def startColumns (n : Nested) : List String :=
  (List.zipWith (fun v t => (v ++ "Start") :: valueColumn v t) n.operands n.isText).flatten ++
    ["Duration", "tcin", "tcout"]

/-- The columns of the sheet of starts and ends. -/
def startEndColumns (n : Nested) : List String :=
  (List.zipWith (fun v t => (v ++ "Start") :: (v ++ "End") :: valueColumn v t) n.operands
    n.isText).flatten

/-- The start of a run. -/
def startField (m : Option VariableRun) : String :=
  (m.map fun r => c.datedTimecode r.span.start).getD ""

/-- The end of a run. -/
def endField (m : Option VariableRun) : String :=
  (m.map fun r => c.datedTimecode r.span.stop).getD ""

/-- The text of a run, if the operand is one of texts. -/
def valueField (m : Option VariableRun) (isText : Bool) : List String :=
  if isText then [((m.bind (·.value)).map quotedField).getD ""] else []

/-- The record of a row in the sheet of starts. -/
def startRecord (n : Nested) (row : NestedRow) : List String :=
  (List.zipWith (fun m t => startField c m :: valueField m t) row.members n.isText).flatten ++
    [(c.seconds (row.span.stop - row.span.start)).plain, c.timecode row.span.start,
      c.timecode row.span.stop]

/-- The record of a row in the sheet of starts and ends. -/
def startEndRecord (n : Nested) (row : NestedRow) : List String :=
  (List.zipWith (fun m t => startField c m :: endField c m :: valueField m t) row.members
    n.isText).flatten

/-- The sheet of starts, without records. -/
def startSheet (o : Outlet) (n : Nested) : Sheet :=
  .start (o.sheetPath n.derived.name) (startColumns n)

/-- The sheet of starts and ends, without records. -/
def startEndSheet (o : Outlet) (n : Nested) : Sheet :=
  .start (o.startEndPath n.derived.name) (startEndColumns n)

end Derivation

end Screenmark
