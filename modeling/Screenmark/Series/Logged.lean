/-
  Screenmark — tables of earlier runs.

  A session may be given files that earlier runs wrote. The first line that is not
  blank tells what a file is:

  * `Frame`, followed by three columns for each annotation (its place and its
    sample), starts a table of annotations, with a line for each frame;
  * `h,m,frames` starts a first minute, with one line.

  A sample is a number, which is kept as 1 or 0 by the threshold, or a text. A
  line with another number of fields than the first one is left out, and a
  number that cannot be read counts as zero.
-/
import Screenmark.Binary.Reading
import Screenmark.Failure
import Screenmark.Series.Track
import Screenmark.Text.Lines
import Screenmark.Time.Clock
import Screenmark.Word

namespace Screenmark

/-! ## What a file holds -/

/-- What the samples of an annotation are. -/
inductive LoggedColumn where
  | value
  | number
  | time
  | text
deriving DecidableEq

namespace LoggedColumn

/-- The name of a column. -/
def name : LoggedColumn → String
  | .value => "Value"
  | .number => "Number"
  | .time => "Time"
  | .text => "Text"

/-- The column that the end of a column name tells. -/
def ofSuffix? (suffix : String) : Option LoggedColumn :=
  if suffix = "val" then some .value
  else if suffix = "num" then some .number
  else if suffix = "time" then some .time
  else if suffix = "txt" then some .text
  else none

end LoggedColumn

/-- A track of an earlier run. -/
structure LoggedAnnotation where
  name : String
  column : LoggedColumn
  track : Track
deriving DecidableEq

/-- A file of an earlier run. -/
inductive LoggedFile where
  | annotations (frames : Nat) (annotations : List LoggedAnnotation)
  | firstMinute (first : FirstMinute)
deriving DecidableEq

namespace LoggedFile

/-! ## Lines and fields -/

/-- A text without quotes at both ends. -/
def unquoted (cs : List Char) : List Char := Text.strip '"' cs

/-- The fields of the first line, without white space and quotes around them. -/
def headerFields (line : String) : List String :=
  (Text.fields line).map fun f => String.ofList (unquoted (Text.trim f.toList))

/-- The lines that are not blank. -/
def contentLines (content : String) : List String :=
  (Text.lines content).filter (!Text.isBlank ·)

/-- The fields of the lines that have as many as the first one. -/
def rowsOf (width : Nat) (lines : List String) : List (List String) :=
  (lines.map Text.fields).filter (·.length = width)

/-! ## Tracks -/

/-- The number that a text writes, or zero. -/
def numberOf (s : String) : Single := (Binary.read? (Text.trim s.toList)).getD .zero

/-- The number that stands for a number above the threshold or not. -/
def binaryOf (threshold x : Single) : Single := if threshold < x then .one else .zero

/-- The text of a field; a blank one shows nothing. -/
def textOf (s : String) : String :=
  let s := String.ofList (unquoted s.toList)
  if Text.isBlank s then Text.blank else s

/-- The series that fields hold. -/
def seriesOf (column : LoggedColumn) (threshold : Single) (fields : List String) : Series :=
  match column with
  | .value =>
    .numbers (fields.map fun f =>
      binaryOf threshold (numberOf (String.ofList (unquoted f.toList)))).toArray
  | .number | .time | .text => .texts (fields.map textOf).toArray

/-- The fields of a column. -/
def columnOf (rows : List (List String)) (i : Nat) : List String := rows.map (·[i]?.getD "")

/-- The name and the kind that the name of a column tells. -/
def columnName? (header : String) : Option (String × LoggedColumn) :=
  match Text.splitLast '_' header.toList with
  | some (name, suffix) =>
    (LoggedColumn.ofSuffix? (String.ofList suffix)).map (String.ofList name, ·)
  | none => none

/-- The annotation whose three columns start at `base`. -/
def annotationOf (threshold : Single) (rows : List (List String)) (base : Nat)
    (name : String) (column : LoggedColumn) : LoggedAnnotation where
  name := name
  column := column
  track := {
    series := seriesOf column threshold (columnOf rows (base + 2))
    x := ((columnOf rows base).map numberOf).toArray
    y := ((columnOf rows (base + 1)).map numberOf).toArray
    origin := .logged
    template := none }

/-- The annotations whose columns have the names `header`, from column `base`
    on. -/
def annotationsOf (origin : String) (threshold : Single) (rows : List (List String)) :
    (base : Nat) → (header : List String) → Except Failure (List LoggedAnnotation)
  | base, _ :: _ :: value :: rest =>
    match columnName? value with
    | none => .error (.input (.unknownColumn origin value))
    | some (name, column) =>
      match annotationsOf origin threshold rows (base + 3) rest with
      | .error e => .error e
      | .ok as => .ok (annotationOf threshold rows base name column :: as)
  | _, _ => .ok []

/-! ## Files -/

/-- A 32-bit word in a field. -/
def wordIn? (fields : List String) (i : Nat) : Option Nat :=
  fields[i]?.bind fun f => Text.readNat? Word.bound32 f.toList

/-- The first minute in the fields of a line. -/
def firstMinuteOf? (fields : List String) : Option FirstMinute := do
  some ⟨← wordIn? fields 0, ← wordIn? fields 1, ← wordIn? fields 2⟩

/-- What a file holds; `origin` names it in messages. -/
def parse (content origin : String) (threshold : Single) : Except Failure LoggedFile :=
  match contentLines content with
  | [] => .error (.input (.emptyTable origin))
  | first :: lines =>
    let header := headerFields first
    if header = ["h", "m", "frames"] then
      match lines with
      | [] => .error (.input (.firstMinuteMissing origin))
      | line :: _ =>
        match firstMinuteOf? (headerFields line) with
        | some m => .ok (.firstMinute m)
        | none => .error (.input (.firstMinuteInvalid origin))
    else if header.head? ≠ some "Frame" ∨ (header.length - 1) % 3 ≠ 0 then
      .error (.input (.noAnnotations origin))
    else
      let rows := rowsOf header.length lines
      match annotationsOf origin threshold rows 1 (header.drop 1) with
      | .error e => .error e
      | .ok as => .ok (.annotations rows.length as)

end LoggedFile

end Screenmark
