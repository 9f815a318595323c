/-
  Screenmark — the settings of a session.

  The settings say from which value on a number counts as true, which frame rate
  to assume without frames, where files are written and which of them, and how
  text is prepared for reading. Every setting has a default.

  A document may hold the settings, as an object with any of the members or as
  an array of their values in order; `Settings.ofDatum?` reads them and refuses a
  member that is given twice or has the wrong kind of value. `Settings.toJson`
  writes them all.
-/
import Screenmark.Datum
import Screenmark.Json.Basic

namespace Screenmark

/-! ## Settings -/

/-- Which files a session writes. -/
structure Outputs where
  /-- the tables of the frames -/
  tables : Bool
  /-- the timelines of segments -/
  timelines : Bool
  /-- the timelines of overlays -/
  overlays : Bool
  /-- the timelines of series that were logged before -/
  loggedTimelines : Bool
deriving DecidableEq

namespace Outputs

/-- Every file. -/
def all : Outputs := ⟨true, true, true, true⟩

/-- No file. -/
def none : Outputs := ⟨false, false, false, false⟩

/-- The outputs in a document. -/
def ofDatum? (d : Datum) : Option Outputs := do
  let fs ← d.fields? ["tables", "timelines", "overlays", "logged_timelines"] 0
  let flag (i : Nat) : Option Bool := Datum.withDefault true Datum.bool? (fs[i]?.getD Option.none)
  some ⟨← flag 0, ← flag 1, ← flag 2, ← flag 3⟩

/-- The outputs as a document. -/
def toJson (o : Outputs) : Json :=
  .object [("tables", .bool o.tables), ("timelines", .bool o.timelines),
    ("overlays", .bool o.overlays), ("logged_timelines", .bool o.loggedTimelines)]

end Outputs

/-- The settings of a session. -/
structure Settings where
  /-- Numbers above it count as true. -/
  threshold : Single
  /-- The frame rate where there are no frames. -/
  fps : Option Single
  /-- The folder of the files written; without one it is the data folder. -/
  outputDir : Option String
  /-- The name of the processor in timelines. -/
  processor : String
  /-- Whether regions are reduced to black and white before text is read. -/
  binarizeText : Bool
  /-- How many warnings about one subject are logged. -/
  maxWarnings : Nat
  outputs : Outputs

namespace Settings

/-- The threshold where none is given: `0.99`. -/
def defaultThreshold : Single := Binary.ofDecimal false ⟨99, -2⟩

/-- The settings where none are given. -/
def default : Settings where
  threshold := defaultThreshold
  fps := none
  outputDir := none
  processor := "annotation-engine 0.1.0"
  binarizeText := true
  maxWarnings := 5
  outputs := .all

instance : Inhabited Settings := ⟨default⟩

/-- The settings in a document. -/
def ofDatum? (d : Datum) : Option Settings := do
  let fs ← d.fields? ["threshold", "fps", "output_dir", "processor", "binarize_text",
    "max_warnings", "export"] 0
  let field (i : Nat) : Option Datum := fs[i]?.getD none
  some {
    threshold := ← Datum.withDefault default.threshold Datum.single? (field 0)
    fps := ← Datum.optional Datum.single? (field 1)
    outputDir := ← Datum.optional Datum.string? (field 2)
    processor := ← Datum.withDefault default.processor Datum.string? (field 3)
    binarizeText := ← Datum.withDefault true Datum.bool? (field 4)
    maxWarnings := ← Datum.withDefault default.maxWarnings Datum.natural? (field 5)
    outputs := ← Datum.withDefault .all Outputs.ofDatum? (field 6) }

/-- The settings as a document. -/
def toJson (s : Settings) : Json :=
  .object [("threshold", .single s.threshold), ("fps", .option .single s.fps),
    ("output_dir", .option .text s.outputDir), ("processor", .text s.processor),
    ("binarize_text", .bool s.binarizeText), ("max_warnings", .natural s.maxWarnings),
    ("export", s.outputs.toJson)]

end Settings

end Screenmark
