/-
  Screenmark — timelines.

  A timeline is a document about one recording: one localisation that spans all
  its frames, with an entry for each segment or each overlay. It says which rule
  and which algorithm the entries come from, and holds no date, so that the same
  entries always give the same text.
-/
import Screenmark.Json.Printer
import Screenmark.Output.Marks
import Screenmark.Time.Clock

namespace Screenmark

/-- Where the entries of a timeline come from. -/
inductive SourceTag where
  | vision
  | accessibility
  | inputHook
  | conversion
deriving DecidableEq

/-- The name of a source in documents. -/
def SourceTag.name : SourceTag → String
  | .vision => "computer_vision"
  | .accessibility => "accessibility"
  | .inputHook => "input_hook"
  | .conversion => "conversion"

/-- The rule and the algorithm that the entries of a timeline come from. -/
structure Provenance where
  rule : String
  algorithm : String
  source : SourceTag
deriving DecidableEq

/-- What a timeline lists. -/
inductive Entries where
  | segments (entries : List Segment)
  | overlays (entries : List Overlay)
deriving DecidableEq

namespace Entries

/-- The number of entries. -/
def size : Entries → Nat
  | .segments es => es.length
  | .overlays es => es.length

/-- The name of the kind of entries. -/
def kind : Entries → String
  | .segments _ => "segments"
  | .overlays _ => "visual_tracking"

/-- The end of the identifier of a timeline. -/
def suffix : Entries → String
  | .segments _ => "segments"
  | .overlays _ => "overlays"

end Entries

/-- A document about the frames from the first up to `frames`. -/
structure Timeline where
  id : String
  entries : Entries
  frames : Nat
  clock : Clock
  provenance : Provenance
  processor : String

namespace Timeline

/-- The version of the form of the document. -/
def version : Nat := 1

/-- The level of an entry. -/
def entryLevel : Json := .single .one

/-- A segment as a document. -/
def segment (c : Clock) (s : Segment) : Json :=
  .object [("label", .text s.label), ("tcin", .text (c.timecode s.start)),
    ("tcout", .text (c.timecode s.stop)), ("tclevel", entryLevel)]

/-- An overlay as a document. -/
def overlay (c : Clock) (o : Overlay) : Json :=
  .object [("label", .text o.label), ("tc", .text (c.timecode o.frame)), ("tclevel", entryLevel),
    ("shape", .object [("t", .text "rectangle"),
      ("c", .object [("x", .single o.centre.1), ("y", .single o.centre.2)]),
      ("rx", .single o.radius.1), ("ry", .single o.radius.2), ("o", .single .zero)])]

/-- The entries as documents. -/
def entryDocuments (t : Timeline) : List Json :=
  match t.entries with
  | .segments es => es.map (segment t.clock)
  | .overlays es => es.map (overlay t.clock)

/-- The timeline as a document. -/
def toJson (t : Timeline) : Json :=
  .object [
    ("localisation", .array [.object [
      ("sublocalisations", .object [("localisation", .array t.entryDocuments)]),
      ("type", .text t.entries.kind),
      ("tcin", .text (t.clock.timecode 0)),
      ("tcout", .text (t.clock.timecode t.frames)),
      ("tclevel", .single .zero)]]),
    ("id", .text (t.id ++ "-" ++ t.entries.suffix)),
    ("type", .text t.entries.kind),
    ("algorithm", .text t.provenance.algorithm),
    ("processor", .text t.processor),
    ("source", .text t.provenance.source.name),
    ("rule", .text t.provenance.rule),
    ("version", .natural version)]

/-- The timeline as a text. -/
def text (t : Timeline) : String := t.toJson.indented ++ "\n"

end Timeline

end Screenmark
