/-
  Screenmark — the marks of a track.

  A *segment* is a labelled interval of frames; an *overlay* marks an ellipse of
  one frame, in parts of the size of the frame. A track gives a segment for each
  of its runs and an overlay for each frame at which it is true: around its
  template, or around a point.
-/
import Screenmark.Series.Runs
import Screenmark.Series.Track

namespace Screenmark

/-- A labelled interval of frames, without its end. -/
structure Segment where
  start : Nat
  stop : Nat
  label : String
deriving DecidableEq

/-- The segment of a run. -/
def Segment.ofRun (label : String) (s : Span) : Segment := ⟨s.start, s.stop, label⟩

/-- A labelled ellipse of one frame, in parts of the size of the frame. -/
structure Overlay where
  frame : Nat
  centre : Single × Single
  radius : Single × Single
  label : String
deriving DecidableEq

/-- The radius of the ellipse around a point: `0.01`. -/
def pointRadius : Single := Binary.ofDecimal false ⟨1, -2⟩

namespace Track

/-- One segment for each run of the track, labelled with the text that shows or
    else with the given label. -/
def segments (t : Track) (threshold : Single) (label : String) : List Segment :=
  match t.series with
  | .texts ss => (textRuns ss.toList).map fun (s, text) => Segment.ofRun text s
  | .numbers _ => (trueRuns (t.series.gate threshold t.size)).map (Segment.ofRun label)

/-- The overlay at a frame, where a frame has the given width and height. -/
def overlayAt (t : Track) (width height : Single) (label : String) (frame : Nat) : Overlay :=
  let (x, y) := t.positionAt frame
  match t.template with
  | some (w, h) =>
    let rx := Binary.ofNat w / Binary.ofNat 2
    let ry := Binary.ofNat h / Binary.ofNat 2
    ⟨frame, ((x + rx) / width, (y + ry) / height), (rx / width, ry / height), label⟩
  | none => ⟨frame, (x / width, y / height), (pointRadius, pointRadius), label⟩

/-- One overlay for each frame at which the track is true; a frame without size
    has none. -/
def overlays (t : Track) (threshold : Single) (width height : Nat) (label : String) :
    List Overlay :=
  if width = 0 ∨ height = 0 then []
  else
    ((List.range t.size).filter (t.series.isTrueAt threshold)).map
      (t.overlayAt (Binary.ofNat width) (Binary.ofNat height) label)

end Track

end Screenmark
