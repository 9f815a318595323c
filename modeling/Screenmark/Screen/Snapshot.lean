/-
  Screenmark — snapshots of the elements on the screen.

  A snapshot says which element of the screen was under the pointer and which had
  the focus at some frame. A log of snapshots is sparse: at a frame, the latest
  snapshot at or before it holds.

  * `SnapshotLog.at?` is the snapshot that holds at a frame;
  * `SnapshotLog.ofDatum?` reads a log: an array of records.
-/
import Screenmark.Geometry.Rect
import Screenmark.Datum
import Screenmark.Text.Blank

namespace Screenmark

/-! ## Elements -/

/-- An element of the screen. -/
structure Element where
  role : String
  label : String
  x : Single
  y : Single
  width : Single
  height : Single
deriving DecidableEq

namespace Element

/-- The label of the element, or its role when the label shows nothing. -/
def text (e : Element) : String := if Text.isBlank e.label then e.role else e.label

/-- The middle of the element. -/
def centre (e : Element) : Single × Single :=
  (e.x + e.width / Binary.ofNat 2, e.y + e.height / Binary.ofNat 2)

/-- Whether the middle of the element lies inside a rectangle. -/
def isInside (e : Element) (r : Rect) : Bool := r.contains e.centre.1 e.centre.2

/-- The element in a document. -/
def ofDatum? (d : Datum) : Option Element := do
  let fs ← d.fields? ["role", "label", "x", "y", "w", "h"] 6
  let number (i : Nat) : Option Single := (fs[i]?.getD none).bind Datum.single?
  some {
    role := ← (fs[0]?.getD none).bind Datum.string?
    label := ← Datum.withDefault "" Datum.string? (fs[1]?.getD none)
    x := ← number 2
    y := ← number 3
    width := ← number 4
    height := ← number 5 }

end Element

/-! ## Snapshots -/

/-- The elements under the pointer and with the focus, from a frame on. -/
structure Snapshot where
  frame : Nat
  hovered : Option Element
  focused : Option Element
deriving DecidableEq

/-- The snapshot in a document. -/
def Snapshot.ofDatum? (d : Datum) : Option Snapshot := do
  let fs ← d.fields? ["frame", "hovered", "focused"] 1
  let element (i : Nat) : Option (Option Element) :=
    Datum.optional Element.ofDatum? (fs[i]?.getD none)
  some ⟨← (fs[0]?.getD none).bind Datum.natural?, ← element 1, ← element 2⟩

/-- Snapshots in the order of their frames, at most one for each. -/
structure SnapshotLog where
  snapshots : List Snapshot
deriving DecidableEq

namespace SnapshotLog

/-- The snapshots with one more, which takes the place of another one of the
    same frame. -/
def insert (s : Snapshot) : List Snapshot → List Snapshot
  | [] => [s]
  | t :: ts =>
    if s.frame < t.frame then s :: t :: ts
    else if s.frame = t.frame then s :: ts
    else t :: insert s ts

/-- The log of snapshots in any order; of two of one frame the later counts. -/
def ofList (ss : List Snapshot) : SnapshotLog := ⟨ss.foldl (fun ts s => insert s ts) []⟩

/-- The log in a document. -/
def ofDatum? : Datum → Option SnapshotLog
  | .array vs => (vs.mapM Snapshot.ofDatum?).map ofList
  | _ => none

/-- The number of snapshots. -/
def size (l : SnapshotLog) : Nat := l.snapshots.length

/-- The snapshot that holds at a frame. -/
def at? (l : SnapshotLog) (frame : Nat) : Option Snapshot :=
  (l.snapshots.filter (·.frame ≤ frame)).getLast?

end SnapshotLog

end Screenmark
