/-
  Screenmark — where to look in a frame.

  The test of a rule may say in which part of a frame its targets are: in a fixed
  rectangle, below a template that was found in the same frame, right of it, or
  between two of them. Such a template is an *anchor*: a rectangle at the place
  where it was found, with the size of the template.

  * `below`, `rightOf` and `between` are the parts beside anchors;
  * `Target.region` is the part in which a target is looked for, as far as it
    lies inside the frame.
-/
import Screenmark.Scan.Target
import Screenmark.Series.Tracks

namespace Screenmark

namespace Region

/-- The columns of an anchor, from its lower side down to that of the frame. -/
def below (height : Nat) (a : Rect) : Rect :=
  ⟨a.x, a.bottom, a.width, saturate (height - a.bottom)⟩

/-- The rows of an anchor, from its right side to that of the frame. -/
def rightOf (width : Nat) (a : Rect) : Rect :=
  ⟨a.right, a.y, saturate (width - a.right), a.height⟩

/-- The rows that two anchors share, between the right side of the left one and
    the left side of the other. -/
def between (a b : Rect) : Rect :=
  let (l, r) := if a.x ≤ b.x then (a, b) else (b, a)
  Rect.between l.right (max l.y r.y) r.x (min l.bottom r.bottom)

/-- The rectangle of a template of the given size at a place, rounded to whole
    pixels. -/
def anchorAt (x y : Single) (width height : Nat) : Rect :=
  ⟨x.roundWithin wordMin wordMax, y.roundWithin wordMin wordMax, width, height⟩

end Region

namespace Target

/-- The failure of a target whose dependency has no track, or no template. -/
def unresolved (t : Target) (name : String) : Failure := .unresolved t.source name

/-- The anchor of a name at a frame. -/
def anchor (t : Target) (ts : Tracks) (frame : Nat) (name : String) : Except Failure Rect :=
  match ts.find? name with
  | none => .error (t.unresolved name)
  | some track =>
    match track.template with
    | none => .error (t.unresolved name)
    | some (width, height) =>
      let (x, y) := track.positionAt frame
      .ok (Region.anchorAt x y width height)

/-- The part of a frame in which the target is looked for, before it is cut to
    the frame. -/
def wholeRegion (t : Target) (ts : Tracks) (frame width height : Nat) : Except Failure Rect :=
  match t.rule with
  | none => .ok (.full width height)
  | some r =>
    match r.test, r.dependencies with
    | some .inRect, _ => .ok (r.rect?.getD (.full width height))
    | some .below, a :: _ => (t.anchor ts frame a).map (Region.below height)
    | some .rightOf, a :: _ => (t.anchor ts frame a).map (Region.rightOf width)
    | some .between, a :: b :: _ =>
      match t.anchor ts frame a with
      | .error e => .error e
      | .ok a => (t.anchor ts frame b).map (Region.between a)
    | _, _ => .ok (.full width height)

/-- The part of a frame in which the target is looked for, if any of it lies in
    the frame. -/
def region (t : Target) (ts : Tracks) (frame width height : Nat) : Except Failure (Option Rect) :=
  (t.wholeRegion ts frame width height).map (·.clampTo width height)

end Target

end Screenmark
