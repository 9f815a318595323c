/-
  Screenmark — runs of frames.

  A gate that is true, or a text that stays the same, over frames that follow
  each other makes a run. A `Span` is the interval of its frames, from `start` up
  to and without `stop`.

  * `trueRuns` are the longest spans on which a gate is true;
  * `textRuns` are the longest spans on which one text shows; blank texts make
    none.

  Both are found from the right: a frame either opens the run that starts behind
  it earlier, or makes a run of its own.
-/
import Screenmark.Text.Blank

namespace Screenmark

/-- An interval of frames, without its end. -/
structure Span where
  start : Nat
  stop : Nat
deriving DecidableEq

/-- Whether a frame lies in the span. -/
def Span.contains (s : Span) (frame : Nat) : Bool := s.start ≤ frame && frame < s.stop

/-- Whether two spans have a frame in common. -/
def Span.overlaps (s t : Span) : Bool := s.start < t.stop && t.start < s.stop

/-- The runs of a gate whose first frame is `frame`. -/
def trueRunsFrom (frame : Nat) : List Bool → List Span
  | [] => []
  | false :: bs => trueRunsFrom (frame + 1) bs
  | true :: bs =>
    match trueRunsFrom (frame + 1) bs with
    | [] => [⟨frame, frame + 1⟩]
    | r :: rs =>
      if r.start = frame + 1 then ⟨frame, r.stop⟩ :: rs else ⟨frame, frame + 1⟩ :: r :: rs

/-- The runs of a gate. -/
def trueRuns (gate : List Bool) : List Span := trueRunsFrom 0 gate

/-- The runs of texts whose first frame is `frame`. -/
def textRunsFrom (frame : Nat) : List String → List (Span × String)
  | [] => []
  | s :: ss =>
    let later := textRunsFrom (frame + 1) ss
    if Text.isBlank s then later
    else match later with
      | [] => [(⟨frame, frame + 1⟩, s)]
      | (r, t) :: rs =>
        if r.start = frame + 1 ∧ t = s then (⟨frame, r.stop⟩, s) :: rs
        else (⟨frame, frame + 1⟩, s) :: (r, t) :: rs

/-- The runs of texts. -/
def textRuns (texts : List String) : List (Span × String) := textRunsFrom 0 texts

example : trueRuns [true, true, false, true] = [⟨0, 2⟩, ⟨3, 4⟩] := by decide

end Screenmark
