/-
  Screenmark — events on frames.

  The clock of a recording places events on frames, where the session is `frames`
  long and some frames may not be `allowed`.

  * `typedTrack` shows a word from the frame of its first character to that of
    its last one, and gives a segment for each word that is shown;
  * `clickTrack` is true at the frames at which the mouse was clicked, at the
    place of the latest click.
-/
import Screenmark.Events.Typing
import Screenmark.Output.Marks
import Screenmark.Time.Clock

namespace Screenmark

namespace Events

/-- The frame of a moment, if it is one of the session. -/
def frameOf? (c : Clock) (frames : Nat) (t : Moment) : Option Nat :=
  (c.frameAt t).filter (· < frames)

/-! ## Typed words -/

/-- The segment of a word, if it starts at a frame that is allowed. A word that
    ends after the session is shown to the end. -/
def wordSegment? (c : Clock) (frames : Nat) (allowed : Nat → Bool) (w : TypedWord) :
    Option Segment :=
  match frameOf? c frames w.start with
  | none => none
  | some start =>
    if allowed start then
      let stop := match frameOf? c frames w.stop with
        | some f => f + 1
        | none => frames
      some ⟨start, max stop (start + 1), w.text⟩
    else none

/-- The texts with the label of a segment on its frames. -/
def shownOn (texts : Array String) (s : Segment) : Array String :=
  texts.mapIdx fun i t => if s.start ≤ i ∧ i < s.stop then s.label else t

/-- The track of the words typed in the events, and their segments. -/
def typedTrack (es : List Event) (c : Clock) (frames : Nat) (allowed : Nat → Bool) :
    Track × List Segment :=
  let segments := (typedWords es).filterMap (wordSegment? c frames allowed)
  let texts := segments.foldl shownOn (Array.replicate frames Text.blank)
  (.ofSeries (.texts texts) .extracted, segments)

/-! ## Clicks -/

/-- The frame and place of a click, if the event is one on a frame that is
    allowed. -/
def click? (c : Clock) (frames : Nat) (allowed : Nat → Bool) (e : Event) :
    Option (Nat × Single × Single) :=
  match e.kind with
  | .click x y _ => ((frameOf? c frames e.time).filter allowed).map (·, x, y)
  | _ => none

/-- The latest of the clicks at a frame. -/
def clickAt? (clicks : List (Nat × Single × Single)) (frame : Nat) : Option (Single × Single) :=
  (clicks.reverse.find? fun k => k.1 = frame).map (·.2)

/-- The track of the clicks in the events. -/
def clickTrack (es : List Event) (c : Clock) (frames : Nat) (allowed : Nat → Bool) : Track :=
  let clicks := es.filterMap (click? c frames allowed)
  let places := (Array.range frames).map (clickAt? clicks)
  { series := .numbers (places.map fun p => if p.isSome then .one else .zero)
    x := places.map fun p => (p.map (·.1)).getD .zero
    y := places.map fun p => (p.map (·.2)).getD .zero
    origin := .extracted
    template := none }

end Events

end Screenmark
