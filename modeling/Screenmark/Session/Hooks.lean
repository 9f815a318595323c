/-
  Screenmark — applying rules to recorded events.

  After the frames, the rules for typed words and mouse clicks place the recorded
  events on frames, as far as their guard is true there. Each gives a track and a
  timeline of its segments; clicks also give overlays.
-/
import Screenmark.Events.Placement
import Screenmark.Plan.Basic
import Screenmark.Session.Templates

namespace Screenmark

namespace Session

variable {σ : Type}

/-- The gate of the guard of a rule; without one every frame is allowed. -/
def hookGate (s : Session σ) (ts : Tracks) (frames : Nat) (r : Rule) :
    Except Failure (Option (List Bool)) :=
  match r.test, r.dependencies with
  | some .during, name :: _ =>
    match ts.series? name with
    | some series => .ok (some (series.gate s.settings.threshold frames))
    | none => .error (.unresolved r.source name)
  | _, _ => .ok none

/-- Whether a gate allows a frame. -/
def allows (gate : Option (List Bool)) (frame : Nat) : Bool :=
  match gate with
  | some g => g[frame]?.getD false
  | none => true

/-- The track and the segments that a rule gives for events. -/
def hookTrack (s : Session σ) (es : List Event) (c : Clock) (frames : Nat) (name : String)
    (r : Rule) (gate : Option (List Bool)) : Except Failure (Track × List Segment) :=
  match r.action with
  | .typedWords => .ok (Events.typedTrack es c frames (allows gate))
  | .mouseClicks =>
    let track := Events.clickTrack es c frames (allows gate)
    .ok (track, track.segments s.settings.threshold name)
  | a => .error (.input (.notInputHook a))

/-- Applies one rule to events; gives the number of segments so far and the
    files. -/
def applyHook (s : Session σ) (o : Outlet) (frames width height : Nat) (es : List Event)
    (done : Nat × List String) (r : Rule) : Work σ (Nat × List String) := do
  let name := r.operands.headD ""
  let gate ← Work.ofExcept (s.hookGate (← get).tracks frames r)
  let (track, segments) ← Work.ofExcept (s.hookTrack es o.clock frames name r gate)
  let provenance : Provenance := ⟨r.label, r.action.name, .inputHook⟩
  let files ← Work.writeSegments o name segments frames provenance
  let more ← if r.action = .mouseClicks then
      Work.writeOverlays o name (track.overlays s.settings.threshold width height name) frames
        provenance
    else pure []
  Work.insert name track
  return (done.1 + segments.length, done.2 ++ files ++ more)

/-- Applies all rules for events; gives the number of segments and the files. -/
def applyHooks (s : Session σ) (p : Plan) (o : Outlet) (frames width height : Nat) :
    Work σ (Nat × List String) := do
  let rules := p.ofFamily .inputHook
  if rules.isEmpty then return (0, [])
  match s.instruments.events with
  | none => throw (.missing .events)
  | some events =>
    let es ← Work.ofExcept (← use (events (← get).files))
    rules.foldlM (s.applyHook o frames width height es) (0, [])

end Session

end Screenmark
