/-
  Screenmark — series derived from complete series.

  When all frames are done, conversion rules derive further series. A rule may
  have a guard, a series during which it works; elsewhere its result shows
  nothing.

  * `eval` is true where a formula is;
  * `matchFirstValueOf` shows, over each run of the guard, the first value that a
    series has in it;
  * `triggerBySegmentsOf` marks the frames at which guard and series become true
    together, and numbers the segments that start there;
  * `nestByLastVariable` lists the runs of the last operand, each with the
    latest overlapping run of every operand.

  Each of them is a function of the tracks; none changes them.
-/
import Screenmark.Output.Marks
import Screenmark.Series.Tracks

namespace Screenmark

/-- The result of a conversion rule. -/
structure Derived where
  name : String
  track : Track
  segments : List Segment
  /-- The frames at which the formula had no value. -/
  failures : Nat
deriving DecidableEq

namespace Derivation

/-! ## What a rule works on -/

/-- The name of a rule, which a conversion must have. -/
def nameOf (r : Rule) : Except Failure String :=
  match r.name with
  | some n => .ok n
  | none => .error (.input (.nameless r.source))

/-- The series of a name that a rule asks for. -/
def seriesOf (ts : Tracks) (r : Rule) (name : String) : Except Failure Series :=
  match ts.series? name with
  | some s => .ok s
  | none => .error (.unresolved r.source name)

/-- The series of the first operand. -/
def targetOf (ts : Tracks) (r : Rule) : Except Failure Series :=
  seriesOf ts r (r.operands.headD "")

/-- The guard of a rule at each frame; without one it is always true. -/
def guardOf (ts : Tracks) (r : Rule) (frames : Nat) : Except Failure (List Bool) :=
  match r.test, r.dependencies with
  | some .during, name :: _ => (seriesOf ts r name).map (·.gate ts.threshold frames)
  | _, _ => .ok (List.replicate frames true)

/-- The number that stands for a truth value. -/
def indicator (b : Bool) : Single := if b then .one else .zero

/-- The track that is 1 where the list is true. -/
def indicatorTrack (on : List Bool) : Track :=
  .ofSeries (.numbers (on.map indicator).toArray) .derived

/-! ## Formulas -/

/-- What a formula gives at a frame. -/
inductive Outcome where
  /-- a truth value -/
  | truth (b : Bool)
  /-- no value; a fault that was not told before is told -/
  | failed (told : Option String)
deriving DecidableEq

namespace Outcome

/-- Whether the formula is true. -/
def isTrue : Outcome → Bool
  | .truth b => b
  | .failed _ => false

/-- Whether the formula has no value. -/
def isFailed : Outcome → Bool
  | .truth _ => false
  | .failed _ => true

/-- The fault to tell. -/
def told : Outcome → Option String
  | .truth _ => none
  | .failed m => m

end Outcome

/-- What a formula gives at a frame, where it counts only if the guard holds. -/
def outcomeAt (ts : Tracks) (threshold : Single) (parsed : Except Formula.Fault Formula)
    (frame : Nat) (guarded : Bool) : Outcome :=
  if !guarded then .truth false
  else match parsed with
    | .error _ => .failed none
    | .ok e =>
      match e.eval threshold (ts.resolve frame) with
      | .ok v => .truth (v.truthy threshold)
      | .error f => .failed (some ("frame " ++ toString frame ++ ": " ++ f.message))

/-- What a formula gives at each frame, from `frame` on. -/
def outcomesFrom (ts : Tracks) (threshold : Single) (parsed : Except Formula.Fault Formula)
    (frame : Nat) : List Bool → List Outcome
  | [] => []
  | g :: gs =>
    outcomeAt ts threshold parsed frame g :: outcomesFrom ts threshold parsed (frame + 1) gs

/-- The segments of spans, of which no two may start at one frame; `starts` are the starts
    of those before. -/
def segmentsFrom (r : Rule) (name : String) (starts : List Nat) :
    List Span → Except Failure (List Segment)
  | [] => .ok []
  | s :: ss =>
    if s.start ∈ starts then .error (.consistency (.repeated r.source s.start))
    else (segmentsFrom r name (s.start :: starts) ss).map (Segment.ofRun name s :: ·)

/-- True where the formula is, as far as the guard holds; and the warnings. -/
def eval (ts : Tracks) (r : Rule) (frames : Nat) (threshold : Single) :
    Except Failure (Derived × List String) := do
  let name ← nameOf r
  let guard ← guardOf ts r frames
  let parsed := Formula.parse .standard (r.operands.headD "")
  let outcomes := outcomesFrom ts threshold parsed 0 guard
  let on := outcomes.map Outcome.isTrue
  let unread := match parsed with
    | .error f => [f.message]
    | .ok _ => []
  let segments ← segmentsFrom r name [] (trueRuns on)
  pure ({
    name := name
    track := indicatorTrack on
    segments := segments
    failures := outcomes.countP Outcome.isFailed }, unread ++ outcomes.filterMap Outcome.told)

/-! ## First values -/

/-- The first frame of a span at which a series is true. -/
def firstTrue? (s : Series) (threshold : Single) (span : Span) : Option Nat :=
  ((List.range (span.stop - span.start)).map (span.start + ·)).find? (s.isTrueAt threshold)

/-- The segment of a run of the guard, if the series has a value in it. -/
def valueSegment? (s : Series) (threshold : Single) (span : Span) : Option Segment :=
  (firstTrue? s threshold span).map fun f => Segment.ofRun (s.labelAt threshold f) span

/-- The label of the segment at a frame; blank where there is none. -/
def labelAt (segments : List Segment) (frame : Nat) : String :=
  ((segments.find? fun s => s.start ≤ frame && frame < s.stop).map (·.label)).getD Text.blank

/-- The first value of the target in each run of the guard. -/
def matchFirstValueOf (ts : Tracks) (r : Rule) (frames : Nat) : Except Failure Derived := do
  let name ← nameOf r
  let guard ← guardOf ts r frames
  let target ← targetOf ts r
  let segments := (trueRuns guard).filterMap (valueSegment? target ts.threshold)
  pure {
    name := name
    track := .ofSeries (.texts ((Array.range frames).map (labelAt segments))) .derived
    segments := segments
    failures := 0 }

/-! ## Pulses -/

/-- The first entries of the runs of `true`, where the entry before is
    `previous`. -/
def pulsesFrom (previous : Bool) : List Bool → List Bool
  | [] => []
  | b :: bs => (b && !previous) :: pulsesFrom b bs

/-- The span from the frame at which one was opened, if one is open. -/
def closeAt (frame : Nat) (opened : Option Nat) : List Span :=
  (opened.map fun start => ⟨start, frame⟩).toList

/-- The spans that start at a pulse and end at the next pulse or with the guard;
    the entries are pulse and guard of the frames from `frame` on. -/
def pulseSpansFrom (frame : Nat) (opened : Option Nat) : List (Bool × Bool) → List Span
  | [] => closeAt frame opened
  | (true, _) :: rest => closeAt frame opened ++ pulseSpansFrom (frame + 1) (some frame) rest
  | (false, false) :: rest => closeAt frame opened ++ pulseSpansFrom (frame + 1) none rest
  | (false, true) :: rest => pulseSpansFrom (frame + 1) opened rest

/-- The segments of spans, numbered from `n` on. -/
def numberedFrom (name : String) (n : Nat) : List Span → List Segment
  | [] => []
  | s :: ss => Segment.ofRun (name ++ " #" ++ toString n) s :: numberedFrom name (n + 1) ss

/-- The frames at which guard and target become true together. -/
def triggerBySegmentsOf (ts : Tracks) (r : Rule) (frames : Nat) : Except Failure Derived := do
  let name ← nameOf r
  let guard ← guardOf ts r frames
  let target ← targetOf ts r
  let both := List.zipWith (· && ·) guard (target.gate ts.threshold frames)
  let pulses := pulsesFrom false both
  pure {
    name := name
    track := indicatorTrack pulses
    segments := numberedFrom name 1 (pulseSpansFrom 0 none (pulses.zip guard))
    failures := 0 }

/-! ## Nested runs -/

/-- A run of an operand, and its text if the operand is one of texts. -/
structure VariableRun where
  span : Span
  value : Option String
deriving DecidableEq

/-- A run of the last operand and, for every operand, the latest run that
    overlaps it. -/
structure NestedRow where
  span : Span
  members : List (Option VariableRun)
deriving DecidableEq

/-- The result of `nestByLastVariable`. -/
structure Nested where
  derived : Derived
  operands : List String
  /-- Whether each operand is one of texts. -/
  isText : List Bool
  rows : List NestedRow
deriving DecidableEq

/-- The runs of an operand as far as the guard holds. -/
def runsOf (s : Series) (threshold : Single) (guard : List Bool) : List VariableRun :=
  match s with
  | .texts ss =>
    let shown := guard.zipIdx.map fun (g, i) => if g then ss[i]?.getD Text.blank else Text.blank
    (textRuns shown).map fun (span, text) => ⟨span, some text⟩
  | .numbers _ =>
    let on := guard.zipIdx.map fun (g, i) => g && s.isTrueAt threshold i
    (trueRuns on).map fun span => ⟨span, none⟩

/-- The latest of the runs that overlaps a span. -/
def latestIn (span : Span) (runs : List VariableRun) : Option VariableRun :=
  (runs.filter (·.span.overlaps span)).getLast?

/-- The runs of the last operand with those of all operands. -/
def nestByLastVariable (ts : Tracks) (r : Rule) (frames : Nat) : Except Failure Nested := do
  let name ← nameOf r
  let guard ← guardOf ts r frames
  let series ← r.operands.mapM (seriesOf ts r)
  let runs := series.map (runsOf · ts.threshold guard)
  let last := runs.getLastD []
  pure {
    derived := {
      name := name
      track := indicatorTrack ((List.range frames).map fun f => last.any (·.span.contains f))
      segments := last.map fun v => Segment.ofRun (v.value.getD name) v.span
      failures := 0 }
    operands := r.operands
    isText := series.map (·.kind = .text)
    rows := last.map fun v => ⟨v.span, runs.map (latestIn v.span)⟩ }

end Derivation

end Screenmark
