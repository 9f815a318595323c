/-
  Screenmark — all tracks of a session.

  The tracks are kept by name, together with the threshold of their gates. While
  frames are worked on, a track grows by one observation a frame; a track that is
  complete is put in as a whole.

  * `append` adds one observation, or leaves everything as it is;
  * `checkInStep` asks that tracks have grown by every frame, `checkAligned` that
    their lengths differ by one frame at most;
  * `resolve` gives formulas the values of names.
-/
import Screenmark.Failure
import Screenmark.Formula.Eval
import Screenmark.Series.Track

namespace Screenmark

/-- The tracks of a session, by name. -/
structure Tracks where
  byName : NameMap Track
  threshold : Single

/-- How many tracks there are of each origin, and the frames of the longest. -/
structure TrackCounts where
  logged : Nat
  extracted : Nat
  derived : Nat
  longest : Nat
deriving DecidableEq

namespace Tracks

/-- No tracks. -/
def empty (threshold : Single) : Tracks := ⟨.empty, threshold⟩

/-- The track of a name. -/
def find? (ts : Tracks) (name : String) : Option Track := ts.byName.find? name

/-- The series of a name. -/
def series? (ts : Tracks) (name : String) : Option Series := (ts.find? name).map (·.series)

/-- The tracks with a complete track put in. -/
def insert (ts : Tracks) (name : String) (t : Track) : Tracks :=
  { ts with byName := ts.byName.insert name t }

/-- The tracks with a track that is still without frames. -/
def start (ts : Tracks) (name : String) (kind : SeriesKind) (origin : Origin) : Tracks :=
  ts.insert name (.empty kind origin)

/-- The tracks with the template size of one set, if there is a track of that
    name. -/
def setTemplate (ts : Tracks) (name : String) (size : Nat × Nat) : Tracks :=
  { ts with byName := ts.byName.modify name fun t => { t with template := some size } }

/-- The tracks with one more observation for one of them. -/
def append (ts : Tracks) (name : String) (o : Observation) : Except Failure Tracks :=
  match ts.find? name with
  | none => .error (.consistency (.unknown name))
  | some t =>
    match t.push? o with
    | none => .error (.consistency (.wrongKind o.sample t.series.kind name))
    | some t => .ok (ts.insert name t)

/-! ## Questions -/

/-- The names of all tracks, in order. -/
def names (ts : Tracks) : List String := ts.byName.keys

/-- The names of the tracks that were logged before, in order. -/
def loggedNames (ts : Tracks) : List String :=
  (ts.byName.entries.filter fun e => e.2.origin = .logged).map (·.1)

/-- The gate of a name at a frame, if there is such a track. -/
def isTrueAt (ts : Tracks) (name : String) (frame : Nat) : Option Bool :=
  (ts.series? name).map fun s => s.isTrueAt ts.threshold frame

/-- The number of frames of a name; one without track has none. -/
def sizeOf (ts : Tracks) (name : String) : Nat := ((ts.find? name).map Track.size).getD 0

/-- The number of frames of the longest track. -/
def longest (ts : Tracks) : Nat := (ts.byName.values.map Track.size).foldl max 0

/-- How many tracks there are of an origin. -/
def count (ts : Tracks) (origin : Origin) : Nat :=
  ts.byName.values.countP (·.origin = origin)

/-- How many tracks there are of each origin, and the frames of the longest. -/
def counts (ts : Tracks) : TrackCounts :=
  ⟨ts.count .logged, ts.count .extracted, ts.count .derived, ts.longest⟩

/-! ## Checks -/

/-- Fails at the first of the named tracks that does not have `frames` frames. -/
def checkInStep (ts : Tracks) (names : List String) (frames : Nat) : Except Failure Unit :=
  match names.find? fun n => ts.sizeOf n ≠ frames with
  | some n => .error (.consistency (.notInStep n (ts.sizeOf n) frames))
  | none => .ok ()

/-- The first of the names for which no other one has a size that is better. -/
def firstBest (better : Nat → Nat → Bool) (size : String → Nat) : List String → Option String
  | [] => none
  | n :: ns => some (ns.foldl (fun best n => if better (size n) (size best) then n else best) n)

/-- Fails when two of the named tracks differ by more than one frame. -/
def checkAligned (ts : Tracks) (names : List String) : Except Failure Unit :=
  match firstBest (· < ·) ts.sizeOf names, firstBest (· > ·) ts.sizeOf names with
  | some short, some long =>
    if 1 < ts.sizeOf long - ts.sizeOf short then
      .error (.consistency (.notAligned short (ts.sizeOf short) long (ts.sizeOf long)))
    else .ok ()
  | _, _ => .ok ()

/-! ## Values -/

/-- The value of a sample. -/
def valueOf : Sample → Value
  | .number x => .number x.toDouble
  | .text s => .text s

/-- The value of a name at a frame; past its end a track has the value where
    nothing was seen. -/
def resolve (ts : Tracks) (frame : Nat) (name : String) : Option Value :=
  (ts.series? name).map fun s => valueOf ((s.sample? frame).getD (.neutral s.kind))

/-- The truth of a formula at a frame. -/
def holds (ts : Tracks) (frame : Nat) (source : String) : Except Formula.Fault Bool :=
  Formula.holds .standard ts.threshold (ts.resolve frame) source

/-! ## What an append does -/

theorem find?_insert (ts : Tracks) (name other : String) (t : Track) :
    (ts.insert name t).find? other = if name = other then some t else ts.find? other :=
  ts.byName.find?_insert name other t

/-- An observation goes to the end of one track. -/
theorem find?_of_append {ts us : Tracks} {name : String} {o : Observation}
    (h : ts.append name o = .ok us) (other : String) :
    us.find? other = if name = other then (ts.find? name).bind (·.push? o) else ts.find? other := by
  unfold append at h
  split at h
  · cases h
  · next t ht =>
    split at h
    · cases h
    · next u hu =>
      cases h
      rw [find?_insert, ht]
      simp [hu]

end Tracks

end Screenmark
