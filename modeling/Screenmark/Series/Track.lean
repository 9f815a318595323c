/-
  Screenmark — series and tracks.

  A series holds one number or one text for each frame of a recording. A track
  is a series with a place on the screen for each frame, the way in which it came
  into the session, and the size of its template, if it has one.

  * `Series.isTrueAt` is the *gate* of a series: a number above the threshold, a
    text that is not blank; past the end it is false;
  * `Series.push?` adds a sample of the right kind and refuses others
    (`push?_eq_none_iff`).
-/
import Screenmark.Series.Sample

namespace Screenmark

/-! ## Series -/

/-- The samples of one kind, frame by frame. -/
inductive Series where
  | numbers (xs : Array Single)
  | texts (ss : Array String)
deriving DecidableEq

namespace Series

/-- The series without frames. -/
def empty : SeriesKind → Series
  | .numeric => .numbers #[]
  | .text => .texts #[]

/-- What the series holds. -/
def kind : Series → SeriesKind
  | .numbers _ => .numeric
  | .texts _ => .text

/-- The number of frames. -/
def size : Series → Nat
  | .numbers xs => xs.size
  | .texts ss => ss.size

/-- The sample at a frame, if the series reaches so far. -/
def sample? (s : Series) (frame : Nat) : Option Sample :=
  match s with
  | .numbers xs => xs[frame]?.map .number
  | .texts ss => ss[frame]?.map .text

/-- The gate of a sample: a number above the threshold, a text that is not
    blank. -/
def gateOf (threshold : Single) : Sample → Bool
  | .number x => threshold < x
  | .text s => !Text.isBlank s

/-- The gate at a frame. -/
def isTrueAt (s : Series) (threshold : Single) (frame : Nat) : Bool :=
  (s.sample? frame).any (gateOf threshold)

/-- The gate at each of the first `frames` frames. -/
def gate (s : Series) (threshold : Single) (frames : Nat) : List Bool :=
  (List.range frames).map (s.isTrueAt threshold)

/-- The label of a frame: a text as it is, a number as `1` or `0` by its gate. -/
def labelAt (s : Series) (threshold : Single) (frame : Nat) : String :=
  match s with
  | .numbers _ => if s.isTrueAt threshold frame then "1" else "0"
  | .texts ss => ss[frame]?.getD Text.blank

/-- The series with one more sample, if it is of the kind of the series. -/
def push? : Series → Sample → Option Series
  | .numbers xs, .number x => some (.numbers (xs.push x))
  | .texts ss, .text s => some (.texts (ss.push s))
  | _, _ => none

/-! ## Lemmas -/

@[simp] theorem kind_empty (k : SeriesKind) : (empty k).kind = k := by cases k <;> rfl

@[simp] theorem size_empty (k : SeriesKind) : (empty k).size = 0 := by cases k <;> rfl

/-- A sample is refused exactly when it is of the other kind. -/
theorem push?_eq_none_iff {s : Series} {x : Sample} : s.push? x = none ↔ x.kind ≠ s.kind := by
  cases s <;> cases x <;> simp [push?, kind, Sample.kind]

theorem kind_of_push? {s t : Series} {x : Sample} (h : s.push? x = some t) : t.kind = s.kind := by
  cases s <;> cases x <;> simp [push?] at h <;> subst h <;> rfl

theorem size_of_push? {s t : Series} {x : Sample} (h : s.push? x = some t) :
    t.size = s.size + 1 := by
  cases s <;> cases x <;> simp [push?] at h <;> subst h <;> simp [size]

/-- The new sample stands behind all others, which stay where they are. -/
theorem sample?_of_push? {s t : Series} {x : Sample} (h : s.push? x = some t) (frame : Nat) :
    t.sample? frame = if frame = s.size then some x else s.sample? frame := by
  cases s with
  | numbers xs =>
    cases x <;> simp [push?] at h
    subst h
    change ((xs.push _)[frame]?).map _ = if frame = xs.size then _ else (xs[frame]?).map _
    rw [Array.getElem?_push]
    split <;> simp
  | texts ss =>
    cases x <;> simp [push?] at h
    subst h
    change ((ss.push _)[frame]?).map _ = if frame = ss.size then _ else (ss[frame]?).map _
    rw [Array.getElem?_push]
    split <;> simp

@[simp] theorem length_gate (s : Series) (threshold : Single) (frames : Nat) :
    (s.gate threshold frames).length = frames := by simp [gate]

end Series

/-! ## Tracks -/

/-- How a track came into the session. -/
inductive Origin where
  /-- read from a table of an earlier run -/
  | logged
  /-- computed frame by frame -/
  | extracted
  /-- computed from complete series -/
  | derived
deriving DecidableEq

/-- The name of an origin. -/
def Origin.name : Origin → String
  | .logged => "Logged"
  | .extracted => "Extracted"
  | .derived => "Derived"

/-- A series with places, origin and template size. -/
structure Track where
  series : Series
  x : Array Single
  y : Array Single
  origin : Origin
  /-- The width and height of the template. -/
  template : Option (Nat × Nat)
deriving DecidableEq

namespace Track

/-- The track without frames. -/
def empty (kind : SeriesKind) (origin : Origin) : Track := ⟨.empty kind, #[], #[], origin, none⟩

/-- The track of a complete series, every frame of which is at the corner. -/
def ofSeries (series : Series) (origin : Origin) : Track :=
  ⟨series, Array.replicate series.size .zero, Array.replicate series.size .zero, origin, none⟩

/-- The number of frames of the series. -/
def size (t : Track) : Nat := t.series.size

/-- The place at a frame; past the end it is the corner. -/
def positionAt (t : Track) (frame : Nat) : Single × Single :=
  (t.x[frame]?.getD .zero, t.y[frame]?.getD .zero)

/-- The track with one more observation, if it is of the kind of the series. -/
def push? (t : Track) (o : Observation) : Option Track :=
  (t.series.push? o.sample).map fun s =>
    { t with series := s, x := t.x.push o.x, y := t.y.push o.y }

/-- The series and the places have one entry for each frame. -/
def IsRectangular (t : Track) : Prop := t.x.size = t.series.size ∧ t.y.size = t.series.size

theorem isRectangular_empty (kind : SeriesKind) (origin : Origin) :
    (empty kind origin).IsRectangular := by simp [IsRectangular, empty]

theorem isRectangular_ofSeries (series : Series) (origin : Origin) :
    (ofSeries series origin).IsRectangular := by simp [IsRectangular, ofSeries]

theorem isRectangular_of_push? {t u : Track} {o : Observation} (h : t.push? o = some u)
    (ht : t.IsRectangular) : u.IsRectangular := by
  simp only [push?, Option.map_eq_some_iff] at h
  obtain ⟨s, hs, rfl⟩ := h
  have := Series.size_of_push? hs
  simp only [IsRectangular, Array.size_push] at ht ⊢
  omega

end Track

end Screenmark
