/-
  Screenmark — the uses of instruments.

  What a scan hands to its instruments does not show in its result. So instruments
  are given that do the same and note how they are used (`Instruments.noted`): the
  world keeps, beside the world of the instruments, the uses of every frame. A frame
  begins when the scan asks whether to stop.

  * `Scan.forget_run` : a scan whose instruments note their uses does what it does
    without the notes.
-/
import Screenmark.Proofs.Scan.Worlds

namespace Screenmark

/-! ## Notes -/

/-- A use of an instrument for the image of a frame. -/
inductive Use where
  | seek (frame : Nat)
  | read
  | find (image : GreyImage)
  | recognise (image : GreyImage)

/-- A world whose instruments note their uses. -/
structure Noted (σ : Type) where
  world : σ
  /-- The uses at each frame; the latest frame and the latest use stand first. -/
  frames : List (List Use)

variable {σ α : Type}

namespace Noted

/-- The notes with one more use at the latest frame. -/
def note (u : Use) : List (List Use) → List (List Use)
  | [] => [[u]]
  | us :: frames => (u :: us) :: frames

/-- A use of an instrument that also changes the notes. -/
def lift (change : List (List Use) → List (List Use)) (g : σ → α × σ) (v : Noted σ) :
    α × Noted σ :=
  ((g v.world).1, ⟨(g v.world).2, change v.frames⟩)

end Noted

open Noted

/-- The footage that notes its uses. -/
def Footage.noted (f : Footage σ) : Footage (Noted σ) where
  frames := f.frames
  fps := f.fps
  width := f.width
  height := f.height
  seek n := lift (note (.seek n)) (f.seek n)
  read files := lift (note .read) (f.read files)

/-- The instruments that note their uses. -/
def Instruments.noted (ins : Instruments σ) : Instruments (Noted σ) where
  footage := ins.footage.map Footage.noted
  recordings := ins.recordings.map fun load files path v =>
    let (f, v) := lift id (load files path) v
    (f.map Footage.noted, v)
  matcher := ins.matcher.map fun find image template =>
    lift (note (.find image)) (find image template)
  recogniser := ins.recogniser.map fun recognise image characters =>
    lift (note (.recognise image)) (recognise image characters)
  snapshots := ins.snapshots.map fun snapshot frame => lift id (snapshot frame)
  events := ins.events.map fun load files => lift id (load files)
  poll := lift ([] :: ·) ins.poll

/-- The scan with instruments that note their uses. -/
def Scan.noted (sc : Scan σ) : Scan (Noted σ) where
  plan := sc.plan
  settings := sc.settings
  templates := sc.templates
  instruments := sc.instruments.noted
  stopped := sc.stopped

/-- The workspace without notes yet. -/
def Workspace.noted (w : Workspace σ) : Workspace (Noted σ) :=
  ⟨⟨w.world, []⟩, w.files, w.tracks, w.status⟩

/-! ## Forgetting the notes -/

/-- The workspace without the notes. -/
def Workspace.forget (w : Workspace (Noted σ)) : Workspace σ :=
  ⟨w.world.world, w.files, w.tracks, w.status⟩

/-- The state without the notes. -/
def ScanState.forget (s : ScanState (Noted σ)) : ScanState σ :=
  ⟨s.work.forget, s.cursor, s.image, s.sought, s.sheets, s.report, s.log⟩

theorem answersAs_lift (change : List (List Use) → List (List Use)) (g : σ → α × σ) :
    AnswersAs Noted.world (lift change g) g := fun _ => rfl

theorem Footage.noted_isOver (f : Footage σ) : f.noted.IsOver Noted.world f where
  seek n := answersAs_lift _ (f.seek n)
  read files := answersAs_lift _ (f.read files)

/-- A step that does the same without the notes. -/
abbrev Scanning.Same (m' : Scanning (Noted σ) α) (m : Scanning σ α) : Prop :=
  Forgets ScanState.forget m' m

namespace Scan

open Scanning

variable {sc : Scan σ} {t : Target} {total : Nat}

/-- Instruments that note their uses answer as they do without the notes. -/
theorem noted_isOver (sc : Scan σ) : sc.noted.IsOver Noted.world sc where
  plan := rfl
  settings := rfl
  templates := rfl
  instruments := {
    footage := by
      change Option.Rel _ (sc.instruments.footage.map Footage.noted) _
      rcases sc.instruments.footage with _ | f
      · exact .none
      · exact .some f.noted_isOver
    matcher := by
      change Option.Rel _ (sc.instruments.matcher.map _) _
      rcases sc.instruments.matcher with _ | find
      · exact .none
      · exact .some fun image template => answersAs_lift _ (find image template)
    recogniser := by
      change Option.Rel _ (sc.instruments.recogniser.map _) _
      rcases sc.instruments.recogniser with _ | recognise
      · exact .none
      · exact .some fun image characters => answersAs_lift _ (recognise image characters)
    snapshots := by
      change Option.Rel _ (sc.instruments.snapshots.map _) _
      rcases sc.instruments.snapshots with _ | snapshot
      · exact .none
      · exact .some fun frame => answersAs_lift _ (snapshot frame)
    poll := fun _ => rfl }

/-! ## Frames -/

theorem same_step (sc : Scan σ) (i : Nat) (t : Target) :
    Same (sc.noted.step i t) (sc.step i t) := sc.noted_isOver.step i t

theorem same_pass : Same (sc.noted.pass total) (sc.pass total) := fun _ =>
  sc.noted_isOver.pass Iff.rfl

theorem same_frames : ∀ remaining : Nat,
    Same (sc.noted.frames total remaining) (sc.frames total remaining)
  | 0 => .pure false
  | remaining + 1 => fun s => by
    rw [frames_succ, frames_succ, same_pass]
    rcases sc.noted.pass total s with ⟨r, s'⟩ | ⟨e, s'⟩
    · rcases r with _ | r
      · rfl
      · exact same_frames remaining s'
    · rfl

variable {s s' s₀ : ScanState (Noted σ)} {ps : List (Nat × Target)} {entries : List LogEntry}
  {k : Nat}

theorem Steps.forget (h : Steps sc.noted ps s entries s') :
    Steps sc ps s.forget entries s'.forget := by
  induction h with
  | nil => exact .nil
  | @cons i t ps s s₁ s₂ entry entries hstep hsteps ih =>
    refine .cons ?_ ih
    rw [sc.same_step i t s, hstep]
    rfl

theorem Triggers.forget (h : sc.noted.Triggers ps s t) : sc.Triggers ps s.forget t := by
  obtain ⟨done, i, rest, entries, s₁, hps, hsteps, htrue⟩ := h
  exact ⟨done, i, rest, entries, s₁.forget, hps, hsteps.forget, htrue⟩

theorem Reaches.forget (h : sc.noted.Reaches total s₀ k s) :
    sc.Reaches total s₀.forget k s.forget := by
  induction h with
  | start => exact .start
  | @next k s s' r hs hpass ih =>
    have hpass : sc.pass total s.forget = .ok (some r) s'.forget := by
      rw [same_pass s, hpass]
      rfl
    exact ih.next hpass

/-! ## Whole scans -/

variable {o : Option Outlet}

theorem forget_prepare (sc : Scan σ) (o : Option Outlet) (w : Workspace σ) :
    mapState Workspace.forget (sc.noted.prepare o w.noted) = sc.prepare o w :=
  (sc.noted_isOver.prepare w.noted).symm

/-- **A scan whose instruments note their uses does what it does without the notes.** -/
theorem forget_run (sc : Scan σ) (total : Nat) (o : Option Outlet) (w : Workspace σ) :
    mapState Workspace.forget (sc.noted.run total o w.noted) = sc.run total o w := by
  rw [run_apply, run_apply, sc.noted_isOver.check, show sc.noted.targets = sc.targets from rfl]
  rcases sc.check with e | _
  · rfl
  dsimp only
  split
  · rfl
  · rw [← sc.forget_prepare]
    rcases hprep : sc.noted.prepare o w.noted with ⟨sheets, w₁⟩ | ⟨e, w₁⟩
    · have htakes := (leads_prepare.ok hprep).takes
      have hframes : sc.frames total total (initial w₁.forget sheets) =
          mapState ScanState.forget (sc.noted.frames total total (initial w₁ sheets)) :=
        same_frames total (initial w₁ sheets)
      dsimp only [mapState]
      rw [scanFrames_eq htakes, scanFrames_eq (w := w₁.forget) htakes, hframes]
      cases sc.noted.frames total total (initial w₁ sheets) <;> rfl
    · rfl

end Scan

end Screenmark
