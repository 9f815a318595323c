/-
  Screenmark — the templates of a session.

  A rule may define a template as a part of a frame of some recording, given in
  parts of the size of the frame and in seconds. The session cuts such templates
  out, keeps them as files in its data folder, and then loads the files of all
  templates that its rules look for.
-/
import Screenmark.Binary.Reading
import Screenmark.Plan.Basic
import Screenmark.Session.Basic

namespace Screenmark

namespace Template

/-- The failure of the template that a rule defines. -/
def failure (r : Rule) (cause : TemplateCause) : Failure := .template r.label cause

/-- The `i`-th operand of a rule as a number. -/
def number (r : Rule) (i : Nat) : Except Failure Single :=
  let text := r.operands[i]?.getD ""
  match Binary.ofText? text with
  | some x => .ok x
  | none => .error (failure r (.notNumber text))

/-- The whole number of pixels nearest to a part of a length. -/
def pixels (part : Single) (length : Nat) : Int :=
  (part * Binary.ofNat length).roundWithin wordMin wordMax

/-- A part of a frame. -/
structure Cut where
  x : Single
  y : Single
  width : Single
  height : Single
  seconds : Single

/-- The part of a frame that a rule defines. -/
def cutOf (r : Rule) : Except Failure Cut := do
  pure ⟨← number r 0, ← number r 1, ← number r 2, ← number r 3, ← number r 5⟩

/-- The part in pixels of an image. -/
def Cut.rect (c : Cut) (image : GreyImage) : Rect :=
  ⟨pixels c.x image.width, pixels c.y image.height, pixels c.width image.width,
    pixels c.height image.height⟩

/-- The part of an image that a rule defines. -/
def cutFrom (r : Rule) (c : Cut) (image : GreyImage) : Except Failure GreyImage :=
  match (c.rect image).clampTo image.width image.height with
  | some region => .ok (image.crop region)
  | none => .error (failure r (.outside (c.rect image)))

/-- The frame of a time. -/
def frameOf (seconds fps : Single) : Nat := (seconds * fps).roundNat Timecode.countMax

end Template

namespace Session

variable {σ : Type}

/-- A use of an instrument. -/
def use {α : Type} (f : σ → α × σ) : Work σ α := fun w =>
  let (a, world) := f w.world
  .ok a { w with world := world }

/-- Cuts the template of a rule out of its recording. -/
def cutTemplate (s : Session σ) (recordings : Tree → String → σ → Except Failure (Footage σ) × σ)
    (r : Rule) : Work σ GreyImage := do
  let cut ← Work.ofExcept (Template.cutOf r)
  let files := (← get).files
  let footage ← Work.ofExcept
    (← use (recordings files (Path.join s.dataFolder (r.operands[4]?.getD ""))))
  let frame := Template.frameOf cut.seconds footage.fps
  if !(← use (footage.seek frame)) then throw (Template.failure r (.unreachable frame))
  match ← use (footage.read files) with
  | none => throw (Template.failure r (.unreadable frame))
  | some image => Work.ofExcept (Template.cutFrom r cut (ColourImage.grey image))

/-- Makes the file of the template that a rule defines; without a way to open
    recordings, a file that is there already will do. -/
def makeTemplate (s : Session σ) (r : Rule) : Work σ Unit := do
  let name := r.name.getD ""
  let path := s.templatePath name
  match s.instruments.recordings with
  | none => if (← get).files.contains path then return () else throw (.missing (.recordings name))
  | some recordings =>
    let image ← s.cutTemplate recordings r
    Work.changeFiles fun t =>
      match t.write path (.picture (.grey image)) with
      | .ok t => .ok (t, ())
      | .error e => .error (.template name (.unsaved path e))

/-- Makes the files of all templates that rules define. -/
def makeTemplates (s : Session σ) (p : Plan) : Work σ Unit :=
  ((p.ofFamily .extraction).filter (·.action = .template)).forM s.makeTemplate

/-- The templates with that of a name, if it has a file. -/
def loadTemplate (s : Session σ) (files : Tree) (templates : NameMap GreyImage) (name : String) :
    Except Failure (NameMap GreyImage) :=
  let path := s.templatePath name
  if files.contains path then
    (files.readPicture path).map fun p => templates.insert name p.toGrey
  else .ok templates

/-- The templates of a plan that have files. -/
def loadTemplates (s : Session σ) (p : Plan) (files : Tree) : Except Failure (NameMap GreyImage) :=
  p.templates.foldlM (s.loadTemplate files) .empty

end Session

end Screenmark
