/-
  Screenmark — how far a session is.

  The status of a session shows the phase it is in, the latest error, the latest
  success and the progress, from zero to one; after a fatal error the progress
  is -1. It also keeps the phases that were shown so far. What goes wrong without
  stopping the session is a warning, which becomes the latest error.
-/
import Screenmark.Binary.Layout

namespace Screenmark

/-- What a session is busy with. -/
inductive Phase where
  | idle
  | ingesting
  | compiling
  | preparing
  | scanning
  | computing
  | defaulting
  | advancing
  | inputHooks
  | deriving
  | done
  | aborted
  | failed
deriving DecidableEq

/-- The name of a phase. -/
def Phase.name : Phase → String
  | .idle => "idle"
  | .ingesting => "ingesting"
  | .compiling => "compiling"
  | .preparing => "preparing"
  | .scanning => "scanning"
  | .computing => "computing"
  | .defaulting => "defaulting"
  | .advancing => "advancing"
  | .inputHooks => "input hooks"
  | .deriving => "deriving"
  | .done => "done"
  | .aborted => "aborted"
  | .failed => "failed"

/-- How far a session is. -/
structure Status where
  phase : Phase
  error : Option String
  success : Option String
  progress : Single
  /-- All phases that were shown, the latest first. -/
  shown : List Phase

namespace Status

/-- Before anything happened. -/
def initial : Status := ⟨.idle, none, none, .zero, []⟩

/-- The status in a phase. -/
def enter (s : Status) (p : Phase) : Status := { s with phase := p, shown := p :: s.shown }

/-- The status with the progress set, kept from zero to one. -/
def advance (s : Status) (progress : Single) : Status :=
  { s with progress := Binary.clamp .zero .one progress }

/-- The status after an error that does not stop the session. -/
def recordError (s : Status) (message : String) : Status := { s with error := some message }

/-- The status after a success. -/
def succeed (s : Status) (p : Phase) (message : String) : Status :=
  { s.enter p with success := some message }

/-- The status after a fatal error in the phase `during`. -/
def fail (s : Status) (during : Phase) (message : String) : Status :=
  { s.enter .failed with
    error := some (during.name ++ ": " ++ message)
    progress := -Binary.one }

/-- The status after a warning about a subject. -/
def warn (s : Status) (subject message : String) : Status :=
  s.recordError (subject ++ ": " ++ message)

end Status

end Screenmark
