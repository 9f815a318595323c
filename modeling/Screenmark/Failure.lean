/-
  Screenmark — what can go wrong in a session.

  Every part of a session that can fail gives a `Failure`. It says what happened
  in the words of the library; `Failure.message` is what a person reads. A
  failure that was caused by another fault also has that fault's wording
  (`Failure.reasons`), for reports that list causes one below the other.
-/
import Screenmark.Files.Fault
import Screenmark.Rule.Fault

namespace Screenmark

/-! ## Causes -/

/-- Why a frame has no image. -/
inductive DecodeCause where
  | unreachable (frame : Nat)
  | unreadable (frame : Nat)
deriving DecidableEq

/-- The wording of a cause. -/
def DecodeCause.message : DecodeCause → String
  | .unreachable frame => s!"seek to frame {frame} failed"
  | .unreadable frame => s!"frame {frame} could not be read"

/-- How series, the rows of a table, or segments do not fit together. -/
inductive ConsistencyCause where
  | unknown (name : String)
  | wrongKind (sample : Sample) (kind : SeriesKind) (name : String)
  | notInStep (name : String) (rows frames : Nat)
  | notAligned (short : String) (shortSize : Nat) (long : String) (longSize : Nat)
  | rowWidth (fields : Nat) (path : String) (columns : Nat)
  | repeated (rule : String) (frame : Nat)
deriving DecidableEq

/-- The wording of a cause. -/
def ConsistencyCause.message : ConsistencyCause → String
  | .unknown name => s!"no track named '{name}'"
  | .wrongKind sample kind name =>
    "cannot append " ++ sample.described ++ " to " ++ kind.name ++ " series '" ++ name ++ "'"
  | .notInStep name rows frames =>
    s!"series '{name}' holds {rows} rows after {frames} processed frames"
  | .notAligned short shortSize long longSize =>
    s!"series '{short}' has {shortSize} frames but '{long}' has {longSize}"
  | .rowWidth fields path columns =>
    "row with " ++ toString fields ++ " fields written to " ++ Text.quoted path ++
      ", which has " ++ toString columns ++ " columns"
  | .repeated rule frame => s!"Duplicate segment in rule '{rule}' starting at frame {frame}"

/-- Why there is no image of a template. -/
inductive TemplateCause where
  | notLoaded
  | notNumber (text : String)
  | unreachable (frame : Nat)
  | unreadable (frame : Nat)
  | outside (region : Rect)
  | unsaved (path : String) (fault : FileFault)
deriving DecidableEq

/-- The wording of a cause. -/
def TemplateCause.message : TemplateCause → String
  | .notLoaded => "template image not loaded"
  | .notNumber text => s!"'{text}' is not a number"
  | .unreachable frame => s!"cannot seek to frame {frame}"
  | .unreadable frame => s!"cannot decode frame {frame}"
  | .outside region => "region " ++ region.shown ++ " lies outside the frame"
  | .unsaved path fault => "cannot save " ++ Text.quoted path ++ ": " ++ fault.message

/-- What is wrong with an input. -/
inductive InputCause where
  | emptyTable (origin : String)
  | firstMinuteMissing (origin : String)
  | firstMinuteInvalid (origin : String)
  | noAnnotations (origin : String)
  | unknownColumn (origin column : String)
  | noEventRows
  | noImages (folder : String)
  | unknownRecording (path : String)
  | noFrameRate
  | nameless (rule : String)
  | notConversion (action : Action)
  | notInputHook (action : Action)
deriving DecidableEq

/-- The wording of a cause. -/
def InputCause.message : InputCause → String
  | .emptyTable origin => s!"{origin} is empty"
  | .firstMinuteMissing origin => s!"{origin} has no first-minute row"
  | .firstMinuteInvalid origin => s!"{origin} has an invalid first-minute row"
  | .noAnnotations origin => s!"{origin} doesn't contain frame annotations"
  | .unknownColumn origin column => s!"{origin}: unsupported annotation column '{column}'"
  | .noEventRows => "hook log rows must start with 'id='"
  | .noImages folder => "no frame images found in " ++ Text.quoted folder
  | .unknownRecording path => s!"cannot open {path}"
  | .noFrameRate => "no frame source and no fallback frame rate configured"
  | .nameless rule => s!"conversion rule '{rule}' has no name"
  | .notConversion action => "'" ++ action.name ++ "' is not a conversion action"
  | .notInputHook action => "'" ++ action.name ++ "' is not an input hook action"

/-- A part that a session needs and was not given. -/
inductive MissingPart where
  | footage
  | matcher
  | recogniser
  | snapshots
  | recordings (template : String)
  | events
deriving DecidableEq

/-- The wording of a missing part. -/
def MissingPart.message : MissingPart → String
  | .footage => "extraction rules need a frame source"
  | .matcher => "template rules need a template matcher"
  | .recogniser => "text rules need a text recogniser"
  | .snapshots => "accessibility rules need an accessibility snapshot source"
  | .recordings template =>
    s!"template '{template}' must be cut from a recording, but no frame source provider is attached"
  | .events => "input hook rules need an input event source"

/-! ## Failures -/

/-- What can go wrong in a session. -/
inductive Failure where
  | rules (fault : RuleFault)
  | unresolved (rule name : String)
  | decode (cause : DecodeCause)
  | consistency (cause : ConsistencyCause)
  | template (name : String) (cause : TemplateCause)
  | input (cause : InputCause)
  | missing (part : MissingPart)
  | unwritten (path : String) (fault : FileFault)
  | file (fault : FileFault)
  /-- a file that is no image -/
  | image
  /-- a file that is no document of the expected form -/
  | document
deriving DecidableEq

namespace Failure

/-- What a file that is no image is said to be. -/
def imageReason : String := "The file is not a supported image"

/-- What a file that is no document is said to be. -/
def documentReason : String := "the document is malformed"

/-- The wording of a failure. -/
def message : Failure → String
  | .rules fault => "Rule compilation failed: " ++ fault.message
  | .unresolved rule name =>
    s!"Unresolved dependency in rule '{rule}': '{name}' is neither a logged series nor " ++
      "a registrable template"
  | .decode cause => "Failed to decode frame: " ++ cause.message
  | .consistency (.repeated rule frame) => (ConsistencyCause.repeated rule frame).message
  | .consistency cause => "Series consistency violated: " ++ cause.message
  | .template name cause => s!"Template '{name}' unavailable: {cause.message}"
  | .input cause => "Invalid input: " ++ cause.message
  | .missing part => "Missing collaborator: " ++ part.message
  | .unwritten path fault => "Failed to write export " ++ Text.quoted path ++ ": " ++ fault.message
  | .file fault => "IO error: " ++ fault.message
  | .image => "Image error: " ++ imageReason
  | .document => "JSON error: " ++ documentReason

/-- The wordings of the faults below a failure, the nearest first. -/
def reasons : Failure → List String
  | .rules fault => [fault.message]
  | .unwritten _ fault | .file fault => [fault.message]
  | .image => [imageReason]
  | .document => [documentReason]
  | _ => []

end Failure

end Screenmark
