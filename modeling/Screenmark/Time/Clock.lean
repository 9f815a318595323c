/-
  Screenmark — the clock of a recording.

  The clock knows the frame rate of a recording and, if the name of the
  recording tells, the moment of its first frame: a name may end with the six
  fields `YYYY-MM-DD-HH-MM-SS`. A *first minute* says how many frames were
  recorded within the minute in which the recording started, which gives the
  start to a fraction of a second.

  * `timecode` and `datedTimecode` show the time of a frame;
  * `frameAt` is the frame at a moment, if it is not before the start.
-/
import Screenmark.Text.Lines
import Screenmark.Text.Numeral
import Screenmark.Time.Calendar
import Screenmark.Word

namespace Screenmark

/-- The minute in which a recording started, and the frames recorded in it. -/
structure FirstMinute where
  hour : Nat
  minute : Nat
  frames : Nat
deriving DecidableEq

/-- The frame rate and start of a recording. -/
structure Clock where
  fps : Single
  start : Option Moment

namespace Clock

/-! ## The start -/

/-- The year that a 32-bit word stands for. -/
def yearOfWord (n : Nat) : Int := if n < Word.bound31 then n else n - Word.bound32

/-- The moment that six numbers give. -/
def momentOfWords? : List Nat → Option Moment
  | [year, month, day, hour, minute, second] =>
    Moment.ofFields? (yearOfWord year) month day hour minute second
  | _ => none

/-- The numbers in the last six fields of a name, if there are so many and all
    are 32-bit words. -/
def lastWords? (stem : String) : Option (List Nat) :=
  let fields := Text.pieces '-' stem.toList
  if fields.length < 6 then none
  else (fields.drop (fields.length - 6)).mapM (Text.readNat? Word.bound32)

/-- The start that the name of a recording tells. -/
def startOfStem? (stem : String) : Option Moment := (lastWords? stem).bind momentOfWords?

/-- The clock of a recording with the given name. -/
def ofStem (stem : String) (fps : Single) : Clock := ⟨fps, startOfStem? stem⟩

/-- The millionths of a second from the start of the minute to the start of the
    recording, where a minute has `perMinute` frames. -/
def offset (perMinute : Double) (frames : Nat) : Int :=
  let seconds := Binary.ofNat 60 * (perMinute - Binary.ofNat frames) / perMinute
  (seconds.positivePart * Binary.ofNat 1000000).roundWithin wordMin wordMax

/-- The clock with its start made exact by a first minute. The date stays; a
    clock without start, and a minute that does not exist, change nothing. -/
def withFirstMinute (c : Clock) (first : FirstMinute) : Clock :=
  match c.start with
  | none => c
  | some start =>
    let perMinute := c.fps.toDouble * Binary.ofNat 60
    if perMinute ≤ .zero then c
    else if first.hour < 24 ∧ first.minute < 60 then
      { c with
        start := some ((Moment.ofDate start.date first.hour first.minute 0).add
          (offset perMinute first.frames)) }
    else c

/-! ## Frames and moments -/

/-- The seconds from the first frame to a frame. -/
def seconds (c : Clock) (frame : Nat) : Double := Timecode.seconds c.fps frame

/-- The timecode of a frame. -/
def timecode (c : Clock) (frame : Nat) : String := Timecode.ofFrame c.fps frame

/-- The moment of a frame, where the recording starts at `start`. -/
def momentOf (c : Clock) (start : Moment) (frame : Nat) : Moment :=
  start.add ((c.seconds frame * Binary.ofNat 1000000).roundWithin wordMin wordMax)

/-- The date and time of a frame; without a start, its timecode. -/
def datedTimecode (c : Clock) (frame : Nat) : String :=
  match c.start with
  | none => c.timecode frame
  | some start =>
    let t := c.momentOf start frame
    t.date.shown ++ "-" ++ Timecode.ofSeconds t.secondsOfDay

/-- The frame at a moment, if that is not before the start. The time since the
    start is cut to thousandths of a second. -/
def frameAt (c : Clock) (t : Moment) : Option Nat :=
  match c.start with
  | none => none
  | some start =>
    let millis := (t.micros - start.micros).tdiv 1000
    if millis < 0 ∨ c.fps ≤ .zero then none
    else some ((Binary.ofInt millis / Binary.ofNat 1000 * c.fps.toDouble).floorNat
      Timecode.countMax)

end Clock

end Screenmark
