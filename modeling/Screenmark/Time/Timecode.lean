/-
  Screenmark — timecodes.

  A timecode shows a time as `HH:MM:SS.ffff`. The time is rounded once, to ten
  thousandths of a second, so that no part of a timecode ever shows 60.

  * `Timecode.ofUnits` lays out a number of ten thousandths;
  * `Timecode.ofSeconds` and `Timecode.ofFrames` round a time to them.
-/
import Screenmark.Binary.Layout
import Screenmark.Word

namespace Screenmark

namespace Timecode

/-- The digits of `n`, with zeros in front up to `width` digits. -/
def padded (width n : Nat) : String :=
  let s := toString n
  Style.zeros (width - s.length) ++ s

/-- The timecode of a number of ten thousandths of a second. -/
def ofUnits (n : Nat) : String :=
  padded 2 (n / 36000000) ++ ":" ++ padded 2 (n / 600000 % 60) ++ ":" ++
    padded 2 (n % 600000 / 10000) ++ "." ++ padded 4 (n % 600000 % 10000)

/-- The greatest 64-bit count. -/
def countMax : Nat := Word.bound64 - 1

/-- The ten thousandths in a number of seconds; a negative or infinite number,
    or no number, has none. -/
def unitsOf (seconds : Double) : Nat :=
  let seconds := if seconds.isFinite then seconds.positivePart else .zero
  (seconds * Binary.ofNat 10000).roundNat countMax

/-- The timecode of a number of seconds. -/
def ofSeconds (seconds : Double) : String := ofUnits (unitsOf seconds)

/-- The seconds from the first frame to a frame. -/
def seconds (fps : Single) (frame : Nat) : Double :=
  if fps ≤ .zero then .zero else Binary.ofNat frame / fps.toDouble

/-- The timecode of a frame. -/
def ofFrame (fps : Single) (frame : Nat) : String := ofSeconds (seconds fps frame)

end Timecode

end Screenmark
