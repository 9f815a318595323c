/-
  Screenmark — input logs.

  An input log has a line for each event: `key=value` pairs with commas between
  them. The pair `id` tells what happened and `when` at which thousandth of a
  second since the start of 1970; the others depend on what happened. An event has
  the time that clocks showed then. Lines that are no events are left out, but the
  first line must start with `id=`.
-/
import Screenmark.Binary.Reading
import Screenmark.Events.Typing
import Screenmark.Failure
import Screenmark.Text.Lines
import Screenmark.Time.Zone
import Screenmark.Word

namespace Screenmark

namespace InputLog

/-- The key and the value of a pair. -/
def pair? (cs : List Char) : Option (List Char × List Char) := Text.splitFirst '=' (Text.trim cs)

/-- The pairs of a line. -/
def pairs (line : String) : List (List Char × List Char) :=
  (Text.pieces ',' line.toList).filterMap pair?

/-- The value of a key; of two with one key the later counts. -/
def value? (ps : List (List Char × List Char)) (key : String) : Option (List Char) :=
  (ps.reverse.find? fun p => p.1 = key.toList).map (·.2)

/-- A 16-bit word. -/
def word? (ps : List (List Char × List Char)) (key : String) : Option Nat :=
  (value? ps key).bind (Text.readNat? Word.bound16)

/-- A 32-bit number. -/
def number? (ps : List (List Char × List Char)) (key : String) : Option Single :=
  (value? ps key).bind Binary.read?

/-- The place of a mouse event. -/
def position? (ps : List (List Char × List Char)) : Option (Single × Single) := do
  some (← number? ps "x", ← number? ps "y")

/-- What happened, by the number of its type. -/
def kind? (ps : List (List Char × List Char)) (id : Nat) : Option EventKind :=
  match id with
  | 3 => ((value? ps "keychar").bind (·.head?)).map .typed
  | 4 => (word? ps "keycode").map .keyDown
  | 5 => (word? ps "keycode").map .keyUp
  | 6 => (position? ps).map fun (x, y) => .click x y ((word? ps "button").getD 0)
  | 7 => (position? ps).map fun (x, y) => .buttonDown x y ((word? ps "button").getD 0)
  | 8 => (position? ps).map fun (x, y) => .buttonUp x y ((word? ps "button").getD 0)
  | 9 => (position? ps).map fun (x, y) => .move x y
  | 10 => (position? ps).map fun (x, y) => .drag x y
  | 11 => (position? ps).map fun (x, y) => .wheel x y
  | _ => none

/-- The event of a line. -/
def event? (z : Zone) (line : String) : Option Event := do
  let ps := pairs line
  let id ← word? ps "id"
  let millis ← (value? ps "when").bind (Text.readInt? wordMin wordMax)
  let time ← Moment.ofMillis? millis
  some ⟨z.shown time, ← kind? ps id⟩

/-- The events of a log. -/
def parse (z : Zone) (content : String) : Except Failure (List Event) :=
  let lines := (Text.lines content).filter (!Text.isBlank ·)
  match lines with
  | [] => .ok []
  | first :: _ =>
    if "id=".toList.isPrefixOf (Text.trimStart first.toList) then .ok (lines.filterMap (event? z))
    else .error (.input .noEventRows)

end InputLog

end Screenmark
