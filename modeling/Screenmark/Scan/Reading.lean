/-
  Screenmark — recognised text.

  What a recogniser reads goes into tables, so line ends and commas are dropped,
  as is white space at both ends; where nothing is left, the blank text stands.
  A number is kept only when it is a single word.
-/
import Screenmark.Rule.Basic

namespace Screenmark

/-- The sets of characters that a recogniser may be asked to keep to. -/
inductive Charset where
  | digits
  | time
  | letters
deriving DecidableEq

/-- The characters of a set. -/
def Charset.characters : Charset → String
  | .digits => "0123456789"
  | .time => "0123456789:-."
  | .letters => "abcdefghijklmnopqrstuvwxyz"

/-- A character that has no place in a field of a table. -/
def isFieldBreak (c : Char) : Bool := c == '\n' || c == '\r' || c == ','

/-- The text to keep of what was recognised for an action. -/
def cleanText (raw : String) (action : Action) : String :=
  let cs := Text.trim (raw.toList.filter (!isFieldBreak ·))
  if cs = [] ∨ (action = .detectNumber ∧ (Text.words cs).length ≠ 1) then Text.blank
  else String.ofList cs

end Screenmark
