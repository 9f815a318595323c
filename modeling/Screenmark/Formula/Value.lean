/-
  Screenmark — the values of formulas.

  A formula is about the series of a recording, so its values are booleans,
  numbers and texts. Where an operator or a gate needs a truth value, every
  value has one: a number is true above the threshold, a text when it shows
  something.
-/
import Screenmark.Binary.Layout
import Screenmark.Text.Blank

namespace Screenmark

/-- A value of a formula. -/
inductive Value where
  | bool (b : Bool)
  | number (x : Double)
  | text (s : String)
deriving DecidableEq

namespace Value

/-- The literals written as words. -/
def keyword? (word : String) : Option Value :=
  if word = "True" then some (.bool true)
  else if word = "False" then some (.bool false)
  else none

/-- The value as shown. -/
def shown : Value → String
  | .bool true => "True"
  | .bool false => "False"
  | .number x => x.plain
  | .text s => s

/-- The truth value at a threshold: numbers above it and texts that are not
    blank are true. -/
def truthy (threshold : Single) : Value → Bool
  | .bool b => b
  | .number x => threshold.toDouble < x
  | .text s => !Text.isBlank s

end Value

end Screenmark
