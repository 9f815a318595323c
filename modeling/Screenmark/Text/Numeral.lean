/-
  Screenmark — whole numbers as text.

  A whole number is written with the digits 0 to 9 and, in front, a sign that may
  be left out; nothing else may stand beside them. Each place that reads one has
  a range, and a number outside the range is no number there.

  * `readNat? bound` reads a natural number below `bound` (a plus sign may
    stand in front);
  * `readInt? lo hi` reads a whole number of `[lo, hi]` (either sign may).
-/

namespace Screenmark.Text

/-- The value of a decimal digit. -/
def digitValue (c : Char) : Nat := c.toNat - '0'.toNat

/-- The value of a digit of base sixteen. -/
def hexValue? (c : Char) : Option Nat :=
  if c.isDigit then some (c.toNat - '0'.toNat)
  else if 'a' ≤ c ∧ c ≤ 'f' then some (c.toNat - 'a'.toNat + 10)
  else if 'A' ≤ c ∧ c ≤ 'F' then some (c.toNat - 'A'.toNat + 10)
  else none

/-- The number that the digits `ds` write, after those that write `n`. -/
def digitsValue (n : Nat) (ds : List Char) : Nat := ds.foldl (fun n c => 10 * n + digitValue c) n

/-- The number that one or more digits write. -/
def digits? (cs : List Char) : Option Nat :=
  if cs ≠ [] ∧ cs.all Char.isDigit then some (digitsValue 0 cs) else none

/-- The text without a sign in front, and whether the sign is a minus. -/
def splitSign : List Char → Bool × List Char
  | '+' :: cs => (false, cs)
  | '-' :: cs => (true, cs)
  | cs => (false, cs)

/-- A natural number below `bound`. -/
def readNat? (bound : Nat) (cs : List Char) : Option Nat :=
  let ds := match cs with
    | '+' :: ds => ds
    | ds => ds
  match digits? ds with
  | some n => if n < bound then some n else none
  | none => none

/-- A whole number of `[lo, hi]`. -/
def readInt? (lo hi : Int) (cs : List Char) : Option Int :=
  let (negative, ds) := splitSign cs
  match digits? ds with
  | some n =>
    let i : Int := if negative then -n else n
    if lo ≤ i ∧ i ≤ hi then some i else none
  | none => none

end Screenmark.Text
