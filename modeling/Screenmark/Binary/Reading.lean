/-
  Screenmark — reading a binary number.

  The text of a number is a sign that may be left out, then digits with at most
  one point among or beside them and perhaps an exponent, or one of the words
  `inf`, `infinity` and `nan` in any case. It is read as the nearest number of
  the format, in one rounding.
-/
import Screenmark.Binary.Decimal
import Screenmark.Text.Numeral

namespace Screenmark

namespace Decimal

/-- The exponent part of a decimal: nothing, or `e` with a whole number. -/
def readExponent? : List Char → Option Int
  | [] => some 0
  | c :: cs =>
    if c = 'e' ∨ c = 'E' then
      let (negative, ds) := Text.splitSign cs
      (Text.digits? ds).map fun n => if negative then -(n : Int) else n
    else none

/-- A decimal without sign: digits before and after a point (at least one in
    all), then the exponent part. -/
def read? (cs : List Char) : Option Decimal :=
  let whole := cs.takeWhile Char.isDigit
  let rest := cs.dropWhile Char.isDigit
  let (part, rest) := match rest with
    | '.' :: rest => (rest.takeWhile Char.isDigit, rest.dropWhile Char.isDigit)
    | rest => ([], rest)
  if whole = [] ∧ part = [] then none
  else (readExponent? rest).map fun e =>
    ⟨Text.digitsValue 0 (whole ++ part), e - part.length⟩

end Decimal

namespace Binary

variable {f : Format}

/-- The number that the text writes. -/
def read? (cs : List Char) : Option (Binary f) :=
  let (negative, cs) := Text.splitSign cs
  let word := String.ofList (cs.map Char.toLower)
  if word = "nan" then some .nan
  else if word = "inf" ∨ word = "infinity" then some (.inf negative)
  else (Decimal.read? cs).map (ofDecimal negative)

/-- The number that the text writes. -/
def ofText? (s : String) : Option (Binary f) := read? s.toList

end Binary

end Screenmark
