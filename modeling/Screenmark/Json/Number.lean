/-
  Screenmark — the numbers of documents.

  A number is a whole part without needless zeros in front, then perhaps a
  fraction and perhaps an exponent. A number with neither is a whole number as
  long as it fits 64 bits; every other one is a 64-bit binary number, and it is
  no number at all if it is too great for one.

  The binary number is found in two roundings: the digits that fit 64 bits are
  taken as a whole number, which is then multiplied or divided by a power of ten
  (by `10 ^ 308` first, and again, as long as the exponent is beyond the
  format).

  * `Literal.read?` cuts a number off the start of a text;
  * `Literal.value?` is its value;
  * `datum` is what a document says, with the values of its numbers.
-/
import Screenmark.Datum
import Screenmark.Json.Basic
import Screenmark.Text.Numeral
import Screenmark.Word

namespace Screenmark

namespace Json

/-- The parts of a number as written. -/
structure Literal where
  negative : Bool
  whole : List Char
  fraction : Option (List Char)
  exponent : Option (Bool × List Char)

namespace Literal

/-! ## Reading -/

/-- The digits at the start of a text and what follows them; there must be one. -/
def digitsOf? (cs : List Char) : Option (List Char × List Char) :=
  match cs.takeWhile Char.isDigit with
  | [] => none
  | ds => some (ds, cs.dropWhile Char.isDigit)

/-- The whole part: `0`, or digits of which the first is not `0`. -/
def whole? : List Char → Option (List Char × List Char)
  | '0' :: cs => if (cs.head?.map Char.isDigit).getD false then none else some (['0'], cs)
  | cs => digitsOf? cs

/-- The fraction, if a point follows. -/
def fraction? : List Char → Option (Option (List Char) × List Char)
  | '.' :: cs => (digitsOf? cs).map fun (ds, cs) => (some ds, cs)
  | cs => some (none, cs)

/-- The exponent, if an `e` follows. -/
def exponent? : List Char → Option (Option (Bool × List Char) × List Char)
  | [] => some (none, [])
  | c :: cs =>
    if c = 'e' ∨ c = 'E' then
      let (negative, cs) := Text.splitSign cs
      (digitsOf? cs).map fun (ds, cs) => (some (negative, ds), cs)
    else some (none, c :: cs)

/-- The number at the start of a text and what follows it. -/
def read? (cs : List Char) : Option (Literal × List Char) := do
  let (negative, cs) := match cs with
    | '-' :: cs => (true, cs)
    | cs => (false, cs)
  let (whole, cs) ← whole? cs
  let (fraction, cs) ← fraction? cs
  let (exponent, cs) ← exponent? cs
  some (⟨negative, whole, fraction, exponent⟩, cs)

/-! ## The value -/

/-- The digits of the whole part after those that write `n`, with the count of
    the digits from the first one that does not fit. -/
def takeWhole (n : Nat) : List Char → Nat × Nat
  | [] => (n, 0)
  | c :: cs =>
    let m := 10 * n + Text.digitValue c
    if m < Word.bound64 then takeWhole m cs else (n, (c :: cs).length)

/-- The digits of the fraction after those that write `n`, with the count of the
    digits that were taken; from the first one that does not fit they are left
    out. -/
def takeFraction (n taken : Nat) : List Char → Nat × Nat
  | [] => (n, taken)
  | c :: cs =>
    let m := 10 * n + Text.digitValue c
    if m < Word.bound64 then takeFraction m (taken + 1) cs else (n, taken)

/-- `10 ^ e` for `e ≤ 308`. -/
def power (e : Nat) : Double := Binary.ofNat (Nat.pow 10 e)

/-- `x * 10 ^ e`, or `none` if it is too great; `fuel` bounds the steps. -/
def scale? : (fuel : Nat) → Double → Int → Option Double
  | 0, x, _ => some x
  | fuel + 1, x, e =>
    if e.natAbs ≤ 308 then
      if 0 ≤ e then
        let y := x * power e.natAbs
        if y.isFinite then some y else none
      else some (x / power e.natAbs)
    else if x.eqv .zero then some x
    else if 0 ≤ e then none
    else scale? fuel (x / power 308) (e + 308)

/-- The value of a number, or `none` if it is too great. -/
def value? (l : Literal) : Option Numeric :=
  let (n, beyond) := takeWhole 0 l.whole
  if l.fraction.isNone ∧ l.exponent.isNone ∧ beyond = 0 then
    if !l.negative then some (.natural n)
    else if n = 0 ∨ wordMin.natAbs < n then some (.binary (-(Binary.ofNat n)))
    else some (.negative (-n))
  else
    let (n, taken) := takeFraction n 0 (l.fraction.getD [])
    let start : Int := beyond - taken
    let sign (x : Double) : Double := if l.negative then -x else x
    match l.exponent with
    | none => (scale? 8 (Binary.ofNat n) start).map fun x => .binary (sign x)
    | some (negative, ds) =>
      let e := Text.digitsValue 0 ds
      if Word.bound31 ≤ e then
        if n ≠ 0 ∧ !negative then none else some (.binary (sign .zero))
      else
        let e := if negative then start - e else start + e
        (scale? 8 (Binary.ofNat n) e).map fun x => .binary (sign x)

end Literal

/-! ## Data -/

/-- The value of a number that a text writes. -/
def valueOf? (literal : String) : Option Numeric :=
  (Literal.read? literal.toList).bind fun (l, _) => l.value?

/-- The value of a document that is a number. -/
def numeric? : Json → Option Numeric
  | .number literal => valueOf? literal
  | _ => none

mutual

/-- What a document says. -/
def datum : Json → Datum
  | .null => .null
  | .bool b => .bool b
  | .number literal => .number (valueOf? literal)
  | .text s => .text s
  | .array items => .array (dataOf items)
  | .object members => .object (membersOf members)

/-- What the items say. -/
def dataOf : List Json → List Datum
  | [] => []
  | v :: vs => datum v :: dataOf vs

/-- What the members say. -/
def membersOf : List (String × Json) → List (String × Datum)
  | [] => []
  | (n, v) :: ms => (n, datum v) :: membersOf ms

end

end Json

end Screenmark
