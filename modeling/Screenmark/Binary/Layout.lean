/-
  Screenmark — the text of a binary number.

  The digits are always those of the shortest decimal that reads back; a `Style`
  says how they are laid out: for which exponents of the first digit they are
  written around a point and for which with an exponent, whether a whole number
  keeps `.0`, and whether an exponent carries a plus sign.

  * `plain` is the style of tables, answers and values: never an exponent, no
    `.0`;
  * `pointed` is the style of numbers inside messages;
  * `document` is the style of 32-bit numbers in documents.
-/
import Screenmark.Binary.Decimal

namespace Screenmark

/-- How the digits of a number are laid out. -/
structure Style where
  /-- Exponents of the first digit from here on are written around a point … -/
  plainFrom : Option Int
  /-- … below this one. -/
  plainBelow : Option Int
  /-- A whole number ends with `.0`. -/
  pointZero : Bool
  /-- An exponent that is not negative starts with `+`. -/
  plus : Bool
  /-- Which of two equally near decimals is taken. -/
  tie : Decimal.Tie

namespace Style

/-- Tables, answers and values: `0.1`, `100`, never an exponent. -/
def plain : Style where
  plainFrom := none
  plainBelow := none
  pointZero := false
  plus := false
  tie := .up

/-- Numbers inside messages: `2.0`, `1e16`, `1e-7`. -/
def pointed : Style where
  plainFrom := some (-4)
  plainBelow := some 16
  pointZero := true
  plus := false
  tie := .up

/-- 32-bit numbers in documents: `1.0`, `1e+16`, `1e-7`. -/
def document : Style where
  plainFrom := some (-6)
  plainBelow := some 13
  pointZero := true
  plus := true
  tie := .even

/-- `n` zeros. -/
def zeros (n : Nat) : String := String.ofList (List.replicate n '0')

/-- The digits around a point, the first one having exponent `e`. -/
def positional (style : Style) (ds : List Char) (e : Int) : String :=
  if e < 0 then "0." ++ zeros (-e - 1).toNat ++ String.ofList ds
  else
    let whole := e.toNat + 1
    if ds.length ≤ whole then
      String.ofList ds ++ zeros (whole - ds.length) ++ (if style.pointZero then ".0" else "")
    else String.ofList (ds.take whole) ++ "." ++ String.ofList (ds.drop whole)

/-- The digits with a point after the first one and the exponent `e`. -/
def scientific (style : Style) (ds : List Char) (e : Int) : String :=
  String.ofList (ds.take 1) ++ (if ds.length ≤ 1 then "" else "." ++ String.ofList (ds.drop 1)) ++
    "e" ++ (if e < 0 then "-" else if style.plus then "+" else "") ++ toString e.natAbs

/-- The decimal laid out. -/
def layout (style : Style) (d : Decimal) : String :=
  let ds := Nat.toDigits 10 d.digits
  let e := if d.digits = 0 then 0 else d.leading
  let isPlain := d.digits = 0 ∨
    ((∀ lo ∈ style.plainFrom, lo ≤ e) ∧ (∀ hi ∈ style.plainBelow, e < hi))
  if isPlain then style.positional ds e else style.scientific ds e

/-- The text of a number. -/
def text {f : Format} (style : Style) : Binary f → String
  | .nan => "NaN"
  | .inf s => if s then "-inf" else "inf"
  | .finite s n _ => (if s then "-" else "") ++ style.layout (Decimal.shortest style.tie f n)

end Style

/-- The text of a number in tables, answers and values. -/
def Binary.plain {f : Format} (x : Binary f) : String := Style.plain.text x

/-- The text of a number inside a message. -/
def Binary.pointed {f : Format} (x : Binary f) : String := Style.pointed.text x

example : (Binary.ofDecimal false ⟨1, -1⟩ : Single).plain = "0.1" := by decide +kernel
example : (Binary.ofNat 2 : Double).pointed = "2.0" := by decide +kernel
example : Style.document.text (Binary.ofDecimal true ⟨1, 16⟩ : Single) = "-1e+16" := by
  decide +kernel

end Screenmark
