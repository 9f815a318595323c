/-
  Screenmark — plain data.

  Settings and records are written in more than one notation. Whatever the
  notation, what is read is a `Datum`: truth values, numbers, texts, arrays and
  objects. A whole number that fits 64 bits stays a whole number; every other
  one is a 64-bit binary number.

  A record with named fields is an object with these members, or an array of
  their values in the same order, of which the last ones may be missing. A member
  that is given twice is refused, as is an item too many; members with other
  names do not count.

  * `fields?` finds the fields of a record;
  * `bool?`, `string?`, `natural?`, `single?` and `list?` read values.
-/
import Screenmark.Binary.Basic

namespace Screenmark

/-! ## Numbers -/

/-- The value of a number. -/
inductive Numeric where
  /-- a whole number from 0 to `2 ^ 64 - 1` -/
  | natural (n : Nat)
  /-- a whole number from `-2 ^ 63` to -1 -/
  | negative (n : Int)
  | binary (x : Double)

namespace Numeric

/-- The number as a 64-bit binary number. -/
def toDouble : Numeric → Double
  | .natural n => Binary.ofNat n
  | .negative n => Binary.ofInt n
  | .binary x => x

/-- The number as a 32-bit binary number. -/
def toSingle : Numeric → Single
  | .natural n => Binary.ofNat n
  | .negative n => Binary.ofInt n
  | .binary x => x.toSingle

end Numeric

/-! ## Data -/

/-- A value that was read. -/
inductive Datum where
  | null
  | bool (b : Bool)
  /-- a number, without a value if it is too great for any -/
  | number (value : Option Numeric)
  | text (s : String)
  | array (items : List Datum)
  | object (members : List (String × Datum))

namespace Datum

instance : Inhabited Datum := ⟨null⟩

/-- The first member with the name. -/
def memberOf (name : String) : List (String × Datum) → Option Datum
  | [] => none
  | (n, v) :: ms => if n = name then some v else memberOf name ms

/-- The values of the named fields of a record; an array has at least `least` of
    them. -/
def fields? (names : List String) (least : Nat) : Datum → Option (List (Option Datum))
  | .object ms =>
    if names.all fun n => ms.countP (·.1 = n) ≤ 1 then some (names.map fun n => memberOf n ms)
    else none
  | .array vs =>
    if least ≤ vs.length ∧ vs.length ≤ names.length then
      some (vs.map some ++ List.replicate (names.length - vs.length) none)
    else none
  | _ => none

/-! ## Values -/

/-- A truth value. -/
def bool? : Datum → Option Bool
  | .bool b => some b
  | _ => none

/-- A text. -/
def string? : Datum → Option String
  | .text s => some s
  | _ => none

/-- A natural number below `2 ^ 64`. -/
def natural? : Datum → Option Nat
  | .number (some (.natural n)) => some n
  | _ => none

/-- A number, as the nearest 32-bit one. -/
def single? : Datum → Option Single
  | .number value => value.map Numeric.toSingle
  | _ => none

/-- An array of values of one kind. -/
def list? {α : Type} (read : Datum → Option α) : Datum → Option (List α)
  | .array vs => vs.mapM read
  | _ => none

/-- A value or `null`. -/
def option? {α : Type} (read : Datum → Option α) : Datum → Option (Option α)
  | .null => some none
  | d => (read d).map some

/-- A field that has a default. -/
def withDefault {α : Type} (default : α) (read : Datum → Option α) : Option Datum → Option α
  | none => some default
  | some d => read d

/-- A field that may be missing. -/
def optional {α : Type} (read : Datum → Option α) : Option Datum → Option (Option α) :=
  withDefault none (option? read)

end Datum

end Screenmark
