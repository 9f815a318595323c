/-
  Screenmark — documents from text.

  The reader takes exactly the documents of the format: white space is the
  space, the tabulator, the line feed and the carriage return; a text between
  quotes holds no control character; an escaped character beyond 16 bits is
  written as a pair of halves, and a half on its own is a fault.

  `read?` reads a whole text. The functions below it take the characters that
  are left and give back those that are left after them; `fuel` bounds the
  depth, and two steps a character are always enough.
-/
import Screenmark.Json.Number

namespace Screenmark

namespace Json

/-- The text without the white space at its start. -/
def skip (cs : List Char) : List Char :=
  cs.dropWhile fun c => c == ' ' || c == '\t' || c == '\n' || c == '\r'

/-! ## Texts -/

/-- The number that four digits of base sixteen write. -/
def unit? : List Char → Option (Nat × List Char)
  | a :: b :: c :: d :: cs => do
    some (((← Text.hexValue? a) * 16 + (← Text.hexValue? b)) * 256 + (← Text.hexValue? c) * 16 +
      (← Text.hexValue? d), cs)
  | _ => none

/-- The character after `\u`. -/
def unicode? (cs : List Char) : Option (Char × List Char) :=
  match unit? cs with
  | none => none
  | some (n, cs) =>
    if n < 0xD800 ∨ 0xE000 ≤ n then some (Char.ofNat n, cs)
    else if 0xDC00 ≤ n then none
    else match cs with
      | '\\' :: 'u' :: cs =>
        match unit? cs with
        | some (m, cs) =>
          if 0xDC00 ≤ m ∧ m < 0xE000 then
            some (Char.ofNat (0x10000 + (n - 0xD800) * 0x400 + (m - 0xDC00)), cs)
          else none
        | none => none
      | _ => none

/-- The character after a backslash. -/
def escape? : List Char → Option (Char × List Char)
  | '"' :: cs => some ('"', cs)
  | '\\' :: cs => some ('\\', cs)
  | '/' :: cs => some ('/', cs)
  | 'b' :: cs => some ('\x08', cs)
  | 'f' :: cs => some ('\x0c', cs)
  | 'n' :: cs => some ('\n', cs)
  | 'r' :: cs => some ('\r', cs)
  | 't' :: cs => some ('\t', cs)
  | 'u' :: cs => unicode? cs
  | _ => none

/-- The text up to the closing quote, after the characters `done` (reversed). -/
def textFrom? : (fuel : Nat) → (done : List Char) → List Char → Option (String × List Char)
  | 0, _, _ => none
  | _ + 1, _, [] => none
  | fuel + 1, done, c :: cs =>
    if c = '"' then some (String.ofList done.reverse, cs)
    else if c = '\\' then
      match escape? cs with
      | some (d, cs) => textFrom? fuel (d :: done) cs
      | none => none
    else if c.toNat < 0x20 then none
    else textFrom? fuel (c :: done) cs

/-- The text after an opening quote. -/
def text? (cs : List Char) : Option (String × List Char) := textFrom? (cs.length + 1) [] cs

/-! ## Documents -/

/-- The text after a word that must stand at its start. -/
def word? (word : String) (v : Json) (cs : List Char) : Option (Json × List Char) :=
  if word.toList.isPrefixOf cs then some (v, cs.drop word.length) else none

/-- The name of a member and the colon after it. -/
def name? : List Char → Option (String × List Char)
  | '"' :: cs =>
    match text? cs with
    | some (n, cs) =>
      match skip cs with
      | ':' :: cs => some (n, cs)
      | _ => none
    | none => none
  | _ => none

mutual

/-- The document at the start of a text. -/
def value? : (fuel : Nat) → List Char → Option (Json × List Char)
  | 0, _ => none
  | fuel + 1, cs =>
    match skip cs with
    | [] => none
    | '"' :: cs => (text? cs).map fun (s, cs) => (.text s, cs)
    | '[' :: cs =>
      match skip cs with
      | ']' :: cs => some (.array [], cs)
      | cs =>
        match items? fuel cs with
        | some (vs, cs) => some (.array vs, cs)
        | none => none
    | '\x7b' :: cs =>
      match skip cs with
      | '\x7d' :: cs => some (.object [], cs)
      | cs =>
        match members? fuel cs with
        | some (ms, cs) => some (.object ms, cs)
        | none => none
    | 'n' :: cs => word? "ull" .null cs
    | 't' :: cs => word? "rue" (.bool true) cs
    | 'f' :: cs => word? "alse" (.bool false) cs
    | cs =>
      match Literal.read? cs with
      | some (_, rest) =>
        some (.number (String.ofList (cs.take (cs.length - rest.length))), rest)
      | none => none

/-- The items of an array that is not empty, up to its closing bracket. -/
def items? : (fuel : Nat) → List Char → Option (List Json × List Char)
  | 0, _ => none
  | fuel + 1, cs =>
    match value? fuel cs with
    | none => none
    | some (v, cs) =>
      match skip cs with
      | ']' :: cs => some ([v], cs)
      | ',' :: cs =>
        match items? fuel cs with
        | some (vs, cs) => some (v :: vs, cs)
        | none => none
      | _ => none

/-- The members of an object that is not empty, up to its closing bracket. -/
def members? : (fuel : Nat) → List Char → Option (List (String × Json) × List Char)
  | 0, _ => none
  | fuel + 1, cs =>
    match name? (skip cs) with
    | none => none
    | some (n, cs) =>
      match value? fuel cs with
      | none => none
      | some (v, cs) =>
        match skip cs with
        | '\x7d' :: cs => some ([(n, v)], cs)
        | ',' :: cs =>
          match members? fuel cs with
          | some (ms, cs) => some ((n, v) :: ms, cs)
          | none => none
        | _ => none

end

/-- The document that a text writes, all of it. -/
def read? (s : String) : Option Json :=
  let cs := s.toList
  match value? (2 * cs.length + 2) cs with
  | some (v, rest) => if skip rest = [] then some v else none
  | none => none

end Json

end Screenmark
