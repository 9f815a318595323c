/-
  Screenmark — documents as text.

  A document is written in one line without spaces (`compact`), or with every
  item and member on a line of its own, two spaces deeper than what holds it
  (`indented`). Inside quotes only the quote, the backslash and the control
  characters are escaped.
-/
import Screenmark.Json.Basic

namespace Screenmark

namespace Json

/-- A digit of base sixteen. -/
def hexDigit (n : Nat) : Char := Nat.digitChar (n % 16)

/-- The characters that stand for `c` between quotes. -/
def escaped (c : Char) : List Char :=
  match c with
  | '"' => ['\\', '"']
  | '\\' => ['\\', '\\']
  | '\x08' => ['\\', 'b']
  | '\x0c' => ['\\', 'f']
  | '\n' => ['\\', 'n']
  | '\r' => ['\\', 'r']
  | '\t' => ['\\', 't']
  | _ =>
    if c.toNat < 0x20 then ['\\', 'u', '0', '0', hexDigit (c.toNat / 16), hexDigit c.toNat]
    else [c]

/-- A text between quotes. -/
def quotedText (s : String) : String := "\"" ++ String.ofList (s.toList.flatMap escaped) ++ "\""

/-! ## One line -/

mutual

/-- The document in one line. -/
def compact : Json → String
  | .null => "null"
  | .bool b => if b then "true" else "false"
  | .number literal => literal
  | .text s => quotedText s
  | .array items => "[" ++ ",".intercalate (compactItems items) ++ "]"
  | .object members => "\x7b" ++ ",".intercalate (compactMembers members) ++ "\x7d"

/-- The items, each in one line. -/
def compactItems : List Json → List String
  | [] => []
  | v :: vs => compact v :: compactItems vs

/-- The members, each in one line. -/
def compactMembers : List (String × Json) → List String
  | [] => []
  | (n, v) :: ms => (quotedText n ++ ":" ++ compact v) :: compactMembers ms

end

/-! ## Many lines -/

/-- The start of a line at the given depth. -/
def newline (depth : Nat) : String := "\n" ++ String.ofList (List.replicate (2 * depth) ' ')

/-- The parts between two brackets, each on a line of its own. -/
def block (opening closing : String) (depth : Nat) (parts : List String) : String :=
  if parts.isEmpty then opening ++ closing
  else opening ++ newline (depth + 1) ++ ("," ++ newline (depth + 1)).intercalate parts ++
    newline depth ++ closing

mutual

/-- The document with its lines at the given depth. -/
def indentedAt (depth : Nat) : Json → String
  | .null => "null"
  | .bool b => if b then "true" else "false"
  | .number literal => literal
  | .text s => quotedText s
  | .array items => block "[" "]" depth (indentedItems (depth + 1) items)
  | .object members => block "\x7b" "\x7d" depth (indentedMembers (depth + 1) members)

/-- The items at the given depth. -/
def indentedItems (depth : Nat) : List Json → List String
  | [] => []
  | v :: vs => indentedAt depth v :: indentedItems depth vs

/-- The members at the given depth. -/
def indentedMembers (depth : Nat) : List (String × Json) → List String
  | [] => []
  | (n, v) :: ms => (quotedText n ++ ": " ++ indentedAt depth v) :: indentedMembers depth ms

end

/-- The document in many lines. -/
def indented (v : Json) : String := indentedAt 0 v

end Json

end Screenmark
