/-
  Screenmark — text quoted in messages.

  A name or a path that stands in a message may hold any character, so it is
  written between double quotes, with a backslash before the quote and the
  backslash, short forms for the line characters, and the number of a character
  that does not show on its own.
-/
import Screenmark.Text.Hidden

namespace Screenmark.Text

/-- The digits of `n` in base sixteen, in lower case. -/
def hexDigits (n : Nat) : String := String.ofList (Nat.toDigits 16 n)

/-- The characters that stand for `c` between the quotes. -/
def quotedChar (c : Char) : List Char :=
  match c with
  | '"' => ['\\', '"']
  | '\\' => ['\\', '\\']
  | '\n' => ['\\', 'n']
  | '\r' => ['\\', 'r']
  | '\t' => ['\\', 't']
  | '\x00' => ['\\', '0']
  | _ => if isHidden c then ("\\u\x7b" ++ hexDigits c.toNat ++ "\x7d").toList else [c]

/-- The text between double quotes. -/
def quoted (s : String) : String := "\"" ++ String.ofList (s.toList.flatMap quotedChar) ++ "\""

end Screenmark.Text
