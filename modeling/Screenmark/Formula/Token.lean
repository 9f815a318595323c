/-
  Screenmark — the tokens of formulas.

  White space separates tokens and is dropped. A number starts with a digit and
  is made of digits and points; a name starts with an ASCII letter or an
  underscore and goes on with letters, digits and underscores; anything else
  but a parenthesis or a comma must start with a symbol of the table, and the
  longest one counts.

  * `tokens` cuts a text into tokens with the places where they start, counted
    in UTF-8 bytes; it fails at the first place where no token starts;
  * `SyntaxCause` lists what can be wrong with the text of a formula, and
    `Fault` what can go wrong with a formula at all.
-/
import Screenmark.Binary.Reading
import Screenmark.Formula.Operator
import Screenmark.Text.Quoted

namespace Screenmark

namespace Formula

/-- A token of a formula. -/
inductive Token where
  | number (x : Double)
  | ident (name : String)
  | op (symbol : String)
  | lparen
  | rparen
  | comma
deriving DecidableEq

/-- The token inside a message. -/
def Token.described : Token → String
  | .number x => "Number(" ++ x.pointed ++ ")"
  | .ident name => "Ident(" ++ Text.quoted name ++ ")"
  | .op symbol => "Op(" ++ Text.quoted symbol ++ ")"
  | .lparen => "LParen"
  | .rparen => "RParen"
  | .comma => "Comma"

/-! ## What can go wrong -/

/-- What is wrong with the text of a formula. -/
inductive SyntaxCause where
  /-- digits and points that write no number -/
  | invalidNumber (text : String)
  /-- a character that starts no token -/
  | unknownOperator (c : Char)
  /-- a token after the end of the formula -/
  | unexpected (t : Token)
  /-- an operator between operands that cannot stand there -/
  | notInfix (symbol : String)
  /-- a group that is not closed -/
  | groupOpen
  /-- a call that is not closed -/
  | callOpen
  /-- nothing where an operand should start -/
  | endOfFormula
  /-- a closing parenthesis or a comma where an operand should start -/
  | operandMissing
  /-- an operator where an operand should start -/
  | operandFound (symbol : String)
  /-- a call of an operator with one argument -/
  | callTooShort (symbol : String)
deriving DecidableEq

/-- The wording of a cause. -/
def SyntaxCause.message : SyntaxCause → String
  | .invalidNumber text => s!"invalid number '{text}'"
  | .unknownOperator c => s!"unknown operator starting with '{c}'"
  | .unexpected t => "unexpected " ++ t.described
  | .notInfix symbol => s!"'{symbol}' is not an infix operator"
  | .groupOpen => "expected ')'"
  | .callOpen => "expected ')' closing operator call"
  | .endOfFormula => "unexpected end of expression"
  | .operandMissing => "expected operand"
  | .operandFound symbol => s!"expected operand, found '{symbol}'"
  | .callTooShort symbol => s!"operator call '{symbol}' needs at least two arguments"

/-- What can go wrong with a formula. -/
inductive Fault where
  /-- the text is no formula; the place is counted in bytes -/
  | malformed (source : String) (position : Nat) (cause : SyntaxCause)
  /-- a name without a value -/
  | unresolved (name : String)
deriving DecidableEq

/-- The wording of a fault. -/
def Fault.message : Fault → String
  | .malformed source position cause =>
    s!"Syntax error in '{source}' at offset {position}: {cause.message}"
  | .unresolved name => s!"Unresolved identifier: {name}"

/-! ## Cutting a text into tokens -/

/-- A token with the place where it starts. -/
abbrev Lexeme := Nat × Token

/-- The length of a text in UTF-8 bytes. -/
def bytes (cs : List Char) : Nat := cs.foldl (fun n c => n + c.utf8Size) 0

/-- A character of numbers. -/
def isNumberChar (c : Char) : Bool := c.isDigit || c == '.'

/-- A character that starts names. -/
def isNameStart (c : Char) : Bool := c.isAlpha || c == '_'

/-- A character of names. -/
def isNameChar (c : Char) : Bool := c.isAlphanum || c == '_'

/-- The token at the start of a text that is not empty and starts with no white
    space, with the characters it is made of. -/
def token? (table : Table) (c : Char) (cs : List Char) :
    Except SyntaxCause (Token × List Char) :=
  if c = '(' then .ok (.lparen, [c])
  else if c = ')' then .ok (.rparen, [c])
  else if c = ',' then .ok (.comma, [c])
  else if c.isDigit then
    let text := c :: cs.takeWhile isNumberChar
    match Binary.read? text with
    | some x => .ok (.number x, text)
    | none => .error (.invalidNumber (String.ofList text))
  else if isNameStart c then
    let text := c :: cs.takeWhile isNameChar
    .ok (.ident (String.ofList text), text)
  else match table.longestMatch (c :: cs) with
    | some symbol => .ok (.op (String.ofList symbol), symbol)
    | none => .error (.unknownOperator c)

/-- The tokens of the text, which starts at `position`; `fuel` bounds the number
    of characters. -/
def tokensFrom (table : Table) :
    (fuel position : Nat) → List Char → Except (Nat × SyntaxCause) (List Lexeme)
  | 0, _, _ => .ok []
  | _ + 1, _, [] => .ok []
  | fuel + 1, position, c :: cs =>
    if Text.isWhite c then tokensFrom table fuel (position + c.utf8Size) cs
    else match token? table c cs with
      | .error cause => .error (position, cause)
      | .ok (t, text) =>
        match tokensFrom table fuel (position + bytes text) ((c :: cs).drop text.length) with
        | .error e => .error e
        | .ok ts => .ok ((position, t) :: ts)

/-- The tokens of a text. -/
def tokens (table : Table) (cs : List Char) : Except (Nat × SyntaxCause) (List Lexeme) :=
  tokensFrom table cs.length 0 cs

end Formula

end Screenmark
