/-
  Screenmark — configuration files from text.

  A configuration file has a statement a line. Names are bare or between quotes
  and may be joined by points. Values are texts in four kinds of quotes, numbers,
  truth values, arrays and inline tables. A comment runs from `#` to the end of
  its line.

  `read?` reads a whole file. The functions below it take the characters that are
  left and give back those that are left after them; `fuel` bounds the steps, and
  two of them a character are always enough.
-/
import Screenmark.Binary.Reading
import Screenmark.Text.Numeral
import Screenmark.Toml.Table
import Screenmark.Word

namespace Screenmark

namespace Toml

/-! ## Blanks, comments and ends of lines -/

/-- Whether a character parts the words of a line. -/
def isBlank (c : Char) : Bool := c == ' ' || c == '\t'

/-- Whether a character may stand in a comment or between quotes. -/
def isPlain (c : Char) : Bool := c == '\t' || (0x20 ≤ c.toNat && c.toNat != 0x7f)

/-- The text without the blanks at its start. -/
def skip (cs : List Char) : List Char := cs.dropWhile isBlank

/-- The text after the end of a line at its start. -/
def newline? : List Char → Option (List Char)
  | '\n' :: cs => some cs
  | '\r' :: '\n' :: cs => some cs
  | _ => none

/-- The text without a comment at its start. -/
def skipComment : List Char → List Char
  | '#' :: cs => cs.dropWhile isPlain
  | cs => cs

/-- The text after what may follow a statement on its line. -/
def lineEnd? (cs : List Char) : Option (List Char) :=
  match skipComment (skip cs) with
  | [] => some []
  | cs => newline? cs

/-- The text without blanks, comments and ends of lines at its start;
    `inComment` tells whether a comment has begun. -/
def skipAll (inComment : Bool) : List Char → List Char
  | [] => []
  | '\n' :: cs => skipAll false cs
  | '\r' :: '\n' :: cs => skipAll false cs
  | c :: cs =>
    if inComment && isPlain c then skipAll true cs
    else if inComment then c :: cs
    else if c = '#' then skipAll true cs
    else if isBlank c then skipAll false cs
    else c :: cs

/-! ## Texts -/

/-- The number that `count` digits of base sixteen write after `n`. -/
def hex? (n : Nat) : (count : Nat) → List Char → Option (Nat × List Char)
  | 0, cs => some (n, cs)
  | _ + 1, [] => none
  | count + 1, c :: cs =>
    match Text.hexValue? c with
    | some d => hex? (16 * n + d) count cs
    | none => none

/-- The character with a number of `count` digits. -/
def scalar? (count : Nat) (cs : List Char) : Option (Char × List Char) :=
  match hex? 0 count cs with
  | some (n, cs) => if n.isValidChar then some (Char.ofNat n, cs) else none
  | none => none

/-- The character after a backslash. -/
def escape? : List Char → Option (Char × List Char)
  | '"' :: cs => some ('"', cs)
  | '\\' :: cs => some ('\\', cs)
  | 'b' :: cs => some ('\x08', cs)
  | 'f' :: cs => some ('\x0c', cs)
  | 'n' :: cs => some ('\n', cs)
  | 'r' :: cs => some ('\r', cs)
  | 't' :: cs => some ('\t', cs)
  | 'u' :: cs => scalar? 4 cs
  | 'U' :: cs => scalar? 8 cs
  | _ => none

/-- The text up to the closing quote, after the characters `done` (reversed). -/
def basicFrom? : (fuel : Nat) → (done : List Char) → List Char → Option (String × List Char)
  | 0, _, _ => none
  | _ + 1, _, [] => none
  | fuel + 1, done, c :: cs =>
    if c = '"' then some (String.ofList done.reverse, cs)
    else if c = '\\' then
      match escape? cs with
      | some (d, cs) => basicFrom? fuel (d :: done) cs
      | none => none
    else if isPlain c then basicFrom? fuel (c :: done) cs
    else none

/-- The text up to the closing apostrophe, in which nothing is escaped. -/
def literal? (cs : List Char) : Option (String × List Char) :=
  match cs.dropWhile fun c => isPlain c && c != '\x27' with
  | '\x27' :: rest => some (String.ofList (cs.takeWhile fun c => isPlain c && c != '\x27'), rest)
  | _ => none

/-- The text after three quotes `q` that close a text over many lines: up to two
    more of them still belong to it. -/
def closing (q : Char) (done : List Char) : List Char → String × List Char
  | c :: d :: cs =>
    if c = q ∧ d = q then (String.ofList (q :: q :: done).reverse, cs)
    else if c = q then (String.ofList (q :: done).reverse, d :: cs)
    else (String.ofList done.reverse, c :: d :: cs)
  | [c] =>
    if c = q then (String.ofList (q :: done).reverse, [])
    else (String.ofList done.reverse, [c])
  | [] => (String.ofList done.reverse, [])

/-- The text after a backslash at the end of a line, without the blanks and the
    ends of lines there. -/
def joinLines? (cs : List Char) : Option (List Char) :=
  (newline? (skip cs)).map fun cs => cs.dropWhile fun c => isBlank c || c == '\n' || c == '\r'

/-- The text over many lines up to three closing quotes `q`; only between double
    quotes are characters escaped. -/
def linesFrom? (q : Char) : (fuel : Nat) → (done : List Char) → List Char →
    Option (String × List Char)
  | 0, _, _ => none
  | _ + 1, _, [] => none
  | fuel + 1, done, c :: cs =>
    if [q, q, q].isPrefixOf (c :: cs) then some (closing q done (cs.drop 2))
    else if c = '\\' ∧ q = '"' then
      match joinLines? cs with
      | some cs => linesFrom? q fuel done cs
      | none =>
        match escape? cs with
        | some (d, cs) => linesFrom? q fuel (d :: done) cs
        | none => none
    else
      match newline? (c :: cs) with
      | some cs => linesFrom? q fuel ('\n' :: done) cs
      | none => if isPlain c then linesFrom? q fuel (c :: done) cs else none

/-- The text over many lines after three quotes; an end of a line right after
    them does not count. -/
def lines? (q : Char) (cs : List Char) : Option (String × List Char) :=
  linesFrom? q (cs.length + 1) [] ((newline? cs).getD cs)

/-- A text in any of the four kinds of quotes. -/
def text? : List Char → Option (String × List Char)
  | '"' :: '"' :: '"' :: cs => lines? '"' cs
  | '\x27' :: '\x27' :: '\x27' :: cs => lines? '\x27' cs
  | '"' :: cs => basicFrom? (cs.length + 1) [] cs
  | '\x27' :: cs => literal? cs
  | _ => none

/-! ## Names -/

/-- Whether a character may stand in a bare name. -/
def isBare (c : Char) : Bool := c.isAlphanum || c == '_' || c == '-'

/-- A single name. -/
def name? : List Char → Option (String × List Char)
  | '"' :: cs => basicFrom? (cs.length + 1) [] cs
  | '\x27' :: cs => literal? cs
  | cs =>
    match cs.takeWhile isBare with
    | [] => none
    | ds => some (String.ofList ds, cs.dropWhile isBare)

/-- Names joined by points, with blanks around each of them. -/
def path? : (fuel : Nat) → List Char → Option (List String × List Char)
  | 0, _ => none
  | fuel + 1, cs =>
    match name? (skip cs) with
    | none => none
    | some (n, cs) =>
      match skip cs with
      | '.' :: cs => (path? fuel cs).map fun (ns, cs) => (n :: ns, cs)
      | cs => some ([n], cs)

/-- The greatest number of names in a path. -/
def pathLimit : Nat := 79

/-! ## Numbers -/

/-- The digits at the start of a text, each of which but the first may follow an
    underscore, and what follows them. -/
def digits (isDigit : Char → Bool) : List Char → List Char × List Char
  | '_' :: d :: cs =>
    if isDigit d then
      let (ds, rest) := digits isDigit cs
      (d :: ds, rest)
    else ([], '_' :: d :: cs)
  | c :: cs =>
    if isDigit c then
      let (ds, rest) := digits isDigit cs
      (c :: ds, rest)
    else ([], c :: cs)
  | [] => ([], [])

/-- One or more digits. -/
def digits? (isDigit : Char → Bool) : List Char → Option (List Char × List Char)
  | c :: cs =>
    if isDigit c then
      let (ds, rest) := digits isDigit cs
      some (c :: ds, rest)
    else none
  | [] => none

/-- The digits of a whole number: `0`, or digits of which the first is not `0`. -/
def whole? : List Char → Option (List Char × List Char)
  | '0' :: cs => some (['0'], cs)
  | cs => digits? Char.isDigit cs

/-- A point and digits, if they follow. -/
def fraction? : List Char → Option (List Char × List Char)
  | '.' :: cs => (digits? Char.isDigit cs).map fun (ds, cs) => ('.' :: ds, cs)
  | cs => some ([], cs)

/-- An exponent, if one follows. -/
def exponent? (cs : List Char) : Option (List Char × List Char) :=
  match cs with
  | [] => some ([], [])
  | c :: rest =>
    if c = 'e' ∨ c = 'E' then
      let (negative, rest) := Text.splitSign rest
      (digits? Char.isDigit rest).map fun (ds, rest) =>
        ('e' :: (if negative then '-' :: ds else ds), rest)
    else some ([], cs)

/-- A whole number that fits 64 bits with a sign. -/
def ofInt? (n : Int) : Option Datum :=
  if n < wordMin ∨ wordMax < n then none
  else if 0 ≤ n then some (.number (some (.natural n.toNat)))
  else some (.number (some (.negative n)))

/-- A 64-bit binary number. -/
def ofDouble (x : Double) : Datum := .number (some (.binary x))

/-- The number that digits, a fraction and an exponent write; one that is beyond
    the greatest is refused. -/
def ofParts? (negative : Bool) (ds fraction exponent : List Char) : Option Datum :=
  let sign (cs : List Char) : List Char := if negative then '-' :: cs else cs
  if fraction = [] ∧ exponent = [] then
    let n : Int := Text.digitsValue 0 ds
    ofInt? (if negative then -n else n)
  else
    match Binary.ofText? (String.ofList (sign (ds ++ fraction ++ exponent))) with
    | some x => if x.isFinite || negative then some (ofDouble x) else none
    | none => none

/-- The number that digits of base `2 ^ bits` write. -/
def inBase? (bits : Nat) (cs : List Char) : Option (Datum × List Char) := do
  let isDigit (c : Char) : Bool := (Text.hexValue? c).any (· < Nat.pow 2 bits)
  let (ds, cs) ← digits? isDigit cs
  let n := ds.foldl (fun n d => Nat.pow 2 bits * n + (Text.hexValue? d).getD 0) 0
  some (← ofInt? n, cs)

/-- A decimal number after its sign. -/
def decimal? (negative : Bool) (cs : List Char) : Option (Datum × List Char) := do
  let sign (x : Double) : Double := if negative then -x else x
  match cs with
  | 'i' :: 'n' :: 'f' :: cs => some (ofDouble (sign (.inf false)), cs)
  | 'n' :: 'a' :: 'n' :: cs => some (ofDouble (sign .nan), cs)
  | cs =>
    let (ds, cs) ← whole? cs
    let (fraction, cs) ← fraction? cs
    let (exponent, cs) ← exponent? cs
    some (← ofParts? negative ds fraction exponent, cs)

/-- A number. -/
def number? : List Char → Option (Datum × List Char)
  | '0' :: 'x' :: cs => inBase? 4 cs
  | '0' :: 'o' :: cs => inBase? 3 cs
  | '0' :: 'b' :: cs => inBase? 1 cs
  | '+' :: cs => decimal? false cs
  | '-' :: cs => decimal? true cs
  | cs => decimal? false cs

/-! ## Values -/

mutual

/-- The value at the start of a text. -/
def value? : (fuel : Nat) → List Char → Option (Datum × List Char)
  | 0, _ => none
  | fuel + 1, cs =>
    match cs with
    | '[' :: cs => (items? fuel cs).map fun (vs, cs) => (.array vs, cs)
    | '\x7b' :: cs =>
      match skip cs with
      | '\x7d' :: cs => some (.object [], cs)
      | cs =>
        match members? fuel cs with
        | some (ms, cs) => (inline? ms).map fun d => (d, cs)
        | none => none
    | 't' :: 'r' :: 'u' :: 'e' :: cs => some (.bool true, cs)
    | 'f' :: 'a' :: 'l' :: 's' :: 'e' :: cs => some (.bool false, cs)
    | cs =>
      match cs.head? with
      | none => none
      | some c =>
        if c = '"' ∨ c = '\x27' then (text? cs).map fun (s, cs) => (.text s, cs) else number? cs

/-- The items of an array up to its closing bracket; a comma may follow the
    last. -/
def items? : (fuel : Nat) → List Char → Option (List Datum × List Char)
  | 0, _ => none
  | fuel + 1, cs =>
    match skipAll false cs with
    | ']' :: cs => some ([], cs)
    | cs =>
      match value? fuel cs with
      | none => none
      | some (v, cs) =>
        match skipAll false cs with
        | ']' :: cs => some ([v], cs)
        | ',' :: cs => (items? fuel cs).map fun (vs, cs) => (v :: vs, cs)
        | _ => none

/-- The members of an inline table that is not empty, up to its closing brace. -/
def members? : (fuel : Nat) → List Char → Option (List (List String × Datum) × List Char)
  | 0, _ => none
  | fuel + 1, cs =>
    match path? pathLimit cs with
    | some (path, '=' :: cs) =>
      match value? fuel (skip cs) with
      | none => none
      | some (v, cs) =>
        match skip cs with
        | '\x7d' :: cs => some ([(path, v)], cs)
        | ',' :: cs => (members? fuel cs).map fun (ms, cs) => ((path, v) :: ms, cs)
        | _ => none
    | _ => none

end

/-! ## Files -/

/-- A statement and the rest of its line. -/
def statement? (cs : List Char) : Option (Statement × List Char) :=
  match cs with
  | '[' :: '[' :: cs =>
    match path? pathLimit cs with
    | some (path, ']' :: ']' :: cs) => (lineEnd? cs).map fun cs => (.openNext path, cs)
    | _ => none
  | '[' :: cs =>
    match path? pathLimit cs with
    | some (path, ']' :: cs) => (lineEnd? cs).map fun cs => (.openTable path, cs)
    | _ => none
  | cs =>
    match path? pathLimit cs with
    | some (path, '=' :: cs) =>
      match value? (2 * cs.length + 2) (skip cs) with
      | some (v, cs) => (lineEnd? cs).map fun cs => (.set path v, cs)
      | none => none
    | _ => none

/-- The statements of a file. -/
def statements? : (fuel : Nat) → List Char → Option (List Statement)
  | 0, _ => none
  | fuel + 1, cs =>
    match skipAll false cs with
    | [] => some []
    | cs =>
      match statement? cs with
      | some (s, cs) => (statements? fuel cs).map (s :: ·)
      | none => none

/-- What a configuration file says, if it is well formed. A mark of the byte
    order may stand at its start. -/
def read? (s : String) : Option Datum :=
  let cs := match s.toList with
    | '\ufeff' :: cs => cs
    | cs => cs
  match statements? (cs.length + 1) cs with
  | some statements => (Table.assemble statements).map Table.datum
  | none => none

end Toml

end Screenmark
