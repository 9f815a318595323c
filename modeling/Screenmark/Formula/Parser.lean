/-
  Screenmark — from tokens to formulas.

      formula := unary (infix unary)*
      unary   := prefix* atom postfix*
      atom    := number | name | '(' formula ')'
               | infix '(' formula (',' formula)+ ')'

  Operators between operands group by binding power: `formula` takes those that
  bind at least as tightly as it was asked for. The last form of `atom` writes
  an operator as a call, `&&(a, b, c)`, and stands for `((a && b) && c)`.

  The functions take the tokens that are left and give back those that are left
  after them; `fuel` bounds the depth, and four steps a token are always enough.
-/
import Screenmark.Formula.Token

namespace Screenmark

/-- A formula. -/
inductive Formula where
  | literal (value : Value)
  | name (name : String)
  | prefixed (op : Formula.UnaryOp) (operand : Formula)
  | postfixed (op : Formula.UnaryOp) (operand : Formula)
  | joined (op : Formula.InfixOp) (left right : Formula)

namespace Formula

/-- The names in the formula, in the order in which they appear. -/
def names : Formula → List String
  | .literal _ => []
  | .name n => [n]
  | .prefixed _ e | .postfixed _ e => e.names
  | .joined _ l r => l.names ++ r.names

/-! ## Parsing -/

/-- A parsed piece with the tokens after it, or the place and cause of a
    fault. -/
abbrev Parsed (α : Type) := Except (Nat × SyntaxCause) (α × List Lexeme)

/-- The place where the tokens go on; `stop` is the end of the text. -/
def place (stop : Nat) : List Lexeme → Nat
  | [] => stop
  | (p, _) :: _ => p

/-- The operators before an operand, in order, and the tokens after them. An
    operator that can also stand between operands starts a call when a
    parenthesis follows. -/
def takePrefixes (table : Table) : List Lexeme → List UnaryOp × List Lexeme
  | (p, .op symbol) :: ls =>
    let isCall := (table.infixOps.contains symbol) &&
      (match ls with
        | (_, .lparen) :: _ => true
        | _ => false)
    match isCall, table.prefixOps.find? symbol with
    | false, some op =>
      let (ops, rest) := takePrefixes table ls
      (op :: ops, rest)
    | _, _ => ([], (p, .op symbol) :: ls)
  | ls => ([], ls)

/-- The operand with the operators after it, and the tokens after them. -/
def takePostfixes (table : Table) : Formula → List Lexeme → Formula × List Lexeme
  | e, (p, .op symbol) :: ls =>
    match table.postfixOps.find? symbol with
    | some op => takePostfixes table (.postfixed op e) ls
    | none => (e, (p, .op symbol) :: ls)
  | e, ls => (e, ls)

/-- The tokens after a closing parenthesis. -/
def close (stop : Nat) (cause : SyntaxCause) : List Lexeme →
    Except (Nat × SyntaxCause) (List Lexeme)
  | (_, .rparen) :: ls => .ok ls
  | ls => .error (place stop ls, cause)

mutual

/-- A formula whose operators bind at least as tightly as `power`. -/
def expression (table : Table) (stop : Nat) :
    (fuel power : Nat) → List Lexeme → Parsed Formula
  | 0, _, ls => .error (place stop ls, .endOfFormula)
  | fuel + 1, power, ls =>
    match unary table stop fuel ls with
    | .error e => .error e
    | .ok (lhs, ls) => climb table stop fuel power lhs ls

/-- The formula that goes on after `lhs`. -/
def climb (table : Table) (stop : Nat) :
    (fuel power : Nat) → Formula → List Lexeme → Parsed Formula
  | 0, _, _, ls => .error (place stop ls, .endOfFormula)
  | fuel + 1, power, lhs, ls =>
    match ls with
    | (p, .op symbol) :: rest =>
      match table.infixOps.find? symbol with
      | none => .error (p, .notInfix symbol)
      | some op =>
        if op.power < power then .ok (lhs, ls)
        else
          let next := match op.associativity with
            | .left => op.power + 1
            | .right => op.power
          match expression table stop fuel next rest with
          | .error e => .error e
          | .ok (rhs, ls) => climb table stop fuel power (.joined op lhs rhs) ls
    | _ => .ok (lhs, ls)

/-- An operand with the operators before and after it; those after it bind
    first. -/
def unary (table : Table) (stop : Nat) : (fuel : Nat) → List Lexeme → Parsed Formula
  | 0, ls => .error (place stop ls, .endOfFormula)
  | fuel + 1, ls =>
    let (ops, ls) := takePrefixes table ls
    match atom table stop fuel ls with
    | .error e => .error e
    | .ok (operand, ls) =>
      let (operand, ls) := takePostfixes table operand ls
      .ok (ops.foldr .prefixed operand, ls)

/-- A number, a name, a group or a call. -/
def atom (table : Table) (stop : Nat) : (fuel : Nat) → List Lexeme → Parsed Formula
  | 0, ls => .error (place stop ls, .endOfFormula)
  | fuel + 1, ls =>
    match ls with
    | [] => .error (stop, .endOfFormula)
    | (_, .number x) :: ls => .ok (.literal (.number x), ls)
    | (_, .ident n) :: ls =>
      match Value.keyword? n with
      | some v => .ok (.literal v, ls)
      | none => .ok (.name n, ls)
    | (_, .lparen) :: ls =>
      match expression table stop fuel 0 ls with
      | .error e => .error e
      | .ok (inner, ls) =>
        match close stop .groupOpen ls with
        | .error e => .error e
        | .ok ls => .ok (inner, ls)
    | (p, .op symbol) :: rest =>
      match table.infixOps.find? symbol, rest with
      | some op, (_, .lparen) :: ls =>
        match expression table stop fuel 0 ls with
        | .error e => .error e
        | .ok (first, ls) =>
          match arguments table stop fuel ls with
          | .error e => .error e
          | .ok (others, ls) =>
            match close stop .callOpen ls with
            | .error e => .error e
            | .ok ls =>
              if others.isEmpty then .error (place stop ls, .callTooShort symbol)
              else .ok (others.foldl (.joined op) first, ls)
      | _, _ => .error (p, .operandFound symbol)
    | (p, .rparen) :: _ => .error (p, .operandMissing)
    | (p, .comma) :: _ => .error (p, .operandMissing)

/-- The arguments of a call after the first, each after a comma. -/
def arguments (table : Table) (stop : Nat) :
    (fuel : Nat) → List Lexeme → Parsed (List Formula)
  | 0, ls => .error (place stop ls, .endOfFormula)
  | fuel + 1, ls =>
    match ls with
    | (_, .comma) :: ls =>
      match expression table stop fuel 0 ls with
      | .error e => .error e
      | .ok (e, ls) =>
        match arguments table stop fuel ls with
        | .error e => .error e
        | .ok (es, ls) => .ok (e :: es, ls)
    | ls => .ok ([], ls)

end

/-- The formula that the tokens write, all of them. -/
def ofTokens? (table : Table) (stop : Nat) (ls : List Lexeme) :
    Except (Nat × SyntaxCause) Formula :=
  match expression table stop (4 * ls.length + 4) 0 ls with
  | .error e => .error e
  | .ok (e, []) => .ok e
  | .ok (_, (p, t) :: _) => .error (p, .unexpected t)

/-- The formula that a text writes. -/
def parse (table : Table) (source : String) : Except Fault Formula :=
  let cs := source.toList
  match tokens table cs with
  | .error (p, cause) => .error (.malformed source p cause)
  | .ok ls =>
    match ofTokens? table (bytes cs) ls with
    | .error (p, cause) => .error (.malformed source p cause)
    | .ok e => .ok e

end Formula

end Screenmark
