/-
  Screenmark — rules from text.

  The text of a rule is cut into its clauses at the first brace and at the
  parentheses that belong together; white space inside a clause does not count.
  Arguments are separated by the commas that stand outside of inner parentheses,
  since the argument of a formula may hold commas itself.

  * `Rule.read` reads one rule;
  * `Rule.texts` finds the rules in a text of many lines: one a line, with
    quotes removed, and without blank lines and comments;
  * `Rule.checked` asks for the right number of arguments and the names that a
    rule needs.
-/
import Screenmark.Rule.Fault
import Screenmark.Text.Lines

namespace Screenmark

namespace Rule

/-! ## Clauses -/

/-- The text up to the parenthesis that closes the `depth`-th open one, and the
    text after it. -/
def closed? : (depth : Nat) → List Char → Option (List Char × List Char)
  | _, [] => none
  | depth, c :: cs =>
    if c = ')' then
      if depth ≤ 1 then some ([], cs)
      else (closed? (depth - 1) cs).map fun (a, b) => (c :: a, b)
    else
      let depth := if c = '(' then depth + 1 else depth
      (closed? depth cs).map fun (a, b) => (c :: a, b)

/-- The pieces between the commas outside of parentheses. -/
def splitOuter : (depth : Nat) → List Char → List (List Char)
  | _, [] => [[]]
  | depth, c :: cs =>
    if c = ',' ∧ depth = 0 then [] :: splitOuter 0 cs
    else
      let depth := if c = '(' then depth + 1 else if c = ')' then depth - 1 else depth
      match splitOuter depth cs with
      | [] => [[c]]
      | p :: ps => (c :: p) :: ps

/-- The arguments of a list. -/
def splitArguments (cs : List Char) : List String :=
  match Text.compact cs with
  | [] => []
  | cs => (splitOuter 0 cs).map String.ofList

/-- The text before the parenthesis of a clause, and its arguments. -/
def splitClause (source : String) (which : Clause) (cs : List Char) :
    Except RuleFault (List Char × List String) :=
  match Text.splitFirst '(' cs with
  | none => .error (.malformed source (String.ofList cs) (.openingMissing which))
  | some (head, rest) =>
    match closed? 1 rest with
    | none => .error (.malformed source (String.ofList ('(' :: rest)) (.closingMissing which))
    | some (inner, trailer) =>
      if Text.trim trailer = [] then .ok (head, splitArguments inner)
      else .error (.malformed source (String.ofList trailer) (.textAfter which))

/-- The test clause, if there is one, and the action clause. -/
def splitClauses (source : String) (cs : List Char) :
    Except RuleFault (Option (List Char) × List Char) :=
  match Text.splitFirst '\x7b' cs with
  | none => .ok (none, cs)
  | some (test, rest) =>
    match rest.getLast? with
    | some '\x7d' => .ok (some test, rest.dropLast)
    | _ => .error (.malformed source (String.ofList ('\x7b' :: rest)) .braceMissing)

/-- The test that a clause writes, and its dependencies. -/
def readTest (source : String) (cs : List Char) : Except RuleFault (Test × List String) :=
  match splitClause source .test cs with
  | .error f => .error f
  | .ok (head, dependencies) =>
    let word := String.ofList (Text.compact head)
    if word.isEmpty then .error (.malformed source (String.ofList cs) .testMissing)
    else match Test.ofName? word with
      | some t => .ok (t, dependencies)
      | none => .error (.unsupported source word)

/-- The name, if there is one, the action that a clause writes, and its
    operands. -/
def readAction (source : String) (cs : List Char) :
    Except RuleFault (Option String × Action × List String) :=
  if Text.compact cs = [] then .error (.malformed source (String.ofList cs) .actionMissing)
  else match splitClause source .action cs with
    | .error f => .error f
    | .ok (head, operands) =>
      let (name, word) := match Text.splitFirst '=' head with
        | some (name, word) => (String.ofList (Text.compact name), Text.compact word)
        | none => ("", Text.compact head)
      let word := String.ofList word
      if word.isEmpty then .error (.malformed source (String.ofList cs) .actionMissing)
      else match Action.ofName? word with
        | some a => .ok (if name.isEmpty then none else some name, a, operands)
        | none => .error (.unsupported source word)

/-! ## Checks -/

/-- The number of dependencies of a test. -/
def testArity : Test → Arity
  | .inRect => .exactly 4
  | .below | .rightOf | .during => .exactly 1
  | .between => .exactly 2
  | .ifTrue => .atLeast 1

/-- The number of operands of an action. -/
def actionArity : Action → Arity
  | .template => .exactly 6
  | .eval | .matchFirstValueOf | .triggerBySegmentsOf | .typedWords | .mouseClicks => .exactly 1
  | .matchTemplate | .detectText | .detectNumber | .detectTime | .nestByLastVariable
  | .accessibilityHover | .accessibilityFocus => .atLeast 1

/-- What is wrong with the test, if anything. -/
def testFault? (r : Rule) : Option RuleFault :=
  match r.test with
  | none => none
  | some t =>
    if !(testArity t).admits r.dependencies.length then
      some (.arity r.source (.ofTest t) (testArity t) r.dependencies.length)
    else if t = .inRect ∧ r.rect?.isNone then
      some (.malformed r.source (",".intercalate r.dependencies) .coordinates)
    else none

/-- What is wrong with the action, if anything. -/
def actionFault? (r : Rule) : Option RuleFault :=
  if !(actionArity r.action).admits r.operands.length then
    some (.arity r.source (.ofAction r.action) (actionArity r.action) r.operands.length)
  else if r.action = .template ∧ r.name.isNone then
    some (.malformed r.source r.source .templateNameless)
  else if (r.action = .matchFirstValueOf ∨ r.action = .triggerBySegmentsOf) ∧
      r.test ≠ some .during then
    some (.arity r.source (.ofGuard r.action) (.exactly 1) 0)
  else if r.family = .conversion ∧ r.name.isNone then
    some (.malformed r.source r.source .conversionNameless)
  else none

/-- The rule, if nothing is wrong with it. -/
def checked (r : Rule) : Except RuleFault Rule :=
  match r.testFault?.or r.actionFault? with
  | some f => .error f
  | none => .ok r

/-! ## Rules -/

/-- The statement that a test and an action make together. -/
def statement (test : Option Test) (action : Action) : String :=
  match test with
  | some t => t.name ++ "(...)\x7b" ++ action.name ++ "(...)\x7d"
  | none => action.name

/-- The rule that a text writes. -/
def read (source : String) : Except RuleFault Rule := do
  let (testClause, actionClause) ← splitClauses source (Text.trim source.toList)
  let (test, dependencies) ← match testClause with
    | none => pure (none, [])
    | some cs => do
      let (t, dependencies) ← readTest source cs
      pure (some t, dependencies)
  let (name, action, operands) ← readAction source actionClause
  if action.family.accepts test action then
    checked ⟨source, action.family, name, test, dependencies, action, operands⟩
  else .error (.unsupported source (statement test action))

/-- The rules in a text of many lines. -/
def texts (s : String) : List String :=
  let line (s : String) : String := Text.trimmed (Text.without (fun c => c == '"' || c == '\'') s)
  ((Text.lines s).map line).filter fun l => !l.isEmpty && !l.startsWith "#"

end Rule

end Screenmark
