/-
  Screenmark — what can be wrong with rules.

  A rule can fail on its own: its clauses are not well formed, it uses a
  statement that does not exist, or a clause has too many or too few arguments.
  A set of rules can fail as a whole: two rules produce one series, or a
  dependency cannot be met. `RuleFault` lists the causes, and
  `RuleFault.message` is their wording.
-/
import Screenmark.Rule.Basic

namespace Screenmark

/-- The two clauses of a rule. -/
inductive Clause where
  | test
  | action
deriving DecidableEq

/-- The name of a clause. -/
def Clause.name : Clause → String
  | .test => "test"
  | .action => "action"

/-- How a rule is not well formed. -/
inductive ClauseCause where
  | braceMissing
  | openingMissing (clause : Clause)
  | closingMissing (clause : Clause)
  | textAfter (clause : Clause)
  | testMissing
  | actionMissing
  | coordinates
  | templateNameless
  | conversionNameless
deriving DecidableEq

/-- The wording of a cause. -/
def ClauseCause.message : ClauseCause → String
  | .braceMissing => "missing closing '\x7d'"
  | .openingMissing c => "malformed " ++ c.name ++ " statement: missing '('"
  | .closingMissing c => "malformed " ++ c.name ++ " variables: missing ')'"
  | .textAfter c => "unexpected text after " ++ c.name ++ " clause"
  | .testMissing => "empty test statement"
  | .actionMissing => "missing action clause"
  | .coordinates => "inrect coordinates must be integers"
  | .templateNameless => "template definitions must be assigned to a name"
  | .conversionNameless => "conversion rules must be assigned to a name"

/-- What has a number of arguments. -/
inductive Arguments where
  | ofTest (t : Test)
  | ofAction (a : Action)
  /-- the test that has to stand before the action -/
  | ofGuard (a : Action)
deriving DecidableEq

/-- The wording of what has arguments. -/
def Arguments.shown : Arguments → String
  | .ofTest t => "test '" ++ t.name ++ "'"
  | .ofAction a => "action '" ++ a.name ++ "'"
  | .ofGuard a => "guard of '" ++ a.name ++ "'"

/-- How many arguments are right. -/
inductive Arity where
  | exactly (n : Nat)
  | atLeast (n : Nat)
deriving DecidableEq

namespace Arity

/-- Whether `k` arguments are right. -/
def admits : Arity → Nat → Bool
  | .exactly n, k => k == n
  | .atLeast n, k => n ≤ k

/-- The wording of a number of arguments. -/
def shown : Arity → String
  | .exactly n => toString n
  | .atLeast n => "at least " ++ toString n

end Arity

/-- Why a dependency cannot be met. -/
inductive DependencyCause where
  | ownOutput
  /-- it is produced after the frames, by a rule of the family -/
  | producedLater (family : Family)
  /-- it waits, by a chain of names, for itself -/
  | cycle (path : List String)
deriving DecidableEq

/-- The wording of a cause. -/
def DependencyCause.message : DependencyCause → String
  | .ownOutput => "a rule cannot depend on its own output"
  | .producedLater f =>
    "produced by a " ++ f.name ++ " rule, which only runs after frame processing"
  | .cycle path => "dependency cycle " ++ " -> ".intercalate path

/-- What can be wrong with rules. -/
inductive RuleFault where
  | malformed (rule fragment : String) (cause : ClauseCause)
  | unsupported (rule statement : String)
  | arity (rule : String) (arguments : Arguments) (expected : Arity) (found : Nat)
  | dependency (rule name : String) (cause : DependencyCause)
  | duplicate (rule name : String)
deriving DecidableEq

/-- The wording of a fault. -/
def RuleFault.message : RuleFault → String
  | .malformed rule fragment cause =>
    s!"Malformed rule '{rule}': {cause.message} (at '{fragment}')"
  | .unsupported rule statement => s!"Unsupported statement '{statement}' in rule '{rule}'"
  | .arity rule arguments expected found =>
    s!"Arity mismatch in rule '{rule}': {arguments.shown} expects {expected.shown}, found {found}"
  | .dependency rule name cause =>
    s!"Invalid dependency '{name}' in rule '{rule}': {cause.message}"
  | .duplicate rule name => s!"'{name}' is produced by more than one rule (again in '{rule}')"

end Screenmark
