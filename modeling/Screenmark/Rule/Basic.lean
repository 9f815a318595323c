/-
  Screenmark — rules.

  A rule has an action on operands, perhaps a test on dependencies in front of
  it, and perhaps a name for its result:

      test(dependency, …){name = action(operand, …)}

  * `Test` and `Action` are the statements that a rule may use;
  * `Family` sorts the actions by what they work on; each family has the tests
    that may stand before its actions (`Family.accepts`);
  * `Rule.outputs` are the series that a rule produces: one under its name for a
    conversion, one for each operand for the others, none for a template.
-/
import Screenmark.Geometry.Rect
import Screenmark.Series.Sample
import Screenmark.Text.Numeral

namespace Screenmark

/-! ## Tests -/

/-- The condition in front of an action. -/
inductive Test where
  | ifTrue
  | between
  | below
  | rightOf
  | inRect
  | during
deriving DecidableEq

namespace Test

/-- All tests. -/
def all : List Test := [.ifTrue, .between, .below, .rightOf, .inRect, .during]

/-- The word for a test. -/
def name : Test → String
  | .ifTrue => "if"
  | .between => "between"
  | .below => "below"
  | .rightOf => "rightof"
  | .inRect => "inrect"
  | .during => "during"

/-- The test that a word names. -/
def ofName? (word : String) : Option Test := all.find? (·.name = word)

theorem ofName?_name (t : Test) : ofName? t.name = some t := by cases t <;> decide

end Test

/-! ## Actions -/

/-- What a rule does. -/
inductive Action where
  | matchTemplate
  | detectText
  | detectNumber
  | detectTime
  | template
  | eval
  | matchFirstValueOf
  | triggerBySegmentsOf
  | nestByLastVariable
  | accessibilityHover
  | accessibilityFocus
  | typedWords
  | mouseClicks
deriving DecidableEq

/-- What the actions of a rule work on. -/
inductive Family where
  /-- the frames themselves -/
  | extraction
  /-- series that are complete -/
  | conversion
  /-- snapshots of the elements on the screen -/
  | accessibility
  /-- recorded keys and mouse buttons -/
  | inputHook
deriving DecidableEq

namespace Action

/-- All actions. -/
def all : List Action :=
  [.matchTemplate, .detectText, .detectNumber, .detectTime, .template, .eval, .matchFirstValueOf,
    .triggerBySegmentsOf, .nestByLastVariable, .accessibilityHover, .accessibilityFocus,
    .typedWords, .mouseClicks]

/-- The word for an action. -/
def name : Action → String
  | .matchTemplate => "matchTemplate"
  | .detectText => "detectText"
  | .detectNumber => "detectNumber"
  | .detectTime => "detectTime"
  | .template => "template"
  | .eval => "eval"
  | .matchFirstValueOf => "matchFirstValueOf"
  | .triggerBySegmentsOf => "triggerBySegmentsOf"
  | .nestByLastVariable => "nestByLastVariable"
  | .accessibilityHover => "accessibilityHover"
  | .accessibilityFocus => "accessibilityFocus"
  | .typedWords => "typedWords"
  | .mouseClicks => "mouseClicks"

/-- The action that a word names. -/
def ofName? (word : String) : Option Action := all.find? (·.name = word)

theorem ofName?_name (a : Action) : ofName? a.name = some a := by cases a <;> decide

/-- The family of an action. -/
def family : Action → Family
  | .matchTemplate | .detectText | .detectNumber | .detectTime | .template => .extraction
  | .eval | .matchFirstValueOf | .triggerBySegmentsOf | .nestByLastVariable => .conversion
  | .accessibilityHover | .accessibilityFocus => .accessibility
  | .typedWords | .mouseClicks => .inputHook

/-- The kind of series that an action writes. -/
def seriesKind : Action → SeriesKind
  | .matchTemplate | .template | .eval | .triggerBySegmentsOf | .nestByLastVariable
  | .mouseClicks => .numeric
  | .detectText | .detectNumber | .detectTime | .matchFirstValueOf | .accessibilityHover
  | .accessibilityFocus | .typedWords => .text

/-- The end of the name of a column with the samples of an action. -/
def columnSuffix : Action → String
  | .detectNumber => "num"
  | .detectTime => "time"
  | .detectText | .accessibilityHover | .accessibilityFocus | .typedWords
  | .matchFirstValueOf => "txt"
  | .matchTemplate | .template | .eval | .triggerBySegmentsOf | .nestByLastVariable
  | .mouseClicks => "val"

end Action

/-! ## Families -/

namespace Family

/-- All families. -/
def all : List Family := [.extraction, .conversion, .accessibility, .inputHook]

/-- The name of a family. -/
def name : Family → String
  | .extraction => "Extraction"
  | .conversion => "Conversion"
  | .accessibility => "Accessibility"
  | .inputHook => "InputHook"

/-- The tests that may stand before the actions of a family. -/
def tests : Family → List Test
  | .extraction => [.ifTrue, .between, .below, .rightOf, .inRect]
  | .conversion => [.during]
  | .accessibility => [.ifTrue, .inRect]
  | .inputHook => [.during]

/-- Whether the action belongs to the family and the test, if there is one, may
    stand before it. -/
def accepts (f : Family) (test : Option Test) (action : Action) : Bool :=
  action.family == f && test.all f.tests.contains

/-- Whether the rules of the family are worked on frame by frame. -/
def isPerFrame : Family → Bool
  | .extraction | .accessibility => true
  | .conversion | .inputHook => false

/-- No two families accept one statement. -/
theorem accepts_unique {f g : Family} {test : Option Test} {action : Action}
    (hf : f.accepts test action = true) (hg : g.accepts test action = true) : f = g := by
  simp only [accepts, Bool.and_eq_true, beq_iff_eq] at hf hg
  exact hf.1.symm.trans hg.1

end Family

/-! ## Rules -/

/-- A rule. -/
structure Rule where
  /-- The text of the rule. -/
  source : String
  family : Family
  name : Option String
  test : Option Test
  dependencies : List String
  action : Action
  operands : List String
deriving DecidableEq

namespace Rule

/-- The names of the series that the rule produces. -/
def outputs (r : Rule) : List String :=
  match r.action with
  | .template => []
  | .eval | .matchFirstValueOf | .triggerBySegmentsOf | .nestByLastVariable => r.name.toList
  | .matchTemplate | .detectText | .detectNumber | .detectTime | .accessibilityHover
  | .accessibilityFocus | .typedWords | .mouseClicks => r.operands

/-- The dependencies that name series; the numbers of a rectangle do not. -/
def namedDependencies (r : Rule) : List String :=
  if r.test = some .inRect then [] else r.dependencies

/-- The rectangle of the test. -/
def rect? (r : Rule) : Option Rect :=
  match r.test, r.dependencies.map fun d => Text.readInt? wordMin wordMax d.toList with
  | some .inRect, [some x, some y, some width, some height] => some ⟨x, y, width, height⟩
  | _, _ => none

/-- The name of the rule, or else of what it works on. -/
def label (r : Rule) : String := r.name.getD ("+".intercalate r.operands)

/-- The rule as shown: without white space, and without what it does not have. -/
def shown (r : Rule) : String :=
  let body := (r.name.map (· ++ "=")).getD "" ++ r.action.name ++ "(" ++
    ",".intercalate r.operands ++ ")"
  match r.test with
  | some t => t.name ++ "(" ++ ",".intercalate r.dependencies ++ ")\x7b" ++ body ++ "\x7d"
  | none => body

end Rule

end Screenmark
