/-
  Screenmark — what a scan works out for every frame.

  A target is one series that a scan produces: a template to look for, a text to
  read, or an element of the screen. The targets of a plan are the templates that
  nobody declares, and then the operands of the rules that work frame by frame.

  `order` puts the targets of one frame in the order in which they are worked
  out: each after those it waits for, and of the targets that are ready the one
  with the least rank of its stage and, within a rank, the first. A `Worklist`
  counts for each target how many it still waits for, and holds those that wait
  for none.
-/
import Screenmark.Plan.Basic
import Screenmark.Scan.Reading

namespace Screenmark

/-- How a target is worked out. -/
inductive Stage where
  /-- by looking for a template in the frame -/
  | template
  /-- by reading text in the frame -/
  | text (characters : Charset)
  /-- from a snapshot of the elements on the screen -/
  | accessibility
deriving DecidableEq

/-- Stages of a lower rank come first. -/
def Stage.rank : Stage → Nat
  | .template => 0
  | .text _ => 1
  | .accessibility => 2

/-- One series that a scan produces. -/
structure Target where
  name : String
  action : Action
  /-- The rule that asks for it; a template that nobody declares has none. -/
  rule : Option Rule
deriving DecidableEq

namespace Target

/-- How the target is worked out. -/
def stage (t : Target) : Stage :=
  match t.action with
  | .detectText => .text .letters
  | .detectNumber => .text .digits
  | .detectTime => .text .time
  | .accessibilityHover | .accessibilityFocus => .accessibility
  | _ => .template

/-- The kind of series of the target. -/
def kind (t : Target) : SeriesKind := t.action.seriesKind

/-- The test of its rule. -/
def test (t : Target) : Option Test := t.rule.bind (·.test)

/-- Whether the image of the frame is needed. -/
def needsImage (t : Target) : Bool := t.stage ≠ .accessibility

/-- The text of its rule, or else its name. -/
def source (t : Target) : String := (t.rule.map (·.source)).getD t.name

/-- The name of its rule, or else its own. -/
def label (t : Target) : String := (t.rule.map Rule.label).getD t.name

/-- The target of a template that nobody declares. -/
def undeclared (name : String) : Target := ⟨name, .matchTemplate, none⟩

/-- The targets of a rule. -/
def ofRule (r : Rule) : List Target :=
  if r.family.isPerFrame ∧ r.action ≠ .template then
    r.operands.map fun v => ⟨v, r.action, some r⟩
  else []

end Target

/-- The targets of a plan. -/
def Plan.targets (p : Plan) : List Target :=
  (p.templates.filter p.isAutoRegistered).map .undeclared ++ p.rules.flatMap Target.ofRule

/-! ## The order within a frame -/

namespace Order

variable (g : Prerequisites) (ts : List Target)

/-- The place of the last target with the name. -/
def placeOf? (name : String) : Option Nat :=
  (List.range ts.length).reverse.find? fun i => ts[i]?.any (·.name = name)

/-- The places of the targets that the `i`-th one waits for. -/
def waitsFor (i : Nat) : List Nat :=
  match ts[i]? with
  | some t => (g.predecessors t.name).new.filterMap (placeOf? ts)
  | none => []

/-- The rank of the `i`-th target. -/
def rankAt (i : Nat) : Nat := (ts[i]?.map (·.stage.rank)).getD 0

/-- Whether the `i`-th target is worked out before the `j`-th one if both are
    ready: by rank, and by place within a rank. -/
def precedes (i j : Nat) : Bool :=
  rankAt ts i < rankAt ts j || rankAt ts i == rankAt ts j && i < j

/-- The places, the earliest first, with one more unless it is among them. -/
def insert (j : Nat) : List Nat → List Nat
  | [] => [j]
  | k :: ks =>
    if precedes ts j k then j :: k :: ks
    else if j = k then k :: ks
    else k :: insert j ks

/-- The places of the targets that wait for the `i`-th one, each as often as it
    waits for it. -/
def dependents (i : Nat) : List Nat :=
  (List.range ts.length).flatMap fun j => List.replicate ((waitsFor g ts j).count i) j

/-- What is left to do in the middle of a frame. -/
structure Worklist where
  /-- How many targets each one still waits for. -/
  waiting : List Nat
  /-- The places of the targets that wait for none, the earliest first. -/
  ready : List Nat

/-- Before the first target. -/
def start : Worklist where
  waiting := (List.range ts.length).map fun i => (waitsFor g ts i).length
  ready := ((List.range ts.length).filter fun i => (waitsFor g ts i).isEmpty).foldr (insert ts) []

/-- The `j`-th target waits for one less. -/
def release (w : Worklist) (j : Nat) : Worklist :=
  let left := w.waiting.getD j 0 - 1
  ⟨w.waiting.set j left, if left = 0 then insert ts j w.ready else w.ready⟩

/-- The places of at most `fuel` targets, in the order in which they are worked
    out: always the earliest that is ready, whereupon its dependents wait for one
    less. -/
def run : (fuel : Nat) → Worklist → List Nat
  | 0, _ => []
  | fuel + 1, w =>
    match w.ready with
    | [] => []
    | i :: ready =>
      i :: run fuel ((dependents g ts i).foldl (release ts) { w with ready })

/-- The places of all targets, in the order in which they are worked out.
    Targets that wait for each other come last. -/
def places : List Nat :=
  let done := run g ts ts.length (start g ts)
  done ++ (List.range ts.length).filter (!done.contains ·)

end Order

/-- The places of the targets of a plan, in the order in which they are worked
    out. -/
def Plan.order (p : Plan) : List Nat := Order.places p.prerequisites p.targets

end Screenmark
