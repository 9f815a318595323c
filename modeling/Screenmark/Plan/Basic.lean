/-
  Screenmark — a plan from rules.

  A plan holds the rules of a run, the prerequisites of the series that they
  produce, and the templates to look for. It is made in two passes: first every
  rule is read and every produced name is known, then the dependencies are
  resolved, so that it does not matter where in the list a producer stands.

  A dependency of a rule that works frame by frame, which is neither logged nor
  produced, is taken for a template and looked for as well.
-/
import Screenmark.Plan.Prerequisites
import Screenmark.Rule.Reading

namespace Screenmark

/-- The rules of a run and what follows from them. -/
structure Plan where
  rules : List Rule
  prerequisites : Prerequisites
  /-- The templates to look for, in the order in which they are met. -/
  templates : List String
  /-- The templates that are looked for only because some rule depends on them. -/
  auto : NameMap Unit

namespace Plan

/-- The plan without rules. -/
def empty : Plan := ⟨[], .empty, [], .empty⟩

/-- The rule among `rules` that produces a series. -/
def producerIn (rules : List Rule) (name : String) : Option Rule :=
  rules.find? fun r => r.outputs.contains name

/-- The rule that produces a series. -/
def producer (p : Plan) (name : String) : Option Rule := producerIn p.rules name

/-- The rules of a family. -/
def ofFamily (p : Plan) (f : Family) : List Rule := p.rules.filter (·.family = f)

/-- Whether the template is looked for only because some rule depends on it. -/
def isAutoRegistered (p : Plan) (name : String) : Bool := p.auto.contains name

/-- The templates that are looked for only because some rule depends on them, in
    the order of their names. -/
def autoRegistered (p : Plan) : List String := p.auto.keys

/-! ## First pass -/

/-- The first output of the rules that is among `produced` or an earlier output,
    with the rule that produces it again. -/
def findDuplicate (produced : List String) : List Rule → Option (Rule × String)
  | [] => none
  | r :: rs =>
    match go r produced r.outputs with
    | .error n => some (r, n)
    | .ok produced => findDuplicate produced rs
where
  /-- Adds the outputs of one rule. -/
  go (r : Rule) (produced : List String) : List String → Except String (List String)
    | [] => .ok produced
    | n :: ns => if n ∈ produced then .error n else go r (n :: produced) ns

/-! ## Second pass -/

/-- The plan in which every output waits for the new series `d`. -/
def waitForNew (p : Plan) (outputs : List String) (d : String) : Plan :=
  { p with prerequisites := outputs.foldl (fun g o => g.addNew o d) p.prerequisites }

/-- The plan in which every output waits for the logged series `d`. -/
def waitForLogged (p : Plan) (outputs : List String) (d : String) : Plan :=
  { p with prerequisites := outputs.foldl (fun g o => g.addLogged o d) p.prerequisites }

/-- The plan in which the template `d`, which no rule declares yet, is looked
    for. -/
def register (p : Plan) (d : String) : Plan :=
  if d ∈ p.templates then p
  else { p with
    templates := p.templates ++ [d]
    auto := p.auto.insert d ()
    prerequisites := p.prerequisites.addNode d }

/-- The plan with the templates that a rule declares. -/
def declare (p : Plan) (r : Rule) : Plan :=
  if r.action = .matchTemplate then
    { p with templates := r.operands.foldl Predecessors.addName p.templates }
  else p

/-- The plan with one dependency of a rule resolved. -/
def resolveDependency (rules : List Rule) (logged : List String) (r : Rule) (p : Plan)
    (d : String) : Except RuleFault Plan :=
  if d ∈ r.outputs then .error (.dependency r.source d .ownOutput)
  else if d ∈ logged then .ok (p.waitForLogged r.outputs d)
  else match producerIn rules d with
    | some producer =>
      if r.family.isPerFrame && !producer.family.isPerFrame then
        .error (.dependency r.source d (.producedLater producer.family))
      else .ok (p.waitForNew r.outputs d)
    | none =>
      let p := if r.family.isPerFrame then p.register d else p
      .ok (p.waitForNew r.outputs d)

/-- The plan with one rule resolved. -/
def resolveRule (rules : List Rule) (logged : List String) (p : Plan) (r : Rule) :
    Except RuleFault Plan :=
  let p := { p with prerequisites := r.outputs.foldl Prerequisites.addNode p.prerequisites }
  match r.namedDependencies.foldlM (resolveDependency rules logged r) p with
  | .error f => .error f
  | .ok p => .ok (p.declare r)

/-- The names without those of templates that a rule declares, maybe only after
    another one depended on them. -/
def undeclared (auto : NameMap Unit) (rules : List Rule) : NameMap Unit :=
  (rules.filter (·.action = .matchTemplate)).foldl
    (fun auto r => r.operands.foldl NameMap.erase auto) auto

/-- The fault of a plan whose names wait for each other. -/
def cycleFault (rules : List Rule) (path : List String) : RuleFault :=
  let source := (producerIn rules (path.headD "")).map (·.source)
  .dependency (source.getD "") ((path[1]?).getD "") (.cycle path)

/-- The plan of rules that are read already. -/
def ofRules (rules : List Rule) (logged : List String) : Except RuleFault Plan :=
  match findDuplicate [] rules with
  | some (r, n) => .error (.duplicate r.source n)
  | none =>
    match rules.foldlM (resolveRule rules logged) empty with
    | .error f => .error f
    | .ok p =>
      match p.prerequisites.findCycle with
      | some path => .error (cycleFault rules path)
      | none => .ok { p with rules := rules, auto := undeclared p.auto rules }

/-- The plan of the rules that texts write, where `logged` are the series logged
    before. -/
def compile (sources logged : List String) : Except RuleFault Plan :=
  match sources.mapM Rule.read with
  | .error f => .error f
  | .ok rules => ofRules rules logged

end Plan

end Screenmark
