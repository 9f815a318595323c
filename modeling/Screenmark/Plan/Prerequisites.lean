/-
  Screenmark — what each series waits for.

  A series that is produced waits for other series: for some that were logged
  before, and for some that are new. `Prerequisites` keeps both lists for every
  name, each in the order in which they were given and without repetition.

  * `findCycle` looks for a name that waits for itself along a chain of new
    series; the path starts and ends with that name;
  * `isUnconstrained` says that a name waits for nothing.
-/
import Screenmark.Names

namespace Screenmark

/-- The series that one series waits for. -/
structure Predecessors where
  /-- Those that were logged before. -/
  logged : List String
  /-- Those that are produced. -/
  new : List String
deriving DecidableEq

namespace Predecessors

/-- Waiting for nothing. -/
def none : Predecessors := ⟨[], []⟩

/-- Whether there is nothing to wait for. -/
def isEmpty (p : Predecessors) : Bool := p.logged.isEmpty && p.new.isEmpty

/-- The names with one more at the end, unless it is among them. -/
def addName (names : List String) (n : String) : List String :=
  if n ∈ names then names else names ++ [n]

end Predecessors

/-- The series that every series waits for. -/
structure Prerequisites where
  nodes : NameMap Predecessors

namespace Prerequisites

/-- Nothing waits. -/
def empty : Prerequisites := ⟨.empty⟩

/-- The series that a name waits for, if the name is known. -/
def predecessors? (g : Prerequisites) (n : String) : Option Predecessors := g.nodes.find? n

/-- The series that a name waits for. -/
def predecessors (g : Prerequisites) (n : String) : Predecessors :=
  (g.predecessors? n).getD .none

/-- The prerequisites in which the name is known. -/
def addNode (g : Prerequisites) (n : String) : Prerequisites :=
  ⟨g.nodes.insert n (g.predecessors n)⟩

/-- The prerequisites in which `n` waits for the logged series `p`. -/
def addLogged (g : Prerequisites) (n p : String) : Prerequisites :=
  let ps := g.predecessors n
  ⟨g.nodes.insert n { ps with logged := Predecessors.addName ps.logged p }⟩

/-- The prerequisites in which `n` waits for the new series `p`. -/
def addNew (g : Prerequisites) (n p : String) : Prerequisites :=
  let ps := g.predecessors n
  ⟨g.nodes.insert n { ps with new := Predecessors.addName ps.new p }⟩

/-- Whether a name waits for nothing. -/
def isUnconstrained (g : Prerequisites) (n : String) : Bool := (g.predecessors n).isEmpty

/-! ## Cycles -/

/-- The path from `name` back to itself, along the names of `path` (the latest
    first). -/
def cycleAt (name : String) (path : List String) : List String :=
  name :: ((path.takeWhile (· ≠ name)).reverse ++ [name])

/-- Follows `name` and what it waits for, on the way `path`; the names of `closed`
    lead to no cycle. Gives the names that lead to none, or a cycle. -/
def visit (g : Prerequisites) :
    (fuel : Nat) → (path closed : List String) → (name : String) →
    Except (List String) (List String)
  | 0, _, closed, _ => .ok closed
  | fuel + 1, path, closed, name =>
    if name ∈ closed then .ok closed
    else if name ∈ path then .error (cycleAt name path)
    else
      match (g.predecessors name).new.foldlM (g.visit fuel (name :: path)) closed with
      | .error c => .error c
      | .ok closed => .ok (name :: closed)

/-- All names that wait or are waited for, perhaps repeated. -/
def names (g : Prerequisites) : List String :=
  g.nodes.keys ++ g.nodes.values.flatMap (·.new)

/-- A path from a name back to itself, if there is one. -/
def findCycle (g : Prerequisites) : Option (List String) :=
  match g.nodes.keys.foldlM (g.visit (g.names.length + 2) []) [] with
  | .error c => some c
  | .ok _ => none

end Prerequisites

end Screenmark
