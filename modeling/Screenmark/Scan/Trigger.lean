/-
  Screenmark — when a target is worked out.

  A target that waits for nothing, and one whose rule has a fixed rectangle, is
  worked out at every frame. Any other is worked out at the frames at which
  everything it waits for is true.
-/
import Screenmark.Scan.Region

namespace Screenmark

namespace Target

/-- Whether all of the names are true at a frame, asked one after the other. -/
def allTrue (t : Target) (ts : Tracks) (frame : Nat) : List String → Except Failure Bool
  | [] => .ok true
  | n :: ns =>
    match ts.isTrueAt n frame with
    | some true => allTrue t ts frame ns
    | some false => .ok false
    | none => .error (t.unresolved n)

/-- Whether the target is worked out at a frame. -/
def isTriggered (t : Target) (g : Prerequisites) (ts : Tracks) (frame : Nat) :
    Except Failure Bool :=
  if t.test = some .inRect ∨ g.isUnconstrained t.name then .ok true
  else
    let ps := g.predecessors t.name
    t.allTrue ts frame (ps.logged ++ ps.new)

end Target

end Screenmark
