/-
  Screenmark — documents of named values.

  Settings, snapshots and timelines are documents: trees of objects, arrays and
  plain values. The members of an object keep their order, and a number keeps
  the text that writes it, so that nothing is lost before a reader decides which
  kind of number it wants.

  * `Json` is the tree;
  * `single` and `natural` write numbers into it; an infinite number or no number
    at all is written as `null`;
  * `found?` is the member of an object with a given name, the first of them.
-/
import Screenmark.Binary.Layout

namespace Screenmark

/-- A document. -/
inductive Json where
  | null
  | bool (b : Bool)
  /-- a number, as the text that writes it -/
  | number (literal : String)
  | text (s : String)
  | array (items : List Json)
  | object (members : List (String × Json))

namespace Json

instance : Inhabited Json := ⟨null⟩

/-- A natural number. -/
def natural (n : Nat) : Json := .number (toString n)

/-- A 32-bit number. -/
def single (x : Single) : Json := if x.isFinite then .number (Style.document.text x) else .null

/-- A value that may be missing. -/
def option {α : Type} (write : α → Json) : Option α → Json
  | none => .null
  | some a => write a

/-- The first member with the name. -/
def memberOf (name : String) : List (String × Json) → Option Json
  | [] => none
  | (n, v) :: ms => if n = name then some v else memberOf name ms

/-- The first member of an object with the name. -/
def found? (name : String) : Json → Option Json
  | .object ms => memberOf name ms
  | _ => none

end Json

end Screenmark
