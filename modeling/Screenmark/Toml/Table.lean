/-
  Screenmark — tables that grow.

  A configuration file is a list of statements: `[path]` opens a table, `[[path]]`
  opens one more table in an array of tables, and `path = value` sets a member of
  the table that was opened last. A table stands for an object; what is missing
  on a path is created.

  A table must not be defined twice. One that was only created on the way to
  another may still be opened, and dotted names may be added only to a table that
  dotted names created. Values, inline tables among them, are closed.

  * `Table.set` and `Table.openTable` make one statement;
  * `Table.assemble` makes them all, and `Table.datum` is what they say.
-/
import Screenmark.Datum

namespace Screenmark

namespace Toml

/-- What a member of a table is. -/
inductive Node where
  | value (d : Datum)
  | table (created dotted : Bool) (members : List (String × Node))
  /-- an array of tables, of which the last one is still open -/
  | tables (closed : List Datum) (members : List (String × Node))

/-- A table. -/
structure Table where
  /-- Whether it was created on the way to another one. -/
  created : Bool
  /-- Whether a dotted name created it. -/
  dotted : Bool
  members : List (String × Node)

/-- A statement of a file. -/
inductive Statement where
  | openTable (path : List String)
  | openNext (path : List String)
  | set (path : List String) (value : Datum)

/-! ## What a table says -/

mutual

/-- What a member says. -/
def Node.datum : Node → Datum
  | .value d => d
  | .table _ _ ms => .object (membersData ms)
  | .tables closed ms => .array (closed ++ [.object (membersData ms)])

/-- What members say. -/
def membersData : List (String × Node) → List (String × Datum)
  | [] => []
  | (n, m) :: ms => (n, m.datum) :: membersData ms

end

namespace Table

/-- What a table says. -/
def datum (t : Table) : Datum := .object (membersData t.members)

/-! ## Members -/

/-- A table that was opened, without members. -/
def empty : Table := ⟨false, false, []⟩

/-- The member with a name. -/
def find? (t : Table) (name : String) : Option Node :=
  (t.members.find? (·.1 = name)).map (·.2)

/-- The table with a member put in place of the one of the same name. -/
def put (t : Table) (name : String) (m : Node) : Table :=
  { t with members := t.members.filter (·.1 ≠ name) ++ [(name, m)] }

/-- The table as a member. -/
def node (t : Table) : Node := .table t.created t.dotted t.members

/-! ## Statements -/

/-- Changes the table at the end of a path. -/
def change (dotted : Bool) (f : Table → Option Table) : List String → Table → Option Table
  | [], t => f t
  | name :: path, t =>
    match t.find? name with
    | none => (change dotted f path ⟨true, dotted, []⟩).map fun u => t.put name u.node
    | some (.value _) => none
    | some (.tables closed ms) =>
      (change dotted f path ⟨false, false, ms⟩).map fun u => t.put name (.tables closed u.members)
    | some (.table created wasDotted ms) =>
      if dotted && !created then none
      else (change dotted f path ⟨created, wasDotted, ms⟩).map fun u => t.put name u.node

/-- Sets a member that is not there yet. -/
def add (viaDots : Bool) (name : String) (d : Datum) (t : Table) : Option Table :=
  if t.dotted = viaDots ∧ (t.find? name).isNone then some (t.put name (.value d)) else none

/-- Sets the member at the end of a path. -/
def set (t : Table) (path : List String) (d : Datum) : Option Table :=
  match path.getLast? with
  | none => none
  | some name => change true (add (path.length != 1) name d) path.dropLast t

/-- Opens the table with a name, unless it was defined before. -/
def openMember (name : String) (t : Table) : Option Table :=
  match t.find? name with
  | none => some (t.put name (.table false false []))
  | some (.table true false ms) => some (t.put name (.table false false ms))
  | some _ => none

/-- Opens one more table in the array of tables with a name. -/
def openNextMember (name : String) (t : Table) : Option Table :=
  match t.find? name with
  | none => some (t.put name (.tables [] []))
  | some (.tables closed ms) =>
    some (t.put name (.tables (closed ++ [.object (membersData ms)]) []))
  | some _ => none

/-- Opens the table at the end of a path. -/
def openTable (t : Table) (path : List String) (f : String → Table → Option Table) :
    Option Table :=
  match path.getLast? with
  | none => none
  | some name => change false (f name) path.dropLast t

/-- Makes one statement; the second part is the path of the table that was
    opened last. -/
def step (s : Table × List String) : Statement → Option (Table × List String)
  | .openTable path => (s.1.openTable path openMember).map fun t => (t, path)
  | .openNext path => (s.1.openTable path openNextMember).map fun t => (t, path)
  | .set path d => (change false (fun t => t.set path d) s.2 s.1).map fun t => (t, s.2)

/-- The table that the statements of a file make. -/
def assemble (statements : List Statement) : Option Table :=
  (statements.foldlM step (empty, [])).map (·.1)

end Table

/-- The object that names and values between braces make. -/
def inline? (members : List (List String × Datum)) : Option Datum :=
  (members.foldlM (fun t (path, d) => Table.set t path d) Table.empty).map Table.datum

end Toml

end Screenmark
