/-
  Screenmark — logs in files.

  Tables of an earlier run, snapshots of the screen and input events come from
  files. A file that cannot be read is one failure, a file that does not hold
  what it should is another.
-/
import Screenmark.Events.Log
import Screenmark.Json.Reader
import Screenmark.Scan.Instruments
import Screenmark.Series.Logged

namespace Screenmark

/-- The text of a file. -/
def Tree.content (t : Tree) (path : String) : Except Failure String :=
  (t.readText path).mapError .file

/-- What an earlier run wrote into a file. -/
def LoggedFile.load (t : Tree) (path : String) (threshold : Single) :
    Except Failure LoggedFile := do
  LoggedFile.parse (← t.content path) path threshold

/-- The log of snapshots that a document writes. -/
def SnapshotLog.parse (content : String) : Except Failure SnapshotLog :=
  match (Json.read? content).bind fun j => SnapshotLog.ofDatum? j.datum with
  | some log => .ok log
  | none => .error .document

/-- The log of snapshots in a file. -/
def SnapshotLog.load (t : Tree) (path : String) : Except Failure SnapshotLog := do
  SnapshotLog.parse (← t.content path)

/-- The events in a file. -/
def InputLog.load (z : Zone) (t : Tree) (path : String) : Except Failure (List Event) := do
  InputLog.parse z (← t.content path)

end Screenmark
