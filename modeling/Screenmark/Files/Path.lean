/-
  Screenmark — paths.

  A path is a text with `/` between its parts. `join` appends a path to a folder;
  an absolute path stands for itself, and nothing is put after an empty folder
  or after a slash. The *file name* is the last part that is not `.`, and its
  *extension* is what follows its last point, unless that point comes first.
-/
import Screenmark.Text.Lines

namespace Screenmark

namespace Path

/-- The path `p` seen from the folder `dir`. -/
def join (dir p : String) : String :=
  if p.startsWith "/" ∨ dir.isEmpty then p
  else if dir.endsWith "/" then dir ++ p
  else dir ++ "/" ++ p

/-- The parts of a path, without those that stand for the same folder. -/
def parts (p : String) : List String :=
  ((Text.pieces '/' p.toList).filter fun q => q ≠ [] ∧ q ≠ ['.']).map String.ofList

/-- The last part, unless it leads to the folder above. -/
def fileName? (p : String) : Option String :=
  match (parts p).getLast? with
  | some n => if n = ".." then none else some n
  | none => none

/-- A file name without its extension, and the extension. -/
def splitName (name : String) : String × Option String :=
  match Text.splitLast '.' name.toList with
  | some (stem, extension) =>
    if stem = [] then (name, none) else (String.ofList stem, some (String.ofList extension))
  | none => (name, none)

/-- The file name without its extension. -/
def stem? (p : String) : Option String := (fileName? p).map fun n => (splitName n).1

/-- The extension of the file name. -/
def extension? (p : String) : Option String := (fileName? p).bind fun n => (splitName n).2

end Path

/-- The name of a recording: the name of its file without extension, up to the
    first underscore. -/
def recordingStem (video : String) : String :=
  match Path.stem? video with
  | none => ""
  | some stem =>
    match Text.splitFirst '_' stem.toList with
    | some (head, _) => String.ofList head
    | none => stem

end Screenmark
