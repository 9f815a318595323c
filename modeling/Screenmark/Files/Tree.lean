/-
  Screenmark — the files of a session.

  A `Tree` holds the files of a machine as a value: folders, texts, pictures and
  other files, by the names of their parts from the root on, joined with `/`. Its
  *home* is the working folder, which is always there, as are the folders above it.

  * `locate` follows a path part by part, through folders that exist: an absolute
    path from the root, any other one from the working folder;
  * `readText`, `readPicture` and `list` look at a file or folder;
  * `write` and `createFolders` give the tree after a change, or the reason why
    there is none.

  A picture is read from a file only if the extension of its name is one of a
  picture.
-/
import Screenmark.Failure
import Screenmark.Files.Path
import Screenmark.Image.Raster
import Screenmark.Names

namespace Screenmark

/-- What a name stands for. -/
inductive Item where
  | folder
  | text (content : String)
  | picture (content : Picture)
  /-- a file that holds something else -/
  | other
deriving DecidableEq

/-- The files and folders of a machine. -/
structure Tree where
  items : NameMap Item
  /-- The place of the working folder. -/
  home : List String := []

namespace Tree

/-- Nothing but the working folder. -/
def empty : Tree := { items := .empty }

/-- The name of the item that lies at the end of the parts. -/
def key (parts : List String) : String := "/".intercalate parts

/-- The item at the end of the parts. -/
def itemAt? (t : Tree) (parts : List String) : Option Item :=
  if parts.isPrefixOf t.home then some .folder else t.items.find? (key parts)

/-- The greatest number of bytes of the name of a file. -/
def nameLimit : Nat := 255

/-- The place where a path leads from `here`, through folders that exist; whether
    there is an item at the end does not matter. Above the root is the root. -/
def walk (t : Tree) (here : List String) : List String → Except FileFault (List String)
  | [] => .ok here
  | p :: ps =>
    match t.itemAt? here with
    | none => .error .missing
    | some .folder =>
      if p = ".." then walk t here.dropLast ps
      else if nameLimit < p.utf8ByteSize then .error .nameTooLong
      else walk t (here ++ [p]) ps
    | some _ => .error .notFolder

/-- The folder from which a path is followed. -/
def base (t : Tree) (path : String) : List String := if path.startsWith "/" then [] else t.home

/-- The place where a path leads. -/
def locate (t : Tree) (path : String) : Except FileFault (List String) :=
  if path.isEmpty then .error .missing else t.walk (t.base path) (Path.parts path)

/-- The item at a path. -/
def item (t : Tree) (path : String) : Except FileFault Item :=
  match t.locate path with
  | .error e => .error e
  | .ok parts =>
    match t.itemAt? parts with
    | some i => .ok i
    | none => .error .missing

/-- Whether there is anything at a path. -/
def contains (t : Tree) (path : String) : Bool := (t.item path).toBool

/-! ## Looking -/

/-- The text of a file. -/
def readText (t : Tree) (path : String) : Except FileFault String :=
  match t.item path with
  | .error e => .error e
  | .ok .folder => .error .isFolder
  | .ok (.picture _) | .ok .other => .error .notText
  | .ok (.text s) => .ok s

/-- The extensions of files that hold pictures. -/
def pictureExtensions : List String := ["png", "bmp"]

/-- A text with its ASCII letters in lower case. -/
def lower (s : String) : String := String.ofList (s.toList.map Char.toLower)

/-- The picture in a file. -/
def readPicture (t : Tree) (path : String) : Except Failure Picture :=
  match t.item path, (Path.extension? path).map lower with
  | .ok (.picture p), some e => if e ∈ pictureExtensions then .ok p else .error .image
  | _, _ => .error .image

/-- The items, and the folder that leads from the given one to the working folder, if
    there is one. -/
def itemsSeenFrom (t : Tree) (parts : List String) : NameMap Item :=
  t.items.insert (key (t.home.take (parts.length + 1))) .folder

/-- The names of the items in a folder, in order. -/
def list (t : Tree) (path : String) : Except FileFault (List String) :=
  match t.locate path with
  | .error e => .error e
  | .ok parts =>
    match t.itemAt? parts with
    | none => .error .missing
    | some .folder =>
      .ok ((t.itemsSeenFrom parts).keys.filterMap fun k =>
        let ps := Path.parts k
        if ps.dropLast = parts then ps.getLast? else none)
    | some _ => .error .notFolder

/-! ## Changing -/

/-- The tree with an item put at a place. -/
def put (t : Tree) (parts : List String) (i : Item) : Tree :=
  { t with items := t.items.insert (key parts) i }

/-- The tree with a file written, in a folder that exists. -/
def write (t : Tree) (path : String) (i : Item) : Except FileFault Tree :=
  match t.locate path with
  | .error e => .error e
  | .ok parts =>
    match t.itemAt? parts with
    | some .folder => .error .isFolder
    | _ =>
      match t.itemAt? parts.dropLast with
      | some .folder => .ok (t.put parts i)
      | some _ => .error .notFolder
      | none => .error .missing

/-- The tree with the folders of the path, from `here` on. -/
def createFrom (t : Tree) (here : List String) : List String → Except FileFault Tree
  | [] => .ok t
  | p :: ps =>
    if p = ".." then createFrom t here.dropLast ps
    else if nameLimit < p.utf8ByteSize then .error .nameTooLong
    else
      match t.itemAt? (here ++ [p]) with
      | some .folder => createFrom t (here ++ [p]) ps
      | some _ => if ps = [] then .error .occupied else .error .notFolder
      | none => createFrom (t.put (here ++ [p]) .folder) (here ++ [p]) ps

/-- The tree with a folder and all folders above it. -/
def createFolders (t : Tree) (path : String) : Except FileFault Tree :=
  t.createFrom (t.base path) (Path.parts path)

end Tree

end Screenmark
