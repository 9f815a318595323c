/-
  Screenmark — footage made of still images.

  A folder of images, in the order of their names, serves as footage: going to a
  frame costs nothing, and an image is decoded when it is read. An image that
  cannot be decoded is passed over by the read that fails.

  Only a count of the images and the size of the first one are known before.
-/
import Screenmark.Scan.Instruments

namespace Screenmark

/-- The images of a folder. -/
structure Stills where
  paths : List String
  fps : Single
  width : Nat
  height : Nat

namespace Stills

/-- The extensions of images. -/
def extensions : List String := ["png", "jpg", "jpeg", "bmp"]

/-- Whether a file is an image, by its name. -/
def isImage (name : String) : Bool :=
  ((Path.extension? name).map Tree.lower).any extensions.contains

/-- The images of a folder, played at a frame rate. -/
def open? (t : Tree) (folder : String) (fps : Single) : Except Failure Stills :=
  match t.list folder with
  | .error e => .error (.file e)
  | .ok names =>
    let paths := (names.filter isImage).map (Path.join folder)
    match paths with
    | [] => .error (.input (.noImages folder))
    | first :: _ =>
      match t.readPicture first with
      | .error e => .error e
      | .ok p => .ok ⟨paths, fps, p.size.1, p.size.2⟩

variable {σ : Type}

/-- Goes to an image, if there are so many; the place is kept in the world. -/
def seek (s : Stills) (setPlace : Nat → σ → σ) (frame : Nat) (w : σ) : Bool × σ :=
  if frame < s.paths.length then (true, setPlace frame w) else (false, w)

/-- Reads the image at the place and goes to the next one. -/
def read (s : Stills) (place : σ → Nat) (setPlace : Nat → σ → σ) (t : Tree) (w : σ) :
    Option ColourImage × σ :=
  match s.paths[place w]? with
  | none => (none, w)
  | some p => ((t.readPicture p).toOption.map Picture.toColour, setPlace (place w + 1) w)

/-- The images as footage, whose place is kept in the world. -/
def footage (s : Stills) (place : σ → Nat) (setPlace : Nat → σ → σ) : Footage σ where
  frames := s.paths.length
  fps := s.fps
  width := s.width
  height := s.height
  seek := s.seek setPlace
  read := s.read place setPlace

end Stills

end Screenmark
