/-
  Screenmark — the instruments of a session.

  The library neither decodes recordings nor recognises what is in them. It is
  given instruments for that, any of which may be missing: the footage of the
  recording, a way to open other recordings, a matcher of templates, a
  recogniser of text, snapshots of the screen, and recorded events.

  An instrument works on a world of type `σ`, about which nothing is known; each
  use gives an answer and the world after it. Instruments may look at the files
  of the session.
-/
import Screenmark.Events.Typing
import Screenmark.Files.Tree
import Screenmark.Scan.Reading
import Screenmark.Screen.Snapshot

namespace Screenmark

/-- The best match of a template in a region, and how sure it is. -/
structure Match where
  x : Single
  y : Single
  confidence : Single
deriving DecidableEq

/-- A recording whose frames can be sought and read. -/
structure Footage (σ : Type) where
  frames : Nat
  fps : Single
  width : Nat
  height : Nat
  /-- Goes to a frame, so that it is read next; false if that fails. -/
  seek : Nat → σ → Bool × σ
  /-- The image of the frame that is next, if it can be read, and on to the frame
      after it. -/
  read : Tree → σ → Option ColourImage × σ

/-- What a session looks at a recording with. -/
structure Instruments (σ : Type) where
  footage : Option (Footage σ)
  /-- Opens another recording. -/
  recordings : Option (Tree → String → σ → Except Failure (Footage σ) × σ)
  /-- The best match of the second image in the first. -/
  matcher : Option (GreyImage → GreyImage → σ → Match × σ)
  /-- The text in an image. -/
  recogniser : Option (GreyImage → Charset → σ → String × σ)
  /-- The snapshot that holds at a frame. -/
  snapshots : Option (Nat → σ → Option Snapshot × σ)
  events : Option (Tree → σ → Except Failure (List Event) × σ)
  /-- Whether the session is to stop. -/
  poll : σ → Bool × σ

/-- No instruments. -/
def Instruments.none {σ : Type} : Instruments σ where
  footage := .none
  recordings := .none
  matcher := .none
  recogniser := .none
  snapshots := .none
  events := .none
  poll := fun w => (false, w)

end Screenmark
