/-
  Screenmark — one frame of one series.

  A series holds numbers or texts. At every frame it has a sample and the place
  on the screen to which the sample belongs.
-/
import Screenmark.Binary.Layout
import Screenmark.Text.Blank
import Screenmark.Text.Quoted

namespace Screenmark

/-- What a series holds. -/
inductive SeriesKind where
  | numeric
  | text
deriving DecidableEq

/-- The name of the kind in messages. -/
def SeriesKind.name : SeriesKind → String
  | .numeric => "Numeric"
  | .text => "Text"

/-- The value of a series at one frame. -/
inductive Sample where
  | number (x : Single)
  | text (s : String)
deriving DecidableEq

namespace Sample

/-- The kind of series that holds the sample. -/
def kind : Sample → SeriesKind
  | .number _ => .numeric
  | .text _ => .text

/-- The sample as shown. -/
def shown : Sample → String
  | .number x => x.plain
  | .text s => s

/-- The sample inside a message. -/
def described : Sample → String
  | .number x => "Numeric(" ++ x.pointed ++ ")"
  | .text s => "Text(" ++ Text.quoted s ++ ")"

/-- The sample where nothing was seen. -/
def neutral : SeriesKind → Sample
  | .numeric => .number .zero
  | .text => .text Text.blank

@[simp] theorem kind_neutral (k : SeriesKind) : (neutral k).kind = k := by cases k <;> rfl

end Sample

/-- A sample and its place on the screen. -/
structure Observation where
  x : Single
  y : Single
  sample : Sample
deriving DecidableEq

/-- The observation where nothing was seen. -/
def Observation.neutral (k : SeriesKind) : Observation := ⟨.zero, .zero, .neutral k⟩

end Screenmark
