/-
  Screenmark — recorded keys and mouse buttons, and the words typed with them.

  The events of an input log come in the order in which they were recorded. A
  typed character belongs to a word when the key pressed last can form words; a
  space, a mouse event or any other key ends the word, and the backspace takes
  the last character away.
-/
import Screenmark.Text.Blank
import Screenmark.Time.Calendar

namespace Screenmark

/-! ## Events -/

/-- What happened. -/
inductive EventKind where
  | typed (c : Char)
  | keyDown (code : Nat)
  | keyUp (code : Nat)
  | click (x y : Single) (button : Nat)
  | buttonDown (x y : Single) (button : Nat)
  | buttonUp (x y : Single) (button : Nat)
  | move (x y : Single)
  | drag (x y : Single)
  | wheel (x y : Single)
deriving DecidableEq

/-- Whether the mouse was used. -/
def EventKind.isMouse : EventKind → Bool
  | .typed _ | .keyDown _ | .keyUp _ => false
  | _ => true

/-- Something that happened at a moment. -/
structure Event where
  time : Moment
  kind : EventKind
deriving DecidableEq

/-! ## Words -/

/-- The keys that form words: digits and the keys up to the backspace, the
    three rows of letters with the signs beside them, and the space bar. -/
def isWordKey (code : Nat) : Bool :=
  (0x02 ≤ code && code ≤ 0x0E) || (0x10 ≤ code && code ≤ 0x1B) ||
    (0x1E ≤ code && code ≤ 0x28) || (0x2C ≤ code && code ≤ 0x35) || code == 0x39

/-- The character of the backspace key. -/
def backspace : Char := '\x08'

/-- A word and the moments of its first and last character. -/
structure TypedWord where
  text : String
  start : Moment
  stop : Moment
deriving DecidableEq

/-- A word that is still being typed; its characters are in reverse. -/
structure OpenWord where
  reversed : List Char
  start : Moment
  stop : Moment

namespace OpenWord

/-- The word, unless nothing of it shows. -/
def close? (w : OpenWord) : Option TypedWord :=
  match Text.trim w.reversed.reverse with
  | [] => none
  | cs => some ⟨String.ofList cs, w.start, w.stop⟩

/-- The word after one more character. -/
def type (w : OpenWord) (c : Char) (t : Moment) : OpenWord :=
  if c = backspace then { w with reversed := w.reversed.drop 1, stop := t }
  else { w with reversed := c :: w.reversed, stop := t }

end OpenWord

/-- The words typed in the events, where `word` is being typed already and
    `active` says whether the latest key forms words. -/
def typedWordsFrom (active : Bool) (word : Option OpenWord) : List Event → List TypedWord
  | [] => (word.bind OpenWord.close?).toList
  | e :: es =>
    match e.kind with
    | .keyDown code =>
      if isWordKey code then typedWordsFrom true word es
      else (word.bind OpenWord.close?).toList ++ typedWordsFrom false none es
    | .typed c =>
      if !active then typedWordsFrom active word es
      else if Text.isWhite c then
        (word.bind OpenWord.close?).toList ++ typedWordsFrom active none es
      else
        typedWordsFrom active (some ((word.getD ⟨[], e.time, e.time⟩).type c e.time)) es
    | .keyUp _ => typedWordsFrom active word es
    | _ => (word.bind OpenWord.close?).toList ++ typedWordsFrom active none es

/-- The words typed in the events. -/
def typedWords (es : List Event) : List TypedWord := typedWordsFrom false none es

end Screenmark
