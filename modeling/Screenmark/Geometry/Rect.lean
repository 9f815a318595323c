/-
  Screenmark — rectangles of a frame.

  A rectangle has a corner and a size in whole pixels, each a 64-bit word; sums
  of them are kept within the words. It holds the points from its corner up to,
  and without, the opposite sides.

  * `clampTo` is the part of a rectangle inside a frame, if there is any;
  * `contains` asks for a point whose coordinates are 32-bit numbers, so the
    sides are rounded to such numbers first.
-/
import Screenmark.Binary.Layout
import Screenmark.Word

namespace Screenmark

/-! ## Rectangles -/

/-- A rectangle in pixels of a frame. -/
structure Rect where
  x : Int
  y : Int
  width : Int
  height : Int
deriving DecidableEq

namespace Rect

/-- The rectangle of a whole frame. -/
def full (width height : Nat) : Rect := ⟨0, 0, width, height⟩

/-- A rectangle without pixels. -/
def isEmpty (r : Rect) : Bool := r.width ≤ 0 || r.height ≤ 0

/-- The first column right of the rectangle. -/
def right (r : Rect) : Int := saturate (r.x + r.width)

/-- The first row below the rectangle. -/
def bottom (r : Rect) : Int := saturate (r.y + r.height)

/-- The rectangle between two corners. -/
def between (x0 y0 x1 y1 : Int) : Rect := ⟨x0, y0, saturate (x1 - x0), saturate (y1 - y0)⟩

/-- The part of the rectangle inside a frame, if there is any. -/
def clampTo (r : Rect) (width height : Nat) : Option Rect :=
  let c := between (max r.x 0) (max r.y 0) (min r.right width) (min r.bottom height)
  if c.isEmpty then none else some c

/-- Whether a point lies inside the rectangle. -/
def contains (r : Rect) (x y : Single) : Bool :=
  (Binary.ofInt r.x).le x && (Binary.ofInt r.y).le y && x.lt (Binary.ofInt r.right) &&
    y.lt (Binary.ofInt r.bottom)

/-- The rectangle as shown. -/
def shown (r : Rect) : String :=
  "(" ++ toString r.x ++ ", " ++ toString r.y ++ ", " ++ toString r.width ++ "x" ++
    toString r.height ++ ")"

end Rect

end Screenmark
