/-
  Screenmark — images.

  A raster is a grid of pixels, row by row. A frame has coloured pixels;
  templates are looked for, and text is read, in grey ones.

  * `pixel?` is the view of a raster: `pixel?_ofFn` and `pixel?_crop` say what is
    where;
  * `brightness` weighs the three channels of a pixel; frames are made grey by
    `grey`, pictures in files by `nearestGrey`;
  * `blackAndWhite` separates ink from background at middle grey.
-/
import Screenmark.Geometry.Rect

namespace Screenmark

/-- A grid of pixels, row by row. -/
structure Raster (α : Type) where
  width : Nat
  height : Nat
  pixels : Array α
  size_eq : pixels.size = width * height

namespace Raster

variable {α β : Type}

/-- The raster whose pixel in column `x` and row `y` is `f x y`. -/
def ofFn (width height : Nat) (f : Nat → Nat → α) : Raster α :=
  ⟨width, height, Array.ofFn fun i : Fin (width * height) => f (i % width) (i / width), by simp⟩

/-- The pixel in column `x` and row `y`. -/
def pixel? (r : Raster α) (x y : Nat) : Option α :=
  if x < r.width ∧ y < r.height then r.pixels[y * r.width + x]? else none

/-- The raster with every pixel changed by `f`. -/
def map (f : α → β) (r : Raster α) : Raster β :=
  ⟨r.width, r.height, r.pixels.map f, by simp [r.size_eq]⟩

/-- The part of a raster in a rectangle; pixels that it does not have are
    `default`. -/
def crop [Inhabited α] (r : Raster α) (region : Rect) : Raster α :=
  ofFn region.width.toNat region.height.toNat fun x y =>
    (r.pixel? (x + region.x.toNat) (y + region.y.toNat)).getD default

instance [DecidableEq α] : DecidableEq (Raster α) := fun r s =>
  if h : r.width = s.width ∧ r.height = s.height ∧ r.pixels = s.pixels then
    .isTrue (by cases r; cases s; simp_all)
  else .isFalse fun e => h (e ▸ ⟨rfl, rfl, rfl⟩)

/-! ## Lemmas -/

@[simp] theorem width_ofFn (width height : Nat) (f : Nat → Nat → α) :
    (ofFn width height f).width = width := rfl

@[simp] theorem height_ofFn (width height : Nat) (f : Nat → Nat → α) :
    (ofFn width height f).height = height := rfl

theorem pixel?_ofFn (width height : Nat) (f : Nat → Nat → α) (x y : Nat) :
    (ofFn width height f).pixel? x y = if x < width ∧ y < height then some (f x y) else none := by
  change (if x < width ∧ y < height then (ofFn width height f).pixels[y * width + x]? else none) = _
  by_cases h : x < width ∧ y < height
  · rw [if_pos h, if_pos h]
    obtain ⟨hx, hy⟩ := h
    have hlt : y * width + x < width * height := by
      have : (y + 1) * width ≤ height * width := Nat.mul_le_mul_right _ hy
      rw [Nat.add_mul] at this
      rw [Nat.mul_comm width height]
      omega
    have hmod : (y * width + x) % width = x := by
      rw [Nat.mul_comm, Nat.mul_add_mod, Nat.mod_eq_of_lt hx]
    have hdiv : (y * width + x) / width = y := by
      rw [Nat.mul_comm, Nat.mul_add_div (by omega), Nat.div_eq_of_lt hx, Nat.add_zero]
    simp [ofFn, hlt, hmod, hdiv]
  · rw [if_neg h, if_neg h]

/-- A pixel of a part is the pixel of the whole at the place moved by the corner
    of the rectangle. -/
theorem pixel?_crop [Inhabited α] (r : Raster α) (region : Rect) (x y : Nat) :
    (r.crop region).pixel? x y =
      if x < region.width.toNat ∧ y < region.height.toNat then
        some ((r.pixel? (x + region.x.toNat) (y + region.y.toNat)).getD default)
      else none := pixel?_ofFn ..

end Raster

/-! ## Pixels -/

/-- A coloured pixel. -/
structure Colour where
  red : UInt8
  green : UInt8
  blue : UInt8
deriving DecidableEq

instance : Inhabited Colour := ⟨⟨0, 0, 0⟩⟩

/-- How bright a pixel appears, in ten-thousandths of a grey level. -/
def Colour.brightness (c : Colour) : Nat :=
  2126 * c.red.toNat + 7152 * c.green.toNat + 722 * c.blue.toNat

/-- The grey of a pixel of a frame: the level that its brightness reaches. -/
def Colour.grey (c : Colour) : UInt8 := UInt8.ofNat (c.brightness / 10000)

/-- The grey of a pixel of a file: the level nearest to its brightness. -/
def Colour.nearestGrey (c : Colour) : UInt8 := UInt8.ofNat ((c.brightness + 5000) / 10000)

/-- The pixel of a grey. -/
def Colour.ofGrey (g : UInt8) : Colour := ⟨g, g, g⟩

/-- A grey image. -/
abbrev GreyImage := Raster UInt8

/-- A coloured image. -/
abbrev ColourImage := Raster Colour

/-- The greys of a coloured image. -/
def ColourImage.grey (r : ColourImage) : GreyImage := Raster.map Colour.grey r

/-- The grey up to which a pixel counts as ink. -/
def inkLevel : UInt8 := 127

/-- The image with every pixel made black or white. -/
def GreyImage.blackAndWhite (r : GreyImage) : GreyImage :=
  Raster.map (fun g => if inkLevel < g then 255 else 0) r

/-- An image as it is kept in a file. -/
inductive Picture where
  | grey (image : GreyImage)
  | colour (image : ColourImage)
deriving DecidableEq

namespace Picture

/-- The greys of a picture. -/
def toGrey : Picture → GreyImage
  | .grey r => r
  | .colour r => Raster.map Colour.nearestGrey r

/-- The colours of a picture. -/
def toColour : Picture → ColourImage
  | .grey r => Raster.map Colour.ofGrey r
  | .colour r => r

/-- The width and height of a picture. -/
def size : Picture → Nat × Nat
  | .grey r => (r.width, r.height)
  | .colour r => (r.width, r.height)

end Picture

end Screenmark
