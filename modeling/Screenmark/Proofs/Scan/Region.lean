/-
  Screenmark — the parts of a frame in which targets are looked for.

  Wherever the test of a rule says to look, the region of a target is cut to the frame before
  an image is cut to the region. So a region that is used can be cut out of the frame
  (`Target.isPart_of_region`), and what is cut out is as large as the region and holds just
  the pixels of the frame that lie in it (`Raster.isCut_crop`).
-/
import Screenmark.Image.Raster
import Screenmark.Proofs.Geometry.Rect
import Screenmark.Scan.Region

namespace Screenmark

variable {width height : Nat} {region : Rect}

/-! ## Parts of an image -/

namespace Raster

variable {α : Type} {image part : Raster α} {x y : Nat}

theorem isSome_pixel? (hx : x < image.width) (hy : y < image.height) :
    (image.pixel? x y).isSome = true := by
  have hrow : (y + 1) * image.width ≤ image.height * image.width := Nat.mul_le_mul_right _ hy
  rw [Nat.add_mul, Nat.one_mul] at hrow
  have hlt : y * image.width + x < image.pixels.size := by
    rw [image.size_eq, Nat.mul_comm image.width]
    omega
  rw [pixel?, if_pos ⟨hx, hy⟩, Array.getElem?_eq_getElem hlt]
  rfl

/-- The part of an image in a region, where the corner and the size of the region are taken as
    numbers of 32 bits. -/
structure IsCut (part image : Raster α) (region : Rect) : Prop where
  width : part.width = Word.low32 region.width
  height : part.height = Word.low32 region.height
  pixel : ∀ x y, x < part.width → y < part.height →
    ∃ p, part.pixel? x y = some p ∧
      image.pixel? (x + Word.low32 region.x) (y + Word.low32 region.y) = some p

/-- **A part that can be cut out of an image is cut out of it**: no pixel of it lies outside. -/
theorem isCut_crop [Inhabited α] (h : region.IsPart image.width image.height) :
    (image.crop region).IsCut image region := by
  obtain ⟨hleft, htop, hright, hbottom⟩ := h.toIsWithin
  have hlow : ∀ n ∈ [region.x, region.y, region.width, region.height],
      Word.low32 n = n.toNat := fun n hn => by
    have := h.low32 n hn
    omega
  refine ⟨(hlow _ (by simp)).symm, (hlow _ (by simp)).symm, fun x y hx hy => ?_⟩
  rw [hlow region.x (by simp), hlow region.y (by simp), pixel?_crop, if_pos ⟨hx, hy⟩]
  have hx : x < region.width.toNat := hx
  have hy : y < region.height.toNat := hy
  have hinside : (image.pixel? (x + region.x.toNat) (y + region.y.toNat)).isSome = true :=
    isSome_pixel? (by omega) (by omega)
  obtain ⟨p, hp⟩ := Option.isSome_iff_exists.1 hinside
  exact ⟨p, by rw [hp]; rfl, hp⟩

end Raster

/-! ## Regions of targets -/

namespace Target

variable {t : Target} {ts : Tracks} {frame : Nat}

/-- The region of a target is some rectangle cut to the frame. -/
theorem exists_of_region (h : t.region ts frame width height = .ok (some region)) :
    ∃ r : Rect, r.clampTo width height = some region := by
  unfold Target.region at h
  rcases hw : t.wholeRegion ts frame width height with e | r
  · rw [hw] at h
    cases h
  · rw [hw] at h
    exact ⟨r, Except.ok.inj h⟩

theorem isWithin_of_region (h : t.region ts frame width height = .ok (some region)) :
    region.IsWithin width height := by
  obtain ⟨r, hr⟩ := exists_of_region h
  exact Rect.isWithin_of_clampTo hr

theorem isPart_of_region (hwidth : width < Word.bound32) (hheight : height < Word.bound32)
    (h : t.region ts frame width height = .ok (some region)) : region.IsPart width height := by
  obtain ⟨r, hr⟩ := exists_of_region h
  exact Rect.isPart_of_clampTo hwidth hheight hr

end Target

/-- **Cutting to a frame is exact**: a rectangle of whatever corner and size is cut to what it
    has in common with the frame. So every region in which a target is looked for can be cut
    out of the image of the frame. -/
theorem Region.isMeet_and_isCut (hwidth : width < Word.bound32) (hheight : height < Word.bound32) :
    (∀ r : Rect, r.IsMeet width height (r.clampTo width height)) ∧
      ∀ (t : Target) (ts : Tracks) (frame : Nat) (region : Rect),
        t.region ts frame width height = .ok (some region) →
          region.IsPart width height ∧
            ∀ image : GreyImage, image.width = width → image.height = height →
              (image.crop region).IsCut image region := by
  refine ⟨fun r => Rect.isMeet_clampTo r hwidth hheight, fun t ts frame region h => ?_⟩
  have hpart := Target.isPart_of_region hwidth hheight h
  refine ⟨hpart, ?_⟩
  rintro image rfl rfl
  exact Raster.isCut_crop hpart

/-- A heading that is read in a region which starts left of the frame and ends below it. -/
def headingInCorner : Target :=
  ⟨"heading", .detectText, some ⟨"inrect(-10,2,12,9223372036854775807)\x7bdetectText(heading)\x7d",
    .extraction, none, some .inRect, ["-10", "2", "12", "9223372036854775807"], .detectText,
    ["heading"]⟩⟩

/-- Its lower side is not a word, and yet the region is what lies in the frame. -/
theorem Region.isMeet_and_isCut_of_headingInCorner :
    headingInCorner.region (.empty .zero) 0 4 3 = .ok (some ⟨0, 2, 2, 1⟩) ∧
      (⟨0, 2, 2, 1⟩ : Rect).IsPart 4 3 ∧
      (⟨-10, 2, 12, wordMax⟩ : Rect).IsMeet 4 3 (some ⟨0, 2, 2, 1⟩) := by
  have hregion : headingInCorner.region (.empty .zero) 0 4 3 = .ok (some ⟨0, 2, 2, 1⟩) := rfl
  have hexact := @Region.isMeet_and_isCut 4 3 (by decide) (by decide)
  exact ⟨hregion, (hexact.2 _ _ _ _ hregion).1, hexact.1 ⟨-10, 2, 12, wordMax⟩⟩

end Screenmark
