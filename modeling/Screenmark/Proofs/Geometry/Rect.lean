/-
  Screenmark — the points of rectangles.

  A rectangle holds the points from its corner up to, and without, the opposite sides
  (`Rect.Holds`), which are reckoned without bounds here. What a frame and a rectangle have in
  common is a rectangle again, their *meet*.

  * `clampTo_eq` : the rectangle that is cut to a frame is the meet, although sums are kept
    within words on the way: a side that is moved by that lies outside of the frame before and
    after;
  * `isMeet_clampTo` : so it holds just the common points, and there is none just if there are
    no such points;
  * `isPart_of_clampTo` : its corner and its size are numbers of 32 bits.
-/
import Screenmark.Geometry.Rect

namespace Screenmark

/-- The number that the lowest 32 bits of a whole number make. -/
def Word.low32 (n : Int) : Nat := (n % bound32).toNat

theorem Word.low32_eq {n : Int} (h : 0 ≤ n) (hn : n < bound32) : (low32 n : Int) = n := by
  rw [low32, Int.emod_eq_of_lt h hn, Int.toNat_of_nonneg h]

namespace Rect

/-- A rectangle whose pixels all lie in a frame. -/
structure IsWithin (r : Rect) (width height : Nat) : Prop where
  left : 0 ≤ r.x
  top : 0 ≤ r.y
  right : r.x + r.width ≤ width
  bottom : r.y + r.height ≤ height

/-- A point lies in the rectangle. -/
def Holds (r : Rect) (x y : Int) : Prop :=
  r.x ≤ x ∧ x < r.x + r.width ∧ r.y ≤ y ∧ y < r.y + r.height

instance (r : Rect) (x y : Int) : Decidable (r.Holds x y) :=
  inferInstanceAs (Decidable (r.x ≤ x ∧ x < r.x + r.width ∧ r.y ≤ y ∧ y < r.y + r.height))

/-- A rectangle that can be cut out of a frame: it lies in the frame, has pixels, and its corner
    and its size stay the same as numbers of 32 bits. -/
structure IsPart (r : Rect) (width height : Nat) : Prop extends r.IsWithin width height where
  wide : 0 < r.width
  high : 0 < r.height
  low32 : ∀ n ∈ [r.x, r.y, r.width, r.height], (Word.low32 n : Int) = n

/-- What is left of a rectangle in a frame: the rectangle of the common points, if there are
    any. -/
structure IsMeet (r : Rect) (width height : Nat) (c : Option Rect) : Prop where
  none : c = none ↔ ∀ x y, ¬ (r.Holds x y ∧ (full width height).Holds x y)
  some : ∀ p, c = some p → ∀ x y, p.Holds x y ↔ r.Holds x y ∧ (full width height).Holds x y

variable {r c : Rect} {width height : Nat} {x y : Int}

/-! ## Pixels of a rectangle -/

theorem isEmpty_eq_true : r.isEmpty = true ↔ r.width ≤ 0 ∨ r.height ≤ 0 := by
  simp [isEmpty]

theorem pos_of_not_isEmpty (h : ¬ r.isEmpty = true) : 0 < r.width ∧ 0 < r.height := by
  simpa [isEmpty] using h

/-- A rectangle without pixels holds no point; any other one holds its corner. -/
theorem isEmpty_iff_forall : r.isEmpty = true ↔ ∀ x y, ¬ r.Holds x y := by
  constructor
  · intro h x y hxy
    rw [isEmpty_eq_true] at h
    unfold Holds at hxy
    omega
  · intro h
    by_cases hne : r.isEmpty = true
    · exact hne
    · have hpos := pos_of_not_isEmpty hne
      refine absurd ?_ (h r.x r.y)
      unfold Holds
      omega

/-! ## What a rectangle and a frame have in common -/

/-- The rectangle between the corners that a rectangle and a frame have in common. -/
def meet (r : Rect) (width height : Nat) : Rect :=
  ⟨max r.x 0, max r.y 0, min (r.x + r.width) width - max r.x 0,
    min (r.y + r.height) height - max r.y 0⟩

theorem holds_meet_iff :
    (r.meet width height).Holds x y ↔ r.Holds x y ∧ (full width height).Holds x y := by
  simp only [Holds, meet, full]
  omega

/-- On one axis, the part of a side in a frame has the length that it has without bounds, or
    both are empty. -/
theorem saturate_side (a n : Int) {size : Nat} (h : size < Word.bound32) :
    let side := saturate (min (saturate (a + n)) size - max a 0)
    let exact := min (a + n) size - max a 0
    side = exact ∨ side ≤ 0 ∧ exact ≤ 0 := by
  simp only [saturate, wordMin, wordMax, Word.bound32] at h ⊢
  omega

/-- **Nothing is lost by keeping sums within words.** -/
theorem clampTo_eq (r : Rect) (hwidth : width < Word.bound32) (hheight : height < Word.bound32) :
    r.clampTo width height =
      if (r.meet width height).isEmpty then none else some (r.meet width height) := by
  have hw := saturate_side r.x r.width hwidth
  have hh := saturate_side r.y r.height hheight
  dsimp only at hw hh
  simp only [clampTo, between, right, bottom, meet, isEmpty_eq_true]
  split
  · rw [if_pos (by omega)]
  · next hne =>
    rw [if_neg (by omega), Option.some.injEq, mk.injEq]
    omega

theorem clampTo_eq_some_iff (hwidth : width < Word.bound32) (hheight : height < Word.bound32) :
    r.clampTo width height = some c ↔ ¬ (r.meet width height).isEmpty = true ∧
      r.meet width height = c := by
  rw [clampTo_eq r hwidth hheight]
  split
  · next h => simp [h]
  · next h => simp [h]

/-- **The rectangle that is cut to a frame holds just the points that both hold**, and there is
    none just if they hold none together. -/
theorem isMeet_clampTo (r : Rect) (hwidth : width < Word.bound32)
    (hheight : height < Word.bound32) : r.IsMeet width height (r.clampTo width height) where
  none := by
    have hnone : r.clampTo width height = .none ↔ (r.meet width height).isEmpty = true := by
      rw [clampTo_eq r hwidth hheight, ite_eq_left_iff]
      simp
    rw [hnone, isEmpty_iff_forall]
    simp only [holds_meet_iff]
  some p hp x y := by
    obtain ⟨-, rfl⟩ := (clampTo_eq_some_iff hwidth hheight).1 hp
    exact holds_meet_iff

theorem isWithin_of_clampTo (h : r.clampTo width height = some c) : c.IsWithin width height := by
  unfold clampTo at h
  dsimp only at h
  split at h
  · cases h
  · next hne =>
    obtain rfl := Option.some.inj h
    have hpos := pos_of_not_isEmpty hne
    simp only [between, saturate, wordMin, wordMax] at hpos
    constructor <;> simp only [between, saturate, wordMin, wordMax] <;> omega

/-- **What is cut to a frame can be cut out of it.** -/
theorem isPart_of_clampTo (hwidth : width < Word.bound32) (hheight : height < Word.bound32)
    (h : r.clampTo width height = some c) : c.IsPart width height := by
  have hwithin := isWithin_of_clampTo h
  obtain ⟨hne, rfl⟩ := (clampTo_eq_some_iff hwidth hheight).1 h
  obtain ⟨hwide, hhigh⟩ := pos_of_not_isEmpty hne
  refine ⟨hwithin, hwide, hhigh, ?_⟩
  obtain ⟨hleft, htop, hright, hbottom⟩ := hwithin
  simp only [List.mem_cons, List.not_mem_nil, or_false]
  rintro n (rfl | rfl | rfl | rfl)
  · exact Word.low32_eq hleft (by omega)
  · exact Word.low32_eq htop (by omega)
  · exact Word.low32_eq (Int.le_of_lt hwide) (by omega)
  · exact Word.low32_eq (Int.le_of_lt hhigh) (by omega)

end Rect

end Screenmark
