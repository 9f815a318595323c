/-
  Screenmark — the parts of a frame beside anchors.

  A rule may look below an anchor, right of it, or between two of them. What such a part is
  meant to hold is told by `Beside.Holds`, where sides are reckoned without bounds. The search
  itself keeps the way from the near side of a part to its far side within words, so a part
  that begins further before the frame than a word reaches ends too early.

  * `Beside.isShare_cut_iff` : what is searched is just what the part and the frame share,
    unless the far side is not reached (`Beside.IsReached`);
  * `Beside.cut_swap` : it does not matter which of two anchors is named first;
  * `Target.region_of_seeks` : this is the region of a target whose rule names the anchors.
-/
import Screenmark.Proofs.Binary.Rounding
import Screenmark.Proofs.Scan.Region

namespace Screenmark

variable {width height : Nat}

/-! ## What is shared with a frame -/

/-- A rectangle holds just the points of the frame that have a property; there is none just if
    no point has it. -/
structure Rect.IsShare (P : Int → Int → Prop) (width height : Nat) (c : Option Rect) : Prop where
  none : c = none ↔ ∀ x y, ¬ (P x y ∧ (full width height).Holds x y)
  some : ∀ p, c = some p → ∀ x y, p.Holds x y ↔ P x y ∧ (full width height).Holds x y

namespace Rect

variable {P : Int → Int → Prop} {r : Rect}

/-- What is left of a rectangle in a frame is right if the rectangle itself is, as far as the
    frame goes. -/
theorem isShare_clampTo_iff (hwidth : width < Word.bound32) (hheight : height < Word.bound32) :
    IsShare P width height (r.clampTo width height) ↔
      ∀ x y, (full width height).Holds x y → (r.Holds x y ↔ P x y) := by
  have hmeet := isMeet_clampTo r hwidth hheight
  constructor
  · intro hshare x y hframe
    rcases hclamp : r.clampTo width height with _ | p
    · exact iff_of_false (fun h => hmeet.none.1 hclamp x y ⟨h, hframe⟩)
        fun h => hshare.none.1 hclamp x y ⟨h, hframe⟩
    · have hboth := (hmeet.some p hclamp x y).symm.trans (hshare.some p hclamp x y)
      rwa [and_iff_left hframe, and_iff_left hframe] at hboth
  · intro h
    have hboth : ∀ x y, r.Holds x y ∧ (full width height).Holds x y ↔
        P x y ∧ (full width height).Holds x y := fun x y =>
      and_congr_left fun hframe => h x y hframe
    exact ⟨hmeet.none.trans (forall_congr' fun x => forall_congr' fun y => not_congr (hboth x y)),
      fun p hp x y => (hmeet.some p hp x y).trans (hboth x y)⟩

/-- A rectangle as the place and the size of a template give it: a corner of two words, and a
    size of two numbers of 32 bits. -/
structure IsAnchor (a : Rect) : Prop where
  left : wordMin ≤ a.x ∧ a.x ≤ wordMax
  top : wordMin ≤ a.y ∧ a.y ≤ wordMax
  wide : 0 ≤ a.width ∧ a.width < Word.bound32
  high : 0 ≤ a.height ∧ a.height < Word.bound32

end Rect

/-! ## Parts beside anchors -/

/-- A part of a frame that is told by anchors. -/
inductive Beside where
  | below (a : Rect)
  | rightOf (a : Rect)
  | between (a b : Rect)

namespace Beside

/-- The anchors that tell the part. -/
def anchors : Beside → List Rect
  | .below a | .rightOf a => [a]
  | .between a b => [a, b]

/-- The left one of two anchors, and the other. -/
def inOrder (a b : Rect) : Rect × Rect := if a.x ≤ b.x then (a, b) else (b, a)

/-- The points of the part, where no sum is kept within words. -/
def Holds (x y : Int) : Beside → Prop
  | .below a => a.x ≤ x ∧ x < a.x + a.width ∧ a.y + a.height ≤ y
  | .rightOf a => a.x + a.width ≤ x ∧ a.y ≤ y ∧ y < a.y + a.height
  | .between a b =>
    let (l, r) := inOrder a b
    l.x + l.width ≤ x ∧ x < r.x ∧ max l.y r.y ≤ y ∧ y < min (l.y + l.height) (r.y + r.height)

/-- The part with its anchors named the other way round. -/
def swap : Beside → Beside
  | .between a b => .between b a
  | p => p

/-- The rectangle that is searched, before it is cut to the frame. -/
def rect (width height : Nat) : Beside → Rect
  | .below a => Region.below height a
  | .rightOf a => Region.rightOf width a
  | .between a b => Region.between a b

/-- The rectangle that is searched, if any of it lies in the frame. -/
def cut (p : Beside) (width height : Nat) : Option Rect := (p.rect width height).clampTo width height

/-! ## Far sides -/

/-- The far side, as far as the frame goes, is no further from the near one than a word
    reaches. -/
def Reaches (near far : Int) (size : Nat) : Prop := min far size ≤ max (near + wordMax) 0

/-- Some of the pixels from the near side to the far one lie in the frame. -/
def Meets (near far : Int) (size : Nat) : Prop := max near 0 < min far size

instance (near far : Int) (size : Nat) : Decidable (Reaches near far size) :=
  inferInstanceAs (Decidable (_ ≤ _))

instance (near far : Int) (size : Nat) : Decidable (Meets near far size) :=
  inferInstanceAs (Decidable (_ < _))

/-- The far side of the part is reached, or no pixel of the frame lies between the other two
    sides, so that it is not looked for. -/
def IsReached (width height : Nat) : Beside → Prop
  | .below a =>
    Meets a.x (a.x + a.width) width → Reaches (a.y + a.height) height height
  | .rightOf a =>
    Meets a.y (a.y + a.height) height → Reaches (a.x + a.width) width width
  | .between a b =>
    let (l, r) := inOrder a b
    Meets (max l.y r.y) (min (l.y + l.height) (r.y + r.height)) height →
      Reaches (l.x + l.width) r.x width

instance (p : Beside) : Decidable (p.IsReached width height) := by
  cases p <;> unfold IsReached <;> infer_instance

variable {p : Beside} {a b : Rect} {near far x y : Int} {size : Nat}

theorem meets_iff :
    Meets near far size ↔ ∃ x, (0 ≤ x ∧ x < (size : Int)) ∧ near ≤ x ∧ x < far := by
  unfold Meets
  constructor
  · intro h
    exact ⟨max near 0, by omega⟩
  · rintro ⟨x, hx⟩
    omega

theorem reaches_iff : Reaches near far size ↔
    ∀ x, (0 ≤ x ∧ x < (size : Int)) → near ≤ x ∧ x < far → x < near + wordMax := by
  unfold Reaches
  constructor
  · intro h x hx hside
    omega
  · intro h
    -- The first pixel of the frame that a word does not reach is the one to ask for.
    have hmax : 0 ≤ wordMax := by decide
    have hfirst := h (max (near + wordMax) 0)
    omega

/-- A side that is no word lies behind the frame, so only a way that is longer than a word
    reaches makes a difference. -/
theorem holds_side_iff (near far : Int) (hnear : wordMin ≤ near) (hfar : far ≤ wordMax)
    (hsize : size < Word.bound32) (hx : 0 ≤ x ∧ x < size) :
    saturate near ≤ x ∧ x < saturate near + saturate (far - saturate near) ↔
      (near ≤ x ∧ x < far) ∧ x < near + wordMax := by
  simp only [saturate, wordMin, wordMax, Word.bound32] at *
  omega

/-! ## What is searched -/

/-- The points that a word reaches from the near side of the part. -/
def IsNear (x y : Int) : Beside → Prop
  | .below a => y < a.y + a.height + wordMax
  | .rightOf a => x < a.x + a.width + wordMax
  | .between a b => x < (inOrder a b).1.x + (inOrder a b).1.width + wordMax

theorem isAnchor_inOrder (ha : a.IsAnchor) (hb : b.IsAnchor) :
    (inOrder a b).1.IsAnchor ∧ (inOrder a b).2.IsAnchor := by
  unfold inOrder
  split
  · exact ⟨ha, hb⟩
  · exact ⟨hb, ha⟩

theorem rect_between : (between a b).rect width height =
    Rect.between (inOrder a b).1.right (max (inOrder a b).1.y (inOrder a b).2.y)
      (inOrder a b).2.x (min (inOrder a b).1.bottom (inOrder a b).2.bottom) := rfl

/-- The rectangle that is searched holds the points of the part that a word reaches. -/
theorem holds_rect_iff (hwidth : width < Word.bound32) (hheight : height < Word.bound32)
    (hp : ∀ a ∈ p.anchors, a.IsAnchor) (hframe : (Rect.full width height).Holds x y) :
    (p.rect width height).Holds x y ↔ p.Holds x y ∧ p.IsNear x y := by
  obtain ⟨hx, hxw, hy, hyh⟩ := hframe
  simp only [Rect.full, Int.zero_add] at hx hxw hy hyh
  have hword : ∀ size : Nat, size < Word.bound32 → (size : Int) ≤ wordMax := fun size hsize => by
    simp only [Word.bound32, wordMax] at hsize ⊢
    omega
  cases p with
  | below a =>
    obtain ⟨hleft, htop, hwide, hhigh⟩ := hp a (by simp [anchors])
    have hside := holds_side_iff (a.y + a.height) height (by omega) (hword _ hheight) hheight
      ⟨hy, hyh⟩
    simp only [rect, Region.below, Rect.bottom, Rect.Holds, Holds, IsNear]
    omega
  | rightOf a =>
    obtain ⟨hleft, htop, hwide, hhigh⟩ := hp a (by simp [anchors])
    have hside := holds_side_iff (a.x + a.width) width (by omega) (hword _ hwidth) hwidth
      ⟨hx, hxw⟩
    simp only [rect, Region.rightOf, Rect.right, Rect.Holds, Holds, IsNear]
    omega
  | between a b =>
    have hboth := isAnchor_inOrder (hp a (by simp [anchors])) (hp b (by simp [anchors]))
    rw [rect_between]
    simp only [Holds, IsNear]
    generalize (inOrder a b).1 = l, (inOrder a b).2 = r at hboth ⊢
    obtain ⟨⟨hleft, htop, hwide, hhigh⟩, ⟨hleft', htop', hwide', hhigh'⟩⟩ := hboth
    have hside := holds_side_iff (l.x + l.width) r.x (by omega) hleft'.2 hwidth ⟨hx, hxw⟩
    have hrows : max l.y r.y ≤ y ∧
        y < max l.y r.y + saturate (min l.bottom r.bottom - max l.y r.y) ↔
          max l.y r.y ≤ y ∧ y < min (l.y + l.height) (r.y + r.height) := by
      simp only [Rect.bottom, saturate, wordMin, wordMax, Word.bound32] at *
      omega
    simp only [Rect.between, Rect.right, Rect.Holds] at hside ⊢
    omega

/-- The points of the frame in the part are all near just if the far side is reached. -/
theorem isReached_iff : p.IsReached width height ↔
    ∀ x y, (Rect.full width height).Holds x y → p.Holds x y → p.IsNear x y := by
  cases p with
  | below a =>
    simp only [IsReached, meets_iff, reaches_iff, Rect.full, Rect.Holds, Holds, IsNear]
    constructor
    · intro h x y hframe hholds
      exact h ⟨x, by omega⟩ y (by omega) (by omega)
    · rintro h ⟨x, hx⟩ y hy hside
      exact h x y (by omega) (by omega)
  | rightOf a =>
    simp only [IsReached, meets_iff, reaches_iff, Rect.full, Rect.Holds, Holds, IsNear]
    constructor
    · intro h x y hframe hholds
      exact h ⟨y, by omega⟩ x (by omega) (by omega)
    · rintro h ⟨y, hy⟩ x hx hside
      exact h x y (by omega) (by omega)
  | between a b =>
    simp only [IsReached, meets_iff, reaches_iff, Rect.full, Rect.Holds, Holds, IsNear]
    constructor
    · intro h x y hframe hholds
      exact h ⟨y, by omega⟩ x (by omega) (by omega)
    · rintro h ⟨y, hy⟩ x hx hside
      exact h x y (by omega) (by omega)

/-- Only an anchor that is almost as far before the frame as a word reaches can have a far side
    that is not reached. -/
theorem isReached_of_le (hwidth : width < Word.bound32) (hheight : height < Word.bound32)
    (hp : ∀ a ∈ p.anchors, a.IsAnchor ∧ wordMin + Word.bound32 ≤ min a.x a.y) :
    p.IsReached width height := by
  rw [isReached_iff]
  rintro x y ⟨-, hx, -, hy⟩ -
  simp only [Rect.full, Int.zero_add] at hx hy
  have hnear : ∀ a ∈ p.anchors, y < a.y + a.height + wordMax ∧ x < a.x + a.width + wordMax := by
    intro a ha
    obtain ⟨⟨-, -, hwide, hhigh⟩, hfar⟩ := hp a ha
    simp only [wordMin, wordMax, Word.bound32] at *
    omega
  cases p with
  | below a => exact (hnear a (by simp [anchors])).1
  | rightOf a => exact (hnear a (by simp [anchors])).2
  | between a b =>
    simp only [IsNear, inOrder]
    split
    · exact (hnear a (by simp [anchors])).2
    · exact (hnear b (by simp [anchors])).2

/-- **What is searched is what the part and the frame share**, as long as the far side of the
    part is reached. -/
theorem isShare_cut_iff (hwidth : width < Word.bound32) (hheight : height < Word.bound32)
    (hp : ∀ a ∈ p.anchors, a.IsAnchor) :
    Rect.IsShare (p.Holds · ·) width height (p.cut width height) ↔ p.IsReached width height := by
  rw [cut, Rect.isShare_clampTo_iff hwidth hheight, isReached_iff]
  refine forall_congr' fun x => forall_congr' fun y => forall_congr' fun hframe => ?_
  rw [holds_rect_iff hwidth hheight hp hframe, and_iff_left_iff_imp]

/-- Between two anchors that begin in one column there is nothing. -/
theorem cut_between_of_eq (hwidth : width < Word.bound32) (hheight : height < Word.bound32)
    (ha : a.IsAnchor) (h : a.x = b.x) : (between a b).cut width height = none := by
  refine (Rect.isMeet_clampTo _ hwidth hheight).none.2 fun x y hholds => ?_
  have horder : inOrder a b = (a, b) := if_pos (Int.le_of_eq h)
  have hleft := ha.left
  have hwide := ha.wide
  rw [rect_between, horder] at hholds
  simp only [Rect.between, Rect.right, Rect.Holds, saturate, wordMin, wordMax] at hholds hleft
  omega

/-- **Two anchors may be named in either order.** -/
theorem cut_swap (hwidth : width < Word.bound32) (hheight : height < Word.bound32)
    (hp : ∀ a ∈ p.anchors, a.IsAnchor) : p.swap.cut width height = p.cut width height := by
  cases p with
  | below a => rfl
  | rightOf a => rfl
  | between a b =>
    rcases Int.lt_trichotomy a.x b.x with hlt | heq | hgt
    · have horder : inOrder b a = inOrder a b := by
        rw [inOrder, inOrder, if_neg (by omega), if_pos (by omega)]
      rw [swap, cut, cut, rect_between, rect_between, horder]
    · rw [swap, cut_between_of_eq hwidth hheight (hp a (by simp [anchors])) heq,
        cut_between_of_eq hwidth hheight (hp b (by simp [anchors])) heq.symm]
    · have horder : inOrder b a = inOrder a b := by
        rw [inOrder, inOrder, if_pos (by omega), if_neg (by omega)]
      rw [swap, cut, cut, rect_between, rect_between, horder]

end Beside

/-! ## Regions of targets -/

theorem Region.isAnchor_anchorAt {w h : Nat} (x y : Single) (hw : w < Word.bound32)
    (hh : h < Word.bound32) : (anchorAt x y w h).IsAnchor := by
  have hword : ∀ z : Single,
      wordMin ≤ z.roundWithin wordMin wordMax ∧ z.roundWithin wordMin wordMax ≤ wordMax :=
    Binary.roundWithin_mem (by decide)
  exact ⟨hword x, hword y, by simp only [anchorAt]; omega, by simp only [anchorAt]; omega⟩

namespace Target

variable {t : Target} {ts : Tracks} {frame : Nat} {p : Beside}

/-- A track has the rectangle as its template at a frame; the size of a template is told by
    numbers of 32 bits. -/
def IsAnchored (ts : Tracks) (frame : Nat) (name : String) (a : Rect) : Prop :=
  ∃ track size, ts.find? name = some track ∧ track.template = some size ∧
    size.1 < Word.bound32 ∧ size.2 < Word.bound32 ∧
    a = Region.anchorAt (track.positionAt frame).1 (track.positionAt frame).2 size.1 size.2

/-- The rule of the target says to look in the part beside the anchors that it names. -/
inductive Seeks (t : Target) (ts : Tracks) (frame : Nat) : Beside → Prop
  | below {r : Rule} {d : String} {ds : List String} {a : Rect} (rule : t.rule = some r)
      (test : r.test = some .below) (dependencies : r.dependencies = d :: ds)
      (anchored : IsAnchored ts frame d a) : Seeks t ts frame (.below a)
  | rightOf {r : Rule} {d : String} {ds : List String} {a : Rect} (rule : t.rule = some r)
      (test : r.test = some .rightOf) (dependencies : r.dependencies = d :: ds)
      (anchored : IsAnchored ts frame d a) : Seeks t ts frame (.rightOf a)
  | between {r : Rule} {d e : String} {ds : List String} {a b : Rect} (rule : t.rule = some r)
      (test : r.test = some .between) (dependencies : r.dependencies = d :: e :: ds)
      (first : IsAnchored ts frame d a) (second : IsAnchored ts frame e b) :
      Seeks t ts frame (.between a b)

theorem anchor_of_isAnchored {name : String} {a : Rect} (h : IsAnchored ts frame name a) :
    t.anchor ts frame name = .ok a := by
  obtain ⟨track, size, hfind, htemplate, -, -, rfl⟩ := h
  rw [anchor, hfind]
  dsimp only
  rw [htemplate]

theorem isAnchor_of_isAnchored {name : String} {a : Rect} (h : IsAnchored ts frame name a) :
    a.IsAnchor := by
  obtain ⟨track, size, -, -, hw, hh, rfl⟩ := h
  exact Region.isAnchor_anchorAt _ _ hw hh

theorem isAnchor_of_seeks (h : t.Seeks ts frame p) : ∀ a ∈ p.anchors, a.IsAnchor := by
  cases h with
  | below _ _ _ ha => simpa [Beside.anchors] using isAnchor_of_isAnchored ha
  | rightOf _ _ _ ha => simpa [Beside.anchors] using isAnchor_of_isAnchored ha
  | between _ _ _ ha hb =>
    simpa [Beside.anchors] using ⟨isAnchor_of_isAnchored ha, isAnchor_of_isAnchored hb⟩

/-- **A target is looked for in the part that its rule tells**, cut to the frame. -/
theorem region_of_seeks (h : t.Seeks ts frame p) (width height : Nat) :
    t.region ts frame width height = .ok (p.cut width height) := by
  cases h with
  | below hrule htest hds ha =>
    rw [region, wholeRegion, hrule]
    dsimp only
    rw [htest, hds]
    dsimp only
    rw [anchor_of_isAnchored ha]
    rfl
  | rightOf hrule htest hds ha =>
    rw [region, wholeRegion, hrule]
    dsimp only
    rw [htest, hds]
    dsimp only
    rw [anchor_of_isAnchored ha]
    rfl
  | between hrule htest hds ha hb =>
    rw [region, wholeRegion, hrule]
    dsimp only
    rw [htest, hds]
    dsimp only
    rw [anchor_of_isAnchored ha, anchor_of_isAnchored hb]
    rfl

end Target

/-- **Regions beside anchors are exact, up to the reach of a word.** Wherever the anchors of a
    part are, what is searched is just what the part and the frame share iff the far side of
    the part is reached; and two anchors may be named in either order. A target whose rule
    names anchors is looked for in that region. -/
theorem Region.isShare_iff_isReached (hwidth : width < Word.bound32)
    (hheight : height < Word.bound32) :
    (∀ p : Beside, (∀ a ∈ p.anchors, a.IsAnchor) →
        (Rect.IsShare (p.Holds · ·) width height (p.cut width height) ↔
            p.IsReached width height) ∧
          p.swap.cut width height = p.cut width height) ∧
      ∀ (t : Target) (ts : Tracks) (frame : Nat) (p : Beside), t.Seeks ts frame p →
        t.region ts frame width height = .ok (p.cut width height) ∧
          ∀ a ∈ p.anchors, a.IsAnchor :=
  ⟨fun _ hp => ⟨Beside.isShare_cut_iff hwidth hheight hp, Beside.cut_swap hwidth hheight hp⟩,
    fun _ _ _ _ h => ⟨Target.region_of_seeks h width height, Target.isAnchor_of_seeks h⟩⟩

/-- A text that is read below, right of or between the templates `menu` and `dock`. -/
def captionBeside (test : Test) (names : List String) : Target :=
  ⟨"caption", .detectText, some ⟨"", .extraction, none, some test, names, .detectText,
    ["caption"]⟩⟩

/-- The templates `menu`, three pixels wide and two high, and `dock`, one wide and four high,
    found at one frame. -/
def menuAndDock (menuX menuY dockX dockY : Single) : Tracks :=
  ((Tracks.empty .zero).insert "menu"
    ⟨.numbers #[.one], #[menuX], #[menuY], .extracted, some (3, 2)⟩).insert "dock"
    ⟨.numbers #[.one], #[dockX], #[dockY], .extracted, some (1, 4)⟩

/-- Between a menu at the left and a dock at the right, whichever of them is named first. -/
theorem Region.isShare_of_menuAndDock :
    (captionBeside .between ["dock", "menu"]).region
        (menuAndDock .zero .one (.ofNat 7) .zero) 0 8 8 = .ok (some ⟨3, 1, 4, 2⟩) ∧
      Rect.IsShare ((Beside.between ⟨7, 0, 1, 4⟩ ⟨0, 1, 3, 2⟩).Holds · ·) 8 8
        (some ⟨3, 1, 4, 2⟩) ∧
      (Beside.between ⟨0, 1, 3, 2⟩ ⟨7, 0, 1, 4⟩).cut 8 8 = some ⟨3, 1, 4, 2⟩ := by
  have hexact := @Region.isShare_iff_isReached 8 8 (by decide) (by decide)
  have hseeks : (captionBeside .between ["dock", "menu"]).Seeks
      (menuAndDock .zero .one (.ofNat 7) .zero) 0 (.between ⟨7, 0, 1, 4⟩ ⟨0, 1, 3, 2⟩) := by
    refine .between rfl rfl rfl ⟨_, (1, 4), rfl, rfl, by decide, by decide, ?_⟩
      ⟨_, (3, 2), rfl, rfl, by decide, by decide, ?_⟩
    · decide +kernel
    · decide +kernel
  obtain ⟨hregion, hanchors⟩ := hexact.2 _ _ _ _ hseeks
  obtain ⟨hshare, hswap⟩ := hexact.1 _ hanchors
  have hcut : (Beside.between ⟨7, 0, 1, 4⟩ ⟨0, 1, 3, 2⟩).cut 8 8 = some ⟨3, 1, 4, 2⟩ := by decide
  rw [hcut] at hregion hshare hswap
  exact ⟨hregion, hshare.2 (by decide), hswap⟩

/-- Below a menu that is infinitely far above the frame lies all of its three columns, but only
    their first row is searched. -/
theorem Region.not_isShare_of_farMenu :
    (captionBeside .below ["menu"]).Seeks
        (menuAndDock (.ofNat 2) (.inf true) .zero .zero) 0 (.below ⟨2, wordMin, 3, 2⟩) ∧
      (captionBeside .below ["menu"]).region
        (menuAndDock (.ofNat 2) (.inf true) .zero .zero) 0 8 8 = .ok (some ⟨2, 0, 3, 1⟩) ∧
      ¬ Rect.IsShare ((Beside.below ⟨2, wordMin, 3, 2⟩).Holds · ·) 8 8 (some ⟨2, 0, 3, 1⟩) := by
  have hseeks : (captionBeside .below ["menu"]).Seeks
      (menuAndDock (.ofNat 2) (.inf true) .zero .zero) 0 (.below ⟨2, wordMin, 3, 2⟩) := by
    refine .below rfl rfl rfl ⟨_, (3, 2), rfl, rfl, by decide, by decide, ?_⟩
    decide +kernel
  have hcut : (Beside.below ⟨2, wordMin, 3, 2⟩).cut 8 8 = some ⟨2, 0, 3, 1⟩ := by decide
  refine ⟨hseeks, hcut ▸ Target.region_of_seeks hseeks 8 8, fun hshare => ?_⟩
  -- The pixel in the second row lies below the menu and is not searched.
  have hsecond := (hshare.some _ rfl 2 1).2 ⟨by simp only [Beside.Holds]; decide, by decide⟩
  exact absurd hsecond (by decide)

end Screenmark
