/-
  Screenmark — numbers of one format as numbers of another.

  A format lies within another one that has a finer unit, more significant bits and a bound
  that is no lower. Then each of its numbers is a number of the other (`convert_finite`), and
  they stay in order (`convert_lt_iff`): a number of 32 bits is compared with the threshold
  the same way after it became one of 64 bits (`toDouble_lt_iff`).
-/
import Screenmark.Proofs.Binary.Rounding

namespace Screenmark

/-! ## Formats within formats -/

namespace Format

variable {f g : Format} {n : Nat}

/-- Every number of the format is one of the other format. -/
structure IsWithin (f g : Format) : Prop where
  scale : f.scale ≤ g.scale
  precision : f.precision ≤ g.precision
  bound : f.bound + (g.scale - f.scale) ≤ g.bound

theorem single_isWithin_double : single.IsWithin double :=
  ⟨by decide, by decide, by decide⟩

/-- How many units of the other format a unit is. -/
def ratio (f g : Format) : Nat := Nat.pow 2 (g.scale - f.scale)

theorem ratio_pos (f g : Format) : 0 < f.ratio g := Nat.two_pow_pos _

theorem IsWithin.fits (h : f.IsWithin g) (hn : f.Fits n) : g.Fits (n * f.ratio g) := by
  refine ⟨?_, Nat.mod_eq_zero_of_dvd ?_⟩
  · calc n * f.ratio g < Nat.pow 2 f.bound * Nat.pow 2 (g.scale - f.scale) :=
          Nat.mul_lt_mul_of_pos_right hn.1 (f.ratio_pos g)
      _ = Nat.pow 2 (f.bound + (g.scale - f.scale)) := (Nat.pow_add 2 _ _).symm
      _ ≤ Nat.pow 2 g.bound := Nat.pow_le_pow_right (by decide) h.bound
  · rcases Nat.eq_zero_or_pos n with rfl | hpos
    · rw [Nat.zero_mul]
      exact Nat.dvd_zero _
    · have hlog : (n * f.ratio g).log2 = n.log2 + (g.scale - f.scale) := by
        have hself := Nat.log2_self_le (Nat.ne_of_gt hpos)
        have hlt := @Nat.lt_log2_self n
        rw [Nat.log2_eq_iff (Nat.ne_of_gt (Nat.mul_pos hpos (f.ratio_pos g))), ratio, Nat.pow_eq]
        constructor
        · rw [Nat.pow_add]
          exact Nat.mul_le_mul_right _ hself
        · rw [Nat.add_right_comm, Nat.pow_add]
          exact Nat.mul_lt_mul_of_pos_right hlt (Nat.two_pow_pos _)
      have hexcess : g.excess (n * f.ratio g) ≤ f.excess n + (g.scale - f.scale) := by
        have hprecision := h.precision
        unfold excess
        omega
      refine Nat.dvd_trans (Nat.pow_dvd_pow 2 hexcess) ?_
      rw [Nat.pow_add]
      exact Nat.mul_dvd_mul_right (Nat.dvd_of_mod_eq_zero hn.2) _

end Format

/-! ## Numbers -/

namespace Binary

variable {f g : Format}

theorem convert_finite (h : f.IsWithin g) {negative : Bool} {n : Nat} (hn : f.Fits n) :
    (convert (.finite negative n hn) : Binary g) =
      .finite negative (n * f.ratio g) (h.fits hn) := by
  have hunits : n * Nat.pow 2 g.scale = n * f.ratio g * Nat.pow 2 f.scale := by
    simp only [Format.ratio, Nat.pow_eq]
    rw [Nat.mul_assoc, ← Nat.pow_add, Nat.sub_add_cancel h.scale]
  rw [convert, hunits, ofRatio]
  have hnearest := g.nearest_mul (n * f.ratio g) 1 (Nat.two_pow_pos f.scale)
  rw [Nat.one_mul] at hnearest
  rw [Nat.pow_eq, hnearest, g.nearest_eq_self (h.fits hn), ofUnits_of_fits (h.fits hn)]

theorem signed_mul (negative : Bool) (n c : Nat) :
    signed negative (n * c) = signed negative n * (c : Int) := by
  cases negative
  · exact Int.natCast_mul n c
  · rw [signed, signed, if_pos rfl, if_pos rfl, Int.natCast_mul, Int.neg_mul]

/-- **Conversion to a wider format keeps the order.** -/
theorem convert_lt_iff (h : f.IsWithin g) {x y : Binary f} :
    (x.convert : Binary g) < y.convert ↔ x < y := by
  cases x with
  | nan => exact Iff.rfl
  | inf s =>
    cases y with
    | nan => exact Iff.rfl
    | inf t => cases s <;> cases t <;> exact Iff.rfl
    | finite t n hn =>
      rw [convert_finite h]
      cases s <;> exact Iff.rfl
  | finite s m hm =>
    rw [convert_finite h]
    cases y with
    | nan => exact Iff.rfl
    | inf t => cases t <;> exact Iff.rfl
    | finite t n hn =>
      rw [convert_finite h]
      change decide (signed s (m * f.ratio g) < signed t (n * f.ratio g)) = true ↔
        decide (signed s m < signed t n) = true
      rw [decide_eq_true_eq, decide_eq_true_eq, signed_mul, signed_mul]
      exact Int.mul_lt_mul_right (Int.natCast_pos.2 (f.ratio_pos g))

theorem toDouble_lt_iff {x y : Single} : x.toDouble < y.toDouble ↔ x < y :=
  convert_lt_iff Format.single_isWithin_double

end Binary

end Screenmark
