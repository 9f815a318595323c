/-
  Screenmark — frames in the order of time.

  A clock never puts a later moment on an earlier frame (`Clock.frameAt_mono`), whatever its
  frame rate is: cutting the time to thousandths, dividing, multiplying with the rate and
  taking the whole part all keep the order. A rate that is no number puts every moment on the
  first frame.
-/
import Screenmark.Proofs.Binary.Growth
import Screenmark.Time.Clock

namespace Screenmark

/-- Whole numbers of 53 bits, as numbers of 64 bits have them. -/
def wholeNumbers : Format := ⟨53, 0, 64⟩

theorem wholeNumbers_isWithin_double : wholeNumbers.IsWithin .double :=
  ⟨by decide, by decide, by decide⟩

namespace Binary

theorem ofNat_of_fits {f : Format} (h : wholeNumbers.IsWithin f) {n : Nat}
    (hn : wholeNumbers.Fits n) :
    (ofNat n : Binary f) = .finite false (n * wholeNumbers.ratio f) (h.fits hn) :=
  ofRatio_one_of_fits (h.fits hn)

/-- The whole part of a rate times a number of thousandths. -/
theorem floorNat_thousandths_mono {f : Format} (h : wholeNumbers.IsWithin f) {rate : Binary f}
    (hrate : ¬ rate ≤ zero) {m n : Int} (hm : 0 ≤ m) (hmn : m ≤ n) (hi : Nat) :
    (ofInt m / ofNat 1000 * rate).floorNat hi ≤ (ofInt n / ofNat 1000 * rate).floorNat hi := by
  have hp : 0 < f.precision := Nat.lt_of_lt_of_le (by decide) h.precision
  have hthousand : wholeNumbers.Fits 1000 := by decide
  rw [ofNat_of_fits h hthousand]
  exact ((rises_ofInt hp hm hmn).div hp (Nat.mul_pos (by decide) (Format.ratio_pos ..)) _)
    |>.floorNat_mul_le hp hrate

end Binary

namespace Clock

variable {c : Clock} {t u : Moment} {f : Nat}

/-- **A later moment is not put on an earlier frame.** -/
theorem frameAt_mono (h : t.micros ≤ u.micros) (ht : c.frameAt t = some f) :
    ∃ g, c.frameAt u = some g ∧ f ≤ g := by
  unfold frameAt at ht ⊢
  split at ht
  · cases ht
  · next start _ =>
    have hmillis : (t.micros - start.micros).tdiv 1000 ≤ (u.micros - start.micros).tdiv 1000 :=
      Int.tdiv_le_tdiv (by decide) (Int.sub_le_sub_right h _)
    dsimp only at ht ⊢
    split at ht
    · cases ht
    · next hplaced =>
      rw [not_or] at hplaced
      rw [if_neg (by rw [not_or]; exact ⟨by omega, hplaced.2⟩)]
      refine ⟨_, rfl, Option.some.inj ht ▸ ?_⟩
      exact Binary.floorNat_thousandths_mono wholeNumbers_isWithin_double
        (Binary.not_convert_le_zero Format.single_isWithin_double hplaced.2)
        (Int.not_lt.1 hplaced.1) hmillis _

end Clock

end Screenmark
