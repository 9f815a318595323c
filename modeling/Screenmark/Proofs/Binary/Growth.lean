/-
  Screenmark — arithmetic on growing numbers.

  Of two numbers that are not negative, the second is not less than the first (`Rises`). This
  is kept by whatever is done with both of them and a fixed number: rounding ratios, dividing
  by a number with units (`Rises.div`), and multiplying by a number that is not at most zero,
  as far as whole numbers are asked for (`Rises.floorNat_mul_le`). A product with an infinity,
  or with no number, is no exception, since no number counts as zero.
-/
import Screenmark.Proofs.Binary.Widening

namespace Screenmark

namespace Binary

variable {f : Format}

/-- Two numbers with a plus sign, the second of which is not less than the first. -/
inductive Rises : Binary f → Binary f → Prop
  | finite {m n : Nat} (hm : f.Fits m) (hn : f.Fits n) (h : m ≤ n) :
      Rises (.finite false m hm) (.finite false n hn)
  | beyond {m : Nat} (hm : f.Fits m) : Rises (.finite false m hm) (.inf false)
  | inf : Rises (.inf false) (.inf false)

variable {x y z : Binary f} {num den num' den' : Nat} {hi : Nat}

theorem rises_ofRatio_inf : Rises (ofRatio false num den : Binary f) (.inf false) := by
  unfold ofRatio ofUnits
  split
  · next hfits => exact .beyond hfits
  · exact .inf

/-- **A greater ratio rounds to a number that is not less.** -/
theorem rises_ofRatio (hp : 0 < f.precision) (hd : 0 < den) (hd' : 0 < den')
    (h : num * den' ≤ num' * den) :
    Rises (ofRatio false num den : Binary f) (ofRatio false num' den') := by
  have hle := f.nearest_mono hp hd hd' h
  by_cases hfits' : f.Fits (f.nearest num' den')
  · have hfits : f.Fits (f.nearest num den) :=
      f.fits_nearest hp hd (Nat.lt_of_le_of_lt hle hfits'.1)
    rw [ofRatio, ofRatio, ofUnits_of_fits hfits, ofUnits_of_fits hfits']
    exact .finite hfits hfits' hle
  · have hinf : (ofRatio false num' den' : Binary f) = .inf false := dif_neg hfits'
    rw [hinf]
    exact rises_ofRatio_inf

theorem rises_ofInt (hp : 0 < f.precision) {m n : Int} (hm : 0 ≤ m) (h : m ≤ n) :
    Rises (ofInt m : Binary f) (ofInt n) := by
  have hsign : ∀ {k : Int}, 0 ≤ k → decide (k < 0) = false := fun hk => decide_eq_false (by omega)
  unfold ofInt
  rw [hsign hm, hsign (Int.le_trans hm h)]
  refine rises_ofRatio hp Nat.one_pos Nat.one_pos (Nat.mul_le_mul_right 1 ?_)
  exact Nat.mul_le_mul_right _ (by omega)

/-- Dividing by the same number of units keeps the order. -/
theorem Rises.div (hp : 0 < f.precision) (h : Rises x y) {k : Nat} (hk : 0 < k)
    (hfits : f.Fits k) : Rises (x / .finite false k hfits) (y / .finite false k hfits) := by
  have hquotient : ∀ {m : Nat} (hm : f.Fits m), (.finite false m hm / .finite false k hfits :
      Binary f) = ofRatio false (m * Nat.pow 2 f.scale) k := fun hm => if_neg (by omega)
  have hinf : (.inf false / .finite false k hfits : Binary f) = .inf false := rfl
  cases h with
  | finite hm hn hle =>
    rw [hquotient hm, hquotient hn]
    exact rises_ofRatio hp hk hk (Nat.mul_le_mul_right k (Nat.mul_le_mul_right _ hle))
  | beyond hm =>
    rw [hquotient hm, hinf]
    exact rises_ofRatio_inf
  | inf => exact .inf

theorem Rises.floorNat_le (h : Rises x y) : x.floorNat hi ≤ y.floorNat hi := by
  cases h with
  | finite _ _ hle =>
    have hdiv := Nat.div_le_div_right (c := Nat.pow 2 f.scale) hle
    simp only [floorNat, Bool.false_eq_true, if_false]
    omega
  | beyond _ =>
    simp only [floorNat, Bool.false_eq_true, if_false]
    omega
  | inf => exact Nat.le_refl _

/-- What a number that is not at most zero is: no number, an infinity, or some units. -/
theorem cases_of_not_le_zero (hz : ¬ z ≤ zero) :
    z = .nan ∨ z = .inf false ∨ ∃ (k : Nat) (hk : f.Fits k), 0 < k ∧ z = .finite false k hk := by
  rw [zero_eq] at hz
  cases z with
  | nan => exact .inl rfl
  | inf s =>
    cases s with
    | false => exact .inr (.inl rfl)
    | true => exact absurd rfl hz
  | finite s k hk =>
    have hpos : 0 < signed s k := by
      have hle : ¬ (decide (signed s k < signed false 0) || signed s k == signed false 0) = true :=
        hz
      rw [Bool.or_eq_true, decide_eq_true_eq, beq_iff_eq] at hle
      have hzero : signed false 0 = 0 := rfl
      omega
    cases s with
    | true =>
      rw [signed, if_pos rfl] at hpos
      omega
    | false => exact .inr (.inr ⟨k, hk, Int.natCast_pos.1 hpos, rfl⟩)

/-- Multiplying by a number that is not at most zero keeps the order of the whole parts. -/
theorem Rises.floorNat_mul_le (hp : 0 < f.precision) (h : Rises x y) (hz : ¬ z ≤ zero) :
    (x * z).floorNat hi ≤ (y * z).floorNat hi := by
  rcases cases_of_not_le_zero hz with rfl | rfl | ⟨k, hk, hpos, rfl⟩
  · cases h <;> exact Nat.le_refl 0
  · -- No units times an infinity are no number, which counts as zero.
    have hproduct : ∀ {m : Nat} (hm : f.Fits m), (.finite false m hm * .inf false : Binary f) =
        if m = 0 then .nan else .inf false := fun hm => rfl
    have hinf : (.inf false * .inf false : Binary f) = .inf false := rfl
    cases h with
    | finite hm hn hle =>
      rw [hproduct hm, hproduct hn]
      split
      · exact Nat.zero_le _
      · exact Nat.le_of_eq (by rw [if_neg (by omega)])
    | beyond hm =>
      rw [hproduct hm, hinf]
      split
      · exact Nat.zero_le _
      · exact Nat.le_refl _
    | inf => exact Nat.le_refl _
  · have hproduct : ∀ {m : Nat} (hm : f.Fits m), (.finite false m hm * .finite false k hk :
        Binary f) = ofRatio false (m * k) (Nat.pow 2 f.scale) := fun hm => rfl
    have hinf : (.inf false * .finite false k hk : Binary f) = .inf false := if_neg (by omega)
    refine Rises.floorNat_le ?_
    cases h with
    | finite hm hn hle =>
      rw [hproduct hm, hproduct hn]
      exact rises_ofRatio hp (Nat.two_pow_pos _) (Nat.two_pow_pos _)
        (Nat.mul_le_mul_right _ (Nat.mul_le_mul_right k hle))
    | beyond hm =>
      rw [hproduct hm, hinf]
      exact rises_ofRatio_inf
    | inf =>
      rw [hinf]
      exact .inf

theorem not_finite_le_zero {k : Nat} (hk : f.Fits k) (hpos : 0 < k) :
    ¬ (.finite false k hk : Binary f) ≤ zero := by
  rw [zero_eq]
  change ¬ (decide (signed false k < signed false 0) || signed false k == signed false 0) = true
  have hunits : signed false k = k ∧ signed false 0 = 0 := ⟨rfl, rfl⟩
  rw [Bool.or_eq_true, decide_eq_true_eq, beq_iff_eq]
  omega

/-- A number that is not at most zero stays so in a wider format. -/
theorem not_convert_le_zero {g : Format} (h : f.IsWithin g) (hz : ¬ z ≤ zero) :
    ¬ (z.convert : Binary g) ≤ zero := by
  rcases cases_of_not_le_zero hz with rfl | rfl | ⟨k, hk, hpos, rfl⟩
  · exact Bool.false_ne_true
  · rw [zero_eq]
    exact Bool.false_ne_true
  · rw [convert_finite h hk]
    exact not_finite_le_zero _ (Nat.mul_pos hpos (f.ratio_pos g))

end Binary

end Screenmark
