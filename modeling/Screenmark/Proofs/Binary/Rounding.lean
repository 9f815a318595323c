/-
  Screenmark — rounding keeps the order.

  A greater ratio is never rounded to a smaller number (`Format.nearest_mono`), and what it
  is rounded to fits as long as it lies below the bound (`Format.fits_nearest`). So a part
  `k` of a whole `n` is a number from zero to one, or none at all if `n` is beyond the
  bound: it is not changed when it is kept from zero to one (`clamp_quotient`).
-/
import Screenmark.Binary.Basic

namespace Screenmark

/-! ## Whole numbers -/

variable {num den num' den' c : Nat}

theorem roundEven_mul (num den : Nat) {c : Nat} (hc : 0 < c) :
    roundEven (num * c) (den * c) = roundEven num den := by
  have hlt : ∀ a b : Nat, a * c < b * c ↔ a < b := fun a b => Nat.mul_lt_mul_right hc
  unfold roundEven
  simp only [Nat.mul_div_mul_right _ _ hc, Nat.mul_mod_mul_right, ← Nat.mul_assoc, hlt]

/-- A ratio is rounded to at most `c` if it is less than `c` and a half, or is just that
    and `c` is even. -/
theorem roundEven_le_iff (hd : 0 < den) : roundEven num den ≤ c ↔
    2 * num < (2 * c + 1) * den ∨ 2 * num = (2 * c + 1) * den ∧ c % 2 = 0 := by
  have hnum : den * (num / den) + num % den = num := Nat.div_add_mod num den
  have hrest : num % den < den := Nat.mod_lt num hd
  have hhalf : (2 * c + 1) * den = 2 * (den * c) + den := by
    rw [Nat.add_mul, Nat.one_mul, Nat.mul_assoc, Nat.mul_comm c]
  unfold roundEven
  dsimp only
  rw [hhalf]
  rcases Nat.lt_trichotomy (num / den) c with hlt | heq | hgt
  · have hbelow : den * (num / den + 1) ≤ den * c := Nat.mul_le_mul_left den hlt
    rw [Nat.mul_add, Nat.mul_one] at hbelow
    refine iff_of_true ?_ (.inl (by omega))
    split
    · omega
    split <;> omega
  · rw [← heq]
    split
    · exact iff_of_true (Nat.le_refl _) (.inl (by omega))
    split <;> omega
  · have habove : den * (c + 1) ≤ den * (num / den) := Nat.mul_le_mul_left den hgt
    rw [Nat.mul_add, Nat.mul_one] at habove
    refine iff_of_false ?_ (by omega)
    split
    · omega
    split <;> omega

/-- **A greater ratio is rounded to a greater number**, or to the same. -/
theorem roundEven_mono (hd : 0 < den) (hd' : 0 < den') (h : num * den' ≤ num' * den) :
    roundEven num den ≤ roundEven num' den' := by
  rw [roundEven_le_iff hd]
  have hhalf := (roundEven_le_iff hd').1 (Nat.le_refl (roundEven num' den'))
  generalize roundEven num' den' = c at hhalf ⊢
  have hleft : 2 * num * den' ≤ 2 * num' * den := by
    rw [Nat.mul_assoc, Nat.mul_assoc]
    exact Nat.mul_le_mul_left 2 h
  have hswap : (2 * c + 1) * den' * den = (2 * c + 1) * den * den' := Nat.mul_right_comm ..
  rcases hhalf with hlt | ⟨heq, heven⟩
  · refine .inl (Nat.lt_of_mul_lt_mul_right (a := den') ?_)
    rw [← hswap]
    exact Nat.lt_of_le_of_lt hleft (Nat.mul_lt_mul_of_pos_right hlt hd)
  · rw [heq, hswap] at hleft
    rcases Nat.lt_or_eq_of_le (Nat.le_of_mul_le_mul_right hleft hd') with hlt | heq
    · exact .inl hlt
    · exact .inr ⟨heq, heven⟩

theorem roundEven_le (hd : 0 < den) (h : num ≤ c * den) : roundEven num den ≤ c := by
  have hmono : roundEven num den ≤ roundEven c 1 :=
    roundEven_mono hd Nat.one_pos (by rwa [Nat.mul_one])
  rwa [roundEven_one] at hmono

theorem le_roundEven (hd : 0 < den) (h : c * den ≤ num) : c ≤ roundEven num den := by
  have hmono : roundEven c 1 ≤ roundEven num den :=
    roundEven_mono Nat.one_pos hd (by rwa [Nat.mul_one])
  rwa [roundEven_one] at hmono

/-! ## Numbers of a format -/

namespace Format

variable {f : Format} {n : Nat}

theorem nearest_mul (f : Format) (num den : Nat) {c : Nat} (hc : 0 < c) :
    f.nearest (num * c) (den * c) = f.nearest num den := by
  simp only [nearest, Nat.mul_div_mul_right _ _ hc, Nat.mul_right_comm den c, roundEven_mul _ _ hc]

theorem lt_two_pow_excess (f : Format) (n : Nat) :
    n < Nat.pow 2 f.precision * Nat.pow 2 (f.excess n) := by
  simp only [Nat.pow_eq]
  rw [← Nat.pow_add]
  refine Nat.lt_of_lt_of_le Nat.lt_log2_self (Nat.pow_le_pow_right (by decide) ?_)
  unfold excess
  omega

theorem excess_mono {n n' : Nat} (h : n ≤ n') : f.excess n ≤ f.excess n' := by
  have hlog : n.log2 ≤ n'.log2 := by
    rcases Nat.eq_zero_or_pos n with rfl | hpos
    · exact Nat.zero_le _
    · exact (Nat.le_log2 (by omega)).2 (Nat.le_trans (Nat.log2_self_le (by omega)) h)
  unfold excess
  omega

/-- Where bits are beyond the precision, the first bit of the others is set. -/
theorem two_pow_le_of_excess (hp : 0 < f.precision) (hpos : 0 < f.excess n) :
    Nat.pow 2 (f.precision + f.excess n - 1) ≤ n := by
  have hlog : f.precision + f.excess n - 1 = n.log2 := by
    unfold excess at hpos ⊢
    omega
  rw [hlog]
  refine Nat.log2_self_le fun hzero => ?_
  rw [hzero] at hpos
  simp only [excess, Nat.log2_zero] at hpos
  omega

variable (f)

/-- A ratio is not rounded beyond the next power of two. -/
theorem nearest_le (hd : 0 < den) : f.nearest num den ≤
    Nat.pow 2 (f.precision + f.excess (num / den)) := by
  have hround : roundEven num (den * Nat.pow 2 (f.excess (num / den))) ≤ Nat.pow 2 f.precision := by
    refine roundEven_le (Nat.mul_pos hd (Nat.two_pow_pos _)) ?_
    have hlt := Nat.lt_mul_of_div_lt (f.lt_two_pow_excess (num / den)) hd
    calc num ≤ Nat.pow 2 f.precision * Nat.pow 2 (f.excess (num / den)) * den := Nat.le_of_lt hlt
      _ = Nat.pow 2 f.precision * (den * Nat.pow 2 (f.excess (num / den))) := by
        rw [Nat.mul_assoc, Nat.mul_comm den]
  have hle := Nat.mul_le_mul_right (Nat.pow 2 (f.excess (num / den))) hround
  simp only [Nat.pow_eq] at hle ⊢
  rw [Nat.pow_add]
  exact hle

theorem le_nearest (hp : 0 < f.precision) (hd : 0 < den) (hpos : 0 < f.excess (num / den)) :
    Nat.pow 2 (f.precision + f.excess (num / den) - 1) ≤ f.nearest num den := by
  have hsplit : Nat.pow 2 (f.precision + f.excess (num / den) - 1) =
      Nat.pow 2 (f.precision - 1) * Nat.pow 2 (f.excess (num / den)) := by
    simp only [Nat.pow_eq]
    rw [← Nat.pow_add]
    congr 1
    omega
  have hfirst := two_pow_le_of_excess hp hpos
  rw [hsplit] at hfirst ⊢
  refine Nat.mul_le_mul_right _ (le_roundEven (Nat.mul_pos hd (Nat.two_pow_pos _)) ?_)
  calc Nat.pow 2 (f.precision - 1) * (den * Nat.pow 2 (f.excess (num / den)))
      = Nat.pow 2 (f.precision - 1) * Nat.pow 2 (f.excess (num / den)) * den := by
        rw [Nat.mul_assoc, Nat.mul_comm den]
    _ ≤ num / den * den := Nat.mul_le_mul_right den hfirst
    _ ≤ num := Nat.div_mul_le_self num den

/-- **A greater ratio is rounded to a greater number**, or to the same. -/
theorem nearest_mono (hp : 0 < f.precision) (hd : 0 < den) (hd' : 0 < den')
    (h : num * den' ≤ num' * den) : f.nearest num den ≤ f.nearest num' den' := by
  have hquotient : num / den ≤ num' / den' := by
    rw [Nat.le_div_iff_mul_le hd']
    refine Nat.le_of_mul_le_mul_right (c := den) ?_ hd
    calc num / den * den' * den = num / den * den * den' := Nat.mul_right_comm ..
      _ ≤ num * den' := Nat.mul_le_mul_right den' (Nat.div_mul_le_self num den)
      _ ≤ num' * den := h
  rcases Nat.lt_or_eq_of_le (excess_mono (f := f) hquotient) with hlt | heq
  · refine Nat.le_trans (f.nearest_le hd) (Nat.le_trans ?_ (f.le_nearest hp hd' (by omega)))
    exact Nat.pow_le_pow_right (by decide) (by omega)
  · unfold nearest
    rw [← heq]
    refine Nat.mul_le_mul_right _ (roundEven_mono (Nat.mul_pos hd (Nat.two_pow_pos _))
      (Nat.mul_pos hd' (Nat.two_pow_pos _)) ?_)
    rw [← Nat.mul_assoc, ← Nat.mul_assoc]
    exact Nat.mul_le_mul_right _ h

/-- **What is rounded fits**, if it lies below the bound. -/
theorem fits_nearest (hp : 0 < f.precision) (hd : 0 < den)
    (hlt : f.nearest num den < Nat.pow 2 f.bound) : f.Fits (f.nearest num den) := by
  refine ⟨hlt, Nat.mod_eq_zero_of_dvd ?_⟩
  have hle : f.nearest num den ≤ _ := f.nearest_le hd
  rcases Nat.lt_or_eq_of_le hle with hless | heq
  · -- Then no more bits are beyond the precision than before the rounding.
    have hexcess : f.excess (f.nearest num den) ≤ f.excess (num / den) := by
      rcases Nat.eq_zero_or_pos (f.nearest num den) with hzero | hpos
      · rw [hzero]
        simp only [excess, Nat.log2_zero]
        omega
      · have hlog := (Nat.log2_lt (by omega)).2 hless
        unfold excess at hlog ⊢
        omega
    exact Nat.dvd_trans (Nat.pow_dvd_pow 2 hexcess) (Nat.dvd_mul_left _ _)
  · have hexcess : f.excess (Nat.pow 2 (f.precision + f.excess (num / den))) ≤
        f.precision + f.excess (num / den) := by
      rw [excess, Nat.pow_eq, Nat.log2_two_pow]
      omega
    rw [heq]
    exact Nat.pow_dvd_pow 2 hexcess

/-- A power of two has one significant bit. -/
theorem fits_two_pow {e : Nat} (hp : 0 < f.precision) (he : e < f.bound) :
    f.Fits (Nat.pow 2 e) := by
  refine ⟨Nat.pow_lt_pow_right (by decide) he, Nat.mod_eq_zero_of_dvd ?_⟩
  refine Nat.pow_dvd_pow 2 ?_
  rw [excess, Nat.pow_eq, Nat.log2_two_pow]
  omega

end Format

theorem Format.fits_one_single : Format.single.Fits (Nat.pow 2 Format.single.scale) :=
  Format.single.fits_two_pow (by decide) (by decide)

/-! ## Parts of a whole -/

namespace Binary

variable {f : Format} {k n : Nat}

theorem fits_zero : f.Fits 0 := ⟨Nat.two_pow_pos _, Nat.zero_mod _⟩

theorem zero_eq : (zero : Binary f) = .finite false 0 fits_zero := ofUnits_of_fits fits_zero

theorem one_eq (hone : f.Fits (Nat.pow 2 f.scale)) :
    (one : Binary f) = .finite false (Nat.pow 2 f.scale) hone := by
  rw [one, ofNat, Nat.one_mul, ofRatio_one_of_fits hone]

theorem finite_lt_iff {m : Nat} (hm : f.Fits m) (hn : f.Fits n) :
    (.finite false m hm : Binary f) < .finite false n hn ↔ m < n := by
  change decide (signed false m < signed false n) = true ↔ m < n
  simp [signed]

theorem not_lt_of_le {x y : Binary f} (h : x ≤ y) : ¬y < x := by
  intro hlt
  cases x with
  | nan => exact absurd h Bool.false_ne_true
  | inf s =>
    cases y with
    | nan => exact absurd hlt Bool.false_ne_true
    | inf t => cases s <;> cases t <;>
        first | exact absurd hlt Bool.false_ne_true | exact absurd h Bool.false_ne_true
    | finite t n hn => cases s <;>
        first | exact absurd hlt Bool.false_ne_true | exact absurd h Bool.false_ne_true
  | finite s m hm =>
    cases y with
    | nan => exact absurd hlt Bool.false_ne_true
    | inf t => cases t <;>
        first | exact absurd hlt Bool.false_ne_true | exact absurd h Bool.false_ne_true
    | finite t n hn =>
      have hlt : signed t n < signed s m := of_decide_eq_true hlt
      rcases Bool.or_eq_true_iff.1 h with hless | hsame
      · have hless : signed s m < signed t n := of_decide_eq_true hless
        omega
      · have hsame : signed s m = signed t n := eq_of_beq hsame
        omega

theorem not_lt_nan (x : Binary f) : ¬x < .nan := by
  cases x <;> exact Bool.false_ne_true

/-- A number of units up to one is not changed when it is kept from zero to one. -/
theorem clamp_finite (hone : f.Fits (Nat.pow 2 f.scale)) (hn : f.Fits n)
    (hle : n ≤ Nat.pow 2 f.scale) :
    clamp zero one (.finite false n hn) = (.finite false n hn : Binary f) := by
  rw [clamp, one_eq hone, zero_eq, if_neg, if_neg]
  · rw [finite_lt_iff]
    exact Nat.not_lt.2 hle
  · rw [finite_lt_iff]
    exact Nat.not_lt_zero n

theorem clamp_one (hone : f.Fits (Nat.pow 2 f.scale)) : clamp zero one one = (one : Binary f) := by
  have hkept := clamp_finite hone hone (Nat.le_refl _)
  rwa [← one_eq hone] at hkept

/-- A whole has at least one unit of its own. -/
theorem two_pow_le_nearest (hp : 0 < f.precision) (hone : f.Fits (Nat.pow 2 f.scale))
    (hn : 0 < n) : Nat.pow 2 f.scale ≤ f.nearest (n * Nat.pow 2 f.scale) 1 := by
  have hmono : f.nearest (Nat.pow 2 f.scale) 1 ≤ f.nearest (n * Nat.pow 2 f.scale) 1 :=
    f.nearest_mono hp Nat.one_pos Nat.one_pos
      (Nat.mul_le_mul_right 1 (Nat.le_mul_of_pos_left _ hn))
  rwa [f.nearest_eq_self hone] at hmono

theorem clamp_nan : clamp zero one .nan = (.nan : Binary f) := by
  have hlow : ¬(.nan : Binary f) < zero := Bool.false_ne_true
  rw [clamp, if_neg hlow, if_neg (not_lt_nan one)]

/-- Nothing of a whole is zero. -/
theorem zero_quotient (hp : 0 < f.precision) (hone : f.Fits (Nat.pow 2 f.scale)) (hn : 0 < n) :
    (ofNat 0 / ofNat n : Binary f) = zero := by
  have hzero : (ofNat 0 : Binary f) = .finite false 0 fits_zero := by
    rw [ofNat, Nat.zero_mul, ofRatio_one_of_fits fits_zero]
  have hpos : 0 < f.nearest (n * Nat.pow 2 f.scale) 1 := Nat.lt_of_lt_of_le (Nat.two_pow_pos _)
    (two_pow_le_nearest hp hone hn)
  rw [hzero, ofNat, ofRatio]
  generalize f.nearest (n * Nat.pow 2 f.scale) 1 = b at hpos ⊢
  by_cases hfits : f.Fits b
  · rw [ofUnits_of_fits hfits]
    change div (.finite false 0 fits_zero) (.finite false b hfits) = zero
    rw [div, if_neg (Nat.ne_of_gt hpos), Nat.zero_mul, ofRatio]
    have hnearest : f.nearest 0 b = 0 := by
      simp [Format.nearest, roundEven, hpos]
    rw [hnearest]
    rfl
  · have hinf : (ofUnits false b : Binary f) = .inf false := dif_neg hfits
    rw [hinf]
    rfl

/-- **A part of a whole lies from zero to one**, unless it is no number. -/
theorem clamp_quotient (hp : 0 < f.precision) (hone : f.Fits (Nat.pow 2 f.scale)) (hn : 0 < n)
    (h : k ≤ n) : clamp zero one (ofNat k / ofNat n) = (ofNat k / ofNat n : Binary f) := by
  have hpart : f.nearest (k * Nat.pow 2 f.scale) 1 ≤ f.nearest (n * Nat.pow 2 f.scale) 1 :=
    f.nearest_mono hp Nat.one_pos Nat.one_pos
      (Nat.mul_le_mul_right 1 (Nat.mul_le_mul_right _ h))
  have hwhole := two_pow_le_nearest hp hone hn
  unfold ofNat ofRatio
  generalize ha : f.nearest (k * Nat.pow 2 f.scale) 1 = a at hpart ⊢
  generalize hb : f.nearest (n * Nat.pow 2 f.scale) 1 = b at hpart hwhole ⊢
  have hpos : 0 < b := Nat.lt_of_lt_of_le (Nat.two_pow_pos _) hwhole
  by_cases hbound : b < Nat.pow 2 f.bound
  · -- Both are finite, and the quotient is rounded to at most one.
    have hfitsA : f.Fits a := ha ▸ f.fits_nearest hp Nat.one_pos (by rw [ha]; omega)
    have hfitsB : f.Fits b := hb ▸ f.fits_nearest hp Nat.one_pos (by rw [hb]; omega)
    have hle : f.nearest (a * Nat.pow 2 f.scale) b ≤ Nat.pow 2 f.scale := by
      have hunit : f.nearest (Nat.pow 2 f.scale) 1 = Nat.pow 2 f.scale := f.nearest_eq_self hone
      rw [← hunit]
      refine f.nearest_mono hp hpos Nat.one_pos ?_
      rw [hunit, Nat.mul_one, Nat.mul_comm]
      exact Nat.mul_le_mul_left _ hpart
    have hfits : f.Fits (f.nearest (a * Nat.pow 2 f.scale) b) :=
      f.fits_nearest hp hpos (Nat.lt_of_le_of_lt hle hone.1)
    have hquotient : (ofUnits false a / ofUnits false b : Binary f) =
        .finite false (f.nearest (a * Nat.pow 2 f.scale) b) hfits := by
      rw [ofUnits_of_fits hfitsA, ofUnits_of_fits hfitsB]
      change div (.finite false a hfitsA) (.finite false b hfitsB) = _
      rw [div, if_neg (Nat.ne_of_gt hpos)]
      exact ofUnits_of_fits hfits
    rw [hquotient]
    exact clamp_finite hone hfits hle
  · have hinf : (ofUnits false b : Binary f) = .inf false := dif_neg fun hfits => hbound hfits.1
    rw [hinf]
    by_cases hfitsA : f.Fits a
    · rw [ofUnits_of_fits hfitsA]
      have hzero : (.finite false a hfitsA / .inf false : Binary f) = zero := rfl
      have hkept := clamp_finite hone fits_zero (Nat.zero_le _)
      rw [← zero_eq] at hkept
      rw [hzero, hkept]
    · have hinfA : (ofUnits false a : Binary f) = .inf false := dif_neg hfitsA
      rw [hinfA]
      exact clamp_nan

/-! ## Whole numbers within bounds -/

/-- What is rounded within bounds lies within them. -/
theorem roundWithin_mem {lo hi : Int} (h : lo ≤ hi) (x : Binary f) :
    lo ≤ x.roundWithin lo hi ∧ x.roundWithin lo hi ≤ hi := by
  unfold roundWithin
  split
  · omega
  · split <;> omega
  · omega

end Binary

end Screenmark
