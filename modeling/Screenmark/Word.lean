/-
  Screenmark — words.

  Coordinates, counts and times are kept in words of the machine, and a number
  outside the range of its word is either refused or replaced by the nearest one
  inside.

  * `wordMin` and `wordMax` are the ends of the whole numbers of 64 bits, to
    which `saturate` keeps a number;
  * `bound16`, `bound32` and `bound64` bound the natural numbers of so many bits.
-/

namespace Screenmark

/-- The least whole number of 64 bits. -/
def wordMin : Int := -9223372036854775808

/-- The greatest whole number of 64 bits. -/
def wordMax : Int := 9223372036854775807

/-- The whole number of 64 bits nearest to a whole number. -/
def saturate (n : Int) : Int := max wordMin (min n wordMax)

theorem saturate_eq_self {n : Int} (lo : wordMin ≤ n) (hi : n ≤ wordMax) : saturate n = n := by
  unfold saturate; omega

namespace Word

/-- The natural numbers below it have 16 bits. -/
def bound16 : Nat := 65536

/-- The natural numbers below it have 31 bits. -/
def bound31 : Nat := 2147483648

/-- The natural numbers below it have 32 bits. -/
def bound32 : Nat := 4294967296

/-- The natural numbers below it have 64 bits. -/
def bound64 : Nat := 18446744073709551616

theorem bounds_eq : [bound16, bound31, bound32, bound64] = [16, 31, 32, 64].map (Nat.pow 2) := rfl

theorem wordMax_eq : wordMax + 1 = Nat.pow 2 63 ∧ wordMin = -Nat.pow 2 63 := ⟨rfl, rfl⟩

end Word

end Screenmark
