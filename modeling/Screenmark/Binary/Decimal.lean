/-
  Screenmark — decimals and binary numbers.

  A decimal is a whole number of digits and a power of ten. `Binary.ofDecimal`
  is the binary number nearest to a decimal; `Decimal.shortest` goes back and
  picks, for a finite binary number, the decimal with the fewest digits whose
  nearest binary number it is.

  The exact value of a finite binary number is itself a decimal, since one
  unit `2 ^ -scale` is `5 ^ scale` times `10 ^ -scale`. `shortest` rounds that
  exact decimal to 1, 2, 3, … digits, down and up, until one of the two reads
  back; of two that do, the nearer is taken, and `Tie` decides between equally
  near ones. In the end the exact decimal itself reads back.

  * `shortestFrom_readsBack` : what the search returns reads back, or is the
    exact decimal.
-/
import Screenmark.Binary.Basic

namespace Screenmark

/-- A decimal `digits * 10 ^ exponent`. -/
structure Decimal where
  digits : Nat
  exponent : Int
deriving DecidableEq, Repr

namespace Decimal

/-- The number of decimal digits of `n`, counting at most `fuel + 1`. -/
def lengthFrom : (fuel : Nat) → Nat → Nat
  | 0, _ => 1
  | fuel + 1, n => if n < 10 then 1 else lengthFrom fuel (n / 10) + 1

/-- The number of decimal digits of `n`; it has no more digits than bits. -/
def length (n : Nat) : Nat := lengthFrom n.log2 n

/-- The decimal without zeros at the end of its digits; `fuel` bounds their
    number. -/
def stripFrom : (fuel : Nat) → Decimal → Decimal
  | 0, d => d
  | fuel + 1, d =>
    if d.digits % 10 = 0 then stripFrom fuel ⟨d.digits / 10, d.exponent + 1⟩ else d

/-- The decimal without zeros at the end of its digits. -/
def strip (d : Decimal) : Decimal :=
  if d.digits = 0 then ⟨0, 0⟩ else stripFrom (length d.digits) d

/-- The exponent of the first digit. -/
def leading (d : Decimal) : Int := d.exponent + length d.digits - 1

end Decimal

namespace Binary

variable {f : Format}

/-- The binary number nearest to `± digits * 10 ^ exponent`. Outside the
    exponents of the format the answer needs no powers of ten. -/
def ofDecimal (negative : Bool) (d : Decimal) : Binary f :=
  let top := d.exponent + Decimal.length d.digits
  if d.digits = 0 then ofUnits negative 0
  else if (f.bound : Int) < top then .inf negative
  else if top + f.scale < 0 then ofUnits negative 0
  else ofRatio negative (d.digits * Nat.pow 10 d.exponent.toNat * Nat.pow 2 f.scale)
    (Nat.pow 10 (-d.exponent).toNat)

end Binary

namespace Decimal

/-- Which of two equally near decimals is taken. -/
inductive Tie where
  /-- the one with the even last digit -/
  | even
  /-- the greater one -/
  | up
deriving DecidableEq

/-- The exact value of `n` units of the format. -/
def exact (f : Format) (n : Nat) : Decimal := ⟨n * Nat.pow 5 f.scale, -f.scale⟩

/-- Whether `d` is read as `n` units of the format. -/
def readsBack (f : Format) (n : Nat) (d : Decimal) : Bool :=
  match (Binary.ofDecimal false d : Binary f) with
  | .finite _ m _ => m == n
  | _ => false

/-- The greatest decimal with `drop` digits fewer that is not above `d`. -/
def lower (d : Decimal) (drop : Nat) : Decimal := ⟨d.digits / Nat.pow 10 drop, d.exponent + drop⟩

/-- The next decimal with `drop` digits fewer. -/
def upper (d : Decimal) (drop : Nat) : Decimal :=
  ⟨d.digits / Nat.pow 10 drop + 1, d.exponent + drop⟩

/-- Whether the upper neighbour of `d` is taken before the lower one. -/
def upperNearer (tie : Tie) (d : Decimal) (drop : Nat) : Bool :=
  let twice := 2 * (d.digits % Nat.pow 10 drop)
  if twice < Nat.pow 10 drop then false
  else if Nat.pow 10 drop < twice then true
  else tie = .up || (d.lower drop).digits % 2 = 1

/-- The decimal of `drop` digits fewer that reads back, if there is one. -/
def pick (tie : Tie) (f : Format) (n : Nat) (drop : Nat) : Option Decimal :=
  let lo := (exact f n).lower drop
  let hi := (exact f n).upper drop
  match readsBack f n lo, readsBack f n hi with
  | true, true => if upperNearer tie (exact f n) drop then some hi else some lo
  | true, false => some lo
  | false, true => some hi
  | false, false => none

/-- The first decimal that reads back, with `drop`, `drop - 1`, … digits fewer
    than the exact one. -/
def shortestFrom (tie : Tie) (f : Format) (n : Nat) : (drop : Nat) → Decimal
  | 0 => exact f n
  | drop + 1 =>
    match pick tie f n (drop + 1) with
    | some d => d
    | none => shortestFrom tie f n drop

/-- The decimal with the fewest digits that is read as `n` units of the format. -/
def shortest (tie : Tie) (f : Format) (n : Nat) : Decimal :=
  (shortestFrom tie f n (length (exact f n).digits - 1)).strip

theorem pick_readsBack {tie : Tie} {f : Format} {n drop : Nat} {d : Decimal}
    (h : pick tie f n drop = some d) : readsBack f n d = true := by
  simp only [pick] at h
  split at h
  · next hlo hhi => split at h <;> simp only [Option.some.injEq] at h <;> exact h ▸ ‹_›
  · next hlo _ => simp only [Option.some.injEq] at h; exact h ▸ hlo
  · next _ hhi => simp only [Option.some.injEq] at h; exact h ▸ hhi
  · simp at h

/-- What the search returns reads back, or is the exact value. -/
theorem shortestFrom_readsBack (tie : Tie) (f : Format) (n drop : Nat) :
    readsBack f n (shortestFrom tie f n drop) = true ∨
      shortestFrom tie f n drop = exact f n := by
  induction drop with
  | zero => exact .inr rfl
  | succ drop ih =>
    rw [shortestFrom]
    split
    · next h => exact .inl (pick_readsBack h)
    · exact ih

end Decimal

end Screenmark
