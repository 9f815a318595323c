/-
  Screenmark — what texts of digits say.

  A numeral of a number is its decimal digits, perhaps with zeros and one plus sign in front
  (`IsNumeral`). Reading accepts just the numerals of the numbers below the bound
  (`readNat?_eq_some_iff`), so a text is a numeral of one number at most.
-/
import Screenmark.Proofs.Binary.Text

namespace Screenmark.Text

variable {bound n : Nat} {c : Char} {cs ds : List Char}

/-- The text is the digits of the number, perhaps with zeros in front. -/
def AreDigitsOf (n : Nat) (ds : List Char) : Prop :=
  ∃ zeros, ds = List.replicate zeros '0' ++ Nat.toDigits 10 n

/-- The text is the digits of the number, perhaps with zeros and one plus sign in front. -/
def IsNumeral (n : Nat) (cs : List Char) : Prop :=
  AreDigitsOf n cs ∨ ∃ ds, cs = '+' :: ds ∧ AreDigitsOf n ds

/-! ## Digits -/

theorem digitChar_digitValue (hc : c.isDigit = true) :
    digitValue c < 10 ∧ Nat.digitChar (digitValue c) = c := by
  obtain ⟨hlo, hhi⟩ := Char.isDigit_iff_toNat.1 hc
  have hzero : '0'.toNat = 48 := rfl
  have hnine : '9'.toNat = 57 := rfl
  have hvalue : digitValue c < 10 := by
    unfold digitValue
    omega
  refine ⟨hvalue, Char.toNat_inj.1 ?_⟩
  rw [Nat.toNat_digitChar_of_lt_ten hvalue]
  unfold digitValue
  omega

/-- Digits that follow a number greater than zero. -/
theorem toDigits_append_digits (hn : 0 < n) (hds : ∀ c ∈ ds, c.isDigit = true) :
    Nat.toDigits 10 n ++ ds = Nat.toDigits 10 (digitsValue n ds) := by
  induction ds generalizing n with
  | nil => exact List.append_nil _
  | cons c ds ih =>
    rw [List.forall_mem_cons] at hds
    obtain ⟨hvalue, hchar⟩ := digitChar_digitValue hds.1
    have hone := Nat.toDigits_append_toDigits (b := 10) (by decide) hn hvalue
    rw [Nat.toDigits_of_lt_base hvalue, hchar] at hone
    calc Nat.toDigits 10 n ++ c :: ds
        = (Nat.toDigits 10 n ++ [c]) ++ ds := by rw [List.append_assoc, List.singleton_append]
      _ = Nat.toDigits 10 (10 * n + digitValue c) ++ ds := by rw [hone]
      _ = Nat.toDigits 10 (digitsValue n (c :: ds)) := ih (by omega) hds.2

theorem areDigitsOf_digitsValue (hne : ds ≠ []) (hds : ∀ c ∈ ds, c.isDigit = true) :
    AreDigitsOf (digitsValue 0 ds) ds := by
  induction ds with
  | nil => exact absurd rfl hne
  | cons c ds ih =>
    rw [List.forall_mem_cons] at hds
    obtain ⟨hvalue, hchar⟩ := digitChar_digitValue hds.1
    have hstart : digitsValue 0 (c :: ds) = digitsValue (digitValue c) ds := by
      simp only [digitsValue, List.foldl_cons, Nat.mul_zero, Nat.zero_add]
    rw [hstart]
    rcases Nat.eq_zero_or_pos (digitValue c) with hzero | hpos
    · -- A zero in front counts as such, unless it is the only digit.
      rw [hzero] at hchar ⊢
      rcases ds with _ | ⟨d, ds⟩
      · exact ⟨0, congrArg (· :: []) hchar.symm⟩
      · obtain ⟨zeros, heq⟩ := ih (List.cons_ne_nil d ds) hds.2
        refine ⟨zeros + 1, ?_⟩
        rw [List.replicate_succ, List.cons_append, ← heq, ← hchar]
        rfl
    · refine ⟨0, ?_⟩
      rw [← toDigits_append_digits hpos hds.2, Nat.toDigits_of_lt_base hvalue, hchar]
      rfl

theorem AreDigitsOf.isDigit (h : AreDigitsOf n ds) : ∀ c ∈ ds, c.isDigit = true := by
  obtain ⟨zeros, rfl⟩ := h
  exact Decimal.isDigit_append (Decimal.isDigit_replicate_zero zeros) (isDigit_toDigits n)

theorem AreDigitsOf.ne_nil (h : AreDigitsOf n ds) : ds ≠ [] := by
  obtain ⟨zeros, rfl⟩ := h
  simp

theorem AreDigitsOf.digitsValue_eq (h : AreDigitsOf n ds) : digitsValue 0 ds = n := by
  obtain ⟨zeros, rfl⟩ := h
  rw [Decimal.digitsValue_eq, Nat.ofDigitChars_append, Nat.ofDigitChars_replicate_zero,
    Nat.mul_zero, Nat.ofDigitChars_ten_toDigits]

theorem AreDigitsOf.not_mem (h : AreDigitsOf n ds) (hdigit : c.isDigit = false) : c ∉ ds := by
  intro hmem
  rw [h.isDigit c hmem] at hdigit
  cases hdigit

/-- Digits end at the first character that is none, and tell one number. -/
theorem AreDigitsOf.eq_of_append {m : Nat} {ds' cs' : List Char} (h : AreDigitsOf m ds)
    (h' : AreDigitsOf n ds') (hdigit : c.isDigit = false) (heq : ds ++ c :: cs = ds' ++ c :: cs') :
    m = n ∧ cs = cs' := by
  have hsplit := @splitFirst_append c ds cs (h.not_mem hdigit)
  rw [heq, splitFirst_append (h'.not_mem hdigit)] at hsplit
  cases hsplit
  exact ⟨h.digitsValue_eq.symm.trans h'.digitsValue_eq, rfl⟩

/-- One or more digits are read as the number whose digits they are. -/
theorem digits?_eq_some_iff : digits? ds = some n ↔ AreDigitsOf n ds := by
  unfold digits?
  constructor
  · intro h
    split at h
    · next hdigits =>
      cases h
      exact areDigitsOf_digitsValue hdigits.1 (List.all_eq_true.1 hdigits.2)
    · cases h
  · intro h
    rw [if_pos ⟨h.ne_nil, List.all_eq_true.2 h.isDigit⟩, h.digitsValue_eq]

/-! ## Numbers -/

theorem not_areDigitsOf_plus : ¬ AreDigitsOf n ('+' :: ds) := fun h =>
  h.not_mem (by decide) List.mem_cons_self

/-- What is read are the digits behind a plus sign, if there is one. -/
theorem exists_readNat?_eq (bound : Nat) (cs : List Char) : ∃ ds,
    readNat? bound cs = (digits? ds).filter (· < bound) ∧
      ∀ n, AreDigitsOf n ds ↔ IsNumeral n cs := by
  unfold readNat?
  split
  · next ds =>
    refine ⟨ds, by dsimp only; split <;> simp [*, Option.filter], fun n => ?_⟩
    rw [IsNumeral, or_iff_right not_areDigitsOf_plus]
    constructor
    · exact fun h => ⟨ds, rfl, h⟩
    · rintro ⟨_, heq, h⟩
      cases heq
      exact h
  · next hplus =>
    refine ⟨cs, by dsimp only; split <;> simp [*, Option.filter], fun n => ?_⟩
    rw [IsNumeral, or_iff_left]
    rintro ⟨ds, rfl, -⟩
    exact hplus ds rfl

/-- **Reading accepts just the numerals of the numbers below the bound.** -/
theorem readNat?_eq_some_iff : readNat? bound cs = some n ↔ IsNumeral n cs ∧ n < bound := by
  obtain ⟨ds, hread, hnumeral⟩ := exists_readNat?_eq bound cs
  rw [hread, Option.filter_eq_some_iff, digits?_eq_some_iff, hnumeral, decide_eq_true_iff]

theorem IsNumeral.not_mem (h : IsNumeral n cs) (hdigit : c.isDigit = false) (hplus : c ≠ '+') :
    c ∉ cs := by
  rcases h with h | ⟨ds, rfl, h⟩
  · exact h.not_mem hdigit
  · exact fun hc => (List.mem_cons.1 hc).elim hplus (h.not_mem hdigit)

end Screenmark.Text
