/-
  Screenmark — numbers survive being written.

  The decimal that is written for a number reads back as that number: the exact value
  does (`ofDecimal_exact`), and the search for fewer digits only takes what does. What
  is dropped or added on the way to the text are zeros at the end, which do not change
  what is read (`ofDecimal_mul_pow`).

  * `ofDecimal_shortest` : the shortest decimal of a number reads back;
  * `read?_plain` : so does the text that stands in tables.
-/
import Screenmark.Binary.Layout
import Screenmark.Binary.Reading
import Screenmark.Proofs.Binary.Rounding
import Screenmark.Proofs.Text.Fields

namespace Screenmark

/-! ## Digits -/

namespace Decimal

theorem lengthFrom_eq : ∀ {fuel n : Nat}, n < Nat.pow 10 (fuel + 1) →
    lengthFrom fuel n = (Nat.toDigits 10 n).length
  | 0, n, h => by
    have hn : n < 10 := h
    rw [Nat.toDigits_of_lt_base hn]
    rfl
  | fuel + 1, n, h => by
    rw [lengthFrom]
    split
    · next hn => rw [Nat.toDigits_of_lt_base hn]; rfl
    · next hn =>
      have hdiv : n / 10 < Nat.pow 10 (fuel + 1) := by
        rw [Nat.div_lt_iff_lt_mul (by decide)]
        exact h
      rw [lengthFrom_eq hdiv, Nat.toDigits_of_base_le (n := n) (by decide) (by omega),
        List.length_append]
      rfl

theorem length_eq (n : Nat) : length n = (Nat.toDigits 10 n).length := by
  refine lengthFrom_eq (Nat.lt_of_lt_of_le Nat.lt_log2_self ?_)
  exact Nat.pow_le_pow_left (by decide) _

theorem length_le_iff {n k : Nat} (hk : 0 < k) : length n ≤ k ↔ n < Nat.pow 10 k := by
  rw [length_eq, Nat.length_toDigits_le_iff (by decide) hk, Nat.pow_eq]

theorem length_ten_mul {n : Nat} (hn : 0 < n) : length (10 * n) = length n + 1 := by
  rw [length_eq, length_eq, Nat.toDigits_of_base_le (by decide) (by omega),
    Nat.mul_div_cancel_left n (by decide), List.length_append]
  rfl

end Decimal

/-! ## Reading decimals -/

namespace Binary

variable {f : Format} {negative : Bool} {n : Nat} {d : Decimal}

theorem ofDecimal_zero {e e' : Int} :
    (ofDecimal negative ⟨0, e⟩ : Binary f) = ofDecimal negative ⟨0, e'⟩ := by
  simp [ofDecimal]

/-- A zero at the end only counts in the exponent. -/
theorem ofDecimal_ten_mul (digits : Nat) (e : Int) :
    (ofDecimal negative ⟨10 * digits, e⟩ : Binary f) = ofDecimal negative ⟨digits, e + 1⟩ := by
  rcases Nat.eq_zero_or_pos digits with rfl | hpos
  · exact ofDecimal_zero
  have htop : e + ((Decimal.length digits + 1 : Nat) : Int) =
      e + 1 + (Decimal.length digits : Int) := by omega
  have hratio : (ofRatio negative (10 * digits * Nat.pow 10 e.toNat * Nat.pow 2 f.scale)
      (Nat.pow 10 (-e).toNat) : Binary f) =
      ofRatio negative (digits * Nat.pow 10 (e + 1).toNat * Nat.pow 2 f.scale)
        (Nat.pow 10 (-(e + 1)).toNat) := by
    simp only [Nat.pow_eq]
    by_cases he : 0 ≤ e
    · have h₁ : (e + 1).toNat = e.toNat + 1 := by omega
      have h₂ : (-e).toNat = (-(e + 1)).toNat := by omega
      rw [h₁, h₂, Nat.pow_succ, Nat.mul_comm 10 digits, Nat.mul_assoc digits 10,
        Nat.mul_comm 10 (10 ^ e.toNat)]
    · have h₁ : e.toNat = (e + 1).toNat := by omega
      have h₂ : (-e).toNat = (-(e + 1)).toNat + 1 := by omega
      rw [← h₁, h₂, Nat.pow_succ, Nat.mul_assoc 10, Nat.mul_assoc 10, Nat.mul_comm 10, ofRatio,
        f.nearest_mul _ _ (by decide)]
      rfl
  simp only [ofDecimal, Decimal.length_ten_mul hpos, htop, hratio, Nat.mul_eq_zero]
  simp

theorem ofDecimal_mul_pow (digits k : Nat) (e : Int) :
    (ofDecimal negative ⟨digits * Nat.pow 10 k, e⟩ : Binary f) =
      ofDecimal negative ⟨digits, e + k⟩ := by
  simp only [Nat.pow_eq]
  induction k generalizing e with
  | zero => simp
  | succ k ih =>
    rw [Nat.pow_succ, ← Nat.mul_assoc, Nat.mul_comm _ 10, ofDecimal_ten_mul, ih]
    congr 2
    omega

theorem ofDecimal_stripFrom : ∀ {fuel : Nat} {d : Decimal},
    (ofDecimal negative (d.stripFrom fuel) : Binary f) = ofDecimal negative d
  | 0, d => rfl
  | fuel + 1, ⟨digits, e⟩ => by
    rw [Decimal.stripFrom]
    dsimp only
    split
    · next hdvd =>
      rw [ofDecimal_stripFrom, ← ofDecimal_ten_mul,
        Nat.mul_div_cancel' (Nat.dvd_of_mod_eq_zero hdvd)]
    · rfl

theorem ofDecimal_strip : (ofDecimal negative d.strip : Binary f) = ofDecimal negative d := by
  obtain ⟨digits, e⟩ := d
  unfold Decimal.strip
  dsimp only
  split
  · next h =>
    subst h
    exact ofDecimal_zero
  · exact ofDecimal_stripFrom

/-- The sign does not change which units are nearest. -/
theorem ofDecimal_eq_finite {s : Bool} {h : f.Fits n}
    (hd : (ofDecimal false d : Binary f) = .finite s n h) :
    (ofDecimal negative d : Binary f) = .finite negative n h := by
  have hunits : ∀ {m : Nat}, (ofUnits false m : Binary f) = .finite s n h →
      (ofUnits negative m : Binary f) = .finite negative n h := by
    intro m hm
    unfold ofUnits at hm ⊢
    split at hm
    · next hfits =>
      obtain ⟨-, rfl⟩ := Binary.finite.inj hm
      rw [dif_pos hfits]
    · cases hm
  unfold ofDecimal at hd ⊢
  dsimp only at hd ⊢
  split
  · next hzero =>
    rw [if_pos hzero] at hd
    exact hunits hd
  · next hzero =>
    rw [if_neg hzero] at hd
    split
    · next hbig =>
      rw [if_pos hbig] at hd
      cases hd
    · next hbig =>
      rw [if_neg hbig] at hd
      split
      · next hsmall =>
        rw [if_pos hsmall] at hd
        exact hunits hd
      · next hsmall =>
        rw [if_neg hsmall] at hd
        exact hunits hd

theorem length_exact_le (h : f.Fits n) (hpos : 0 < n) :
    Decimal.length (n * Nat.pow 5 f.scale) ≤ f.bound + f.scale := by
  have hbound : f.bound ≠ 0 := fun h0 => by
    have := h.1
    rw [h0] at this
    exact absurd (Nat.lt_one_iff.1 this) (Nat.ne_of_gt hpos)
  rw [Decimal.length_le_iff (by omega), Nat.pow_eq, Nat.pow_eq, Nat.pow_add]
  calc n * 5 ^ f.scale
      < 2 ^ f.bound * 5 ^ f.scale := Nat.mul_lt_mul_of_pos_right h.1 (Nat.pow_pos (by decide))
    _ ≤ 10 ^ f.bound * 10 ^ f.scale :=
        Nat.mul_le_mul (Nat.pow_le_pow_left (by decide) _) (Nat.pow_le_pow_left (by decide) _)

/-- **The exact value of a number reads back.** -/
theorem ofDecimal_exact (h : f.Fits n) :
    (ofDecimal negative (Decimal.exact f n) : Binary f) = .finite negative n h := by
  rcases Nat.eq_zero_or_pos n with rfl | hpos
  · simp [ofDecimal, Decimal.exact, ofUnits_of_fits h]
  have hlength := length_exact_le h hpos
  rw [Nat.pow_eq] at hlength
  have hratio : f.nearest (n * 5 ^ f.scale * 10 ^ (-(f.scale : Int)).toNat * 2 ^ f.scale)
      (10 ^ (- -(f.scale : Int)).toNat) = n := by
    have h₁ : (-(f.scale : Int)).toNat = 0 := by omega
    have h₂ : (- -(f.scale : Int)).toNat = f.scale := by omega
    have hten : 5 ^ f.scale * 2 ^ f.scale = 10 ^ f.scale := (Nat.mul_pow 5 2 f.scale).symm
    have hscale : 0 < 10 ^ f.scale := Nat.pow_pos (by decide)
    have hone := f.nearest_mul n 1 hscale
    rw [Nat.one_mul, f.nearest_eq_self h] at hone
    rw [h₁, h₂, Nat.pow_zero, Nat.mul_one, Nat.mul_assoc, hten, hone]
  have hdigits : n * 5 ^ f.scale ≠ 0 := Nat.ne_of_gt (Nat.mul_pos hpos (Nat.pow_pos (by decide)))
  simp only [ofDecimal, Decimal.exact, Nat.pow_eq, ofRatio, hratio, ofUnits_of_fits h]
  rw [if_neg hdigits, if_neg (by omega), if_neg (by omega)]

/-- **The shortest decimal of a number reads back.** -/
theorem ofDecimal_shortest (tie : Decimal.Tie) (h : f.Fits n) :
    (ofDecimal negative (Decimal.shortest tie f n) : Binary f) = .finite negative n h := by
  unfold Decimal.shortest
  rw [ofDecimal_strip]
  rcases Decimal.shortestFrom_readsBack tie f n (Decimal.length (Decimal.exact f n).digits - 1)
    with hback | hexact
  · unfold Decimal.readsBack at hback
    split at hback
    · next s m hm hd =>
      obtain rfl : m = n := by simpa using hback
      exact ofDecimal_eq_finite hd
    · cases hback
  · rw [hexact, ofDecimal_exact h]

end Binary

/-! ## The characters at the start of a text -/

/-- The characters of one kind at the start of a text end where the next is of another kind. -/
theorem Text.takeWhile_append {p : Char → Bool} {cs rest : List Char} (h : ∀ c ∈ cs, p c = true)
    (hrest : ∀ c ∈ rest.head?, p c = false) :
    (cs ++ rest).takeWhile p = cs ∧ (cs ++ rest).dropWhile p = rest := by
  rw [List.takeWhile_append_of_pos h, List.dropWhile_append_of_pos h]
  cases rest with
  | nil => simp
  | cons c rest => simp [hrest c rfl]

/-! ## Digits as text -/

namespace Decimal

/-- A text that begins with a digit and is made of digits and points. -/
structure IsNumeral (cs : List Char) : Prop where
  head : ∃ c cs', cs = c :: cs' ∧ c.isDigit = true
  chars : ∀ c ∈ cs, c.isDigit = true ∨ c = '.'

theorem digitsValue_eq (n : Nat) (cs : List Char) :
    Text.digitsValue n cs = Nat.ofDigitChars 10 cs n := rfl

/-- Digits without a point. -/
theorem read?_digits {cs : List Char} (hne : cs ≠ []) (h : ∀ c ∈ cs, c.isDigit = true) :
    read? cs = some ⟨Text.digitsValue 0 cs, 0⟩ := by
  obtain ⟨htake, hdrop⟩ := @Text.takeWhile_append Char.isDigit cs [] h (by simp)
  rw [List.append_nil] at htake hdrop
  simp [read?, htake, hdrop, hne, readExponent?]

/-- Digits around a point. -/
theorem read?_pointed {whole part : List Char} (hne : whole ≠ [])
    (hwhole : ∀ c ∈ whole, c.isDigit = true) (hpart : ∀ c ∈ part, c.isDigit = true) :
    read? (whole ++ '.' :: part) = some ⟨Text.digitsValue 0 (whole ++ part), -part.length⟩ := by
  obtain ⟨htake, hdrop⟩ := @Text.takeWhile_append _ _ ('.' :: part) hwhole (by simp)
  obtain ⟨htake', hdrop'⟩ := @Text.takeWhile_append _ _ [] hpart (by simp)
  rw [List.append_nil] at htake' hdrop'
  simp [read?, htake, hdrop, htake', hdrop', hne, readExponent?]

theorem isDigit_replicate_zero (n : Nat) : ∀ c ∈ List.replicate n '0', c.isDigit = true := by
  intro c hc
  rw [List.eq_of_mem_replicate hc]
  rfl

theorem isDigit_append {a b : List Char} (ha : ∀ c ∈ a, c.isDigit = true)
    (hb : ∀ c ∈ b, c.isDigit = true) : ∀ c ∈ a ++ b, c.isDigit = true := by
  intro c hc
  exact (List.mem_append.1 hc).elim (ha c) (hb c)

theorem isNumeral_digits {cs : List Char} (hne : cs ≠ []) (h : ∀ c ∈ cs, c.isDigit = true) :
    IsNumeral cs := by
  obtain ⟨c, cs, rfl⟩ := List.exists_cons_of_ne_nil hne
  exact ⟨⟨c, cs, rfl, h c List.mem_cons_self⟩, fun c hc => .inl (h c hc)⟩

theorem isNumeral_pointed {whole part : List Char} (hne : whole ≠ [])
    (hwhole : ∀ c ∈ whole, c.isDigit = true) (hpart : ∀ c ∈ part, c.isDigit = true) :
    IsNumeral (whole ++ '.' :: part) := by
  obtain ⟨⟨c, cs, rfl, hc⟩, hchars⟩ := isNumeral_digits hne hwhole
  refine ⟨⟨c, cs ++ '.' :: part, rfl, hc⟩, fun c hc => ?_⟩
  rcases List.mem_append.1 hc with hc | hc
  · exact hchars c hc
  · rcases List.mem_cons.1 hc with rfl | hc
    · exact .inr rfl
    · exact .inl (hpart c hc)

end Decimal

/-! ## Numbers as text -/

namespace Style

theorem layout_plain (d : Decimal) : plain.layout d =
    plain.positional (Nat.toDigits 10 d.digits) (if d.digits = 0 then 0 else d.leading) := by
  simp [layout, plain]

/-- What a decimal is laid out as is a numeral that reads as the same number. -/
structure Writes (d : Decimal) (cs : List Char) : Prop where
  isNumeral : Decimal.IsNumeral cs
  reads : ∃ d', Decimal.read? cs = some d' ∧
    ∀ (f : Format) (negative : Bool), (Binary.ofDecimal negative d' : Binary f) =
      Binary.ofDecimal negative d

theorem writes_below_one {d : Decimal} (hneg : d.leading < 0) :
    Writes d ('0' :: '.' :: (List.replicate (-d.leading - 1).toNat '0' ++
      Nat.toDigits 10 d.digits)) := by
  have hzero : ∀ c ∈ ['0'], c.isDigit = true := by simp
  have hpart := Decimal.isDigit_append (Decimal.isDigit_replicate_zero (-d.leading - 1).toNat)
    (Text.isDigit_toDigits d.digits)
  refine ⟨Decimal.isNumeral_pointed (by simp) hzero hpart, _,
    Decimal.read?_pointed (by simp) hzero hpart, fun f negative => ?_⟩
  congr 1
  obtain ⟨digits, e⟩ := d
  congr 1
  · rw [Decimal.digitsValue_eq, Nat.ofDigitChars_append, Nat.ofDigitChars_append,
      Nat.ofDigitChars_replicate_zero]
    simp [Nat.ofDigitChars_cons]
  · rw [List.length_append, List.length_replicate, ← Decimal.length_eq]
    simp only [Decimal.leading] at hneg ⊢
    omega

theorem writes_whole {d : Decimal} {k : Nat} (hk : d.exponent = k) :
    Writes d (Nat.toDigits 10 d.digits ++ List.replicate k '0') := by
  have hdigits := Decimal.isDigit_append (Text.isDigit_toDigits d.digits)
    (Decimal.isDigit_replicate_zero k)
  have hne : Nat.toDigits 10 d.digits ++ List.replicate k '0' ≠ [] := by simp
  refine ⟨Decimal.isNumeral_digits hne hdigits, _, Decimal.read?_digits hne hdigits,
    fun f negative => ?_⟩
  rw [Decimal.digitsValue_eq, Nat.ofDigitChars_append, Nat.ofDigitChars_replicate_zero,
    Nat.ofDigitChars_ten_toDigits, Nat.mul_comm, ← Nat.pow_eq, Binary.ofDecimal_mul_pow,
    Int.zero_add, ← hk]

theorem writes_around_point {d : Decimal} {k : Nat} (hpos : 0 < k)
    (hlt : k < (Nat.toDigits 10 d.digits).length)
    (he : (k : Int) - (Nat.toDigits 10 d.digits).length = d.exponent) :
    Writes d ((Nat.toDigits 10 d.digits).take k ++ '.' ::
      (Nat.toDigits 10 d.digits).drop k) := by
  have hne : (Nat.toDigits 10 d.digits).take k ≠ [] := by
    rw [Ne, List.take_eq_nil_iff, not_or]
    exact ⟨Nat.ne_of_gt hpos, Nat.toDigits_ne_nil⟩
  have hwhole : ∀ c ∈ (Nat.toDigits 10 d.digits).take k, c.isDigit = true :=
    fun c hc => Text.isDigit_toDigits _ c (List.mem_of_mem_take hc)
  have hpart : ∀ c ∈ (Nat.toDigits 10 d.digits).drop k, c.isDigit = true :=
    fun c hc => Text.isDigit_toDigits _ c (List.mem_of_mem_drop hc)
  refine ⟨Decimal.isNumeral_pointed hne hwhole hpart, _, Decimal.read?_pointed hne hwhole hpart,
    fun f negative => ?_⟩
  congr 1
  obtain ⟨digits, e⟩ := d
  congr 1
  · rw [Decimal.digitsValue_eq, List.take_append_drop, Nat.ofDigitChars_ten_toDigits]
  · rw [List.length_drop]
    dsimp only at he hlt ⊢
    omega

/-- **A decimal in a table reads as the same number.** -/
theorem writes_layout (d : Decimal) : Writes d (plain.layout d).toList := by
  by_cases hzero : d.digits = 0
  · obtain ⟨digits, e⟩ := d
    obtain rfl : digits = 0 := hzero
    have htext : (plain.layout ⟨0, e⟩).toList = ['0'] := by
      rw [layout_plain]
      simp [positional, zeros, plain]
    obtain ⟨hnumeral, d', hd', hsame⟩ : Writes ⟨0, 0⟩ ['0'] := writes_whole (k := 0) rfl
    rw [htext]
    exact ⟨hnumeral, d', hd', fun f negative => (hsame f negative).trans Binary.ofDecimal_zero⟩
  rw [layout_plain, if_neg hzero]
  have hleading : d.leading = d.exponent + (Nat.toDigits 10 d.digits).length - 1 := by
    rw [← Decimal.length_eq]
    rfl
  unfold positional
  split
  · next hneg => simpa [zeros] using writes_below_one hneg
  · next hneg =>
    dsimp only
    split
    · next hle =>
      have hk : d.exponent =
          ((d.leading.toNat + 1 - (Nat.toDigits 10 d.digits).length : Nat) : Int) := by omega
      simpa [zeros, plain] using writes_whole hk
    · next hle =>
      simpa using writes_around_point (k := d.leading.toNat + 1) (by omega) (by omega)
        (by omega)

end Style

/-! ## What reads as a number is bare -/

namespace Decimal

variable {cs : List Char}

theorem isBare_of_readExponent? {e : Int} (h : readExponent? cs = some e) : Text.IsBare cs := by
  cases cs with
  | nil => intro c hc; cases hc
  | cons c cs =>
    rw [readExponent?] at h
    split at h
    · next hc =>
      rcases hn : Text.digits? (Text.splitSign cs).2 with _ | n
      · simp [hn] at h
      · refine (Text.isBare_of_splitSign rfl (Text.isBare_of_digits? hn)).cons ?_
        rcases hc with rfl | rfl <;> decide
    · cases h

theorem isBare_takeWhile_isDigit (cs : List Char) : Text.IsBare (cs.takeWhile Char.isDigit) :=
  Text.isBare_of_isDigit fun _ hc => List.all_eq_true.1 List.all_takeWhile _ hc

theorem isBare_of_read? {d : Decimal} (h : read? cs = some d) : Text.IsBare cs := by
  unfold read? at h
  dsimp only at h
  rw [← List.takeWhile_append_dropWhile (p := Char.isDigit) (l := cs)]
  refine (isBare_takeWhile_isDigit cs).append ?_
  split at h
  · next rest hrest =>
    split at h
    · cases h
    · obtain ⟨e, he, -⟩ := Option.map_eq_some_iff.1 h
      rw [hrest, ← List.takeWhile_append_dropWhile (p := Char.isDigit) (l := rest)]
      exact ((isBare_takeWhile_isDigit rest).append (isBare_of_readExponent? he)).cons (by decide)
  · split at h
    · cases h
    · obtain ⟨e, he, -⟩ := Option.map_eq_some_iff.1 h
      exact isBare_of_readExponent? he

end Decimal

/-! ## Reading numbers -/

namespace Binary

variable {f : Format}

theorem isDigit_toLower {c : Char} (h : c.isDigit = true) : c.toLower.isDigit = true := by
  obtain ⟨-, hle⟩ := Char.isDigit_iff_toNat.1 h
  have hupper : ¬ (c.val ≥ 'A'.val ∧ c.val ≤ 'Z'.val) := fun ⟨hge, _⟩ =>
    absurd (Nat.le_trans (UInt32.le_iff_toNat_le.1 hge) hle) (by decide)
  have hself : c.toLower = c := dif_neg hupper
  rw [hself]
  exact h

/-- A text that begins with a digit is no word for a special number. -/
theorem toLower_ne_word {cs : List Char} (h : Decimal.IsNumeral cs) {c : Char} {w : List Char}
    (hc : c.isDigit = false) : String.ofList (cs.map Char.toLower) ≠ String.ofList (c :: w) := by
  obtain ⟨⟨d, cs, rfl, hd⟩, -⟩ := h
  intro heq
  obtain ⟨rfl, -⟩ := List.cons.inj (String.ofList_injective heq)
  rw [isDigit_toLower hd] at hc
  cases hc

theorem read?_signed {cs : List Char} (h : Decimal.IsNumeral cs) {s : Bool} {text : List Char}
    (hsign : Text.splitSign text = (s, cs)) :
    (read? text : Option (Binary f)) = (Decimal.read? cs).map (ofDecimal s) := by
  have hnan : String.ofList (cs.map Char.toLower) ≠ "nan" := toLower_ne_word h rfl
  have hinf : String.ofList (cs.map Char.toLower) ≠ "inf" := toLower_ne_word h rfl
  have hinfinity : String.ofList (cs.map Char.toLower) ≠ "infinity" := toLower_ne_word h rfl
  simp only [read?, hsign, hnan, hinf, hinfinity, if_false, or_self]

theorem splitSign_numeral {cs : List Char} (h : Decimal.IsNumeral cs) :
    Text.splitSign cs = (false, cs) := by
  obtain ⟨⟨d, cs, rfl, hd⟩, -⟩ := h
  unfold Text.splitSign
  split
  · next heq =>
    obtain ⟨rfl, -⟩ := List.cons.inj heq
    cases hd
  · next heq =>
    obtain ⟨rfl, -⟩ := List.cons.inj heq
    cases hd
  · rfl

/-- **The text of a number in tables reads back.** -/
theorem read?_plain (x : Binary f) : read? x.plain.toList = some x := by
  cases x with
  | nan => simp [plain, Style.text, read?, Text.splitSign]
  | inf s => cases s <;> simp [plain, Style.text, read?, Text.splitSign]
  | finite s n h =>
    obtain ⟨hnumeral, d, hd, hsame⟩ := Style.writes_layout (Decimal.shortest Style.plain.tie f n)
    have hsign : Text.splitSign (plain (.finite s n h)).toList =
        (s, (Style.plain.layout (Decimal.shortest Style.plain.tie f n)).toList) := by
      cases s with
      | false => simpa [plain, Style.text] using splitSign_numeral hnumeral
      | true => simp [plain, Style.text, Text.splitSign]
    rw [read?_signed hnumeral hsign, hd, Option.map_some, hsame, ofDecimal_shortest _ h]

theorem isBare_of_read? {x : Binary f} {cs : List Char}
    (h : read? cs = some x) : Text.IsBare cs := by
  unfold read? at h
  dsimp only at h
  refine Text.isBare_of_splitSign rfl (?_ : Text.IsBare (Text.splitSign cs).2)
  have hword : ∀ {w : String}, String.ofList ((Text.splitSign cs).2.map Char.toLower) = w →
      Text.IsBare w.toList → Text.IsBare (Text.splitSign cs).2 := by
    intro w hw hbare
    rw [← hw, String.toList_ofList] at hbare
    exact Text.isBare_of_toLower hbare
  split at h
  · next hnan => exact hword hnan (by decide)
  · split at h
    · next hinf =>
      rcases hinf with hinf | hinf
      · exact hword hinf (by decide)
      · exact hword hinf (by decide)
    · obtain ⟨d, hd, -⟩ := Option.map_eq_some_iff.1 h
      exact Decimal.isBare_of_read? hd

/-- The text of a number in tables is a bare one. -/
theorem isBare_plain (x : Binary f) : Text.IsBare x.plain.toList := isBare_of_read? (read?_plain x)

end Binary

end Screenmark
