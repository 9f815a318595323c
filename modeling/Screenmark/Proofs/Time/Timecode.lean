/-
  Screenmark — what timecodes tell.

  A timecode shows hours, minutes, seconds and ten thousandths of a second, between colons and
  a point (`Shows`). Which fields it shows is settled by its text (`Shows.unique`), and those of
  `ofUnits` are the digits of its number in a mixed base (`shows_ofUnits`). So the number can be
  read back, and the fields are ordered like the numbers.
-/
import Screenmark.Proofs.Text.Numeral
import Screenmark.Time.Timecode

namespace Screenmark

namespace Timecode

open Text

/-! ## Digits up to a width -/

variable {m n width : Nat}

theorem toList_padded (width n : Nat) : (padded width n).toList =
    List.replicate (width - (Nat.toDigits 10 n).length) '0' ++ Nat.toDigits 10 n := by
  have hlength : (toString n).length = (Nat.toDigits 10 n).length := by
    rw [← String.length_toList, toList_toString]
  rw [padded, String.toList_append, Style.zeros, String.toList_ofList, toList_toString, hlength]

theorem areDigitsOf_padded (width n : Nat) : AreDigitsOf n (padded width n).toList :=
  ⟨_, toList_padded width n⟩

theorem length_padded (width n : Nat) :
    (padded width n).toList.length = max width (Nat.toDigits 10 n).length := by
  rw [toList_padded, List.length_append, List.length_replicate]
  omega

/-! ## Fields -/

/-- The numbers in the fields of a timecode. -/
structure Fields where
  hours : Nat
  minutes : Nat
  seconds : Nat
  /-- In ten thousandths of a second. -/
  fraction : Nat
deriving DecidableEq

namespace Fields

variable {t u : Fields}

/-- The ten thousandths of a second in all fields. -/
def units (t : Fields) : Nat :=
  ((t.hours * 60 + t.minutes) * 60 + t.seconds) * 10000 + t.fraction

/-- The fields of a number of ten thousandths of a second. -/
def ofUnits (n : Nat) : Fields where
  hours := n / 36000000
  minutes := n / 600000 % 60
  seconds := n % 600000 / 10000
  fraction := n % 600000 % 10000

/-- The order of the first fields that differ. -/
def order (t u : Fields) : Ordering :=
  (compare t.hours u.hours).then <| (compare t.minutes u.minutes).then <|
    (compare t.seconds u.seconds).then (compare t.fraction u.fraction)

@[simp] theorem units_ofUnits (n : Nat) : (ofUnits n).units = n := by
  unfold units ofUnits
  dsimp only
  omega

theorem minutes_ofUnits_lt (n : Nat) : (ofUnits n).minutes < 60 := Nat.mod_lt _ (by decide)

theorem seconds_ofUnits_lt (n : Nat) : (ofUnits n).seconds < 60 := by
  unfold ofUnits
  dsimp only
  omega

theorem fraction_ofUnits_lt (n : Nat) : (ofUnits n).fraction < 10000 := Nat.mod_lt _ (by decide)

/-- **The fields are ordered like the numbers.** -/
theorem order_ofUnits (m n : Nat) : (ofUnits m).order (ofUnits n) = compare m n := by
  unfold order ofUnits
  dsimp only
  rcases hcompare : compare m n
  · have hlt := Nat.compare_eq_lt.1 hcompare
    simp only [Ordering.then_eq_lt, Nat.compare_eq_lt, Nat.compare_eq_eq]
    omega
  · rw [Nat.compare_eq_eq.1 hcompare]
    simp
  · have hgt := Nat.compare_eq_gt.1 hcompare
    simp only [Ordering.then_eq_gt, Nat.compare_eq_gt, Nat.compare_eq_eq]
    omega

end Fields

/-- The text shows the fields, each by its digits: the fraction by four of them, and the others by
    two at least. -/
def Shows (text : String) (t : Fields) : Prop :=
  ∃ hours minutes seconds fraction : List Char,
    text.toList = hours ++ ':' :: (minutes ++ ':' :: (seconds ++ '.' :: fraction)) ∧
      (AreDigitsOf t.hours hours ∧ 2 ≤ hours.length) ∧
      (AreDigitsOf t.minutes minutes ∧ 2 ≤ minutes.length) ∧
      (AreDigitsOf t.seconds seconds ∧ 2 ≤ seconds.length) ∧
      AreDigitsOf t.fraction fraction ∧ fraction.length = 4

variable {text : String} {t u : Fields}

/-- **A text does not show other fields.** -/
theorem Shows.unique (h : Shows text t) (h' : Shows text u) : t = u := by
  obtain ⟨hs, ms, ss, fs, htext, ⟨hhours, -⟩, ⟨hminutes, -⟩, ⟨hseconds, -⟩, hfraction, -⟩ := h
  obtain ⟨hs', ms', ss', fs', htext', ⟨hhours', -⟩, ⟨hminutes', -⟩, ⟨hseconds', -⟩,
    hfraction', -⟩ := h'
  obtain ⟨ehours, hrest⟩ := hhours.eq_of_append hhours' (by decide) (htext.symm.trans htext')
  obtain ⟨eminutes, hrest⟩ := hminutes.eq_of_append hminutes' (by decide) hrest
  obtain ⟨eseconds, rfl⟩ := hseconds.eq_of_append hseconds' (by decide) hrest
  have efraction := hfraction.digitsValue_eq.symm.trans hfraction'.digitsValue_eq
  cases t
  cases u
  simp only [Fields.mk.injEq]
  exact ⟨ehours, eminutes, eseconds, efraction⟩

/-- **A timecode shows the fields of its number.** -/
theorem shows_ofUnits (n : Nat) : Shows (ofUnits n) (.ofUnits n) := by
  have htwo : ∀ k, 2 ≤ (padded 2 k).toList.length := fun k => by
    rw [length_padded]
    omega
  refine ⟨_, _, _, _, ?_, ⟨areDigitsOf_padded 2 _, htwo _⟩, ⟨areDigitsOf_padded 2 _, htwo _⟩,
    ⟨areDigitsOf_padded 2 _, htwo _⟩, areDigitsOf_padded 4 _, ?_⟩
  · have hcolon : ":".toList = [':'] := rfl
    have hpoint : ".".toList = ['.'] := rfl
    simp only [ofUnits, Fields.ofUnits, String.toList_append, hcolon, hpoint, List.append_assoc,
      List.cons_append, List.nil_append]
  · have hfour : (Nat.toDigits 10 (Fields.ofUnits n).fraction).length ≤ 4 :=
      (Nat.length_toDigits_le_iff (by decide) (by decide)).2 (Fields.fraction_ofUnits_lt n)
    rw [length_padded]
    omega

theorem shows_ofUnits_iff : Shows (ofUnits n) t ↔ t = .ofUnits n :=
  ⟨fun h => h.unique (shows_ofUnits n), fun h => h ▸ shows_ofUnits n⟩

/-! ## Numbers in texts -/

/-- The text tells the number: it shows fields, those of minutes and seconds are below sixty, and
    read back they are the number. -/
structure Tells (text : String) (n : Nat) : Prop where
  shown : ∃ t, Shows text t
  below : ∀ t, Shows text t → t.minutes < 60 ∧ t.seconds < 60
  units : ∀ t, Shows text t → t.units = n

theorem tells_ofUnits (n : Nat) : Tells (ofUnits n) n where
  shown := ⟨_, shows_ofUnits n⟩
  below _ ht := shows_ofUnits_iff.1 ht ▸ ⟨Fields.minutes_ofUnits_lt n, Fields.seconds_ofUnits_lt n⟩
  units _ ht := shows_ofUnits_iff.1 ht ▸ Fields.units_ofUnits n

theorem Tells.unique (h : Tells text m) (h' : Tells text n) : m = n := by
  obtain ⟨t, ht⟩ := h.shown
  exact (h.units t ht).symm.trans (h'.units t ht)

/-- A number of ten thousandths of a second is one of 64 bits. -/
theorem unitsOf_lt (seconds : Double) : unitsOf seconds < Word.bound64 := by
  have hle : ∀ x : Double, x.roundNat countMax ≤ countMax := fun x =>
    Int.toNat_le.2 (Binary.roundWithin_mem (Int.natCast_nonneg countMax) x).2
  exact Nat.lt_of_le_of_lt (hle _) (by decide)

/-- **A timecode tells its number of ten thousandths of a second.** No two numbers have one
    timecode, and the fields that timecodes show are ordered like their numbers. Any number of
    seconds has a timecode that tells the ten thousandths to which it was rounded, once. -/
theorem timecodes_tell :
    (∀ n, Tells (ofUnits n) n) ∧
      (∀ m n, ofUnits m = ofUnits n → m = n) ∧
      (∀ m n t u, Shows (ofUnits m) t → Shows (ofUnits n) u → t.order u = compare m n) ∧
      ∀ seconds, unitsOf seconds < Word.bound64 ∧ Tells (ofSeconds seconds) (unitsOf seconds) := by
  refine ⟨tells_ofUnits, fun m n h => ?_, fun m n t u ht hu => ?_, fun seconds =>
    ⟨unitsOf_lt seconds, tells_ofUnits (unitsOf seconds)⟩⟩
  · have hn := tells_ofUnits n
    rw [← h] at hn
    exact (tells_ofUnits m).unique hn
  · rw [shows_ofUnits_iff.1 ht, shows_ofUnits_iff.1 hu, Fields.order_ofUnits]

/-- The last moment of an hour and the first one of the next. -/
example : ofUnits 35999999 = "00:59:59.9999" ∧ ofUnits 36000000 = "01:00:00.0000" := by
  decide +kernel

end Timecode

end Screenmark
