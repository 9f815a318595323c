/-
  Screenmark — the start that the name of a recording tells.

  The last six fields between the dashes of a name are read as words of 32 bits: year, month,
  day, hour, minute and second. The start is the moment with just these fields, and there is
  none if the calendar has no such moment (`start_eq_some_iff`). What stands in front of the
  six fields does not count, so a name that ends with the fields of a moment tells that moment
  (`start_of_shownFields`).

  A year from 2147483648 on is not refused: it stands for the one that is 4294967296 years
  earlier, and the calendar has the last 262143 of these.
-/
import Mathlib.Data.List.Forall2
import Screenmark.Proofs.Time.Timecode
import Screenmark.Time.Clock

namespace Screenmark

/-! ## Moments and their fields -/

/-- The date stands in the calendar. -/
def Date.IsValid (d : Date) : Prop :=
  (firstYear ≤ d.year ∧ d.year ≤ lastYear) ∧ (1 ≤ d.month ∧ d.month ≤ 12) ∧
    1 ≤ d.day ∧ d.day ≤ daysOfMonth d.year d.month

instance (d : Date) : Decidable d.IsValid :=
  inferInstanceAs (Decidable ((Date.firstYear ≤ d.year ∧ d.year ≤ Date.lastYear) ∧
    (1 ≤ d.month ∧ d.month ≤ 12) ∧ 1 ≤ d.day ∧ d.day ≤ Date.daysOfMonth d.year d.month))

theorem Date.daysOfMonth_le (year : Int) (month : Nat) : daysOfMonth year month ≤ 31 := by
  unfold daysOfMonth
  grind

theorem Date.ofFields?_eq_some_iff {d : Date} {year : Int} {month day : Nat} :
    ofFields? year month day = some d ↔
      d.IsValid ∧ d.year = year ∧ d.month = month ∧ d.day = day := by
  unfold ofFields?
  constructor
  · intro h
    split at h
    · next hvalid =>
      cases h
      exact ⟨by simpa [IsValid, and_assoc] using hvalid, rfl, rfl, rfl⟩
    · cases h
  · rintro ⟨hvalid, rfl, rfl, rfl⟩
    rw [if_pos (by simpa [IsValid, and_assoc] using hvalid)]

namespace Moment

variable {t : Moment}

/-- The hour of the day. -/
def hour (t : Moment) : Nat := t.ofDay / 3600000000

/-- The minute of the hour. -/
def minute (t : Moment) : Nat := t.ofDay / 60000000 % 60

/-- The second of the minute. -/
def second (t : Moment) : Nat := t.ofDay / 1000000 % 60

/-- The moment stands in the calendar, at the start of a second. -/
def IsWhole (t : Moment) : Prop :=
  t.date.IsValid ∧ t.ofDay < dayLength ∧ t.ofDay % 1000000 = 0

instance (t : Moment) : Decidable t.IsWhole :=
  inferInstanceAs (Decidable (t.date.IsValid ∧ t.ofDay < dayLength ∧ t.ofDay % 1000000 = 0))

theorem IsWhole.hour_lt (h : t.IsWhole) : t.hour < 24 := by
  have hday : t.ofDay < 86400000000 := h.2.1
  unfold hour
  omega

theorem minute_lt (t : Moment) : t.minute < 60 := Nat.mod_lt _ (by decide)

theorem second_lt (t : Moment) : t.second < 60 := Nat.mod_lt _ (by decide)

/-- A whole moment is known by its date and the fields of its time. -/
theorem IsWhole.eq_ofDate (h : t.IsWhole) : ofDate t.date t.hour t.minute t.second = t := by
  have hsecond : t.ofDay % 1000000 = 0 := h.2.2
  have htime : ((t.hour * 60 + t.minute) * 60 + t.second) * 1000000 = t.ofDay := by
    unfold hour minute second
    omega
  rw [ofDate, htime]

theorem fields_ofDate (date : Date) (hour : Nat) {minute second : Nat} (hminute : minute < 60)
    (hsecond : second < 60) : (ofDate date hour minute second).hour = hour ∧
      (ofDate date hour minute second).minute = minute ∧
      (ofDate date hour minute second).second = second := by
  unfold Moment.hour Moment.minute Moment.second ofDate
  dsimp only
  omega

theorem isWhole_ofDate {date : Date} {hour minute second : Nat} (hdate : date.IsValid)
    (hhour : hour < 24) (hminute : minute < 60) (hsecond : second < 60) :
    (ofDate date hour minute second).IsWhole := by
  refine ⟨hdate, ?_, ?_⟩
  · unfold ofDate dayLength
    dsimp only
    omega
  · exact Nat.mul_mod_left _ _

/-- **The moment of six fields has just these fields**, and is found if the calendar has it. -/
theorem ofFields?_eq_some_iff {year : Int} {month day hour minute second : Nat} :
    ofFields? year month day hour minute second = some t ↔
      t.IsWhole ∧ (t.date.year = year ∧ t.date.month = month ∧ t.date.day = day) ∧
        t.hour = hour ∧ t.minute = minute ∧ t.second = second := by
  unfold ofFields?
  constructor
  · intro h
    split at h
    · next date hdate =>
      obtain ⟨hvalid, hfields⟩ := Date.ofFields?_eq_some_iff.1 hdate
      split at h
      · next htime =>
        cases h
        exact ⟨isWhole_ofDate hvalid htime.1 htime.2.1 htime.2.2, hfields,
          fields_ofDate date hour htime.2.1 htime.2.2⟩
      · cases h
    · cases h
  · rintro ⟨hwhole, hdate, rfl, rfl, rfl⟩
    rw [Date.ofFields?_eq_some_iff.2 ⟨hwhole.1, hdate⟩]
    dsimp only
    rw [if_pos ⟨hwhole.hour_lt, t.minute_lt, t.second_lt⟩, hwhole.eq_ofDate]

/-- The fields of a whole moment are words. -/
theorem IsWhole.forall_lt (h : t.IsWhole) :
    ∀ n ∈ [t.date.month, t.date.day, t.hour, t.minute, t.second], n < Word.bound32 := by
  have hmonth := h.1.2.1.2
  have hday : t.date.day ≤ 31 := Nat.le_trans h.1.2.2.2 (Date.daysOfMonth_le _ _)
  have hhour := h.hour_lt
  have hminute := t.minute_lt
  have hsecond := t.second_lt
  intro n hn
  simp only [List.mem_cons, List.not_mem_nil, or_false] at hn
  unfold Word.bound32
  omega

end Moment

/-! ## The numbers at the end of a name -/

/-- The last fields of the name, between dashes, are numerals of the numbers. -/
def EndsInNumbers (name : String) (numbers : List Nat) : Prop :=
  ∃ texts, List.Forall₂ Text.IsNumeral numbers texts ∧ Text.EndsInPieces '-' texts name.toList

theorem mapM_eq_some_iff_forall₂ {α β : Type} {f : α → Option β} : ∀ {as : List α} {bs : List β},
    as.mapM f = some bs ↔ List.Forall₂ (fun b a => f a = some b) bs as
  | [], bs => by
    rw [List.mapM_nil, List.forall₂_nil_right_iff]
    exact Option.some_inj.trans eq_comm
  | a :: as, bs => by
    rw [List.mapM_cons, List.forall₂_cons_right_iff]
    simp only [Option.bind_eq_bind, Option.bind_eq_some_iff, Option.pure_def, Option.some.injEq,
      mapM_eq_some_iff_forall₂]
    constructor
    · rintro ⟨b, hb, bs, hbs, rfl⟩
      exact ⟨b, bs, hb, hbs, rfl⟩
    · rintro ⟨b, bs, hb, hbs, rfl⟩
      exact ⟨b, hb, bs, hbs, rfl⟩

theorem not_mem_dash {numbers : List Nat} {texts : List (List Char)}
    (h : List.Forall₂ Text.IsNumeral numbers texts) : ∀ text ∈ texts, '-' ∉ text := by
  induction h with
  | nil => exact fun text htext => absurd htext List.not_mem_nil
  | cons hnumeral _ ih =>
    exact List.forall_mem_cons.2 ⟨hnumeral.not_mem (by decide) (by decide), ih⟩

/-- The last fields of a name are its last pieces between dashes. -/
theorem endsInNumbers_iff_suffix {name : String} {numbers : List Nat} (hne : numbers ≠ []) :
    EndsInNumbers name numbers ↔ ∃ texts, texts <:+ Text.pieces '-' name.toList ∧
      List.Forall₂ Text.IsNumeral numbers texts := by
  have hiff : ∀ {texts}, List.Forall₂ Text.IsNumeral numbers texts →
      (Text.EndsInPieces '-' texts name.toList ↔ texts <:+ Text.pieces '-' name.toList) := by
    intro texts h
    refine Text.endsInPieces_iff_suffix ?_ (not_mem_dash h)
    rintro rfl
    exact hne (List.forall₂_nil_right_iff.1 h)
  constructor
  · rintro ⟨texts, h, hends⟩
    exact ⟨texts, (hiff h).1 hends, h⟩
  · rintro ⟨texts, hsuffix, h⟩
    exact ⟨texts, h, (hiff h).2 hsuffix⟩

namespace Clock

variable {name : String} {fps : Single} {numbers : List Nat} {t : Moment}

/-- **The words of a name are the numbers that its last six fields write**, if there are so
    many and none is too great. -/
theorem lastWords?_eq_some_iff : lastWords? name = some numbers ↔
    numbers.length = 6 ∧ (∀ n ∈ numbers, n < Word.bound32) ∧ EndsInNumbers name numbers := by
  have hread : ∀ texts, texts.mapM (Text.readNat? Word.bound32) = some numbers ↔
      (∀ n ∈ numbers, n < Word.bound32) ∧ List.Forall₂ Text.IsNumeral numbers texts := by
    intro texts
    rw [mapM_eq_some_iff_forall₂, ← List.forall₂_and_left]
    simp only [Text.readNat?_eq_some_iff, and_comm]
  unfold lastWords?
  dsimp only
  constructor
  · intro h
    split at h
    · cases h
    · next hlength =>
      obtain ⟨hbound, hnumerals⟩ := (hread _).1 h
      have hsix := hnumerals.length_eq
      rw [List.length_drop] at hsix
      have hne : numbers ≠ [] := List.ne_nil_of_length_pos (by omega)
      exact ⟨by omega, hbound, (endsInNumbers_iff_suffix hne).2
        ⟨_, List.drop_suffix _ _, hnumerals⟩⟩
  · rintro ⟨hsix, hbound, hends⟩
    have hne : numbers ≠ [] := List.ne_nil_of_length_pos (by omega)
    obtain ⟨texts, hsuffix, hnumerals⟩ := (endsInNumbers_iff_suffix hne).1 hends
    have htexts : texts.length = 6 := hnumerals.length_eq.symm.trans hsix
    rw [if_neg (Nat.not_lt.2 (htexts ▸ hsuffix.length_le)), hread]
    rw [List.suffix_iff_eq_drop, htexts] at hsuffix
    exact ⟨hbound, hsuffix ▸ hnumerals⟩

theorem momentOfWords?_eq_some_iff : momentOfWords? numbers = some t ↔
    t.IsWhole ∧ ∃ year, t.date.year = yearOfWord year ∧
      numbers = [year, t.date.month, t.date.day, t.hour, t.minute, t.second] := by
  unfold momentOfWords?
  constructor
  · intro h
    split at h
    · next year month day hour minute second =>
      obtain ⟨hwhole, ⟨hyear, rfl, rfl⟩, rfl, rfl, rfl⟩ := Moment.ofFields?_eq_some_iff.1 h
      exact ⟨hwhole, year, hyear, rfl⟩
    · cases h
  · rintro ⟨hwhole, year, hyear, rfl⟩
    exact Moment.ofFields?_eq_some_iff.2 ⟨hwhole, ⟨hyear, rfl, rfl⟩, rfl, rfl, rfl⟩

/-! ## The start -/

/-- **The start is the moment whose fields the name ends with**, up to the year that a word
    stands for. -/
theorem start_eq_some_iff : (ofStem name fps).start = some t ↔ t.IsWhole ∧
    ∃ year < Word.bound32,
      EndsInNumbers name [year, t.date.month, t.date.day, t.hour, t.minute, t.second] ∧
      t.date.year = yearOfWord year := by
  change (lastWords? name).bind momentOfWords? = some t ↔ _
  simp only [Option.bind_eq_some_iff, lastWords?_eq_some_iff, momentOfWords?_eq_some_iff]
  constructor
  · rintro ⟨_, ⟨-, hbound, hends⟩, hwhole, year, hyear, rfl⟩
    exact ⟨hwhole, year, hbound year List.mem_cons_self, hends, hyear⟩
  · rintro ⟨hwhole, year, hbound, hends, hyear⟩
    refine ⟨_, ⟨rfl, ?_, hends⟩, hwhole, year, hyear, rfl⟩
    exact List.forall_mem_cons.2 ⟨hbound, hwhole.forall_lt⟩

/-- A word stands for itself as a year, or for a year before 0. -/
theorem yearOfWord_eq_self_iff {year : Nat} (h : year < Word.bound32) :
    yearOfWord year = year ↔ 0 ≤ yearOfWord year := by
  unfold yearOfWord
  unfold Word.bound32 at h ⊢
  split <;> omega

/-- The numbers of the moment are written at the end of the name. -/
def IsWrittenIn (t : Moment) (name : String) : Prop := ∃ year : Nat, t.date.year = year ∧
  EndsInNumbers name [year, t.date.month, t.date.day, t.hour, t.minute, t.second]

theorem isWrittenIn_iff (h : (ofStem name fps).start = some t) :
    IsWrittenIn t name ↔ 0 ≤ t.date.year := by
  constructor
  · rintro ⟨year, hyear, -⟩
    exact hyear ▸ Int.natCast_nonneg year
  · intro hpos
    obtain ⟨-, year, hbound, hends, hyear⟩ := start_eq_some_iff.1 h
    rw [hyear] at hpos
    exact ⟨year, hyear.trans ((yearOfWord_eq_self_iff hbound).2 hpos), hends⟩

/-- The fields of a moment as `YYYY`, `MM`, `DD`, `HH`, `MM` and `SS`. -/
def shownFields (t : Moment) : List String :=
  Timecode.padded 4 t.date.year.toNat ::
    [t.date.month, t.date.day, t.hour, t.minute, t.second].map (Timecode.padded 2)

/-- The name of a recording that started at a moment, after any text. -/
def nameOf (front : String) (t : Moment) : String :=
  front ++ "-" ++ "-".intercalate (shownFields t)

theorem isNumeral_padded (width n : Nat) :
    Text.IsNumeral n (Timecode.padded width n).toList := .inl (Timecode.areDigitsOf_padded width n)

theorem endsInNumbers_nameOf (front : String) (t : Moment) : EndsInNumbers (nameOf front t)
    [t.date.year.toNat, t.date.month, t.date.day, t.hour, t.minute, t.second] := by
  have hdash : "-".toList = ['-'] := rfl
  refine ⟨(shownFields t).map String.toList, ?_, .inr ⟨front.toList, ?_⟩⟩
  · simp only [shownFields, List.map_cons, List.map_nil, List.forall₂_cons, List.Forall₂.nil,
      and_true, isNumeral_padded]
  · rw [nameOf, String.toList_append, String.toList_append, String.toList_intercalate, hdash,
      List.append_assoc, List.singleton_append]

/-- **A name tells the moment that it was made of**, whatever stands in front. -/
theorem start_of_shownFields (front : String) (hwhole : t.IsWhole) (hyear : 0 ≤ t.date.year) :
    (ofStem (nameOf front t) fps).start = some t := by
  have hlast : t.date.year ≤ 262142 := hwhole.1.1.2
  have hlt : t.date.year.toNat < Word.bound31 := by
    unfold Word.bound31
    omega
  refine start_eq_some_iff.2 ⟨hwhole, t.date.year.toNat, Nat.lt_trans hlt (by decide),
    endsInNumbers_nameOf front t, ?_⟩
  rw [yearOfWord, if_pos hlt, Int.toNat_of_nonneg hyear]

/-- **The start that a name tells.** It is the moment with the numbers that the last six fields
    write, where a year from 2147483648 on stands for one that is 4294967296 years earlier; so
    these numbers are its own exactly if its year is not before 0. A name that is made of the
    fields of a moment not before the year 0 tells this moment. -/
theorem start_of_name (name : String) (fps : Single) (t : Moment) :
    ((ofStem name fps).start = some t ↔ t.IsWhole ∧ ∃ year < Word.bound32,
        EndsInNumbers name [year, t.date.month, t.date.day, t.hour, t.minute, t.second] ∧
        t.date.year = if year < Word.bound31 then (year : Int) else year - Word.bound32) ∧
      ((ofStem name fps).start = some t → (IsWrittenIn t name ↔ 0 ≤ t.date.year)) ∧
      (t.IsWhole → 0 ≤ t.date.year →
        ∀ front, (ofStem (nameOf front t) fps).start = some t) :=
  ⟨start_eq_some_iff, isWrittenIn_iff, fun hwhole hyear front =>
    start_of_shownFields front hwhole hyear⟩

/-- A talk of the 15th of March 2016, whose name has other numbers in front. -/
theorem start_of_name_of_talk :
    IsWrittenIn ⟨⟨2016, 3, 15⟩, 50525000000⟩ "talk-7-1999-2016-03-15-14-02-05" ∧
      nameOf "talk-7-1999" ⟨⟨2016, 3, 15⟩, 50525000000⟩ = "talk-7-1999-2016-03-15-14-02-05" ∧
      (ofStem (nameOf "talk-7-1999" ⟨⟨2016, 3, 15⟩, 50525000000⟩) .one).start =
        some ⟨⟨2016, 3, 15⟩, 50525000000⟩ :=
  ⟨((start_of_name "talk-7-1999-2016-03-15-14-02-05" .one _).2.1 (by decide +kernel)).2
      (by decide), by decide +kernel,
    (start_of_name "" .one _).2.2 (by decide) (by decide) "talk-7-1999"⟩

/-- The greatest word as a year is taken for the year before 0. -/
theorem not_isWrittenIn_of_greatestWord :
    (ofStem "talk-4294967295-01-01-00-00-00" .one).start = some ⟨⟨-1, 1, 1⟩, 0⟩ ∧
      ¬ ∀ t, (ofStem "talk-4294967295-01-01-00-00-00" .one).start = some t →
        IsWrittenIn t "talk-4294967295-01-01-00-00-00" := by
  have hstart : (ofStem "talk-4294967295-01-01-00-00-00" .one).start = some ⟨⟨-1, 1, 1⟩, 0⟩ := by
    decide +kernel
  refine ⟨hstart, fun h => ?_⟩
  have hyear := (isWrittenIn_iff hstart).1 (h _ hstart)
  exact absurd hyear (by decide)

end Clock

end Screenmark
