/-
  Screenmark — dates and moments.

  A date is a day of the calendar, whose years go on before year 1 with 0, -1
  and so on. A moment is a date and a time of that day, in millionths of a
  second.

  * `Date.days` counts the days from the first of January 1970, `Date.ofDays`
    goes back;
  * `Date.ofFields?` asks that a date exists and that its year is one of those
    that dates may have;
  * `Moment.micros` counts millionths of a second, `Moment.add` moves a moment.
-/
import Screenmark.Time.Timecode

namespace Screenmark

/-! ## Dates -/

/-- A day of the calendar. -/
structure Date where
  year : Int
  month : Nat
  day : Nat
deriving DecidableEq

namespace Date

/-- Whether February has 29 days. -/
def isLeap (year : Int) : Bool := year % 4 == 0 && (year % 100 != 0 || year % 400 == 0)

/-- The number of days of a month. -/
def daysOfMonth (year : Int) (month : Nat) : Nat :=
  if month = 2 then (if isLeap year then 29 else 28)
  else if month = 4 ∨ month = 6 ∨ month = 9 ∨ month = 11 then 30
  else 31

/-- The first year of dates. -/
def firstYear : Int := -262143

/-- The last year of dates. -/
def lastYear : Int := 262142

/-- The date with the given year, month and day, if there is one. -/
def ofFields? (year : Int) (month day : Nat) : Option Date :=
  if firstYear ≤ year ∧ year ≤ lastYear ∧ 1 ≤ month ∧ month ≤ 12 ∧ 1 ≤ day ∧
      day ≤ daysOfMonth year month then
    some ⟨year, month, day⟩
  else none

/-- The days from 1970-01-01. Years are counted from March on, so that a leap
    day is the last of its year; 400 years have 146097 days. -/
def days (d : Date) : Int :=
  let y : Int := if d.month ≤ 2 then d.year - 1 else d.year
  let m : Int := if d.month ≤ 2 then d.month + 9 else d.month - 3
  let ofYear : Int := (153 * m + 2) / 5 + d.day - 1
  let yearOfEra := y % 400
  y / 400 * 146097 + (yearOfEra * 365 + yearOfEra / 4 - yearOfEra / 100 + ofYear) - 719468

/-- The date that lies a number of days after 1970-01-01. -/
def ofDays (n : Int) : Date :=
  let z := n + 719468
  let ofEra := z % 146097
  let yearOfEra := (ofEra - ofEra / 1460 + ofEra / 36524 - ofEra / 146096) / 365
  let ofYear := ofEra - (365 * yearOfEra + yearOfEra / 4 - yearOfEra / 100)
  let m := (5 * ofYear + 2) / 153
  let month := if m < 10 then m + 3 else m - 9
  let year := yearOfEra + z / 146097 * 400
  ⟨if month ≤ 2 then year + 1 else year, month.toNat, (ofYear - (153 * m + 2) / 5 + 1).toNat⟩

/-- The year with at least four digits; one outside of 0 to 9999 has a sign. -/
def shownYear (year : Int) : String :=
  let digits := Timecode.padded 4 year.natAbs
  if 0 ≤ year ∧ year ≤ 9999 then digits
  else (if year < 0 then "-" else "+") ++ digits

/-- The date as `YYYY-MM-DD`. -/
def shown (d : Date) : String :=
  shownYear d.year ++ "-" ++ Timecode.padded 2 d.month ++ "-" ++ Timecode.padded 2 d.day

example : (⟨2016, 3, 15⟩ : Date).days = 16875 := by decide
example : ofDays 16875 = ⟨2016, 3, 15⟩ := by decide
example : ofDays (-1) = ⟨1969, 12, 31⟩ := by decide

end Date

/-! ## Moments -/

/-- A date and the millionths of a second that have passed of it. -/
structure Moment where
  date : Date
  ofDay : Nat
deriving DecidableEq

namespace Moment

/-- The millionths of a second of a day. -/
def dayLength : Nat := 86400000000

/-- The moment of a date at a time of the day. -/
def ofDate (date : Date) (hour minute second : Nat) : Moment :=
  ⟨date, ((hour * 60 + minute) * 60 + second) * 1000000⟩

/-- The moment with the given date and time, if there is one. -/
def ofFields? (year : Int) (month day hour minute second : Nat) : Option Moment :=
  match Date.ofFields? year month day with
  | some date =>
    if hour < 24 ∧ minute < 60 ∧ second < 60 then some (ofDate date hour minute second) else none
  | none => none

/-- The millionths of a second since the start of 1970. -/
def micros (t : Moment) : Int := t.date.days * dayLength + t.ofDay

/-- The moment a number of millionths of a second after the start of 1970. -/
def ofMicros (n : Int) : Moment := ⟨.ofDays (n / dayLength), (n % dayLength).toNat⟩

/-- The moment a number of thousandths of a second after the start of 1970, if
    its year is one of those that dates may have. -/
def ofMillis? (n : Int) : Option Moment :=
  let t := ofMicros (n * 1000)
  if Date.firstYear ≤ t.date.year ∧ t.date.year ≤ Date.lastYear then some t else none

/-- The moment that many millionths of a second later. -/
def add (t : Moment) (n : Int) : Moment := ofMicros (t.micros + n)

/-- The seconds that have passed of the day. -/
def secondsOfDay (t : Moment) : Double :=
  Binary.ofNat (t.ofDay / 1000000) +
    Binary.ofNat (t.ofDay % 1000000 * 1000) / Binary.ofNat 1000000000

end Moment

end Screenmark
