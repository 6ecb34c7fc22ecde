/-!
# Dates and times

Days of the proleptic Gregorian calendar and times of day to the nanosecond. A leap second is the
last second of a minute with a nanosecond count of a whole second or more.
-/

namespace SqlTemplate

structure Date where
  year : Int
  month : Nat
  day : Nat
deriving DecidableEq, Repr

structure DateTime where
  date : Date
  /-- Seconds since midnight. -/
  second : Nat
  nano : Nat
deriving DecidableEq, Repr

/-- Decimal digits, filled up with zeros on the left to `width`. -/
def padded (width n : Nat) : List Char :=
  let digits := Nat.toDigits 10 n
  List.replicate (width - digits.length) '0' ++ digits

namespace Date

/-- Days from 1 March of the year 0, counting years from March so that the leap day comes last. -/
def toDays (d : Date) : Int :=
  let year := if d.month ≤ 2 then d.year - 1 else d.year
  let month := (d.month + 9) % 12
  let dayOfYear := (153 * month + 2) / 5 + d.day - 1
  365 * year + year.fdiv 4 - year.fdiv 100 + year.fdiv 400 + dayOfYear

/-- The day that many days after 1 March of the year 0. -/
def ofDays (days : Int) : Date :=
  let era := days.fdiv 146097
  let dayOfEra := (days.fmod 146097).toNat
  let yearOfEra := (dayOfEra - dayOfEra / 1460 + dayOfEra / 36524 - dayOfEra / 146096) / 365
  let dayOfYear := dayOfEra - (365 * yearOfEra + yearOfEra / 4 - yearOfEra / 100)
  let month := (5 * dayOfYear + 2) / 153
  let day := dayOfYear - (153 * month + 2) / 5 + 1
  let year := era * 400 + yearOfEra
  if month < 10 then ⟨year, month + 3, day⟩ else ⟨year + 1, month - 9, day⟩

/-- Four digits, with a sign before a year that is negative or has more. -/
def yearText (year : Int) : List Char :=
  if 0 ≤ year && year < 10000 then padded 4 year.toNat
  else (if year < 0 then '-' else '+') :: padded 4 year.natAbs

def text (d : Date) : List Char :=
  yearText d.year ++ '-' :: padded 2 d.month ++ '-' :: padded 2 d.day

end Date

namespace DateTime

/-- The start of a day. -/
def ofDate (date : Date) : DateTime := ⟨date, 0, 0⟩

/-- The moment a clock shows `clock` in a zone `offset` seconds ahead of universal time, in
universal time. -/
def ofZone (clock : DateTime) (offset : Int) : DateTime :=
  let second := (clock.second : Int) - offset
  ⟨Date.ofDays (clock.date.toDays + second.fdiv 86400), (second.fmod 86400).toNat, clock.nano⟩

/-- Whole milliseconds since the start of the second, or of the leap second. -/
def milli (t : DateTime) : Nat := t.nano / 1000000 % 1000

/-- Hours, minutes and seconds; a leap second is second 60. -/
def clockText (t : DateTime) : List Char :=
  padded 2 (t.second / 3600) ++ ':' :: padded 2 (t.second / 60 % 60)
    ++ ':' :: padded 2 (t.second % 60 + t.nano / 1000000000)

/-- The date, with the time of day unless it is midnight, and with milliseconds unless they are
zero. What is below a millisecond is dropped. -/
def text (t : DateTime) : List Char :=
  if t.milli != 0 then t.date.text ++ ' ' :: t.clockText ++ '.' :: padded 3 t.milli
  else if t.second != 0 then t.date.text ++ ' ' :: t.clockText
  else t.date.text

theorem text_ofDate (date : Date) : (ofDate date).text = date.text := by
  simp [text, milli, ofDate]

end DateTime

end SqlTemplate
