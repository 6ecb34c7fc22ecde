import SqlTemplate.Proofs.Characters
import SqlTemplate.Render

/-!
# The order of dates

Where dates are texts to the server, it compares them byte by byte. A date has one of three shapes:
the day alone, with the time of day, and with milliseconds on top. The fields have fixed widths and
come from the year down, and a field is left out only where it and those after it are zero; so the
order of the texts is that of the moments, in which what is below a millisecond does not count
(`Value.compare_moments`). A leap second comes last in its minute, as second 60.
-/

namespace SqlTemplate

/-! ### Valid dates -/

namespace Date

def isLeap (year : Int) : Bool := year % 4 = 0 && (year % 100 ≠ 0 || year % 400 = 0)

def monthLength (year : Int) (month : Nat) : Nat :=
  if month = 2 then if isLeap year then 29 else 28
  else if month = 4 ∨ month = 6 ∨ month = 9 ∨ month = 11 then 30
  else 31

/-- A day of the calendar. -/
structure IsValid (d : Date) : Prop where
  month_pos : 0 < d.month
  month_le : d.month ≤ 12
  day_pos : 0 < d.day
  day_le : d.day ≤ monthLength d.year d.month

end Date

namespace DateTime

/-- A moment of a day of the calendar. Only the last second of a minute may go on into a leap
second. -/
structure IsValid (t : DateTime) : Prop where
  date : t.date.IsValid
  second_lt : t.second < 86400
  nano_lt : t.nano < 1000000000 ∨ t.second % 60 = 59 ∧ t.nano < 2000000000

/-- Without what is below a millisecond. -/
def truncated (t : DateTime) : DateTime := { t with nano := t.nano / 1000000 * 1000000 }

/-- Which of two moments is the earlier one. -/
def order (t u : DateTime) : Ordering :=
  (compare t.date.toDays u.date.toDays).then
    ((compare t.second u.second).then (compare t.nano u.nano))

end DateTime

/-- The moment of a date is its start. -/
def Value.moment? : Value → Option DateTime
  | .date d => some (.ofDate d)
  | .dateTime t => some t
  | _ => none

/-! ### Comparing in steps -/

theorem compare_eq_compare {a b c d : Nat} (hlt : a < b ↔ c < d) (hgt : b < a ↔ d < c) :
    compare a b = compare c d := by
  simp only [Nat.compare_eq_ite_lt, hlt, hgt]

/-- The upper part of a number, and then what is below it. -/
theorem then_compare {k a a' b b' : Nat} (hb : b < k) (hb' : b' < k) :
    (compare a a').then (compare b b') = compare (k * a + b) (k * a' + b') := by
  have hbelow {x y z w : Nat} (hxy : x < y) (hz : z < k) : k * x + z < k * y + w :=
    calc k * x + z
      _ < k * x + k := by omega
      _ = k * (x + 1) := rfl
      _ ≤ k * y := Nat.mul_le_mul_left k hxy
      _ ≤ k * y + w := Nat.le_add_right _ _
  rcases Nat.lt_trichotomy a a' with hlt | rfl | hgt
  · rw [Nat.compare_eq_lt.mpr hlt, Nat.compare_eq_lt.mpr (hbelow hlt hb)]
    rfl
  · rw [Nat.compare_eq_eq.mpr rfl]
    exact compare_eq_compare (by omega) (by omega)
  · rw [Nat.compare_eq_gt.mpr hgt, Nat.compare_eq_gt.mpr (hbelow hgt hb')]
    rfl

theorem compare_append {a b : Bytes} (x y : Bytes) (h : a.length = b.length) :
    compare (a ++ x) (b ++ y) = (compare a b).then (compare x y) := by
  induction a generalizing b with
  | nil =>
    obtain rfl := List.length_eq_zero_iff.mp h.symm
    rfl
  | cons head rest ih =>
    cases b with
    | nil => cases h
    | cons head' rest' =>
      rw [List.cons_append, List.cons_append, List.compare_cons_cons, List.compare_cons_cons,
        ih (Nat.succ.inj h), Ordering.then_assoc]

theorem compare_cons (b : UInt8) (x y : Bytes) : compare (b :: x) (b :: y) = compare x y := by
  rw [List.compare_cons_cons, Std.ReflOrd.compare_self]
  rfl

/-- What is left out for zero, and otherwise begins with the same mark, is in order if what follows
the mark is. -/
theorem compare_optional {n m : Nat} {x y : Bytes} (b : UInt8) (h : compare x y = compare n m) :
    compare (if n = 0 then [] else b :: x) (if m = 0 then [] else b :: y) = compare n m := by
  by_cases hn : n = 0 <;> by_cases hm : m = 0
  · rw [if_pos hn, if_pos hm, hn, hm]
    rfl
  · rw [if_pos hn, if_neg hm, List.compare_nil_cons, Nat.compare_eq_lt.mpr (by omega)]
  · rw [if_neg hn, if_pos hm, List.compare_cons_nil, Nat.compare_eq_gt.mpr (by omega)]
  · rw [if_neg hn, if_neg hm, compare_cons, h]

/-! ### Fields of digits -/

namespace Literal

theorem chars_cons {c : Char} (h : c.toNat < 128) (text : List Char) :
    chars (c :: text) = c.toNat.toUInt8 :: chars text := by
  rw [chars_eq_flatMap, chars_eq_flatMap, List.flatMap_cons, utf8EncodeChar_of_toNat_lt h]
  rfl

theorem chars_digit {n : Nat} (h : n < 10) : chars [Nat.digitChar n] = [(48 + n).toUInt8] := by
  have hcode := Nat.toNat_digitChar_of_lt_ten h
  rw [chars_cons (by omega), hcode]
  rfl

theorem compare_digit {n m : Nat} (hn : n < 10) (hm : m < 10) :
    compare (chars [Nat.digitChar n]) (chars [Nat.digitChar m]) = compare n m := by
  have hcode {k : Nat} (hk : k < 10) : (48 + k).toUInt8.toNat = 48 + k := by
    rw [Nat.toUInt8, UInt8.toNat_ofNat']
    exact Nat.mod_eq_of_lt (by omega)
  have hbyte : compare (48 + n).toUInt8 (48 + m).toUInt8 = compare n m := by
    rw [UInt8.compare_eq_toNat_compare_toNat, hcode hn, hcode hm]
    exact compare_eq_compare (by omega) (by omega)
  rw [chars_digit hn, chars_digit hm, List.compare_cons_cons, hbyte]
  exact Ordering.then_eq ..

end Literal

open Literal

theorem padded_one {n : Nat} (h : n < 10) : padded 1 n = [Nat.digitChar n] := by
  rw [padded, Nat.toDigits_of_lt_base h]
  rfl

/-- The last digit comes off the end of a field. -/
theorem padded_succ {width : Nat} (hwidth : 0 < width) (n : Nat) :
    padded (width + 1) n = padded width (n / 10) ++ [Nat.digitChar (n % 10)] := by
  rw [padded, padded, Nat.toDigits_eq_if (by decide)]
  by_cases h : n < 10
  · obtain ⟨before, rfl⟩ : ∃ before, width = before + 1 := ⟨width - 1, by omega⟩
    rw [if_pos h, Nat.div_eq_of_lt h, Nat.mod_eq_of_lt h, Nat.toDigits_zero]
    simp [List.replicate_succ']
  · rw [if_neg h]
    simp

theorem length_padded {width n : Nat} (hwidth : 0 < width) (h : n < Nat.pow 10 width) :
    (chars (padded width n)).length = width := by
  induction width, hwidth using Nat.le_induction generalizing n with
  | base => rw [padded_one h, chars_digit h, List.length_singleton]
  | succ width hwidth ih =>
    have hfront : n / 10 < Nat.pow 10 width := Nat.div_lt_of_lt_mul (Nat.mul_comm _ _ ▸ h)
    rw [padded_succ hwidth, chars_append, List.length_append, ih hfront,
      chars_digit (Nat.mod_lt _ (by decide)), List.length_singleton]

/-- Fields of one width are in the order of their numbers. -/
theorem compare_padded {width n m : Nat} (hwidth : 0 < width) (hn : n < Nat.pow 10 width)
    (hm : m < Nat.pow 10 width) :
    compare (chars (padded width n)) (chars (padded width m)) = compare n m := by
  induction width, hwidth using Nat.le_induction generalizing n m with
  | base => rw [padded_one hn, padded_one hm, compare_digit hn hm]
  | succ width hwidth ih =>
    have hfront {k : Nat} (hk : k < Nat.pow 10 (width + 1)) : k / 10 < Nat.pow 10 width :=
      Nat.div_lt_of_lt_mul (Nat.mul_comm _ _ ▸ hk)
    have hlast (k : Nat) : k % 10 < 10 := Nat.mod_lt k (by decide)
    have hlength := (length_padded hwidth (hfront hn)).trans (length_padded hwidth (hfront hm)).symm
    rw [padded_succ hwidth, padded_succ hwidth, chars_append, chars_append,
      compare_append _ _ hlength, ih (hfront hn) (hfront hm), compare_digit (hlast n) (hlast m),
      then_compare (hlast n) (hlast m), Nat.div_add_mod, Nat.div_add_mod]

theorem compare_padded_append {width n m : Nat} {x y : Bytes} (hwidth : 0 < width)
    (hn : n < Nat.pow 10 width) (hm : m < Nat.pow 10 width) :
    compare (chars (padded width n) ++ x) (chars (padded width m) ++ y)
      = (compare n m).then (compare x y) := by
  rw [compare_append _ _ ((length_padded hwidth hn).trans (length_padded hwidth hm).symm),
    compare_padded hwidth hn hm]

/-! ### Days

Years are counted from March here, as `Date.toDays` does, so that February is the last month. -/

namespace Date

def marchYear (d : Date) : Int := if d.month ≤ 2 then d.year - 1 else d.year

def marchMonth (d : Date) : Nat := (d.month + 9) % 12

/-- The first day of March. -/
def yearStart (year : Int) : Int := 365 * year + year / 4 - year / 100 + year / 400

/-- Days in a year before a month. -/
def monthStart (month : Nat) : Nat := (153 * month + 2) / 5

theorem toDays_eq (d : Date) :
    d.toDays = yearStart d.marchYear + (monthStart d.marchMonth + d.day - 1 : Nat) := by
  simp only [toDays, yearStart, marchYear, monthStart, marchMonth,
    Int.fdiv_eq_ediv_of_nonneg _ (show (0 : Int) ≤ 4 by decide),
    Int.fdiv_eq_ediv_of_nonneg _ (show (0 : Int) ≤ 100 by decide),
    Int.fdiv_eq_ediv_of_nonneg _ (show (0 : Int) ≤ 400 by decide)]

theorem yearStart_mono {year later : Int} (h : year ≤ later) :
    yearStart year ≤ yearStart later := by
  unfold yearStart
  omega

theorem yearStart_succ (year : Int) :
    yearStart (year + 1) = yearStart year + 365 + (if isLeap (year + 1) then 1 else 0) := by
  unfold yearStart isLeap
  split <;> rename_i hleap <;>
  · simp only [Bool.and_eq_true, Bool.or_eq_true, decide_eq_true_eq] at hleap
    omega

theorem monthLength_le (year : Int) (month : Nat) : monthLength year month ≤ 31 := by
  unfold monthLength
  split
  · split <;> decide
  · split <;> decide

variable {d e : Date}

/-- The days of a month other than February are those up to the next month. -/
theorem IsValid.day_le_monthStart (h : d.IsValid) (hmonth : d.month ≠ 2) :
    d.marchMonth < 11 ∧ monthStart d.marchMonth + d.day ≤ monthStart (d.marchMonth + 1) := by
  have hlengths : ∀ month < 13, 0 < month → month ≠ 2 → (month + 9) % 12 < 11 ∧
      monthStart ((month + 9) % 12) + monthLength 0 month ≤ monthStart ((month + 9) % 12 + 1) := by
    decide
  have hsame : monthLength d.year d.month = monthLength 0 d.month := by
    rw [monthLength, monthLength, if_neg hmonth, if_neg hmonth]
  obtain ⟨hlt, hle⟩ := hlengths d.month (Nat.lt_succ_of_le h.month_le) h.month_pos hmonth
  have hday := h.day_le
  rw [hsame] at hday
  exact ⟨hlt, Nat.le_trans (Nat.add_le_add_left hday _) hle⟩

theorem yearStart_le (d : Date) : yearStart d.marchYear ≤ d.toDays := by
  rw [toDays_eq]
  omega

/-- A year ends before the next one starts. -/
theorem IsValid.toDays_lt (h : d.IsValid) : d.toDays < yearStart (d.marchYear + 1) := by
  rw [toDays_eq, yearStart_succ]
  have hday := h.day_le
  have hpos := h.day_pos
  by_cases hmonth : d.month = 2
  · have hyear : d.marchYear + 1 = d.year := by
      simp [marchYear, hmonth]
    rw [monthLength, if_pos hmonth] at hday
    have hstart : monthStart d.marchMonth = 337 := by
      rw [marchMonth, hmonth]
      rfl
    rw [hyear, hstart]
    split at hday <;> rename_i hleap
    · rw [if_pos hleap]
      omega
    · rw [if_neg hleap]
      omega
  · obtain ⟨hlt, hle⟩ := h.day_le_monthStart hmonth
    have hstart : monthStart (d.marchMonth + 1) ≤ 337 := by
      unfold monthStart
      omega
    split <;> omega

/-- Days are counted in the order of the calendar. -/
theorem toDays_lt_toDays (hd : d.IsValid) (he : e.IsValid)
    (h : d.year < e.year ∨ d.year = e.year ∧
      (d.month < e.month ∨ d.month = e.month ∧ d.day < e.day)) : d.toDays < e.toDays := by
  have hmarch : d.marchYear < e.marchYear ∨ d.marchYear = e.marchYear ∧
      (d.marchMonth < e.marchMonth ∨ d.marchMonth = e.marchMonth ∧ d.day < e.day) := by
    have hd' := hd.month_le
    have he' := he.month_le
    have hdpos := hd.month_pos
    have hepos := he.month_pos
    unfold marchYear marchMonth
    split <;> split <;> omega
  rcases hmarch with hyear | ⟨hyear, hmonth | ⟨hmonth, hday⟩⟩
  · calc d.toDays
      _ < yearStart (d.marchYear + 1) := hd.toDays_lt
      _ ≤ yearStart e.marchYear := yearStart_mono hyear
      _ ≤ e.toDays := e.yearStart_le
  · have hnot : d.month ≠ 2 := by
      intro hfebruary
      have hlast : d.marchMonth = 11 := by
        rw [marchMonth, hfebruary]
      have hbound : e.marchMonth < 12 := Nat.mod_lt _ (by decide)
      omega
    have hend := (hd.day_le_monthStart hnot).2
    have hstart : monthStart (d.marchMonth + 1) ≤ monthStart e.marchMonth := by
      unfold monthStart
      omega
    have hdpos := hd.day_pos
    have hepos := he.day_pos
    rw [toDays_eq, toDays_eq, hyear]
    omega
  · have hdpos := hd.day_pos
    rw [toDays_eq, toDays_eq, hyear, hmonth]
    omega

theorem compare_toDays (hd : d.IsValid) (he : e.IsValid) :
    compare d.toDays e.toDays
      = (compare d.year e.year).then ((compare d.month e.month).then (compare d.day e.day)) := by
  cases hlex : (compare d.year e.year).then
      ((compare d.month e.month).then (compare d.day e.day)) with
  | lt =>
    simp only [Ordering.then_eq_lt, Int.compare_eq_lt, Int.compare_eq_eq, Nat.compare_eq_lt,
      Nat.compare_eq_eq] at hlex
    exact Int.compare_eq_lt.mpr (toDays_lt_toDays hd he hlex)
  | gt =>
    simp only [Ordering.then_eq_gt, Int.compare_eq_gt, Int.compare_eq_eq, Nat.compare_eq_gt,
      Nat.compare_eq_eq] at hlex
    exact Int.compare_eq_gt.mpr (toDays_lt_toDays he hd (by omega))
  | eq =>
    simp only [Ordering.then_eq_eq, Int.compare_eq_eq, Nat.compare_eq_eq] at hlex
    obtain rfl : d = e := by
      cases d
      cases e
      simpa using hlex
    exact Int.compare_eq_eq.mpr rfl

theorem toDays_injective (hd : d.IsValid) (he : e.IsValid) (h : d.toDays = e.toDays) : d = e := by
  have hfields := compare_toDays hd he
  rw [h, Int.compare_eq_eq.mpr rfl] at hfields
  simp only [Ordering.then_eq_eq, Int.compare_eq_eq, Nat.compare_eq_eq,
    eq_comm (a := Ordering.eq)] at hfields
  cases d
  cases e
  simpa using hfields

end Date

/-! ### Texts -/

namespace Date

theorem chars_text (d : Date) (hyear : 0 ≤ d.year ∧ d.year ≤ 9999) (rest : Bytes) :
    chars d.text ++ rest = chars (padded 4 d.year.toNat) ++ Byte.minus ::
      (chars (padded 2 d.month) ++ Byte.minus :: (chars (padded 2 d.day) ++ rest)) := by
  have hdigits : yearText d.year = padded 4 d.year.toNat :=
    if_pos (by simpa using ⟨hyear.1, Int.lt_of_le_sub_one hyear.2⟩)
  rw [text, hdigits, chars_append, chars_append, chars_cons (by decide), chars_cons (by decide)]
  simp only [List.append_assoc, List.cons_append]
  rfl

/-- Days are written in the order in which they are counted. -/
theorem compare_text {d e : Date} (hd : d.IsValid) (he : e.IsValid)
    (hyear : 0 ≤ d.year ∧ d.year ≤ 9999) (hyear' : 0 ≤ e.year ∧ e.year ≤ 9999) (x y : Bytes) :
    compare (chars d.text ++ x) (chars e.text ++ y)
      = (compare d.toDays e.toDays).then (compare x y) := by
  have hmonth {d : Date} (h : d.IsValid) : d.month < Nat.pow 10 2 :=
    Nat.lt_of_le_of_lt h.month_le (by decide)
  have hday {d : Date} (h : d.IsValid) : d.day < Nat.pow 10 2 :=
    Nat.lt_of_le_of_lt h.day_le (Nat.lt_of_le_of_lt (monthLength_le _ _) (by decide))
  have hfield {year : Int} (h : 0 ≤ year ∧ year ≤ 9999) : year.toNat < Nat.pow 10 4 := by
    show year.toNat < 10000
    omega
  have hcompare : compare d.year.toNat e.year.toNat = compare d.year e.year := by
    have hlt : d.year.toNat < e.year.toNat ↔ d.year < e.year := by omega
    have hgt : e.year.toNat < d.year.toNat ↔ e.year < d.year := by omega
    simp only [Nat.compare_eq_ite_lt, Int.compare_eq_ite_lt, hlt, hgt]
  rw [chars_text d hyear, chars_text e hyear',
    compare_padded_append (by decide) (hfield hyear) (hfield hyear'), compare_cons,
    compare_padded_append (by decide) (hmonth hd) (hmonth he), compare_cons,
    compare_padded_append (by decide) (hday hd) (hday he), hcompare, compare_toDays hd he,
    Ordering.then_assoc, Ordering.then_assoc]

end Date

namespace DateTime

/-- Milliseconds since midnight, if every minute had sixty-one seconds. -/
def dayMilli (t : DateTime) : Nat :=
  3660000 * (t.second / 3600) + (61000 * (t.second / 60 % 60)
    + (1000 * (t.second % 60 + t.nano / 1000000000) + t.milli))

/-- The bytes of the milliseconds, which are left out if they are zero. -/
def milliText (t : DateTime) : Bytes :=
  if t.milli = 0 then [] else Byte.dot :: chars (padded 3 t.milli)

/-- The bytes of the time of day, which is left out at midnight. -/
def timeText (t : DateTime) : Bytes :=
  if t.dayMilli = 0 then [] else Byte.space :: (chars t.clockText ++ t.milliText)

theorem chars_text {t : DateTime} (h : t.IsValid) :
    chars t.text = chars t.date.text ++ t.timeText := by
  have hzero : t.dayMilli = 0 ↔ t.second = 0 ∧ t.milli = 0 := by
    have hnano := h.nano_lt
    unfold dayMilli
    omega
  unfold text timeText milliText
  by_cases hmilli : t.milli = 0
  · by_cases hsecond : t.second = 0
    · rw [if_pos (hzero.mpr ⟨hsecond, hmilli⟩), if_neg (by simpa using hmilli),
        if_neg (by simpa using hsecond), List.append_nil]
    · rw [if_neg (fun h => hsecond (hzero.mp h).1), if_pos hmilli, if_neg (by simpa using hmilli),
        if_pos (by simpa using hsecond), chars_append, chars_cons (by decide), List.append_nil]
      rfl
  · rw [if_neg (fun h => hmilli (hzero.mp h).2), if_neg hmilli, if_pos (by simpa using hmilli),
      chars_append, chars_append, chars_cons (by decide), chars_cons (by decide), List.append_assoc]
    rfl

theorem chars_clockText (t : DateTime) (rest : Bytes) :
    chars t.clockText ++ rest = chars (padded 2 (t.second / 3600)) ++ Byte.colon ::
      (chars (padded 2 (t.second / 60 % 60)) ++ Byte.colon ::
        (chars (padded 2 (t.second % 60 + t.nano / 1000000000)) ++ rest)) := by
  rw [clockText, chars_append, chars_append, chars_cons (by decide), chars_cons (by decide)]
  simp only [List.append_assoc, List.cons_append]
  rfl

theorem compare_milliText (t u : DateTime) :
    compare t.milliText u.milliText = compare t.milli u.milli := by
  have hbound (t : DateTime) : t.milli < Nat.pow 10 3 := Nat.mod_lt _ (by decide)
  exact compare_optional Byte.dot (compare_padded (by decide) (hbound t) (hbound u))

theorem compare_timeText {t u : DateTime} (ht : t.IsValid) (hu : u.IsValid) :
    compare t.timeText u.timeText = compare t.dayMilli u.dayMilli := by
  have hhour {t : DateTime} (h : t.IsValid) : t.second / 3600 < Nat.pow 10 2 := by
    have hsecond := h.second_lt
    show t.second / 3600 < 100
    omega
  have hminute (t : DateTime) : t.second / 60 % 60 < Nat.pow 10 2 :=
    Nat.lt_trans (Nat.mod_lt _ (by decide)) (by decide)
  have hsecond {t : DateTime} (h : t.IsValid) : t.second % 60 + t.nano / 1000000000 < 61 := by
    have hnano := h.nano_lt
    omega
  have hmilli (t : DateTime) : t.milli < 1000 := Nat.mod_lt _ (by decide)
  have hwithin {t : DateTime} (h : t.IsValid) :
      1000 * (t.second % 60 + t.nano / 1000000000) + t.milli < 61000 := by
    have hlt := hsecond h
    have hbelow := hmilli t
    omega
  have hhourMilli {t : DateTime} (h : t.IsValid) : 61000 * (t.second / 60 % 60)
      + (1000 * (t.second % 60 + t.nano / 1000000000) + t.milli) < 3660000 := by
    have hlt := hwithin h
    omega
  refine compare_optional Byte.space ?_
  rw [chars_clockText, chars_clockText, compare_padded_append (by decide) (hhour ht) (hhour hu),
    compare_cons, compare_padded_append (by decide) (hminute t) (hminute u), compare_cons,
    compare_padded_append (by decide) (Nat.lt_trans (hsecond ht) (by decide))
      (Nat.lt_trans (hsecond hu) (by decide)), compare_milliText,
    then_compare (hmilli t) (hmilli u), then_compare (hwithin ht) (hwithin hu),
    then_compare (hhourMilli ht) (hhourMilli hu)]
  rfl

theorem dayMilli_eq (t : DateTime) :
    t.dayMilli = 1000 * (t.second + t.second / 60) + t.nano / 1000000 := by
  have hhour : t.second / 60 / 60 = t.second / 3600 := Nat.div_div_eq_div_mul ..
  have hleap : t.nano / 1000000 / 1000 = t.nano / 1000000000 := Nat.div_div_eq_div_mul ..
  unfold dayMilli milli
  omega

/-- A moment of a day is before another iff it has fewer of these milliseconds. -/
theorem compare_dayMilli {t u : DateTime} (ht : t.IsValid) (hu : u.IsValid) :
    (compare t.second u.second).then (compare t.truncated.nano u.truncated.nano)
      = compare t.dayMilli u.dayMilli := by
  have hnano {t : DateTime} (h : t.IsValid) : t.truncated.nano < 2000000000 := by
    have hlt := h.nano_lt
    show t.nano / 1000000 * 1000000 < 2000000000
    omega
  have hmono {t u : DateTime} (ht : t.IsValid) (hu : u.IsValid) :
      2000000000 * t.second + t.truncated.nano < 2000000000 * u.second + u.truncated.nano ↔
        t.dayMilli < u.dayMilli := by
    have hnano := ht.nano_lt
    have hnano' := hu.nano_lt
    rw [dayMilli_eq, dayMilli_eq, truncated, truncated]
    dsimp only
    omega
  rw [then_compare (hnano ht) (hnano hu)]
  exact compare_eq_compare (hmono ht hu) (hmono hu ht)

/-- Texts are in the order of the moments they are of, to the millisecond. -/
theorem compare_chars_text {t u : DateTime} (ht : t.IsValid) (hu : u.IsValid)
    (hyear : 0 ≤ t.date.year ∧ t.date.year ≤ 9999) (hyear' : 0 ≤ u.date.year ∧ u.date.year ≤ 9999) :
    compare (chars t.text) (chars u.text) = t.truncated.order u.truncated := by
  rw [chars_text ht, chars_text hu, Date.compare_text ht.date hu.date hyear hyear',
    compare_timeText ht hu, ← compare_dayMilli ht hu]
  rfl

theorem order_eq_iff {t u : DateTime} (ht : t.IsValid) (hu : u.IsValid) :
    t.truncated.order u.truncated = .eq ↔ t.truncated = u.truncated := by
  constructor
  · intro h
    simp only [order, Ordering.then_eq_eq, Int.compare_eq_eq, Nat.compare_eq_eq] at h
    obtain ⟨hdays, hsecond, hnano⟩ := h
    have hdate : t.date = u.date := Date.toDays_injective ht.date hu.date hdays
    rw [truncated, truncated, mk.injEq]
    exact ⟨hdate, hsecond, hnano⟩
  · intro h
    simp [h, order]

end DateTime

theorem Literal.chars_injective {x y : List Char} (h : chars x = chars y) : x = y :=
  String.ofList_injective (utf8_injective h)

theorem Value.literal_of_moment {v : Value} {t : DateTime} (h : v.moment? = some t)
    (style : LiteralStyle) : v.literal style = .ok (Literal.dateText t.text) := by
  cases v with
  | date d =>
    cases h
    rw [DateTime.text_ofDate]
    rfl
  | dateTime u =>
    cases h
    rfl
  | _ => cases h

/-- Dates and times of the years that have four digits are written in the order of their moments: an
earlier one has the smaller text, and two have the same text iff they are in the same millisecond.
-/
theorem Value.compare_moments {v w : Value} {t u : DateTime} (hv : v.moment? = some t)
    (hw : w.moment? = some u) (ht : t.IsValid) (hu : u.IsValid)
    (hyear : 0 ≤ t.date.year ∧ t.date.year ≤ 9999) (hyear' : 0 ≤ u.date.year ∧ u.date.year ≤ 9999)
    (style : LiteralStyle) :
    ∃ x y, v.literal style = .ok (dateText x) ∧ w.literal style = .ok (dateText y) ∧
      compare (chars x) (chars y) = t.truncated.order u.truncated ∧
      (x = y ↔ t.truncated = u.truncated) := by
  have hcompare := DateTime.compare_chars_text ht hu hyear hyear'
  refine ⟨t.text, u.text, literal_of_moment hv style, literal_of_moment hw style, hcompare, ?_⟩
  calc t.text = u.text
    _ ↔ chars t.text = chars u.text := ⟨congrArg chars, chars_injective⟩
    _ ↔ compare (chars t.text) (chars u.text) = .eq := Std.LawfulEqOrd.compare_eq_iff_eq.symm
    _ ↔ t.truncated = u.truncated := hcompare ▸ DateTime.order_eq_iff ht hu

/-- The leap second at the end of a year comes before the next year. -/
theorem Value.compare_moments_leapSecond :
    let style : LiteralStyle := ⟨true, false⟩
    ∃ x y, (dateTime ⟨⟨2016, 12, 31⟩, 86399, 1500000000⟩).literal style = .ok (dateText x) ∧
      (date ⟨2017, 1, 1⟩).literal style = .ok (dateText y) ∧
      compare (chars x) (chars y) = .lt ∧ x ≠ y := by
  intro style
  have hleap : DateTime.IsValid ⟨⟨2016, 12, 31⟩, 86399, 1500000000⟩ :=
    ⟨⟨by decide, by decide, by decide, by decide⟩, by decide, by decide⟩
  have hnext : (DateTime.ofDate ⟨2017, 1, 1⟩).IsValid :=
    ⟨⟨by decide, by decide, by decide, by decide⟩, by decide, by decide⟩
  obtain ⟨x, y, hx, hy, hcompare, heq⟩ := compare_moments (v := .dateTime _) (w := .date _)
    rfl rfl hleap hnext (by decide) (by decide) style
  exact ⟨x, y, hx, hy, hcompare, fun h => absurd (heq.mp h) (by decide)⟩

end SqlTemplate
