import IdMint.Proofs.Calendar
import IdMint.Proofs.Decimal

/-!
# Instants are printed as civil times

An instant is a number, and what is printed of it is a date and a time of day.
A civil time has a number too, the seconds that the calendar counts from 1970
to it, and it is known by that number: two civil times with the same number
are the same, and of two others the earlier one has the smaller digits. So
there is no more to be shown of what is printed than that its number is the
second that has begun.

Before 1970 that second is counted down, and everything here is division with a
remainder that is not negative. Seconds are told by 64 bits of nanoseconds, and these end
in the years 1677 and 2262, far from the years that have other than four digits.

They end within a second, and that is the one place where the printed time is wrong. An
instant of the first second that 64 bits reach into is theirs, but the beginning of that
second is not, and it is taken for an instant at the other end. What is printed then is the
last second of all. From the second after it on, every instant is printed as what it is.
-/

namespace IdMint

/-- The eight digits of a date, as a number. -/
def Date.digits (d : Date) : Nat := (d.year.toNat * 10 ^ 2 + d.month) * 10 ^ 2 + d.day

theorem Date.digits_lt_digits {a b : Date} (ha : a.Valid) (hb : b.Valid) (hyear : 0 ≤ a.year)
    (h : a.Before b) : a.digits < b.digits := by
  have hmonth := ha.month
  have hday := Nat.le_trans ha.day.2 (monthLength_le ..)
  have hfirst := hb.month
  simp only [Before] at h
  simp only [digits]
  omega

/-- A date and a time of day, to the second. -/
structure CivilTime where
  date : Date
  hour : Nat
  minute : Nat
  second : Nat
  deriving DecidableEq, Repr

namespace CivilTime

/-- A date that the calendar has, and a time that a day has. -/
structure Valid (c : CivilTime) : Prop where
  date : c.date.Valid
  hour : c.hour < 24
  minute : c.minute < 60
  second : c.second < 60

/-- The seconds from the start of 1970, with 86400 to the day. -/
def number (c : CivilTime) : Int :=
  c.date.number * 86400 + c.hour * 3600 + c.minute * 60 + c.second

/-- The text is the civil time as `YYYYMMDDHHMMSS`. -/
inductive Written (c : CivilTime) : Bytes → Prop
  | mk {year month day hour minute second : Bytes} (hera : 0 ≤ c.date.year)
      (hyear : Decimal.Shows 4 c.date.year.toNat year) (hmonth : Decimal.Shows 2 c.date.month month)
      (hday : Decimal.Shows 2 c.date.day day) (hhour : Decimal.Shows 2 c.hour hour)
      (hminute : Decimal.Shows 2 c.minute minute) (hsecond : Decimal.Shows 2 c.second second) :
      Written c (year ++ month ++ day ++ hour ++ minute ++ second)

/-- The fourteen digits of a civil time, as a number. -/
def digits (c : CivilTime) : Nat :=
  ((c.date.digits * 10 ^ 2 + c.hour) * 10 ^ 2 + c.minute) * 10 ^ 2 + c.second

variable {a b c : CivilTime} {text text' : Bytes}

theorem Written.shows (h : c.Written text) : Decimal.Shows 14 c.digits text := by
  cases h with
  | mk _ hyear hmonth hday hhour hminute hsecond =>
      exact ((((hyear.append hmonth).append hday).append hhour).append hminute).append hsecond

theorem Written.era (h : c.Written text) : 0 ≤ c.date.year := by
  cases h with
  | mk hera => exact hera

theorem eq_of_number_eq (ha : a.Valid) (hb : b.Valid) (h : a.number = b.number) : a = b := by
  obtain ⟨hadate, hahour, haminute, hasecond⟩ := ha
  obtain ⟨hbdate, hbhour, hbminute, hbsecond⟩ := hb
  simp only [number] at h
  obtain ⟨ad, ah, am, as⟩ := a
  obtain ⟨bd, bh, bm, bs⟩ := b
  obtain rfl : ad = bd := Date.eq_of_number_eq hadate hbdate (by simp only at *; omega)
  simp only [mk.injEq, true_and] at *
  omega

/-- The earlier civil time has the smaller digits. -/
theorem digits_lt_digits (ha : a.Valid) (hb : b.Valid) (hera : 0 ≤ a.date.year)
    (h : a.number < b.number) : a.digits < b.digits := by
  have hhour := ha.hour
  have hminute := ha.minute
  have hsecond := ha.second
  have hlast := hb.hour
  have hlast' := hb.minute
  have hlast'' := hb.second
  simp only [number] at h
  simp only [digits]
  rcases Int.lt_or_le a.date.number b.date.number with hlt | hge
  · have hdate := Date.digits_lt_digits ha.date hb.date hera
      (Date.before_of_number_lt ha.date hb.date hlt)
    omega
  · have hdate := Date.eq_of_number_eq ha.date hb.date (by omega)
    rw [hdate] at h ⊢
    omega

/-- Written, civil times are in the order of time. -/
theorem Written.lt_iff (ha : a.Valid) (hb : b.Valid) (h : a.Written text) (h' : b.Written text') :
    text < text' ↔ a.number < b.number := by
  rw [h.shows.lt_iff h'.shows]
  constructor
  · intro hdigits
    by_contra hge
    rcases Int.lt_or_eq_of_le (Int.not_lt.mp hge) with hlt | heq
    · have := digits_lt_digits hb ha h'.era hlt
      omega
    · rw [eq_of_number_eq hb ha heq] at hdigits
      exact Nat.lt_irrefl _ hdigits
  · exact digits_lt_digits ha hb h.era

/-- A text is that of one second. -/
theorem Written.number_eq (ha : a.Valid) (hb : b.Valid) (h : a.Written text)
    (h' : b.Written text) : a.number = b.number := by
  have hirr : ¬ text < text := List.lt_irrefl _
  exact Int.le_antisymm (Int.not_lt.mp (mt (h'.lt_iff hb ha h).mpr hirr))
    (Int.not_lt.mp (mt (h.lt_iff ha hb h').mpr hirr))

end CivilTime

/-! ## The civil time of an instant -/

namespace Instant

def civil (t : Instant) : CivilTime where
  date := t.date
  hour := (t.secondOfDay / 3600).toNat
  minute := (t.secondOfDay % 3600 / 60).toNat
  second := (t.secondOfDay % 60).toNat

theorem secondOfDay_bounds (t : Instant) : 0 ≤ t.secondOfDay ∧ t.secondOfDay < 86400 := by
  simp only [secondOfDay, secondsPerDay]
  omega

theorem valid_civil (t : Instant) : t.civil.Valid := by
  have hsecond := t.secondOfDay_bounds
  refine ⟨(Date.ofDays_spec _).1, ?_, ?_, ?_⟩ <;> simp only [civil] <;> omega

theorem number_civil (t : Instant) : t.civil.number = t.seconds := by
  have hdate : t.date.number = t.seconds / secondsPerDay := (Date.ofDays_spec _).2
  simp only [CivilTime.number, civil, hdate, secondOfDay, secondsPerDay]
  omega

/-! ### Seconds in 64 bits -/

/-- 64 bits hold the beginning of the second. -/
def Datable (t : Instant) : Prop := Decimal.FitsInt64 (t.nanos / 10 ^ 9 * 10 ^ 9)

theorem datable_iff {t : Instant} (h : Decimal.FitsInt64 t.nanos) :
    t.Datable ↔ -9223372036 * 10 ^ 9 ≤ t.nanos := by
  simp only [Datable, Decimal.FitsInt64] at *
  omega

theorem Datable.seconds_eq {t : Instant} (h : t.Datable) : t.seconds = t.nanos / 10 ^ 9 := by
  have hstart : t.secondStart = t.nanos / 10 ^ 9 * 10 ^ 9 := Decimal.toInt_ofInt h
  rw [seconds, hstart]
  exact Int.mul_tdiv_cancel _ (by decide)

/-- Of the instants before the first second that 64 bits hold from its beginning. -/
theorem seconds_of_not_datable {t : Instant} (h : Decimal.FitsInt64 t.nanos)
    (hnot : ¬ t.Datable) : t.seconds = 9223372036 := by
  have hsecond : t.nanos / nanosPerSecond = -9223372037 := by
    rw [datable_iff h] at hnot
    simp only [Decimal.FitsInt64] at h
    simp only [nanosPerSecond]
    omega
  rw [seconds, secondStart, hsecond]
  decide

theorem seconds_bounds (t : Instant) : -9223372036 ≤ t.seconds ∧ t.seconds ≤ 9223372036 := by
  have hlo := Int64.le_toInt (Int64.ofInt (t.nanos / nanosPerSecond * nanosPerSecond))
  have hhi := Int64.toInt_lt (Int64.ofInt (t.nanos / nanosPerSecond * nanosPerSecond))
  rw [seconds, secondStart]
  generalize (Int64.ofInt (t.nanos / nanosPerSecond * nanosPerSecond)).toInt = start at *
  simp only [nanosPerSecond, Int.tdiv_eq_ediv]
  split
  · omega
  · simp only [Int.sign]
    omega

/-- What is left over of a second is less than 64 bits hold, so it is not lost with the
beginning of the second. -/
theorem millisOfSecond_eq (t : Instant) : t.millisOfSecond = t.nanos / 10 ^ 6 % 1000 := by
  have hrest : (Int64.ofInt (t.nanos - t.secondStart)).toInt = t.nanos % 10 ^ 9 := by
    have hsplit : t.nanos - t.nanos / nanosPerSecond * nanosPerSecond = t.nanos % 10 ^ 9 := by
      simp only [nanosPerSecond]
      omega
    rw [secondStart, Int64.toInt_ofInt, Int64.toInt_ofInt, Int.sub_bmod_bmod, hsplit]
    exact Int.bmod_eq_of_le (by simp only [Int64.size]; omega) (by simp only [Int64.size]; omega)
  rw [millisOfSecond, hrest, Int.tdiv_eq_ediv_of_nonneg (by omega)]
  omega

/-! ### What is printed -/

/-- A year begins with the first second of its first day. -/
theorem le_year_iff {t : Instant} {year : Int} : year ≤ t.date.year ↔
    (Date.daysBeforeYear year - Date.daysBeforeYear 1970) * 86400 ≤ t.seconds := by
  rw [date, Date.le_year_ofDays_iff, secondsPerDay, Int.le_ediv_iff_mul_le (by decide)]

/-- The years that 64 bits reach into. -/
theorem year_bounds (t : Instant) : 1677 ≤ t.date.year ∧ t.date.year ≤ 2262 := by
  have hseconds := t.seconds_bounds
  rw [← Int.lt_add_one_iff (b := 2262), ← Int.not_le, le_year_iff, le_year_iff]
  simp only [Date.daysBeforeYear]
  omega

theorem written_compact (t : Instant) : t.civil.Written t.compact := by
  have hyear : 1677 ≤ t.civil.date.year ∧ t.civil.date.year ≤ 2262 := t.year_bounds
  have hmonth := t.valid_civil.date.month
  have hday := Nat.le_trans t.valid_civil.date.day.2 (Date.monthLength_le ..)
  have hsecond := t.secondOfDay_bounds
  refine .mk (by omega) ?_ ?_ ?_ ?_ ?_ ?_
  · exact Decimal.shows_padded (by decide) (by omega) (by omega)
  · exact Decimal.shows_padded_natCast (by decide) (by omega)
  · exact Decimal.shows_padded_natCast (by decide) (by omega)
  · exact Decimal.shows_padded (by decide) (by omega) (by omega)
  · exact Decimal.shows_padded (by decide) (by omega) (by omega)
  · exact Decimal.shows_padded (by decide) (by omega) (by omega)

theorem civil_congr {t t' : Instant} (h : t.seconds = t'.seconds) : t.civil = t'.civil := by
  simp only [civil, date, secondOfDay, h]

/-- Nothing finer than a second is printed. -/
theorem compact_congr {t t' : Instant} (h : t.seconds = t'.seconds) : t.compact = t'.compact := by
  simp only [compact, date, secondOfDay, h]

theorem compact_lt_iff {t t' : Instant} : t.compact < t'.compact ↔ t.seconds < t'.seconds := by
  rw [t.written_compact.lt_iff t.valid_civil t'.valid_civil t'.written_compact, number_civil,
    number_civil]

theorem compact_eq_iff {t t' : Instant} : t.compact = t'.compact ↔ t.seconds = t'.seconds := by
  refine ⟨fun heq => ?_, compact_congr⟩
  have hwritten := t.written_compact
  rw [heq] at hwritten
  have hnumber := hwritten.number_eq t.valid_civil t'.valid_civil t'.written_compact
  rwa [number_civil, number_civil] at hnumber

/-- The law of printed times. Whatever instant 64 bits hold, before 1970 as well, what is
printed of it is a time that the calendar has. It is the time of the second that has begun,
and printed times compare as these seconds do, from the first second on that 64 bits hold from
its beginning. Of the instants before that, and of no others, it is another time, and one for
all of them. The milliseconds are those since the second began in any case. -/
theorem compact_is_civil_time {t t' : Instant} (ht : Decimal.FitsInt64 t.nanos)
    (ht' : Decimal.FitsInt64 t'.nanos) :
    (∃ c : CivilTime, c.Valid ∧ c.Written t.compact ∧
      (c.number = t.nanos / 10 ^ 9 ↔ -9223372036 * 10 ^ 9 ≤ t.nanos)) ∧
    (-9223372036 * 10 ^ 9 ≤ t.nanos → -9223372036 * 10 ^ 9 ≤ t'.nanos →
      (t.compact < t'.compact ↔ t.nanos / 10 ^ 9 < t'.nanos / 10 ^ 9) ∧
      (t.compact = t'.compact ↔ t.nanos / 10 ^ 9 = t'.nanos / 10 ^ 9)) ∧
    (t.nanos < -9223372036 * 10 ^ 9 → t.compact = ascii "22620411234716") ∧
    t.millisOfSecond = t.nanos / 10 ^ 6 % 1000 := by
  rw [← Int.not_le (a := -9223372036 * 10 ^ 9), ← datable_iff ht, ← datable_iff ht']
  refine ⟨⟨t.civil, t.valid_civil, t.written_compact, ?_⟩, ?_, ?_, t.millisOfSecond_eq⟩
  · rw [number_civil]
    refine ⟨fun hnumber => ?_, Datable.seconds_eq⟩
    by_contra hnot
    rw [seconds_of_not_datable ht hnot] at hnumber
    simp only [Decimal.FitsInt64] at ht
    rw [datable_iff ht] at hnot
    omega
  · intro hdatable hdatable'
    rw [compact_lt_iff, compact_eq_iff, hdatable.seconds_eq, hdatable'.seconds_eq]
    exact ⟨Iff.rfl, Iff.rfl⟩
  · intro hnot
    have hlast : t.seconds = seconds ⟨9223372036000000000⟩ := seconds_of_not_datable ht hnot
    rw [compact_congr hlast]
    decide

/-- The last nanosecond before 1970, and one in the first second of a leap day. -/
theorem compact_is_civil_time_around_1970 :
    ∃ c : CivilTime, c.Valid ∧ c.number = -1 ∧
      c.Written (ascii "19691231235959") ∧ Instant.compact ⟨-1⟩ = ascii "19691231235959" ∧
      Instant.compact ⟨951782400000000001⟩ = ascii "20000229000000" ∧
      ascii "19691231235959" < ascii "20000229000000" ∧ Instant.millisOfSecond ⟨-1⟩ = 999 := by
  have ht : Decimal.FitsInt64 (Instant.nanos ⟨-1⟩) := by decide
  have ht' : Decimal.FitsInt64 (Instant.nanos ⟨951782400000000001⟩) := by decide
  have hcompact : Instant.compact ⟨-1⟩ = ascii "19691231235959" := by decide
  have hcompact' : Instant.compact ⟨951782400000000001⟩ = ascii "20000229000000" := by decide
  obtain ⟨⟨c, hvalid, hwritten, hnumber⟩, horder, -, hmillis⟩ := compact_is_civil_time ht ht'
  obtain ⟨hlt, -⟩ := horder (by decide) (by decide)
  rw [hcompact] at hwritten hlt
  rw [hcompact'] at hlt
  exact ⟨c, hvalid, hnumber.mpr (by decide), hwritten, hcompact, hcompact', hlt.mpr (by decide),
    hmillis⟩

/-- The least instant of 64 bits lies in the year 1677, and is printed as one of 2262. -/
theorem least_instant_printed_as_last_second :
    Decimal.FitsInt64 (-9223372036854775808) ∧
      Instant.compact ⟨-9223372036854775808⟩ = ascii "22620411234716" ∧
      ¬ ∃ c : CivilTime, c.Valid ∧ c.number = -9223372036854775808 / 10 ^ 9 ∧
        c.Written (Instant.compact ⟨-9223372036854775808⟩) := by
  refine ⟨by decide, by decide, ?_⟩
  rintro ⟨c, hvalid, hnumber, hwritten⟩
  let least : Instant := ⟨-9223372036854775808⟩
  have hsecond : least.seconds = 9223372036 := by decide
  have hsame := hwritten.number_eq hvalid least.valid_civil least.written_compact
  rw [number_civil, hsecond, hnumber] at hsame
  exact absurd hsame (by decide)

end Instant

end IdMint
