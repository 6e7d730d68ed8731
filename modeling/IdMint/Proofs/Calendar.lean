import IdMint.Time.Calendar
import Mathlib.Tactic.IntervalCases

/-!
# The dates are those of the calendar

`Date.ofDays` cuts a number of days into cycles that start in March. The
calendar itself is simpler to say: months have their lengths, a leap year has
one day more, and every fourth year is one except the centuries that are not
multiples of four. `Date.number` counts days by these rules alone, without
a cycle, and `ofDays` is its inverse.

The count of a valid date rises with year, month and day in this order. So a
date is known by its count, and of two dates the one with the smaller count is
before the other; what is left of the calendar, for whoever compares times, is
that.
-/

namespace IdMint.Date

/-! ## The rules -/

/-- The days that a year has beyond 365: one if it is a leap year. -/
def leapDays (year : Int) : Nat :=
  if year % 4 = 0 ∧ (year % 100 ≠ 0 ∨ year % 400 = 0) then 1 else 0

/-- The length of a month. -/
def monthLength (year : Int) : Nat → Nat
  | 2 => 28 + leapDays year
  | 4 | 6 | 9 | 11 => 30
  | _ => 31

/-- The days of a year before a month. -/
def daysBeforeMonth (year : Int) (month : Nat) : Nat :=
  ((List.range (month - 1)).map fun m => monthLength year (m + 1)).sum

/-- The days from the start of the year 1 to the start of a year. -/
def daysBeforeYear (year : Int) : Int :=
  365 * (year - 1) + (year - 1) / 4 - (year - 1) / 100 + (year - 1) / 400

/-- The days from the start of 1970 to a date. -/
def number (d : Date) : Int :=
  daysBeforeYear d.year - daysBeforeYear 1970 + daysBeforeMonth d.year d.month + d.day - 1

/-- A date that the calendar has. -/
structure Valid (d : Date) : Prop where
  month : 1 ≤ d.month ∧ d.month ≤ 12
  day : 1 ≤ d.day ∧ d.day ≤ monthLength d.year d.month

theorem leapDays_le (year : Int) : leapDays year ≤ 1 := by
  rw [leapDays]
  split
  · exact Nat.le_refl 1
  · exact Nat.zero_le 1

theorem monthLength_le (year : Int) (month : Nat) : monthLength year month ≤ 31 := by
  have hleap := leapDays_le year
  rw [monthLength.eq_def]
  split <;> omega

theorem daysBeforeYear_succ (year : Int) :
    daysBeforeYear (year + 1) = daysBeforeYear year + 365 + leapDays year := by
  simp only [daysBeforeYear, leapDays]
  split <;> omega

theorem daysBeforeMonth_succ (year : Int) {month : Nat} (h : 1 ≤ month) :
    daysBeforeMonth year (month + 1) = daysBeforeMonth year month + monthLength year month := by
  obtain ⟨m, rfl⟩ : ∃ m, month = m + 1 := ⟨month - 1, by omega⟩
  simp only [daysBeforeMonth, Nat.add_sub_cancel, List.range_succ, List.map_append, List.sum_append,
    List.map_cons, List.map_nil, List.sum_singleton]

theorem daysBeforeMonth_mono (year : Int) {m m' : Nat} (h : 1 ≤ m) (hle : m ≤ m') :
    daysBeforeMonth year m ≤ daysBeforeMonth year m' := by
  induction m', hle using Nat.le_induction with
  | base => exact Nat.le_refl _
  | succ k hk ih =>
      rw [daysBeforeMonth_succ year (by omega)]
      omega

theorem daysBeforeYear_mono {y y' : Int} (h : y ≤ y') : daysBeforeYear y ≤ daysBeforeYear y' := by
  simp only [daysBeforeYear]
  omega

/-- The months of a year are its days. -/
theorem daysBeforeMonth_thirteen (year : Int) :
    daysBeforeMonth year 13 = 365 + leapDays year := by
  simp only [daysBeforeMonth, List.range, List.range.loop, List.map, List.sum_cons, List.sum_nil,
    monthLength]
  omega

/-! ## The count rises with the date -/

theorem Valid.dayOfYear_lt {d : Date} (h : d.Valid) :
    daysBeforeMonth d.year d.month + d.day ≤ 365 + leapDays d.year := by
  have hmonth := daysBeforeMonth_succ d.year h.month.1
  have hyear := daysBeforeMonth_mono d.year (by omega) (Nat.add_le_add_right h.month.2 1)
  rw [daysBeforeMonth_thirteen] at hyear
  have hday := h.day.2
  omega

theorem Valid.number_bounds {d : Date} (h : d.Valid) :
    daysBeforeYear d.year - daysBeforeYear 1970 ≤ d.number ∧
      d.number < daysBeforeYear (d.year + 1) - daysBeforeYear 1970 := by
  have hday := h.dayOfYear_lt
  have hfirst := h.day.1
  rw [daysBeforeYear_succ]
  simp only [number]
  omega

/-- Dates in the order of year, month and day. -/
def Before (a b : Date) : Prop :=
  a.year < b.year ∨ (a.year = b.year ∧ (a.month < b.month ∨ (a.month = b.month ∧ a.day < b.day)))

theorem number_lt_number {a b : Date} (ha : a.Valid) (hb : b.Valid) (h : a.Before b) :
    a.number < b.number := by
  have hfirst := hb.day.1
  rcases h with hyear | ⟨hyear, hmonth | ⟨hmonth, hday⟩⟩
  · have hnext := daysBeforeYear_mono (by omega : a.year + 1 ≤ b.year)
    have hlo := hb.number_bounds.1
    have hhi := ha.number_bounds.2
    omega
  · have hnext := daysBeforeMonth_mono a.year (by omega) (by omega : a.month + 1 ≤ b.month)
    have hlast := ha.day.2
    rw [daysBeforeMonth_succ _ ha.month.1] at hnext
    simp only [number, ← hyear]
    omega
  · simp only [number, ← hyear, ← hmonth]
    omega

theorem before_or_eq_or_before (a b : Date) : a.Before b ∨ a = b ∨ b.Before a := by
  obtain ⟨y, m, d⟩ := a
  obtain ⟨y', m', d'⟩ := b
  simp only [Before, mk.injEq]
  omega

theorem before_of_number_lt {a b : Date} (ha : a.Valid) (hb : b.Valid) (h : a.number < b.number) :
    a.Before b := by
  rcases before_or_eq_or_before a b with hbefore | rfl | hafter
  · exact hbefore
  · omega
  · have := number_lt_number hb ha hafter
    omega

/-- No two dates have the same number. -/
theorem eq_of_number_eq {a b : Date} (ha : a.Valid) (hb : b.Valid) (h : a.number = b.number) :
    a = b := by
  rcases before_or_eq_or_before a b with hbefore | heq | hafter
  · have := number_lt_number ha hb hbefore
    omega
  · exact heq
  · have := number_lt_number hb ha hafter
    omega

/-! ## The cycles

Counted from March, a year is a number of whole cycles of four hundred, a hundred, four and
one years, and a leap day is the last day of all the cycles that it ends. -/

/-- The date of a day of a year that starts in March. -/
def ofMarch (year : Int) (dayOfYear : Nat) : Date :=
  let month := (5 * dayOfYear + 2) / 153
  { year := year + (if month < 10 then 0 else 1)
    month := if month < 10 then month + 3 else month - 9
    day := dayOfYear - (153 * month + 2) / 5 + 1 }

/-- A cycle is cut into parts, and a remainder of a whole part is left over only by
the last of them. -/
theorem cut_spec {n part last : Nat} (hpart : 0 < part) (h : n ≤ part * (last + 1)) :
    n = part * min (n / part) last + (n - min (n / part) last * part) ∧
      min (n / part) last ≤ last ∧ n - min (n / part) last * part ≤ part ∧
      (n - min (n / part) last * part = part → min (n / part) last = last) := by
  have hdiv := Nat.div_add_mod n part
  have hmod := Nat.mod_lt n hpart
  rcases Nat.le_total (n / part) last with hle | hle
  · rw [Nat.min_eq_left hle, Nat.mul_comm (n / part)]
    omega
  · have hwhole := Nat.mul_le_mul_left part hle
    rw [Nat.min_eq_right hle, Nat.mul_comm last]
    rw [Nat.mul_succ] at h
    omega

theorem daysBeforeYear_of_cycles (cycle : Int) {century olympiad part : Nat}
    (hcentury : century ≤ 3) (holympiad : olympiad ≤ 24) (hpart : part ≤ 3) :
    daysBeforeYear (400 * cycle + 100 * century + 4 * olympiad + part + 1) =
      146097 * cycle + 36524 * century + 1461 * olympiad + 365 * part := by
  have hfour : (400 * cycle + 100 * century + 4 * olympiad + part) / 4 =
      100 * cycle + 25 * century + olympiad := by omega
  have hhundred : (400 * cycle + 100 * century + 4 * olympiad + part) / 100 =
      4 * cycle + century := by omega
  have hwhole : (400 * cycle + 100 * century + 4 * olympiad + part) / 400 = cycle := by omega
  simp only [daysBeforeYear, Int.add_sub_cancel, hfour, hhundred, hwhole]
  omega

/-- Such a year ends with the February of the next. -/
theorem ofDays_eq_ofMarch (days : Int) :
    ∃ (year : Int) (dayOfYear : Nat),
      ofDays days = ofMarch year dayOfYear ∧
      days = daysBeforeYear (year + 1) - daysBeforeYear 1970 + dayOfYear - 306 ∧
      dayOfYear < 365 + leapDays (year + 1) := by
  refine ⟨_, _, rfl, ?_⟩
  have hlt : ((days + daysToEpoch) % 146097).toNat < 146097 := by omega
  have hcycle : days + daysToEpoch = 146097 * ((days + daysToEpoch) / 146097)
      + ((days + daysToEpoch) % 146097).toNat := by omega
  simp only [daysToEpoch] at *
  generalize (days + 719468) / 146097 = cycle at *
  generalize ((days + 719468) % 146097).toNat = dayOfCycle at *
  have hcentury : dayOfCycle ≤ 36524 * (3 + 1) := by omega
  replace hcentury := cut_spec (by decide) hcentury
  generalize dayOfCycle - min (dayOfCycle / 36524) 3 * 36524 = dayOfCentury at *
  generalize min (dayOfCycle / 36524) 3 = century at *
  have holympiad : dayOfCentury = 1461 * (dayOfCentury / 1461)
      + (dayOfCentury - dayOfCentury / 1461 * 1461) ∧
      dayOfCentury - dayOfCentury / 1461 * 1461 < 1461 ∧ dayOfCentury / 1461 ≤ 24 := by omega
  generalize dayOfCentury - dayOfCentury / 1461 * 1461 = dayOfOlympiad at *
  generalize dayOfCentury / 1461 = olympiad at *
  have hyear : dayOfOlympiad ≤ 365 * (3 + 1) := by omega
  replace hyear := cut_spec (by decide) hyear
  generalize dayOfOlympiad - min (dayOfOlympiad / 365) 3 * 365 = dayOfYear at *
  generalize min (dayOfOlympiad / 365) 3 = part at *
  refine ⟨?_, ?_⟩
  · rw [daysBeforeYear_of_cycles cycle (by omega) (by omega) (by omega)]
    simp only [daysBeforeYear]
    omega
  · simp only [leapDays]
    split
    · omega
    · omega

/-- From March to December, months of 31 and 30 days take turns so that any five have 153. -/
theorem monthLength_march (year : Int) {m : Nat} (h : m ≤ 9) :
    monthLength year (m + 3) = (153 * (m + 1) + 2) / 5 - (153 * m + 2) / 5 := by
  interval_cases m <;> rfl

theorem daysBeforeMonth_march (year : Int) {m : Nat} (h : m ≤ 9) :
    daysBeforeMonth year (m + 3) = 59 + leapDays year + (153 * m + 2) / 5 := by
  induction m with
  | zero =>
      rw [daysBeforeMonth_succ year (by decide), daysBeforeMonth_succ year (by decide)]
      show 0 + 31 + (28 + leapDays year) = 59 + leapDays year + 0
      omega
  | succ m ih =>
      rw [Nat.add_right_comm, daysBeforeMonth_succ year (by omega), ih (by omega),
        monthLength_march year (by omega)]
      omega

/-- The days of the months from March on add up to the day of the year. -/
theorem ofMarch_spec {year : Int} {dayOfYear : Nat} (h : dayOfYear < 365 + leapDays (year + 1)) :
    (ofMarch year dayOfYear).Valid ∧
      (ofMarch year dayOfYear).number =
        daysBeforeYear (year + 1) - daysBeforeYear 1970 + dayOfYear - 306 := by
  have hleap := leapDays_le (year + 1)
  simp only [ofMarch]
  generalize hmonth : (5 * dayOfYear + 2) / 153 = month
  rcases Nat.lt_or_ge month 10 with hlt | hge
  · have hlength := monthLength_march year (Nat.le_of_lt_succ hlt)
    have hbefore := daysBeforeMonth_march year (Nat.le_of_lt_succ hlt)
    rw [if_pos hlt, if_pos hlt, Int.add_zero]
    refine ⟨⟨by dsimp only; omega, by dsimp only; omega⟩, ?_⟩
    rw [number, daysBeforeYear_succ, hbefore]
    dsimp only
    omega
  · -- January and February close the year that started in March.
    have hjanuary : daysBeforeMonth (year + 1) 1 = 0 := rfl
    have hfebruary : daysBeforeMonth (year + 1) 2 = 31 := rfl
    have hlength : monthLength (year + 1) 1 = 31 := rfl
    have hlength' : monthLength (year + 1) 2 = 28 + leapDays (year + 1) := rfl
    rw [if_neg (Nat.not_lt.mpr hge), if_neg (Nat.not_lt.mpr hge)]
    obtain rfl | rfl : month = 10 ∨ month = 11 := by omega
    · refine ⟨⟨by dsimp only; omega, by dsimp only [Nat.reduceSub]; omega⟩, ?_⟩
      rw [number]
      dsimp only [Nat.reduceSub]
      omega
    · refine ⟨⟨by dsimp only; omega, by dsimp only [Nat.reduceSub]; omega⟩, ?_⟩
      rw [number]
      dsimp only [Nat.reduceSub]
      omega

/-- `ofDays` is the calendar: it yields the valid date that has the number. -/
theorem ofDays_spec (days : Int) : (ofDays days).Valid ∧ (ofDays days).number = days := by
  obtain ⟨year, dayOfYear, hdate, hnumber, hday⟩ := ofDays_eq_ofMarch days
  obtain ⟨hvalid, hmarch⟩ := ofMarch_spec hday
  rw [hdate]
  exact ⟨hvalid, hmarch.trans hnumber.symm⟩

/-- A year begins with its first day. -/
theorem le_year_ofDays_iff {year days : Int} :
    year ≤ (ofDays days).year ↔ daysBeforeYear year - daysBeforeYear 1970 ≤ days := by
  obtain ⟨hvalid, hnumber⟩ := ofDays_spec days
  have hbounds := hvalid.number_bounds
  rw [hnumber] at hbounds
  constructor
  · intro h
    have hmono := daysBeforeYear_mono h
    omega
  · intro h
    by_contra hlate
    have hmono := daysBeforeYear_mono (by omega : (ofDays days).year + 1 ≤ year)
    omega

end IdMint.Date
