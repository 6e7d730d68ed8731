import IdMint.Proofs.CivilTime

/-!
# Printed times are in the order of time

A flow number is dated by sixteen digits: year, month, day, hour, minute, second
and hundredths of the second, each in a fixed width. No part outgrows its width, so
the digits are one number, and among the instants that are printed as what they are a
later hundredth of a second has the greater one. A hundredth is all that is printed
of an instant: two instants in the same one look alike.
-/

namespace IdMint.Instant

/-- Hundredths of a second since the start of 1970. -/
def hundredths (t : Instant) : Int := t.nanos / 10000000

/-- Date and time of an instant to the hundredth of a second. -/
def stamp (t : Instant) : Bytes := t.compact ++ Decimal.padded 2 (t.millisOfSecond / 10)

/-- The digits of the time of day, as a number. -/
def timeDigits (t : Instant) : Nat :=
  (((t.secondOfDay / 3600).toNat * 10 ^ 2 + (t.secondOfDay % 3600 / 60).toNat) * 10 ^ 2
    + (t.secondOfDay % 60).toNat) * 10 ^ 2 + (t.millisOfSecond / 10).toNat

/-- The digits of a stamp, as a number. -/
def stampDigits (t : Instant) : Nat := t.date.digits * 10 ^ 8 + t.timeDigits

/-! ## What a stamp is made from -/

theorem Datable.seconds_eq_hundredths {t : Instant} (h : t.Datable) :
    t.seconds = t.hundredths / 100 := by
  rw [h.seconds_eq, hundredths]
  omega

theorem hundredthOfSecond_eq (t : Instant) : t.millisOfSecond / 10 = t.hundredths % 100 := by
  rw [millisOfSecond_eq, hundredths]
  omega

theorem stampDigits_eq (t : Instant) :
    t.stampDigits = t.civil.digits * 10 ^ 2 + (t.hundredths % 100).toNat := by
  rw [← hundredthOfSecond_eq]
  simp only [stampDigits, timeDigits, CivilTime.digits, civil]
  ring

/-- A stamp is sixteen digits. -/
theorem shows_stamp (t : Instant) : Decimal.Shows 16 t.stampDigits t.stamp := by
  have hhundredth : 0 ≤ t.millisOfSecond / 10 ∧ t.millisOfSecond / 10 < 100 := by
    rw [hundredthOfSecond_eq]
    omega
  have hundredth := Decimal.shows_padded (by decide : 0 < 2) hhundredth.1 hhundredth.2
  rw [stampDigits_eq, ← hundredthOfSecond_eq]
  exact t.written_compact.shows.append hundredth

/-- Nothing finer than a hundredth of a second is printed. -/
theorem Datable.stampDigits_congr {t t' : Instant} (ht : t.Datable) (ht' : t'.Datable)
    (h : t.hundredths = t'.hundredths) : t.stampDigits = t'.stampDigits := by
  have hseconds : t.seconds = t'.seconds := by
    rw [ht.seconds_eq_hundredths, ht'.seconds_eq_hundredths, h]
  rw [stampDigits_eq, stampDigits_eq, civil_congr hseconds, h]

/-- A later hundredth of a second has the greater number. -/
theorem Datable.stampDigits_lt {t t' : Instant} (ht : t.Datable) (ht' : t'.Datable)
    (h : t.hundredths < t'.hundredths) : t.stampDigits < t'.stampDigits := by
  have hera : 0 ≤ t.civil.date.year := Int.le_trans (by decide) t.year_bounds.1
  have hseconds := ht.seconds_eq_hundredths
  have hseconds' := ht'.seconds_eq_hundredths
  rw [stampDigits_eq, stampDigits_eq]
  rcases Int.lt_or_le t.seconds t'.seconds with hlt | hge
  · have hdigits : t.civil.digits < t'.civil.digits := by
      refine CivilTime.digits_lt_digits t.valid_civil t'.valid_civil hera ?_
      rw [number_civil, number_civil]
      exact hlt
    omega
  · -- In one second the hundredths decide.
    rw [civil_congr (by omega : t.seconds = t'.seconds)]
    omega

end IdMint.Instant
