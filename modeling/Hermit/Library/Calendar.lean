import Mathlib

/-! # The proleptic Gregorian calendar

The days of all years before and after the first one are numbered without gaps.
-/

namespace Hermit.Calendar

open Finset

def Leap (y : ℤ) : Prop := 4 ∣ y ∧ (100 ∣ y → 400 ∣ y)

instance : DecidablePred Leap := fun _ => inferInstanceAs (Decidable (_ ∧ _))

def daysOfMonth (y : ℤ) (m : ℕ) : ℕ :=
  if m = 2 then (if Leap y then 29 else 28) else if m = 4 ∨ m = 6 ∨ m = 9 ∨ m = 11 then 30 else 31

/-- The days from the start of the first year to the start of a year. -/
def daysBeforeYear (y : ℤ) : ℤ := 365 * (y - 1) + (y - 1) / 4 - (y - 1) / 100 + (y - 1) / 400

def daysBeforeMonth (y : ℤ) (m : ℕ) : ℕ := ∑ k ∈ Ico 1 m, daysOfMonth y k

/-- The number of a day; the first day of the first year has the number one. -/
def dayNumber (y : ℤ) (m d : ℕ) : ℤ := daysBeforeYear y + daysBeforeMonth y m + d

variable {y : ℤ} {m d : ℕ}

theorem leap_iff : Leap y ↔ y % 4 = 0 ∧ (y % 100 = 0 → y % 400 = 0) := by
  simp only [Leap, Int.dvd_iff_emod_eq_zero]

/-- The leap years are counted by the multiples up to a year. -/
theorem ite_leap (y : ℤ) :
    (if Leap y then (1 : ℤ) else 0) = y / 4 - (y - 1) / 4 - (y / 100 - (y - 1) / 100) +
    (y / 400 - (y - 1) / 400) := by
  by_cases hleap : Leap y
  · rw [if_pos hleap]
    rw [leap_iff] at hleap
    omega
  · rw [if_neg hleap]
    rw [leap_iff] at hleap
    omega

theorem leap_add_cycles (y c : ℤ) : Leap (y + 400 * c) ↔ Leap y := by
  simp only [leap_iff]
  omega

theorem daysOfMonth_add_cycles (y c : ℤ) (m : ℕ) :
    daysOfMonth (y + 400 * c) m = daysOfMonth y m := by
  simp only [daysOfMonth, leap_add_cycles]

/-- The calendar repeats every 400 years. -/
theorem dayNumber_add_cycles (y c : ℤ) (m d : ℕ) :
    dayNumber (y + 400 * c) m d = 146097 * c + dayNumber y m d := by
  have hyears : daysBeforeYear (y + 400 * c) = 146097 * c + daysBeforeYear y := by
    simp only [daysBeforeYear]
    omega
  have hmonths : daysBeforeMonth (y + 400 * c) m = daysBeforeMonth y m :=
    sum_congr rfl fun k _ => daysOfMonth_add_cycles y c k
  rw [dayNumber, dayNumber, hyears, hmonths]
  ring

end Hermit.Calendar
