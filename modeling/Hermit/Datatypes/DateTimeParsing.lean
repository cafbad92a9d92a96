import Hermit.Datatypes.DateTimeValueSpace
import Hermit.Library.Calendar
import Hermit.Library.Digits
import Hermit.Library.Parsing

/-! # Reading instants

A lexical form is cut into its fields from left to right.  Years and fractions have any number of
digits: a year is counted in cycles of 400 years, and a fraction is kept as its digits.
-/

namespace Hermit.Datatypes

open Parsing

/-! ## The parser -/

/-- The Unicode white space. -/
def isWhitespace (c : Char) : Bool :=
  (0x09 ≤ c.toNat ∧ c.toNat ≤ 0x0D) ∨ (0x2000 ≤ c.toNat ∧ c.toNat ≤ 0x200A) ∨
    c.toNat ∈ [0x20, 0x85, 0xA0, 0x1680, 0x2028, 0x2029, 0x202F, 0x205F, 0x3000]

def trim (s : List Char) : List Char := (s.dropWhile isWhitespace).rdropWhile isWhitespace

def digitsOnly (field : List Char) : Bool := !field.isEmpty && field.all Char.isDigit

-- A named instance: numerals of digits are the same terms in every module.
theorem neZero_ten : NeZero 10 := inferInstance

attribute [local instance] neZero_ten

def digitOf (c : Char) : Fin 10 := Fin.ofNat 10 (c.toNat - '0'.toNat)

/-- The number that digits denote. -/
def decimal (digits : List (Fin 10)) : ℕ := digits.foldl (fun (n : ℕ) (d : Fin 10) => 10 * n + d) 0

/-- The number of a field that has digits only. -/
def fieldNumber (field : List Char) : ℕ := decimal (field.map digitOf)

def trimEndZeros (digits : List (Fin 10)) : {l : List (Fin 10) // l.getLast? ≠ some 0} :=
  ⟨digits.rdropWhile (· = 0), Digits.getLast?_rdropWhile digits⟩

def daysInMonth (year month : ℤ) : ℤ :=
  if month = 2 then
    if year.tmod 4 ≠ 0 ∨ (year.tmod 100 = 0 ∧ year.tmod 400 ≠ 0) then 28 else 29
  else if month = 4 ∨ month = 6 ∨ month = 9 ∨ month = 11 then 30
  else 31

/-- The days since the Unix epoch. -/
def daysFromCivil (y m d : ℤ) : ℤ :=
  let y := if m ≤ 2 then y - 1 else y
  let era := (if 0 ≤ y then y else y - 399).tdiv 400
  let yoe := y - era * 400
  let mp := (m + 9).tmod 12
  let doy := (153 * mp + 2).tdiv 5 + d - 1
  let doe := yoe * 365 + yoe.tdiv 4 - yoe.tdiv 100 + doy
  era * 146097 + doe - 719468

/-- The field of the two characters at a position. -/
def twoDigits (rest : List Char) (i : ℕ) : Except Failure ℕ := do
  let field ← slice rest i (i + 2)
  ensure (digitsOnly field = true)
  return fieldNumber field

def readYearDigits (rest : List Char) : Except Failure (ℕ × List Char) := do
  ensure ('-' ∈ rest)
  let yearEnd := rest.idxOf '-'
  ensure (4 ≤ yearEnd)
  -- A leading zero only pads a year to four digits.
  ensure (¬(4 < yearEnd ∧ rest.head? = some '0'))
  let field ← slice rest 0 yearEnd
  ensure (digitsOnly field = true)
  let rest ← sliceFrom rest (yearEnd + 1)
  return (fieldNumber field, rest)

def readYear (s : List Char) : Except Failure (ℤ × List Char) := do
  let negYear := decide (s.head? = some '-')
  let rest ← if negYear then sliceFrom s 1 else pure s
  let (yearAbs, rest) ← readYearDigits rest
  return (if negYear then -yearAbs else yearAbs, rest)

def readDate (rest : List Char) : Except Failure (ℕ × ℕ × List Char) := do
  ensure (3 ≤ rest.length)
  let separator ← slice rest 2 3
  ensure (separator = ['-'])
  let month ← twoDigits rest 0
  let rest ← sliceFrom rest 3
  ensure (2 ≤ rest.length)
  let day ← twoDigits rest 0
  let rest ← sliceFrom rest 2
  return (month, day, rest)

/-- The digits after a point, if there is one. -/
def readFraction (rest : List Char) : Except Failure
    ({l : List (Fin 10) // l.getLast? ≠ some 0} × List Char) :=
  match rest with
  | '.' :: afterDot => do
    let fracLen := afterDot.findIdx (!·.isDigit)
    ensure (fracLen ≠ 0)
    let field ← slice afterDot 0 fracLen
    let rest ← sliceFrom afterDot fracLen
    return (trimEndZeros (field.map digitOf), rest)
  | _ => return (trimEndZeros [], rest)

def readTime (rest : List Char) :
    Except Failure (ℕ × ℕ × ℕ × {l : List (Fin 10) // l.getLast? ≠ some 0} × List Char) := do
  ensure (rest.head? = some 'T' ∧ 9 ≤ rest.length)
  let rest ← sliceFrom rest 1
  let hour ← twoDigits rest 0
  let separator ← slice rest 2 3
  ensure (separator = [':'])
  let minute ← twoDigits rest 3
  let separator ← slice rest 5 6
  ensure (separator = [':'])
  let rest ← sliceFrom rest 6
  ensure (2 ≤ rest.length)
  let second ← twoDigits rest 0
  let rest ← sliceFrom rest 2
  let (fraction, rest) ← readFraction rest
  return (hour, minute, second, fraction, rest)

def readSign (rest : List Char) : Except Failure ℤ :=
  match rest with
  | [] => .error .panic
  | '+' :: _ => return 1
  | '-' :: _ => return -1
  | _ => .error .malformed

/-- Whether there is an offset, and its minutes and seconds. -/
def readZone (rest : List Char) : Except Failure (Bool × ℤ × ℤ) :=
  if rest = [] then return (false, 0, 0)
  else if rest = ['Z'] then return (true, 0, 0)
  else do
    let sign ← readSign rest
    let tz ← sliceFrom rest 1
    ensure (tz.length = 5)
    let separator ← slice tz 2 3
    ensure (separator = [':'])
    let th ← twoDigits tz 0
    let tm ← twoDigits tz 3
    ensure (¬(14 < th ∨ (th = 14 ∧ tm ≠ 0) ∨ 60 ≤ tm))
    return (true, sign * (th * 60 + tm), sign * (th * 3600 + tm * 60))

def parseDatetime (lexical : String) (hasTime : Bool) : Except Failure (DtInstant × Bool × ℤ) := do
  let s := trim lexical.toList
  ensure (∀ c ∈ s, c.toNat < 128)
  let (year, rest) ← readYear s
  let (month, day, rest) ← readDate rest
  let (hour, minute, second, fraction, rest) ← if hasTime then readTime rest
    else pure (0, 0, 0, trimEndZeros [], rest)
  let cycles := year / 400
  let yearInCycle := year % 400
  ensure ((1 ≤ month ∧ month ≤ 12) ∧ 1 ≤ day ∧ day ≤ daysInMonth yearInCycle month ∧ hour ≤ 24 ∧
    ¬(hour = 24 ∧ (minute ≠ 0 ∨ second ≠ 0 ∨ fraction.val ≠ [])) ∧ minute ≤ 59 ∧ second < 60)
  let (hasTz, tzOffsetMinutes, tzOffsetSeconds) ← readZone rest
  let days := cycles * 146097 + daysFromCivil yearInCycle month day
  let seconds := days * 86400 + (hour * 3600 + minute * 60 + second - tzOffsetSeconds)
  return (⟨seconds, fraction.val, fraction.property⟩, hasTz, tzOffsetMinutes)

theorem daysInMonth_eq {y : ℤ} (hy : 0 ≤ y) (m : ℕ) :
    daysInMonth y m = Calendar.daysOfMonth y m := by
  have htmod : ∀ k : ℤ, y.tmod k = y % k := fun k => Int.tmod_eq_emod_of_nonneg hy
  by_cases hleap : Calendar.Leap y
  · have hyear : ¬(y % 4 ≠ 0 ∨ (y % 100 = 0 ∧ y % 400 ≠ 0)) := by
      rw [Calendar.leap_iff] at hleap
      omega
    simp only [daysInMonth, htmod, Calendar.daysOfMonth, if_neg hyear, if_pos hleap]
    split_ifs <;> omega
  · have hyear : y % 4 ≠ 0 ∨ (y % 100 = 0 ∧ y % 400 ≠ 0) := by
      rw [Calendar.leap_iff] at hleap
      omega
    simp only [daysInMonth, htmod, Calendar.daysOfMonth, if_pos hyear, if_neg hleap]
    split_ifs <;> omega

theorem dayNumber_epoch : Calendar.dayNumber 1970 1 1 = 719163 := by decide

/-- The days of the months before one, from March on. -/
theorem daysBeforeMonth_eq (y : ℤ) {m : ℕ} (hm : 1 ≤ m ∧ m ≤ 12) :
    (Calendar.daysBeforeMonth y m : ℤ) =
      if m ≤ 2 then 31 * ((m : ℤ) - 1) else 59 + (if Calendar.Leap y then 1 else 0) +
      (153 * ((m : ℤ) - 3) + 2) / 5 := by
  obtain ⟨hlow, hhigh⟩ := hm
  induction m, hlow using Nat.le_induction with
  | base => simp [Calendar.daysBeforeMonth]
  | succ m hlow ih =>
    have hnext : Calendar.daysBeforeMonth y (m + 1) =
        Calendar.daysBeforeMonth y m + Calendar.daysOfMonth y m :=
      Finset.sum_Ico_succ_top hlow _
    rw [hnext, Nat.cast_add, ih (by omega), Calendar.daysOfMonth]
    have hlt : m < 12 := hhigh
    by_cases hleap : Calendar.Leap y <;> interval_cases m <;> simp [hleap]

/-- Division that rounds towards zero finds the cycle of a year when negative ones are moved. -/
theorem tdiv_cycle (y : ℤ) : (if 0 ≤ y then y else y - 399).tdiv 400 = y / 400 := by
  split_ifs with h
  · exact Int.tdiv_eq_ediv_of_nonneg h
  · have hneg : (y - 399).tdiv 400 = -((399 - y) / 400) := by
      rw [← Int.tdiv_eq_ediv_of_nonneg (by omega), ← Int.neg_tdiv]
      congr 1
      omega
    rw [hneg]
    omega

theorem daysFromCivil_eq {y : ℤ} {m : ℕ} (hm : 1 ≤ m ∧ m ≤ 12) (d : ℕ) :
    daysFromCivil y m d = Calendar.dayNumber y m d - Calendar.dayNumber 1970 1 1 := by
  have hmp : ((m : ℤ) + 9).tmod 12 = (m + 9) % 12 := Int.tmod_eq_emod_of_nonneg (by omega)
  have hdoy : (153 * (((m : ℤ) + 9) % 12) + 2).tdiv 5 = (153 * ((m + 9) % 12) + 2) / 5 :=
    Int.tdiv_eq_ediv_of_nonneg (by omega)
  have hyoe : ∀ z : ℤ, (z - z / 400 * 400).tdiv 4 = (z - z / 400 * 400) / 4 ∧
    (z - z / 400 * 400).tdiv 100 = (z - z / 400 * 400) / 100 :=
    fun z => ⟨Int.tdiv_eq_ediv_of_nonneg (by omega), Int.tdiv_eq_ediv_of_nonneg (by omega)⟩
  have hcycle : ∀ z : ℤ, z / 4 = 100 * (z / 400) + (z - z / 400 * 400) / 4 ∧
    z / 100 = 4 * (z / 400) + (z - z / 400 * 400) / 100 :=
    fun z => ⟨by omega, by omega⟩
  rw [dayNumber_epoch, Calendar.dayNumber, daysBeforeMonth_eq y hm, Calendar.daysBeforeYear,
    Calendar.ite_leap]
  by_cases hmonth : m ≤ 2
  · have hcast : (m : ℤ) ≤ 2 := by omega
    have hyear := hcycle (y - 1)
    have hdays : (153 * (((m : ℤ) + 9) % 12) + 2) / 5 = 306 + 31 * (m - 1) := by
      obtain rfl | rfl : m = 1 ∨ m = 2 := by omega
      · rfl
      · rfl
    simp only [daysFromCivil, if_pos hcast, if_pos hmonth, tdiv_cycle, hmp, hdoy, hdays,
      (hyoe (y - 1)).1, (hyoe (y - 1)).2]
    omega
  · have hcast : ¬(m : ℤ) ≤ 2 := by omega
    have hyear := hcycle y
    simp only [daysFromCivil, if_neg hcast, if_neg hmonth, tdiv_cycle, hmp, hdoy,
      (hyoe y).1, (hyoe y).2]
    omega

end Hermit.Datatypes
