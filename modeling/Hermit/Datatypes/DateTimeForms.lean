import Hermit.Datatypes.DateTimeParsing
import Hermit.Library.Words

/-! # The lexical forms of instants

A form is given by its fields.  The parser reads exactly the texts of the valid forms, and an
instant is the point of the timeline that its form denotes.
-/

namespace Hermit.Datatypes

open Parsing List

attribute [local instance] neZero_ten

/-! ## Forms -/

inductive Zone where
  | utc
  | offset (negative : Bool) (hours minutes : ℕ)

structure DateTimeForm where
  negative : Bool
  yearDigits : List (Fin 10)
  month : ℕ
  day : ℕ
  hour : ℕ
  minute : ℕ
  second : ℕ
  fraction : List (Fin 10)
  zone : Option Zone

def digitChar (d : Fin 10) : Char := Nat.digitChar d

def pad (n : ℕ) : List Char :=
  [digitChar (Fin.ofNat 10 (n / 10)), digitChar (Fin.ofNat 10 (n % 10))]

def yearText (negative : Bool) (digits : List (Fin 10)) : List Char :=
  (if negative then ['-'] else []) ++ digits.map digitChar

def fractionText : List (Fin 10) → List Char
  | [] => []
  | d :: digits => '.' :: (d :: digits).map digitChar

namespace Zone

def text : Zone → List Char
  | utc => ['Z']
  | offset negative hours minutes =>
    (if negative then '-' else '+') :: (pad hours ++ ':' :: pad minutes)

/-- The offset is within 14 hours. -/
def Valid : Zone → Prop
  | utc => True
  | offset _ hours minutes => (hours ≤ 13 ∧ minutes ≤ 59) ∨ (hours = 14 ∧ minutes = 0)

/-- The offset in minutes. -/
def shift : Zone → ℤ
  | utc => 0
  | offset negative hours minutes => (if negative then -1 else 1) * (60 * hours + minutes)

end Zone

def zoneText : Option Zone → List Char
  | none => []
  | some zone => zone.text

/-- A form without an offset is read as one of UTC. -/
def zoneShift : Option Zone → ℤ
  | none => 0
  | some zone => zone.shift

namespace DateTimeForm

variable (f : DateTimeForm)

def year : ℤ := if f.negative then -decimal f.yearDigits else decimal f.yearDigits

def text : List Char :=
  yearText f.negative f.yearDigits ++ '-' ::
    (pad f.month ++ '-' :: (pad f.day ++ 'T' :: (pad f.hour ++ ':' :: (pad f.minute ++
    ':' :: (pad f.second ++ (fractionText f.fraction ++ zoneText f.zone))))))

structure Valid : Prop where
  year : 4 ≤ f.yearDigits.length ∧ (4 < f.yearDigits.length → f.yearDigits.head? ≠ some 0)
  month : 1 ≤ f.month ∧ f.month ≤ 12
  day : 1 ≤ f.day ∧ f.day ≤ Calendar.daysOfMonth f.year f.month
  time : (f.hour ≤ 23 ∧ f.minute ≤ 59 ∧ f.second ≤ 59) ∨
    (f.hour = 24 ∧ f.minute = 0 ∧ f.second = 0 ∧ ∀ d ∈ f.fraction, d = 0)
  zone : ∀ z, f.zone = some z → z.Valid

/-- The whole seconds from the start of 1970 in UTC. -/
def seconds : ℤ :=
  86400 * (Calendar.dayNumber f.year f.month f.day - Calendar.dayNumber 1970 1 1) + 3600 * f.hour +
    60 * f.minute + f.second -
    60 * zoneShift f.zone

/-- The instant that has the point of the form. -/
def instant : DtInstant :=
  ⟨f.seconds, (trimEndZeros f.fraction).val, (trimEndZeros f.fraction).property⟩

/-- The point on the timeline of UTC, in seconds. -/
def point : ℚ := f.seconds + Digits.value f.fraction

end DateTimeForm

/-! ## Digits -/

theorem digitOf_digitChar : ∀ d, digitOf (digitChar d) = d := by decide

theorem isDigit_digitChar : ∀ d, (digitChar d).isDigit = true := by decide

theorem digitChar_injective : Function.Injective digitChar :=
  Function.LeftInverse.injective digitOf_digitChar

theorem digitChar_ascii : ∀ d, (digitChar d).toNat < 128 := by decide

theorem digitChar_digitOf {c : Char} (h : c.isDigit = true) : digitChar (digitOf c) = c := by
  have hc : c = Char.ofNat c.toNat := (Char.ofNat_toNat c).symm
  have hbounds : 48 ≤ c.toNat ∧ c.toNat ≤ 57 := by
    simpa [Char.isDigit, UInt32.le_iff_toNat_le] using h
  obtain ⟨hlow, hhigh⟩ := hbounds
  rw [hc]
  generalize c.toNat = n at hlow hhigh
  interval_cases n <;> decide

theorem digitChar_ne {c : Char} (hc : c.isDigit = false) (d : Fin 10) : digitChar d ≠ c := by
  intro h
  have hd := isDigit_digitChar d
  rw [h, hc] at hd
  cases hd

theorem digitsOnly_iff {field : List Char} :
    digitsOnly field = true ↔ field ≠ [] ∧ ∃ digits : List (Fin 10),
    field = digits.map digitChar := by
  rw [digitsOnly, Bool.and_eq_true, Bool.not_eq_true', isEmpty_eq_false_iff, all_eq_true]
  apply and_congr_right
  intro _
  constructor
  · intro hdig
    refine ⟨field.map digitOf, ?_⟩
    rw [map_map]
    exact ((map_congr_left fun c hc => digitChar_digitOf (hdig c hc)).trans (map_id field)).symm
  · rintro ⟨digits, rfl⟩ c hc
    obtain ⟨d, -, rfl⟩ := mem_map.mp hc
    exact isDigit_digitChar d

theorem map_digitOf_map (digits : List (Fin 10)) : (digits.map digitChar).map digitOf = digits := by
  rw [map_map]
  exact map_id'' digitOf_digitChar digits

theorem fieldNumber_map (digits : List (Fin 10)) :
    fieldNumber (digits.map digitChar) = decimal digits := by
  rw [fieldNumber, map_digitOf_map]

theorem pad_decimal (x y : Fin 10) : pad (decimal [x, y]) = [digitChar x, digitChar y] := by
  revert x y
  decide

theorem exists_pad {n : ℕ} (hn : n < 100) : ∃ x y : Fin 10, n = decimal [x, y] :=
  ⟨⟨n / 10, by omega⟩, ⟨n % 10, by omega⟩, by simp only [decimal, foldl_cons, foldl_nil]; omega⟩

theorem decimal_lt (x y : Fin 10) : decimal [x, y] < 100 := by
  simp only [decimal, foldl_cons, foldl_nil]
  omega

theorem digitsOnly_pad (n : ℕ) : digitsOnly (pad n) = true :=
  digitsOnly_iff.mpr ⟨cons_ne_nil _ _, [Fin.ofNat 10 (n / 10), Fin.ofNat 10 (n % 10)], rfl⟩

theorem fieldNumber_pad {n : ℕ} (hn : n < 100) : fieldNumber (pad n) = n := by
  obtain ⟨x, y, rfl⟩ := exists_pad hn
  rw [pad_decimal]
  exact fieldNumber_map [x, y]

theorem eq_pad {field : List Char} (hlength : field.length = 2) (hdig : digitsOnly field = true) :
    fieldNumber field < 100 ∧ field = pad (fieldNumber field) := by
  obtain ⟨-, digits, rfl⟩ := digitsOnly_iff.mp hdig
  rw [length_map] at hlength
  obtain ⟨x, y, rfl⟩ := length_eq_two.mp hlength
  rw [fieldNumber_map, pad_decimal]
  exact ⟨decimal_lt x y, rfl⟩

/-- A field of two characters is read as the number that is padded to it. -/
theorem reads_twoDigits {s : List Char} {i : ℕ} (h : i + 2 ≤ s.length) :
    Reads (twoDigits s i) fun n => n < 100 ∧ s.drop i = pad n ++ s.drop (i + 2) := by
  have hlength : ((s.take (i + 2)).drop i).length = 2 := by
    rw [length_drop, length_take]
    omega
  have hdrop : s.drop i = (s.take (i + 2)).drop i ++ s.drop (i + 2) := by
    rw [← drop_append_of_le_length (by rw [length_take]; omega), take_append_drop]
  rw [twoDigits, slice_bind _ (by omega) h, hdrop]
  simp only [append_cancel_right_eq]
  generalize (s.take (i + 2)).drop i = field at hlength
  apply Reads.ensure
  · intro hdig
    have hpad := eq_pad hlength hdig
    apply (reads_pure (fieldNumber field)).congr
    intro n
    constructor
    · rintro rfl
      exact hpad
    · rintro ⟨hn, rfl⟩
      exact (fieldNumber_pad hn).symm
  · rintro n ⟨-, rfl⟩
    exact digitsOnly_pad n

/-! ## Fields -/

def YearDigits (digits : List (Fin 10)) : Prop :=
  4 ≤ digits.length ∧ (4 < digits.length → digits.head? ≠ some 0)

variable {digits : List (Fin 10)}

theorem head?_map_digitChar {d : Fin 10} :
    (digits.map digitChar).head? = some (digitChar d) ↔ digits.head? = some d := by
  rw [head?_map]
  cases digits.head? with
  | none => simp
  | some e => simp [digitChar_injective.eq_iff]

theorem dash_notMem (digits : List (Fin 10)) : '-' ∉ digits.map digitChar := by
  intro h
  obtain ⟨d, -, hd⟩ := mem_map.mp h
  exact digitChar_ne (by decide) d hd

variable (s : List Char)

theorem reads_readYearDigits : Reads (readYearDigits s) fun r =>
    ∃ digits, YearDigits digits ∧ r.1 = decimal digits ∧
    s = digits.map digitChar ++ '-' :: r.2 := by
  apply Reads.ensure
  · intro hdash
    obtain ⟨field, rest, rfl, hfield⟩ := eq_append_cons_of_mem hdash
    have hend : (field ++ '-' :: rest).idxOf '-' = field.length := by
      rw [idxOf_append_of_notMem hfield, idxOf_cons_self, Nat.add_zero]
    have hlength : field.length + 1 ≤ (field ++ '-' :: rest).length := by simp
    have htake : ((field ++ '-' :: rest).take field.length).drop 0 = field := take_left
    have hdrop : (field ++ '-' :: rest).drop (field.length + 1) = rest := by
      rw [drop_append, drop_eq_nil_of_le (by omega), nil_append, Nat.add_sub_cancel_left]
      rfl
    simp only [hend]
    rw [slice_bind _ (Nat.zero_le _) (by omega), sliceFrom_bind _ hlength, htake, hdrop]
    have hhead : ∀ digits : List (Fin 10), 4 ≤ digits.length → field = digits.map digitChar →
        ((field ++ '-' :: rest).head? = some '0' ↔ digits.head? = some 0) := by
      rintro digits hfour rfl
      have hne : digits.map digitChar ≠ [] := ne_nil_of_length_pos (by rw [length_map]; omega)
      rw [head?_append_of_ne_nil _ hne]
      exact head?_map_digitChar (d := 0)
    apply (Reads.guard fun _ => Reads.guard fun _ => Reads.guard fun _ => reads_pure _).congr
    rintro ⟨n, r⟩
    constructor
    · rintro ⟨hfour, hzero, hdig, hpair⟩
      obtain ⟨rfl, rfl⟩ := Prod.mk.inj hpair
      obtain ⟨-, digits, hmap⟩ := digitsOnly_iff.mp hdig
      have hlen : field.length = digits.length := by rw [hmap, length_map]
      rw [hlen] at hfour hzero
      rw [hhead digits hfour hmap] at hzero
      refine ⟨digits, ⟨hfour, fun hlt h => hzero ⟨hlt, h⟩⟩, ?_, by rw [hmap]⟩
      rw [hmap, fieldNumber_map]
    · rintro ⟨digits, ⟨hfour, hzero⟩, hn, htext⟩
      obtain ⟨hmap, rfl⟩ := (Words.append_cons_inj hfield (dash_notMem digits)).mp htext
      have hlen : field.length = digits.length := by rw [hmap, length_map]
      have hne : digits ≠ [] := ne_nil_of_length_pos (by omega)
      rw [hlen, hhead digits hfour hmap]
      refine ⟨hfour, fun h => hzero h.1 h.2, digitsOnly_iff.mpr ⟨?_, digits, hmap⟩, ?_⟩
      · rw [hmap]
        exact map_eq_nil_iff.not.mpr hne
      · rw [hmap, fieldNumber_map]
        exact Prod.ext hn rfl
  · rintro r ⟨digits, -, -, rfl⟩
    simp

theorem yearText_head {negative : Bool} {rest : List Char} (hdig : YearDigits digits) :
    (yearText negative digits ++ rest).head? = some '-' ↔ negative = true := by
  have hne : digits ≠ [] := ne_nil_of_length_pos (by have := hdig.1; omega)
  cases negative with
  | true => simp [yearText]
  | false =>
    cases digits with
    | nil => exact absurd rfl hne
    | cons d digits =>
      have hd : digitChar d ≠ '-' := digitChar_ne (by decide) d
      simp [yearText, hd]

/-- The sign and the digits of a year, and the characters after its dash. -/
theorem reads_readYear : Reads (readYear s) fun r =>
    ∃ negative digits, YearDigits digits ∧ r.1 =
    (if negative = true then -(decimal digits : ℤ) else decimal digits) ∧
      s = yearText negative digits ++ '-' :: r.2 := by
  by_cases hneg : s.head? = some '-'
  · obtain ⟨s, rfl⟩ := head?_eq_some_iff.mp hneg
    rw [readYear, decide_eq_true hneg]
    apply (Reads.sliceFrom (by simp) ((reads_readYearDigits s).bind fun r _ => reads_pure _)).congr
    rintro ⟨y, r⟩
    constructor
    · rintro ⟨⟨n, r⟩, ⟨digits, hdig, rfl, rfl⟩, hpair⟩
      obtain ⟨rfl, rfl⟩ := Prod.mk.inj hpair
      exact ⟨true, digits, hdig, rfl, rfl⟩
    · rintro ⟨negative, digits, hdig, rfl, htext⟩
      rw [htext] at hneg
      obtain rfl := (yearText_head hdig).mp hneg
      exact ⟨⟨_, r⟩, ⟨digits, hdig, rfl, tail_eq_of_cons_eq htext⟩, rfl⟩
  · rw [readYear, decide_eq_false hneg]
    apply ((reads_readYearDigits s).bind fun r _ => reads_pure _).congr
    rintro ⟨y, r⟩
    constructor
    · rintro ⟨⟨n, r⟩, ⟨digits, hdig, rfl, rfl⟩, hpair⟩
      obtain ⟨rfl, rfl⟩ := Prod.mk.inj hpair
      exact ⟨false, digits, hdig, rfl, rfl⟩
    · rintro ⟨negative, digits, hdig, rfl, htext⟩
      rw [htext, yearText_head hdig, Bool.not_eq_true] at hneg
      subst hneg
      exact ⟨⟨_, r⟩, ⟨digits, hdig, rfl, htext⟩, rfl⟩

theorem reads_readDate : Reads (readDate s) fun r =>
    r.1 < 100 ∧ r.2.1 < 100 ∧ s = pad r.1 ++ '-' :: (pad r.2.1 ++ r.2.2) := by
  apply Reads.ensure
  · intro hlength
    refine Reads.congr (Reads.separator hlength fun _ =>
        (reads_twoDigits (by omega)).bind fun month _ =>
      Reads.sliceFrom hlength (Reads.guard fun hday => (reads_twoDigits hday).bind fun day _ =>
        Reads.sliceFrom hday (reads_pure _))) ?_
    rintro ⟨m, d, r⟩
    constructor
    · rintro ⟨hdash, month, ⟨hm, hmonth⟩, -, day, ⟨hd, hday⟩, hres⟩
      cases hres
      refine ⟨hm, hd, ?_⟩
      calc s = pad m ++ s.drop 2 := hmonth
        _ = pad m ++ '-' :: (s.drop 3).drop 0 := by rw [hdash]; rfl
        _ = _ := by rw [hday]
    · rintro ⟨hm, hd, rfl⟩
      exact ⟨rfl, m, ⟨hm, rfl⟩, by simp [pad], d, ⟨hd, rfl⟩, rfl⟩
  · rintro ⟨m, d, r⟩ ⟨-, -, rfl⟩
    simp [pad]

/-- The digits of a fraction are followed by something else, and so is a missing fraction. -/
structure FractionEnds (digits : List (Fin 10)) (rest : List Char) : Prop where
  no_point : digits = [] → rest.head? ≠ some '.'
  no_digit : digits ≠ [] → ∀ c ∈ rest.head?, c.isDigit = false

theorem fractionText_of_ne_nil (h : digits ≠ []) :
    fractionText digits = '.' :: digits.map digitChar := by
  cases digits with
  | nil => exact absurd rfl h
  | cons d digits => rfl

theorem FractionEnds.takeWhile {rest : List Char} (h : FractionEnds digits rest)
    (hne : digits ≠ []) :
    (digits.map digitChar ++ rest).takeWhile Char.isDigit = digits.map digitChar := by
  have hall : ∀ c ∈ digits.map digitChar, c.isDigit = true := by
    intro c hc
    obtain ⟨d, -, rfl⟩ := mem_map.mp hc
    exact isDigit_digitChar d
  have hrest : rest.takeWhile Char.isDigit = [] := by
    cases rest with
    | nil => rfl
    | cons c rest => simp [h.no_digit hne c rfl]
  rw [takeWhile_append_of_pos hall, hrest, append_nil]

theorem reads_readFraction : Reads (readFraction s) fun r =>
    ∃ digits, r.1 = trimEndZeros digits ∧ s = fractionText digits ++ r.2 ∧
    FractionEnds digits r.2 := by
  by_cases hpoint : s.head? = some '.'
  · obtain ⟨s, rfl⟩ := head?_eq_some_iff.mp hpoint
    have htake : (s.take (s.findIdx (!·.isDigit))).drop 0 = s.takeWhile Char.isDigit := by
      rw [takeWhile_eq_take_findIdx_not]
      rfl
    have hdrop : s.drop (s.findIdx (!·.isDigit)) = s.dropWhile Char.isDigit := by
      rw [dropWhile_eq_drop_findIdx_not]
    have hzero : s.findIdx (!·.isDigit) ≠ 0 ↔ s.takeWhile Char.isDigit ≠ [] := by
      rw [not_iff_not, ← htake, drop_zero, take_eq_nil_iff]
      constructor
      · exact .inl
      · rintro (h | rfl)
        · exact h
        · rfl
    have hdig : s.takeWhile Char.isDigit = ((s.takeWhile Char.isDigit).map digitOf).map
        digitChar := by
      rw [map_map]
      exact ((map_congr_left fun c hc => digitChar_digitOf (mem_takeWhile_imp hc)).trans
        (map_id _)).symm
    refine Reads.congr (Reads.guard fun _ => Reads.slice (Nat.zero_le _) findIdx_le_length
      (Reads.sliceFrom findIdx_le_length (reads_pure _))) ?_
    rintro ⟨f, r⟩
    rw [htake, hdrop, hzero]
    constructor
    · rintro ⟨hne, hres⟩
      obtain ⟨rfl, rfl⟩ := Prod.mk.inj hres
      have hne' : (s.takeWhile Char.isDigit).map digitOf ≠ [] := map_eq_nil_iff.not.mpr hne
      refine ⟨_, rfl, ?_, ⟨fun h => absurd h hne', fun _ c hc => ?_⟩⟩
      · rw [fractionText_of_ne_nil hne', ← hdig, cons_append, takeWhile_append_dropWhile]
      · have hlast := head?_dropWhile_not Char.isDigit s
        rw [Option.mem_def.mp hc] at hlast
        exact hlast
    · rintro ⟨digits, rfl, htext, hends⟩
      have hne : digits ≠ [] := by
        rintro rfl
        exact hends.no_point rfl (by rw [← nil_append r, ← fractionText, ← htext]; rfl)
      rw [fractionText_of_ne_nil hne] at htext
      have hs : s = digits.map digitChar ++ r := tail_eq_of_cons_eq htext
      have htakeWhile : s.takeWhile Char.isDigit = digits.map digitChar :=
        by rw [hs, hends.takeWhile hne]
      have hdropWhile : s.dropWhile Char.isDigit = r := by
        have happ := takeWhile_append_dropWhile (p := Char.isDigit) (l := s)
        rw [htakeWhile] at happ
        exact append_cancel_left (happ.trans hs)
      rw [htakeWhile, hdropWhile, map_digitOf_map]
      exact ⟨map_eq_nil_iff.not.mpr hne, rfl⟩
  · have hread : readFraction s = pure (trimEndZeros [], s) := by
      rw [readFraction]
      intro afterDot h
      rw [h] at hpoint
      exact hpoint rfl
    rw [hread]
    apply (reads_pure _).congr
    rintro ⟨f, r⟩
    constructor
    · intro hres
      obtain ⟨rfl, rfl⟩ := Prod.mk.inj hres
      exact ⟨[], rfl, rfl, ⟨fun _ => hpoint, fun h => absurd rfl h⟩⟩
    · rintro ⟨digits, rfl, rfl, -⟩
      cases digits with
      | nil => rfl
      | cons d digits => exact absurd rfl hpoint

theorem reads_readTime : Reads (readTime s) fun r =>
    r.1 < 100 ∧ r.2.1 < 100 ∧ r.2.2.1 < 100 ∧ ∃ digits,
    r.2.2.2.1 = trimEndZeros digits ∧ FractionEnds digits r.2.2.2.2 ∧ s = 'T' :: (pad r.1 ++ ':' ::
        (pad r.2.1 ++ ':' :: (pad r.2.2.1 ++ (fractionText digits ++ r.2.2.2.2)))) := by
  apply Reads.ensure
  · rintro ⟨hhead, hlength⟩
    obtain ⟨s, rfl⟩ := head?_eq_some_iff.mp hhead
    have height : 8 ≤ s.length := Nat.le_of_succ_le_succ hlength
    refine Reads.congr (Reads.sliceFrom (by omega)
        ((reads_twoDigits (by rw [length_drop]; omega)).bind fun hour _ =>
      Reads.separator (by rw [length_drop]; omega) fun _ =>
          (reads_twoDigits (by rw [length_drop]; omega)).bind fun minute _ =>
      Reads.separator (by rw [length_drop]; omega) fun _ =>
          Reads.sliceFrom (by rw [length_drop]; omega)
      (Reads.guard fun hsnd => (reads_twoDigits hsnd).bind fun second _ =>
          Reads.sliceFrom hsnd
        ((reads_readFraction _).bind fun _ _ => reads_pure _)))) ?_
    rintro ⟨h, m, d, f, r⟩
    constructor
    · rintro ⟨hour, ⟨hh, hhour⟩, hcolon, minute, ⟨hm, hminute⟩, hcolon', -, second,
          ⟨hd, hsnd⟩, ⟨_, _⟩,
        ⟨digits, rfl, hfrac, hends⟩, hres⟩
      cases hres
      refine ⟨hh, hm, hd, digits, rfl, hends, congrArg _ ?_⟩
      have hhour' : s = pad h ++ s.drop 2 := hhour
      have hcolon₁ : s.drop 2 = ':' :: s.drop 3 := hcolon
      have hminute' : s.drop 3 = pad m ++ s.drop 5 := hminute
      have hcolon₂ : s.drop 5 = ':' :: s.drop 6 := hcolon'
      have hsnd' : s.drop 6 = pad d ++ (s.drop 6).drop 2 := hsnd
      have hfrac' : (s.drop 6).drop 2 = fractionText digits ++ _ := hfrac
      rw [hhour', hcolon₁, hminute', hcolon₂, hsnd', hfrac']
    · rintro ⟨hh, hm, hd, digits, rfl, hends, htext⟩
      have hs := tail_eq_of_cons_eq htext
      subst hs
      exact ⟨h, ⟨hh, rfl⟩, rfl, m, ⟨hm, rfl⟩, rfl,
        by simp [pad], d, ⟨hd, rfl⟩, ⟨_, r⟩, ⟨digits, rfl, rfl, hends⟩, rfl⟩
  · rintro ⟨h, m, d, f, r⟩ ⟨-, -, -, digits, -, -, rfl⟩
    simp [pad]

theorem reads_readSign (c : Char) (s : List Char) : Reads (readSign (c :: s)) fun sign =>
    ∃ negative : Bool, c = (if negative then '-' else '+') ∧ sign = if negative then -1 else 1 := by
  by_cases hplus : c = '+'
  · subst hplus
    apply (reads_pure 1).congr
    intro sign
    constructor
    · rintro rfl
      exact ⟨false, rfl, rfl⟩
    · rintro ⟨negative, hc, rfl⟩
      cases negative with
      | false => rfl
      | true => exact absurd hc (by decide)
  · by_cases hminus : c = '-'
    · subst hminus
      apply (reads_pure (-1)).congr
      intro sign
      constructor
      · rintro rfl
        exact ⟨true, rfl, rfl⟩
      · rintro ⟨negative, hc, rfl⟩
        cases negative with
        | true => rfl
        | false => exact absurd hc (by decide)
    · have hread : readSign (c :: s) = .error .malformed := by
        simp [readSign, hplus, hminus]
      rw [hread]
      apply reads_malformed
      rintro sign ⟨negative, hc, -⟩
      cases negative with
      | false => exact hplus hc
      | true => exact hminus hc

theorem offset_eq (negative : Bool) (h m : ℕ) :
    ((some (Zone.offset negative h m)).isSome, zoneShift (some (.offset negative h m)),
      60 * zoneShift (some (.offset negative h m))) =
      (true, (if negative = true then (-1 : ℤ) else 1) * (h * 60 + m),
        (if negative = true then (-1 : ℤ) else 1) * (h * 3600 + m * 60)) := by
  refine Prod.ext rfl (Prod.ext ?_ ?_)
  · rw [zoneShift, Zone.shift]
    ring
  · rw [zoneShift, Zone.shift]
    ring

theorem reads_readZone : Reads (readZone s) fun r =>
    ∃ zone : Option Zone, (∀ z, zone = some z → z.Valid) ∧
    r = (zone.isSome, zoneShift zone, 60 * zoneShift zone) ∧ s = zoneText zone := by
  cases s with
  | nil =>
    apply (reads_pure (false, 0, 0)).congr
    intro r
    constructor
    · rintro rfl
      exact ⟨none, nofun, rfl, rfl⟩
    · rintro ⟨zone, -, rfl, htext⟩
      match zone with
      | none => rfl
      | some .utc => exact nomatch htext
      | some (.offset _ _ _) => exact nomatch htext
  | cons c s =>
    by_cases hutc : c :: s = ['Z']
    · rw [readZone, if_neg (cons_ne_nil c s), if_pos hutc]
      apply (reads_pure (true, 0, 0)).congr
      intro r
      constructor
      · rintro rfl
        refine ⟨some .utc, ?_, rfl, hutc⟩
        rintro _ ⟨⟩
        trivial
      · rintro ⟨zone, -, rfl, htext⟩
        match zone with
        | none => exact nomatch htext
        | some .utc => rfl
        | some (.offset _ _ _) =>
          rw [hutc] at htext
          exact absurd (congrArg List.length htext) (by simp [zoneText, Zone.text, pad])
    · rw [readZone, if_neg (cons_ne_nil c s), if_neg hutc]
      refine Reads.congr ((reads_readSign c s).bind fun sign _ =>
          Reads.sliceFrom (by simp) (Reads.guard fun hlength =>
        Reads.separator (by omega) fun _ => (reads_twoDigits (by omega)).bind fun th _ =>
            (reads_twoDigits (by omega)).bind fun tm _ =>
        Reads.guard fun _ => reads_pure _)) ?_
      intro r
      constructor
      · rintro ⟨_, ⟨negative, hc, rfl⟩, hlength, hcolon, th, ⟨-, hth⟩, tm, ⟨-, htm⟩, hrng, rfl⟩
        refine ⟨some (.offset negative th tm), ?_, ?_, ?_⟩
        · rintro _ ⟨⟩
          change _ ∨ _
          omega
        · exact (offset_eq negative th tm).symm
        · have hth' : s = pad th ++ s.drop 2 := hth
          have hcolon' : s.drop 2 = ':' :: s.drop 3 := hcolon
          have htm' : s.drop 3 = pad tm ++ s.drop 5 := htm
          have hend : s.drop 5 = [] := drop_eq_nil_of_le (le_of_eq hlength)
          rw [hc, hth', hcolon', htm', hend, append_nil]
          rfl
      · rintro ⟨zone, hvalid, rfl, htext⟩
        match zone with
        | none => exact nomatch htext
        | some .utc => exact absurd htext hutc
        | some (.offset negative h m) =>
          obtain ⟨hc, hs⟩ := List.cons.inj htext
          subst hs
          have hbounds := hvalid _ rfl
          change _ ∨ _ at hbounds
          refine ⟨_, ⟨negative, hc, rfl⟩, rfl, rfl, h, ⟨by omega, rfl⟩, m, ⟨by omega, rfl⟩,
            by omega, ?_⟩
          exact offset_eq negative h m

/-! ## Instants -/

namespace DateTimeForm

variable {f : DateTimeForm}

theorem text_ascii (f : DateTimeForm) : ∀ c ∈ f.text, c.toNat < 128 := by
  have hdig : ∀ digits : List (Fin 10), ∀ c ∈ digits.map digitChar, c.toNat < 128 :=
    fun digits => forall_mem_map.mpr fun d _ => digitChar_ascii d
  have hpad : ∀ n, ∀ c ∈ pad n, c.toNat < 128 :=
    fun n => hdig [Fin.ofNat 10 (n / 10), Fin.ofNat 10 (n % 10)]
  have hyear : ∀ c ∈ yearText f.negative f.yearDigits, c.toNat < 128 := by
    rw [yearText, forall_mem_append]
    refine ⟨?_, hdig _⟩
    split_ifs <;> simp
  have hfrac : ∀ c ∈ fractionText f.fraction, c.toNat < 128 := by
    cases f.fraction with
    | nil => exact fun c hc => nomatch hc
    | cons d digits => exact forall_mem_cons.mpr ⟨by decide, hdig _⟩
  have hzone : ∀ c ∈ zoneText f.zone, c.toNat < 128 := by
    match f.zone with
    | none => exact fun c hc => nomatch hc
    | some .utc => exact forall_mem_singleton.mpr (by decide)
    | some (.offset negative h m) =>
      simp only [zoneText, Zone.text, forall_mem_cons, forall_mem_append]
      refine ⟨?_, hpad h, by decide, hpad m⟩
      split_ifs <;> decide
  simp only [text, forall_mem_append, forall_mem_cons]
  exact ⟨hyear,
    by decide, hpad _, by decide, hpad _, by decide, hpad _, by decide, hpad _, by decide, hpad _,
      hfrac, hzone⟩

/-- What follows a fraction is an offset. -/
theorem fractionEnds (f : DateTimeForm) : FractionEnds f.fraction (zoneText f.zone) := by
  match f.zone with
  | none => exact ⟨fun _ => nofun, fun _ c hc => nomatch hc⟩
  | some .utc => exact ⟨fun _ => by decide, fun _ c hc => by cases hc; rfl⟩
  | some (.offset negative h m) =>
    cases negative with
    | true | false => exact ⟨fun _ h => (nomatch h), fun _ c hc => by cases hc; rfl⟩

end DateTimeForm

/-- The cycles of a year and the days of the date within one are the day of the calendar. -/
theorem days_eq (y : ℤ) {m : ℕ} (hm : 1 ≤ m ∧ m ≤ 12) (d : ℕ) :
    y / 400 * 146097 + daysFromCivil (y % 400) m d =
    Calendar.dayNumber y m d - Calendar.dayNumber 1970 1 1 := by
  have hyear : y % 400 + 400 * (y / 400) = y := Int.emod_add_mul_ediv y 400
  have hcycles := Calendar.dayNumber_add_cycles (y % 400) (y / 400) m d
  rw [hyear] at hcycles
  rw [daysFromCivil_eq hm, hcycles]
  ring

theorem daysInMonth_emod (y : ℤ) (m : ℕ) : daysInMonth (y % 400) m = Calendar.daysOfMonth y m := by
  have hyear : y % 400 + 400 * (y / 400) = y := Int.emod_add_mul_ediv y 400
  have hcycles := Calendar.daysOfMonth_add_cycles (y % 400) (y / 400) m
  rw [hyear] at hcycles
  rw [daysInMonth_eq (Int.emod_nonneg y (by omega)), hcycles]

theorem DateTimeForm.seconds_eq (f : DateTimeForm) (hm : 1 ≤ f.month ∧ f.month ≤ 12) :
    (f.year / 400 * 146097 + daysFromCivil (f.year % 400) f.month f.day) * 86400 +
      (f.hour * 3600 + f.minute * 60 + f.second - 60 * zoneShift f.zone) = f.seconds := by
  rw [days_eq f.year hm, DateTimeForm.seconds]
  ring

/-- The checks of the parser are those of a valid form. -/
theorem DateTimeForm.time_iff {h m s : ℕ} {fraction : List (Fin 10)} :
    (h ≤ 24 ∧ ¬(h = 24 ∧ (m ≠ 0 ∨ s ≠ 0 ∨ (trimEndZeros fraction).val ≠ [])) ∧ m ≤ 59 ∧ s < 60) ↔
      (h ≤ 23 ∧ m ≤ 59 ∧ s ≤ 59) ∨ (h = 24 ∧ m = 0 ∧ s = 0 ∧ ∀ d ∈ fraction, d = 0) := by
  have hzero : (trimEndZeros fraction).val = [] ↔ ∀ d ∈ fraction, d = 0 := Digits.rdropWhile_eq_nil
  rw [← hzero]
  by_cases hnil : (trimEndZeros fraction).val = []
  · simp only [hnil, ne_eq, not_true_eq_false, or_false, and_true]
    omega
  · simp only [hnil, ne_eq, not_false_eq_true, or_true, and_true, and_false, or_false]
    omega

theorem reads_parseDatetime (lexical : String) : Reads (parseDatetime lexical true) fun r =>
    ∃ f : DateTimeForm, f.Valid ∧ f.text = trim lexical.toList ∧
    r = (f.instant, f.zone.isSome, zoneShift f.zone) := by
  refine Reads.congr (Reads.guard fun _ => (reads_readYear _).bind fun y _ =>
      (reads_readDate y.2).bind fun d _ =>
    (reads_readTime d.2.2).bind fun t _ => Reads.guard fun _ =>
        (reads_readZone t.2.2.2.2).bind fun z _ => reads_pure _) ?_
  intro r
  constructor
  · rintro ⟨-, ⟨y, r₁⟩, ⟨negative, yearDigits, hyear, rfl, htext⟩, ⟨m, d, r₂⟩, ⟨-, -, hdate⟩,
        ⟨h, mi, sec, fr, r₃⟩,
      ⟨-, -, -, fraction, rfl, -, htime⟩, ⟨hmonth, hday, hlast, hrng⟩, _,
        ⟨zone, hzone, rfl, hrest⟩, rfl⟩
    let f : DateTimeForm := ⟨negative, yearDigits, m, d, h, mi, sec, fraction, zone⟩
    have hlast' : (d : ℤ) ≤ Calendar.daysOfMonth f.year m :=
      hlast.trans_eq (daysInMonth_emod f.year m)
    have hvalid : f.Valid :=
      ⟨hyear, hmonth, ⟨hday, by exact_mod_cast hlast'⟩, DateTimeForm.time_iff.mp hrng, hzone⟩
    refine ⟨f, hvalid, ?_, ?_⟩
    · rw [htext, hdate, htime, hrest]
      rfl
    · rw [DateTimeForm.instant, ← f.seconds_eq hmonth]
      rfl
  · rintro ⟨f, hvalid, htext, rfl⟩
    have hday := hvalid.day
    have htime := DateTimeForm.time_iff.mpr hvalid.time
    have hlast : (f.day : ℤ) ≤ daysInMonth (f.year % 400) f.month := by
      rw [daysInMonth_emod]
      exact_mod_cast hday.2
    have hmonth : Calendar.daysOfMonth f.year f.month ≤ 31 := by
      rw [Calendar.daysOfMonth]
      split_ifs <;> omega
    rw [← htext]
    refine ⟨f.text_ascii, ⟨_, _⟩, ⟨f.negative, f.yearDigits, hvalid.year, rfl, rfl⟩,
        ⟨f.month, f.day, _⟩, ⟨?_, ?_, rfl⟩,
      ⟨f.hour, f.minute, f.second, _, _⟩, ⟨?_, ?_, ?_, f.fraction, rfl, f.fractionEnds, rfl⟩,
        ⟨hvalid.month, hday.1, hlast, htime⟩, _,
      ⟨f.zone, hvalid.zone, rfl, rfl⟩, ?_⟩
    · exact lt_of_le_of_lt hvalid.month.2 (by omega)
    · change f.day < 100
      omega
    · change f.hour < 100
      omega
    · change f.minute < 100
      omega
    · change f.second < 100
      omega
    · rw [DateTimeForm.instant, ← f.seconds_eq hvalid.month]
      rfl

/-- An instant without a time is read without a panic as well. -/
theorem parseDatetime_ne_panic (lexical : String) (hasTime : Bool) :
    parseDatetime lexical hasTime ≠ .error .panic := by
  cases hasTime with
  | true => exact (reads_parseDatetime lexical).no_panic
  | false =>
    have hreads : Reads (parseDatetime lexical false) _ :=
      Reads.guard fun _ => (reads_readYear _).bind fun y _ => (reads_readDate y.2).bind fun d _ =>
        (reads_pure (0, 0, 0, trimEndZeros [], d.2.2)).bind fun t _ => Reads.guard fun _ =>
            (reads_readZone t.2.2.2.2).bind fun z _ => reads_pure _
    exact hreads.no_panic

/-- The seconds from the start of 1970 to an instant. -/
def DtInstant.point (i : DtInstant) : ℚ := i.seconds + Digits.value i.fraction

/-- The derived order is the one of the timeline. -/
theorem DtInstant.strictMono_point : StrictMono DtInstant.point := by
  intro i j hij
  rw [DtInstant.point, DtInstant.point]
  rcases DtInstant.lt_iff.mp hij with hsecs | ⟨hsecs, hfrac⟩
  · have hone := Digits.value_lt_one i.fraction
    have hnonneg := Digits.value_nonneg j.fraction
    have hcast : (i.seconds : ℚ) + 1 ≤ j.seconds := by exact_mod_cast hsecs
    linarith
  · have hval := Digits.value_lt_of_lt j.trimmed hfrac
    rw [hsecs]
    linarith

theorem DateTimeForm.point_instant (f : DateTimeForm) : f.instant.point = f.point :=
  congrArg (fun v => (f.seconds : ℚ) + v) (Digits.value_rdropWhile f.fraction)

/-- No input makes the parser panic, and it accepts a text if and only if, without the white space
around it, it is the text of a valid form.  What it reads from such texts is ordered as the points
that they denote on the timeline. -/
theorem parseDatetime_spec : (∀ lexical hasTime, parseDatetime lexical hasTime ≠ .error .panic) ∧
      (∀ lexical, (∃ value, parseDatetime lexical true = .ok value) ↔ ∃ f : DateTimeForm,
        f.Valid ∧ f.text = trim lexical.toList) ∧
      ∀ (lexical lexical' : String) (f f' : DateTimeForm) (i i' : DtInstant) (hasTz hasTz' : Bool)
      (tz tz' : ℤ),
        f.Valid → f.text = trim lexical.toList → f'.Valid → f'.text = trim lexical'.toList →
        parseDatetime lexical true = .ok (i, hasTz, tz) →
        parseDatetime lexical' true = .ok (i', hasTz', tz') →
          hasTz = f.zone.isSome ∧ (i < i' ↔ f.point < f'.point) ∧
          (i = i' ↔ f.point = f'.point) := by
  have hread : ∀ (lexical : String) (f : DateTimeForm) (i : DtInstant) (hasTz : Bool) (tz : ℤ),
    f.Valid → f.text = trim lexical.toList →
      parseDatetime lexical true = .ok (i, hasTz, tz) → i = f.instant ∧ hasTz = f.zone.isSome := by
    intro lexical f i hasTz tz hvalid htext hparse
    have hf := ((reads_parseDatetime lexical).ok_iff _).mpr ⟨f, hvalid, htext, rfl⟩
    cases Except.ok.inj (hparse.symm.trans hf)
    exact ⟨rfl, rfl⟩
  refine ⟨parseDatetime_ne_panic, fun lexical => ?_, ?_⟩
  · constructor
    · rintro ⟨value, hval⟩
      obtain ⟨f, hvalid, htext, -⟩ := ((reads_parseDatetime lexical).ok_iff value).mp hval
      exact ⟨f, hvalid, htext⟩
    · rintro ⟨f, hvalid, htext⟩
      exact ⟨_, ((reads_parseDatetime lexical).ok_iff _).mpr ⟨f, hvalid, htext, rfl⟩⟩
  · intro lexical lexical' f f' i i' hasTz hasTz' tz tz' hvalid htext hvalid' htext' hparse hparse'
    obtain ⟨rfl, rfl⟩ := hread lexical f i hasTz tz hvalid htext hparse
    obtain ⟨rfl, -⟩ := hread lexical' f' i' hasTz' tz' hvalid' htext' hparse'
    rw [← f.point_instant, ← f'.point_instant]
    exact ⟨rfl, DtInstant.strictMono_point.lt_iff_lt.symm,
      DtInstant.strictMono_point.injective.eq_iff.symm⟩

/-- Eleven at night comes before half past, in another year. -/
theorem parseDatetime_spec_newYear : ∃ i i' tz tz',
    parseDatetime "2000-01-01T00:00:00+01:00" true = .ok (i, true, tz) ∧
      parseDatetime "1999-12-31T23:30:00Z" true = .ok (i', true, tz') ∧ i < i' := by
  let f : DateTimeForm := ⟨false, [2, 0, 0, 0], 1, 1, 0, 0, 0, [], some (.offset false 1 0)⟩
  let f' : DateTimeForm := ⟨false, [1, 9, 9, 9], 12, 31, 23, 30, 0, [], some .utc⟩
  have hvalid : f.Valid := ⟨by decide, by decide, by decide, by decide, by
    rintro _ ⟨⟩; exact .inl (by decide)⟩
  have hvalid' : f'.Valid := ⟨by decide, by decide, by decide, by decide, by
    rintro _ ⟨⟩; trivial⟩
  have htext : f.text = trim "2000-01-01T00:00:00+01:00".toList := by decide +kernel
  have htext' : f'.text = trim "1999-12-31T23:30:00Z".toList := by decide +kernel
  have hparse := ((reads_parseDatetime _).ok_iff _).mpr ⟨f, hvalid, htext, rfl⟩
  have hparse' := ((reads_parseDatetime _).ok_iff _).mpr ⟨f', hvalid', htext', rfl⟩
  refine ⟨_, _, _, _, hparse, hparse', ?_⟩
  have hspec := parseDatetime_spec.2.2 _ _ f f' _ _ _ _ _ _ hvalid htext hvalid' htext'
    hparse hparse'
  refine hspec.2.1.mpr ?_
  have hsecs : f.seconds < f'.seconds := by decide +kernel
  simpa [DateTimeForm.point, f, f'] using hsecs

/-- A space before a form does not keep it from being accepted. -/
theorem parseDatetime_leading_space :
    (∃ value, parseDatetime " 2000-01-01T00:00:00" true = .ok value) ∧
      ¬∃ f : DateTimeForm, f.Valid ∧ f.text = " 2000-01-01T00:00:00".toList := by
  constructor
  · let f : DateTimeForm := ⟨false, [2, 0, 0, 0], 1, 1, 0, 0, 0, [], none⟩
    have hvalid : f.Valid := ⟨by decide, by decide, by decide, by decide, nofun⟩
    have htext : f.text = trim " 2000-01-01T00:00:00".toList := by decide +kernel
    exact ⟨_, ((reads_parseDatetime _).ok_iff _).mpr ⟨f, hvalid, htext, rfl⟩⟩
  · rintro ⟨f, -, htext⟩
    have hhead : f.text.head? = some ' ' := by
      rw [htext]
      decide +kernel
    obtain ⟨negative, digits, _⟩ := f
    cases negative with
    | true => exact absurd hhead (by simp [DateTimeForm.text, yearText])
    | false =>
      cases digits with
      | nil => exact absurd hhead (by simp [DateTimeForm.text, yearText])
      | cons d digits => exact digitChar_ne (by decide) d (Option.some.inj hhead)

end Hermit.Datatypes
