import Hermit.Datatypes.DataRanges
import Hermit.Library.Pieces

/-! # The value space of instants

Instants with and without a timezone are on timelines of their own.  A restriction is an interval on
each of them, and its negation is what lies before and after that interval.
-/

namespace Hermit.Datatypes

open Pieces List Option

/-- No bound is an infinite one. -/
structure DtInterval where
  lower : Option DtInstant
  lowerInclusive : Bool
  upper : Option DtInstant
  upperInclusive : Bool
deriving DecidableEq

namespace DtInterval

def all : DtInterval := ⟨none, false, none, false⟩

def isEmpty (i : DtInterval) : Bool :=
  match i.lower, i.upper with
  | some lower, some upper =>
    upper < lower || (lower = upper && (!i.lowerInclusive || !i.upperInclusive))
  | _, _ => false

/-- Whether the interval holds a single instant. -/
def isPoint (i : DtInterval) : Bool := i.lower.isSome && i.lower = i.upper

def contains (i : DtInterval) (instant : DtInstant) : Bool :=
  (i.lower.all fun lower => lower < instant || (lower = instant && i.lowerInclusive)) &&
    i.upper.all fun upper => instant < upper || (instant = upper && i.upperInclusive)

/-- The greater one of two lower bounds. -/
def meetLower (a b : Option DtInstant) (aInclusive bInclusive : Bool) : Option DtInstant × Bool :=
  match a, b with
  | none, _ => (b, bInclusive)
  | _, none => (a, aInclusive)
  | some x, some y =>
    if y < x then (a, aInclusive) else if x < y then (b, bInclusive)
      else (a, aInclusive && bInclusive)

/-- The smaller one of two upper bounds. -/
def meetUpper (a b : Option DtInstant) (aInclusive bInclusive : Bool) : Option DtInstant × Bool :=
  match a, b with
  | none, _ => (b, bInclusive)
  | _, none => (a, aInclusive)
  | some x, some y =>
    if x < y then (a, aInclusive) else if y < x then (b, bInclusive)
      else (a, aInclusive && bInclusive)

/-- The more restrictive bound on each side. -/
def meet (i other : DtInterval) : DtInterval :=
  let lower := meetLower i.lower other.lower i.lowerInclusive other.lowerInclusive
  let upper := meetUpper i.upper other.upper i.upperInclusive other.upperInclusive
  ⟨lower.1, lower.2, upper.1, upper.2⟩

def intersect (i other : DtInterval) : Option DtInterval :=
  if (i.meet other).isEmpty then none else some (i.meet other)

/-- The instants before a bound. -/
def before (bound : DtInstant) (inclusive : Bool) : DtInterval :=
  ⟨none, false, some bound, inclusive⟩

/-- The instants after a bound. -/
def after (bound : DtInstant) (inclusive : Bool) : DtInterval :=
  ⟨some bound, inclusive, none, false⟩

end DtInterval

/-- What lies before and after the interval; all instants where there is none. -/
def complementDtInterval : Option DtInterval → List DtInterval
  | none => [DtInterval.all]
  | some iv =>
    (iv.lower.map fun lower => DtInterval.before lower !iv.lowerInclusive).toList ++
      (iv.upper.map fun upper => DtInterval.after upper !iv.upperInclusive).toList

/-- The instants that a facet admits on one of the timelines. -/
def facetInterval (facet : OrderingFacet) (instant : DtInstant) (hasTz intervalHasTz : Bool) :
    DtInterval :=
  match facet with
  | .minInclusive =>
    if hasTz = intervalHasTz then DtInterval.after instant true
      else DtInterval.after (instant.shifted maxTzCorrectionSeconds) false
  | .minExclusive =>
    if hasTz = intervalHasTz then DtInterval.after instant false
      else DtInterval.after (instant.shifted maxTzCorrectionSeconds) false
  | .maxInclusive =>
    if hasTz = intervalHasTz then DtInterval.before instant true
      else DtInterval.before (instant.shifted (-maxTzCorrectionSeconds)) false
  | .maxExclusive =>
    if hasTz = intervalHasTz then DtInterval.before instant false
      else DtInterval.before (instant.shifted (-maxTzCorrectionSeconds)) false

/-- Intersect both intervals with what a facet admits; only ordering facets with instants are read.
-/
def applyFacet (intervals : Option DtInterval × Option DtInterval) (f : Facet × Option DataValue) :
    Option (Option DtInterval × Option DtInterval) :=
  match f with
  | (.ordering facet, some (.dateTime instant hasTz _)) =>
    some (intervals.1.bind fun i => i.intersect (facetInterval facet instant hasTz true),
      intervals.2.bind fun i => i.intersect (facetInterval facet instant hasTz false))
  | _ => none

def datetimeIntervals (restrictions : List DatatypeRestriction) :
    Option (Option DtInterval × Option DtInterval) :=
  let allowsNoTz := restrictions.all fun r => r.datatype ≠ .dateTimeStamp
  let start := (some DtInterval.all, if allowsNoTz then some DtInterval.all else none)
  restrictions.foldlM (fun intervals r => r.facets.foldlM applyFacet intervals) start

/-- The intervals with their kinds, and the excluded values that lie in them. -/
structure DateTimeValueSpace where
  intervals : List (DtInterval × Bool)
  excluded : List DataValue

/-- There is one value without a timezone at an instant, and one for each offset with one. -/
def datetimeValuesAt (instant : DtInstant) (hasTz : Bool) : List DataValue :=
  if hasTz then (List.range 1681).map fun k : ℕ =>
      .dateTime instant true ((k : ℤ) - 840) else [.dateTime instant false 0]

/-- The values of the space, unless it is infinite. -/
def DateTimeValueSpace.values (space : DateTimeValueSpace) : Option (List DataValue) :=
  if space.intervals.any fun i => !i.1.isPoint then none
  else
    some ((space.intervals.flatMap fun i => i.1.lower.toList.flatMap fun instant =>
        datetimeValuesAt instant i.2).filter
      fun value => !space.excluded.contains value)

/-- Subtract a negated restriction from the intervals. -/
def subtractDateTime (intervals : List (DtInterval × Bool)) (dr : DatatypeRestriction) :
    Option (List (DtInterval × Bool)) :=
  (datetimeIntervals [dr]).map fun negated =>
    intervals.flatMap fun i =>
      ((complementDtInterval (if i.2 then negated.1 else negated.2)).filterMap i.1.intersect).map
        fun part => (part, i.2)

variable (ranges : List LiteralDataRange)

def positiveDateTimes : List DatatypeRestriction :=
  ranges.filterMap fun
    | .positive (.datatypeRestriction dr) =>
      if isDatetimeDatatype dr.datatype then some dr else none
    | _ => none

def negatedDateTimes : List DatatypeRestriction :=
  ranges.filterMap fun
    | .atomicNegationDataRange (.datatypeRestriction dr) =>
      if isDatetimeDatatype dr.datatype then some dr else none
    | _ => none

/-- The instants of the negated enumerations. -/
def forbiddenDateTimes : List DataValue :=
  ranges.flatMap fun
    | .atomicNegationDataRange (.constantEnumeration constants) =>
      constants.filterMap fun
        | some (.dateTime instant hasTz tzOffset) => some (.dateTime instant hasTz tzOffset)
        | _ => none
    | _ => []

/-- Whether an interval of its kind holds the value. -/
def insideDateTime (intervals : List (DtInterval × Bool)) : DataValue → Bool
  | .dateTime instant hasTz _ => intervals.any fun i => i.2 = hasTz && i.1.contains instant
  | _ => false

def datetimeValueSpace : Option DateTimeValueSpace := do
  if (positiveDateTimes ranges).isEmpty then none
  let (withTz, withoutTz) ← datetimeIntervals (positiveDateTimes ranges)
  let start := (withTz.map (·, true)).toList ++ (withoutTz.map (·, false)).toList
  let intervals ← (negatedDateTimes ranges).foldlM subtractDateTime start
  return ⟨intervals, collect (insideDateTime intervals) (forbiddenDateTimes ranges)⟩

/-! ## The timeline -/

namespace DtInstant

variable {i j : DtInstant}

theorem lt_iff : i < j ↔ i.seconds < j.seconds ∨
    (i.seconds = j.seconds ∧ i.fraction < j.fraction) := Prod.Lex.lt_iff

/-- Digits with enough zeros before a last one come before greater digits. -/
theorem exists_digits_lt {f g : List (Fin 10)} (hlt : f < g) (htrim : g.getLast? ≠ some 0) :
    ∃ n, f ++ (List.replicate n 0 ++ [1]) < g := by
  induction g generalizing f with
  | nil => exact absurd hlt (not_lt_nil f)
  | cons b g ih =>
    cases f with
    | nil =>
      by_cases hb : b = 0
      · cases g with
        | nil => exact absurd (by rw [hb]; rfl) htrim
        | cons c g =>
          rw [getLast?_cons_cons] at htrim
          obtain ⟨n, hn⟩ := ih (nil_lt_cons c g) htrim
          refine ⟨n + 1, ?_⟩
          rw [hb, replicate_succ]
          exact cons_lt_cons_iff.mpr (.inr ⟨rfl, hn⟩)
      · refine ⟨1, cons_lt_cons_iff.mpr (.inl ?_)⟩
        exact Fin.pos_iff_ne_zero.mpr hb
    | cons a f =>
      rcases cons_lt_cons_iff.mp hlt with hab | ⟨rfl, hfg⟩
      · exact ⟨0, cons_lt_cons_iff.mpr (.inl hab)⟩
      · have hg : g.getLast? ≠ some 0 := by
          cases g with
          | nil => exact fun h => nomatch h
          | cons c g => rwa [getLast?_cons_cons] at htrim
        obtain ⟨n, hn⟩ := ih hfg hg
        exact ⟨n, cons_lt_cons_iff.mpr (.inr ⟨rfl, hn⟩)⟩

theorem lt_append_digits (f : List (Fin 10)) (n : ℕ) : f < f ++ (List.replicate n 0 ++ [1]) := by
  induction f with
  | nil =>
    cases n with
    | zero | succ n => exact nil_lt_cons _ _
  | cons a f ih => exact cons_lt_cons_iff.mpr (.inr ⟨rfl, ih⟩)

instance : DenselyOrdered DtInstant where
  dense i j hij := by
    have hnew : ∀ n, (i.fraction ++ (List.replicate n 0 ++ [1])).getLast? ≠ some 0 := by
      intro n
      rw [← append_assoc, getLast?_concat]
      decide
    rcases lt_iff.mp hij with hsecs | ⟨hsecs, hfrac⟩
    · refine ⟨⟨i.seconds, _, hnew 0⟩, lt_iff.mpr (.inr ⟨rfl, lt_append_digits i.fraction 0⟩),
        lt_iff.mpr (.inl hsecs)⟩
    · obtain ⟨n, hn⟩ := exists_digits_lt hfrac j.trimmed
      exact ⟨⟨i.seconds, _, hnew n⟩, lt_iff.mpr (.inr ⟨rfl, lt_append_digits i.fraction n⟩),
        lt_iff.mpr (.inr ⟨hsecs, hn⟩)⟩

instance : NoMaxOrder DtInstant where
  exists_gt i := ⟨i.shifted 1, lt_iff.mpr (.inl (lt_add_one i.seconds))⟩

instance : NoMinOrder DtInstant where
  exists_lt i := ⟨i.shifted (-1), lt_iff.mpr (.inl (by change i.seconds + -1 < i.seconds; omega))⟩

instance : Nonempty DtInstant := ⟨⟨0, [], nofun⟩⟩

end DtInstant

/-! ## Intervals -/

namespace DtInterval

variable {i j : DtInterval} {x : DtInstant}

/-- The instants of an interval. -/
def den (i : DtInterval) : Set DtInstant := {x | i.contains x = true}

theorem mem_den : x ∈ i.den ↔
    (∀ lower ∈ i.lower, lower < x ∨ (lower = x ∧ i.lowerInclusive = true)) ∧
    ∀ upper ∈ i.upper, x < upper ∨ (x = upper ∧ i.upperInclusive = true) := by
  change i.contains x = true ↔ _
  rw [contains, Bool.and_eq_true, Option.all_eq_true, Option.all_eq_true]
  simp

theorem den_all : all.den = Set.univ := by
  ext x
  rw [mem_den]
  simp [all]

theorem mem_before {bound : DtInstant} {inclusive : Bool} : x ∈ (before bound inclusive).den ↔
    x < bound ∨ (x = bound ∧ inclusive = true) := by
  rw [mem_den]
  simp [before]

theorem mem_after {bound : DtInstant} {inclusive : Bool} : x ∈ (after bound inclusive).den ↔
    bound < x ∨ (bound = x ∧ inclusive = true) := by
  rw [mem_den]
  simp [after]

/-- An interval without instants between its bounds is empty. -/
theorem notMem_of_isEmpty (h : i.isEmpty = true) : x ∉ i.den := by
  rw [mem_den]
  rintro ⟨hlower, hupper⟩
  rw [isEmpty] at h
  split at h
  · rename_i lower upper hl hu
    have hlower := hlower lower hl
    have hupper := hupper upper hu
    rw [Bool.or_eq_true, Bool.and_eq_true, decide_eq_true_eq, decide_eq_true_eq] at h
    grind
  · cases h

variable {a b : Option DtInstant}

theorem meetLower_iff {ai bi : Bool} :
    (∀ l ∈ (meetLower a b ai bi).1, l < x ∨ (l = x ∧ (meetLower a b ai bi).2 = true)) ↔
      (∀ l ∈ a, l < x ∨ (l = x ∧ ai = true)) ∧ ∀ l ∈ b, l < x ∨ (l = x ∧ bi = true) := by
  rcases a with _ | a
  · simp [meetLower]
  · rcases b with _ | b
    · simp [meetLower]
    · simp only [meetLower]
      split_ifs <;> simp <;> grind

theorem meetUpper_iff {ai bi : Bool} :
    (∀ u ∈ (meetUpper a b ai bi).1, x < u ∨ (x = u ∧ (meetUpper a b ai bi).2 = true)) ↔
      (∀ u ∈ a, x < u ∨ (x = u ∧ ai = true)) ∧ ∀ u ∈ b, x < u ∨ (x = u ∧ bi = true) := by
  rcases a with _ | a
  · simp [meetUpper]
  · rcases b with _ | b
    · simp [meetUpper]
    · simp only [meetUpper]
      split_ifs <;> simp <;> grind

theorem mem_intersect : x ∈ i.den ∩ j.den ↔ ∃ k ∈ i.intersect j, x ∈ k.den := by
  have hmeet : x ∈ i.den ∩ j.den ↔ x ∈ (i.meet j).den := by
    rw [Set.mem_inter_iff, mem_den, mem_den, mem_den, meet, meetLower_iff, meetUpper_iff]
    tauto
  rw [hmeet, intersect]
  split
  · rename_i hemp
    simp [notMem_of_isEmpty hemp]
  · simp

theorem isEmpty_of_intersect {k : DtInterval} (h : i.intersect j = some k) : k.isEmpty = false := by
  rw [intersect] at h
  split at h
  · cases h
  · rename_i hemp
    cases h
    simpa using hemp

/-- An interval that is no point has infinitely many instants. -/
theorem infinite_den (hemp : i.isEmpty = false) (hpoint : i.isPoint = false) :
    i.den.Infinite := by
  rcases i with ⟨_ | lower, li, _ | upper, ui⟩
  · have : (⟨none, li, none, ui⟩ : DtInterval).den = Set.univ := by
      ext x
      rw [mem_den]
      simp
    rw [this]
    exact Set.infinite_univ
  · refine (Set.Iio_infinite upper).mono fun x hx => mem_den.mpr ⟨by simp, ?_⟩
    simpa using .inl hx
  · refine (Set.Ioi_infinite lower).mono fun x hx => mem_den.mpr ⟨?_, by simp⟩
    simpa using .inl hx
  · have hlt : lower < upper := by
      simp [isEmpty, isPoint] at hemp hpoint
      exact lt_of_le_of_ne hemp.1 hpoint
    refine (Set.Ioo_infinite hlt).mono fun x hx => mem_den.mpr ⟨?_, ?_⟩
    · simpa using .inl hx.1
    · simpa using .inl hx.2

end DtInterval

section restrictions

variable {x : DtInstant}

/-- The instants of an interval, if there is one. -/
def optionDen (o : Option DtInterval) : Set DtInstant := {x | ∃ i ∈ o, x ∈ i.den}

theorem not_lower_iff {lower : DtInstant} {inclusive : Bool} :
    ¬ (lower < x ∨ (lower = x ∧ inclusive = true)) ↔
    x ∈ (DtInterval.before lower !inclusive).den := by
  rw [DtInterval.mem_before]
  cases inclusive
  · simp [le_iff_lt_or_eq]
  · simp [← le_iff_lt_or_eq]

theorem not_upper_iff {upper : DtInstant} {inclusive : Bool} :
    ¬ (x < upper ∨ (x = upper ∧ inclusive = true)) ↔
    x ∈ (DtInterval.after upper !inclusive).den := by
  rw [DtInterval.mem_after]
  cases inclusive
  · simp [le_iff_lt_or_eq]
  · simp [← le_iff_lt_or_eq]

variable {o : Option DtInterval}

/-- What lies before and after an interval. -/
theorem tiles_complement (hemp : ∀ i ∈ o, i.isEmpty = false) :
    Tiles DtInterval.den (complementDtInterval o) (optionDen o)ᶜ := by
  rcases o with _ | iv
  · refine (tiles_singleton DtInterval.all).congr fun x => ?_
    simp [optionDen, DtInterval.den_all]
  · have hemp := hemp iv rfl
    constructor
    · rcases hl : iv.lower with _ | lower
      · rcases hu : iv.upper with _ | upper
        · simp [complementDtInterval, hl, hu]
        · simp [complementDtInterval, hl, hu]
      · rcases hu : iv.upper with _ | upper
        · simp [complementDtInterval, hl, hu]
        · simp only [complementDtInterval, hl, hu, map_some, toList_some, singleton_append,
              pairwise_cons,
            mem_singleton, forall_eq, not_mem_nil, false_imp_iff, implies_true,
              List.Pairwise.nil, and_true]
          -- An instant before and after would be both bounds, which the interval then has.
          rw [Set.disjoint_left]
          intro x hbef hafter
          rw [DtInterval.mem_before] at hbef
          rw [DtInterval.mem_after] at hafter
          simp [DtInterval.isEmpty, hl, hu] at hemp
          grind
    · intro x
      have hmem : x ∈ (optionDen (some iv))ᶜ ↔ x ∉ iv.den := by simp [optionDen]
      rw [hmem, DtInterval.mem_den, not_and_or]
      rcases hl : iv.lower with _ | lower
      · rcases hu : iv.upper with _ | upper
        · simp [complementDtInterval, hl, hu]
        · simp [complementDtInterval, hl, hu, ← not_upper_iff]
      · rcases hu : iv.upper with _ | upper
        · simp [complementDtInterval, hl, hu, ← not_lower_iff]
        · simp [complementDtInterval, hl, hu, ← not_lower_iff, ← not_upper_iff]

theorem mem_facetInterval {facet : OrderingFacet} {instant : DtInstant} {hasTz kind : Bool} :
    x ∈ (facetInterval facet instant hasTz kind).den ↔
    compareDateTime x kind instant hasTz facet = true := by
  cases facet
  all_goals
    simp only [facetInterval, compareDateTime, compareOrder, eq_comm (a := kind)]
    split_ifs <;> simp [DtInterval.mem_before, DtInterval.mem_after, le_iff_lt_or_eq]

/-! ## Restrictions with ordering facets -/

/-- An ordering facet with an instant. -/
structure DateTimeFacet where
  facet : OrderingFacet
  instant : DtInstant
  hasTz : Bool
  tzOffset : ℤ

/-- A restriction of the instants, or of those with a timezone. -/
structure DateTimeRestriction where
  stamp : Bool
  facets : List DateTimeFacet

def DateTimeFacet.toFacet (f : DateTimeFacet) : Facet × Option DataValue :=
  (.ordering f.facet, some (.dateTime f.instant f.hasTz f.tzOffset))

def DateTimeRestriction.toRestriction (r : DateTimeRestriction) : DatatypeRestriction :=
  ⟨if r.stamp then .dateTimeStamp else .dateTime, r.facets.map DateTimeFacet.toFacet⟩

/-- The instants of a kind that satisfy the restriction. -/
def DateTimeRestriction.Admits (r : DateTimeRestriction) (p : DtInstant × Bool) : Prop :=
  (r.stamp = true → p.2 = true) ∧ ∀ f ∈ r.facets,
    compareDateTime p.1 p.2 f.instant f.hasTz f.facet = true

theorem valueSatisfiesRestriction_iff {r : DateTimeRestriction} {kind : Bool} {tzOffset : ℤ} :
    valueSatisfiesRestriction (.dateTime x kind tzOffset) r.toRestriction = true ↔
    r.Admits (x, kind) := by
  have hdatatype : valueInDatatype (.dateTime x kind tzOffset) r.toRestriction.datatype = true ↔
      (r.stamp = true → kind = true) := by
    rcases r with ⟨_ | _, facets⟩
    · simp [valueInDatatype, DateTimeRestriction.toRestriction, isDatetimeDatatype]
    · simp [valueInDatatype, DateTimeRestriction.toRestriction, isDatetimeDatatype]
  rw [valueSatisfiesRestriction, Bool.and_eq_true, hdatatype, List.all_eq_true]
  refine and_congr_right fun _ => ?_
  simp only [DateTimeRestriction.toRestriction, List.forall_mem_map]
  rfl

/-- The pair of intervals holds what is admitted on each timeline. -/
structure Holds (intervals : Option DtInterval × Option DtInterval)
    (s : Set (DtInstant × Bool)) : Prop where
  nonempty : ∀ kind : Bool, ∀ i ∈ (if kind then intervals.1 else intervals.2), i.isEmpty = false
  mem_iff : ∀ p, p ∈ s ↔ p.1 ∈ optionDen (if p.2 then intervals.1 else intervals.2)

theorem mem_optionDen_bind {j : DtInterval} :
    x ∈ optionDen (o.bind fun i => i.intersect j) ↔ x ∈ optionDen o ∧ x ∈ j.den := by
  rcases o with _ | i
  · simp [optionDen]
  · have hinter := DtInterval.mem_intersect (i := i) (j := j) (x := x)
    simpa [optionDen] using hinter.symm

variable {intervals : Option DtInterval × Option DtInterval}

/-- One facet. -/
theorem Holds.applyFacet {s : Set (DtInstant × Bool)} (h : Holds intervals s)
    (f : DateTimeFacet) : ∃ next, Datatypes.applyFacet intervals f.toFacet = some next ∧
      Holds next (s ∩ {p | compareDateTime p.1 p.2 f.instant f.hasTz f.facet = true}) := by
  refine ⟨_, rfl, ?_, ?_⟩
  · intro kind i hi
    have hbind : ∀ (o : Option DtInterval) j, i ∈ o.bind (fun k => k.intersect j) →
        i.isEmpty = false := by
      intro o j hmem
      obtain ⟨k, -, hk⟩ := bind_eq_some_iff.mp hmem
      exact DtInterval.isEmpty_of_intersect hk
    cases kind
    · exact hbind _ _ hi
    · exact hbind _ _ hi
  · rintro ⟨x, kind⟩
    rw [Set.mem_inter_iff, h.mem_iff, Set.mem_ofPred_eq, ← mem_facetInterval]
    cases kind
    · exact mem_optionDen_bind.symm
    · exact mem_optionDen_bind.symm

theorem Holds.applyFacets
    {s : Set (DtInstant × Bool)} (h : Holds intervals s) (facets : List DateTimeFacet) : ∃ next,
    (facets.map DateTimeFacet.toFacet).foldlM Datatypes.applyFacet intervals = some next ∧
      Holds next
      (s ∩ {p | ∀ f ∈ facets, compareDateTime p.1 p.2 f.instant f.hasTz f.facet = true}) := by
  induction facets generalizing intervals s with
  | nil => exact ⟨intervals, rfl, by simpa using h⟩
  | cons f facets ih =>
    obtain ⟨next, hnext, hholds⟩ := h.applyFacet f
    obtain ⟨last, hlast, hholds⟩ := ih hholds
    refine ⟨last, ?_, ?_⟩
    · rw [map_cons, foldlM_cons, hnext]
      exact hlast
    · convert hholds using 1
      ext p
      simp [and_assoc]

theorem holds_datetimeIntervals (rs : List DateTimeRestriction) :
    ∃ intervals, datetimeIntervals (rs.map DateTimeRestriction.toRestriction) = some intervals ∧
      Holds intervals {p | ∀ r ∈ rs, r.Admits p} := by
  have hfold : ∀ (rs : List DateTimeRestriction) (intervals : Option DtInterval × Option DtInterval)
    (s : Set (DtInstant × Bool)),
      Holds intervals s → ∃ next, (rs.map DateTimeRestriction.toRestriction).foldlM
        (fun intervals r => r.facets.foldlM applyFacet intervals) intervals = some next ∧ Holds next
            (s ∩ {p | ∀ r ∈ rs, ∀ f ∈ r.facets,
              compareDateTime p.1 p.2 f.instant f.hasTz f.facet = true}) := by
    intro rs
    induction rs with
    | nil => exact fun intervals s h => ⟨intervals, rfl, by simpa using h⟩
    | cons r rs ih =>
      intro intervals s h
      obtain ⟨next, hnext, hholds⟩ := h.applyFacets r.facets
      obtain ⟨last, hlast, hholds⟩ := ih next _ hholds
      refine ⟨last, ?_, ?_⟩
      · rw [map_cons, foldlM_cons]
        simp only [DateTimeRestriction.toRestriction, hnext]
        exact hlast
      · convert hholds using 1
        ext p
        simp [and_assoc]
  have hstamp : ((rs.map DateTimeRestriction.toRestriction).all fun r =>
      r.datatype ≠ .dateTimeStamp) = true ↔
      ∀ r ∈ rs, r.stamp = false := by
    rw [List.all_eq_true, List.forall_mem_map]
    refine forall₂_congr fun r _ => ?_
    rcases r with ⟨_ | _, facets⟩
    · simp [DateTimeRestriction.toRestriction]
    · simp [DateTimeRestriction.toRestriction]
  have hst : Holds (some DtInterval.all,
      if (rs.map DateTimeRestriction.toRestriction).all fun r =>
          r.datatype ≠ .dateTimeStamp then some DtInterval.all else none)
      {p | ∀ r ∈ rs, r.stamp = true → p.2 = true} := by
    have hnone : ∀ x, x ∉ optionDen none := fun x ⟨i, hi, _⟩ => nomatch hi
    have hall : ∀ x, x ∈ optionDen (some DtInterval.all) :=
      fun x => ⟨DtInterval.all, rfl, by rw [DtInterval.den_all]; trivial⟩
    have hsome : ∀ i ∈ some DtInterval.all, i.isEmpty = false :=
      by simp [DtInterval.isEmpty, DtInterval.all]
    constructor
    · intro kind i hi
      cases kind
      · simp only [Bool.false_eq_true, if_false] at hi
        split at hi
        · exact hsome i hi
        · cases hi
      · exact hsome i hi
    · rintro ⟨x, kind⟩
      cases kind
      · simp only [Bool.false_eq_true, if_false]
        by_cases hno : ∀ r ∈ rs, r.stamp = false
        · rw [if_pos (hstamp.mpr hno)]
          exact iff_of_true (fun r hr hstamp => absurd hstamp (by simp [hno r hr])) (hall x)
        · rw [if_neg (hstamp.not.mpr hno)]
          refine iff_of_false (fun hmem => hno fun r hr => ?_) (hnone x)
          exact Bool.eq_false_iff.mpr fun hstamp => Bool.false_ne_true (hmem r hr hstamp)
      · exact iff_of_true (fun r hr hstamp => rfl) (hall x)
  obtain ⟨intervals, hintvs, hholds⟩ := hfold rs _ _ hst
  refine ⟨intervals, hintvs, ?_⟩
  convert hholds using 1
  ext p
  simp [DateTimeRestriction.Admits, forall_and]

end restrictions

section space

variable {l : List (DtInterval × Bool)} {s : Set (DtInstant × Bool)}

/-- The instants of an interval, with its kind. -/
def kindDen (i : DtInterval × Bool) : Set (DtInstant × Bool) := {p | p.2 = i.2 ∧ p.1 ∈ i.1.den}

/-- The intervals tile a set, and none of them is empty. -/
structure Spans (l : List (DtInterval × Bool)) (s : Set (DtInstant × Bool)) : Prop where
  tiles : Tiles kindDen l s
  nonempty : ∀ i ∈ l, i.1.isEmpty = false

theorem Holds.spans {intervals : Option DtInterval × Option DtInterval} (h : Holds intervals s) :
    Spans ((intervals.1.map (·, true)).toList ++ (intervals.2.map (·, false)).toList) s := by
  refine ⟨⟨?_, ?_⟩, ?_⟩
  · have hdisj : ∀ i j : DtInterval, Disjoint (kindDen (i, true)) (kindDen (j, false)) :=
      fun i j => Set.disjoint_left.mpr fun p hp hp' => Bool.noConfusion (hp.1.symm.trans hp'.1)
    rcases intervals with ⟨_ | i, _ | j⟩
    · simp
    · simp
    · simp
    · simp [hdisj i j]
  · rintro ⟨x, kind⟩
    rw [h.mem_iff]
    cases kind
    · simp [optionDen, kindDen]
    · simp [optionDen, kindDen]
  · intro i hi
    rw [mem_append, mem_toList, mem_toList, map_eq_some_iff, map_eq_some_iff] at hi
    rcases hi with ⟨j, hj, rfl⟩ | ⟨j, hj, rfl⟩
    · exact h.nonempty true j hj
    · exact h.nonempty false j hj

/-- A negated restriction leaves what it does not admit. -/
theorem Spans.subtract (h : Spans l s) (r : DateTimeRestriction) :
    ∃ rest, subtractDateTime l r.toRestriction = some rest ∧
    Spans rest (s ∩ {p | ¬ r.Admits p}) := by
  obtain ⟨intervals, hintvs, hholds⟩ := holds_datetimeIntervals [r]
  have hadmits : ∀ p, r.Admits p ↔ p.1 ∈ optionDen (if p.2 then intervals.1 else intervals.2) :=
      fun p => by
    rw [← hholds.mem_iff]
    simp
  refine ⟨_,
      by
        rw [subtractDateTime,
          show [r.toRestriction] = [r].map DateTimeRestriction.toRestriction from rfl, hintvs]
        rfl,
    h.tiles.flatMap ?_, ?_⟩
  · rintro ⟨i, kind⟩ -
    have hcompl := tiles_complement (hholds.nonempty kind)
    have hparts : Tiles DtInterval.den
      ((complementDtInterval (if kind then intervals.1 else intervals.2)).filterMap i.intersect)
        ((optionDen (if kind then intervals.1 else intervals.2))ᶜ ∩ i.den) :=
      hcompl.filterMap fun j _ x => by rw [Set.inter_comm, DtInterval.mem_intersect]
    have hkinds : Tiles kindDen
        (((complementDtInterval (if kind then intervals.1 else intervals.2)).filterMap
          i.intersect).map fun part => (part, kind))
        {p | p.2 = kind ∧ p.1 ∈ (optionDen (if kind then intervals.1 else intervals.2))ᶜ ∩ i.den} :=
          hparts.map fun j p => Iff.rfl
    refine hkinds.congr fun p => ?_
    simp only [Set.mem_inter_iff, Set.mem_ofPred_eq, hadmits, kindDen, Set.mem_compl_iff]
    constructor
    · rintro ⟨⟨rfl, hx⟩, hnot⟩
      exact ⟨rfl, hnot, hx⟩
    · rintro ⟨rfl, hnot, hx⟩
      exact ⟨⟨rfl, hx⟩, hnot⟩
  · intro i hi
    obtain ⟨j, -, hi⟩ := mem_flatMap.mp hi
    obtain ⟨part, hpart, rfl⟩ := List.mem_map.mp hi
    obtain ⟨k, -, hk⟩ := mem_filterMap.mp hpart
    exact DtInterval.isEmpty_of_intersect hk

theorem Spans.subtractAll (h : Spans l s) (rs : List DateTimeRestriction) :
    ∃ rest, (rs.map DateTimeRestriction.toRestriction).foldlM subtractDateTime l = some rest ∧
      Spans rest (s ∩ {p | ∀ r ∈ rs, ¬ r.Admits p}) := by
  induction rs generalizing l s with
  | nil => exact ⟨l, rfl, by simpa using h⟩
  | cons r rs ih =>
    obtain ⟨next, hnext, hspans⟩ := h.subtract r
    obtain ⟨rest, hrest, hspans⟩ := ih hspans
    refine ⟨rest, ?_, ?_⟩
    · rw [map_cons, foldlM_cons, hnext]
      exact hrest
    · convert hspans using 1
      ext p
      simp [and_assoc]

/-! ## Ranges and their values -/

/-- The ranges of instants; a member of an enumeration may be a literal without a value. -/
inductive DateTimeRange where
  | restriction (r : DateTimeRestriction)
  | negatedRestriction (r : DateTimeRestriction)
  | negatedEnumeration (members : List (Option DataValue))

def DateTimeRange.toRange : DateTimeRange → LiteralDataRange
  | restriction r => .positive (.datatypeRestriction r.toRestriction)
  | negatedRestriction r => .atomicNegationDataRange (.datatypeRestriction r.toRestriction)
  | negatedEnumeration members => .atomicNegationDataRange (.constantEnumeration members)

/-- The range without the members that have no value. -/
def DateTimeRange.parsed : DateTimeRange → DateTimeRange
  | negatedEnumeration members => negatedEnumeration (members.filter Option.isSome)
  | r => r

def DateTimeRange.isPositive : DateTimeRange → Bool
  | restriction _ => true
  | _ => false

/-- The value is in an interval of its kind and not excluded. -/
def DateTimeValueSpace.Contains (space : DateTimeValueSpace) (value : DataValue) : Prop :=
  insideDateTime space.intervals value = true ∧ value ∉ space.excluded

/-- The offsets of the values: up to 14 hours with a timezone, and none without one. -/
def IsDateTime : DataValue → Prop
  | .dateTime _ hasTz tzOffset => if hasTz then -840 ≤ tzOffset ∧ tzOffset ≤ 840 else tzOffset = 0
  | _ => False

variable {kind : Bool} {tzOffset : ℤ}

theorem mem_datetimeValuesAt {x : DtInstant} {value : DataValue} :
    value ∈ datetimeValuesAt x kind ↔ ∃ tzOffset,
    value = .dateTime x kind tzOffset ∧ IsDateTime value := by
  cases kind
  · simp only [datetimeValuesAt, Bool.false_eq_true, if_false, mem_singleton]
    constructor
    · rintro rfl
      exact ⟨0, rfl, rfl⟩
    · rintro ⟨tzOffset, rfl, hval⟩
      rw [show tzOffset = 0 from hval]
  · simp only [datetimeValuesAt, if_true, List.mem_map, mem_range]
    constructor
    · rintro ⟨k, hk, rfl⟩
      refine ⟨_, rfl, ?_⟩
      change -840 ≤ (k : ℤ) - 840 ∧ (k : ℤ) - 840 ≤ 840
      omega
    · rintro ⟨tzOffset, rfl, hval⟩
      have hval : -840 ≤ tzOffset ∧ tzOffset ≤ 840 := hval
      refine ⟨(tzOffset + 840).toNat, by omega, ?_⟩
      rw [Int.toNat_of_nonneg (by omega), add_sub_cancel_right]

theorem insideDateTime_iff (h : Tiles kindDen l s) {x : DtInstant} :
    insideDateTime l (.dateTime x kind tzOffset) = true ↔ (x, kind) ∈ s := by
  rw [h.mem_iff]
  simp only [insideDateTime, List.any_eq_true, Bool.and_eq_true, decide_eq_true_eq]
  refine exists_congr fun i => and_congr_right fun _ => and_congr_left fun _ => ?_
  exact eq_comm

/-- A point is its only instant. -/
theorem mem_den_of_isPoint {i : DtInterval} (hemp : i.isEmpty = false) (hpoint : i.isPoint = true)
    (x : DtInstant) :
    x ∈ i.den ↔ i.lower = some x := by
  rcases i with ⟨_ | lower, li, _ | upper, ui⟩
  · cases hpoint
  · cases hpoint
  · simp [DtInterval.isPoint] at hpoint
  · simp [DtInterval.isPoint, DtInterval.isEmpty] at hpoint hemp
    rw [DtInterval.mem_den]
    simp
    grind

/-- The values are listed if all intervals are points, and then there are finitely many. -/
theorem DateTimeValueSpace.values_spec {space : DateTimeValueSpace} (h : Spans space.intervals s) :
    (space.values = none ↔ {v | IsDateTime v ∧ space.Contains v}.Infinite) ∧
      ∀ values ∈ space.values, ∀ v, v ∈ values ↔ IsDateTime v ∧ space.Contains v := by
  rw [values]
  by_cases hany : (space.intervals.any fun i => !i.1.isPoint) = true
  · rw [if_pos hany]
    refine ⟨iff_of_true rfl ?_, nofun⟩
    obtain ⟨⟨i, kind⟩, hi, hpoint⟩ := List.any_eq_true.mp hany
    have hinj : Function.Injective fun x => DataValue.dateTime x kind 0 := fun x y heq => by
      injection heq
    have hinf := ((DtInterval.infinite_den (h.nonempty _ hi) (by simpa using hpoint)).image
      hinj.injOn).sdiff
      (finite_toSet space.excluded)
    refine hinf.mono ?_
    rintro _ ⟨⟨x, hx, rfl⟩, hexcl⟩
    refine ⟨?_, (insideDateTime_iff h.tiles).mpr ((h.tiles.mem_iff _).mpr ⟨_, hi, rfl, hx⟩), hexcl⟩
    cases kind
    · rfl
    · exact ⟨by decide, by decide⟩
  · rw [if_neg hany]
    have hpts : ∀ i ∈ space.intervals, i.1.isPoint = true := by
      intro i hi
      by_contra hpoint
      exact hany (List.any_eq_true.mpr ⟨i, hi, by simpa using hpoint⟩)
    have hmem : ∀ v, v ∈ (space.intervals.flatMap fun i => i.1.lower.toList.flatMap fun instant =>
        datetimeValuesAt instant i.2).filter
        (fun value => !space.excluded.contains value) ↔ IsDateTime v ∧ space.Contains v := by
      intro v
      rw [mem_filter, mem_flatMap, Contains]
      have hexcl : (!space.excluded.contains v) = true ↔ v ∉ space.excluded := by simp
      rw [hexcl, ← and_assoc]
      refine and_congr_left fun _ => ?_
      constructor
      · rintro ⟨i, hi, hv⟩
        obtain ⟨x, hx, hv⟩ := mem_flatMap.mp hv
        obtain ⟨tzOffset, rfl, hval⟩ := mem_datetimeValuesAt.mp hv
        refine ⟨hval, (insideDateTime_iff h.tiles).mpr ((h.tiles.mem_iff _).mpr ⟨i, hi, rfl, ?_⟩)⟩
        exact (mem_den_of_isPoint (h.nonempty i hi) (hpts i hi) x).mpr (mem_toList.mp hx)
      · rintro ⟨hval, hinside⟩
        cases v with
        | dateTime x kind tzOffset =>
          obtain ⟨i, hi, rfl, hx⟩ :=
            (h.tiles.mem_iff _).mp ((insideDateTime_iff h.tiles).mp hinside)
          have hlower := (mem_den_of_isPoint (h.nonempty i hi) (hpts i hi) x).mp hx
          exact ⟨i, hi, mem_flatMap.mpr ⟨x, mem_toList.mpr hlower,
            mem_datetimeValuesAt.mpr ⟨tzOffset, rfl, hval⟩⟩⟩
        | number q | float bits | double bits | other k c => cases hval
    refine ⟨iff_of_false (fun heq => nomatch heq)
      (not_not.mpr ((finite_toSet _).subset fun v hv => (hmem v).mpr hv)), ?_⟩
    rintro values ⟨⟩
    exact hmem

/-! ## The conjunction of ranges -/

def DateTimeRange.toPositive : DateTimeRange → Option DateTimeRestriction
  | restriction r => some r
  | _ => none

def DateTimeRange.toNegated : DateTimeRange → Option DateTimeRestriction
  | negatedRestriction r => some r
  | _ => none

/-- The enumerated values of a negated range. -/
def DateTimeRange.enumerated : DateTimeRange → List DataValue
  | negatedEnumeration members => members.reduceOption
  | _ => []

theorem isDatetimeDatatype_toRestriction (r : DateTimeRestriction) :
    isDatetimeDatatype r.toRestriction.datatype = true := by
  rcases r with ⟨_ | _, facets⟩
  · rfl
  · rfl

theorem positiveDateTimes_map (rs : List DateTimeRange) :
    positiveDateTimes (rs.map DateTimeRange.toRange) =
    (rs.filterMap DateTimeRange.toPositive).map DateTimeRestriction.toRestriction := by
  rw [positiveDateTimes, filterMap_map, map_filterMap]
  congr 1
  funext r
  cases r with
  | restriction r => exact if_pos (isDatetimeDatatype_toRestriction r)
  | negatedRestriction r => rfl
  | negatedEnumeration values => rfl

theorem negatedDateTimes_map (rs : List DateTimeRange) :
    negatedDateTimes (rs.map DateTimeRange.toRange) =
    (rs.filterMap DateTimeRange.toNegated).map DateTimeRestriction.toRestriction := by
  rw [negatedDateTimes, filterMap_map, map_filterMap]
  congr 1
  funext r
  cases r with
  | restriction r => rfl
  | negatedRestriction r => exact if_pos (isDatetimeDatatype_toRestriction r)
  | negatedEnumeration values => rfl

theorem mem_forbiddenDateTimes_map {rs : List DateTimeRange} {x : DtInstant} :
    .dateTime x kind tzOffset ∈ forbiddenDateTimes (rs.map DateTimeRange.toRange) ↔
      ∃ r ∈ rs, .dateTime x kind tzOffset ∈ r.enumerated := by
  simp only [forbiddenDateTimes, mem_flatMap, List.mem_map, exists_exists_and_eq_and]
  refine exists_congr fun r => and_congr_right fun _ => ?_
  cases r with
  | restriction r | negatedRestriction r => exact Iff.rfl
  | negatedEnumeration members =>
    rw [DateTimeRange.enumerated, reduceOption_mem_iff]
    simp only [DateTimeRange.toRange, mem_filterMap]
    constructor
    · rintro ⟨v, hv, heq⟩
      split at heq
      · cases heq
        exact hv
      · cases heq
    · exact fun hv => ⟨_, hv, rfl⟩

/-- A value is in a range if it is admitted or not, or if it is not among the enumerated ones;
members without a value are left out. -/
theorem valueInRange_parsed {r : DateTimeRange} {x : DtInstant} :
    valueInRange (.dateTime x kind tzOffset) r.parsed.toRange = some true ↔
      (∀ p ∈ r.toPositive, p.Admits (x, kind)) ∧ (∀ n ∈ r.toNegated, ¬ n.Admits (x, kind)) ∧
        .dateTime x kind tzOffset ∉ r.enumerated := by
  cases r with
  | restriction r =>
    have hadmits : valueSatisfiesRestriction (.dateTime x kind tzOffset) r.toRestriction = true ↔
      _ := valueSatisfiesRestriction_iff
    simpa [DateTimeRange.parsed, DateTimeRange.toRange, valueInRange, valueInAtomic,
      DateTimeRange.toPositive,
        DateTimeRange.toNegated,
      DateTimeRange.enumerated] using hadmits
  | negatedRestriction r =>
    have hadmits : ¬ valueSatisfiesRestriction (.dateTime x kind tzOffset) r.toRestriction = true ↔
      _ := valueSatisfiesRestriction_iff.not
    simpa [DateTimeRange.parsed, DateTimeRange.toRange, valueInRange, valueInAtomic,
      DateTimeRange.toPositive,
        DateTimeRange.toNegated,
      DateTimeRange.enumerated] using hadmits
  | negatedEnumeration members =>
    have hall : (members.filter Option.isSome).all Option.isSome = true :=
      all_eq_true.mpr fun member hmember => (mem_filter.mp hmember).2
    simp [DateTimeRange.parsed, DateTimeRange.toRange, valueInRange, valueInAtomic, hall,
      DateTimeRange.toPositive, DateTimeRange.toNegated, DateTimeRange.enumerated,
      reduceOption_mem_iff]

/-- Where the membership is decided, no member is without a value. -/
theorem valueInRange_parsed_of_eq_some {r : DateTimeRange} {value : DataValue} {b : Bool}
    (h : valueInRange value r.toRange = some b) : valueInRange value r.parsed.toRange = some b := by
  cases r with
  | restriction r => exact h
  | negatedRestriction r => exact h
  | negatedEnumeration members =>
    have hall : members.all Option.isSome = true := by
      by_contra hnot
      rw [DateTimeRange.toRange, valueInRange, valueInAtomic, if_neg hnot] at h
      cases h
    rw [DateTimeRange.parsed, filter_eq_self.mpr (all_eq_true.mp hall)]
    exact h

/-- The space of a conjunction with a positive range is that of the values in all the ranges, where
members of enumerations that have no value are left out (so it is that of the values in all the
ranges wherever all these are decided); its intervals do not meet, and its values are listed unless
there are infinitely many. -/
theorem datetimeValueSpace_spec (rs : List DateTimeRange) :
    (datetimeValueSpace (rs.map DateTimeRange.toRange) = none ↔ ∀ r ∈ rs, r.isPositive = false) ∧
      ∀ space ∈ datetimeValueSpace (rs.map DateTimeRange.toRange),
        (∀ x kind tzOffset, space.Contains (.dateTime x kind tzOffset) ↔
          ∀ r ∈ rs, valueInRange (.dateTime x kind tzOffset) r.parsed.toRange = some true) ∧
        (∀ x kind tzOffset,
          (∀ r ∈ rs, (valueInRange (.dateTime x kind tzOffset) r.toRange).isSome = true) →
            (space.Contains (.dateTime x kind tzOffset) ↔
              ∀ r ∈ rs, valueInRange (.dateTime x kind tzOffset) r.toRange = some true)) ∧
        (space.intervals.Pairwise fun i j => i.2 = j.2 → ∀ x,
          ¬ (i.1.contains x = true ∧ j.1.contains x = true)) ∧
        (space.values = none ↔ {v | IsDateTime v ∧ space.Contains v}.Infinite) ∧
        ∀ values ∈ space.values, ∀ v, v ∈ values ↔ IsDateTime v ∧ space.Contains v := by
  obtain ⟨start, hst, hholds⟩ := holds_datetimeIntervals (rs.filterMap DateTimeRange.toPositive)
  obtain ⟨intervals, hintvs, hspans⟩ :=
    hholds.spans.subtractAll (rs.filterMap DateTimeRange.toNegated)
  obtain ⟨-, hexcl⟩ :=
    collect_spec (insideDateTime intervals) (forbiddenDateTimes (rs.map DateTimeRange.toRange))
  have hnone : (positiveDateTimes (rs.map DateTimeRange.toRange)).isEmpty = true ↔ ∀ r ∈ rs,
      r.isPositive = false := by
    rw [positiveDateTimes_map, List.isEmpty_iff, map_eq_nil_iff, filterMap_eq_nil_iff]
    refine forall₂_congr fun r _ => ?_
    cases r with
    | restriction r => exact iff_of_false nofun nofun
    | negatedRestriction r | negatedEnumeration values => exact iff_of_true rfl rfl
  have hsp : datetimeValueSpace (rs.map DateTimeRange.toRange) =
      if (positiveDateTimes (rs.map DateTimeRange.toRange)).isEmpty then none
      else some ⟨intervals, collect (insideDateTime intervals)
        (forbiddenDateTimes (rs.map DateTimeRange.toRange))⟩ := by
    rw [datetimeValueSpace]
    split
    · rfl
    · rw [positiveDateTimes_map, hst, negatedDateTimes_map]
      change (List.foldlM subtractDateTime _ _ >>= fun _ => _) = _
      rw [hintvs]
      rfl
  rw [hsp]
  constructor
  · rw [← hnone]
    split <;> simp [*]
  · intro space hmem
    split at hmem
    · cases hmem
    cases hmem
    have hparsed : ∀ x kind tzOffset, DateTimeValueSpace.Contains ⟨intervals,
        collect (insideDateTime intervals) (forbiddenDateTimes (rs.map DateTimeRange.toRange))⟩
          (.dateTime x kind tzOffset) ↔
        ∀ r ∈ rs, valueInRange (.dateTime x kind tzOffset) r.parsed.toRange = some true := by
      intro x kind tzOffset
      rw [DateTimeValueSpace.Contains, hexcl, insideDateTime_iff hspans.tiles,
        mem_forbiddenDateTimes_map]
      simp only [valueInRange_parsed, Set.mem_inter_iff, Set.mem_ofPred_eq, mem_filterMap,
        forall_exists_index, and_imp]
      constructor
      · rintro ⟨⟨hpos, hneg⟩, hforb⟩ r hr
        refine ⟨fun p hp => hpos p r hr hp, fun n hn => hneg n r hr hn, fun hmem => ?_⟩
        exact hforb ⟨⟨r, hr, hmem⟩, fun p r hr hp => hpos p r hr hp, fun n r hr hn =>
            hneg n r hr hn⟩
      · intro h
        refine ⟨⟨fun p r hr hp => (h r hr).1 p hp, fun n r hr hn => (h r hr).2.1 n hn⟩, ?_⟩
        rintro ⟨⟨r, hr, hmem⟩, -⟩
        exact (h r hr).2.2 hmem
    refine ⟨hparsed, fun x kind tzOffset hdecided => (hparsed x kind tzOffset).trans ?_, ?_,
      DateTimeValueSpace.values_spec hspans⟩
    · refine forall₂_congr fun r hr => ⟨fun hin => ?_, valueInRange_parsed_of_eq_some⟩
      obtain ⟨b, hb⟩ := Option.isSome_iff_exists.mp (hdecided r hr)
      rwa [← (valueInRange_parsed_of_eq_some hb).symm.trans hin]
    · refine hspans.tiles.disjoint.imp fun {i j} hdisj hkind x hx => ?_
      have hleft : (x, i.2) ∈ kindDen i := ⟨rfl, hx.1⟩
      exact Set.disjoint_left.mp hdisj hleft ⟨hkind, hx.2⟩

/-- A literal without a value excludes nothing, and nothing is decided about it. -/
theorem datetimeValueSpace_unparsed : ∃ space x,
    datetimeValueSpace (([.restriction ⟨false, []⟩, .negatedEnumeration [none]] :
      List DateTimeRange).map DateTimeRange.toRange) = some space ∧
    space.Contains (.dateTime x true 0) ∧
    valueInRange (.dateTime x true 0) (DateTimeRange.negatedEnumeration [none]).toRange = none :=
  ⟨_, ⟨0, [], nofun⟩, rfl, ⟨rfl, not_mem_nil⟩, rfl⟩

-- The instants from one on, except that instant itself with one offset.
example : datetimeValueSpace (([.restriction ⟨false, [⟨.minInclusive, ⟨0, [], nofun⟩, true, 0⟩]⟩,
          .negatedEnumeration [some (.dateTime ⟨0, [], nofun⟩ true 0)]] : List DateTimeRange).map
          DateTimeRange.toRange) =
      some ⟨[(.after ⟨0, [], nofun⟩ true, true), (.after ⟨50400, [], nofun⟩ false, false)],
        [.dateTime ⟨0, [], nofun⟩ true 0]⟩ := by
  rfl

end space

end Hermit.Datatypes
