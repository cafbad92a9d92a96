import Hermit.Datatypes.ValueSpace

/-! # Data ranges over ordered values

Numbers, floating-point numbers and instants are ordered, and the ordering facets of a restriction
compare values with bounds.  A constant is given by the value that it parses to, if it does.
-/

namespace Hermit.Datatypes

/-! ## Values -/

/-- Whole seconds and the decimal digits of a fraction of a second. -/
structure DtInstant where
  seconds : ℤ
  fraction : List (Fin 10)
  trimmed : fraction.getLast? ≠ some 0
deriving DecidableEq

namespace DtInstant

/-- The key of the derived order: the seconds first and then the digits. -/
def key (i : DtInstant) : ℤ ×ₗ List (Fin 10) := toLex (i.seconds, i.fraction)

theorem key_injective : Function.Injective key := by
  rintro ⟨s, f, _⟩ ⟨s', f', _⟩ h
  obtain ⟨rfl, rfl⟩ := Prod.mk.inj (toLex.injective h)
  rfl

instance : LinearOrder DtInstant := LinearOrder.lift' key key_injective

def shifted (i : DtInstant) (seconds : ℤ) : DtInstant :=
  ⟨i.seconds + seconds, i.fraction, i.trimmed⟩

end DtInstant

/-- Numbers are reduced fractions, and floating-point numbers are their bits with one pattern for
NaN. -/
inductive DataValue where
  | number (q : ℚ)
  | float (bits : BitVec 32)
  | double (bits : BitVec 64)
  | dateTime (instant : DtInstant) (hasTz : Bool) (tzOffset : ℤ)
  | other (kind canonical : String)
deriving DecidableEq

inductive OrderingFacet where
  | minInclusive
  | minExclusive
  | maxInclusive
  | maxExclusive
deriving DecidableEq, Repr

/-- The ordering facets, and all other ones. -/
inductive Facet where
  | ordering (facet : OrderingFacet)
  | other (uri : String)
deriving DecidableEq, Repr

structure DatatypeRestriction where
  datatype : Datatype
  facets : List (Facet × Option DataValue)

/-- What a range or a negated range is about. -/
inductive AtomicDataRange where
  | datatypeRestriction (restriction : DatatypeRestriction)
  | constantEnumeration (constants : List (Option DataValue))
  | internalDatatype (name : String)

inductive LiteralDataRange where
  | positive (range : AtomicDataRange)
  | atomicNegationDataRange (negated : AtomicDataRange)

/-! ## Numbers and facets -/

/-- Divide by a factor as often as it goes. -/
def stripFactor (p d : ℕ) : ℕ :=
  if _ : 1 < p ∧ d ≠ 0 ∧ d % p = 0 then stripFactor p (d / p) else d
termination_by d
decreasing_by
  rename_i h
  exact Nat.div_lt_self (Nat.pos_of_ne_zero h.2.1) h.1

/-- The fractions with this denominator have a finite decimal form. -/
def isFiniteDecimal (den : ℕ) : Bool := stripFactor 5 (stripFactor 2 den) = 1

def isDatetimeDatatype (d : Datatype) : Bool := d = .dateTime || d = .dateTimeStamp

/-- The value is within the bounds of an integer datatype. -/
def withinBounds (min max : Option ℤ) (i : ℤ) : Bool := (min.all (· ≤ i)) && (max.all (i ≤ ·))

variable (value : DataValue)

def valueInDatatype (d : Datatype) : Bool :=
  match value with
  | .number q =>
    match integerDatatypeBounds d with
    | some (min, max) => q.den = 1 && withinBounds min max q.num
    | none => (d = .decimal && isFiniteDecimal q.den) || d = .rational || d = .real
  | .float _ => d = .float
  | .double _ => d = .double
  | .dateTime _ hasTz _ => isDatetimeDatatype d && (d ≠ .dateTimeStamp || hasTz)
  | .other _ _ => false

def compareOrder {α : Type*} [LinearOrder α] (v bound : α) : OrderingFacet → Bool
  | .minInclusive => bound ≤ v
  | .maxInclusive => v ≤ bound
  | .minExclusive => bound < v
  | .maxExclusive => v < bound

/-- The seconds by which the timezone can move an instant. -/
def maxTzCorrectionSeconds : ℤ := 14 * 60 * 60

/-- Instants of which only one has a timezone are apart by the greatest offset. -/
def compareDateTime (v : DtInstant) (vt : Bool) (bound : DtInstant) (bt : Bool)
    (facet : OrderingFacet) : Bool :=
  if vt = bt then compareOrder v bound facet
  else
    match facet with
    | .minInclusive | .minExclusive => bound.shifted maxTzCorrectionSeconds < v
    | .maxInclusive | .maxExclusive => v < bound.shifted (-maxTzCorrectionSeconds)

/-! ## Floating-point numbers -/

section bits

variable {w : ℕ}

/-- The bits without the sign, as a number. -/
def magnitude (bits : BitVec w) : ℕ := bits.toNat % 2 ^ (w - 1)

/-- The bits of an infinity without the sign: an exponent of ones before the mantissa. -/
def infinityMagnitude (w m : ℕ) : ℕ := 2 ^ (w - 1) - 2 ^ m

def isNan (m : ℕ) (bits : BitVec w) : Bool := infinityMagnitude w m < magnitude bits

def isInfinite (m : ℕ) (bits : BitVec w) : Bool := magnitude bits = infinityMagnitude w m

/-- The number with the given bits, unless it is infinite or NaN. -/
def toExact (m : ℕ) (bits : BitVec w) : Option ℚ :=
  let exponent : ℕ := magnitude bits / 2 ^ m
  let mantissa : ℕ := magnitude bits % 2 ^ m
  let bias : ℤ := 2 ^ (w - 2 - m) - 1
  let sign : ℚ := if bits.msb then -1 else 1
  if infinityMagnitude w m ≤ magnitude bits then none
  else if exponent = 0 then some (sign * mantissa * 2 ^ (1 - bias - m))
  else some (sign * (mantissa + 2 ^ m) * 2 ^ (exponent - bias - m))

/-- Consecutive numbers have consecutive keys, the negative ones in reverse. -/
def orderKey (bits : BitVec w) : BitVec w := if bits.msb then ~~~bits else bits ||| BitVec.intMin w

def fromOrderKey (key : BitVec w) : BitVec w :=
  if key.msb then key &&& ~~~BitVec.intMin w else ~~~key

/-- The sign of a zero bound is such that both zeros are on one side of it. -/
def normalizeZeroForFacet (bound : BitVec w) (facet : OrderingFacet) : BitVec w :=
  if magnitude bound ≠ 0 then bound
  else
    match facet with
    | .minInclusive | .maxExclusive => BitVec.intMin w
    | .minExclusive | .maxInclusive => 0

/-- A finite number is compared with a bound by the keys; nothing is on any side of NaN. -/
def finiteOrder (m : ℕ) (v bound : BitVec w) (facet : OrderingFacet) : Option Bool :=
  if infinityMagnitude w m ≤ magnitude v then none
  else if isNan m bound then some false
  else some (compareOrder (orderKey v).toNat
    (orderKey (normalizeZeroForFacet bound facet)).toNat facet)

end bits

/-- The lengths of the mantissas. -/
def floatMantissa : ℕ := 23

def doubleMantissa : ℕ := 52

def f32OrderKey (bits : BitVec 32) : BitVec 32 := orderKey bits

def f64OrderKey (bits : BitVec 64) : BitVec 64 := orderKey bits

def f32FromOrderKey (key : BitVec 32) : BitVec 32 := fromOrderKey key

def f64FromOrderKey (key : BitVec 64) : BitVec 64 := fromOrderKey key

def asExact : DataValue → Option ℚ
  | .number q => some q
  | .float bits => toExact floatMantissa bits
  | .double bits => toExact doubleMantissa bits
  | _ => none

/-- Whether the bound is NaN as a double; values of other kinds are taken for it. -/
def boundIsNan : DataValue → Bool
  | .float bits => isNan floatMantissa bits
  | .double bits => isNan doubleMantissa bits
  | _ => true

/-- Whether the bound is the infinity with a sign. -/
def boundIsInfinity (negative : Bool) : DataValue → Bool
  | .float bits => isInfinite floatMantissa bits && bits.msb = negative
  | .double bits => isInfinite doubleMantissa bits && bits.msb = negative
  | _ => false

/-- NaN and the infinities have no exact number. -/
def specialOrder {w : ℕ} (m : ℕ) (bits : BitVec w) (facet : OrderingFacet)
    (bound : Option DataValue) : Option Bool :=
  if isNan m bits then some false
  else if isInfinite m bits then
    if bound.any boundIsNan then some false
    else
      match facet with
      | .minInclusive => some (!bits.msb || bound.any (boundIsInfinity true))
      | .minExclusive => some (!bits.msb)
      | .maxInclusive => some (bits.msb || bound.any (boundIsInfinity false))
      | .maxExclusive => some bits.msb
  else none

def specialFloatOrder (facet : OrderingFacet) (bound : Option DataValue) : Option Bool :=
  match value with
  | .float bits => specialOrder floatMantissa bits facet bound
  | .double bits => specialOrder doubleMantissa bits facet bound
  | _ => none

def finiteFloatOrder (facet : OrderingFacet) (bound : Option DataValue) : Option Bool :=
  match value, bound with
  | .float v, some (.float b) => finiteOrder floatMantissa v b facet
  | .double v, some (.double b) => finiteOrder doubleMantissa v b facet
  | _, _ => none

/-- The comparison of numbers and of instants. -/
def exactOrder (facet : OrderingFacet) (bound : Option DataValue) : Bool :=
  match asExact value, bound.bind asExact with
  | some v, some b => compareOrder v b facet
  | _, _ =>
    match value, bound with
    | .dateTime v vt _, some (.dateTime b bt _) => compareDateTime v vt b bt facet
    | _, _ => true

def valueSatisfiesFacet (facet : Facet) (bound : Option DataValue) : Bool :=
  match facet with
  | .ordering facet =>
    match specialFloatOrder value facet bound with
    | some result => result
    | none =>
      match finiteFloatOrder value facet bound with
      | some result => result
      | none => exactOrder value facet bound
  | .other _ => true

def valueSatisfiesRestriction (restriction : DatatypeRestriction) : Bool :=
  valueInDatatype value restriction.datatype && restriction.facets.all fun f =>
      valueSatisfiesFacet value f.1 f.2

def valueInAtomic : AtomicDataRange → Option Bool
  | .internalDatatype _ => some true
  | .datatypeRestriction restriction => some (valueSatisfiesRestriction value restriction)
  | .constantEnumeration constants =>
    if constants.all Option.isSome then some (constants.contains (some value)) else none

def valueInRange : LiteralDataRange → Option Bool
  | .positive range => valueInAtomic value range
  | .atomicNegationDataRange negated => (valueInAtomic value negated).map (!·)

end Hermit.Datatypes
