import Mathlib

/-! # Classes of value spaces

Datatypes are sorted into classes: a level of the reals, a window of the integers, or a kind of
values of its own.  Two datatypes are disjoint if their classes are of different kinds, or are
windows that do not meet.
-/

namespace Hermit.Datatypes

/-- The recognized datatypes, and all other ones. -/
inductive Datatype where
  | integer
  | nonNegativeInteger
  | positiveInteger
  | nonPositiveInteger
  | negativeInteger
  | long
  | int
  | short
  | byte
  | unsignedLong
  | unsignedInt
  | unsignedShort
  | unsignedByte
  | decimal
  | rational
  | real
  | float
  | double
  | boolean
  | plainLiteral
  | string
  | normalizedString
  | token
  | name
  | ncName
  | nmtoken
  | language
  | dateTime
  | dateTimeStamp
  | anyURI
  | hexBinary
  | base64Binary
  | xmlLiteral
  | other (uri : String)
deriving DecidableEq, Repr

/-- The classes.  Levels of the reals go up from the integers, levels of strings go down from the
plain literals. -/
inductive ValueSpaceClass where
  | numeric (level : ℕ)
  | integerBounded (min max : Option ℤ)
  | float
  | double
  | boolean
  | stringType (level : ℕ)
  | dateTime
  | anyUri
  | hexBinary
  | base64
  | xmlLiteral
deriving DecidableEq, Repr

open ValueSpaceClass

/-- The least and the greatest value of an integer datatype. -/
def integerDatatypeBounds : Datatype → Option (Option ℤ × Option ℤ)
  | .integer => some (none, none)
  | .nonNegativeInteger => some (some 0, none)
  | .positiveInteger => some (some 1, none)
  | .nonPositiveInteger => some (none, some 0)
  | .negativeInteger => some (none, some (-1))
  | .long => some (some (-2 ^ 63), some (2 ^ 63 - 1))
  | .int => some (some (-2 ^ 31), some (2 ^ 31 - 1))
  | .short => some (some (-2 ^ 15), some (2 ^ 15 - 1))
  | .byte => some (some (-2 ^ 7), some (2 ^ 7 - 1))
  | .unsignedLong => some (some 0, some (2 ^ 64 - 1))
  | .unsignedInt => some (some 0, some (2 ^ 32 - 1))
  | .unsignedShort => some (some 0, some (2 ^ 16 - 1))
  | .unsignedByte => some (some 0, some (2 ^ 8 - 1))
  | _ => none

def valueSpaceClass (d : Datatype) : Option ValueSpaceClass :=
  match integerDatatypeBounds d with
  | some (none, none) => some (numeric 0)
  | some (min, max) => some (integerBounded min max)
  | none =>
    match d with
    | .decimal => some (numeric 1)
    | .rational => some (numeric 2)
    | .real => some (numeric 3)
    | .float => some .float
    | .double => some .double
    | .boolean => some .boolean
    | .plainLiteral => some (stringType 0)
    | .string => some (stringType 1)
    | .normalizedString => some (stringType 2)
    | .token => some (stringType 3)
    | .name => some (stringType 4)
    | .ncName => some (stringType 5)
    | .nmtoken => some (stringType 6)
    | .language => some (stringType 7)
    | .dateTime | .dateTimeStamp => some .dateTime
    | .anyURI => some .anyUri
    | .hexBinary => some .hexBinary
    | .base64Binary => some .base64
    | .xmlLiteral => some .xmlLiteral
    | _ => none

/-- Whether one window ends before the other begins. -/
def endsBefore (max min : Option ℤ) : Bool :=
  match max, min with
  | some a, some b => a < b
  | _, _ => false

def isRealKind : ValueSpaceClass → Bool
  | numeric _ | integerBounded _ _ => true
  | _ => false

def isStringKind : ValueSpaceClass → Bool
  | stringType _ => true
  | _ => false

def isBinaryKind : ValueSpaceClass → Bool
  | .hexBinary | .base64 => true
  | _ => false

def classesDisjoint (c c' : ValueSpaceClass) : Bool :=
  if isRealKind c && isRealKind c' then
    match c, c' with
    | integerBounded min max, integerBounded min' max' => endsBefore max min' || endsBefore max' min
    | _, _ => false
  else if isBinaryKind c && isBinaryKind c' then c ≠ c'
  else if isStringKind c && isStringKind c' then false
  else c ≠ c'

/-- Datatypes that are not recognized are not disjoint from any. -/
def datatypesDisjoint (d d' : Datatype) : Bool :=
  match valueSpaceClass d, valueSpaceClass d' with
  | some c, some c' => classesDisjoint c c'
  | _, _ => false

theorem classesDisjoint_comm (c c' : ValueSpaceClass) :
    classesDisjoint c c' = classesDisjoint c' c := by
  cases c <;> cases c' <;> simp [classesDisjoint, isRealKind, isBinaryKind, isStringKind,
    Bool.or_comm]

theorem datatypesDisjoint_comm (d d' : Datatype) :
    datatypesDisjoint d d' = datatypesDisjoint d' d := by
  unfold datatypesDisjoint
  cases valueSpaceClass d with
  | none => cases valueSpaceClass d' <;> rfl
  | some c =>
    cases valueSpaceClass d' with
    | none => rfl
    | some c' => exact classesDisjoint_comm c c'

/-! ## Values of the classes -/

/-- The kinds of values; no value is of two. -/
inductive Family where
  | real
  | float
  | double
  | boolean
  | string
  | dateTime
  | anyUri
  | hexBinary
  | base64
  | xmlLiteral
deriving DecidableEq, Repr

def ValueSpaceClass.family : ValueSpaceClass → Family
  | numeric _ | integerBounded _ _ => .real
  | .float => .float
  | .double => .double
  | .boolean => .boolean
  | stringType _ => .string
  | .dateTime => .dateTime
  | .anyUri => .anyUri
  | .hexBinary => .hexBinary
  | .base64 => .base64
  | .xmlLiteral => .xmlLiteral

/-- The kind of each value, and which integer it is if it is one. -/
structure DatatypeMap (Value : Type) where
  family : Value → Family
  integer : Value → Option ℤ

variable {Value : Type} (D : DatatypeMap Value)

/-- A value is of the kind of a class and within its window. -/
def DatatypeMap.Within (c : ValueSpaceClass) (v : Value) : Prop :=
  D.family v = c.family ∧ ∀ min max, c = integerBounded min max →
    ∃ z, D.integer v = some z ∧ (∀ a ∈ min, a ≤ z) ∧ ∀ b ∈ max, z ≤ b

theorem not_within_of_endsBefore {min max min' max' : Option ℤ}
    (h : endsBefore max min' = true) {v : Value}
    (hv : D.Within (integerBounded min max) v) : ¬ D.Within (integerBounded min' max') v := by
  intro hv'
  obtain ⟨z, hz, -, hmax⟩ := hv.2 min max rfl
  obtain ⟨z', hz', hmin', -⟩ := hv'.2 min' max' rfl
  obtain rfl := Option.some.inj (hz.symm.trans hz')
  cases max with
  | none => cases h
  | some a =>
    cases min' with
    | none => cases h
    | some b =>
      have hlt : a < b := of_decide_eq_true h
      have hle := hmax a rfl
      have hle' := hmin' b rfl
      omega

variable {c c' : ValueSpaceClass} (h : classesDisjoint c c' = true)
include h

/-- Within one kind only windows of integers can be disjoint. -/
theorem windows_of_classesDisjoint (hfamily : c.family = c'.family) :
    ∃ min max min' max', c = integerBounded min max ∧
      c' = integerBounded min' max' ∧ (endsBefore max min' = true ∨ endsBefore max' min = true) :=
  by
  have hwindows : ∀ min max min' max', c = integerBounded min max → c' = integerBounded min' max' →
      endsBefore max min' = true ∨ endsBefore max' min = true := by
    rintro min max min' max' rfl rfl
    exact (Bool.or_eq_true _ _).mp h
  cases c <;> cases c'
  case integerBounded.integerBounded min max min' max' =>
    exact ⟨min, max, min', max', rfl, rfl, hwindows min max min' max' rfl rfl⟩
  all_goals
    exfalso
    revert h hfamily
    simp [classesDisjoint, isRealKind, isBinaryKind, isStringKind, ValueSpaceClass.family]

theorem not_within_of_classesDisjoint {v : Value} (hv : D.Within c v) : ¬ D.Within c' v := by
  intro hv'
  obtain ⟨min, max, min', max', rfl, rfl, hends⟩ :=
    windows_of_classesDisjoint h (hv.1.symm.trans hv'.1)
  rcases hends with hends | hends
  · exact not_within_of_endsBefore D hends hv hv'
  · exact not_within_of_endsBefore D hends hv' hv

end Hermit.Datatypes
