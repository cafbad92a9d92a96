import Hermit.Owl.Syntax

/-! # Normal form of concept inclusions

The syntactic tests that decide which class expressions and data ranges may stand
in a normalized concept inclusion.
-/

namespace Hermit

/-- A class or the complement of one. -/
def isSimple : ClassExpr → Bool
  | .class _ => true
  | .objectComplementOf (.class _) => true
  | _ => false

def isNominal : ClassExpr → Bool
  | .objectOneOf _ => true
  | _ => false

def isNegatedOneNominal : ClassExpr → Bool
  | .objectComplementOf (.objectOneOf [_]) => true
  | _ => false

def isAtomic : DataRangeExpr → Bool
  | .datatype _ => true
  | .datatypeRestriction _ _ => true
  | .dataOneOf _ => true
  | _ => false

def isNegatedAtomic : DataRangeExpr → Bool
  | .dataComplementOf inner => isAtomic inner
  | _ => false

/-- An atomic data range or the complement of one. -/
def isLiteral (dr : DataRangeExpr) : Bool := isAtomic dr || isNegatedAtomic dr

/-- The topmost datatype takes no facets. -/
def hasNoLiteralFacets : DataRangeExpr → Bool
  | .datatypeRestriction d facets => d ≠ rdfsLiteral || facets.isEmpty
  | .dataComplementOf (.datatypeRestriction d facets) => d ≠ rdfsLiteral || facets.isEmpty
  | _ => true

/-- A data property and a data range that a restriction in normal form combines. -/
def isDataFiller (dp : Iri) (dr : DataRangeExpr) : Bool :=
  dp ≠ topDataRole && isLiteral dr && hasNoLiteralFacets dr

/-- The disjuncts of a concept inclusion in normal form. -/
def isNormalDisjunct : ClassExpr → Bool
  | .class _ => true
  | .objectComplementOf (.class _) => true
  | .objectComplementOf (.objectHasSelf _) => true
  | .objectOneOf _ => true
  | .objectSomeValuesFrom _ bce => isSimple bce || isNominal bce
  | .objectAllValuesFrom _ bce => isSimple bce || isNominal bce || isNegatedOneNominal bce
  | .objectHasSelf _ => true
  | .objectMinCardinality n _ bce => 0 < n && isSimple bce
  | .objectMaxCardinality _ _ bce => isSimple bce
  | .dataSomeValuesFrom dp dr => isDataFiller dp dr
  | .dataAllValuesFrom dp dr => isDataFiller dp dr
  | .dataMinCardinality n dp dr => 0 < n && isDataFiller dp dr
  | .dataMaxCardinality _ dp dr => isDataFiller dp dr
  | _ => false

variable (d : ClassExpr)

theorem isSimple_iff :
    isSimple d ↔ (∃ c, d = .class c) ∨ ∃ c, d = .objectComplementOf (.class c) := by
  unfold isSimple
  split <;> simp_all

theorem isNominal_iff : isNominal d ↔ ∃ individuals, d = .objectOneOf individuals := by
  unfold isNominal
  split <;> simp_all

theorem isNegatedOneNominal_iff :
    isNegatedOneNominal d ↔ ∃ i, d = .objectComplementOf (.objectOneOf [i]) := by
  unfold isNegatedOneNominal
  split <;> simp_all

end Hermit
