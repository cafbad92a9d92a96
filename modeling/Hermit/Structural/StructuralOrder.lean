import Hermit.Library.Writing
import Hermit.Structural.ExpressionManager

/-! # The structural order of OWL expressions

Expressions are ordered by their constructor and then by their fields, in the order of
declaration; strings and lists are ordered lexicographically.  Each expression is
written as a list of numbers over which this is the lexicographic order.
-/

namespace Hermit

def writeIndividual : Individ → List ℕ
  | .named iri => 0 :: writeString iri
  | .anonymous id => 1 :: writeString id

theorem readable_writeIndividual : Readable writeIndividual := by
  intro a b rest rest' h
  cases a <;> cases b <;> simp [writeIndividual, readable_writeString.eq] at h ⊢ <;> exact h

def writeProperty : ObjectPropExpr → List ℕ
  | .objectProperty p => 0 :: writeString p
  | .inverseObjectProperty p => 1 :: writeString p

theorem readable_writeProperty : Readable writeProperty := by
  intro a b rest rest' h
  cases a <;> cases b <;> simp [writeProperty, readable_writeString.eq] at h ⊢ <;> exact h

def writeLiteral : Lit → List ℕ
  | .simple literal => 0 :: writeString literal
  | .language literal lang => 1 :: (writeString literal ++ writeString lang)
  | .datatype literal datatypeIri => 2 :: (writeString literal ++ writeString datatypeIri)

theorem readable_writeLiteral : Readable writeLiteral := by
  intro a b rest rest' h
  cases a <;> cases b <;> simp [writeLiteral, readable_writeString.eq, and_assoc] at h ⊢ <;> exact h

def writeFacet : Facet → List ℕ
  | .length => [0]
  | .minLength => [1]
  | .maxLength => [2]
  | .pattern => [3]
  | .minInclusive => [4]
  | .minExclusive => [5]
  | .maxInclusive => [6]
  | .maxExclusive => [7]
  | .totalDigits => [8]
  | .fractionDigits => [9]
  | .langRange => [10]

def writeFacetRestriction (r : FacetRestriction) : List ℕ := writeFacet r.f ++ writeLiteral r.l

theorem readable_writeFacet : Readable writeFacet := by
  intro a b rest rest' h
  cases a <;> cases b <;> simp [writeFacet] at h ⊢ <;> exact h

theorem readable_writeFacetRestriction : Readable writeFacetRestriction := by
  intro a b rest rest' h
  obtain ⟨f, l⟩ := a
  obtain ⟨f', l'⟩ := b
  simpa [writeFacetRestriction, readable_writeFacet.eq, readable_writeLiteral.eq, and_assoc] using h

def writeDataRange : DataRangeExpr → List ℕ
  | .datatype d => 0 :: writeString d
  | .dataIntersectionOf operands => 1 :: writeDataRanges operands
  | .dataUnionOf operands => 2 :: writeDataRanges operands
  | .dataComplementOf operand => 3 :: writeDataRange operand
  | .dataOneOf values => 4 :: writeList writeLiteral values
  | .datatypeRestriction d facets =>
    5 :: (writeString d ++ writeList writeFacetRestriction facets)
where
  writeDataRanges : List DataRangeExpr → List ℕ
    | [] => [0]
    | d :: ds => 1 :: (writeDataRange d ++ writeDataRanges ds)

theorem writeDataRanges_eq (operands : List DataRangeExpr) :
    writeDataRange.writeDataRanges operands = writeList writeDataRange operands := by
  induction operands with
  | nil => rfl
  | cons d ds ih => simp [writeDataRange.writeDataRanges, writeList, ih]

theorem readable_writeDataRange : Readable writeDataRange := by
  intro a
  induction a with
  | dataIntersectionOf operands ih | dataUnionOf operands ih =>
    intro b rest rest' h
    cases b <;> simp [writeDataRange, writeDataRanges_eq] at h
    simpa using readable_writeList ih h
  | dataComplementOf operand ih =>
    intro b rest rest' h
    cases b <;> simp [writeDataRange] at h
    simpa using ih _ _ _ h
  | _ =>
    intro b rest rest' h
    cases b <;> simp [writeDataRange, readable_writeString.eq, readable_writeLiteral.list.eq,
      readable_writeFacetRestriction.list.eq, and_assoc] at h ⊢
    exact h

def writeClass : ClassExpr → List ℕ
  | .class c => 0 :: writeString c
  | .objectIntersectionOf operands => 1 :: writeClasses operands
  | .objectUnionOf operands => 2 :: writeClasses operands
  | .objectComplementOf operand => 3 :: writeClass operand
  | .objectOneOf individuals => 4 :: writeList writeIndividual individuals
  | .objectSomeValuesFrom ope bce => 5 :: (writeProperty ope ++ writeClass bce)
  | .objectAllValuesFrom ope bce => 6 :: (writeProperty ope ++ writeClass bce)
  | .objectHasValue ope i => 7 :: (writeProperty ope ++ writeIndividual i)
  | .objectHasSelf ope => 8 :: writeProperty ope
  | .objectMinCardinality n ope bce => 9 :: n :: (writeProperty ope ++ writeClass bce)
  | .objectMaxCardinality n ope bce => 10 :: n :: (writeProperty ope ++ writeClass bce)
  | .objectExactCardinality n ope bce => 11 :: n :: (writeProperty ope ++ writeClass bce)
  | .dataSomeValuesFrom dp dr => 12 :: (writeString dp ++ writeDataRange dr)
  | .dataAllValuesFrom dp dr => 13 :: (writeString dp ++ writeDataRange dr)
  | .dataHasValue dp l => 14 :: (writeString dp ++ writeLiteral l)
  | .dataMinCardinality n dp dr => 15 :: n :: (writeString dp ++ writeDataRange dr)
  | .dataMaxCardinality n dp dr => 16 :: n :: (writeString dp ++ writeDataRange dr)
  | .dataExactCardinality n dp dr => 17 :: n :: (writeString dp ++ writeDataRange dr)
where
  writeClasses : List ClassExpr → List ℕ
    | [] => [0]
    | d :: ds => 1 :: (writeClass d ++ writeClasses ds)

theorem writeClasses_eq (operands : List ClassExpr) :
    writeClass.writeClasses operands = writeList writeClass operands := by
  induction operands with
  | nil => rfl
  | cons d ds ih => simp [writeClass.writeClasses, writeList, ih]

theorem readable_writeClass : Readable writeClass := by
  intro a
  induction a with
  | objectIntersectionOf operands ih | objectUnionOf operands ih =>
    intro b rest rest' h
    cases b <;> simp [writeClass, writeClasses_eq] at h
    simpa using readable_writeList ih h
  | objectComplementOf operand ih =>
    intro b rest rest' h
    cases b <;> simp [writeClass] at h
    simpa using ih _ _ _ h
  | objectSomeValuesFrom ope bce ih | objectAllValuesFrom ope bce ih =>
    intro b rest rest' h
    cases b <;> simp [writeClass, readable_writeProperty.eq] at h
    simpa [h.1] using ih _ _ _ h.2
  | objectMinCardinality n ope bce ih | objectMaxCardinality n ope bce ih
  | objectExactCardinality n ope bce ih =>
    intro b rest rest' h
    cases b <;> simp [writeClass, readable_writeProperty.eq] at h
    simpa [h.1, h.2.1] using ih _ _ _ h.2.2
  | _ =>
    intro b rest rest' h
    cases b <;> simp [writeClass, readable_writeString.eq, readable_writeProperty.eq,
      readable_writeIndividual.eq, readable_writeIndividual.list.eq, readable_writeLiteral.eq,
      readable_writeDataRange.eq, and_assoc] at h ⊢
    exact h

/-- The order of the writings. -/
def structuralOrder : ExpressionOrder where
  classLE a b := writeClass a ≤ writeClass b
  classLE_total a b := by simpa using le_total (writeClass a) (writeClass b)
  classLE_trans a b c hab hbc := by simpa using le_trans (by simpa using hab) (by simpa using hbc)
  classLE_antisymm a b hab hba :=
    readable_writeClass.injective (le_antisymm (by simpa using hab) (by simpa using hba))
  rangeLE a b := writeDataRange a ≤ writeDataRange b
  rangeLE_total a b := by simpa using le_total (writeDataRange a) (writeDataRange b)
  rangeLE_trans a b c hab hbc := by simpa using le_trans (by simpa using hab) (by simpa using hbc)
  rangeLE_antisymm a b hab hba :=
    readable_writeDataRange.injective (le_antisymm (by simpa using hab) (by simpa using hba))

end Hermit
