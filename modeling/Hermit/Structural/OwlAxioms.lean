import Hermit.Owl.Component

/-! # Normalised axioms

The container that normalisation fills and clausification reads.  A set is a
list without duplicates.
-/

namespace Hermit

/-- A chain of properties below a property. -/
structure ComplexObjectPropertyInclusion where
  subObjectProperties : List ObjectPropExpr
  superObjectProperty : ObjectPropExpr
deriving DecidableEq, Repr

/-- A rule whose head is read as a disjunction. -/
structure DisjunctiveRule where
  body : List SwrlAtom
  head : List SwrlAtom
deriving DecidableEq

structure HasKeyAxiom where
  classExpression : ClassExpr
  propertyExpressions : List PropExpr
deriving DecidableEq

/-- An assertion about individuals. -/
inductive Fact where
  | sameIndividual (inds : List Individ)
  | differentIndividuals (inds : List Individ)
  | classAssertion (classExpression : ClassExpr) (individual : Individ)
  | objectPropertyAssertion (ope : ObjectPropExpr) (source target : Individ)
  | negativeObjectPropertyAssertion (ope : ObjectPropExpr) (source target : Individ)
  | dataPropertyAssertion (dp : Iri) (source : Individ) (target : Lit)
  | negativeDataPropertyAssertion (dp : Iri) (source : Individ) (target : Lit)
deriving DecidableEq

structure OwlAxioms where
  classes : List Iri := []
  objectProperties : List Iri := []
  objectPropertiesOccurringInOwlAxioms : List Iri := []
  complexObjectPropertyExpressions : List ObjectPropExpr := []
  dataProperties : List Iri := []
  namedIndividuals : List Iri := []
  /-- Each entry is a disjunction that everything belongs to. -/
  conceptInclusions : List (List ClassExpr) := []
  dataRangeInclusions : List (List DataRangeExpr) := []
  simpleObjectPropertyInclusions : List (ObjectPropExpr × ObjectPropExpr) := []
  complexObjectPropertyInclusions : List ComplexObjectPropertyInclusion := []
  disjointObjectProperties : List (List ObjectPropExpr) := []
  reflexiveObjectProperties : List ObjectPropExpr := []
  irreflexiveObjectProperties : List ObjectPropExpr := []
  asymmetricObjectProperties : List ObjectPropExpr := []
  dataPropertyInclusions : List (Iri × Iri) := []
  disjointDataProperties : List (List Iri) := []
  facts : List Fact := []
  hasKeys : List HasKeyAxiom := []
  definedDatatypeIris : List Iri := []
  rules : List DisjunctiveRule := []

end Hermit
