import Hermit.Owl.Syntax

/-! # Ontology components

SWRL atoms and the components of an ontology.  A component without a logical
reading keeps only its kind: no modelled function looks further into it.
-/

namespace Hermit

/-- An argument of a SWRL atom that stands for an individual. -/
inductive IArgument where
  | individual (i : Individ)
  | variable (v : Iri)
deriving DecidableEq, Repr

/-- An argument of a SWRL atom that stands for a data value. -/
inductive DArgument where
  | literal (l : Lit)
  | variable (v : Iri)
deriving DecidableEq, Repr

inductive SwrlAtom where
  | builtInAtom (pred : Iri) (args : List DArgument)
  | classAtom (pred : ClassExpr) (arg : IArgument)
  | dataPropertyAtom (pred : Iri) (subject : IArgument) (value : DArgument)
  | dataRangeAtom (pred : DataRangeExpr) (arg : DArgument)
  | differentIndividualsAtom (first second : IArgument)
  | objectPropertyAtom (pred : ObjectPropExpr) (first second : IArgument)
  | sameIndividualAtom (first second : IArgument)
deriving DecidableEq, Repr

/-- The sub-property side of an object property inclusion. -/
inductive SubObjectPropertyExpr where
  | objectPropertyExpression (ope : ObjectPropExpr)
  | objectPropertyChain (chain : List ObjectPropExpr)
deriving DecidableEq, Repr

/-- A property of a key. -/
inductive PropExpr where
  | objectPropertyExpression (ope : ObjectPropExpr)
  | dataProperty (dp : Iri)
  | annotationProperty (ap : Iri)
deriving DecidableEq, Repr

/-- The components that carry no axiom. -/
inductive NonLogical where
  | ontologyID | docIRI | annotationOnOntology | import | annotationAssertion
  | declareClass | declareObjectProperty | declareAnnotationProperty | declareDataProperty
  | declareNamedIndividual | declareDatatype
  | subAnnotationPropertyOf | annotationPropertyDomain | annotationPropertyRange
deriving DecidableEq, Repr

inductive Component where
  | nonLogical (kind : NonLogical)
  | subClassOf (sub sup : ClassExpr)
  | equivalentClasses (operands : List ClassExpr)
  | disjointClasses (operands : List ClassExpr)
  | disjointUnion (owlClass : Iri) (operands : List ClassExpr)
  | subObjectPropertyOf (sub : SubObjectPropertyExpr) (sup : ObjectPropExpr)
  | equivalentObjectProperties (operands : List ObjectPropExpr)
  | disjointObjectProperties (operands : List ObjectPropExpr)
  | inverseObjectProperties (first second : ObjectPropExpr)
  | objectPropertyDomain (ope : ObjectPropExpr) (ce : ClassExpr)
  | objectPropertyRange (ope : ObjectPropExpr) (ce : ClassExpr)
  | functionalObjectProperty (ope : ObjectPropExpr)
  | inverseFunctionalObjectProperty (ope : ObjectPropExpr)
  | reflexiveObjectProperty (ope : ObjectPropExpr)
  | irreflexiveObjectProperty (ope : ObjectPropExpr)
  | symmetricObjectProperty (ope : ObjectPropExpr)
  | asymmetricObjectProperty (ope : ObjectPropExpr)
  | transitiveObjectProperty (ope : ObjectPropExpr)
  | subDataPropertyOf (sub sup : Iri)
  | equivalentDataProperties (operands : List Iri)
  | disjointDataProperties (operands : List Iri)
  | dataPropertyDomain (dp : Iri) (ce : ClassExpr)
  | dataPropertyRange (dp : Iri) (dr : DataRangeExpr)
  | functionalDataProperty (dp : Iri)
  | datatypeDefinition (kind : Iri) (range : DataRangeExpr)
  | hasKey (ce : ClassExpr) (vpe : List PropExpr)
  | sameIndividual (individuals : List Individ)
  | differentIndividuals (individuals : List Individ)
  | classAssertion (ce : ClassExpr) (i : Individ)
  | objectPropertyAssertion (ope : ObjectPropExpr) (source target : Individ)
  | negativeObjectPropertyAssertion (ope : ObjectPropExpr) (source target : Individ)
  | dataPropertyAssertion (dp : Iri) (source : Individ) (target : Lit)
  | negativeDataPropertyAssertion (dp : Iri) (source : Individ) (target : Lit)
  | rule (body head : List SwrlAtom)
deriving DecidableEq, Repr

end Hermit
