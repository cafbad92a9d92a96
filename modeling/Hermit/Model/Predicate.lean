import Hermit.Owl.Syntax

/-! # Terms, roles, concepts and predicates of DL clauses

Every value is interned in the source, so equality there is equality of contents.
The order of the facets of a datatype restriction, which interning ignores, is kept.
-/

namespace Hermit

structure Variable where
  name : String
deriving DecidableEq

structure Individual where
  uri : Iri
deriving DecidableEq

/-- An individual for a blank node. -/
def Individual.createAnonymous (id : String) : Individual := ⟨"internal:anonymous#" ++ id⟩

structure Constant where
  lexicalForm : String
  datatypeUri : Iri
deriving DecidableEq

/-- The constant for a literal of an unsupported datatype, where these are ignored. -/
def Constant.createUnsupportedLiteral (lexicalForm : String) : Constant :=
  ⟨lexicalForm, "internal:anonymous-constants#unsupported-literal"⟩

inductive Term where
  | variable (v : Variable)
  | individual (i : Individual)
  | constant (c : Constant)
deriving DecidableEq

def Term.asVariable : Term → Option Variable
  | .variable v => some v
  | _ => none

/-! ## Roles -/

structure AtomicRole where
  iri : Iri
deriving DecidableEq

inductive Role where
  | atomicRole (r : AtomicRole)
  | inverseRole (inverseOf : AtomicRole)
deriving DecidableEq

/-- The inverse of a role; the top and the bottom role are their own inverses. -/
def AtomicRole.getInverse (r : AtomicRole) : Role :=
  if r.iri = topObjectRole ∨ r.iri = bottomObjectRole then .atomicRole r else .inverseRole r

/-! ## Concepts -/

structure AtomicConcept where
  iri : Iri
deriving DecidableEq

namespace AtomicConcept

def thing : AtomicConcept := ⟨owlThing⟩

def nothing : AtomicConcept := ⟨owlNothing⟩

def internalNamed : AtomicConcept := ⟨"internal:nam#Named"⟩

def isAlwaysTrue (c : AtomicConcept) : Bool := c = thing

def isAlwaysFalse (c : AtomicConcept) : Bool := c = nothing

end AtomicConcept

inductive LiteralConcept where
  | atomicConcept (c : AtomicConcept)
  | atomicNegationConcept (negatedAtomicConcept : AtomicConcept)
deriving DecidableEq

def AtomicConcept.getNegation (c : AtomicConcept) : LiteralConcept :=
  if c = thing then .atomicConcept nothing
  else if c = nothing then .atomicConcept thing
  else .atomicNegationConcept c

def LiteralConcept.isAlwaysFalse : LiteralConcept → Bool
  | .atomicConcept c => c.isAlwaysFalse
  | .atomicNegationConcept c => c.isAlwaysTrue

/-! ## Data ranges -/

structure DatatypeRestriction where
  datatypeUri : Iri
  facetUris : List Iri
  facetValues : List Constant
deriving DecidableEq

/-- Constants without order or repetition. -/
structure ConstantEnumeration where
  constants : Finset Constant
deriving DecidableEq

structure InternalDatatype where
  iri : Iri
deriving DecidableEq

def InternalDatatype.rdfsLiteral : InternalDatatype := ⟨Hermit.rdfsLiteral⟩

def InternalDatatype.isAlwaysTrue (d : InternalDatatype) : Bool := d = rdfsLiteral

inductive AtomicDataRange where
  | datatypeRestriction (r : DatatypeRestriction)
  | constantEnumeration (r : ConstantEnumeration)
  | internalDatatype (r : InternalDatatype)
deriving DecidableEq

namespace AtomicDataRange

def isAlwaysTrue : AtomicDataRange → Bool
  | .internalDatatype r => r.isAlwaysTrue
  | _ => false

def isAlwaysFalse : AtomicDataRange → Bool
  | .constantEnumeration r => r.constants = ∅
  | _ => false

end AtomicDataRange

/-- An atomic data range or the negation of one. -/
inductive LiteralDataRange where
  | atomic (r : AtomicDataRange)
  | atomicNegationDataRange (negatedDataRange : AtomicDataRange)
deriving DecidableEq

namespace LiteralDataRange

def getNegation : LiteralDataRange → LiteralDataRange
  | .atomic r => .atomicNegationDataRange r
  | .atomicNegationDataRange r => .atomic r

def isAlwaysFalse : LiteralDataRange → Bool
  | .atomic r => r.isAlwaysFalse
  | .atomicNegationDataRange r => r.isAlwaysTrue

end LiteralDataRange

/-! ## Predicates and atoms -/

structure AtLeastConcept where
  number : ℤ
  onRole : Role
  toConcept : LiteralConcept
deriving DecidableEq

def AtLeastConcept.isAlwaysFalse (c : AtLeastConcept) : Bool := c.toConcept.isAlwaysFalse

structure AtLeastDataRange where
  number : ℤ
  onRole : Role
  toDataRange : LiteralDataRange
deriving DecidableEq

def AtLeastDataRange.isAlwaysFalse (c : AtLeastDataRange) : Bool := c.toDataRange.isAlwaysFalse

structure AnnotatedEquality where
  cardinality : ℤ
  onRole : Role
  toConcept : LiteralConcept
deriving DecidableEq

/-- An edge between two vertices of a graph. -/
structure Edge where
  atomicRole : AtomicRole
  fromVertex : ℤ
  toVertex : ℤ
deriving DecidableEq

/-- A description graph.  Graphs are not interned: each that is made has its own identity. -/
structure DescriptionGraph where
  identity : ℕ
  atomicConceptsByVertices : List AtomicConcept
  edges : List Edge
deriving DecidableEq

def DescriptionGraph.arity (g : DescriptionGraph) : ℕ := g.atomicConceptsByVertices.length

structure ExistsDescriptionGraph where
  descriptionGraph : DescriptionGraph
  vertex : ℤ
deriving DecidableEq

inductive DLPredicate where
  | atomicConcept (p : AtomicConcept)
  | atomicRole (p : AtomicRole)
  | atLeastConcept (p : AtLeastConcept)
  | atLeastDataRange (p : AtLeastDataRange)
  | equality
  | inequality
  | annotatedEquality (p : AnnotatedEquality)
  | nodeIdLessEqualThan
  | nodeIDsAscendingOrEqual (arity : ℕ)
  | dataRange (p : LiteralDataRange)
  | descriptionGraph (p : DescriptionGraph)
  | existsDescriptionGraph (p : ExistsDescriptionGraph)
deriving DecidableEq

def DLPredicate.arity : DLPredicate → ℕ
  | .atomicConcept _ => 1
  | .atomicRole _ => 2
  | .atLeastConcept _ => 1
  | .atLeastDataRange _ => 1
  | .equality => 2
  | .inequality => 2
  | .annotatedEquality _ => 3
  | .nodeIdLessEqualThan => 2
  | .nodeIDsAscendingOrEqual arity => arity
  | .dataRange _ => 1
  | .descriptionGraph p => p.arity
  | .existsDescriptionGraph _ => 1

/-- A predicate applied to as many terms as it takes. -/
structure Atom where
  dlPredicate : DLPredicate
  arguments : List Term
  arity_eq : dlPredicate.arity = arguments.length
deriving DecidableEq

/-- The variables among the arguments, in order. -/
def Atom.variables (a : Atom) : List Variable := a.arguments.filterMap Term.asVariable

end Hermit
