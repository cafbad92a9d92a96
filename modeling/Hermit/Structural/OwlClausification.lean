import Hermit.Model.Clause

/-! # Clausification of concept inclusions

The clausifier visits the disjuncts of an inclusion one after the other and
collects the atoms of a single clause.  An expression that is not in normal form
stops it, where the source panics.
-/

namespace Hermit

/-! ## Converting names -/

/-- The conversion of a cardinality to a signed 32-bit number. -/
def asI32 (n : ℕ) : ℤ := (BitVec.ofNat 32 n).toInt

theorem asI32_of_lt {n : ℕ} (h : n < 2 ^ 31) : asI32 n = n := by
  unfold asI32
  rw [BitVec.toInt_eq_toNat_of_lt] <;> rw [BitVec.toNat_ofNat] <;> omega

def getLiteralConcept : ClassExpr → Option LiteralConcept
  | .class c => some (.atomicConcept ⟨c⟩)
  | .objectComplementOf (.class c) => some (AtomicConcept.getNegation ⟨c⟩)
  | _ => none

def getRole : ObjectPropExpr → Role
  | .objectProperty p => .atomicRole ⟨p⟩
  | .inverseObjectProperty p => AtomicRole.getInverse ⟨p⟩

/-- An atom over a property; for an inverse it is the named property with the arguments swapped. -/
def getRoleAtomObject (ope : ObjectPropExpr) (first second : Term) : Atom :=
  match ope with
  | .objectProperty p => ⟨.atomicRole ⟨p⟩, [first, second], rfl⟩
  | .inverseObjectProperty p => ⟨.atomicRole ⟨p⟩, [second, first], rfl⟩

def getRoleAtomData (dp : Iri) (first second : Term) : Atom :=
  ⟨.atomicRole ⟨dp⟩, [first, second], rfl⟩

def getIndividual : Individ → Individual
  | .anonymous a => .createAnonymous a
  | .named n => ⟨n⟩

def facetIri : Facet → Iri
  | .length => "http://www.w3.org/2001/XMLSchema#length"
  | .minLength => "http://www.w3.org/2001/XMLSchema#minLength"
  | .maxLength => "http://www.w3.org/2001/XMLSchema#maxLength"
  | .pattern => "http://www.w3.org/2001/XMLSchema#pattern"
  | .minInclusive => "http://www.w3.org/2001/XMLSchema#minInclusive"
  | .minExclusive => "http://www.w3.org/2001/XMLSchema#minExclusive"
  | .maxInclusive => "http://www.w3.org/2001/XMLSchema#maxInclusive"
  | .maxExclusive => "http://www.w3.org/2001/XMLSchema#maxExclusive"
  | .totalDigits => "http://www.w3.org/2001/XMLSchema#totalDigits"
  | .fractionDigits => "http://www.w3.org/2001/XMLSchema#fractionDigits"
  | .langRange => "http://www.w3.org/1999/02/22-rdf-syntax-ns#langRange"

/-! ## Data ranges -/

def xsdString : Iri := "http://www.w3.org/2001/XMLSchema#string"

def rdfPlainLiteral : Iri := "http://www.w3.org/1999/02/22-rdf-syntax-ns#PlainLiteral"

/-- The converter's settings, and the registry of datatypes it consults: which datatypes
are supported, and which lexical forms of a supported one are well formed.  What it
records in order to refuse an ontology later has no part in the result. -/
structure DataRangeConverter where
  ignoreUnsupportedDatatypes : Bool
  definedDatatypeIris : List Iri
  isSupportedDatatype : Iri → Bool
  lexicalWellFormed : String → Iri → Bool

namespace DataRangeConverter

variable (converter : DataRangeConverter)

/-- The constant for a lexical form of a datatype, unless the ontology is to be refused. -/
def buildValidatedConstant (lexicalForm : String) (datatypeUri : Iri) : Option Constant :=
  if "internal:".toList.isPrefixOf datatypeUri.toList then some ⟨lexicalForm, datatypeUri⟩
  else if !converter.isSupportedDatatype datatypeUri then
    if converter.ignoreUnsupportedDatatypes then some (.createUnsupportedLiteral lexicalForm)
    else none
  else if converter.lexicalWellFormed lexicalForm datatypeUri then some ⟨lexicalForm, datatypeUri⟩
  else none

def convertLiteral : Lit → Option Constant
  | .simple literal => converter.buildValidatedConstant literal xsdString
  | .language literal lang =>
    converter.buildValidatedConstant (literal ++ "@" ++ lang) rdfPlainLiteral
  | .datatype literal datatypeIri =>
    if datatypeIri = rdfPlainLiteral then
      converter.buildValidatedConstant (literal ++ "@") datatypeIri
    else converter.buildValidatedConstant literal datatypeIri

/-- As before, with a placeholder for a literal that will make the clausifier refuse. -/
def convertLiteralRecording (literal : Lit) : Constant :=
  (converter.convertLiteral literal).getD <|
    match literal with
    | .simple literal => ⟨literal, xsdString⟩
    | .language literal lang => ⟨literal ++ "@" ++ lang, rdfPlainLiteral⟩
    | .datatype literal datatypeIri => ⟨literal, datatypeIri⟩

def convertDataRange (converter : DataRangeConverter) : DataRangeExpr → Option LiteralDataRange
  | .datatype d =>
    if d = rdfsLiteral then some (.atomic (.internalDatatype .rdfsLiteral))
    else if "internal:defdata#".toList.isPrefixOf d.toList ∨ d ∈ converter.definedDatatypeIris then
      some (.atomic (.internalDatatype ⟨d⟩))
    else some (.atomic (.datatypeRestriction ⟨d, [], []⟩))
  | .dataComplementOf inner => (converter.convertDataRange inner).map .getNegation
  | .dataOneOf values =>
    some (.atomic (.constantEnumeration ⟨(values.map converter.convertLiteralRecording).toFinset⟩))
  | .datatypeRestriction d facets =>
    if d = rdfsLiteral then
      if facets = [] then some (.atomic (.internalDatatype .rdfsLiteral)) else none
    else
      some (.atomic (.datatypeRestriction ⟨d, facets.map fun facet => facetIri facet.f,
        facets.map fun facet => converter.convertLiteralRecording facet.l⟩))
  | .dataIntersectionOf _ => none
  | .dataUnionOf _ => none

end DataRangeConverter

/-! ## The clausifier of concept inclusions -/

structure AxiomClausifier where
  headAtoms : List Atom := []
  bodyAtoms : List Atom := []
  yIndex : ℕ := 0
  zIndex : ℕ := 0

/-- The variable of a counter; the first has no number. -/
def indexedVariable (letter : String) (index : ℕ) : Variable :=
  if index = 0 then ⟨letter⟩ else ⟨letter ++ index.repr⟩

def xTerm : Term := .variable ⟨"X"⟩

/-- The concept that stands for a nominal. -/
def nominalConcept : Individ → AtomicConcept
  | .anonymous a => ⟨"internal:anon#" ++ a⟩
  | .named n => ⟨"internal:nom#" ++ n⟩

/-- The fact that an individual belongs to the concept of its nominal. -/
def nominalFact (individual : Individ) : Atom :=
  ⟨.atomicConcept (nominalConcept individual), [.individual (getIndividual individual)], rfl⟩

def isBottomDataProperty (dp : Iri) : Bool := dp = bottomDataRole

def isTopDataProperty (dp : Iri) : Bool := dp = topDataRole

def unaryAtom (p : AtomicConcept) (t : Term) : Atom := ⟨.atomicConcept p, [t], rfl⟩

def equalityAtom (s t : Term) : Atom := ⟨.equality, [s, t], rfl⟩

/-- The pairs of elements at increasing positions. -/
def orderedPairs {α : Type*} : List α → List (α × α)
  | [] => []
  | a :: l => l.map (a, ·) ++ orderedPairs l

namespace AxiomClausifier

variable (c : AxiomClausifier)

def pushHead (a : Atom) : AxiomClausifier :=
  { c with headAtoms := c.headAtoms ++ [a] }

def pushBody (a : Atom) : AxiomClausifier :=
  { c with bodyAtoms := c.bodyAtoms ++ [a] }

def ensureYNotZero : AxiomClausifier :=
  if c.yIndex = 0 then { c with yIndex := 1 } else c

def nextY : Variable × AxiomClausifier :=
  (indexedVariable "Y" c.yIndex, { c with yIndex := c.yIndex + 1 })

def nextZ : Variable × AxiomClausifier :=
  (indexedVariable "Z" c.zIndex, { c with zIndex := c.zIndex + 1 })

/-- The clause collected so far; the clausifier starts afresh. -/
def getDlClause : DLClause × AxiomClausifier :=
  (⟨c.headAtoms, c.bodyAtoms⟩, {})

/-- One fresh variable for each individual, bound to the concept of its nominal, and
one head atom for each. -/
def bindNominals (head : Term → Atom) :
    List Individ → AxiomClausifier × List Atom → AxiomClausifier × List Atom
  | [], state => state
  | individual :: individuals, (c, positiveFacts) =>
    let (z, c) := c.nextZ
    let c := c.pushHead (head (.variable z))
    let c := c.pushBody (unaryAtom (nominalConcept individual) (.variable z))
    bindNominals head individuals (c, insertSet positiveFacts (nominalFact individual))

/-- A number of fresh successor variables, each with its body and head atoms. -/
def bindSuccessors (body head : Term → List Atom) :
    ℕ → AxiomClausifier → List Variable × AxiomClausifier
  | 0, c => ([], c)
  | count + 1, c =>
    let (y, c) := c.nextY
    let c := { c with
      bodyAtoms := c.bodyAtoms ++ body (.variable y)
      headAtoms := c.headAtoms ++ head (.variable y) }
    let (ys, c) := bindSuccessors body head count c
    (y :: ys, c)

/-- The comparison atoms that break the symmetry between successors, from three on. -/
def comparisonAtoms (ys : List Variable) : List Atom :=
  if 2 < ys.length then
    (ys.zip ys.tail).map (fun p =>
      ⟨.nodeIdLessEqualThan, [.variable p.1, .variable p.2], rfl⟩) ++
    [⟨.nodeIDsAscendingOrEqual ys.length, ys.map .variable, by simp [DLPredicate.arity]⟩]
  else []

/-- The atoms of a successor under an at-most restriction: a positive filler is tested in
the body, a negative one in the head, and a filler that always holds nowhere. -/
def atMostAtoms : ClassExpr → Option ((Term → List Atom) × (Term → List Atom))
  | .class c =>
    let concept : AtomicConcept := ⟨c⟩
    some (fun y => if concept.isAlwaysTrue then [] else [unaryAtom concept y], fun _ => [])
  | .objectComplementOf (.class c) =>
    let concept : AtomicConcept := ⟨c⟩
    some (fun _ => [], fun y => if concept.isAlwaysFalse then [] else [unaryAtom concept y])
  | _ => none

/-- As before, for the negation of the range of a data restriction. -/
def negatedRangeAtoms : LiteralDataRange → (Term → List Atom) × (Term → List Atom)
  | .atomicNegationDataRange (.internalDatatype d) =>
    (fun y => if d.isAlwaysTrue then []
        else [⟨.dataRange (.atomic (.internalDatatype d)), [y], rfl⟩],
      fun _ => [])
  | range =>
    (fun _ => [], fun y => if range.isAlwaysFalse then [] else [⟨.dataRange range, [y], rfl⟩])

/-- Add the atoms of one disjunct. -/
def clausify (converter : DataRangeConverter) (object : ClassExpr) (c : AxiomClausifier)
    (positiveFacts : List Atom) : Option (AxiomClausifier × List Atom) :=
  match object with
  | .class d => some (c.pushHead (unaryAtom ⟨d⟩ xTerm), positiveFacts)
  | .objectComplementOf (.objectHasSelf ope) =>
    some (c.pushBody (getRoleAtomObject ope xTerm xTerm), positiveFacts)
  | .objectComplementOf (.objectOneOf [individual]) =>
    some (c.pushBody (unaryAtom (nominalConcept individual) xTerm),
      insertSet positiveFacts (nominalFact individual))
  | .objectComplementOf (.class d) => some (c.pushBody (unaryAtom ⟨d⟩ xTerm), positiveFacts)
  | .objectOneOf individuals =>
    some (bindNominals (equalityAtom xTerm) individuals (c, positiveFacts))
  | .objectSomeValuesFrom ope (.objectOneOf individuals) =>
    some (bindNominals (getRoleAtomObject ope xTerm) individuals (c, positiveFacts))
  | .objectSomeValuesFrom ope bce => do
    let toConcept ← getLiteralConcept bce
    let atLeast : AtLeastConcept := ⟨1, getRole ope, toConcept⟩
    if atLeast.isAlwaysFalse then return (c, positiveFacts)
    else return (c.pushHead ⟨.atLeastConcept atLeast, [xTerm], rfl⟩, positiveFacts)
  | .objectAllValuesFrom ope bce =>
    let (y, c) := c.nextY
    let c := c.pushBody (getRoleAtomObject ope xTerm (.variable y))
    match bce with
    | .class d =>
      let concept : AtomicConcept := ⟨d⟩
      if concept.isAlwaysFalse then some (c, positiveFacts)
      else some (c.pushHead (unaryAtom concept (.variable y)), positiveFacts)
    | .objectOneOf individuals =>
      some (bindNominals (equalityAtom (.variable y)) individuals (c, positiveFacts))
    | .objectComplementOf (.class d) =>
      let concept : AtomicConcept := ⟨d⟩
      if concept.isAlwaysTrue then some (c, positiveFacts)
      else some (c.pushBody (unaryAtom concept (.variable y)), positiveFacts)
    | .objectComplementOf (.objectOneOf [individual]) =>
      some (c.pushBody (unaryAtom (nominalConcept individual) (.variable y)),
        insertSet positiveFacts (nominalFact individual))
    | _ => none
  | .objectHasSelf ope => some (c.pushHead (getRoleAtomObject ope xTerm xTerm), positiveFacts)
  | .objectMinCardinality n ope bce => do
    let toConcept ← getLiteralConcept bce
    let atLeast : AtLeastConcept := ⟨asI32 n, getRole ope, toConcept⟩
    if atLeast.isAlwaysFalse then return (c, positiveFacts)
    else return (c.pushHead ⟨.atLeastConcept atLeast, [xTerm], rfl⟩, positiveFacts)
  | .objectMaxCardinality n ope bce => do
    let (body, head) ← atMostAtoms bce
    let toConcept ← getLiteralConcept bce
    let annotatedEquality : AnnotatedEquality := ⟨asI32 n, getRole ope, toConcept⟩
    let (ys, c) := bindSuccessors (fun y => getRoleAtomObject ope xTerm y :: body y) head (n + 1)
      c.ensureYNotZero
    return ({ c with
      bodyAtoms := c.bodyAtoms ++ comparisonAtoms ys
      headAtoms := c.headAtoms ++ (orderedPairs ys).map fun p =>
        ⟨.annotatedEquality annotatedEquality, [.variable p.1, .variable p.2, xTerm], rfl⟩ },
      positiveFacts)
  | .dataSomeValuesFrom dp dr =>
    if isBottomDataProperty dp then some (c, positiveFacts)
    else do
      let literalRange ← converter.convertDataRange dr
      let atLeast : AtLeastDataRange := ⟨1, .atomicRole ⟨dp⟩, literalRange⟩
      if atLeast.isAlwaysFalse then return (c, positiveFacts)
      else return (c.pushHead ⟨.atLeastDataRange atLeast, [xTerm], rfl⟩, positiveFacts)
  | .dataAllValuesFrom dp dr => do
    let literalRange ← converter.convertDataRange dr
    if isTopDataProperty dp && literalRange.isAlwaysFalse then return (c, positiveFacts)
    let (y, c) := c.nextY
    let (body, head) := negatedRangeAtoms literalRange
    return ({ c with
      bodyAtoms := c.bodyAtoms ++ getRoleAtomData dp xTerm (.variable y) :: body (.variable y)
      headAtoms := c.headAtoms ++ head (.variable y) }, positiveFacts)
  | .dataMinCardinality n dp dr =>
    if isBottomDataProperty dp && n ≠ 0 then some (c, positiveFacts)
    else do
      let literalRange ← converter.convertDataRange dr
      let atLeast : AtLeastDataRange := ⟨asI32 n, .atomicRole ⟨dp⟩, literalRange⟩
      if atLeast.isAlwaysFalse then return (c, positiveFacts)
      else return (c.pushHead ⟨.atLeastDataRange atLeast, [xTerm], rfl⟩, positiveFacts)
  | .dataMaxCardinality n dp dr => do
    let negatedDataRange := (← converter.convertDataRange dr).getNegation
    let (body, head) := negatedRangeAtoms negatedDataRange
    let (ys, c) := bindSuccessors (fun y => getRoleAtomData dp xTerm y :: body y) head (n + 1)
      c.ensureYNotZero
    return ({ c with
      headAtoms := c.headAtoms ++ (orderedPairs ys).map fun p =>
        equalityAtom (.variable p.1) (.variable p.2) }, positiveFacts)
  | _ => none

/-- The disjuncts of an inclusion, one after the other. -/
def clausifyAll (converter : DataRangeConverter) :
    List ClassExpr → AxiomClausifier → List Atom → Option (AxiomClausifier × List Atom)
  | [], c, positiveFacts => some (c, positiveFacts)
  | description :: inclusion, c, positiveFacts => do
    let (c, positiveFacts) ← c.clausify converter description positiveFacts
    clausifyAll converter inclusion c positiveFacts

/-- The safe clause of a concept inclusion, with the facts extended by those of its nominals. -/
def clausifyInclusion (order : HashOrder Variable) (traversal : ℕ) (converter : DataRangeConverter)
    (inclusion : List ClassExpr) (c : AxiomClausifier) (positiveFacts : List Atom) :
    Option (DLClause × AxiomClausifier × List Atom) := do
  let (c, positiveFacts) ← clausifyAll converter inclusion c positiveFacts
  let (clause, c) := c.getDlClause
  return (clause.getSafeVersion order traversal (.atomicConcept .thing) rfl, c, positiveFacts)

end AxiomClausifier

end Hermit
