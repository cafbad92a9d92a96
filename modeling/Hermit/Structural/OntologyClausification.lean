import Hermit.Structural.OwlClausification
import Hermit.Structural.OwlNormalization

/-! # Clausification of normalised axioms

Each kind of normalised axiom gives clauses of its own shape.  A rule becomes one clause
whose variables for individuals are restricted to the named ones.  A data range that the
converter refuses is converted all the same; the refusal of the whole ontology that
follows is left out, and so are description graphs.
-/

namespace Hermit

def isInternalIri (iri : Iri) : Bool := "internal:".toList.isPrefixOf iri.toList

def yTerm : Term := .variable ⟨"Y"⟩

def zTerm : Term := .variable ⟨"Z"⟩

def inequalityAtom (s t : Term) : Atom := ⟨.inequality, [s, t], rfl⟩

theorem arity_dataRange (range : LiteralDataRange) : (DLPredicate.dataRange range).arity = 1 := rfl

def rangeAtom (range : LiteralDataRange) (t : Term) : Atom :=
  ⟨.dataRange range, [t], arity_dataRange range⟩

def namedAtom (t : Term) : Atom := unaryAtom .internalNamed t

def invalidNormalForm : Failure := .panic "Internal error: invalid normal form."

/-! ## Data range inclusions -/

structure DataRangeClausifier where
  headAtoms : List Atom := []
  bodyAtoms : List Atom := []

namespace DataRangeClausifier

/-- The clause collected so far; the clausifier starts afresh. -/
def getDlClause (c : DataRangeClausifier) : DLClause × DataRangeClausifier :=
  (⟨c.headAtoms, c.bodyAtoms⟩, {})

/-- Whether a data range is a name of its own: an internal one or one that is defined. -/
def definedName (converter : DataRangeConverter) : DataRangeExpr → Option Iri
  | .datatype iri =>
    if isInternalIri iri ∨ iri ∈ converter.definedDatatypeIris then some iri else none
  | _ => none

/-- Add the atoms of one disjunct. -/
def clausify (converter : DataRangeConverter) (object : DataRangeExpr) (c : DataRangeClausifier) :
    Option DataRangeClausifier :=
  match object with
  | .dataComplementOf inner =>
    match definedName converter inner with
    | some iri =>
      some { c with bodyAtoms :=
        c.bodyAtoms ++ [rangeAtom (.atomic (.internalDatatype ⟨iri⟩)) xTerm] }
    | none => do
      let literalRange ← converter.convertDataRange object
      let (body, head) := AxiomClausifier.negatedRangeAtoms literalRange
      return ⟨c.headAtoms ++ head xTerm, c.bodyAtoms ++ body xTerm⟩
  | .dataIntersectionOf _ => none
  | .dataUnionOf _ => none
  | object => do
    let literalRange ← converter.convertDataRange object
    return { c with headAtoms := c.headAtoms ++ [rangeAtom literalRange xTerm] }

def clausifyAll (converter : DataRangeConverter) :
    List DataRangeExpr → DataRangeClausifier → Option DataRangeClausifier
  | [], c => some c
  | description :: inclusion, c => do
    let c ← c.clausify converter description
    clausifyAll converter inclusion c

/-- The safe clause of a data range inclusion. -/
def clausifyInclusion (order : HashOrder Variable) (traversal : ℕ) (converter : DataRangeConverter)
    (inclusion : List DataRangeExpr) (c : DataRangeClausifier) :
    Option (DLClause × DataRangeClausifier) := do
  let c ← clausifyAll converter inclusion c
  let (clause, c) := c.getDlClause
  return (clause.getSafeVersion order traversal
    (.dataRange (.atomic (.internalDatatype .rdfsLiteral))) rfl, c)

end DataRangeClausifier

/-! ## Facts -/

def unsupportedLiteralDatatypeMessage (datatypeUri : Iri) : String :=
  "Literals can only use the datatypes from the OWL 2 datatype map, see \n"
    ++ "http://www.w3.org/TR/owl2-syntax/#Datatype_Maps. \n"
    ++ "The datatype '" ++ datatypeUri ++ "' is not part of the OWL 2 datatype map and \n"
    ++ "HermiT cannot parse this literal."

def literalError (lexical : String) (datatypeUri : Iri) : String :=
  "MalformedLiteralException: \"" ++ lexical ++ "\" is not a well-formed value of datatype <"
    ++ datatypeUri ++ ">"

/-- The lexical form and the datatype that a literal is interned on. -/
def literalParts : Lit → String × Iri
  | .simple literal => (literal, xsdString)
  | .language literal lang => (literal ++ "@" ++ lang, rdfPlainLiteral)
  | .datatype literal datatypeIri =>
    (if datatypeIri = rdfPlainLiteral then literal ++ "@" else literal, datatypeIri)

namespace DataRangeConverter

/-- The constant of a literal, or the refusal of its datatype or of its lexical form. -/
def constantFor (converter : DataRangeConverter) (literal : Lit) : Except Failure Constant :=
  match converter.convertLiteral literal with
  | some constant => .ok constant
  | none =>
    let (lexical, datatypeUri) := literalParts literal
    .error (.error (if converter.isSupportedDatatype datatypeUri then
      literalError lexical datatypeUri else unsupportedLiteralDatatypeMessage datatypeUri))

end DataRangeConverter

structure ClausifiedFacts where
  positiveFacts : List Atom := []
  negativeFacts : List Atom := []

namespace ClausifiedFacts

def addPositive (facts : ClausifiedFacts) (a : Atom) : ClausifiedFacts :=
  { facts with positiveFacts := insertSet facts.positiveFacts a }

def addNegative (facts : ClausifiedFacts) (a : Atom) : ClausifiedFacts :=
  { facts with negativeFacts := insertSet facts.negativeFacts a }

end ClausifiedFacts

def individualTerm (i : Individ) : Term := .individual (getIndividual i)

def clausifyFact (converter : DataRangeConverter) (facts : ClausifiedFacts) :
    Fact → Except Failure ClausifiedFacts
  | .sameIndividual individuals =>
    .ok ((individuals.zip individuals.tail).foldl (fun facts p =>
      facts.addPositive (equalityAtom (individualTerm p.1) (individualTerm p.2))) facts)
  | .differentIndividuals individuals =>
    .ok ((orderedPairs individuals).foldl (fun facts p =>
      facts.addPositive (inequalityAtom (individualTerm p.1) (individualTerm p.2))) facts)
  | .classAssertion classExpression individual =>
    let ind := individualTerm individual
    match classExpression with
    | .class c => .ok (facts.addPositive (unaryAtom ⟨c⟩ ind))
    | .objectComplementOf (.class c) => .ok (facts.addNegative (unaryAtom ⟨c⟩ ind))
    | .objectComplementOf (.objectHasSelf ope) =>
      .ok (facts.addNegative (getRoleAtomObject ope ind ind))
    | .objectHasSelf ope => .ok (facts.addPositive (getRoleAtomObject ope ind ind))
    | _ => .error invalidNormalForm
  | .objectPropertyAssertion ope source target =>
    .ok (facts.addPositive (getRoleAtomObject ope (individualTerm source) (individualTerm target)))
  | .negativeObjectPropertyAssertion ope source target =>
    .ok (facts.addNegative (getRoleAtomObject ope (individualTerm source) (individualTerm target)))
  | .dataPropertyAssertion dp source target => do
    let target ← converter.constantFor target
    return facts.addPositive (getRoleAtomData dp (individualTerm source) (.constant target))
  | .negativeDataPropertyAssertion dp source target => do
    let target ← converter.constantFor target
    return facts.addNegative (getRoleAtomData dp (individualTerm source) (.constant target))

/-! ## Keys -/

def keyVariable (index : ℕ) : Term := .variable ⟨"Y" ++ index.repr⟩

def x1Term : Term := .variable ⟨"X1"⟩

def x2Term : Term := .variable ⟨"X2"⟩

/-- The atoms for the object properties of a key, and the next number of a variable. -/
def keyObjectAtoms : List PropExpr → ℕ → List Atom × ℕ
  | [], yIndex => ([], yIndex)
  | .objectPropertyExpression ope :: pes, yIndex =>
    let y := keyVariable yIndex
    let (atoms, yIndex) := keyObjectAtoms pes (yIndex + 1)
    (getRoleAtomObject ope x1Term y :: getRoleAtomObject ope x2Term y :: namedAtom y ::
      atoms, yIndex)
  | _ :: pes, yIndex => keyObjectAtoms pes yIndex

/-- The body and the head atoms for the data properties of a key. -/
def keyDataAtoms : List PropExpr → ℕ → List Atom × List Atom
  | [], _ => ([], [])
  | .dataProperty dp :: pes, yIndex =>
    let y := keyVariable yIndex
    let y2 := keyVariable (yIndex + 1)
    let (body, head) := keyDataAtoms pes (yIndex + 2)
    (getRoleAtomData dp x1Term y :: getRoleAtomData dp x2Term y2 :: body,
      inequalityAtom y y2 :: head)
  | _ :: pes, yIndex => keyDataAtoms pes yIndex

/-- The body and the head atoms for the class of a key. -/
def keyClassAtoms : ClassExpr → Except Failure (List Atom × List Atom)
  | .class c =>
    if c = owlThing then .ok ([], []) else .ok ([unaryAtom ⟨c⟩ x1Term, unaryAtom ⟨c⟩ x2Term], [])
  | .objectComplementOf (.class c) => .ok ([], [unaryAtom ⟨c⟩ x1Term, unaryAtom ⟨c⟩ x2Term])
  | _ => .error invalidNormalForm

def clausifyKey (object : HasKeyAxiom) : Except Failure DLClause := do
  let (classBody, classHead) ← keyClassAtoms object.classExpression
  let (objectBody, yIndex) := keyObjectAtoms object.propertyExpressions 1
  let (dataBody, dataHead) := keyDataAtoms object.propertyExpressions yIndex
  return ⟨equalityAtom x1Term x2Term :: classHead ++ dataHead,
    namedAtom x1Term :: namedAtom x2Term :: classBody ++ objectBody ++ dataBody⟩

/-! ## Rules -/

def notNormalizedToVariables : Failure := .error
  "Internal error: all arguments in a SWRL rule should have been normalized to variables."

def toVariableI : IArgument → Except Failure Variable
  | .variable v => .ok ⟨v⟩
  | .individual _ => .error notNormalizedToVariables

def toVariableD : DArgument → Except Failure Variable
  | .variable v => .ok ⟨v⟩
  | .literal _ => .error notNormalizedToVariables

/-- Convert an atom, and record its variables for individuals; those of an equality or an
inequality are not recorded. -/
def convertRuleAtom (converter : DataRangeConverter) (abstractVariables : List Variable) :
    SwrlAtom → Except Failure (Atom × List Variable)
  | .classAtom pred arg =>
    match pred with
    | .class c => do
      let v ← toVariableI arg
      return (unaryAtom ⟨c⟩ (.variable v), insertSet abstractVariables v)
    | _ => .error (.error ("Internal error: SWRL rule class atoms should be normalized to contain "
        ++ "only named classes, but this class atom has a complex concept."))
  | .objectPropertyAtom pred first second => do
    let v1 ← toVariableI first
    let v2 ← toVariableI second
    return (getRoleAtomObject pred (.variable v1) (.variable v2),
      insertSet (insertSet abstractVariables v1) v2)
  | .dataPropertyAtom pred subject value => do
    let v1 ← toVariableI subject
    let v2 ← toVariableD value
    return (getRoleAtomData pred (.variable v1) (.variable v2), insertSet abstractVariables v1)
  | .dataRangeAtom pred arg => do
    let v ← toVariableD arg
    match converter.convertDataRange pred with
    | some literalRange => return (rangeAtom literalRange (.variable v), abstractVariables)
    | none => throw invalidNormalForm
  | .sameIndividualAtom first second => do
    let v1 ← toVariableI first
    let v2 ← toVariableI second
    return (equalityAtom (.variable v1) (.variable v2), abstractVariables)
  | .differentIndividualsAtom first second => do
    let v1 ← toVariableI first
    let v2 ← toVariableI second
    return (inequalityAtom (.variable v1) (.variable v2), abstractVariables)
  | .builtInAtom _ _ => .error (.error "Rules with SWRL built-in atoms are not yet supported.")

def convertRuleAtoms (converter : DataRangeConverter) :
    List SwrlAtom → List Variable → Except Failure (List Atom × List Variable)
  | [], abstractVariables => .ok ([], abstractVariables)
  | atom :: atoms, abstractVariables => do
    let (converted, abstractVariables) ← convertRuleAtom converter abstractVariables atom
    let (rest, abstractVariables) ← convertRuleAtoms converter atoms abstractVariables
    return (converted :: rest, abstractVariables)

/-- The clause of a rule; its recorded variables are restricted to the named individuals. -/
def clausifyRule (converter : DataRangeConverter) (rule : DisjunctiveRule)
    (restrictToNamed : Bool) : Except Failure DLClause := do
  let (bodyAtoms, abstractVariables) ← convertRuleAtoms converter rule.body []
  let (headAtoms, abstractVariables) ← convertRuleAtoms converter rule.head abstractVariables
  let guards :=
    if restrictToNamed then abstractVariables.map fun v => namedAtom (.variable v) else []
  return ⟨headAtoms, bodyAtoms ++ guards⟩

/-- The named object properties of a rule. -/
def ruleProperties (rule : DisjunctiveRule) : List Iri :=
  (rule.body ++ rule.head).filterMap fun
    | .objectPropertyAtom (.objectProperty p) _ _ => some p
    | .objectPropertyAtom (.inverseObjectProperty p) _ _ => some p
    | _ => none

/-- One pass over the rules whose properties are not yet known to be ordinary ones: the rules
that are placed, those that remain, and the properties known then. -/
def placeRules : List DisjunctiveRule → List Iri →
    List DisjunctiveRule × List DisjunctiveRule × List Iri
  | [], nonGraph => ([], [], nonGraph)
  | rule :: rules, nonGraph =>
    let properties := ruleProperties rule
    if properties.any (· ∈ nonGraph) then
      let (placed, remaining, nonGraph) := placeRules rules (properties.foldl insertSet nonGraph)
      (rule :: placed, remaining, nonGraph)
    else if properties.isEmpty then
      let (placed, remaining, nonGraph) := placeRules rules nonGraph
      (rule :: placed, remaining, nonGraph)
    else
      let (placed, remaining, nonGraph) := placeRules rules nonGraph
      (placed, rule :: remaining, nonGraph)

/-- The order in which rules are clausified when there are no description graphs.  Each pass
places a rule or is the last, so as many passes as there are rules are enough. -/
def orderRules : ℕ → List DisjunctiveRule → List Iri → List DisjunctiveRule
  | 0, unprocessed, _ => unprocessed
  | passes + 1, unprocessed, nonGraph =>
    match placeRules unprocessed nonGraph with
    | ([], remaining, _) => remaining
    | (placed, remaining, nonGraph) => placed ++ orderRules passes remaining nonGraph

/-- The clauses and facts of an ontology, with the vocabulary that is passed on. -/
structure DLOntology where
  dlClauses : List DLClause
  positiveFacts : List Atom
  negativeFacts : List Atom
  atomicConcepts : List AtomicConcept
  atomicObjectRoles : List AtomicRole
  complexObjectRoles : List Role
  atomicDataRoles : List AtomicRole
  definedDatatypeIris : List Iri
  individuals : List Individual

/-- The clauses of the axioms about properties. -/
def propertyClauses (axioms : OwlAxioms) : List DLClause :=
  axioms.simpleObjectPropertyInclusions.map (fun w =>
    ⟨[getRoleAtomObject w.2 xTerm yTerm], [getRoleAtomObject w.1 xTerm yTerm]⟩) ++
  axioms.dataPropertyInclusions.map (fun w =>
    ⟨[getRoleAtomData w.2 xTerm yTerm], [getRoleAtomData w.1 xTerm yTerm]⟩) ++
  axioms.asymmetricObjectProperties.map (fun ope =>
    ⟨[], [getRoleAtomObject ope xTerm yTerm, getRoleAtomObject ope yTerm xTerm]⟩) ++
  axioms.reflexiveObjectProperties.map (fun ope =>
    ⟨[getRoleAtomObject ope xTerm xTerm], [unaryAtom .thing xTerm]⟩) ++
  axioms.irreflexiveObjectProperties.map (fun ope =>
    ⟨[], [getRoleAtomObject ope xTerm xTerm]⟩) ++
  axioms.disjointObjectProperties.flatMap (fun properties => (orderedPairs properties).map fun w =>
    ⟨[], [getRoleAtomObject w.1 xTerm yTerm, getRoleAtomObject w.2 xTerm yTerm]⟩) ++
  (if bottomDataRole ∈ axioms.dataProperties then
    [⟨[], [getRoleAtomData bottomDataRole xTerm yTerm]⟩] else []) ++
  axioms.disjointDataProperties.flatMap (fun properties => (orderedPairs properties).map fun w =>
    ⟨[inequalityAtom yTerm zTerm],
      [getRoleAtomData w.1 xTerm yTerm, getRoleAtomData w.2 xTerm zTerm]⟩)

/-- The clauses of the concept inclusions, and the facts of the nominals in them. -/
def clausifyConceptInclusions (order : HashOrder Variable) (converter : DataRangeConverter) :
    ℕ → List (List ClassExpr) → AxiomClausifier → List Atom →
      Except Failure (List DLClause × List Atom)
  | _, [], _, positiveFacts => .ok ([], positiveFacts)
  | traversal, inclusion :: inclusions, c, positiveFacts =>
    match c.clausifyInclusion order traversal converter inclusion positiveFacts with
    | none => .error invalidNormalForm
    | some (clause, c, positiveFacts) => do
      let (clauses, positiveFacts) ←
        clausifyConceptInclusions order converter (traversal + 1) inclusions c positiveFacts
      return (clause :: clauses, positiveFacts)

def clausifyDataRangeInclusions (order : HashOrder Variable) (converter : DataRangeConverter) :
    ℕ → List (List DataRangeExpr) → DataRangeClausifier → Except Failure (List DLClause)
  | _, [], _ => .ok []
  | traversal, inclusion :: inclusions, c =>
    match c.clausifyInclusion order traversal converter inclusion with
    | none => .error invalidNormalForm
    | some (clause, c) => do
      let clauses ← clausifyDataRangeInclusions order converter (traversal + 1) inclusions c
      return clause :: clauses

/-- The clauses and facts of normalised axioms; `order` is that of the hash sets of variables. -/
def clausifyAxioms (order : HashOrder Variable) (converter : DataRangeConverter)
    (axioms : OwlAxioms) : Except Failure DLOntology := do
  let (conceptClauses, positiveFacts) ←
    clausifyConceptInclusions order converter 0 axioms.conceptInclusions {} []
  let dataRangeClauses ← clausifyDataRangeInclusions order converter axioms.conceptInclusions.length
    axioms.dataRangeInclusions {}
  let keyClauses ← axioms.hasKeys.mapM clausifyKey
  let facts ← (axioms.facts.foldl insertSet []).foldlM (clausifyFact converter) ⟨positiveFacts, []⟩
  let rules := axioms.rules.foldl insertSet []
  let ruleClauses ← (orderRules rules.length rules axioms.objectPropertiesOccurringInOwlAxioms).mapM
    (clausifyRule converter · true)
  let individuals := (axioms.namedIndividuals.foldl insertSet []).map (⟨·⟩)
  let named :=
    if axioms.hasKeys = [] ∧ axioms.rules = [] then facts
    else individuals.foldl (fun facts i => facts.addPositive (namedAtom (.individual i))) facts
  return {
    dlClauses := (propertyClauses axioms ++ conceptClauses ++ dataRangeClauses ++ keyClauses ++
      ruleClauses).foldl insertSet []
    positiveFacts := named.positiveFacts
    negativeFacts := named.negativeFacts
    atomicConcepts := axioms.classes.map (⟨·⟩)
    atomicObjectRoles := axioms.objectProperties.map (⟨·⟩)
    complexObjectRoles := axioms.complexObjectPropertyExpressions.map getRole
    atomicDataRoles := axioms.dataProperties.map (⟨·⟩)
    definedDatatypeIris := axioms.definedDatatypeIris
    individuals := individuals }

end Hermit
