import Hermit.Graph
import Hermit.Structural.Automaton
import Hermit.Structural.ExpressionWeight
import Hermit.Structural.NormalForm
import Hermit.Structural.OwlAxioms

/-! # Collecting the inclusions of an ontology

The axiom visitor turns class axioms into inclusions that wait for normalisation,
introduces definitions for the complex classes of assertions and keys, and records
every other axiom as it stands.
-/

namespace Hermit

/-- The ways in which normalisation ends without a result. -/
inductive Failure where
  | error (message : String)
  /-- The error about a nominal with an anonymous individual; its text quotes the nominal. -/
  | anonymousNominal (object : ClassExpr)
  | panic (message : String)
  | outOfFuel
deriving DecidableEq, Repr

structure OwlNormalization where
  axioms : OwlAxioms
  firstReplacementIndex : ℕ
  definitions : AList fun _ : ClassExpr => ClassExpr
  definitionsForNegativeNominals : AList fun _ : ClassExpr => Iri
  dataRangeDefinitions : AList fun _ : DataRangeExpr => Iri
  hasRules : Bool
  freshRuleIndividuals : ℕ
  freshRuleDataProperties : ℕ

/-- The work lists of one run; the inclusions are stacks with the top first. -/
structure AxiomState where
  classExpressionInclusions : List (List ClassExpr) := []
  dataRangeInclusions : List (List DataRangeExpr) := []
  rules : List (List SwrlAtom × List SwrlAtom) := []

/-- The normaliser together with the work lists it is filling. -/
structure Normalizer extends OwlNormalization, AxiomState

def OwlNormalization.new (axioms : OwlAxioms) (firstReplacementIndex : ℕ) : OwlNormalization where
  axioms := axioms
  firstReplacementIndex := firstReplacementIndex
  definitions := ∅
  definitionsForNegativeNominals := ∅
  dataRangeDefinitions := ∅
  hasRules := false
  freshRuleIndividuals := 0
  freshRuleDataProperties := 0

namespace Normalizer

/-! ## Recording -/

def addFact (s : Normalizer) (fact : Fact) : Normalizer :=
  { s with axioms := { s.axioms with facts := s.axioms.facts ++ [fact] } }

def pushInclusion (s : Normalizer) (inclusion : List ClassExpr) : Normalizer :=
  { s with classExpressionInclusions := inclusion :: s.classExpressionInclusions }

def pushInclusions (s : Normalizer) (inclusions : List (List ClassExpr)) : Normalizer :=
  inclusions.foldl pushInclusion s

def pushDataRangeInclusion (s : Normalizer) (inclusion : List DataRangeExpr) : Normalizer :=
  { s with dataRangeInclusions := inclusion :: s.dataRangeInclusions }

def addObjectInclusion (s : Normalizer) (sub sup : ObjectPropExpr) : Normalizer :=
  { s with axioms := { s.axioms with
      simpleObjectPropertyInclusions := s.axioms.simpleObjectPropertyInclusions ++ [(sub, sup)] } }

def addObjectChainInclusion (s : Normalizer) (sub : List ObjectPropExpr) (sup : ObjectPropExpr) :
    Normalizer :=
  { s with axioms := { s.axioms with
      complexObjectPropertyInclusions :=
        s.axioms.complexObjectPropertyInclusions ++ [⟨sub, sup⟩] } }

def addDataInclusion (s : Normalizer) (sub sup : Iri) : Normalizer :=
  { s with axioms := { s.axioms with
      dataPropertyInclusions := s.axioms.dataPropertyInclusions ++ [(sub, sup)] } }

def makeTransitive (s : Normalizer) (ope : ObjectPropExpr) : Normalizer :=
  s.addObjectChainInclusion [ope, ope] ope

def noteObjectProperty (s : Normalizer) (ope : ObjectPropExpr) : Normalizer :=
  { s with axioms := { s.axioms with
      objectPropertiesOccurringInOwlAxioms :=
        insertSet s.axioms.objectPropertiesOccurringInOwlAxioms (namedProperty ope) } }

end Normalizer

/-! ## Definitions -/

namespace ExpressionOrder

variable (order : ExpressionOrder)

def positive (description : ClassExpr) : ClassExpr := order.getNnf (order.getSimplified description)

def negative (description : ClassExpr) : ClassExpr :=
  order.getComplementNnf (order.getSimplified description)

def positiveDr (dataRange : DataRangeExpr) : DataRangeExpr :=
  order.getNnfData (order.getSimplifiedData dataRange)

def negativeDr (dataRange : DataRangeExpr) : DataRangeExpr :=
  order.getComplementNnfData (order.getSimplifiedData dataRange)

/-- The polarity of a definition: whether a class of its own can stand for the expression. -/
def plVisit : ClassExpr → Bool
  | .class c => c ≠ owlThing && c ≠ owlNothing
  | .objectIntersectionOf operands => operands.attach.any fun d => plVisit d.1
  | .objectUnionOf operands => operands.attach.any fun d => plVisit d.1
  | .objectComplementOf _ => false
  | .objectAllValuesFrom _ bce => plVisit bce
  | .objectMinCardinality n _ _ => 0 < n
  | .objectMaxCardinality n _ bce => if 0 < n then true else plVisit (order.getComplementNnf bce)
  | .objectExactCardinality n _ bce => if 0 < n then true else plVisit (order.getComplementNnf bce)
  | _ => true
termination_by d => weight d
decreasing_by
  · have h := weight_le_totalWeight d.2
    rw [weight_intersection]
    omega
  · have h := weight_le_totalWeight d.2
    rw [weight_union]
    omega
  · simp [weight]
  · have h := order.weight_getComplementNnf_le bce
    simp only [weight]
    omega
  · have h := order.weight_getComplementNnf_le bce
    simp only [weight]
    omega

end ExpressionOrder

def isClass : ClassExpr → Bool
  | .class _ => true
  | _ => false

/-- The class name of the definition with the given number. -/
def definitionName (n : ℕ) : Iri := "internal:def#" ++ n.repr

def dataDefinitionName (n : ℕ) : Iri := "internal:defdata#" ++ n.repr

def negativeNominalName (n : ℕ) : Iri := "internal:nnq#" ++ n.repr

namespace Normalizer

variable (order : ExpressionOrder)

variable (s : Normalizer)

variable (description : ClassExpr)

/-- Give an expression a literal of its own: a fresh class or the complement of one. -/
def introduceDefinition (forcePositive : Bool) : ClassExpr × Normalizer :=
  let fresh := definitionName (s.definitions.entries.length + s.firstReplacementIndex)
  let definition :=
    if !forcePositive && !order.plVisit description then .objectComplementOf (.class fresh)
    else .class fresh
  (definition, { s with definitions := s.definitions.insert description definition })

/-- The literal that stands for an expression, and whether it did so before. -/
def getDefinitionFor (forcePositive : Bool) : ClassExpr × Bool × Normalizer :=
  match s.definitions.lookup description with
  | some definition =>
    if forcePositive && !isClass definition then
      let (definition, s) := s.introduceDefinition order description forcePositive
      (definition, false, s)
    else (definition, true, s)
  | none =>
    let (definition, s) := s.introduceDefinition order description forcePositive
    (definition, false, s)

/-- The class that stands for an expression, and whether it did so before. -/
def getClassFor : Except Failure (Iri × Bool × Normalizer) :=
  match s.getDefinitionFor order description true with
  | (.class c, alreadyExists, s) => .ok (c, alreadyExists, s)
  | _ => .error (.panic "force_positive definition must be a class")

/-- The class that a forced definition gives; a new definition is introduced as one. -/
theorem getClassFor_eq (pred : ClassExpr) : (∃ c, s.definitions.lookup pred = some (.class c) ∧
      s.getClassFor order pred = .ok (c, true, s)) ∨
    (∀ c, s.definitions.lookup pred ≠ some (.class c)) ∧ ∃ n,
      (s.introduceDefinition order pred true).2 =
        { s with definitions := s.definitions.insert pred (.class (definitionName n)) } ∧
      s.getClassFor order pred =
        .ok (definitionName n, false, (s.introduceDefinition order pred true).2) := by
  have hnew : (s.introduceDefinition order pred true).1 =
      .class (definitionName (s.definitions.entries.length + s.firstReplacementIndex)) := by
    simp [introduceDefinition]
  cases hlook : s.definitions.lookup pred with
  | none =>
    refine .inr ⟨by simp, s.definitions.entries.length + s.firstReplacementIndex, ?_, ?_⟩
    · simp [introduceDefinition]
    · simp only [getClassFor, getDefinitionFor, hlook, hnew]
  | some definition =>
    cases definition with
    | «class» c =>
      refine .inl ⟨c, rfl, ?_⟩
      simp [getClassFor, getDefinitionFor, hlook, isClass]
    | _ =>
      refine .inr ⟨by simp, s.definitions.entries.length + s.firstReplacementIndex, ?_, ?_⟩
      · simp [introduceDefinition]
      · simp only [getClassFor, getDefinitionFor, hlook, isClass, hnew, Bool.not_false,
          Bool.and_self, if_true]

def getDataDefinitionFor (dr : DataRangeExpr) : Iri × Bool × Normalizer :=
  match s.dataRangeDefinitions.lookup dr with
  | some existing => (existing, true, s)
  | none =>
    let definition := dataDefinitionName s.dataRangeDefinitions.entries.length
    (definition, false,
      { s with dataRangeDefinitions := s.dataRangeDefinitions.insert dr definition })

def getDefinitionForNegativeNominal (nominal : ClassExpr) : Iri × Bool × Normalizer :=
  match s.definitionsForNegativeNominals.lookup nominal with
  | some existing => (existing, true, s)
  | none =>
    let definition := negativeNominalName s.definitionsForNegativeNominals.entries.length
    (definition, false, { s with
      definitionsForNegativeNominals :=
        s.definitionsForNegativeNominals.insert nominal definition })

/-- The literal for an expression; a new one is put below the expression. -/
def define : ClassExpr × Normalizer :=
  match s.getDefinitionFor order description false with
  | (definition, true, s) => (definition, s)
  | (definition, false, s) =>
    (definition, s.pushInclusion [order.negative definition, description])

/-! ## Facts from rules without a body -/

def requireNamed : Individ → Except Failure Individ
  | .named n => .ok (.named n)
  | .anonymous _ => .error (.error
      "A SWRL rule contains a fact with an anonymous individual, which is not allowed.")

def varHeadError : Failure :=
  .error "A SWRL rule contains a head atom with a variable that does not occur in the body."

def iargNamed : IArgument → Except Failure Individ
  | .individual i => requireNamed i
  | .variable _ => .error varHeadError

def freshRuleIndividual : Individ × Normalizer :=
  let ind : Iri := "internal:nom#swrlfact" ++ s.freshRuleIndividuals.repr
  (.named ind, { s with
    freshRuleIndividuals := s.freshRuleIndividuals + 1
    axioms := { s.axioms with namedIndividuals := insertSet s.axioms.namedIndividuals ind } })

def freshRuleDataProperty : Iri × Normalizer :=
  let count := s.freshRuleDataProperties + 1
  ("internal:freshDP#" ++ count.repr, { s with freshRuleDataProperties := count })

/-- The two arguments of an equality, collapsed when they are the same. -/
def collapse (first second : Individ) : List Individ :=
  if second ≠ first then [first, second] else [first]

def ruleToFact : SwrlAtom → Except Failure Normalizer
  | .classAtom pred arg => do
    let ind ← iargNamed arg
    if isSimple pred then
      return s.addFact (.classAssertion pred ind)
    else
      let (definition, s) := s.define order pred
      return s.addFact (.classAssertion definition ind)
  | .objectPropertyAtom pred first second => do
    let first ← iargNamed first
    let second ← iargNamed second
    match pred with
    | .objectProperty p =>
      return s.addFact (.objectPropertyAssertion (.objectProperty p) first second)
    | .inverseObjectProperty p =>
      return s.addFact (.objectPropertyAssertion (.objectProperty p) second first)
  | .dataPropertyAtom pred subject value => do
    match value with
    | .variable _ => throw varHeadError
    | .literal l =>
      let individual ← iargNamed subject
      return s.addFact (.dataPropertyAssertion pred individual l)
  | .sameIndividualAtom first second => do
    let first ← iargNamed first
    let second ← iargNamed second
    return s.addFact (.sameIndividual (collapse first second))
  | .differentIndividualsAtom first second => do
    let first ← iargNamed first
    let second ← iargNamed second
    return s.addFact (.differentIndividuals (collapse first second))
  | .dataRangeAtom pred arg =>
    match arg with
    | .variable _ => .error varHeadError
    | .literal l =>
      let (individual, s) := s.freshRuleIndividual
      let (dp, s) := s.freshRuleDataProperty
      let (definition, s) := s.define order (.dataSomeValuesFrom dp (.dataOneOf [l]))
      let s := s.addFact (.classAssertion definition individual)
      .ok (s.pushInclusion [.dataAllValuesFrom dp pred])
  | .builtInAtom _ _ => .error (.error
      "Error: A rule uses built-in atoms, but built-in atoms are not supported yet.")

/-! ## The axiom visitor -/

def checkTopDataPropertyUse (dp : Iri) : Except Failure Unit :=
  if dp = topDataRole then
    .error (.error ("Error: In OWL 2 DL, owl:topDataProperty is only allowed to occur in the super "
      ++ "property position of SubDataPropertyOf axioms, but the ontology contains an axiom "
      ++ "that violates this condition."))
  else .ok ()

def checkTopDataPropertyUses (dps : List Iri) : Except Failure Unit :=
  dps.forM checkTopDataPropertyUse

def isAnonymousIndividual : Individ → Bool
  | .named _ => false
  | .anonymous _ => true

/-- The inclusions that close a list of expressions into a cycle. -/
def equivalenceCycle : List ClassExpr → List (List ClassExpr)
  | [] => []
  | [_] => []
  | first :: second :: rest =>
    let classes := first :: second :: rest
    (classes.zip classes.tail).map (fun w => [order.negative w.1, order.positive w.2]) ++
      [[order.negative (classes.getLast (by simp)), order.positive first]]

/-- The pairs of an element and a later one. -/
def laterPairs {α : Type*} : List α → List (α × α)
  | [] => []
  | a :: as => as.map (a, ·) ++ laterPairs as

/-- Pairwise disjointness of a list without duplicates. -/
def disjointnessInclusions (operands : List ClassExpr) : List (List ClassExpr) :=
  (laterPairs (operands.map order.getComplementNnf)).map fun w => [w.1, w.2]

/-- The inclusions that close a list of properties into a cycle. -/
def propertyCycle {α : Type*} : List α → List (α × α)
  | [] => []
  | [_] => []
  | first :: second :: rest =>
    let properties := first :: second :: rest
    properties.zip properties.tail ++ [(properties.getLast (by simp), first)]

def visitSubObjectPropertyOf (sup : ObjectPropExpr) :
    SubObjectPropertyExpr → Except Failure Normalizer
  | .objectPropertyExpression sub =>
    let s :=
      if sub ≠ .objectProperty bottomObjectRole ∧ sup ≠ .objectProperty topObjectRole then
        s.addObjectInclusion sub sup
      else s
    .ok ((s.noteObjectProperty sub).noteObjectProperty sup)
  | .objectPropertyChain chain => do
    let s ←
      if .objectProperty bottomObjectRole ∉ chain ∧ sup ≠ .objectProperty topObjectRole then
        match chain with
        | [] => throw (.error "Error: an empty property chain is not allowed.")
        | [sub] => pure (s.addObjectInclusion sub sup)
        | [first, second] =>
          if first = sup ∧ second = sup then pure (s.makeTransitive sup)
          else pure (s.addObjectChainInclusion [first, second] sup)
        | chain => pure (s.addObjectChainInclusion chain sup)
      else pure s
    return (chain.foldl noteObjectProperty s).noteObjectProperty sup

def visitClassAssertion (individual : Individ) : ClassExpr → Normalizer
  | .dataHasValue dp l => s.addFact (.dataPropertyAssertion dp individual l)
  | .dataSomeValuesFrom dp (.dataOneOf [l]) => s.addFact (.dataPropertyAssertion dp individual l)
  | ce =>
    let classExpression := order.positive ce
    if isSimple classExpression then s.addFact (.classAssertion classExpression individual)
    else
      let (definition, s) := s.define order classExpression
      s.addFact (.classAssertion definition individual)

def visitHasKey (ce : ClassExpr) (vpe : List PropExpr) : Except Failure Normalizer := do
  checkTopDataPropertyUses (vpe.filterMap fun
    | .dataProperty dp => some dp
    | _ => none)
  let (description, s) :=
    if isSimple (order.positive ce) then (order.positive ce, s)
    else
      -- the key class stands in a clause body, so its name has to lie above it
      let (definition, s) := s.define order (order.negative ce)
      (order.negative definition, s)
  let s : Normalizer :=
    { s with axioms := { s.axioms with hasKeys := s.axioms.hasKeys ++ [⟨description, vpe⟩] } }
  return vpe.foldl (fun s pe => match pe with
    | .objectPropertyExpression ope => s.noteObjectProperty ope
    | _ => s) s

def visitRule (body head : List SwrlAtom) : Except Failure Normalizer := do
  checkTopDataPropertyUses ((body ++ head).filterMap fun
    | .dataPropertyAtom pred _ _ => some pred
    | _ => none)
  let s : Normalizer := { s with hasRules := true }
  if body.isEmpty then
    head.foldlM (fun s atom => s.ruleToFact order atom)
      { s with freshRuleIndividuals := 0, freshRuleDataProperties := 0 }
  else return { s with rules := s.rules ++ [(body, head)] }

def visitAxiom : Component → Except Failure Normalizer
  | .nonLogical _ => .ok s
  | .subClassOf sub sup => .ok (s.pushInclusion [order.negative sub, order.positive sup])
  | .equivalentClasses operands =>
    .ok (s.pushInclusions (equivalenceCycle order (order.canonical operands)))
  | .disjointClasses operands =>
    let deduped := order.canonical operands
    if deduped.length ≤ 1 then
      .error (.error "A DisjointClasses axiom in OWL 2 DL must have at least two classes.")
    else .ok (s.pushInclusions (disjointnessInclusions order deduped))
  | .disjointUnion owlClass operands =>
    let s := s.pushInclusion
      (order.canonical (operands ++ [order.getComplementNnf (.class owlClass)]))
    let s := s.pushInclusions (operands.map fun d => [order.negative d, .class owlClass])
    .ok (s.pushInclusions (disjointnessInclusions order (order.canonical operands)))
  | .subObjectPropertyOf sub sup => s.visitSubObjectPropertyOf sup sub
  | .equivalentObjectProperties operands =>
    let properties := sortDedup labelLE operands
    let s := (propertyCycle properties).foldl (fun s w => s.addObjectInclusion w.1 w.2) s
    .ok (properties.foldl noteObjectProperty s)
  | .disjointObjectProperties operands =>
    let s := operands.foldl noteObjectProperty s
    .ok { s with axioms := { s.axioms with
      disjointObjectProperties :=
        s.axioms.disjointObjectProperties ++ [sortDedup labelLE operands] } }
  | .inverseObjectProperties first second =>
    let s := s.addObjectInclusion first (inverseProperty second)
    let s := s.addObjectInclusion second (inverseProperty first)
    .ok ((s.noteObjectProperty first).noteObjectProperty second)
  | .objectPropertyDomain ope ce =>
    let s := s.pushInclusion [order.positive ce, .objectAllValuesFrom ope (.class owlNothing)]
    .ok (s.noteObjectProperty ope)
  | .objectPropertyRange ope ce =>
    .ok (s.pushInclusion [.objectAllValuesFrom ope (order.positive ce)])
  | .functionalObjectProperty ope =>
    let s := s.pushInclusion [.objectMaxCardinality 1 ope (.class owlThing)]
    .ok (s.noteObjectProperty ope)
  | .inverseFunctionalObjectProperty ope =>
    let s := s.pushInclusion [.objectMaxCardinality 1 (inverseProperty ope) (.class owlThing)]
    .ok (s.noteObjectProperty ope)
  | .reflexiveObjectProperty ope =>
    let s : Normalizer := { s with axioms := { s.axioms with
      reflexiveObjectProperties := insertSet s.axioms.reflexiveObjectProperties ope } }
    .ok (s.noteObjectProperty ope)
  | .irreflexiveObjectProperty ope =>
    let s : Normalizer := { s with axioms := { s.axioms with
      irreflexiveObjectProperties := insertSet s.axioms.irreflexiveObjectProperties ope } }
    .ok (s.noteObjectProperty ope)
  | .symmetricObjectProperty ope =>
    .ok ((s.addObjectInclusion ope (inverseProperty ope)).noteObjectProperty ope)
  | .asymmetricObjectProperty ope =>
    let s : Normalizer := { s with axioms := { s.axioms with
      asymmetricObjectProperties := insertSet s.axioms.asymmetricObjectProperties ope } }
    .ok (s.noteObjectProperty ope)
  | .transitiveObjectProperty ope => .ok ((s.makeTransitive ope).noteObjectProperty ope)
  | .subDataPropertyOf sub sup => do
    checkTopDataPropertyUse sub
    if sub ≠ bottomDataRole ∧ sup ≠ topDataRole then return s.addDataInclusion sub sup
    else return s
  | .equivalentDataProperties operands => do
    let properties := sortDedup (· ≤ ·) operands
    checkTopDataPropertyUses properties
    return (propertyCycle properties).foldl (fun s w => s.addDataInclusion w.1 w.2) s
  | .disjointDataProperties operands => do
    checkTopDataPropertyUses operands
    return { s with axioms := { s.axioms with
      disjointDataProperties :=
        s.axioms.disjointDataProperties ++ [sortDedup (· ≤ ·) operands] } }
  | .dataPropertyDomain dp ce => do
    checkTopDataPropertyUse dp
    return s.pushInclusion [order.positive ce,
      .dataAllValuesFrom dp (.dataComplementOf (.datatype rdfsLiteral))]
  | .dataPropertyRange dp dr => do
    checkTopDataPropertyUse dp
    return s.pushInclusion [.dataAllValuesFrom dp (order.positiveDr dr)]
  | .functionalDataProperty dp => do
    checkTopDataPropertyUse dp
    return s.pushInclusion [.dataMaxCardinality 1 dp (.datatype rdfsLiteral)]
  | .sameIndividual individuals =>
    if individuals.any isAnonymousIndividual then
      .error (.error "SameIndividual with anonymous individuals is not allowed.")
    else .ok (s.addFact (.sameIndividual individuals))
  | .differentIndividuals individuals =>
    if individuals.any isAnonymousIndividual then
      .error (.error "DifferentIndividuals with anonymous individuals is not allowed.")
    else .ok (s.addFact (.differentIndividuals individuals))
  | .classAssertion ce individual => .ok (s.visitClassAssertion order individual ce)
  | .objectPropertyAssertion ope source target =>
    .ok ((s.addFact (.objectPropertyAssertion ope source target)).noteObjectProperty ope)
  | .negativeObjectPropertyAssertion ope source target =>
    if isAnonymousIndividual source || isAnonymousIndividual target then
      .error (.error
        "NegativeObjectPropertyAssertion with anonymous individuals is not allowed.")
    else
      .ok ((s.addFact (.negativeObjectPropertyAssertion ope source target)).noteObjectProperty ope)
  | .dataPropertyAssertion dp source target => do
    checkTopDataPropertyUse dp
    return s.addFact (.dataPropertyAssertion dp source target)
  | .negativeDataPropertyAssertion dp source target => do
    checkTopDataPropertyUse dp
    if isAnonymousIndividual source then
      throw (.error "NegativeDataPropertyAssertion with anonymous individuals is not allowed.")
    else return s.addFact (.negativeDataPropertyAssertion dp source target)
  | .datatypeDefinition kind range =>
    let s : Normalizer := { s with axioms := { s.axioms with
      definedDatatypeIris := insertSet s.axioms.definedDatatypeIris kind } }
    let s := s.pushDataRangeInclusion
      [order.negativeDr (.datatype kind), order.positiveDr range]
    .ok (s.pushDataRangeInclusion [order.negativeDr range, order.positiveDr (.datatype kind)])
  | .hasKey ce vpe => s.visitHasKey order ce vpe
  | .rule body head => s.visitRule order body head

end Normalizer

end Hermit
