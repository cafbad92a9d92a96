import Hermit.Structural.RuleNormalization

/-! # Normalising inclusions

The inclusions wait on a stack.  Each is simplified to a disjunction of expressions in
negation normal form; a disjunction with one intersection among literals is
distributed over it, and in any other the complex parts are replaced by definitions,
whose inclusions join the stack.
-/

namespace Hermit

namespace Normalizer

variable (order : ExpressionOrder)

variable (s : Normalizer)

def addConceptInclusion (inclusion : List ClassExpr) : Normalizer :=
  { s with axioms := { s.axioms with
      conceptInclusions := s.axioms.conceptInclusions ++ [inclusion] } }

def addDataRangeInclusion (inclusion : List DataRangeExpr) : Normalizer :=
  { s with axioms := { s.axioms with
      dataRangeInclusions := s.axioms.dataRangeInclusions ++ [inclusion] } }

/-- The facts that put individuals into a class. -/
def addAssertions (classExpression : ClassExpr) (individuals : List Individ) : Normalizer :=
  individuals.foldl (fun s i => s.addFact (.classAssertion classExpression i)) s

/-! ## Class expressions -/

def isIntersection : ClassExpr → Bool
  | .objectIntersectionOf _ => true
  | _ => false

/-- The disjunctions that an inclusion amounts to when all its disjuncts but one
intersection are literals. -/
def distributeUnionOverAnd (descriptions : List ClassExpr) : Option (List (List ClassExpr)) :=
  match descriptions.filter (!isSimple ·) with
  | [.objectIntersectionOf operands] =>
    some (operands.map fun description =>
      descriptions.map fun d => if isSimple d then d else description)
  | _ => none

/-- Whether the complement of a nominal stands beside a literal. -/
def negativeOneOfAndOther : List ClassExpr → Option (List Individ × ClassExpr)
  | [.objectComplementOf (.objectOneOf individuals), other] => some (individuals, other)
  | [other, .objectComplementOf (.objectOneOf individuals)] => some (individuals, other)
  | _ => none

/-- An inclusion of a nominal in a literal becomes facts. -/
def optimizedNegativeOneOfTranslation (descriptions : List ClassExpr) : Option Normalizer :=
  match negativeOneOfAndOther descriptions with
  | some (individuals, other) =>
    if isSimple other then some (s.addAssertions other individuals) else none
  | none => none

/-- The name for a complex data range; a new one is put below the range. -/
def defineData (dr : DataRangeExpr) : Iri × Normalizer :=
  match s.getDataDefinitionFor dr with
  | (definition, true, s) => (definition, s)
  | (definition, false, s) =>
    (definition, s.pushDataRangeInclusion [order.negativeDr (.datatype definition), dr])

def topDataPropertyError : Failure :=
  .error ("Error: In OWL 2 DL, owl:topDataProperty is only allowed to occur in "
    ++ "the super property position of SubDataPropertyOf axioms.")

/-- The data range that a restriction in normal form has for its own. -/
def normalizeFiller (dp : Iri) (dr : DataRangeExpr) : Except Failure (DataRangeExpr × Normalizer) :=
  if dp = topDataRole then .error topDataPropertyError
  else if isLiteral dr then .ok (dr, s)
  else
    let (definition, s) := s.defineData order dr
    .ok (.datatype definition, s)

def normalizeClassExpression (object : ClassExpr) : Except Failure (ClassExpr × Normalizer) :=
  match object with
  | .class _ => .ok (object, s)
  | .objectIntersectionOf operands =>
    match s.getDefinitionFor order object false with
    | (definition, true, s) => .ok (definition, s)
    | (definition, false, s) =>
      .ok (definition, s.pushInclusions (operands.map fun d => [order.negative definition, d]))
  | .objectUnionOf _ => .error (.panic "OR should be broken down at the outermost level")
  | .objectComplementOf (.objectOneOf individuals) =>
    match s.getDefinitionForNegativeNominal (.objectOneOf individuals) with
    | (definition, true, s) => .ok (.objectComplementOf (.class definition), s)
    | (definition, false, s) =>
      .ok (.objectComplementOf (.class definition), s.addAssertions (.class definition) individuals)
  | .objectComplementOf _ => .ok (object, s)
  | .objectOneOf individuals =>
    if individuals.any isAnonymousIndividual then .error (.anonymousNominal object)
    else .ok (object, s)
  | .objectSomeValuesFrom ope bce =>
    let s := s.noteObjectProperty ope
    if isSimple bce || isNominal bce then .ok (object, s)
    else
      let (definition, s) := s.define order bce
      .ok (.objectSomeValuesFrom ope definition, s)
  | .objectAllValuesFrom ope bce =>
    let s := s.noteObjectProperty ope
    if isSimple bce || isNominal bce || isNegatedOneNominal bce then .ok (object, s)
    else
      let (definition, s) := s.define order bce
      .ok (.objectAllValuesFrom ope definition, s)
  | .objectHasValue _ _ => .error (.panic
      "Internal error: object value restrictions should have been simplified.")
  | .objectHasSelf ope => .ok (object, s.noteObjectProperty ope)
  | .objectMinCardinality n ope bce =>
    let s := s.noteObjectProperty ope
    if isSimple bce then .ok (object, s)
    else
      let (definition, s) := s.define order bce
      .ok (.objectMinCardinality n ope definition, s)
  | .objectMaxCardinality n ope bce =>
    let s := s.noteObjectProperty ope
    if isSimple bce then .ok (object, s)
    else
      let (definition, s) := s.define order (order.getComplementNnf bce)
      .ok (.objectMaxCardinality n ope (order.getComplementNnf definition), s)
  | .objectExactCardinality _ _ _ => .error (.panic
      "Internal error: exact object cardinality restrictions should have been simplified.")
  | .dataSomeValuesFrom dp dr => do
    let (dr, s) ← s.normalizeFiller order dp dr
    return (.dataSomeValuesFrom dp dr, s)
  | .dataAllValuesFrom dp dr => do
    let (dr, s) ← s.normalizeFiller order dp dr
    return (.dataAllValuesFrom dp dr, s)
  | .dataHasValue _ _ => .error (.panic
      "Internal error: data value restrictions should have been simplified.")
  | .dataMinCardinality n dp dr => do
    let (dr, s) ← s.normalizeFiller order dp dr
    return (.dataMinCardinality n dp dr, s)
  | .dataMaxCardinality n dp dr =>
    if dp = topDataRole then .error topDataPropertyError
    else if isLiteral dr then .ok (.dataMaxCardinality n dp dr, s)
    else
      -- the name stands for the complement, and is yet put below the range itself
      match s.getDataDefinitionFor (order.getComplementNnfData dr) with
      | (definition, true, s) =>
        .ok (.dataMaxCardinality n dp (order.getComplementNnfData (.datatype definition)), s)
      | (definition, false, s) =>
        .ok (.dataMaxCardinality n dp (order.getComplementNnfData (.datatype definition)),
          s.pushDataRangeInclusion [order.negativeDr (.datatype definition), dr])
  | .dataExactCardinality _ _ _ => .error (.panic
      "Internal error: exact data cardinality restrictions should have been simplified.")

/-- Normalise the disjuncts one after the other. -/
def normalizeDisjuncts (s : Normalizer) :
    List ClassExpr → Except Failure (List ClassExpr × Normalizer)
  | [] => .ok ([], s)
  | d :: ds => do
    let (d, s) ← s.normalizeClassExpression order d
    let (ds, s) ← normalizeDisjuncts s ds
    return (d :: ds, s)

/-- Process the inclusion that was on the top of the stack. -/
def normalizeInclusion (entry : List ClassExpr) : Except Failure Normalizer :=
  match order.positive (.objectUnionOf entry) with
  | .objectUnionOf descriptions =>
    match distributeUnionOverAnd descriptions with
    | some inclusions => .ok (s.pushInclusions inclusions)
    | none =>
      match s.optimizedNegativeOneOfTranslation descriptions with
      | some s => .ok s
      | none => do
        let (normalized, s) ← s.normalizeDisjuncts order descriptions
        return s.addConceptInclusion normalized
  | .objectIntersectionOf operands => .ok (s.pushInclusions (operands.map ([·])))
  | simplified =>
    if isOwlThing simplified then .ok s
    else do
      let (normalized, s) ← s.normalizeClassExpression order simplified
      return s.addConceptInclusion [normalized]

def normalizeClassInclusions : ℕ → Normalizer → Except Failure Normalizer
  | 0, _ => .error .outOfFuel
  | fuel + 1, s =>
    match s.classExpressionInclusions with
    | [] => .ok s
    | entry :: rest => do
      let s ← { s with classExpressionInclusions := rest }.normalizeInclusion order entry
      normalizeClassInclusions fuel s

/-! ## Data ranges -/

/-- The disjunctions that an inclusion amounts to when all its disjuncts but one
intersection are literals. -/
def distributeUnionOverAndDr (descriptions : List DataRangeExpr) :
    Option (List (List DataRangeExpr)) :=
  match descriptions.filter (!isLiteral ·) with
  | [.dataIntersectionOf operands] =>
    some (operands.map fun description =>
      descriptions.map fun d => if isLiteral d then d else description)
  | _ => none

def normalizeDataRange (object : DataRangeExpr) : Except Failure (DataRangeExpr × Normalizer) :=
  match object with
  | .dataIntersectionOf operands =>
    match s.getDataDefinitionFor object with
    | (definition, true, s) => .ok (.datatype definition, s)
    | (definition, false, s) =>
      .ok (.datatype definition, (operands.foldl (fun s d =>
        s.pushDataRangeInclusion [order.negativeDr (.datatype definition), d]) s))
  | .dataUnionOf _ => .error (.panic "OR should be broken down at the outermost level")
  | object => .ok (object, s)

def normalizeDataDisjuncts (s : Normalizer) :
    List DataRangeExpr → Except Failure (List DataRangeExpr × Normalizer)
  | [] => .ok ([], s)
  | d :: ds => do
    let (d, s) ← s.normalizeDataRange order d
    let (ds, s) ← normalizeDataDisjuncts s ds
    return (d :: ds, s)

def normalizeDataInclusion (entry : List DataRangeExpr) : Except Failure Normalizer :=
  match order.positiveDr (.dataUnionOf entry) with
  | .dataUnionOf descriptions =>
    match distributeUnionOverAndDr descriptions with
    | some inclusions => .ok (inclusions.foldl pushDataRangeInclusion s)
    | none => do
      let (normalized, s) ← s.normalizeDataDisjuncts order descriptions
      return s.addDataRangeInclusion normalized
  | .dataIntersectionOf operands =>
    .ok (operands.foldl (fun s d => s.pushDataRangeInclusion [d]) s)
  | simplified =>
    if isTopDatatype simplified then .ok s
    else do
      let (normalized, s) ← s.normalizeDataRange order simplified
      return s.pushDataRangeInclusion [normalized]

def normalizeDataRangeInclusions : ℕ → Normalizer → Except Failure Normalizer
  | 0, _ => .error .outOfFuel
  | fuel + 1, s =>
    match s.dataRangeInclusions with
    | [] => .ok s
    | entry :: rest => do
      let s ← { s with dataRangeInclusions := rest }.normalizeDataInclusion order entry
      normalizeDataRangeInclusions fuel s

def normalizeInclusions (fuel : ℕ) (s : Normalizer) : Except Failure Normalizer := do
  let s ← s.normalizeClassInclusions order fuel
  s.normalizeDataRangeInclusions order fuel

end Normalizer

/-- Normalise the axioms of an ontology; `fuel` bounds the length of each work list's run. -/
def OwlNormalization.processAxioms (order : ExpressionOrder) (fuel : ℕ) (self : OwlNormalization)
    (components : List Component) : Except Failure OwlNormalization := do
  let s : Normalizer := { toOwlNormalization := self, toAxiomState := {} }
  let s ← components.foldlM (fun s c => s.visitAxiom order c) s
  let s ← s.normalizeRules order fuel
  let s ← s.normalizeInclusions order fuel
  return s.toOwlNormalization

end Hermit
