import Hermit.Structural.RuleMeaning

/-! # Built-in properties

The pass that gives the built-in properties their meaning: a visitor looks for them
in the axioms, and for each one it finds axioms are added.  Its result is read with
the names of the two built-in object properties left free.
-/

namespace Hermit

/-! ## Free readings of the object properties -/

section reading

variable {Dom Val : Type*}

/-- The relation of an object property expression whose name is read by `R`. -/
def readRole (R : Iri → Dom → Dom → Prop) : ObjectPropExpr → Dom → Dom → Prop
  | .objectProperty p, x, y => R p x y
  | .inverseObjectProperty p, x, y => R p y x

/-- The pairs related along the properties of a chain. -/
def readChain (R : Iri → Dom → Dom → Prop) : List ObjectPropExpr → Dom → Dom → Prop
  | [], x, y => x = y
  | r :: w, x, y => ∃ z, readRole R r x z ∧ readChain R w z y

namespace Interp

variable (I : Interp Dom Val) (R : Iri → Dom → Dom → Prop)

/-- The set a class expression denotes if `R` reads the object properties and the
interpretation everything else. -/
def readExpr : ClassExpr → Set Dom
  | .class c => I.classes c
  | .objectIntersectionOf operands => {x | ∀ s ∈ readExprList operands, x ∈ s}
  | .objectUnionOf operands => {x | ∃ s ∈ readExprList operands, x ∈ s}
  | .objectComplementOf operand => (readExpr operand)ᶜ
  | .objectOneOf inds => I.expr (.objectOneOf inds)
  | .objectSomeValuesFrom ope bce => {x | ∃ y, readRole R ope x y ∧ y ∈ readExpr bce}
  | .objectAllValuesFrom ope bce => {x | ∀ y, readRole R ope x y → y ∈ readExpr bce}
  | .objectHasValue ope i => {x | readRole R ope x (I.individuals i)}
  | .objectHasSelf ope => {x | readRole R ope x x}
  | .objectMinCardinality n ope bce =>
    {x | (n : ℕ∞) ≤ Set.encard {y | readRole R ope x y ∧ y ∈ readExpr bce}}
  | .objectMaxCardinality n ope bce =>
    {x | Set.encard {y | readRole R ope x y ∧ y ∈ readExpr bce} ≤ n}
  | .objectExactCardinality n ope bce =>
    {x | Set.encard {y | readRole R ope x y ∧ y ∈ readExpr bce} = n}
  | .dataSomeValuesFrom dp dr => I.expr (.dataSomeValuesFrom dp dr)
  | .dataAllValuesFrom dp dr => I.expr (.dataAllValuesFrom dp dr)
  | .dataHasValue dp l => I.expr (.dataHasValue dp l)
  | .dataMinCardinality n dp dr => I.expr (.dataMinCardinality n dp dr)
  | .dataMaxCardinality n dp dr => I.expr (.dataMaxCardinality n dp dr)
  | .dataExactCardinality n dp dr => I.expr (.dataExactCardinality n dp dr)
where
  readExprList : List ClassExpr → List (Set Dom)
    | [] => []
    | d :: ds => readExpr d :: readExprList ds

variable (operands : List ClassExpr)

theorem readExprList_eq_map : readExpr.readExprList I R operands = operands.map (I.readExpr R) := by
  induction operands with
  | nil => rfl
  | cons d ds ih => exact congrArg (I.readExpr R d :: ·) ih

theorem readExpr_intersection :
    I.readExpr R (.objectIntersectionOf operands) = {x | ∀ d ∈ operands, x ∈ I.readExpr R d} := by
  ext x
  change (∀ s ∈ readExpr.readExprList I R operands, x ∈ s) ↔ _
  simp [readExprList_eq_map]

theorem readExpr_union :
    I.readExpr R (.objectUnionOf operands) = {x | ∃ d ∈ operands, x ∈ I.readExpr R d} := by
  ext x
  change (∃ s ∈ readExpr.readExprList I R operands, x ∈ s) ↔ _
  simp [readExprList_eq_map]

/-- The truth of an atom over values of both kinds. -/
def readAtom (val : Iri → Dom ⊕ Val) : SwrlAtom → Prop
  | .classAtom pred arg => ∃ x, I.iValue val arg = .inl x ∧ x ∈ I.readExpr R pred
  | .objectPropertyAtom pred s t =>
    ∃ x y, I.iValue val s = .inl x ∧ I.iValue val t = .inl y ∧ readRole R pred x y
  | .builtInAtom pred args => I.mixedAtom val (.builtInAtom pred args)
  | .dataPropertyAtom pred s t => I.mixedAtom val (.dataPropertyAtom pred s t)
  | .dataRangeAtom pred arg => I.mixedAtom val (.dataRangeAtom pred arg)
  | .differentIndividualsAtom s t => I.mixedAtom val (.differentIndividualsAtom s t)
  | .sameIndividualAtom s t => I.mixedAtom val (.sameIndividualAtom s t)

/-- A normalised rule: its head is a disjunction. -/
def readRule (rule : DisjunctiveRule) : Prop :=
  ∀ val : Iri → Dom ⊕ Val, (∀ b ∈ rule.body, I.readAtom R val b) → ∃ h ∈ rule.head,
    I.readAtom R val h

def readFact : Fact → Prop
  | .sameIndividual inds => ∀ a ∈ inds, ∀ b ∈ inds, I.individuals a = I.individuals b
  | .differentIndividuals inds => inds.Pairwise fun a b => I.individuals a ≠ I.individuals b
  | .classAssertion ce i => I.individuals i ∈ I.readExpr R ce
  | .objectPropertyAssertion ope a b => readRole R ope (I.individuals a) (I.individuals b)
  | .negativeObjectPropertyAssertion ope a b => ¬ readRole R ope (I.individuals a) (I.individuals b)
  | .dataPropertyAssertion dp a l => I.dataProperties dp (I.individuals a) (I.literals l)
  | .negativeDataPropertyAssertion dp a l => ¬ I.dataProperties dp (I.individuals a) (I.literals l)

/-- Whether two elements agree on a property of a key. -/
def readShares (x y : Dom) : PropExpr → Prop
  | .objectPropertyExpression ope => ∃ i : Iri,
    readRole R ope x (I.individuals (.named i)) ∧ readRole R ope y (I.individuals (.named i))
  | .dataProperty dp => ∃ d, I.dataProperties dp x d ∧ I.dataProperties dp y d
  | .annotationProperty _ => True

/-- A key is about named individuals. -/
def readKey (key : HasKeyAxiom) : Prop :=
  ∀ a b : Iri, I.individuals (.named a) ∈ I.readExpr R key.classExpression →
    I.individuals (.named b) ∈ I.readExpr R key.classExpression → (∀ p ∈ key.propertyExpressions,
        I.readShares R (I.individuals (.named a)) (I.individuals (.named b)) p) →
          I.individuals (.named a) = I.individuals (.named b)

/-- A model of normalised axioms, role chains included. -/
structure Models (axioms : OwlAxioms) : Prop where
  conceptInclusions : ∀ e ∈ axioms.conceptInclusions, ∀ x, ∃ d ∈ e, x ∈ I.readExpr R d
  dataRangeInclusions : ∀ e ∈ axioms.dataRangeInclusions, ∀ v, ∃ d ∈ e, v ∈ I.dataRange d
  simpleObjectPropertyInclusions : ∀ i ∈ axioms.simpleObjectPropertyInclusions,
    ∀ x y, readRole R i.1 x y → readRole R i.2 x y
  complexObjectPropertyInclusions : ∀ c ∈ axioms.complexObjectPropertyInclusions,
    ∀ x y, readChain R c.subObjectProperties x y → readRole R c.superObjectProperty x y
  disjointObjectProperties : ∀ rs ∈ axioms.disjointObjectProperties,
    rs.Pairwise fun r s => ∀ x y, ¬ (readRole R r x y ∧ readRole R s x y)
  reflexiveObjectProperties : ∀ r ∈ axioms.reflexiveObjectProperties, ∀ x, readRole R r x x
  irreflexiveObjectProperties : ∀ r ∈ axioms.irreflexiveObjectProperties, ∀ x, ¬ readRole R r x x
  asymmetricObjectProperties : ∀ r ∈ axioms.asymmetricObjectProperties,
    ∀ x y, readRole R r x y → ¬ readRole R r y x
  dataPropertyInclusions : ∀ i ∈ axioms.dataPropertyInclusions,
    ∀ x d, I.dataProperties i.1 x d → I.dataProperties i.2 x d
  disjointDataProperties : ∀ ps ∈ axioms.disjointDataProperties,
    ps.Pairwise fun p q => ∀ x d, ¬ (I.dataProperties p x d ∧ I.dataProperties q x d)
  facts : ∀ f ∈ axioms.facts, I.readFact R f
  hasKeys : ∀ k ∈ axioms.hasKeys, I.readKey R k
  rules : ∀ r ∈ axioms.rules, I.readRule R r

end Interp

/-- The reading gives the two built-in object properties their meaning. -/
structure IsBuiltInReading (R : Iri → Dom → Dom → Prop) : Prop where
  top : ∀ x y, R topObjectRole x y
  bottom : ∀ x y, ¬ R bottomObjectRole x y

end reading

/-- Which of the built-in properties have been met. -/
structure Checker where
  usesTopObjectProperty : Bool := false
  usesBottomObjectProperty : Bool := false
  usesTopDataProperty : Bool := false
  usesBottomDataProperty : Bool := false
deriving DecidableEq, Repr

namespace Checker

variable (checker : Checker)

def visitObjectProperty (object : ObjectPropExpr) : Checker :=
  if namedProperty object = topObjectRole then { checker with usesTopObjectProperty := true }
  else if namedProperty object = bottomObjectRole then
    { checker with usesBottomObjectProperty := true }
  else checker

def visitDataProperty (object : Iri) : Checker :=
  if object = topDataRole then { checker with usesTopDataProperty := true }
  else if object = bottomDataRole then { checker with usesBottomDataProperty := true }
  else checker

def visitClassExpression (checker : Checker) : ClassExpr → Checker
  | .class _ => checker
  | .objectOneOf _ => checker
  | .objectComplementOf operand => checker.visitClassExpression operand
  | .objectIntersectionOf operands => visitOperands checker operands
  | .objectUnionOf operands => visitOperands checker operands
  | .objectSomeValuesFrom ope bce => (checker.visitObjectProperty ope).visitClassExpression bce
  | .objectAllValuesFrom ope bce => (checker.visitObjectProperty ope).visitClassExpression bce
  | .objectMinCardinality _ ope bce => (checker.visitObjectProperty ope).visitClassExpression bce
  | .objectMaxCardinality _ ope bce => (checker.visitObjectProperty ope).visitClassExpression bce
  | .objectExactCardinality _ ope bce => (checker.visitObjectProperty ope).visitClassExpression bce
  | .objectHasValue ope _ => checker.visitObjectProperty ope
  | .objectHasSelf ope => checker.visitObjectProperty ope
  | .dataHasValue dp _ => checker.visitDataProperty dp
  | .dataSomeValuesFrom dp _ => checker.visitDataProperty dp
  | .dataAllValuesFrom dp _ => checker.visitDataProperty dp
  | .dataMinCardinality _ dp _ => checker.visitDataProperty dp
  | .dataMaxCardinality _ dp _ => checker.visitDataProperty dp
  | .dataExactCardinality _ dp _ => checker.visitDataProperty dp
where
  visitOperands (checker : Checker) : List ClassExpr → Checker
    | [] => checker
    | d :: ds => visitOperands (checker.visitClassExpression d) ds

def visitFact : Fact → Checker
  | .sameIndividual _ => checker
  | .differentIndividuals _ => checker
  | .classAssertion ce _ => checker.visitClassExpression ce
  | .objectPropertyAssertion ope _ _ => checker.visitObjectProperty ope
  | .negativeObjectPropertyAssertion ope _ _ => checker.visitObjectProperty ope
  | .dataPropertyAssertion dp _ _ => checker.visitDataProperty dp
  | .negativeDataPropertyAssertion dp _ _ => checker.visitDataProperty dp

def new (axioms : OwlAxioms) : Checker :=
  let checker : Checker := {}
  let checker := axioms.conceptInclusions.foldl
    (fun c entry => entry.foldl visitClassExpression c) checker
  let checker := axioms.simpleObjectPropertyInclusions.foldl
    (fun c inclusion => (c.visitObjectProperty inclusion.1).visitObjectProperty inclusion.2) checker
  let checker := axioms.complexObjectPropertyInclusions.foldl
    (fun c inclusion =>
        (inclusion.subObjectProperties.foldl visitObjectProperty c).visitObjectProperty
      inclusion.superObjectProperty) checker
  let checker := axioms.disjointObjectProperties.foldl
    (fun c entry => entry.foldl visitObjectProperty c) checker
  let checker := axioms.reflexiveObjectProperties.foldl visitObjectProperty checker
  let checker := axioms.irreflexiveObjectProperties.foldl visitObjectProperty checker
  let checker := axioms.asymmetricObjectProperties.foldl visitObjectProperty checker
  let checker := axioms.dataPropertyInclusions.foldl
    (fun c inclusion => (c.visitDataProperty inclusion.1).visitDataProperty inclusion.2) checker
  let checker := axioms.disjointDataProperties.foldl
    (fun c entry => entry.foldl visitDataProperty c) checker
  axioms.facts.foldl visitFact checker

end Checker

namespace OwlAxioms

variable (axioms : OwlAxioms)

def axiomatizeTopObjectProperty : OwlAxioms :=
  let top : ObjectPropExpr := .objectProperty topObjectRole
  { axioms with
    complexObjectPropertyInclusions := axioms.complexObjectPropertyInclusions ++ [⟨[top, top], top⟩]
    simpleObjectPropertyInclusions :=
      axioms.simpleObjectPropertyInclusions ++ [(top, .inverseObjectProperty topObjectRole)]
    conceptInclusions := axioms.conceptInclusions ++
      [[.objectSomeValuesFrom top (.objectOneOf [.named "internal:nam#topIndividual"])]] }

def axiomatizeBottomObjectProperty : OwlAxioms :=
  { axioms with
    conceptInclusions := axioms.conceptInclusions ++
      [[.objectAllValuesFrom (.objectProperty bottomObjectRole) (.class owlNothing)]] }

def axiomatizeTopDataProperty : OwlAxioms :=
  { axioms with
    conceptInclusions := axioms.conceptInclusions ++ [[.dataSomeValuesFrom topDataRole
        (.dataOneOf [.datatype "internal:constant" "internal:anonymous-constants"])]] }

def axiomatizeBottomDataProperty : OwlAxioms :=
  { axioms with
    conceptInclusions := axioms.conceptInclusions ++
      [[.dataAllValuesFrom bottomDataRole (.dataComplementOf (.datatype rdfsLiteral))]] }

def axiomatizeBuiltInPropertiesAsNeededWithSkips (skipTopObjectProperty
    skipBottomObjectProperty skipTopDataProperty skipBottomDataProperty : Bool) : OwlAxioms :=
  let checker := Checker.new axioms
  let axioms := if checker.usesTopObjectProperty && !skipTopObjectProperty then
    axioms.axiomatizeTopObjectProperty else axioms
  let axioms := if checker.usesBottomObjectProperty && !skipBottomObjectProperty then
    axioms.axiomatizeBottomObjectProperty else axioms
  let axioms := if checker.usesTopDataProperty && !skipTopDataProperty then
    axioms.axiomatizeTopDataProperty else axioms
  if checker.usesBottomDataProperty && !skipBottomDataProperty then
    axioms.axiomatizeBottomDataProperty else axioms

def axiomatizeBuiltInPropertiesAsNeeded : OwlAxioms :=
  axioms.axiomatizeBuiltInPropertiesAsNeededWithSkips false false false false

end OwlAxioms

end Hermit
