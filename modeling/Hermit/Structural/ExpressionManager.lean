import Hermit.Library.Sorted
import Hermit.Owl.Syntax

/-! # Negation normal form and simplification

The operands of an n-ary expression are kept sorted and free of duplicates, in the
order the OWL library gives its types; the order is a parameter.  Cardinalities are
unsigned 32-bit numbers.
-/

namespace Hermit

/-- A linear order on class expressions and one on data ranges. -/
structure ExpressionOrder where
  classLE : ClassExpr → ClassExpr → Bool
  classLE_total : ∀ a b, classLE a b ∨ classLE b a
  classLE_trans : ∀ a b c, classLE a b → classLE b c → classLE a c
  classLE_antisymm : ∀ a b, classLE a b → classLE b a → a = b
  rangeLE : DataRangeExpr → DataRangeExpr → Bool
  rangeLE_total : ∀ a b, rangeLE a b ∨ rangeLE b a
  rangeLE_trans : ∀ a b c, rangeLE a b → rangeLE b c → rangeLE a c
  rangeLE_antisymm : ∀ a b, rangeLE a b → rangeLE b a → a = b

/-- The first number that 32 bits cannot hold. -/
def u32Limit : ℕ := 2 ^ 32

/-- The successor of an unsigned 32-bit number. -/
def succ32 (n : ℕ) : ℕ := (n + 1) % u32Limit

def isOwlThing : ClassExpr → Bool
  | .class c => c = owlThing
  | _ => false

def isOwlNothing : ClassExpr → Bool
  | .class c => c = owlNothing
  | _ => false

def isTopDatatype : DataRangeExpr → Bool
  | .datatype d => d = rdfsLiteral
  | _ => false

def isBottomDataRange : DataRangeExpr → Bool
  | .dataComplementOf inner => isTopDatatype inner
  | _ => false

namespace ExpressionOrder

variable (order : ExpressionOrder)

def canonical (operands : List ClassExpr) : List ClassExpr :=
  sortDedup (fun a b => order.classLE a b) operands

def canonicalData (operands : List DataRangeExpr) : List DataRangeExpr :=
  sortDedup (fun a b => order.rangeLE a b) operands

@[simp] theorem mem_canonical (operands : List ClassExpr) (d : ClassExpr) :
    d ∈ order.canonical operands ↔ d ∈ operands :=
  mem_sortDedup _ _ _

@[simp] theorem mem_canonicalData (operands : List DataRangeExpr) (d : DataRangeExpr) :
    d ∈ order.canonicalData operands ↔ d ∈ operands :=
  mem_sortDedup _ _ _

/-! ## Data ranges -/

mutual
def getNnfData : DataRangeExpr → DataRangeExpr
  | .datatype d => .datatype d
  | .dataOneOf values => .dataOneOf values
  | .datatypeRestriction d facets => .datatypeRestriction d facets
  | .dataComplementOf operand => getComplementNnfData operand
  | .dataIntersectionOf operands =>
    .dataIntersectionOf (order.canonicalData (getNnfDataAll operands))
  | .dataUnionOf operands => .dataUnionOf (order.canonicalData (getNnfDataAll operands))
def getComplementNnfData : DataRangeExpr → DataRangeExpr
  | .datatype d => .dataComplementOf (.datatype d)
  | .dataOneOf values => .dataComplementOf (.dataOneOf values)
  | .datatypeRestriction d facets => .dataComplementOf (.datatypeRestriction d facets)
  | .dataComplementOf operand => getNnfData operand
  | .dataIntersectionOf operands =>
    .dataUnionOf (order.canonicalData (getComplementNnfDataAll operands))
  | .dataUnionOf operands =>
    .dataIntersectionOf (order.canonicalData (getComplementNnfDataAll operands))
def getNnfDataAll : List DataRangeExpr → List DataRangeExpr
  | [] => []
  | d :: ds => getNnfData d :: getNnfDataAll ds
def getComplementNnfDataAll : List DataRangeExpr → List DataRangeExpr
  | [] => []
  | d :: ds => getComplementNnfData d :: getComplementNnfDataAll ds
end

mutual
def getSimplifiedData : DataRangeExpr → DataRangeExpr
  | .datatype d => .datatype d
  | .dataOneOf values => .dataOneOf values
  | .datatypeRestriction d facets => .datatypeRestriction d facets
  | .dataComplementOf operand =>
    match getSimplifiedData operand with
    | .dataComplementOf inner => inner
    | simplified => .dataComplementOf simplified
  | .dataIntersectionOf operands =>
    .dataIntersectionOf (order.canonicalData (simplifyDataConjuncts operands))
  | .dataUnionOf operands =>
    match simplifyDataDisjuncts operands with
    | none => .datatype rdfsLiteral
    | some disjuncts => .dataUnionOf (order.canonicalData disjuncts)
def simplifyDataConjuncts : List DataRangeExpr → List DataRangeExpr
  | [] => []
  | d :: ds =>
    match getSimplifiedData d with
    | .dataIntersectionOf inner => inner ++ simplifyDataConjuncts ds
    | simplified =>
      if isTopDatatype simplified then simplifyDataConjuncts ds
      else simplified :: simplifyDataConjuncts ds
/-- The simplified disjuncts, unless one of them is the topmost datatype. -/
def simplifyDataDisjuncts : List DataRangeExpr → Option (List DataRangeExpr)
  | [] => some []
  | d :: ds =>
    match getSimplifiedData d with
    | .dataUnionOf inner => (simplifyDataDisjuncts ds).map (inner ++ ·)
    | simplified =>
      if isTopDatatype simplified then none
      else (simplifyDataDisjuncts ds).map (simplified :: ·)
end

/-! ## Class expressions -/

mutual
def getNnf : ClassExpr → ClassExpr
  | .class c => .class c
  | .objectOneOf individuals => .objectOneOf individuals
  | .dataHasValue dp l => .dataHasValue dp l
  | .objectIntersectionOf operands => .objectIntersectionOf (order.canonical (getNnfAll operands))
  | .objectUnionOf operands => .objectUnionOf (order.canonical (getNnfAll operands))
  | .objectComplementOf operand => getComplementNnf operand
  | .objectSomeValuesFrom ope bce => .objectSomeValuesFrom ope (getNnf bce)
  | .objectAllValuesFrom ope bce => .objectAllValuesFrom ope (getNnf bce)
  | .objectHasValue ope i => .objectHasValue ope i
  | .objectHasSelf ope => .objectHasSelf ope
  | .objectMinCardinality n ope bce => .objectMinCardinality n ope (getNnf bce)
  | .objectMaxCardinality n ope bce => .objectMaxCardinality n ope (getNnf bce)
  | .objectExactCardinality n ope bce => .objectExactCardinality n ope (getNnf bce)
  | .dataSomeValuesFrom dp dr => .dataSomeValuesFrom dp (order.getNnfData dr)
  | .dataAllValuesFrom dp dr => .dataAllValuesFrom dp (order.getNnfData dr)
  | .dataMinCardinality n dp dr => .dataMinCardinality n dp (order.getNnfData dr)
  | .dataMaxCardinality n dp dr => .dataMaxCardinality n dp (order.getNnfData dr)
  | .dataExactCardinality n dp dr => .dataExactCardinality n dp (order.getNnfData dr)
def getComplementNnf : ClassExpr → ClassExpr
  | .class c =>
    if c = owlThing then .class owlNothing
    else if c = owlNothing then .class owlThing
    else .objectComplementOf (.class c)
  | .objectIntersectionOf operands =>
    .objectUnionOf (order.canonical (getComplementNnfAll operands))
  | .objectUnionOf operands =>
    .objectIntersectionOf (order.canonical (getComplementNnfAll operands))
  | .objectComplementOf operand => getNnf operand
  | .objectOneOf individuals => .objectComplementOf (.objectOneOf individuals)
  | .objectSomeValuesFrom ope bce => .objectAllValuesFrom ope (getComplementNnf bce)
  | .objectAllValuesFrom ope bce => .objectSomeValuesFrom ope (getComplementNnf bce)
  | .objectHasValue ope i => .objectComplementOf (.objectHasValue ope i)
  | .objectHasSelf ope => .objectComplementOf (.objectHasSelf ope)
  | .objectMinCardinality n ope bce =>
    if n = 0 then .class owlNothing else .objectMaxCardinality (n - 1) ope (getNnf bce)
  | .objectMaxCardinality n ope bce => .objectMinCardinality (succ32 n) ope (getNnf bce)
  | .objectExactCardinality n ope bce =>
    if n = 0 then .objectMinCardinality 1 ope (getNnf bce)
    else
      .objectUnionOf (order.canonical [.objectMaxCardinality (n - 1) ope (getNnf bce),
        .objectMinCardinality (succ32 n) ope (getNnf bce)])
  | .dataSomeValuesFrom dp dr => .dataAllValuesFrom dp (order.getComplementNnfData dr)
  | .dataAllValuesFrom dp dr => .dataSomeValuesFrom dp (order.getComplementNnfData dr)
  | .dataHasValue dp l => .objectComplementOf (.dataHasValue dp l)
  | .dataMinCardinality n dp dr =>
    if n = 0 then .class owlNothing else .dataMaxCardinality (n - 1) dp (order.getNnfData dr)
  | .dataMaxCardinality n dp dr => .dataMinCardinality (succ32 n) dp (order.getNnfData dr)
  | .dataExactCardinality n dp dr =>
    if n = 0 then .dataMinCardinality 1 dp (order.getNnfData dr)
    else
      .objectUnionOf (order.canonical [.dataMaxCardinality (n - 1) dp (order.getNnfData dr),
        .dataMinCardinality (succ32 n) dp (order.getNnfData dr)])
def getNnfAll : List ClassExpr → List ClassExpr
  | [] => []
  | d :: ds => getNnf d :: getNnfAll ds
def getComplementNnfAll : List ClassExpr → List ClassExpr
  | [] => []
  | d :: ds => getComplementNnf d :: getComplementNnfAll ds
end

mutual
def getSimplified : ClassExpr → ClassExpr
  | .class c => .class c
  | .objectOneOf individuals => .objectOneOf individuals
  | .objectIntersectionOf operands =>
    match simplifyConjuncts operands with
    | none => .class owlNothing
    | some conjuncts => .objectIntersectionOf (order.canonical conjuncts)
  | .objectUnionOf operands =>
    match simplifyDisjuncts operands with
    | none => .class owlThing
    | some disjuncts => .objectUnionOf (order.canonical disjuncts)
  | .objectComplementOf operand =>
    let simplified := getSimplified operand
    if isOwlThing simplified then .class owlNothing
    else if isOwlNothing simplified then .class owlThing
    else
      match simplified with
      | .objectComplementOf inner => inner
      | simplified => .objectComplementOf simplified
  | .objectSomeValuesFrom ope bce =>
    let filler := getSimplified bce
    if isOwlNothing filler then .class owlNothing else .objectSomeValuesFrom ope filler
  | .objectAllValuesFrom ope bce =>
    let filler := getSimplified bce
    if isOwlThing filler then .class owlThing else .objectAllValuesFrom ope filler
  | .objectHasValue ope i => .objectSomeValuesFrom ope (.objectOneOf [i])
  | .objectHasSelf ope => .objectHasSelf ope
  | .objectMinCardinality n ope bce =>
    let filler := getSimplified bce
    if n = 0 then .class owlThing
    else if isOwlNothing filler then .class owlNothing
    else if n = 1 then .objectSomeValuesFrom ope filler
    else .objectMinCardinality n ope filler
  | .objectMaxCardinality n ope bce =>
    let filler := getSimplified bce
    if isOwlNothing filler then .class owlThing
    else if n = 0 then .objectAllValuesFrom ope (.objectComplementOf filler)
    else .objectMaxCardinality n ope filler
  | .objectExactCardinality n ope bce =>
    let filler := getSimplified bce
    if n = 0 then .objectAllValuesFrom ope (.objectComplementOf filler)
    else if isOwlNothing filler then .class owlNothing
    else
      .objectIntersectionOf (order.canonical [.objectMinCardinality n ope filler,
        .objectMaxCardinality n ope filler])
  | .dataSomeValuesFrom dp dr =>
    let filler := order.getSimplifiedData dr
    if isBottomDataRange filler then .class owlNothing else .dataSomeValuesFrom dp filler
  | .dataAllValuesFrom dp dr =>
    let filler := order.getSimplifiedData dr
    if isTopDatatype filler then .class owlThing else .dataAllValuesFrom dp filler
  | .dataHasValue dp l => .dataSomeValuesFrom dp (.dataOneOf [l])
  | .dataMinCardinality n dp dr =>
    let filler := order.getSimplifiedData dr
    if n = 0 then .class owlThing
    else if isBottomDataRange filler then .class owlNothing
    else if n = 1 then .dataSomeValuesFrom dp filler
    else .dataMinCardinality n dp filler
  | .dataMaxCardinality n dp dr =>
    let filler := order.getSimplifiedData dr
    if isBottomDataRange filler then .class owlThing
    else if n = 0 then .dataAllValuesFrom dp (.dataComplementOf filler)
    else .dataMaxCardinality n dp filler
  | .dataExactCardinality n dp dr =>
    let filler := order.getSimplifiedData dr
    if n = 0 then .dataAllValuesFrom dp (.dataComplementOf filler)
    else if isBottomDataRange filler then .class owlNothing
    else
      .objectIntersectionOf (order.canonical [.dataMinCardinality n dp filler,
        .dataMaxCardinality n dp filler])
/-- The simplified conjuncts, unless one of them is the bottom class. -/
def simplifyConjuncts : List ClassExpr → Option (List ClassExpr)
  | [] => some []
  | d :: ds =>
    let simplified := getSimplified d
    if isOwlThing simplified then simplifyConjuncts ds
    else if isOwlNothing simplified then none
    else
      match simplified with
      | .objectIntersectionOf inner => (simplifyConjuncts ds).map (inner ++ ·)
      | simplified => (simplifyConjuncts ds).map (simplified :: ·)
/-- The simplified disjuncts, unless one of them is the top class. -/
def simplifyDisjuncts : List ClassExpr → Option (List ClassExpr)
  | [] => some []
  | d :: ds =>
    let simplified := getSimplified d
    if isOwlThing simplified then none
    else if isOwlNothing simplified then simplifyDisjuncts ds
    else
      match simplified with
      | .objectUnionOf inner => (simplifyDisjuncts ds).map (inner ++ ·)
      | simplified => (simplifyDisjuncts ds).map (simplified :: ·)
end

end ExpressionOrder

end Hermit
