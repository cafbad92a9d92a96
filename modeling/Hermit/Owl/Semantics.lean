import Hermit.Owl.Component

/-! # Direct semantics

An interpretation fixes the meaning of the built-in names and leaves every
other name free.  Class expressions denote sets of domain elements, data ranges
sets of data values, and an axiom is a condition on the interpretation.
-/

namespace Hermit

universe u v

/-- An interpretation over a non-empty object domain and a domain of data values:
a meaning for every name that respects the built-in ones. -/
structure Interp (Dom : Type u) (Val : Type v) where
  nonempty : Nonempty Dom
  classes : Iri → Set Dom
  classes_thing : classes owlThing = Set.univ
  classes_nothing : classes owlNothing = ∅
  objectProperties : Iri → Dom → Dom → Prop
  objectProperties_top : ∀ x y, objectProperties topObjectRole x y
  objectProperties_bottom : ∀ x y, ¬ objectProperties bottomObjectRole x y
  dataProperties : Iri → Dom → Val → Prop
  dataProperties_top : ∀ x d, dataProperties topDataRole x d
  dataProperties_bottom : ∀ x d, ¬ dataProperties bottomDataRole x d
  individuals : Individ → Dom
  datatypes : Iri → Set Val
  datatypes_literal : datatypes rdfsLiteral = Set.univ
  literals : Lit → Val
  facets : FacetRestriction → Set Val
  builtIns : Iri → List Val → Prop

/-! An interpretation may put everything into every class and every role but the bottom ones. -/

section full

variable {Dom : Type u} {Val : Type v}

theorem full_thing : {_x : Dom | owlThing ≠ owlNothing} = Set.univ := by simp [owlThing, owlNothing]

theorem full_nothing : {_x : Dom | owlNothing ≠ owlNothing} = ∅ := by simp

theorem full_topObjectRole (_ _ : Dom) : topObjectRole ≠ bottomObjectRole := by decide

theorem full_bottomObjectRole (_ _ : Dom) : ¬ bottomObjectRole ≠ bottomObjectRole := by simp

theorem full_topDataRole (_ : Dom) (_ : Val) : topDataRole ≠ bottomDataRole := by decide

theorem full_bottomDataRole (_ : Dom) (_ : Val) : ¬ bottomDataRole ≠ bottomDataRole := by simp

theorem full_literal : (Set.univ : Set Val) = Set.univ := rfl

end full

namespace Interp

variable {Dom : Type u} {Val : Type v} (I : Interp Dom Val)

/-- The relation an object property expression denotes. -/
def role : ObjectPropExpr → Dom → Dom → Prop
  | .objectProperty p, x, y => I.objectProperties p x y
  | .inverseObjectProperty p, x, y => I.objectProperties p y x

theorem role_inverseProperty (r : ObjectPropExpr) (x y : Dom) :
    I.role (inverseProperty r) x y ↔ I.role r y x := by
  cases r <;> rfl

/-- The set of values a data range denotes. -/
def dataRange : DataRangeExpr → Set Val
  | .datatype d => I.datatypes d
  | .dataIntersectionOf operands => {v | ∀ s ∈ dataRangeList operands, v ∈ s}
  | .dataUnionOf operands => {v | ∃ s ∈ dataRangeList operands, v ∈ s}
  | .dataComplementOf operand => (dataRange operand)ᶜ
  | .dataOneOf values => {v | ∃ l ∈ values, v = I.literals l}
  | .datatypeRestriction d restrictions =>
    {v | v ∈ I.datatypes d ∧ ∀ f ∈ restrictions, v ∈ I.facets f}
where
  dataRangeList : List DataRangeExpr → List (Set Val)
    | [] => []
    | d :: ds => dataRange d :: dataRangeList ds

/-- The set of domain elements a class expression denotes. -/
def expr : ClassExpr → Set Dom
  | .class c => I.classes c
  | .objectIntersectionOf operands => {x | ∀ s ∈ exprList operands, x ∈ s}
  | .objectUnionOf operands => {x | ∃ s ∈ exprList operands, x ∈ s}
  | .objectComplementOf operand => (expr operand)ᶜ
  | .objectOneOf inds => {x | ∃ i ∈ inds, x = I.individuals i}
  | .objectSomeValuesFrom ope bce => {x | ∃ y, I.role ope x y ∧ y ∈ expr bce}
  | .objectAllValuesFrom ope bce => {x | ∀ y, I.role ope x y → y ∈ expr bce}
  | .objectHasValue ope i => {x | I.role ope x (I.individuals i)}
  | .objectHasSelf ope => {x | I.role ope x x}
  | .objectMinCardinality n ope bce =>
    {x | (n : ℕ∞) ≤ Set.encard {y | I.role ope x y ∧ y ∈ expr bce}}
  | .objectMaxCardinality n ope bce =>
    {x | Set.encard {y | I.role ope x y ∧ y ∈ expr bce} ≤ n}
  | .objectExactCardinality n ope bce =>
    {x | Set.encard {y | I.role ope x y ∧ y ∈ expr bce} = n}
  | .dataSomeValuesFrom dp dr => {x | ∃ d, I.dataProperties dp x d ∧ d ∈ I.dataRange dr}
  | .dataAllValuesFrom dp dr => {x | ∀ d, I.dataProperties dp x d → d ∈ I.dataRange dr}
  | .dataHasValue dp l => {x | I.dataProperties dp x (I.literals l)}
  | .dataMinCardinality n dp dr =>
    {x | (n : ℕ∞) ≤ Set.encard {d | I.dataProperties dp x d ∧ d ∈ I.dataRange dr}}
  | .dataMaxCardinality n dp dr =>
    {x | Set.encard {d | I.dataProperties dp x d ∧ d ∈ I.dataRange dr} ≤ n}
  | .dataExactCardinality n dp dr =>
    {x | Set.encard {d | I.dataProperties dp x d ∧ d ∈ I.dataRange dr} = n}
where
  exprList : List ClassExpr → List (Set Dom)
    | [] => []
    | d :: ds => expr d :: exprList ds

variable (operands : List DataRangeExpr)

theorem dataRangeList_eq_map : dataRange.dataRangeList I operands = operands.map I.dataRange := by
  induction operands with
  | nil => rfl
  | cons d ds ih => exact congrArg (I.dataRange d :: ·) ih

theorem exprList_eq_map (operands : List ClassExpr) :
    expr.exprList I operands = operands.map I.expr := by
  induction operands with
  | nil => rfl
  | cons d ds ih => exact congrArg (I.expr d :: ·) ih

@[simp] theorem mem_dataRange_datatype (d : Iri) (v : Val) :
    v ∈ I.dataRange (.datatype d) ↔ v ∈ I.datatypes d :=
  Iff.rfl

@[simp] theorem mem_dataRange_intersection (v : Val) :
    v ∈ I.dataRange (.dataIntersectionOf operands) ↔ ∀ d ∈ operands, v ∈ I.dataRange d := by
  change (∀ s ∈ dataRange.dataRangeList I operands, v ∈ s) ↔ _
  simp [dataRangeList_eq_map]

@[simp] theorem mem_dataRange_union (v : Val) :
    v ∈ I.dataRange (.dataUnionOf operands) ↔ ∃ d ∈ operands, v ∈ I.dataRange d := by
  change (∃ s ∈ dataRange.dataRangeList I operands, v ∈ s) ↔ _
  simp [dataRangeList_eq_map]

@[simp] theorem mem_dataRange_complement (operand : DataRangeExpr) (v : Val) :
    v ∈ I.dataRange (.dataComplementOf operand) ↔ v ∉ I.dataRange operand :=
  Iff.rfl

@[simp] theorem mem_dataRange_oneOf (values : List Lit) (v : Val) :
    v ∈ I.dataRange (.dataOneOf values) ↔ ∃ l ∈ values, v = I.literals l :=
  Iff.rfl

@[simp] theorem mem_expr_class (c : Iri) (x : Dom) : x ∈ I.expr (.class c) ↔ x ∈ I.classes c :=
  Iff.rfl

@[simp] theorem mem_expr_intersection (operands : List ClassExpr) (x : Dom) :
    x ∈ I.expr (.objectIntersectionOf operands) ↔ ∀ d ∈ operands, x ∈ I.expr d := by
  change (∀ s ∈ expr.exprList I operands, x ∈ s) ↔ _
  simp [exprList_eq_map]

@[simp] theorem mem_expr_union (operands : List ClassExpr) (x : Dom) :
    x ∈ I.expr (.objectUnionOf operands) ↔ ∃ d ∈ operands, x ∈ I.expr d := by
  change (∃ s ∈ expr.exprList I operands, x ∈ s) ↔ _
  simp [exprList_eq_map]

@[simp] theorem mem_expr_complement (operand : ClassExpr) (x : Dom) :
    x ∈ I.expr (.objectComplementOf operand) ↔ x ∉ I.expr operand :=
  Iff.rfl

@[simp] theorem mem_expr_oneOf (inds : List Individ) (x : Dom) :
    x ∈ I.expr (.objectOneOf inds) ↔ ∃ i ∈ inds, x = I.individuals i :=
  Iff.rfl

section

variable (ope : ObjectPropExpr)
include ope

@[simp] theorem mem_expr_some (bce : ClassExpr) (x : Dom) :
    x ∈ I.expr (.objectSomeValuesFrom ope bce) ↔ ∃ y, I.role ope x y ∧ y ∈ I.expr bce :=
  Iff.rfl

@[simp] theorem mem_expr_all (bce : ClassExpr) (x : Dom) :
    x ∈ I.expr (.objectAllValuesFrom ope bce) ↔ ∀ y, I.role ope x y → y ∈ I.expr bce :=
  Iff.rfl

@[simp] theorem mem_expr_hasValue (i : Individ) (x : Dom) :
    x ∈ I.expr (.objectHasValue ope i) ↔ I.role ope x (I.individuals i) :=
  Iff.rfl

@[simp] theorem mem_expr_hasSelf (x : Dom) : x ∈ I.expr (.objectHasSelf ope) ↔ I.role ope x x :=
  Iff.rfl

end

section

variable (n : Nat) (ope : ObjectPropExpr) (bce : ClassExpr) (x : Dom)
include n ope bce x

@[simp] theorem mem_expr_min : x ∈ I.expr (.objectMinCardinality n ope bce) ↔
      (n : ℕ∞) ≤ Set.encard {y | I.role ope x y ∧ y ∈ I.expr bce} :=
  Iff.rfl

@[simp] theorem mem_expr_max : x ∈ I.expr (.objectMaxCardinality n ope bce) ↔
      Set.encard {y | I.role ope x y ∧ y ∈ I.expr bce} ≤ n :=
  Iff.rfl

@[simp] theorem mem_expr_exact : x ∈ I.expr (.objectExactCardinality n ope bce) ↔
      Set.encard {y | I.role ope x y ∧ y ∈ I.expr bce} = n :=
  Iff.rfl

end

@[simp] theorem mem_expr_dataSome (dp : Iri) (dr : DataRangeExpr) (x : Dom) :
    x ∈ I.expr (.dataSomeValuesFrom dp dr) ↔ ∃ d, I.dataProperties dp x d ∧ d ∈ I.dataRange dr :=
  Iff.rfl

@[simp] theorem mem_expr_dataAll (dp : Iri) (dr : DataRangeExpr) (x : Dom) :
    x ∈ I.expr (.dataAllValuesFrom dp dr) ↔ ∀ d, I.dataProperties dp x d → d ∈ I.dataRange dr :=
  Iff.rfl

@[simp] theorem mem_expr_dataHasValue (dp : Iri) (l : Lit) (x : Dom) :
    x ∈ I.expr (.dataHasValue dp l) ↔ I.dataProperties dp x (I.literals l) :=
  Iff.rfl

section

variable (n : Nat) (dp : Iri) (dr : DataRangeExpr) (x : Dom)
include n dp dr x

@[simp] theorem mem_expr_dataMin : x ∈ I.expr (.dataMinCardinality n dp dr) ↔
      (n : ℕ∞) ≤ Set.encard {d | I.dataProperties dp x d ∧ d ∈ I.dataRange dr} :=
  Iff.rfl

@[simp] theorem mem_expr_dataMax : x ∈ I.expr (.dataMaxCardinality n dp dr) ↔
      Set.encard {d | I.dataProperties dp x d ∧ d ∈ I.dataRange dr} ≤ n :=
  Iff.rfl

@[simp] theorem mem_expr_dataExact : x ∈ I.expr (.dataExactCardinality n dp dr) ↔
      Set.encard {d | I.dataProperties dp x d ∧ d ∈ I.dataRange dr} = n :=
  Iff.rfl

end

theorem expr_class (c : Iri) : I.expr (.class c) = I.classes c :=
  rfl

@[simp] theorem mem_expr_thing (x : Dom) : x ∈ I.expr (.class owlThing) := by
  simp [I.classes_thing]

@[simp] theorem notMem_expr_nothing (x : Dom) : x ∉ I.expr (.class owlNothing) := by
  simp [I.classes_nothing]

/-! ## SWRL rules -/

/-- A value for every variable, once as an individual and once as a data value. -/
structure Assignment (Dom : Type u) (Val : Type v) where
  object : Iri → Dom
  data : Iri → Val

def iArgument (a : Assignment Dom Val) : IArgument → Dom
  | .individual i => I.individuals i
  | .variable x => a.object x

def dArgument (a : Assignment Dom Val) : DArgument → Val
  | .literal l => I.literals l
  | .variable x => a.data x

/-- The truth of a SWRL atom under an assignment. -/
def atom (a : Assignment Dom Val) : SwrlAtom → Prop
  | .builtInAtom pred args => I.builtIns pred (args.map (I.dArgument a))
  | .classAtom pred arg => I.iArgument a arg ∈ I.expr pred
  | .dataPropertyAtom pred s t => I.dataProperties pred (I.iArgument a s) (I.dArgument a t)
  | .dataRangeAtom pred arg => I.dArgument a arg ∈ I.dataRange pred
  | .differentIndividualsAtom s t => I.iArgument a s ≠ I.iArgument a t
  | .objectPropertyAtom pred s t => I.role pred (I.iArgument a s) (I.iArgument a t)
  | .sameIndividualAtom s t => I.iArgument a s = I.iArgument a t

/-- A rule: every assignment that makes the whole body true makes every head atom true. -/
def rule (body head : List SwrlAtom) : Prop :=
  ∀ a : Assignment Dom Val, (∀ b ∈ body, I.atom a b) → ∀ h ∈ head, I.atom a h

/-- The pairs related along the properties of a chain, one after the other. -/
def chain : List ObjectPropExpr → Dom → Dom → Prop
  | [], x, y => x = y
  | r :: w, x, y => ∃ z, I.role r x z ∧ chain w z y

/-- Whether two individuals agree on a property of a key. -/
def sharesValue (x y : Dom) : PropExpr → Prop
  | .objectPropertyExpression ope =>
    ∃ i : Iri, I.role ope x (I.individuals (.named i)) ∧ I.role ope y (I.individuals (.named i))
  | .dataProperty dp => ∃ d, I.dataProperties dp x d ∧ I.dataProperties dp y d
  | .annotationProperty _ => True

/-- The condition a component puts on an interpretation. -/
def satisfies : Component → Prop
  | .nonLogical _ => True
  | .subClassOf sub sup => I.expr sub ⊆ I.expr sup
  | .equivalentClasses operands => ∀ c ∈ operands, ∀ d ∈ operands, I.expr c = I.expr d
  | .disjointClasses operands => operands.dedup.Pairwise fun c d => Disjoint (I.expr c) (I.expr d)
  | .disjointUnion c operands =>
    I.classes c = I.expr (.objectUnionOf operands) ∧
      operands.dedup.Pairwise fun d e => Disjoint (I.expr d) (I.expr e)
  | .subObjectPropertyOf (.objectPropertyExpression sub) sup =>
    ∀ x y, I.role sub x y → I.role sup x y
  | .subObjectPropertyOf (.objectPropertyChain w) sup => ∀ x y, I.chain w x y → I.role sup x y
  | .equivalentObjectProperties operands =>
    ∀ r ∈ operands, ∀ s ∈ operands, ∀ x y, I.role r x y → I.role s x y
  | .disjointObjectProperties operands =>
    operands.dedup.Pairwise fun r s => ∀ x y, ¬ (I.role r x y ∧ I.role s x y)
  | .inverseObjectProperties first second => ∀ x y, I.role first x y ↔ I.role second y x
  | .objectPropertyDomain ope ce => ∀ x y, I.role ope x y → x ∈ I.expr ce
  | .objectPropertyRange ope ce => ∀ x y, I.role ope x y → y ∈ I.expr ce
  | .functionalObjectProperty ope => ∀ x y z, I.role ope x y → I.role ope x z → y = z
  | .inverseFunctionalObjectProperty ope => ∀ x y z, I.role ope y x → I.role ope z x → y = z
  | .reflexiveObjectProperty ope => ∀ x, I.role ope x x
  | .irreflexiveObjectProperty ope => ∀ x, ¬ I.role ope x x
  | .symmetricObjectProperty ope => ∀ x y, I.role ope x y → I.role ope y x
  | .asymmetricObjectProperty ope => ∀ x y, I.role ope x y → ¬ I.role ope y x
  | .transitiveObjectProperty ope => ∀ x y z, I.role ope x y → I.role ope y z → I.role ope x z
  | .subDataPropertyOf sub sup => ∀ x d, I.dataProperties sub x d → I.dataProperties sup x d
  | .equivalentDataProperties operands =>
    ∀ p ∈ operands, ∀ q ∈ operands, ∀ x d, I.dataProperties p x d → I.dataProperties q x d
  | .disjointDataProperties operands =>
    operands.dedup.Pairwise fun p q => ∀ x d, ¬ (I.dataProperties p x d ∧ I.dataProperties q x d)
  | .dataPropertyDomain dp ce => ∀ x d, I.dataProperties dp x d → x ∈ I.expr ce
  | .dataPropertyRange dp dr => ∀ x d, I.dataProperties dp x d → d ∈ I.dataRange dr
  | .functionalDataProperty dp => ∀ x d e, I.dataProperties dp x d → I.dataProperties dp x e → d = e
  | .datatypeDefinition kind range => I.datatypes kind = I.dataRange range
  | .hasKey ce vpe =>
    ∀ a b : Iri, I.individuals (.named a) ∈ I.expr ce → I.individuals (.named b) ∈ I.expr ce →
      (∀ p ∈ vpe, I.sharesValue (I.individuals (.named a)) (I.individuals (.named b)) p) →
        I.individuals (.named a) = I.individuals (.named b)
  | .sameIndividual inds => ∀ a ∈ inds, ∀ b ∈ inds, I.individuals a = I.individuals b
  | .differentIndividuals inds => inds.Pairwise fun a b => I.individuals a ≠ I.individuals b
  | .classAssertion ce i => I.individuals i ∈ I.expr ce
  | .objectPropertyAssertion ope s t => I.role ope (I.individuals s) (I.individuals t)
  | .negativeObjectPropertyAssertion ope s t => ¬ I.role ope (I.individuals s) (I.individuals t)
  | .dataPropertyAssertion dp s l => I.dataProperties dp (I.individuals s) (I.literals l)
  | .negativeDataPropertyAssertion dp s l => ¬ I.dataProperties dp (I.individuals s) (I.literals l)
  | .rule body head => I.rule body head

/-- An interpretation of every component of an ontology. -/
def isModel (ontology : List Component) : Prop :=
  ∀ c ∈ ontology, I.satisfies c

/-- The interpretation that reads the class names by `f` and everything else as before. -/
def withClasses (f : Iri → Set Dom) (hth : f owlThing = Set.univ) (hnone : f owlNothing = ∅) :
    Interp Dom Val :=
  { I with classes := f, classes_thing := hth, classes_nothing := hnone }

section withClasses

variable {I} {f : Iri → Set Dom} {hth : f owlThing = Set.univ} {hnone : f owlNothing = ∅}

@[simp] theorem classes_withClasses : (I.withClasses f hth hnone).classes = f := rfl

@[simp] theorem individuals_withClasses :
    (I.withClasses f hth hnone).individuals = I.individuals := rfl

@[simp] theorem role_withClasses (r : ObjectPropExpr) :
    (I.withClasses f hth hnone).role r = I.role r := by
  cases r <;> rfl

end withClasses

end Interp

/-- An ontology is satisfiable when some interpretation is a model of it. -/
def Satisfiable (ontology : List Component) : Prop :=
  ∃ (Dom : Type u) (Val : Type v) (I : Interp Dom Val), I.isModel ontology

end Hermit
