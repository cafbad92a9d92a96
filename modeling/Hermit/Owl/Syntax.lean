import Mathlib

/-! # The OWL 2 structural model

The types below follow the enums of the OWL library that the reasoner is built
on, instantiated at one string type.  An IRI is its text.  Cardinalities are
natural numbers; where the source computes with them at a fixed width, the
computation says so.
-/

namespace Hermit

abbrev Iri := String

def owlThing : Iri := "http://www.w3.org/2002/07/owl#Thing"
def owlNothing : Iri := "http://www.w3.org/2002/07/owl#Nothing"
def rdfsLiteral : Iri := "http://www.w3.org/2000/01/rdf-schema#Literal"
def topObjectRole : Iri := "http://www.w3.org/2002/07/owl#topObjectProperty"
def bottomObjectRole : Iri := "http://www.w3.org/2002/07/owl#bottomObjectProperty"
def topDataRole : Iri := "http://www.w3.org/2002/07/owl#topDataProperty"
def bottomDataRole : Iri := "http://www.w3.org/2002/07/owl#bottomDataProperty"

/-- An object property or the inverse of one. -/
inductive ObjectPropExpr where
  | objectProperty (p : Iri)
  | inverseObjectProperty (p : Iri)
deriving DecidableEq, Repr

/-- The named object property underlying an object property expression. -/
def namedProperty : ObjectPropExpr → Iri
  | .objectProperty p => p
  | .inverseObjectProperty p => p

/-- Whether an object property expression is an inverse. -/
def isAnonymousProperty : ObjectPropExpr → Bool
  | .objectProperty _ => false
  | .inverseObjectProperty _ => true

/-- The inverse of an object property expression. -/
def inverseProperty : ObjectPropExpr → ObjectPropExpr
  | .objectProperty p => .inverseObjectProperty p
  | .inverseObjectProperty p => .objectProperty p

variable (r : ObjectPropExpr)

@[simp] theorem inverseProperty_inverseProperty : inverseProperty (inverseProperty r) = r := by
  cases r <;> rfl

theorem inverseProperty_injective : Function.Injective inverseProperty :=
  Function.LeftInverse.injective inverseProperty_inverseProperty

@[simp] theorem inverseProperty_inj {r s : ObjectPropExpr} :
    inverseProperty r = inverseProperty s ↔ r = s :=
  inverseProperty_injective.eq_iff

@[simp] theorem isAnonymousProperty_inverseProperty :
    isAnonymousProperty (inverseProperty r) = !isAnonymousProperty r := by
  cases r <;> rfl

theorem inverseProperty_ne_self : inverseProperty r ≠ r := by
  cases r <;> simp [inverseProperty]

inductive Individ where
  | named (iri : Iri)
  | anonymous (id : String)
deriving DecidableEq, Repr

inductive Lit where
  | simple (literal : String)
  | language (literal lang : String)
  | datatype (literal : String) (datatypeIri : Iri)
deriving DecidableEq, Repr

/-- The constraining facets. -/
inductive Facet where
  | length | minLength | maxLength | pattern
  | minInclusive | minExclusive | maxInclusive | maxExclusive
  | totalDigits | fractionDigits | langRange
deriving DecidableEq, Repr

structure FacetRestriction where
  f : Facet
  l : Lit
deriving DecidableEq, Repr

inductive DataRangeExpr where
  | datatype (d : Iri)
  | dataIntersectionOf (operands : List DataRangeExpr)
  | dataUnionOf (operands : List DataRangeExpr)
  | dataComplementOf (operand : DataRangeExpr)
  | dataOneOf (values : List Lit)
  | datatypeRestriction (d : Iri) (facets : List FacetRestriction)
deriving Repr

inductive ClassExpr where
  | class (c : Iri)
  | objectIntersectionOf (operands : List ClassExpr)
  | objectUnionOf (operands : List ClassExpr)
  | objectComplementOf (operand : ClassExpr)
  | objectOneOf (individuals : List Individ)
  | objectSomeValuesFrom (ope : ObjectPropExpr) (bce : ClassExpr)
  | objectAllValuesFrom (ope : ObjectPropExpr) (bce : ClassExpr)
  | objectHasValue (ope : ObjectPropExpr) (i : Individ)
  | objectHasSelf (ope : ObjectPropExpr)
  | objectMinCardinality (n : Nat) (ope : ObjectPropExpr) (bce : ClassExpr)
  | objectMaxCardinality (n : Nat) (ope : ObjectPropExpr) (bce : ClassExpr)
  | objectExactCardinality (n : Nat) (ope : ObjectPropExpr) (bce : ClassExpr)
  | dataSomeValuesFrom (dp : Iri) (dr : DataRangeExpr)
  | dataAllValuesFrom (dp : Iri) (dr : DataRangeExpr)
  | dataHasValue (dp : Iri) (l : Lit)
  | dataMinCardinality (n : Nat) (dp : Iri) (dr : DataRangeExpr)
  | dataMaxCardinality (n : Nat) (dp : Iri) (dr : DataRangeExpr)
  | dataExactCardinality (n : Nat) (dp : Iri) (dr : DataRangeExpr)
deriving Repr

/-! ## Induction over nested operands -/

/-- Induction on data ranges, the operands of an n-ary range given as members. -/
@[elab_as_elim, induction_eliminator]
theorem DataRangeExpr.operandInduction {P : DataRangeExpr → Prop} (datatype : ∀ d, P (.datatype d))
    (dataIntersectionOf : ∀ operands, (∀ d ∈ operands, P d) → P (.dataIntersectionOf operands))
    (dataUnionOf : ∀ operands, (∀ d ∈ operands, P d) → P (.dataUnionOf operands))
    (dataComplementOf : ∀ operand, P operand → P (.dataComplementOf operand))
    (dataOneOf : ∀ values, P (.dataOneOf values))
    (datatypeRestriction : ∀ d facets, P (.datatypeRestriction d facets))
    (dr : DataRangeExpr) : P dr :=
  DataRangeExpr.rec (motive_1 := P) (motive_2 := fun operands => ∀ d ∈ operands, P d)
    datatype dataIntersectionOf dataUnionOf dataComplementOf dataOneOf datatypeRestriction
    (List.forall_mem_nil _) (fun _ _ hd hl => List.forall_mem_cons.mpr ⟨hd, hl⟩) dr

/-- Induction on class expressions, the operands of an n-ary expression given as members. -/
@[elab_as_elim, induction_eliminator]
theorem ClassExpr.operandInduction {P : ClassExpr → Prop} («class» : ∀ c, P (.class c))
    (objectIntersectionOf : ∀ operands, (∀ d ∈ operands, P d) → P (.objectIntersectionOf operands))
    (objectUnionOf : ∀ operands, (∀ d ∈ operands, P d) → P (.objectUnionOf operands))
    (objectComplementOf : ∀ operand, P operand → P (.objectComplementOf operand))
    (objectOneOf : ∀ individuals, P (.objectOneOf individuals))
    (objectSomeValuesFrom : ∀ ope bce, P bce → P (.objectSomeValuesFrom ope bce))
    (objectAllValuesFrom : ∀ ope bce, P bce → P (.objectAllValuesFrom ope bce))
    (objectHasValue : ∀ ope i, P (.objectHasValue ope i))
    (objectHasSelf : ∀ ope, P (.objectHasSelf ope))
    (objectMinCardinality : ∀ n ope bce, P bce → P (.objectMinCardinality n ope bce))
    (objectMaxCardinality : ∀ n ope bce, P bce → P (.objectMaxCardinality n ope bce))
    (objectExactCardinality : ∀ n ope bce, P bce → P (.objectExactCardinality n ope bce))
    (dataSomeValuesFrom : ∀ dp dr, P (.dataSomeValuesFrom dp dr))
    (dataAllValuesFrom : ∀ dp dr, P (.dataAllValuesFrom dp dr))
    (dataHasValue : ∀ dp l, P (.dataHasValue dp l))
    (dataMinCardinality : ∀ n dp dr, P (.dataMinCardinality n dp dr))
    (dataMaxCardinality : ∀ n dp dr, P (.dataMaxCardinality n dp dr))
    (dataExactCardinality : ∀ n dp dr, P (.dataExactCardinality n dp dr)) (ce : ClassExpr) : P ce :=
  ClassExpr.rec (motive_1 := P) (motive_2 := fun operands => ∀ d ∈ operands, P d)
    «class» objectIntersectionOf objectUnionOf objectComplementOf objectOneOf objectSomeValuesFrom
    objectAllValuesFrom objectHasValue objectHasSelf objectMinCardinality objectMaxCardinality
    objectExactCardinality dataSomeValuesFrom dataAllValuesFrom dataHasValue dataMinCardinality
    dataMaxCardinality dataExactCardinality
    (List.forall_mem_nil _) (fun _ _ hd hl => List.forall_mem_cons.mpr ⟨hd, hl⟩) ce

/-! ## Decidable equality -/

mutual
def DataRangeExpr.beq : DataRangeExpr → DataRangeExpr → Bool
  | .datatype d, .datatype e => d == e
  | .dataIntersectionOf a, .dataIntersectionOf b => DataRangeExpr.beqList a b
  | .dataUnionOf a, .dataUnionOf b => DataRangeExpr.beqList a b
  | .dataComplementOf a, .dataComplementOf b => DataRangeExpr.beq a b
  | .dataOneOf a, .dataOneOf b => a == b
  | .datatypeRestriction d a, .datatypeRestriction e b => d == e && a == b
  | _, _ => false
def DataRangeExpr.beqList : List DataRangeExpr → List DataRangeExpr → Bool
  | [], [] => true
  | a :: as, b :: bs => DataRangeExpr.beq a b && DataRangeExpr.beqList as bs
  | _, _ => false
end

theorem DataRangeExpr.beqList_iff {as : List DataRangeExpr}
    (h : ∀ a ∈ as, ∀ b, DataRangeExpr.beq a b = true ↔ a = b) (bs : List DataRangeExpr) :
    DataRangeExpr.beqList as bs = true ↔ as = bs := by
  induction as generalizing bs with
  | nil => cases bs <;> simp [beqList]
  | cons a as ih =>
    cases bs with
    | nil => simp [beqList]
    | cons b bs =>
      have ha := h a (by simp) b
      have hs := ih (fun x hx => h x (by simp [hx])) bs
      simp [beqList, ha, hs]

theorem DataRangeExpr.beq_iff (a b : DataRangeExpr) : DataRangeExpr.beq a b = true ↔ a = b := by
  induction a generalizing b with
  | dataIntersectionOf as ih | dataUnionOf as ih => cases b <;> simp [beq, beqList_iff ih]
  | dataComplementOf a ih => cases b <;> simp [beq, ih]
  | _ => cases b <;> simp [beq]

instance : DecidableEq DataRangeExpr := fun a b =>
  decidable_of_iff (DataRangeExpr.beq a b = true) (DataRangeExpr.beq_iff a b)

mutual
def ClassExpr.beq : ClassExpr → ClassExpr → Bool
  | .class c, .class d => c == d
  | .objectIntersectionOf a, .objectIntersectionOf b => ClassExpr.beqList a b
  | .objectUnionOf a, .objectUnionOf b => ClassExpr.beqList a b
  | .objectComplementOf a, .objectComplementOf b => ClassExpr.beq a b
  | .objectOneOf a, .objectOneOf b => a == b
  | .objectSomeValuesFrom p a, .objectSomeValuesFrom q b => p == q && ClassExpr.beq a b
  | .objectAllValuesFrom p a, .objectAllValuesFrom q b => p == q && ClassExpr.beq a b
  | .objectHasValue p i, .objectHasValue q j => p == q && i == j
  | .objectHasSelf p, .objectHasSelf q => p == q
  | .objectMinCardinality n p a, .objectMinCardinality m q b =>
    n == m && p == q && ClassExpr.beq a b
  | .objectMaxCardinality n p a, .objectMaxCardinality m q b =>
    n == m && p == q && ClassExpr.beq a b
  | .objectExactCardinality n p a, .objectExactCardinality m q b =>
    n == m && p == q && ClassExpr.beq a b
  | .dataSomeValuesFrom p a, .dataSomeValuesFrom q b => p == q && a == b
  | .dataAllValuesFrom p a, .dataAllValuesFrom q b => p == q && a == b
  | .dataHasValue p l, .dataHasValue q m => p == q && l == m
  | .dataMinCardinality n p a, .dataMinCardinality m q b => n == m && p == q && a == b
  | .dataMaxCardinality n p a, .dataMaxCardinality m q b => n == m && p == q && a == b
  | .dataExactCardinality n p a, .dataExactCardinality m q b => n == m && p == q && a == b
  | _, _ => false
def ClassExpr.beqList : List ClassExpr → List ClassExpr → Bool
  | [], [] => true
  | a :: as, b :: bs => ClassExpr.beq a b && ClassExpr.beqList as bs
  | _, _ => false
end

theorem ClassExpr.beqList_iff {as : List ClassExpr}
    (h : ∀ a ∈ as, ∀ b, ClassExpr.beq a b = true ↔ a = b) (bs : List ClassExpr) :
    ClassExpr.beqList as bs = true ↔ as = bs := by
  induction as generalizing bs with
  | nil => cases bs <;> simp [beqList]
  | cons a as ih =>
    cases bs with
    | nil => simp [beqList]
    | cons b bs =>
      have ha := h a (by simp) b
      have hs := ih (fun x hx => h x (by simp [hx])) bs
      simp [beqList, ha, hs]

theorem ClassExpr.beq_iff (a b : ClassExpr) : ClassExpr.beq a b = true ↔ a = b := by
  induction a generalizing b with
  | objectIntersectionOf as ih | objectUnionOf as ih => cases b <;> simp [beq, beqList_iff ih]
  | objectComplementOf a ih | objectSomeValuesFrom p a ih | objectAllValuesFrom p a ih =>
    cases b <;> simp [beq, ih]
  | objectMinCardinality n p a ih | objectMaxCardinality n p a ih
  | objectExactCardinality n p a ih => cases b <;> simp [beq, ih, and_assoc]
  | _ => cases b <;> simp [beq, and_assoc]

instance : DecidableEq ClassExpr := fun a b =>
  decidable_of_iff (ClassExpr.beq a b = true) (ClassExpr.beq_iff a b)

end Hermit
