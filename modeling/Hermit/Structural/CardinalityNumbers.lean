import Hermit.Structural.ClauseParts
import Hermit.Structural.ExpressionShape
import Hermit.Structural.InclusionNormalization
import Hermit.Structural.StructuralOrder
import Hermit.Tableau.Witnesses

/-! # The numbers of cardinality restrictions

A cardinality is an unsigned 32-bit number in an expression and a signed one in a
predicate.  Between the two lie the complement, which takes the successor, and the
clausifier, which reinterprets the bits.  The numbers are followed from a restriction
through every simplification and normalisation to the predicates of its clauses.
-/

namespace Hermit

open List hiding not_lt
open Option ExpressionOrder Normalizer AxiomClausifier ClassExpr

/-! ## Restrictions and what they say -/

inductive CardinalityKind where
  | min
  | max
  | exact
deriving DecidableEq

inductive CardinalityRestriction where
  | object (kind : CardinalityKind) (n : ℕ) (ope : ObjectPropExpr) (bce : ClassExpr)
  | data (kind : CardinalityKind) (n : ℕ) (dp : Iri) (dr : DataRangeExpr)

inductive Comparison where
  | atLeast
  | atMost
deriving DecidableEq

namespace CardinalityRestriction

def toExpr : CardinalityRestriction → ClassExpr
  | object .min n ope bce => .objectMinCardinality n ope bce
  | object .max n ope bce => .objectMaxCardinality n ope bce
  | object .exact n ope bce => .objectExactCardinality n ope bce
  | data .min n dp dr => .dataMinCardinality n dp dr
  | data .max n dp dr => .dataMaxCardinality n dp dr
  | data .exact n dp dr => .dataExactCardinality n dp dr

def kind : CardinalityRestriction → CardinalityKind
  | object kind _ _ _ => kind
  | data kind _ _ _ => kind

def number : CardinalityRestriction → ℕ
  | object _ n _ _ => n
  | data _ n _ _ => n

/-- The numbers that the restriction, or its complement, speaks of. -/
def intended (r : CardinalityRestriction) (polarity : Bool) : List (Comparison × ℕ) :=
  match r.kind, polarity with
  | .min, true => [(.atLeast, r.number)]
  | .max, true => [(.atMost, r.number)]
  | .exact, true => [(.atLeast, r.number), (.atMost, r.number)]
  | .min, false => if r.number = 0 then [] else [(.atMost, r.number - 1)]
  | .max, false => [(.atLeast, r.number + 1)]
  | .exact, false =>
    if r.number = 0 then [(.atLeast, 1)] else [(.atMost, r.number - 1), (.atLeast, r.number + 1)]

/-- What the normaliser starts from. -/
def normalForm (order : ExpressionOrder) (r : CardinalityRestriction) (polarity : Bool) :
    ClassExpr :=
  if polarity then order.positive r.toExpr else order.negative r.toExpr

end CardinalityRestriction

/-! ## The way to the clauses -/

/-- The operands of a union or an intersection, which become disjuncts or inclusions of their own.
-/
def ClassExpr.parts : ClassExpr → List ClassExpr
  | .objectUnionOf operands => operands
  | .objectIntersectionOf operands => operands
  | d => [d]

/-- An expression is taken apart, and what goes back to the stack is simplified again. -/
def Unfolded (order : ExpressionOrder) : ClassExpr → ClassExpr → Prop :=
  Relation.ReflTransGen fun d q => q ∈ d.parts ∨ q ∈ (order.positive d).parts

/-- The number of a restriction. -/
def ClassExpr.cardinality : ClassExpr → Option (Comparison × ℕ)
  | .objectMinCardinality n _ _ => some (.atLeast, n)
  | .objectMaxCardinality n _ _ => some (.atMost, n)
  | .dataMinCardinality n _ _ => some (.atLeast, n)
  | .dataMaxCardinality n _ _ => some (.atMost, n)
  | _ => none

/-- The number that a predicate carries. -/
def DLPredicate.cardinality : DLPredicate → Option (Comparison × ℤ)
  | .atLeastConcept p => some (.atLeast, p.number)
  | .atLeastDataRange p => some (.atLeast, p.number)
  | .annotatedEquality p => some (.atMost, p.cardinality)
  | _ => none

/-- The numbers in the head of the clause of a disjunct, after its filler has been replaced; the
definitions of the normaliser are literals. -/
def Emitted (order : ExpressionOrder) (converter : DataRangeConverter) (q : ClassExpr)
    (b : Comparison × ℤ) : Prop :=
  ∃ (s : Normalizer) (d : ClassExpr) (s' : Normalizer) (c c' : AxiomClausifier)
      (facts facts' : List Atom),
    (∀ e definition, s.definitions.lookup e = some definition → isSimple definition) ∧
      s.normalizeClassExpression order q = .ok (d, s') ∧ c.headAtoms = [] ∧
      c.clausify converter d facts = some (c', facts') ∧ ∃ h ∈ c'.headAtoms,
        h.dlPredicate.cardinality = some b

/-- Every number on the way, and every number in a predicate, is one that the restriction speaks of.
-/
structure CardinalityRestriction.Preserved (order : ExpressionOrder)
    (converter : DataRangeConverter)
    (r : CardinalityRestriction) (polarity : Bool) : Prop where
  expressions : ∀ q, Unfolded order (r.normalForm order polarity) q → ∀ b, q.cardinality = some b →
    b ∈ r.intended polarity
  predicates : ∀ q, Unfolded order (r.normalForm order polarity) q → ∀ b z,
    Emitted order converter q (b, z) →
    ∃ m : ℕ, (b, m) ∈ r.intended polarity ∧ z = m

/-- The numbers that are given to a predicate are below `2 ^ 31`; those of data at-most restrictions
are not given to any. -/
def CardinalityRestriction.InRange (r : CardinalityRestriction) (polarity : Bool) : Prop :=
  match r with
  | .object _ _ _ _ => ∀ b ∈ r.intended polarity, b.2 < 2 ^ 31
  | .data _ _ _ _ => ∀ b ∈ r.intended polarity, b.1 = .atLeast → b.2 < 2 ^ 31

/-! ## Expressions with given numbers -/

variable {order : ExpressionOrder} {converter : DataRangeConverter} {M : List (Comparison × ℕ)}
variable {N : Comparison × ℕ → Iri → DataRangeExpr → Prop}
variable {q : ClassExpr} {o : Option (Comparison × ℤ)} {d : ClassExpr}

theorem Unfolded.of_mem_parts (h : q ∈ d.parts) : Unfolded order d q :=
  Relation.ReflTransGen.single (.inl h)

theorem Unfolded.of_eq (h : d = q) : Unfolded order d q :=
  h ▸ Relation.ReflTransGen.refl

/-- An expression whose object restrictions, outside their fillers, have numbers in a list and
whose data restrictions have numbers, properties and ranges that are related. -/
inductive Carries (M : List (Comparison × ℕ)) (N : Comparison × ℕ → Iri → DataRangeExpr → Prop) :
    ClassExpr → Prop
  | «class» (c : Iri) : Carries M N (.class c)
  | complement (c : Iri) : Carries M N (.objectComplementOf (.class c))
  | union {operands : List ClassExpr} (h : ∀ d ∈ operands, Carries M N d) :
    Carries M N (.objectUnionOf operands)
  | intersection {operands : List ClassExpr} (h : ∀ d ∈ operands, Carries M N d) :
      Carries M N (.objectIntersectionOf operands)
  | someValues {ope : ObjectPropExpr} {bce : ClassExpr} (h : (.atLeast, 1) ∈ M) :
      Carries M N (.objectSomeValuesFrom ope bce)
  | allValues {ope : ObjectPropExpr} {bce : ClassExpr} : Carries M N (.objectAllValuesFrom ope bce)
  | min {n : ℕ} {ope : ObjectPropExpr} {bce : ClassExpr} (h : (.atLeast, n) ∈ M) :
      Carries M N (.objectMinCardinality n ope bce)
  | max {n : ℕ} {ope : ObjectPropExpr} {bce : ClassExpr} (h : (.atMost, n) ∈ M) :
      Carries M N (.objectMaxCardinality n ope bce)
  | dataSomeValues {dp : Iri} {dr : DataRangeExpr} (h : N (.atLeast, 1) dp dr) :
    Carries M N (.dataSomeValuesFrom dp dr)
  | dataAllValues {dp : Iri} {dr : DataRangeExpr} : Carries M N (.dataAllValuesFrom dp dr)
  | dataMin {n : ℕ} {dp : Iri} {dr : DataRangeExpr} (h : N (.atLeast, n) dp dr) :
    Carries M N (.dataMinCardinality n dp dr)
  | dataMax {n : ℕ} {dp : Iri} {dr : DataRangeExpr} (h : N (.atMost, n) dp dr) :
    Carries M N (.dataMaxCardinality n dp dr)

theorem Carries.parts (h : Carries M N d) (hq : q ∈ d.parts) : Carries M N q := by
  cases h with
  | union h => exact h q hq
  | intersection h => exact h q hq
  | «class» c => rw [mem_singleton.mp hq]; exact .class c
  | complement c => rw [mem_singleton.mp hq]; exact .complement c
  | someValues h => rw [mem_singleton.mp hq]; exact .someValues h
  | allValues => rw [mem_singleton.mp hq]; exact .allValues
  | min h => rw [mem_singleton.mp hq]; exact .min h
  | max h => rw [mem_singleton.mp hq]; exact .max h
  | dataSomeValues h => rw [mem_singleton.mp hq]; exact .dataSomeValues h
  | dataAllValues => rw [mem_singleton.mp hq]; exact .dataAllValues
  | dataMin h => rw [mem_singleton.mp hq]; exact .dataMin h
  | dataMax h => rw [mem_singleton.mp hq]; exact .dataMax h

theorem Carries.cardinality_mem (h : Carries M N d) {b : Comparison × ℕ}
    (hb : d.cardinality = some b) : b ∈ M ∨ ∃ dp dr, N b dp dr := by
  cases h with
  | min h | max h => exact .inl (some.inj hb ▸ h)
  | dataMin h | dataMax h => exact .inr ⟨_, _, some.inj hb ▸ h⟩
  | _ => cases hb

/-- The relation outlives normal forms and simplifications of the range. -/
structure Steady (order : ExpressionOrder) (N : Comparison × ℕ → Iri → DataRangeExpr → Prop) :
    Prop where
  nnf : ∀ {b dp dr}, N b dp dr → N b dp (order.getNnfData dr)
  simplified : ∀ {b dp dr}, N b dp dr → N b dp (order.getSimplifiedData dr)

section steady

variable (hN : Steady order N)

include hN

/-- Negation normal form keeps the numbers. -/
theorem Carries.getNnf {d : ClassExpr} (h : Carries M N d) : Carries M N (order.getNnf d) := by
  have hall (ds : List ClassExpr) (hds : ∀ d ∈ ds, Carries M N (order.getNnf d)) :
      ∀ d ∈ order.canonical (order.getNnfAll ds), Carries M N d := by
    intro d hd
    rw [ExpressionOrder.mem_canonical, ExpressionOrder.getNnfAll_eq_map] at hd
    obtain ⟨e, he, rfl⟩ := List.mem_map.mp hd
    exact hds e he
  induction h with
  | «class» c => exact .class c
  | complement c =>
    simp only [ExpressionOrder.getNnf, ExpressionOrder.getComplementNnf]
    split_ifs
    · exact .class _
    · exact .class _
    · exact .complement c
  | union _ ih => rw [ExpressionOrder.getNnf]; exact .union (hall _ ih)
  | intersection _ ih => rw [ExpressionOrder.getNnf]; exact .intersection (hall _ ih)
  | someValues h => rw [ExpressionOrder.getNnf]; exact .someValues h
  | allValues => rw [ExpressionOrder.getNnf]; exact .allValues
  | min h => rw [ExpressionOrder.getNnf]; exact .min h
  | max h => rw [ExpressionOrder.getNnf]; exact .max h
  | dataSomeValues h => rw [ExpressionOrder.getNnf]; exact .dataSomeValues (hN.nnf h)
  | dataAllValues => rw [ExpressionOrder.getNnf]; exact .dataAllValues
  | dataMin h => rw [ExpressionOrder.getNnf]; exact .dataMin (hN.nnf h)
  | dataMax h => rw [ExpressionOrder.getNnf]; exact .dataMax (hN.nnf h)

omit hN in
theorem Carries.classOr {p : Prop} [Decidable p] {c : Iri} {d : ClassExpr} (h : Carries M N d) :
    Carries M N (if p then .class c else d) := by
  split_ifs
  · exact .class c
  · exact h

/-- Simplification keeps the numbers, or drops them with the restriction. -/
theorem Carries.getSimplified {d : ClassExpr} (h : Carries M N d) :
    Carries M N (order.getSimplified d) := by
  induction h with
  | «class» c => rw [ExpressionOrder.getSimplified]; exact .class c
  | complement c =>
    rw [ExpressionOrder.getSimplified, ExpressionOrder.getSimplified]
    exact .classOr (.classOr (.complement c))
  | union _ ih =>
    rw [ExpressionOrder.getSimplified]
    split
    · exact .class _
    · rename_i disjuncts heq
      exact .union fun d hd => order.forall_mem_simplifyDisjuncts
        (fun _ h _ => h.parts) ih heq d ((order.mem_canonical _ _).mp hd)
  | intersection _ ih =>
    rw [ExpressionOrder.getSimplified]
    split
    · exact .class _
    · rename_i conjuncts heq
      exact .intersection fun d hd => order.forall_mem_simplifyConjuncts
        (fun _ h _ => h.parts) ih heq d ((order.mem_canonical _ _).mp hd)
  | someValues h => rw [ExpressionOrder.getSimplified]; exact .classOr (.someValues h)
  | allValues => rw [ExpressionOrder.getSimplified]; exact .classOr .allValues
  | min h =>
    rw [ExpressionOrder.getSimplified]
    refine .classOr (.classOr ?_)
    split_ifs with hone
    · exact .someValues (hone ▸ h)
    · exact .min h
  | max h =>
    rw [ExpressionOrder.getSimplified]
    refine .classOr ?_
    split_ifs
    · exact .allValues
    · exact .max h
  | dataSomeValues h =>
    rw [ExpressionOrder.getSimplified]
    exact .classOr (.dataSomeValues (hN.simplified h))
  | dataAllValues => rw [ExpressionOrder.getSimplified]; exact .classOr .dataAllValues
  | dataMin h =>
    rw [ExpressionOrder.getSimplified]
    refine .classOr (.classOr ?_)
    split_ifs with hone
    · exact .dataSomeValues (hone ▸ hN.simplified h)
    · exact .dataMin (hN.simplified h)
  | dataMax h =>
    rw [ExpressionOrder.getSimplified]
    refine .classOr ?_
    split_ifs
    · exact .dataAllValues
    · exact .dataMax (hN.simplified h)

theorem Carries.positive {d : ClassExpr} (h : Carries M N d) : Carries M N (order.positive d) :=
  (h.getSimplified hN).getNnf hN

theorem Carries.unfolded {d : ClassExpr} (h : Carries M N d) (hq : Unfolded order d q) :
    Carries M N q := by
  induction hq with
  | refl => exact h
  | tail _ hstep ih =>
    rcases hstep with hstep | hstep
    · exact ih.parts hstep
    · exact (ih.positive hN).parts hstep

end steady

/-! ## The numbers in the head of a clause -/

/-- The number that the clausifier gives to the predicates of a disjunct. -/
def ClassExpr.headNumber : ClassExpr → Option (Comparison × ℤ)
  | .objectSomeValuesFrom _ _ => some (.atLeast, 1)
  | .objectMinCardinality n _ _ => some (.atLeast, asI32 n)
  | .objectMaxCardinality n _ _ => some (.atMost, asI32 n)
  | .dataSomeValuesFrom _ _ => some (.atLeast, 1)
  | .dataMinCardinality n _ _ => some (.atLeast, asI32 n)
  | _ => none

/-- The numbers of a head are one given number at most. -/
def HeadNumber (o : Option (Comparison × ℤ)) (c : AxiomClausifier) : Prop :=
  ∀ h ∈ c.headAtoms, ∀ b, h.dlPredicate.cardinality = some b → o = some b

theorem HeadNumber.of_append {c c' : AxiomClausifier} {hs : List Atom}
    (h : HeadNumber o c) (heq : c'.headAtoms = c.headAtoms ++ hs)
    (hhs : ∀ a ∈ hs, ∀ b, a.dlPredicate.cardinality = some b → o = some b) : HeadNumber o c' := by
  intro a ha
  rw [heq] at ha
  rcases mem_append.mp ha with ha | ha
  · exact h a ha
  · exact hhs a ha

variable {c : AxiomClausifier}

theorem HeadNumber.pushHead (h : HeadNumber o c) {a : Atom}
    (ha : ∀ b, a.dlPredicate.cardinality = some b → o = some b) : HeadNumber o (c.pushHead a) :=
  h.of_append rfl (forall_mem_singleton.mpr ha)

@[simp] theorem cardinality_getRoleAtomObject (ope : ObjectPropExpr) (s t : Term) :
    (getRoleAtomObject ope s t).dlPredicate.cardinality = none := by
  cases ope <;> rfl

theorem HeadNumber.bindNominals {head : Term → Atom}
    (hhead : ∀ t, (head t).dlPredicate.cardinality = none) (individuals : List Individ)
    (facts : List Atom) (h : HeadNumber o c) :
    HeadNumber o (bindNominals head individuals (c, facts)).1 := by
  induction individuals generalizing c facts with
  | nil => exact h
  | cons individual individuals ih =>
    apply ih
    exact h.of_append rfl (forall_mem_singleton.mpr fun b hb => absurd (hhead _ ▸ hb) nofun)

variable {body head : Term → List Atom}

theorem HeadNumber.bindSuccessors
    (hhead : ∀ t, ∀ a ∈ head t, a.dlPredicate.cardinality = none) (count : ℕ)
    (h : HeadNumber o c) : HeadNumber o (bindSuccessors body head count c.ensureYNotZero).2 := by
  have hst : c.ensureYNotZero.headAtoms = c.headAtoms := by
    rw [ensureYNotZero]
    split <;> rfl
  rw [bindSuccessors_eq]
  refine h.of_append (by rw [hst]) fun a ha b hb => ?_
  obtain ⟨y, -, ha⟩ := mem_flatMap.mp ha
  rw [hhead _ a ha] at hb
  cases hb

theorem atMostAtoms_cardinality {bce : ClassExpr}
    (h : atMostAtoms bce = some (body, head)) (t : Term) :
    ∀ a ∈ head t, a.dlPredicate.cardinality = none := by
  unfold atMostAtoms at h
  split at h
  · cases h
    simp
  · cases h
    intro a ha
    split_ifs at ha
    · cases ha
    · rw [mem_singleton.mp ha]
      rfl
  · cases h

theorem negatedRangeAtoms_cardinality (range : LiteralDataRange) (t : Term) :
    ∀ a ∈ (negatedRangeAtoms range).2 t, a.dlPredicate.cardinality = none := by
  unfold negatedRangeAtoms
  split
  · simp
  · intro a ha
    dsimp only at ha
    split_ifs at ha
    · cases ha
    · rw [mem_singleton.mp ha]
      rfl

/-- A predicate for an at-least restriction, if it is not dropped, brings the given number. -/
theorem HeadNumber.of_atLeast {α : Type} {x : Option α} {dropped : α → Bool} {a : α → Atom}
    {facts : List Atom} {r : AxiomClausifier × List Atom} (h : HeadNumber o c)
    (hok : (x.bind fun x => if dropped x then some (c, facts) else some (c.pushHead (a x), facts)) =
      some r) (ha : ∀ x b, (a x).dlPredicate.cardinality = some b → o = some b) :
    HeadNumber o r.1 := by
  obtain ⟨x, -, hok⟩ := bind_eq_some_iff.mp hok
  split_ifs at hok
  · cases hok
    exact h
  · cases hok
    exact h.pushHead (ha x)

theorem HeadNumber.clausify {facts : List Atom}
    {r : AxiomClausifier × List Atom} (h : HeadNumber d.headNumber c)
    (hok : c.clausify converter d facts = some r) : HeadNumber d.headNumber r.1 := by
  unfold AxiomClausifier.clausify at hok
  split at hok
  · cases hok
    exact h.pushHead fun _ hb => by cases hb
  · cases hok
    exact h
  · cases hok
    exact h
  · cases hok
    exact h
  · cases hok
    exact h.bindNominals (fun _ => rfl) _ _
  · cases hok
    exact h.bindNominals (fun _ => cardinality_getRoleAtomObject _ _ _) _ _
  · exact h.of_atLeast hok fun _ _ hb => hb
  · dsimp only at hok
    split at hok
    · split_ifs at hok
      · cases hok
        exact h
      · cases hok
        exact HeadNumber.pushHead h fun _ hb => by cases hb
    · cases hok
      exact HeadNumber.bindNominals (fun _ => rfl) _ _ h
    · split_ifs at hok
      · cases hok
        exact h
      · cases hok
        exact h
    · cases hok
      exact h
    · cases hok
  · cases hok
    refine h.pushHead fun b hb => ?_
    rw [cardinality_getRoleAtomObject] at hb
    cases hb
  · exact h.of_atLeast hok fun _ _ hb => hb
  · simp only [bind_eq_bind, bind_eq_some_iff] at hok
    obtain ⟨⟨body, head⟩, hatoms, toConcept, -, hok⟩ := hok
    cases hok
    refine (h.bindSuccessors (atMostAtoms_cardinality hatoms) _).of_append rfl ?_
    exact List.forall_mem_map.mpr fun p _ b hb => hb
  · split_ifs at hok
    · cases hok
      exact h
    · exact h.of_atLeast hok fun _ _ hb => hb
  · simp only [bind_eq_bind, bind_eq_some_iff] at hok
    obtain ⟨literalRange, -, hok⟩ := hok
    split_ifs at hok
    · cases hok
      exact h
    · cases hok
      refine h.of_append rfl fun a ha b hb => ?_
      rw [negatedRangeAtoms_cardinality _ _ a ha] at hb
      cases hb
  · split_ifs at hok
    · cases hok
      exact h
    · exact h.of_atLeast hok fun _ _ hb => hb
  · simp only [bind_eq_bind, bind_eq_some_iff] at hok
    obtain ⟨literalRange, -, hok⟩ := hok
    cases hok
    refine (h.bindSuccessors (negatedRangeAtoms_cardinality _) _).of_append rfl ?_
    exact List.forall_mem_map.mpr fun _ _ _ hb => by cases hb
  · cases hok

theorem simple_of_getDefinitionFor (order : ExpressionOrder) {s : Normalizer} {e : ClassExpr}
    (hs : ∀ e definition, s.definitions.lookup e = some definition → isSimple definition) :
    isSimple (s.getDefinitionFor order e false).1 = true := by
  have hnew : isSimple (s.introduceDefinition order e false).1 = true := by
    simp only [introduceDefinition]
    split_ifs <;> rfl
  rw [getDefinitionFor]
  cases hlook : s.definitions.lookup e with
  | none => exact hnew
  | some definition => simpa using hs e definition hlook

theorem headNumber_of_isSimple (h : isSimple d = true) : d.headNumber = none := by
  obtain ⟨c, rfl⟩ | ⟨c, rfl⟩ := (isSimple_iff d).mp h
  · rfl
  · rfl

/-- Replacing the filler keeps the number. -/
theorem headNumber_normalizeClassExpression {s s' : Normalizer}
    (hs : ∀ e definition, s.definitions.lookup e = some definition → isSimple definition)
    (hok : s.normalizeClassExpression order q = .ok (d, s')) : d.headNumber = q.headNumber := by
  have hfill (dp : Iri) (dr : DataRangeExpr) (f : DataRangeExpr → ClassExpr)
      (hf : ∀ dr', (f dr').headNumber = (f dr).headNumber)
      (hok : (do
        let r ← s.normalizeFiller order dp dr
        return (f r.1, r.2) : Except Failure (ClassExpr × Normalizer)) =
          .ok (d, s')) : d.headNumber = (f dr).headNumber := by
    cases hres : s.normalizeFiller order dp dr with
    | error e =>
      rw [hres] at hok
      cases hok
    | ok r =>
      rw [hres] at hok
      cases hok
      exact hf _
  cases q with
  | objectIntersectionOf operands =>
    have hsim := simple_of_getDefinitionFor order (e := .objectIntersectionOf operands) hs
    unfold normalizeClassExpression at hok
    generalize s.getDefinitionFor order (.objectIntersectionOf operands) false = r at hok hsim
    obtain ⟨definition, alreadyExists, s₁⟩ := r
    cases alreadyExists <;> cases hok <;> exact headNumber_of_isSimple hsim
  | objectComplementOf operand =>
    cases operand with
    | objectOneOf individuals =>
      simp only [normalizeClassExpression] at hok
      split at hok <;> cases hok <;> rfl
    | _ => cases hok; rfl
  | objectOneOf _ | objectSomeValuesFrom _ _ | objectAllValuesFrom _ _
  | objectMinCardinality _ _ _ | objectMaxCardinality _ _ _ =>
    simp only [normalizeClassExpression] at hok
    split_ifs at hok <;> cases hok <;> rfl
  | dataSomeValuesFrom dp dr => exact hfill dp dr (.dataSomeValuesFrom dp) (fun _ => rfl) hok
  | dataAllValuesFrom dp dr => exact hfill dp dr (.dataAllValuesFrom dp) (fun _ => rfl) hok
  | dataMinCardinality n dp dr => exact hfill dp dr (.dataMinCardinality n dp) (fun _ => rfl) hok
  | dataMaxCardinality n dp dr =>
    simp only [normalizeClassExpression] at hok
    split_ifs at hok
    · cases hok
      rfl
    · generalize s.getDataDefinitionFor (order.getComplementNnfData dr) = r at hok
      obtain ⟨definition, alreadyExists, s₁⟩ := r
      cases alreadyExists <;> cases hok <;> rfl
  | _ => cases hok <;> rfl

theorem Emitted.headNumber {o : Comparison × ℤ} (h : Emitted order converter q o) :
    q.headNumber = some o := by
  obtain ⟨s, d, s', c, c', facts, facts', hs, hnorm, hemp, hclaus, a, ha, hnum⟩ := h
  have hst : HeadNumber d.headNumber c := by
    intro a ha
    rw [hemp] at ha
    cases ha
  rw [← headNumber_normalizeClassExpression hs hnorm]
  exact hst.clausify hclaus a ha _ hnum

theorem asI32_one : asI32 1 = 1 := asI32_of_lt (by decide)

theorem Carries.emitted (h : Carries M N q) {b : Comparison} {z : ℤ}
    (hb : Emitted order converter q (b, z)) :
    ∃ m, ((b, m) ∈ M ∨ b = .atLeast ∧ ∃ dp dr, N (b, m) dp dr) ∧ z = asI32 m := by
  have hnum := hb.headNumber
  cases h with
  | someValues h =>
    cases hnum
    exact ⟨1, .inl h, asI32_one.symm⟩
  | min h | max h =>
    cases hnum
    exact ⟨_, .inl h, rfl⟩
  | dataSomeValues h =>
    cases hnum
    exact ⟨1, .inr ⟨rfl, _, _, h⟩, asI32_one.symm⟩
  | dataMin h =>
    cases hnum
    exact ⟨_, .inr ⟨rfl, _, _, h⟩, rfl⟩
  | _ => cases hnum

/-! ## Numbers in range -/

namespace CardinalityRestriction

variable {r : CardinalityRestriction} {polarity : Bool}

def objectIntended (r : CardinalityRestriction) (polarity : Bool) : List (Comparison × ℕ) :=
  match r with
  | .object _ _ _ _ => r.intended polarity
  | .data _ _ _ _ => []

/-- The numbers of a data restriction, whatever the property and the range are. -/
def dataIntended (r : CardinalityRestriction) (polarity : Bool) (b : Comparison × ℕ) (_ : Iri)
    (_ : DataRangeExpr) : Prop :=
  match r with
  | .object _ _ _ _ => False
  | .data _ _ _ _ => b ∈ r.intended polarity

theorem steady_dataIntended : Steady order (r.dataIntended polarity) := ⟨id, id⟩

variable {b : Comparison × ℕ}

theorem mem_intended_of_mem
    (h : b ∈ r.objectIntended polarity ∨ ∃ dp dr, r.dataIntended polarity b dp dr) :
    b ∈ r.intended polarity := by
  cases r with
  | object kind n ope bce => exact h.resolve_right fun ⟨_, _, h⟩ => h
  | data kind n dp dr =>
    obtain ⟨_, _, hmem⟩ := h.resolve_left not_mem_nil
    exact hmem

theorem InRange.lt_of_mem (hr : r.InRange polarity) {b : Comparison} {m : ℕ}
    (h : (b, m) ∈ r.objectIntended polarity ∨
      b = .atLeast ∧ ∃ dp dr, r.dataIntended polarity (b, m) dp dr) : m < 2 ^ 31 := by
  cases r with
  | object kind n ope bce => exact hr (b, m) (h.resolve_right fun ⟨_, _, _, h⟩ => h)
  | data kind n dp dr =>
    obtain ⟨rfl, _, _, hmem⟩ := h.resolve_left not_mem_nil
    exact hr (.atLeast, m) hmem rfl

theorem carries_complement_class (c : Iri) : Carries M N (order.getComplementNnf (.class c)) := by
  rw [getComplementNnf]
  split_ifs
  · exact .class _
  · exact .class _
  · exact .complement c

theorem succ32_of_lt {n : ℕ} (h : n + 1 < 2 ^ 31) : succ32 n = n + 1 :=
  Nat.mod_eq_of_lt (h.trans (by decide))

/-- The complement of two conjuncts is the union of their complements. -/
theorem carries_complement_pair {d e : ClassExpr} (hd : Carries M N (order.getComplementNnf d))
    (he : Carries M N (order.getComplementNnf e)) :
    Carries M N (order.getComplementNnf (.objectIntersectionOf (order.canonical [d, e]))) := by
  rw [getComplementNnf]
  refine .union fun q hq => ?_
  rw [mem_canonical, getComplementNnfAll_eq_map, List.mem_map] at hq
  obtain ⟨p, hp, rfl⟩ := hq
  simp only [mem_canonical, mem_cons, not_mem_nil, or_false] at hp
  rcases hp with rfl | rfl
  · exact hd
  · exact he

/-- The same for conjuncts in normal form. -/
theorem carries_nnf_pair {d e : ClassExpr} (hd : Carries M N (order.getNnf d))
    (he : Carries M N (order.getNnf e)) :
    Carries M N (order.getNnf (.objectIntersectionOf (order.canonical [d, e]))) := by
  rw [getNnf]
  refine .intersection fun q hq => ?_
  rw [mem_canonical, getNnfAll_eq_map, List.mem_map] at hq
  obtain ⟨p, hp, rfl⟩ := hq
  simp only [mem_canonical, mem_cons, not_mem_nil, or_false] at hp
  rcases hp with rfl | rfl
  · exact hd
  · exact he

theorem carries_object_positive (hN : Steady order N) (kind : CardinalityKind) (n : ℕ)
    (ope : ObjectPropExpr) (bce : ClassExpr) :
    Carries ((object kind n ope bce).intended true) N
    (order.positive (object kind n ope bce).toExpr) := by
  cases kind with
  | min => exact (Carries.min (by simp [intended, CardinalityRestriction.kind, number])).positive hN
  | max => exact (Carries.max (by simp [intended, CardinalityRestriction.kind, number])).positive hN
  | exact =>
    rw [positive, toExpr, getSimplified]
    split_ifs
    · rw [getNnf]
      exact .allValues
    · rw [getNnf]
      exact .class _
    · apply carries_nnf_pair
      · rw [getNnf]
        exact .min (by simp [intended, CardinalityRestriction.kind, number])
      · rw [getNnf]
        exact .max (by simp [intended, CardinalityRestriction.kind, number])

variable {kind : CardinalityKind}

theorem carries_data_positive {n : ℕ} {dp : Iri} {dr : DataRangeExpr}
    (h : ∀ b ∈ (data kind n dp dr).intended true, N b dp (order.positiveDr dr)) :
    Carries M N (order.positive (data kind n dp dr).toExpr) := by
  cases kind with
  | min =>
    rw [positive, toExpr, getSimplified]
    split_ifs with hzero hbot hone
    · exact .class _
    · exact .class _
    · rw [getNnf]
      exact .dataSomeValues (h _ (by simp [intended, CardinalityRestriction.kind, number, hone]))
    · rw [getNnf]
      exact .dataMin (h _ (by simp [intended, CardinalityRestriction.kind, number]))
  | max =>
    rw [positive, toExpr, getSimplified]
    split_ifs
    · exact .class _
    · rw [getNnf]
      exact .dataAllValues
    · rw [getNnf]
      exact .dataMax (h _ (by simp [intended, CardinalityRestriction.kind, number]))
  | exact =>
    rw [positive, toExpr, getSimplified]
    split_ifs
    · rw [getNnf]
      exact .dataAllValues
    · exact .class _
    · apply carries_nnf_pair
      · rw [getNnf]
        exact .dataMin (h _ (by simp [intended, CardinalityRestriction.kind, number]))
      · rw [getNnf]
        exact .dataMax (h _ (by simp [intended, CardinalityRestriction.kind, number]))

theorem carries_object_negative (kind : CardinalityKind) (n : ℕ) (ope : ObjectPropExpr)
    (bce : ClassExpr)
    (hsucc : kind ≠ .min → succ32 n = n + 1) :
    Carries ((object kind n ope bce).intended false) N
    (order.negative (object kind n ope bce).toExpr) := by
  cases kind with
  | min =>
    rw [negative, toExpr, getSimplified]
    split_ifs with hzero
    · exact carries_complement_class _
    · exact carries_complement_class _
    · rw [getComplementNnf]
      exact .allValues
    · rw [getComplementNnf, if_neg hzero]
      exact .max (by simp [intended, CardinalityRestriction.kind, number, hzero])
  | max =>
    rw [negative, toExpr, getSimplified]
    split_ifs with hbot hzero
    · exact carries_complement_class _
    · rw [getComplementNnf]
      exact .someValues (by simp [intended, CardinalityRestriction.kind, number, hzero])
    · rw [getComplementNnf, hsucc (by decide)]
      exact .min (by simp [intended, CardinalityRestriction.kind, number])
  | exact =>
    rw [negative, toExpr, getSimplified]
    split_ifs with hzero
    · rw [getComplementNnf]
      exact .someValues (by simp [intended, CardinalityRestriction.kind, number, hzero])
    · exact carries_complement_class _
    · apply carries_complement_pair
      · rw [getComplementNnf, if_neg hzero]
        exact .max (by simp [intended, CardinalityRestriction.kind, number, hzero])
      · rw [getComplementNnf, hsucc (by decide)]
        exact .min (by simp [intended, CardinalityRestriction.kind, number, hzero])

theorem carries_data_negative {n : ℕ} {dp : Iri} {dr : DataRangeExpr}
    (hsucc : kind ≠ .min → succ32 n = n + 1)
    (h : ∀ b ∈ (data kind n dp dr).intended false, N b dp (order.positiveDr dr)) :
    Carries M N (order.negative (data kind n dp dr).toExpr) := by
  cases kind with
  | min =>
    rw [negative, toExpr, getSimplified]
    split_ifs with hzero
    · exact carries_complement_class _
    · exact carries_complement_class _
    · rw [getComplementNnf]
      exact .dataAllValues
    · rw [getComplementNnf, if_neg hzero]
      exact .dataMax (h _ (by simp [intended, CardinalityRestriction.kind, number, hzero]))
  | max =>
    rw [negative, toExpr, getSimplified]
    split_ifs with hbot hzero
    · exact carries_complement_class _
    · rw [getComplementNnf, getComplementNnfData]
      exact .dataSomeValues (h _ (by simp [intended, CardinalityRestriction.kind, number, hzero]))
    · rw [getComplementNnf, hsucc (by decide)]
      exact .dataMin (h _ (by simp [intended, CardinalityRestriction.kind, number]))
  | exact =>
    rw [negative, toExpr, getSimplified]
    split_ifs with hzero
    · rw [getComplementNnf, getComplementNnfData]
      exact .dataSomeValues (h _ (by simp [intended, CardinalityRestriction.kind, number, hzero]))
    · exact carries_complement_class _
    · apply carries_complement_pair
      · rw [getComplementNnf, if_neg hzero]
        exact .dataMax (h _ (by simp [intended, CardinalityRestriction.kind, number, hzero]))
      · rw [getComplementNnf, hsucc (by decide)]
        exact .dataMin (h _ (by simp [intended, CardinalityRestriction.kind, number, hzero]))

/-- The successor in the complement of an at-most or exact restriction is in range. -/
theorem InRange.succ32_eq (hr : r.InRange false) (hkind : r.kind ≠ .min) :
    succ32 r.number = r.number + 1 := by
  apply succ32_of_lt
  by_cases hzero : r.number = 0
  · rw [hzero]
    decide
  · have hmem : (.atLeast, r.number + 1) ∈ r.intended false := by
      cases hk : r.kind with
      | min => exact absurd hk hkind
      | max => simp [intended, hk]
      | exact => simp [intended, hk, hzero]
    cases r with
    | object kind n ope bce => exact hr _ hmem
    | data kind n dp dr => exact hr _ hmem rfl

theorem InRange.carries (hr : r.InRange polarity) :
    Carries (r.objectIntended polarity) (r.dataIntended polarity)
    (r.normalForm order polarity) := by
  cases polarity with
  | true =>
    cases r with
    | object kind n ope bce => exact carries_object_positive steady_dataIntended kind n ope bce
    | data kind n dp dr => exact carries_data_positive fun _ h => h
  | false =>
    cases r with
    | object kind n ope bce => exact carries_object_negative kind n ope bce hr.succ32_eq
    | data kind n dp dr => exact carries_data_negative hr.succ32_eq fun _ h => h

theorem InRange.preserved (hr : r.InRange polarity) : r.Preserved order converter polarity where
  expressions q hq b hb :=
    mem_intended_of_mem ((hr.carries.unfolded steady_dataIntended hq).cardinality_mem hb)
  predicates q hq b z hz := by
    obtain ⟨m, hm, rfl⟩ := (hr.carries.unfolded steady_dataIntended hq).emitted hz
    exact ⟨m, mem_intended_of_mem (hm.imp_right And.right), asI32_of_lt (hr.lt_of_mem hm)⟩

/-- An at-least restriction does not become the top class, and the expansion takes one for
satisfied only when it has its witnesses. -/
structure NeverTrivial (order : ExpressionOrder) (converter : DataRangeConverter)
    (r : CardinalityRestriction)
    (polarity : Bool) : Prop where
  expressions : ∀ q, Unfolded order (r.normalForm order polarity) q → ∀ k,
    q.cardinality = some (.atLeast, k) →
    isOwlThing (order.positive q) = false
  predicates : ∀ q, Unfolded order (r.normalForm order polarity) q → ∀ z,
    Emitted order converter q (.atLeast, z) →
    ∀ (Node : Type) (view : Tableau.Successors Node),
      Tableau.atLeastSatType view z ≠ .notSatisfied →
      Tableau.HasWitnesses view z.toNat

variable {k : ℕ}

theorem isOwlThing_positive {q : ClassExpr} (hq : q.cardinality = some (.atLeast, k)) (hk : 1 ≤ k) :
    isOwlThing (order.positive q) = false := by
  cases q with
  | objectMinCardinality n ope bce =>
    cases hq
    rw [positive, getSimplified]
    rw [if_neg (by omega)]
    split_ifs
    · rw [getNnf]
      rfl
    · rw [getNnf]
      rfl
    · rw [getNnf]
      rfl
  | dataMinCardinality n dp dr =>
    cases hq
    rw [positive, getSimplified]
    rw [if_neg (by omega)]
    split_ifs
    · rw [getNnf]
      rfl
    · rw [getNnf]
      rfl
    · rw [getNnf]
      rfl
  | _ => cases hq

theorem Preserved.neverTrivial (h : r.Preserved order converter polarity)
    (hpos : ∀ m, (.atLeast, m) ∈ r.intended polarity → 1 ≤ m) :
    r.NeverTrivial order converter polarity where
  expressions q hq k hk := isOwlThing_positive hk (hpos k (h.expressions q hq _ hk))
  predicates q hq z hz Node view hsat := by
    obtain ⟨m, hm, rfl⟩ := h.predicates q hq _ _ hz
    exact Tableau.hasWitnesses_of_satType view (by exact_mod_cast hpos m hm) hsat

/-! ## Numbers out of range -/

/-- No restriction of the data property to the range gives a predicate: the property may not be
restricted or has no values, or the range is not converted or is empty. -/
def Blocked (converter : DataRangeConverter) (dp : Iri) (dr : DataRangeExpr) : Prop :=
  dp = topDataRole ∨ dp = bottomDataRole ∨ isLiteral dr = true ∧
    ∀ range, converter.convertDataRange dr = some range → range.isAlwaysFalse = true

/-- No number reaches a predicate, and no complement takes the successor of the largest number. -/
def Spared (order : ExpressionOrder) (converter : DataRangeConverter) (r : CardinalityRestriction)
    (polarity : Bool) : Prop :=
  match r with
  | object _ _ _ bce => isOwlNothing (order.getSimplified bce) = true
  | data kind n dp dr => isBottomDataRange (order.getSimplifiedData dr) = true ∨
      Blocked converter dp (order.positiveDr dr) ∧
        (polarity = false → kind ≠ .min → succ32 n = n + 1)

theorem isLiteral_fixed {dr : DataRangeExpr} (h : isLiteral dr = true) :
    order.getNnfData dr = dr ∧ order.getSimplifiedData dr = dr := by
  cases dr with
  | dataComplementOf inner =>
    cases inner with
    | datatype _ | dataOneOf _ | datatypeRestriction _ _ =>
      simp [getNnfData, getComplementNnfData, getSimplifiedData]
    | _ => cases h
  | dataIntersectionOf _ | dataUnionOf _ => cases h
  | _ => simp [getNnfData, getSimplifiedData]

theorem Blocked.fixed {dp : Iri} {dr : DataRangeExpr} (h : Blocked converter dp dr) :
    Blocked converter dp (order.getNnfData dr) ∧
      Blocked converter dp (order.getSimplifiedData dr) := by
  rcases h with h | h | ⟨hlit, h⟩
  · exact ⟨.inl h, .inl h⟩
  · exact ⟨.inr (.inl h), .inr (.inl h)⟩
  · obtain ⟨hnnf, hsimplified⟩ := @isLiteral_fixed order _ hlit
    rw [hnnf, hsimplified]
    exact ⟨.inr (.inr ⟨hlit, h⟩), .inr (.inr ⟨hlit, h⟩)⟩

theorem Blocked.clausify {dp : Iri} {dr : DataRangeExpr} (h : Blocked converter dp dr)
    (htop : dp ≠ topDataRole) (hk : k ≠ 0) {c : AxiomClausifier} {facts : List Atom}
    {result : AxiomClausifier × List Atom}
    (hok : c.clausify converter (.dataMinCardinality k dp dr) facts = some result) :
    result.1 = c := by
  rw [AxiomClausifier.clausify] at hok
  split at hok
  · cases hok
    rfl
  · rename_i hbot
    have hprop : dp ≠ bottomDataRole := by
      rintro rfl
      exact hbot (by simp [isBottomDataProperty, hk])
    obtain ⟨-, hrng⟩ := (h.resolve_left htop).resolve_left hprop
    simp only [bind_eq_bind, bind_eq_some_iff] at hok
    obtain ⟨range, hconverted, hok⟩ := hok
    have hfls : (⟨asI32 k, .atomicRole ⟨dp⟩, range⟩ : AtLeastDataRange).isAlwaysFalse = true :=
      hrng range hconverted
    rw [if_pos hfls] at hok
    cases hok
    rfl

/-- A restriction to a literal range is in normal form; a name that replaces another range is not
looked at if the property has no values. -/
theorem Blocked.not_emitted {dp : Iri} {dr : DataRangeExpr} (h : Blocked converter dp dr)
    (hk : k ≠ 0) (b : Comparison × ℤ) :
    ¬ Emitted order converter (.dataMinCardinality k dp dr) b := by
  rintro ⟨s, d, s', c, c', facts, facts', -, hnorm, hemp, hclaus, a, ha, -⟩
  have hkept : ∀ dr', Blocked converter dp dr' → dp ≠ topDataRole →
      d = .dataMinCardinality k dp dr' → False := by
    rintro dr' h' htop rfl
    have heq : c' = c := h'.clausify htop hk hclaus
    rw [heq, hemp] at ha
    cases ha
  simp only [normalizeClassExpression, normalizeFiller] at hnorm
  split_ifs at hnorm with htop hlit
  · cases hnorm
  · cases hnorm
    exact hkept dr h htop rfl
  · cases hnorm
    refine hkept _ (.inr (.inl ?_)) htop rfl
    exact (h.resolve_left htop).resolve_right fun h => hlit h.1

theorem asI32_lt (n : ℕ) : asI32 n < 2 ^ 31 := by
  have h := BitVec.toInt_lt (x := BitVec.ofNat 32 n)
  simpa [asI32] using h

def freshNormalizer : Normalizer := { OwlNormalization.new {} 0, ({} : AxiomState) with }

theorem lookup_freshNormalizer (e definition : ClassExpr)
    (h : freshNormalizer.definitions.lookup e = some definition) :
    isSimple definition := by
  rw [freshNormalizer, OwlNormalization.new] at h
  simp at h

/-- The first definition is a class of a name made up for it, or the complement of one. -/
theorem exists_define (ope : ObjectPropExpr) (f : ClassExpr) :
    ((freshNormalizer.noteObjectProperty ope).define order f).1 = .class (definitionName 0) ∨
    ((freshNormalizer.noteObjectProperty ope).define order f).1 =
      .objectComplementOf (.class (definitionName 0)) := by
  have heq : ((freshNormalizer.noteObjectProperty ope).define order f).1 =
      if !order.plVisit f then .objectComplementOf (.class (definitionName 0))
      else .class (definitionName 0) := rfl
  rw [heq]
  split
  · exact .inr rfl
  · exact .inl rfl

theorem emitted_min {f : ClassExpr}
    (hf : ∀ l, getLiteralConcept f = some l → l.isAlwaysFalse = false) (n : ℕ)
    (ope : ObjectPropExpr) :
    Emitted order converter (.objectMinCardinality n ope f) (.atLeast, asI32 n) := by
  obtain ⟨e, s, l, hnorm, hl, hfls⟩ : ∃ e s l, freshNormalizer.normalizeClassExpression order
      (.objectMinCardinality n ope f) = .ok (.objectMinCardinality n ope e, s) ∧
      getLiteralConcept e = some l ∧ l.isAlwaysFalse = false := by
    simp only [normalizeClassExpression]
    by_cases hsim : isSimple f = true
    · rw [if_pos hsim]
      obtain ⟨c, rfl⟩ | ⟨c, rfl⟩ := (isSimple_iff f).mp hsim
      · exact ⟨_, _, _, rfl, rfl, hf _ rfl⟩
      · exact ⟨_, _, _, rfl, rfl, hf _ rfl⟩
    · rw [if_neg hsim]
      rcases @exists_define order ope f with h | h
      · exact ⟨_, _, .atomicConcept ⟨definitionName 0⟩, rfl, by rw [h]; rfl, by decide⟩
      · exact ⟨_, _, .atomicNegationConcept ⟨definitionName 0⟩, rfl, by rw [h]; decide, by decide⟩
  have hfls' : (⟨asI32 n, getRole ope, l⟩ : AtLeastConcept).isAlwaysFalse = false := hfls
  have hclaus : clausify converter (.objectMinCardinality n ope e) {} [] =
      some (pushHead {} ⟨.atLeastConcept ⟨asI32 n, getRole ope, l⟩, [xTerm], rfl⟩, []) := by
    simp only [clausify, hl, bind_eq_bind, bind_some, hfls']
    rfl
  exact ⟨freshNormalizer, _, s, {}, _, [], _, lookup_freshNormalizer, hnorm, rfl, hclaus,
    _, mem_singleton_self _, rfl⟩

theorem emitted_max (f : ClassExpr) {n : ℕ} (hn : 1 ≤ n) (ope : ObjectPropExpr) :
    Emitted order converter (.objectMaxCardinality n ope f) (.atMost, asI32 n) := by
  obtain ⟨e, s, atoms, l, hnorm, hatoms, hl⟩ : ∃ e s atoms l,
      freshNormalizer.normalizeClassExpression order (.objectMaxCardinality n ope f) =
        .ok (.objectMaxCardinality n ope e, s) ∧ atMostAtoms e = some atoms ∧
      getLiteralConcept e = some l := by
    simp only [normalizeClassExpression]
    by_cases hsim : isSimple f = true
    · rw [if_pos hsim]
      obtain ⟨c, rfl⟩ | ⟨c, rfl⟩ := (isSimple_iff f).mp hsim
      · exact ⟨_, _, _, _, rfl, rfl, rfl⟩
      · exact ⟨_, _, _, _, rfl, rfl, rfl⟩
    · rw [if_neg hsim]
      rcases @exists_define order ope (order.getComplementNnf f) with h | h
      · exact ⟨_, _, _, _, rfl, by rw [h]; rfl, by rw [h]; rfl⟩
      · exact ⟨_, _, _, _, rfl, by rw [h]; rfl, by rw [h]; rfl⟩
  obtain ⟨m, rfl⟩ : ∃ m, n = m + 1 := ⟨n - 1, by omega⟩
  obtain ⟨p, hp⟩ : ∃ p, p ∈ orderedPairs ((List.range' 1 (m + 1 + 1)).map (indexedVariable "Y")) :=
      by
    refine ⟨(indexedVariable "Y" 1, indexedVariable "Y" 2), ?_⟩
    simp only [range'_succ, map_cons, orderedPairs]
    exact mem_append_left _ mem_cons_self
  exact ⟨freshNormalizer, _, s, {}, _, [], _, lookup_freshNormalizer, hnorm, rfl,
    by simp only [clausify, hatoms, hl, bindSuccessors_eq, bind_eq_bind,
      bind_some]; rfl, _, mem_append_right _ (List.mem_map_of_mem hp), rfl⟩

/-- A datatype is converted to a range that is not empty. -/
theorem exists_convertDataRange (converter : DataRangeConverter) (d : Iri) :
    ∃ range, converter.convertDataRange (.datatype d) = some range ∧
      range.isAlwaysFalse = false := by
  rw [DataRangeConverter.convertDataRange]
  split_ifs
  · exact ⟨_, rfl, rfl⟩
  · exact ⟨_, rfl, rfl⟩
  · exact ⟨_, rfl, rfl⟩

theorem emitted_dataMin {dp : Iri} {f : DataRangeExpr} (h : ¬ Blocked converter dp f) (n : ℕ) :
    Emitted order converter (.dataMinCardinality n dp f) (.atLeast, asI32 n) := by
  obtain ⟨htop, hbot, hlit⟩ : dp ≠ topDataRole ∧ dp ≠ bottomDataRole ∧
      (isLiteral f = true → ∃ range, converter.convertDataRange f = some range ∧
        range.isAlwaysFalse = false) := by
    simpa only [Blocked, not_or, not_and, not_forall, exists_prop, Bool.not_eq_true] using h
  obtain ⟨e, s, range, hnorm, hrng, hfls⟩ : ∃ e s range,
      freshNormalizer.normalizeClassExpression order (.dataMinCardinality n dp f) =
        .ok (.dataMinCardinality n dp e, s) ∧ converter.convertDataRange e = some range ∧
      range.isAlwaysFalse = false := by
    simp only [normalizeClassExpression, normalizeFiller, if_neg htop]
    by_cases hf : isLiteral f = true
    · obtain ⟨range, hrng⟩ := hlit hf
      exact ⟨f, _, range, by rw [if_pos hf]; rfl, hrng⟩
    · obtain ⟨range, hrng⟩ := exists_convertDataRange converter (dataDefinitionName 0)
      exact ⟨_, _, range, by rw [if_neg hf]; rfl, hrng⟩
  have hprop : (isBottomDataProperty dp && decide (n ≠ 0)) = false :=
    by simp [isBottomDataProperty, hbot]
  have hfls' : (⟨asI32 n, .atomicRole ⟨dp⟩, range⟩ : AtLeastDataRange).isAlwaysFalse = false := hfls
  have hclaus : clausify converter (.dataMinCardinality n dp e) {} [] =
      some (pushHead {} ⟨.atLeastDataRange ⟨asI32 n, .atomicRole ⟨dp⟩, range⟩,
        [xTerm], rfl⟩, []) := by
    simp only [clausify, hprop, hrng, bind_eq_bind, bind_some, hfls']
    rfl
  exact ⟨freshNormalizer, _, s, {}, _, [], _, lookup_freshNormalizer, hnorm, rfl,
    hclaus, _, mem_singleton_self _, rfl⟩

/-- A number that reaches a predicate unchanged has 31 bits. -/
theorem Preserved.lt_of_emitted (h : r.Preserved order converter polarity) {q : ClassExpr}
    {b : Comparison} {k m : ℕ}
    (hq : Unfolded order (r.normalForm order polarity) q)
    (hemit : Emitted order converter q (b, asI32 k))
    (hunique : ∀ n, (b, n) ∈ r.intended polarity → n = m) : m < 2 ^ 31 := by
  obtain ⟨n, hn, heq⟩ := h.predicates q hq b _ hemit
  obtain rfl := hunique n hn
  have hlt := asI32_lt k
  omega

/-- A complement that simplification leaves: not of the top or the bottom class, and not twice. -/
def isProperComplement : ClassExpr → Bool
  | .objectComplementOf (.class c) => c ≠ owlThing && c ≠ owlNothing
  | .objectComplementOf (.objectComplementOf _) => false
  | _ => true

theorem isProperComplement_getSimplified (order : ExpressionOrder) (ce : ClassExpr) :
    isProperComplement (order.getSimplified ce) = true := by
  induction ce with
  | objectComplementOf operand ih =>
    simp only [getSimplified]
    split_ifs with hth hnone
    · rfl
    · rfl
    · generalize order.getSimplified operand = d at ih hth hnone ⊢
      cases d with
      | «class» c =>
        simp only [isOwlThing, isOwlNothing, decide_eq_true_eq] at hth hnone
        simp [isProperComplement, hth, hnone]
      | objectComplementOf inner =>
        cases inner with
        | objectComplementOf _ => cases ih
        | _ => rfl
      | _ => rfl
  | objectIntersectionOf _ _ | objectUnionOf _ _ =>
    rw [getSimplified]
    split <;> rfl
  | _ =>
    simp only [getSimplified]
    try split_ifs
    all_goals rfl

/-- A filler that does not simplify to the bottom class does not become it. -/
theorem isAlwaysFalse_positive {bce : ClassExpr}
    (h : isOwlNothing (order.getSimplified bce) = false)
    {l : LiteralConcept} (hl : getLiteralConcept (order.positive bce) = some l) :
    l.isAlwaysFalse = false := by
  have hproper := isProperComplement_getSimplified order bce
  have hred := order.isReduced_getSimplified bce
  rw [positive] at hl
  generalize order.getSimplified bce = d at h hl hproper hred
  cases d with
  | «class» c =>
    cases hl
    simpa [isOwlNothing, LiteralConcept.isAlwaysFalse, AtomicConcept.isAlwaysFalse,
      AtomicConcept.nothing] using h
  | objectComplementOf e =>
    cases e with
    | «class» c =>
      obtain ⟨hth, hnone⟩ : c ≠ owlThing ∧ c ≠ owlNothing := by
        simpa [isProperComplement] using hproper
      rw [getNnf, getComplementNnf, if_neg hth, if_neg hnone] at hl
      cases hl
      simp [AtomicConcept.getNegation, AtomicConcept.thing, AtomicConcept.nothing, hth, hnone,
        LiteralConcept.isAlwaysFalse, AtomicConcept.isAlwaysTrue]
    | objectComplementOf _ => cases hproper
    | objectExactCardinality _ _ _ | dataExactCardinality _ _ _ => cases hred
    | objectMinCardinality n _ _ | dataMinCardinality n _ _ =>
      have hn : n ≠ 0 := by
        rintro rfl
        cases hred
      rw [getNnf, getComplementNnf, if_neg hn] at hl
      cases hl
    | _ => cases hl
  | _ => cases hl

section filler

variable {bce : ClassExpr} (hb : isOwlNothing (order.getSimplified bce) = false) {n : ℕ}
  (hn : 2 ≤ n) (ope : ObjectPropExpr)

include hb hn

theorem normalForm_min : (object .min n ope bce).normalForm order true =
    .objectMinCardinality n ope (order.positive bce) := by
  simp only [normalForm, toExpr, positive, getSimplified, hb,
    show n ≠ 0 by omega, show n ≠ 1 by omega, getNnf, if_true, if_false,
    Bool.false_eq_true]

theorem normalForm_max : (object .max n ope bce).normalForm order true =
    .objectMaxCardinality n ope (order.positive bce) := by
  simp only [normalForm, toExpr, positive, getSimplified, hb,
    show n ≠ 0 by omega, getNnf, if_true, if_false, Bool.false_eq_true]

theorem normalForm_complement_min : (object .min n ope bce).normalForm order false =
    .objectMaxCardinality (n - 1) ope (order.positive bce) := by
  simp only [normalForm, toExpr, negative, getSimplified, hb,
    show n ≠ 0 by omega, show n ≠ 1 by omega, getComplementNnf,
    positive, if_false, Bool.false_eq_true]

theorem normalForm_complement_max : (object .max n ope bce).normalForm order false =
    .objectMinCardinality (succ32 n) ope (order.positive bce) := by
  simp only [normalForm, toExpr, negative, getSimplified, hb,
    show n ≠ 0 by omega, getComplementNnf, positive, if_false,
    Bool.false_eq_true]

theorem unfolded_exact : Unfolded order ((object .exact n ope bce).normalForm order true)
    (.objectMinCardinality n ope (order.positive bce)) := by
  apply Unfolded.of_mem_parts
  simp only [normalForm, toExpr, positive, getSimplified, hb,
    show n ≠ 0 by omega, getNnf, if_true, if_false, Bool.false_eq_true,
    parts, mem_canonical, getNnfAll_eq_map, List.mem_map,
    mem_cons, not_mem_nil, or_false, exists_eq_or_imp, exists_eq_left, true_or]

theorem unfolded_complement_exact : Unfolded order
    ((object .exact n ope bce).normalForm order false)
    (.objectMinCardinality (succ32 n) ope (order.positive bce)) := by
  apply Unfolded.of_mem_parts
  simp only [normalForm, toExpr, negative, getSimplified, hb,
    show n ≠ 0 by omega, getComplementNnf, positive, if_false,
    Bool.false_eq_true, parts, mem_canonical,
    getComplementNnfAll_eq_map, List.mem_map, mem_cons, not_mem_nil, or_false,
    exists_eq_or_imp, exists_eq_left, or_true]

end filler

section dataFiller

variable {dr : DataRangeExpr} (hb : isBottomDataRange (order.getSimplifiedData dr) = false) {n : ℕ}
  (hn : 2 ≤ n) (dp : Iri)

include hb hn

theorem normalForm_dataMin : (data .min n dp dr).normalForm order true =
    .dataMinCardinality n dp (order.positiveDr dr) := by
  simp only [normalForm, toExpr, positive, getSimplified, hb,
    show n ≠ 0 by omega, show n ≠ 1 by omega, getNnf, positiveDr,
    if_true, if_false, Bool.false_eq_true]

theorem normalForm_complement_dataMax : (data .max n dp dr).normalForm order false =
    .dataMinCardinality (succ32 n) dp (order.positiveDr dr) := by
  simp only [normalForm, toExpr, negative, getSimplified, hb,
    show n ≠ 0 by omega, getComplementNnf, positiveDr, if_false,
    Bool.false_eq_true]

theorem unfolded_dataExact : Unfolded order ((data .exact n dp dr).normalForm order true)
    (.dataMinCardinality n dp (order.positiveDr dr)) := by
  apply Unfolded.of_mem_parts
  simp only [normalForm, toExpr, positive, getSimplified, hb,
    show n ≠ 0 by omega, getNnf, positiveDr, if_true, if_false,
    Bool.false_eq_true, parts, mem_canonical,
    getNnfAll_eq_map, List.mem_map, mem_cons, not_mem_nil, or_false,
    exists_eq_or_imp, exists_eq_left, true_or]

theorem unfolded_complement_dataExact : Unfolded order
    ((data .exact n dp dr).normalForm order false)
    (.dataMinCardinality (succ32 n) dp (order.positiveDr dr)) := by
  apply Unfolded.of_mem_parts
  simp only [normalForm, toExpr, negative, getSimplified, hb,
    show n ≠ 0 by omega, getComplementNnf, positiveDr, if_false,
    Bool.false_eq_true, parts, mem_canonical,
    getComplementNnfAll_eq_map, List.mem_map, mem_cons, not_mem_nil, or_false,
    exists_eq_or_imp, exists_eq_left, or_true]

end dataFiller

theorem le_of_mem_intended (h : b ∈ r.intended polarity) : b.2 ≤ r.number + 1 := by
  unfold intended at h
  split at h
  all_goals try split_ifs at h
  all_goals simp only [mem_cons, not_mem_nil, or_false] at h
  all_goals rcases h with rfl | rfl
  all_goals simp only
  all_goals omega

theorem inRange_of_small (h : r.number < 2) : r.InRange polarity := by
  have hlt : ∀ b ∈ r.intended polarity, b.2 < 2 ^ 31 := by
    intro b hb
    have hle := le_of_mem_intended hb
    omega
  cases r with
  | object kind n ope bce => exact hlt
  | data kind n dp dr => exact fun b hb _ => hlt b hb

/-- The successor that a complement speaks of is not that of the largest number. -/
theorem Preserved.succ32_eq {n : ℕ} {dp : Iri} {dr : DataRangeExpr}
    (h : (data kind n dp dr).Preserved order converter polarity)
    (hb : isBottomDataRange (order.getSimplifiedData dr) = false) (hn : 2 ≤ n)
    (hpolarity : polarity = false) (hkind : kind ≠ .min) : succ32 n = n + 1 := by
  subst hpolarity
  have hzero : n ≠ 0 := by omega
  cases kind with
  | min => exact absurd rfl hkind
  | max =>
    have hmem := h.expressions _ (.of_eq (normalForm_complement_dataMax hb hn dp)) _ rfl
    simpa [intended, CardinalityRestriction.kind, number] using hmem
  | exact =>
    have hmem := h.expressions _ (unfolded_complement_dataExact hb hn dp) _ rfl
    simpa [intended, CardinalityRestriction.kind, number, hzero] using hmem

theorem Preserved.inRange (h : r.Preserved order converter polarity)
    (hs : ¬ r.Spared order converter polarity) : r.InRange polarity := by
  by_cases hsmall : r.number < 2
  · exact inRange_of_small hsmall
  · cases r with
    | object kind n ope bce =>
      have hb := eq_false_of_ne_true hs
      have hn : 2 ≤ n := not_lt.mp hsmall
      cases kind with
      | min =>
        cases polarity with
        | true =>
          have hlt : n < 2 ^ 31 :=
            h.lt_of_emitted (.of_eq (normalForm_min hb hn ope))
              (emitted_min (fun _ => isAlwaysFalse_positive hb) n ope)
            (by simp [intended, kind, number])
          simpa [InRange, intended, kind, number] using hlt
        | false =>
          have hzero : n ≠ 0 := by omega
          have hlt : n - 1 < 2 ^ 31 :=
            h.lt_of_emitted (.of_eq (normalForm_complement_min hb hn ope))
            (emitted_max _ (n := n - 1) (by omega) ope) (by simp [intended, kind, number, hzero])
          simpa [InRange, intended, kind, number, hzero] using hlt
      | max =>
        cases polarity with
        | true =>
          have hlt : n < 2 ^ 31 := h.lt_of_emitted (.of_eq (normalForm_max hb hn ope))
            (emitted_max _ (n := n) (by omega) ope)
            (by simp [intended, kind, number])
          simpa [InRange, intended, kind, number] using hlt
        | false =>
          have hlt : n + 1 < 2 ^ 31 :=
            h.lt_of_emitted (.of_eq (normalForm_complement_max hb hn ope))
            (emitted_min (fun _ => isAlwaysFalse_positive hb) _ ope)
              (by simp [intended, kind, number])
          simpa [InRange, intended, kind, number] using hlt
      | exact =>
        cases polarity with
        | true =>
          have hlt : n < 2 ^ 31 := h.lt_of_emitted (unfolded_exact hb hn ope)
            (emitted_min (fun _ => isAlwaysFalse_positive hb) n ope)
            (by simp [intended, kind, number])
          simpa [InRange, intended, kind, number] using hlt
        | false =>
          have hzero : n ≠ 0 := by omega
          have hlt : n + 1 < 2 ^ 31 :=
            h.lt_of_emitted (unfolded_complement_exact hb hn ope)
              (emitted_min (fun _ => isAlwaysFalse_positive hb) _ ope)
            (by simp [intended, kind, number, hzero])
          have hlt' : n - 1 < 2 ^ 31 := by omega
          simpa [InRange, intended, kind, number, hzero] using And.intro hlt' hlt
    | data kind n dp dr =>
      have hn : 2 ≤ n := not_lt.mp hsmall
      have hb := eq_false_of_ne_true fun hb => hs (.inl hb)
      have hblkd : ¬ Blocked converter dp (order.positiveDr dr) := fun hblkd =>
        hs (.inr ⟨hblkd, fun hpolarity hkind => h.succ32_eq hb hn hpolarity hkind⟩)
      cases kind with
      | min =>
        cases polarity with
        | true =>
          have hlt : n < 2 ^ 31 := h.lt_of_emitted (.of_eq (normalForm_dataMin hb hn dp))
            (emitted_dataMin hblkd _) (by simp [intended, kind, number])
          simpa [InRange, intended, kind, number] using hlt
        | false =>
          have hzero : n ≠ 0 := by omega
          simp [InRange, intended, kind, number, hzero]
      | max =>
        cases polarity with
        | true => simp [InRange, intended, kind, number]
        | false =>
          have hlt : n + 1 < 2 ^ 31 :=
            h.lt_of_emitted (.of_eq (normalForm_complement_dataMax hb hn dp))
            (emitted_dataMin hblkd _) (by simp [intended, kind, number])
          simpa [InRange, intended, kind, number] using hlt
      | exact =>
        cases polarity with
        | true =>
          have hlt : n < 2 ^ 31 :=
            h.lt_of_emitted (unfolded_dataExact hb hn dp) (emitted_dataMin hblkd _)
            (by simp [intended, kind, number])
          simpa [InRange, intended, kind, number] using hlt
        | false =>
          have hzero : n ≠ 0 := by omega
          have hlt : n + 1 < 2 ^ 31 := h.lt_of_emitted (unfolded_complement_dataExact hb hn dp)
            (emitted_dataMin hblkd _) (by simp [intended, kind, number, hzero])
          simpa [InRange, intended, kind, number, hzero] using hlt

/-- What carries no number to a predicate keeps all numbers. -/
theorem preserved_of_carries (hN : Steady order N) (h : Carries [] N (r.normalForm order polarity))
    (hmem : ∀ b dp dr, N b dp dr → b ∈ r.intended polarity)
    (hone : ∀ dp dr, ¬ N (.atLeast, 1) dp dr)
    (hblkd : ∀ k dp dr b, N (.atLeast, k) dp dr →
      ¬ Emitted order converter (.dataMinCardinality k dp dr) b) :
    r.Preserved order converter polarity where
  expressions q hq b hb := by
    obtain ⟨dp, dr, hb⟩ := ((h.unfolded hN hq).cardinality_mem hb).resolve_left not_mem_nil
    exact hmem b dp dr hb
  predicates q hq b z hz := by
    have hnum := hz.headNumber
    cases h.unfolded hN hq with
    | someValues h | min h | max h => cases h
    | dataSomeValues h => exact absurd h (hone _ _)
    | dataMin h => exact absurd hz (hblkd _ _ _ _ h)
    | _ => cases hnum

/-- A restriction that simplifies to a class has no numbers. -/
theorem preserved_of_class {c : Iri} (h : order.getSimplified r.toExpr = .class c) :
    r.Preserved order converter polarity := by
  refine preserved_of_carries (N := fun _ _ _ => False) ⟨id, id⟩ ?_ (fun _ _ _ h => h.elim)
    (fun _ _ h => h) fun _ _ _ _ h => h.elim
  cases polarity with
  | true =>
    rw [normalForm, if_pos rfl, positive, h, getNnf]
    exact .class c
  | false =>
    rw [normalForm, if_neg Bool.false_ne_true, negative, h]
    exact carries_complement_class c

theorem le_of_atLeast_mem {m : ℕ} (h : (.atLeast, m) ∈ r.intended polarity) (hn : 2 ≤ r.number) :
    2 ≤ m := by
  unfold intended at h
  split at h
  all_goals try split_ifs at h
  all_goals simp only [mem_cons, not_mem_nil, or_false, Prod.mk.injEq, reduceCtorEq, false_and,
    true_and, false_or] at h
  all_goals omega

theorem Spared.preserved (hs : r.Spared order converter polarity) (hn : 2 ≤ r.number) :
    r.Preserved order converter polarity := by
  cases r with
  | object kind n ope bce =>
    have hzero : n ≠ 0 := by
      rintro rfl
      cases hn
    obtain ⟨c, hc⟩ : ∃ c, order.getSimplified (object kind n ope bce).toExpr = .class c := by
      have hb : isOwlNothing (order.getSimplified bce) = true := hs
      cases kind <;> simp [toExpr, getSimplified, hb, hzero]
    exact preserved_of_class hc
  | data kind n dp dr =>
    have hzero : n ≠ 0 := by
      rintro rfl
      cases hn
    rcases hs with hb | ⟨hblkd, hsucc⟩
    · obtain ⟨c, hc⟩ : ∃ c, order.getSimplified (data kind n dp dr).toExpr = .class c := by
        cases kind <;> simp [toExpr, getSimplified, hb, hzero]
      exact preserved_of_class hc
    · refine preserved_of_carries (N := fun b dp dr => b ∈ (data kind n dp dr).intended polarity ∧
        Blocked converter dp dr) ⟨fun h => ⟨h.1, h.2.fixed.1⟩, fun h => ⟨h.1, h.2.fixed.2⟩⟩ ?_
        (fun _ _ _ h => h.1) (fun _ _ h => ?_) fun k _ _ b h => h.2.not_emitted ?_ b
      · cases polarity with
        | true => exact carries_data_positive fun _ hb => ⟨hb, hblkd⟩
        | false => exact carries_data_negative (hsucc rfl) fun _ hb => ⟨hb, hblkd⟩
      · exact absurd (le_of_atLeast_mem h.1 hn) (by decide)
      · have hle := le_of_atLeast_mem h.1 hn
        omega

/-- The numbers of a restriction reach the predicates of the clauses unchanged exactly if those
that are given to a predicate have 31 bits, or none is given to a predicate; then no at-least
restriction is trivially satisfied. -/
theorem preserved_iff_inRange (order : ExpressionOrder) (converter : DataRangeConverter)
    (r : CardinalityRestriction) (polarity : Bool) :
    (r.Preserved order converter polarity ↔
      r.InRange polarity ∨ r.Spared order converter polarity) ∧
      (r.Preserved order converter polarity → (∀ m, (.atLeast, m) ∈ r.intended polarity → 1 ≤ m) →
          r.NeverTrivial order converter polarity) := by
  refine ⟨⟨fun h => ?_, ?_⟩, fun h => h.neverTrivial⟩
  · by_cases hs : r.Spared order converter polarity
    · exact .inr hs
    · exact .inl (h.inRange hs)
  · rintro (hr | hs)
    · exact hr.preserved
    · by_cases hsmall : r.number < 2
      · exact (inRange_of_small hsmall).preserved
      · exact hs.preserved (not_lt.mp hsmall)

/-- An at-least restriction with a number of 32 bits gets a negative one, which needs no witness,
and the complement of an at-most restriction with the largest number needs none either. -/
theorem not_preserved_atLeast :
    ¬ (object .min 2147483648 (.objectProperty "r") (.class "A")).Preserved structuralOrder
    ⟨true, [], fun _ => true, fun _ _ => true⟩ true ∧ asI32 2147483648 = -2147483648 ∧
      Tableau.atLeastSatType (⟨[], fun _ => false, fun _ => false, fun _ _ =>
        false⟩ : Tableau.Successors Unit)
        (asI32 2147483648) = .permanentlySatisfied ∧
      structuralOrder.negative (.objectMaxCardinality 4294967295 (.objectProperty "r")
        (.class "A")) =
        .objectMinCardinality 0 (.objectProperty "r") (.class "A") := by
  refine ⟨fun h => ?_, by decide, by decide, by rfl⟩
  have hr := h.inRange (by simp [Spared, getSimplified, isOwlNothing, owlNothing])
  exact absurd (hr (.atLeast, 2147483648) (by simp [intended, kind, number])) (by decide)

end CardinalityRestriction

end Hermit
