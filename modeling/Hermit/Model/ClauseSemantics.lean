import Hermit.Model.Clause
import Hermit.Owl.Semantics

/-! # Truth of DL clauses

The variables of a clause range over the domain elements and the data values alike.
A role name is the name of an object property or of a data property, never of both,
and its relation is the one the interpretation gives it as such.  The comparison atoms
are read in some linear order.  A description graph holds of tuples over its vertices.
-/

namespace Hermit

universe u v

/-- An interpretation together with a meaning for what only clauses have. -/
structure ClauseInterp (Dom : Type u) (Val : Type v) extends Interp Dom Val where
  isDataRole : Iri → Prop
  individual : Individual → Dom
  constant : Constant → Val
  facet : Iri → Constant → Set Val
  order : LinearOrder (Dom ⊕ Val)
  descriptionGraph : DescriptionGraph → List (Dom ⊕ Val) → Prop

namespace ClauseInterp

variable {Dom : Type u} {Val : Type v} (I : ClauseInterp Dom Val)

def atomicRole (r : AtomicRole) : Dom ⊕ Val → Dom ⊕ Val → Prop
  | .inl x, .inl y => ¬ I.isDataRole r.iri ∧ I.objectProperties r.iri x y
  | .inl x, .inr d => I.isDataRole r.iri ∧ I.dataProperties r.iri x d
  | .inr _, _ => False

def objectRole : Role → Dom → Dom → Prop
  | .atomicRole r, x, y => I.objectProperties r.iri x y
  | .inverseRole r, x, y => I.objectProperties r.iri y x

def dataRole : Role → Dom → Val → Prop
  | .atomicRole r, x, d => I.dataProperties r.iri x d
  | .inverseRole _, _, _ => False

def literalConcept : LiteralConcept → Set Dom
  | .atomicConcept c => I.classes c.iri
  | .atomicNegationConcept c => (I.classes c.iri)ᶜ

def atomicDataRange : AtomicDataRange → Set Val
  | .datatypeRestriction r =>
    {v | v ∈ I.datatypes r.datatypeUri ∧ ∀ p ∈ r.facetUris.zip r.facetValues, v ∈ I.facet p.1 p.2}
  | .constantEnumeration r => {v | ∃ c ∈ r.constants, v = I.constant c}
  | .internalDatatype r => I.datatypes r.iri

def literalDataRange : LiteralDataRange → Set Val
  | .atomic r => I.atomicDataRange r
  | .atomicNegationDataRange r => (I.atomicDataRange r)ᶜ

/-- The truth of a predicate of elements and data values. -/
def holds : DLPredicate → List (Dom ⊕ Val) → Prop
  | .atomicConcept c, [.inl x] => x ∈ I.classes c.iri
  | .atomicRole r, [s, t] => I.atomicRole r s t
  | .atLeastConcept p, [.inl x] =>
    (p.number.toNat : ℕ∞) ≤
      Set.encard {y | I.objectRole p.onRole x y ∧ y ∈ I.literalConcept p.toConcept}
  | .atLeastDataRange p, [.inl x] =>
    (p.number.toNat : ℕ∞) ≤
      Set.encard {d | I.dataRole p.onRole x d ∧ d ∈ I.literalDataRange p.toDataRange}
  | .equality, [s, t] => s = t
  | .inequality, [s, t] => s ≠ t
  | .annotatedEquality _, [s, t, _] => s = t
  | .nodeIdLessEqualThan, [s, t] => I.order.le s t
  | .nodeIDsAscendingOrEqual _, ts => ts.IsChain I.order.lt ∨ ts.IsChain Eq
  | .dataRange r, [.inr d] => d ∈ I.literalDataRange r
  | .descriptionGraph g, ts => I.descriptionGraph g ts
  | .existsDescriptionGraph p, [.inl x] =>
    ∃ ts, I.descriptionGraph p.descriptionGraph ts ∧
      ∃ vertex : ℕ, (vertex : ℤ) = p.vertex ∧ ts[vertex]? = some (.inl x)
  | _, _ => False

def term (σ : Variable → Dom ⊕ Val) : Term → Dom ⊕ Val
  | .variable v => σ v
  | .individual i => .inl (I.individual i)
  | .constant c => .inr (I.constant c)

def atom (σ : Variable → Dom ⊕ Val) (a : Atom) : Prop :=
  I.holds a.dlPredicate (a.arguments.map (I.term σ))

/-- A body that is not satisfied or a head of which some atom is. -/
def implies (body head : List Atom) (σ : Variable → Dom ⊕ Val) : Prop :=
  (∀ b ∈ body, I.atom σ b) → ∃ h ∈ head, I.atom σ h

/-- The truth of a clause, all its variables quantified universally. -/
def clause (c : DLClause) : Prop := ∀ σ, I.implies c.bodyAtoms c.headAtoms σ

/-- The truth of a ground atom. -/
def fact (a : Atom) : Prop := ∀ σ, I.atom σ a

theorem atom_congr {σ τ : Variable → Dom ⊕ Val} {a : Atom} (h : ∀ v ∈ a.variables, σ v = τ v) :
    I.atom σ a ↔ I.atom τ a := by
  have hterm : a.arguments.map (I.term σ) = a.arguments.map (I.term τ) := by
    apply List.map_congr_left
    intro t ht
    cases t with
    | «variable» v => exact h v (List.mem_filterMap.mpr ⟨_, ht, rfl⟩)
    | individual i => rfl
    | constant c => rfl
  unfold atom
  rw [hterm]

theorem dependsOn_implies {body head : List Atom} {V : Set Variable}
    (hbody : ∀ b ∈ body, ∀ v ∈ b.variables, v ∈ V) (hhead : ∀ h ∈ head, ∀ v ∈ h.variables, v ∈ V) :
    DependsOn (I.implies body head) V := by
  intro σ τ h
  have hb : ∀ b ∈ body, (I.atom σ b ↔ I.atom τ b) :=
    fun b hb => I.atom_congr fun v hv => h v (hbody b hb v hv)
  have hh : ∀ a ∈ head, (I.atom σ a ↔ I.atom τ a) :=
    fun a ha => I.atom_congr fun v hv => h v (hhead a ha v hv)
  ext
  unfold implies
  rw [forall₂_congr hb]
  simp only [← exists_prop]
  rw [exists₂_congr hh]

theorem implies_append (body body' head head' : List Atom) (σ : Variable → Dom ⊕ Val) :
    I.implies (body ++ body') (head ++ head') σ ↔
      I.implies body head σ ∨ I.implies body' head' σ := by
  simp only [implies, List.mem_append, or_imp, forall_and, or_and_right, exists_or]
  generalize (∀ b ∈ body, I.atom σ b) = p, (∀ b ∈ body', I.atom σ b) = q
  by_cases hp : p <;> by_cases hq : q <;> simp [hp, hq]

theorem implies_append_body (body body' head : List Atom) (σ : Variable → Dom ⊕ Val) :
    I.implies (body ++ body') head σ ↔ ((∀ b ∈ body, I.atom σ b) → I.implies body' head σ) := by
  simp only [implies, List.mem_append, or_imp, forall_and]
  tauto

end ClauseInterp

end Hermit
