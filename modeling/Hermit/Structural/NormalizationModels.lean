import Hermit.Library.Numbered
import Hermit.Structural.ExpressionShape
import Hermit.Structural.InclusionNormalization

/-! # Models of a normaliser's state

A definition is exact in the models that are extended from the input, and in a model
of the output it only lies below its expression.  Each introduction of a definition
keeps both readings: the first by a choice for the fresh name, the second because the
inclusions it pushes say so.
-/

namespace Hermit

universe u v

variable {Dom : Type u} {Val : Type v}

/-! ## Truth of inclusions and facts -/

namespace Interp

variable (I : Interp Dom Val)

/-- Every element belongs to one of the disjuncts. -/
def covers (inclusion : List ClassExpr) : Prop := ∀ x, ∃ d ∈ inclusion, x ∈ I.expr d

def fact : Fact → Prop
  | .sameIndividual inds => ∀ a ∈ inds, ∀ b ∈ inds, I.individuals a = I.individuals b
  | .differentIndividuals inds => inds.Pairwise fun a b => I.individuals a ≠ I.individuals b
  | .classAssertion ce i => I.individuals i ∈ I.expr ce
  | .objectPropertyAssertion ope a b => I.role ope (I.individuals a) (I.individuals b)
  | .negativeObjectPropertyAssertion ope a b => ¬ I.role ope (I.individuals a) (I.individuals b)
  | .dataPropertyAssertion dp a l => I.dataProperties dp (I.individuals a) (I.literals l)
  | .negativeDataPropertyAssertion dp a l => ¬ I.dataProperties dp (I.individuals a) (I.literals l)

/-- A model of the concept inclusions and the facts of normalised axioms. -/
structure Emitted (axioms : OwlAxioms) : Prop where
  covers : ∀ inclusion ∈ axioms.conceptInclusions, I.covers inclusion
  facts : ∀ f ∈ axioms.facts, I.fact f

theorem covers_pair {c d : ClassExpr} : I.covers [c, d] ↔ ∀ x, x ∈ I.expr c ∨ x ∈ I.expr d := by
  simp [covers]

end Interp

/-! ## Fresh names -/

/-- The names that a normaliser counting from `index` takes for its definitions. -/
def IsFresh (index : ℕ) (c : Iri) : Prop :=
  (∃ n, c = definitionName (n + index)) ∨ ∃ n, c = negativeNominalName n

theorem definitionName_inj {m n : ℕ} : definitionName m = definitionName n ↔ m = n :=
  append_repr_inj _

theorem negativeNominalName_inj {m n : ℕ} : negativeNominalName m = negativeNominalName n ↔ m = n :=
  append_repr_inj _

theorem definitionName_ne_negativeNominalName (m n : ℕ) :
    definitionName m ≠ negativeNominalName n :=
  append_ne_append_of_take_ne 10 (by decide) (by decide) (by decide) _ _

variable (n : ℕ)

theorem definitionName_ne_thing : definitionName n ≠ owlThing :=
  append_ne_of_take_ne 1 (by decide) (by decide) n.repr

theorem definitionName_ne_nothing : definitionName n ≠ owlNothing :=
  append_ne_of_take_ne 1 (by decide) (by decide) n.repr

theorem negativeNominalName_ne_thing : negativeNominalName n ≠ owlThing :=
  append_ne_of_take_ne 1 (by decide) (by decide) n.repr

theorem negativeNominalName_ne_nothing : negativeNominalName n ≠ owlNothing :=
  append_ne_of_take_ne 1 (by decide) (by decide) n.repr

namespace Normalizer

/-- A name that is not fresh any more. -/
def Known (s : Normalizer) (c : Iri) : Prop :=
  (∀ n, c = definitionName (n + s.firstReplacementIndex) → n < s.definitions.entries.length) ∧
    ∀ n, c = negativeNominalName n → n < s.definitionsForNegativeNominals.entries.length

variable (s : Normalizer)

variable {s} in
theorem known_of_not_isFresh {index : ℕ} (hidx : s.firstReplacementIndex = index) {c : Iri}
    (h : ¬ IsFresh index c) : s.Known c :=
  ⟨fun n hn => (h (.inl ⟨n, hidx ▸ hn⟩)).elim, fun n hn => (h (.inr ⟨n, hn⟩)).elim⟩

theorem known_thing : s.Known owlThing :=
  ⟨fun _ hn => (definitionName_ne_thing _ hn.symm).elim,
    fun n hn => (negativeNominalName_ne_thing n hn.symm).elim⟩

theorem known_nothing : s.Known owlNothing :=
  ⟨fun _ hn => (definitionName_ne_nothing _ hn.symm).elim,
    fun n hn => (negativeNominalName_ne_nothing n hn.symm).elim⟩

/-- The name that the next definition takes. -/
def nextDefinition : Iri := definitionName (s.definitions.entries.length + s.firstReplacementIndex)

def nextNegativeNominal : Iri :=
  negativeNominalName s.definitionsForNegativeNominals.entries.length

theorem not_known_nextDefinition : ¬ s.Known s.nextDefinition :=
  fun h => lt_irrefl _ (h.1 _ rfl)

theorem not_known_nextNegativeNominal : ¬ s.Known s.nextNegativeNominal :=
  fun h => lt_irrefl _ (h.2 _ rfl)

end Normalizer

namespace Interp

/-- Read one class name as a given set. -/
def withClass (I : Interp Dom Val) (c : Iri) (S : Set Dom) (hth : c ≠ owlThing)
    (hnone : c ≠ owlNothing) : Interp Dom Val :=
  I.withClasses (Function.update I.classes c S)
    (by rw [Function.update_of_ne hth.symm, I.classes_thing])
    (by rw [Function.update_of_ne hnone.symm, I.classes_nothing])

theorem agreeOn_withClass (I : Interp Dom Val) {c : Iri} (S : Set Dom) (hth : c ≠ owlThing)
    (hnone : c ≠ owlNothing) {q : Iri → Prop} (hc : ¬ q c) :
    I.AgreeOn (I.withClass c S hth hnone) q := by
  refine ⟨fun d hd => ?_, rfl⟩
  have hne : d ≠ c := fun h => hc (h ▸ hd)
  simp [withClass, Function.update_of_ne hne]

@[simp] theorem classes_withClass (I : Interp Dom Val) (c : Iri) (S : Set Dom)
    (hth : c ≠ owlThing) (hnone : c ≠ owlNothing) :
    (I.withClass c S hth hnone).classes c = S := by
  simp [withClass]

end Interp

namespace Interp

variable (J : Interp Dom Val)

/-- A model of everything a state holds, in which each definition is exact.  The inclusions in
`extra` are taken off the stack and not yet treated. -/
structure Satisfied (extra : List (List ClassExpr)) (s : Normalizer) : Prop where
  emitted : J.Emitted s.axioms
  pending : ∀ e, e ∈ extra ∨ e ∈ s.classExpressionInclusions → J.covers e
  definitions : ∀ description definition, s.definitions.lookup description = some definition →
    ∀ x, x ∈ J.expr definition ↔ x ∈ J.expr description
  nominals : ∀ nominal c, s.definitionsForNegativeNominals.lookup nominal = some c →
    ∀ x, x ∈ J.classes c ↔ x ∈ J.expr nominal

/-- The definitions of expressions up to a weight lie below them. -/
def DefinedUpTo (s : Normalizer) (w : ℕ) : Prop :=
  ∀ description definition, s.definitions.lookup description = some definition →
    weight description ≤ w → ∀ x, x ∈ J.expr definition → x ∈ J.expr description

end Interp

namespace Normalizer

/-- What the state speaks about: object class expressions over the known names. -/
structure WellFormed (extra : List (List ClassExpr)) (s : Normalizer) : Prop where
  pending : ∀ e, e ∈ extra ∨ e ∈ s.classExpressionInclusions → ∀ d ∈ e, ObjectOver s.Known d
  concepts : ∀ e ∈ s.axioms.conceptInclusions, ∀ d ∈ e, ObjectOver s.Known d
  normal : ∀ e ∈ s.axioms.conceptInclusions, ∀ d ∈ e, isNormalDisjunct d
  facts : ∀ f ∈ s.axioms.facts, ∃ ce i, f = .classAssertion ce i ∧ ObjectOver s.Known ce
  definitions : ∀ description definition, s.definitions.lookup description = some definition →
    isSimple definition ∧ ObjectOver s.Known definition ∧ ObjectOver s.Known description
  nominals : ∀ nominal c, s.definitionsForNegativeNominals.lookup nominal = some c →
    s.Known c ∧ ∃ individuals, nominal = .objectOneOf individuals ∧
      ∀ i ∈ individuals, .classAssertion (.class c) i ∈ s.axioms.facts
  noData : s.dataRangeInclusions = []
  noRules : s.rules = []

/-- The state stands for the axioms visited so far. -/
structure Faithful (Dom : Type u) (Val : Type v) (index : ℕ) (input : List Component)
    (extra : List (List ClassExpr)) (s : Normalizer) : Prop where
  index_eq : s.firstReplacementIndex = index
  wellFormed : s.WellFormed extra
  /-- A model of the axioms becomes one of the state by a choice for the fresh names. -/
  complete : ∀ I : Interp Dom Val, I.isModel input →
    ∃ J, I.AgreeOn J (fun c => ¬ IsFresh index c) ∧ J.Satisfied extra s
  /-- The definitions of light expressions follow from the light pending inclusions. -/
  grounded : ∀ (J : Interp Dom Val) (w : ℕ), J.Emitted s.axioms →
    (∀ e, e ∈ extra ∨ e ∈ s.classExpressionInclusions → totalWeight e ≤ w + 1 → J.covers e) →
      J.DefinedUpTo s w
  sound : ∀ J : Interp Dom Val, J.Emitted s.axioms →
    (∀ e, e ∈ extra ∨ e ∈ s.classExpressionInclusions → J.covers e) →
      (∀ w, J.DefinedUpTo s w) → J.isModel input

end Normalizer

section agree

variable {I J : Interp Dom Val} {q : Iri → Prop}

theorem Interp.AgreeOn.covers (h : I.AgreeOn J q) {e : List ClassExpr}
    (he : ∀ d ∈ e, ObjectOver q d) : I.covers e ↔ J.covers e :=
  forall_congr' fun x => exists_congr fun d => and_congr_right fun hd => h.mem_expr (he d hd) x

theorem Interp.Satisfied.transfer {extra : List (List ClassExpr)} {s : Normalizer}
    (hI : I.Satisfied extra s) (hs : s.WellFormed extra) (h : I.AgreeOn J s.Known) :
    J.Satisfied extra s where
  emitted := by
    refine ⟨fun e he => (h.covers (hs.concepts e he)).mp (hI.emitted.covers e he), fun f hf => ?_⟩
    have htrue := hI.emitted.facts f hf
    obtain ⟨ce, i, rfl, hce⟩ := hs.facts f hf
    simp only [Interp.fact, ← h.individuals] at htrue ⊢
    exact (h.mem_expr hce _).mp htrue
  pending e he := (h.covers (hs.pending e he)).mp (hI.pending e he)
  definitions d e hd x := by
    obtain ⟨-, he, hd'⟩ := hs.definitions d e hd
    rw [← h.mem_expr he, ← h.mem_expr hd']
    exact hI.definitions d e hd x
  nominals nominal c hc x := by
    obtain ⟨hknown, individuals, rfl, -⟩ := hs.nominals nominal c hc
    have hnom : ObjectOver s.Known (.objectOneOf individuals) := trivial
    rw [← h.mem_expr hnom, ← h.classes c hknown]
    exact hI.nominals _ c hc x

end agree

end Hermit
