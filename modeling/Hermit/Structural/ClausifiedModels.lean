import Hermit.Structural.ClauseEquivalence
import Hermit.Structural.NormalizationConservative
import Hermit.Structural.OntologyClausification

/-! # From axioms to clauses

Normalisation followed by clausification keeps the models of an ontology, up to the meaning
of the fresh names.
-/

namespace Hermit

variable {Dom Val : Type*} {I : ClauseInterp Dom Val} {converter : DataRangeConverter}

theorem not_isFresh_nominalConcept (index : ℕ) (i : Individ) :
    ¬ IsFresh index (nominalConcept i).iri := by
  rintro (⟨n, h⟩ | ⟨n, h⟩) <;> cases i <;>
    simpa [nominalConcept, definitionName, negativeNominalName] using
      congrArg (fun s : String => s.toList.take 12) h

/-- The clause vocabulary keeps its meaning when only fresh names change theirs. -/
theorem ClauseInterp.Agrees.of_agreeOn (hI : I.Agrees converter) {J : Interp Dom Val} {index : ℕ}
    (h : I.AgreeOn J fun c => ¬ IsFresh index c) : { I with toInterp := J }.Agrees converter := by
  constructor
  case nominal =>
    intro i
    rw [← h.classes _ (not_isFresh_nominalConcept index i), hI.nominal, h.individuals]
  all_goals
    rw [h.eq_withClasses]
  · exact hI.individual
  · exact hI.constant
  · exact hI.facet

end Hermit
