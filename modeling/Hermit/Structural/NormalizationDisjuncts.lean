import Hermit.Structural.NormalizationSteps

/-! # Normalising the disjuncts of an inclusion

A disjunct either stays as it is or has a part replaced by the literal that the state
has for it.  The replacement means the same where definitions are exact, and lies below
the disjunct where the definitions of lighter expressions lie below them.
-/

namespace Hermit

open ExpressionOrder

variable {Dom Val : Type*}

namespace Normalizer

variable (order : ExpressionOrder) {index : ℕ} {input : List Component}
    {extra : List (List ClassExpr)}
  {s s' : Normalizer}

/-! ## Definitions -/

variable {q : Iri → Prop} {result : ClassExpr × Normalizer}

section

variable {d : ClassExpr} (hth : q owlThing) (hnone : q owlNothing) (h : ObjectOver q d)
include hth hnone h

theorem objectOver_negative : ObjectOver q (order.negative d) :=
  objectOver_getComplementNnf order hth hnone (objectOver_getSimplified order hth hnone h)

theorem objectOver_positive : ObjectOver q (order.positive d) :=
  objectOver_getNnf order hth hnone (objectOver_getSimplified order hth hnone h)

end

section

variable {d : ClassExpr} (J : Interp Dom Val) (h : ObjectOver q d) (x : Dom)
include J h x

theorem mem_expr_positive : x ∈ J.expr (order.positive d) ↔ x ∈ J.expr d := by
  have hd : ObjectOver (fun _ => True) d := h.mono fun _ _ => trivial
  rw [positive, order.mem_expr_getNnf J
    (objectOver_getSimplified order trivial trivial hd).isCountable, order.mem_expr_getSimplified]

theorem mem_expr_negative : x ∈ J.expr (order.negative d) ↔ x ∉ J.expr d := by
  have hd : ObjectOver (fun _ => True) d := h.mono fun _ _ => trivial
  rw [negative, order.mem_expr_getComplementNnf J
    (objectOver_getSimplified order trivial trivial hd).isCountable, order.mem_expr_getSimplified]

end

theorem weight_negative_le (d : ClassExpr) : weight (order.negative d) ≤ weight d :=
  (order.weight_getComplementNnf_le _).trans (order.weight_getSimplified_le d)

theorem weight_of_isSimple {d : ClassExpr} (h : isSimple d) : weight d = 1 := by
  obtain ⟨c, rfl⟩ | ⟨c, rfl⟩ := (isSimple_iff d).mp h <;> rfl

/-- A literal over the next fresh name. -/
def IsNextLiteral (s : Normalizer) (definition : ClassExpr) : Prop :=
  definition = .class s.nextDefinition ∨ definition = .objectComplementOf (.class s.nextDefinition)

variable {definition : ClassExpr}

theorem IsNextLiteral.isSimple (h : s.IsNextLiteral definition) : isSimple definition := by
  rcases h with rfl | rfl <;> rfl

theorem IsNextLiteral.objectOver (h : s.IsNextLiteral definition) :
    ObjectOver (fun c => s.Known c ∨ c = s.nextDefinition) definition := by
  rcases h with rfl | rfl <;> exact .inr rfl

theorem getDefinitionFor_cases (s : Normalizer) (description : ClassExpr) :
    (∃ definition, s.definitions.lookup description = some definition ∧
      s.getDefinitionFor order description false = (definition, true, s)) ∨
    (s.definitions.lookup description = none ∧ ∃ definition, s.IsNextLiteral definition ∧
      s.getDefinitionFor order description false = (definition, false,
        { s with definitions := s.definitions.insert description definition })) := by
  cases hlook : s.definitions.lookup description with
  | some definition => exact .inl ⟨definition, rfl, by simp [getDefinitionFor, hlook]⟩
  | none =>
    refine .inr ⟨rfl, (s.introduceDefinition order description false).1, ?_, ?_⟩
    · simp only [introduceDefinition]
      split
      · exact .inr rfl
      · exact .inl rfl
    · simp only [getDefinitionFor, hlook]
      rfl

variable {description : ClassExpr}

/-- A definition of an expression, there before or put below it by the inclusions pushed. -/
theorem Faithful.getDefinitionFor (h : s.Faithful Dom Val index input extra)
    (hdesc : ObjectOver s.Known description) (pushed : ClassExpr → List (List ClassExpr))
    (hpush : ∀ definition, s.IsNextLiteral definition → ∀ e ∈ pushed definition,
      ∃ part, e = [order.negative definition, part] ∧ weight part ≤ weight description ∧
        ObjectOver s.Known part) (hmeans : ∀ definition, s.IsNextLiteral definition →
        ∀ J : Interp Dom Val, (∀ e ∈ pushed definition, J.covers e) ↔
        ∀ x, x ∈ J.expr definition → x ∈ J.expr description)
    (hres : result = match s.getDefinitionFor order description false with
      | (definition, true, s) => (definition, s)
      | (definition, false, s) => (definition, s.pushInclusions (pushed definition))) :
    s.Extends result.2 ∧ result.2.Faithful Dom Val index input extra ∧
      result.2.definitions.lookup description = some result.1 := by
  rcases getDefinitionFor_cases order s description with
    ⟨definition, hlook, heq⟩ | ⟨hnew, definition, hnext, heq⟩
  · rw [heq] at hres
    subst hres
    exact ⟨Extends.refl s, h, hlook⟩
  · rw [heq] at hres
    have hstate : result = (definition, s.introduce description definition (pushed definition)) :=
        by
      rw [hres]
      exact congrArg (definition, ·) (pushInclusions_eq _ _)
    subst hstate
    refine ⟨extends_introduce hnew,
      h.introduce hnew hnext hdesc ?_ ?_ (hmeans definition hnext), ?_⟩
    · intro e he
      obtain ⟨part, rfl, hweight, -⟩ := hpush definition hnext e he
      have hle := weight_negative_le order definition
      rw [weight_of_isSimple hnext.isSimple] at hle
      simp only [totalWeight_cons, totalWeight_nil]
      omega
    · intro e he d hd
      obtain ⟨part, rfl, -, hover⟩ := hpush definition hnext e he
      rcases List.mem_pair.mp hd with rfl | rfl
      · exact objectOver_negative order (.inl s.known_thing) (.inl s.known_nothing) hnext.objectOver
      · exact hover.mono fun _ hc => .inl hc
    · exact (lookup_introduce ..).mpr (.inl ⟨rfl, rfl⟩)

theorem Faithful.define (h : s.Faithful Dom Val index input extra)
    (hdesc : ObjectOver s.Known description) : s.Extends (s.define order description).2 ∧
      (s.define order description).2.Faithful Dom Val index input extra ∧
      (s.define order description).2.definitions.lookup description =
        some (s.define order description).1 := by
  refine h.getDefinitionFor order hdesc
    (fun definition => [[order.negative definition, description]]) ?_ ?_ ?_
  · intro definition _ e he
    exact ⟨description, List.mem_singleton.mp he, le_rfl, hdesc⟩
  · intro definition hnext J
    simp only [List.mem_singleton, forall_eq, Interp.covers_pair]
    refine forall_congr' fun x => ?_
    rw [mem_expr_negative order J hnext.objectOver, or_iff_not_imp_left, not_not]
  · unfold Normalizer.define
    split <;> simp_all [pushInclusions]

theorem Faithful.defineIntersection (h : s.Faithful Dom Val index input extra)
    {operands : List ClassExpr} (hdesc : ObjectOver s.Known (.objectIntersectionOf operands))
    (hres : result = match s.getDefinitionFor order (.objectIntersectionOf operands) false with
      | (definition, true, s) => (definition, s)
      | (definition, false, s) =>
        (definition, s.pushInclusions (operands.map fun d => [order.negative definition, d]))) :
    s.Extends result.2 ∧ result.2.Faithful Dom Val index input extra ∧
      result.2.definitions.lookup (.objectIntersectionOf operands) = some result.1 := by
  refine h.getDefinitionFor order hdesc
    (fun definition => operands.map fun d => [order.negative definition, d]) ?_ ?_ hres
  · intro definition _ e he
    obtain ⟨d, hd, rfl⟩ := List.mem_map.mp he
    have hle := weight_le_totalWeight hd
    refine ⟨d, rfl, ?_, (objectOver_intersection _ operands).mp hdesc d hd⟩
    rw [weight_intersection]
    omega
  · intro definition hnext J
    simp only [List.mem_map, forall_exists_index, and_imp, forall_apply_eq_imp_iff₂,
      Interp.covers_pair, Interp.mem_expr_intersection, mem_expr_negative order J hnext.objectOver]
    constructor
    · intro hall x hx d hd
      exact (hall d hd x).resolve_left (not_not.mpr hx)
    · intro hall d hd x
      by_cases hx : x ∈ J.expr definition
      · exact .inr (hall x hx d hd)
      · exact .inl hx

/-! ## Normalised disjuncts -/

/-- A disjunct and its normal form over the definitions of a state. -/
inductive Normalized (s : Normalizer) : ClassExpr → ClassExpr → Prop
  | unchanged {d : ClassExpr} (h : isNormalDisjunct d) : Normalized s d d
  | intersection {operands : List ClassExpr} {definition : ClassExpr}
      (h : s.definitions.lookup (.objectIntersectionOf operands) = some definition) :
      Normalized s (.objectIntersectionOf operands) definition
  | negatedNominal {individuals : List Individ} {c : Iri}
      (h : s.definitionsForNegativeNominals.lookup (.objectOneOf individuals) = some c) :
      Normalized s (.objectComplementOf (.objectOneOf individuals)) (.objectComplementOf (.class c))
  | someValues {ope : ObjectPropExpr} {bce definition : ClassExpr}
      (h : s.definitions.lookup bce = some definition) :
      Normalized s (.objectSomeValuesFrom ope bce) (.objectSomeValuesFrom ope definition)
  | allValues {ope : ObjectPropExpr} {bce definition : ClassExpr}
      (h : s.definitions.lookup bce = some definition) :
      Normalized s (.objectAllValuesFrom ope bce) (.objectAllValuesFrom ope definition)
  | minCardinality {n : ℕ} {ope : ObjectPropExpr} {bce definition : ClassExpr} (hn : 0 < n)
      (h : s.definitions.lookup bce = some definition) :
      Normalized s (.objectMinCardinality n ope bce) (.objectMinCardinality n ope definition)
  | maxCardinality {n : ℕ} {ope : ObjectPropExpr} {bce definition : ClassExpr}
      (h : s.definitions.lookup (order.getComplementNnf bce) = some definition) :
      Normalized s (.objectMaxCardinality n ope bce)
        (.objectMaxCardinality n ope (order.getComplementNnf definition))

variable {order} {d d' : ClassExpr}

theorem Normalized.mono (h : Normalized order s d d') (hext : s.Extends s') :
    Normalized order s' d d' := by
  cases h with
  | unchanged h => exact .unchanged h
  | intersection h => exact .intersection (hext.definitions _ _ h)
  | negatedNominal h => exact .negatedNominal (hext.nominals _ _ h)
  | someValues h => exact .someValues (hext.definitions _ _ h)
  | allValues h => exact .allValues (hext.definitions _ _ h)
  | minCardinality hn h => exact .minCardinality hn (hext.definitions _ _ h)
  | maxCardinality h => exact .maxCardinality (hext.definitions _ _ h)

theorem isSimple_getComplementNnf (h : isSimple d) : isSimple (order.getComplementNnf d) := by
  obtain ⟨c, rfl⟩ | ⟨c, rfl⟩ := (isSimple_iff d).mp h
  · unfold getComplementNnf
    split_ifs <;> rfl
  · rfl

theorem isNormalDisjunct_of_isSimple (h : isSimple d) : isNormalDisjunct d := by
  obtain ⟨c, rfl⟩ | ⟨c, rfl⟩ := (isSimple_iff d).mp h <;> rfl

theorem Normalized.isNormalDisjunct (h : Normalized order s d d') (hs : s.WellFormed extra) :
    isNormalDisjunct d' := by
  cases h with
  | unchanged h => exact h
  | intersection h => exact isNormalDisjunct_of_isSimple (hs.definitions _ _ h).1
  | negatedNominal h => rfl
  | someValues h | allValues h => simp [Hermit.isNormalDisjunct, (hs.definitions _ _ h).1]
  | minCardinality hn h => simp [Hermit.isNormalDisjunct, hn, (hs.definitions _ _ h).1]
  | maxCardinality h => exact isSimple_getComplementNnf (hs.definitions _ _ h).1

theorem Normalized.objectOver (h : Normalized order s d d') (hs : s.WellFormed extra)
    (hd : ObjectOver s.Known d) : ObjectOver s.Known d' := by
  cases h with
  | unchanged h => exact hd
  | intersection h | someValues h | allValues h => exact (hs.definitions _ _ h).2.1
  | negatedNominal h => exact (hs.nominals _ _ h).1
  | minCardinality hn h => exact ⟨hd.1, (hs.definitions _ _ h).2.1⟩
  | maxCardinality h =>
    exact ⟨hd.1, objectOver_getComplementNnf order s.known_thing s.known_nothing
      (hs.definitions _ _ h).2.1⟩

theorem Normalized.exact {J : Interp Dom Val} (h : Normalized order s d d')
    (hs : s.WellFormed extra) (hd : ObjectOver s.Known d) (hJ : J.Satisfied extra s) (x : Dom) :
    x ∈ J.expr d' ↔ x ∈ J.expr d := by
  cases h with
  | unchanged h => rfl
  | intersection h => exact hJ.definitions _ _ h x
  | negatedNominal h => exact not_congr (hJ.nominals _ _ h x)
  | someValues h | allValues h | minCardinality hn h => simp [hJ.definitions _ _ h]
  | @maxCardinality n ope bce definition h =>
    have hfill : ∀ y, y ∈ J.expr (order.getComplementNnf definition) ↔ y ∈ J.expr bce := by
      intro y
      rw [order.mem_expr_getComplementNnf J (hs.definitions _ _ h).2.1.isCountable,
        hJ.definitions _ _ h, order.mem_expr_getComplementNnf J hd.2.isCountable, not_not]
    simp [hfill]

theorem Normalized.below {J : Interp Dom Val} (h : Normalized order s d d')
    (hs : s.WellFormed extra) (hd : ObjectOver s.Known d) (hfacts : ∀ f ∈ s.axioms.facts, J.fact f)
    {bound : ℕ} (hbd : weight d ≤ bound) (hinter : isIntersection d → weight d + 2 ≤ bound)
    (hdefined : ∀ w, w + 1 < bound → J.DefinedUpTo s w) {x : Dom} (hx : x ∈ J.expr d') :
    x ∈ J.expr d := by
  cases h with
  | unchanged h => exact hx
  | intersection h => exact hdefined _ (hinter rfl) _ _ h le_rfl x hx
  | @negatedNominal individuals c h =>
    rintro ⟨i, hi, rfl⟩
    obtain ⟨-, inds, hinds, hmem⟩ := hs.nominals _ _ h
    cases hinds
    exact hx (hfacts _ (hmem i hi))
  | @someValues ope bce definition h =>
    simp only [weight] at hbd
    obtain ⟨y, hy, hmem⟩ := hx
    exact ⟨y, hy, hdefined (weight bce) (by omega) _ _ h le_rfl y hmem⟩
  | @allValues ope bce definition h =>
    simp only [weight] at hbd
    intro y hy
    exact hdefined (weight bce) (by omega) _ _ h le_rfl y (hx y hy)
  | @minCardinality n ope bce definition hn h =>
    simp only [weight] at hbd
    have hsub : {y | J.role ope x y ∧ y ∈ J.expr definition} ⊆
        {y | J.role ope x y ∧ y ∈ J.expr bce} := by
      rintro y ⟨hy, hmem⟩
      exact ⟨hy, hdefined (weight bce) (by omega) _ _ h le_rfl y hmem⟩
    exact le_trans hx (Set.encard_le_encard hsub)
  | @maxCardinality n ope bce definition h =>
    have hle := order.weight_getComplementNnf_le bce
    simp only [weight] at hbd
    have hsub : {y | J.role ope x y ∧ y ∈ J.expr bce} ⊆
        {y | J.role ope x y ∧ y ∈ J.expr (order.getComplementNnf definition)} := by
      rintro y ⟨hy, hmem⟩
      refine ⟨hy, ?_⟩
      rw [order.mem_expr_getComplementNnf J (hs.definitions _ _ h).2.1.isCountable]
      intro hdef
      have hneg := hdefined (weight (order.getComplementNnf bce)) (by omega) _ _ h le_rfl y hdef
      rw [order.mem_expr_getComplementNnf J hd.2.isCountable] at hneg
      exact hneg hmem
    exact le_trans (Set.encard_le_encard hsub) hx

theorem Faithful.getDefinitionForNegativeNominal (h : s.Faithful Dom Val index input extra)
    (individuals : List Individ)
    (hres : result = match s.getDefinitionForNegativeNominal (.objectOneOf individuals) with
      | (definition, true, s) => (.objectComplementOf (.class definition), s)
      | (definition, false, s) => (.objectComplementOf (.class definition),
          s.addAssertions (.class definition) individuals)) :
    s.Extends result.2 ∧ result.2.Faithful Dom Val index input extra ∧
      Normalized order result.2 (.objectComplementOf (.objectOneOf individuals)) result.1 := by
  cases hlook : s.definitionsForNegativeNominals.lookup (.objectOneOf individuals) with
  | some c =>
    simp only [Normalizer.getDefinitionForNegativeNominal, hlook] at hres
    subst hres
    exact ⟨Extends.refl s, h, .negatedNominal hlook⟩
  | none =>
    have hstate : result = (.objectComplementOf (.class s.nextNegativeNominal),
        s.introduceNominal individuals) := by
      simp only [hres, Normalizer.getDefinitionForNegativeNominal, hlook]
      rw [addAssertions_eq]
      rfl
    subst hstate
    exact ⟨extends_introduceNominal hlook, h.introduceNominal hlook,
      .negatedNominal ((lookup_introduceNominal ..).mpr (.inl ⟨rfl, rfl⟩))⟩

/-- Normalising a disjunct keeps the state faithful and yields a normal form of it. -/
theorem Faithful.normalizeClassExpression (h : s.Faithful Dom Val index input extra)
    (hd : ObjectOver s.Known d) (hred : isReduced d) (hnnf : isNnfHead d)
    (hok : s.normalizeClassExpression order d = .ok (d', s')) :
    s.Extends s' ∧ s'.Faithful Dom Val index input extra ∧ Normalized order s' d d' := by
  cases d with
  | «class» c =>
    cases hok
    exact ⟨Extends.refl s, h, .unchanged rfl⟩
  | objectIntersectionOf operands =>
    have hres : (d', s') =
        match s.getDefinitionFor order (.objectIntersectionOf operands) false with
        | (definition, true, s) => (definition, s)
        | (definition, false, s) =>
          (definition, s.pushInclusions (operands.map fun d => [order.negative definition, d])) :=
            by
      unfold Normalizer.normalizeClassExpression at hok
      generalize s.getDefinitionFor order (.objectIntersectionOf operands) false = r at hok ⊢
      obtain ⟨definition, alreadyExists, s₁⟩ := r
      cases alreadyExists <;> (cases hok; rfl)
    obtain ⟨hext, hfaith, hlook⟩ := h.defineIntersection order hd hres
    exact ⟨hext, hfaith, .intersection hlook⟩
  | objectUnionOf operands => cases hok
  | objectComplementOf operand =>
    cases operand with
    | objectOneOf individuals =>
      have hres : (d', s') =
          match s.getDefinitionForNegativeNominal (.objectOneOf individuals) with
          | (definition, true, s) => (.objectComplementOf (.class definition), s)
          | (definition, false, s) => (.objectComplementOf (.class definition),
              s.addAssertions (.class definition) individuals) := by
        simp only [Normalizer.normalizeClassExpression] at hok
        generalize s.getDefinitionForNegativeNominal (.objectOneOf individuals) = r at hok ⊢
        obtain ⟨definition, alreadyExists, s₁⟩ := r
        cases alreadyExists <;> (cases hok; rfl)
      exact h.getDefinitionForNegativeNominal individuals hres
    | «class» c | objectHasSelf ope =>
      cases hok
      exact ⟨Extends.refl s, h, .unchanged rfl⟩
    | objectHasValue ope i => exact absurd hred (by simp [isReduced])
    | dataHasValue dp l => exact hd.elim
    | _ => exact absurd hnnf (by simp [isNnfHead])
  | objectOneOf individuals =>
    simp only [Normalizer.normalizeClassExpression] at hok
    split_ifs at hok
    cases hok
    exact ⟨Extends.refl s, h, .unchanged rfl⟩
  | objectSomeValuesFrom ope bce =>
    have hnote := h.noteObjectProperty ope
    have hbce : ObjectOver s.Known bce := hd
    simp only [Normalizer.normalizeClassExpression] at hok
    split_ifs at hok with hfill
    · cases hok
      exact ⟨extends_noteObjectProperty s ope, hnote, .unchanged hfill⟩
    · cases hok
      obtain ⟨hext, hfaith, hlook⟩ := hnote.define order hbce
      exact ⟨(extends_noteObjectProperty s ope).trans hext, hfaith, .someValues hlook⟩
  | objectAllValuesFrom ope bce =>
    have hnote := h.noteObjectProperty ope
    have hbce : ObjectOver s.Known bce := hd
    simp only [Normalizer.normalizeClassExpression] at hok
    split_ifs at hok with hfill
    · cases hok
      exact ⟨extends_noteObjectProperty s ope, hnote, .unchanged hfill⟩
    · cases hok
      obtain ⟨hext, hfaith, hlook⟩ := hnote.define order hbce
      exact ⟨(extends_noteObjectProperty s ope).trans hext, hfaith, .allValues hlook⟩
  | objectHasValue ope i => cases hok
  | objectHasSelf ope =>
    cases hok
    exact ⟨extends_noteObjectProperty s ope, h.noteObjectProperty ope, .unchanged rfl⟩
  | objectMinCardinality n ope bce =>
    have hnote := h.noteObjectProperty ope
    have hn : 0 < n := by simpa [isReduced] using hred
    simp only [Normalizer.normalizeClassExpression] at hok
    split_ifs at hok with hfill
    · cases hok
      refine ⟨extends_noteObjectProperty s ope, hnote, .unchanged ?_⟩
      simp [Hermit.isNormalDisjunct, hn, hfill]
    · cases hok
      obtain ⟨hext, hfaith, hlook⟩ := hnote.define order hd.2
      exact ⟨(extends_noteObjectProperty s ope).trans hext, hfaith, .minCardinality hn hlook⟩
  | objectMaxCardinality n ope bce =>
    have hnote := h.noteObjectProperty ope
    simp only [Normalizer.normalizeClassExpression] at hok
    split_ifs at hok with hfill
    · cases hok
      exact ⟨extends_noteObjectProperty s ope, hnote, .unchanged hfill⟩
    · cases hok
      obtain ⟨hext, hfaith, hlook⟩ := hnote.define order
        (objectOver_getComplementNnf order s.known_thing s.known_nothing hd.2)
      exact ⟨(extends_noteObjectProperty s ope).trans hext, hfaith, .maxCardinality hlook⟩
  | objectExactCardinality n ope bce => cases hok
  | _ => exact hd.elim

theorem Faithful.normalizeDisjuncts {ds ds' : List ClassExpr}
    (h : s.Faithful Dom Val index input extra)
    (hd : ∀ d ∈ ds, ObjectOver s.Known d) (hred : ∀ d ∈ ds, isReduced d)
    (hnnf : ∀ d ∈ ds, isNnfHead d) (hok : s.normalizeDisjuncts order ds = .ok (ds', s')) :
    s.Extends s' ∧ s'.Faithful Dom Val index input extra ∧
      List.Forall₂ (Normalized order s') ds ds' := by
  induction ds generalizing s ds' with
  | nil =>
    cases hok
    exact ⟨Extends.refl _, h, .nil⟩
  | cons d ds ih =>
    simp only [Normalizer.normalizeDisjuncts, bind, Except.bind] at hok
    split at hok
    · cases hok
    · next r hr =>
      obtain ⟨d₁, s₁⟩ := r
      obtain ⟨hext, hfaith, hnorm⟩ := h.normalizeClassExpression (hd d (by simp))
        (hred d (by simp)) (hnnf d (by simp)) hr
      split at hok
      · cases hok
      · next r hr₂ =>
        obtain ⟨ds₂, s₂⟩ := r
        cases hok
        obtain ⟨hext₂, hfaith₂, hforall⟩ := ih hfaith
          (fun e he => (hd e (by simp [he])).mono hext.known) (fun e he => hred e (by simp [he]))
          (fun e he => hnnf e (by simp [he])) hr₂
        exact ⟨hext.trans hext₂, hfaith₂, .cons (hnorm.mono hext₂) hforall⟩

end Normalizer

end Hermit
