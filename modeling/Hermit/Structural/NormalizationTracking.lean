import Hermit.Structural.NormalizationWork

/-! # Tracking the inclusions that are pushed as they stand

Almost every inclusion is pushed in negation normal form and so breaks down.  The
operands of a disjoint union and the classes of head atoms are pushed as they stand.
The axiom visitor is followed step by step: all that waits breaks down, or something
is stuck that does not.
-/

namespace Hermit

open Library List

/-! ## The inclusions pushed as they stand -/

def bodyClasses (body : List SwrlAtom) : List ClassExpr :=
  body.filterMap fun
    | .classAtom pred _ => some pred
    | _ => none

/-- The rules with a body, split into one for each head atom, in the order of normalisation. -/
def ruleSteps (ontology : List Component) : List (List SwrlAtom × SwrlAtom) :=
  ontology.flatMap fun
    | .rule body head => if body.isEmpty then [] else head.map (body, ·)
    | _ => []

namespace ExpressionOrder

variable (order : ExpressionOrder)

/-- The class of a rule atom that a definition stands for. -/
def needsDefinition (pred : ClassExpr) : Bool := !isClass (order.getSimplified (order.getNnf pred))

/-- The class of a head atom breaks down, or got its definition from a body atom before. -/
def headBreaksDown (seen : List ClassExpr) : SwrlAtom → Bool
  | .classAtom pred _ => !order.needsDefinition pred || pred ∈ seen || order.breaksDown [pred]
  | _ => true

def stepsBreakDown (seen : List ClassExpr) : List (List SwrlAtom × SwrlAtom) → Bool
  | [] => true
  | (body, head) :: steps =>
    order.headBreaksDown seen head && stepsBreakDown (seen ++ bodyClasses body) steps

def factBreaksDown : SwrlAtom → Bool
  | .classAtom pred _ => isSimple pred || order.breaksDown [pred]
  | _ => true

def componentBreaksDown : Component → Bool
  | .disjointUnion owlClass operands =>
    order.breaksDown (order.canonical (operands ++ [order.getComplementNnf (.class owlClass)]))
  | .rule body head => !body.isEmpty || head.all order.factBreaksDown
  | _ => true

/-- Every inclusion that is pushed as it stands breaks down. -/
def ontologyBreaksDown (ontology : List Component) : Bool :=
  ontology.all order.componentBreaksDown && order.stepsBreakDown [] (ruleSteps ontology)

end ExpressionOrder

namespace Normalizer

/-! ## Tracking what is pushed -/

/-- All that waits breaks down, and so does whatever has a definition, the classes seen in
bodies apart. -/
structure Tracked (order : ExpressionOrder) (seen : List ClassExpr) (s : Normalizer) : Prop where
  classes : ∀ e ∈ s.classExpressionInclusions, order.breaksDown e
  ranges : ∀ e ∈ s.dataRangeInclusions, ∀ d ∈ e, isNnfData d
  keys : ∀ k v, s.definitions.lookup k = some v → order.breaksDown [k] ∨ k ∈ seen
  seen : ∀ k ∈ seen, order.needsDefinition k → ∃ c, s.definitions.lookup k = some (.class c)

/-- An inclusion waits that does not break down. -/
structure Stuck (order : ExpressionOrder) (s : Normalizer) : Prop where
  classes : ∃ e ∈ s.classExpressionInclusions, ¬ order.breaksDown e
  ranges : ∀ e ∈ s.dataRangeInclusions, ∀ d ∈ e, isNnfData d

/-- A step from one state to another, tracked as long as it is `fine`. -/
structure Steps (order : ExpressionOrder) (seen seen' : List ClassExpr) (fine : Prop)
    (s s' : Normalizer) : Prop where
  rules : s'.rules = s.rules
  tracked : s.Tracked order seen → fine → s'.Tracked order seen'
  stuck : s.Tracked order seen → ¬ fine → s'.Stuck order
  stays : s.Stuck order → s'.Stuck order

variable {order : ExpressionOrder} {seen seen' seen'' : List ClassExpr} {p q : Prop}
  {s s' s'' : Normalizer}

namespace Steps

theorem trans (h : Steps order seen seen' p s s') (h' : Steps order seen' seen'' q s' s'') :
    Steps order seen seen'' (p ∧ q) s s'' where
  rules := h'.rules.trans h.rules
  tracked ht hpq := h'.tracked (h.tracked ht hpq.1) hpq.2
  stuck ht hpq := by
    by_cases hp : p
    · exact h'.stuck (h.tracked ht hp) fun hq => hpq ⟨hp, hq⟩
    · exact h'.stays (h.stuck ht hp)
  stays hs := h'.stays (h.stays hs)

theorem andThen (h : Steps order seen seen' True s s') (h' : Steps order seen' seen'' q s' s'') :
    Steps order seen seen'' q s s'' := by
  have htrans := h.trans h'
  rwa [true_and] at htrans

theorem andThen_of_eq (h : Steps order seen seen' p s s')
    (hcls : s''.classExpressionInclusions = s'.classExpressionInclusions)
    (hrng : s''.dataRangeInclusions = s'.dataRangeInclusions)
    (hdefs : s''.definitions = s'.definitions) (hrules : s''.rules = s'.rules) :
    Steps order seen seen' p s s'' where
  rules := hrules.trans h.rules
  tracked ht hp := ⟨hcls ▸ (h.tracked ht hp).classes, hrng ▸ (h.tracked ht hp).ranges,
    hdefs ▸ (h.tracked ht hp).keys, hdefs ▸ (h.tracked ht hp).seen⟩
  stuck ht hp := ⟨hcls ▸ (h.stuck ht hp).classes, hrng ▸ (h.stuck ht hp).ranges⟩
  stays hs := ⟨hcls ▸ (h.stays hs).classes, hrng ▸ (h.stays hs).ranges⟩

theorem congr (h : Steps order seen seen' p s s') (hpq : p ↔ q) :
    Steps order seen seen' q s s' := by
  rwa [← propext hpq]

/-- A step that touches neither work list nor definition. -/
theorem of_eq (hcls : s'.classExpressionInclusions = s.classExpressionInclusions)
    (hrng : s'.dataRangeInclusions = s.dataRangeInclusions)
    (hdefs : s'.definitions = s.definitions) (hrules : s'.rules = s.rules) :
    Steps order seen seen True s s' where
  rules := hrules
  tracked ht _ := ⟨hcls ▸ ht.classes, hrng ▸ ht.ranges, hdefs ▸ ht.keys, hdefs ▸ ht.seen⟩
  stuck _ h := absurd trivial h
  stays hs := ⟨hcls ▸ hs.classes, hrng ▸ hs.ranges⟩

theorem refl : Steps order seen seen True s s := of_eq rfl rfl rfl rfl

theorem pushInclusions (es : List (List ClassExpr)) :
    Steps order seen seen (∀ e ∈ es, order.breaksDown e) s (s.pushInclusions es) := by
  rw [pushInclusions_eq]
  refine ⟨rfl, ?_, ?_, ?_⟩
  · intro ht hfine
    refine ⟨fun e he => ?_, ht.ranges, ht.keys, ht.seen⟩
    rw [mem_pending_record] at he
    rcases he with he | he
    · exact hfine e he
    · exact ht.classes e he
  · intro ht hfine
    push Not at hfine
    obtain ⟨e, he, hbad⟩ := hfine
    exact ⟨⟨e, by simp [he], hbad⟩, ht.ranges⟩
  · intro hs
    obtain ⟨e, he, hbad⟩ := hs.classes
    exact ⟨⟨e, by simp [he], hbad⟩, hs.ranges⟩

theorem pushInclusion (e : List ClassExpr) :
    Steps order seen seen (order.breaksDown e) s (s.pushInclusion e) :=
  (pushInclusions [e]).congr (by simp)

theorem pushDataRangeInclusion {e : List DataRangeExpr} (he : ∀ d ∈ e, isNnfData d) :
    Steps order seen seen True s (s.pushDataRangeInclusion e) := by
  have hrng : (∀ e ∈ s.dataRangeInclusions, ∀ d ∈ e, isNnfData d) →
      ∀ e' ∈ (s.pushDataRangeInclusion e).dataRangeInclusions, ∀ d ∈ e', isNnfData d := by
    intro h e' he'
    rcases mem_cons.mp he' with rfl | he'
    · exact he
    · exact h e' he'
  exact ⟨rfl, fun ht _ => ⟨ht.classes, hrng ht.ranges, ht.keys, ht.seen⟩,
    fun _ h => absurd trivial h, fun hs => ⟨hs.classes, hrng hs.ranges⟩⟩

theorem pushInclusion_nnf {e : List ClassExpr} (he : ∀ d ∈ e, isNnf d) :
    Steps order seen seen True s (s.pushInclusion e) :=
  (pushInclusion e).congr (iff_true_intro (order.breaksDown_of_isNnf he))

theorem pushInclusions_nnf {es : List (List ClassExpr)} (hes : ∀ e ∈ es, ∀ d ∈ e, isNnf d) :
    Steps order seen seen True s (s.pushInclusions es) :=
  (pushInclusions es).congr (iff_true_intro fun e he => order.breaksDown_of_isNnf (hes e he))

theorem foldl {α : Type*} (f : Normalizer → α → Normalizer)
    (hf : ∀ s a, Steps order seen seen True s (f s a)) (as : List α) (s : Normalizer) :
    Steps order seen seen True s (as.foldl f s) := by
  induction as generalizing s with
  | nil => exact refl
  | cons a as ih => exact (hf s a).andThen (ih (f s a))

end Steps

/-! ## Definitions -/

theorem getSimplified_complement_definition (order : ExpressionOrder) (n : ℕ) :
    order.getSimplified (.objectComplementOf (.class (definitionName n))) =
      .objectComplementOf (.class (definitionName n)) := by
  simp [ExpressionOrder.getSimplified, isOwlThing, isOwlNothing, definitionName_ne_thing,
    definitionName_ne_nothing]

/-- The literals that stand for an expression under the definition of the given number. -/
def IsDefinition (n : ℕ) (definition : ClassExpr) : Prop :=
  definition = .class (definitionName n) ∨
    definition = .objectComplementOf (.class (definitionName n))

theorem isDefinition_negative (order : ExpressionOrder) {definition : ClassExpr} {n : ℕ}
    (h : IsDefinition n definition) :
    IsDefinition n (order.negative definition) := by
  rcases h with rfl | rfl
  · refine .inr ?_
    simp [ExpressionOrder.negative, ExpressionOrder.getSimplified,
      ExpressionOrder.getComplementNnf, definitionName_ne_thing, definitionName_ne_nothing]
  · refine .inl ?_
    rw [ExpressionOrder.negative, getSimplified_complement_definition]
    rfl

theorem isDefinition_introduceDefinition (order : ExpressionOrder) (s : Normalizer)
    (description : ClassExpr) (force : Bool) :
    ∃ n, IsDefinition n (s.introduceDefinition order description force).1 := by
  refine ⟨s.definitions.entries.length + s.firstReplacementIndex, ?_⟩
  unfold introduceDefinition
  dsimp only
  split_ifs
  · exact .inr rfl
  · exact .inl rfl

theorem breaksDown_definition {definition d : ClassExpr} {n : ℕ} (h : IsDefinition n definition) :
    order.breaksDown [order.negative definition, d] ↔ order.breaksDown [d] := by
  rcases isDefinition_negative order h with hneg | hneg
  · rw [hneg]
    exact order.breaksDown_cons_of_isSimple rfl
      (by simp [ExpressionOrder.getSimplified, isOwlThing, definitionName_ne_thing])
  · rw [hneg]
    exact order.breaksDown_cons_of_isSimple rfl
      (by simp [getSimplified_complement_definition, isOwlThing])

/-- Introducing a definition and pushing one inclusion for it. -/
theorem Steps.introduceDefinition {description : ClassExpr} {force : Bool} {e : List ClassExpr}
    (hkey : p → order.breaksDown [description] ∨ description ∈ seen')
    (hseen : ∀ k ∈ seen, k ∈ seen') (hseen' : ∀ k ∈ seen', k ∈ seen ∨ k = description)
    (hforce : description ∈ seen' → force = true) (he : p ↔ order.breaksDown e) :
    Steps order seen seen' p s
    ((s.introduceDefinition order description force).2.pushInclusion e) := by
  refine ⟨rfl, ?_, ?_, ?_⟩
  · intro ht hp
    refine ⟨?_, ht.ranges, ?_, ?_⟩
    · intro e' he'
      rcases mem_cons.mp he' with rfl | he'
      · exact he.mp hp
      · exact ht.classes e' he'
    · intro k v hk
      by_cases hkd : k = description
      · rw [hkd]
        exact hkey hp
      · have hk' : s.definitions.lookup k = some v := by
          rw [← AList.lookup_insert_ne hkd]
          exact hk
        exact (ht.keys k v hk').imp id (hseen k)
    · intro k hk hneeds
      by_cases hkd : k = description
      · subst hkd
        refine ⟨definitionName (s.definitions.entries.length + s.firstReplacementIndex), ?_⟩
        simp [Normalizer.introduceDefinition, Normalizer.pushInclusion, hforce hk]
      · obtain ⟨c, hc⟩ := ht.seen k ((hseen' k hk).resolve_right hkd) hneeds
        exact ⟨c, (AList.lookup_insert_ne hkd).trans hc⟩
  · intro ht hp
    exact ⟨⟨e, mem_cons_self, fun hb => hp (he.mpr hb)⟩, ht.ranges⟩
  · intro hs
    obtain ⟨e', he', hbad⟩ := hs.classes
    exact ⟨⟨e', mem_cons_of_mem _ he', hbad⟩, hs.ranges⟩

theorem steps_define (description : ClassExpr) :
    Steps order [] [] (order.breaksDown [description]) s (s.define order description).2 := by
  obtain ⟨n, hn⟩ := isDefinition_introduceDefinition order s description false
  cases hlook : s.definitions.lookup description with
  | some definition =>
    have hdef : s.define order description = (definition, s) := by
      simp [define, getDefinitionFor, hlook]
    rw [hdef]
    have hbrk : s.Tracked order [] → order.breaksDown [description] :=
      fun ht => (ht.keys description definition hlook).resolve_right (by simp)
    exact ⟨rfl, fun ht _ => ht, fun ht hbad => absurd (hbrk ht) hbad, id⟩
  | none =>
    have hdef : (s.define order description).2 =
        (s.introduceDefinition order description false).2.pushInclusion
          [order.negative (s.introduceDefinition order description false).1, description] := by
      simp [define, getDefinitionFor, hlook]
    rw [hdef]
    exact .introduceDefinition .inl (by simp) (by simp) (by simp) (breaksDown_definition hn).symm

/-! ## The axiom visitor -/

theorem ends_iargNamed (arg : IArgument) :
    Ends Failure.IsReported (fun _ => True) (iargNamed arg) := by
  cases arg with
  | «variable» v => exact trivial
  | individual i => cases i <;> exact trivial

theorem steps_ruleToFact (s : Normalizer) (atom : SwrlAtom) :
    Ends Failure.IsReported (Steps order [] [] (order.factBreaksDown atom) s)
      (s.ruleToFact order atom) := by
  have htrue : ∀ {t : Normalizer}, Steps order [] [] True s t →
      order.factBreaksDown atom = true → Steps order [] [] (order.factBreaksDown atom) s t :=
    fun h hfine => h.congr (by simp [hfine])
  cases atom with
  | builtInAtom pred args => exact trivial
  | classAtom pred arg =>
    apply (ends_iargNamed arg).bind
    intro ind _
    split_ifs with hsim
    · exact htrue (.of_eq rfl rfl rfl rfl) (by simp [ExpressionOrder.factBreaksDown, hsim])
    · have hstep : Steps order [] [] (order.breaksDown [pred] ∧ True) s
          ((s.define order pred).2.addFact (.classAssertion (s.define order pred).1 ind)) :=
        (steps_define pred).trans (.of_eq rfl rfl rfl rfl)
      exact hstep.congr (by simp [ExpressionOrder.factBreaksDown, hsim])
  | dataPropertyAtom pred subject value =>
    cases value with
    | «variable» v => exact trivial
    | literal l =>
      apply (ends_iargNamed subject).bind
      intro ind _
      exact htrue (.of_eq rfl rfl rfl rfl) rfl
  | dataRangeAtom pred arg =>
    cases arg with
    | «variable» v => exact trivial
    | literal l =>
      have hdefine : ∀ (t : Normalizer) (dp : Iri), Steps order [] [] True t
          (t.define order (.dataSomeValuesFrom dp (.dataOneOf [l]))).2 := fun t dp =>
        (steps_define _).congr
          (iff_true_intro (order.breaksDown_of_isNnf (by simp [isNnf, isNnfData])))
      have hpush : ∀ (t : Normalizer) (dp : Iri), Steps order [] [] True t
          (t.pushInclusion [.dataAllValuesFrom dp pred]) := fun t dp =>
        (Steps.pushInclusion _).congr (iff_true_intro (order.breaksDown_dataAllValuesFrom dp pred))
      let t := s.freshRuleIndividual.2.freshRuleDataProperty.2
      let dp := s.freshRuleIndividual.2.freshRuleDataProperty.1
      let defined := t.define order (.dataSomeValuesFrom dp (.dataOneOf [l]))
      have hfresh : Steps order [] [] True s t := .of_eq rfl rfl rfl rfl
      have hfact : Steps order [] [] True defined.2
          (defined.2.addFact (.classAssertion defined.1 s.freshRuleIndividual.1)) :=
        .of_eq rfl rfl rfl rfl
      exact htrue (((hfresh.andThen (hdefine t dp)).andThen hfact).andThen (hpush _ dp)) rfl
  | differentIndividualsAtom first second | sameIndividualAtom first second =>
    apply (ends_iargNamed first).bind
    intro i _
    apply (ends_iargNamed second).bind
    intro j _
    exact htrue (.of_eq rfl rfl rfl rfl) rfl
  | objectPropertyAtom pred first second =>
    apply (ends_iargNamed first).bind
    intro i _
    apply (ends_iargNamed second).bind
    intro j _
    cases pred with
    | objectProperty p | inverseObjectProperty p => exact htrue (.of_eq rfl rfl rfl rfl) rfl

theorem steps_visitSubObjectPropertyOf (s : Normalizer) (sup : ObjectPropExpr)
    (sub : SubObjectPropertyExpr) :
    Ends Failure.IsReported (Steps order [] [] True s) (s.visitSubObjectPropertyOf sup sub) := by
  cases sub with
  | objectPropertyExpression ope =>
    simp only [visitSubObjectPropertyOf]
    split_ifs
    · exact Steps.of_eq rfl rfl rfl rfl
    · exact Steps.of_eq rfl rfl rfl rfl
  | objectPropertyChain chain =>
    have hnote : ∀ t, Steps order [] [] True t
        ((chain.foldl noteObjectProperty t).noteObjectProperty sup) := by
      intro t
      have hfold : Steps order [] [] True t (chain.foldl noteObjectProperty t) :=
        Steps.foldl noteObjectProperty (fun _ _ => .of_eq rfl rfl rfl rfl) chain t
      exact hfold.andThen (.of_eq rfl rfl rfl rfl)
    have hadd : ∀ t : Normalizer, Steps order [] [] True s t →
        Ends Failure.IsReported (Steps order [] [] True s)
          (.ok ((chain.foldl noteObjectProperty t).noteObjectProperty sup)) :=
      fun t ht => ht.andThen (hnote t)
    simp only [visitSubObjectPropertyOf]
    split_ifs
    · split
      · exact trivial
      · exact hadd _ (.of_eq rfl rfl rfl rfl)
      · split_ifs
        · exact hadd _ (.of_eq rfl rfl rfl rfl)
        · exact hadd _ (.of_eq rfl rfl rfl rfl)
      · exact hadd _ (.of_eq rfl rfl rfl rfl)
    · exact hadd s .refl

theorem steps_visitClassAssertion (s : Normalizer) (individual : Individ) (ce : ClassExpr) :
    Steps order [] [] True s (s.visitClassAssertion order individual ce) := by
  unfold visitClassAssertion
  split
  · exact .of_eq rfl rfl rfl rfl
  · exact .of_eq rfl rfl rfl rfl
  · dsimp only
    split_ifs
    · exact .of_eq rfl rfl rfl rfl
    · have hdefine : Steps order [] [] True s (s.define order (order.positive ce)).2 :=
        (steps_define _).congr (iff_true_intro (order.breaksDown_of_isNnf (by simp)))
      exact hdefine.andThen (.of_eq rfl rfl rfl rfl)

theorem ends_checkTopDataPropertyUse (dp : Iri) :
    Ends Failure.IsReported (fun _ => True) (checkTopDataPropertyUse dp) := by
  unfold checkTopDataPropertyUse
  split_ifs <;> exact trivial

theorem ends_checkTopDataPropertyUses (dps : List Iri) :
    Ends Failure.IsReported (fun _ => True) (checkTopDataPropertyUses dps) := by
  induction dps with
  | nil => exact trivial
  | cons dp dps ih =>
    apply (ends_checkTopDataPropertyUse dp).bind
    intro _ _
    exact ih

theorem steps_visitHasKey (s : Normalizer) (ce : ClassExpr) (vpe : List PropExpr) :
    Ends Failure.IsReported (Steps order [] [] True s) (s.visitHasKey order ce vpe) := by
  apply (ends_checkTopDataPropertyUses _).bind
  intro _ _
  have hnote {f : Normalizer → PropExpr → Normalizer}
      (hobj : ∀ t ope, f t (.objectPropertyExpression ope) = t.noteObjectProperty ope)
      (hdata : ∀ t dp, f t (.dataProperty dp) = t)
        (hoth : ∀ t ap, f t (.annotationProperty ap) = t)
      (t : Normalizer) : Steps order [] [] True t (vpe.foldl f t) := by
    refine Steps.foldl f (fun t pe => ?_) vpe t
    cases pe with
    | objectPropertyExpression ope =>
      rw [hobj]
      exact .of_eq rfl rfl rfl rfl
    | dataProperty dp =>
      rw [hdata]
      exact .refl
    | annotationProperty ap =>
      rw [hoth]
      exact .refl
  split_ifs
  · have hkey : Steps order [] [] True s { s with axioms := { s.axioms with
        hasKeys := s.axioms.hasKeys ++ [⟨order.positive ce, vpe⟩] } } := .of_eq rfl rfl rfl rfl
    exact hkey.andThen (hnote (fun _ _ => rfl) (fun _ _ => rfl) (fun _ _ => rfl) _)
  · have hdefine : Steps order [] [] True s (s.define order (order.negative ce)).2 :=
      (steps_define _).congr (iff_true_intro (order.breaksDown_of_isNnf (by simp)))
    let t := (s.define order (order.negative ce)).2
    have hkey : Steps order [] [] True t { t with axioms := { t.axioms with
        hasKeys := t.axioms.hasKeys ++
          [⟨order.negative (s.define order (order.negative ce)).1, vpe⟩] } } :=
            .of_eq rfl rfl rfl rfl
    exact (hdefine.andThen hkey).andThen
      (hnote (fun _ _ => rfl) (fun _ _ => rfl) (fun _ _ => rfl) _)

theorem steps_ruleToFacts (head : List SwrlAtom) (s : Normalizer) :
    Ends Failure.IsReported (Steps order [] [] (head.all order.factBreaksDown) s)
      (head.foldlM (fun s atom => s.ruleToFact order atom) s) := by
  induction head generalizing s with
  | nil => exact Steps.refl.congr (by simp)
  | cons atom head ih =>
    rw [foldlM_cons]
    apply (steps_ruleToFact s atom).bind
    intro t ht
    refine (ih t).imp fun t' ht' => ?_
    exact (ht.trans ht').congr (by simp)

/-- A step of the visitor; the rules it lets wait are given. -/
structure Visits (order : ExpressionOrder) (fine : Prop)
    (waiting : List (List SwrlAtom × List SwrlAtom)) (s s' : Normalizer) : Prop where
  rules : s'.rules = s.rules ++ waiting
  steps : Steps order [] [] fine s { s' with rules := s.rules }

theorem Steps.visits (h : Steps order [] [] p s s') : Visits order p [] s s' where
  rules := by simp [h.rules]
  steps := ⟨rfl, fun ht hp => ⟨(h.tracked ht hp).classes, (h.tracked ht hp).ranges,
    (h.tracked ht hp).keys, (h.tracked ht hp).seen⟩,
    fun ht hp => ⟨(h.stuck ht hp).classes, (h.stuck ht hp).ranges⟩,
    fun hs => ⟨(h.stays hs).classes, (h.stays hs).ranges⟩⟩

theorem Visits.trans {waiting waiting' : List (List SwrlAtom × List SwrlAtom)}
    (h : Visits order p waiting s s') (h' : Visits order q waiting' s' s'') :
    Visits order (p ∧ q) (waiting ++ waiting') s s'' where
  rules := by simp [h'.rules, h.rules]
  steps := by
    have hmid : Steps order [] [] q ({ s' with rules := s.rules } : Normalizer)
        { s'' with rules := s.rules } := by
      refine ⟨rfl, fun ht hq => ?_, fun ht hq => ?_, fun hs => ?_⟩
      · have htrack := h'.steps.tracked ⟨ht.classes, ht.ranges, ht.keys, ht.seen⟩ hq
        exact ⟨htrack.classes, htrack.ranges, htrack.keys, htrack.seen⟩
      · have hstuck := h'.steps.stuck ⟨ht.classes, ht.ranges, ht.keys, ht.seen⟩ hq
        exact ⟨hstuck.classes, hstuck.ranges⟩
      · have hstuck := h'.steps.stays ⟨hs.classes, hs.ranges⟩
        exact ⟨hstuck.classes, hstuck.ranges⟩
    exact h.steps.trans hmid

/-- The rule of a component that waits for normalisation. -/
def waitingRules : Component → List (List SwrlAtom × List SwrlAtom)
  | .rule body head => if body.isEmpty then [] else [(body, head)]
  | _ => []

theorem visits_visitRule (s : Normalizer) (body head : List SwrlAtom) :
    Ends Failure.IsReported (Visits order (order.componentBreaksDown (.rule body head))
      (waitingRules (.rule body head)) s) (s.visitRule order body head) := by
  apply (ends_checkTopDataPropertyUses _).bind
  intro _ _
  cases body with
  | nil =>
    simp only [isEmpty_nil, if_true]
    refine (steps_ruleToFacts head _).imp fun t ht => ?_
    have hst : Steps order [] [] True s ({ s with
        hasRules := true
        freshRuleIndividuals := 0
        freshRuleDataProperties := 0 } : Normalizer) := .of_eq rfl rfl rfl rfl
    exact ((hst.andThen ht).congr (by simp [ExpressionOrder.componentBreaksDown])).visits
  | cons atom body =>
    have hpush : Steps order [] [] True s ({ s with hasRules := true } : Normalizer) :=
      .of_eq rfl rfl rfl rfl
    exact ⟨rfl, hpush.congr (by simp [ExpressionOrder.componentBreaksDown])⟩

theorem isNnf_equivalenceCycle (order : ExpressionOrder) (operands : List ClassExpr) :
    ∀ e ∈ equivalenceCycle order operands, ∀ d ∈ e, isNnf d := by
  unfold equivalenceCycle
  split
  · simp
  · simp
  · intro e he d hd
    rcases mem_append.mp he with he | he
    · obtain ⟨w, -, rfl⟩ := mem_map.mp he
      simp only [mem_cons, not_mem_nil, or_false] at hd
      rcases hd with rfl | rfl <;> simp
    · rw [mem_singleton.mp he] at hd
      simp only [mem_cons, not_mem_nil, or_false] at hd
      rcases hd with rfl | rfl <;> simp

theorem isNnf_disjointnessInclusions (order : ExpressionOrder) (operands : List ClassExpr) :
    ∀ e ∈ disjointnessInclusions order operands, ∀ d ∈ e, isNnf d := by
  intro e he d hd
  obtain ⟨w, hw, rfl⟩ := mem_map.mp he
  obtain ⟨h1, h2⟩ := mem_of_mem_laterPairs hw
  obtain ⟨a, -, ha⟩ := mem_map.mp h1
  obtain ⟨b, -, hb⟩ := mem_map.mp h2
  simp only [mem_cons, not_mem_nil, or_false] at hd
  rcases hd with rfl | rfl
  · simp [← ha]
  · simp [← hb]

theorem visits_disjointUnion (s : Normalizer) (owlClass : Iri) (operands : List ClassExpr) :
    Ends Failure.IsReported (Visits order (order.componentBreaksDown
      (.disjointUnion owlClass operands)) [] s)
      (s.visitAxiom order (.disjointUnion owlClass operands)) := by
  have hunion : Steps order [] [] _ s (s.pushInclusion
      (order.canonical (operands ++ [order.getComplementNnf (.class owlClass)]))) :=
    .pushInclusion _
  have hblw : ∀ t : Normalizer, Steps order [] [] True t
      (t.pushInclusions (operands.map fun d => [order.negative d, .class owlClass])) :=
    fun t => .pushInclusions_nnf (by simp [isNnf])
  exact (((hunion.trans (hblw _)).trans
    (.pushInclusions_nnf (isNnf_disjointnessInclusions order _))).congr
      (by simp [ExpressionOrder.componentBreaksDown])).visits

theorem steps_equivalentObjectProperties (s : Normalizer) (operands : List ObjectPropExpr) :
    Ends Failure.IsReported (Steps order [] [] True s)
      (s.visitAxiom order (.equivalentObjectProperties operands)) := by
  have hadd : Steps order [] [] True s _ := Steps.foldl
    (fun s (w : ObjectPropExpr × ObjectPropExpr) => s.addObjectInclusion w.1 w.2)
    (fun _ _ => .of_eq rfl rfl rfl rfl) (propertyCycle (sortDedup labelLE operands)) s
  exact hadd.andThen (Steps.foldl noteObjectProperty (fun _ _ => .of_eq rfl rfl rfl rfl)
    (sortDedup labelLE operands) _)

theorem steps_datatypeDefinition (s : Normalizer) (kind : Iri) (range : DataRangeExpr) :
    Ends Failure.IsReported (Steps order [] [] True s)
      (s.visitAxiom order (.datatypeDefinition kind range)) := by
  have hkind : Steps order [] [] True s { s with axioms := { s.axioms with
      definedDatatypeIris := insertSet s.axioms.definedDatatypeIris kind } } :=
    .of_eq rfl rfl rfl rfl
  have hpush : ∀ t : Normalizer, Steps order [] [] True t (t.pushDataRangeInclusion
      [order.negativeDr (.datatype kind), order.positiveDr range]) :=
    fun t => .pushDataRangeInclusion (by simp)
  exact (hkind.andThen (hpush _)).andThen (.pushDataRangeInclusion (by simp))

theorem visits_visitAxiom (s : Normalizer) (c : Component) :
    Ends Failure.IsReported (Visits order (order.componentBreaksDown c) (waitingRules c) s)
      (s.visitAxiom order c) := by
  have htrue : ∀ {t : Normalizer}, Steps order [] [] True s t → order.componentBreaksDown c = true →
      Visits order (order.componentBreaksDown c) [] s t :=
    fun h hfine => (h.congr (by simp [hfine])).visits
  cases c with
  | nonLogical kind => exact htrue .refl rfl
  | subClassOf sub sup => exact htrue (.pushInclusion_nnf (by simp)) rfl
  | equivalentClasses operands =>
    exact htrue (.pushInclusions_nnf (isNnf_equivalenceCycle order _)) rfl
  | disjointClasses operands =>
    simp only [visitAxiom]
    split_ifs
    · exact trivial
    · exact htrue (.pushInclusions_nnf (isNnf_disjointnessInclusions order _)) rfl
  | disjointUnion owlClass operands =>
    exact visits_disjointUnion s owlClass operands
  | subObjectPropertyOf sub sup =>
    exact (steps_visitSubObjectPropertyOf s sup sub).imp fun t ht => htrue ht rfl
  | equivalentObjectProperties operands =>
    exact htrue (steps_equivalentObjectProperties s operands) rfl
  | disjointObjectProperties operands =>
    have hnote : Steps order [] [] True s _ := Steps.foldl noteObjectProperty
      (fun _ _ => .of_eq rfl rfl rfl rfl) operands s
    exact htrue (hnote.andThen (.of_eq rfl rfl rfl rfl)) rfl
  | inverseObjectProperties first second | reflexiveObjectProperty ope
  | irreflexiveObjectProperty ope | symmetricObjectProperty ope | asymmetricObjectProperty ope
  | transitiveObjectProperty ope | objectPropertyAssertion ope source target =>
    exact htrue (.of_eq rfl rfl rfl rfl) rfl
  | objectPropertyDomain ope ce =>
    have hpush : Steps order [] [] True s
        (s.pushInclusion [order.positive ce, .objectAllValuesFrom ope (.class owlNothing)]) :=
      .pushInclusion_nnf (by simp [isNnf])
    exact htrue (hpush.andThen (.of_eq rfl rfl rfl rfl)) rfl
  | objectPropertyRange ope ce => exact htrue (.pushInclusion_nnf (by simp [isNnf])) rfl
  | functionalObjectProperty ope =>
    have hpush : Steps order [] [] True s
        (s.pushInclusion [.objectMaxCardinality 1 ope (.class owlThing)]) :=
      .pushInclusion_nnf (by simp [isNnf])
    exact htrue (hpush.andThen (.of_eq rfl rfl rfl rfl)) rfl
  | inverseFunctionalObjectProperty ope =>
    have hpush : Steps order [] [] True s
        (s.pushInclusion [.objectMaxCardinality 1 (inverseProperty ope) (.class owlThing)]) :=
      .pushInclusion_nnf (by simp [isNnf])
    exact htrue (hpush.andThen (.of_eq rfl rfl rfl rfl)) rfl
  | subDataPropertyOf sub sup =>
    apply (ends_checkTopDataPropertyUse sub).bind
    intro _ _
    split_ifs
    · exact htrue (.of_eq rfl rfl rfl rfl) rfl
    · exact htrue .refl rfl
  | equivalentDataProperties operands =>
    apply (ends_checkTopDataPropertyUses _).bind
    intro _ _
    exact htrue (.foldl (fun s (w : Iri × Iri) => s.addDataInclusion w.1 w.2)
      (fun _ _ => .of_eq rfl rfl rfl rfl) _ s) rfl
  | disjointDataProperties operands =>
    apply (ends_checkTopDataPropertyUses _).bind
    intro _ _
    exact htrue (.of_eq rfl rfl rfl rfl) rfl
  | dataPropertyDomain dp ce =>
    apply (ends_checkTopDataPropertyUse dp).bind
    intro _ _
    exact htrue (.pushInclusion_nnf (by simp [isNnf, isNnfData, isAtomic])) rfl
  | dataPropertyRange dp dr =>
    apply (ends_checkTopDataPropertyUse dp).bind
    intro _ _
    exact htrue (.pushInclusion_nnf (by simp [isNnf])) rfl
  | functionalDataProperty dp =>
    apply (ends_checkTopDataPropertyUse dp).bind
    intro _ _
    exact htrue (.pushInclusion_nnf (by simp [isNnf, isNnfData])) rfl
  | sameIndividual individuals | differentIndividuals individuals
  | negativeObjectPropertyAssertion ope source target =>
    simp only [visitAxiom]
    split_ifs
    · exact trivial
    · exact htrue (.of_eq rfl rfl rfl rfl) rfl
  | classAssertion ce individual => exact htrue (steps_visitClassAssertion s individual ce) rfl
  | dataPropertyAssertion dp source target =>
    apply (ends_checkTopDataPropertyUse dp).bind
    intro _ _
    exact htrue (.of_eq rfl rfl rfl rfl) rfl
  | negativeDataPropertyAssertion dp source target =>
    apply (ends_checkTopDataPropertyUse dp).bind
    intro _ _
    split_ifs
    · exact trivial
    · exact htrue (.of_eq rfl rfl rfl rfl) rfl
  | datatypeDefinition kind range =>
    exact htrue (steps_datatypeDefinition s kind range) rfl
  | hasKey ce vpe => exact (steps_visitHasKey s ce vpe).imp fun t ht => htrue ht rfl
  | rule body head => exact visits_visitRule s body head

theorem visits_visitAxioms (ontology : List Component) (s : Normalizer) :
    Ends Failure.IsReported (Visits order (ontology.all order.componentBreaksDown)
      (ontology.flatMap waitingRules) s) (ontology.foldlM (fun s c => s.visitAxiom order c) s) := by
  induction ontology generalizing s with
  | nil => exact (Steps.refl.congr (by simp)).visits
  | cons c ontology ih =>
    rw [foldlM_cons]
    apply (visits_visitAxiom s c).bind
    intro t ht
    refine (ih t).imp fun t' ht' => ?_
    have htrans := ht.trans ht'
    simpa using htrans

end Normalizer

end Hermit
