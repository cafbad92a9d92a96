import Hermit.Structural.ClauseSafety
import Hermit.Structural.InclusionNormalization
import Hermit.Structural.StructuralOrder

/-! # Variables of normalised rules are bound

Normalisation records the data variables of a rule and refuses one with a data variable in
the head only.  So a clause of the ontology fails to bind its variables exactly when a
rule compares variables that none of its class and property atoms has.
-/

namespace Hermit

open Library List SwrlAtom

/-! ## The rules that normalisation gives -/

namespace RuleNormalizerState

/-- The data variables of the body and of the head are those recorded for them. -/
structure TracksData (nz : RuleNormalizerState) : Prop where
  body : ∀ v ∈ nz.bodyDataRangeVariables, ∃ b ∈ nz.normalizedBodyAtoms, v ∈ b.dataVariables
  head : ∀ h ∈ nz.normalizedHeadAtoms, ∀ v ∈ h.dataVariables, v ∈ nz.headDataRangeVariables

variable {nz nz' : RuleNormalizerState}

theorem TracksData.congr (h : nz.TracksData)
    (hbody : nz'.normalizedBodyAtoms = nz.normalizedBodyAtoms)
    (hhead : nz'.normalizedHeadAtoms = nz.normalizedHeadAtoms)
    (hbodyData : nz'.bodyDataRangeVariables = nz.bodyDataRangeVariables)
    (hheadData : nz'.headDataRangeVariables = nz.headDataRangeVariables) : nz'.TracksData := by
  refine ⟨?_, ?_⟩
  · rw [hbodyData, hbody]
    exact h.body
  · rw [hhead, hheadData]
    exact h.head

theorem TracksData.insertBody (h : nz.TracksData) (a : SwrlAtom) :
    (nz.insertBody a).TracksData := by
  refine ⟨fun v hv => ?_, h.head⟩
  obtain ⟨b, hb, hvb⟩ := h.body v hv
  exact ⟨b, (mem_insertSet _ _ _).mpr (.inl hb), hvb⟩

variable {a : SwrlAtom}

theorem TracksData.insertHead (h : nz.TracksData)
    (ha : ∀ v ∈ a.dataVariables, v ∈ nz.headDataRangeVariables) : (nz.insertHead a).TracksData := by
  refine ⟨h.body, fun b hb => ?_⟩
  rcases (mem_insertSet _ _ _).mp hb with hb | rfl
  · exact h.head b hb
  · exact ha

theorem TracksData.insertAt (h : nz.TracksData) (isPositive : Bool)
    (ha : a.dataVariables = []) : (nz.insertAt isPositive a).TracksData := by
  cases isPositive with
  | true => exact h.insertHead (by simp [ha])
  | false => exact h.insertBody a

variable (h : nz.TracksData)
include h

/-- A head atom is inserted and its data variable is recorded. -/
theorem TracksData.recordHead {v : Iri} (ha : a.dataVariables = [v]) :
    { nz.insertHead a with
      headDataRangeVariables := insertSet nz.headDataRangeVariables v }.TracksData := by
  refine ⟨h.body, fun b hb u hu => (mem_insertSet _ _ _).mpr ?_⟩
  rcases (mem_insertSet _ _ _).mp hb with hb | rfl
  · exact .inl (h.head b hb u hu)
  · exact .inr (by simpa [ha] using hu)

theorem TracksData.rnVariableFor {arg : IArgument} {r : Iri × RuleNormalizerState}
    (hok : nz.rnVariableFor arg = .ok r) : r.2.TracksData := by
  rcases rnVariableFor_cases hok with ⟨v, -, rfl⟩ | ⟨i, v, -, -, rfl⟩ | ⟨i, -, -, rfl⟩
  · exact h
  · exact h
  · exact h.congr rfl rfl rfl rfl

theorem TracksData.unifyAtom {atom : SwrlAtom} (hok : nz.unifyAtom atom = .ok nz') :
    nz'.TracksData := by
  cases atom with
  | sameIndividualAtom first second =>
    obtain ⟨r, hr, hok⟩ := ok_of_bind hok
    have htracks := h.rnVariableFor hr
    cases second with
    | «variable» v =>
      cases hok
      exact htracks.congr rfl rfl rfl rfl
    | individual i =>
      obtain ⟨named, -, hok⟩ := ok_of_bind hok
      cases hok
      exact htracks.congr rfl rfl rfl rfl
  | _ =>
    cases hok
    exact h

end RuleNormalizerState

namespace Normalizer

open RuleNormalizerState

variable {order : ExpressionOrder} {s : Normalizer} {nz : RuleNormalizerState}
  {r : Normalizer × RuleNormalizerState}

theorem tracksData_pair (h : nz.TracksData) (isPositive : Bool) {first second : IArgument}
    (build : Iri → Iri → SwrlAtom) (hbuild : ∀ v w, (build v w).dataVariables = []) (hok : (do
      let (v₁, nz) ← nz.rnVariableFor first let (v₂, nz) ← nz.rnVariableFor second
      return (s, nz.insertAt isPositive (build v₁ v₂))) = .ok r) : r.2.TracksData := by
  obtain ⟨p, hp, hok⟩ := ok_of_bind hok
  obtain ⟨q, hq, hok⟩ := ok_of_bind hok
  cases hok
  exact ((h.rnVariableFor hp).rnVariableFor hq).insertAt isPositive (hbuild _ _)

variable {atom : SwrlAtom} {isPositive : Bool} {fuel : ℕ} {s' : Normalizer} {body : List SwrlAtom}

theorem tracksData_rnVisitAtom (h : nz.TracksData)
    (hok : s.rnVisitAtom order nz isPositive atom = .ok r) : r.2.TracksData := by
  cases atom with
  | builtInAtom pred args => cases hok
  | classAtom pred arg =>
    obtain ⟨p, hp, hok⟩ := ok_of_bind hok
    obtain ⟨q, hq, hok⟩ := ok_of_bind hok
    cases hok
    exact (h.rnVariableFor hp).insertAt isPositive rfl
  | dataPropertyAtom pred subject value =>
    obtain ⟨p, hp, hok⟩ := ok_of_bind hok
    have htracks := h.rnVariableFor hp
    cases value with
    | literal l =>
      cases isPositive with
      | true | false =>
        cases hok
        exact htracks.congr rfl rfl rfl rfl
    | «variable» v =>
      cases isPositive with
      | true =>
        cases hok
        exact htracks.recordHead rfl
      | false =>
        dsimp only at hok
        by_cases hmem : p.2.representative v ∈ p.2.bodyDataRangeVariables
        · simp only [hmem, not_true_eq_false, if_false] at hok
          cases hok
          have hfresh : p.2.rnFreshVariable.2.TracksData := htracks.congr rfl rfl rfl rfl
          exact (hfresh.insertBody _).insertHead (by simp [dataVariables])
        · simp only [hmem, not_false_eq_true, if_true] at hok
          cases hok
          refine ⟨fun u hu => ?_, htracks.head⟩
          rcases (mem_insertSet _ _ _).mp hu with hu | rfl
          · obtain ⟨b, hb, hub⟩ := htracks.body u hu
            exact ⟨b, (mem_insertSet _ _ _).mpr (.inl hb), hub⟩
          · exact ⟨_, (mem_insertSet _ _ _).mpr (.inr rfl),
              by simp [dataVariables, DArgument.variables]⟩
  | dataRangeAtom pred arg =>
    cases arg with
    | literal l => cases hok
    | «variable» v =>
      cases hok
      exact h.recordHead rfl
  | differentIndividualsAtom first second =>
    cases isPositive with
    | true =>
      exact tracksData_pair h true
        (fun v w => .differentIndividualsAtom (.variable v) (.variable w)) (fun _ _ => rfl) hok
    | false =>
      exact tracksData_pair h true
        (fun v w => .sameIndividualAtom (.variable v) (.variable w)) (fun _ _ => rfl) hok
  | objectPropertyAtom pred first second =>
    cases pred with
    | objectProperty p | inverseObjectProperty p =>
      exact tracksData_pair h isPositive (fun v w => .objectPropertyAtom (.objectProperty p)
        (.variable v) (.variable w)) (fun _ _ => rfl) hok
  | sameIndividualAtom first second =>
    cases isPositive with
    | true =>
      exact tracksData_pair h true
        (fun v w => .sameIndividualAtom (.variable v) (.variable w)) (fun _ _ => rfl) hok
    | false => cases hok

theorem tracksData_rnVisitHead (h : nz.TracksData) (hok : rnVisitHead order fuel s nz = .ok r) :
    r.2.TracksData := by
  induction fuel generalizing s nz with
  | zero => cases hok
  | succ fuel ih =>
    unfold rnVisitHead at hok
    split at hok
    next =>
      cases hok
      exact h
    next atom rest _ =>
      obtain ⟨p, hp, hok⟩ := ok_of_bind hok
      have hpop : { nz with headWork := rest }.TracksData := h.congr rfl rfl rfl rfl
      exact ih (tracksData_rnVisitAtom hpop hp) hok

theorem tracksData_rnVisitBody (h : nz.TracksData) (hok : rnVisitBody order fuel s nz = .ok r) :
    r.2.TracksData := by
  induction fuel generalizing s nz with
  | zero => cases hok
  | succ fuel ih =>
    unfold rnVisitBody at hok
    split at hok
    next =>
      cases hok
      exact h
    next atom rest _ =>
      obtain ⟨p, hp, hok⟩ := ok_of_bind hok
      have hpop : { nz with bodyWork := rest }.TracksData := h.congr rfl rfl rfl rfl
      exact ih (tracksData_rnVisitAtom hpop hp) hok

/-! ## The rules are left alone elsewhere -/

/-- A step that leaves the normalised rules as they are. -/
def SameRules (s s' : Normalizer) : Prop := s'.axioms.rules = s.axioms.rules

theorem sameRules_foldl {α : Type} (f : Normalizer → α → Normalizer)
    (hf : ∀ (s : Normalizer) a, s.SameRules (f s a)) (as : List α) (s : Normalizer) :
    s.SameRules (as.foldl f s) := by
  induction as generalizing s with
  | nil => rfl
  | cons a as ih => exact (ih (f s a)).trans (hf s a)

theorem sameRules_foldlM {α : Type} {f : Normalizer → α → Except Failure Normalizer}
    (hf : ∀ s a s', f s a = .ok s' → s.SameRules s') {as : List α} {s : Normalizer}
    (hok : as.foldlM f s = .ok s') : s.SameRules s' :=
  inv_of_foldlM (fun _ _ _ hs h => (hf _ _ _ h).trans hs) rfl hok

theorem sameRules_pushInclusions (s : Normalizer) (inclusions : List (List ClassExpr)) :
    s.SameRules (s.pushInclusions inclusions) :=
  sameRules_foldl pushInclusion (fun _ _ => rfl) inclusions s

theorem sameRules_getDefinitionFor (order : ExpressionOrder) (s : Normalizer)
    (description : ClassExpr) :
    s.SameRules (s.getDefinitionFor order description false).2.2 := by
  unfold getDefinitionFor
  cases s.definitions.lookup description with
  | none => rfl
  | some definition => rfl

theorem sameRules_define (s : Normalizer) (description : ClassExpr) :
    s.SameRules (s.define order description).2 := by
  have hsame := sameRules_getDefinitionFor order s description
  unfold define
  split
  next heq =>
    rw [heq] at hsame
    exact hsame
  next heq =>
    rw [heq] at hsame
    exact hsame

theorem sameRules_ruleToFact (hok : s.ruleToFact order atom = .ok s') : s.SameRules s' := by
  cases atom with
  | builtInAtom pred args => cases hok
  | classAtom pred arg =>
    obtain ⟨ind, -, hok⟩ := ok_of_bind hok
    dsimp only at hok
    split_ifs at hok
    · cases hok
      rfl
    · cases hok
      exact sameRules_define s pred
  | objectPropertyAtom pred first second =>
    obtain ⟨i, -, hok⟩ := ok_of_bind hok
    obtain ⟨j, -, hok⟩ := ok_of_bind hok
    cases pred <;> cases hok <;> rfl
  | dataPropertyAtom pred subject value =>
    cases value with
    | «variable» v => cases hok
    | literal l =>
      obtain ⟨i, -, hok⟩ := ok_of_bind hok
      cases hok
      rfl
  | dataRangeAtom pred arg =>
    cases arg with
    | «variable» v => cases hok
    | literal l =>
      cases hok
      exact sameRules_define _ _
  | sameIndividualAtom first second | differentIndividualsAtom first second =>
    obtain ⟨i, -, hok⟩ := ok_of_bind hok
    obtain ⟨j, -, hok⟩ := ok_of_bind hok
    cases hok
    rfl

theorem sameRules_visitSubObjectPropertyOf {sup : ObjectPropExpr}
    {sub : SubObjectPropertyExpr} (hok : s.visitSubObjectPropertyOf sup sub = .ok s') :
    s.SameRules s' := by
  cases sub with
  | objectPropertyExpression sub =>
    simp only [visitSubObjectPropertyOf] at hok
    split_ifs at hok <;> cases hok <;> rfl
  | objectPropertyChain chain =>
    have hnote : ∀ t : Normalizer, t.SameRules (chain.foldl noteObjectProperty t) :=
      sameRules_foldl noteObjectProperty (fun _ _ => rfl) chain
    simp only [visitSubObjectPropertyOf] at hok
    split_ifs at hok
    · split at hok
      · cases hok
      · cases hok
        rfl
      · split_ifs at hok
        · cases hok
          rfl
        · cases hok
          rfl
      · cases hok
        exact hnote (s.addObjectChainInclusion _ _)
    · cases hok
      exact hnote s

theorem sameRules_visitClassAssertion (s : Normalizer) (individual : Individ) (ce : ClassExpr) :
    s.SameRules (s.visitClassAssertion order individual ce) := by
  unfold visitClassAssertion
  split
  · rfl
  · rfl
  · dsimp only
    split_ifs
    · rfl
    · exact sameRules_define s _

theorem sameRules_visitHasKey {ce : ClassExpr} {vpe : List PropExpr}
    (hok : s.visitHasKey order ce vpe = .ok s') : s.SameRules s' := by
  obtain ⟨_, -, hok⟩ := ok_of_bind hok
  split_ifs at hok
  · cases hok
    exact sameRules_foldl _ (fun _ pe => by cases pe <;> rfl) vpe _
  · cases hok
    refine (sameRules_foldl _ (fun _ pe => by cases pe <;> rfl) vpe _).trans ?_
    exact sameRules_define s _

theorem sameRules_visitRule {head : List SwrlAtom} (hok : s.visitRule order body head = .ok s') :
    s.SameRules s' := by
  obtain ⟨_, -, hok⟩ := ok_of_bind hok
  dsimp only at hok
  split_ifs at hok
  · exact (sameRules_foldlM (fun _ _ _ h => sameRules_ruleToFact h) hok :)
  · cases hok
    rfl

theorem sameRules_visitAxiom {c : Component} (hok : s.visitAxiom order c = .ok s') :
    s.SameRules s' := by
  cases c with
  | nonLogical l | subClassOf sub sup => cases hok; rfl
  | equivalentClasses operands =>
    cases hok
    exact sameRules_pushInclusions s _
  | disjointClasses operands =>
    simp only [visitAxiom] at hok
    split_ifs at hok
    cases hok
    exact sameRules_pushInclusions s _
  | disjointUnion owlClass operands =>
    cases hok
    exact (sameRules_pushInclusions _ _).trans (sameRules_pushInclusions _ _)
  | subObjectPropertyOf sub sup => exact sameRules_visitSubObjectPropertyOf hok
  | equivalentObjectProperties operands =>
    cases hok
    refine (sameRules_foldl noteObjectProperty (fun _ _ => rfl) _ _).trans ?_
    exact sameRules_foldl (fun s (w : ObjectPropExpr × ObjectPropExpr) =>
        s.addObjectInclusion w.1 w.2)
      (fun _ _ => rfl) _ s
  | disjointObjectProperties operands =>
    cases hok
    exact sameRules_foldl noteObjectProperty (fun _ _ => rfl) operands s
  | equivalentDataProperties operands =>
    obtain ⟨_, -, hok⟩ := ok_of_bind hok
    cases hok
    exact sameRules_foldl (fun s (w : Iri × Iri) => s.addDataInclusion w.1 w.2) (fun _ _ => rfl) _ s
  | subDataPropertyOf sub sup =>
    obtain ⟨_, -, hok⟩ := ok_of_bind hok
    split_ifs at hok <;> cases hok <;> rfl
  | disjointDataProperties _ | dataPropertyDomain _ _ | dataPropertyRange _ _
  | functionalDataProperty _ | dataPropertyAssertion _ _ _ =>
    obtain ⟨_, -, hok⟩ := ok_of_bind hok
    cases hok
    rfl
  | negativeDataPropertyAssertion dp source target =>
    obtain ⟨_, -, hok⟩ := ok_of_bind hok
    split_ifs at hok
    cases hok
    rfl
  | sameIndividual _ | differentIndividuals _ | negativeObjectPropertyAssertion _ _ _ =>
    simp only [visitAxiom] at hok
    split_ifs at hok
    cases hok
    rfl
  | classAssertion ce individual =>
    cases hok
    exact sameRules_visitClassAssertion s individual ce
  | hasKey ce vpe => exact sameRules_visitHasKey hok
  | rule body head => exact sameRules_visitRule hok
  | _ =>
    cases hok
    rfl

theorem sameRules_getDataDefinitionFor (s : Normalizer) (dr : DataRangeExpr) :
    s.SameRules (s.getDataDefinitionFor dr).2.2 := by
  unfold getDataDefinitionFor
  cases s.dataRangeDefinitions.lookup dr with
  | none => rfl
  | some existing => rfl

theorem sameRules_rnVisitClass {pred : ClassExpr} {q : ClassExpr × Normalizer}
    (hok : s.rnVisitClass order pred isPositive = .ok q) : s.SameRules q.2 := by
  unfold rnVisitClass at hok
  by_cases hsim : isClass (order.getSimplified (order.getNnf pred))
  · simp only [hsim, if_true] at hok
    cases hok
    rfl
  · simp only [hsim] at hok
    rcases getClassFor_eq order s pred with ⟨c, -, hclass⟩ | ⟨-, n, hnew, hclass⟩
    · rw [hclass] at hok
      cases hok
      rfl
    · rw [hclass, hnew] at hok
      cases isPositive <;> cases hok <;> rfl

theorem sameRules_rnVisitDataRange (s : Normalizer) (pred : DataRangeExpr) (isPositive : Bool) :
    s.SameRules (s.rnVisitDataRange order pred isPositive).2 := by
  simp only [rnVisitDataRange]
  generalize order.positiveDr (if isPositive then pred else .dataComplementOf pred) = dr
  have hsame := sameRules_getDataDefinitionFor s dr
  split_ifs
  · split
    next heq =>
      rw [heq] at hsame
      exact hsame
    next heq =>
      rw [heq] at hsame
      exact hsame
  · rfl

theorem sameRules_rnVisitAtom (hok : s.rnVisitAtom order nz isPositive atom = .ok r) :
    s.SameRules r.1 := by
  cases atom with
  | builtInAtom pred args => cases hok
  | classAtom pred arg =>
    obtain ⟨p, -, hok⟩ := ok_of_bind hok
    obtain ⟨q, hq, hok⟩ := ok_of_bind hok
    cases hok
    exact sameRules_rnVisitClass hq
  | dataRangeAtom pred arg =>
    cases arg with
    | literal l => cases hok
    | «variable» v =>
      cases hok
      exact sameRules_rnVisitDataRange s pred isPositive
  | dataPropertyAtom pred subject value =>
    obtain ⟨p, -, hok⟩ := ok_of_bind hok
    cases value with
    | literal l => cases isPositive <;> cases hok <;> rfl
    | «variable» v =>
      cases isPositive with
      | true =>
        cases hok
        rfl
      | false =>
        dsimp only at hok
        split_ifs at hok <;> cases hok <;> rfl
  | objectPropertyAtom pred first second =>
    cases pred <;>
      (obtain ⟨p, -, hok⟩ := ok_of_bind hok
       obtain ⟨q, -, hok⟩ := ok_of_bind hok
       cases hok
       rfl)
  | sameIndividualAtom first second =>
    cases isPositive with
    | false => cases hok
    | true =>
      obtain ⟨p, -, hok⟩ := ok_of_bind hok
      obtain ⟨q, -, hok⟩ := ok_of_bind hok
      cases hok
      rfl
  | differentIndividualsAtom first second =>
    obtain ⟨p, -, hok⟩ := ok_of_bind hok
    obtain ⟨q, -, hok⟩ := ok_of_bind hok
    cases isPositive <;> cases hok <;> rfl

theorem sameRules_rnVisitHead (hok : rnVisitHead order fuel s nz = .ok r) : s.SameRules r.1 := by
  induction fuel generalizing s nz with
  | zero => cases hok
  | succ fuel ih =>
    unfold rnVisitHead at hok
    split at hok
    · cases hok
      rfl
    · obtain ⟨p, hp, hok⟩ := ok_of_bind hok
      exact (ih hok).trans (sameRules_rnVisitAtom hp)

theorem sameRules_rnVisitBody (hok : rnVisitBody order fuel s nz = .ok r) : s.SameRules r.1 := by
  induction fuel generalizing s nz with
  | zero => cases hok
  | succ fuel ih =>
    unfold rnVisitBody at hok
    split at hok
    · cases hok
      rfl
    · obtain ⟨p, hp, hok⟩ := ok_of_bind hok
      exact (ih hok).trans (sameRules_rnVisitAtom hp)

variable {headAtom : SwrlAtom}

/-- The rule that normalisation adds covers its data. -/
theorem exists_coversData_of_normalizeRule
    (hok : s.normalizeRule order fuel body headAtom = .ok s') :
    ∃ rule : DisjunctiveRule, rule.CoversData ∧ s'.axioms.rules = s.axioms.rules ++ [rule] := by
  obtain ⟨nz, hunify, hok⟩ := ok_of_bind hok
  obtain ⟨p, hhead, hok⟩ := ok_of_bind hok
  obtain ⟨q, hbody, hok⟩ := ok_of_bind hok
  have hst : ({ bodyWork := body.filter (!isSameIndividualAtom ·), headWork := [headAtom] } :
      RuleNormalizerState).TracksData :=
    ⟨fun _ hv => by simp at hv, fun _ hh => by simp at hh⟩
  have hnz : nz.TracksData :=
    inv_of_foldlM (fun _ _ _ h hatom => TracksData.unifyAtom h hatom) hst hunify
  have hq : q.2.TracksData := tracksData_rnVisitBody (tracksData_rnVisitHead hnz hhead) hbody
  have hsame : q.1.axioms.rules = s.axioms.rules :=
    (sameRules_rnVisitBody hbody).trans (sameRules_rnVisitHead hhead)
  dsimp only at hok
  split_ifs at hok with hcov
  cases hok
  refine ⟨_, fun h hh v hv => hq.body v ?_, by rw [← hsame]⟩
  simpa using all_eq_true.mp hcov v (hq.head h hh v hv)

/-- Every normalised rule covers its data. -/
def RulesCoverData (s : Normalizer) : Prop := ∀ rule ∈ s.axioms.rules, rule.CoversData

theorem RulesCoverData.of_sameRules (h : s.RulesCoverData) (hsame : s.SameRules s') :
    s'.RulesCoverData := by
  intro rule hrule
  rw [hsame] at hrule
  exact h rule hrule

theorem RulesCoverData.normalizeRule (h : s.RulesCoverData)
    (hok : s.normalizeRule order fuel body headAtom = .ok s') : s'.RulesCoverData := by
  obtain ⟨rule, hrule, heq⟩ := exists_coversData_of_normalizeRule hok
  intro rule' hmem
  rw [heq] at hmem
  rcases mem_append.mp hmem with hmem | hmem
  · exact h rule' hmem
  · rw [mem_singleton.mp hmem]
    exact hrule

theorem RulesCoverData.normalizeRules (h : s.RulesCoverData)
    (hok : s.normalizeRules order fuel = .ok s') : s'.RulesCoverData := by
  have hst : { s with rules := [] }.RulesCoverData := h
  refine inv_of_foldlM (fun t r t' ht hrule => ?_) hst hok
  exact inv_of_foldlM (fun u atom u' hu hatom => RulesCoverData.normalizeRule hu hatom) ht hrule

theorem sameRules_addAssertions (s : Normalizer) (ce : ClassExpr) (individuals : List Individ) :
    s.SameRules (s.addAssertions ce individuals) :=
  sameRules_foldl (fun s i => s.addFact (.classAssertion ce i)) (fun _ _ => rfl) individuals s

variable {q : DataRangeExpr × Normalizer}

theorem sameRules_normalizeFiller {dp : Iri} {dr : DataRangeExpr}
    (hok : s.normalizeFiller order dp dr = .ok q) : s.SameRules q.2 := by
  simp only [normalizeFiller] at hok
  split_ifs at hok
  · cases hok
    rfl
  · cases hok
    have hsame := sameRules_getDataDefinitionFor s dr
    unfold defineData
    split
    next heq =>
      rw [heq] at hsame
      exact hsame
    next heq =>
      rw [heq] at hsame
      exact hsame

theorem sameRules_normalizeClassExpression {object : ClassExpr} {q : ClassExpr × Normalizer}
    (hok : s.normalizeClassExpression order object = .ok q) : s.SameRules q.2 := by
  cases object with
  | objectIntersectionOf operands =>
    have hsame := sameRules_getDefinitionFor order s (.objectIntersectionOf operands)
    simp only [normalizeClassExpression] at hok
    split at hok
    next heq =>
      rw [heq] at hsame
      cases hok
      exact hsame
    next heq =>
      rw [heq] at hsame
      cases hok
      exact (sameRules_pushInclusions _ _).trans hsame
  | objectComplementOf bce =>
    cases bce with
    | objectOneOf individuals =>
      simp only [normalizeClassExpression, getDefinitionForNegativeNominal] at hok
      cases hlook : s.definitionsForNegativeNominals.lookup (.objectOneOf individuals) with
      | some definition =>
        simp only [hlook] at hok
        cases hok
        rfl
      | none =>
        simp only [hlook] at hok
        cases hok
        exact sameRules_addAssertions _ _ _
    | _ =>
      cases hok
      rfl
  | objectOneOf individuals =>
    simp only [normalizeClassExpression] at hok
    split_ifs at hok
    cases hok
    rfl
  | objectSomeValuesFrom ope bce | objectAllValuesFrom ope bce | objectMinCardinality n ope bce
  | objectMaxCardinality n ope bce =>
    simp only [normalizeClassExpression] at hok
    split_ifs at hok
    · cases hok
      rfl
    · cases hok
      exact sameRules_define (s.noteObjectProperty ope) _
  | dataSomeValuesFrom dp dr | dataAllValuesFrom dp dr | dataMinCardinality n dp dr =>
    obtain ⟨p, hp, hok⟩ := ok_of_bind hok
    cases hok
    exact sameRules_normalizeFiller hp
  | dataMaxCardinality n dp dr =>
    simp only [normalizeClassExpression] at hok
    split_ifs at hok
    · cases hok
      rfl
    · have hsame := sameRules_getDataDefinitionFor s (order.getComplementNnfData dr)
      split at hok
      next heq =>
        rw [heq] at hsame
        cases hok
        exact hsame
      next heq =>
        rw [heq] at hsame
        cases hok
        exact hsame
  | _ =>
    cases hok
    try rfl

theorem sameRules_normalizeDisjuncts {descriptions : List ClassExpr}
    {q : List ClassExpr × Normalizer} (hok : s.normalizeDisjuncts order descriptions = .ok q) :
    s.SameRules q.2 := by
  induction descriptions generalizing s q with
  | nil =>
    cases hok
    rfl
  | cons d ds ih =>
    obtain ⟨p, hp, hok⟩ := ok_of_bind hok
    obtain ⟨p', hp', hok⟩ := ok_of_bind hok
    cases hok
    exact (ih hp').trans (sameRules_normalizeClassExpression hp)

theorem sameRules_normalizeInclusion {entry : List ClassExpr}
    (hok : s.normalizeInclusion order entry = .ok s') : s.SameRules s' := by
  unfold normalizeInclusion at hok
  split at hok
  · split at hok
    · cases hok
      exact sameRules_pushInclusions s _
    · split at hok
      next htrans =>
        cases hok
        simp only [optimizedNegativeOneOfTranslation] at htrans
        split at htrans
        · split_ifs at htrans
          cases htrans
          exact sameRules_addAssertions s _ _
        · cases htrans
      next =>
        obtain ⟨p, hp, hok⟩ := ok_of_bind hok
        cases hok
        exact sameRules_normalizeDisjuncts hp
  · cases hok
    exact sameRules_pushInclusions s _
  · split_ifs at hok
    · cases hok
      rfl
    · obtain ⟨p, hp, hok⟩ := ok_of_bind hok
      cases hok
      exact sameRules_normalizeClassExpression hp

theorem sameRules_normalizeClassInclusions
    (hok : s.normalizeClassInclusions order fuel = .ok s') : s.SameRules s' := by
  induction fuel generalizing s with
  | zero => cases hok
  | succ fuel ih =>
    unfold normalizeClassInclusions at hok
    split at hok
    · cases hok
      rfl
    · obtain ⟨t, ht, hok⟩ := ok_of_bind hok
      have hstep := sameRules_normalizeInclusion ht
      exact (ih hok).trans hstep

theorem sameRules_normalizeDataRange {object : DataRangeExpr}
    (hok : s.normalizeDataRange order object = .ok q) : s.SameRules q.2 := by
  cases object with
  | dataIntersectionOf operands =>
    have hsame := sameRules_getDataDefinitionFor s (.dataIntersectionOf operands)
    simp only [normalizeDataRange] at hok
    split at hok
    next heq =>
      rw [heq] at hsame
      cases hok
      exact hsame
    next definition t heq =>
      rw [heq] at hsame
      cases hok
      refine Eq.trans ?_ hsame
      exact sameRules_foldl
        (fun s d => s.pushDataRangeInclusion [order.negativeDr (.datatype definition), d])
        (fun _ _ => rfl) operands t
  | _ =>
    cases hok
    try rfl

theorem sameRules_normalizeDataDisjuncts {descriptions : List DataRangeExpr}
    {q : List DataRangeExpr × Normalizer}
    (hok : s.normalizeDataDisjuncts order descriptions = .ok q) : s.SameRules q.2 := by
  induction descriptions generalizing s q with
  | nil =>
    cases hok
    rfl
  | cons d ds ih =>
    obtain ⟨p, hp, hok⟩ := ok_of_bind hok
    obtain ⟨p', hp', hok⟩ := ok_of_bind hok
    cases hok
    exact (ih hp').trans (sameRules_normalizeDataRange hp)

theorem sameRules_normalizeDataInclusion {entry : List DataRangeExpr}
    (hok : s.normalizeDataInclusion order entry = .ok s') : s.SameRules s' := by
  unfold normalizeDataInclusion at hok
  split at hok
  · split at hok
    · cases hok
      exact sameRules_foldl pushDataRangeInclusion (fun _ _ => rfl) _ s
    · obtain ⟨p, hp, hok⟩ := ok_of_bind hok
      cases hok
      exact sameRules_normalizeDataDisjuncts hp
  · cases hok
    exact sameRules_foldl (fun s d => s.pushDataRangeInclusion [d]) (fun _ _ => rfl) _ s
  · split_ifs at hok
    · cases hok
      rfl
    · obtain ⟨p, hp, hok⟩ := ok_of_bind hok
      cases hok
      exact sameRules_normalizeDataRange hp

theorem sameRules_normalizeDataRangeInclusions
    (hok : s.normalizeDataRangeInclusions order fuel = .ok s') : s.SameRules s' := by
  induction fuel generalizing s with
  | zero => cases hok
  | succ fuel ih =>
    unfold normalizeDataRangeInclusions at hok
    split at hok
    · cases hok
      rfl
    · obtain ⟨t, ht, hok⟩ := ok_of_bind hok
      have hstep := sameRules_normalizeDataInclusion ht
      exact (ih hok).trans hstep

end Normalizer

/-- The rules of an accepted ontology cover their data. -/
theorem coversData_processAxioms {order : ExpressionOrder} {fuel index : ℕ} {axioms : OwlAxioms}
    {ontology : List Component} {result : OwlNormalization} (hemp : axioms.rules = [])
    (hok : (OwlNormalization.new axioms index).processAxioms order fuel ontology = .ok result) :
    ∀ rule ∈ result.axioms.rules, rule.CoversData := by
  obtain ⟨s₁, hvis, hok⟩ := ok_of_bind hok
  obtain ⟨s₂, hrules, hok⟩ := ok_of_bind hok
  obtain ⟨s₃, hincls, hok⟩ := ok_of_bind hok
  obtain ⟨s₄, hcls, hdata⟩ := ok_of_bind hincls
  cases hok
  have hfst : s₁.RulesCoverData := by
    intro rule hrule
    rw [Normalizer.sameRules_foldlM (fun _ _ _ h => Normalizer.sameRules_visitAxiom h) hvis]
      at hrule
    change rule ∈ axioms.rules at hrule
    rw [hemp] at hrule
    cases hrule
  exact ((hfst.normalizeRules hrules).of_sameRules
    (Normalizer.sameRules_normalizeClassInclusions hcls)).of_sameRules
    (Normalizer.sameRules_normalizeDataRangeInclusions hdata)

/-! ## All clauses of an ontology -/

theorem mem_placeRules (rules : List DisjunctiveRule) (nonGraph : List Iri) (r : DisjunctiveRule) :
    r ∈ (placeRules rules nonGraph).1 ∨ r ∈ (placeRules rules nonGraph).2.1 ↔ r ∈ rules := by
  induction rules generalizing nonGraph with
  | nil => simp [placeRules]
  | cons rule rules ih =>
    simp only [placeRules]
    split_ifs
    · simp only [mem_cons, ← ih (List.foldl insertSet nonGraph (ruleProperties rule))]
      tauto
    · simp only [mem_cons, ← ih nonGraph]
      tauto
    · simp only [mem_cons, ← ih nonGraph]
      tauto

theorem mem_orderRules (passes : ℕ) (rules : List DisjunctiveRule) (nonGraph : List Iri)
    (r : DisjunctiveRule) : r ∈ orderRules passes rules nonGraph ↔ r ∈ rules := by
  induction passes generalizing rules nonGraph with
  | zero => rfl
  | succ passes ih =>
    have hmem := mem_placeRules rules nonGraph r
    unfold orderRules
    split
    next heq =>
      rw [heq] at hmem
      simpa using hmem
    next heq =>
      rw [heq] at hmem
      rw [mem_append, ih]
      exact hmem

theorem forall₂_of_mapM {α β : Type} {f : α → Except Failure β} {as : List α} {bs : List β}
    (h : as.mapM f = .ok bs) : List.Forall₂ (fun a b => f a = .ok b) as bs := by
  induction as generalizing bs with
  | nil =>
    cases h
    exact .nil
  | cons a as ih =>
    rw [mapM_cons] at h
    obtain ⟨b, hb, h⟩ := ok_of_bind h
    obtain ⟨bs', hbs, h⟩ := ok_of_bind h
    cases h
    exact .cons hb (ih hbs)

/-- The clauses of an accepted ontology bind their variables exactly when every rule has the
variables that its head compares in its class and property atoms.  The other axioms may have
been rewritten since normalisation. -/
theorem bound_clausifyAxioms_iff (order : ExpressionOrder) (fuel index : ℕ)
    (ontology : List Component) (hash : HashOrder Variable) (converter : DataRangeConverter)
    (result : OwlNormalization) (axioms : OwlAxioms) (dl : DLOntology)
    (hnorm : (OwlNormalization.new {} index).processAxioms order fuel ontology = .ok result)
    (hrules : axioms.rules = result.axioms.rules)
    (hclaus : clausifyAxioms hash converter axioms = .ok dl) :
    (∀ c ∈ dl.dlClauses, c.Bound) ↔ ∀ rule ∈ axioms.rules, rule.CoversComparisons := by
  have hcovers : ∀ rule ∈ axioms.rules, rule.CoversData := by
    rw [hrules]
    exact coversData_processAxioms rfl hnorm
  obtain ⟨⟨conceptClauses, facts⟩, hconcs, hclaus⟩ := ok_of_bind hclaus
  obtain ⟨dataClauses, hdata, hclaus⟩ := ok_of_bind hclaus
  obtain ⟨keyClauses, hkeys, hclaus⟩ := ok_of_bind hclaus
  obtain ⟨allFacts, -, hclaus⟩ := ok_of_bind hclaus
  obtain ⟨ruleClauses, hruleClauses, hclaus⟩ := ok_of_bind hclaus
  cases hclaus
  have hrule : ∀ rule, rule ∈ orderRules (axioms.rules.foldl insertSet []).length
      (axioms.rules.foldl insertSet []) axioms.objectPropertiesOccurringInOwlAxioms ↔
      rule ∈ axioms.rules := by
    intro rule
    rw [mem_orderRules, mem_foldl_insertSet]
    simp
  have hconverted := forall₂_of_mapM hruleClauses
  simp only [mem_foldl_insertSet, mem_append, not_mem_nil, false_or]
  constructor
  · intro hbd rule hmem
    obtain ⟨c, hc, hok⟩ := exists_of_forall₂_left hconverted ((hrule rule).mpr hmem)
    exact (bound_clausifyRule_iff (hcovers rule hmem) hok).mp (hbd c (.inr hc))
  · rintro hcmp c ((((hc | hc) | hc) | hc) | hc)
    · exact bound_propertyClauses axioms c hc
    · exact bound_clausifyConceptInclusions selfBound_nil hconcs c hc
    · exact bound_clausifyDataRangeInclusions selfBound_nil hdata c hc
    · obtain ⟨key, -, hok⟩ := exists_of_forall₂_right (forall₂_of_mapM hkeys) hc
      exact bound_clausifyKey hok
    · obtain ⟨rule, hmem, hok⟩ := exists_of_forall₂_right hconverted hc
      have hmem := (hrule rule).mp hmem
      exact (bound_clausifyRule_iff (hcovers rule hmem) hok).mpr (hcmp rule hmem)

/-- A converter that supports no datatypes. -/
def noDatatypes : DataRangeConverter where
  ignoreUnsupportedDatatypes := false
  definedDatatypeIris := []
  isSupportedDatatype _ := false
  lexicalWellFormed _ _ := false

/-- The rule that equates two variables, with the given ones in a class. -/
def equatingRule (members : List Iri) : DisjunctiveRule :=
  ⟨members.map fun v => .classAtom (.class "C") (.variable v),
    [.sameIndividualAtom (.variable "x") (.variable "y")]⟩

def equatingOntology (members : List Iri) : List Component :=
  [.rule (equatingRule members).body (equatingRule members).head]

theorem bound_clausifyAxioms_iff_equating :
    ∃ result dl, (OwlNormalization.new {} 0).processAxioms structuralOrder 4
        (equatingOntology ["x", "y"]) = .ok result ∧
      clausifyAxioms (.insertion Variable) noDatatypes result.axioms = .ok dl ∧
      ((∀ c ∈ dl.dlClauses, c.Bound) ↔ ∀ rule ∈ result.axioms.rules, rule.CoversComparisons) ∧
      ∀ rule ∈ result.axioms.rules, rule.CoversComparisons := by
  refine ⟨_, _, rfl, rfl, ?_, ?_⟩
  · exact bound_clausifyAxioms_iff structuralOrder 4 0 (equatingOntology ["x", "y"])
      (.insertion Variable) noDatatypes _ _ _ rfl rfl rfl
  · intro rule hrule
    obtain rfl : rule = equatingRule ["x", "y"] := mem_singleton.mp hrule
    intro h hh _ v hv
    obtain rfl := mem_singleton.mp hh
    refine .inl ⟨.classAtom (.class "C") (.variable v), ?_, by
      simp [SwrlAtom.abstractVariables, SwrlAtom.compares, SwrlAtom.objectVariables,
        IArgument.variables]⟩
    simpa [equatingRule, SwrlAtom.variables, SwrlAtom.objectVariables, SwrlAtom.dataVariables,
      IArgument.variables] using hv

/-- The rule that equates a member of a class with anything is accepted, and its clause does not
bind the second variable. -/
theorem not_bound_of_uncovered_comparison :
    ∃ result dl, (OwlNormalization.new {} 0).processAxioms structuralOrder 4
        (equatingOntology ["x"]) = .ok result ∧
      clausifyAxioms (.insertion Variable) noDatatypes result.axioms = .ok dl ∧
      ∃ c ∈ dl.dlClauses, ¬ c.Bound := by
  refine ⟨_, _, rfl, rfl, _, mem_singleton.mpr rfl, fun hbd => ?_⟩
  obtain ⟨b, hb, hbinds, hv⟩ := hbd (equalityAtom (.variable ⟨"x"⟩) (.variable ⟨"y"⟩))
    (.inl (mem_singleton.mpr rfl)) ⟨"y"⟩ (by simp)
  revert b
  decide

end Hermit
