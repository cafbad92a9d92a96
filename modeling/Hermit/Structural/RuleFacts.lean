import Hermit.Structural.NormalizationTracking
import Hermit.Structural.StructuralOrder

/-! # Data-range facts of rules

A rule without a body states its head.  A data range of a literal is stated through an
individual and a data property of the atom's own position in the head: the individual has
the literal as a value of the property, and the property has all its values in the range.
-/

namespace Hermit

open List ExpressionOrder

universe u v

/-! ## Data ranges over a fixed datatype map -/

/-- The meaning of datatypes, literals and facets, which no ontology changes. -/
structure DatatypeMap (Val : Type v) where
  datatypes : Iri → Set Val
  datatypes_literal : datatypes rdfsLiteral = Set.univ
  literals : Lit → Val
  facets : FacetRestriction → Set Val

/-- An atom of a rule that states a data range of a literal. -/
structure GroundAtom where
  dataRange : DataRangeExpr
  literal : Lit

/-- The individual of the atom at a position of a head. -/
def factIndividual (i : ℕ) : Individ := .named ("internal:nom#swrlfact" ++ i.repr)

/-- The data property of the atom at a position of a head. -/
def factProperty (i : ℕ) : Iri := "internal:freshDP#" ++ (i + 1).repr

theorem factProperty_inj {i j : ℕ} : factProperty i = factProperty j ↔ i = j :=
  (append_repr_inj _).trans Nat.add_right_cancel_iff

theorem factProperty_ne_top (i : ℕ) : factProperty i ≠ topDataRole :=
  append_ne_of_take_ne 1 (by decide) (by decide) _

theorem factProperty_ne_bottom (i : ℕ) : factProperty i ≠ bottomDataRole :=
  append_ne_of_take_ne 1 (by decide) (by decide) _

namespace DatatypeMap

variable {Val : Type v} (map : DatatypeMap Val)

/-- An interpretation over one element in which every class but the empty one holds, and a
data property has the values of the atoms at its position. -/
def interp (placed : ℕ → GroundAtom → Prop) : Interp PUnit.{u + 1} Val where
  nonempty := inferInstance
  classes c := {_x | c ≠ owlNothing}
  classes_thing := by
    ext x
    exact iff_of_true (show owlThing ≠ owlNothing by decide) trivial
  classes_nothing := by
    ext x
    exact iff_of_false (fun h => h rfl) (Set.notMem_empty x)
  objectProperties p _ _ := p = topObjectRole
  objectProperties_top _ _ := rfl
  objectProperties_bottom _ _ := by decide
  dataProperties p _ v :=
    p = topDataRole ∨ ∃ i a, placed i a ∧ p = factProperty i ∧ v = map.literals a.literal
  dataProperties_top _ _ := .inl rfl
  dataProperties_bottom _ _ := by
    rintro (htop | ⟨i, -, -, hp, -⟩)
    · exact absurd htop (by decide)
    · exact factProperty_ne_bottom i hp.symm
  individuals _ := PUnit.unit
  datatypes := map.datatypes
  datatypes_literal := map.datatypes_literal
  literals := map.literals
  facets := map.facets
  builtIns _ _ := True

/-- The values of a data range. -/
def dataRange (dr : DataRangeExpr) : Set Val :=
  (map.interp.{0} fun _ _ => False).dataRange dr

/-- The literal of one atom is in the data range of the other. -/
def InRange (a b : GroundAtom) : Prop := map.literals a.literal ∈ map.dataRange b.dataRange

end DatatypeMap

/-- An interpretation over the given datatype map. -/
structure Interp.Over {Dom : Type u} {Val : Type v} (I : Interp Dom Val) (map : DatatypeMap Val) :
    Prop where
  datatypes : I.datatypes = map.datatypes
  literals : I.literals = map.literals
  facets : I.facets = map.facets

theorem Interp.Over.mem_dataRange {Dom : Type u} {Val : Type v} {I : Interp Dom Val}
    {map : DatatypeMap Val} (h : I.Over map) (dr : DataRangeExpr) (v : Val) :
    v ∈ I.dataRange dr ↔ v ∈ map.dataRange dr := by
  apply Interp.mem_dataRange_congr
  · exact h.datatypes
  · exact h.literals
  · exact h.facets

/-! ## What the facts of rules say -/

namespace GroundAtom

variable (a : GroundAtom)

def atom : SwrlAtom := .dataRangeAtom a.dataRange (.literal a.literal)

/-- What has the literal as a value of the property of the position. -/
def value (i : ℕ) : ClassExpr :=
  .dataSomeValuesFrom (factProperty i) (.dataOneOf [a.literal])

/-- What has values in the data range only, of the property of the position. -/
def range (i : ℕ) : ClassExpr := .dataAllValuesFrom (factProperty i) a.dataRange

end GroundAtom

/-- The inclusion of a definition's class in its expression. -/
def below (n : ℕ) (description : ClassExpr) : List ClassExpr :=
  [.objectComplementOf (.class (definitionName n)), description]

/-- The fact that the individual of a position belongs to a definition's class. -/
def classFact (n i : ℕ) : Fact := .classAssertion (.class (definitionName n)) (factIndividual i)

namespace Normalizer

/-- The facts and inclusions are those of the atoms at their positions, with one class for
every value. -/
structure Encodes (placed : ℕ → GroundAtom → Prop) (s : Normalizer) : Prop where
  facts : ∀ f ∈ s.axioms.facts, ∃ n i, f = classFact n i
  definitions : ∀ description definition, s.definitions.lookup description = some definition →
    ∃ n, definition = .class (definitionName n) ∧
      below n description ∈ s.classExpressionInclusions
  inclusions : ∀ e ∈ s.classExpressionInclusions, ∃ i a, placed i a ∧
    ((∃ n, e = below n (a.value i)) ∨ e = [a.range i])
  values : ∀ i a, placed i a →
    ∃ n, classFact n i ∈ s.axioms.facts ∧ below n (a.value i) ∈ s.classExpressionInclusions
  ranges : ∀ i a, placed i a → [a.range i] ∈ s.classExpressionInclusions

/-- Some interpretation over the datatype map makes all facts and inclusions true. -/
def Consistent {Val : Type v} (map : DatatypeMap Val) (s : Normalizer) : Prop :=
  ∃ (Dom : Type u) (I : Interp Dom Val), I.Over map ∧ (∀ f ∈ s.axioms.facts, I.fact f) ∧
    ∀ e ∈ s.classExpressionInclusions, I.covers e

section Consistency

variable {Val : Type v} {map : DatatypeMap Val} {placed : ℕ → GroundAtom → Prop} {s : Normalizer}

variable (h : s.Encodes placed)
include h

theorem inRange_of_consistent (hcons : Consistent.{u} map s) {i : ℕ} {a b : GroundAtom}
    (ha : placed i a) (hb : placed i b) : map.InRange a b := by
  obtain ⟨Dom, I, hover, hfacts, hcov⟩ := hcons
  obtain ⟨n, hfact, hblw⟩ := h.values i a ha
  have hcls : I.individuals (factIndividual i) ∈ I.expr (.class (definitionName n)) :=
    hfacts _ hfact
  have hval : I.individuals (factIndividual i) ∈ I.expr (a.value i) := by
    rcases I.covers_pair.mp (hcov _ hblw) (I.individuals (factIndividual i)) with hnot | hval
    · exact absurd hcls hnot
    · exact hval
  have hrng : I.individuals (factIndividual i) ∈ I.expr (b.range i) := by
    simpa [Interp.covers] using hcov _ (h.ranges i b hb) (I.individuals (factIndividual i))
  obtain ⟨v, hv, l, hl, rfl⟩ := hval
  rw [mem_singleton.mp hl, hover.literals] at hv
  exact (hover.mem_dataRange _ _).mp (hrng _ hv)

theorem consistent_of_inRange (hrng : ∀ i a b, placed i a → placed i b → map.InRange a b) :
    Consistent.{u} map s := by
  have hover : (map.interp.{u} placed).Over map := ⟨rfl, rfl, rfl⟩
  refine ⟨PUnit, map.interp placed, hover, ?_, ?_⟩
  · intro f hf
    obtain ⟨n, i, rfl⟩ := h.facts f hf
    exact definitionName_ne_nothing n
  · intro e he x
    obtain ⟨i, a, ha, ⟨n, rfl⟩ | rfl⟩ := h.inclusions e he
    · refine ⟨a.value i, by simp [below], map.literals a.literal, ?_, a.literal, by simp, rfl⟩
      exact .inr ⟨i, a, ha, rfl, rfl⟩
    · refine ⟨a.range i, by simp, ?_⟩
      rintro v (htop | ⟨j, b, hb, hp, rfl⟩)
      · exact absurd htop (factProperty_ne_top i)
      · rw [factProperty_inj] at hp
        subst hp
        exact (hover.mem_dataRange _ _).mpr (hrng i b a hb ha)

/-- The facts are consistent when atoms at one position have their literals in each other's
data ranges, whatever rules they stand in. -/
theorem Encodes.consistent_iff :
    Consistent.{u} map s ↔ ∀ i a b, placed i a → placed i b → map.InRange a b :=
  ⟨fun hcons _ _ _ ha hb => inRange_of_consistent h hcons ha hb, consistent_of_inRange h⟩

end Consistency

variable (order : ExpressionOrder) {placed : ℕ → GroundAtom → Prop} {s : Normalizer}

theorem negative_definition (n : ℕ) :
    order.negative (.class (definitionName n)) = .objectComplementOf
    (.class (definitionName n)) := by
  simp [ExpressionOrder.negative, ExpressionOrder.getSimplified, ExpressionOrder.getComplementNnf,
    definitionName_ne_thing, definitionName_ne_nothing]

/-- The value of an atom has a class below it, there before or put there. -/
theorem define_value (h : s.Encodes placed) (a : GroundAtom) (i : ℕ) :
    ∃ n, ((s.define order (a.value i)).1 = .class (definitionName n)) ∧
      (below n (a.value i) ∈ s.classExpressionInclusions ∧ (s.define order (a.value i)).2 = s ∨
        (s.define order (a.value i)).2 =
          { s with
            definitions := s.definitions.insert (a.value i) (.class (definitionName n))
            classExpressionInclusions := below n (a.value i) :: s.classExpressionInclusions }) := by
  cases hlook : s.definitions.lookup (a.value i) with
  | some definition =>
    obtain ⟨n, rfl, hblw⟩ := h.definitions _ _ hlook
    exact ⟨n, by simp [define, getDefinitionFor, hlook],
      .inl ⟨hblw, by simp [define, getDefinitionFor, hlook]⟩⟩
  | none =>
    have hpos : order.plVisit (a.value i) = true := by
      simp [GroundAtom.value, ExpressionOrder.plVisit]
    refine ⟨s.definitions.entries.length + s.firstReplacementIndex, ?_, .inr ?_⟩
    · simp [define, getDefinitionFor, hlook, introduceDefinition, hpos]
    · simp [define, getDefinitionFor, hlook, introduceDefinition, hpos, negative_definition,
        pushInclusion, below]

variable {i : ℕ}

/-- Two ways to write the facts of an atom down: a class is taken over or introduced. -/
theorem Encodes.add (h : s.Encodes placed) (a : GroundAtom) {n : ℕ} {s' : Normalizer}
    (hfacts : s'.axioms.facts = s.axioms.facts ++ [classFact n i])
    (hlook : ∀ description definition, s'.definitions.lookup description = some definition →
      s.definitions.lookup description = some definition ∨
        description = a.value i ∧ definition = .class (definitionName n))
    (hincls : ∀ e, e ∈ s'.classExpressionInclusions ↔
      e = [a.range i] ∨ e = below n (a.value i) ∨ e ∈ s.classExpressionInclusions) :
    s'.Encodes fun j b => placed j b ∨ j = i ∧ b = a where
  facts f hf := by
    rw [hfacts, mem_append, mem_singleton] at hf
    rcases hf with hf | rfl
    · exact h.facts f hf
    · exact ⟨n, i, rfl⟩
  definitions description definition hdef := by
    rcases hlook description definition hdef with hold | ⟨rfl, rfl⟩
    · obtain ⟨m, hm, hblw⟩ := h.definitions _ _ hold
      exact ⟨m, hm, (hincls _).mpr (.inr (.inr hblw))⟩
    · exact ⟨n, rfl, (hincls _).mpr (.inr (.inl rfl))⟩
  inclusions e he := by
    rcases (hincls e).mp he with rfl | rfl | hold
    · exact ⟨i, a, .inr ⟨rfl, rfl⟩, .inr rfl⟩
    · exact ⟨i, a, .inr ⟨rfl, rfl⟩, .inl ⟨n, rfl⟩⟩
    · obtain ⟨j, b, hb, hshape⟩ := h.inclusions e hold
      exact ⟨j, b, .inl hb, hshape⟩
  values j b hb := by
    rcases hb with hb | ⟨rfl, rfl⟩
    · obtain ⟨m, hfact, hblw⟩ := h.values j b hb
      refine ⟨m, ?_, (hincls _).mpr (.inr (.inr hblw))⟩
      rw [hfacts]
      exact mem_append_left _ hfact
    · refine ⟨n, ?_, (hincls _).mpr (.inr (.inl rfl))⟩
      rw [hfacts]
      exact mem_append_right _ (mem_singleton.mpr rfl)
  ranges j b hb := by
    rcases hb with hb | ⟨rfl, rfl⟩
    · exact (hincls _).mpr (.inr (.inr (h.ranges j b hb)))
    · exact (hincls _).mpr (.inl rfl)

theorem Encodes.congr {placed' : ℕ → GroundAtom → Prop} (h : s.Encodes placed)
    (heq : ∀ i a, placed i a ↔ placed' i a) : s.Encodes placed' := by
  have hplace : placed = placed' := by
    funext i a
    exact propext (heq i a)
  rwa [← hplace]

/-- Nothing of the encoding depends on the counters and the named individuals. -/
theorem Encodes.withCounters (h : s.Encodes placed) (names : List Iri) (i j : ℕ) (rules : Bool) :
    Encodes placed { s with
      hasRules := rules
      freshRuleIndividuals := i
      freshRuleDataProperties := j
      axioms := { s.axioms with namedIndividuals := names } } :=
  ⟨h.facts, h.definitions, h.inclusions, h.values, h.ranges⟩

theorem freshRuleDataProperty_eq : s.freshRuleDataProperty = (factProperty s.freshRuleDataProperties,
    { s with freshRuleDataProperties := s.freshRuleDataProperties + 1 }) := rfl

theorem Encodes.ruleToFact (h : s.Encodes placed) (hinds : s.freshRuleIndividuals = i)
    (hprops : s.freshRuleDataProperties = i) (a : GroundAtom) :
    ∃ s', s.ruleToFact order a.atom = .ok s' ∧ s'.freshRuleIndividuals = i + 1 ∧
      s'.freshRuleDataProperties = i + 1 ∧
      s'.Encodes fun j b => placed j b ∨ j = i ∧ b = a := by
  subst hinds
  set t : Normalizer := { s with
    freshRuleIndividuals := s.freshRuleIndividuals + 1
    freshRuleDataProperties := s.freshRuleIndividuals + 1
    axioms := { s.axioms with
      namedIndividuals := insertSet s.axioms.namedIndividuals
        ("internal:nom#swrlfact" ++ s.freshRuleIndividuals.repr) } } with ht
  have henc : t.Encodes placed := h.withCounters _ _ _ _
  obtain ⟨n, hcls, hstate⟩ := define_value order henc a s.freshRuleIndividuals
  have hrun : s.ruleToFact order a.atom = .ok
      (((t.define order (a.value s.freshRuleIndividuals)).2.addFact
        (classFact n s.freshRuleIndividuals)).pushInclusion [a.range s.freshRuleIndividuals]) := by
    rw [GroundAtom.atom, Normalizer.ruleToFact]
    simp only [freshRuleIndividual, freshRuleDataProperty_eq, hprops]
    simp only [classFact, ← hcls]
    rfl
  refine ⟨_, hrun, ?_, ?_, ?_⟩
  · rcases hstate with ⟨-, heq⟩ | heq <;> rw [heq] <;> rfl
  · rcases hstate with ⟨-, heq⟩ | heq <;> rw [heq] <;> rfl
  · rcases hstate with ⟨hblw, heq⟩ | heq
    · rw [heq]
      apply henc.add a (n := n)
      · rfl
      · intro description definition hlook
        exact .inl hlook
      · intro e
        apply mem_cons.trans
        apply or_congr_right
        exact (or_iff_right_of_imp fun heq => heq ▸ hblw).symm
    · rw [heq]
      apply henc.add a (n := n)
      · rfl
      · intro description definition hlook
        have hins : (s.definitions.insert (a.value s.freshRuleIndividuals)
            (.class (definitionName n))).lookup description = some definition := hlook
        by_cases hkey : description = a.value s.freshRuleIndividuals
        · subst hkey
          rw [AList.lookup_insert] at hins
          exact .inr ⟨rfl, (Option.some.inj hins).symm⟩
        · rw [AList.lookup_insert_ne hkey] at hins
          exact .inl hins
      · intro e
        exact mem_cons.trans (or_congr_right mem_cons)

/-! ## Runs over rules -/

theorem Encodes.ruleToFacts (head : List GroundAtom) (h : s.Encodes placed)
    (hinds : s.freshRuleIndividuals = i) (hprops : s.freshRuleDataProperties = i) :
    ∃ s', (head.map GroundAtom.atom).foldlM (fun s atom => s.ruleToFact order atom) s = .ok s' ∧
      s'.Encodes fun j a => placed j a ∨ ∃ k, head[k]? = some a ∧ j = i + k := by
  induction head generalizing s i placed with
  | nil => exact ⟨s, rfl, h.congr fun j a => by simp⟩
  | cons a head ih =>
    obtain ⟨t, ht, hinds, hprops, henc⟩ := h.ruleToFact order hinds hprops a
    obtain ⟨s', hs', henc'⟩ := ih henc hinds hprops
    refine ⟨s', ?_, henc'.congr fun j b => ?_⟩
    · rw [map_cons, foldlM_cons, ht]
      exact hs'
    · rw [or_assoc]
      apply or_congr_right
      constructor
      · rintro (⟨rfl, rfl⟩ | ⟨k, hk, rfl⟩)
        · exact ⟨0, rfl, rfl⟩
        · exact ⟨k + 1, hk, by omega⟩
      · rintro ⟨_ | k, hk, rfl⟩
        · exact .inl ⟨rfl, (Option.some.inj hk).symm⟩
        · exact .inr ⟨k, hk, by omega⟩

theorem visitRule_groundAtoms (s : Normalizer) (head : List GroundAtom) :
    s.visitRule order [] (head.map GroundAtom.atom) =
      (head.map GroundAtom.atom).foldlM (fun s atom => s.ruleToFact order atom)
        { s with hasRules := true, freshRuleIndividuals := 0, freshRuleDataProperties := 0 } := by
  simp only [Normalizer.visitRule, nil_append, filterMap_map, Function.comp_def,
    GroundAtom.atom, filterMap_none]
  rfl

theorem Encodes.visitRule (h : s.Encodes placed) (head : List GroundAtom) :
    ∃ s', s.visitRule order [] (head.map GroundAtom.atom) = .ok s' ∧
      s'.Encodes fun i a => placed i a ∨ head[i]? = some a := by
  have henc := h.withCounters s.axioms.namedIndividuals 0 0 true
  obtain ⟨s', hs', henc'⟩ := henc.ruleToFacts order head rfl rfl
  refine ⟨s', ?_, henc'.congr fun i a => by simp⟩
  rw [visitRule_groundAtoms]
  exact hs'

/-- The axiom visitor's run over rules without a body. -/
def visitRules (s : Normalizer) (rules : List (List GroundAtom)) : Except Failure Normalizer :=
  rules.foldlM (fun s head => s.visitRule order [] (head.map GroundAtom.atom)) s

theorem Encodes.visitRules (rules : List (List GroundAtom)) (h : s.Encodes placed) :
    ∃ s', s.visitRules order rules = .ok s' ∧
      s'.Encodes fun i a => placed i a ∨ ∃ head ∈ rules, head[i]? = some a := by
  induction rules generalizing s placed with
  | nil => exact ⟨s, rfl, h.congr fun i a => by simp⟩
  | cons head rules ih =>
    obtain ⟨t, ht, henc⟩ := h.visitRule order head
    obtain ⟨s', hs', henc'⟩ := ih henc
    refine ⟨s', ?_, henc'.congr fun i a => by simp [or_assoc]⟩
    rw [Normalizer.visitRules, foldlM_cons, ht]
    exact hs'

/-- The normaliser before any axiom. -/
def start (index : ℕ) : Normalizer := { OwlNormalization.new {} index, ({} : AxiomState) with }

theorem encodes_start (index : ℕ) : (start index).Encodes fun _ _ => False where
  facts f hf := absurd hf not_mem_nil
  definitions description definition h := by simp [start, OwlNormalization.new] at h
  inclusions e he := absurd he not_mem_nil
  values _ _ h := h.elim
  ranges _ _ h := h.elim

end Normalizer

/-- Every atom has its literal in its own data range. -/
def OwnRange {Val : Type v} (map : DatatypeMap Val) (rules : List (List GroundAtom)) : Prop :=
  ∀ head ∈ rules, ∀ a ∈ head, map.InRange a a

/-- Every atom has its literal in the data ranges of the atoms at its position in all rules. -/
def SharedRange {Val : Type v} (map : DatatypeMap Val) (rules : List (List GroundAtom)) : Prop :=
  ∀ head ∈ rules, ∀ head' ∈ rules, ∀ (i : ℕ) (a b : GroundAtom), head[i]? = some a →
    head'[i]? = some b → map.InRange a b

variable {rules : List (List GroundAtom)}

theorem SharedRange.ownRange {Val : Type v} {map : DatatypeMap Val}
    (h : SharedRange map rules) : OwnRange map rules := by
  intro head hhead a ha
  obtain ⟨i, hi⟩ := mem_iff_getElem?.mp ha
  exact h head hhead head hhead i a a hi hi

theorem Normalizer.Encodes.consistent_iff_sharedRange {Val : Type v} {s : Normalizer}
    (h : s.Encodes fun i a => False ∨ ∃ head ∈ rules, head[i]? = some a) (map : DatatypeMap Val) :
    Consistent.{u} map s ↔ SharedRange map rules := by
  rw [h.consistent_iff]
  constructor
  · intro hrng head hhead head' hhead' i a b ha hb
    exact hrng i a b (.inr ⟨head, hhead, ha⟩) (.inr ⟨head', hhead', hb⟩)
  · rintro hshare i a b (hfls | ⟨head, hhead, ha⟩) (hfls' | ⟨head', hhead', hb⟩)
    · exact hfls.elim
    · exact hfls.elim
    · exact hfls'.elim
    · exact hshare head hhead head' hhead' i a b ha hb

/-- The facts of the rules are consistent exactly when every literal is in its own data range,
if and only if atoms that are right by themselves do not meet at a position of two rules in
a data range without both literals. -/
theorem ruleFacts_exact_iff {Val : Type v} (order : ExpressionOrder) (map : DatatypeMap Val)
    (index : ℕ) (rules : List (List GroundAtom)) :
    ∃ s, (Normalizer.start index).visitRules order rules = .ok s ∧
      ((Normalizer.Consistent.{u} map s ↔ OwnRange map rules) ↔
        (OwnRange map rules → SharedRange map rules)) := by
  obtain ⟨s, hs, henc⟩ := (Normalizer.encodes_start index).visitRules order rules
  refine ⟨s, hs, ?_⟩
  rw [henc.consistent_iff_sharedRange map]
  exact ⟨Iff.mpr, fun h => ⟨SharedRange.ownRange, h⟩⟩

/-- The strings as the values of the literals, all datatypes and facets unrestricted. -/
def stringMap : DatatypeMap Lit where
  datatypes _ := Set.univ
  datatypes_literal := rfl
  literals := id
  facets _ := Set.univ

/-- Two rules of one atom each, a string in the enumeration of itself. -/
def clashingRules : List (List GroundAtom) :=
  [[⟨.dataOneOf [.simple "a"], .simple "a"⟩], [⟨.dataOneOf [.simple "b"], .simple "b"⟩]]

theorem ruleFacts_clashingRules : OwnRange stringMap clashingRules ∧
      ∃ s, (Normalizer.start 0).visitRules structuralOrder clashingRules = .ok s ∧
        ¬ Normalizer.Consistent.{0} stringMap s := by
  constructor
  · intro head hhead a ha
    simp only [clashingRules, mem_cons, not_mem_nil, or_false] at hhead
    rcases hhead with rfl | rfl
    · obtain rfl := mem_singleton.mp ha
      exact ⟨_, mem_singleton.mpr rfl, rfl⟩
    · obtain rfl := mem_singleton.mp ha
      exact ⟨_, mem_singleton.mpr rfl, rfl⟩
  · obtain ⟨s, hs, henc⟩ := (Normalizer.encodes_start 0).visitRules structuralOrder clashingRules
    refine ⟨s, hs, ?_⟩
    rw [henc.consistent_iff_sharedRange stringMap]
    intro hshare
    obtain ⟨l, hl, heq⟩ := hshare _ mem_cons_self _
      (mem_cons_of_mem _ (mem_singleton.mpr rfl)) 0 _ _ rfl rfl
    rw [mem_singleton.mp hl] at heq
    exact absurd heq (by decide)

end Hermit
