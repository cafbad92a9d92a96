import Hermit.Library.Cardinality
import Hermit.Library.Pointwise
import Hermit.Structural.ClauseEmission
import Hermit.Structural.NormalForm

/-! # The parts of a clause

What the clausifier adds for a nominal, for a filler and for the successors of an
at-most restriction.
-/

namespace Hermit

open List hiding le_antisymm not_lt
open Function

open Library ClauseInterp AxiomClausifier

variable {Dom Val : Type*} {I : ClauseInterp Dom Val}

/-- The clause vocabulary is read as the OWL names it was converted from, and the concept of
a nominal as the nominal. -/
structure ClauseInterp.Agrees (I : ClauseInterp Dom Val)
    (converter : DataRangeConverter) : Prop where
  individual : ∀ i, I.individual (getIndividual i) = I.individuals i
  constant : ∀ l, I.constant (converter.convertLiteralRecording l) = I.literals l
  facet : ∀ f : FacetRestriction,
    I.facet (facetIri f.f) (converter.convertLiteralRecording f.l) = I.facets f
  nominal : ∀ i, I.classes (nominalConcept i).iri = {I.individuals i}

/-- The property of a disjunct is a role of the kind the disjunct needs. -/
def ClauseInterp.rolesTyped (I : ClauseInterp Dom Val) : ClassExpr → Prop
  | .objectComplementOf (.objectHasSelf ope) => ¬ I.isDataRole (namedProperty ope)
  | .objectSomeValuesFrom ope _ => ¬ I.isDataRole (namedProperty ope)
  | .objectAllValuesFrom ope _ => ¬ I.isDataRole (namedProperty ope)
  | .objectHasSelf ope => ¬ I.isDataRole (namedProperty ope)
  | .objectMinCardinality _ ope _ => ¬ I.isDataRole (namedProperty ope)
  | .objectMaxCardinality _ ope _ => ¬ I.isDataRole (namedProperty ope)
  | .dataSomeValuesFrom dp _ => I.isDataRole dp
  | .dataAllValuesFrom dp _ => I.isDataRole dp
  | .dataMinCardinality _ dp _ => I.isDataRole dp
  | .dataMaxCardinality _ dp _ => I.isDataRole dp
  | _ => True

/-- The numbers of a disjunct fit into a signed 32-bit integer. -/
def cardinalityFits : ClassExpr → Prop
  | .objectMinCardinality n _ _ => n < 2 ^ 31
  | .objectMaxCardinality n _ _ => n < 2 ^ 31
  | .dataMinCardinality n _ _ => n < 2 ^ 31
  | .dataMaxCardinality n _ _ => n < 2 ^ 31
  | _ => True

/-! ## Names -/

section names

variable {σ : Variable → Dom ⊕ Val} {s t : Term}

theorem atom_getRoleAtomObject {ope : ObjectPropExpr} (hope : ¬ I.isDataRole (namedProperty ope)) :
    I.atom σ (getRoleAtomObject ope s t) ↔
      ∃ x y, I.term σ s = .inl x ∧ I.term σ t = .inl y ∧ I.role ope x y := by
  cases ope with
  | objectProperty p | inverseObjectProperty p =>
    simp only [atom, getRoleAtomObject, holds, map_cons, map_nil]
    cases hs : I.term σ s <;> cases ht : I.term σ t <;>
      simp_all [atomicRole, Interp.role, namedProperty]

theorem atom_getRoleAtomData {dp : Iri} (hdp : I.isDataRole dp) :
    I.atom σ (getRoleAtomData dp s t) ↔
      ∃ x d, I.term σ s = .inl x ∧ I.term σ t = .inr d ∧ I.dataProperties dp x d := by
  simp only [atom, getRoleAtomData, holds, map_cons, map_nil]
  cases hs : I.term σ s <;> cases ht : I.term σ t <;> simp_all [atomicRole]

theorem atom_unaryAtom {p : AtomicConcept} :
    I.atom σ (unaryAtom p t) ↔ ∃ x, I.term σ t = .inl x ∧ x ∈ I.classes p.iri := by
  simp only [atom, unaryAtom, map_cons, map_nil]
  cases ht : I.term σ t <;> simp [holds]

theorem atom_equalityAtom : I.atom σ (equalityAtom s t) ↔ I.term σ s = I.term σ t := by
  rfl

theorem atom_dataRange {r : LiteralDataRange} :
    I.atom σ ⟨.dataRange r, [t], rfl⟩ ↔ ∃ d, I.term σ t = .inr d ∧ d ∈ I.literalDataRange r := by
  simp only [atom, map_cons, map_nil]
  cases ht : I.term σ t <;> simp [holds]

end names

theorem objectRole_getRole (ope : ObjectPropExpr) (x y : Dom) :
    I.objectRole (getRole ope) x y ↔ I.role ope x y := by
  cases ope with
  | objectProperty p => rfl
  | inverseObjectProperty p =>
    simp only [getRole, AtomicRole.getInverse]
    split
    · rename_i h
      rcases h with rfl | rfl
      · exact iff_of_true (I.objectProperties_top x y) (I.objectProperties_top y x)
      · exact iff_of_false (I.objectProperties_bottom x y) (I.objectProperties_bottom y x)
    · rfl

theorem literalConcept_getNegation (c : AtomicConcept) :
    I.literalConcept c.getNegation = (I.classes c.iri)ᶜ := by
  unfold AtomicConcept.getNegation
  split
  · rename_i h
    subst h
    simp [literalConcept, AtomicConcept.thing, AtomicConcept.nothing,
      I.classes_thing, I.classes_nothing]
  · split
    · rename_i h
      subst h
      simp [literalConcept, AtomicConcept.thing, AtomicConcept.nothing,
        I.classes_thing, I.classes_nothing]
    · rfl

theorem exists_getLiteralConcept {bce : ClassExpr} (h : isSimple bce) :
    ∃ toConcept, getLiteralConcept bce = some toConcept ∧
      I.literalConcept toConcept = I.expr bce := by
  rcases (isSimple_iff bce).mp h with ⟨c, rfl⟩ | ⟨c, rfl⟩
  · exact ⟨_, rfl, rfl⟩
  · exact ⟨_, rfl, literalConcept_getNegation ⟨c⟩⟩

theorem classes_of_isAlwaysFalse {c : AtomicConcept} (h : c.isAlwaysFalse) :
    I.classes c.iri = ∅ := by
  have : c = .nothing := by simpa [AtomicConcept.isAlwaysFalse] using h
  rw [this]
  exact I.classes_nothing

theorem classes_of_isAlwaysTrue {c : AtomicConcept} (h : c.isAlwaysTrue) :
    I.classes c.iri = Set.univ := by
  have : c = .thing := by simpa [AtomicConcept.isAlwaysTrue] using h
  rw [this]
  exact I.classes_thing

theorem literalConcept_of_isAlwaysFalse {l : LiteralConcept} (h : l.isAlwaysFalse) :
    I.literalConcept l = ∅ := by
  cases l with
  | atomicConcept c => exact classes_of_isAlwaysFalse h
  | atomicNegationConcept c =>
    simp [literalConcept, classes_of_isAlwaysTrue (I := I) h]

theorem literalDataRange_getNegation (r : LiteralDataRange) :
    I.literalDataRange r.getNegation = (I.literalDataRange r)ᶜ := by
  cases r <;> simp [LiteralDataRange.getNegation, literalDataRange]

theorem datatypes_of_isAlwaysTrue {d : InternalDatatype} (h : d.isAlwaysTrue) :
    I.datatypes d.iri = Set.univ := by
  have : d = .rdfsLiteral := by simpa [InternalDatatype.isAlwaysTrue] using h
  rw [this]
  exact I.datatypes_literal

theorem literalDataRange_of_isAlwaysFalse {r : LiteralDataRange} (h : r.isAlwaysFalse) :
    I.literalDataRange r = ∅ := by
  cases r with
  | atomic r =>
    cases r with
    | datatypeRestriction r | internalDatatype r =>
      simp [LiteralDataRange.isAlwaysFalse, AtomicDataRange.isAlwaysFalse] at h
    | constantEnumeration r =>
      have hr : r.constants = ∅ := by
        simpa [LiteralDataRange.isAlwaysFalse, AtomicDataRange.isAlwaysFalse] using h
      simp [literalDataRange, atomicDataRange, hr]
  | atomicNegationDataRange r =>
    cases r with
    | datatypeRestriction r | constantEnumeration r =>
      simp [LiteralDataRange.isAlwaysFalse, AtomicDataRange.isAlwaysTrue] at h
    | internalDatatype r =>
      simp [literalDataRange, atomicDataRange, datatypes_of_isAlwaysTrue (I := I) h]

section

variable {converter : DataRangeConverter} (hI : I.Agrees converter)
include hI

theorem atomicDataRange_of_isAtomic {dr : DataRangeExpr} (h : isAtomic dr)
    (hfac : hasNoLiteralFacets dr) :
    ∃ r, converter.convertDataRange dr = some (.atomic r) ∧
    I.atomicDataRange r = I.dataRange dr := by
  cases dr with
  | datatype d =>
    simp only [DataRangeConverter.convertDataRange]
    split
    · rename_i hd
      exact ⟨_, rfl, by rw [hd]; rfl⟩
    · split
      · exact ⟨_, rfl, rfl⟩
      · refine ⟨_, rfl, ?_⟩
        ext v
        simp [atomicDataRange]
  | dataOneOf values =>
    refine ⟨_, rfl, ?_⟩
    ext v
    simp [atomicDataRange, hI.constant, Interp.dataRange]
  | datatypeRestriction d facets =>
    simp only [DataRangeConverter.convertDataRange]
    split
    · rename_i hd
      have hnil : facets = [] := by simpa [hasNoLiteralFacets, hd] using hfac
      rw [if_pos hnil]
      refine ⟨_, rfl, ?_⟩
      ext v
      simp [atomicDataRange, Interp.dataRange, hnil, hd, InternalDatatype.rdfsLiteral]
    · refine ⟨_, rfl, ?_⟩
      ext v
      simp only [atomicDataRange, Interp.dataRange, zip_map', forall_mem_map, hI.facet]
  | dataIntersectionOf operands | dataUnionOf operands | dataComplementOf operand =>
    simp [isAtomic] at h

theorem exists_convertDataRange {dr : DataRangeExpr} (h : isLiteral dr)
    (hfac : hasNoLiteralFacets dr) :
    ∃ r, converter.convertDataRange dr = some r ∧ I.literalDataRange r = I.dataRange dr := by
  rcases Bool.or_eq_true_iff.mp h with h | h
  · obtain ⟨r, hr, heq⟩ := atomicDataRange_of_isAtomic hI h hfac
    exact ⟨.atomic r, hr, heq⟩
  · cases dr with
    | dataComplementOf inner =>
      have hinn : hasNoLiteralFacets inner := by
        cases inner <;> simp_all [hasNoLiteralFacets, isNegatedAtomic, isAtomic]
      obtain ⟨r, hr, heq⟩ := atomicDataRange_of_isAtomic hI h hinn
      refine ⟨.atomicNegationDataRange r, ?_, ?_⟩
      · rw [DataRangeConverter.convertDataRange, hr]
        rfl
      · change (I.atomicDataRange r)ᶜ = (I.dataRange inner)ᶜ
        rw [heq]
    | _ => simp [isNegatedAtomic] at h

end

theorem variables_unaryAtom (p : AtomicConcept) (v : Variable) :
    (unaryAtom p (.variable v)).variables = [v] := rfl

theorem variables_equalityAtom (v w : Variable) :
    (equalityAtom (.variable v) (.variable w)).variables = [v, w] := rfl

variable {ope : ObjectPropExpr} {c' : AxiomClausifier} {S : Set Dom}

theorem mem_variables_getRoleAtomObject {v w u : Variable} :
    u ∈ (getRoleAtomObject ope (.variable v) (.variable w)).variables ↔ u = v ∨ u = w := by
  cases ope <;> simp [getRoleAtomObject, Atom.variables, Term.asVariable, or_comm]

variable {converter : DataRangeConverter} {V : Set Variable} {c : AxiomClausifier}

theorem atom_nominal (hI : I.Agrees converter) {σ : Variable → Dom ⊕ Val} {t : Term} (i : Individ) :
    I.atom σ (unaryAtom (nominalConcept i) t) ↔ I.term σ t = .inl (I.individuals i) := by
  rw [atom_unaryAtom, hI.nominal]
  simp

/-- One individual of a nominal: a fresh variable bound to it. -/
theorem emits_bindNominal (hI : I.Agrees converter) {head : Term → Atom}
    {Q : (Variable → Dom ⊕ Val) → Dom ⊕ Val → Prop}
    (hQ : ∀ σ z, I.atom σ (head (.variable z)) ↔ Q σ (σ z)) (hdep : ∀ t, DependsOn (Q · t) V)
    (hvars : ∀ z, ∀ v ∈ (head (.variable z)).variables, v ∈ V ∨ v = z)
    (hV : ∀ v ∈ V, v ∉ c.future) (hbd : ∀ v ∈ V, v = ⟨"X"⟩ ∨ ∃ b ∈ c.bodyAtoms, v ∈ b.variables)
    (i : Individ) :
    Emits I V c ((c.nextZ.2.pushHead (head (.variable c.nextZ.1))).pushBody
        (unaryAtom (nominalConcept i) (.variable c.nextZ.1)))
      [unaryAtom (nominalConcept i) (.variable c.nextZ.1)] [head (.variable c.nextZ.1)]
      fun σ => Q σ (.inl (I.individuals i)) := by
  have hz : c.nextZ.1 ∈ c.future := .inr ⟨_, le_rfl, rfl⟩
  have hX : (⟨"X"⟩ : Variable) ≠ c.nextZ.1 := fun h => notMem_future_X (h ▸ hz)
  have hblock : c.block ((c.nextZ.2.pushHead (head (.variable c.nextZ.1))).pushBody
      (unaryAtom (nominalConcept i) (.variable c.nextZ.1))) = {c.nextZ.1} := by
    ext v
    constructor
    · rintro (⟨j, hj, hlt, -⟩ | ⟨j, hj, hlt, rfl⟩)
      · exact absurd hlt (not_lt.mpr hj)
      · have hjz : j = c.zIndex := le_antisymm (Nat.lt_succ_iff.mp hlt) hj
        rw [hjz]
        rfl
    · rintro rfl
      exact .inr ⟨_, le_rfl, Nat.lt_succ_self _, rfl⟩
  constructor
  · rfl
  · rfl
  · exact le_rfl
  · exact Nat.le_succ _
  · intro b hb v hv
    rw [mem_singleton] at hb
    rw [hb, variables_unaryAtom, mem_singleton] at hv
    rw [hv, hblock]
    exact .inr rfl
  · intro h hh v hv
    rw [mem_singleton] at hh
    rw [hh] at hv
    rw [hblock]
    exact hvars _ v hv
  · intro σ b hb hv
    rw [mem_singleton] at hb
    rw [hb, variables_unaryAtom, mem_singleton] at hv
    exact absurd hv hX
  · intro h hh v hv
    rw [mem_singleton] at hh
    rw [hh] at hv
    rcases hvars _ v hv with hv | rfl
    · rcases hbd v hv with hX | ⟨b, hb, hvb⟩
      · exact .inl hX
      · exact .inr ⟨b, mem_append_left _ hb, hvb⟩
    · exact .inr ⟨_, mem_append_right _ (mem_singleton_self _), mem_singleton_self _⟩
  · intro σ hσ
    have hread : ∀ t, Q (Function.update σ c.nextZ.1 t) t = Q σ t := by
      intro t
      apply hdep t
      intro v hv
      apply update_of_ne
      rintro rfl
      exact hV _ hv hz
    rw [hblock, ← insert_empty_eq, forallOver_insert]
    have hemp : ∀ τ, ForallOver ∅ (I.implies [unaryAtom (nominalConcept i) (.variable c.nextZ.1)]
        [head (.variable c.nextZ.1)]) τ ↔
          (τ c.nextZ.1 = .inl (I.individuals i) → Q τ (τ c.nextZ.1)) := by
      intro τ
      rw [forallOver_of_dependsOn (by rw [Set.compl_empty]; exact dependsOn_univ _)]
      simp [implies, atom_nominal hI, hQ, term]
    simp only [hemp, update_self, hread]
    simp

theorem exists_emits_bindNominals (hI : I.Agrees converter) (head : Term → Atom)
    (Q : (Variable → Dom ⊕ Val) → Dom ⊕ Val → Prop)
    (hQ : ∀ σ z, I.atom σ (head (.variable z)) ↔ Q σ (σ z)) (hdep : ∀ t, DependsOn (Q · t) V)
    (hvars : ∀ z, ∀ v ∈ (head (.variable z)).variables, v ∈ V ∨ v = z)
    (individuals : List Individ) (c : AxiomClausifier) (facts : List Atom)
    (hV : ∀ v ∈ V, v ∉ c.future)
    (hbd : ∀ v ∈ V, v = ⟨"X"⟩ ∨ ∃ b ∈ c.bodyAtoms, v ∈ b.variables) :
    ∃ body hd, Emits I V c (bindNominals head individuals (c, facts)).1 body hd
      fun σ => ∃ i ∈ individuals, Q σ (.inl (I.individuals i)) := by
  induction individuals generalizing c facts with
  | nil =>
    refine ⟨[], [], (Emits.idle rfl rfl le_rfl le_rfl).congr ?_⟩
    simp
  | cons i individuals ih =>
    have hone := emits_bindNominal hI hQ hdep hvars hV hbd i
    obtain ⟨body, hd, hrest⟩ := ih ((c.nextZ.2.pushHead (head (.variable c.nextZ.1))).pushBody
        (unaryAtom (nominalConcept i) (.variable c.nextZ.1)))
      (insertSet facts (nominalFact i))
      (fun v hv hf => hV v hv (future_anti hone.yIndex_le hone.zIndex_le hf))
      (fun v hv => (hbd v hv).imp_right fun ⟨b, hb, hvb⟩ => ⟨b, mem_append_left _ hb, hvb⟩)
    refine ⟨_, _, (hone.trans hrest hV).congr ?_⟩
    simp

theorem bindSuccessors_eq (body head : Term → List Atom) (count : ℕ) (c : AxiomClausifier) :
    bindSuccessors body head count c =
      let ys := (List.range' c.yIndex count).map (indexedVariable "Y")
      (ys, { c with
        bodyAtoms := c.bodyAtoms ++ ys.flatMap fun y => body (.variable y)
        headAtoms := c.headAtoms ++ ys.flatMap fun y => head (.variable y)
        yIndex := c.yIndex + count }) := by
  induction count generalizing c with
  | zero => simp [bindSuccessors]
  | succ count ih =>
    simp only [bindSuccessors, nextY, ih, range'_succ,
      map_cons, flatMap_cons, append_assoc, add_assoc, add_comm 1 count]

theorem exists_orderedPairs {α β : Type*} (f : α → β) (l : List α) :
    (∃ p ∈ orderedPairs l, f p.1 = f p.2) ↔ ¬ (l.map f).Nodup := by
  induction l with
  | nil => simp [orderedPairs]
  | cons a l ih =>
    simp only [orderedPairs, mem_append, mem_map, or_and_right, exists_or, ih,
      map_cons, nodup_cons, not_and_or, not_not]
    apply or_congr_left
    constructor
    · rintro ⟨_, ⟨b, hb, rfl⟩, h⟩
      exact ⟨b, hb, h.symm⟩
    · rintro ⟨b, hb, h⟩
      exact ⟨_, ⟨b, hb, rfl⟩, h.symm⟩

theorem comparisonAtoms_iff (σ : Variable → Dom ⊕ Val) (ys : List Variable) :
    (∀ b ∈ comparisonAtoms ys, I.atom σ b) ↔ @Compared _ I.order (ys.map σ) := by
  unfold comparisonAtoms Compared
  rw [length_map]
  split
  · rename_i h
    simp only [forall_mem_append, forall_mem_map, forall_mem_singleton]
    have hle : (∀ p ∈ ys.zip ys.tail,
        I.atom σ ⟨.nodeIdLessEqualThan, [.variable p.1, .variable p.2], rfl⟩) ↔
          (ys.map σ).IsChain I.order.le :=
      forall_zip_tail I.order.le σ ys
    rw [hle]
    have hasc : I.atom σ ⟨.nodeIDsAscendingOrEqual ys.length, ys.map .variable,
        by simp [DLPredicate.arity]⟩ ↔ (ys.map σ).IsChain I.order.lt ∨ (ys.map σ).IsChain Eq := by
      simp only [atom, holds, map_map]
      rfl
    rw [hasc]
    simp [h]
  · rename_i h
    simp [h]

theorem mem_block_iff_of_yIndex {c : AxiomClausifier} {count : ℕ}
    (hy : c'.yIndex = c.yIndex + count) (hz : c'.zIndex = c.zIndex) (v : Variable) :
    v ∈ c.block c' ↔ v ∈ (List.range' c.yIndex count).map (indexedVariable "Y") := by
  simp only [block, hy, hz, mem_map, mem_range'_1]
  constructor
  · rintro (⟨i, hi, hlt, rfl⟩ | ⟨i, hi, hlt, -⟩)
    · exact ⟨i, ⟨hi, hlt⟩, rfl⟩
    · exact absurd hlt (not_lt.mpr hi)
  · rintro ⟨i, ⟨hi, hlt⟩, rfl⟩
    exact .inl ⟨i, hi, hlt, rfl⟩

variable {extraBody extraHead : List Atom}

/-- Fresh successors with their own atoms, and atoms about all of them. -/
theorem emits_bindSuccessors (body head : Term → List Atom)
    (Φ : Dom ⊕ Val → List (Dom ⊕ Val) → Prop) {count : ℕ} {c : AxiomClausifier} {ys : List Variable}
    (hys : ys = (List.range' c.yIndex count).map (indexedVariable "Y"))
    (hbody' : c'.bodyAtoms = c.bodyAtoms ++ (ys.flatMap (fun y => body (.variable y)) ++ extraBody))
    (hhead' : c'.headAtoms = c.headAtoms ++ (ys.flatMap (fun y => head (.variable y)) ++ extraHead))
    (hy : c'.yIndex = c.yIndex + count) (hz : c'.zIndex = c.zIndex)
    (hbody : ∀ y, ∀ b ∈ body (.variable y), ∀ v ∈ b.variables, v = ⟨"X"⟩ ∨ v = y)
    (hhead : ∀ y, ∀ h ∈ head (.variable y), ∀ v ∈ h.variables, v = ⟨"X"⟩ ∨ v = y)
    (hoccurs : ∀ y, ∃ b ∈ body (.variable y), y ∈ b.variables)
    (hobj : ∀ σ y, y ≠ ⟨"X"⟩ → ∀ b ∈ body (.variable y), ⟨"X"⟩ ∈ b.variables → I.atom σ b →
      IsObject (σ ⟨"X"⟩)) (hextraBody : ∀ b ∈ extraBody, ∀ v ∈ b.variables, v ∈ ys)
    (hextraHead : ∀ h ∈ extraHead, ∀ v ∈ h.variables, v = ⟨"X"⟩ ∨ v ∈ ys)
    (hΦ : ∀ τ, I.implies (ys.flatMap (fun y => body (.variable y)) ++ extraBody)
      (ys.flatMap (fun y => head (.variable y)) ++ extraHead) τ ↔ Φ (τ ⟨"X"⟩) (ys.map τ)) :
    Emits I {⟨"X"⟩} c c' (ys.flatMap (fun y => body (.variable y)) ++ extraBody)
      (ys.flatMap (fun y => head (.variable y)) ++ extraHead)
      fun σ => ∀ ts : List (Dom ⊕ Val), ts.length = count → Φ (σ ⟨"X"⟩) ts := by
  have hmem : ∀ v, v ∈ c.block c' ↔ v ∈ ys := by
    intro v
    rw [hys]
    exact mem_block_iff_of_yIndex hy hz v
  have hX : (⟨"X"⟩ : Variable) ∉ ys := by
    rw [← hmem]
    exact fun h => notMem_future_X (block_subset_future h)
  have hnd : ys.Nodup := by
    rw [hys]
    exact List.Nodup.map (indexedVariable_injective "Y") nodup_range'
  constructor
  · exact hbody'
  · exact hhead'
  · omega
  · exact hz.ge
  · intro b hb v hv
    rw [Set.mem_union, hmem]
    rcases mem_append.mp hb with hb | hb
    · obtain ⟨y, hyys, hby⟩ := mem_flatMap.mp hb
      rcases hbody y b hby v hv with rfl | rfl
      · exact .inl rfl
      · exact .inr hyys
    · exact .inr (hextraBody b hb v hv)
  · intro h hh v hv
    rw [Set.mem_union, hmem]
    rcases mem_append.mp hh with hh | hh
    · obtain ⟨y, hyys, hhy⟩ := mem_flatMap.mp hh
      rcases hhead y h hhy v hv with rfl | rfl
      · exact .inl rfl
      · exact .inr hyys
    · exact hextraHead h hh v hv
  · intro σ b hb hv hatom
    rcases mem_append.mp hb with hb | hb
    · obtain ⟨y, hyys, hby⟩ := mem_flatMap.mp hb
      exact hobj σ y (fun h => hX (h ▸ hyys)) b hby hv hatom
    · exact absurd (hextraBody b hb _ hv) hX
  · intro h hh v hv
    have hbd : ∀ w ∈ ys, ∃ b ∈ c'.bodyAtoms, w ∈ b.variables := by
      intro w hw
      obtain ⟨b, hb, hwb⟩ := hoccurs w
      rw [hbody']
      exact ⟨b, mem_append_right _ (mem_append_left _ (mem_flatMap.mpr ⟨w, hw, hb⟩)), hwb⟩
    rcases mem_append.mp hh with hh | hh
    · obtain ⟨y, hyys, hhy⟩ := mem_flatMap.mp hh
      rcases hhead y h hhy v hv with rfl | rfl
      · exact .inl rfl
      · exact .inr (hbd v hyys)
    · exact (hextraHead h hh v hv).imp_right (hbd v)
  · intro σ _
    have hlen : ys.length = count := by
      rw [hys, length_map, length_range']
    have hblock : c.block c' = {v | v ∈ ys} := Set.ext hmem
    rw [hblock, ← hlen]
    apply forallOver_list hnd
    intro τ hτ
    rw [hΦ, hτ hX]

/-- What the atoms of successors say, from what those of one successor say. -/
theorem implies_successors (body head : Term → List Atom) (G : Dom ⊕ Val → Dom ⊕ Val → Prop)
    (K : Dom ⊕ Val → Prop) {ys : List Variable} {E : List (Dom ⊕ Val) → Prop}
    (hG : ∀ τ y, (∀ b ∈ body (.variable y), I.atom τ b) ↔ G (τ ⟨"X"⟩) (τ y))
    (hK : ∀ τ y, (∃ h ∈ head (.variable y), I.atom τ h) ↔ K (τ y))
    (hE : ∀ τ, (∀ b ∈ extraBody, I.atom τ b) ↔ E (ys.map τ))
    (hpairs : ∀ τ, (∃ h ∈ extraHead, I.atom τ h) ↔ ¬ (ys.map τ).Nodup) (τ : Variable → Dom ⊕ Val) :
    I.implies (ys.flatMap (fun y => body (.variable y)) ++ extraBody)
        (ys.flatMap (fun y => head (.variable y)) ++ extraHead) τ ↔
      ((∀ t ∈ ys.map τ, G (τ ⟨"X"⟩) t) → E (ys.map τ) →
        (∃ t ∈ ys.map τ, K t) ∨ ¬ (ys.map τ).Nodup) := by
  have hhead : (∃ h ∈ ys.flatMap (fun y => head (.variable y)) ++ extraHead, I.atom τ h) ↔
      (∃ t ∈ ys.map τ, K t) ∨ ¬ (ys.map τ).Nodup := by
    rw [← hpairs τ]
    simp only [mem_append, or_and_right, exists_or, mem_flatMap]
    apply or_congr_left
    constructor
    · rintro ⟨h, ⟨y, hy, hh⟩, ha⟩
      exact ⟨τ y, mem_map_of_mem hy, (hK τ y).mp ⟨h, hh, ha⟩⟩
    · rintro ⟨t, ht, hKt⟩
      obtain ⟨y, hy, rfl⟩ := mem_map.mp ht
      obtain ⟨h, hh, ha⟩ := (hK τ y).mpr hKt
      exact ⟨h, ⟨y, hy, hh⟩, ha⟩
  have hbody : (∀ b ∈ ys.flatMap (fun y => body (.variable y)) ++ extraBody, I.atom τ b) ↔
      (∀ t ∈ ys.map τ, G (τ ⟨"X"⟩) t) ∧ E (ys.map τ) := by
    rw [forall_mem_append, hE τ]
    apply and_congr_left'
    simp only [forall_mem_map, ← hG, mem_flatMap]
    constructor
    · intro h y hy b hb
      exact h b ⟨y, hy, hb⟩
    · rintro h b ⟨y, hy, hb⟩
      exact h y hy b hb
  unfold implies
  rw [hhead, hbody, and_imp]

/-- The elements of a set, as a condition on the valuation of `X`. -/
def atX (S : Set Dom) (σ : Variable → Dom ⊕ Val) : Prop := ∃ x ∈ S, σ ⟨"X"⟩ = .inl x

theorem atX_iff {σ : Variable → Dom ⊕ Val} {x : Dom} (h : σ ⟨"X"⟩ = .inl x) :
    atX S σ ↔ x ∈ S := by
  simp [atX, h]

section

variable {a : Atom} (hvars : ∀ v ∈ a.variables, v = ⟨"X"⟩)
include hvars

theorem emits_pushHead (ha : ∀ σ x, σ ⟨"X"⟩ = .inl x → (I.atom σ a ↔ x ∈ S)) :
    Emits I {⟨"X"⟩} c (c.pushHead a) [] [a] (atX S) := by
  apply Emits.congr (Emits.pushHead (by simpa using hvars) (by simp))
  rintro σ ⟨x, hx⟩
  rw [ha σ x hx, atX_iff hx]

theorem emits_pushBody (hobj : ∀ σ, I.atom σ a → IsObject (σ ⟨"X"⟩))
    (ha : ∀ σ x, σ ⟨"X"⟩ = .inl x → (I.atom σ a ↔ x ∉ S)) :
    Emits I {⟨"X"⟩} c (c.pushBody a) [a] [] (atX S) := by
  apply Emits.congr (Emits.pushBody (by simpa using hvars) (fun σ _ => hobj σ) (by simp))
  rintro σ ⟨x, hx⟩
  rw [ha σ x hx, atX_iff hx, not_not]

end

theorem atom_xx (hope : ¬ I.isDataRole (namedProperty ope)) {σ : Variable → Dom ⊕ Val} :
    I.atom σ (getRoleAtomObject ope xTerm xTerm) ↔ ∃ x, σ ⟨"X"⟩ = .inl x ∧ I.role ope x x := by
  rw [atom_getRoleAtomObject hope]
  constructor
  · rintro ⟨x, y, hx, hy, h⟩
    change σ ⟨"X"⟩ = _ at hx hy
    rw [hx] at hy
    cases hy
    exact ⟨x, hx, h⟩
  · rintro ⟨x, hx, h⟩
    exact ⟨x, x, hx, hx, h⟩

/-- A successor variable that ranges over the elements a property leads to. -/
theorem emits_all (hope : ¬ I.isDataRole (namedProperty ope))
    {body head : List Atom} {T : (Variable → Dom ⊕ Val) → Prop} (h : Emits I ({⟨"X"⟩} ∪ {c.nextY.1})
      (c.nextY.2.pushBody (getRoleAtomObject ope xTerm (.variable c.nextY.1))) c' body head T)
    (hT : ∀ τ y, τ c.nextY.1 = .inl y → (T τ ↔ y ∈ S)) :
    Emits I {⟨"X"⟩} c c' ([getRoleAtomObject ope xTerm (.variable c.nextY.1)] ++ body) head
      (atX {x | ∀ y, I.role ope x y → y ∈ S}) := by
  have hX : (⟨"X"⟩ : Variable) ≠ c.nextY.1 := by
    intro hX
    exact notMem_future_X (c := c) (hX ▸ .inl ⟨_, le_rfl, rfl⟩)
  refine Emits.congr (Emits.bind ?_ ?_ ?_ ?_ ?_ ?_ ?_ h) ?_
  · rfl
  · rfl
  · rfl
  · rfl
  · intro b hb v hv
    rw [mem_singleton] at hb
    rw [hb, xTerm, mem_variables_getRoleAtomObject] at hv
    exact hv
  · intro σ b hb _ hatom
    rw [mem_singleton] at hb
    rw [hb, atom_getRoleAtomObject hope] at hatom
    obtain ⟨x, -, hx, -⟩ := hatom
    exact ⟨x, hx⟩
  · rintro v rfl
    exact notMem_future_X
  · rintro σ ⟨x, hx⟩
    rw [atX_iff hx]
    have hguard : ∀ t, I.atom (Function.update σ c.nextY.1 t)
        (getRoleAtomObject ope xTerm (.variable c.nextY.1)) ↔ ∃ y, t = .inl y ∧ I.role ope x y := by
      intro t
      rw [atom_getRoleAtomObject hope]
      simp only [xTerm, term, update_self, update_of_ne hX, hx]
      simp
    simp only [forall_mem_singleton]
    constructor
    · intro hall y hy
      have := hall (.inl y) ((hguard _).mpr ⟨y, rfl, hy⟩)
      exact (hT _ y (update_self _ _ _)).mp this
    · intro hall t ht
      obtain ⟨y, rfl, hy⟩ := (hguard t).mp ht
      exact (hT _ y (update_self _ _ _)).mpr (hall y hy)

/-! ## Fillers and numbers -/

/-- Atoms that test a value: it passes the body when it lies in `B` and the head when in `K`. -/
structure TestsFiller {α : Type*} (I : ClauseInterp Dom Val) (inj : α → Dom ⊕ Val)
    (body head : Term → List Atom) (B K : Set α) : Prop where
  body_iff : ∀ τ y a, τ y = inj a → ((∀ b ∈ body (.variable y), I.atom τ b) ↔ a ∈ B)
  head_iff : ∀ τ y, (∃ h ∈ head (.variable y), I.atom τ h) ↔ ∃ a ∈ K, τ y = inj a
  body_variables : ∀ y, ∀ b ∈ body (.variable y), b.variables = [y]
  head_variables : ∀ y, ∀ h ∈ head (.variable y), h.variables = [y]

theorem exists_testsFiller_atMostAtoms {bce : ClassExpr} (h : isSimple bce) :
    ∃ body head, atMostAtoms bce = some (body, head) ∧
      ∃ B K, TestsFiller I Sum.inl body head B K ∧ ∀ y, y ∈ I.expr bce ↔ y ∈ B ∧ y ∉ K := by
  rcases (isSimple_iff bce).mp h with ⟨c, rfl⟩ | ⟨c, rfl⟩
  · refine ⟨_, _, rfl, I.classes c, ∅, ?_, by simp⟩
    by_cases htrue : (⟨c⟩ : AtomicConcept).isAlwaysTrue
    · have huniv : I.classes c = Set.univ := classes_of_isAlwaysTrue (I := I) htrue
      constructor <;> simp [htrue, huniv]
    · constructor <;> simp [htrue, atom_unaryAtom, term, variables_unaryAtom]
      intro τ y a ha
      simp [ha]
  · refine ⟨_, _, rfl, Set.univ, I.classes c, ?_, by simp⟩
    by_cases hfls : (⟨c⟩ : AtomicConcept).isAlwaysFalse
    · have hemp : I.classes c = ∅ := classes_of_isAlwaysFalse (I := I) hfls
      constructor <;> simp [hfls, hemp]
    · constructor <;> simp [hfls, atom_unaryAtom, term, variables_unaryAtom]
      intro τ y
      simp only [and_comm]

theorem exists_testsFiller_negatedRangeAtoms (range : LiteralDataRange) :
    ∃ B K, TestsFiller I Sum.inr (negatedRangeAtoms range).1 (negatedRangeAtoms range).2 B K ∧
        ∀ d, d ∉ I.literalDataRange range ↔ d ∈ B ∧ d ∉ K := by
  unfold negatedRangeAtoms
  split
  · rename_i d
    refine ⟨I.datatypes d.iri, ∅, ?_, by
      simp [literalDataRange, atomicDataRange]⟩
    by_cases htrue : d.isAlwaysTrue
    · constructor <;> simp [htrue, datatypes_of_isAlwaysTrue (I := I) htrue]
    · constructor <;> simp [htrue, atom_dataRange, term, literalDataRange,
        atomicDataRange, Atom.variables, Term.asVariable]
      intro τ y a ha
      simp [ha]
  · refine ⟨Set.univ, I.literalDataRange range, ?_, by simp⟩
    by_cases hfls : range.isAlwaysFalse
    · constructor <;> simp [hfls, literalDataRange_of_isAlwaysFalse (I := I) hfls]
    · constructor <;> simp [hfls, atom_dataRange, term, Atom.variables, Term.asVariable]
      intro τ y
      simp only [and_comm]

/-- A role atom from `X` to a successor. -/
structure LinksSuccessor {α : Type*} (I : ClauseInterp Dom Val) (inj : α → Dom ⊕ Val)
    (link : Term → Atom) (rel : Dom → α → Prop) : Prop where
  link_iff : ∀ τ y, I.atom τ (link (.variable y)) ↔
    ∃ x a, τ ⟨"X"⟩ = .inl x ∧ τ y = inj a ∧ rel x a
  mem_variables : ∀ y v, v ∈ (link (.variable y)).variables ↔ v = ⟨"X"⟩ ∨ v = y

theorem linksSuccessor_object (hope : ¬ I.isDataRole (namedProperty ope)) :
    LinksSuccessor I Sum.inl (getRoleAtomObject ope xTerm) (I.role ope) where
  link_iff _ _ := atom_getRoleAtomObject hope
  mem_variables _ _ := mem_variables_getRoleAtomObject

theorem linksSuccessor_data {dp : Iri} (hdp : I.isDataRole dp) :
    LinksSuccessor I Sum.inr (getRoleAtomData dp xTerm) (I.dataProperties dp) where
  link_iff _ _ := atom_getRoleAtomData hdp
  mem_variables y v := by simp [getRoleAtomData, Atom.variables, xTerm, Term.asVariable]

section atMost

variable {α : Type*} {inj : α → Dom ⊕ Val} {link : Term → Atom} {rel : Dom → α → Prop}
variable {body head : Term → List Atom} {B K : Set α} {n : ℕ}

/-- One successor too many, with a condition `E` on the list of successors that does not
change how many there can be. -/
theorem emits_atMost (hinj : Function.Injective inj) (hlink : LinksSuccessor I inj link rel)
    (hfill : TestsFiller I inj body head B K) {E : List (Dom ⊕ Val) → Prop}
    (extraBody extraHead : List Variable → List Atom)
    (hE : ∀ τ ys, (∀ b ∈ extraBody ys, I.atom τ b) ↔ E (ys.map τ))
    (hpairs : ∀ τ ys, (∃ h ∈ extraHead ys, I.atom τ h) ↔ ¬ (ys.map τ).Nodup)
    (hextraBody : ∀ ys, ∀ b ∈ extraBody ys, ∀ v ∈ b.variables, v ∈ ys)
    (hextraHead : ∀ ys, ∀ h ∈ extraHead ys, ∀ v ∈ h.variables, v = ⟨"X"⟩ ∨ v ∈ ys)
    (hcount : ∀ (S : Set (Dom ⊕ Val)) (G K : Dom ⊕ Val → Prop), (∀ t, t ∈ S ↔ G t ∧ ¬ K t) →
      (S.encard ≤ n ↔ ∀ l : List (Dom ⊕ Val), l.length = n + 1 → (∀ t ∈ l, G t) → E l →
        (∃ t ∈ l, K t) ∨ ¬ l.Nodup)) {ys : List Variable} {c' : AxiomClausifier}
    (hbind : bindSuccessors (fun y => link y :: body y) head (n + 1) c = (ys, c')) :
    ∃ bd hd, Emits I {⟨"X"⟩} c { c' with
        bodyAtoms := c'.bodyAtoms ++ extraBody ys, headAtoms := c'.headAtoms ++ extraHead ys } bd hd
      (atX {x | Set.encard {a | rel x a ∧ a ∈ B ∧ a ∉ K} ≤ n}) := by
  rw [bindSuccessors_eq] at hbind
  obtain ⟨hys, hc'⟩ := Prod.mk.inj hbind
  rw [hys] at hc'
  have hG : ∀ τ y, (∀ b ∈ link (.variable y) :: body (.variable y), I.atom τ b) ↔
      ∃ x a, τ ⟨"X"⟩ = .inl x ∧ τ y = inj a ∧ rel x a ∧ a ∈ B := by
    intro τ y
    rw [forall_mem_cons, hlink.link_iff]
    constructor
    · rintro ⟨⟨x, a, hx, ha, hr⟩, hb⟩
      exact ⟨x, a, hx, ha, hr, (hfill.body_iff τ y a ha).mp hb⟩
    · rintro ⟨x, a, hx, ha, hr, hB⟩
      exact ⟨⟨x, a, hx, ha, hr⟩, (hfill.body_iff τ y a ha).mpr hB⟩
  have hemits : Emits I {⟨"X"⟩} c { c' with
        bodyAtoms := c'.bodyAtoms ++ extraBody ys, headAtoms := c'.headAtoms ++ extraHead ys }
      (ys.flatMap (fun y => link (.variable y) :: body (.variable y)) ++ extraBody ys)
      (ys.flatMap (fun y => head (.variable y)) ++ extraHead ys)
      fun σ => ∀ ts : List (Dom ⊕ Val), ts.length = n + 1 →
        (∀ t ∈ ts, ∃ x a, σ ⟨"X"⟩ = .inl x ∧ t = inj a ∧ rel x a ∧ a ∈ B) → E ts →
          (∃ t ∈ ts, ∃ a ∈ K, t = inj a) ∨ ¬ ts.Nodup := by
    apply emits_bindSuccessors (fun y => link y :: body y) head (fun u ts =>
      (∀ t ∈ ts, ∃ x a, u = .inl x ∧ t = inj a ∧ rel x a ∧ a ∈ B) → E ts →
        (∃ t ∈ ts, ∃ a ∈ K, t = inj a) ∨ ¬ ts.Nodup) hys.symm
    · rw [← hc']
      simp only [append_assoc]
    · rw [← hc']
      simp only [append_assoc]
    · rw [← hc']
    · rw [← hc']
    · intro y b hb v hv
      rcases mem_cons.mp hb with rfl | hb
      · exact (hlink.mem_variables y v).mp hv
      · rw [hfill.body_variables y b hb, mem_singleton] at hv
        exact .inr hv
    · intro y h hh v hv
      rw [hfill.head_variables y h hh, mem_singleton] at hv
      exact .inr hv
    · intro y
      exact ⟨_, mem_cons_self, (hlink.mem_variables y y).mpr (.inr rfl)⟩
    · intro σ y hy b hb hv hatom
      rcases mem_cons.mp hb with rfl | hb
      · obtain ⟨x, -, hx, -⟩ := (hlink.link_iff σ y).mp hatom
        exact ⟨x, hx⟩
      · rw [hfill.body_variables y b hb, mem_singleton] at hv
        exact absurd hv.symm hy
    · exact hextraBody ys
    · exact hextraHead ys
    · exact implies_successors (fun y => link y :: body y) head
        (fun u t => ∃ x a, u = .inl x ∧ t = inj a ∧ rel x a ∧ a ∈ B) (fun t => ∃ a ∈ K, t = inj a)
        hG hfill.head_iff (fun τ => hE τ ys) (fun τ => hpairs τ ys)
  refine ⟨_, _, hemits.congr ?_⟩
  rintro σ ⟨x, hx⟩
  rw [atX_iff hx]
  have hset : ∀ t, t ∈ inj '' {a | rel x a ∧ a ∈ B ∧ a ∉ K} ↔
      (∃ x' a, σ ⟨"X"⟩ = .inl x' ∧ t = inj a ∧ rel x' a ∧ a ∈ B) ∧ ¬ ∃ a ∈ K, t = inj a := by
    intro t
    constructor
    · rintro ⟨a, ⟨hr, hB, hK⟩, rfl⟩
      refine ⟨⟨x, a, hx, rfl, hr, hB⟩, ?_⟩
      rintro ⟨a', ha', heq⟩
      exact hK (hinj heq ▸ ha')
    · rintro ⟨⟨x', a, hx', rfl, hr, hB⟩, hK⟩
      have hxx : x' = x := Sum.inl.inj (hx'.symm.trans hx)
      subst hxx
      exact ⟨a, ⟨hr, hB, fun ha => hK ⟨a, ha, rfl⟩⟩, rfl⟩
  change _ ↔ Set.encard {a | rel x a ∧ a ∈ B ∧ a ∉ K} ≤ n
  rw [← hinj.encard_image, hcount _ _ _ hset]

end atMost

end Hermit
