import Hermit.Library.Numbered
import Hermit.Structural.ClauseParts

/-! # A concept inclusion and its clause

The clause of an inclusion in normal form is true exactly when every element belongs
to one of the disjuncts.
-/

namespace Hermit

open Option hiding guard
open List Function

open Library AxiomClausifier

variable {Dom Val : Type*} {I : ClauseInterp Dom Val}
variable {converter : DataRangeConverter} {c : AxiomClausifier}

/-! ## Disjuncts -/

theorem idle_atX {S : Set Dom} (hS : S = ∅) : Emits I {⟨"X"⟩} c c [] [] (atX S) := by
  apply (Emits.idle rfl rfl le_rfl le_rfl).congr
  intro σ _
  simp [atX, hS]

variable {bce : ClassExpr} {dr : DataRangeExpr} {ope : ObjectPropExpr} {a : Atom} {n : ℕ} {dp : Iri}
  {facts : List Atom} {c' : AxiomClausifier}

/-- The part of a clause for a disjunct is true exactly where the disjunct is. -/
def EmitsDisjunct (I : ClauseInterp Dom Val) (converter : DataRangeConverter) (c : AxiomClausifier)
    (d : ClassExpr) (facts : List Atom) : Prop :=
  ∃ c' facts' body head, c.clausify converter d facts = some (c', facts') ∧
    Emits I {⟨"X"⟩} c c' body head (atX (I.expr d))

/-- An at-least restriction; one whose filler is always empty is left out. -/
theorem exists_emits_atLeast {α : Type*} (R : Dom → α → Prop) {S : Set α} {k : ℤ} (hk : 0 < k)
    {isAlwaysFalse : Bool} (hfls : isAlwaysFalse = true → S = ∅)
    (hvars : ∀ v ∈ a.variables, v = ⟨"X"⟩)
    (ha : ∀ (σ : Variable → Dom ⊕ Val) x, σ ⟨"X"⟩ = .inl x →
      (I.atom σ a ↔ (k.toNat : ℕ∞) ≤ Set.encard {y | R x y ∧ y ∈ S})) (facts : List Atom) :
    ∃ c' body head, (if isAlwaysFalse then some (c, facts) else some (c.pushHead a, facts)) =
      some (c', facts) ∧
      Emits I {⟨"X"⟩} c c' body head (atX {x | (k.toNat : ℕ∞) ≤ Set.encard {y | R x y ∧ y ∈ S}}) :=
  by
  split
  · rename_i h
    refine ⟨c, [], [], rfl, idle_atX ?_⟩
    ext x
    simp [hfls h]
    omega
  · exact ⟨_, _, _, rfl, emits_pushHead hvars ha⟩

theorem exists_emits_atLeastConcept (ope : ObjectPropExpr) {toConcept : LiteralConcept}
    {k : ℤ} (hk : 0 < k) (hconc : I.literalConcept toConcept = I.expr bce) (facts : List Atom) :
    ∃ c' body head, (if (AtLeastConcept.mk k (getRole ope) toConcept).isAlwaysFalse
      then some (c, facts)
        else some (c.pushHead ⟨.atLeastConcept ⟨k, getRole ope, toConcept⟩, [xTerm], rfl⟩, facts)) =
          some (c', facts) ∧ Emits I {⟨"X"⟩} c c' body head
        (atX {x | (k.toNat : ℕ∞) ≤ Set.encard {y | I.role ope x y ∧ y ∈ I.expr bce}}) := by
  refine exists_emits_atLeast (I.role ope) hk (fun h => hconc ▸ literalConcept_of_isAlwaysFalse h)
    (by simp [Atom.variables, xTerm, Term.asVariable]) (fun σ x hx => ?_) facts
  simp only [ClauseInterp.atom, xTerm, map_cons, map_nil, ClauseInterp.term, hx,
    ClauseInterp.holds, objectRole_getRole, hconc]

theorem exists_emits_atLeastDataRange (dp : Iri) {range : LiteralDataRange}
    {k : ℤ} (hk : 0 < k) (hrng : I.literalDataRange range = I.dataRange dr) (facts : List Atom) :
    ∃ c' body head, (if (AtLeastDataRange.mk k (.atomicRole ⟨dp⟩) range).isAlwaysFalse
      then some (c, facts) else some
        (c.pushHead ⟨.atLeastDataRange ⟨k, .atomicRole ⟨dp⟩, range⟩, [xTerm], rfl⟩, facts)) =
          some (c', facts) ∧ Emits I {⟨"X"⟩} c c' body head
        (atX {x | (k.toNat : ℕ∞) ≤
          Set.encard {d | I.dataProperties dp x d ∧ d ∈ I.dataRange dr}}) := by
  refine exists_emits_atLeast (I.dataProperties dp) hk
    (fun h => hrng ▸ literalDataRange_of_isAlwaysFalse h)
    (by simp [Atom.variables, xTerm, Term.asVariable]) (fun σ x hx => ?_) facts
  simp only [ClauseInterp.atom, xTerm, map_cons, map_nil, ClauseInterp.term, hx,
    ClauseInterp.holds, hrng]
  rfl

theorem setOf_one_le_encard {α : Type*} (R : Dom → α → Prop) (S : Set α) :
    {x | (((1 : ℤ).toNat : ℕ) : ℕ∞) ≤ Set.encard {y | R x y ∧ y ∈ S}} =
    {x | ∃ y, R x y ∧ y ∈ S} := by
  ext x
  simp only [Int.toNat_one, Nat.cast_one, Set.one_le_encard_iff_nonempty]
  rfl

theorem exists_emits_some (hI : I.Agrees converter)
    (hbce : isSimple bce || isNominal bce) (hope : ¬ I.isDataRole (namedProperty ope))
    (facts : List Atom) :
    EmitsDisjunct I converter c (.objectSomeValuesFrom ope bce) facts := by
  rcases Bool.or_eq_true_iff.mp hbce with hsim | hnom
  · obtain ⟨toConcept, hget, hconc⟩ := exists_getLiteralConcept (I := I) hsim
    obtain ⟨c', body, head, heq, hemits⟩ :=
      exists_emits_atLeastConcept (c := c) ope Int.one_pos hconc facts
    refine ⟨c', facts, body, head, ?_, ?_⟩
    · rw [← heq]
      rcases (isSimple_iff bce).mp hsim with ⟨d, rfl⟩ | ⟨d, rfl⟩ <;>
        simp only [clausify, hget] <;> rfl
    · rwa [setOf_one_le_encard] at hemits
  · obtain ⟨individuals, rfl⟩ := (isNominal_iff bce).mp hnom
    obtain ⟨body, head, hemits⟩ := exists_emits_bindNominals hI (V := {⟨"X"⟩})
      (getRoleAtomObject ope xTerm)
      (fun σ t => ∃ x y, σ ⟨"X"⟩ = .inl x ∧ t = .inl y ∧ I.role ope x y)
      (fun σ z => atom_getRoleAtomObject hope) (fun t σ τ h => by simp only [h _ rfl])
      (fun z v hv => mem_variables_getRoleAtomObject.mp hv) individuals c facts
      (by rintro v rfl; exact notMem_future_X) (by simp)
    refine ⟨_, _, body, head, rfl, hemits.congr ?_⟩
    rintro σ ⟨x, hx⟩
    rw [atX_iff hx]
    simp only [hx, Interp.mem_expr_some, Interp.mem_expr_oneOf]
    constructor
    · rintro ⟨i, hi, x', y, hx', hy, h⟩
      cases hx'
      cases hy
      exact ⟨_, h, i, hi, rfl⟩
    · rintro ⟨_, h, i, hi, rfl⟩
      exact ⟨i, hi, x, _, rfl, rfl, h⟩

theorem exists_emits_oneOf (hI : I.Agrees converter) (individuals : List Individ)
    (facts : List Atom) :
    EmitsDisjunct I converter c (.objectOneOf individuals) facts := by
  obtain ⟨body, head, hemits⟩ := exists_emits_bindNominals hI (V := {⟨"X"⟩})
    (equalityAtom xTerm) (fun σ t => σ ⟨"X"⟩ = t)
    (fun σ z => atom_equalityAtom) (fun t σ τ h => by simp only [h _ rfl])
    (fun z v hv => by simpa [xTerm, variables_equalityAtom] using hv) individuals c facts
    (by rintro v rfl; exact notMem_future_X) (by simp)
  refine ⟨_, _, body, head, rfl, hemits.congr ?_⟩
  rintro σ ⟨x, hx⟩
  rw [atX_iff hx]
  simp [hx]

/-- The successor variable of a universal restriction, and what may be said of it. -/
theorem notMem_future_successor {V : Set Variable} (hV : V = {⟨"X"⟩} ∪ {c.nextY.1}) :
    ∀ v ∈ V, v ∉ (c.nextY.2.pushBody a).future := by
  subst hV
  rintro v (rfl | rfl)
  · exact notMem_future_X
  · rintro (⟨i, hi, h⟩ | ⟨i, -, h⟩)
    · have := indexedVariable_injective _ h
      change c.yIndex + 1 ≤ i at hi
      omega
    · exact indexedVariable_ne (l := 'Y') (m := 'Z') (by decide) _ _ h

theorem bound_successor :
    ∀ v ∈ ({⟨"X"⟩} ∪ {c.nextY.1} : Set Variable), v = ⟨"X"⟩ ∨
      ∃ b ∈ (c.nextY.2.pushBody (getRoleAtomObject ope xTerm (.variable c.nextY.1))).bodyAtoms,
        v ∈ b.variables := by
  rintro v (rfl | rfl)
  · exact .inl rfl
  · exact .inr ⟨_, mem_append_right _ (mem_singleton_self _),
      mem_variables_getRoleAtomObject.mpr (.inr rfl)⟩

theorem exists_emits_all (hI : I.Agrees converter)
    (hbce : isSimple bce || isNominal bce || isNegatedOneNominal bce)
    (hope : ¬ I.isDataRole (namedProperty ope)) (facts : List Atom) :
    EmitsDisjunct I converter c (.objectAllValuesFrom ope bce) facts := by
  have hX : (⟨"X"⟩ : Variable) ≠ c.nextY.1 :=
    indexedVariable_ne (l := 'X') (m := 'Y') (by decide) 0 _
  simp only [Bool.or_eq_true] at hbce
  rcases hbce with (hsim | hnom) | hneg
  · rcases (isSimple_iff bce).mp hsim with ⟨d, rfl⟩ | ⟨d, rfl⟩
    · simp only [EmitsDisjunct, clausify]
      split
      · rename_i hfls
        have hemp : I.classes d = ∅ := classes_of_isAlwaysFalse (I := I) hfls
        refine ⟨_, _, _, _, rfl, emits_all hope (Emits.idle rfl rfl le_rfl le_rfl) ?_⟩
        simp [hemp]
      · refine ⟨_, _, _, _, rfl, emits_all hope (Emits.pushHead ?_ bound_successor) ?_⟩
        · simp [variables_unaryAtom]
        · intro τ y hy
          simp [atom_unaryAtom, ClauseInterp.term, hy]
    · simp only [EmitsDisjunct, clausify]
      split
      · rename_i htrue
        have huniv : I.classes d = Set.univ := classes_of_isAlwaysTrue (I := I) htrue
        refine ⟨_, _, _, _, rfl, emits_all hope (Emits.idle rfl rfl le_rfl le_rfl) ?_⟩
        simp [huniv]
      · refine ⟨_, _, _, _, rfl, emits_all hope (Emits.pushBody ?_ ?_ bound_successor) ?_⟩
        · simp [variables_unaryAtom]
        · simp [variables_unaryAtom, hX]
        · intro τ y hy
          simp [atom_unaryAtom, ClauseInterp.term, hy]
  · obtain ⟨individuals, rfl⟩ := (isNominal_iff bce).mp hnom
    obtain ⟨body, head, hemits⟩ := exists_emits_bindNominals hI
      (equalityAtom (.variable c.nextY.1)) (fun σ t => σ c.nextY.1 = t)
      (fun σ z => atom_equalityAtom) (V := {⟨"X"⟩} ∪ {c.nextY.1})
      (fun t σ τ h => by simp only [h _ (.inr rfl)])
      (fun z v hv => by
        simp only [variables_equalityAtom, mem_cons, not_mem_nil, or_false] at hv
        exact hv.imp_left .inr) individuals
      (c.nextY.2.pushBody (getRoleAtomObject ope xTerm (.variable c.nextY.1))) facts
      (notMem_future_successor rfl) bound_successor
    refine ⟨_, _, _, _, rfl, emits_all hope hemits ?_⟩
    intro τ y hy
    simp [hy]
  · obtain ⟨i, rfl⟩ := (isNegatedOneNominal_iff bce).mp hneg
    simp only [EmitsDisjunct, clausify]
    refine ⟨_, _, _, _, rfl, emits_all hope (Emits.pushBody ?_ ?_ bound_successor) ?_⟩
    · simp [variables_unaryAtom]
    · simp [variables_unaryAtom, hX]
    · intro τ y hy
      simp [atom_nominal hI, ClauseInterp.term, hy]

theorem emits_ensureYNotZero {V : Set Variable} :
    Emits I V c c.ensureYNotZero [] [] fun _ => False := by
  unfold ensureYNotZero
  split
  · rename_i h
    exact Emits.idle rfl rfl (by simp [h]) le_rfl
  · exact Emits.idle rfl rfl le_rfl le_rfl

/-- The pairs of successors, compared by an atom that means equality. -/
theorem exists_pairAtoms {f : Variable × Variable → Atom}
    (hf : ∀ (τ : Variable → Dom ⊕ Val) p, I.atom τ (f p) ↔ τ p.1 = τ p.2) (τ : Variable → Dom ⊕ Val)
    (ys : List Variable) :
    (∃ h ∈ (orderedPairs ys).map f, I.atom τ h) ↔ ¬ (ys.map τ).Nodup := by
  rw [← exists_orderedPairs]
  constructor
  · rintro ⟨h, hh, ha⟩
    obtain ⟨p, hp, rfl⟩ := List.mem_map.mp hh
    exact ⟨p, hp, (hf τ p).mp ha⟩
  · rintro ⟨p, hp, heq⟩
    exact ⟨_, List.mem_map_of_mem hp, (hf τ p).mpr heq⟩

theorem mem_of_mem_orderedPairs {α : Type*} {l : List α} {p : α × α} (h : p ∈ orderedPairs l) :
    p.1 ∈ l ∧ p.2 ∈ l := by
  induction l with
  | nil => simp [orderedPairs] at h
  | cons a l ih =>
    rcases mem_append.mp h with h | h
    · obtain ⟨b, hb, rfl⟩ := List.mem_map.mp h
      exact ⟨mem_cons_self, mem_cons_of_mem _ hb⟩
    · exact (ih h).imp (mem_cons_of_mem _) (mem_cons_of_mem _)

theorem mem_of_mem_comparisonAtoms {ys : List Variable} {b : Atom}
    (hb : b ∈ comparisonAtoms ys) {v : Variable} (hv : v ∈ b.variables) : v ∈ ys := by
  unfold comparisonAtoms at hb
  split at hb
  · rcases mem_append.mp hb with hb | hb
    · obtain ⟨p, hp, rfl⟩ := List.mem_map.mp hb
      have hmem : p.1 ∈ ys ∧ p.2 ∈ ys.tail := of_mem_zip hp
      simp only [Atom.variables, Term.asVariable, filterMap_cons, filterMap_nil,
        mem_cons, not_mem_nil, or_false] at hv
      rcases hv with rfl | rfl
      · exact hmem.1
      · exact mem_of_mem_tail hmem.2
    · rw [mem_singleton] at hb
      subst hb
      simpa [Atom.variables, filterMap_map, comp_def, Term.asVariable] using hv
  · simp at hb

theorem exists_emits_max (hbce : isSimple bce) (hope : ¬ I.isDataRole (namedProperty ope))
    (facts : List Atom) :
    EmitsDisjunct I converter c (.objectMaxCardinality n ope bce) facts := by
  obtain ⟨fbody, fhead, hatoms, B, K, hfill, hexpr⟩ := exists_testsFiller_atMostAtoms (I := I) hbce
  obtain ⟨toConcept, hget, -⟩ := exists_getLiteralConcept (I := I) hbce
  obtain ⟨ys, c', hbind⟩ : ∃ ys c', bindSuccessors
      (fun y => getRoleAtomObject ope xTerm y :: fbody y) fhead (n + 1)
        c.ensureYNotZero = (ys, c') :=
    ⟨_, _, rfl⟩
  obtain ⟨bd, hd, hemits⟩ := emits_atMost Sum.inl_injective (linksSuccessor_object hope) hfill
    (n := n) comparisonAtoms (fun ys => (orderedPairs ys).map fun p =>
      ⟨.annotatedEquality ⟨asI32 n, getRole ope, toConcept⟩,
        [.variable p.1, .variable p.2, xTerm], rfl⟩)
    comparisonAtoms_iff (exists_pairAtoms fun τ p => Iff.rfl)
    (fun ys b hb v hv => mem_of_mem_comparisonAtoms hb hv)
    (fun ys h hh v hv => by
      obtain ⟨p, hp, rfl⟩ := List.mem_map.mp hh
      have := mem_of_mem_orderedPairs hp
      simp only [Atom.variables, xTerm, Term.asVariable, filterMap_cons, filterMap_nil,
        mem_cons, not_mem_nil, or_false] at hv
      rcases hv with rfl | rfl | rfl
      · exact .inr this.1
      · exact .inr this.2
      · exact .inl rfl)
    (fun S G K hS => @encard_le_iff_compared _ S n I.order G K hS) hbind
  refine ⟨_, facts, _, _, ?_, ((emits_ensureYNotZero.trans hemits ?_).congr ?_)⟩
  · simp only [clausify, hatoms, hget, hbind, bind_eq_bind, bind_some]
    rfl
  · rintro v rfl
    exact notMem_future_X
  · intro σ _
    simp only [false_or]
    have hset : {x | Set.encard {a | I.role ope x a ∧ a ∈ B ∧ a ∉ K} ≤ n} =
        I.expr (.objectMaxCardinality n ope bce) := by
      ext x
      rw [Interp.mem_expr_max]
      simp only [hexpr]
      rfl
    rw [hset]

theorem dataFiller_iff (h : isDataFiller dp dr) :
    dp ≠ topDataRole ∧ isLiteral dr ∧ hasNoLiteralFacets dr := by
  simpa [isDataFiller, and_assoc] using h

theorem exists_emits_dataSome (hI : I.Agrees converter) (h : isDataFiller dp dr)
    (facts : List Atom) :
    EmitsDisjunct I converter c (.dataSomeValuesFrom dp dr) facts := by
  obtain ⟨-, hlit, hfac⟩ := dataFiller_iff h
  simp only [EmitsDisjunct, clausify]
  split
  · rename_i hbot
    refine ⟨c, facts, [], [], rfl, idle_atX ?_⟩
    have hdp : dp = bottomDataRole := by simpa [isBottomDataProperty] using hbot
    ext x
    simp [hdp, I.dataProperties_bottom]
  · obtain ⟨range, hconv, hrng⟩ := exists_convertDataRange hI hlit hfac
    obtain ⟨c', body, head, heq, hemits⟩ :=
      exists_emits_atLeastDataRange (c := c) dp Int.one_pos hrng facts
    refine ⟨c', facts, body, head, ?_, ?_⟩
    · rw [← heq, hconv]
      rfl
    · rwa [setOf_one_le_encard] at hemits

theorem exists_emits_dataMin (hI : I.Agrees converter) (hn : 0 < n) (hcard : n < 2 ^ 31)
    (h : isDataFiller dp dr) (facts : List Atom) :
    EmitsDisjunct I converter c (.dataMinCardinality n dp dr) facts := by
  obtain ⟨-, hlit, hfac⟩ := dataFiller_iff h
  simp only [EmitsDisjunct, clausify]
  split
  · rename_i hbot
    refine ⟨c, facts, [], [], rfl, idle_atX ?_⟩
    have hdp : dp = bottomDataRole := by
      simp only [Bool.and_eq_true, isBottomDataProperty, decide_eq_true_eq] at hbot
      exact hbot.1
    ext x
    simp [hdp, I.dataProperties_bottom, hn.ne']
  · obtain ⟨range, hconv, hrng⟩ := exists_convertDataRange hI hlit hfac
    have hnum : (0 : ℤ) < asI32 n := by
      rw [asI32_of_lt hcard]
      exact_mod_cast hn
    obtain ⟨c', body, head, heq, hemits⟩ :=
      exists_emits_atLeastDataRange (c := c) dp hnum hrng facts
    refine ⟨c', facts, body, head, ?_, ?_⟩
    · rw [← heq, hconv]
      rfl
    · rwa [asI32_of_lt hcard] at hemits

theorem exists_emits_min (hn : 0 < n) (hcard : n < 2 ^ 31) (hbce : isSimple bce)
    (facts : List Atom) :
    EmitsDisjunct I converter c (.objectMinCardinality n ope bce) facts := by
  obtain ⟨toConcept, hget, hconc⟩ := exists_getLiteralConcept (I := I) hbce
  have hnum : (0 : ℤ) < asI32 n := by
    rw [asI32_of_lt hcard]
    exact_mod_cast hn
  obtain ⟨c', body, head, heq, hemits⟩ := exists_emits_atLeastConcept (c := c) ope hnum hconc facts
  refine ⟨c', facts, body, head, ?_, ?_⟩
  · rw [← heq]
    simp only [clausify, hget]
    rfl
  · rwa [asI32_of_lt hcard] at hemits

section

variable (hI : I.Agrees converter) (h : isDataFiller dp dr) (hdp : I.isDataRole dp)
include hI h hdp

theorem exists_emits_dataMax (facts : List Atom) :
    EmitsDisjunct I converter c (.dataMaxCardinality n dp dr) facts := by
  obtain ⟨-, hlit, hfac⟩ := dataFiller_iff h
  obtain ⟨range, hconv, hrng⟩ := exists_convertDataRange hI hlit hfac
  obtain ⟨B, K, hfill, hneg⟩ := exists_testsFiller_negatedRangeAtoms (I := I) range.getNegation
  obtain ⟨ys, c', hbind⟩ : ∃ ys c', bindSuccessors (fun y => getRoleAtomData dp xTerm y ::
        (negatedRangeAtoms range.getNegation).1 y)
      (negatedRangeAtoms range.getNegation).2 (n + 1) c.ensureYNotZero = (ys, c') :=
    ⟨_, _, rfl⟩
  obtain ⟨bd, hd, hemits⟩ := emits_atMost Sum.inr_injective (linksSuccessor_data hdp) hfill
    (n := n) (E := fun _ => True) (fun _ => [])
    (fun ys => (orderedPairs ys).map fun p => equalityAtom (.variable p.1) (.variable p.2))
    (by simp) (exists_pairAtoms fun τ p => Iff.rfl)
    (by simp)
    (fun ys h hh v hv => by
      obtain ⟨p, hp, rfl⟩ := List.mem_map.mp hh
      have := mem_of_mem_orderedPairs hp
      simp only [variables_equalityAtom, mem_cons, not_mem_nil, or_false] at hv
      rcases hv with rfl | rfl
      · exact .inr this.1
      · exact .inr this.2)
    (fun S G K hS => by simpa using encard_le_iff_forall hS) hbind
  refine ⟨_, facts, _, _, ?_, ((emits_ensureYNotZero.trans hemits ?_).congr ?_)⟩
  · simp only [clausify, hconv, hbind, bind_eq_bind, bind_some, append_nil]
    rfl
  · rintro v rfl
    exact notMem_future_X
  · intro σ _
    simp only [false_or]
    have hset : {x | Set.encard {a | I.dataProperties dp x a ∧ a ∈ B ∧ a ∉ K} ≤ n} =
        I.expr (.dataMaxCardinality n dp dr) := by
      ext x
      rw [Interp.mem_expr_dataMax]
      simp only [← hneg, literalDataRange_getNegation, hrng, Set.mem_compl_iff, not_not]
      rfl
    rw [hset]

theorem exists_emits_dataAll (facts : List Atom) :
    EmitsDisjunct I converter c (.dataAllValuesFrom dp dr) facts := by
  obtain ⟨htop, hlit, hfac⟩ := dataFiller_iff h
  obtain ⟨range, hconv, hrng⟩ := exists_convertDataRange hI hlit hfac
  obtain ⟨B, K, hfill, hneg⟩ := exists_testsFiller_negatedRangeAtoms (I := I) range
  have hlink := linksSuccessor_data (I := I) hdp
  have hX : (⟨"X"⟩ : Variable) ≠ indexedVariable "Y" c.yIndex :=
    indexedVariable_ne (l := 'X') (m := 'Y') (by decide) 0 _
  let y := indexedVariable "Y" c.yIndex
  let guard := getRoleAtomData dp xTerm (.variable y) :: (negatedRangeAtoms range).1 (.variable y)
  let c₁ : AxiomClausifier := { c with yIndex := c.yIndex + 1, bodyAtoms := c.bodyAtoms ++ guard }
  let c' : AxiomClausifier := { c₁ with
    headAtoms := c.headAtoms ++ (negatedRangeAtoms range).2 (.variable y) }
  have hinn : Emits I ({⟨"X"⟩} ∪ {y}) c₁ c' [] ((negatedRangeAtoms range).2 (.variable y))
      (I.implies [] ((negatedRangeAtoms range).2 (.variable y))) := by
    apply Emits.push
    · simp [c']
    · rfl
    · rfl
    · rfl
    · simp
    · intro a ha v hv
      rw [hfill.head_variables y a ha, mem_singleton] at hv
      exact .inr hv
    · simp
    · rintro v (rfl | rfl)
      · exact .inl rfl
      · exact .inr ⟨_, mem_append_right _ mem_cons_self, (hlink.mem_variables _ _).mpr (.inr rfl)⟩
  refine ⟨c', facts, guard ++ [], _, ?_, Emits.congr (Emits.bind ?_ ?_ ?_ ?_ ?_ ?_ ?_ hinn) ?_⟩
  · simp only [clausify, hconv, bind_eq_bind, bind_some,
      isTopDataProperty, htop, decide_false, Bool.false_and]
    rfl
  · rfl
  · rfl
  · rfl
  · rfl
  · intro b hb v hv
    rcases mem_cons.mp hb with rfl | hb
    · exact (hlink.mem_variables y v).mp hv
    · rw [hfill.body_variables y b hb, mem_singleton] at hv
      exact .inr hv
  · intro σ b hb hv hatom
    rcases mem_cons.mp hb with rfl | hb
    · obtain ⟨x, -, hx, -⟩ := (hlink.link_iff σ y).mp hatom
      exact ⟨x, hx⟩
    · rw [hfill.body_variables y b hb, mem_singleton] at hv
      exact absurd hv hX
  · rintro v rfl
    exact notMem_future_X
  · rintro σ ⟨x, hx⟩
    rw [atX_iff hx, Interp.mem_expr_dataAll, ← hrng]
    have hupd : ∀ t, Function.update σ y t ⟨"X"⟩ = .inl x := by
      intro t
      rw [update_of_ne hX, hx]
    have hguard : ∀ t, (∀ b ∈ guard, I.atom (Function.update σ y t) b) ↔
        ∃ d, t = .inr d ∧ I.dataProperties dp x d ∧ d ∈ B := by
      intro t
      rw [forall_mem_cons, hlink.link_iff]
      simp only [hupd, update_self]
      constructor
      · rintro ⟨⟨x', d, hx', hd, hr⟩, hb⟩
        cases hx'
        exact ⟨d, hd, hr, (hfill.body_iff _ y d (by rw [update_self, hd])).mp hb⟩
      · rintro ⟨d, hd, hr, hB⟩
        exact ⟨⟨x, d, rfl, hd, hr⟩, (hfill.body_iff _ y d (by rw [update_self, hd])).mpr hB⟩
    have hhead : ∀ d, I.implies [] ((negatedRangeAtoms range).2 (.variable y))
        (Function.update σ y (.inr d)) ↔ d ∈ K := by
      intro d
      simp [ClauseInterp.implies, hfill.head_iff, update_self]
    constructor
    · intro hall d hd
      by_contra hnot
      obtain ⟨hB, hK⟩ := (hneg d).mp hnot
      exact hK ((hhead d).mp (hall _ ((hguard _).mpr ⟨d, rfl, hd, hB⟩)))
    · intro hall t ht
      obtain ⟨d, rfl, hd, hB⟩ := (hguard t).mp ht
      apply (hhead d).mpr
      by_contra hK
      exact (hneg d).mpr ⟨hB, hK⟩ (hall d hd)

end

/-! ## Inclusions -/

theorem exists_emits_clausify (hI : I.Agrees converter) {d : ClassExpr} (hnorm : isNormalDisjunct d)
    (hroles : I.rolesTyped d) (hcard : cardinalityFits d) (facts : List Atom) :
    EmitsDisjunct I converter c d facts := by
  cases d with
  | «class» d =>
    refine ⟨_, _, _, _, rfl, emits_pushHead (by simp [xTerm, variables_unaryAtom]) ?_⟩
    intro σ x hx
    simp [atom_unaryAtom, xTerm, ClauseInterp.term, hx]
  | objectComplementOf operand =>
    cases operand with
    | «class» d =>
      refine ⟨_, _, _, _, rfl, emits_pushBody (by simp [xTerm, variables_unaryAtom]) ?_ ?_⟩
      · intro σ hatom
        obtain ⟨x, hx, -⟩ := atom_unaryAtom.mp hatom
        exact ⟨x, hx⟩
      · intro σ x hx
        simp [atom_unaryAtom, xTerm, ClauseInterp.term, hx]
    | objectHasSelf ope =>
      refine ⟨_, _, _, _, rfl, emits_pushBody ?_ ?_ ?_⟩
      · simp [xTerm, mem_variables_getRoleAtomObject]
      · intro σ hatom
        obtain ⟨x, hx, -⟩ := (atom_xx hroles).mp hatom
        exact ⟨x, hx⟩
      · intro σ x hx
        simp [atom_xx hroles, hx]
    | _ => simp [isNormalDisjunct] at hnorm
  | objectOneOf individuals => exact exists_emits_oneOf hI individuals facts
  | objectSomeValuesFrom ope bce => exact exists_emits_some hI hnorm hroles facts
  | objectAllValuesFrom ope bce => exact exists_emits_all hI hnorm hroles facts
  | objectHasSelf ope =>
    refine ⟨_, _, _, _, rfl, emits_pushHead ?_ ?_⟩
    · simp [xTerm, mem_variables_getRoleAtomObject]
    · intro σ x hx
      simp [atom_xx hroles, hx]
  | objectMinCardinality n ope bce =>
    simp only [isNormalDisjunct, Bool.and_eq_true, decide_eq_true_eq] at hnorm
    exact exists_emits_min hnorm.1 hcard hnorm.2 facts
  | objectMaxCardinality n ope bce => exact exists_emits_max hnorm hroles facts
  | dataSomeValuesFrom dp dr => exact exists_emits_dataSome hI hnorm facts
  | dataAllValuesFrom dp dr => exact exists_emits_dataAll hI hnorm hroles facts
  | dataMinCardinality n dp dr =>
    simp only [isNormalDisjunct, Bool.and_eq_true, decide_eq_true_eq] at hnorm
    exact exists_emits_dataMin hI hnorm.1 hcard hnorm.2 facts
  | dataMaxCardinality n dp dr => exact exists_emits_dataMax hI hnorm hroles facts
  | _ => simp [isNormalDisjunct] at hnorm

theorem exists_emits_clausifyAll (hI : I.Agrees converter) (ds : List ClassExpr)
    (hnorm : ∀ d ∈ ds, isNormalDisjunct d) (hroles : ∀ d ∈ ds, I.rolesTyped d)
    (hcard : ∀ d ∈ ds, cardinalityFits d) (c : AxiomClausifier) (facts : List Atom) :
    ∃ c' facts' body head, clausifyAll converter ds c facts = some (c', facts') ∧
      Emits I {⟨"X"⟩} c c' body head (atX {x | ∃ d ∈ ds, x ∈ I.expr d}) := by
  induction ds generalizing c facts with
  | nil =>
    refine ⟨c, facts, [], [], rfl, idle_atX ?_⟩
    simp
  | cons d ds ih =>
    rw [forall_mem_cons] at hnorm hroles hcard
    obtain ⟨c₁, facts₁, body₁, head₁, heq₁, hemits₁⟩ :=
      exists_emits_clausify (c := c) hI hnorm.1 hroles.1 hcard.1 facts
    obtain ⟨c', facts', body', head', heq', hemits'⟩ := ih hnorm.2 hroles.2 hcard.2 c₁ facts₁
    refine ⟨c', facts', _, _, ?_, (hemits₁.trans hemits' ?_).congr ?_⟩
    · simp only [clausifyAll, heq₁, bind_eq_bind, bind_some, heq']
    · rintro v rfl
      exact notMem_future_X
    · rintro σ ⟨x, hx⟩
      simp only [atX_iff hx]
      simp

theorem mem_bindNominals_facts {head : Term → Atom} {individuals : List Individ}
    {c : AxiomClausifier} (ha : a ∈ (bindNominals head individuals (c, facts)).2) :
    a ∈ facts ∨ ∃ i, a = nominalFact i := by
  induction individuals generalizing c facts with
  | nil => exact .inl ha
  | cons i individuals ih =>
    rcases ih ha with ha | hi
    · rcases (mem_insertSet _ _ _).mp ha with ha | rfl
      · exact .inl ha
      · exact .inr ⟨i, rfl⟩
    · exact .inr hi

/-- A disjunct leaves the facts alone, or adds that of one nominal or those of a list of them. -/
theorem clausify_facts {d : ClassExpr} {c : AxiomClausifier} {facts' : List Atom}
    (h : c.clausify converter d facts = some (c', facts')) :
    facts' = facts ∨ (∃ i, facts' = insertSet facts (nominalFact i)) ∨
      ∃ head individuals c₀, facts' = (bindNominals head individuals (c₀, facts)).2 := by
  revert h
  fun_cases clausify converter d c facts <;> intro h
  case case3 | case13 =>
    cases h
    exact .inr (.inl ⟨_, rfl⟩)
  case case5 | case6 | case10 =>
    exact .inr (.inr ⟨_, _, _, congrArg Prod.snd (some.inj h).symm⟩)
  case case7 | case16 | case17 | case19 | case20 | case22 | case23 =>
    simp only [bind_eq_bind, bind_eq_some_iff, Option.pure_def] at h
    grind
  all_goals grind

theorem mem_clausifyAll_facts {ds : List ClassExpr} {c : AxiomClausifier} {facts' : List Atom}
    (h : clausifyAll converter ds c facts = some (c', facts'))
    (ha : a ∈ facts') : a ∈ facts ∨ ∃ i, a = nominalFact i := by
  induction ds generalizing c facts with
  | nil =>
    cases h
    exact .inl ha
  | cons d ds ih =>
    simp only [clausifyAll, bind_eq_bind, bind_eq_some_iff] at h
    obtain ⟨⟨c₁, facts₁⟩, hd, hds⟩ := h
    rcases ih hds with ha | hi
    · rcases clausify_facts hd with rfl | ⟨i, rfl⟩ | ⟨head, individuals, c₀, rfl⟩
      · exact .inl ha
      · exact ((mem_insertSet _ _ _).mp ha).imp_right fun hi => ⟨i, hi⟩
      · exact mem_bindNominals_facts ha
    · exact .inr hi

theorem fact_nominalFact (hI : I.Agrees converter) (i : Individ) : I.fact (nominalFact i) := by
  intro σ
  change I.individual (getIndividual i) ∈ I.classes (nominalConcept i).iri
  rw [hI.individual, hI.nominal]
  rfl

/-- Binding the unsafe variables by the top concept restricts them to elements. -/
theorem clause_getSafeVersion (order : HashOrder Variable) (traversal : ℕ) (clause : DLClause) :
    I.clause (clause.getSafeVersion order traversal (.atomicConcept .thing) rfl) ↔
      ∀ σ, (∀ v ∈ clause.unsafeVariables, IsObject (σ v)) →
        I.implies clause.bodyAtoms clause.headAtoms σ := by
  unfold DLClause.getSafeVersion
  split
  · rename_i hnil
    simp [ClauseInterp.clause, hnil]
  · unfold ClauseInterp.clause
    apply forall_congr'
    intro σ
    have hth : ∀ v, I.atom σ ⟨.atomicConcept .thing, [.variable v], rfl⟩ ↔ IsObject (σ v) := by
      intro v
      change I.atom σ (unaryAtom .thing (.variable v)) ↔ _
      rw [atom_unaryAtom]
      simp [AtomicConcept.thing, I.classes_thing, IsObject, ClauseInterp.term]
    simp only [ClauseInterp.implies, forall_mem_append, List.forall_mem_map, hth,
      (order.perm _ _).mem_iff]
    constructor
    · intro h hobj hbody
      exact h ⟨hbody, hobj⟩
    · intro h hbody
      exact h hbody.2 hbody.1

/-- The safe clause of what was emitted from the start says that every element is in the set. -/
theorem Emits.clause_iff {S : Set Dom} {body head : List Atom}
    (h : Emits I {⟨"X"⟩} {} c' body head (atX S)) (order : HashOrder Variable) (traversal : ℕ) :
    I.clause (DLClause.getSafeVersion order traversal (.atomicConcept .thing) rfl
      ⟨c'.headAtoms, c'.bodyAtoms⟩) ↔ ∀ x, x ∈ S := by
  have hbody : c'.bodyAtoms = body := h.body_eq
  have hhead : c'.headAtoms = head := h.head_eq
  rw [clause_getSafeVersion]
  simp only [hbody, hhead]
  have hX : (⟨"X"⟩ : Variable) ∉ block {} c' := fun hX =>
    notMem_future_X (block_subset_future hX)
  constructor
  · intro hcla x
    have hall : ForallOver (block {} c') (I.implies body head) fun _ => .inl x := by
      intro τ hτ
      apply hcla
      intro v hv
      rcases (DLClause.mem_unsafeVariables _ _).mp hv with ⟨⟨a, ha, hva⟩, hunbound⟩ | ⟨-, -, rfl⟩
      · rcases h.head_bound a ha v hva with rfl | ⟨b, hb, hvb⟩
        · exact ⟨x, hτ hX⟩
        · exact absurd hvb (hunbound b (hbody ▸ hb))
      · exact ⟨x, hτ hX⟩
    obtain ⟨x', hx', heq⟩ := (h.meaning _ ⟨x, rfl⟩).mp hall
    exact Sum.inl.inj heq ▸ hx'
  · intro hS σ hsafe
    have hobj : ∀ τ, IsObject (τ ⟨"X"⟩) → I.implies body head τ := by
      rintro τ ⟨x, hx⟩
      exact (h.meaning τ ⟨x, hx⟩).mpr ((atX_iff hx).mpr (hS x)) τ (Set.eqOn_refl _ _)
    -- Where `X` occurs nowhere it can be given any element.
    by_cases hbodyX : ∃ b ∈ body, ⟨"X"⟩ ∈ b.variables
    · obtain ⟨b, hb, hXb⟩ := hbodyX
      intro htrue
      exact hobj σ (h.body_object σ b hb hXb (htrue b hb)) htrue
    · push Not at hbodyX
      by_cases hheadX : ∃ a ∈ head, ⟨"X"⟩ ∈ a.variables
      · exact hobj σ (hsafe _ ((DLClause.mem_unsafeVariables _ _).mpr (.inl ⟨hheadX, hbodyX⟩)))
      · push Not at hheadX
        obtain ⟨x⟩ := I.nonempty
        have hsame : I.implies body head (Function.update σ ⟨"X"⟩ (.inl x)) =
            I.implies body head σ := by
          apply I.dependsOn_implies (V := {⟨"X"⟩}ᶜ)
          · intro b hb v hv hvX
            exact hbodyX b hb (hvX ▸ hv)
          · intro a ha v hv hvX
            exact hheadX a ha (hvX ▸ hv)
          · intro v hv
            exact update_of_ne hv _ _
        rw [← hsame]
        exact hobj _ ⟨x, update_self _ _ _⟩

/-- An inclusion in normal form gets a clause that is true, together with the facts it adds for
its nominals, exactly when every element belongs to one of its disjuncts. -/
theorem clausifyInclusion_iff (I : ClauseInterp Dom Val) (converter : DataRangeConverter)
    (hI : I.Agrees converter) (order : HashOrder Variable) (traversal : ℕ)
    (inclusion : List ClassExpr)
    (hnorm : ∀ d ∈ inclusion, isNormalDisjunct d) (hcard : ∀ d ∈ inclusion, cardinalityFits d)
    (hroles : ∀ d ∈ inclusion, I.rolesTyped d) (facts : List Atom) :
    ∃ clause facts',
      AxiomClausifier.clausifyInclusion order traversal converter inclusion {} facts =
        some (clause, {}, facts') ∧ ((I.clause clause ∧ ∀ a ∈ facts', a ∉ facts → I.fact a) ↔
        ∀ x, ∃ d ∈ inclusion, x ∈ I.expr d) := by
  obtain ⟨c', facts', body, head, heq, hemits⟩ :=
    exists_emits_clausifyAll hI inclusion hnorm hroles hcard {} facts
  refine ⟨DLClause.getSafeVersion order traversal (.atomicConcept .thing) rfl
    ⟨c'.headAtoms, c'.bodyAtoms⟩, facts', ?_, ?_⟩
  · simp only [AxiomClausifier.clausifyInclusion, heq, bind_eq_bind, bind_some,
      AxiomClausifier.getDlClause]
    rfl
  · rw [hemits.clause_iff order traversal]
    constructor
    · rintro ⟨hcla, -⟩
      exact hcla
    · intro hall
      refine ⟨hall, ?_⟩
      intro a ha hnew
      rcases mem_clausifyAll_facts heq ha with hold | ⟨i, rfl⟩
      · exact absurd hold hnew
      · exact fact_nominalFact hI i

/-- One element and one value: every name but the bottom ones holds wherever it can. -/
def oneElement : ClauseInterp Unit Unit where
  nonempty := ⟨()⟩
  classes c := {_x | c ≠ owlNothing}
  classes_thing := by
    ext x
    simp [owlThing, owlNothing]
  classes_nothing := by simp
  objectProperties p _ _ := p ≠ bottomObjectRole
  objectProperties_top := by simp [topObjectRole, bottomObjectRole]
  objectProperties_bottom := by simp
  dataProperties p _ _ := p ≠ bottomDataRole
  dataProperties_top := by simp [topDataRole, bottomDataRole]
  dataProperties_bottom := by simp
  individuals _ := ()
  datatypes _ := Set.univ
  datatypes_literal := full_literal
  literals _ := ()
  facets _ := Set.univ
  builtIns _ _ := True
  isDataRole p := p = "urn:age"
  individual _ := ()
  constant _ := ()
  facet _ _ := Set.univ
  order := LinearOrder.lift' (toLex : Unit ⊕ Unit → Unit ⊕ₗ Unit) toLex.injective
  descriptionGraph _ _ := False

theorem oneElement_agrees (converter : DataRangeConverter) : oneElement.Agrees converter where
  individual _ := rfl
  constant _ := rfl
  facet _ := rfl
  nominal i := by
    ext x
    have hne : (nominalConcept i).iri ≠ owlNothing := by
      cases i <;> exact append_ne_of_take_ne 1 (by decide) (by decide) _
    simp [oneElement, hne]

/-- At most two friends, at most one age, or the person `a`. -/
theorem clausifyInclusion_iff_friends :
    ∃ clause facts', AxiomClausifier.clausifyInclusion (.insertion Variable) 0
      ⟨false, [], fun _ => true, fun _ _ => true⟩
        [.objectMaxCardinality 2 (.objectProperty "urn:friend") (.class "urn:Person"),
          .dataMaxCardinality 1 "urn:age" (.datatype "http://www.w3.org/2001/XMLSchema#integer"),
          .objectOneOf [.named "urn:a"]] {} [] = some (clause, {}, facts') ∧
      ((oneElement.clause clause ∧ ∀ a ∈ facts', a ∉ [] → oneElement.fact a) ↔
        ∀ x, ∃ d ∈ [ClassExpr.objectMaxCardinality 2 (.objectProperty "urn:friend")
          (.class "urn:Person"),
          .dataMaxCardinality 1 "urn:age" (.datatype "http://www.w3.org/2001/XMLSchema#integer"),
          .objectOneOf [.named "urn:a"]], x ∈ oneElement.expr d) :=
  clausifyInclusion_iff oneElement ⟨false, [], fun _ => true, fun _ _ => true⟩ (oneElement_agrees _)
    (.insertion Variable) 0 _ (by decide) (by simp [cardinalityFits])
    (by simp [ClauseInterp.rolesTyped, oneElement, namedProperty]) []

end Hermit
