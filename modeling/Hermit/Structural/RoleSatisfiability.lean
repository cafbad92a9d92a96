import Hermit.Structural.RoleEncoding
import Hermit.Structural.StructuralOrder

/-! # Rewriting keeps satisfiability

The classes of the states are carried along the transitions, so in a model of the
rewritten inclusions they imply the restrictions over the closed properties.  The
exception is the complement of a Self restriction, which closing a property may
falsify, and which the check for simple properties does not look into.
-/

namespace Hermit

open List hiding le_trans
open Interp InclusionManager

open Library Automata RoleBox

variable {Dom Val : Type*}

/-! ## A model of the encoding becomes a model of the role box -/

section backward

variable {order : ExpressionOrder} {manager : InclusionManager} {first : ℕ}
  {table : List (ClassExpr × ℕ)} {blocks : List Block} {complex : List ObjectPropExpr}
  {original encoded : List (List ClassExpr)} {fresh : List ClassExpr}

variable {simple : List Inclusion} {chains : List Chain} {J : Interp Dom Val}
  {hbot : ∀ w, Derives simple chains (.objectProperty bottomObjectRole) w →
    ∀ x y, ¬ Along J.role w x y}

variable {d : ClassExpr}

theorem mem_expr_closed_of_noRoles
    (h : isSimple d || isNominal d || isNegatedOneNominal d) (x : Dom) :
    x ∈ (J.closed simple chains hbot).expr d ↔ x ∈ J.expr d := by
  simp only [Bool.or_eq_true] at h
  rcases h with (h | h) | h
  · rcases (isSimple_iff d).mp h with ⟨c, rfl⟩ | ⟨c, rfl⟩ <;> exact Iff.rfl
  · obtain ⟨individuals, rfl⟩ := (isNominal_iff d).mp h
    exact Iff.rfl
  · obtain ⟨i, rfl⟩ := (isNegatedOneNominal_iff d).mp h
    exact Iff.rfl

theorem mem_dataRange_closed (dr : DataRangeExpr) (v : Val) :
    v ∈ (J.closed simple chains hbot).dataRange dr ↔ v ∈ J.dataRange dr := by
  apply mem_dataRange_congr <;> rfl

/-- No complement of a Self restriction over a property with chains below it. -/
def SelfSimple (simple : List Inclusion) (chains : List Chain) (d : ClassExpr) : Prop :=
  ∀ ope, d = .objectComplementOf (.objectHasSelf ope) → ope ∉ (new simple chains).nonSimple

theorem notMem_of_checkSimple {error : ObjectPropExpr → SimplicityError} {ope : ObjectPropExpr}
    (h : checkSimple complex error [ope] = .ok ()) : ope ∉ complex := by
  intro hmem
  obtain ⟨_, hfst, -⟩ := ok_of_bind h
  simp only [hmem, if_true] at hfst
  cases hfst

/-- A disjunct that is not replaced stays true when the properties are closed. -/
theorem Interp.RespectsSimple.mem_expr_closed (h : J.RespectsSimple simple)
    (hreads : manager.Reads simple chains)
    (hcpx : ∀ r ∈ (new simple chains).nonSimple, r ∈ complex)
    (hnorm : isNormalDisjunct d) (hself : SelfSimple simple chains d)
    (hcheck : checkDisjunct complex d = .ok ()) (hmatch : manager.allValuesMatch d = none) {x : Dom}
    (hx : x ∈ J.expr d) : x ∈ (J.closed simple chains hbot).expr d := by
  have hdata : ∀ dr v, v ∈ (J.closed simple chains hbot).dataRange dr ↔ v ∈ J.dataRange dr :=
    fun dr v => mem_dataRange_closed dr v
  cases d with
  | «class» c => exact hx
  | objectOneOf individuals => exact hx
  | objectComplementOf operand =>
    cases operand with
    | «class» c => exact hx
    | objectHasSelf ope =>
      intro hcl
      exact hx ((h.role_closed_iff (hself ope rfl) x x).mp hcl)
    | _ => cases hnorm
  | objectSomeValuesFrom ope bce =>
    obtain ⟨y, hy, hmem⟩ := hx
    refine ⟨y, role_closed_of_role hy, (mem_expr_closed_of_noRoles ?_ y).mpr hmem⟩
    have hfill : (isSimple bce || isNominal bce) = true := hnorm
    rw [hfill, Bool.true_or]
  | objectAllValuesFrom ope bce =>
    intro y hy
    refine (mem_expr_closed_of_noRoles hnorm y).mpr ?_
    cases hth : isOwlThing bce with
    | true => exact ExpressionOrder.mem_of_isOwlThing J hth y
    | false =>
      have hlook : manager.automataByProperty.lookup ope = none := by
        simpa [allValuesMatch, hth] using hmatch
      have hns : ope ∉ (new simple chains).nonSimple := by
        intro hmem
        obtain ⟨a, ha⟩ := hreads.stored ope hmem
        rw [hlook] at ha
        cases ha
      exact hx y ((h.role_closed_iff hns x y).mp hy)
  | objectHasSelf ope => exact role_closed_of_role hx
  | objectMinCardinality n ope bce =>
    simp only [isNormalDisjunct, Bool.and_eq_true] at hnorm
    refine le_trans hx (Set.encard_le_encard fun y hy => ?_)
    exact ⟨role_closed_of_role hy.1, (mem_expr_closed_of_noRoles (by simp [hnorm.2]) y).mpr hy.2⟩
  | objectMaxCardinality n ope bce =>
    have hns : ope ∉ (new simple chains).nonSimple :=
      fun hmem => notMem_of_checkSimple hcheck (hcpx ope hmem)
    have hsim : isSimple bce = true := hnorm
    refine le_trans (Set.encard_le_encard fun y hy => ?_) hx
    exact ⟨(h.role_closed_iff hns x y).mp hy.1,
      (mem_expr_closed_of_noRoles (by simp [hsim]) y).mp hy.2⟩
  | dataSomeValuesFrom dp dr =>
    obtain ⟨v, hv, hmem⟩ := hx
    exact ⟨v, hv, (hdata dr v).mpr hmem⟩
  | dataAllValuesFrom dp dr => exact fun v hv => (hdata dr v).mpr (hx v hv)
  | dataMinCardinality n dp dr =>
    refine le_trans hx (Set.encard_le_encard fun v hv => ?_)
    exact ⟨hv.1, (hdata dr v).mpr hv.2⟩
  | dataMaxCardinality n dp dr =>
    refine le_trans (Set.encard_le_encard fun v hv => ?_) hx
    exact ⟨hv.1, (hdata dr v).mp hv.2⟩
  | _ => cases hnorm

variable (hreads : manager.Reads simple chains)
  (henc : Encodes order manager complex first original table blocks encoded fresh)
include hreads henc

/-- Every word that the automaton of a block accepts leads from the class of its initial state
into the filler. -/
theorem Encodes.mem_filler (hJ : J.CoversAll encoded) {b : Block} (hb : b ∈ blocks)
    (hinit : b.concepts[b.automaton.initialState]? = some d) {x y : Dom} (hx : x ∈ J.expr d)
    {w : List ObjectPropExpr} (hw : w ∈ b.automaton.language) (hxy : Along J.role w x y) :
    y ∈ J.expr b.filler := by
  obtain ⟨replaced, rfl, -⟩ := henc.inclusions
  have hval := henc.valid b hb
  have hsgl := hreads.single _ _ hval.automaton
  have hblock : J.CoversAll (b.inclusions order) := fun e he =>
    hJ e (mem_append_right _ (mem_flatMap.mpr ⟨b, hb, he⟩))
  obtain ⟨hpropagates, hfill⟩ := (hval.coversAll_iff hsgl J).mp hblock
  have hpts : x ∈ b.points J b.automaton.initialState := by
    rw [Block.points, stateConcept, getD_eq_getElem?_getD, hinit]
    exact hx
  exact hpropagates.subset_guarded hfill _ hpts w (hsgl.mem_language.mp hw) y hxy

/-- The original inclusions hold of the closed properties. -/
theorem Encodes.coversAll_closed (hcpx : ∀ r ∈ (new simple chains).nonSimple, r ∈ complex)
    (hnorm : ∀ e ∈ original, ∀ d ∈ e, isNormalDisjunct d)
    (hself : ∀ e ∈ original, ∀ d ∈ e, SelfSimple simple chains d)
    (hsim : J.RespectsSimple simple) (hJ : J.CoversAll encoded) :
    (J.closed simple chains hbot).CoversAll original := by
  intro e he x
  obtain ⟨replaced, rfl, hrepl⟩ := henc.inclusions
  obtain ⟨e', he', hds⟩ := exists_of_forall₂_left hrepl he
  obtain ⟨d', hd', hx⟩ := hJ e' (mem_append_left _ he') x
  obtain ⟨d, hd, hcheck, ⟨hmatch, rfl⟩ | ⟨b, hb, rfl, hinit⟩⟩ := exists_of_forall₂_right hds hd'
  · exact ⟨d', hd, hsim.mem_expr_closed hreads hcpx (hnorm e he d' hd) (hself e he d' hd)
      hcheck hmatch hx⟩
  · refine ⟨b.restriction, hd, fun y hy => ?_⟩
    obtain ⟨w, hw, hxy⟩ := (role_closed b.property x y).mp hy
    obtain ⟨w', hw', hxy'⟩ := hsim.exists_mem_language hreads (henc.valid b hb).automaton hw hxy
    exact (mem_expr_closed_of_noRoles (hnorm e he b.restriction hd) y).mpr
      (henc.mem_filler hreads hJ hb hinit hx hw' hxy')

end backward

/-- The bottom property has its axiom if chains are below it. -/
def BottomAxiomatized (axioms : OwlAxioms) : Prop :=
  .objectProperty bottomObjectRole ∈
      (new axioms.simpleObjectPropertyInclusions axioms.chains).nonSimple →
    [.objectAllValuesFrom (.objectProperty bottomObjectRole) (.class owlNothing)] ∈
      axioms.conceptInclusions

variable {axioms : OwlAxioms}

/-- What a successful rewriting has done. -/
theorem rewriteAxioms_eq_ok {order : ExpressionOrder} {manager : InclusionManager}
    {result : OwlAxioms} {first : ℕ} (h : manager.rewriteAxioms order axioms first = .ok result) :
    ∃ encoded fresh, manager.encodeInclusions order axioms.complexObjectPropertyExpressions
        axioms.conceptInclusions first = .ok (encoded, fresh) ∧
      result.conceptInclusions = eliminateUniversalStates fresh encoded := by
  obtain ⟨_, -, h⟩ := ok_of_bind h
  obtain ⟨_, -, h⟩ := ok_of_bind h
  obtain ⟨_, -, h⟩ := ok_of_bind h
  obtain ⟨p, hp, h⟩ := ok_of_bind h
  cases h
  exact ⟨p.1, p.2, hp, rfl⟩

theorem createAutomata_axioms {order : HashOrder ObjectPropExpr} {fuel : ℕ}
    {axioms' : OwlAxioms} {manager : InclusionManager}
    (h : createAutomata order fuel axioms = some (.ok (manager, axioms'))) :
    axioms'.conceptInclusions = axioms.conceptInclusions ∧
      ∀ r ∈ (new axioms.simpleObjectPropertyInclusions axioms.chains).nonSimple,
        r ∈ axioms'.complexObjectPropertyExpressions := by
  simp only [createAutomata] at h
  split at h
  · cases h
  · split at h
    · cases h
    · cases h
    · split at h
      · cases h
      · cases h
        refine ⟨rfl, fun r hr => ?_⟩
        exact (mem_foldl_insertSet _ _ _).mpr (.inr ((mem_sortDedup _ _ _).mpr hr))

section encoded

variable {order : ExpressionOrder} {manager : InclusionManager} {first : ℕ}
  {table : List (ClassExpr × ℕ)} {blocks : List Block} {complex : List ObjectPropExpr}
  {original encoded : List (List ClassExpr)} {fresh : List ClassExpr} {simple : List Inclusion}
  {chains : List Chain} {J : Interp Dom Val}

/-- No pair is along a word that the bottom property derives. -/
theorem Encodes.not_along_bottom (hreads : manager.Reads simple chains)
    (henc : Encodes order manager complex first original table blocks encoded fresh)
    (hbot : .objectProperty bottomObjectRole ∈ (new simple chains).nonSimple →
      [.objectAllValuesFrom (.objectProperty bottomObjectRole) (.class owlNothing)] ∈ original)
    (hsim : J.RespectsSimple simple) (hJ : J.CoversAll encoded) {w : List ObjectPropExpr}
    (hw : Derives simple chains (.objectProperty bottomObjectRole) w) (x y : Dom) :
    ¬ Along J.role w x y := by
  intro hxy
  by_cases hns : .objectProperty bottomObjectRole ∈ (new simple chains).nonSimple
  · obtain ⟨a, ha⟩ := hreads.stored _ hns
    obtain ⟨replaced, rfl, hrepl⟩ := henc.inclusions
    obtain ⟨e', he', hds⟩ := exists_of_forall₂_left hrepl (hbot hns)
    obtain ⟨d', hd', hx⟩ := hJ e' (mem_append_left _ he') x
    obtain ⟨d, hd, -, ⟨hmatch, -⟩ | ⟨b, hb, rfl, hinit⟩⟩ := exists_of_forall₂_right hds hd'
    · rw [mem_singleton.mp hd] at hmatch
      have hth : isOwlThing (.class owlNothing) = false := by decide
      simp [allValuesMatch, ha, hth] at hmatch
    · have hblock := mem_singleton.mp hd
      simp only [Block.restriction, ClassExpr.objectAllValuesFrom.injEq] at hblock
      rw [← hblock.1] at hw
      obtain ⟨w', hw', hxy'⟩ := hsim.exists_mem_language hreads (henc.valid b hb).automaton hw hxy
      have hmem := henc.mem_filler hreads hJ hb hinit hx hw' hxy'
      rw [hblock.2] at hmem
      exact J.notMem_expr_nothing y hmem
  · exact J.objectProperties_bottom x y (hsim.role_of_derives_simple hns hw hxy)

/-- The inclusions of an encoding mention the classes of states only as literals and in
restrictions to literals. -/
theorem Encodes.isStateDisjunct
    (henc : Encodes order manager complex first original table blocks encoded fresh)
    (hgiven : ∀ e ∈ original, ∀ d ∈ e, ClassesOver (IsGiven first) d)
    (hsgl : ∀ b ∈ blocks, b.automaton.Single) :
    ∀ e ∈ encoded, ∀ d ∈ e, ClassesOver (fun c => .class c ∉ fresh) d ∨ ∃ c,
    IsStateDisjunct c d := by
  have hover : ∀ d, ClassesOver (IsGiven first) d → ClassesOver (fun c => .class c ∉ fresh) d := by
    intro d hd
    refine hd.mono fun c hc hmem => ?_
    obtain ⟨n, hn, heq⟩ := henc.fresh _ hmem
    obtain ⟨p, rfl⟩ := Nat.exists_eq_add_of_le hn
    exact hc p (ClassExpr.class.inj heq)
  have hlit : ∀ negative n, ∃ c, IsStateDisjunct c (stateLiteral negative n) ∧
      ∀ ope, IsStateDisjunct c (.objectAllValuesFrom ope (stateLiteral negative n)) := by
    intro negative n
    refine ⟨allName n, ?_, fun ope => .inr (.inr ⟨ope, ?_⟩)⟩
    · cases negative
      · exact .inl rfl
      · exact .inr (.inl rfl)
    · cases negative
      · exact .inl rfl
      · exact .inr rfl
  intro e he d hd
  obtain ⟨replaced, rfl, hrepl⟩ := henc.inclusions
  rcases mem_append.mp he with he | he
  · obtain ⟨e₀, he₀, hds⟩ := exists_of_forall₂_right hrepl he
    obtain ⟨d₀, hd₀, -, ⟨-, rfl⟩ | ⟨b, hb, -, hinit⟩⟩ := exists_of_forall₂_right hds hd
    · exact .inl (hover d (hgiven e₀ he₀ d hd₀))
    · obtain ⟨p, -, rfl⟩ := (henc.valid b hb).named _ _ hinit
      obtain ⟨c, hc, -⟩ := hlit (isNegativeRestriction b.restriction) (first + p)
      exact .inr ⟨c, hc⟩
  · obtain ⟨b, hb, he⟩ := mem_flatMap.mp he
    have hval := henc.valid b hb
    have hconc : ∀ s < b.automaton.states.length, ∃ negative n,
        stateConcept b.concepts s = stateLiteral negative n := by
      intro s hs
      obtain ⟨p, -, hconc⟩ := hval.exists_literal hs
      exact ⟨_, _, hconc⟩
    rcases mem_append.mp he with he | he
    · obtain ⟨t, ht, rfl⟩ := mem_map.mp he
      obtain ⟨hst, hstop⟩ := (hsgl b hb).wellFormed t ht
      obtain ⟨m, n, hst⟩ := hconc _ hst
      obtain ⟨m', n', hstop⟩ := hconc _ hstop
      obtain ⟨c, hc, -⟩ := hlit (!m) n
      obtain ⟨c', hc', hall⟩ := hlit m' n'
      unfold transitionInclusion at hd
      rw [hst, hstop, getComplementNnf_stateLiteral] at hd
      cases hlab : t.label with
      | none =>
        rw [hlab] at hd
        rcases mem_pair.mp hd with rfl | rfl
        · exact .inr ⟨c, hc⟩
        · exact .inr ⟨c', hc'⟩
      | some label =>
        rw [hlab] at hd
        rcases mem_pair.mp hd with rfl | rfl
        · exact .inr ⟨c, hc⟩
        · exact .inr ⟨c', hall label⟩
    · obtain ⟨s, hs, rfl⟩ := mem_map.mp he
      obtain ⟨m, n, hs⟩ := hconc s (Automaton.isTerminal_lt ((Automaton.mem_terminals _).mp hs))
      obtain ⟨c, hc, -⟩ := hlit (!m) n
      unfold finalInclusion at hd
      rw [hs, getComplementNnf_stateLiteral] at hd
      split_ifs at hd
      · rw [mem_singleton.mp hd]
        exact .inr ⟨c, hc⟩
      · rcases mem_pair.mp hd with rfl | rfl
        · exact .inr ⟨c, hc⟩
        · obtain ⟨e₀, he₀, hmem⟩ := henc.origin b hb
          exact .inl (hover _ (hgiven e₀ he₀ b.restriction hmem))

end encoded

/-- A model of the original axioms is one of the rewritten axioms for a reading of the new
classes, and there is a model of the original axioms if there is one of the rewritten axioms
that respects only the simple inclusions. -/
theorem rewriteAxioms_satisfiable {hashOrder : HashOrder ObjectPropExpr} {order : ExpressionOrder}
    {fuel : ℕ} {axioms managed result : OwlAxioms} {manager : InclusionManager} {first : ℕ}
    (hlong : ∀ c ∈ axioms.complexObjectPropertyInclusions, 2 ≤ c.subObjectProperties.length)
    (hcr : createAutomata hashOrder fuel axioms = some (.ok (manager, managed)))
    (hreg : manager.irregular = false)
    (hnorm : ∀ e ∈ axioms.conceptInclusions, ∀ d ∈ e, isNormalDisjunct d)
    (hgiven : ∀ e ∈ axioms.conceptInclusions, ∀ d ∈ e, ClassesOver (IsGiven first) d)
    (hbot : BottomAxiomatized axioms) (hself : ∀ e ∈ axioms.conceptInclusions, ∀ d ∈ e,
      SelfSimple axioms.simpleObjectPropertyInclusions axioms.chains d)
    (hrewrite : manager.rewriteAxioms order managed first = .ok result) :
    (∀ I : Interp Dom Val, I.RespectsSimple axioms.simpleObjectPropertyInclusions →
      I.RespectsChains axioms.chains → I.CoversAll axioms.conceptInclusions →
      ∃ J : Interp Dom Val, I.AgreeOn J (IsGiven first) ∧
        J.RespectsSimple axioms.simpleObjectPropertyInclusions ∧
        J.CoversAll result.conceptInclusions) ∧
    ((∃ I : Interp Dom Val, I.RespectsSimple axioms.simpleObjectPropertyInclusions ∧
      I.RespectsChains axioms.chains ∧ I.CoversAll axioms.conceptInclusions) ↔
      ∃ J : Interp Dom Val, J.RespectsSimple axioms.simpleObjectPropertyInclusions ∧
        J.CoversAll result.conceptInclusions) := by
  have hreads := reads_of_createAutomata hlong hcr hreg
  obtain ⟨hincls, hcpx⟩ := createAutomata_axioms hcr
  obtain ⟨encoded, fresh, hencode, hres⟩ := rewriteAxioms_eq_ok hrewrite
  rw [hincls] at hencode
  obtain ⟨table, blocks, henc⟩ := exists_encodes hreads.single hencode
  rw [hres]
  have hfwd : ∀ I : Interp Dom Val, I.RespectsSimple axioms.simpleObjectPropertyInclusions →
      I.RespectsChains axioms.chains → I.CoversAll axioms.conceptInclusions →
      ∃ J : Interp Dom Val, I.AgreeOn J (IsGiven first) ∧
        J.RespectsSimple axioms.simpleObjectPropertyInclusions ∧
        J.CoversAll (eliminateUniversalStates fresh encoded) := by
    intro I hsim hchains hI
    have hagr : I.AgreeOn (I.withStates manager first table) (IsGiven first) := agreeOn_withStates
    exact ⟨_, hagr, hsim.of_agreeOn hagr,
      (henc.coversAll_withStates hreads hgiven hsim hchains hI).eliminate⟩
  refine ⟨hfwd, fun ⟨I, hsim, hchains, hI⟩ => ?_, fun ⟨J, hsim, hJ⟩ => ?_⟩
  · obtain ⟨J, -, hJ⟩ := hfwd I hsim hchains hI
    exact ⟨J, hJ⟩
  · have hfresh : ∀ A ∈ fresh, ∃ c, A = .class c ∧ c ≠ owlNothing := by
      intro A hA
      obtain ⟨n, -, rfl⟩ := henc.fresh A hA
      exact ⟨allName n, rfl, allName_ne_nothing n⟩
    have hshape := henc.isStateDisjunct hgiven fun b hb =>
      hreads.single _ _ (henc.valid b hb).automaton
    obtain ⟨K, hagr, hK⟩ := hJ.restore hfresh hshape
    have hsimpleK := hsim.of_agreeOn hagr
    exact ⟨K.closed _ _ fun w hw x y => henc.not_along_bottom hreads hbot hsimpleK hK hw x y,
      respectsSimple_closed, respectsChains_closed,
      henc.coversAll_closed hreads hcpx hnorm hself hsimpleK hK⟩

/-- A transitive `R` and the given inclusions. -/
def transitiveProperty (inclusions : List (List ClassExpr)) : OwlAxioms :=
  { complexObjectPropertyInclusions :=
      [⟨[.objectProperty "R", .objectProperty "R"], .objectProperty "R"⟩]
    conceptInclusions := inclusions }

/-- The inclusions after the rewriting, if the role box is regular. -/
def rewrittenInclusions (axioms : OwlAxioms) : Option (List (List ClassExpr)) :=
  match createAutomata (.insertion _) 1 axioms with
  | some (.ok (manager, managed)) =>
    match manager.rewriteAxioms structuralOrder managed 0 with
    | .ok result => if manager.irregular then none else some result.conceptInclusions
    | .error _ => none
  | _ => none

theorem rewrittenInclusions_eq_some {inclusions : List (List ClassExpr)}
    (h : rewrittenInclusions axioms = some inclusions) :
    ∃ manager managed result, createAutomata (.insertion _) 1 axioms = some
    (.ok (manager, managed)) ∧
      manager.irregular = false ∧ manager.rewriteAxioms structuralOrder managed 0 = .ok result ∧
      result.conceptInclusions = inclusions := by
  unfold rewrittenInclusions at h
  split at h
  · next manager managed hcr =>
    split at h
    · next result hres =>
      split_ifs at h with hreg
      exact ⟨manager, managed, result, hcr, by simpa using hreg, hres, Option.some.inj h⟩
    · cases h
  · cases h

/-- `A ⊑ ∀R.B` over a transitive `R`. -/
theorem rewriteAxioms_satisfiable_allValues :
    let axioms := transitiveProperty
      [[.objectComplementOf (.class "A"), .objectAllValuesFrom (.objectProperty "R") (.class "B")]]
    ∃ manager managed result, createAutomata (.insertion _) 1 axioms =
      some (.ok (manager, managed)) ∧
      manager.irregular = false ∧ manager.rewriteAxioms structuralOrder managed 0 = .ok result ∧
      result.conceptInclusions =
        [[.objectComplementOf (.class "A"), freshClass 0],
          [.objectComplementOf (freshClass 0),
            .objectAllValuesFrom (.objectProperty "R") (freshClass 1)],
          [.objectComplementOf (freshClass 1),
            .objectAllValuesFrom (.objectProperty "R") (freshClass 1)],
          [.objectComplementOf (freshClass 1), .class "B"]] ∧
      (∀ I : Interp Bool Unit, I.RespectsSimple axioms.simpleObjectPropertyInclusions →
        I.RespectsChains axioms.chains → I.CoversAll axioms.conceptInclusions →
        ∃ J : Interp Bool Unit, I.AgreeOn J (IsGiven 0) ∧
          J.RespectsSimple axioms.simpleObjectPropertyInclusions ∧
            J.CoversAll result.conceptInclusions) ∧
      ((∃ I : Interp Bool Unit, I.RespectsSimple axioms.simpleObjectPropertyInclusions ∧
        I.RespectsChains axioms.chains ∧ I.CoversAll axioms.conceptInclusions) ↔
        ∃ J : Interp Bool Unit, J.RespectsSimple axioms.simpleObjectPropertyInclusions ∧
          J.CoversAll result.conceptInclusions) := by
  intro axioms
  have hrun : rewrittenInclusions axioms = some
      [[.objectComplementOf (.class "A"), freshClass 0],
        [.objectComplementOf (freshClass 0),
          .objectAllValuesFrom (.objectProperty "R") (freshClass 1)],
        [.objectComplementOf (freshClass 1),
          .objectAllValuesFrom (.objectProperty "R") (freshClass 1)],
        [.objectComplementOf (freshClass 1), .class "B"]] := by decide +kernel
  obtain ⟨manager, managed, result, hcr, hreg, hrewrite, hres⟩ := rewrittenInclusions_eq_some hrun
  have hgiven : ∀ e ∈ axioms.conceptInclusions, ∀ d ∈ e, ClassesOver (IsGiven 0) d := by
    intro e he d hd
    rw [mem_singleton.mp he] at hd
    have hname : ∀ c : Iri, c.toList.length = 1 → IsGiven 0 c := by
      rintro c hc p rfl
      simp [allName] at hc
    rcases mem_pair.mp hd with rfl | rfl
    · exact hname "A" rfl
    · exact hname "B" rfl
  have hself : ∀ e ∈ axioms.conceptInclusions, ∀ d ∈ e,
      SelfSimple axioms.simpleObjectPropertyInclusions axioms.chains d := by
    rintro e he d hd ope rfl
    rw [mem_singleton.mp he] at hd
    simp at hd
  refine ⟨manager, managed, result, hcr, hreg, hrewrite, hres, ?_⟩
  exact rewriteAxioms_satisfiable (by decide) hcr hreg (by decide) hgiven
    (fun hmem => absurd hmem (by decide +kernel)) hself hrewrite

/-- Everything is related by `R` to all other elements and to no other property. -/
def unequalInterp : Interp Bool Unit where
  nonempty := ⟨true⟩
  classes c := {_x | c = owlThing}
  classes_thing := by simp
  classes_nothing := by simp [owlThing, owlNothing]
  objectProperties p x y := p = topObjectRole ∨ p = "R" ∧ x ≠ y
  objectProperties_top := by simp
  objectProperties_bottom := by simp [topObjectRole, bottomObjectRole]
  dataProperties p _ _ := p ≠ bottomDataRole
  dataProperties_top := full_topDataRole
  dataProperties_bottom := full_bottomDataRole
  individuals i := decide (i = .named "a")
  datatypes _ := Set.univ
  datatypes_literal := full_literal
  literals _ := ()
  facets _ := Set.univ
  builtIns _ _ := True

/-- Everything is related to `a` or to `b`, and nothing to itself.  A transitive property cannot
be so, but the rewriting lets the inclusions through as they are. -/
theorem rewriteAxioms_not_satisfiable_of_negatedSelf :
    let axioms := transitiveProperty
      [[.objectSomeValuesFrom (.objectProperty "R") (.objectOneOf [.named "a"]),
          .objectSomeValuesFrom (.objectProperty "R") (.objectOneOf [.named "b"])],
        [.objectComplementOf (.objectHasSelf (.objectProperty "R"))]]
    ∃ manager managed result, createAutomata (.insertion _) 1 axioms =
      some (.ok (manager, managed)) ∧
      manager.irregular = false ∧ manager.rewriteAxioms structuralOrder managed 0 = .ok result ∧
      (∃ J : Interp Bool Unit, J.RespectsSimple axioms.simpleObjectPropertyInclusions ∧
        J.CoversAll result.conceptInclusions) ∧
      ∀ (Dom : Type) (Val : Type) (I : Interp Dom Val), I.RespectsChains axioms.chains →
        ¬ I.CoversAll axioms.conceptInclusions := by
  intro axioms
  have hrun : rewrittenInclusions axioms = some axioms.conceptInclusions := by decide +kernel
  obtain ⟨manager, managed, result, hcr, hreg, hrewrite, hres⟩ := rewrittenInclusions_eq_some hrun
  refine ⟨manager, managed, result, hcr, hreg, hrewrite, ⟨unequalInterp, ?_, ?_⟩, ?_⟩
  · intro i hi
    cases hi
  · rw [hres]
    intro e he x
    rcases mem_pair.mp he with rfl | rfl
    · cases x with
      | true =>
        refine ⟨_, mem_cons_of_mem _ mem_cons_self, false, .inr ⟨rfl, by decide⟩, ?_⟩
        exact ⟨.named "b", mem_singleton_self _, by decide⟩
      | false =>
        refine ⟨_, mem_cons_self, true, .inr ⟨rfl, by decide⟩, ?_⟩
        exact ⟨.named "a", mem_singleton_self _, by decide⟩
    · refine ⟨_, mem_cons_self, ?_⟩
      rintro (htop | ⟨-, hne⟩)
      · exact absurd htop (by decide)
      · exact hne rfl
  · intro Dom Val I hchains hI
    have htransitive : ∀ x y z, I.objectProperties "R" x y → I.objectProperties "R" y z →
        I.objectProperties "R" x z := by
      intro x y z hxy hyz
      exact hchains ⟨[.objectProperty "R", .objectProperty "R"], .objectProperty "R"⟩
        mem_cons_self x z ⟨y, hxy, z, hyz, rfl⟩
    have hirreflexive : ∀ x, ¬ I.objectProperties "R" x x := by
      intro x
      obtain ⟨d, hd, hx⟩ := hI _ (mem_cons_of_mem _ mem_cons_self) x
      rw [mem_singleton.mp hd] at hx
      exact hx
    have hrel : ∀ x, I.objectProperties "R" x (I.individuals (.named "a")) ∨
        I.objectProperties "R" x (I.individuals (.named "b")) := by
      intro x
      obtain ⟨d, hd, hx⟩ := hI _ mem_cons_self x
      rcases mem_pair.mp hd with rfl | rfl
      · obtain ⟨y, hy, i, hi, rfl⟩ := hx
        rw [mem_singleton.mp hi] at hy
        exact .inl hy
      · obtain ⟨y, hy, i, hi, rfl⟩ := hx
        rw [mem_singleton.mp hi] at hy
        exact .inr hy
    have hab := (hrel (I.individuals (.named "a"))).resolve_left (hirreflexive _)
    have hba := (hrel (I.individuals (.named "b"))).resolve_right (hirreflexive _)
    exact hirreflexive _ (htransitive _ _ _ hab hba)

end Hermit
