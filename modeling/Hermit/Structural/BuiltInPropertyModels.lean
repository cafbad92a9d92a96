import Hermit.Structural.BuiltInProperties

/-! # Models of the axiomatised built-in properties

A transitive and symmetric property that leads from everything to one individual is the
universal relation.  The axioms are added when the visitor meets the property, and it
looks at neither rules nor keys.
-/

namespace Hermit

open List ClassExpr

universe u v

/-! ## The properties that occur -/

def ClassExpr.objectPropertyNames : ClassExpr → List Iri
  | .objectComplementOf operand => operand.objectPropertyNames
  | .objectIntersectionOf operands => namesOf operands
  | .objectUnionOf operands => namesOf operands
  | .objectSomeValuesFrom ope bce => namedProperty ope :: bce.objectPropertyNames
  | .objectAllValuesFrom ope bce => namedProperty ope :: bce.objectPropertyNames
  | .objectMinCardinality _ ope bce => namedProperty ope :: bce.objectPropertyNames
  | .objectMaxCardinality _ ope bce => namedProperty ope :: bce.objectPropertyNames
  | .objectExactCardinality _ ope bce => namedProperty ope :: bce.objectPropertyNames
  | .objectHasValue ope _ => [namedProperty ope]
  | .objectHasSelf ope => [namedProperty ope]
  | _ => []
where
  namesOf : List ClassExpr → List Iri
    | [] => []
    | d :: ds => d.objectPropertyNames ++ namesOf ds

theorem mem_namesOf {p : Iri} (operands : List ClassExpr) :
    p ∈ objectPropertyNames.namesOf operands ↔ ∃ d ∈ operands, p ∈ d.objectPropertyNames := by
  induction operands with
  | nil => simp [objectPropertyNames.namesOf]
  | cons d ds ih => simp [objectPropertyNames.namesOf, ih]

def Fact.objectPropertyNames : Fact → List Iri
  | .classAssertion ce _ => ce.objectPropertyNames
  | .objectPropertyAssertion ope _ _ => [namedProperty ope]
  | .negativeObjectPropertyAssertion ope _ _ => [namedProperty ope]
  | _ => []

def SwrlAtom.objectPropertyNames : SwrlAtom → List Iri
  | .classAtom pred _ => pred.objectPropertyNames
  | .objectPropertyAtom pred _ _ => [namedProperty pred]
  | _ => []

def PropExpr.objectPropertyNames : PropExpr → List Iri
  | .objectPropertyExpression ope => [namedProperty ope]
  | _ => []

namespace OwlAxioms

/-- The property occurs in an inclusion, a characteristic or a fact. -/
def OccursInInclusions (axioms : OwlAxioms) (p : Iri) : Prop :=
  (∃ e ∈ axioms.conceptInclusions, ∃ d ∈ e, p ∈ d.objectPropertyNames) ∨
    (∃ i ∈ axioms.simpleObjectPropertyInclusions, p = namedProperty i.1 ∨ p = namedProperty i.2) ∨
    (∃ c ∈ axioms.complexObjectPropertyInclusions,
      (∃ r ∈ c.subObjectProperties, p = namedProperty r) ∨
        p = namedProperty c.superObjectProperty) ∨
    (∃ rs ∈ axioms.disjointObjectProperties, ∃ r ∈ rs, p = namedProperty r) ∨
    (∃ r ∈ axioms.reflexiveObjectProperties, p = namedProperty r) ∨
    (∃ r ∈ axioms.irreflexiveObjectProperties, p = namedProperty r) ∨
    (∃ r ∈ axioms.asymmetricObjectProperties, p = namedProperty r) ∨
    ∃ f ∈ axioms.facts, p ∈ f.objectPropertyNames

/-- The property occurs in a rule or a key. -/
def OccursInRules (axioms : OwlAxioms) (p : Iri) : Prop :=
  (∃ r ∈ axioms.rules, ∃ a ∈ r.body ++ r.head, p ∈ a.objectPropertyNames) ∨
    ∃ k ∈ axioms.hasKeys, p ∈ k.classExpression.objectPropertyNames ∨
      ∃ e ∈ k.propertyExpressions, p ∈ e.objectPropertyNames

end OwlAxioms

/-! ## What the visitor finds -/

/-- One of the two built-in object properties. -/
def IsBuiltInObjectRole (p : Iri) : Prop := p = topObjectRole ∨ p = bottomObjectRole

theorem bottomObjectRole_ne_topObjectRole : bottomObjectRole ≠ topObjectRole := by decide

namespace Checker

/-- The visitor has met the object property. -/
def Uses (checker : Checker) (p : Iri) : Prop :=
  p = topObjectRole ∧ checker.usesTopObjectProperty = true ∨
    p = bottomObjectRole ∧ checker.usesBottomObjectProperty = true

variable {checker : Checker} {p : Iri}

theorem uses_visitObjectProperty (hp : IsBuiltInObjectRole p) (r : ObjectPropExpr) :
    (checker.visitObjectProperty r).Uses p ↔ checker.Uses p ∨ p = namedProperty r := by
  unfold visitObjectProperty
  rcases hp with rfl | rfl
  · by_cases h : namedProperty r = topObjectRole
    · simp [h, Uses]
    · rw [if_neg h]
      have h' : topObjectRole ≠ namedProperty r := Ne.symm h
      by_cases hb : namedProperty r = bottomObjectRole
      · simp [hb, Uses, bottomObjectRole_ne_topObjectRole.symm]
      · simp [hb, h']
  · by_cases h : namedProperty r = topObjectRole
    · simp [h, Uses, bottomObjectRole_ne_topObjectRole]
    · rw [if_neg h]
      by_cases hb : namedProperty r = bottomObjectRole
      · simp [hb, Uses]
      · have hb' : bottomObjectRole ≠ namedProperty r := Ne.symm hb
        simp [hb, hb']

@[simp] theorem uses_visitDataProperty (dp : Iri) :
    (checker.visitDataProperty dp).Uses p ↔ checker.Uses p := by
  unfold visitDataProperty
  split_ifs <;> rfl

/-- A list is visited from its first entry on. -/
theorem uses_foldl {α : Type*} {visit : Checker → α → Checker} {occurs : α → Prop} (l : List α)
    (hvisit : ∀ a ∈ l, ∀ c : Checker, (visit c a).Uses p ↔ c.Uses p ∨ occurs a)
    (checker : Checker) :
    (l.foldl visit checker).Uses p ↔ checker.Uses p ∨ ∃ a ∈ l, occurs a := by
  induction l generalizing checker with
  | nil => simp
  | cons a l ih =>
    rw [foldl_cons, ih fun b hb => hvisit b (by simp [hb]), hvisit a (by simp)]
    simp [or_assoc]

theorem visitOperands_eq_foldl (operands : List ClassExpr) (checker : Checker) :
    visitClassExpression.visitOperands checker operands =
      operands.foldl visitClassExpression checker := by
  induction operands generalizing checker with
  | nil => rfl
  | cons d ds ih => exact ih _

section

variable (hp : IsBuiltInObjectRole p)
include hp

theorem uses_visitRestriction (ope : ObjectPropExpr) {bce : ClassExpr}
    (hbce : ∀ c : Checker, (c.visitClassExpression bce).Uses p ↔
      c.Uses p ∨ p ∈ bce.objectPropertyNames)
    (checker : Checker) : ((checker.visitObjectProperty ope).visitClassExpression bce).Uses p ↔
      checker.Uses p ∨ p ∈ namedProperty ope :: bce.objectPropertyNames := by
  rw [hbce, uses_visitObjectProperty hp, mem_cons, or_assoc]

theorem uses_visitClassExpression (ce : ClassExpr) (checker : Checker) :
    (checker.visitClassExpression ce).Uses p ↔ checker.Uses p ∨ p ∈ ce.objectPropertyNames := by
  induction ce generalizing checker with
  | objectIntersectionOf operands ih | objectUnionOf operands ih =>
    have hops := uses_foldl operands ih checker
    rw [← visitOperands_eq_foldl, ← mem_namesOf] at hops
    exact hops
  | objectComplementOf operand ih => exact ih checker
  | objectSomeValuesFrom ope bce ih | objectAllValuesFrom ope bce ih
  | objectMinCardinality n ope bce ih | objectMaxCardinality n ope bce ih
  | objectExactCardinality n ope bce ih => exact uses_visitRestriction hp ope ih checker
  | objectHasValue ope i | objectHasSelf ope =>
    exact (uses_visitObjectProperty hp ope).trans (or_congr_right mem_singleton.symm)
  | dataHasValue dp l | dataSomeValuesFrom dp d | dataAllValuesFrom dp d | dataMinCardinality n dp d
  | dataMaxCardinality n dp d | dataExactCardinality n dp d =>
    exact (uses_visitDataProperty dp).trans (or_iff_left not_mem_nil).symm
  | _ => exact (or_iff_left not_mem_nil).symm

theorem uses_visitFact (f : Fact) (checker : Checker) :
    (checker.visitFact f).Uses p ↔ checker.Uses p ∨ p ∈ f.objectPropertyNames := by
  cases f <;> simp [visitFact, Fact.objectPropertyNames, uses_visitObjectProperty hp,
      uses_visitClassExpression hp]

theorem uses_visitObjectProperties (rs : List ObjectPropExpr) (checker : Checker) :
    (rs.foldl visitObjectProperty checker).Uses p ↔
      checker.Uses p ∨ ∃ r ∈ rs, p = namedProperty r :=
  uses_foldl rs (fun r _ _ => uses_visitObjectProperty hp r) checker

end

theorem uses_visitDataProperties (ps : List Iri) (checker : Checker) :
    (ps.foldl visitDataProperty checker).Uses p ↔ checker.Uses p := by
  induction ps generalizing checker with
  | nil => rfl
  | cons q ps ih => rw [foldl_cons, ih, uses_visitDataProperty]

/-- The visitor looks at the inclusions, the characteristics and the facts. -/
theorem uses_new (hp : IsBuiltInObjectRole p) (axioms : OwlAxioms) :
    (new axioms).Uses p ↔ axioms.OccursInInclusions p := by
  have hinit : ¬ ({} : Checker).Uses p := by simp [Uses]
  have hconcs (c : Checker) :
      (axioms.conceptInclusions.foldl (fun c entry => entry.foldl visitClassExpression c) c).Uses
        p ↔
        c.Uses p ∨ ∃ e ∈ axioms.conceptInclusions, ∃ d ∈ e, p ∈ d.objectPropertyNames :=
    uses_foldl _ (fun e _ c => uses_foldl e (fun d _ => uses_visitClassExpression hp d) c) c
  have hsim (c : Checker) : (axioms.simpleObjectPropertyInclusions.foldl
        (fun c i => (c.visitObjectProperty i.1).visitObjectProperty i.2) c).Uses p ↔ c.Uses p ∨
        ∃ i ∈ axioms.simpleObjectPropertyInclusions,
          p = namedProperty i.1 ∨ p = namedProperty i.2 := by
    apply uses_foldl
    intro i _ c
    rw [uses_visitObjectProperty hp, uses_visitObjectProperty hp, or_assoc]
  have hcpx (c : Checker) : (axioms.complexObjectPropertyInclusions.foldl (fun c i =>
        (i.subObjectProperties.foldl visitObjectProperty c).visitObjectProperty
          i.superObjectProperty) c).Uses p ↔ c.Uses p ∨
        ∃ i ∈ axioms.complexObjectPropertyInclusions,
          (∃ r ∈ i.subObjectProperties, p = namedProperty r) ∨
            p = namedProperty i.superObjectProperty := by
    apply uses_foldl
    intro i _ c
    rw [uses_visitObjectProperty hp, uses_visitObjectProperties hp, or_assoc]
  have hdisj (c : Checker) : (axioms.disjointObjectProperties.foldl (fun c entry =>
          entry.foldl visitObjectProperty c) c).Uses p ↔
        c.Uses p ∨ ∃ rs ∈ axioms.disjointObjectProperties, ∃ r ∈ rs, p = namedProperty r :=
    uses_foldl _ (fun rs _ c => uses_visitObjectProperties hp rs c) c
  have hdata (c : Checker) : (axioms.dataPropertyInclusions.foldl
        (fun c i => (c.visitDataProperty i.1).visitDataProperty i.2) c).Uses p ↔ c.Uses p := by
    induction axioms.dataPropertyInclusions generalizing c with
    | nil => rfl
    | cons i l ih => rw [foldl_cons, ih, uses_visitDataProperty, uses_visitDataProperty]
  have hdisjointData (c : Checker) :
      (axioms.disjointDataProperties.foldl (fun c entry => entry.foldl visitDataProperty c) c).Uses
        p ↔
        c.Uses p := by
    induction axioms.disjointDataProperties generalizing c with
    | nil => rfl
    | cons ps l ih => rw [foldl_cons, ih, uses_visitDataProperties]
  have hfacts (c : Checker) : (axioms.facts.foldl visitFact c).Uses p ↔
      c.Uses p ∨ ∃ f ∈ axioms.facts, p ∈ f.objectPropertyNames :=
    uses_foldl _ (fun f _ => uses_visitFact hp f) c
  simp only [new, hfacts, hdisjointData, hdata, uses_visitObjectProperties hp, hdisj, hcpx,
    hsim, hconcs, hinit, false_or, or_assoc, OwlAxioms.OccursInInclusions]

end Checker

/-! ## Readings that agree -/

section agreement

variable {Dom : Type u} {Val : Type v} {I : Interp Dom Val} {R S : Iri → Dom → Dom → Prop}

theorem readRole_congr {r : ObjectPropExpr} (h : R (namedProperty r) = S (namedProperty r)) :
    readRole R r = readRole S r := by
  funext x y
  cases r with
  | objectProperty p => exact congrFun (congrFun h x) y
  | inverseObjectProperty p => exact congrFun (congrFun h y) x

theorem readChain_congr {w : List ObjectPropExpr}
    (h : ∀ r ∈ w, R (namedProperty r) = S (namedProperty r)) :
    readChain R w = readChain S w := by
  induction w with
  | nil => rfl
  | cons r w ih =>
    funext x y
    rw [readChain, readChain, readRole_congr (h r (by simp)), ih fun s hs => h s (by simp [hs])]

namespace Interp

/-- An expression depends on the readings of the properties that occur in it. -/
theorem readExpr_congr {ce : ClassExpr} (h : ∀ p ∈ ce.objectPropertyNames, R p = S p) :
    I.readExpr R ce = I.readExpr S ce := by
  have hrole (ope : ObjectPropExpr) : R (namedProperty ope) = S (namedProperty ope) →
    readRole R ope = readRole S ope :=
    readRole_congr
  induction ce with
  | objectIntersectionOf operands ih =>
    rw [readExpr_intersection, readExpr_intersection]
    have hops (d : ClassExpr) (hd : d ∈ operands) : I.readExpr R d = I.readExpr S d :=
      ih d hd fun p hp => h p ((mem_namesOf operands).mpr ⟨d, hd, hp⟩)
    ext x
    exact forall₂_congr fun d hd => by rw [hops d hd]
  | objectUnionOf operands ih =>
    rw [readExpr_union, readExpr_union]
    have hops (d : ClassExpr) (hd : d ∈ operands) : I.readExpr R d = I.readExpr S d :=
      ih d hd fun p hp => h p ((mem_namesOf operands).mpr ⟨d, hd, hp⟩)
    ext x
    exact exists_congr fun d => and_congr_right fun hd => by rw [hops d hd]
  | objectComplementOf operand ih => exact congrArg compl (ih h)
  | objectHasValue ope i =>
    exact congrArg (fun ρ : Dom → Dom → Prop => {x | ρ x (I.individuals i)})
      (hrole ope (h _ (mem_singleton_self _)))
  | objectHasSelf ope =>
    exact congrArg (fun ρ : Dom → Dom → Prop => {x | ρ x x})
      (hrole ope (h _ (mem_singleton_self _)))
  | objectSomeValuesFrom ope bce ih =>
    exact congrArg₂ (fun (ρ : Dom → Dom → Prop) (E : Set Dom) => {x | ∃ y, ρ x y ∧ y ∈ E})
      (hrole ope (h _ mem_cons_self)) (ih fun p hp => h p (mem_cons_of_mem _ hp))
  | objectAllValuesFrom ope bce ih =>
    exact congrArg₂ (fun (ρ : Dom → Dom → Prop) (E : Set Dom) => {x | ∀ y, ρ x y → y ∈ E})
      (hrole ope (h _ mem_cons_self)) (ih fun p hp => h p (mem_cons_of_mem _ hp))
  | objectMinCardinality n ope bce ih =>
    exact congrArg₂ (fun (ρ : Dom → Dom → Prop) (E : Set Dom) =>
        {x | (n : ℕ∞) ≤ Set.encard {y | ρ x y ∧ y ∈ E}})
      (hrole ope (h _ mem_cons_self)) (ih fun p hp => h p (mem_cons_of_mem _ hp))
  | objectMaxCardinality n ope bce ih =>
    exact congrArg₂ (fun (ρ : Dom → Dom → Prop) (E : Set Dom) =>
        {x | Set.encard {y | ρ x y ∧ y ∈ E} ≤ n})
      (hrole ope (h _ mem_cons_self)) (ih fun p hp => h p (mem_cons_of_mem _ hp))
  | objectExactCardinality n ope bce ih =>
    exact congrArg₂ (fun (ρ : Dom → Dom → Prop) (E : Set Dom) =>
        {x | Set.encard {y | ρ x y ∧ y ∈ E} = n})
      (hrole ope (h _ mem_cons_self)) (ih fun p hp => h p (mem_cons_of_mem _ hp))
  | _ => rfl

theorem readAtom_congr {a : SwrlAtom} (h : ∀ p ∈ a.objectPropertyNames, R p = S p)
    (val : Iri → Dom ⊕ Val) : I.readAtom R val a ↔ I.readAtom S val a := by
  cases a with
  | classAtom pred arg => rw [readAtom, readAtom, readExpr_congr h]
  | objectPropertyAtom pred s t =>
    rw [readAtom, readAtom, readRole_congr (h _ (by simp [SwrlAtom.objectPropertyNames]))]
  | _ => rfl

theorem readFact_congr {f : Fact} (h : ∀ p ∈ f.objectPropertyNames, R p = S p) :
    I.readFact R f ↔ I.readFact S f := by
  cases f with
  | classAssertion ce i => rw [readFact, readFact, readExpr_congr h]
  | objectPropertyAssertion ope a b | negativeObjectPropertyAssertion ope a b =>
    rw [readFact, readFact, readRole_congr (h _ (by simp [Fact.objectPropertyNames]))]
  | _ => rfl

theorem readRule_congr {rule : DisjunctiveRule}
    (h : ∀ a ∈ rule.body ++ rule.head, ∀ p ∈ a.objectPropertyNames, R p = S p) :
    I.readRule R rule ↔ I.readRule S rule := by
  apply forall_congr'
  intro val
  have hbody : (∀ b ∈ rule.body, I.readAtom R val b) ↔ ∀ b ∈ rule.body, I.readAtom S val b :=
    forall₂_congr fun b hb => readAtom_congr (h b (by simp [hb])) val
  have hhead : (∃ b ∈ rule.head, I.readAtom R val b) ↔ ∃ b ∈ rule.head, I.readAtom S val b :=
    exists_congr fun b => and_congr_right fun hb => readAtom_congr (h b (by simp [hb])) val
  rw [hbody, hhead]

theorem readShares_congr {e : PropExpr} (h : ∀ p ∈ e.objectPropertyNames, R p = S p) (x y : Dom) :
    I.readShares R x y e ↔ I.readShares S x y e := by
  cases e with
  | objectPropertyExpression ope =>
    rw [readShares, readShares, readRole_congr (h _ (by simp [PropExpr.objectPropertyNames]))]
  | _ => rfl

theorem readKey_congr {key : HasKeyAxiom}
    (hcls : ∀ p ∈ key.classExpression.objectPropertyNames, R p = S p)
    (h : ∀ e ∈ key.propertyExpressions, ∀ p ∈ e.objectPropertyNames, R p = S p) :
    I.readKey R key ↔ I.readKey S key := by
  unfold readKey
  rw [readExpr_congr hcls]
  apply forall₂_congr
  intro a b
  have hshares : (∀ e ∈ key.propertyExpressions,
      I.readShares R (I.individuals (.named a)) (I.individuals (.named b)) e) ↔
        ∀ e ∈ key.propertyExpressions,
          I.readShares S (I.individuals (.named a)) (I.individuals (.named b)) e :=
    forall₂_congr fun e he => readShares_congr (h e he) _ _
  rw [hshares]

/-- A model depends on the readings of the properties that occur in the axioms. -/
theorem Models.congr {axioms : OwlAxioms} (hI : I.Models R axioms)
    (h : ∀ p, axioms.OccursInInclusions p ∨ axioms.OccursInRules p → R p = S p) :
    I.Models S axioms := by
  have hvis (p : Iri) (hp : axioms.OccursInInclusions p) : R p = S p := h p (.inl hp)
  have hrules (p : Iri) (hp : axioms.OccursInRules p) : R p = S p := h p (.inr hp)
  unfold OwlAxioms.OccursInInclusions at hvis
  constructor
  · intro e he x
    obtain ⟨d, hd, hx⟩ := hI.conceptInclusions e he x
    refine ⟨d, hd, ?_⟩
    rwa [← readExpr_congr fun p hp => hvis p (.inl ⟨e, he, d, hd, hp⟩)]
  · exact hI.dataRangeInclusions
  · intro i hi
    have hsub := hvis (namedProperty i.1) (.inr (.inl ⟨i, hi, .inl rfl⟩))
    have hsup := hvis (namedProperty i.2) (.inr (.inl ⟨i, hi, .inr rfl⟩))
    rw [← readRole_congr hsub, ← readRole_congr hsup]
    exact hI.simpleObjectPropertyInclusions i hi
  · intro c hc
    have hsub : ∀ r ∈ c.subObjectProperties, R (namedProperty r) = S (namedProperty r) :=
      fun r hr => hvis _ (.inr (.inr (.inl ⟨c, hc, .inl ⟨r, hr, rfl⟩⟩)))
    have hsup := hvis (namedProperty c.superObjectProperty) (.inr (.inr (.inl ⟨c, hc, .inr rfl⟩)))
    rw [← readChain_congr hsub, ← readRole_congr hsup]
    exact hI.complexObjectPropertyInclusions c hc
  · intro rs hrs
    have hrole : ∀ r ∈ rs, readRole R r = readRole S r := fun r hr =>
      readRole_congr (hvis _ (.inr (.inr (.inr (.inl ⟨rs, hrs, r, hr, rfl⟩)))))
    apply (hI.disjointObjectProperties rs hrs).imp_of_mem
    intro r s hr hs hdisj
    rwa [← hrole r hr, ← hrole s hs]
  · intro r hr
    rw [← readRole_congr (hvis _ (.inr (.inr (.inr (.inr (.inl ⟨r, hr, rfl⟩))))))]
    exact hI.reflexiveObjectProperties r hr
  · intro r hr
    rw [← readRole_congr (hvis _ (.inr (.inr (.inr (.inr (.inr (.inl ⟨r, hr, rfl⟩)))))))]
    exact hI.irreflexiveObjectProperties r hr
  · intro r hr
    rw [← readRole_congr (hvis _ (.inr (.inr (.inr (.inr (.inr (.inr (.inl ⟨r, hr, rfl⟩))))))))]
    exact hI.asymmetricObjectProperties r hr
  · exact hI.dataPropertyInclusions
  · exact hI.disjointDataProperties
  · intro f hf
    refine (readFact_congr fun p hp => hvis p ?_).mp (hI.facts f hf)
    exact .inr (.inr (.inr (.inr (.inr (.inr (.inr ⟨f, hf, hp⟩))))))
  · intro k hk
    refine (readKey_congr (fun p hp => hrules p ?_) fun e he p hp => hrules p ?_).mp
      (hI.hasKeys k hk)
    · exact .inr ⟨k, hk, .inl hp⟩
    · exact .inr ⟨k, hk, .inr ⟨e, he, hp⟩⟩
  · intro r hr
    exact (readRule_congr fun a ha p hp => hrules p (.inl ⟨r, hr, a, ha, hp⟩)).mp (hI.rules r hr)

end Interp

end agreement

/-! ## What the added axioms say -/

section axiomatized

variable {Dom : Type u} {Val : Type v} {I : Interp Dom Val} {R : Iri → Dom → Dom → Prop}
  {axioms : OwlAxioms}

theorem models_axiomatizeTopObjectProperty : I.Models R axioms.axiomatizeTopObjectProperty ↔
      I.Models R axioms ∧ ∀ x y, R topObjectRole x y := by
  constructor
  · intro h
    have htransitive (x y z : Dom) (hxy : R topObjectRole x y) (hyz : R topObjectRole y z) :
        R topObjectRole x z :=
      h.complexObjectPropertyInclusions _ (mem_append_right _ (mem_singleton_self _)) x z
        ⟨y, hxy, z, hyz, rfl⟩
    have hsymmetric (x y : Dom) (hxy : R topObjectRole x y) : R topObjectRole y x :=
      h.simpleObjectPropertyInclusions _ (mem_append_right _ (mem_singleton_self _)) x y hxy
    have hind (x : Dom) :
        R topObjectRole x (I.individuals (.named "internal:nam#topIndividual")) := by
      obtain ⟨d, hd, hx⟩ := h.conceptInclusions _ (mem_append_right _ (mem_singleton_self _)) x
      rw [mem_singleton.mp hd] at hx
      obtain ⟨y, hxy, i, hi, rfl⟩ := hx
      rwa [mem_singleton.mp hi] at hxy
    refine ⟨?_, fun x y => htransitive x _ y (hind x) (hsymmetric y _ (hind y))⟩
    exact { h with
      conceptInclusions := fun e he => h.conceptInclusions e (mem_append_left _ he)
      simpleObjectPropertyInclusions := fun i hi =>
        h.simpleObjectPropertyInclusions i (mem_append_left _ hi)
      complexObjectPropertyInclusions := fun c hc =>
        h.complexObjectPropertyInclusions c (mem_append_left _ hc) }
  · rintro ⟨h, htop⟩
    refine { h with
      conceptInclusions := ?_, simpleObjectPropertyInclusions := ?_,
      complexObjectPropertyInclusions := ?_ }
    · intro e he x
      rcases mem_append.mp he with he | he
      · exact h.conceptInclusions e he x
      · rw [mem_singleton.mp he]
        exact ⟨_, mem_singleton_self _, _, htop x _, _, mem_singleton_self _, rfl⟩
    · intro i hi x y hxy
      rcases mem_append.mp hi with hi | hi
      · exact h.simpleObjectPropertyInclusions i hi x y hxy
      · rw [mem_singleton.mp hi]
        exact htop y x
    · intro c hc x y hxy
      rcases mem_append.mp hc with hc | hc
      · exact h.complexObjectPropertyInclusions c hc x y hxy
      · rw [mem_singleton.mp hc]
        exact htop x y

theorem models_append_conceptInclusion {inclusion : List ClassExpr} :
    I.Models R { axioms with conceptInclusions := axioms.conceptInclusions ++ [inclusion] } ↔
      I.Models R axioms ∧ ∀ x, ∃ d ∈ inclusion, x ∈ I.readExpr R d := by
  constructor
  · intro h
    exact ⟨{ h with conceptInclusions := fun e he => h.conceptInclusions e (mem_append_left _ he) },
      h.conceptInclusions inclusion (mem_append_right _ (mem_singleton_self _))⟩
  · rintro ⟨h, hincl⟩
    refine { h with conceptInclusions := fun e he => ?_ }
    rcases mem_append.mp he with he | he
    · exact h.conceptInclusions e he
    · rwa [mem_singleton.mp he]

theorem models_axiomatizeBottomObjectProperty : I.Models R axioms.axiomatizeBottomObjectProperty ↔
      I.Models R axioms ∧ ∀ x y, ¬ R bottomObjectRole x y := by
  apply models_append_conceptInclusion.trans
  apply and_congr_right
  intro _
  apply forall_congr'
  intro x
  simp [Interp.readExpr, readRole, I.classes_nothing]

theorem models_axiomatizeTopDataProperty :
    I.Models R axioms.axiomatizeTopDataProperty ↔ I.Models R axioms := by
  apply models_append_conceptInclusion.trans
  apply and_iff_left
  intro x
  simp [Interp.readExpr, I.dataProperties_top]

theorem models_axiomatizeBottomDataProperty :
    I.Models R axioms.axiomatizeBottomDataProperty ↔ I.Models R axioms := by
  apply models_append_conceptInclusion.trans
  apply and_iff_left
  intro x
  simp [Interp.readExpr, I.dataProperties_bottom]

/-- The axioms that are added give a meaning to the properties that the visitor has met. -/
theorem models_axiomatizeBuiltInPropertiesAsNeeded :
    I.Models R axioms.axiomatizeBuiltInPropertiesAsNeeded ↔ I.Models R axioms ∧
      (axioms.OccursInInclusions topObjectRole → ∀ x y, R topObjectRole x y) ∧
      (axioms.OccursInInclusions bottomObjectRole → ∀ x y, ¬ R bottomObjectRole x y) := by
  have htop : (Checker.new axioms).usesTopObjectProperty = true ↔
      axioms.OccursInInclusions topObjectRole := by
    rw [← Checker.uses_new (.inl rfl)]
    simp [Checker.Uses, bottomObjectRole_ne_topObjectRole.symm]
  have hbot : (Checker.new axioms).usesBottomObjectProperty = true ↔
      axioms.OccursInInclusions bottomObjectRole := by
    rw [← Checker.uses_new (.inr rfl)]
    simp [Checker.Uses, bottomObjectRole_ne_topObjectRole]
  rw [← htop, ← hbot]
  unfold OwlAxioms.axiomatizeBuiltInPropertiesAsNeeded
    OwlAxioms.axiomatizeBuiltInPropertiesAsNeededWithSkips
  simp only [Bool.not_false, Bool.and_true]
  generalize Checker.new axioms = checker
  have hdata (b c : Bool) (axioms' : OwlAxioms) : I.Models R
      (if c then (if b then axioms'.axiomatizeTopDataProperty
        else axioms').axiomatizeBottomDataProperty
        else if b then axioms'.axiomatizeTopDataProperty else axioms') ↔ I.Models R axioms' := by
    cases b <;> cases c <;>
      simp [models_axiomatizeTopDataProperty, models_axiomatizeBottomDataProperty]
  rw [hdata]
  cases checker.usesTopObjectProperty <;> cases checker.usesBottomObjectProperty <;>
    simp [models_axiomatizeTopObjectProperty, models_axiomatizeBottomObjectProperty, and_assoc]

end axiomatized

/-- The built-in object properties that occur in a rule or a key occur elsewhere as well. -/
def OwlAxioms.RulesCovered (axioms : OwlAxioms) : Prop :=
  ∀ p, IsBuiltInObjectRole p → axioms.OccursInRules p → axioms.OccursInInclusions p

/-- The axiomatised axioms have a model, whatever it takes the built-in object properties for, if
and only if the axioms have one that gives them their meaning. -/
theorem axiomatizeBuiltInProperties_satisfiable {axioms : OwlAxioms} (hcov : axioms.RulesCovered) :
    (∃ (Dom : Type u) (Val : Type v) (I : Interp Dom Val) (R : Iri → Dom → Dom → Prop),
      I.Models R axioms.axiomatizeBuiltInPropertiesAsNeeded) ↔
    ∃ (Dom : Type u) (Val : Type v) (I : Interp Dom Val) (R : Iri → Dom → Dom → Prop),
      IsBuiltInReading R ∧ I.Models R axioms := by
  constructor
  · rintro ⟨Dom, Val, I, R, h⟩
    obtain ⟨hmodel, htop, hbot⟩ := models_axiomatizeBuiltInPropertiesAsNeeded.mp h
    let S : Iri → Dom → Dom → Prop := fun p x y =>
      p = topObjectRole ∨ p ≠ bottomObjectRole ∧ R p x y
    have hS : IsBuiltInReading S :=
      ⟨fun x y => .inl rfl, fun x y h => by simp [S, bottomObjectRole_ne_topObjectRole] at h⟩
    refine ⟨Dom, Val, I, S, hS, hmodel.congr fun p hp => ?_⟩
    -- a built-in property that occurs anywhere has been met, so that its axioms are there
    have hmet (hbuiltIn : IsBuiltInObjectRole p) : axioms.OccursInInclusions p :=
      hp.elim id (hcov p hbuiltIn)
    funext x y
    by_cases ht : p = topObjectRole
    · subst ht
      exact propext ⟨fun _ => .inl rfl, fun _ => htop (hmet (.inl rfl)) x y⟩
    · by_cases hb : p = bottomObjectRole
      · subst hb
        exact propext ⟨fun hxy => absurd hxy (hbot (hmet (.inr rfl)) x y),
          fun hxy => absurd hxy (hS.bottom x y)⟩
      · simp [S, ht, hb]
  · rintro ⟨Dom, Val, I, R, hR, hmodel⟩
    exact ⟨Dom, Val, I, R, models_axiomatizeBuiltInPropertiesAsNeeded.mpr
      ⟨hmodel, fun _ => hR.top, fun _ => hR.bottom⟩⟩

/-- Different individuals `a` and `b`, and a rule that makes related individuals equal. -/
def relatedAreEqual (conceptInclusions : List (List ClassExpr)) : OwlAxioms :=
  { conceptInclusions := conceptInclusions
    facts := [.differentIndividuals [.named "a", .named "b"]]
    rules :=
        [⟨[.objectPropertyAtom (.objectProperty topObjectRole) (.variable "x") (.variable "y")],
      [.sameIndividualAtom (.variable "x") (.variable "y")]⟩] }

/-- Individuals that denote themselves. -/
def individualsInterp : Interp Individ Unit where
  nonempty := ⟨.named "a"⟩
  classes c := {_x | c = owlThing}
  classes_thing := by simp
  classes_nothing := by simp [owlThing, owlNothing]
  objectProperties p _ _ := p = topObjectRole
  objectProperties_top _ _ := rfl
  objectProperties_bottom _ _ := bottomObjectRole_ne_topObjectRole
  dataProperties p _ _ := p = topDataRole
  dataProperties_top _ _ := rfl
  dataProperties_bottom _ _ := by decide
  individuals := id
  datatypes _ := Set.univ
  datatypes_literal := full_literal
  literals _ := ()
  facets _ := ∅
  builtIns _ _ := False

theorem relatedAreEqual_unsatisfiable {Dom : Type u} {Val : Type v} {I : Interp Dom Val}
    {R : Iri → Dom → Dom → Prop} (hR : IsBuiltInReading R) (inclusions : List (List ClassExpr)) :
    ¬ I.Models R (relatedAreEqual inclusions) := by
  intro h
  have hdifferent : I.individuals (.named "a") ≠ I.individuals (.named "b") := by
    have hfact := h.facts _ (mem_singleton_self _)
    simpa [Interp.readFact] using hfact
  let val : Iri → Dom ⊕ Val := fun v => .inl (I.individuals (.named (if v = "x" then "a" else "b")))
  obtain ⟨head, hhead, hequal⟩ := h.rules _ (mem_singleton_self _) val (by
    intro b hb
    rw [mem_singleton.mp hb]
    exact ⟨_, _, rfl, rfl, hR.top _ _⟩)
  rw [mem_singleton.mp hhead] at hequal
  exact hdifferent (Sum.inl.inj hequal)

/-- The visitor does not look at the rule, and the property may relate nothing. -/
theorem axiomatizeBuiltInProperties_misses_rules :
    ¬ ((∃ (Dom Val : Type) (I : Interp Dom Val) (R : Iri → Dom → Dom → Prop),
        I.Models R (relatedAreEqual []).axiomatizeBuiltInPropertiesAsNeeded) ↔
      ∃ (Dom Val : Type) (I : Interp Dom Val) (R : Iri → Dom → Dom → Prop),
        IsBuiltInReading R ∧ I.Models R (relatedAreEqual [])) := by
  intro h
  have hmodel : individualsInterp.Models (fun _ _ _ => False)
      (relatedAreEqual []).axiomatizeBuiltInPropertiesAsNeeded := by
    have hsame : (relatedAreEqual []).axiomatizeBuiltInPropertiesAsNeeded =
      relatedAreEqual [] := rfl
    rw [hsame]
    constructor <;> try simp [relatedAreEqual]
    · simp [Interp.readFact, individualsInterp]
    · intro val hbody
      obtain ⟨x, y, -, -, hxy⟩ := hbody _ (mem_singleton_self _)
      exact hxy.elim
  obtain ⟨Dom, Val, I, R, hR, hI⟩ := h.mp ⟨_, _, _, _, hmodel⟩
  exact relatedAreEqual_unsatisfiable hR [] hI

/-- With an inclusion about the property its axioms are there, and there is no model either way. -/
theorem axiomatizeBuiltInProperties_satisfiable_relatedAreEqual :
    let axioms := relatedAreEqual [[.objectHasSelf (.objectProperty topObjectRole)]]
    axioms.RulesCovered ∧ ((∃ (Dom Val : Type) (I : Interp Dom Val) (R : Iri → Dom → Dom → Prop),
        I.Models R axioms.axiomatizeBuiltInPropertiesAsNeeded) ↔
      ∃ (Dom Val : Type) (I : Interp Dom Val) (R : Iri → Dom → Dom → Prop),
        IsBuiltInReading R ∧ I.Models R axioms) := by
  intro axioms
  have hcov : axioms.RulesCovered := by
    rintro p - (⟨r, hr, a, ha, hp⟩ | ⟨k, hk, -⟩)
    · rw [mem_singleton.mp hr] at ha
      rcases mem_pair.mp ha with rfl | rfl
      · exact .inl ⟨_, mem_singleton_self _, _, mem_singleton_self _, hp⟩
      · cases hp
    · cases hk
  exact ⟨hcov, axiomatizeBuiltInProperties_satisfiable hcov⟩

end Hermit
