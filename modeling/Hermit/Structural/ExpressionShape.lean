import Hermit.Structural.ExpressionSemantics

/-! # The expressions that normalisation meets

Class expressions without data properties, over a given vocabulary of class names,
and the shapes that simplification and negation normal form leave of them.
-/

namespace Hermit

open ExpressionOrder

variable {Dom Val : Type*}

/-! ## Object class expressions over a vocabulary -/

/-- An expression without data properties, whose cardinalities are countable and whose
class names belong to `q`. -/
def ObjectOver (q : Iri → Prop) : ClassExpr → Prop
  | .class c => q c
  | .objectIntersectionOf operands => allOver operands
  | .objectUnionOf operands => allOver operands
  | .objectComplementOf operand => ObjectOver q operand
  | .objectOneOf _ => True
  | .objectSomeValuesFrom _ bce => ObjectOver q bce
  | .objectAllValuesFrom _ bce => ObjectOver q bce
  | .objectHasValue _ _ => True
  | .objectHasSelf _ => True
  | .objectMinCardinality n _ bce => n < u32Limit ∧ ObjectOver q bce
  | .objectMaxCardinality n _ bce => n + 1 < u32Limit ∧ ObjectOver q bce
  | .objectExactCardinality n _ bce => n + 1 < u32Limit ∧ ObjectOver q bce
  | _ => False
where
  allOver : List ClassExpr → Prop
    | [] => True
    | d :: ds => ObjectOver q d ∧ allOver ds

section

variable (q : Iri → Prop) (operands : List ClassExpr)
include operands

theorem allOver_iff : ObjectOver.allOver q operands ↔ ∀ d ∈ operands, ObjectOver q d := by
  induction operands with
  | nil => simp [ObjectOver.allOver]
  | cons d ds ih => simp [ObjectOver.allOver, ih]

@[simp] theorem objectOver_intersection :
    ObjectOver q (.objectIntersectionOf operands) ↔ ∀ d ∈ operands, ObjectOver q d :=
  allOver_iff q operands

@[simp] theorem objectOver_union :
    ObjectOver q (.objectUnionOf operands) ↔ ∀ d ∈ operands, ObjectOver q d :=
  allOver_iff q operands

end

variable {ce : ClassExpr}

theorem ObjectOver.mono {p q : Iri → Prop} (h : ∀ c, p c → q c) (hce : ObjectOver p ce) :
    ObjectOver q ce := by
  induction ce with
  | objectIntersectionOf operands ih =>
    rw [objectOver_intersection] at hce ⊢
    exact fun d hd => ih d hd (hce d hd)
  | objectUnionOf operands ih =>
    rw [objectOver_union] at hce ⊢
    exact fun d hd => ih d hd (hce d hd)
  | _ => simp_all [ObjectOver]

theorem ObjectOver.isCountable {q : Iri → Prop} (h : ObjectOver q ce) : isCountable ce := by
  induction ce with
  | objectIntersectionOf operands ih =>
    rw [objectOver_intersection] at h
    exact (isCountable_intersection operands).mpr fun d hd => ih d hd (h d hd)
  | objectUnionOf operands ih =>
    rw [objectOver_union] at h
    exact (isCountable_union operands).mpr fun d hd => ih d hd (h d hd)
  | _ => simp_all [ObjectOver, Hermit.isCountable]

/-- Interpretations that agree on everything but the class names outside `q`. -/
structure Interp.AgreeOn (I J : Interp Dom Val) (q : Iri → Prop) : Prop where
  classes : ∀ c, q c → I.classes c = J.classes c
  eq_withClasses : J = I.withClasses J.classes J.classes_thing J.classes_nothing

namespace Interp.AgreeOn

variable {I J : Interp Dom Val} {q : Iri → Prop}

theorem refl (I : Interp Dom Val) (q : Iri → Prop) : I.AgreeOn I q :=
  ⟨fun _ _ => rfl, rfl⟩

theorem role (h : I.AgreeOn J q) (r : ObjectPropExpr) (x y : Dom) :
    I.role r x y ↔ J.role r x y := by
  rw [h.eq_withClasses, Interp.role_withClasses]

theorem individuals (h : I.AgreeOn J q) : I.individuals = J.individuals := by
  rw [h.eq_withClasses, Interp.individuals_withClasses]

theorem mono {p : Iri → Prop} (h : I.AgreeOn J q) (hp : ∀ c, p c → q c) : I.AgreeOn J p :=
  ⟨fun c hc => h.classes c (hp c hc), h.eq_withClasses⟩

theorem trans {K : Interp Dom Val} (h : I.AgreeOn J q) (h' : J.AgreeOn K q) : I.AgreeOn K q := by
  refine ⟨fun c hc => (h.classes c hc).trans (h'.classes c hc), ?_⟩
  conv_lhs => rw [h'.eq_withClasses, h.eq_withClasses]
  rfl

end Interp.AgreeOn

/-- The class names of the expression belong to `q`. -/
def ClassesOver (q : Iri → Prop) : ClassExpr → Prop
  | .class c => q c
  | .objectIntersectionOf operands => allOver operands
  | .objectUnionOf operands => allOver operands
  | .objectComplementOf operand => ClassesOver q operand
  | .objectSomeValuesFrom _ bce => ClassesOver q bce
  | .objectAllValuesFrom _ bce => ClassesOver q bce
  | .objectMinCardinality _ _ bce => ClassesOver q bce
  | .objectMaxCardinality _ _ bce => ClassesOver q bce
  | .objectExactCardinality _ _ bce => ClassesOver q bce
  | _ => True
where
  allOver : List ClassExpr → Prop
    | [] => True
    | d :: ds => ClassesOver q d ∧ allOver ds

section

variable (q : Iri → Prop) (operands : List ClassExpr)
include operands

theorem ClassesOver.allOver_iff :
    ClassesOver.allOver q operands ↔ ∀ d ∈ operands, ClassesOver q d := by
  induction operands with
  | nil => simp [ClassesOver.allOver]
  | cons d ds ih => simp [ClassesOver.allOver, ih]

@[simp] theorem classesOver_intersection :
    ClassesOver q (.objectIntersectionOf operands) ↔ ∀ d ∈ operands, ClassesOver q d :=
  ClassesOver.allOver_iff q operands

@[simp] theorem classesOver_union :
    ClassesOver q (.objectUnionOf operands) ↔ ∀ d ∈ operands, ClassesOver q d :=
  ClassesOver.allOver_iff q operands

end

theorem ClassesOver.mono {p q : Iri → Prop} (h : ∀ c, p c → q c) (hce : ClassesOver p ce) :
    ClassesOver q ce := by
  induction ce with
  | objectIntersectionOf operands ih =>
    rw [classesOver_intersection] at hce ⊢
    exact fun d hd => ih d hd (hce d hd)
  | objectUnionOf operands ih =>
    rw [classesOver_union] at hce ⊢
    exact fun d hd => ih d hd (hce d hd)
  | _ => simp_all [ClassesOver]

theorem ObjectOver.classesOver {q : Iri → Prop} (h : ObjectOver q ce) : ClassesOver q ce := by
  induction ce with
  | objectIntersectionOf operands ih =>
    rw [objectOver_intersection] at h
    exact (classesOver_intersection q operands).mpr fun d hd => ih d hd (h d hd)
  | objectUnionOf operands ih =>
    rw [objectOver_union] at h
    exact (classesOver_union q operands).mpr fun d hd => ih d hd (h d hd)
  | _ => simp_all [ObjectOver, ClassesOver]

/-- A data range depends on the datatypes, the literals and the facets only. -/
theorem Interp.mem_dataRange_congr {Dom' : Type*} {I : Interp Dom Val} {J : Interp Dom' Val}
    (hdatatypes : I.datatypes = J.datatypes) (hliterals : I.literals = J.literals)
    (hfac : I.facets = J.facets) (dr : DataRangeExpr) (v : Val) :
    v ∈ I.dataRange dr ↔ v ∈ J.dataRange dr := by
  induction dr generalizing v with
  | datatype d => simp [hdatatypes]
  | dataIntersectionOf operands ih =>
    simp only [Interp.mem_dataRange_intersection]
    exact forall₂_congr fun d hd => ih d hd v
  | dataUnionOf operands ih =>
    simp only [Interp.mem_dataRange_union]
    exact exists_congr fun d => and_congr_right fun hd => ih d hd v
  | dataComplementOf operand ih => simp [ih]
  | dataOneOf values => simp [hliterals]
  | datatypeRestriction d restrictions => simp [Interp.dataRange, hdatatypes, hfac]

theorem Interp.AgreeOn.mem_dataRange {I J : Interp Dom Val} {q : Iri → Prop} (hIJ : I.AgreeOn J q)
    (dr : DataRangeExpr) (v : Val) : v ∈ I.dataRange dr ↔ v ∈ J.dataRange dr := by
  apply Interp.mem_dataRange_congr
  · rw [hIJ.eq_withClasses]
    rfl
  · rw [hIJ.eq_withClasses]
    rfl
  · rw [hIJ.eq_withClasses]
    rfl

theorem Interp.AgreeOn.dataProperties {I J : Interp Dom Val} {q : Iri → Prop}
    (hIJ : I.AgreeOn J q) :
    I.dataProperties = J.dataProperties := by
  rw [hIJ.eq_withClasses]
  rfl

theorem Interp.AgreeOn.literals {I J : Interp Dom Val} {q : Iri → Prop} (hIJ : I.AgreeOn J q) :
    I.literals = J.literals := by
  rw [hIJ.eq_withClasses]
  rfl

section

variable {I J : Interp Dom Val} {q : Iri → Prop} (hIJ : I.AgreeOn J q)
include hIJ

/-- An expression means the same when its class names do. -/
theorem Interp.AgreeOn.mem_expr_of_classesOver (h : ClassesOver q ce) (x : Dom) :
    x ∈ I.expr ce ↔ x ∈ J.expr ce := by
  induction ce generalizing x with
  | «class» c => simp [hIJ.classes c h]
  | objectIntersectionOf operands ih =>
    rw [classesOver_intersection] at h
    simp only [Interp.mem_expr_intersection]
    exact forall₂_congr fun d hd => ih d hd (h d hd) x
  | objectUnionOf operands ih =>
    rw [classesOver_union] at h
    simp only [Interp.mem_expr_union]
    exact exists_congr fun d => and_congr_right fun hd => ih d hd (h d hd) x
  | objectComplementOf operand ih => simp [ih h]
  | objectOneOf inds => simp [hIJ.individuals]
  | objectSomeValuesFrom ope bce ih | objectAllValuesFrom ope bce ih
  | objectMinCardinality n ope bce ih | objectMaxCardinality n ope bce ih
  | objectExactCardinality n ope bce ih => simp [hIJ.role, ih h]
  | objectHasValue ope i => simp [hIJ.role, hIJ.individuals]
  | objectHasSelf ope => simp [hIJ.role]
  | dataHasValue dp l => simp [hIJ.dataProperties, hIJ.literals]
  | _ => simp [hIJ.dataProperties, hIJ.mem_dataRange]

theorem Interp.AgreeOn.mem_expr (h : ObjectOver q ce) (x : Dom) : x ∈ I.expr ce ↔ x ∈ J.expr ce :=
  hIJ.mem_expr_of_classesOver h.classesOver x

end

section vocabulary

variable (order : ExpressionOrder) {q : Iri → Prop} (hth : q owlThing) (hnone : q owlNothing)

include hth hnone

variable {ce : ClassExpr}

variable (h : ObjectOver q ce)
include h

theorem objectOver_nnf :
    ObjectOver q (order.getNnf ce) ∧ ObjectOver q (order.getComplementNnf ce) := by
  induction ce with
  | «class» c =>
    refine ⟨h, ?_⟩
    unfold getComplementNnf
    split_ifs
    · exact hnone
    · exact hth
    · exact h
  | objectIntersectionOf operands ih =>
    rw [objectOver_intersection] at h
    simp only [getNnf, getComplementNnf, objectOver_intersection,
      objectOver_union, mem_canonical, mem_getNnfAll,
      mem_getComplementNnfAll, forall_exists_index, and_imp,
      forall_apply_eq_imp_iff₂]
    exact ⟨fun d hd => (ih d hd (h d hd)).1, fun d hd => (ih d hd (h d hd)).2⟩
  | objectUnionOf operands ih =>
    rw [objectOver_union] at h
    simp only [getNnf, getComplementNnf, objectOver_intersection,
      objectOver_union, mem_canonical, mem_getNnfAll,
      mem_getComplementNnfAll, forall_exists_index, and_imp,
      forall_apply_eq_imp_iff₂]
    exact ⟨fun d hd => (ih d hd (h d hd)).1, fun d hd => (ih d hd (h d hd)).2⟩
  | objectComplementOf operand ih => exact (ih h).symm
  | objectMinCardinality n ope bce ih =>
    refine ⟨⟨h.1, (ih h.2).1⟩, ?_⟩
    unfold getComplementNnf
    split_ifs with hn
    · exact hnone
    · have hlt := h.1
      exact ⟨by omega, (ih h.2).1⟩
  | objectMaxCardinality n ope bce ih =>
    refine ⟨⟨h.1, (ih h.2).1⟩, ?_⟩
    simp only [getComplementNnf, succ32_eq h.1]
    exact ⟨h.1, (ih h.2).1⟩
  | objectExactCardinality n ope bce ih =>
    have hlt := h.1
    refine ⟨⟨h.1, (ih h.2).1⟩, ?_⟩
    unfold getComplementNnf
    split_ifs with hn
    · exact ⟨by omega, (ih h.2).1⟩
    · rw [objectOver_union]
      simp only [mem_canonical, List.mem_cons, List.not_mem_nil, or_false,
        forall_eq_or_imp, forall_eq, ObjectOver, succ32_eq h.1]
      exact ⟨⟨by omega, (ih h.2).1⟩, h.1, (ih h.2).1⟩
  | _ => simp_all [getNnf, getComplementNnf, ObjectOver]

theorem objectOver_getNnf : ObjectOver q (order.getNnf ce) :=
  (objectOver_nnf order hth hnone h).1

theorem objectOver_getComplementNnf : ObjectOver q (order.getComplementNnf ce) :=
  (objectOver_nnf order hth hnone h).2

theorem objectOver_getSimplified : ObjectOver q (order.getSimplified ce) := by
  induction ce with
  | «class» c => exact h
  | objectIntersectionOf operands ih =>
    rw [objectOver_intersection] at h
    unfold getSimplified
    split
    · exact hnone
    · next conjuncts hconj =>
      simpa using order.forall_mem_simplifyConjuncts
        (fun inner => (objectOver_intersection q inner).mp)
        (fun d hd => ih d hd (h d hd)) hconj
  | objectUnionOf operands ih =>
    rw [objectOver_union] at h
    unfold getSimplified
    split
    · exact hth
    · next disjuncts hdisj =>
      simpa using order.forall_mem_simplifyDisjuncts (fun inner => (objectOver_union q inner).mp)
        (fun d hd => ih d hd (h d hd)) hdisj
  | objectComplementOf operand ih =>
    have hs := ih h
    simp only [getSimplified]
    split_ifs
    · exact hnone
    · exact hth
    · split
      · next inner hinn =>
        rw [hinn] at hs
        exact hs
      · exact hs
  | objectSomeValuesFrom ope bce ih =>
    simp only [getSimplified]
    split_ifs
    · exact hnone
    · exact ih h
  | objectAllValuesFrom ope bce ih =>
    simp only [getSimplified]
    split_ifs
    · exact hth
    · exact ih h
  | objectMinCardinality n ope bce ih =>
    simp only [getSimplified]
    split_ifs
    · exact hth
    · exact hnone
    · exact ih h.2
    · exact ⟨h.1, ih h.2⟩
  | objectMaxCardinality n ope bce ih =>
    simp only [getSimplified]
    split_ifs
    · exact hth
    · exact ih h.2
    · exact ⟨h.1, ih h.2⟩
  | objectExactCardinality n ope bce ih =>
    have hlt := h.1
    simp only [getSimplified]
    split_ifs
    · exact ih h.2
    · exact hnone
    · rw [objectOver_intersection]
      simp only [mem_canonical, List.mem_cons, List.not_mem_nil, or_false,
        forall_eq_or_imp, forall_eq, ObjectOver]
      exact ⟨⟨by omega, ih h.2⟩, h.1, ih h.2⟩
  | _ => simp_all [getSimplified, ObjectOver]

end vocabulary

/-! ## Shapes -/

/-- No Boolean part is a value restriction, an exact cardinality or an at-least zero. -/
def isReduced : ClassExpr → Bool
  | .objectIntersectionOf operands => allReduced operands
  | .objectUnionOf operands => allReduced operands
  | .objectComplementOf operand => isReduced operand
  | .objectHasValue _ _ => false
  | .objectExactCardinality _ _ _ => false
  | .objectMinCardinality n _ _ => 0 < n
  | .dataHasValue _ _ => false
  | .dataExactCardinality _ _ _ => false
  | .dataMinCardinality n _ _ => 0 < n
  | _ => true
where
  allReduced : List ClassExpr → Bool
    | [] => true
    | d :: ds => isReduced d && allReduced ds

theorem allReduced_iff (operands : List ClassExpr) :
    isReduced.allReduced operands ↔ ∀ d ∈ operands, isReduced d := by
  induction operands with
  | nil => simp [isReduced.allReduced]
  | cons d ds ih => simp [isReduced.allReduced, ih]

@[simp] theorem isReduced_intersection (operands : List ClassExpr) :
    isReduced (.objectIntersectionOf operands) ↔ ∀ d ∈ operands, isReduced d :=
  allReduced_iff operands

@[simp] theorem isReduced_union (operands : List ClassExpr) :
    isReduced (.objectUnionOf operands) ↔ ∀ d ∈ operands, isReduced d :=
  allReduced_iff operands

/-- A complement at the top stands before an expression without operands. -/
def isNnfHead : ClassExpr → Bool
  | .objectComplementOf (.class _) => true
  | .objectComplementOf (.objectOneOf _) => true
  | .objectComplementOf (.objectHasSelf _) => true
  | .objectComplementOf (.objectHasValue _ _) => true
  | .objectComplementOf (.dataHasValue _ _) => true
  | .objectComplementOf _ => false
  | _ => true

namespace ExpressionOrder

variable (order : ExpressionOrder)

theorem isNnfHead_nnf (ce : ClassExpr) :
    isNnfHead (order.getNnf ce) ∧ isNnfHead (order.getComplementNnf ce) := by
  induction ce with
  | «class» c | objectMinCardinality n ope bce | objectExactCardinality n ope bce
  | dataMinCardinality n dp dr | dataExactCardinality n dp dr =>
    refine ⟨rfl, ?_⟩
    unfold getComplementNnf
    split_ifs <;> rfl
  | objectComplementOf operand ih => exact ih.symm
  | _ => exact ⟨rfl, rfl⟩

theorem isReduced_nnf {q : Iri → Prop} {ce : ClassExpr} (hover : ObjectOver q ce)
    (h : isReduced ce) : isReduced (order.getNnf ce) ∧ isReduced (order.getComplementNnf ce) := by
  induction ce with
  | «class» c =>
    refine ⟨rfl, ?_⟩
    unfold getComplementNnf
    split_ifs <;> rfl
  | objectIntersectionOf operands ih =>
    rw [objectOver_intersection] at hover
    rw [isReduced_intersection] at h
    simp only [getNnf, getComplementNnf, isReduced_intersection, isReduced_union, mem_canonical,
      mem_getNnfAll, mem_getComplementNnfAll, forall_exists_index, and_imp,
      forall_apply_eq_imp_iff₂]
    exact ⟨fun d hd => (ih d hd (hover d hd) (h d hd)).1,
      fun d hd => (ih d hd (hover d hd) (h d hd)).2⟩
  | objectUnionOf operands ih =>
    rw [objectOver_union] at hover
    rw [isReduced_union] at h
    simp only [getNnf, getComplementNnf, isReduced_intersection, isReduced_union, mem_canonical,
      mem_getNnfAll, mem_getComplementNnfAll, forall_exists_index, and_imp,
      forall_apply_eq_imp_iff₂]
    exact ⟨fun d hd => (ih d hd (hover d hd) (h d hd)).1,
      fun d hd => (ih d hd (hover d hd) (h d hd)).2⟩
  | objectComplementOf operand ih => exact (ih hover h).symm
  | objectMinCardinality n ope bce =>
    refine ⟨h, ?_⟩
    unfold getComplementNnf
    split_ifs <;> rfl
  | objectMaxCardinality n ope bce =>
    refine ⟨rfl, ?_⟩
    simp [getComplementNnf, isReduced, succ32_eq hover.1]
  | _ => simp_all [isReduced, ObjectOver, getNnf, getComplementNnf]

theorem isReduced_getSimplified (ce : ClassExpr) : isReduced (order.getSimplified ce) := by
  induction ce with
  | objectIntersectionOf operands ih =>
    unfold getSimplified
    split
    · rfl
    · next conjuncts hconj =>
      simpa using order.forall_mem_simplifyConjuncts
        (fun inner => (isReduced_intersection inner).mp)
        ih hconj
  | objectUnionOf operands ih =>
    unfold getSimplified
    split
    · rfl
    · next disjuncts hdisj =>
      simpa using order.forall_mem_simplifyDisjuncts (fun inner => (isReduced_union inner).mp)
        ih hdisj
  | objectComplementOf operand ih =>
    simp only [getSimplified]
    split_ifs
    · rfl
    · rfl
    · split
      · next inner hinn =>
        rw [hinn] at ih
        exact ih
      · exact ih
  | objectExactCardinality n ope bce | dataExactCardinality n dp dr =>
    simp only [getSimplified]
    split_ifs with hn
    · rfl
    · rfl
    · rw [isReduced_intersection]
      simp [isReduced, Nat.pos_of_ne_zero hn]
  | objectMinCardinality n ope bce | dataMinCardinality n dp dr =>
    simp only [getSimplified]
    split_ifs with hn
    · rfl
    · rfl
    · rfl
    · simp [isReduced, Nat.pos_of_ne_zero hn]
  | _ =>
    simp only [getSimplified]
    try split_ifs
    all_goals rfl

end ExpressionOrder

end Hermit
