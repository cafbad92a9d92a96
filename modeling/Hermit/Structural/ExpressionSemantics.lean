import Hermit.Owl.Semantics
import Hermit.Structural.ExpressionWeight

/-! # Negation normal form and simplification keep the meaning

The complement of an at-most restriction counts one further, which the 32 bits of a
cardinality have to hold.
-/

namespace Hermit

open Interp

variable {Dom Val : Type*}

/-! ## Cardinalities that can be counted one further -/

/-- Cardinalities are 32-bit numbers, the upper ones below the largest of them. -/
def isCountable : ClassExpr → Bool
  | .class _ => true
  | .objectIntersectionOf operands => allCountable operands
  | .objectUnionOf operands => allCountable operands
  | .objectComplementOf operand => isCountable operand
  | .objectOneOf _ => true
  | .objectSomeValuesFrom _ bce => isCountable bce
  | .objectAllValuesFrom _ bce => isCountable bce
  | .objectHasValue _ _ => true
  | .objectHasSelf _ => true
  | .objectMinCardinality n _ bce => n < u32Limit && isCountable bce
  | .objectMaxCardinality n _ bce => n + 1 < u32Limit && isCountable bce
  | .objectExactCardinality n _ bce => n + 1 < u32Limit && isCountable bce
  | .dataSomeValuesFrom _ _ => true
  | .dataAllValuesFrom _ _ => true
  | .dataHasValue _ _ => true
  | .dataMinCardinality n _ _ => n < u32Limit
  | .dataMaxCardinality n _ _ => n + 1 < u32Limit
  | .dataExactCardinality n _ _ => n + 1 < u32Limit
where
  allCountable : List ClassExpr → Bool
    | [] => true
    | d :: ds => isCountable d && allCountable ds

theorem allCountable_iff (operands : List ClassExpr) :
    isCountable.allCountable operands ↔ ∀ d ∈ operands, isCountable d := by
  induction operands with
  | nil => simp [isCountable.allCountable]
  | cons d ds ih => simp [isCountable.allCountable, ih]

@[simp] theorem isCountable_intersection (operands : List ClassExpr) :
    isCountable (.objectIntersectionOf operands) ↔ ∀ d ∈ operands, isCountable d :=
  allCountable_iff operands

@[simp] theorem isCountable_union (operands : List ClassExpr) :
    isCountable (.objectUnionOf operands) ↔ ∀ d ∈ operands, isCountable d :=
  allCountable_iff operands

theorem succ32_eq {n : ℕ} (h : n + 1 < u32Limit) : succ32 n = n + 1 :=
  Nat.mod_eq_of_lt h

theorem lt_coe_iff_le_pred {n : ℕ} (h : n ≠ 0) (e : ℕ∞) : e < (n : ℕ∞) ↔
    e ≤ ((n - 1 : ℕ) : ℕ∞) := by
  induction e using ENat.recTopCoe with
  | top => simp
  | coe m =>
    norm_cast
    omega

theorem coe_lt_iff_succ_le (n : ℕ) (e : ℕ∞) : (n : ℕ∞) < e ↔ ((n + 1 : ℕ) : ℕ∞) ≤ e := by
  induction e using ENat.recTopCoe with
  | top => simp
  | coe m => norm_cast

theorem ne_coe_iff (n : ℕ) (h : n ≠ 0) (e : ℕ∞) :
    e ≠ n ↔ e ≤ ((n - 1 : ℕ) : ℕ∞) ∨ ((n + 1 : ℕ) : ℕ∞) ≤ e := by
  rw [← lt_coe_iff_le_pred h, ← coe_lt_iff_succ_le]
  exact ne_iff_lt_or_gt

theorem encard_sep_eq_zero_iff {α : Type*} (p q : α → Prop) :
    Set.encard {y | p y ∧ q y} = 0 ↔ ∀ y, p y → ¬ q y := by
  rw [Set.encard_eq_zero, Set.eq_empty_iff_forall_notMem]
  simp

theorem one_le_encard_sep_iff {α : Type*} (p q : α → Prop) :
    1 ≤ Set.encard {y | p y ∧ q y} ↔ ∃ y, p y ∧ q y := by
  rw [Set.one_le_encard_iff_nonempty]
  rfl

namespace ExpressionOrder

variable (order : ExpressionOrder) (I : Interp Dom Val)

/-! ## Data ranges -/

theorem mem_getNnfDataAll (operands : List DataRangeExpr) (e : DataRangeExpr) :
    e ∈ order.getNnfDataAll operands ↔ ∃ d ∈ operands, order.getNnfData d = e := by
  induction operands with
  | nil => simp [getNnfDataAll]
  | cons d ds ih => simp [getNnfDataAll, ih, eq_comm]

theorem mem_getComplementNnfDataAll (operands : List DataRangeExpr) (e : DataRangeExpr) :
    e ∈ order.getComplementNnfDataAll operands ↔
      ∃ d ∈ operands, order.getComplementNnfData d = e := by
  induction operands with
  | nil => simp [getComplementNnfDataAll]
  | cons d ds ih => simp [getComplementNnfDataAll, ih, eq_comm]

section

variable (dr : DataRangeExpr) (v : Val)
include dr v

theorem mem_dataRange_nnf : (v ∈ I.dataRange (order.getNnfData dr) ↔ v ∈ I.dataRange dr) ∧
      (v ∈ I.dataRange (order.getComplementNnfData dr) ↔ v ∉ I.dataRange dr) := by
  induction dr with
  | dataIntersectionOf operands ih =>
    simp only [getNnfData, getComplementNnfData, mem_dataRange_intersection,
      mem_dataRange_union, mem_canonicalData, mem_getNnfDataAll,
      mem_getComplementNnfDataAll, forall_exists_index, and_imp, forall_apply_eq_imp_iff₂,
      exists_exists_and_eq_and]
    refine ⟨forall₂_congr fun d hd => (ih d hd).1, ?_⟩
    push Not
    exact exists_congr fun d => and_congr_right fun hd => (ih d hd).2
  | dataUnionOf operands ih =>
    simp only [getNnfData, getComplementNnfData, mem_dataRange_intersection,
      mem_dataRange_union, mem_canonicalData, mem_getNnfDataAll,
      mem_getComplementNnfDataAll, forall_exists_index, and_imp, forall_apply_eq_imp_iff₂,
      exists_exists_and_eq_and]
    refine ⟨exists_congr fun d => and_congr_right fun hd => (ih d hd).1, ?_⟩
    push Not
    exact forall₂_congr fun d hd => (ih d hd).2
  | dataComplementOf operand ih =>
    simp only [getNnfData, getComplementNnfData, mem_dataRange_complement, ih, not_not, and_self]
  | _ => simp [getNnfData, getComplementNnfData]

@[simp] theorem mem_dataRange_getNnfData :
    v ∈ I.dataRange (order.getNnfData dr) ↔ v ∈ I.dataRange dr :=
  (order.mem_dataRange_nnf I dr v).1

@[simp] theorem mem_dataRange_getComplementNnfData :
    v ∈ I.dataRange (order.getComplementNnfData dr) ↔ v ∉ I.dataRange dr :=
  (order.mem_dataRange_nnf I dr v).2

end

theorem mem_of_isTopDatatype {dr : DataRangeExpr} (h : isTopDatatype dr) (v : Val) :
    v ∈ I.dataRange dr := by
  cases dr with
  | datatype d =>
    simp only [isTopDatatype, decide_eq_true_eq] at h
    simp [h, I.datatypes_literal]
  | _ => simp [isTopDatatype] at h

theorem notMem_of_isBottomDataRange {dr : DataRangeExpr} (h : isBottomDataRange dr) (v : Val) :
    v ∉ I.dataRange dr := by
  cases dr with
  | dataComplementOf inner => simpa using mem_of_isTopDatatype I h v
  | _ => simp [isBottomDataRange] at h

section

variable {operands : List DataRangeExpr} {v : Val}
  (ih : ∀ d ∈ operands, v ∈ I.dataRange (order.getSimplifiedData d) ↔ v ∈ I.dataRange d)
include ih

theorem forall_simplifyDataConjuncts :
    (∀ d ∈ order.simplifyDataConjuncts operands, v ∈ I.dataRange d) ↔
      ∀ d ∈ operands, v ∈ I.dataRange d := by
  induction operands with
  | nil => simp [simplifyDataConjuncts]
  | cons d ds ihs =>
    have hd := ih d (by simp)
    have hds := ihs fun e he => ih e (by simp [he])
    unfold simplifyDataConjuncts
    split
    · next inner h =>
      rw [h, mem_dataRange_intersection] at hd
      simp [or_imp, forall_and, hd, hds]
    · split_ifs with htop
      · simp [hds, hd.mp (mem_of_isTopDatatype I htop v)]
      · simp [hds, hd]

theorem exists_simplifyDataDisjuncts :
    (∀ disjuncts, order.simplifyDataDisjuncts operands = some disjuncts →
      ∃ d ∈ disjuncts, v ∈ I.dataRange d) ↔ ∃ d ∈ operands, v ∈ I.dataRange d := by
  induction operands with
  | nil => simp [simplifyDataDisjuncts]
  | cons d ds ihs =>
    have hd := ih d (by simp)
    have hds := ihs fun e he => ih e (by simp [he])
    unfold simplifyDataDisjuncts
    split
    · next inner h =>
      rw [h, mem_dataRange_union] at hd
      cases hcase : order.simplifyDataDisjuncts ds with
      | none => simp_all
      | some rest => simp_all [or_and_right, exists_or]
    · split_ifs with htop
      · simp [hd.mp (mem_of_isTopDatatype I htop v)]
      · cases hcase : order.simplifyDataDisjuncts ds with
        | none => simp_all
        | some rest => simp_all

end

@[simp] theorem mem_dataRange_getSimplifiedData (dr : DataRangeExpr) (v : Val) :
    v ∈ I.dataRange (order.getSimplifiedData dr) ↔ v ∈ I.dataRange dr := by
  induction dr with
  | dataIntersectionOf operands ih =>
    simp [getSimplifiedData, order.forall_simplifyDataConjuncts I ih]
  | dataUnionOf operands ih =>
    have h := order.exists_simplifyDataDisjuncts I ih
    unfold getSimplifiedData
    split
    · next hnone =>
      rw [mem_dataRange_union, ← h]
      simp [hnone, I.datatypes_literal]
    · next disjuncts hsome =>
      rw [mem_dataRange_union, mem_dataRange_union, ← h]
      simp [hsome]
  | dataComplementOf operand ih =>
    unfold getSimplifiedData
    split
    · next inner h =>
      rw [h, mem_dataRange_complement] at ih
      rw [mem_dataRange_complement]
      exact (not_iff_comm.mp ih).symm
    · simp [ih]
  | _ => simp [getSimplifiedData]

theorem mem_getNnfAll (operands : List ClassExpr) (e : ClassExpr) :
    e ∈ order.getNnfAll operands ↔ ∃ d ∈ operands, order.getNnf d = e := by
  simp [getNnfAll_eq_map]

theorem mem_getComplementNnfAll (operands : List ClassExpr) (e : ClassExpr) :
    e ∈ order.getComplementNnfAll operands ↔ ∃ d ∈ operands, order.getComplementNnf d = e := by
  simp [getComplementNnfAll_eq_map]

theorem mem_expr_nnf (ce : ClassExpr) (h : isCountable ce) (x : Dom) :
    (x ∈ I.expr (order.getNnf ce) ↔ x ∈ I.expr ce) ∧
      (x ∈ I.expr (order.getComplementNnf ce) ↔ x ∉ I.expr ce) := by
  induction ce generalizing x with
  | «class» c =>
    refine ⟨Iff.rfl, ?_⟩
    unfold getComplementNnf
    split_ifs with hth hnothing
    · simp [hth, I.classes_thing, I.classes_nothing]
    · simp [hnothing, I.classes_thing, I.classes_nothing]
    · rfl
  | objectIntersectionOf operands ih =>
    rw [isCountable_intersection] at h
    simp only [getNnf, getComplementNnf, mem_expr_intersection, mem_expr_union,
      mem_canonical, mem_getNnfAll, mem_getComplementNnfAll, forall_exists_index, and_imp,
      forall_apply_eq_imp_iff₂, exists_exists_and_eq_and]
    refine ⟨forall₂_congr fun d hd => (ih d hd (h d hd) x).1, ?_⟩
    push Not
    exact exists_congr fun d => and_congr_right fun hd => (ih d hd (h d hd) x).2
  | objectUnionOf operands ih =>
    rw [isCountable_union] at h
    simp only [getNnf, getComplementNnf, mem_expr_intersection, mem_expr_union,
      mem_canonical, mem_getNnfAll, mem_getComplementNnfAll, forall_exists_index, and_imp,
      forall_apply_eq_imp_iff₂, exists_exists_and_eq_and]
    refine ⟨exists_congr fun d => and_congr_right fun hd => (ih d hd (h d hd) x).1, ?_⟩
    push Not
    exact forall₂_congr fun d hd => (ih d hd (h d hd) x).2
  | objectComplementOf operand ih =>
    have hx := ih h x
    simp only [getNnf, getComplementNnf, mem_expr_complement, hx, not_not, and_self]
  | objectSomeValuesFrom ope bce ih =>
    simp [getNnf, getComplementNnf, ih h]
  | objectAllValuesFrom ope bce ih =>
    simp [getNnf, getComplementNnf, ih h]
  | objectMinCardinality n ope bce ih =>
    simp only [isCountable, Bool.and_eq_true, decide_eq_true_eq] at h
    refine ⟨by simp [getNnf, ih h.2], ?_⟩
    unfold getComplementNnf
    split_ifs with hn
    · simp [hn, I.classes_nothing]
    · simp [ih h.2, lt_coe_iff_le_pred hn]
  | objectMaxCardinality n ope bce ih =>
    simp only [isCountable, Bool.and_eq_true, decide_eq_true_eq] at h
    refine ⟨by simp [getNnf, ih h.2], ?_⟩
    simp only [getComplementNnf, mem_expr_min, mem_expr_max, ih h.2, succ32_eq h.1,
      not_le, coe_lt_iff_succ_le]
  | objectExactCardinality n ope bce ih =>
    simp only [isCountable, Bool.and_eq_true, decide_eq_true_eq] at h
    refine ⟨by simp [getNnf, ih h.2], ?_⟩
    unfold getComplementNnf
    split_ifs with hn
    · simp only [mem_expr_min, mem_expr_exact, ih h.2, hn, Nat.cast_one,
        Nat.cast_zero, one_le_encard_sep_iff, encard_sep_eq_zero_iff]
      push Not
      rfl
    · simp [ih h.2, succ32_eq h.1, ne_coe_iff n hn]
  | dataSomeValuesFrom dp dr => simp [getNnf, getComplementNnf]
  | dataAllValuesFrom dp dr => simp [getNnf, getComplementNnf]
  | dataMinCardinality n dp dr =>
    refine ⟨by simp [getNnf], ?_⟩
    unfold getComplementNnf
    split_ifs with hn
    · simp [hn, I.classes_nothing]
    · simp [lt_coe_iff_le_pred hn]
  | dataMaxCardinality n dp dr =>
    simp only [isCountable, decide_eq_true_eq] at h
    refine ⟨by simp [getNnf], ?_⟩
    simp only [getComplementNnf, mem_expr_dataMin, mem_expr_dataMax, succ32_eq h,
      mem_dataRange_getNnfData, not_le, coe_lt_iff_succ_le]
  | dataExactCardinality n dp dr =>
    simp only [isCountable, decide_eq_true_eq] at h
    refine ⟨by simp [getNnf], ?_⟩
    unfold getComplementNnf
    split_ifs with hn
    · simp only [mem_expr_dataMin, mem_expr_dataExact, hn, Nat.cast_one,
        Nat.cast_zero, mem_dataRange_getNnfData, one_le_encard_sep_iff, encard_sep_eq_zero_iff]
      push Not
      rfl
    · simp [succ32_eq h, ne_coe_iff n hn]
  | _ => simp [getNnf, getComplementNnf]

variable {ce : ClassExpr}

theorem mem_expr_getNnf (h : isCountable ce) (x : Dom) :
    x ∈ I.expr (order.getNnf ce) ↔ x ∈ I.expr ce :=
  (order.mem_expr_nnf I ce h x).1

theorem mem_expr_getComplementNnf (h : isCountable ce) (x : Dom) :
    x ∈ I.expr (order.getComplementNnf ce) ↔ x ∉ I.expr ce :=
  (order.mem_expr_nnf I ce h x).2

theorem mem_of_isOwlThing (h : isOwlThing ce) (x : Dom) : x ∈ I.expr ce := by
  cases ce with
  | «class» c =>
    simp only [isOwlThing, decide_eq_true_eq] at h
    simp [h, I.classes_thing]
  | _ => simp [isOwlThing] at h

theorem notMem_of_isOwlNothing (h : isOwlNothing ce) (x : Dom) : x ∉ I.expr ce := by
  cases ce with
  | «class» c =>
    simp only [isOwlNothing, decide_eq_true_eq] at h
    simp [h, I.classes_nothing]
  | _ => simp [isOwlNothing] at h

section

variable {operands : List ClassExpr} {x : Dom}
  (ih : ∀ d ∈ operands, x ∈ I.expr (order.getSimplified d) ↔ x ∈ I.expr d)
include ih

theorem forall_simplifyConjuncts : (∃ conjuncts, order.simplifyConjuncts operands = some conjuncts ∧
      ∀ d ∈ conjuncts, x ∈ I.expr d) ↔ ∀ d ∈ operands, x ∈ I.expr d := by
  induction operands with
  | nil => simp [simplifyConjuncts]
  | cons d ds ihs =>
    have hd := ih d (by simp)
    have hds := ihs fun e he => ih e (by simp [he])
    simp only [simplifyConjuncts]
    split_ifs with hth hnothing
    · simp [hds, hd.mp (mem_of_isOwlThing I hth x)]
    · simp [(not_congr hd).mp (notMem_of_isOwlNothing I hnothing x)]
    · split
      · next inner h =>
        rw [h, mem_expr_intersection] at hd
        cases hcase : order.simplifyConjuncts ds with
        | none =>
          simp only [hcase, reduceCtorEq, false_and, exists_false, false_iff] at hds
          simp [hds]
        | some rest =>
          simp only [hcase, Option.some.injEq, exists_eq_left'] at hds
          simp [or_imp, forall_and, hd, hds]
      · cases hcase : order.simplifyConjuncts ds with
        | none =>
          simp only [hcase, reduceCtorEq, false_and, exists_false, false_iff] at hds
          simp [hds]
        | some rest =>
          simp only [hcase, Option.some.injEq, exists_eq_left'] at hds
          simp [hd, hds]

theorem exists_simplifyDisjuncts : (∀ disjuncts, order.simplifyDisjuncts operands = some disjuncts →
      ∃ d ∈ disjuncts, x ∈ I.expr d) ↔ ∃ d ∈ operands, x ∈ I.expr d := by
  induction operands with
  | nil => simp [simplifyDisjuncts]
  | cons d ds ihs =>
    have hd := ih d (by simp)
    have hds := ihs fun e he => ih e (by simp [he])
    simp only [simplifyDisjuncts]
    split_ifs with hth hnothing
    · simp [hd.mp (mem_of_isOwlThing I hth x)]
    · simp [hds, (not_congr hd).mp (notMem_of_isOwlNothing I hnothing x)]
    · split
      · next inner h =>
        rw [h, mem_expr_union] at hd
        cases hcase : order.simplifyDisjuncts ds with
        | none => simp_all
        | some rest => simp_all [or_and_right, exists_or]
      · cases hcase : order.simplifyDisjuncts ds with
        | none => simp_all
        | some rest => simp_all

end

section

variable (ih : ∀ x, x ∈ I.expr (order.getSimplified ce) ↔ x ∈ I.expr ce) (x : Dom)
include ih

theorem notMem_of_simplified (h : isOwlNothing (order.getSimplified ce)) : x ∉ I.expr ce :=
  (not_congr (ih x)).mp (notMem_of_isOwlNothing I h x)

theorem mem_of_simplified (h : isOwlThing (order.getSimplified ce)) : x ∈ I.expr ce :=
  (ih x).mp (mem_of_isOwlThing I h x)

theorem mem_simplified_complement : x ∈ I.expr (order.getSimplified (.objectComplementOf ce)) ↔
    x ∈ I.expr (.objectComplementOf ce) := by
  have hx := ih x
  simp only [getSimplified]
  split_ifs with hth hnothing
  · simp [order.mem_of_simplified I ih x hth, I.classes_nothing]
  · simp [order.notMem_of_simplified I ih x hnothing, I.classes_thing]
  · split
    · next inner h =>
      rw [h, mem_expr_complement] at hx
      rw [mem_expr_complement]
      exact (not_iff_comm.mp hx).symm
    · simp [ih]

variable (n : ℕ) (ope : ObjectPropExpr)

theorem mem_simplified_min : x ∈ I.expr (order.getSimplified (.objectMinCardinality n ope ce)) ↔
    x ∈ I.expr (.objectMinCardinality n ope ce) := by
  simp only [getSimplified]
  split_ifs with hn h hone
  · simp [hn, I.classes_thing]
  · simp [fun y => order.notMem_of_simplified I ih y h, I.classes_nothing, hn]
  · simp [ih, hone, Set.Nonempty]
  · simp [ih]

theorem mem_simplified_max : x ∈ I.expr (order.getSimplified (.objectMaxCardinality n ope ce)) ↔
    x ∈ I.expr (.objectMaxCardinality n ope ce) := by
  simp only [getSimplified]
  split_ifs with h hn
  · simp [fun y => order.notMem_of_simplified I ih y h, I.classes_thing]
  · simp [ih, hn, Set.eq_empty_iff_forall_notMem]
  · simp [ih]

theorem mem_simplified_exact :
    x ∈ I.expr (order.getSimplified (.objectExactCardinality n ope ce)) ↔
      x ∈ I.expr (.objectExactCardinality n ope ce) := by
  simp only [getSimplified]
  split_ifs with hn h
  · simp [ih, hn, Set.eq_empty_iff_forall_notMem]
  · simp [fun y => order.notMem_of_simplified I ih y h, I.classes_nothing, eq_comm, hn]
  · simp [ih, le_antisymm_iff, and_comm]

end

section

variable (x : Dom) (n : ℕ) (dp : Iri) {dr : DataRangeExpr}

theorem notMem_of_simplifiedData (h : isBottomDataRange (order.getSimplifiedData dr)) (v : Val) :
    v ∉ I.dataRange dr :=
  (not_congr (order.mem_dataRange_getSimplifiedData I dr v)).mp (notMem_of_isBottomDataRange I h v)

theorem mem_simplified_dataMin : x ∈ I.expr (order.getSimplified (.dataMinCardinality n dp dr)) ↔
    x ∈ I.expr (.dataMinCardinality n dp dr) := by
  simp only [getSimplified]
  split_ifs with hn h hone
  · simp [hn, I.classes_thing]
  · simp [order.notMem_of_simplifiedData I h, I.classes_nothing, hn]
  · simp [hone, Set.Nonempty]
  · simp

theorem mem_simplified_dataMax : x ∈ I.expr (order.getSimplified (.dataMaxCardinality n dp dr)) ↔
    x ∈ I.expr (.dataMaxCardinality n dp dr) := by
  simp only [getSimplified]
  split_ifs with h hn
  · simp [order.notMem_of_simplifiedData I h, I.classes_thing]
  · simp [hn, Set.eq_empty_iff_forall_notMem]
  · simp

theorem mem_simplified_dataExact :
    x ∈ I.expr (order.getSimplified (.dataExactCardinality n dp dr)) ↔
      x ∈ I.expr (.dataExactCardinality n dp dr) := by
  simp only [getSimplified]
  split_ifs with hn h
  · simp [hn, Set.eq_empty_iff_forall_notMem]
  · simp [order.notMem_of_simplifiedData I h, I.classes_nothing, eq_comm, hn]
  · simp [le_antisymm_iff, and_comm]

end

@[simp] theorem mem_expr_getSimplified (ce : ClassExpr) (x : Dom) :
    x ∈ I.expr (order.getSimplified ce) ↔ x ∈ I.expr ce := by
  induction ce generalizing x with
  | objectIntersectionOf operands ih =>
    have h := order.forall_simplifyConjuncts I fun d hd => ih d hd x
    unfold getSimplified
    split
    · next hnone =>
      rw [mem_expr_intersection, ← h]
      simp [hnone, I.classes_nothing]
    · next conjuncts hsome =>
      rw [mem_expr_intersection, mem_expr_intersection, ← h]
      simp [hsome]
  | objectUnionOf operands ih =>
    have h := order.exists_simplifyDisjuncts I fun d hd => ih d hd x
    unfold getSimplified
    split
    · next hnone =>
      rw [mem_expr_union, ← h]
      simp [hnone, I.classes_thing]
    · next disjuncts hsome =>
      rw [mem_expr_union, mem_expr_union, ← h]
      simp [hsome]
  | objectComplementOf operand ih => exact order.mem_simplified_complement I ih x
  | objectSomeValuesFrom ope bce ih =>
    simp only [getSimplified]
    split_ifs with h
    · simp [fun y => order.notMem_of_simplified I ih y h, I.classes_nothing]
    · simp [ih]
  | objectAllValuesFrom ope bce ih =>
    simp only [getSimplified]
    split_ifs with h
    · simp [fun y => order.mem_of_simplified I ih y h, I.classes_thing]
    · simp [ih]
  | objectMinCardinality n ope bce ih => exact order.mem_simplified_min I ih x n ope
  | objectMaxCardinality n ope bce ih => exact order.mem_simplified_max I ih x n ope
  | objectExactCardinality n ope bce ih => exact order.mem_simplified_exact I ih x n ope
  | dataSomeValuesFrom dp dr =>
    simp only [getSimplified]
    split_ifs with h
    · simp [order.notMem_of_simplifiedData I h, I.classes_nothing]
    · simp
  | dataAllValuesFrom dp dr =>
    simp only [getSimplified]
    split_ifs with h
    · have hall := fun v => (order.mem_dataRange_getSimplifiedData I dr v).mp
        (mem_of_isTopDatatype I h v)
      simp [hall, I.classes_thing]
    · simp
  | dataMinCardinality n dp dr => exact order.mem_simplified_dataMin I x n dp
  | dataMaxCardinality n dp dr => exact order.mem_simplified_dataMax I x n dp
  | dataExactCardinality n dp dr => exact order.mem_simplified_dataExact I x n dp
  | _ => simp [getSimplified]

end ExpressionOrder

end Hermit
