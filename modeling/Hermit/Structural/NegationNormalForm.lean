import Hermit.Structural.ExpressionShape
import Hermit.Structural.OwlNormalization
import Hermit.Structural.StructuralOrder

/-! # What negation normal form leaves behind

In negation normal form a complement stands before an expression without operands.
Simplifying a union of such expressions breaks all its nested unions down; a complement
of an intersection, met during simplification, turns into a union only afterwards.
-/

namespace Hermit

open List Option

/-! ## Data ranges -/

/-- Every complement stands before an atomic data range. -/
def isNnfData : DataRangeExpr → Bool
  | .dataIntersectionOf operands => allNnfData operands
  | .dataUnionOf operands => allNnfData operands
  | .dataComplementOf operand => isAtomic operand
  | _ => true
where
  allNnfData : List DataRangeExpr → Bool
    | [] => true
    | d :: ds => isNnfData d && allNnfData ds

theorem allNnfData_iff (operands : List DataRangeExpr) :
    isNnfData.allNnfData operands ↔ ∀ d ∈ operands, isNnfData d := by
  induction operands with
  | nil => simp [isNnfData.allNnfData]
  | cons d ds ih => simp [isNnfData.allNnfData, ih]

@[simp] theorem isNnfData_intersection (operands : List DataRangeExpr) :
    isNnfData (.dataIntersectionOf operands) ↔ ∀ d ∈ operands, isNnfData d :=
  allNnfData_iff operands

@[simp] theorem isNnfData_union (operands : List DataRangeExpr) :
    isNnfData (.dataUnionOf operands) ↔ ∀ d ∈ operands, isNnfData d :=
  allNnfData_iff operands

/-- A size of data ranges that normal forms never increase. -/
def dataWeight : DataRangeExpr → ℕ
  | .dataIntersectionOf operands => dataWeightAll operands + 2
  | .dataUnionOf operands => dataWeightAll operands + 2
  | .dataComplementOf operand => dataWeight operand
  | _ => 1
where
  dataWeightAll : List DataRangeExpr → ℕ
    | [] => 0
    | d :: ds => dataWeight d + dataWeightAll ds

/-- The weight of a list of data ranges. -/
def totalDataWeight (operands : List DataRangeExpr) : ℕ := (operands.map dataWeight).sum

@[simp] theorem totalDataWeight_nil : totalDataWeight [] = 0 := rfl

@[simp] theorem totalDataWeight_cons (d : DataRangeExpr) (ds : List DataRangeExpr) :
    totalDataWeight (d :: ds) = dataWeight d + totalDataWeight ds := rfl

@[simp] theorem totalDataWeight_append (ds es : List DataRangeExpr) :
    totalDataWeight (ds ++ es) = totalDataWeight ds + totalDataWeight es := by
  simp [totalDataWeight]

section

variable (operands : List DataRangeExpr)
include operands

theorem dataWeightAll_eq : dataWeight.dataWeightAll operands = totalDataWeight operands := by
  induction operands with
  | nil => rfl
  | cons d ds ih => simp [dataWeight.dataWeightAll, ih]

@[simp] theorem dataWeight_intersection :
    dataWeight (.dataIntersectionOf operands) = totalDataWeight operands + 2 := by
  simp [dataWeight, dataWeightAll_eq]

@[simp] theorem dataWeight_union :
    dataWeight (.dataUnionOf operands) = totalDataWeight operands + 2 := by
  simp [dataWeight, dataWeightAll_eq]

end

theorem dataWeight_le_total {operands : List DataRangeExpr} {d : DataRangeExpr}
    (h : d ∈ operands) : dataWeight d ≤ totalDataWeight operands :=
  single_le_sum (by simp) _ (List.mem_map_of_mem h)

namespace ExpressionOrder

variable (order : ExpressionOrder)

section

variable (operands : List DataRangeExpr)
include operands

theorem totalDataWeight_canonicalData_le :
    totalDataWeight (order.canonicalData operands) ≤ totalDataWeight operands := by
  have hsub : (order.canonicalData operands).Sublist
      (operands.insertionSort fun a b => order.rangeLE a b) := destutter_sublist _ _
  calc totalDataWeight (order.canonicalData operands)
      ≤ totalDataWeight (operands.insertionSort fun a b => order.rangeLE a b) :=
        (hsub.map dataWeight).sum_le_sum (by simp)
    _ = totalDataWeight operands := ((perm_insertionSort _ _).map dataWeight).sum_eq

theorem getNnfDataAll_eq_map : order.getNnfDataAll operands = operands.map order.getNnfData := by
  induction operands with
  | nil => rfl
  | cons d ds ih => simp [getNnfDataAll, ih]

theorem getComplementNnfDataAll_eq_map :
    order.getComplementNnfDataAll operands = operands.map order.getComplementNnfData := by
  induction operands with
  | nil => rfl
  | cons d ds ih => simp [getComplementNnfDataAll, ih]

end

variable (dr : DataRangeExpr)

theorem isNnfData_nnfData :
    isNnfData (order.getNnfData dr) ∧ isNnfData (order.getComplementNnfData dr) := by
  induction dr with
  | dataIntersectionOf operands ih | dataUnionOf operands ih =>
    simp only [getNnfData, getComplementNnfData, isNnfData_intersection, isNnfData_union,
      mem_canonicalData, getNnfDataAll_eq_map, getComplementNnfDataAll_eq_map, List.mem_map,
      forall_exists_index, and_imp, forall_apply_eq_imp_iff₂]
    exact ⟨fun d hd => (ih d hd).1, fun d hd => (ih d hd).2⟩
  | dataComplementOf operand ih => exact ih.symm
  | _ => exact ⟨rfl, rfl⟩

theorem dataWeight_nnfData_le : dataWeight (order.getNnfData dr) ≤ dataWeight dr ∧
      dataWeight (order.getComplementNnfData dr) ≤ dataWeight dr := by
  have hmap : ∀ (f : DataRangeExpr → DataRangeExpr) (operands : List DataRangeExpr),
      (∀ d ∈ operands, dataWeight (f d) ≤ dataWeight d) →
      totalDataWeight (order.canonicalData (operands.map f)) ≤ totalDataWeight operands := by
    intro f operands h
    apply (order.totalDataWeight_canonicalData_le _).trans
    rw [totalDataWeight, totalDataWeight, List.map_map]
    exact sum_le_sum h
  induction dr with
  | dataIntersectionOf operands ih | dataUnionOf operands ih =>
    have hn := hmap _ operands fun d hd => (ih d hd).1
    have hc := hmap _ operands fun d hd => (ih d hd).2
    simpa [getNnfData, getComplementNnfData, getNnfDataAll_eq_map,
      getComplementNnfDataAll_eq_map] using ⟨hn, hc⟩
  | dataComplementOf operand ih => exact ih.symm
  | _ => exact ⟨le_rfl, le_rfl⟩

theorem totalDataWeight_simplifyDataConjuncts_le {operands : List DataRangeExpr}
    (ih : ∀ d ∈ operands, dataWeight (order.getSimplifiedData d) ≤ dataWeight d) :
    totalDataWeight (order.simplifyDataConjuncts operands) ≤ totalDataWeight operands := by
  induction operands with
  | nil => simp [simplifyDataConjuncts]
  | cons d ds ihs =>
    have hd := ih d (by simp)
    have hle := ihs fun e he => ih e (by simp [he])
    simp only [simplifyDataConjuncts]
    split
    · next inner hinn =>
      rw [hinn, dataWeight_intersection] at hd
      simp only [totalDataWeight_append, totalDataWeight_cons]
      omega
    · split_ifs
      · simp only [totalDataWeight_cons]
        omega
      · simp only [totalDataWeight_cons]
        omega

theorem totalDataWeight_simplifyDataDisjuncts_le {operands disjuncts : List DataRangeExpr}
    (ih : ∀ d ∈ operands, dataWeight (order.getSimplifiedData d) ≤ dataWeight d)
    (h : order.simplifyDataDisjuncts operands = some disjuncts) :
    totalDataWeight disjuncts ≤ totalDataWeight operands := by
  induction operands generalizing disjuncts with
  | nil => simp_all [simplifyDataDisjuncts]
  | cons d ds ihs =>
    have hd := ih d (by simp)
    have hds : ∀ e ∈ ds, dataWeight (order.getSimplifiedData e) ≤ dataWeight e :=
      fun e he => ih e (by simp [he])
    simp only [simplifyDataDisjuncts] at h
    split at h
    · next inner hinn =>
      obtain ⟨rest, hrest, rfl⟩ := map_eq_some_iff.mp h
      have hle := ihs hds hrest
      rw [hinn, dataWeight_union] at hd
      simp only [totalDataWeight_append, totalDataWeight_cons]
      omega
    · split_ifs at h
      obtain ⟨rest, hrest, rfl⟩ := map_eq_some_iff.mp h
      have hle := ihs hds hrest
      simp only [totalDataWeight_cons]
      omega

theorem dataWeight_getSimplifiedData_le :
    dataWeight (order.getSimplifiedData dr) ≤ dataWeight dr := by
  induction dr with
  | dataIntersectionOf operands ih =>
    have hle := order.totalDataWeight_simplifyDataConjuncts_le ih
    have hc := order.totalDataWeight_canonicalData_le (order.simplifyDataConjuncts operands)
    simp only [getSimplifiedData, dataWeight_intersection]
    omega
  | dataUnionOf operands ih =>
    simp only [getSimplifiedData]
    split
    · simp [dataWeight]
    · next disjuncts h =>
      have hle := order.totalDataWeight_simplifyDataDisjuncts_le ih h
      have hc := order.totalDataWeight_canonicalData_le disjuncts
      simp only [dataWeight_union]
      omega
  | dataComplementOf operand ih =>
    simp only [getSimplifiedData]
    split
    · next inner h => simpa [h, dataWeight] using ih
    · simpa [dataWeight] using ih
  | _ => simp [getSimplifiedData]

end ExpressionOrder

def isDataUnion : DataRangeExpr → Bool
  | .dataUnionOf _ => true
  | _ => false

namespace ExpressionOrder

variable (order : ExpressionOrder)

/-- The disjuncts of a simplified data range stay apart in negation normal form. -/
def dataDisjunctsApart (dr : DataRangeExpr) : Prop :=
  match dr with
  | .dataUnionOf operands => ∀ d ∈ operands, isDataUnion (order.getNnfData d) = false
  | dr => isDataUnion (order.getNnfData dr) = false

theorem isDataUnion_simplifyDataDisjuncts {operands disjuncts : List DataRangeExpr}
    (ih : ∀ d ∈ operands, order.dataDisjunctsApart (order.getSimplifiedData d))
    (h : order.simplifyDataDisjuncts operands = some disjuncts) :
    ∀ d ∈ disjuncts, isDataUnion (order.getNnfData d) = false := by
  induction operands generalizing disjuncts with
  | nil => simp_all [simplifyDataDisjuncts]
  | cons d ds ihs =>
    have hd := ih d (by simp)
    have hds : ∀ e ∈ ds, order.dataDisjunctsApart (order.getSimplifiedData e) :=
      fun e he => ih e (by simp [he])
    simp only [simplifyDataDisjuncts] at h
    split at h
    · next inner hinn =>
      obtain ⟨rest, hrest, rfl⟩ := map_eq_some_iff.mp h
      rw [hinn] at hd
      intro e he
      rcases mem_append.mp he with he | he
      · exact hd e he
      · exact ihs hds hrest e he
    · next hne =>
      split_ifs at h
      obtain ⟨rest, hrest, rfl⟩ := map_eq_some_iff.mp h
      intro e he
      rcases mem_cons.mp he with rfl | he
      · unfold dataDisjunctsApart at hd
        split at hd
        · next inner hinn => exact absurd hinn (hne inner)
        · exact hd
      · exact ihs hds hrest e he

theorem dataDisjunctsApart_getSimplifiedData {dr : DataRangeExpr} (h : isNnfData dr) :
    order.dataDisjunctsApart (order.getSimplifiedData dr) := by
  induction dr with
  | dataIntersectionOf operands => rfl
  | dataUnionOf operands ih =>
    rw [isNnfData_union] at h
    simp only [getSimplifiedData]
    split
    · rfl
    · next disjuncts hdisj =>
      intro d hd
      rw [mem_canonicalData] at hd
      exact order.isDataUnion_simplifyDataDisjuncts (fun e he => ih e he (h e he)) hdisj d hd
  | dataComplementOf operand =>
    cases operand with
    | datatype d => rfl
    | dataOneOf values => rfl
    | datatypeRestriction d facets => rfl
    | _ => simp [isNnfData, isAtomic] at h
  | _ => rfl

end ExpressionOrder

/-! ## Class expressions -/

/-- Every complement stands before an expression without operands. -/
def isNnf : ClassExpr → Bool
  | .objectIntersectionOf operands => allNnf operands
  | .objectUnionOf operands => allNnf operands
  | .objectComplementOf operand => isNnfHead (.objectComplementOf operand)
  | .objectSomeValuesFrom _ bce => isNnf bce
  | .objectAllValuesFrom _ bce => isNnf bce
  | .objectMinCardinality _ _ bce => isNnf bce
  | .objectMaxCardinality _ _ bce => isNnf bce
  | .objectExactCardinality _ _ bce => isNnf bce
  | .dataSomeValuesFrom _ dr => isNnfData dr
  | .dataAllValuesFrom _ dr => isNnfData dr
  | .dataMinCardinality _ _ dr => isNnfData dr
  | .dataMaxCardinality _ _ dr => isNnfData dr
  | .dataExactCardinality _ _ dr => isNnfData dr
  | _ => true
where
  allNnf : List ClassExpr → Bool
    | [] => true
    | d :: ds => isNnf d && allNnf ds

theorem allNnf_iff (operands : List ClassExpr) :
    isNnf.allNnf operands ↔ ∀ d ∈ operands, isNnf d := by
  induction operands with
  | nil => simp [isNnf.allNnf]
  | cons d ds ih => simp [isNnf.allNnf, ih]

@[simp] theorem isNnf_intersection (operands : List ClassExpr) :
    isNnf (.objectIntersectionOf operands) ↔ ∀ d ∈ operands, isNnf d :=
  allNnf_iff operands

@[simp] theorem isNnf_union (operands : List ClassExpr) :
    isNnf (.objectUnionOf operands) ↔ ∀ d ∈ operands, isNnf d :=
  allNnf_iff operands

/-- The expressions that normalisation takes for broken down or simplified already. -/
def isUnion : ClassExpr → Bool
  | .objectUnionOf _ => true
  | _ => false

def isValueOrExact : ClassExpr → Bool
  | .objectHasValue _ _ => true
  | .objectExactCardinality _ _ _ => true
  | .dataHasValue _ _ => true
  | .dataExactCardinality _ _ _ => true
  | _ => false

namespace ExpressionOrder

variable (order : ExpressionOrder)

section

variable (ce : ClassExpr)
include ce

theorem isNnf_nnf : isNnf (order.getNnf ce) ∧ isNnf (order.getComplementNnf ce) := by
  induction ce with
  | «class» c =>
    refine ⟨rfl, ?_⟩
    unfold getComplementNnf
    split_ifs <;> rfl
  | objectIntersectionOf operands ih | objectUnionOf operands ih =>
    simp only [getNnf, getComplementNnf, isNnf_intersection, isNnf_union, mem_canonical,
      mem_getNnfAll, mem_getComplementNnfAll, forall_exists_index, and_imp,
      forall_apply_eq_imp_iff₂]
    exact ⟨fun d hd => (ih d hd).1, fun d hd => (ih d hd).2⟩
  | objectComplementOf operand ih => exact ih.symm
  | objectSomeValuesFrom ope bce ih => exact ih
  | objectAllValuesFrom ope bce ih => exact ih
  | objectMinCardinality n ope bce ih =>
    refine ⟨ih.1, ?_⟩
    unfold getComplementNnf
    split_ifs
    · rfl
    · exact ih.1
  | objectMaxCardinality n ope bce ih => exact ⟨ih.1, ih.1⟩
  | objectExactCardinality n ope bce ih =>
    refine ⟨ih.1, ?_⟩
    unfold getComplementNnf
    split_ifs
    · exact ih.1
    · rw [isNnf_union]
      simp [isNnf, ih.1]
  | dataSomeValuesFrom dp dr | dataAllValuesFrom dp dr => exact order.isNnfData_nnfData dr
  | dataMinCardinality n dp dr =>
    refine ⟨(order.isNnfData_nnfData dr).1, ?_⟩
    unfold getComplementNnf
    split_ifs
    · rfl
    · exact (order.isNnfData_nnfData dr).1
  | dataMaxCardinality n dp dr =>
    exact ⟨(order.isNnfData_nnfData dr).1, (order.isNnfData_nnfData dr).1⟩
  | dataExactCardinality n dp dr =>
    refine ⟨(order.isNnfData_nnfData dr).1, ?_⟩
    unfold getComplementNnf
    split_ifs
    · exact (order.isNnfData_nnfData dr).1
    · rw [isNnf_union]
      simp [isNnf, (order.isNnfData_nnfData dr).1]
  | _ => exact ⟨rfl, rfl⟩

@[simp] theorem isNnf_getNnf : isNnf (order.getNnf ce) := (order.isNnf_nnf ce).1

@[simp] theorem isNnf_getComplementNnf : isNnf (order.getComplementNnf ce) :=
  (order.isNnf_nnf ce).2

@[simp] theorem isNnf_positive : isNnf (order.positive ce) := order.isNnf_getNnf _

@[simp] theorem isNnf_negative : isNnf (order.negative ce) :=
  order.isNnf_getComplementNnf _

end

@[simp] theorem isNnfData_positiveDr (dr : DataRangeExpr) : isNnfData (order.positiveDr dr) :=
  (order.isNnfData_nnfData _).1

@[simp] theorem isNnfData_negativeDr (dr : DataRangeExpr) : isNnfData (order.negativeDr dr) :=
  (order.isNnfData_nnfData _).2

/-- Simplified expressions never give rise to value restrictions and exact cardinalities. -/
theorem isValueOrExact_nnf {ce : ClassExpr} (h : isReduced ce) :
    isValueOrExact (order.getNnf ce) = false ∧
      isValueOrExact (order.getComplementNnf ce) = false := by
  induction ce with
  | «class» c | objectMinCardinality n ope bce | dataMinCardinality n dp dr =>
    refine ⟨rfl, ?_⟩
    unfold getComplementNnf
    split_ifs <;> rfl
  | objectComplementOf operand ih => exact (ih h).symm
  | objectHasValue ope i => cases h
  | objectExactCardinality n ope bce => cases h
  | dataHasValue dp l => cases h
  | dataExactCardinality n dp dr => cases h
  | _ => exact ⟨rfl, rfl⟩

/-- The disjuncts of a simplified expression stay apart in negation normal form. -/
def disjunctsApart (ce : ClassExpr) : Prop :=
  match ce with
  | .objectUnionOf operands => ∀ d ∈ operands, isUnion (order.getNnf d) = false
  | ce => isUnion (order.getNnf ce) = false

theorem isUnion_simplifyDisjuncts {operands disjuncts : List ClassExpr}
    (ih : ∀ d ∈ operands, order.disjunctsApart (order.getSimplified d))
    (h : order.simplifyDisjuncts operands = some disjuncts) :
    ∀ d ∈ disjuncts, isUnion (order.getNnf d) = false := by
  induction operands generalizing disjuncts with
  | nil => simp_all [simplifyDisjuncts]
  | cons d ds ihs =>
    have hd := ih d (by simp)
    have hds : ∀ e ∈ ds, order.disjunctsApart (order.getSimplified e) :=
      fun e he => ih e (by simp [he])
    simp only [simplifyDisjuncts] at h
    split_ifs at h
    · exact ihs hds h
    · split at h
      · next inner hinn =>
        obtain ⟨rest, hrest, rfl⟩ := map_eq_some_iff.mp h
        rw [hinn] at hd
        intro e he
        rcases mem_append.mp he with he | he
        · exact hd e he
        · exact ihs hds hrest e he
      · next hne =>
        obtain ⟨rest, hrest, rfl⟩ := map_eq_some_iff.mp h
        intro e he
        rcases mem_cons.mp he with rfl | he
        · unfold disjunctsApart at hd
          split at hd
          · next inner hinn => exact absurd hinn (hne inner)
          · exact hd
        · exact ihs hds hrest e he

theorem isUnion_getComplementNnf_class (c : Iri) :
    isUnion (order.getComplementNnf (.class c)) = false := by
  unfold getComplementNnf
  split_ifs <;> rfl

theorem getSimplified_complement_class (c : Iri) :
    order.getSimplified (.objectComplementOf (.class c)) = .class owlNothing ∨
      order.getSimplified (.objectComplementOf (.class c)) = .class owlThing ∨
      order.getSimplified (.objectComplementOf (.class c)) = .objectComplementOf (.class c) := by
  by_cases hth : isOwlThing (.class c)
  · exact .inl (by simp [getSimplified, hth])
  · by_cases hnone : isOwlNothing (.class c)
    · exact .inr (.inl (by simp [getSimplified, hth, hnone]))
    · exact .inr (.inr (by simp [getSimplified, hth, hnone]))

theorem disjunctsApart_getSimplified {ce : ClassExpr} (h : isNnf ce) :
    order.disjunctsApart (order.getSimplified ce) := by
  induction ce with
  | objectUnionOf operands ih =>
    rw [isNnf_union] at h
    simp only [getSimplified]
    split
    · rfl
    · next disjuncts hdisj =>
      intro d hd
      rw [mem_canonical] at hd
      exact order.isUnion_simplifyDisjuncts (fun e he => ih e he (h e he)) hdisj d hd
  | objectIntersectionOf operands =>
    simp only [getSimplified]
    split <;> rfl
  | objectComplementOf operand =>
    cases operand with
    | «class» c =>
      rcases order.getSimplified_complement_class c with hc | hc | hc
      · rw [hc]
        rfl
      · rw [hc]
        rfl
      · rw [hc]
        exact order.isUnion_getComplementNnf_class c
    | objectOneOf individuals => rfl
    | objectHasSelf ope => rfl
    | objectHasValue ope i => rfl
    | dataHasValue dp l => rfl
    | _ => cases h
  | _ =>
    simp only [getSimplified]
    try split_ifs
    all_goals rfl

end ExpressionOrder

/-! ## Inclusions that break down -/

namespace ExpressionOrder

variable (order : ExpressionOrder)

/-- No union is left among the disjuncts that an inclusion simplifies to. -/
def breaksDown (entry : List ClassExpr) : Bool :=
  match order.positive (.objectUnionOf entry) with
  | .objectUnionOf descriptions => descriptions.all (!isUnion ·)
  | _ => true

/-- No union is left among the disjuncts that a data range inclusion simplifies to. -/
def breaksDownData (entry : List DataRangeExpr) : Bool :=
  match order.positiveDr (.dataUnionOf entry) with
  | .dataUnionOf descriptions => descriptions.all (!isDataUnion ·)
  | _ => true

/-- The disjuncts an inclusion simplifies to, before negation normal form. -/
theorem breaksDown_iff (entry : List ClassExpr) :
    order.breaksDown entry ↔ ∀ disjuncts, order.simplifyDisjuncts entry = some disjuncts →
      ∀ d ∈ disjuncts, isUnion (order.getNnf d) = false := by
  unfold breaksDown positive getSimplified
  cases order.simplifyDisjuncts entry with
  | none => simp [getNnf]
  | some disjuncts => simp [getNnf, mem_getNnfAll]

variable {entry : List ClassExpr} {lit : ClassExpr}

theorem breaksDown_of_disjunctsApart
    (h : ∀ d ∈ entry, order.disjunctsApart (order.getSimplified d)) : order.breaksDown entry := by
  rw [breaksDown_iff]
  intro disjuncts hdisj
  exact order.isUnion_simplifyDisjuncts h hdisj

theorem breaksDown_of_isNnf (h : ∀ d ∈ entry, isNnf d) : order.breaksDown entry :=
  order.breaksDown_of_disjunctsApart fun d hd => order.disjunctsApart_getSimplified (h d hd)

/-- A restriction breaks down whatever data range it has. -/
theorem breaksDown_dataAllValuesFrom (dp : Iri) (dr : DataRangeExpr) :
    order.breaksDown [.dataAllValuesFrom dp dr] := by
  apply order.breaksDown_of_disjunctsApart
  intro d hd
  rw [mem_singleton.mp hd]
  simp only [getSimplified]
  split_ifs <;> rfl

theorem breaksDownData_of_isNnfData {entry : List DataRangeExpr} (h : ∀ d ∈ entry, isNnfData d) :
    order.breaksDownData entry := by
  unfold breaksDownData positiveDr getSimplifiedData
  cases hdisj : order.simplifyDataDisjuncts entry with
  | none => rfl
  | some disjuncts =>
    have hall := order.isDataUnion_simplifyDataDisjuncts
      (fun d hd => order.dataDisjunctsApart_getSimplifiedData (h d hd)) hdisj
    simpa [getNnfData, getNnfDataAll_eq_map] using hall

theorem isSimple_getSimplified (h : isSimple lit) : isSimple (order.getSimplified lit) := by
  rcases (isSimple_iff lit).mp h with ⟨c, rfl⟩ | ⟨c, rfl⟩
  · rfl
  · rcases order.getSimplified_complement_class c with hc | hc | hc
    all_goals
      rw [hc]
      rfl

theorem isUnion_getNnf_of_isSimple (h : isSimple lit) : isUnion (order.getNnf lit) = false := by
  rcases (isSimple_iff lit).mp h with ⟨c, rfl⟩ | ⟨c, rfl⟩
  · rfl
  · exact order.isUnion_getComplementNnf_class c

/-- A literal beside an expression plays no part in breaking the inclusion down. -/
theorem breaksDown_cons_of_isSimple (hlit : isSimple lit)
    (hth : isOwlThing (order.getSimplified lit) = false) :
    order.breaksDown (lit :: entry) ↔ order.breaksDown entry := by
  have hsim := order.isSimple_getSimplified hlit
  have hnnf := order.isUnion_getNnf_of_isSimple hsim
  rw [breaksDown_iff, breaksDown_iff]
  simp only [simplifyDisjuncts, hth, Bool.false_eq_true, if_false]
  split
  · rfl
  · split
    · next inner hinn =>
      rw [hinn] at hsim
      cases hsim
    · simp [hnnf]

/-- All three forms keep the meaning or complement it, and complements are left before expressions
and data ranges without operands. -/
theorem nnf_and_simplified_denote {Dom Val : Type*} (I : Interp Dom Val) :
    (∀ ce, isCountable ce → I.expr (order.getNnf ce) = I.expr ce ∧
      I.expr (order.getSimplified ce) = I.expr ce ∧
      I.expr (order.getComplementNnf ce) = (I.expr ce)ᶜ) ∧
    (∀ dr, I.dataRange (order.getNnfData dr) = I.dataRange dr ∧
      I.dataRange (order.getSimplifiedData dr) = I.dataRange dr ∧
      I.dataRange (order.getComplementNnfData dr) = (I.dataRange dr)ᶜ) ∧
    (∀ ce, isNnf (order.getNnf ce) ∧ isNnf (order.getComplementNnf ce)) ∧
    ∀ dr, isNnfData (order.getNnfData dr) ∧ isNnfData (order.getComplementNnfData dr) := by
  refine ⟨fun ce hce => ⟨?_, ?_, ?_⟩, fun dr => ⟨?_, ?_, ?_⟩, order.isNnf_nnf,
    order.isNnfData_nnfData⟩
  · ext x
    exact order.mem_expr_getNnf I hce x
  · ext x
    exact order.mem_expr_getSimplified I ce x
  · ext x
    exact order.mem_expr_getComplementNnf I hce x
  · ext v
    exact order.mem_dataRange_getNnfData I dr v
  · ext v
    exact order.mem_dataRange_getSimplifiedData I dr v
  · ext v
    exact order.mem_dataRange_getComplementNnfData I dr v

/-- At most two successors outside `A`: the complement takes the next number. -/
theorem nnf_and_simplified_denote_atMost :
    structuralOrder.getComplementNnf (.objectIntersectionOf [.class "A",
      .objectMaxCardinality 2 (.objectProperty "r") (.objectComplementOf (.class "A"))]) =
        .objectUnionOf [.objectComplementOf (.class "A"),
          .objectMinCardinality 3 (.objectProperty "r") (.objectComplementOf (.class "A"))] ∧
    ∀ I : Interp Bool Unit, I.expr (structuralOrder.getComplementNnf (.objectIntersectionOf
      [.class "A",
        .objectMaxCardinality 2 (.objectProperty "r") (.objectComplementOf (.class "A"))])) =
      (I.expr (.objectIntersectionOf [.class "A",
        .objectMaxCardinality 2 (.objectProperty "r") (.objectComplementOf (.class "A"))]))ᶜ :=
  ⟨by rfl, fun I => ((nnf_and_simplified_denote structuralOrder I).1 _ (by decide)).2.2⟩

end ExpressionOrder

end Hermit
