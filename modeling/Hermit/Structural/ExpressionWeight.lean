import Hermit.Structural.ExpressionManager

/-! # The weight of a class expression

A size that negation normal form and simplification never increase.  A restriction
weighs more than its filler by a margin that leaves room for the name of a
definition, and whatever is neither a class nor the complement of one weighs at
least two.
-/

namespace Hermit

def weight : ClassExpr → ℕ
  | .class _ => 1
  | .objectIntersectionOf operands => weightAll operands + 2
  | .objectUnionOf operands => weightAll operands + 2
  | .objectComplementOf operand => weight operand
  | .objectOneOf _ => 2
  | .objectSomeValuesFrom _ bce => weight bce + 3
  | .objectAllValuesFrom _ bce => weight bce + 3
  | .objectHasValue _ _ => 5
  | .objectHasSelf _ => 2
  | .objectMinCardinality _ _ bce => weight bce + 3
  | .objectMaxCardinality _ _ bce => weight bce + 3
  | .objectExactCardinality _ _ bce => 2 * weight bce + 8
  | .dataSomeValuesFrom _ _ => 2
  | .dataAllValuesFrom _ _ => 2
  | .dataHasValue _ _ => 2
  | .dataMinCardinality _ _ _ => 2
  | .dataMaxCardinality _ _ _ => 2
  | .dataExactCardinality _ _ _ => 6
where
  weightAll : List ClassExpr → ℕ
    | [] => 0
    | d :: ds => weight d + weightAll ds

theorem weightAll_eq_sum (operands : List ClassExpr) :
    weight.weightAll operands = (operands.map weight).sum := by
  induction operands with
  | nil => rfl
  | cons d ds ih => simp [weight.weightAll, ih]

/-- The weight of a list of disjuncts. -/
def totalWeight (operands : List ClassExpr) : ℕ := (operands.map weight).sum

@[simp] theorem totalWeight_nil : totalWeight [] = 0 := rfl

@[simp] theorem totalWeight_cons (d : ClassExpr) (ds : List ClassExpr) :
    totalWeight (d :: ds) = weight d + totalWeight ds := rfl

@[simp] theorem totalWeight_append (ds es : List ClassExpr) :
    totalWeight (ds ++ es) = totalWeight ds + totalWeight es := by
  simp [totalWeight]

theorem weight_intersection (operands : List ClassExpr) :
    weight (.objectIntersectionOf operands) = totalWeight operands + 2 := by
  simp [weight, weightAll_eq_sum, totalWeight]

theorem weight_union (operands : List ClassExpr) :
    weight (.objectUnionOf operands) = totalWeight operands + 2 := by
  simp [weight, weightAll_eq_sum, totalWeight]

theorem weight_le_totalWeight {operands : List ClassExpr} {d : ClassExpr} (h : d ∈ operands) :
    weight d ≤ totalWeight operands :=
  List.single_le_sum (by simp) _ (List.mem_map_of_mem h)

theorem weight_pos (d : ClassExpr) : 0 < weight d := by
  induction d with
  | objectComplementOf operand ih => simpa [weight] using ih
  | _ => simp [weight]

variable {ds es : List ClassExpr}

theorem totalWeight_perm (h : ds.Perm es) : totalWeight ds = totalWeight es :=
  (h.map weight).sum_eq

theorem totalWeight_sublist (h : ds.Sublist es) : totalWeight ds ≤ totalWeight es :=
  (h.map weight).sum_le_sum (by simp)

namespace ExpressionOrder

variable (order : ExpressionOrder)

theorem totalWeight_canonical_le (operands : List ClassExpr) :
    totalWeight (order.canonical operands) ≤ totalWeight operands := by
  calc totalWeight (order.canonical operands)
      ≤ totalWeight (operands.insertionSort fun a b => order.classLE a b) :=
        totalWeight_sublist (List.destutter_sublist _ _)
    _ = totalWeight operands := totalWeight_perm (List.perm_insertionSort _ _)

theorem getNnfAll_eq_map (operands : List ClassExpr) :
    order.getNnfAll operands = operands.map order.getNnf := by
  induction operands with
  | nil => rfl
  | cons d ds ih => simp [getNnfAll, ih]

theorem getComplementNnfAll_eq_map (operands : List ClassExpr) :
    order.getComplementNnfAll operands = operands.map order.getComplementNnf := by
  induction operands with
  | nil => rfl
  | cons d ds ih => simp [getComplementNnfAll, ih]

variable {operands conjuncts disjuncts : List ClassExpr}

theorem totalWeight_map_le {f : ClassExpr → ClassExpr}
    (h : ∀ d ∈ operands, weight (f d) ≤ weight d) :
    totalWeight (operands.map f) ≤ totalWeight operands := by
  rw [totalWeight, totalWeight, List.map_map]
  exact List.sum_le_sum h

variable (d : ClassExpr)

theorem weight_nnf_le :
    weight (order.getNnf d) ≤ weight d ∧ weight (order.getComplementNnf d) ≤ weight d := by
  induction d with
  | «class» c =>
    refine ⟨le_rfl, ?_⟩
    unfold getComplementNnf
    split_ifs <;> simp [weight]
  | objectIntersectionOf operands ih | objectUnionOf operands ih =>
    have hn := (order.totalWeight_canonical_le _).trans (totalWeight_map_le fun d hd => (ih d hd).1)
    have hc := (order.totalWeight_canonical_le _).trans (totalWeight_map_le fun d hd => (ih d hd).2)
    simpa [getNnf, getComplementNnf, weight_intersection, weight_union, getNnfAll_eq_map,
      getComplementNnfAll_eq_map] using ⟨hn, hc⟩
  | objectComplementOf operand ih => simpa [getNnf, getComplementNnf, weight] using ih.symm
  | objectMinCardinality n ope bce ih =>
    simp only [getNnf, getComplementNnf]
    split_ifs <;> simp [weight, ih]
  | objectExactCardinality n ope bce ih =>
    simp only [getNnf, getComplementNnf]
    split_ifs
    · simp only [weight]
      omega
    · have hc := order.totalWeight_canonical_le
        [.objectMaxCardinality (n - 1) ope (order.getNnf bce),
          .objectMinCardinality (succ32 n) ope (order.getNnf bce)]
      simp only [totalWeight_cons, totalWeight_nil, weight] at hc
      rw [weight_union]
      simp only [weight]
      omega
  | dataMinCardinality n dp dr =>
    simp only [getNnf, getComplementNnf]
    split_ifs <;> simp [weight]
  | dataExactCardinality n dp dr =>
    simp only [getNnf, getComplementNnf]
    split_ifs
    · simp [weight]
    · have hc := order.totalWeight_canonical_le
        [.dataMaxCardinality (n - 1) dp (order.getNnfData dr),
          .dataMinCardinality (succ32 n) dp (order.getNnfData dr)]
      simp only [totalWeight_cons, totalWeight_nil, weight] at hc
      rw [weight_union]
      simp only [weight]
      omega
  | _ => simp_all [getNnf, getComplementNnf, weight]

theorem weight_getNnf_le : weight (order.getNnf d) ≤ weight d :=
  (order.weight_nnf_le d).1

theorem weight_getComplementNnf_le : weight (order.getComplementNnf d) ≤ weight d :=
  (order.weight_nnf_le d).2

/-! ## Simplification -/

/-- The conjuncts of an expression that is not one of the bounds. -/
theorem simplifyConjuncts_cons {d : ClassExpr} {ds : List ClassExpr}
    (h : order.simplifyConjuncts (d :: ds) = some conjuncts) :
    ∃ rest, order.simplifyConjuncts ds = some rest ∧
      (isOwlThing (order.getSimplified d) ∧ conjuncts = rest ∨
        (∃ inner, order.getSimplified d = .objectIntersectionOf inner ∧ conjuncts = inner ++ rest) ∨
        conjuncts = order.getSimplified d :: rest) := by
  simp only [simplifyConjuncts] at h
  split_ifs at h with hth hnone
  · exact ⟨conjuncts, h, .inl ⟨hth, rfl⟩⟩
  · split at h
    · next inner hinn =>
      obtain ⟨rest, hrest, rfl⟩ := Option.map_eq_some_iff.mp h
      exact ⟨rest, hrest, .inr (.inl ⟨inner, hinn, rfl⟩)⟩
    · obtain ⟨rest, hrest, rfl⟩ := Option.map_eq_some_iff.mp h
      exact ⟨rest, hrest, .inr (.inr rfl)⟩

theorem simplifyDisjuncts_cons {d : ClassExpr} {ds : List ClassExpr}
    (h : order.simplifyDisjuncts (d :: ds) = some disjuncts) :
    ∃ rest, order.simplifyDisjuncts ds = some rest ∧
      (isOwlNothing (order.getSimplified d) ∧ disjuncts = rest ∨
        (∃ inner, order.getSimplified d = .objectUnionOf inner ∧ disjuncts = inner ++ rest) ∨
        disjuncts = order.getSimplified d :: rest) := by
  simp only [simplifyDisjuncts] at h
  split_ifs at h with hth hnone
  · exact ⟨disjuncts, h, .inl ⟨hnone, rfl⟩⟩
  · split at h
    · next inner hinn =>
      obtain ⟨rest, hrest, rfl⟩ := Option.map_eq_some_iff.mp h
      exact ⟨rest, hrest, .inr (.inl ⟨inner, hinn, rfl⟩)⟩
    · obtain ⟨rest, hrest, rfl⟩ := Option.map_eq_some_iff.mp h
      exact ⟨rest, hrest, .inr (.inr rfl)⟩

variable {P : ClassExpr → Prop}

/-- What holds of the simplified operands, and passes to the operands of an intersection,
holds of every conjunct. -/
theorem forall_mem_simplifyConjuncts
    (hP : ∀ inner, P (.objectIntersectionOf inner) → ∀ d ∈ inner, P d)
    (ih : ∀ d ∈ operands, P (order.getSimplified d))
    (h : order.simplifyConjuncts operands = some conjuncts) : ∀ d ∈ conjuncts, P d := by
  induction operands generalizing conjuncts with
  | nil => simp_all [simplifyConjuncts]
  | cons d ds ihs =>
    have hd := ih d (by simp)
    obtain ⟨rest, hrest, hcases⟩ := order.simplifyConjuncts_cons h
    have hall := ihs (fun e he => ih e (by simp [he])) hrest
    rcases hcases with ⟨-, rfl⟩ | ⟨inner, hinn, rfl⟩ | rfl
    · exact hall
    · rw [hinn] at hd
      simpa [or_imp, forall_and] using ⟨hP inner hd, hall⟩
    · simpa using ⟨hd, hall⟩

/-- What holds of the simplified operands, and passes to the operands of a union, holds of
every disjunct. -/
theorem forall_mem_simplifyDisjuncts (hP : ∀ inner, P (.objectUnionOf inner) → ∀ d ∈ inner, P d)
    (ih : ∀ d ∈ operands, P (order.getSimplified d))
    (h : order.simplifyDisjuncts operands = some disjuncts) : ∀ d ∈ disjuncts, P d := by
  induction operands generalizing disjuncts with
  | nil => simp_all [simplifyDisjuncts]
  | cons d ds ihs =>
    have hd := ih d (by simp)
    obtain ⟨rest, hrest, hcases⟩ := order.simplifyDisjuncts_cons h
    have hall := ihs (fun e he => ih e (by simp [he])) hrest
    rcases hcases with ⟨-, rfl⟩ | ⟨inner, hinn, rfl⟩ | rfl
    · exact hall
    · rw [hinn] at hd
      simpa [or_imp, forall_and] using ⟨hP inner hd, hall⟩
    · simpa using ⟨hd, hall⟩

section

variable (ih : ∀ d ∈ operands, weight (order.getSimplified d) ≤ weight d)
include ih

theorem totalWeight_simplifyConjuncts_le (h : order.simplifyConjuncts operands = some conjuncts) :
    totalWeight conjuncts ≤ totalWeight operands := by
  induction operands generalizing conjuncts with
  | nil => simp_all [simplifyConjuncts]
  | cons d ds ihs =>
    have hd := ih d (by simp)
    obtain ⟨rest, hrest, hcases⟩ := order.simplifyConjuncts_cons h
    have hle := ihs (fun e he => ih e (by simp [he])) hrest
    rcases hcases with ⟨-, rfl⟩ | ⟨inner, hinn, rfl⟩ | rfl
    · simp only [totalWeight_cons]
      omega
    · rw [hinn, weight_intersection] at hd
      simp only [totalWeight_append, totalWeight_cons]
      omega
    · simp only [totalWeight_cons]
      omega

theorem totalWeight_simplifyDisjuncts_le (h : order.simplifyDisjuncts operands = some disjuncts) :
    totalWeight disjuncts ≤ totalWeight operands := by
  induction operands generalizing disjuncts with
  | nil => simp_all [simplifyDisjuncts]
  | cons d ds ihs =>
    have hd := ih d (by simp)
    obtain ⟨rest, hrest, hcases⟩ := order.simplifyDisjuncts_cons h
    have hle := ihs (fun e he => ih e (by simp [he])) hrest
    rcases hcases with ⟨-, rfl⟩ | ⟨inner, hinn, rfl⟩ | rfl
    · simp only [totalWeight_cons]
      omega
    · rw [hinn, weight_union] at hd
      simp only [totalWeight_append, totalWeight_cons]
      omega
    · simp only [totalWeight_cons]
      omega

end

theorem weight_getSimplified_le (d : ClassExpr) : weight (order.getSimplified d) ≤ weight d := by
  induction d with
  | objectIntersectionOf operands ih =>
    rw [getSimplified, weight_intersection]
    split
    · simp [weight]
    · next conjuncts h =>
      have hle := order.totalWeight_simplifyConjuncts_le ih h
      have hc := order.totalWeight_canonical_le conjuncts
      rw [weight_intersection]
      omega
  | objectUnionOf operands ih =>
    rw [getSimplified, weight_union]
    split
    · simp [weight]
    · next disjuncts h =>
      have hle := order.totalWeight_simplifyDisjuncts_le ih h
      have hc := order.totalWeight_canonical_le disjuncts
      rw [weight_union]
      omega
  | objectComplementOf operand ih =>
    have hpos := weight_pos operand
    simp only [getSimplified, weight]
    split_ifs
    · exact hpos
    · exact hpos
    · split
      · next inner h => simpa [h, weight] using ih
      · simpa [weight] using ih
  | objectSomeValuesFrom ope bce ih | objectAllValuesFrom ope bce ih
  | objectMinCardinality n ope bce ih | objectMaxCardinality n ope bce ih =>
    simp only [getSimplified]
    split_ifs <;> simp [weight, ih]
  | objectExactCardinality n ope bce ih =>
    have hc := order.totalWeight_canonical_le
      [.objectMinCardinality n ope (order.getSimplified bce),
        .objectMaxCardinality n ope (order.getSimplified bce)]
    simp only [totalWeight_cons, totalWeight_nil, weight] at hc
    simp only [getSimplified]
    split_ifs
    · simp only [weight]
      omega
    · simp [weight]
    · rw [weight_intersection]
      simp only [weight]
      omega
  | dataSomeValuesFrom dp dr | dataAllValuesFrom dp dr | dataMinCardinality n dp dr
  | dataMaxCardinality n dp dr =>
    simp only [getSimplified]
    split_ifs <;> simp [weight]
  | dataExactCardinality n dp dr =>
    have hc := order.totalWeight_canonical_le
      [.dataMinCardinality n dp (order.getSimplifiedData dr),
        .dataMaxCardinality n dp (order.getSimplifiedData dr)]
    simp only [totalWeight_cons, totalWeight_nil, weight] at hc
    simp only [getSimplified]
    split_ifs
    · simp [weight]
    · simp [weight]
    · rw [weight_intersection]
      simp only [weight]
      omega
  | _ => simp [getSimplified, weight]

end ExpressionOrder

end Hermit
