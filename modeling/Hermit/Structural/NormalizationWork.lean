import Hermit.Library.Draining
import Hermit.Structural.NegationNormalForm
import Hermit.Structural.NormalizationInclusions

/-! # The work lists of normalisation drain

What the normalisation of an inclusion pushes is lighter than the inclusion and in
negation normal form.  So both work lists drain, and a union is met only in an inclusion
that did not break down.
-/

namespace Hermit

open Library List

/-- The failures that are handed back as errors. -/
def Failure.IsReported : Failure → Prop
  | .error _ => True
  | .anonymousNominal _ => True
  | .panic _ => False
  | .outOfFuel => False

def Failure.IsPanic : Failure → Prop
  | .panic _ => True
  | _ => False

/-- The failures that may end normalisation, a panic only where something is not `fine`. -/
def Failure.Permitted (fine : Prop) (f : Failure) : Prop := f.IsReported ∨ f.IsPanic ∧ ¬ fine

namespace Normalizer

variable {order : ExpressionOrder} {s s' : Normalizer}

/-! ## Pushing -/

/-- The later state has more class inclusions waiting, of the allowed kind, and more data range
inclusions, in negation normal form. -/
structure Pushes (allowed : List ClassExpr → Prop) (s s' : Normalizer) : Prop where
  classes : ∃ pushed, s'.classExpressionInclusions = pushed ++ s.classExpressionInclusions ∧
    ∀ e ∈ pushed, allowed e
  ranges : ∃ pushed, s'.dataRangeInclusions = pushed ++ s.dataRangeInclusions ∧
    ∀ e ∈ pushed, ∀ d ∈ e, isNnfData d

namespace Pushes

variable {allowed allowed' : List ClassExpr → Prop}

theorem of_eq (hcls : s'.classExpressionInclusions = s.classExpressionInclusions)
    (hrng : s'.dataRangeInclusions = s.dataRangeInclusions) : Pushes allowed s s' :=
  ⟨⟨[], by simp [hcls]⟩, ⟨[], by simp [hrng]⟩⟩

theorem refl : Pushes allowed s s := of_eq rfl rfl

theorem trans {s'' : Normalizer} (h : Pushes allowed s s') (h' : Pushes allowed s' s'') :
    Pushes allowed s s'' := by
  obtain ⟨⟨cs, hcs, hcs'⟩, ⟨rs, hrs, hrs'⟩⟩ := h
  obtain ⟨⟨cs₂, hcs₂, hcs₂'⟩, ⟨rs₂, hrs₂, hrs₂'⟩⟩ := h'
  refine ⟨⟨cs₂ ++ cs, by simp [hcs₂, hcs], ?_⟩, ⟨rs₂ ++ rs, by simp [hrs₂, hrs], ?_⟩⟩
  · intro e he
    rcases mem_append.mp he with he | he
    · exact hcs₂' e he
    · exact hcs' e he
  · intro e he
    rcases mem_append.mp he with he | he
    · exact hrs₂' e he
    · exact hrs' e he

theorem imp (h : Pushes allowed s s') (himp : ∀ e, allowed e → allowed' e) :
    Pushes allowed' s s' := by
  obtain ⟨⟨pushed, hpushed, hall⟩, hrng⟩ := h
  exact ⟨⟨pushed, hpushed, fun e he => himp e (hall e he)⟩, hrng⟩

theorem pushInclusion {e : List ClassExpr} (he : allowed e) :
    Pushes allowed s (s.pushInclusion e) :=
  ⟨⟨[e], rfl, by simpa using he⟩, ⟨[], rfl, by simp⟩⟩

theorem pushInclusions {es : List (List ClassExpr)} (hes : ∀ e ∈ es, allowed e) :
    Pushes allowed s (s.pushInclusions es) := by
  rw [pushInclusions_eq]
  exact ⟨⟨es.reverse, rfl, by simpa using hes⟩, ⟨[], rfl, by simp⟩⟩

theorem pushDataRangeInclusion {e : List DataRangeExpr} (he : ∀ d ∈ e, isNnfData d) :
    Pushes allowed s (s.pushDataRangeInclusion e) :=
  ⟨⟨[], rfl, by simp⟩, ⟨[e], rfl, by simpa using he⟩⟩

end Pushes

/-! ## Definitions -/

theorem isSimple_introduceDefinition (order : ExpressionOrder) (s : Normalizer)
    (description : ClassExpr) (force : Bool) :
    isSimple (s.introduceDefinition order description force).1 := by
  unfold introduceDefinition
  dsimp only
  split_ifs <;> rfl

variable {definition : ClassExpr}

theorem weight_negative_of_isSimple (order : ExpressionOrder) (h : isSimple definition) :
    weight (order.negative definition) ≤ 1 := by
  apply (order.weight_getComplementNnf_le _).trans
  apply (order.weight_getSimplified_le _).trans
  rcases (isSimple_iff definition).mp h with ⟨c, rfl⟩ | ⟨c, rfl⟩ <;> simp [weight]

/-- A new definition changes no work list and is a literal. -/
theorem getDefinitionFor_spec (order : ExpressionOrder) (s : Normalizer) (description : ClassExpr)
    (force : Bool) :
    (s.getDefinitionFor order description force).2.2.classExpressionInclusions =
        s.classExpressionInclusions ∧
      (s.getDefinitionFor order description force).2.2.dataRangeInclusions = s.dataRangeInclusions ∧
      ((s.getDefinitionFor order description force).2.1 = false →
        isSimple (s.getDefinitionFor order description force).1) := by
  have hsim := s.isSimple_introduceDefinition order description force
  unfold getDefinitionFor
  split
  · split_ifs
    · exact ⟨rfl, rfl, fun _ => hsim⟩
    · exact ⟨rfl, rfl, by simp⟩
  · exact ⟨rfl, rfl, fun _ => hsim⟩

/-- The inclusions allowed below a bound on their weight. -/
def LighterNnf (bound : ℕ) (e : List ClassExpr) : Prop :=
  totalWeight e < bound ∧ ∀ d ∈ e, isNnf d

variable {bound : ℕ} {d : ClassExpr} {inclusions : List (List ClassExpr)}

theorem lighterNnf_definition (hdef : isSimple definition)
    (hd : isNnf d) (hlt : weight d + 1 < bound) :
    LighterNnf bound [order.negative definition, d] := by
  have hle := weight_negative_of_isSimple order hdef
  refine ⟨?_, by simp [hd]⟩
  simp only [totalWeight_cons, totalWeight_nil]
  omega

theorem pushes_define {description : ClassExpr} (hnnf : isNnf description)
    (hlt : weight description + 1 < bound) :
    Pushes (LighterNnf bound) s (s.define order description).2 := by
  obtain ⟨hcls, hrng, hsim⟩ := s.getDefinitionFor_spec order description false
  unfold define
  split
  · next definition t heq =>
    rw [heq] at hcls hrng
    exact .of_eq hcls hrng
  · next definition t heq =>
    rw [heq] at hcls hrng hsim
    exact .trans (.of_eq hcls hrng) (.pushInclusion (lighterNnf_definition (hsim rfl) hnnf hlt))

theorem getDataDefinitionFor_work (s : Normalizer) (dr : DataRangeExpr) :
    (s.getDataDefinitionFor dr).2.2.classExpressionInclusions = s.classExpressionInclusions ∧
      (s.getDataDefinitionFor dr).2.2.dataRangeInclusions = s.dataRangeInclusions := by
  unfold getDataDefinitionFor
  split <;> exact ⟨rfl, rfl⟩

theorem pushes_defineData {allowed : List ClassExpr → Prop} {dr : DataRangeExpr}
    (hnnf : isNnfData dr) : Pushes allowed s (s.defineData order dr).2 := by
  obtain ⟨hcls, hrng⟩ := s.getDataDefinitionFor_work dr
  unfold defineData
  split
  · next definition t heq =>
    rw [heq] at hcls hrng
    exact .of_eq hcls hrng
  · next definition t heq =>
    rw [heq] at hcls hrng
    exact .trans (.of_eq hcls hrng) (.pushDataRangeInclusion (by simp [hnnf]))

theorem ends_normalizeFiller {allowed : List ClassExpr → Prop} {dp : Iri} {dr : DataRangeExpr}
    (hnnf : isNnfData dr) :
    Ends Failure.IsReported (fun r => Pushes allowed s r.2) (s.normalizeFiller order dp dr) := by
  unfold normalizeFiller
  split_ifs
  · exact trivial
  · exact .refl
  · exact pushes_defineData hnnf

theorem addAssertions_work (s : Normalizer) (ce : ClassExpr) (individuals : List Individ) :
    (s.addAssertions ce individuals).classExpressionInclusions = s.classExpressionInclusions ∧
      (s.addAssertions ce individuals).dataRangeInclusions = s.dataRangeInclusions := by
  rw [addAssertions_eq]
  exact ⟨by simp [record], rfl⟩

theorem getDefinitionForNegativeNominal_work (s : Normalizer) (nominal : ClassExpr) :
    (s.getDefinitionForNegativeNominal nominal).2.2.classExpressionInclusions =
        s.classExpressionInclusions ∧
      (s.getDefinitionForNegativeNominal nominal).2.2.dataRangeInclusions =
        s.dataRangeInclusions := by
  unfold getDefinitionForNegativeNominal
  split <;> exact ⟨rfl, rfl⟩

/-- A disjunct in negation normal form that is neither a union nor left unsimplified is
normalised, or an error is reported. -/
theorem ends_normalizeClassExpression (order : ExpressionOrder) (s : Normalizer)
    {object : ClassExpr} (hnnf : isNnf object) (hunion : isUnion object = false)
    (hval : isValueOrExact object = false) :
    Ends Failure.IsReported (fun r => Pushes (LighterNnf (weight object)) s r.2)
      (s.normalizeClassExpression order object) := by
  have hfill : ∀ (ope : ObjectPropExpr) (bce : ClassExpr) (f : ClassExpr → ClassExpr),
      isNnf bce → weight bce + 1 < weight object →
      Ends Failure.IsReported (fun r => Pushes (LighterNnf (weight object)) s r.2)
        (.ok (f ((s.noteObjectProperty ope).define order bce).1,
          ((s.noteObjectProperty ope).define order bce).2)) := by
    intro ope bce f hbce hlt
    have hnote : Pushes (LighterNnf (weight object)) s (s.noteObjectProperty ope) := .of_eq rfl rfl
    exact hnote.trans (pushes_define hbce hlt)
  cases object with
  | «class» c => exact .refl
  | objectIntersectionOf operands =>
    obtain ⟨hcls, hrng, hsim⟩ :=
      s.getDefinitionFor_spec order (.objectIntersectionOf operands) false
    unfold normalizeClassExpression
    dsimp only
    split
    · next definition t heq =>
      rw [heq] at hcls hrng
      exact .of_eq hcls hrng
    · next definition t heq =>
      rw [heq] at hcls hrng hsim
      refine .trans (.of_eq hcls hrng) (.pushInclusions ?_)
      intro e he
      obtain ⟨d, hd, rfl⟩ := mem_map.mp he
      have hle := weight_le_totalWeight hd
      exact lighterNnf_definition (hsim rfl) ((isNnf_intersection operands).mp hnnf d hd)
        (by rw [weight_intersection]; omega)
  | objectUnionOf operands => cases hunion
  | objectComplementOf operand =>
    cases operand with
    | objectOneOf individuals =>
      have hwork := s.getDefinitionForNegativeNominal_work (.objectOneOf individuals)
      unfold normalizeClassExpression
      dsimp only
      split
      · next definition t heq =>
        rw [heq] at hwork
        exact .of_eq hwork.1 hwork.2
      · next definition t heq =>
        rw [heq] at hwork
        have hadd := t.addAssertions_work (.class definition) individuals
        exact .of_eq (hadd.1.trans hwork.1) (hadd.2.trans hwork.2)
    | _ => exact .refl
  | objectOneOf individuals =>
    simp only [normalizeClassExpression]
    split_ifs
    · exact trivial
    · exact .refl
  | objectSomeValuesFrom ope bce =>
    simp only [normalizeClassExpression]
    split_ifs
    · exact .of_eq rfl rfl
    · exact hfill ope bce (.objectSomeValuesFrom ope) hnnf (by simp [weight])
  | objectAllValuesFrom ope bce =>
    simp only [normalizeClassExpression]
    split_ifs
    · exact .of_eq rfl rfl
    · exact hfill ope bce (.objectAllValuesFrom ope) hnnf (by simp [weight])
  | objectHasValue ope i | objectExactCardinality n ope bce | dataHasValue dp l
  | dataExactCardinality n dp dr => cases hval
  | objectHasSelf ope => exact .of_eq rfl rfl
  | objectMinCardinality n ope bce =>
    simp only [normalizeClassExpression]
    split_ifs
    · exact .of_eq rfl rfl
    · exact hfill ope bce (.objectMinCardinality n ope) hnnf (by simp [weight])
  | objectMaxCardinality n ope bce =>
    simp only [normalizeClassExpression]
    split_ifs
    · exact .of_eq rfl rfl
    · have hle := order.weight_getComplementNnf_le bce
      exact hfill ope _ (fun d => .objectMaxCardinality n ope (order.getComplementNnf d))
        (order.isNnf_getComplementNnf bce) (by simp only [weight]; omega)
  | dataSomeValuesFrom dp dr | dataAllValuesFrom dp dr | dataMinCardinality n dp dr =>
    exact (ends_normalizeFiller hnnf).bind fun r hr => hr
  | dataMaxCardinality n dp dr =>
    have hdr : isNnfData dr := hnnf
    obtain ⟨hcls, hrng⟩ := s.getDataDefinitionFor_work (order.getComplementNnfData dr)
    simp only [normalizeClassExpression]
    split_ifs
    · exact trivial
    · exact .refl
    · split
      · next definition t heq =>
        rw [heq] at hcls hrng
        exact .of_eq hcls hrng
      · next definition t heq =>
        rw [heq] at hcls hrng
        exact .trans (.of_eq hcls hrng) (.pushDataRangeInclusion (by simp [hdr]))

/-- A union among the disjuncts is met as a panic. -/
theorem normalizeClassExpression_union (s : Normalizer) {object : ClassExpr} (h : isUnion object) :
    s.normalizeClassExpression order object =
      .error (.panic "OR should be broken down at the outermost level") := by
  cases object with
  | objectUnionOf operands => rfl
  | _ => cases h

theorem ends_normalizeDisjuncts (order : ExpressionOrder) {descriptions : List ClassExpr}
    (hnnf : ∀ d ∈ descriptions, isNnf d) (hval : ∀ d ∈ descriptions, isValueOrExact d = false)
    (hbd : totalWeight descriptions ≤ bound) :
    Ends (fun f => f.IsReported ∨ f.IsPanic ∧ ∃ d ∈ descriptions, isUnion d)
      (fun r => Pushes (LighterNnf bound) s r.2 ∧ ∀ d ∈ descriptions, isUnion d = false)
      (s.normalizeDisjuncts order descriptions) := by
  induction descriptions generalizing s with
  | nil => exact ⟨.refl, by simp⟩
  | cons d ds ih =>
    rw [totalWeight_cons] at hbd
    cases hunion : isUnion d with
    | true =>
      simp only [normalizeDisjuncts, s.normalizeClassExpression_union hunion]
      exact .inr ⟨trivial, d, by simp, hunion⟩
    | false =>
      have hd := s.ends_normalizeClassExpression order (hnnf d (by simp)) hunion (hval d (by simp))
      simp only [normalizeDisjuncts]
      cases hn : s.normalizeClassExpression order d with
      | error f =>
        rw [hn] at hd
        exact .inl hd
      | ok r =>
        rw [hn] at hd
        have hds := ih (s := r.2) (fun e he => hnnf e (by simp [he]))
          (fun e he => hval e (by simp [he])) (by omega)
        have hpush : Pushes (LighterNnf bound) s r.2 :=
          Pushes.imp hd fun e he => ⟨by have := he.1; omega, he.2⟩
        cases hm : r.2.normalizeDisjuncts order ds with
        | error f =>
          rw [hm] at hds
          simp only [hm, bind, Except.bind]
          rcases hds with h | ⟨h, e, he, hu⟩
          · exact .inl h
          · exact .inr ⟨h, e, by simp [he], hu⟩
        | ok t =>
          rw [hm] at hds
          simp only [hm, bind, Except.bind]
          exact ⟨hpush.trans hds.1, by simpa [hunion] using hds.2⟩

/-! ## Normalising an inclusion -/

section

variable {descriptions : List ClassExpr} (h : distributeUnionOverAnd descriptions = some inclusions)
include h

theorem totalWeight_distribute_lt {e : List ClassExpr} (he : e ∈ inclusions) :
    totalWeight e < totalWeight descriptions := by
  obtain ⟨operands, hmem, hoth, rfl⟩ := distributeUnionOverAnd_eq_some h
  obtain ⟨o, ho, rfl⟩ := mem_map.mp he
  have hlt : weight o < weight (.objectIntersectionOf operands) := by
    have hle := weight_le_totalWeight ho
    rw [weight_intersection]
    omega
  rw [totalWeight, totalWeight, map_map]
  apply sum_lt_sum
  · intro d hd
    dsimp only [Function.comp]
    split_ifs with hs
    · exact le_rfl
    · rw [hoth d hd hs]
      exact hlt.le
  · exact ⟨_, hmem, by simpa [isSimple] using hlt⟩

theorem isNnf_distribute (hnnf : ∀ d ∈ descriptions, isNnf d) {e : List ClassExpr}
    (he : e ∈ inclusions) (hd : d ∈ e) :
    isNnf d := by
  obtain ⟨operands, hmem, -, rfl⟩ := distributeUnionOverAnd_eq_some h
  obtain ⟨o, ho, rfl⟩ := mem_map.mp he
  obtain ⟨d', hd', rfl⟩ := mem_map.mp hd
  split_ifs
  · exact hnnf d' hd'
  · exact (isNnf_intersection operands).mp (hnnf _ hmem) o ho

end

theorem isUnion_of_isSimple (h : isSimple d) : isUnion d = false := by
  rcases (isSimple_iff d).mp h with ⟨c, rfl⟩ | ⟨c, rfl⟩ <;> rfl

theorem isUnion_of_distribute {descriptions : List ClassExpr}
    (h : distributeUnionOverAnd descriptions = some inclusions) (hd : d ∈ descriptions) :
    isUnion d = false := by
  obtain ⟨operands, -, hoth, -⟩ := distributeUnionOverAnd_eq_some h
  by_cases hs : isSimple d
  · exact isUnion_of_isSimple hs
  · rw [hoth d hd hs]
    rfl

theorem optimizedNegativeOneOfTranslation_spec {descriptions : List ClassExpr}
    (h : s.optimizedNegativeOneOfTranslation descriptions = some s') :
    (s'.classExpressionInclusions = s.classExpressionInclusions ∧
      s'.dataRangeInclusions = s.dataRangeInclusions) ∧ ∀ d ∈ descriptions, isUnion d = false := by
  unfold optimizedNegativeOneOfTranslation at h
  split at h
  · next individuals other hone =>
    split_ifs at h with hsim
    cases h
    refine ⟨s.addAssertions_work other individuals, ?_⟩
    intro d hd
    rcases ((negativeOneOfAndOther_eq_some hone).2 d).mp hd with rfl | rfl
    · rfl
    · exact isUnion_of_isSimple hsim
  · cases h

end Normalizer

namespace ExpressionOrder

variable {order : ExpressionOrder} {entry descriptions : List ClassExpr}

theorem positiveDr_union (order : ExpressionOrder) (entry : List DataRangeExpr) :
    order.positiveDr (.dataUnionOf entry) = .datatype rdfsLiteral ∨
      ∃ descriptions, order.positiveDr (.dataUnionOf entry) = .dataUnionOf descriptions := by
  unfold positiveDr getSimplifiedData
  split
  · exact .inl rfl
  · exact .inr ⟨_, rfl⟩

variable {d : ClassExpr} (h : order.positive (.objectUnionOf entry) = .objectUnionOf descriptions)
  (hd : d ∈ descriptions)
include h hd

theorem isNnf_description : isNnf d := by
  have hnnf := order.isNnf_positive (.objectUnionOf entry)
  rw [h, isNnf_union] at hnnf
  exact hnnf d hd

theorem isValueOrExact_description : isValueOrExact d = false := by
  have hred := order.isReduced_getSimplified (.objectUnionOf entry)
  simp only [positive, getSimplified] at h hred
  cases hdisj : order.simplifyDisjuncts entry with
  | none =>
    rw [hdisj] at h
    cases h
  | some disjuncts =>
    rw [hdisj] at h hred
    cases h
    rw [mem_canonical, mem_getNnfAll] at hd
    obtain ⟨e, he, rfl⟩ := hd
    rw [isReduced_union] at hred
    exact (order.isValueOrExact_nnf (hred e he)).1

end ExpressionOrder

namespace Normalizer

theorem ends_normalizeInclusion (order : ExpressionOrder) (s : Normalizer)
    (entry : List ClassExpr) :
    Ends (Failure.Permitted (order.breaksDown entry))
      (fun s' => Pushes (LighterNnf (totalWeight entry)) s s' ∧ order.breaksDown entry)
      (s.normalizeInclusion order entry) := by
  rcases order.positive_union entry with hth | ⟨disjuncts, hunion⟩
  · simp only [normalizeInclusion, ExpressionOrder.breaksDown, hth]
    exact ⟨.refl, trivial⟩
  · generalize order.canonical (order.getNnfAll disjuncts) = descriptions at hunion
    have hnnf : ∀ d ∈ descriptions, isNnf d :=
      fun d hd => ExpressionOrder.isNnf_description hunion hd
    have hbrk : order.breaksDown entry ↔ ∀ d ∈ descriptions, isUnion d = false := by
      simp [ExpressionOrder.breaksDown, hunion]
    have hle := ExpressionOrder.totalWeight_description_le hunion
    simp only [normalizeInclusion, hunion]
    split
    · next inclusions hdist =>
      refine ⟨.pushInclusions fun e he => ⟨?_, fun d hd => isNnf_distribute hdist hnnf he hd⟩,
        hbrk.mpr fun d hd => isUnion_of_distribute hdist hd⟩
      have hlt := totalWeight_distribute_lt hdist he
      omega
    · split
      · next t hone =>
        obtain ⟨hwork, hnone⟩ := optimizedNegativeOneOfTranslation_spec hone
        exact ⟨.of_eq hwork.1 hwork.2, hbrk.mpr hnone⟩
      · have hds := ends_normalizeDisjuncts order (s := s) hnnf
          (fun d hd => ExpressionOrder.isValueOrExact_description hunion hd) hle
        cases hn : s.normalizeDisjuncts order descriptions with
        | error f =>
          rw [hn] at hds
          rcases hds with h | ⟨h, d, hd, hu⟩
          · exact .inl h
          · refine .inr ⟨h, fun hb => ?_⟩
            simp [hbrk.mp hb d hd] at hu
        | ok r =>
          rw [hn] at hds
          exact ⟨hds.1.trans (.of_eq rfl rfl), hbrk.mpr hds.2⟩

/-! ## Data ranges -/

/-- The data range inclusions allowed below a bound on their weight. -/
def LighterNnfData (bound : ℕ) (e : List DataRangeExpr) : Prop :=
  totalDataWeight e < bound ∧ ∀ d ∈ e, isNnfData d

theorem dataWeight_negativeDr_datatype (order : ExpressionOrder) (d : Iri) :
    dataWeight (order.negativeDr (.datatype d)) = 1 := rfl

theorem foldl_pushDataRangeInclusion (es : List (List DataRangeExpr)) (s : Normalizer) :
    es.foldl pushDataRangeInclusion s =
      { s with dataRangeInclusions := es.reverse ++ s.dataRangeInclusions } := by
  induction es generalizing s with
  | nil => simp
  | cons e es ih => simp [ih, pushDataRangeInclusion]

variable {object : DataRangeExpr}

theorem ends_normalizeDataRange (order : ExpressionOrder) (s : Normalizer)
    (hnnf : isNnfData object) (hunion : isDataUnion object = false) :
    Ends Failure.IsReported (fun r => ∃ pushed,
      r.2.dataRangeInclusions = pushed ++ s.dataRangeInclusions ∧
        ∀ e ∈ pushed, LighterNnfData (dataWeight object) e) (s.normalizeDataRange order object) :=
  by
  cases object with
  | dataIntersectionOf operands =>
    have hwork := (s.getDataDefinitionFor_work (.dataIntersectionOf operands)).2
    unfold normalizeDataRange
    dsimp only
    split
    · next definition t heq =>
      rw [heq] at hwork
      exact ⟨[], hwork, by simp⟩
    · next definition t heq =>
      rw [heq] at hwork
      rw [← foldl_map (f := fun d => [order.negativeDr (.datatype definition), d])
        (g := pushDataRangeInclusion), foldl_pushDataRangeInclusion]
      refine ⟨_, congrArg _ hwork, ?_⟩
      intro e he
      obtain ⟨d, hd, rfl⟩ := mem_map.mp (mem_reverse.mp he)
      have hle := dataWeight_le_total hd
      refine ⟨?_, by simpa using (isNnfData_intersection operands).mp hnnf d hd⟩
      simp only [totalDataWeight_cons, totalDataWeight_nil, dataWeight_negativeDr_datatype,
        dataWeight_intersection]
      omega
  | dataUnionOf operands => cases hunion
  | _ => exact ⟨[], rfl, by simp⟩

/-- A union among the data ranges is met as a panic. -/
theorem normalizeDataRange_union (s : Normalizer) (h : isDataUnion object) :
    s.normalizeDataRange order object = .error
    (.panic "OR should be broken down at the outermost level") := by
  cases object with
  | dataUnionOf operands => rfl
  | _ => cases h

theorem ends_normalizeDataDisjuncts (order : ExpressionOrder) (s : Normalizer)
    {descriptions : List DataRangeExpr} {bound : ℕ} (hnnf : ∀ d ∈ descriptions, isNnfData d)
    (hbd : totalDataWeight descriptions ≤ bound) :
    Ends (fun f => f.IsReported ∨ f.IsPanic ∧ ∃ d ∈ descriptions, isDataUnion d) (fun r => ∃ pushed,
      r.2.dataRangeInclusions = pushed ++ s.dataRangeInclusions ∧
        ∀ e ∈ pushed, LighterNnfData bound e) (s.normalizeDataDisjuncts order descriptions) := by
  induction descriptions generalizing s with
  | nil => exact ⟨[], rfl, by simp⟩
  | cons d ds ih =>
    rw [totalDataWeight_cons] at hbd
    simp only [normalizeDataDisjuncts]
    cases hunion : isDataUnion d with
    | true =>
      rw [s.normalizeDataRange_union hunion]
      exact .inr ⟨trivial, d, by simp, hunion⟩
    | false =>
      apply ((s.ends_normalizeDataRange order (hnnf d (by simp)) hunion).weaken fun f hf =>
          .inl hf).bind
      rintro ⟨d', t⟩ ⟨pushed, hpushed, hall⟩
      have hlater : ∀ f : Failure, f.IsReported ∨ f.IsPanic ∧ (∃ e ∈ ds, isDataUnion e) →
          f.IsReported ∨ f.IsPanic ∧ ∃ e ∈ d :: ds, isDataUnion e := by
        rintro f (hf | ⟨hf, e, he, hu⟩)
        · exact .inl hf
        · exact .inr ⟨hf, e, mem_cons_of_mem d he, hu⟩
      apply ((ih t (fun e he => hnnf e (by simp [he])) (by omega)).weaken hlater).bind
      rintro ⟨ds', t'⟩ ⟨pushed', hpushed', hall'⟩
      refine ⟨pushed' ++ pushed, ?_, ?_⟩
      · calc t'.dataRangeInclusions = pushed' ++ t.dataRangeInclusions := hpushed'
          _ = (pushed' ++ pushed) ++ s.dataRangeInclusions := by
            rw [show t.dataRangeInclusions = _ from hpushed, append_assoc]
      · intro e he
        rcases mem_append.mp he with he | he
        · exact hall' e he
        · have hlt := (hall e he).1
          exact ⟨by omega, (hall e he).2⟩

section

variable {descriptions : List DataRangeExpr} {inclusions : List (List DataRangeExpr)}
  (h : distributeUnionOverAndDr descriptions = some inclusions)
include h

theorem distributeUnionOverAndDr_eq_some : ∃ operands, .dataIntersectionOf operands ∈ descriptions ∧
      (∀ d ∈ descriptions, ¬ isLiteral d → d = .dataIntersectionOf operands) ∧
      inclusions = operands.map fun o => descriptions.map fun d =>
          if isLiteral d then d else o := by
  unfold distributeUnionOverAndDr at h
  split at h
  · next operands hfilt =>
    refine ⟨operands, ?_, ?_, (Option.some.inj h).symm⟩
    · have hmem : .dataIntersectionOf operands ∈ descriptions.filter (!isLiteral ·) := by
        simp [hfilt]
      exact mem_of_mem_filter hmem
    · intro d hd hlit
      have hmem : d ∈ descriptions.filter (!isLiteral ·) := by simp [hd, hlit]
      simpa [hfilt] using hmem
  · cases h

theorem lighterNnfData_distribute (hnnf : ∀ d ∈ descriptions, isNnfData d) {e : List DataRangeExpr}
    (he : e ∈ inclusions) :
    LighterNnfData (totalDataWeight descriptions) e := by
  obtain ⟨operands, hmem, hoth, rfl⟩ := distributeUnionOverAndDr_eq_some h
  obtain ⟨o, ho, rfl⟩ := mem_map.mp he
  have hlt : dataWeight o < dataWeight (.dataIntersectionOf operands) := by
    have hle := dataWeight_le_total ho
    rw [dataWeight_intersection]
    omega
  constructor
  · rw [totalDataWeight, totalDataWeight, map_map]
    apply sum_lt_sum
    · intro d hd
      dsimp only [Function.comp]
      split_ifs with hs
      · exact le_rfl
      · rw [hoth d hd hs]
        exact hlt.le
    · exact ⟨_, hmem, by simpa [isLiteral, isAtomic, isNegatedAtomic] using hlt⟩
  · intro d hd
    obtain ⟨d', hd', rfl⟩ := mem_map.mp hd
    split_ifs
    · exact hnnf d' hd'
    · exact (isNnfData_intersection operands).mp (hnnf _ hmem) o ho

end

theorem ends_normalizeDataInclusion (order : ExpressionOrder) (s : Normalizer)
    (entry : List DataRangeExpr) :
    Ends (Failure.Permitted (order.breaksDownData entry)) (fun s' => ∃ pushed,
      s'.dataRangeInclusions = pushed ++ s.dataRangeInclusions ∧
        ∀ e ∈ pushed, LighterNnfData (totalDataWeight entry) e)
      (s.normalizeDataInclusion order entry) := by
  have hle := ((order.dataWeight_nnfData_le _).1).trans
    (order.dataWeight_getSimplifiedData_le (.dataUnionOf entry))
  have hnnf := order.isNnfData_positiveDr (.dataUnionOf entry)
  unfold normalizeDataInclusion
  rcases order.positiveDr_union entry with hpos | ⟨descriptions, hpos⟩
  · rw [hpos]
    exact ⟨[], rfl, by simp⟩
  · rw [show order.getNnfData (order.getSimplifiedData (.dataUnionOf entry)) =
      .dataUnionOf descriptions from hpos, dataWeight_union, dataWeight_union] at hle
    have hbrk : order.breaksDownData entry ↔ ∀ d ∈ descriptions, isDataUnion d = false := by
      simp [ExpressionOrder.breaksDownData, hpos]
    rw [hpos] at hnnf ⊢
    rw [isNnfData_union] at hnnf
    dsimp only
    split
    · next inclusions hdist =>
      rw [foldl_pushDataRangeInclusion]
      refine ⟨_, rfl, fun e he => ?_⟩
      have hlight := lighterNnfData_distribute hdist hnnf (mem_reverse.mp he)
      exact ⟨by have := hlight.1; omega, hlight.2⟩
    · have hdisjuncts := s.ends_normalizeDataDisjuncts order hnnf
        (show totalDataWeight descriptions ≤ totalDataWeight entry by omega)
      have hperm : ∀ f : Failure, f.IsReported ∨ f.IsPanic ∧ (∃ d ∈ descriptions, isDataUnion d) →
          f.Permitted (order.breaksDownData entry) := by
        rintro f (hf | ⟨hf, d, hd, hunion⟩)
        · exact .inl hf
        · refine .inr ⟨hf, fun h => ?_⟩
          rw [hbrk.mp h d hd] at hunion
          cases hunion
      apply (hdisjuncts.weaken hperm).bind
      intro r hr
      exact hr

/-! ## Both work lists -/

/-- One round of the loop over data range inclusions. -/
def dataStep (order : ExpressionOrder) (s : Normalizer) : Except Failure Normalizer :=
  match s.dataRangeInclusions with
  | [] => .ok s
  | entry :: rest => { s with dataRangeInclusions := rest }.normalizeDataInclusion order entry

/-- The loop over data range inclusions settles; it panics only when some inclusion is not `fine`.
-/
theorem settles_normalizeDataRangeInclusions (order : ExpressionOrder) (fine : Prop)
    {s : Normalizer} (hs : fine → ∀ e ∈ s.dataRangeInclusions, order.breaksDownData e) :
    Settles (Failure.Permitted fine) (fun s' => s'.dataRangeInclusions = [])
      fun fuel => s.normalizeDataRangeInclusions order fuel := by
  have hset : Settles (Failure.Permitted fine) _ _ :=
    settles_of_drains (fun fuel s => s.normalizeDataRangeInclusions order fuel) (dataStep order)
      (fun s => s.dataRangeInclusions) totalDataWeight
      (fun s => fine → ∀ e ∈ s.dataRangeInclusions, order.breaksDownData e) ?_ ?_ ?_ hs
  · exact hset.imp fun _ h => h.2
  · intro fuel s hnil
    simp [normalizeDataRangeInclusions, hnil]
  · intro fuel s a rest hcons
    simp [normalizeDataRangeInclusions, dataStep, hcons]
  · intro s a rest hinv hcons
    simp only [dataStep, hcons]
    have hperm : ∀ f, Failure.Permitted (order.breaksDownData a) f → Failure.Permitted fine f := by
      rintro f (h | ⟨h, hb⟩)
      · exact .inl h
      · exact .inr ⟨h, fun hf => hb (hinv hf a (by simp [hcons]))⟩
    have hends := Normalizer.ends_normalizeDataInclusion order
      ({ s with dataRangeInclusions := rest } : Normalizer) a
    refine (hends.weaken hperm).imp fun s' hs' => ?_
    obtain ⟨pushed, hpushed, hlight⟩ := hs'
    refine ⟨?_, pushed, by rw [hpushed], fun b hb => (hlight b hb).1⟩
    intro hf e he
    rw [hpushed] at he
    rcases mem_append.mp he with he | he
    · exact order.breaksDownData_of_isNnfData (hlight e he).2
    · exact hinv hf e (by simp [hcons, he])

/-- One turn of the loop over class inclusions. -/
def classStep (order : ExpressionOrder) (s : Normalizer) : Except Failure Normalizer :=
  match s.classExpressionInclusions with
  | [] => .ok s
  | entry :: rest => { s with classExpressionInclusions := rest }.normalizeInclusion order entry

section

variable (order : ExpressionOrder)

theorem normalizeClassInclusions_cons (fuel : ℕ) (s : Normalizer) (entry : List ClassExpr)
    (rest : List (List ClassExpr)) (h : s.classExpressionInclusions = entry :: rest) :
    s.normalizeClassInclusions order (fuel + 1) =
      s.classStep order >>= fun s => s.normalizeClassInclusions order fuel := by
  simp [normalizeClassInclusions, classStep, h]

theorem ends_classStep (s : Normalizer) {entry : List ClassExpr} {rest : List (List ClassExpr)}
    (h : s.classExpressionInclusions = entry :: rest) :
    Ends (Failure.Permitted (order.breaksDown entry))
      (fun s' => Pushes (LighterNnf (totalWeight entry))
        ({ s with classExpressionInclusions := rest } : Normalizer) s' ∧ order.breaksDown entry)
      (s.classStep order) := by
  simp only [classStep, h]
  exact Normalizer.ends_normalizeInclusion order _ entry

/-- The loop over class inclusions settles; it panics only when some inclusion is not `fine`. -/
theorem settles_normalizeClassInclusions (fine : Prop) {s : Normalizer}
    (hcls : fine → ∀ e ∈ s.classExpressionInclusions, order.breaksDown e) :
    Settles (Failure.Permitted fine) (fun s' => s'.classExpressionInclusions = [] ∧
        ∀ e ∈ s'.dataRangeInclusions, e ∈ s.dataRangeInclusions ∨ ∀ d ∈ e, isNnfData d)
      fun fuel => s.normalizeClassInclusions order fuel := by
  let inv : Normalizer → Prop := fun s' =>
    (fine → ∀ e ∈ s'.classExpressionInclusions, order.breaksDown e) ∧
      ∀ e ∈ s'.dataRangeInclusions, e ∈ s.dataRangeInclusions ∨ ∀ d ∈ e, isNnfData d
  have hset : Settles (Failure.Permitted fine) _ _ :=
    settles_of_drains (fun fuel s => s.normalizeClassInclusions order fuel) (classStep order)
      (fun s => s.classExpressionInclusions) totalWeight inv ?_
      (normalizeClassInclusions_cons order) ?_ ⟨hcls, fun e he => .inl he⟩
  · exact hset.imp fun s' hs' => ⟨hs'.2, hs'.1.2⟩
  · intro fuel s hnil
    simp [normalizeClassInclusions, hnil]
  · intro s entry rest hinv hcons
    have hent : fine → order.breaksDown entry := fun hf => hinv.1 hf entry (by simp [hcons])
    have hends := s.ends_classStep order hcons
    have hperm : ∀ f, Failure.Permitted (order.breaksDown entry) f → Failure.Permitted fine f := by
      rintro f (h | ⟨h, hb⟩)
      · exact .inl h
      · exact .inr ⟨h, fun hf => hb (hent hf)⟩
    refine (hends.weaken hperm).imp fun s' hs' => ?_
    obtain ⟨⟨⟨pushed, hpushed, hlight⟩, ⟨ranges, hr, hrnnf⟩⟩, -⟩ := hs'
    refine ⟨⟨?_, ?_⟩, pushed, by rw [hpushed], fun e he => (hlight e he).1⟩
    · intro hf e he
      rw [hpushed] at he
      rcases mem_append.mp he with he | he
      · exact order.breaksDown_of_isNnf (hlight e he).2
      · exact hinv.1 hf e (by simp [hcons, he])
    · intro e he
      rw [hr] at he
      rcases mem_append.mp he with he | he
      · exact .inr (hrnnf e he)
      · exact hinv.2 e he

theorem settles_normalizeInclusions (fine : Prop) {s : Normalizer}
    (hcls : fine → ∀ e ∈ s.classExpressionInclusions, order.breaksDown e)
    (hrng : fine → ∀ e ∈ s.dataRangeInclusions, order.breaksDownData e) :
    Settles (Failure.Permitted fine) (fun s' => s'.dataRangeInclusions = [])
      fun fuel => s.normalizeInclusions order fuel := by
  apply (settles_normalizeClassInclusions order fine hcls).bind
  rintro s' ⟨-, hs'⟩
  apply settles_normalizeDataRangeInclusions order fine
  intro hf e he
  rcases hs' e he with he | hnnf
  · exact hrng hf e he
  · exact order.breaksDownData_of_isNnfData hnnf

end

/-- For any inclusions that wait, the two loops end: with empty work lists, with a reported error,
or with a panic about a union, which is met only when some inclusion does not break down. -/
theorem normalizeInclusions_terminates (order : ExpressionOrder) (s : Normalizer) :
    Settles (Failure.Permitted (∀ e ∈ s.classExpressionInclusions, order.breaksDown e))
        (fun s' => s'.classExpressionInclusions = [])
        (fun fuel => s.normalizeClassInclusions order fuel) ∧
      Settles (Failure.Permitted (∀ e ∈ s.dataRangeInclusions, order.breaksDownData e))
        (fun s' => s'.dataRangeInclusions = [])
        (fun fuel => s.normalizeDataRangeInclusions order fuel) ∧
      Settles (Failure.Permitted ((∀ e ∈ s.classExpressionInclusions, order.breaksDown e) ∧
          ∀ e ∈ s.dataRangeInclusions, order.breaksDownData e))
        (fun s' => s'.dataRangeInclusions = []) fun fuel => s.normalizeInclusions order fuel :=
  ⟨(settles_normalizeClassInclusions order _ id).imp fun _ h => h.1,
      settles_normalizeDataRangeInclusions order _ id,
    settles_normalizeInclusions order _ And.left And.right⟩

/-- An inclusion that does not break down keeps normalisation from a result. -/
theorem normalizeInclusions_ne_ok (order : ExpressionOrder) (fuel : ℕ) {s s' : Normalizer}
    {e : List ClassExpr} (he : e ∈ s.classExpressionInclusions) (hbad : ¬ order.breaksDown e) :
    s.normalizeInclusions order fuel ≠ .ok s' := by
  intro hok
  simp only [normalizeInclusions] at hok
  cases hn : s.normalizeClassInclusions order fuel with
  | error f =>
    rw [hn] at hok
    cases hok
  | ok t =>
    refine run_ne_ok_of_mem (fun fuel s => s.normalizeClassInclusions order fuel) (classStep order)
      (fun s => s.classExpressionInclusions) (fun e => ¬ order.breaksDown e) ?_
      (normalizeClassInclusions_cons order) ?_ fuel hbad he hn
    · intro s s' h
      cases h
    · intro s entry rest s' hcons hstep
      have hends := s.ends_classStep order hcons
      rw [hstep] at hends
      obtain ⟨⟨⟨pushed, hpushed, -⟩, -⟩, hb⟩ := hends
      exact ⟨not_not_intro hb, pushed, hpushed⟩

end Normalizer

end Hermit
