import Hermit.Library.Pointwise
import Hermit.Structural.NormalizationDisjuncts

/-! # Running down the stack of inclusions

Treating the inclusion on the top of the stack keeps the state faithful, and so does
the whole run, which ends with an empty stack.
-/

namespace Hermit

open ExpressionOrder List Interp

variable {Dom Val : Type*}

/-! ## The disjunction an inclusion simplifies to -/

namespace ExpressionOrder

variable (order : ExpressionOrder)

theorem positive_union (entry : List ClassExpr) :
    order.positive (.objectUnionOf entry) = .class owlThing ∨
      ∃ disjuncts, order.positive (.objectUnionOf entry) =
        .objectUnionOf (order.canonical (order.getNnfAll disjuncts)) := by
  unfold positive getSimplified
  split
  · exact .inl rfl
  · next disjuncts _ => exact .inr ⟨order.canonical disjuncts, rfl⟩

variable {order} {entry descriptions : List ClassExpr}
variable {d : ClassExpr} {q : Iri → Prop}

section

variable (h : order.positive (.objectUnionOf entry) = .objectUnionOf descriptions)
include h

theorem isNnfHead_description (hd : d ∈ descriptions) : isNnfHead d := by
  rcases order.positive_union entry with hth | ⟨disjuncts, hunion⟩
  · rw [hth] at h
    cases h
  · rw [hunion] at h
    cases h
    rw [mem_canonical, mem_getNnfAll] at hd
    obtain ⟨e, -, rfl⟩ := hd
    exact (order.isNnfHead_nnf e).1

theorem totalWeight_description_le : totalWeight descriptions ≤ totalWeight entry := by
  have hle := (order.weight_getNnf_le _).trans
    (order.weight_getSimplified_le (.objectUnionOf entry))
  rw [show order.getNnf (order.getSimplified (.objectUnionOf entry)) = .objectUnionOf descriptions
    from h, weight_union, weight_union] at hle
  omega

end

theorem objectOver_description (hth : q owlThing) (hnone : q owlNothing)
    (hent : ∀ d ∈ entry, ObjectOver q d)
    (h : order.positive (.objectUnionOf entry) = .objectUnionOf descriptions)
    (hd : d ∈ descriptions) : ObjectOver q d := by
  have hover := Normalizer.objectOver_positive order hth hnone
    ((objectOver_union q entry).mpr hent)
  rw [h, objectOver_union] at hover
  exact hover d hd

theorem isReduced_description (hent : ∀ d ∈ entry, ObjectOver q d)
    (h : order.positive (.objectUnionOf entry) = .objectUnionOf descriptions)
    (hd : d ∈ descriptions) : isReduced d := by
  have hover : ObjectOver (fun _ => True) (.objectUnionOf entry) :=
    ((objectOver_union q entry).mpr hent).mono fun _ _ => trivial
  have hred := (order.isReduced_nnf (objectOver_getSimplified order trivial trivial hover)
    (order.isReduced_getSimplified _)).1
  rw [show order.getNnf (order.getSimplified (.objectUnionOf entry)) = .objectUnionOf descriptions
    from h, isReduced_union] at hred
  exact hred d hd

variable (hent : ∀ d ∈ entry, ObjectOver q d)
include hent

variable (order) in
theorem covers_iff_positive (J : Interp Dom Val) :
    J.covers entry ↔ ∀ x, x ∈ J.expr (order.positive (.objectUnionOf entry)) := by
  refine forall_congr' fun x => ?_
  rw [Normalizer.mem_expr_positive order J ((objectOver_union q entry).mpr hent), mem_expr_union]

theorem covers_description (h : order.positive (.objectUnionOf entry) = .objectUnionOf descriptions)
    (J : Interp Dom Val) : J.covers entry ↔ J.covers descriptions := by
  rw [covers_iff_positive order hent, h]
  simp only [covers, mem_expr_union]

end ExpressionOrder

namespace Normalizer

/-! ## Distribution -/

variable {inclusions : List (List ClassExpr)} {d : ClassExpr}

section

variable {descriptions : List ClassExpr} (h : distributeUnionOverAnd descriptions = some inclusions)
include h

theorem distributeUnionOverAnd_eq_some : ∃ operands, .objectIntersectionOf operands ∈ descriptions ∧
      (∀ d ∈ descriptions, ¬ isSimple d → d = .objectIntersectionOf operands) ∧
      inclusions = operands.map fun o => descriptions.map fun d => if isSimple d then d else o := by
  unfold distributeUnionOverAnd at h
  split at h
  · next operands hfilt =>
    refine ⟨operands, ?_, ?_, (Option.some.inj h).symm⟩
    · have hmem : .objectIntersectionOf operands ∈ descriptions.filter (!isSimple ·) := by
        simp [hfilt]
      exact mem_of_mem_filter hmem
    · intro d hd hsim
      have hmem : d ∈ descriptions.filter (!isSimple ·) := by simp [hd, hsim]
      rw [hfilt] at hmem
      exact mem_singleton.mp hmem
  · cases h

theorem covers_distribute (J : Interp Dom Val) :
    (∀ e ∈ inclusions, J.covers e) ↔ J.covers descriptions := by
  obtain ⟨operands, hmem, hoth, rfl⟩ := distributeUnionOverAnd_eq_some h
  have hnot : ¬ isSimple (.objectIntersectionOf operands) := by simp [isSimple]
  simp only [mem_map, forall_exists_index, and_imp, forall_apply_eq_imp_iff₂, covers,
    exists_exists_and_eq_and]
  constructor
  · intro hall x
    by_cases hsim : ∃ d ∈ descriptions, isSimple d ∧ x ∈ J.expr d
    · obtain ⟨d, hd, -, hx⟩ := hsim
      exact ⟨d, hd, hx⟩
    · refine ⟨_, hmem, (J.mem_expr_intersection operands x).mpr fun o ho => ?_⟩
      obtain ⟨d, hd, hx⟩ := hall o ho x
      split_ifs at hx with hs
      · exact absurd ⟨d, hd, hs, hx⟩ hsim
      · exact hx
  · intro hall o ho x
    obtain ⟨d, hd, hx⟩ := hall x
    by_cases hs : isSimple d
    · exact ⟨d, hd, by rwa [if_pos hs]⟩
    · rw [hoth d hd hs, mem_expr_intersection] at hx
      exact ⟨_, hmem, by simpa [hnot] using hx o ho⟩

theorem totalWeight_distribute_le {e : List ClassExpr} (he : e ∈ inclusions) :
    totalWeight e ≤ totalWeight descriptions := by
  obtain ⟨operands, hmem, hoth, rfl⟩ := distributeUnionOverAnd_eq_some h
  obtain ⟨o, ho, rfl⟩ := mem_map.mp he
  refine totalWeight_map_le fun d hd => ?_
  split_ifs with hs
  · exact le_rfl
  · have hle := weight_le_totalWeight ho
    rw [hoth d hd hs, weight_intersection]
    omega

theorem objectOver_distribute {q : Iri → Prop} (hover : ∀ d ∈ descriptions, ObjectOver q d)
    {e : List ClassExpr} (he : e ∈ inclusions) (hd : d ∈ e) : ObjectOver q d := by
  obtain ⟨operands, hmem, -, rfl⟩ := distributeUnionOverAnd_eq_some h
  obtain ⟨o, ho, rfl⟩ := mem_map.mp he
  obtain ⟨d', hd', rfl⟩ := mem_map.mp hd
  split_ifs
  · exact hover d' hd'
  · exact (objectOver_intersection q operands).mp (hover _ hmem) o ho

end

theorem two_le_weight (hsim : ¬ isSimple d) (hnnf : isNnfHead d) : 2 ≤ weight d := by
  cases d with
  | «class» c => exact absurd rfl hsim
  | objectComplementOf operand =>
    cases operand <;> simp_all [isNnfHead, isSimple, weight]
  | _ => simp [weight]

/-- An intersection that is not distributed stands beside another complex disjunct. -/
theorem weight_intersection_add_two_le {descriptions : List ClassExpr}
    (h : distributeUnionOverAnd descriptions = none) (hnnf : ∀ d ∈ descriptions, isNnfHead d)
    (hd : d ∈ descriptions) (hinter : isIntersection d) :
    weight d + 2 ≤ totalWeight descriptions := by
  obtain ⟨operands, rfl⟩ : ∃ operands, d = .objectIntersectionOf operands := by
    cases d <;> simp_all [isIntersection]
  have hmem : .objectIntersectionOf operands ∈ descriptions.filter (!isSimple ·) := by
    simp [hd, isSimple]
  obtain ⟨as, bs, hspl⟩ := append_of_mem hmem
  have hoth : ∃ e, e ∈ as ++ bs := by
    apply exists_mem_of_ne_nil
    intro hnil
    obtain ⟨rfl, rfl⟩ := append_eq_nil_iff.mp hnil
    simp [distributeUnionOverAnd, hspl] at h
  obtain ⟨e, he⟩ := hoth
  have hfilt : e ∈ descriptions.filter (!isSimple ·) := by
    rw [hspl]
    rcases mem_append.mp he with he | he <;> simp [he]
  have htwo := two_le_weight (by simpa using (mem_filter.mp hfilt).2)
    (hnnf e (mem_of_mem_filter hfilt))
  have hle := weight_le_totalWeight he
  have hsub := totalWeight_sublist (filter_sublist (p := (!isSimple ·)) (l := descriptions))
  rw [hspl] at hsub
  simp only [totalWeight_append, totalWeight_cons] at hsub hle
  omega

section

variable {descriptions : List ClassExpr} {individuals : List Individ} {other : ClassExpr}
  (h : negativeOneOfAndOther descriptions = some (individuals, other))
include h

theorem negativeOneOfAndOther_eq_some : other ∈ descriptions ∧ ∀ d, d ∈ descriptions ↔
      d = .objectComplementOf (.objectOneOf individuals) ∨ d = other := by
  unfold negativeOneOfAndOther at h
  split at h
  · cases h
    simp
  · cases h
    simp [or_comm]
  · cases h

theorem covers_negativeOneOf (J : Interp Dom Val) :
    J.covers descriptions ↔ ∀ i ∈ individuals, J.fact (.classAssertion other i) := by
  have hmem := (negativeOneOfAndOther_eq_some h).2
  simp only [covers, hmem, or_and_right, exists_or, exists_eq_left, fact, mem_expr_complement]
  constructor
  · intro hall i hi
    exact (hall _).resolve_left fun hnot => hnot ⟨i, hi, rfl⟩
  · intro hall x
    by_cases hx : x ∈ J.expr (.objectOneOf individuals)
    · obtain ⟨i, hi, rfl⟩ := hx
      exact .inr (hall i hi)
    · exact .inl hx

end

variable {order : ExpressionOrder} {index : ℕ} {input : List Component} {s s' : Normalizer}
  {entry descriptions : List ClassExpr}

theorem Faithful.settle_normalized {normalized : List ClassExpr}
    (h : s.Faithful Dom Val index input [entry])
    (hpos : order.positive (.objectUnionOf entry) = .objectUnionOf descriptions)
    (hdistr : distributeUnionOverAnd descriptions = none)
    (hnorm : List.Forall₂ (Normalized order s) descriptions normalized) :
    (s.addConceptInclusion normalized).Faithful Dom Val index input [] := by
  have hent := h.wellFormed.pending entry (.inl (by simp))
  have hover : ∀ d ∈ descriptions, ObjectOver s.Known d := fun d =>
    objectOver_description s.known_thing s.known_nothing hent hpos
  have hle := totalWeight_description_le hpos
  have hnnf : ∀ d ∈ descriptions, isNnfHead d := fun d =>
    isNnfHead_description hpos
  have horigin : ∀ d' ∈ normalized, ∃ d ∈ descriptions, Normalized order s d d' := by
    intro d' hd'
    exact Library.exists_of_forall₂_right hnorm hd'
  have htgt : ∀ d ∈ descriptions, ∃ d' ∈ normalized, Normalized order s d d' := by
    intro d hd
    exact Library.exists_of_forall₂_left hnorm hd
  rw [addConceptInclusion_eq]
  refine h.settle (by simp) (by simp) (by simp) ?_ ?_ ?_
  · simp only [mem_singleton, forall_eq]
    intro d' hd'
    obtain ⟨d, hd, hrel⟩ := horigin d' hd'
    exact ⟨hrel.isNormalDisjunct h.wellFormed, hrel.objectOver h.wellFormed (hover d hd)⟩
  · intro J hJ
    refine ⟨by simp, by simp, ?_⟩
    simp only [mem_singleton, forall_eq]
    intro x
    obtain ⟨d, hd, hx⟩ := (covers_description hent hpos J).mp (hJ.pending entry (.inl (by simp))) x
    obtain ⟨d', hd', hrel⟩ := htgt d hd
    exact ⟨d', hd', (hrel.exact h.wellFormed (hover d hd) hJ x).mpr hx⟩
  · intro J he _ hdef
    obtain ⟨hemit, -, hcov⟩ := emitted_record.mp he
    refine (covers_description hent hpos J).mpr fun x => ?_
    obtain ⟨d', hd', hx⟩ := hcov normalized (by simp) x
    obtain ⟨d, hd, hrel⟩ := horigin d' hd'
    have hweight := weight_le_totalWeight hd
    refine ⟨d, hd, hrel.below h.wellFormed (hover d hd) hemit.facts (by omega) ?_ hdef hx⟩
    intro hinter
    have htwo := weight_intersection_add_two_le hdistr hnnf hd hinter
    omega

theorem Faithful.normalizeInclusion (h : s.Faithful Dom Val index input [entry])
    (hok : s.normalizeInclusion order entry = .ok s') : s'.Faithful Dom Val index input [] := by
  have hent := h.wellFormed.pending entry (.inl (by simp))
  unfold Normalizer.normalizeInclusion at hok
  rcases order.positive_union entry with hth | ⟨disjuncts, hunion⟩
  · -- the inclusion holds everywhere
    simp only [hth, isOwlThing, decide_true, if_true] at hok
    cases hok
    have hcov : ∀ J : Interp Dom Val, J.covers entry := by
      intro J
      rw [covers_iff_positive order hent, hth]
      exact J.mem_expr_thing
    have hnone : (s.record [] [] []).Faithful Dom Val index input [] :=
      h.settle (by simp) (by simp) (by simp) (by simp) (by simp) fun J _ _ _ => hcov J
    simpa [record] using hnone
  · generalize order.canonical (order.getNnfAll disjuncts) = descriptions at hunion
    have hover : ∀ d ∈ descriptions, ObjectOver s.Known d := fun d =>
      objectOver_description s.known_thing s.known_nothing hent hunion
    simp only [hunion] at hok
    split at hok
    · next inclusions hdistr =>
      cases hok
      rw [pushInclusions_eq]
      refine h.settle (fun p hp => ?_) (fun p hp d hd => ?_) (by simp) (by simp) ?_ ?_
      · exact (totalWeight_distribute_le hdistr hp).trans (totalWeight_description_le hunion)
      · exact objectOver_distribute hdistr hover hp hd
      · intro J hJ
        have hcov := (covers_description hent hunion J).mp (hJ.pending entry (.inl (by simp)))
        exact ⟨(covers_distribute hdistr J).mpr hcov, by simp, by simp⟩
      · intro J _ hp _
        exact (covers_description hent hunion J).mpr ((covers_distribute hdistr J).mp hp)
    · next hdistr =>
      split at hok
      · next s₁ hoptimized =>
        cases hok
        unfold optimizedNegativeOneOfTranslation at hoptimized
        split at hoptimized
        · next individuals other hnom =>
          split_ifs at hoptimized
          cases hoptimized
          rw [addAssertions_eq]
          refine h.settle (by simp) (by simp) ?_ (by simp) ?_ ?_
          · intro f hf
            obtain ⟨i, -, rfl⟩ := mem_map.mp hf
            exact ⟨other, i, rfl, hover other (negativeOneOfAndOther_eq_some hnom).1⟩
          · intro J hJ
            have hfacts := (covers_negativeOneOf hnom J).mp ((covers_description hent hunion J).mp
                (hJ.pending entry (.inl (by simp))))
            simpa using hfacts
          · intro J he _ _
            obtain ⟨-, hfacts, -⟩ := emitted_record.mp he
            refine (covers_description hent hunion J).mpr
              ((covers_negativeOneOf hnom J).mpr fun i hi => ?_)
            exact hfacts _ (mem_map_of_mem hi)
        · cases hoptimized
      · simp only [bind, Except.bind] at hok
        split at hok
        · cases hok
        · next r hr =>
          obtain ⟨normalized, s₁⟩ := r
          cases hok
          obtain ⟨-, hfaith, hforall⟩ := h.normalizeDisjuncts hover
            (fun d => isReduced_description hent hunion)
            (fun d => isNnfHead_description hunion) hr
          exact hfaith.settle_normalized hunion hdistr hforall

theorem Faithful.pop {rest : List (List ClassExpr)} (h : s.Faithful Dom Val index input [])
    (hpend : s.classExpressionInclusions = entry :: rest) :
    { s with classExpressionInclusions := rest }.Faithful Dom Val index input [entry] := by
  have hmem : ∀ e, e ∈ [] ∨ e ∈ s.classExpressionInclusions ↔ e ∈ [entry] ∨ e ∈ rest := by
    simp [hpend]
  constructor
  case index_eq => exact h.index_eq
  case wellFormed =>
    exact ⟨fun e he => h.wellFormed.pending e ((hmem e).mpr he), h.wellFormed.concepts,
      h.wellFormed.normal, h.wellFormed.facts, h.wellFormed.definitions, h.wellFormed.nominals,
      h.wellFormed.noData, h.wellFormed.noRules⟩
  case complete =>
    intro I hI
    obtain ⟨J, hIJ, hJ⟩ := h.complete I hI
    exact ⟨J, hIJ, hJ.emitted, fun e he => hJ.pending e ((hmem e).mpr he), hJ.definitions,
      hJ.nominals⟩
  case grounded => exact fun J w he hp => h.grounded J w he fun e hmem' => hp e ((hmem e).mp hmem')
  case sound => exact fun J he hp => h.sound J he fun e hmem' => hp e ((hmem e).mp hmem')

/-- A run that ends leaves a faithful state with an empty stack. -/
theorem Faithful.normalizeClassInclusions (fuel : ℕ) (h : s.Faithful Dom Val index input [])
    (hok : s.normalizeClassInclusions order fuel = .ok s') :
    s'.Faithful Dom Val index input [] ∧ s'.classExpressionInclusions = [] := by
  induction fuel generalizing s with
  | zero => cases hok
  | succ fuel ih =>
    simp only [Normalizer.normalizeClassInclusions] at hok
    split at hok
    · next hemp =>
      cases hok
      exact ⟨h, hemp⟩
    · next entry rest hpend =>
      simp only [bind, Except.bind] at hok
      split at hok
      · cases hok
      · next s₁ hstep => exact ih ((h.pop hpend).normalizeInclusion hstep) hok

theorem Faithful.normalizeInclusions (fuel : ℕ) (h : s.Faithful Dom Val index input [])
    (hok : s.normalizeInclusions order fuel = .ok s') :
    s'.Faithful Dom Val index input [] ∧ s'.classExpressionInclusions = [] := by
  simp only [Normalizer.normalizeInclusions, bind, Except.bind] at hok
  split at hok
  · cases hok
  · next s₁ hcls =>
    obtain ⟨hfaith, hemp⟩ := h.normalizeClassInclusions fuel hcls
    cases fuel with
    | zero => cases hok
    | succ fuel =>
      simp only [normalizeDataRangeInclusions, hfaith.wellFormed.noData] at hok
      cases hok
      exact ⟨hfaith, hemp⟩

end Normalizer

end Hermit
