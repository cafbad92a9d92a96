import Hermit.Structural.NormalizationModels

/-! # Steps of the normaliser that keep its state faithful

A step introduces a definition together with the inclusions that put it below its
expression, introduces the name of a negated nominal together with its facts, or
settles an inclusion by what it pushes and emits.
-/

namespace Hermit

open List

variable {Dom Val : Type*}

namespace Normalizer

/-! ## Recording lists -/

/-- The state with further pending inclusions, facts and normalised inclusions. -/
def record (s : Normalizer) (pushed : List (List ClassExpr)) (facts : List Fact)
    (concepts : List (List ClassExpr)) : Normalizer :=
  { s with
    classExpressionInclusions := pushed.reverse ++ s.classExpressionInclusions
    axioms := { s.axioms with
      facts := s.axioms.facts ++ facts
      conceptInclusions := s.axioms.conceptInclusions ++ concepts } }

section

variable (s : Normalizer)

theorem pushInclusions_eq (pushed : List (List ClassExpr)) :
    s.pushInclusions pushed = s.record pushed [] [] := by
  induction pushed generalizing s with
  | nil => simp [pushInclusions, record]
  | cons e es ih =>
    have h := ih (s.pushInclusion e)
    simp only [pushInclusions, foldl_cons] at h ⊢
    rw [h]
    simp [record, pushInclusion]

theorem pushInclusion_eq (e : List ClassExpr) : s.pushInclusion e = s.record [e] [] [] := by
  simp [pushInclusion, record]

theorem addAssertions_eq (ce : ClassExpr) (individuals : List Individ) :
    s.addAssertions ce individuals = s.record [] (individuals.map (.classAssertion ce)) [] := by
  induction individuals generalizing s with
  | nil => simp [addAssertions, record]
  | cons i is ih =>
    have h := ih (s.addFact (.classAssertion ce i))
    simp only [addAssertions, foldl_cons] at h ⊢
    rw [h]
    simp [record, addFact]

theorem addFact_eq (f : Fact) : s.addFact f = s.record [] [f] [] := by
  simp [addFact, record]

theorem addConceptInclusion_eq (e : List ClassExpr) :
    s.addConceptInclusion e = s.record [] [] [e] := by
  simp [addConceptInclusion, record]

end

section record

variable (s : Normalizer) (pushed : List (List ClassExpr)) (facts : List Fact)
  (concepts : List (List ClassExpr))

@[simp] theorem conceptInclusions_record :
    (s.record pushed facts concepts).axioms.conceptInclusions =
    s.axioms.conceptInclusions ++ concepts := rfl

@[simp] theorem facts_record : (s.record pushed facts concepts).axioms.facts =
    s.axioms.facts ++ facts := rfl

theorem record_record (pushed' : List (List ClassExpr)) (facts' : List Fact)
    (concepts' : List (List ClassExpr)) :
    (s.record pushed facts concepts).record pushed' facts' concepts' =
      s.record (pushed ++ pushed') (facts ++ facts') (concepts ++ concepts') := by
  simp [record]

@[simp] theorem mem_pending_record (e : List ClassExpr) :
    e ∈ (s.record pushed facts concepts).classExpressionInclusions ↔
      e ∈ pushed ∨ e ∈ s.classExpressionInclusions := by
  simp [record]

end record

theorem mem_of_mem_laterPairs {α : Type*} {l : List α} {w : α × α} (hw : w ∈ laterPairs l) :
    w.1 ∈ l ∧ w.2 ∈ l := by
  induction l with
  | nil => simp [laterPairs] at hw
  | cons a l ih =>
    simp only [laterPairs, mem_append, mem_map] at hw
    rcases hw with ⟨b, hb, rfl⟩ | hw
    · simp [hb]
    · simp [ih hw]

/-- The later state keeps the definitions and the names of the earlier one. -/
structure Extends (s s' : Normalizer) : Prop where
  index : s'.firstReplacementIndex = s.firstReplacementIndex
  definitions : ∀ d e, s.definitions.lookup d = some e → s'.definitions.lookup d = some e
  nominals : ∀ d c, s.definitionsForNegativeNominals.lookup d = some c →
    s'.definitionsForNegativeNominals.lookup d = some c
  known : ∀ c, s.Known c → s'.Known c

theorem Extends.refl (s : Normalizer) : s.Extends s :=
  ⟨rfl, fun _ _ h => h, fun _ _ h => h, fun _ h => h⟩

theorem Extends.trans {s s' s'' : Normalizer} (h : s.Extends s') (h' : s'.Extends s'') :
    s.Extends s'' where
  index := h'.index.trans h.index
  definitions d e hd := h'.definitions d e (h.definitions d e hd)
  nominals d c hd := h'.nominals d c (h.nominals d c hd)
  known c hc := h'.known c (h.known c hc)

theorem extends_noteObjectProperty (s : Normalizer) (ope : ObjectPropExpr) :
    s.Extends (s.noteObjectProperty ope) :=
  ⟨rfl, fun _ _ h => h, fun _ _ h => h, fun _ h => h⟩

section faithful

variable {index : ℕ} {input : List Component} {extra : List (List ClassExpr)} {s : Normalizer}

theorem Faithful.noteObjectProperty (h : s.Faithful Dom Val index input extra)
    (ope : ObjectPropExpr) :
    (s.noteObjectProperty ope).Faithful Dom Val index input extra where
  index_eq := h.index_eq
  wellFormed := ⟨h.wellFormed.pending, h.wellFormed.concepts, h.wellFormed.normal,
    h.wellFormed.facts, h.wellFormed.definitions, h.wellFormed.nominals, h.wellFormed.noData,
    h.wellFormed.noRules⟩
  complete I hI := by
    obtain ⟨J, hIJ, hJ⟩ := h.complete I hI
    exact ⟨J, hIJ, ⟨hJ.emitted.covers, hJ.emitted.facts⟩, hJ.pending, hJ.definitions, hJ.nominals⟩
  grounded J w he := h.grounded J w ⟨he.covers, he.facts⟩
  sound J he := h.sound J ⟨he.covers, he.facts⟩

/-! ## Definitions -/

/-- The state with one more definition and the inclusions pushed for it. -/
def introduce (s : Normalizer) (description definition : ClassExpr)
    (pushed : List (List ClassExpr)) : Normalizer :=
  { s with definitions := s.definitions.insert description definition }.record pushed [] []

section introduce

variable (s : Normalizer) (description definition : ClassExpr) (pushed : List (List ClassExpr))

@[simp] theorem conceptInclusions_introduce :
    (s.introduce description definition pushed).axioms.conceptInclusions =
      s.axioms.conceptInclusions := by
  simp [introduce]

@[simp] theorem facts_introduce :
    (s.introduce description definition pushed).axioms.facts = s.axioms.facts := by
  simp [introduce]

@[simp] theorem mem_pending_introduce (e : List ClassExpr) :
    e ∈ (s.introduce description definition pushed).classExpressionInclusions ↔
      e ∈ pushed ∨ e ∈ s.classExpressionInclusions := by
  simp [introduce]

theorem emitted_introduce {J : Interp Dom Val} :
    J.Emitted (s.introduce description definition pushed).axioms ↔ J.Emitted s.axioms := by
  constructor
  · intro h
    exact ⟨by simpa using h.covers, by simpa using h.facts⟩
  · intro h
    exact ⟨by simpa using h.covers, by simpa using h.facts⟩

theorem lookup_introduce {d e : ClassExpr} :
    (s.introduce description definition pushed).definitions.lookup d = some e ↔
      d = description ∧ e = definition ∨ d ≠ description ∧ s.definitions.lookup d = some e := by
  by_cases hne : d = description
  · subst hne
    simp [introduce, record, eq_comm]
  · simp [introduce, record, hne]

end introduce

theorem length_definitions_introduce {description definition : ClassExpr}
    {pushed : List (List ClassExpr)} (hnew : s.definitions.lookup description = none) :
    (s.introduce description definition pushed).definitions.entries.length =
      s.definitions.entries.length + 1 := by
  simp only [introduce, record]
  rw [AList.entries_insert_of_notMem (AList.lookup_eq_none.mp hnew)]
  rfl

variable {c : Iri} {J : Interp Dom Val}

section

variable {description definition : ClassExpr} (hnew : s.definitions.lookup description = none)
include hnew

theorem known_introduce {pushed : List (List ClassExpr)} (hc : s.Known c ∨ c = s.nextDefinition) :
    (s.introduce description definition pushed).Known c :=
  by
  unfold Known
  rw [length_definitions_introduce hnew]
  rcases hc with hc | rfl
  · exact ⟨fun n hn => Nat.lt_succ_of_lt (hc.1 n hn), hc.2⟩
  · constructor
    · intro n hn
      have := definitionName_inj.mp hn
      simp only [introduce, record] at this
      omega
    · intro n hn
      exact (definitionName_ne_negativeNominalName _ _ hn).elim

theorem extends_introduce {pushed : List (List ClassExpr)} :
    s.Extends (s.introduce description definition pushed) where
  index := rfl
  definitions d e hd := by
    have hne : d ≠ description := by
      rintro rfl
      rw [hnew] at hd
      cases hd
    exact (lookup_introduce ..).mpr (.inr ⟨hne, hd⟩)
  nominals _ _ h := h
  known _ hc := known_introduce hnew (.inl hc)

end

theorem satisfied_introduce {description definition : ClassExpr}
    {pushed : List (List ClassExpr)} (hJ : J.Satisfied extra s)
    (hexact : ∀ x, x ∈ J.expr definition ↔ x ∈ J.expr description)
    (hpush : ∀ e ∈ pushed, J.covers e) :
    J.Satisfied extra (s.introduce description definition pushed) where
  emitted := (emitted_introduce ..).mpr hJ.emitted
  pending e he := by
    rw [mem_pending_introduce] at he
    rcases he with he | he | he
    · exact hJ.pending e (.inl he)
    · exact hpush e he
    · exact hJ.pending e (.inr he)
  definitions d e hd := by
    rcases (lookup_introduce ..).mp hd with ⟨rfl, rfl⟩ | ⟨-, hold⟩
    · exact hexact
    · exact hJ.definitions d e hold
  nominals := hJ.nominals

/-- A fresh name can be given the meaning that makes its definition exact. -/
theorem exists_exact (J : Interp Dom Val) (description definition : ClassExpr)
    (hth : c ≠ owlThing) (hnone : c ≠ owlNothing) {q : Iri → Prop} (hc : ¬ q c)
    (hdef : definition = .class c ∨ definition = .objectComplementOf (.class c))
    (hdesc : ObjectOver q description) :
    ∃ J' : Interp Dom Val, J.AgreeOn J' q ∧ ∀ x, x ∈ J'.expr definition ↔
    x ∈ J'.expr description := by
  rcases hdef with rfl | rfl
  · have hagr := J.agreeOn_withClass (J.expr description) hth hnone hc
    refine ⟨_, hagr, fun x => ?_⟩
    simp [← hagr.mem_expr hdesc]
  · have hagr := J.agreeOn_withClass (J.expr description)ᶜ hth hnone hc
    refine ⟨_, hagr, fun x => ?_⟩
    simp [← hagr.mem_expr hdesc]

theorem WellFormed.introduce (h : s.WellFormed extra) {description definition : ClassExpr}
    {pushed : List (List ClassExpr)} (hnew : s.definitions.lookup description = none)
    (hdef : definition = .class s.nextDefinition ∨
      definition = .objectComplementOf (.class s.nextDefinition))
    (hdesc : ObjectOver s.Known description)
    (hover : ∀ e ∈ pushed, ∀ d ∈ e, ObjectOver (fun c => s.Known c ∨ c = s.nextDefinition) d) :
    (s.introduce description definition pushed).WellFormed extra := by
  have hext : s.Extends (s.introduce description definition pushed) := extends_introduce hnew
  have hknown : ∀ {d}, ObjectOver s.Known d →
      ObjectOver (s.introduce description definition pushed).Known d :=
    fun hd => hd.mono hext.known
  constructor
  case pending =>
    intro e he
    rw [mem_pending_introduce] at he
    rcases he with he | he | he
    · exact fun d hd => hknown (h.pending e (.inl he) d hd)
    · exact fun d hd => (hover e he d hd).mono fun _ => known_introduce hnew
    · exact fun d hd => hknown (h.pending e (.inr he) d hd)
  case concepts =>
    intro e he d hd
    exact hknown (h.concepts e (by simpa using he) d hd)
  case normal => simpa using h.normal
  case facts =>
    intro f hf
    obtain ⟨ce, i, rfl, hce⟩ := h.facts f (by simpa using hf)
    exact ⟨ce, i, rfl, hknown hce⟩
  case definitions =>
    intro d e hd
    rcases (lookup_introduce ..).mp hd with ⟨rfl, rfl⟩ | ⟨-, hold⟩
    · have hfresh : (s.introduce d e pushed).Known s.nextDefinition :=
        known_introduce hnew (.inr rfl)
      rcases hdef with rfl | rfl
      · exact ⟨rfl, hfresh, hknown hdesc⟩
      · exact ⟨rfl, hfresh, hknown hdesc⟩
    · obtain ⟨hsim, he, hd⟩ := h.definitions d e hold
      exact ⟨hsim, hknown he, hknown hd⟩
  case nominals =>
    intro nominal c hc
    obtain ⟨hknownc, individuals, hnom, hfacts⟩ := h.nominals nominal c hc
    exact ⟨hext.known c hknownc, individuals, hnom, by simpa using hfacts⟩
  case noData => exact h.noData
  case noRules => exact h.noRules

theorem Faithful.introduce (h : s.Faithful Dom Val index input extra)
    {description definition : ClassExpr}
    {pushed : List (List ClassExpr)} (hnew : s.definitions.lookup description = none)
    (hdef : definition = .class s.nextDefinition ∨
      definition = .objectComplementOf (.class s.nextDefinition))
    (hdesc : ObjectOver s.Known description)
    (hweight : ∀ e ∈ pushed, totalWeight e ≤ weight description + 1)
    (hover : ∀ e ∈ pushed, ∀ d ∈ e, ObjectOver (fun c => s.Known c ∨ c = s.nextDefinition) d)
    (hmeans : ∀ J : Interp Dom Val, (∀ e ∈ pushed, J.covers e) ↔
      ∀ x, x ∈ J.expr definition → x ∈ J.expr description) :
    (s.introduce description definition pushed).Faithful Dom Val index input extra := by
  have hpend : ∀ e, e ∈ extra ∨ e ∈ s.classExpressionInclusions → e ∈ extra ∨
      e ∈ (s.introduce description definition pushed).classExpressionInclusions := by
    intro e he
    rw [mem_pending_introduce]
    exact he.imp_right fun h => .inr h
  constructor
  case index_eq => exact h.index_eq
  case wellFormed => exact h.wellFormed.introduce hnew hdef hdesc hover
  case complete =>
    intro I hI
    obtain ⟨J, hIJ, hJ⟩ := h.complete I hI
    obtain ⟨J', hagr, hexact⟩ := exists_exact J description definition (definitionName_ne_thing _)
      (definitionName_ne_nothing _) s.not_known_nextDefinition hdef hdesc
    refine ⟨J', hIJ.trans (hagr.mono fun c hc => known_of_not_isFresh h.index_eq hc), ?_⟩
    exact satisfied_introduce (hJ.transfer h.wellFormed hagr) hexact
      ((hmeans J').mpr fun x hx => (hexact x).mp hx)
  case grounded =>
    intro J w he hp d e hd hw
    rcases (lookup_introduce ..).mp hd with ⟨rfl, rfl⟩ | ⟨-, hold⟩
    · refine (hmeans J).mp fun e' he' => ?_
      have hle := hweight e' he'
      exact hp e' (.inr ((mem_pending_introduce ..).mpr (.inl he'))) (by omega)
    · exact h.grounded J w ((emitted_introduce ..).mp he)
        (fun e' hmem => hp e' (hpend e' hmem)) d e hold hw
  case sound =>
    intro J he hp hdefined
    refine h.sound J ((emitted_introduce ..).mp he) (fun e' hmem => hp e' (hpend e' hmem)) ?_
    intro w d e hd
    exact hdefined w d e ((extends_introduce hnew).definitions d e hd)

/-! ## Negated nominals -/

/-- The state with a name for a nominal and the facts that put its individuals there. -/
def introduceNominal (s : Normalizer) (individuals : List Individ) : Normalizer :=
  { s with
    definitionsForNegativeNominals :=
      s.definitionsForNegativeNominals.insert (.objectOneOf individuals)
        s.nextNegativeNominal }.record []
    (individuals.map (.classAssertion (.class s.nextNegativeNominal))) []

section introduceNominal

variable (s : Normalizer) (individuals : List Individ)

theorem lookup_introduceNominal {d : ClassExpr} {c : Iri} :
    (s.introduceNominal individuals).definitionsForNegativeNominals.lookup d = some c ↔
      d = .objectOneOf individuals ∧ c = s.nextNegativeNominal ∨
        d ≠ .objectOneOf individuals ∧ s.definitionsForNegativeNominals.lookup d = some c := by
  by_cases hne : d = .objectOneOf individuals
  · subst hne
    simp [introduceNominal, record, eq_comm]
  · simp [introduceNominal, record, hne]

theorem facts_introduceNominal : (s.introduceNominal individuals).axioms.facts =
    s.axioms.facts ++ individuals.map (.classAssertion (.class s.nextNegativeNominal)) := rfl

theorem conceptInclusions_introduceNominal :
    (s.introduceNominal individuals).axioms.conceptInclusions = s.axioms.conceptInclusions := by
  simp [introduceNominal]

end introduceNominal

section

variable {individuals : List Individ}
  (hnew : s.definitionsForNegativeNominals.lookup (.objectOneOf individuals) = none)
include hnew

theorem known_introduceNominal (hc : s.Known c ∨ c = s.nextNegativeNominal) :
    (s.introduceNominal individuals).Known c := by
  have hlen : (s.introduceNominal individuals).definitionsForNegativeNominals.entries.length =
      s.definitionsForNegativeNominals.entries.length + 1 := by
    simp only [introduceNominal, record]
    rw [AList.entries_insert_of_notMem (AList.lookup_eq_none.mp hnew)]
    rfl
  unfold Known
  rw [hlen]
  rcases hc with hc | rfl
  · exact ⟨hc.1, fun n hn => Nat.lt_succ_of_lt (hc.2 n hn)⟩
  · constructor
    · intro n hn
      exact (definitionName_ne_negativeNominalName _ _ hn.symm).elim
    · intro n hn
      have := negativeNominalName_inj.mp hn
      omega

theorem extends_introduceNominal : s.Extends (s.introduceNominal individuals) where
  index := rfl
  definitions _ _ h := h
  nominals d c hd := by
    have hne : d ≠ .objectOneOf individuals := by
      rintro rfl
      rw [hnew] at hd
      cases hd
    exact (lookup_introduceNominal ..).mpr (.inr ⟨hne, hd⟩)
  known _ hc := known_introduceNominal hnew (.inl hc)

end

theorem WellFormed.introduceNominal (h : s.WellFormed extra) {individuals : List Individ}
    (hnew : s.definitionsForNegativeNominals.lookup (.objectOneOf individuals) = none) :
    (s.introduceNominal individuals).WellFormed extra := by
  have hext := extends_introduceNominal hnew
  have hknown : ∀ {d}, ObjectOver s.Known d → ObjectOver (s.introduceNominal individuals).Known d :=
    fun hd => hd.mono hext.known
  have hfresh := known_introduceNominal hnew (.inr (rfl : s.nextNegativeNominal = _))
  constructor
  case pending => exact fun e he d hd => hknown (h.pending e he d hd)
  case concepts =>
    intro e he d hd
    rw [conceptInclusions_introduceNominal] at he
    exact hknown (h.concepts e he d hd)
  case normal =>
    rw [conceptInclusions_introduceNominal]
    exact h.normal
  case facts =>
    intro f hf
    rw [facts_introduceNominal, mem_append, mem_map] at hf
    rcases hf with hf | ⟨i, -, rfl⟩
    · obtain ⟨ce, i, rfl, hce⟩ := h.facts f hf
      exact ⟨ce, i, rfl, hknown hce⟩
    · exact ⟨_, i, rfl, hfresh⟩
  case definitions =>
    intro d e hd
    obtain ⟨hsim, he, hd⟩ := h.definitions d e hd
    exact ⟨hsim, hknown he, hknown hd⟩
  case nominals =>
    intro nominal c hc
    rw [facts_introduceNominal]
    rcases (lookup_introduceNominal ..).mp hc with ⟨rfl, rfl⟩ | ⟨-, hold⟩
    · refine ⟨hfresh, individuals, rfl, fun i hi => ?_⟩
      exact mem_append_right _ (mem_map_of_mem hi)
    · obtain ⟨hknownc, inds, hnom, hfacts⟩ := h.nominals nominal c hold
      exact ⟨hext.known c hknownc, inds, hnom, fun i hi => mem_append_left _ (hfacts i hi)⟩
  case noData => exact h.noData
  case noRules => exact h.noRules

theorem Faithful.introduceNominal (h : s.Faithful Dom Val index input extra)
    {individuals : List Individ}
    (hnew : s.definitionsForNegativeNominals.lookup (.objectOneOf individuals) = none) :
    (s.introduceNominal individuals).Faithful Dom Val index input extra := by
  have hemit : ∀ J : Interp Dom Val, J.Emitted (s.introduceNominal individuals).axioms →
      J.Emitted s.axioms := by
    intro J he
    refine ⟨fun e hmem => he.covers e ?_, fun f hf => he.facts f ?_⟩
    · rwa [conceptInclusions_introduceNominal]
    · rw [facts_introduceNominal]
      exact mem_append_left _ hf
  constructor
  case index_eq => exact h.index_eq
  case wellFormed => exact h.wellFormed.introduceNominal hnew
  case complete =>
    intro I hI
    obtain ⟨J, hIJ, hJ⟩ := h.complete I hI
    obtain ⟨J', hagr, hexact⟩ := exists_exact J (.objectOneOf individuals)
      (.class s.nextNegativeNominal) (negativeNominalName_ne_thing _)
      (negativeNominalName_ne_nothing _) s.not_known_nextNegativeNominal (.inl rfl) trivial
    have hJ' := hJ.transfer h.wellFormed hagr
    refine ⟨J', hIJ.trans (hagr.mono fun c hc => known_of_not_isFresh h.index_eq hc), ?_⟩
    constructor
    case emitted =>
      refine ⟨fun e he => hJ'.emitted.covers e ?_, fun f hf => ?_⟩
      · rwa [conceptInclusions_introduceNominal] at he
      · rw [facts_introduceNominal, mem_append, mem_map] at hf
        rcases hf with hf | ⟨i, hi, rfl⟩
        · exact hJ'.emitted.facts f hf
        · exact (hexact _).mpr ⟨i, hi, rfl⟩
    case pending => exact hJ'.pending
    case definitions => exact hJ'.definitions
    case nominals =>
      intro nominal c hc
      rcases (lookup_introduceNominal ..).mp hc with ⟨rfl, rfl⟩ | ⟨-, hold⟩
      · exact hexact
      · exact hJ'.nominals nominal c hold
  case grounded => exact fun J w he hp => h.grounded J w (hemit J he) hp
  case sound => exact fun J he hp => h.sound J (hemit J he) hp

theorem emitted_record {pushed concepts : List (List ClassExpr)}
    {facts : List Fact} : J.Emitted (s.record pushed facts concepts).axioms ↔
      J.Emitted s.axioms ∧ (∀ f ∈ facts, J.fact f) ∧ ∀ c ∈ concepts, J.covers c := by
  constructor
  · intro h
    exact ⟨⟨fun c hc => h.covers c (by simp [hc]), fun f hf => h.facts f (by simp [hf])⟩,
      fun f hf => h.facts f (by simp [hf]), fun c hc => h.covers c (by simp [hc])⟩
  · rintro ⟨h, hf, hc⟩
    refine ⟨fun c hmem => ?_, fun f hmem => ?_⟩
    · rw [conceptInclusions_record, mem_append] at hmem
      exact hmem.elim (h.covers c) (hc c)
    · rw [facts_record, mem_append] at hmem
      exact hmem.elim (h.facts f) (hf f)

theorem WellFormed.record (h : s.WellFormed extra) {pushed concepts : List (List ClassExpr)}
    {facts : List Fact} (hpush : ∀ p ∈ pushed, ∀ d ∈ p, ObjectOver s.Known d)
    (hfacts : ∀ f ∈ facts, ∃ ce i, f = .classAssertion ce i ∧ ObjectOver s.Known ce)
    (hconcs : ∀ c ∈ concepts, ∀ d ∈ c, isNormalDisjunct d ∧ ObjectOver s.Known d) :
    (s.record pushed facts concepts).WellFormed [] := by
  constructor
  case pending =>
    intro p hp
    rw [mem_pending_record] at hp
    rcases hp with hp | hp | hp
    · simp at hp
    · exact hpush p hp
    · exact h.pending p (.inr hp)
  case concepts =>
    intro c hc
    rw [conceptInclusions_record, mem_append] at hc
    rcases hc with hc | hc
    · exact h.concepts c hc
    · exact fun d hd => (hconcs c hc d hd).2
  case normal =>
    intro c hc
    rw [conceptInclusions_record, mem_append] at hc
    rcases hc with hc | hc
    · exact h.normal c hc
    · exact fun d hd => (hconcs c hc d hd).1
  case facts =>
    intro f hf
    rw [facts_record, mem_append] at hf
    exact hf.elim (h.facts f) (hfacts f)
  case definitions => exact h.definitions
  case nominals =>
    intro nominal c hc
    obtain ⟨hknown, inds, hnom, hmem⟩ := h.nominals nominal c hc
    exact ⟨hknown, inds, hnom, fun i hi => mem_append_left _ (hmem i hi)⟩
  case noData => exact h.noData
  case noRules => exact h.noRules

theorem satisfied_record (hJ : J.Satisfied extra s) {pushed concepts : List (List ClassExpr)}
    {facts : List Fact} (hp : ∀ p ∈ pushed, J.covers p) (hf : ∀ f ∈ facts, J.fact f)
    (hc : ∀ c ∈ concepts, J.covers c) : J.Satisfied [] (s.record pushed facts concepts) where
  emitted := emitted_record.mpr ⟨hJ.emitted, hf, hc⟩
  pending p hmem := by
    rw [mem_pending_record] at hmem
    rcases hmem with hmem | hmem | hmem
    · simp at hmem
    · exact hp p hmem
    · exact hJ.pending p (.inr hmem)
  definitions := hJ.definitions
  nominals := hJ.nominals

/-- An inclusion is settled by what is recorded for it: every exact model satisfies that, and it
gives the inclusion back with the help of lighter definitions. -/
theorem Faithful.settle {e : List ClassExpr} (h : s.Faithful Dom Val index input [e])
    {pushed concepts : List (List ClassExpr)} {facts : List Fact}
    (hweight : ∀ p ∈ pushed, totalWeight p ≤ totalWeight e)
    (hpush : ∀ p ∈ pushed, ∀ d ∈ p, ObjectOver s.Known d)
    (hfacts : ∀ f ∈ facts, ∃ ce i, f = .classAssertion ce i ∧ ObjectOver s.Known ce)
    (hconcs : ∀ c ∈ concepts, ∀ d ∈ c, isNormalDisjunct d ∧ ObjectOver s.Known d)
    (hcompl : ∀ J : Interp Dom Val, J.Satisfied [e] s →
      (∀ p ∈ pushed, J.covers p) ∧ (∀ f ∈ facts, J.fact f) ∧ ∀ c ∈ concepts, J.covers c)
    (hsound : ∀ J : Interp Dom Val, J.Emitted (s.record pushed facts concepts).axioms →
      (∀ p ∈ pushed, J.covers p) → (∀ w, w + 1 < totalWeight e → J.DefinedUpTo s w) → J.covers e) :
    (s.record pushed facts concepts).Faithful Dom Val index input [] := by
  constructor
  case index_eq => exact h.index_eq
  case wellFormed => exact h.wellFormed.record hpush hfacts hconcs
  case complete =>
    intro I hI
    obtain ⟨J, hIJ, hJ⟩ := h.complete I hI
    obtain ⟨hp, hf, hc⟩ := hcompl J hJ
    exact ⟨J, hIJ, satisfied_record hJ hp hf hc⟩
  case grounded =>
    intro J w he hp
    have hemit := (emitted_record.mp he).1
    have hrest : ∀ p ∈ s.classExpressionInclusions, totalWeight p ≤ w + 1 → J.covers p :=
      fun p hmem => hp p (.inr ((mem_pending_record ..).mpr (.inr hmem)))
    -- below the weight of the inclusion its own truth is not needed
    have hlight : ∀ v ≤ w, v + 1 < totalWeight e → J.DefinedUpTo s v := by
      intro v hv hve
      refine h.grounded J v hemit fun p hmem hle => ?_
      rcases hmem with hmem | hmem
      · rw [mem_singleton.mp hmem] at hle
        omega
      · exact hrest p hmem (by omega)
    by_cases hw : w + 1 < totalWeight e
    · exact hlight w le_rfl hw
    · have hcover : J.covers e := by
        refine hsound J he (fun p hmem => ?_) fun v hv => hlight v (by omega) hv
        have hle := hweight p hmem
        exact hp p (.inr ((mem_pending_record ..).mpr (.inl hmem))) (by omega)
      refine h.grounded J w hemit fun p hmem hle => ?_
      rcases hmem with hmem | hmem
      · rwa [mem_singleton.mp hmem]
      · exact hrest p hmem hle
  case sound =>
    intro J he hp hdefined
    refine h.sound J (emitted_record.mp he).1 (fun p hmem => ?_) hdefined
    rcases hmem with hmem | hmem
    · rw [mem_singleton.mp hmem]
      exact hsound J he (fun p hp' => hp p (.inr ((mem_pending_record ..).mpr (.inl hp'))))
        fun w _ => hdefined w
    · exact hp p (.inr ((mem_pending_record ..).mpr (.inr hmem)))

/-- An axiom is recorded by inclusions and facts that mean the same where the definitions are
exact, and that give it back where they lie below their expressions. -/
theorem Faithful.visit (h : s.Faithful Dom Val index input []) {c : Component}
    {pushed : List (List ClassExpr)} {facts : List Fact}
    (hpush : ∀ p ∈ pushed, ∀ d ∈ p, ObjectOver s.Known d)
    (hfacts : ∀ f ∈ facts, ∃ ce i, f = .classAssertion ce i ∧ ObjectOver s.Known ce)
    (hcompl : ∀ I J : Interp Dom Val, I.AgreeOn J (fun c => ¬ IsFresh index c) → J.Satisfied [] s →
        I.satisfies c → (∀ p ∈ pushed, J.covers p) ∧ ∀ f ∈ facts, J.fact f)
    (hsound : ∀ J : Interp Dom Val, (∀ p ∈ pushed, J.covers p) → (∀ f ∈ facts, J.fact f) →
      (∀ w, J.DefinedUpTo s w) → J.satisfies c) :
    (s.record pushed facts []).Faithful Dom Val index (input ++ [c]) [] := by
  have hpend : ∀ p, p ∈ [] ∨ p ∈ s.classExpressionInclusions → p ∈ [] ∨
      p ∈ (s.record pushed facts []).classExpressionInclusions := by
    intro p hp
    rw [mem_pending_record]
    exact hp.imp_right fun h => .inr h
  constructor
  case index_eq => exact h.index_eq
  case wellFormed => exact h.wellFormed.record hpush hfacts (by simp)
  case complete =>
    intro I hI
    obtain ⟨J, hIJ, hJ⟩ := h.complete I fun d hd => hI d (by simp [hd])
    obtain ⟨hp, hf⟩ := hcompl I J hIJ hJ (hI c (by simp))
    exact ⟨J, hIJ, satisfied_record hJ hp hf (by simp)⟩
  case grounded =>
    intro J w he hp
    exact h.grounded J w (emitted_record.mp he).1 fun p hmem => hp p (hpend p hmem)
  case sound =>
    intro J he hp hdefined d hd
    obtain ⟨hemit, hf, -⟩ := emitted_record.mp he
    rcases mem_append.mp hd with hd | hd
    · exact h.sound J hemit (fun p hmem => hp p (hpend p hmem)) hdefined d hd
    · rw [mem_singleton.mp hd]
      exact hsound J (fun p hmem => hp p (.inr ((mem_pending_record ..).mpr (.inl hmem)))) hf
        hdefined

end faithful

end Normalizer

end Hermit
