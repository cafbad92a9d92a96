import Hermit.Structural.UnfoldingSemantics

/-! # Unfolding preserves satisfiability

A model of the definitions reads each complement name as the complement of its
class.  Conversely a model of the unfolded ontology is turned into one of the
definitions by reading each defined class as its definition, in the order that
the acyclicity test ranks them.
-/

namespace Hermit.DefinitorialUnfolding

open List hiding Disjoint
open Option Interp

universe u v

variable {Dom : Type u} {Val : Type v}

/-! ## What the loop over the ontology collects -/

variable {c : Iri} {component : Component} {state state' : Definitions × List Component}

variable {operands : List ClassExpr}

theorem definitionOf_eq_some {e : ClassExpr} (h : definitionOf operands = some (c, e)) :
    isBuiltIn c = false ∧ (operands = [.class c, e] ∨ operands = [e, .class c]) := by
  have hsnd {e' d : ClassExpr} (h : definedSecond e' d = some (c, e)) :
      isBuiltIn c = false ∧ d = .class c ∧ e' = e := by
    cases d with
    | «class» d =>
      simp only [definedSecond, Bool.not_eq_true', ite_none_right_eq_some,
        some.injEq, Prod.mk.injEq] at h
      obtain ⟨hb, rfl, rfl⟩ := h
      exact ⟨hb, rfl, rfl⟩
    | _ => simp [definedSecond] at h
  unfold definitionOf at h
  split at h
  · split at h
    · rename_i hb
      simp only [some.injEq, Prod.mk.injEq] at h
      obtain ⟨rfl, rfl⟩ := h
      exact ⟨by simpa using hb, .inl rfl⟩
    · obtain ⟨hb, rfl, rfl⟩ := hsnd h
      exact ⟨hb, .inr rfl⟩
  · obtain ⟨hb, rfl, rfl⟩ := hsnd h
    exact ⟨hb, .inr rfl⟩
  · cases h

/-- Everything one turn of the loop can do. -/
theorem visitComponent_cases (h : visitComponent state component = some state') :
    (∃ kind, component = .nonLogical kind ∧ state' = state) ∨
    (∃ operands c e, component = .equivalentClasses operands ∧ definitionOf operands = some (c, e) ∧
      isSupported e = true ∧ state.1.lookup c = none ∧ state' = (state.1.insert c e, state.2)) ∨
    (∃ ce i, component = .classAssertion ce i ∧ isSupported ce = true ∧
      state' = (state.1, state.2 ++ [component])) ∨
    (∃ ope i j, component = .objectPropertyAssertion ope i j ∧
      state' = (state.1, state.2 ++ [component])) := by
  unfold visitComponent at h
  split at h
  · rename_i kind
    split at h
    · exact .inl ⟨kind, rfl, by simpa using h.symm⟩
    · cases h
  · rename_i operands
    split at h
    · cases h
    · rename_i c e hdef
      split at h
      · cases h
      · rename_i hguard
        simp only [Bool.or_eq_true, Bool.not_eq_true', not_or, Bool.not_eq_false,
          not_isSome_iff_eq_none] at hguard
        exact .inr (.inl ⟨operands, c, e, rfl, hdef, hguard.1, hguard.2, by simpa using h.symm⟩)
  · rename_i ce i
    split at h
    · rename_i hsup
      exact .inr (.inr (.inl ⟨ce, _, rfl, hsup, by simpa using h.symm⟩))
    · cases h
  · split at h
    · exact .inr (.inr (.inr ⟨_, _, _, rfl, by simpa using h.symm⟩))
    · cases h
  · cases h

/-- The shape of what the loop has collected. -/
structure Collected (state : Definitions × List Component) : Prop where
  notBuiltIn : ∀ c ∈ state.1, isBuiltIn c = false
  supported : ∀ c e, state.1.lookup c = some e → isSupported e = true
  assertion : ∀ a ∈ state.2, (∃ ce i, a = .classAssertion ce i ∧ isSupported ce = true) ∨
    ∃ ope i j, a = .objectPropertyAssertion ope i j

/-- The condition that the collected definitions and assertions put on an interpretation. -/
def Holds (I : Interp Dom Val) (state : Definitions × List Component) : Prop :=
  (∀ c e, state.1.lookup c = some e → I.classes c = I.expr e) ∧ I.isModel state.2

theorem satisfies_definition (I : Interp Dom Val)
    {e : ClassExpr} (h : definitionOf operands = some (c, e)) :
    I.satisfies (.equivalentClasses operands) ↔ I.classes c = I.expr e := by
  rw [satisfies, ← expr_class]
  obtain ⟨-, rfl | rfl⟩ := definitionOf_eq_some h
  · simp only [forall_mem_cons, not_mem_nil, false_imp_iff, implies_true, and_true, true_and]
    exact ⟨fun h => h.1, fun h => ⟨h, h.symm⟩⟩
  · simp only [forall_mem_cons, not_mem_nil, false_imp_iff, implies_true, and_true, true_and]
    exact ⟨fun h => h.2, fun h => ⟨h.symm, h⟩⟩

theorem Collected.visitComponent (hs : Collected state)
    (h : DefinitorialUnfolding.visitComponent state component = some state') :
    Collected state' := by
  obtain ⟨_, -, rfl⟩ | ⟨operands, c, e, -, hdef, hsup, -, rfl⟩ | ⟨ce, i, rfl, hsup, rfl⟩ |
    ⟨ope, i, j, rfl, rfl⟩ := visitComponent_cases h
  · exact hs
  · refine ⟨?_, ?_, hs.assertion⟩
    · intro d hd
      rcases (AList.mem_insert _).mp hd with rfl | hd
      · exact (definitionOf_eq_some hdef).1
      · exact hs.notBuiltIn d hd
    · intro d e' hd
      by_cases hdc : d = c
      · subst hdc
        rw [AList.lookup_insert, some.injEq] at hd
        exact hd ▸ hsup
      · rw [AList.lookup_insert_ne hdc] at hd
        exact hs.supported d e' hd
  · refine ⟨hs.notBuiltIn, hs.supported, ?_⟩
    intro a ha
    rcases mem_append.mp ha with ha | ha
    · exact hs.assertion a ha
    · exact .inl ⟨ce, i, by simpa using ha, hsup⟩
  · refine ⟨hs.notBuiltIn, hs.supported, ?_⟩
    intro a ha
    rcases mem_append.mp ha with ha | ha
    · exact hs.assertion a ha
    · exact .inr ⟨ope, i, j, by simpa using ha⟩

/-- One turn of the loop adds the condition of its component and no other. -/
theorem holds_visitComponent (I : Interp Dom Val)
    (h : visitComponent state component = some state') :
    Holds I state' ↔ Holds I state ∧ I.satisfies component := by
  have happ (assertions : List Component) (a : Component) :
      I.isModel (assertions ++ [a]) ↔ I.isModel assertions ∧ I.satisfies a := by
    simp [isModel, or_imp, forall_and]
  obtain ⟨kind, rfl, rfl⟩ | ⟨operands, c, e, rfl, hdef, -, hnone, rfl⟩ | ⟨ce, i, rfl, -, rfl⟩ |
    ⟨ope, i, j, rfl, rfl⟩ := visitComponent_cases h
  · simp [satisfies]
  · rw [satisfies_definition I hdef]
    simp only [Holds]
    constructor
    · rintro ⟨hdefs, hmodel⟩
      refine ⟨⟨fun d e' hd => hdefs d e' ?_, hmodel⟩, hdefs c e (AList.lookup_insert _)⟩
      have hdc : d ≠ c := by
        rintro rfl
        rw [hnone] at hd
        cases hd
      rw [AList.lookup_insert_ne hdc, hd]
    · rintro ⟨⟨hdefs, hmodel⟩, hc⟩
      refine ⟨fun d e' hd => ?_, hmodel⟩
      by_cases hdc : d = c
      · subst hdc
        rw [AList.lookup_insert, some.injEq] at hd
        exact hd ▸ hc
      · rw [AList.lookup_insert_ne hdc] at hd
        exact hdefs d e' hd
  · simp only [Holds, happ, and_assoc]
  · simp only [Holds, happ, and_assoc]

/-- The whole loop collects exactly the condition of the ontology. -/
theorem foldlM_visitComponent (Dom : Type u) (Val : Type v) {ontology : List Component}
    (hs : Collected state) (h : ontology.foldlM visitComponent state = some state') :
    Collected state' ∧ ∀ I : Interp Dom Val, Holds I state' ↔
    Holds I state ∧ I.isModel ontology := by
  induction ontology generalizing state with
  | nil =>
    simp only [foldlM_nil, Option.pure_def, some.injEq] at h
    subst h
    exact ⟨hs, fun I => by simp [isModel]⟩
  | cons component rest ih =>
    simp only [foldlM_cons, bind_eq_bind, bind_eq_some_iff] at h
    obtain ⟨mid, hmid, hrest⟩ := h
    obtain ⟨hcollected, hiff⟩ := ih (hs.visitComponent hmid) hrest
    refine ⟨hcollected, fun I => ?_⟩
    rw [hiff I, holds_visitComponent I hmid, and_assoc]
    simp [isModel]

theorem collected_empty : Collected (∅, []) :=
  ⟨fun c hc => absurd hc (AList.notMem_empty c), fun c e h => by simp at h, by simp⟩

/-! ## From the definitions to the unfolded ontology -/

theorem hasComplementPrefix_complement (c : Iri) : hasComplementPrefix (complement c) = true := by
  simp [hasComplementPrefix, complement]

theorem complement_injective : Function.Injective complement := by
  intro c d h
  have h' : complementPrefix.toList ++ c.toList = complementPrefix.toList ++ d.toList := by
    rw [← String.toList_append, ← String.toList_append]
    exact congrArg String.toList h
  exact String.toList_injective (append_cancel_left h')

theorem hasComplementPrefix_owlThing : hasComplementPrefix owlThing = false := by decide

theorem hasComplementPrefix_owlNothing : hasComplementPrefix owlNothing = false := by decide

/-- Read every complement name as the complement of its class. -/
def complementReading (I : Interp Dom Val) : Interp Dom Val :=
  I.withClasses (fun n => {x | if hasComplementPrefix n then ∀ c, n = complement c → x ∉ I.classes c
      else x ∈ I.classes n})
    (by simp [hasComplementPrefix_owlThing, I.classes_thing])
    (by simp [hasComplementPrefix_owlNothing, I.classes_nothing])

section

variable (I : Interp Dom Val)

theorem complementReading_complement (c : Iri) :
    (complementReading I).classes (complement c) = (I.classes c)ᶜ := by
  ext x
  simp only [complementReading, classes_withClasses, hasComplementPrefix_complement, if_true,
    Set.mem_ofPred_eq, Set.mem_compl_iff]
  constructor
  · exact fun h => h c rfl
  · intro h d hd
    rwa [← complement_injective hd]

theorem complementReading_of_fresh (hc : hasComplementPrefix c = false) :
    (complementReading I).classes c = I.classes c := by
  simp [complementReading, hc]

@[simp] theorem individuals_complementReading :
    (complementReading I).individuals = I.individuals := by
  rw [complementReading, individuals_withClasses]

theorem sameRoles_complementReading : SameRoles I (complementReading I) := by
  intro r x y
  simp [complementReading]

end

/-- The names in use carry no complement prefix. -/
def Fresh (definitions : Definitions) (assertions : List Component) : Prop :=
  ∀ c ∈ usedNames definitions assertions, hasComplementPrefix c = false

section

variable {definitions : Definitions} {assertions : List Component}
variable {c : Iri} {e : ClassExpr} {rank : Iri → ℕ}

section

variable (hf : Fresh definitions assertions)
include hf

theorem Fresh.defined (hc : c ∈ definitions) : hasComplementPrefix c = false := by
  obtain ⟨e, he⟩ := isSome_iff_exists.mp (AList.lookup_isSome.mpr hc)
  refine hf c (mem_append_left _ (mem_flatMap.mpr ⟨⟨c, e⟩, ?_, by simp⟩))
  exact AList.mem_lookup_iff.mp he

theorem Fresh.definition (he : definitions.lookup c = some e) {d : Iri}
    (hd : d ∈ collectClasses e) :
    hasComplementPrefix d = false := by
  refine hf d (mem_append_left _ (mem_flatMap.mpr ⟨⟨c, e⟩, ?_, by simp [hd]⟩))
  exact AList.mem_lookup_iff.mp he

theorem Fresh.assertion {ce : ClassExpr} {i : Individ} (ha : .classAssertion ce i ∈ assertions)
    {d : Iri} (hd : d ∈ collectClasses ce) :
    hasComplementPrefix d = false :=
  hf d (mem_append_right _ (mem_flatMap.mpr ⟨_, ha, hd⟩))

end

/-- A model of the unfolded ontology, axiom by axiom. -/
structure UnfoldedModel (I : Interp Dom Val) (definitions : Definitions)
    (assertions : List Component) : Prop where
  positive : ∀ c e, definitions.lookup c = some e → I.classes c ⊆ I.expr (nnf definitions e false)
  negative : ∀ c e, definitions.lookup c = some e →
    I.classes (complement c) ⊆ I.expr (nnf definitions e true)
  disjoint : ∀ c ∈ definitions, Disjoint (I.classes c) (I.classes (complement c))
  assertion : ∀ a ∈ assertions, I.satisfies (unfoldAssertion definitions a)

theorem ne_complement (hc : hasComplementPrefix c = false) : c ≠ complement c := by
  intro h
  have hp := hasComplementPrefix_complement c
  rw [← h, hc] at hp
  cases hp

theorem isModel_unfolded_iff (I : Interp Dom Val) (hf : Fresh definitions assertions) :
    I.isModel (unfolded definitions assertions) ↔ UnfoldedModel I definitions assertions := by
  have hdisj {c : Iri} (hc : c ∈ definitions) :
      I.satisfies (.disjointClasses [.class c, .class (complement c)]) ↔
        Disjoint (I.classes c) (I.classes (complement c)) := by
    have hne : ClassExpr.class c ≠ .class (complement c) := by
      simpa using ne_complement (hf.defined hc)
    simp [satisfies, dedup_cons_of_notMem, hne, expr_class]
  constructor
  · intro h
    have hent (c : Iri) (e : ClassExpr) (he : definitions.lookup c = some e) (a : Component)
        (ha : a ∈ unfoldDefinition definitions ⟨c, e⟩) : I.satisfies a := by
      refine h a (mem_append_left _ (mem_flatMap.mpr ⟨⟨c, e⟩, ?_, ha⟩))
      exact (mem_orderedEntries _ _ _).mpr (AList.mem_lookup_iff.mp he)
    refine ⟨?_, ?_, ?_, ?_⟩
    · intro c e he
      rw [← expr_class]
      exact hent c e he (.subClassOf (.class c) (nnf definitions e false))
        (by simp [unfoldDefinition])
    · intro c e he
      rw [← expr_class]
      exact hent c e he (.subClassOf (.class (complement c)) (nnf definitions e true))
        (by simp [unfoldDefinition])
    · intro c hc
      obtain ⟨e, he⟩ := isSome_iff_exists.mp (AList.lookup_isSome.mpr hc)
      exact (hdisj hc).mp (hent c e he _ (by simp [unfoldDefinition]))
    · intro a ha
      exact h _ (mem_append_right _ (List.mem_map_of_mem ha))
  · intro h a ha
    rcases mem_append.mp ha with ha | ha
    · obtain ⟨⟨c, e⟩, hmem, ha⟩ := mem_flatMap.mp ha
      have he : definitions.lookup c = some e :=
        AList.mem_lookup_iff.mpr ((mem_orderedEntries _ _ _).mp hmem)
      have hc : c ∈ definitions := AList.lookup_isSome.mp (by simp [he])
      simp only [unfoldDefinition, mem_cons, not_mem_nil, or_false] at ha
      rcases ha with rfl | rfl | rfl
      · simpa [satisfies, expr_class] using h.positive c e he
      · simpa [satisfies, expr_class] using h.negative c e he
      · exact (hdisj hc).mpr (h.disjoint c hc)
    · obtain ⟨b, hb, rfl⟩ := List.mem_map.mp ha
      exact h.assertion b hb

/-- Reading the complement names as complements turns a model of the definitions and
assertions into one of the unfolded ontology. -/
theorem UnfoldedModel.of_holds {I : Interp Dom Val} (hc : Collected (definitions, assertions))
    (hf : Fresh definitions assertions) (h : Holds I (definitions, assertions)) :
    UnfoldedModel (complementReading I) definitions assertions := by
  have hcompl : ∀ c ∈ definitions,
      (complementReading I).classes (complement c) = ((complementReading I).classes c)ᶜ := by
    intro c hmem
    rw [complementReading_complement, complementReading_of_fresh I (hf.defined hmem)]
  have hexpr (ce : ClassExpr) (hsup : isSupported ce = true)
      (hfresh : ∀ d ∈ collectClasses ce, hasComplementPrefix d = false) (x : Dom) :
      x ∈ I.expr ce ↔ x ∈ (complementReading I).expr ce :=
    expr_congr (sameRoles_complementReading I) ce hsup
      (fun d hd => (complementReading_of_fresh I (hfresh d hd)).symm) x
  have hdef (c : Iri) (e : ClassExpr) (he : definitions.lookup c = some e) (x : Dom) :
      x ∈ I.classes c ↔ x ∈ (complementReading I).expr e := by
    rw [h.1 c e he]
    exact hexpr e (hc.supported c e he) (fun d hd => hf.definition he hd) x
  refine ⟨?_, ?_, ?_, ?_⟩
  · intro c e he x hx
    have hmem : c ∈ definitions := AList.lookup_isSome.mp (by simp [he])
    rw [complementReading_of_fresh I (hf.defined hmem), hdef c e he] at hx
    simpa [mem_nnf_iff hcompl e (hc.supported c e he)] using hx
  · intro c e he x hx
    rw [complementReading_complement, Set.mem_compl_iff, hdef c e he] at hx
    simpa [mem_nnf_iff hcompl e (hc.supported c e he)] using hx
  · intro c hmem
    rw [hcompl c hmem]
    exact disjoint_compl_right
  · intro a ha
    rcases hc.assertion a ha with ⟨ce, i, rfl, hsup⟩ | ⟨ope, i, j, rfl⟩
    · have hi : I.individuals i ∈ I.expr ce := h.2 _ ha
      rw [hexpr ce hsup (fun d hd => hf.assertion ha hd)] at hi
      simpa only [unfoldAssertion, satisfies, mem_nnf_iff hcompl ce hsup, polar_false,
        individuals_complementReading] using hi
    · have hr : I.role ope (I.individuals i) (I.individuals j) := h.2 _ ha
      simpa [unfoldAssertion, satisfies, complementReading] using hr

/-! ## From the unfolded ontology to the definitions -/

theorem lookup_of_isBuiltIn (hb : ∀ c ∈ definitions, isBuiltIn c = false)
    (hc : isBuiltIn c = true) :
    definitions.lookup c = none := by
  rw [AList.lookup_eq_none]
  intro hmem
  rw [hb c hmem] at hc
  cases hc

theorem isBuiltIn_owlThing : isBuiltIn owlThing = true := by decide

theorem isBuiltIn_owlNothing : isBuiltIn owlNothing = true := by decide

/-- Read every defined class by its definition in the reading before, starting from `I`. -/
def stage (I : Interp Dom Val) (definitions : Definitions)
    (hb : ∀ c ∈ definitions, isBuiltIn c = false) : ℕ → Interp Dom Val
  | 0 => I
  | k + 1 =>
    I.withClasses (fun n => match definitions.lookup n with
        | some e => (stage I definitions hb k).expr e
        | none => I.classes n)
      (by simp only [lookup_of_isBuiltIn hb isBuiltIn_owlThing, I.classes_thing])
      (by simp only [lookup_of_isBuiltIn hb isBuiltIn_owlNothing, I.classes_nothing])

variable {I : Interp Dom Val} {hb : ∀ c ∈ definitions, isBuiltIn c = false}

variable (k : ℕ)

theorem sameRoles_stage : SameRoles I (stage I definitions hb k) := by
  intro r x y
  cases k <;> simp [stage]

theorem individuals_stage : (stage I definitions hb k).individuals = I.individuals := by
  cases k <;> simp [stage]

theorem stage_of_notMem (hc : c ∉ definitions) :
    (stage I definitions hb k).classes c = I.classes c := by
  cases k with
  | zero => rfl
  | succ k => simp [stage, AList.lookup_eq_none.mpr hc]

theorem stage_succ_of_lookup (he : definitions.lookup c = some e) :
    (stage I definitions hb (k + 1)).classes c = (stage I definitions hb k).expr e := by
  simp [stage, he]

/-- A rank of the defined classes above the defined classes that they use. -/
def Ranks (definitions : Definitions) (rank : Iri → ℕ) : Prop :=
  ∀ c e, definitions.lookup c = some e → ∀ d ∈ collectClasses e, d ∈ definitions → rank d < rank c

/-- The reading of a defined class settles once the stage exceeds its rank. -/
theorem stage_eq_of_rank_lt (hc : Collected (definitions, assertions))
    (hrank : Ranks definitions rank) (n : ℕ) :
    ∀ c ∈ definitions, rank c < n → ∀ j k, rank c < j → rank c < k →
      (stage I definitions hb j).classes c = (stage I definitions hb k).classes c := by
  induction n with
  | zero => intro c _ h; omega
  | succ n ih =>
    intro c hmem hn j k hj hk
    obtain ⟨e, he⟩ := isSome_iff_exists.mp (AList.lookup_isSome.mpr hmem)
    obtain ⟨j, rfl⟩ : ∃ j', j = j' + 1 := ⟨j - 1, by omega⟩
    obtain ⟨k, rfl⟩ : ∃ k', k = k' + 1 := ⟨k - 1, by omega⟩
    rw [stage_succ_of_lookup j he, stage_succ_of_lookup k he]
    have hroles : SameRoles (stage I definitions hb j) (stage I definitions hb k) :=
      fun r x y => (sameRoles_stage j r x y).symm.trans (sameRoles_stage k r x y)
    ext x
    refine expr_congr hroles e (hc.supported c e he) (fun d hd => ?_) x
    by_cases hdm : d ∈ definitions
    · have hlt := hrank c e he d hd hdm
      exact ih d hdm (by omega) j k (by omega) (by omega)
    · rw [stage_of_notMem j hdm, stage_of_notMem k hdm]

/-- Some reading agrees with `I` on everything but the defined classes, and reads those as
their definitions. -/
theorem exists_defined_reading (I : Interp Dom Val) (hc : Collected (definitions, assertions))
    (hrank : Ranks definitions rank) :
    ∃ J : Interp Dom Val, SameRoles I J ∧ J.individuals = I.individuals ∧
      (∀ c, c ∉ definitions → I.classes c = J.classes c) ∧
      ∀ c e, definitions.lookup c = some e → J.classes c = J.expr e := by
  let N := definitions.keys.toFinset.sup rank + 1
  have hN : ∀ c ∈ definitions, rank c < N := fun c hmem =>
    Nat.lt_succ_of_le (Finset.le_sup (List.mem_toFinset.mpr hmem))
  refine ⟨stage I definitions hc.notBuiltIn N, sameRoles_stage N, individuals_stage N,
    fun c hmem => (stage_of_notMem N hmem).symm, fun c e he => ?_⟩
  have hmem : c ∈ definitions := AList.lookup_isSome.mp (by simp [he])
  have hlt := hN c hmem
  rw [stage_eq_of_rank_lt hc hrank N c hmem hlt N (N + 1) hlt (by omega), stage_succ_of_lookup N he]

/-- The reading by definitions contains every defined class of the given model, and avoids
its complement name: by induction on the rank. -/
theorem defined_between {J : Interp Dom Val} (hc : Collected (definitions, assertions))
    (h : UnfoldedModel I definitions assertions) (hrank : Ranks definitions rank)
    (hroles : SameRoles I J) (hprim : ∀ c, c ∉ definitions → I.classes c = J.classes c)
    (hdef : ∀ c e, definitions.lookup c = some e → J.classes c = J.expr e) (n : ℕ) :
    ∀ c ∈ definitions, rank c < n →
      I.classes c ⊆ J.classes c ∧ I.classes (complement c) ⊆ (J.classes c)ᶜ := by
  induction n with
  | zero => intro c _ h; omega
  | succ n ih =>
    intro c hmem hn
    obtain ⟨e, he⟩ := isSome_iff_exists.mp (AList.lookup_isSome.mpr hmem)
    have hused : ∀ d ∈ collectClasses e, d ∈ definitions →
        I.classes d ⊆ J.classes d ∧ I.classes (complement d) ⊆ (J.classes d)ᶜ := by
      intro d hd hdm
      exact ih d hdm (by have := hrank c e he d hd hdm; omega)
    have hpolar := polar_of_mem_nnf hroles e (hc.supported c e he) hprim
      (fun d hd hdm => (hused d hd hdm).1) (fun d hd hdm => (hused d hd hdm).2)
    rw [hdef c e he]
    constructor
    · intro x hx
      simpa using hpolar false x (h.positive c e he hx)
    · intro x hx
      simpa using hpolar true x (h.negative c e he hx)

theorem exists_holds_of_unfoldedModel (hc : Collected (definitions, assertions))
    (hrank : Ranks definitions rank) (h : UnfoldedModel I definitions assertions) :
    ∃ J : Interp Dom Val, Holds J (definitions, assertions) := by
  obtain ⟨J, hroles, hinds, hprim, hdef⟩ := exists_defined_reading I hc hrank
  have hbetween (c : Iri) (hmem : c ∈ definitions) :=
    defined_between hc h hrank hroles hprim hdef (rank c + 1) c hmem (Nat.lt_succ_self _)
  refine ⟨J, hdef, fun a ha => ?_⟩
  have ha' := h.assertion a ha
  rcases hc.assertion a ha with ⟨ce, i, rfl, hsup⟩ | ⟨ope, i, j, rfl⟩
  · simp only [unfoldAssertion, satisfies] at ha' ⊢
    rw [hinds]
    simpa using polar_of_mem_nnf hroles ce hsup hprim (fun d _ hdm => (hbetween d hdm).1)
      (fun d _ hdm => (hbetween d hdm).2) false _ ha'
  · simp only [unfoldAssertion, satisfies] at ha' ⊢
    rw [hinds]
    exact (hroles ope _ _).mp ha'

theorem mem_usedDefinitions (he : definitions.lookup c = some e) (d : Iri) :
    d ∈ usedDefinitions definitions c ↔ d ∈ collectClasses e ∧ d ∈ definitions := by
  simp [usedDefinitions, he]

theorem mem_orderedKeys (c : Iri) :
    c ∈ (orderedEntries (· ≤ ·) definitions).map (·.1) ↔ c ∈ definitions := by
  rw [AList.mem_keys, AList.keys, List.keys]
  simp

/-- The acyclicity test always answers: the definitions are closed under use, so one nested
call for each of them is enough. -/
theorem visitDefinitions_isSome (definitions : Definitions) :
    (visitDefinitions definitions).isSome = true := by
  rw [isSome_iff_exists]
  refine DepthFirst.exists_visitAll_eq_some _ ?_ _
  intro c hc d hd
  obtain ⟨e, he⟩ := isSome_iff_exists.mp (AList.lookup_isSome.mpr ((mem_orderedKeys c).mp hc))
  exact (mem_orderedKeys d).mpr ((mem_usedDefinitions he d).mp hd).2

theorem exists_ranks_of_isAcyclic (h : isAcyclic definitions = true) :
    ∃ rank, Ranks definitions rank := by
  unfold isAcyclic at h
  split at h
  · rename_i state hvis
    subst h
    obtain ⟨rank, hrank⟩ := DepthFirst.exists_rank_of_visitAll _ _ hvis
    refine ⟨rank, fun c e he d hd hdm => hrank c ?_ d ((mem_usedDefinitions he d).mpr ⟨hd, hdm⟩)⟩
    exact (mem_orderedKeys c).mpr (AList.lookup_isSome.mp (by simp [he]))
  · cases h

end

/-- What a successful run has checked. -/
theorem unfoldDefinitions_eq_some {ontology result : List Component}
    (h : unfoldDefinitions ontology = some result) :
    ∃ definitions assertions,
      ontology.foldlM visitComponent ((∅ : Definitions), []) = some (definitions, assertions) ∧
      isAcyclic definitions = true ∧ Fresh definitions assertions ∧
      result = unfolded definitions assertions := by
  unfold unfoldDefinitions at h
  split at h
  · cases h
  · rename_i definitions assertions hfold
    split at h
    · cases h
    · rename_i hacyclic
      split at h
      · cases h
      · rename_i hfresh
        simp only [Bool.or_eq_true, Bool.not_eq_true', not_or, Bool.not_eq_false] at hacyclic
        refine ⟨definitions, assertions, hfold, hacyclic.2, ?_, by simpa using h.symm⟩
        simpa [Fresh, List.any_eq_true] using hfresh

/-- Inclusions, disjoint classes and assertions. -/
def IsUnfoldedAxiom : Component → Prop
  | .subClassOf _ _ | .disjointClasses _ | .classAssertion _ _ | .objectPropertyAssertion _ _ _ =>
    True
  | _ => False

theorem Collected.isUnfoldedAxiom (hc : Collected (definitions, assertions)) {a : Component}
    (ha : a ∈ unfolded definitions assertions) : IsUnfoldedAxiom a := by
  rcases mem_append.mp ha with ha | ha
  · obtain ⟨entry, -, ha⟩ := mem_flatMap.mp ha
    simp only [unfoldDefinition, mem_cons, not_mem_nil, or_false] at ha
    rcases ha with rfl | rfl | rfl <;> trivial
  · obtain ⟨b, hb, rfl⟩ := mem_map.mp ha
    rcases hc.assertion b hb with ⟨ce, i, rfl, -⟩ | ⟨ope, i, j, rfl⟩ <;> trivial

/-- Unfolding keeps satisfiability in both directions. -/
theorem satisfiable_unfoldDefinitions_iff (ontology result : List Component)
    (h : unfoldDefinitions ontology = some result) :
    (∀ c ∈ result, IsUnfoldedAxiom c) ∧
      (Satisfiable.{u, v} result ↔ Satisfiable.{u, v} ontology) := by
  obtain ⟨definitions, assertions, hfold, hacyclic, hfresh, rfl⟩ := unfoldDefinitions_eq_some h
  refine ⟨fun c hmem =>
    (foldlM_visitComponent Unit Unit collected_empty hfold).1.isUnfoldedAxiom hmem, ?_⟩
  have hemp {Dom : Type u} {Val : Type v} (I : Interp Dom Val) : Holds I (∅, []) :=
    ⟨fun c e h => by simp at h, by simp [isModel]⟩
  constructor
  · rintro ⟨Dom, Val, I, hI⟩
    obtain ⟨hc, hiff⟩ := foldlM_visitComponent Dom Val collected_empty hfold
    obtain ⟨rank, hrank⟩ := exists_ranks_of_isAcyclic hacyclic
    obtain ⟨J, hJ⟩ := exists_holds_of_unfoldedModel hc hrank ((isModel_unfolded_iff I hfresh).mp hI)
    exact ⟨Dom, Val, J, ((hiff J).mp hJ).2⟩
  · rintro ⟨Dom, Val, I, hI⟩
    obtain ⟨hc, hiff⟩ := foldlM_visitComponent Dom Val collected_empty hfold
    have hholds := (hiff I).mpr ⟨hemp I, hI⟩
    exact ⟨Dom, Val, complementReading I,
      (isModel_unfolded_iff _ hfresh).mpr (.of_holds hc hfresh hholds)⟩

/-- `A ≡ ¬B`, `B ≡ ∃R.C` and `A(a)`: the complement name of `B` is used. -/
theorem satisfiable_unfoldDefinitions_nested :
    ∃ result, unfoldDefinitions [.equivalentClasses [.class "A", .objectComplementOf (.class "B")],
          .equivalentClasses [.class "B", .objectSomeValuesFrom (.objectProperty "R") (.class "C")],
          .classAssertion (.class "A") (.named "a")] = some result ∧
      (∀ c ∈ result, IsUnfoldedAxiom c) ∧ (Satisfiable.{0, 0} result ↔ Satisfiable.{0, 0}
        [.equivalentClasses [.class "A", .objectComplementOf (.class "B")],
          .equivalentClasses [.class "B", .objectSomeValuesFrom (.objectProperty "R") (.class "C")],
          .classAssertion (.class "A") (.named "a")]) :=
  ⟨[.subClassOf (.class "A") (.class (complement "B")),
      .subClassOf (.class (complement "A")) (.class "B"),
      .disjointClasses [.class "A", .class (complement "A")],
      .subClassOf (.class "B") (.objectSomeValuesFrom (.objectProperty "R") (.class "C")),
      .subClassOf (.class (complement "B"))
        (.objectAllValuesFrom (.objectProperty "R") (.objectComplementOf (.class "C"))),
      .disjointClasses [.class "B", .class (complement "B")],
      .classAssertion (.class "A") (.named "a")],
    by rfl, satisfiable_unfoldDefinitions_iff _ _ (by rfl)⟩

end Hermit.DefinitorialUnfolding
