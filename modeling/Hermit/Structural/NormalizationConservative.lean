import Hermit.Structural.NormalizationInclusions
import Hermit.Structural.StructuralOrder

/-! # Normalisation is a conservative extension

Every class axiom and class assertion is recorded faithfully, and so the normalised
inclusions and facts have the models of the ontology, up to the choice of a meaning
for the fresh names.
-/

namespace Hermit

open List hiding Disjoint
open Interp OwlNormalization

variable {Dom Val : Type*}

/-- The class axioms and class assertions over object class expressions. -/
def IsObjectClassAxiom (q : Iri → Prop) : Component → Prop
  | .subClassOf sub sup => ObjectOver q sub ∧ ObjectOver q sup
  | .equivalentClasses operands => ∀ d ∈ operands, ObjectOver q d
  | .disjointClasses operands => ∀ d ∈ operands, ObjectOver q d
  | .disjointUnion c operands => q c ∧ ∀ d ∈ operands, ObjectOver q d
  | .objectPropertyDomain _ ce => ObjectOver q ce
  | .objectPropertyRange _ ce => ObjectOver q ce
  | .functionalObjectProperty _ => True
  | .inverseFunctionalObjectProperty _ => True
  | .classAssertion ce _ => ObjectOver q ce
  | _ => False

/-- An axiom over the names on which two interpretations agree holds in both or in neither. -/
theorem Interp.AgreeOn.satisfies {I J : Interp Dom Val} {q : Iri → Prop} (h : I.AgreeOn J q)
    {c : Component} (hc : IsObjectClassAxiom q c) : I.satisfies c ↔ J.satisfies c := by
  have hexpr : ∀ {d}, ObjectOver q d → I.expr d = J.expr d := fun hd => Set.ext (h.mem_expr hd)
  cases c with
  | subClassOf sub sup => simp only [Interp.satisfies, hexpr hc.1, hexpr hc.2]
  | equivalentClasses operands =>
    refine forall₂_congr fun c hcmem => forall₂_congr fun d hdmem => ?_
    rw [hexpr (hc c hcmem), hexpr (hc d hdmem)]
  | disjointClasses operands =>
    refine List.Pairwise.iff_of_mem fun hcmem hdmem => ?_
    rw [hexpr (hc _ (mem_dedup.mp hcmem)), hexpr (hc _ (mem_dedup.mp hdmem))]
  | disjointUnion c operands =>
    refine and_congr ?_ (List.Pairwise.iff_of_mem fun hcmem hdmem => ?_)
    · rw [h.classes c hc.1, hexpr ((objectOver_union q operands).mpr hc.2)]
    · rw [hexpr (hc.2 _ (mem_dedup.mp hcmem)), hexpr (hc.2 _ (mem_dedup.mp hdmem))]
  | objectPropertyDomain ope ce | objectPropertyRange ope ce =>
    simp only [Interp.satisfies, h.role, hexpr hc]
  | functionalObjectProperty ope | inverseFunctionalObjectProperty ope =>
    simp only [Interp.satisfies, h.role]
  | classAssertion ce i => simp only [Interp.satisfies, h.individuals, hexpr hc]
  | _ => exact hc.elim

/-! ## The meaning of the recorded inclusions -/

namespace Normalizer

variable (order : ExpressionOrder) {q : Iri → Prop} (J : Interp Dom Val)
variable {c d : ClassExpr} {operands : List ClassExpr}

theorem covers_negative_positive (hc : ObjectOver q c) (hd : ObjectOver q d) :
    J.covers [order.negative c, order.positive d] ↔ J.expr c ⊆ J.expr d := by
  rw [covers_pair]
  refine forall_congr' fun x => ?_
  rw [mem_expr_negative order J hc, mem_expr_positive order J hd, or_iff_not_imp_left, not_not]

theorem covers_complements (hc : ObjectOver q c) (hd : ObjectOver q d) :
    J.covers [order.getComplementNnf c, order.getComplementNnf d] ↔
      Disjoint (J.expr c) (J.expr d) := by
  rw [covers_pair, Set.disjoint_left]
  refine forall_congr' fun x => ?_
  rw [order.mem_expr_getComplementNnf J hc.isCountable,
    order.mem_expr_getComplementNnf J hd.isCountable, or_iff_not_imp_left, not_not]

theorem forall_mem_laterPairs {α : Type*} {R : α → α → Prop} (l : List α) :
    (∀ w ∈ laterPairs l, R w.1 w.2) ↔ l.Pairwise R := by
  induction l with
  | nil => simp [laterPairs]
  | cons a l ih =>
    simp only [laterPairs, mem_append, mem_map, or_imp, forall_and, pairwise_cons,
      forall_exists_index, and_imp, forall_apply_eq_imp_iff₂, ih]

/-- A chain of inclusions that closes makes all its sets equal. -/
theorem eq_of_isChain_subset {α : Type*} {first : Set α} {sets : List (Set α)}
    (hchain : (first :: sets).IsChain (· ⊆ ·))
    (hclose : (first :: sets).getLast (by simp) ⊆ first) :
    ∀ a ∈ first :: sets, a = first := by
  have hpair : (first :: sets).Pairwise (· ⊆ ·) := isChain_iff_pairwise.mp hchain
  have hlast : ∀ a ∈ first :: sets, a ⊆ (first :: sets).getLast (by simp) := by
    have hspl := dropLast_append_getLast (show first :: sets ≠ [] by simp)
    rw [← hspl, pairwise_append] at hpair
    intro a ha
    rw [← hspl, mem_append, mem_singleton] at ha
    rcases ha with ha | rfl
    · exact hpair.2.2 a ha _ (by simp)
    · exact subset_rfl
  intro a ha
  apply subset_antisymm ((hlast a ha).trans hclose)
  rcases mem_cons.mp ha with rfl | hmem
  · exact subset_rfl
  · exact (pairwise_cons.mp hpair).1 a hmem

theorem covers_equivalenceCycle (hover : ∀ d ∈ operands, ObjectOver q d) :
    (∀ e ∈ equivalenceCycle order operands, J.covers e) ↔
      ∀ c ∈ operands, ∀ d ∈ operands, J.expr c = J.expr d := by
  match operands, hover with
  | [], _ => simp [equivalenceCycle]
  | [c], _ => simp [equivalenceCycle]
  | first :: second :: rest, hover =>
    have hzip : (∀ w ∈ (first :: second :: rest).zip (second :: rest),
        J.covers [order.negative w.1, order.positive w.2]) ↔
          ((first :: second :: rest).map J.expr).IsChain (· ⊆ ·) := by
      rw [← Library.forall_zip_tail]
      refine forall₂_congr fun w hw => ?_
      exact covers_negative_positive order J (hover _ (of_mem_zip hw).1)
        (hover _ (mem_cons_of_mem _ (of_mem_zip hw).2))
    have hlast := covers_negative_positive order J
      (hover ((first :: second :: rest).getLast (by simp)) (getLast_mem _))
      (hover first (by simp))
    simp only [equivalenceCycle, mem_append, mem_map, mem_singleton, or_imp,
      forall_and, forall_exists_index, and_imp, forall_apply_eq_imp_iff₂, forall_eq, tail_cons]
    rw [hzip, hlast]
    constructor
    · rintro ⟨hchain, hclose⟩ c hc d hd
      have hclose' : ((first :: second :: rest).map J.expr).getLast (by simp) ⊆ J.expr first := by
        rw [getLast_map]
        exact hclose
      have hall : ∀ a ∈ (first :: second :: rest).map J.expr, a = J.expr first :=
        eq_of_isChain_subset hchain hclose'
      rw [hall (J.expr c) (mem_map_of_mem hc), hall (J.expr d) (mem_map_of_mem hd)]
    · intro hall
      refine ⟨isChain_iff_pairwise.mpr (pairwise_map.mpr ?_), ?_⟩
      · exact pairwise_of_forall_mem_list fun c hc d hd => (hall c hc d hd).le
      · exact (hall _ (getLast_mem _) first (by simp)).le

theorem covers_disjointnessInclusions (hover : ∀ d ∈ operands, ObjectOver q d) :
    (∀ e ∈ disjointnessInclusions order operands, J.covers e) ↔
      operands.Pairwise fun c d => Disjoint (J.expr c) (J.expr d) := by
  simp only [disjointnessInclusions, mem_map, forall_exists_index, and_imp,
    forall_apply_eq_imp_iff₂]
  rw [forall_mem_laterPairs (R := fun c d => J.covers [c, d]), pairwise_map]
  refine List.Pairwise.iff_of_mem fun hc hd => ?_
  exact covers_complements order J (hover _ hc) (hover _ hd)

theorem perm_canonical_dedup (operands : List ClassExpr) :
    (order.canonical operands).Perm operands.dedup := by
  have hnd : (order.canonical operands).Nodup :=
    nodup_sortDedup _ order.classLE_total order.classLE_trans order.classLE_antisymm operands
  rw [perm_ext_iff_of_nodup hnd operands.nodup_dedup]
  simp

theorem pairwise_canonical {R : ClassExpr → ClassExpr → Prop} (hsymm : ∀ c d, R c d → R d c)
    (operands : List ClassExpr) :
    (order.canonical operands).Pairwise R ↔ operands.dedup.Pairwise R :=
  (perm_canonical_dedup order operands).pairwise_iff (hsymm _ _)

/-! ## Visiting -/

variable {order} {index : ℕ} {input : List Component} {s s' : Normalizer}

/-- An axiom recorded by inclusions that hold exactly where the axiom does. -/
theorem Faithful.visit_inclusions (h : s.Faithful Dom Val index input [])
    {c : Component} {pushed : List (List ClassExpr)}
    (hc : IsObjectClassAxiom (fun n => ¬ IsFresh index n) c)
    (hpush : ∀ p ∈ pushed, ∀ d ∈ p, ObjectOver s.Known d)
    (hmeans : ∀ J : Interp Dom Val, (∀ p ∈ pushed, J.covers p) ↔ J.satisfies c) :
    (s.record pushed [] []).Faithful Dom Val index (input ++ [c]) [] := by
  refine h.visit hpush (by simp) (fun I J hIJ _ hI => ⟨?_, by simp⟩) fun J hp _ _ => ?_
  · exact (hmeans J).mpr ((hIJ.satisfies hc).mp hI)
  · exact (hmeans J).mp hp

theorem Faithful.visitClassAssertion (h : s.Faithful Dom Val index input []) {ce : ClassExpr}
    (hce : ObjectOver (fun n => ¬ IsFresh index n) ce) (i : Individ) :
    (s.visitClassAssertion order i ce).Faithful Dom Val index
    (input ++ [.classAssertion ce i]) [] := by
  have hpos : ObjectOver s.Known (order.positive ce) :=
    objectOver_positive order s.known_thing s.known_nothing
      (hce.mono fun c hc => known_of_not_isFresh h.index_eq hc)
  have hmeans : ∀ (J : Interp Dom Val) x, x ∈ J.expr (order.positive ce) ↔ x ∈ J.expr ce :=
    fun J => mem_expr_positive order J hce
  have hcase : s.visitClassAssertion order i ce =
      if isSimple (order.positive ce) then s.addFact (.classAssertion (order.positive ce) i)
      else (s.define order (order.positive ce)).2.addFact
        (.classAssertion (s.define order (order.positive ce)).1 i) := by
    unfold Normalizer.visitClassAssertion
    split
    · exact hce.elim
    · exact hce.elim
    · rfl
  rw [hcase]
  split_ifs
  · rw [addFact_eq]
    refine h.visit (by simp) ?_ ?_ ?_
    · simpa using hpos
    · intro I J hIJ _ hI
      refine ⟨by simp, ?_⟩
      simp only [mem_singleton, forall_eq, fact, hmeans J, ← hIJ.individuals]
      exact (hIJ.mem_expr hce _).mp hI
    · intro J _ hfacts _
      have hfact := hfacts _ (mem_singleton_self _)
      exact (hmeans J _).mp hfact
  · obtain ⟨-, hfaith, hlook⟩ := h.define order hpos
    rw [addFact_eq]
    refine hfaith.visit (by simp) ?_ ?_ ?_
    · simpa using (hfaith.wellFormed.definitions _ _ hlook).2.1
    · intro I J hIJ hJ hI
      refine ⟨by simp, ?_⟩
      simp only [mem_singleton, forall_eq, fact, hJ.definitions _ _ hlook, hmeans J,
        ← hIJ.individuals]
      exact (hIJ.mem_expr hce _).mp hI
    · intro J _ hfacts hdef
      have hfact := hfacts _ (mem_singleton_self _)
      exact (hmeans J _).mp (hdef _ _ _ hlook le_rfl _ hfact)

variable {P : ClassExpr → Prop}

theorem forall_mem_equivalenceCycle (hneg : ∀ d ∈ operands, P (order.negative d))
    (hpos : ∀ d ∈ operands, P (order.positive d)) :
    ∀ e ∈ equivalenceCycle order operands, ∀ d ∈ e, P d := by
  match operands, hneg, hpos with
  | [], _, _ => simp [equivalenceCycle]
  | [c], _, _ => simp [equivalenceCycle]
  | first :: second :: rest, hneg, hpos =>
    intro e he
    simp only [equivalenceCycle, tail_cons, mem_append, mem_map, mem_singleton] at he
    rcases he with ⟨w, hw, rfl⟩ | rfl
    · have hmem := of_mem_zip hw
      simpa using ⟨hneg _ hmem.1, hpos _ (mem_cons_of_mem _ hmem.2)⟩
    · have hlast := hneg ((first :: second :: rest).getLast (by simp)) (getLast_mem _)
      simpa using ⟨hlast, hpos first (by simp)⟩

theorem forall_mem_disjointnessInclusions (hcompl : ∀ d ∈ operands, P (order.getComplementNnf d)) :
    ∀ e ∈ disjointnessInclusions order operands, ∀ d ∈ e, P d := by
  have hmem : ∀ c ∈ operands.map order.getComplementNnf, P c := by simpa using hcompl
  intro e he
  obtain ⟨w, hw, rfl⟩ := mem_map.mp he
  obtain ⟨hfst, hsnd⟩ := mem_of_mem_laterPairs hw
  simpa using ⟨hmem _ hfst, hmem _ hsnd⟩

theorem covers_disjointUnion {c : Iri} (hc : q c) (hover : ∀ d ∈ operands, ObjectOver q d) :
    (J.covers (order.canonical (operands ++ [order.getComplementNnf (.class c)])) ∧
      ∀ e ∈ operands.map (fun d => [order.negative d, .class c]), J.covers e) ↔
      J.classes c = J.expr (.objectUnionOf operands) := by
  have hcls : ObjectOver q (.class c) := hc
  have hup : J.covers (order.canonical (operands ++ [order.getComplementNnf (.class c)])) ↔
      J.classes c ⊆ J.expr (.objectUnionOf operands) := by
    refine forall_congr' fun x => ?_
    simp only [ExpressionOrder.mem_canonical, mem_append, mem_singleton, or_and_right,
      exists_or, exists_eq_left, order.mem_expr_getComplementNnf J hcls.isCountable,
      mem_expr_union, mem_expr_class]
    rw [or_comm, or_iff_not_imp_left, not_not]
  have hdown : (∀ e ∈ operands.map (fun d => [order.negative d, .class c]), J.covers e) ↔
      J.expr (.objectUnionOf operands) ⊆ J.classes c := by
    simp only [mem_map, forall_exists_index, and_imp, forall_apply_eq_imp_iff₂, covers_pair]
    constructor
    · intro hall x hx
      obtain ⟨d, hd, hx⟩ := (J.mem_expr_union operands x).mp hx
      refine (hall d hd x).resolve_left ?_
      rwa [mem_expr_negative order J (hover d hd), not_not]
    · intro hsub d hd x
      rw [mem_expr_negative order J (hover d hd), or_iff_not_imp_left, not_not]
      exact fun hx => hsub ((J.mem_expr_union operands x).mpr ⟨d, hd, hx⟩)
  rw [hup, hdown, subset_antisymm_iff]

theorem covers_domain {ope : ObjectPropExpr} {ce : ClassExpr} (hce : ObjectOver q ce) :
    J.covers [order.positive ce, .objectAllValuesFrom ope (.class owlNothing)] ↔
      J.satisfies (.objectPropertyDomain ope ce) := by
  simp only [covers_pair, mem_expr_positive order J hce, mem_expr_all,
    notMem_expr_nothing, imp_false, satisfies]
  refine forall_congr' fun x => ?_
  rw [or_comm, or_iff_not_imp_left]
  push Not
  exact forall_exists_index

theorem covers_functional (ope : ObjectPropExpr) :
    J.covers [.objectMaxCardinality 1 ope (.class owlThing)] ↔
      J.satisfies (.functionalObjectProperty ope) := by
  simp only [covers, mem_singleton, exists_eq_left, mem_expr_max,
    mem_expr_thing, and_true, Nat.cast_one, Set.encard_le_one_iff, Set.mem_ofPred_eq,
    satisfies]

theorem objectOver_pair (hc : ObjectOver q c) (hd : ObjectOver q d) :
    ∀ e ∈ [c, d], ObjectOver q e := by
  simpa using ⟨hc, hd⟩

/-- Visiting a class axiom or a class assertion keeps the state faithful. -/
theorem Faithful.visitAxiom (h : s.Faithful Dom Val index input []) {c : Component}
    (hc : IsObjectClassAxiom (fun n => ¬ IsFresh index n) c) (hok : s.visitAxiom order c = .ok s') :
    s'.Faithful Dom Val index (input ++ [c]) [] := by
  have hknown : ∀ {d}, ObjectOver (fun n => ¬ IsFresh index n) d → ObjectOver s.Known d :=
    fun hd => hd.mono fun _ hn => known_of_not_isFresh h.index_eq hn
  have hpos : ∀ {d}, ObjectOver (fun n => ¬ IsFresh index n) d →
      ObjectOver s.Known (order.positive d) :=
    fun hd => objectOver_positive order s.known_thing s.known_nothing (hknown hd)
  have hneg : ∀ {d}, ObjectOver (fun n => ¬ IsFresh index n) d →
      ObjectOver s.Known (order.negative d) :=
    fun hd => objectOver_negative order s.known_thing s.known_nothing (hknown hd)
  have hcompl : ∀ {d}, ObjectOver (fun n => ¬ IsFresh index n) d →
      ObjectOver s.Known (order.getComplementNnf d) :=
    fun hd => objectOver_getComplementNnf order s.known_thing s.known_nothing (hknown hd)
  cases c with
  | subClassOf sub sup =>
    cases hok
    rw [pushInclusion_eq]
    refine h.visit_inclusions hc ?_ fun J => ?_
    · simpa using ⟨hneg hc.1, hpos hc.2⟩
    · simpa [satisfies] using covers_negative_positive order J hc.1 hc.2
  | equivalentClasses operands =>
    cases hok
    rw [pushInclusions_eq]
    have hover : ∀ d ∈ order.canonical operands, ObjectOver (fun n => ¬ IsFresh index n) d :=
      fun d hd => hc d ((order.mem_canonical _ _).mp hd)
    refine h.visit_inclusions hc ?_ fun J => ?_
    · exact forall_mem_equivalenceCycle (fun d hd => hneg (hover d hd))
        fun d hd => hpos (hover d hd)
    · rw [covers_equivalenceCycle order J hover]
      simp [satisfies]
  | disjointClasses operands =>
    simp only [Normalizer.visitAxiom] at hok
    split_ifs at hok
    cases hok
    rw [pushInclusions_eq]
    have hover : ∀ d ∈ order.canonical operands, ObjectOver (fun n => ¬ IsFresh index n) d :=
      fun d hd => hc d ((order.mem_canonical _ _).mp hd)
    refine h.visit_inclusions hc ?_ fun J => ?_
    · exact forall_mem_disjointnessInclusions fun d hd => hcompl (hover d hd)
    · rw [covers_disjointnessInclusions order J hover]
      exact pairwise_canonical order (fun _ _ hdisj => hdisj.symm) operands
  | disjointUnion c operands =>
    cases hok
    rw [pushInclusion_eq, pushInclusions_eq, pushInclusions_eq, record_record, record_record]
    have hover : ∀ d ∈ order.canonical operands, ObjectOver (fun n => ¬ IsFresh index n) d :=
      fun d hd => hc.2 d ((order.mem_canonical _ _).mp hd)
    refine h.visit_inclusions hc ?_ fun J => ?_
    · simp only [mem_append, mem_singleton, or_imp, forall_and, forall_eq]
      refine ⟨?_, ?_, forall_mem_disjointnessInclusions fun d hd => hcompl (hover d hd)⟩
      · intro d hd
        rw [order.mem_canonical, mem_append, mem_singleton] at hd
        rcases hd with hd | rfl
        · exact hknown (hc.2 d hd)
        · exact hcompl hc.1
      · intro p hp
        obtain ⟨d, hd, rfl⟩ := mem_map.mp hp
        exact objectOver_pair (hneg (hc.2 d hd)) (hknown hc.1)
    · simp only [mem_append, mem_singleton, or_imp, forall_and, forall_eq]
      rw [covers_disjointnessInclusions order J hover,
        pairwise_canonical order (fun _ _ hdisj => hdisj.symm) operands, ← and_assoc,
        covers_disjointUnion J hc.1 hc.2]
      rfl
  | objectPropertyDomain ope ce =>
    cases hok
    apply Faithful.noteObjectProperty
    rw [pushInclusion_eq]
    refine h.visit_inclusions hc ?_ fun J => ?_
    · simpa [ObjectOver] using ⟨hpos hc, s.known_nothing⟩
    · simpa using covers_domain J hc
  | objectPropertyRange ope ce =>
    cases hok
    rw [pushInclusion_eq]
    refine h.visit_inclusions hc ?_ fun J => ?_
    · simpa [ObjectOver] using hpos hc
    · simp [covers, mem_expr_positive order J hc, satisfies]
  | functionalObjectProperty ope =>
    cases hok
    apply Faithful.noteObjectProperty
    rw [pushInclusion_eq]
    refine h.visit_inclusions hc ?_ fun J => ?_
    · simpa [ObjectOver] using ⟨by decide, s.known_thing⟩
    · simpa using covers_functional J ope
  | inverseFunctionalObjectProperty ope =>
    cases hok
    apply Faithful.noteObjectProperty
    rw [pushInclusion_eq]
    refine h.visit_inclusions hc ?_ fun J => ?_
    · simpa [ObjectOver] using ⟨by decide, s.known_thing⟩
    · have hfunctional := covers_functional J (inverseProperty ope)
      simpa [satisfies, role_inverseProperty] using hfunctional
  | classAssertion ce i =>
    cases hok
    exact h.visitClassAssertion hc i
  | _ => exact hc.elim

theorem Faithful.visitAxioms {components : List Component} (h : s.Faithful Dom Val index input [])
    (hc : ∀ c ∈ components, IsObjectClassAxiom (fun n => ¬ IsFresh index n) c)
    (hok : components.foldlM (fun s c => s.visitAxiom order c) s = .ok s') :
    s'.Faithful Dom Val index (input ++ components) [] := by
  induction components generalizing s input with
  | nil =>
    cases hok
    simpa using h
  | cons c components ih =>
    simp only [foldlM_cons, bind, Except.bind] at hok
    split at hok
    · cases hok
    · next s₁ hvis =>
      have hrest := ih (h.visitAxiom (hc c (by simp)) hvis) (fun d hd => hc d (by simp [hd])) hok
      simpa using hrest

theorem faithful_new (datatypes : List Iri) (index : ℕ) : Faithful Dom Val index [] []
      { toOwlNormalization := .new { definedDatatypeIris := datatypes } index
        toAxiomState := {} } := by
  constructor
  case index_eq => rfl
  case wellFormed => constructor <;> simp [new]
  case complete =>
    intro I _
    refine ⟨I, .refl I _, ⟨?_, ?_⟩, ?_, ?_, ?_⟩ <;> simp [new]
  case grounded =>
    intro J w _ _ d e hd
    simp [new] at hd
  case sound =>
    intro J _ _ _ c hc
    simp at hc

end Normalizer

theorem Normalizer.normalizeRules_of_noRules (order : ExpressionOrder) (fuel : ℕ) {s : Normalizer}
    (h : s.rules = []) : s.normalizeRules order fuel = .ok s := by
  rw [normalizeRules, h]
  obtain ⟨_, ⟨_, _, _⟩⟩ := s
  cases h
  rfl

/-- The final state of a run over class axioms and class assertions. -/
theorem exists_faithful_of_processAxioms {order : ExpressionOrder} {fuel index : ℕ}
    {datatypes : List Iri} {ontology : List Component}
    (hont : ∀ c ∈ ontology, IsObjectClassAxiom (fun n => ¬ IsFresh index n) c)
    {result : OwlNormalization}
    (hok : (new { definedDatatypeIris := datatypes } index).processAxioms order
      fuel ontology = .ok result) :
    ∃ s : Normalizer, s.Faithful Dom Val index ontology [] ∧ s.classExpressionInclusions = [] ∧
      s.toOwlNormalization = result := by
  simp only [processAxioms, bind, Except.bind] at hok
  split at hok
  · cases hok
  · next s₁ hvis =>
    have hfaith : s₁.Faithful Dom Val index ([] ++ ontology) [] :=
      (Normalizer.faithful_new datatypes index).visitAxioms hont hvis
    rw [Normalizer.normalizeRules_of_noRules order fuel hfaith.wellFormed.noRules] at hok
    dsimp only at hok
    split at hok
    · cases hok
    · next s₂ hnormalize =>
      cases hok
      obtain ⟨hfaith', hemp⟩ := hfaith.normalizeInclusions fuel hnormalize
      exact ⟨s₂, hfaith', hemp, rfl⟩

/-- Class axioms and class assertions over object class expressions are normalised into
inclusions and facts with the same models: a model of the ontology becomes one of them by a
choice for the fresh names alone, and a model of them is one of the ontology.  The inclusions are
in normal form. -/
theorem processAxioms_conservative (order : ExpressionOrder) (fuel index : ℕ)
    (datatypes : List Iri) (ontology : List Component)
    (hont : ∀ c ∈ ontology, IsObjectClassAxiom (fun n => ¬ IsFresh index n) c)
    (result : OwlNormalization)
    (hok : (OwlNormalization.new { definedDatatypeIris := datatypes } index).processAxioms order
      fuel ontology = .ok result) :
    (∀ I : Interp Dom Val, I.isModel ontology →
      ∃ J, I.AgreeOn J (fun n => ¬ IsFresh index n) ∧ J.Emitted result.axioms) ∧
    (∀ J : Interp Dom Val, J.Emitted result.axioms → J.isModel ontology) ∧
    ∀ e ∈ result.axioms.conceptInclusions, ∀ d ∈ e,
      isNormalDisjunct d ∧ ObjectOver (fun _ => True) d := by
  obtain ⟨s, h, hemp, rfl⟩ : ∃ s : Normalizer, s.Faithful Dom Val index ontology [] ∧
      s.classExpressionInclusions = [] ∧ s.toOwlNormalization = result :=
    exists_faithful_of_processAxioms hont hok
  have hnone : ∀ e, ¬ (e ∈ [] ∨ e ∈ s.classExpressionInclusions) := by simp [hemp]
  refine ⟨fun I hI => ?_, fun J hJ => ?_, fun e he d hd => ?_⟩
  · obtain ⟨J, hIJ, hJ⟩ := h.complete I hI
    exact ⟨J, hIJ, hJ.emitted⟩
  · have hdef : ∀ w, J.DefinedUpTo s w := fun w => h.grounded J w hJ fun e he => (hnone e he).elim
    exact h.sound J hJ (fun e he => (hnone e he).elim) hdef
  · exact ⟨h.wellFormed.normal e he d hd, (h.wellFormed.concepts e he d hd).mono fun _ _ => trivial⟩

theorem not_isFresh {index : ℕ} {c : Iri} (h : "internal:".toList ≠ c.toList.take 9) :
    ¬ IsFresh index c := by
  rintro (⟨n, rfl⟩ | ⟨n, rfl⟩)
  · simp [definitionName] at h
  · simp [negativeNominalName] at h

theorem exists_eq_ok_of_isOk {ε α : Type*} {e : Except ε α} (h : e.isOk) : ∃ a, e = .ok a := by
  cases e with
  | error _ => cases h
  | ok a => exact ⟨a, rfl⟩

/-- A parent has a child that is a person and young; `b` is a parent, is not `a` or likes one. -/
def parents : List Component :=
  [.subClassOf (.class "Parent")
      (.objectSomeValuesFrom (.objectProperty "child")
        (.objectIntersectionOf [.class "Person", .class "Young"])),
    .classAssertion
      (.objectUnionOf [.class "Parent", .objectComplementOf (.objectOneOf [.named "a"]),
        .objectSomeValuesFrom (.objectProperty "likes") (.class "Person")]) (.named "b")]

theorem processAxioms_conservative_parents :
    ∃ result, (new {} 0).processAxioms structuralOrder 20 parents = .ok result ∧
      (∀ I : Interp Unit Unit, I.isModel parents →
        ∃ J, I.AgreeOn J (fun n => ¬ IsFresh 0 n) ∧ J.Emitted result.axioms) ∧
      (∀ J : Interp Unit Unit, J.Emitted result.axioms → J.isModel parents) ∧
      ∀ e ∈ result.axioms.conceptInclusions, ∀ d ∈ e,
        isNormalDisjunct d ∧ ObjectOver (fun _ => True) d := by
  obtain ⟨result, hok⟩ := exists_eq_ok_of_isOk (show
    ((new {} 0).processAxioms structuralOrder 20 parents).isOk from by
      decide +kernel)
  refine ⟨result, hok, processAxioms_conservative structuralOrder 20 0 [] parents ?_ result hok⟩
  have hnames : ∀ c ∈ ["Parent", "Person", "Young"], ¬ IsFresh 0 c := by
    intro c hc
    apply not_isFresh
    revert c
    decide
  simp only [mem_cons, not_mem_nil, or_false, forall_eq_or_imp, forall_eq] at hnames
  simp [parents, IsObjectClassAxiom, ObjectOver, ObjectOver.allOver, hnames]

def isNegatedSelf : ClassExpr → Bool
  | .objectComplementOf (.objectHasSelf _) => true
  | _ => false

/-- Everyone is related to everything, as far as the built-in names allow. -/
def unitInterp : Interp Unit Unit where
  nonempty := ⟨()⟩
  classes c := {_x | c ≠ owlNothing}
  classes_thing := full_thing
  classes_nothing := full_nothing
  objectProperties p _ _ := p ≠ bottomObjectRole
  objectProperties_top := full_topObjectRole
  objectProperties_bottom := full_bottomObjectRole
  dataProperties p _ _ := p ≠ bottomDataRole
  dataProperties_top := full_topDataRole
  dataProperties_bottom := full_bottomDataRole
  individuals _ := ()
  datatypes _ := Set.univ
  datatypes_literal := full_literal
  literals _ := ()
  facets _ := Set.univ
  builtIns _ _ := True

/-- A complement before a self restriction stays in the normal form, and the complement of an
at-most restriction with the largest cardinality wraps around to an at-least zero. -/
theorem processAxioms_negatedSelf_and_wrap :
    (∃ result, (OwlNormalization.new {} 0).processAxioms structuralOrder 20
        [.subClassOf (.class "A") (.objectComplementOf (.objectHasSelf (.objectProperty "r")))] =
          .ok result ∧
      ¬ ∀ e ∈ result.axioms.conceptInclusions, ∀ d ∈ e, isNormalDisjunct d && !isNegatedSelf d) ∧
    ∃ result, (OwlNormalization.new {} 0).processAxioms structuralOrder 20
        [.subClassOf (.objectMaxCardinality 4294967295 (.objectProperty "r") (.class "A"))
          (.class owlNothing)] = .ok result ∧ ∃ J : Interp Unit Unit, J.Emitted result.axioms ∧
        ¬ J.isModel [.subClassOf
          (.objectMaxCardinality 4294967295 (.objectProperty "r") (.class "A"))
          (.class owlNothing)] := by
  refine ⟨⟨_, rfl, by decide +kernel⟩, ⟨_, rfl, unitInterp,
    ⟨forall_mem_nil _, forall_mem_nil _⟩, ?_⟩⟩
  intro hmodel
  have hsub := hmodel _ (mem_singleton_self _)
  have hmem : () ∈ unitInterp.expr
      (.objectMaxCardinality 4294967295 (.objectProperty "r") (.class "A")) := by
    rw [mem_expr_max]
    refine (Set.encard_le_one_iff.mpr fun a b _ _ => rfl).trans ?_
    exact_mod_cast (by decide : 1 ≤ 4294967295)
  exact unitInterp.notMem_expr_nothing () (hsub hmem)

end Hermit
