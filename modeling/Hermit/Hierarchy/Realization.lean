import Hermit.Hierarchy.InstanceManager

/-! # Realization of classes

Stripping and realization keep every type of an individual covered: a node at or below it records
the individual.  After realization the records are known, so they determine all types.
-/

namespace Hermit

open AtomicConceptElement Elements Worklist

/-! ## Elements -/

namespace Elements

variable {elements : Elements} {n k : NodeRef} {i : String}

def Known (elements : Elements) (n : NodeRef) (i : String) : Prop :=
  ∃ e, elements.lookup n = some e ∧ i ∈ e.known

def Possible (elements : Elements) (n : NodeRef) (i : String) : Prop :=
  ∃ e, elements.lookup n = some e ∧ i ∈ e.possible

theorem lookup_modify (change : AtomicConceptElement → AtomicConceptElement) :
    (elements.modify n change).lookup k =
      if k = n then some (change ((elements.lookup n).getD .empty)) else elements.lookup k := by
  unfold modify
  split
  · rename_i hk
    rw [hk, AList.lookup_insert]
  · rename_i hk
    rw [AList.lookup_insert_ne hk]

theorem known_iff_getD : elements.Known n i ↔ i ∈ ((elements.lookup n).getD .empty).known := by
  unfold Known
  cases elements.lookup n with
  | none => simp [empty]
  | some e => simp

theorem possible_iff_getD : elements.Possible n i ↔
    i ∈ ((elements.lookup n).getD .empty).possible := by
  unfold Possible
  cases elements.lookup n with
  | none => simp [empty]
  | some e => simp

variable {change : AtomicConceptElement → AtomicConceptElement}

/-- A change of one element that does not depend on the others. -/
theorem known_modify : (elements.modify n change).Known k i ↔
      if k = n then i ∈ (change ((elements.lookup n).getD .empty)).known else elements.Known k i :=
  by
  rw [known_iff_getD, lookup_modify]
  split
  · rfl
  · exact known_iff_getD.symm

theorem possible_modify : (elements.modify n change).Possible k i ↔
      if k = n then i ∈ (change ((elements.lookup n).getD .empty)).possible
      else elements.Possible k i := by
  rw [possible_iff_getD, lookup_modify]
  split
  · rfl
  · exact possible_iff_getD.symm

variable {j : String}

theorem known_addKnown :
    (elements.modify n (·.addKnown j)).Known k i ↔ elements.Known k i ∨ k = n ∧ i = j := by
  rw [known_modify]
  split
  · rename_i hk
    rw [addKnown, mem_insertSet, ← known_iff_getD, hk]
    simp
  · rename_i hk
    simp [hk]

theorem possible_addKnown : (elements.modify n (·.addKnown j)).Possible k i ↔
    elements.Possible k i := by
  rw [possible_modify]
  split
  · rename_i hk
    rw [hk, addKnown, ← possible_iff_getD]
  · rfl

theorem known_addPossible : (elements.modify n (·.addPossible j)).Known k i ↔
    elements.Known k i := by
  rw [known_modify]
  split
  · rename_i hk
    rw [hk, addPossible, ← known_iff_getD]
  · rfl

theorem possible_addPossible :
    (elements.modify n (·.addPossible j)).Possible k i ↔ elements.Possible k i ∨ k = n ∧ i = j := by
  rw [possible_modify]
  split
  · rename_i hk
    rw [addPossible, mem_insertSet, ← possible_iff_getD, hk]
    simp
  · rename_i hk
    simp [hk]

/-- Stripping removes what the node below records. -/
theorem lookup_strip {below : AtomicConceptElement} :
    (elements.modifyIfPresent n (·.strip below)).lookup k =
      if k = n then (elements.lookup k).map (·.strip below) else elements.lookup k := by
  unfold modifyIfPresent
  by_cases hk : k = n
  · subst hk
    cases hlook : elements.lookup k with
    | none => simp [hlook]
    | some e => simp
  · rw [if_neg hk]
    split
    · rfl
    · rw [AList.lookup_insert_ne hk]

variable {below : AtomicConceptElement}

theorem known_strip : (elements.modifyIfPresent n (·.strip below)).Known k i ↔
    elements.Known k i ∧ (k = n → i ∉ below.known) := by
  unfold Known
  rw [lookup_strip]
  by_cases hk : k = n
  · simp only [hk, if_true, Option.map_eq_some_iff, exists_exists_and_eq_and, forall_const]
    simp [strip, ← and_assoc]
  · simp [hk]

theorem possible_strip : (elements.modifyIfPresent n (·.strip below)).Possible k i ↔
    elements.Possible k i ∧ (k = n → i ∉ below.known ∧ i ∉ below.possible) := by
  unfold Possible
  rw [lookup_strip]
  by_cases hk : k = n
  · simp only [hk, if_true, Option.map_eq_some_iff, exists_exists_and_eq_and, forall_const]
    simp [strip, ← and_assoc]
  · simp [hk]

variable {ancestors : List NodeRef}

theorem known_foldl_strip :
    (ancestors.foldl (fun elements a => elements.modifyIfPresent a (·.strip below)) elements).Known
    k i ↔
      elements.Known k i ∧ (k ∈ ancestors → i ∉ below.known) := by
  induction ancestors generalizing elements with
  | nil => simp
  | cons a ancestors ih =>
    rw [List.foldl_cons, ih, known_strip, List.mem_cons]
    tauto

theorem possible_foldl_strip :
    (ancestors.foldl (fun elements a => elements.modifyIfPresent a (·.strip below))
      elements).Possible k i ↔
      elements.Possible k i ∧ (k ∈ ancestors → i ∉ below.known ∧ i ∉ below.possible) := by
  induction ancestors generalizing elements with
  | nil => simp
  | cons a ancestors ih =>
    rw [List.foldl_cons, ih, possible_strip, List.mem_cons]
    tauto

end Elements

/-! ## Covered types -/

namespace Hierarchy

variable {E : Type*} (h : Hierarchy E) (isInstance : E → String → Bool)

/-- The individual is an instance of the concept of a node. -/
def HasInstance (n : NodeRef) (i : String) : Prop :=
  ∃ e, h.representative n = some e ∧ isInstance e i = true

/-- The links of the hierarchy are true of the instances, all individuals are instances of top and
none is one of bottom. -/
structure Classifies (individuals : List String) : Prop where
  wellFormed : h.WellFormed
  parent : ∀ n, ∀ p ∈ h.parentNodes n, ∀ i, h.HasInstance isInstance n i →
    h.HasInstance isInstance p i
  top : ∀ i ∈ individuals, h.HasInstance isInstance h.top i
  bottom : ∀ i ∈ individuals, ¬ h.HasInstance isInstance h.bottom i

variable {h isInstance} {individuals : List String} {n m : NodeRef} {i : String}

theorem HasInstance.lt (hn : h.HasInstance isInstance n i) : n < h.nodes.length := by
  obtain ⟨e, he, -⟩ := hn
  by_contra hlt
  rw [representative, List.getElem?_eq_none (not_lt.mp hlt)] at he
  cases he

theorem Classifies.ancestor (hc : h.Classifies isInstance individuals) (hnm : h.Ancestor n m)
    (hn : h.HasInstance isInstance n i) : h.HasInstance isInstance m i := by
  induction hnm with
  | refl => exact hn
  | tail _ hp ih => exact hc.parent _ _ hp i ih

theorem WellFormed.ne_bottom_of_mem_parentNodes (wf : h.WellFormed) (hm : m ∈ h.parentNodes n) :
    m ≠ h.bottom := by
  rintro rfl
  obtain rfl := wf.antisymm (.single hm) (wf.above_bottom n (lt_of_mem_parentNodes hm))
  obtain ⟨rank, hrank⟩ := wf.acyclic
  exact lt_irrefl _ (hrank _ _ hm)

variable (h isInstance) in
/-- What is known is true, and every type is recorded at or below its node. -/
structure Covers (individuals : List String) (elements : Elements) : Prop where
  sound : ∀ n i, elements.Known n i → i ∈ individuals ∧ h.HasInstance isInstance n i
  possible : ∀ n i, elements.Possible n i → i ∈ individuals
  covered : ∀ i ∈ individuals, ∀ n, h.HasInstance isInstance n i →
    ∃ d, h.Ancestor d n ∧ d ≠ h.bottom ∧ (elements.Known d i ∨ elements.Possible d i)

end Hierarchy

open Hierarchy

namespace SeededClassInstanceManager

variable {E : Type*} {h : Hierarchy E} {isInstance : E → String → Bool} {individuals : List String}

section

variable {elements : Elements} (wf : h.WellFormed)
  (hcov : h.Covers isInstance individuals elements)
include wf hcov

/-- Stripping what a node records leaves the types covered, by that node if by no other. -/
theorem covers_stripAncestors {current : NodeRef} {below : AtomicConceptElement}
    (hlook : elements.lookup current = some below) (hlt : current < h.nodes.length)
    (hbot : current ≠ h.bottom) :
    h.Covers isInstance individuals (stripAncestors h current below elements) := by
  have hmem : ∀ k, k ∈ (h.ancestorNodes current).filter (· ≠ current) ↔
      h.Ancestor current k ∧ k ≠ current := by
    intro k
    rw [List.mem_filter, wf.mem_ancestorNodes hlt, decide_eq_true_iff]
  have hknown : ∀ k i, (stripAncestors h current below elements).Known k i ↔
      elements.Known k i ∧ (h.Ancestor current k ∧ k ≠ current → i ∉ below.known) := by
    intro k i
    rw [stripAncestors, known_foldl_strip, hmem]
  have hposs : ∀ k i, (stripAncestors h current below elements).Possible k i ↔
      elements.Possible k i ∧ (h.Ancestor current k ∧ k ≠ current →
        i ∉ below.known ∧ i ∉ below.possible) := by
    intro k i
    rw [stripAncestors, possible_foldl_strip, hmem]
  have hkept : ∀ i, i ∈ below.known ∨ i ∈ below.possible →
      (stripAncestors h current below elements).Known current i ∨
        (stripAncestors h current below elements).Possible current i := by
    rintro i (hi | hi)
    · exact .inl ((hknown current i).mpr ⟨⟨below, hlook, hi⟩, fun hne => absurd rfl hne.2⟩)
    · exact .inr ((hposs current i).mpr ⟨⟨below, hlook, hi⟩, fun hne => absurd rfl hne.2⟩)
  refine ⟨fun n i hn => hcov.sound n i ((hknown n i).mp hn).1,
    fun n i hn => hcov.possible n i ((hposs n i).mp hn).1, fun i hi n hn => ?_⟩
  obtain ⟨d, hdn, hd, hrec⟩ := hcov.covered i hi n hn
  by_cases hstripped : (h.Ancestor current d ∧ d ≠ current) ∧ (i ∈ below.known ∨ i ∈ below.possible)
  · exact ⟨current, hstripped.1.1.trans hdn, hbot, hkept i hstripped.2⟩
  · refine ⟨d, hdn, hd, hrec.imp (fun hd => (hknown d i).mpr ⟨hd, fun ha hi => ?_⟩)
      fun hd => (hposs d i).mpr ⟨hd, fun ha => ⟨fun hi => ?_, fun hi => ?_⟩⟩⟩
    · exact hstripped ⟨ha, .inl hi⟩
    · exact hstripped ⟨ha, .inl hi⟩
    · exact hstripped ⟨ha, .inr hi⟩

/-- What stays true in the traversal. -/
structure Traversal.Valid (h : Hierarchy E) (isInstance : E → String → Bool)
    (individuals : List String)
    (start : Elements) (t : Traversal) : Prop where
  covers : h.Covers isInstance individuals t.elements
  toProcess : ∀ n ∈ t.toProcess, n < h.nodes.length ∧ n ≠ h.bottom
  possible : ∀ n i, t.elements.Possible n i → start.Possible n i

theorem exists_normalizeConceptInstances :
    ∃ elements', normalizeConceptInstances h elements = some elements' ∧
    h.Covers isInstance individuals elements' ∧
      ∀ n i, elements'.Possible n i → elements.Possible n i := by
  let univ : Finset NodeRef := Finset.range h.nodes.length
  have hpars : ∀ n, ∀ p ∈ h.parentNodes n, p ∈ univ :=
    fun n p hp => Finset.mem_range.mpr (wf.parent_lt hp)
  have hround : ∀ t, Traversal.Valid h isInstance individuals elements t →
    (!t.toProcess.isEmpty) = true →
      ∃ t', normalizeNode h t = some t' ∧ Traversal.Valid h isInstance individuals elements t' ∧
        t'.toProcess.length + (univ \ t'.queued.toFinset).card <
          t.toProcess.length + (univ \ t.queued.toFinset).card := by
    intro t ht hrunning
    obtain ⟨current, toProcess, hspl⟩ :=
      List.exists_cons_of_ne_nil (show t.toProcess ≠ [] by simpa using hrunning)
    obtain ⟨hlt, hbot⟩ := ht.toProcess current (by rw [hspl]; exact List.mem_cons_self)
    have hrest : ∀ n ∈ toProcess, n < h.nodes.length ∧ n ≠ h.bottom :=
      fun n hn => ht.toProcess n (by rw [hspl]; exact List.mem_cons_of_mem _ hn)
    cases hlook : t.elements.lookup current with
    | none =>
      refine ⟨{ t with toProcess := toProcess }, ?_, ⟨ht.covers, hrest, ht.possible⟩, ?_⟩
      · rw [normalizeNode, hspl]
        dsimp only
        rw [hlook]
      · dsimp only
        rw [hspl, List.length_cons]
        omega
    | some e =>
      refine ⟨⟨stripAncestors h current e t.elements,
          (enqueueNew (h.parentNodes current) (toProcess, t.queued)).1,
        (enqueueNew (h.parentNodes current) (toProcess, t.queued)).2⟩, ?_,
          ⟨covers_stripAncestors wf ht.covers hlook hlt hbot, fun n hn => ?_, fun n i hn => ?_⟩, ?_⟩
      · rw [normalizeNode, hspl]
        dsimp only
        rw [hlook]
      · rcases mem_enqueueNew_fst hn with hn | hn
        · exact hrest n hn
        · exact ⟨wf.parent_lt hn, wf.ne_bottom_of_mem_parentNodes hn⟩
      · exact ht.possible n i (possible_foldl_strip.mp hn).1
      · have hlen := enqueueNew_length univ _ toProcess t.queued (hpars current)
        dsimp only
        rw [hlen, hspl, List.length_cons]
        omega
  have hst : Traversal.Valid h isInstance individuals elements
      ⟨elements, (enqueueNew (h.parentNodes h.bottom) ([], [])).1,
        (enqueueNew (h.parentNodes h.bottom) ([], [])).2⟩ := by
    refine ⟨hcov, fun n hn => ?_, fun n i hn => hn⟩
    have hn := (mem_enqueueNew_fst hn).resolve_left List.not_mem_nil
    exact ⟨wf.parent_lt hn, wf.ne_bottom_of_mem_parentNodes hn⟩
  obtain ⟨t, ht, -, hfuel⟩ :=
    exists_loopWhile_eq (fun t : Traversal => !t.toProcess.isEmpty) (normalizeNode h) _
    (fun t => t.toProcess.length + (univ \ t.queued.toFinset).card) hround hst
  refine ⟨t.elements, ?_, ht.covers, ht.possible⟩
  have hlen := enqueueNew_length univ _ [] [] (hpars h.bottom)
  have hcard : (univ \ ([] : List NodeRef).toFinset).card = h.nodes.length := by simp [univ]
  rw [normalizeConceptInstances]
  dsimp only
  rw [hfuel _ (by dsimp only; rw [hlen, hcard]; simp)]
  rfl

end

/-! ## Realization -/

variable {e : AtomicConceptElement} {names : List String}

theorem mem_foldl_addKnown : (∀ i, i ∈ (names.foldl addKnown e).known ↔ i ∈ e.known ∨ i ∈ names) ∧
      (names.foldl addKnown e).possible = e.possible := by
  induction names generalizing e with
  | nil => simp
  | cons name names ih =>
    obtain ⟨hknown, hposs⟩ := ih (e := e.addKnown name)
    refine ⟨fun i => ?_, hposs⟩
    rw [List.foldl_cons, hknown, addKnown, mem_insertSet, List.mem_cons, or_assoc]

theorem mem_foldl_addPossible :
    (∀ i, i ∈ (names.foldl addPossible e).possible ↔ i ∈ e.possible ∨ i ∈ names) ∧
      (names.foldl addPossible e).known = e.known := by
  induction names generalizing e with
  | nil => simp
  | cons name names ih =>
    obtain ⟨hposs, hknown⟩ := ih (e := e.addPossible name)
    refine ⟨fun i => ?_, hknown⟩
    rw [List.foldl_cons, hposs, addPossible, mem_insertSet, List.mem_cons, or_assoc]

/-- A parent records what it is passed, and nothing else is recorded; only top knows it. -/
theorem passToParent_spec (top : NodeRef) (nonInstances : List String) (elements : Elements)
    (parent : NodeRef) :
    let elements' := passToParent top nonInstances elements parent
    (∀ k i, elements.Known k i → elements'.Known k i) ∧
      (∀ k i, elements.Possible k i → elements'.Possible k i) ∧
      (∀ k i, elements'.Known k i → elements.Known k i ∨ k = top ∧ i ∈ nonInstances) ∧
      (∀ k i, elements'.Possible k i → elements.Possible k i ∨ k = parent ∧ i ∈ nonInstances) ∧
      ∀ i ∈ nonInstances, elements'.Known parent i ∨ elements'.Possible parent i := by
  intro elements'
  by_cases hknows : parent = top ∧ (elements.lookup parent).isSome = true
  · have heq : elements' = elements.modify parent (nonInstances.foldl .addKnown ·) := by
      dsimp only [elements', passToParent]
      simp only [if_pos hknows]
    have hk : ∀ k i, elements'.Known k i ↔ elements.Known k i ∨ k = parent ∧ i ∈ nonInstances := by
      intro k i
      rw [heq, known_modify]
      split
      · rename_i hk
        rw [mem_foldl_addKnown.1, ← known_iff_getD, hk]
        simp
      · rename_i hk
        simp [hk]
    have hp : ∀ k i, elements'.Possible k i ↔ elements.Possible k i := by
      intro k i
      rw [heq, possible_modify]
      split
      · rename_i hk
        rw [mem_foldl_addKnown.2, ← possible_iff_getD, hk]
      · rfl
    refine ⟨fun k i hki => (hk k i).mpr (.inl hki), fun k i hki => (hp k i).mpr hki,
        fun k i hki => ?_,
      fun k i hki => .inl ((hp k i).mp hki), fun i hi => .inl ((hk parent i).mpr (.inr ⟨rfl, hi⟩))⟩
    exact ((hk k i).mp hki).imp_right fun hki => ⟨hki.1.trans hknows.1, hki.2⟩
  · have heq : elements' = elements.modify parent (nonInstances.foldl .addPossible ·) := by
      dsimp only [elements', passToParent]
      simp only [if_neg hknows]
    have hk : ∀ k i, elements'.Known k i ↔ elements.Known k i := by
      intro k i
      rw [heq, known_modify]
      split
      · rename_i hk
        rw [mem_foldl_addPossible.2, ← known_iff_getD, hk]
      · rfl
    have hp : ∀ k i, elements'.Possible k i ↔ elements.Possible k i ∨ k = parent ∧
        i ∈ nonInstances := by
      intro k i
      rw [heq, possible_modify]
      split
      · rename_i hk
        rw [mem_foldl_addPossible.1, ← possible_iff_getD, hk]
        simp
      · rename_i hk
        simp [hk]
    refine ⟨fun k i hki => (hk k i).mpr hki, fun k i hki => (hp k i).mpr (.inl hki), fun k i hki =>
      .inl ((hk k i).mp hki),
      fun k i hki => (hp k i).mp hki, fun i hi => .inr ((hp parent i).mpr (.inr ⟨rfl, hi⟩))⟩

theorem foldl_passToParent_spec (top : NodeRef) (nonInstances : List String)
    (parents : List NodeRef) (elements : Elements) :
    let elements' := parents.foldl (passToParent top nonInstances) elements
    (∀ k i, elements.Known k i → elements'.Known k i) ∧
      (∀ k i, elements.Possible k i → elements'.Possible k i) ∧
      (∀ k i, elements'.Known k i → elements.Known k i ∨ k = top ∧ i ∈ nonInstances) ∧
      (∀ k i, elements'.Possible k i → elements.Possible k i ∨ k ∈ parents ∧ i ∈ nonInstances) ∧
      ∀ p ∈ parents, ∀ i ∈ nonInstances, elements'.Known p i ∨ elements'.Possible p i := by
  induction parents generalizing elements with
  | nil =>
    exact ⟨fun _ _ hki => hki, fun _ _ hki => hki, fun _ _ hki => .inl hki, fun _ _ hki =>
      .inl hki, nofun⟩
  | cons parent parents ih =>
    obtain ⟨hknown, hposs, hknown', hposs', hpass⟩ :=
      passToParent_spec top nonInstances elements parent
    obtain ⟨ihknown, ihpossible, ihknown', ihpossible', ihpassed⟩ :=
      ih (passToParent top nonInstances elements parent)
    refine ⟨fun k i hki => ihknown k i (hknown k i hki), fun k i hki =>
      ihpossible k i (hposs k i hki),
      fun k i hki => ?_, fun k i hki => ?_, fun p hp i hi => ?_⟩
    · rcases ihknown' k i hki with hki | hki
      · exact hknown' k i hki
      · exact .inr hki
    · rcases ihpossible' k i hki with hki | hki
      · exact (hposs' k i hki).imp_right fun hki => ⟨List.mem_cons.mpr (.inl hki.1), hki.2⟩
      · exact .inr ⟨List.mem_cons_of_mem _ hki.1, hki.2⟩
    · rcases List.mem_cons.mp hp with rfl | hp
      · exact (hpass i hi).imp (ihknown p i) (ihpossible p i)
      · exact ihpassed p hp i hi

/-- Nothing is possible any more at the given nodes; bottom is never tested. -/
def Settled (h : Hierarchy E) (nodes : List NodeRef) (elements : Elements) : Prop :=
  ∀ n ∈ nodes, n ≠ h.bottom → ∀ i, ¬ elements.Possible n i

/-- An element whose possible instances are decided. -/
def decided (decide : String → Bool) (e : AtomicConceptElement) : AtomicConceptElement :=
  { (e.possible.filter decide).foldl .addKnown e with possible := [] }

section decided

variable {elements : Elements} {current k : NodeRef} {e : AtomicConceptElement} {i : String}
  (hlook : elements.lookup current = some e) (decide : String → Bool)

include hlook in
theorem known_insert_decided :
    Known (elements.insert current (decided decide e)) k i ↔
      elements.Known k i ∨ k = current ∧ elements.Possible current i ∧ decide i = true := by
  by_cases hk : k = current
  · subst hk
    simp only [Known, Possible, AList.lookup_insert, hlook, Option.some.injEq, exists_eq_left',
      true_and, decided, mem_foldl_addKnown.1, List.mem_filter]
  · simp only [Known, AList.lookup_insert_ne hk, hk, false_and, or_false]

theorem possible_insert_decided :
    Possible (elements.insert current (decided decide e)) k i ↔
      k ≠ current ∧ elements.Possible k i := by
  by_cases hk : k = current
  · subst hk
    simp [Possible, decided]
  · simp [Possible, AList.lookup_insert_ne hk, hk]

include hlook in
theorem mem_filter_not_decided : i ∈ e.possible.filter (not ∘ decide) ↔
    elements.Possible current i ∧ ¬ decide i = true := by
  rw [List.mem_filter, Possible, hlook]
  simp

end decided

section

variable (hc : h.Classifies isInstance individuals)
include hc

section decided

variable {elements : Elements} {current : NodeRef} {e : AtomicConceptElement}
  {decide : String → Bool}

/-- What is decided at a node stays covered; what is refuted is possible at the parents. -/
theorem covers_decided (hlook : elements.lookup current = some e)
    (hinst : ∀ i, h.HasInstance isInstance current i ↔ decide i = true)
    (hcov : h.Covers isInstance individuals elements) :
    h.Covers isInstance individuals ((h.parentNodes current).foldl
      (passToParent h.top (e.possible.filter (not ∘ decide)))
      (elements.insert current (decided decide e))) := by
  obtain ⟨hknown, hposs, hknown', hposs', hpass⟩ :=
    foldl_passToParent_spec h.top (e.possible.filter (not ∘ decide)) (h.parentNodes current)
      (elements.insert current (decided decide e))
  refine ⟨fun n i hn => ?_, fun n i hn => ?_, fun i hi n hn => ?_⟩
  · rcases hknown' n i hn with hn | ⟨rfl, hi⟩
    · rcases (known_insert_decided hlook decide).mp hn with hn | ⟨rfl, hposs, hn⟩
      · exact hcov.sound n i hn
      · exact ⟨hcov.possible n i hposs, (hinst i).mpr hn⟩
    · have hmem := hcov.possible current i ((mem_filter_not_decided hlook decide).mp hi).1
      exact ⟨hmem, hc.top i hmem⟩
  · rcases hposs' n i hn with hn | ⟨-, hi⟩
    · exact hcov.possible n i ((possible_insert_decided decide).mp hn).2
    · exact hcov.possible current i ((mem_filter_not_decided hlook decide).mp hi).1
  · obtain ⟨d, hdn, hd, hrec⟩ := hcov.covered i hi n hn
    rcases hrec with hrec | hrec
    · exact ⟨d, hdn, hd, .inl (hknown d i ((known_insert_decided hlook decide).mpr (.inl hrec)))⟩
    by_cases hcur : d = current
    · subst hcur
      by_cases htrue : decide i = true
      · exact ⟨d, hdn, hd, .inl (hknown d i
          ((known_insert_decided hlook decide).mpr (.inr ⟨rfl, hrec, htrue⟩)))⟩
      · -- The type lies strictly above, so a parent below it takes over.
        have hne : d ≠ n := by
          rintro rfl
          exact htrue ((hinst i).mp hn)
        obtain ⟨p, hp, hpn⟩ := hdn.exists_parent hne
        exact ⟨p, hpn, hc.wellFormed.ne_bottom_of_mem_parentNodes hp,
          hpass p hp i ((mem_filter_not_decided hlook decide).mpr ⟨hrec, htrue⟩)⟩
    · exact ⟨d, hdn, hd, .inr (hposs d i ((possible_insert_decided decide).mpr ⟨hcur, hrec⟩))⟩

theorem settled_decided {front : List NodeRef} (hset : Settled h front elements)
    (hpars : ∀ p ∈ h.parentNodes current, p ∉ front) :
    Settled h (front ++ [current]) ((h.parentNodes current).foldl
      (passToParent h.top (e.possible.filter (not ∘ decide)))
      (elements.insert current (decided decide e))) := by
  obtain ⟨-, -, -, hposs', -⟩ :=
    foldl_passToParent_spec h.top (e.possible.filter (not ∘ decide)) (h.parentNodes current)
      (elements.insert current (decided decide e))
  have hself : current ∉ h.parentNodes current := by
    intro hmem
    obtain ⟨rank, hrank⟩ := hc.wellFormed.acyclic
    exact lt_irrefl _ (hrank _ _ hmem)
  intro n hn hne i hi
  rcases hposs' n i hi with hi | ⟨hp, -⟩
  · obtain ⟨hncurrent, hi⟩ := (possible_insert_decided decide).mp hi
    rcases List.mem_append.mp hn with hn | hn
    · exact hset n hn hne i hi
    · exact hncurrent (List.mem_singleton.mp hn)
  · rcases List.mem_append.mp hn with hn | hn
    · exact hpars n hp hn
    · rw [List.mem_singleton.mp hn] at hp
      exact hself hp

end decided

/-- A node is settled while its parents take over what it refutes. -/
theorem exists_realizeNode {elements : Elements}
    (hcov : h.Covers isInstance individuals elements) {front : List NodeRef}
    (hset : Settled h front elements) {current : NodeRef} (hlt : current < h.nodes.length)
    (hpars : ∀ p ∈ h.parentNodes current, p ∉ front) :
    ∃ elements', realizeNode h isInstance elements current = some elements' ∧
      h.Covers isInstance individuals elements' ∧ Settled h (front ++ [current]) elements' := by
  have hsame : (current ≠ h.bottom → ∀ i, ¬ elements.Possible current i) →
      Settled h (front ++ [current]) elements := by
    intro hnone n hn hbot i
    rcases List.mem_append.mp hn with hn | hn
    · exact hset n hn hbot i
    · obtain rfl := List.mem_singleton.mp hn
      exact hnone hbot i
  unfold realizeNode
  by_cases hbot : current = h.bottom
  · rw [if_pos hbot]
    exact ⟨elements, rfl, hcov, hsame fun hne => absurd hbot hne⟩
  rw [if_neg hbot]
  cases hlook : elements.lookup current with
  | none =>
    refine ⟨elements, rfl, hcov, hsame fun _ i hi => ?_⟩
    obtain ⟨e, he, -⟩ := hi
    rw [hlook] at he
    cases he
  | some e =>
    dsimp only
    split_ifs with hhas
    · obtain ⟨representative, hrep⟩ : ∃ r, h.representative current = some r :=
        ⟨_, by rw [representative, List.getElem?_eq_getElem hlt]; rfl⟩
      have hinst : ∀ i, h.HasInstance isInstance current i ↔
          isInstance representative i = true := by
        intro i
        rw [HasInstance, hrep]
        simp
      rw [hrep, Option.map_some, List.partition_eq_filter_filter]
      exact ⟨_, rfl, covers_decided hc hlook hinst hcov, settled_decided hc hset hpars⟩
    · refine ⟨elements, rfl, hcov, hsame fun _ i hi => ?_⟩
      obtain ⟨e', he', hmem⟩ := hi
      obtain rfl := Option.some.inj (hlook.symm.trans he')
      apply hhas
      rw [hasPossibles]
      simpa using List.ne_nil_of_mem hmem

theorem exists_foldlM_realizeNode {order : List NodeRef} (hnd : order.Nodup)
    (hlt : ∀ n ∈ order, n < h.nodes.length)
    (hascending : TopologicalOrder.Ascending h.childNodes order) {elements : Elements}
    (hcov : h.Covers isInstance individuals elements) :
    ∃ elements', order.foldlM (realizeNode h isInstance) elements = some elements' ∧
      h.Covers isInstance individuals elements' ∧ Settled h order elements' := by
  have hrun : ∀ (rest front : List NodeRef), order = front ++ rest → ∀ elements,
      h.Covers isInstance individuals elements → Settled h front elements →
      ∃ elements', rest.foldlM (realizeNode h isInstance) elements = some elements' ∧
        h.Covers isInstance individuals elements' ∧ Settled h order elements' := by
    intro rest
    induction rest with
    | nil =>
      intro front horder elements hcov hset
      rw [horder, List.append_nil]
      exact ⟨elements, rfl, hcov, hset⟩
    | cons current rest ih =>
      intro front horder elements hcov hset
      have hcur : current ∈ order := by
        rw [horder]
        exact List.mem_append_right _ List.mem_cons_self
      have hpars : ∀ p ∈ h.parentNodes current, p ∉ front := by
        intro p hp hfront
        obtain ⟨front₁, front₂, rfl⟩ := List.append_of_mem hfront
        have hchild := hascending front₁ p (front₂ ++ current :: rest)
          (by rw [horder, List.append_assoc]; rfl) current
          ((hc.wellFormed.mem_parentNodes current p).mp hp)
        rw [horder, List.append_assoc, List.nodup_append] at hnd
        exact hnd.2.2 current hchild current (by simp) rfl
      obtain ⟨elements₁, hstep, hcov₁, hset₁⟩ :=
        exists_realizeNode hc hcov hset (hlt current hcur) hpars
      obtain ⟨elements', hrest, hcov', hset'⟩ := ih (front ++ [current])
        (by rw [horder, List.append_assoc]; rfl) elements₁ hcov₁ hset₁
      refine ⟨elements', ?_, hcov', hset'⟩
      rw [List.foldlM_cons, hstep]
      exact hrest
  exact hrun order [] rfl elements hcov fun n hn => absurd hn List.not_mem_nil

theorem exists_realize {m : SeededClassInstanceManager}
    (hcov : h.Covers isInstance individuals m.conceptToElement)
    (hflag : ∀ n i, m.conceptToElement.Possible n i → m.readingOffFoundPossible = true) :
    ∃ m', m.realize h isInstance = some m' ∧ h.Covers isInstance individuals m'.conceptToElement ∧
      Settled h h.allNodes m'.conceptToElement := by
  obtain ⟨elements, hnormalize, hcov', hposs⟩ := exists_normalizeConceptInstances hc.wellFormed hcov
  unfold realize
  rw [hnormalize]
  cases hfnd : m.readingOffFoundPossible with
  | false =>
    refine ⟨_, rfl, hcov', fun n _ _ i hi => ?_⟩
    have := hflag n i (hposs n i hi)
    rw [hfnd] at this
    cases this
  | true =>
    obtain ⟨order, horder, hnd, hmem, hascending⟩ := hc.wellFormed.exists_nodesBottomUp
    obtain ⟨elements', hrun, hcov'', hset⟩ :=
      exists_foldlM_realizeNode hc hnd (fun n hn => (hmem n).mp hn)
      hascending hcov'
    refine ⟨{ m with conceptToElement := elements', readingOffFoundPossible := false }, ?_, hcov'',
      fun n hn => ?_⟩
    · rw [horder]
      dsimp only [bind, Option.bind]
      rw [if_pos rfl, hrun]
      rfl
    · exact hset n ((hmem n).mpr (List.mem_range.mp hn))

end

/-- Read off the labels of all individuals, which are instances of top. -/
def seedClassInstances (top : NodeRef) (labels : String → List ReadOffConcept)
    (nodeForElement : String → Option NodeRef)
    (individuals : List String) : SeededClassInstanceManager :=
  individuals.foldl (fun m i => (m.readOffTypes i (labels i) nodeForElement).seedTopKnown top i) new

section seeding

variable (top : NodeRef) (labels : String → List ReadOffConcept)
    (nodeForElement : String → Option NodeRef)

/-- The label places an individual at a node. -/
def Labels (known : Bool) (n : NodeRef) (i : String) : Prop :=
  ∃ label ∈ labels i, label.known = known ∧ nodeForElement label.conceptIri = some n

theorem readOffTypes_spec (m : SeededClassInstanceManager) (individual : String)
    (ls : List ReadOffConcept) :
    let m' := m.readOffTypes individual ls nodeForElement
    (∀ n i, m'.conceptToElement.Known n i ↔ m.conceptToElement.Known n i ∨
        i = individual ∧ ∃ label ∈ ls, label.known = true ∧
          nodeForElement label.conceptIri = some n) ∧
      (∀ n i, m'.conceptToElement.Possible n i ↔ m.conceptToElement.Possible n i ∨
        i = individual ∧ ∃ label ∈ ls, label.known = false ∧
          nodeForElement label.conceptIri = some n) ∧
      ((∀ n i, m.conceptToElement.Possible n i → m.readingOffFoundPossible = true) →
        ∀ n i, m'.conceptToElement.Possible n i → m'.readingOffFoundPossible = true) := by
  induction ls generalizing m with
  | nil => simp [readOffTypes]
  | cons label ls ih =>
    obtain ⟨hknown, hposs, hflag⟩ := ih (readOffType individual nodeForElement m label)
    rw [readOffTypes, List.foldl_cons]
    simp only [List.mem_cons, exists_eq_or_imp]
    rw [readOffTypes] at hknown hposs hflag
    cases hnode : nodeForElement label.conceptIri with
    | none =>
      have hstep : readOffType individual nodeForElement m label = m := by rw [readOffType, hnode]
      rw [hstep] at hknown hposs hflag ⊢
      refine ⟨fun n i => ?_, fun n i => ?_, hflag⟩
      · simp [hknown]
      · simp [hposs]
    | some node =>
      cases hlab : label.known with
      | true =>
        have hstep : readOffType individual nodeForElement m label =
            { m with conceptToElement := m.conceptToElement.modify node (·.addKnown individual) } :=
              by
          simp only [readOffType, hnode, hlab, if_true]
        rw [hstep] at hknown hposs hflag ⊢
        refine ⟨fun n i => ?_, fun n i => ?_, fun hm => hflag fun n i hi =>
          hm n i (possible_addKnown.mp hi)⟩
        · rw [hknown, known_addKnown]
          simp only [Option.some.injEq, true_and, eq_comm (a := node)]
          tauto
        · rw [hposs, possible_addKnown]
          simp
      | false =>
        have hstep : readOffType individual nodeForElement m label =
            { m with
              conceptToElement := m.conceptToElement.modify node (·.addPossible individual)
              readingOffFoundPossible := true } := by
          simp only [readOffType, hnode, hlab, Bool.false_eq_true, if_false]
        rw [hstep] at hknown hposs hflag ⊢
        refine ⟨fun n i => ?_, fun n i => ?_, fun _ => hflag fun _ _ _ => rfl⟩
        · rw [hknown, known_addPossible]
          simp
        · rw [hposs, possible_addPossible]
          simp only [Option.some.injEq, true_and, eq_comm (a := node)]
          tauto

/-- Reading off the labels of individuals on top of what is recorded. -/
theorem foldl_seed_spec (names : List String) (m : SeededClassInstanceManager)
    (hm : ∀ n i, m.conceptToElement.Possible n i → m.readingOffFoundPossible = true) :
    let m' :=
  names.foldl (fun m i => (m.readOffTypes i (labels i) nodeForElement).seedTopKnown top i) m
    (∀ n i, m'.conceptToElement.Known n i ↔ m.conceptToElement.Known n i ∨
        i ∈ names ∧ (Labels labels nodeForElement true n i ∨ n = top)) ∧
      (∀ n i, m'.conceptToElement.Possible n i ↔ m.conceptToElement.Possible n i ∨
        i ∈ names ∧ Labels labels nodeForElement false n i) ∧
      ∀ n i, m'.conceptToElement.Possible n i → m'.readingOffFoundPossible = true := by
  induction names generalizing m with
  | nil => simpa using hm
  | cons name names ih =>
    obtain ⟨hknown, hposs, hflag⟩ := readOffTypes_spec nodeForElement m name (labels name)
    have hknownTop : ∀ n i, ((m.readOffTypes name (labels name) nodeForElement).seedTopKnown top
      name).conceptToElement.Known n i ↔
        m.conceptToElement.Known n i ∨ i = name ∧
          (Labels labels nodeForElement true n i ∨ n = top) := by
      intro n i
      rw [seedTopKnown, known_addKnown, hknown, Labels]
      constructor
      · rintro ((hn | ⟨rfl, hn⟩) | ⟨hn, rfl⟩)
        · exact .inl hn
        · exact .inr ⟨rfl, .inl hn⟩
        · exact .inr ⟨rfl, .inr hn⟩
      · rintro (hn | ⟨rfl, hn | hn⟩)
        · exact .inl (.inl hn)
        · exact .inl (.inr ⟨rfl, hn⟩)
        · exact .inr ⟨hn, rfl⟩
    have hpossibleTop : ∀ n i,
        ((m.readOffTypes name (labels name) nodeForElement).seedTopKnown top
          name).conceptToElement.Possible n i ↔
          m.conceptToElement.Possible n i ∨ i = name ∧ Labels labels nodeForElement false n i := by
      intro n i
      rw [seedTopKnown, possible_addKnown, hposs, Labels]
      constructor
      · rintro (hn | ⟨rfl, hn⟩)
        · exact .inl hn
        · exact .inr ⟨rfl, hn⟩
      · rintro (hn | ⟨rfl, hn⟩)
        · exact .inl hn
        · exact .inr ⟨rfl, hn⟩
    obtain ⟨ihknown, ihpossible, ihflag⟩ :=
      ih ((m.readOffTypes name (labels name) nodeForElement).seedTopKnown top name)
      fun n i hi => hflag hm n i (possible_addKnown.mp hi)
    refine ⟨fun n i => ?_, fun n i => ?_, ihflag⟩
    · rw [List.foldl_cons, ihknown, hknownTop, List.mem_cons]
      tauto
    · rw [List.foldl_cons, ihpossible, hpossibleTop, List.mem_cons]
      tauto

theorem seedClassInstances_spec (individuals : List String) :
    let m := seedClassInstances top labels nodeForElement individuals
    (∀ n i, m.conceptToElement.Known n i ↔ i ∈ individuals ∧
      (Labels labels nodeForElement true n i ∨ n = top)) ∧
      (∀ n i, m.conceptToElement.Possible n i ↔ i ∈ individuals ∧
        Labels labels nodeForElement false n i) ∧
      ∀ n i, m.conceptToElement.Possible n i → m.readingOffFoundPossible = true := by
  obtain ⟨hknown, hposs, hflag⟩ :=
    foldl_seed_spec top labels nodeForElement individuals new (by rintro n i ⟨e, he, -⟩; cases he)
  refine ⟨fun n i => ?_, fun n i => ?_, hflag⟩
  · refine (hknown n i).trans (or_iff_right ?_)
    rintro ⟨e, he, -⟩
    cases he
  · refine (hposs n i).trans (or_iff_right ?_)
    rintro ⟨e, he, -⟩
    cases he

end seeding

end SeededClassInstanceManager

end Hermit
