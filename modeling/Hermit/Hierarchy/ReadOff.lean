import Hermit.Hierarchy.Realization
import Hermit.Hierarchy.SameAs
import Hermit.Library.Forests
import Hermit.Owl.Semantics

/-! # Reading off a saturated tableau

The labels of the node that an individual was merged into are its known or possible types, by the
dependency set of the label alone.  The first merge of an individual is recorded as a pair when its
target is the node of an individual that is not internal.
-/

namespace Hermit

open SeededClassInstanceManager List Option

/-! ## Saturated tableaux -/

inductive LabelObject where
  | atomicConcept (iri : String)
  | other

/-- A tuple of the binary extension table. -/
structure LabelTuple where
  object : LabelObject
  node : ℕ
  dependencySet : List ℕ

structure SaturatedNode where
  isActive : Bool
  mergedInto : Option ℕ
  mergedIntoDependencySet : Option (List ℕ)

namespace SaturatedNode

def getMergedInto (nodes : List SaturatedNode) (n : ℕ) : Option ℕ := nodes[n]?.bind mergedInto

/-- Whether the merge of a node depends on no branching point. -/
def isMergedDefinitely (nodes : List SaturatedNode) (n : ℕ) : Bool :=
  (nodes[n]?.bind mergedIntoDependencySet).all List.isEmpty

/-- Follow the merges of a node; the flag says whether all of them are definite. -/
def walk (nodes : List SaturatedNode) : ℕ → ℕ → Option (ℕ × Bool)
  | fuel, n =>
    match getMergedInto nodes n with
    | none => some (n, true)
    | some into =>
      match fuel with
      | 0 => none
      | fuel + 1 => (walk nodes fuel into).map fun r => (r.1, isMergedDefinitely nodes n && r.2)

end SaturatedNode

open SaturatedNode (getMergedInto isMergedDefinitely walk)

structure SaturatedTableau where
  nodes : List SaturatedNode
  binaryExtensionTable : List LabelTuple
  ends : ∀ n, (walk nodes nodes.length n).isSome

namespace SaturatedTableau

variable (t : SaturatedTableau)

def isActive (n : ℕ) : Bool := t.nodes[n]?.any (·.isActive)

def getCanonicalNode (n : ℕ) : ℕ := ((walk t.nodes t.nodes.length n).get (t.ends n)).1

def nodeMergeChainIsDeterministic (n : ℕ) : Bool :=
  ((walk t.nodes t.nodes.length n).get (t.ends n)).2

/-- The atomic concept of a tuple about an active node. -/
def readOffTuple (n : ℕ) (tuple : LabelTuple) : Option ReadOffConcept :=
  if tuple.node = n ∧ t.isActive n then
    match tuple.object with
    | .atomicConcept iri => some ⟨iri, tuple.dependencySet.isEmpty⟩
    | .other => none
  else none

def readOffNodeConcepts (n : ℕ) : List ReadOffConcept :=
  t.binaryExtensionTable.filterMap (t.readOffTuple n)

end SaturatedTableau

def isInternal (iri : String) : Bool := "internal:".toList.isPrefixOf iri.toList

/-- The tableau of an ABox, with a node for each individual. -/
structure AboxTableau extends SaturatedTableau where
  individuals : List String
  nodesForIndividuals : List (String × ℕ)
  keys_nodup : (nodesForIndividuals.map Prod.fst).Nodup
  nodes_nodup : (nodesForIndividuals.map Prod.snd).Nodup
  mem_individuals : ∀ i, i ∈ individuals ↔ ∃ n, (i, n) ∈ nodesForIndividuals
  active : ∀ p ∈ nodesForIndividuals,
    toSaturatedTableau.isActive (toSaturatedTableau.getCanonicalNode p.2) = true

namespace AboxTableau

variable (a : AboxTableau)

def sameAsPair (individual : String × ℕ) : Option (String × String × Bool) :=
  if isInternal individual.1 then none
  else do
    let mergedInto ← getMergedInto a.nodes individual.2
    let other ← a.nodesForIndividuals.find? fun p => p.2 = mergedInto
    if isInternal other.1 then none
    else some (individual.1, other.1, isMergedDefinitely a.nodes individual.2)

def sameAsPairs : List (String × String × Bool) := a.nodesForIndividuals.filterMap a.sameAsPair

/-- The node of a class that has a name of its own. -/
def nodeForIri (nodeForElement : String → Option NodeRef) (iri : String) : Option NodeRef :=
  if iri = owlThing ∨ iri = owlNothing ∨ isInternal iri then none else nodeForElement iri

def labelsOf (individual : String) : List ReadOffConcept :=
  match a.nodesForIndividuals.lookup individual with
  | none => []
  | some rawNode => a.readOffNodeConcepts (a.getCanonicalNode rawNode)

def relevantIndividuals : List String := a.individuals.filter (!isInternal ·)

/-- The manager before the possible instances are tested. -/
def seedClassInstanceManager (nodeForElement : String → Option NodeRef) (top : NodeRef) :
    SeededClassInstanceManager :=
  (a.relevantIndividuals.filter fun i => (a.nodesForIndividuals.lookup i).isSome).foldl
    (fun m i => (m.readOffTypes i (a.labelsOf i) (nodeForIri nodeForElement)).seedTopKnown top i)
    (new.seedSameAs a.relevantIndividuals a.sameAsPairs)

end AboxTableau

/-! ## Merges -/

namespace SaturatedNode

variable {nodes : List SaturatedNode} {n into fuel : ℕ}

theorem walk_of_none (h : getMergedInto nodes n = none) : walk nodes fuel n = some (n, true) := by
  cases fuel with
  | zero | succ fuel => simp only [walk, h]

theorem walk_succ_of_some (h : getMergedInto nodes n = some into) :
    walk nodes (fuel + 1) n = (walk nodes fuel into).map fun r =>
        (r.1, isMergedDefinitely nodes n && r.2) := by
  rw [walk]
  simp only [h]

theorem walk_zero_of_some (h : getMergedInto nodes n = some into) : walk nodes 0 n = none := by
  simp only [walk, h]

theorem walk_succ {r : ℕ × Bool} (h : walk nodes fuel n = some r) :
    walk nodes (fuel + 1) n = some r := by
  induction fuel generalizing n r with
  | zero =>
    cases hmg : getMergedInto nodes n with
    | none =>
      rw [walk_of_none hmg] at h ⊢
      exact h
    | some into =>
      rw [walk_zero_of_some hmg] at h
      cases h
  | succ fuel ih =>
    cases hmg : getMergedInto nodes n with
    | none =>
      rw [walk_of_none hmg] at h ⊢
      exact h
    | some into =>
      rw [walk_succ_of_some hmg] at h ⊢
      obtain ⟨r', hr', rfl⟩ := map_eq_some_iff.mp h
      rw [ih hr']
      rfl

end SaturatedNode

namespace SaturatedTableau

open SaturatedNode

variable {t : SaturatedTableau} {n into : ℕ}

theorem walk_eq (t : SaturatedTableau) (n : ℕ) : walk t.nodes t.nodes.length n = some
    (t.getCanonicalNode n, t.nodeMergeChainIsDeterministic n) :=
  (some_get (t.ends n)).symm

theorem canonical_of_none (h : getMergedInto t.nodes n = none) :
    t.getCanonicalNode n = n ∧ t.nodeMergeChainIsDeterministic n = true := by
  have hwalk := t.walk_eq n
  rw [walk_of_none h] at hwalk
  obtain ⟨hcan, hchain⟩ := Prod.mk.inj (some.inj hwalk)
  exact ⟨hcan.symm, hchain.symm⟩

theorem canonical_of_some (h : getMergedInto t.nodes n = some into) :
    t.getCanonicalNode n = t.getCanonicalNode into ∧ t.nodeMergeChainIsDeterministic n =
      (isMergedDefinitely t.nodes n && t.nodeMergeChainIsDeterministic into) := by
  have hwalk := walk_succ (t.walk_eq n)
  rw [walk_succ_of_some h, t.walk_eq into] at hwalk
  obtain ⟨hcan, hchain⟩ := Prod.mk.inj (some.inj hwalk)
  exact ⟨hcan.symm, hchain.symm⟩

/-- What holds of canonical nodes, and of a node when it holds of the one that it was merged into,
holds of all nodes. -/
theorem merge_induction (t : SaturatedTableau) {P : ℕ → Prop}
    (hnone : ∀ n, getMergedInto t.nodes n = none → P n)
    (hsome : ∀ n into, getMergedInto t.nodes n = some into → P into → P n) (n : ℕ) : P n := by
  have hwalk : ∀ fuel n, (walk t.nodes fuel n).isSome = true → P n := by
    intro fuel
    induction fuel with
    | zero =>
      intro n h
      cases hmg : getMergedInto t.nodes n with
      | none => exact hnone n hmg
      | some into =>
        rw [walk_zero_of_some hmg] at h
        cases h
    | succ fuel ih =>
      intro n h
      cases hmg : getMergedInto t.nodes n with
      | none => exact hnone n hmg
      | some into =>
        rw [walk_succ_of_some hmg, isSome_map] at h
        exact hsome n into hmg (ih into h)
  exact hwalk _ n (t.ends n)

theorem mem_readOffNodeConcepts {label : ReadOffConcept} : label ∈ t.readOffNodeConcepts n ↔
    t.isActive n = true ∧ ∃ dependencySet,
    ⟨.atomicConcept label.conceptIri, n, dependencySet⟩ ∈ t.binaryExtensionTable ∧
      label.known = dependencySet.isEmpty := by
  rw [readOffNodeConcepts, mem_filterMap]
  constructor
  · rintro ⟨⟨object, node, dependencySet⟩, hmem, hread⟩
    rw [readOffTuple] at hread
    split at hread
    · rename_i hnode
      obtain ⟨rfl, hact⟩ := hnode
      cases object with
      | atomicConcept iri =>
        cases hread
        exact ⟨hact, dependencySet, hmem, rfl⟩
      | other => cases hread
    · cases hread
  · rintro ⟨hact, dependencySet, hmem, hknown⟩
    refine ⟨_, hmem, ?_⟩
    rw [readOffTuple, if_pos ⟨rfl, hact⟩, ← hknown]

end SaturatedTableau

/-! ## Meaning -/

/-- The individual has the type in all models. -/
def EntailsType (ontology : List Component) (c : Iri) (i : Iri) : Prop :=
  ∀ (Dom Val : Type) (I : Interp Dom Val), I.isModel ontology →
    I.individuals (.named i) ∈ I.classes c

def EntailsSame (ontology : List Component) (i j : Iri) : Prop :=
  ∀ (Dom Val : Type) (I : Interp Dom Val), I.isModel ontology →
    I.individuals (.named i) = I.individuals (.named j)

namespace AboxTableau

/-- The nodes of the individuals stand for them. -/
def Places (a : AboxTableau) {Dom Val : Type} (I : Interp Dom Val) (ν : ℕ → Dom) : Prop :=
  ∀ p ∈ a.nodesForIndividuals, isInternal p.1 = false → ν p.2 = I.individuals (.named p.1)

/-- What depends on no branching point holds in all models, and all labels describe one of them. -/
structure Describes (a : AboxTableau) (ontology : List Component) : Prop where
  definite : ∀ (Dom Val : Type) (I : Interp Dom Val), I.isModel ontology → ∃ ν : ℕ → Dom,
    a.Places I ν ∧
    (∀ n into, getMergedInto a.nodes n = some into → isMergedDefinitely a.nodes n = true →
      ν n = ν into) ∧
    ∀ n c, a.isActive n = true → isInternal c = false →
      ⟨.atomicConcept c, n, []⟩ ∈ a.binaryExtensionTable → ν n ∈ I.classes c
  model : ∃ (Dom Val : Type) (I : Interp Dom Val), I.isModel ontology ∧ ∃ ν : ℕ → Dom,
    a.Places I ν ∧
    (∀ n into, getMergedInto a.nodes n = some into → ν n = ν into) ∧
    ∀ n c, a.isActive n = true → isInternal c = false → c ≠ owlThing →
      (ν n ∈ I.classes c ↔ ∃ dependencySet,
        ⟨.atomicConcept c, n, dependencySet⟩ ∈ a.binaryExtensionTable)

end AboxTableau

/-- The classes of a node of the hierarchy have the same instances, and `owl:Thing` is at the top.
-/
structure ClassNodes (ontology : List Component) (nodeForElement : String → Option NodeRef)
    (top : NodeRef) : Prop where
  top : nodeForElement owlThing = some top
  same : ∀ c d n, nodeForElement c = some n → nodeForElement d = some n →
    ∀ (Dom Val : Type) (I : Interp Dom Val), I.isModel ontology → I.classes c = I.classes d

namespace AboxTableau

variable {a : AboxTableau} {nodeForElement : String → Option NodeRef} {top : NodeRef}
    {ontology : List Component} {i c : String}
  {node : ℕ} {n : NodeRef}

theorem lookup_eq_some : a.nodesForIndividuals.lookup i = some node ↔
    (i, node) ∈ a.nodesForIndividuals := by
  have hlook : ∀ l : List (String × ℕ), (l.map Prod.fst).Nodup →
      (l.lookup i = some node ↔ (i, node) ∈ l) := by
    intro l
    induction l with
    | nil => simp
    | cons p l ih =>
      obtain ⟨j, k⟩ := p
      intro hnd
      obtain ⟨hj, hnd⟩ := nodup_cons.mp hnd
      by_cases hij : i = j
      · subst hij
        have hnot : (i, node) ∉ l := fun hmem => hj (List.mem_map.mpr ⟨(i, node), hmem, rfl⟩)
        simp [hnot, eq_comm]
      · rw [lookup_cons, beq_false_of_ne hij, ih hnd, mem_cons]
        simp [hij]
  exact hlook _ a.keys_nodup

/-- The individuals whose pairs are recorded, with their nodes. -/
def Ordinary (a : AboxTableau) (p : String × ℕ) : Prop :=
  p ∈ a.nodesForIndividuals ∧ isInternal p.1 = false

variable {j : String} {p : String × ℕ}

theorem individual_unique {i : String} {m : ℕ} (h : (i, m) ∈ a.nodesForIndividuals)
    (h' : (j, m) ∈ a.nodesForIndividuals) :
    i = j := by
  have hinj := inj_on_of_nodup_map a.nodes_nodup h h' rfl
  exact congrArg Prod.fst hinj

theorem sameAsPair_eq_some {i : String} {definite : Bool} :
    a.sameAsPair p = some (i, j, definite) ↔ p.1 = i ∧ isInternal i = false ∧
      ∃ into, getMergedInto a.nodes p.2 = some into ∧ a.Ordinary (j, into) ∧
      definite = isMergedDefinitely a.nodes p.2 := by
  rw [sameAsPair]
  cases hinternal : isInternal p.1 with
  | true =>
    refine iff_of_false (by simp) ?_
    rintro ⟨rfl, hord, -⟩
    rw [hinternal] at hord
    cases hord
  | false =>
    cases hmg : getMergedInto a.nodes p.2 with
    | none => simp
    | some into =>
      cases hfind : a.nodesForIndividuals.find? fun p => p.2 = into with
      | none =>
        refine iff_of_false (by simp [hfind]) ?_
        rintro ⟨-, -, m, hm, ⟨hmem, -⟩, -⟩
        cases hm
        exact find?_eq_none.mp hfind (j, into) hmem (decide_eq_true rfl)
      | some other =>
        have hoth : other.2 = into := by simpa using find?_some hfind
        have hmem : (other.1, into) ∈ a.nodesForIndividuals := hoth ▸ mem_of_find?_eq_some hfind
        simp only [Bool.false_eq_true, if_false, bind_eq_bind, bind_some, hfind]
        cases hotherInternal : isInternal other.1 with
        | true =>
          refine iff_of_false (by simp) ?_
          rintro ⟨-, -, m, hm, ⟨hj, hord⟩, -⟩
          cases hm
          rw [← individual_unique hmem hj, hotherInternal] at hord
          cases hord
        | false =>
          simp only [Bool.false_eq_true, if_false, some.injEq, Prod.mk.injEq]
          constructor
          · rintro ⟨rfl, rfl, rfl⟩
            exact ⟨rfl, hinternal, into, rfl, ⟨hmem, hotherInternal⟩, rfl⟩
          · rintro ⟨rfl, -, m, rfl, ⟨hj, -⟩, rfl⟩
            exact ⟨rfl, individual_unique hmem hj, rfl⟩

/-! ## Types -/

theorem conceptToElement_seedSameAs (m : SeededClassInstanceManager) (individuals : List String)
    (pairs : List (String × String × Bool)) : (m.seedSameAs individuals pairs).conceptToElement =
    m.conceptToElement := by
  have hind : ∀ (m : SeededClassInstanceManager) i,
      (m.seedIndividual i).conceptToElement = m.conceptToElement := by
    intro m i
    rw [seedIndividual]
    split <;> rfl
  have hdef : ∀ (m : SeededClassInstanceManager) pair,
      (m.seedDefinite pair).conceptToElement = m.conceptToElement := by
    intro m pair
    rw [seedDefinite, unionSameAs]
    split_ifs <;> rfl
  have hposs : ∀ (m : SeededClassInstanceManager) pair,
      (m.seedPossible pair).conceptToElement = m.conceptToElement := by
    intro m pair
    rw [seedPossible]
    split_ifs <;> rfl
  have hfold : ∀ {β : Type} (step : SeededClassInstanceManager → β → SeededClassInstanceManager)
    (l : List β) (m), (∀ m b, (step m b).conceptToElement = m.conceptToElement) →
        (l.foldl step m).conceptToElement = m.conceptToElement := by
    intro β step l m hstep
    induction l generalizing m with
    | nil => rfl
    | cons b l ih => rw [foldl_cons, ih, hstep]
  rw [seedSameAs, hfold _ _ _ hposs, hfold _ _ _ hdef, hfold _ _ _ hind]

/-- What is recorded about an individual. -/
theorem seedClassInstanceManager_spec (nodeForElement : String → Option NodeRef) (top n : NodeRef)
    (hnode : (i, node) ∈ a.nodesForIndividuals) (hord : isInternal i = false) :
    let m := a.seedClassInstanceManager nodeForElement top
    let labels := a.readOffNodeConcepts (a.getCanonicalNode node)
    (m.conceptToElement.Known n i ↔
        (∃ label ∈ labels, label.known = true ∧ nodeForIri nodeForElement label.conceptIri =
          some n) ∨ n = top) ∧
      (m.conceptToElement.Possible n i ↔
        ∃ label ∈ labels, label.known = false ∧ nodeForIri nodeForElement label.conceptIri =
          some n) := by
  let m := new.seedSameAs a.relevantIndividuals a.sameAsPairs
  have hemp : m.conceptToElement = ∅ := conceptToElement_seedSameAs _ _ _
  have hknown : ∀ n i, ¬ m.conceptToElement.Known n i := by
    rintro n i ⟨e, he, -⟩
    rw [hemp] at he
    cases he
  have hposs : ∀ n i, ¬ m.conceptToElement.Possible n i := by
    rintro n i ⟨e, he, -⟩
    rw [hemp] at he
    cases he
  have hlab : a.labelsOf i = a.readOffNodeConcepts (a.getCanonicalNode node) := by
    rw [labelsOf, lookup_eq_some.mpr hnode]
  have hmem : i ∈ a.relevantIndividuals.filter fun i =>
      (a.nodesForIndividuals.lookup i).isSome := by
    rw [mem_filter, relevantIndividuals, mem_filter, lookup_eq_some.mpr hnode, hord]
    exact ⟨⟨(a.mem_individuals i).mpr ⟨node, hnode⟩, rfl⟩, rfl⟩
  obtain ⟨hk, hp, -⟩ := foldl_seed_spec top a.labelsOf (nodeForIri nodeForElement) _ m
    fun n i hi => absurd hi (hposs n i)
  constructor
  · refine (hk n i).trans ?_
    rw [or_iff_right (hknown n i), and_iff_right hmem, Labels, hlab]
  · refine (hp n i).trans ?_
    rw [or_iff_right (hposs n i), and_iff_right hmem, Labels, hlab]

theorem nodeForIri_eq_some : nodeForIri nodeForElement c = some n ↔
    c ≠ owlThing ∧ c ≠ owlNothing ∧ isInternal c = false ∧ nodeForElement c = some n := by
  rw [nodeForIri]
  split
  · rename_i h
    refine iff_of_false nofun ?_
    rintro ⟨hth, hnothing, hinternal, -⟩
    rcases h with h | h | h
    · exact hth h
    · exact hnothing h
    · rw [hinternal] at h
      cases h
  · rename_i h
    simp only [not_or, Bool.not_eq_true] at h
    simp [h]

/-- A merged node stands for the same as its canonical one. -/
theorem canonical_place {Dom : Type} {ν : ℕ → Dom}
    (h : ∀ n into, getMergedInto a.nodes n = some into → ν n = ν into) (n : ℕ) :
    ν n = ν (a.getCanonicalNode n) := by
  induction n using a.merge_induction with
  | hnone n hmg => rw [(SaturatedTableau.canonical_of_none hmg).1]
  | hsome n into hmg ih =>
    rw [(SaturatedTableau.canonical_of_some hmg).1, h n into hmg, ih]

theorem definite_place {Dom : Type} {ν : ℕ → Dom}
    (h : ∀ n into, getMergedInto a.nodes n = some into → isMergedDefinitely a.nodes n = true →
      ν n = ν into) (n : ℕ)
    (hchain : a.nodeMergeChainIsDeterministic n = true) : ν n = ν (a.getCanonicalNode n) := by
  induction n using a.merge_induction with
  | hnone n hmg => rw [(SaturatedTableau.canonical_of_none hmg).1]
  | hsome n into hmg ih =>
    obtain ⟨hcan, hflag⟩ := SaturatedTableau.canonical_of_some hmg
    rw [hflag, Bool.and_eq_true] at hchain
    rw [hcan, h n into hmg hchain.1, ih hchain.2]

/-- A type that an individual has is recorded. -/
theorem Describes.recorded (h : a.Describes ontology)
    (hnodes : ClassNodes ontology nodeForElement top)
    (hnode : (i, node) ∈ a.nodesForIndividuals) (hord : isInternal i = false)
    (hcls : isInternal c = false)
    (hn : nodeForElement c = some n) (hent : EntailsType ontology c i) :
    (a.seedClassInstanceManager nodeForElement top).conceptToElement.Known n i ∨
      (a.seedClassInstanceManager nodeForElement top).conceptToElement.Possible n i := by
  obtain ⟨hknown, hposs⟩ := seedClassInstanceManager_spec nodeForElement top n hnode hord
  rw [hknown, hposs]
  by_cases hth : c = owlThing
  · rw [hth, hnodes.top] at hn
    exact .inl (.inr (some.inj hn).symm)
  · obtain ⟨Dom, Val, I, hI, ν, hplaces, hmg, hlab⟩ := h.model
    have htype := hent Dom Val I hI
    have hnothing : c ≠ owlNothing := by
      rintro rfl
      rw [I.classes_nothing] at htype
      exact htype
    have hact := a.active (i, node) hnode
    rw [← hplaces (i, node) hnode hord, canonical_place hmg] at htype
    obtain ⟨dependencySet, hlabel⟩ := (hlab _ c hact hcls hth).mp htype
    have hiri : nodeForIri nodeForElement c = some n :=
      nodeForIri_eq_some.mpr ⟨hth, hnothing, hcls, hn⟩
    have hread : ⟨c, dependencySet.isEmpty⟩ ∈ a.readOffNodeConcepts (a.getCanonicalNode node) :=
      SaturatedTableau.mem_readOffNodeConcepts.mpr ⟨hact, dependencySet, hlabel, rfl⟩
    cases hemp : dependencySet.isEmpty with
    | true => exact .inl (.inl ⟨_, hread, hemp, hiri⟩)
    | false => exact .inr ⟨_, hread, hemp, hiri⟩

/-- A label that depends on no branching point is a type when no merge of the individual does. -/
theorem Describes.entailsType_of_chain (h : a.Describes ontology)
    (hnode : (i, node) ∈ a.nodesForIndividuals)
    (hord : isInternal i = false) (hcls : isInternal c = false)
    (hchain : a.nodeMergeChainIsDeterministic node = true)
    (hlabel : ⟨.atomicConcept c, a.getCanonicalNode node, []⟩ ∈ a.binaryExtensionTable) :
    EntailsType ontology c i := by
  intro Dom Val I hI
  obtain ⟨ν, hplaces, hmg, hlab⟩ := h.definite Dom Val I hI
  rw [← hplaces (i, node) hnode hord, definite_place hmg node hchain]
  exact hlab _ c (a.active (i, node) hnode) hcls hlabel

/-- The read-off is sound and complete for all individuals if and only if the labels without
branching points of a node are types of all individuals that branching merged into it. -/
theorem readOff_exact_iff (ontology : List Component) (a : AboxTableau)
    (nodeForElement : String → Option NodeRef) (top : NodeRef)
    (h : a.Describes ontology) (hnodes : ClassNodes ontology nodeForElement top) :
    (∀ i ∈ a.individuals, isInternal i = false → ∀ c n, isInternal c = false →
      nodeForElement c = some n →
      ((a.seedClassInstanceManager nodeForElement top).conceptToElement.Known n i →
        EntailsType ontology c i) ∧ (EntailsType ontology c i →
        (a.seedClassInstanceManager nodeForElement top).conceptToElement.Known n i ∨
        (a.seedClassInstanceManager nodeForElement top).conceptToElement.Possible n i)) ↔
    ∀ p ∈ a.nodesForIndividuals, isInternal p.1 = false →
    a.nodeMergeChainIsDeterministic p.2 = false → ∀ c, (nodeForIri nodeForElement c).isSome = true →
        ⟨.atomicConcept c, a.getCanonicalNode p.2, []⟩ ∈ a.binaryExtensionTable →
        EntailsType ontology c p.1 := by
  constructor
  · rintro hexact ⟨i, node⟩ hnode hord - c hc hlabel
    obtain ⟨n, hn⟩ := isSome_iff_exists.mp hc
    obtain ⟨-, -, hcls, helem⟩ := nodeForIri_eq_some.mp hn
    have hread : ⟨c, true⟩ ∈ a.readOffNodeConcepts (a.getCanonicalNode node) :=
      SaturatedTableau.mem_readOffNodeConcepts.mpr ⟨a.active (i, node) hnode, [], hlabel, rfl⟩
    apply (hexact i ((a.mem_individuals i).mpr ⟨node, hnode⟩) hord c n hcls helem).1
    exact (seedClassInstanceManager_spec nodeForElement top n hnode hord).1.mpr
      (.inl ⟨_, hread, rfl, hn⟩)
  · intro hmg i hi hord c n hcls hn
    obtain ⟨node, hnode⟩ := (a.mem_individuals i).mp hi
    refine ⟨fun hknown => ?_, h.recorded hnodes hnode hord hcls hn⟩
    rcases (seedClassInstanceManager_spec nodeForElement top n hnode hord).1.mp hknown
      with ⟨⟨d, known⟩, hread, rfl, hd⟩ | rfl
    · obtain ⟨-, -, hdclass, hdelement⟩ := nodeForIri_eq_some.mp hd
      obtain ⟨-, dependencySet, hlabel, hemp⟩ := SaturatedTableau.mem_readOffNodeConcepts.mp hread
      rw [List.isEmpty_iff.mp hemp.symm] at hlabel
      have htype : EntailsType ontology d i := by
        cases hchain : a.nodeMergeChainIsDeterministic node with
        | true => exact h.entailsType_of_chain hnode hord hdclass hchain hlabel
        | false => exact hmg (i, node) hnode hord hchain d (isSome_of_eq_some hd) hlabel
      intro Dom Val I hI
      rw [hnodes.same c d n hn hdelement Dom Val I hI]
      exact htype Dom Val I hI
    · intro Dom Val I hI
      rw [hnodes.same c owlThing n hn hnodes.top Dom Val I hI, I.classes_thing]
      exact Set.mem_univ _

/-- The classes and individuals are given, and everything is related to everything. -/
def fullInterp {Dom : Type} (x : Dom) (classes : Iri → Set Dom) (individuals : Individ → Dom) :
    Interp Dom Unit where
  nonempty := ⟨x⟩
  classes c := {y | c = owlThing ∨ c ≠ owlNothing ∧ y ∈ classes c}
  classes_thing := by simp
  classes_nothing := by simp [owlThing, owlNothing]
  objectProperties p _ _ := p ≠ bottomObjectRole
  objectProperties_top := by simp [topObjectRole, bottomObjectRole]
  objectProperties_bottom := by simp
  dataProperties p _ _ := p ≠ bottomDataRole
  dataProperties_top := by simp [topDataRole, bottomDataRole]
  dataProperties_bottom := by simp
  individuals := individuals
  datatypes _ := Set.univ
  datatypes_literal := rfl
  literals _ := ()
  facets _ := Set.univ
  builtIns _ _ := True

/-- The individual `i` is one of `j` and `k`, and only `j` is known to have the type. -/
def eitherOntology : List Component :=
  [.classAssertion (.objectOneOf [.named "j", .named "k"]) (.named "i"),
    .classAssertion (.class "A") (.named "j")]

/-- A branching point merged the node of `i` into that of `j`. -/
def eitherTableau : AboxTableau where
  nodes := [⟨false, some 1, some [1]⟩, ⟨true, none, none⟩, ⟨true, none, none⟩]
  binaryExtensionTable := [⟨.atomicConcept "A", 1, []⟩]
  ends := fun
    | 0 => rfl
    | 1 => rfl
    | 2 => rfl
    | _ + 3 => rfl
  individuals := ["i", "j", "k"]
  nodesForIndividuals := [("i", 0), ("j", 1), ("k", 2)]
  keys_nodup := by decide
  nodes_nodup := by decide
  mem_individuals := by simp [exists_or]
  active := by decide

def classNode (c : String) : Option NodeRef :=
  if c = owlThing then some 0 else if c = owlNothing then some 1 else if c =
    "A" then some 2 else none

theorem classNodes_classNode (ontology : List Component) : ClassNodes ontology classNode 0 where
  top := if_pos rfl
  same := by
    intro c d n hc hd Dom Val I hI
    have hone : c = d := by grind [classNode]
    rw [hone]

theorem describes_eitherTableau : eitherTableau.Describes eitherOntology where
  definite := by
    intro Dom Val I hI
    let ν : ℕ → Dom := fun
      | 0 => I.individuals (.named "i")
      | 1 => I.individuals (.named "j")
      | _ => I.individuals (.named "k")
    refine ⟨ν, ?_, ?_, ?_⟩
    · intro p hp _
      have hp : p = ("i", 0) ∨ p = ("j", 1) ∨ p = ("k", 2) := by simpa [eitherTableau] using hp
      obtain rfl | rfl | rfl := hp <;> rfl
    · intro n into hmg hdef
      match n with
      | 0 => cases hdef
      | 1 => cases hmg
      | 2 => cases hmg
      | n + 3 => cases hmg
    · intro n c _ _ hlabel
      have hlabel : c = "A" ∧ n = 1 := by simpa [eitherTableau] using hlabel
      obtain ⟨rfl, rfl⟩ := hlabel
      exact hI (.classAssertion (.class "A") (.named "j")) (by simp [eitherOntology])
  model := by
    let I := fullInterp true (fun c => {x | c = "A" ∧ x = true}) fun i => decide (i ≠ .named "k")
    refine ⟨Bool, Unit, I, ?_, fun n => decide (n ≠ 2), ?_, ?_, ?_⟩
    · intro c hc
      have hc : c = .classAssertion (.objectOneOf [.named "j", .named "k"]) (.named "i") ∨
          c = .classAssertion (.class "A") (.named "j") := by simpa [eitherOntology] using hc
      obtain rfl | rfl := hc
      · exact ⟨.named "j", by simp, rfl⟩
      · exact .inr ⟨by decide, rfl, rfl⟩
    · intro p hp _
      have hp : p = ("i", 0) ∨ p = ("j", 1) ∨ p = ("k", 2) := by simpa [eitherTableau] using hp
      obtain rfl | rfl | rfl := hp <;> rfl
    · intro n into hmg
      match n with
      | 0 =>
        cases hmg
        rfl
      | 1 => cases hmg
      | 2 => cases hmg
      | n + 3 => cases hmg
    · intro n c hact _ hc
      match n with
      | 0 => cases hact
      | 1 =>
        simp only [I, fullInterp, eitherTableau, Set.mem_ofPred_eq, mem_singleton,
            LabelTuple.mk.injEq,
          LabelObject.atomicConcept.injEq, true_and, exists_eq_right, or_iff_right hc]
        refine ⟨fun h => h.2.1, ?_⟩
        rintro rfl
        exact ⟨by decide, rfl, rfl⟩
      | 2 => simp [I, fullInterp, eitherTableau, hc]
      | n + 3 => cases hact

/-- The type of `j` is recorded as known for `i`, which need not be `j`. -/
theorem readOff_not_sound_of_branching : eitherTableau.Describes eitherOntology ∧
    ClassNodes eitherOntology classNode 0 ∧
    (eitherTableau.seedClassInstanceManager classNode 0).conceptToElement.Known 2 "i" ∧
    ¬ EntailsType eitherOntology "A" "i" := by
  refine ⟨describes_eitherTableau, classNodes_classNode _, ?_, ?_⟩
  · have hread : (⟨"A", true⟩ : ReadOffConcept) ∈ eitherTableau.readOffNodeConcepts 1 :=
      SaturatedTableau.mem_readOffNodeConcepts.mpr ⟨rfl, [], mem_singleton_self _, rfl⟩
    have hnode : ("i", 0) ∈ eitherTableau.nodesForIndividuals := by decide
    exact (seedClassInstanceManager_spec classNode 0 2 hnode (by decide)).1.mpr
      (.inl ⟨_, hread, rfl, by decide⟩)
  · intro hent
    let I := fullInterp true (fun c => {x | c = "A" ∧ x = true}) fun i => decide (i = .named "j")
    have htype := hent Bool Unit I ?_
    · simp [I, fullInterp, owlThing] at htype
    · intro c hc
      have hc : c = .classAssertion (.objectOneOf [.named "j", .named "k"]) (.named "i") ∨
          c = .classAssertion (.class "A") (.named "j") := by simpa [eitherOntology] using hc
      obtain rfl | rfl := hc
      · exact ⟨.named "k", by simp, rfl⟩
      · exact .inr ⟨by decide, rfl, rfl⟩

def sameOntology : List Component :=
  [.sameIndividual [.named "a", .named "b"], .classAssertion (.class "A") (.named "b")]

/-- The node of `a` was merged into that of `b`, whatever is chosen elsewhere. -/
def sameTableau : AboxTableau where
  nodes := [⟨false, some 1, some []⟩, ⟨true, none, none⟩]
  binaryExtensionTable := [⟨.atomicConcept "A", 1, []⟩]
  ends := fun
    | 0 => rfl
    | 1 => rfl
    | _ + 2 => rfl
  individuals := ["a", "b"]
  nodesForIndividuals := [("a", 0), ("b", 1)]
  keys_nodup := by decide
  nodes_nodup := by decide
  mem_individuals := by simp [exists_or]
  active := by decide

theorem describes_sameTableau : sameTableau.Describes sameOntology where
  definite := by
    intro Dom Val I hI
    have hsame : I.individuals (.named "a") = I.individuals (.named "b") :=
      hI (.sameIndividual [.named "a", .named "b"]) (by simp [sameOntology]) _ (by simp) _ (by simp)
    refine ⟨fun _ => I.individuals (.named "b"), ?_, fun n into _ _ => rfl, ?_⟩
    · intro p hp _
      have hp : p = ("a", 0) ∨ p = ("b", 1) := by simpa [sameTableau] using hp
      obtain rfl | rfl := hp
      · exact hsame.symm
      · rfl
    · intro n c _ _ hlabel
      have hlabel : c = "A" ∧ n = 1 := by simpa [sameTableau] using hlabel
      obtain ⟨rfl, rfl⟩ := hlabel
      exact hI (.classAssertion (.class "A") (.named "b")) (by simp [sameOntology])
  model := by
    let I := fullInterp () (fun c => {_x | c = "A"}) fun _ => ()
    refine ⟨Unit, Unit, I, ?_, fun _ => (), fun p _ _ => rfl, fun n into _ => rfl, ?_⟩
    · intro c hc
      have hc : c = .sameIndividual [.named "a", .named "b"] ∨
          c = .classAssertion (.class "A") (.named "b") := by
        simpa [sameOntology] using hc
      obtain rfl | rfl := hc
      · exact fun i _ j _ => rfl
      · exact .inr ⟨by decide, rfl⟩
    · intro n c hact _ hc
      match n with
      | 0 => cases hact
      | 1 =>
        simp only [I, fullInterp, sameTableau, Set.mem_ofPred_eq, mem_singleton,
            LabelTuple.mk.injEq,
          LabelObject.atomicConcept.injEq, true_and, exists_eq_right, or_iff_right hc]
        refine and_iff_right_of_imp ?_
        rintro rfl
        decide
      | n + 2 => cases hact

theorem readOff_exact_of_definite_merge :
    (sameTableau.seedClassInstanceManager classNode 0).conceptToElement.Known 2 "a" ∧
    EntailsType sameOntology "A" "a" := by
  have hread : (⟨"A", true⟩ : ReadOffConcept) ∈ sameTableau.readOffNodeConcepts 1 :=
    SaturatedTableau.mem_readOffNodeConcepts.mpr ⟨rfl, [], mem_singleton_self _, rfl⟩
  have hnode : ("a", 0) ∈ sameTableau.nodesForIndividuals := by decide
  have hknown : (sameTableau.seedClassInstanceManager classNode 0).conceptToElement.Known 2 "a" :=
    (seedClassInstanceManager_spec classNode 0 2 hnode (by decide)).1.mpr
      (.inl ⟨_, hread, rfl, by decide⟩)
  have hexact := (readOff_exact_iff sameOntology sameTableau classNode 0 describes_sameTableau
    (classNodes_classNode _)).mpr ?_
  · exact ⟨hknown, (hexact "a" (by decide) (by decide) "A" 2 (by decide) (by decide)).1 hknown⟩
  · intro p hp _ hchain
    have hp : p = ("a", 0) ∨ p = ("b", 1) := by simpa [sameTableau] using hp
    obtain rfl | rfl := hp
    · cases hchain
    · cases hchain

/-! ## Pairs -/

/-- The node of the individual is canonical, or it was merged into a node of no other ordinary
individual. -/
def IsRoot (a : AboxTableau) (p : String × ℕ) : Prop :=
  ∀ into, getMergedInto a.nodes p.2 = some into → ∀ i, ¬ a.Ordinary (i, into)

def Recorded (a : AboxTableau) (i j : String) : Prop := ∃ definite, (i, j, definite) ∈ a.sameAsPairs

def RecordedDefinitely (a : AboxTableau) (i j : String) : Prop := (i, j, true) ∈ a.sameAsPairs

theorem node_unique {i : String} {m m' : ℕ} (h : (i, m) ∈ a.nodesForIndividuals)
    (h' : (i, m') ∈ a.nodesForIndividuals) : m = m' :=
  some.inj ((lookup_eq_some.mpr h).symm.trans (lookup_eq_some.mpr h'))

theorem mem_sameAsPairs {i : String} {definite : Bool} : (i, j, definite) ∈ a.sameAsPairs ↔
    ∃ n into, a.Ordinary (i, n) ∧ getMergedInto a.nodes n = some into ∧ a.Ordinary (j, into) ∧
      definite = isMergedDefinitely a.nodes n := by
  rw [sameAsPairs, mem_filterMap]
  constructor
  · rintro ⟨⟨x, n⟩, hmem, hpair⟩
    obtain ⟨rfl, hord, into, hmg, hj, hdef⟩ := sameAsPair_eq_some.mp hpair
    exact ⟨n, into, ⟨hmem, hord⟩, hmg, hj, hdef⟩
  · rintro ⟨n, into, ⟨hmem, hord⟩, hmg, hj, hdef⟩
    exact ⟨(i, n), hmem, sameAsPair_eq_some.mpr ⟨rfl, hord, into, hmg, hj, hdef⟩⟩

theorem recorded_iff {i : String} : a.Recorded i j ↔
    ∃ n into, a.Ordinary (i, n) ∧ getMergedInto a.nodes n = some into ∧ a.Ordinary (j, into) := by
  constructor
  · rintro ⟨definite, hpair⟩
    obtain ⟨n, into, hi, hmg, hj, -⟩ := mem_sameAsPairs.mp hpair
    exact ⟨n, into, hi, hmg, hj⟩
  · rintro ⟨n, into, hi, hmg, hj⟩
    exact ⟨_, mem_sameAsPairs.mpr ⟨n, into, hi, hmg, hj, rfl⟩⟩

theorem rightUnique_recorded (a : AboxTableau) : Relator.RightUnique a.Recorded := by
  intro i j k hij hik
  obtain ⟨n, into, hi, hmg, hj⟩ := recorded_iff.mp hij
  obtain ⟨n', into', hi', hmg', hk⟩ := recorded_iff.mp hik
  rw [node_unique hi'.1 hi.1, hmg] at hmg'
  rw [← some.inj hmg'] at hk
  exact individual_unique hj.1 hk.1

/-- The canonical node of an individual. -/
def canonicalOf (a : AboxTableau) (i : String) : Option ℕ :=
  (a.nodesForIndividuals.lookup i).map a.getCanonicalNode

theorem canonicalOf_eq (h : a.Ordinary p) : a.canonicalOf p.1 = some (a.getCanonicalNode p.2) := by
  rw [canonicalOf, lookup_eq_some.mpr h.1]
  rfl

theorem canonicalOf_recorded {i : String} (h : a.Recorded i j) :
    a.canonicalOf i = a.canonicalOf j := by
  obtain ⟨n, into, hi, hmg, hj⟩ := recorded_iff.mp h
  rw [canonicalOf_eq hi, canonicalOf_eq hj, (SaturatedTableau.canonical_of_some hmg).1]

theorem root_iff (h : a.Ordinary p) : Forests.Root a.Recorded p.1 ↔ a.IsRoot p := by
  constructor
  · intro hroot into hmg j hj
    exact hroot j (recorded_iff.mpr ⟨p.2, into, h, hmg, hj⟩)
  · intro hroot j hij
    obtain ⟨n, into, hi, hmg, hj⟩ := recorded_iff.mp hij
    rw [node_unique hi.1 h.1] at hmg
    exact hroot into hmg j hj

/-- An individual goes up to a root, through definite pairs if its merges are definite. -/
theorem exists_root (a : AboxTableau) (n : ℕ) : ∀ i, a.Ordinary (i, n) → ∃ p,
    a.Ordinary p ∧ a.IsRoot p ∧ Relation.ReflTransGen a.Recorded i p.1 ∧
      (a.nodeMergeChainIsDeterministic n = true →
        Relation.ReflTransGen a.RecordedDefinitely i p.1) := by
  induction n using a.merge_induction with
  | hnone n hmg =>
    intro i hi
    refine ⟨(i, n), hi, fun into hinto => ?_, .refl, fun _ => .refl⟩
    rw [hmg] at hinto
    cases hinto
  | hsome n into hmg ih =>
    intro i hi
    by_cases hroot : a.IsRoot (i, n)
    · exact ⟨(i, n), hi, hroot, .refl, fun _ => .refl⟩
    · simp only [IsRoot, not_forall, not_not] at hroot
      obtain ⟨m, hm, j, hj⟩ := hroot
      obtain rfl : into = m := some.inj (hmg.symm.trans hm)
      obtain ⟨p, hp, hproot, hpath, hdef⟩ := ih j hj
      refine ⟨p, hp, hproot, .head (recorded_iff.mpr ⟨n, into, hi, hmg, hj⟩) hpath,
        fun hchain => ?_⟩
      rw [(SaturatedTableau.canonical_of_some hmg).2, Bool.and_eq_true] at hchain
      exact .head (mem_sameAsPairs.mpr ⟨n, into, hi, hmg, hj, hchain.1.symm⟩) (hdef hchain.2)

theorem Describes.entailsSame (h : a.Describes ontology) {i : String}
    (hij : a.RecordedDefinitely i j) :
    EntailsSame ontology i j := by
  intro Dom Val I hI
  obtain ⟨n, into, hi, hmg, hj, hdef⟩ := mem_sameAsPairs.mp hij
  obtain ⟨ν, hplaces, hν, -⟩ := h.definite Dom Val I hI
  rw [← hplaces (i, n) hi.1 hi.2, ← hplaces (j, into) hj.1 hj.2]
  exact hν n into hmg hdef.symm

/-- The pairs are complete and sound if and only if no two individuals of one canonical node are
roots. -/
theorem sameAsPairs_exact_iff (ontology : List Component) (a : AboxTableau)
    (h : a.Describes ontology) :
    ((∀ p q, a.Ordinary p → a.Ordinary q → a.getCanonicalNode p.2 = a.getCanonicalNode q.2 →
      Relation.EqvGen a.Recorded p.1 q.1) ∧
      (∀ i j, a.RecordedDefinitely i j → EntailsSame ontology i j) ∧
      ∀ p q, a.Ordinary p → a.Ordinary q → a.getCanonicalNode p.2 = a.getCanonicalNode q.2 →
        a.nodeMergeChainIsDeterministic p.2 = true → a.nodeMergeChainIsDeterministic q.2 = true →
          Relation.EqvGen a.RecordedDefinitely p.1 q.1) ↔
    ∀ p q, a.Ordinary p → a.Ordinary q → a.IsRoot p → a.IsRoot q →
    a.getCanonicalNode p.2 = a.getCanonicalNode q.2 → p = q := by
  have hkeep : ∀ i j, a.Recorded i j → a.canonicalOf i = a.canonicalOf j :=
    fun _ _ => canonicalOf_recorded
  have hroots : ∀ i ∈ {i | ∃ n, a.Ordinary (i, n)}, ∃ j ∈ {i | ∃ n, a.Ordinary (i, n)},
      Relation.ReflTransGen a.Recorded i j ∧ Forests.Root a.Recorded j := by
    rintro i ⟨n, hi⟩
    obtain ⟨p, hp, hroot, hpath, -⟩ := a.exists_root n i hi
    exact ⟨p.1, ⟨p.2, hp⟩, hpath, (root_iff hp).mpr hroot⟩
  have hforest := Forests.linked_iff (rightUnique_recorded a) hkeep hroots
  have hcan : ∀ p q, a.Ordinary p → a.Ordinary q →
      (a.canonicalOf p.1 = a.canonicalOf q.1 ↔ a.getCanonicalNode p.2 = a.getCanonicalNode q.2) :=
        by
    intro p q hp hq
    rw [canonicalOf_eq hp, canonicalOf_eq hq, some.injEq]
  constructor
  · rintro ⟨hcompl, -, -⟩ p q hp hq hproot hqroot hpq
    have hone := hforest.mp fun i hi j hj hij => ?_
    · have hind : p.1 = q.1 :=
        hone p.1 ⟨p.2, hp⟩ q.1 ⟨q.2, hq⟩ ((root_iff hp).mpr hproot) ((root_iff hq).mpr hqroot)
          ((hcan p q hp hq).mpr hpq)
      have hq' : (p.1, q.2) ∈ a.nodesForIndividuals := hind ▸ hq.1
      exact Prod.ext hind (node_unique hp.1 hq')
    · obtain ⟨n, hi⟩ := hi
      obtain ⟨m, hj⟩ := hj
      exact hcompl (i, n) (j, m) hi hj ((hcan (i, n) (j, m) hi hj).mp hij)
  · intro hone
    refine ⟨fun p q hp hq hpq => ?_, fun i j => h.entailsSame,
      fun p q hp hq hpq hpchain hqchain => ?_⟩
    · refine hforest.mpr (fun i hi j hj hiroot hjroot hij => ?_) p.1 ⟨p.2, hp⟩ q.1 ⟨q.2, hq⟩
        ((hcan p q hp hq).mpr hpq)
      obtain ⟨n, hi⟩ := hi
      obtain ⟨m, hj⟩ := hj
      exact congrArg Prod.fst
        (hone (i, n) (j, m) hi hj ((root_iff hi).mp hiroot) ((root_iff hj).mp hjroot)
        ((hcan (i, n) (j, m) hi hj).mp hij))
    · obtain ⟨p', hp', hproot, hppath, hpdefinite⟩ := a.exists_root p.2 p.1 hp
      obtain ⟨q', hq', hqroot, hqpath, hqdefinite⟩ := a.exists_root q.2 q.1 hq
      have hroots : p' = q' := by
        apply hone p' q' hp' hq' hproot hqroot
        rw [← hcan p' q' hp' hq', ← Forests.value_eq hkeep hppath,
          ← Forests.value_eq hkeep hqpath]
        exact (hcan p q hp hq).mpr hpq
      rw [hroots] at hpdefinite
      exact (Relation.EqvGen.reflTransGen_le_eqvGen _ _ _ (hpdefinite hpchain)).trans _ _ _
        (.symm _ _ (Relation.EqvGen.reflTransGen_le_eqvGen _ _ _ (hqdefinite hqchain)))

theorem sameAsPairs_exact_of_definite_merge :
    Relation.EqvGen sameTableau.RecordedDefinitely "a" "b" := by
  have hord : sameTableau.Ordinary ("a", 0) ∧ sameTableau.Ordinary ("b", 1) :=
    ⟨⟨by simp [sameTableau], by decide⟩, ⟨by simp [sameTableau], by decide⟩⟩
  refine ((sameAsPairs_exact_iff sameOntology sameTableau describes_sameTableau).mpr ?_).2.2
    ("a", 0) ("b", 1) hord.1
    hord.2 rfl rfl rfl
  intro p q hp hq hproot hqroot _
  have hroot : ∀ r, sameTableau.Ordinary r → sameTableau.IsRoot r → r = ("b", 1) := by
    rintro r ⟨hr, -⟩ hroot
    have hr : r = ("a", 0) ∨ r = ("b", 1) := by simpa [sameTableau] using hr
    obtain rfl | rfl := hr
    · exact absurd hord.2 (hroot 1 rfl "b")
    · rfl
  rw [hroot p hp hproot, hroot q hq hqroot]

/-- Everything is `a`, and the top property is in use. -/
def oneOntology : List Component :=
  [.subClassOf (.class owlThing) (.objectUnionOf [.objectOneOf [.named "a"], .class "C1"]),
    .subClassOf (.class "C1") (.class "C2"), .subClassOf (.class "C1") (.class "C3"),
    .subClassOf (.class "C3") (.objectOneOf [.named "a"]),
      .classAssertion (.class "D") (.named "b"),
    .subClassOf (.class "D")
      (.objectSomeValuesFrom (.objectProperty topObjectRole) (.class owlThing))]

/-- The nodes of `a` and `b` were merged into that of the individual for the top property. -/
def oneTableau : AboxTableau where
  nodes := [⟨false, some 1, some [1]⟩, ⟨true, none, none⟩, ⟨false, some 1, some [2]⟩]
  binaryExtensionTable :=
      [⟨.atomicConcept "C1", 1, [1]⟩, ⟨.atomicConcept "C2", 1, [1]⟩, ⟨.atomicConcept "C3", 1, [1]⟩,
    ⟨.atomicConcept "D", 2, []⟩, ⟨.atomicConcept "D", 1, [2]⟩]
  ends := fun
    | 0 => rfl
    | 1 => rfl
    | 2 => rfl
    | _ + 3 => rfl
  individuals := ["a", "internal:nam#topIndividual", "b"]
  nodesForIndividuals := [("a", 0), ("internal:nam#topIndividual", 1), ("b", 2)]
  keys_nodup := by decide
  nodes_nodup := by decide
  mem_individuals := by simp [exists_or]
  active := by decide

theorem describes_oneTableau : oneTableau.Describes oneOntology where
  definite := by
    intro Dom Val I hI
    let ν : ℕ → Dom := fun
      | 0 => I.individuals (.named "a")
      | _ => I.individuals (.named "b")
    refine ⟨ν, ?_, ?_, ?_⟩
    · intro p hp hord
      have hp : p = ("a", 0) ∨ p = ("internal:nam#topIndividual", 1) ∨ p = ("b", 2) :=
        by simpa [oneTableau] using hp
      obtain rfl | rfl | rfl := hp
      · rfl
      · cases hord
      · rfl
    · intro n into hmg hdef
      match n with
      | 0 => cases hdef
      | 1 => cases hmg
      | 2 => cases hdef
      | n + 3 => cases hmg
    · intro n c hact _ hlabel
      have hlabel : c = "D" ∧ n = 2 := by simpa [oneTableau] using hlabel
      obtain ⟨rfl, rfl⟩ := hlabel
      cases hact
  model := by
    let I := fullInterp () (fun c => {_x | c ∈ ["C1", "C2", "C3", "D"]}) fun _ => ()
    have huniv : ∀ c ∈ ["C1", "C2", "C3", "D"], ∀ x, x ∈ I.expr (.class c) := by
      intro c hc x
      refine .inr ⟨?_, hc⟩
      rintro rfl
      revert hc
      decide
    have hone : ∀ x, x ∈ I.expr (.objectOneOf [.named "a"]) := fun x => ⟨.named "a", by simp, rfl⟩
    refine ⟨Unit, Unit, I, ?_, fun _ => (), fun p _ _ => rfl, fun n into _ => rfl, ?_⟩
    · intro c hc
      simp only [oneOntology, mem_cons, not_mem_nil, or_false] at hc
      obtain rfl | rfl | rfl | rfl | rfl | rfl := hc
      · intro x _
        exact (I.mem_expr_union _ x).mpr ⟨.class "C1", by simp, huniv "C1" (by simp) x⟩
      · exact fun x _ => huniv "C2" (by simp) x
      · exact fun x _ => huniv "C3" (by simp) x
      · exact fun x _ => hone x
      · exact huniv "D" (by simp) _
      · exact fun x _ => ⟨x, I.objectProperties_top x x, I.mem_expr_thing x⟩
    · intro n c hact _ hc
      match n with
      | 0 => cases hact
      | 1 =>
        constructor
        · intro htype
          have hmem : c ∈ ["C1", "C2", "C3", "D"] := (htype.resolve_left hc).2
          simp only [mem_cons, not_mem_nil, or_false] at hmem
          obtain rfl | rfl | rfl | rfl := hmem
          · exact ⟨[1], by simp [oneTableau]⟩
          · exact ⟨[1], by simp [oneTableau]⟩
          · exact ⟨[1], by simp [oneTableau]⟩
          · exact ⟨[2], by simp [oneTableau]⟩
        · rintro ⟨dependencySet, hlabel⟩
          apply huniv c
          simp only [oneTableau, mem_cons, LabelTuple.mk.injEq, LabelObject.atomicConcept.injEq,
            not_mem_nil] at hlabel
          simp only [mem_cons, not_mem_nil]
          tauto
      | 2 => cases hact
      | n + 3 => cases hact

/-- Two individuals of one canonical node are not linked when they reach it by the node of an
internal one. -/
theorem sameAsPairs_not_complete_of_internal : oneTableau.Describes oneOntology ∧
    oneTableau.Ordinary ("a", 0) ∧
    oneTableau.Ordinary ("b", 2) ∧ oneTableau.getCanonicalNode 0 = oneTableau.getCanonicalNode 2 ∧
    ¬ Relation.EqvGen oneTableau.Recorded "a" "b" := by
  have hord : oneTableau.Ordinary ("a", 0) ∧ oneTableau.Ordinary ("b", 2) :=
    ⟨⟨by simp [oneTableau], by decide⟩, ⟨by simp [oneTableau], by decide⟩⟩
  refine ⟨describes_oneTableau, hord.1, hord.2, rfl, ?_⟩
  have hnone : oneTableau.Recorded ≤ Eq := by
    rintro i j ⟨definite, hpair⟩
    have hpairs : oneTableau.sameAsPairs = [] := by decide
    rw [hpairs] at hpair
    cases hpair
  intro hab
  have heq : "a" = "b" := eq_equivalence.eqvGen_iff.mp (hab.mono hnone)
  exact absurd heq (by decide)

end AboxTableau

end Hermit
