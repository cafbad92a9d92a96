import Hermit.Library.Components
import Hermit.Library.Looping
import Hermit.Structural.OntologyClausification

/-! # Rules over description graphs

Rules over the object properties of description graphs range over all vertices, the others over
named individuals.  A property that occurs only in rules takes the kind of the other properties of
its rule.  The rules are swept until nothing changes, and the sets of properties grow on the way.
-/

namespace Hermit

open Library List

namespace DescriptionGraph

/-- The object properties of the edges of some graphs. -/
def edgeProperties (descriptionGraphs : List DescriptionGraph) : List Iri :=
  descriptionGraphs.flatMap fun descriptionGraph => descriptionGraph.edges.map fun edge =>
      edge.atomicRole.iri

end DescriptionGraph

def mixedGraphPropertyError : String :=
  "Mixing graph and non-graph object properties is not supported."

def mixedRuleError : String :=
  "A SWRL rule mixes graph and non-graph object properties, which is not supported."

/-- Collect the properties of the edges; none may be one of the axioms. -/
def collectGraphProperties (nonGraph : List Iri) : List Iri → List Iri → Except String (List Iri)
  | [], graph => .ok graph
  | iri :: iris, graph =>
    if iri ∈ nonGraph then .error mixedGraphPropertyError
    else collectGraphProperties nonGraph iris (insertSet graph iri)

/-- The properties of known kind, the rules that are placed with whether they are restricted to
named individuals, and those that remain. -/
structure RuleOrder where
  graph : List Iri
  nonGraph : List Iri
  result : List (DisjunctiveRule × Bool)
  unprocessed : List DisjunctiveRule
  changed : Bool

namespace RuleOrder

/-- Place a rule if the kind of one of its properties is known. -/
def visitRule (s : RuleOrder) (rule : DisjunctiveRule) : Except String RuleOrder :=
  let properties := ruleProperties rule
  let containsGraph := properties.any (· ∈ s.graph)
  let containsNonGraph := properties.any (· ∈ s.nonGraph)
  if containsGraph && containsNonGraph then .error mixedRuleError
  else if containsGraph then
    .ok { s with
      graph := properties.foldl insertSet s.graph
      result := s.result ++ [(rule, false)]
      changed := true }
  else if containsNonGraph then
    .ok { s with
      nonGraph := properties.foldl insertSet s.nonGraph
      result := s.result ++ [(rule, true)]
      changed := true }
  else if !properties.isEmpty then .ok { s with unprocessed := s.unprocessed ++ [rule] }
  else .ok { s with result := s.result ++ [(rule, true)], changed := true }

/-- Sweep the rules that remain. -/
def sweep (s : RuleOrder) : Except String RuleOrder :=
  s.unprocessed.foldlM visitRule { s with unprocessed := [], changed := false }

def running : Except String RuleOrder → Bool
  | .error _ => false
  | .ok s => !s.unprocessed.isEmpty && s.changed

def step : Except String RuleOrder → Option (Except String RuleOrder)
  | .error message => some (.error message)
  | .ok s => some s.sweep

end RuleOrder

/-- The rules in the order of their clausification, with whether they are restricted to named
individuals; `none` when the fuel runs out. -/
def orderRulesForDescriptionGraphs (rules : List DisjunctiveRule)
    (objectPropertiesInOwlAxioms : List Iri)
    (descriptionGraphs : List DescriptionGraph) (fuel : ℕ) :
    Option (Except String (List (DisjunctiveRule × Bool))) :=
  match collectGraphProperties objectPropertiesInOwlAxioms
    (DescriptionGraph.edgeProperties descriptionGraphs) [] with
  | .error message => some (.error message)
  | .ok graph => do
    let final ← loopWhile RuleOrder.running RuleOrder.step fuel
      (.ok ⟨graph, objectPropertiesInOwlAxioms, [], rules, true⟩)
    return final.map fun s => s.result ++ s.unprocessed.map fun rule => (rule, true)

/-! ## The properties of the edges -/

theorem collectGraphProperties_spec (nonGraph iris graph : List Iri) :
    ((∃ p ∈ iris, p ∈ nonGraph) ∧ collectGraphProperties nonGraph iris graph =
      .error mixedGraphPropertyError) ∨
    (∀ p ∈ iris, p ∉ nonGraph) ∧ ∃ graph', collectGraphProperties nonGraph iris graph = .ok graph' ∧
      ∀ p, p ∈ graph' ↔ p ∈ graph ∨ p ∈ iris := by
  induction iris generalizing graph with
  | nil => exact .inr ⟨forall_mem_nil _, graph, rfl, fun p => by simp⟩
  | cons iri iris ih =>
    rw [collectGraphProperties]
    split
    · rename_i hmem
      exact .inl ⟨⟨iri, mem_cons_self, hmem⟩, rfl⟩
    · rename_i hnm
      rcases ih (insertSet graph iri) with ⟨⟨p, hp, hpmem⟩, herror⟩ | ⟨hall, graph', hok, hgraph'⟩
      · exact .inl ⟨⟨p, mem_cons_of_mem iri hp, hpmem⟩, herror⟩
      · refine .inr ⟨forall_mem_cons.mpr ⟨hnm, hall⟩, graph', hok, fun p => ?_⟩
        rw [hgraph', mem_insertSet, mem_cons, or_assoc]

/-! ## Sweeps -/

/-- Two properties lie in one component of the rules. -/
def ConnectedProperties (rules : List DisjunctiveRule) : Iri → Iri → Prop :=
  Connected (fun rule p => p ∈ ruleProperties rule) {rule | rule ∈ rules}

/-- A component has a property of a graph and one of the axioms. -/
def MixedComponent (rules : List DisjunctiveRule) (graphSeeds nonGraphSeeds : List Iri) : Prop :=
  ∃ g ∈ graphSeeds, ∃ n ∈ nonGraphSeeds, ConnectedProperties rules g n

namespace RuleOrder

variable {rules : List DisjunctiveRule} {graphSeeds nonGraphSeeds : List Iri}

variable (rules graphSeeds nonGraphSeeds) in
/-- What holds while a sweep still has rules to visit: the known properties are connected with
properties known at the start, and the rules that are placed have known properties only. -/
structure Sound (s : RuleOrder) (pending : List DisjunctiveRule) : Prop where
  perm : (s.result.map Prod.fst ++ s.unprocessed ++ pending).Perm rules
  seedsGraph : ∀ p ∈ graphSeeds, p ∈ s.graph
  seedsNonGraph : ∀ p ∈ nonGraphSeeds, p ∈ s.nonGraph
  graphConnected : ∀ p ∈ s.graph, ∃ g ∈ graphSeeds, ConnectedProperties rules g p
  nonGraphConnected : ∀ p ∈ s.nonGraph, ∃ n ∈ nonGraphSeeds, ConnectedProperties rules n p
  disjoint : ∀ p ∈ s.graph, p ∉ s.nonGraph
  graphRules : ∀ q ∈ s.result, q.2 = false → (∃ p, p ∈ ruleProperties q.1) ∧
    ∀ p ∈ ruleProperties q.1, p ∈ s.graph
  otherRules : ∀ q ∈ s.result, q.2 = true → ∀ p ∈ ruleProperties q.1, p ∈ s.nonGraph
  unknown : s.changed = false → ∀ rule ∈ s.unprocessed, ∀ p ∈ ruleProperties rule,
    p ∉ s.graph ∧ p ∉ s.nonGraph

/-- The rules of a sweep that are left, and one more if something has changed. -/
def count (s : RuleOrder) (pending : List DisjunctiveRule) : ℕ :=
  s.unprocessed.length + pending.length + if s.changed then 1 else 0

section visit

variable {s : RuleOrder} {pending : List DisjunctiveRule} {rule : DisjunctiveRule}

section

variable (h : Sound rules graphSeeds nonGraphSeeds s (rule :: pending))
include h

theorem Sound.mem_rules : rule ∈ rules :=
  h.perm.mem_iff.mp (mem_append_right _ mem_cons_self)

/-- A rule that is placed is moved from the pending ones to the result. -/
theorem Sound.perm_place (restrict : Bool) :
    ((s.result ++ [(rule, restrict)]).map Prod.fst ++ s.unprocessed ++ pending).Perm rules := by
  refine List.Perm.trans ?_ h.perm
  rw [map_append, append_assoc, append_assoc, append_assoc]
  have hmove : (rule :: (s.unprocessed ++ pending)).Perm (s.unprocessed ++ rule :: pending) :=
    perm_middle.symm
  exact hmove.append_left (s.result.map Prod.fst)

end

/-- The properties of a rule get the kind of one of them. -/
theorem connected_foldl_insertSet {seeds known : List Iri} (hrule : rule ∈ rules)
    (hconn : ∀ p ∈ known, ∃ g ∈ seeds, ConnectedProperties rules g p) {p : Iri}
    (hp : p ∈ ruleProperties rule) (hknown : p ∈ known) :
    ∀ q ∈ (ruleProperties rule).foldl insertSet known, ∃ g ∈ seeds,
    ConnectedProperties rules g q := by
  intro q hq
  rcases (mem_foldl_insertSet _ _ _).mp hq with hq | hq
  · exact hconn q hq
  · obtain ⟨g, hg, hgp⟩ := hconn p hknown
    exact ⟨g, hg, Connected.trans hgp (connected_of_group hrule hp hq)⟩

variable (h : Sound rules graphSeeds nonGraphSeeds s (rule :: pending))
include h

theorem Sound.mixed {p q : Iri} (hp : p ∈ ruleProperties rule) (hgraph : p ∈ s.graph)
    (hq : q ∈ ruleProperties rule) (hnonGraph : q ∈ s.nonGraph) :
    MixedComponent rules graphSeeds nonGraphSeeds := by
  obtain ⟨g, hg, hgp⟩ := h.graphConnected p hgraph
  obtain ⟨n, hn, hnq⟩ := h.nonGraphConnected q hnonGraph
  have hpq : ConnectedProperties rules p q := connected_of_group h.mem_rules hp hq
  exact ⟨g, hg, n, hn, Connected.trans hgp (Connected.trans hpq hnq.symm)⟩

/-- A rule over a graph property is placed, and its properties are graph properties. -/
theorem Sound.placeGraph {p : Iri} (hp : p ∈ ruleProperties rule) (hgraph : p ∈ s.graph)
    (hnone : ∀ q ∈ ruleProperties rule, q ∉ s.nonGraph) :
    Sound rules graphSeeds nonGraphSeeds { s with
      graph := (ruleProperties rule).foldl insertSet s.graph
      result := s.result ++ [(rule, false)]
      changed := true } pending where
  perm := h.perm_place false
  seedsGraph := fun p hp => (mem_foldl_insertSet _ _ _).mpr (.inl (h.seedsGraph p hp))
  seedsNonGraph := h.seedsNonGraph
  graphConnected := connected_foldl_insertSet h.mem_rules h.graphConnected hp hgraph
  nonGraphConnected := h.nonGraphConnected
  disjoint := fun q hq => ((mem_foldl_insertSet _ _ _).mp hq).elim (h.disjoint q) (hnone q)
  graphRules := by
    intro q hq hflag
    rcases mem_append.mp hq with hq | hq
    · obtain ⟨hsome, hall⟩ := h.graphRules q hq hflag
      exact ⟨hsome, fun p hp => (mem_foldl_insertSet _ _ _).mpr (.inl (hall p hp))⟩
    · obtain rfl := mem_singleton.mp hq
      exact ⟨⟨p, hp⟩, fun q hq => (mem_foldl_insertSet _ _ _).mpr (.inr hq)⟩
  otherRules := by
    intro q hq hflag
    rcases mem_append.mp hq with hq | hq
    · exact h.otherRules q hq hflag
    · obtain rfl := mem_singleton.mp hq
      cases hflag
  unknown := fun hchg => Bool.noConfusion hchg

section

variable (hnoGraph : ∀ q ∈ ruleProperties rule, q ∉ s.graph)
include hnoGraph

/-- A rule without graph properties is placed; its properties, if any, are not graph properties. -/
theorem Sound.placeOther (hconn : ∀ q ∈ (ruleProperties rule).foldl insertSet s.nonGraph,
      ∃ n ∈ nonGraphSeeds, ConnectedProperties rules n q) :
    Sound rules graphSeeds nonGraphSeeds { s with
      nonGraph := (ruleProperties rule).foldl insertSet s.nonGraph
      result := s.result ++ [(rule, true)]
      changed := true } pending where
  perm := h.perm_place true
  seedsGraph := h.seedsGraph
  seedsNonGraph := fun p hp => (mem_foldl_insertSet _ _ _).mpr (.inl (h.seedsNonGraph p hp))
  graphConnected := h.graphConnected
  nonGraphConnected := hconn
  disjoint := fun q hq hmem => ((mem_foldl_insertSet _ _ _).mp hmem).elim (h.disjoint q hq)
    fun hmem => hnoGraph q hmem hq
  graphRules := by
    intro q hq hflag
    rcases mem_append.mp hq with hq | hq
    · exact h.graphRules q hq hflag
    · obtain rfl := mem_singleton.mp hq
      cases hflag
  otherRules := by
    intro q hq hflag p hp
    rcases mem_append.mp hq with hq | hq
    · exact (mem_foldl_insertSet _ _ _).mpr (.inl (h.otherRules q hq hflag p hp))
    · obtain rfl := mem_singleton.mp hq
      exact (mem_foldl_insertSet _ _ _).mpr (.inr hp)
  unknown := fun hchg => Bool.noConfusion hchg

theorem Sound.keep (hnoNonGraph : ∀ q ∈ ruleProperties rule, q ∉ s.nonGraph) :
    Sound rules graphSeeds nonGraphSeeds { s with unprocessed := s.unprocessed ++ [rule] }
      pending :=
  { h with
    perm := by
      refine List.Perm.trans ?_ h.perm
      rw [append_assoc, append_assoc, append_assoc]
      exact .refl _
    unknown := by
      intro hchg other hoth
      rcases mem_append.mp hoth with hoth | hoth
      · exact h.unknown hchg other hoth
      · rw [mem_singleton.mp hoth]
        exact fun p hp => ⟨hnoGraph p hp, hnoNonGraph p hp⟩ }

end

theorem visitRule_spec :
    (visitRule s rule = .error mixedRuleError ∧ MixedComponent rules graphSeeds nonGraphSeeds) ∨
    ∃ s', visitRule s rule = .ok s' ∧ Sound rules graphSeeds nonGraphSeeds s' pending ∧
      s'.count pending ≤ s.count (rule :: pending) := by
  have hnone : ∀ known : List Iri, ¬ (ruleProperties rule).any (· ∈ known) = true →
      ∀ q ∈ ruleProperties rule, q ∉ known :=
    fun known hknown q hq hmem => hknown (any_eq_true.mpr ⟨q, hq, decide_eq_true hmem⟩)
  unfold visitRule
  by_cases hgraph : (ruleProperties rule).any (· ∈ s.graph) = true
  · obtain ⟨p, hp, hpgraph⟩ := any_eq_true.mp hgraph
    rw [decide_eq_true_eq] at hpgraph
    by_cases hnonGraph : (ruleProperties rule).any (· ∈ s.nonGraph) = true
    · obtain ⟨q, hq, hqnonGraph⟩ := any_eq_true.mp hnonGraph
      rw [decide_eq_true_eq] at hqnonGraph
      refine .inl ⟨?_, h.mixed hp hpgraph hq hqnonGraph⟩
      simp only [hgraph, hnonGraph, Bool.and_self, if_true]
    · refine .inr ⟨_, by simp only [hgraph, hnonGraph]; rfl,
        h.placeGraph hp hpgraph (hnone _ hnonGraph), ?_⟩
      simp only [count, length_cons, if_true]
      omega
  · by_cases hnonGraph : (ruleProperties rule).any (· ∈ s.nonGraph) = true
    · obtain ⟨p, hp, hpnonGraph⟩ := any_eq_true.mp hnonGraph
      rw [decide_eq_true_eq] at hpnonGraph
      refine .inr ⟨_, by simp only [hgraph, hnonGraph]; rfl, h.placeOther (hnone _ hgraph)
        (connected_foldl_insertSet h.mem_rules h.nonGraphConnected hp hpnonGraph), ?_⟩
      simp only [count, length_cons, if_true]
      omega
    · by_cases hemp : (ruleProperties rule).isEmpty = true
      · have hplace := h.placeOther (hnone _ hgraph)
        rw [List.isEmpty_iff.mp hemp] at hplace
        refine .inr ⟨_, by simp only [hgraph, hnonGraph, hemp]; rfl,
          hplace h.nonGraphConnected, ?_⟩
        simp only [count, length_cons, if_true]
        omega
      · refine .inr ⟨_, by simp only [hgraph, hnonGraph, hemp]; rfl,
          h.keep (hnone _ hgraph) (hnone _ hnonGraph), ?_⟩
        simp only [count, length_append, length_cons, length_nil]
        omega

end visit

theorem foldlM_visitRule_spec {s : RuleOrder} {pending : List DisjunctiveRule}
    (h : Sound rules graphSeeds nonGraphSeeds s pending) :
    (pending.foldlM visitRule s = .error mixedRuleError ∧
      MixedComponent rules graphSeeds nonGraphSeeds) ∨
    ∃ s', pending.foldlM visitRule s = .ok s' ∧ Sound rules graphSeeds nonGraphSeeds s' [] ∧
      s'.count [] ≤ s.count pending := by
  induction pending generalizing s with
  | nil => exact .inr ⟨s, rfl, h, le_rfl⟩
  | cons rule pending ih =>
    rw [foldlM_cons]
    rcases visitRule_spec h with ⟨herror, hmixed⟩ | ⟨s₁, hok, h₁, hcount₁⟩
    · rw [herror]
      exact .inl ⟨rfl, hmixed⟩
    · rw [hok]
      rcases ih h₁ with ⟨herror, hmixed⟩ | ⟨s', hok', h', hcount'⟩
      · exact .inl ⟨herror, hmixed⟩
      · exact .inr ⟨s', hok', h', hcount'.trans hcount₁⟩

variable (rules graphSeeds nonGraphSeeds) in
/-- What holds between sweeps. -/
def Between : Except String RuleOrder → Prop
  | .error message => message = mixedRuleError ∧ MixedComponent rules graphSeeds nonGraphSeeds
  | .ok s => Sound rules graphSeeds nonGraphSeeds s []

def measure : Except String RuleOrder → ℕ
  | .error _ => 0
  | .ok s => s.count []

/-- A sweep places a rule or is the last. -/
theorem step_spec (state : Except String RuleOrder)
    (h : Between rules graphSeeds nonGraphSeeds state) (hrun : running state = true) :
    ∃ state', step state = some state' ∧ Between rules graphSeeds nonGraphSeeds state' ∧
    measure state' < measure state := by
  cases state with
  | error message => cases hrun
  | ok s =>
    have hsound : Sound rules graphSeeds nonGraphSeeds s [] := h
    obtain ⟨hunprocessed, hchg⟩ := (Bool.and_eq_true _ _).mp hrun
    have hst : Sound rules graphSeeds nonGraphSeeds
      { s with unprocessed := [], changed := false } s.unprocessed := {
      hsound with
      perm := by
        have hperm := hsound.perm
        rw [append_nil] at hperm ⊢
        exact hperm
      unknown := fun _ => forall_mem_nil _ }
    have hcount : s.count [] = s.unprocessed.length + 1 := by
      rw [count, hchg]
      rfl
    refine ⟨s.sweep, rfl, ?_⟩
    rcases foldlM_visitRule_spec hst with ⟨herror, hmixed⟩ | ⟨s', hok, h', hcount'⟩
    · rw [sweep, herror]
      refine ⟨⟨rfl, hmixed⟩, ?_⟩
      rw [measure, measure, hcount]
      omega
    · rw [sweep, hok]
      refine ⟨h', ?_⟩
      rw [measure, measure, hcount]
      simp only [count, length_nil, Bool.false_eq_true, if_false] at hcount' ⊢
      omega

/-- If rules remain, the last sweep changed nothing. -/
theorem changed_eq_false {s : RuleOrder} (hend : running (.ok s) = false) {rule : DisjunctiveRule}
    (hrule : rule ∈ s.unprocessed) : s.changed = false := by
  rw [running, Bool.and_eq_false_iff] at hend
  refine hend.resolve_left fun hemp => ?_
  rw [Bool.not_eq_false', List.isEmpty_iff] at hemp
  rw [hemp] at hrule
  cases hrule

/-- When no sweep changes anything, the known properties are all those connected with the ones
known at the start. -/
theorem Sound.closed {s : RuleOrder} (h : Sound rules graphSeeds nonGraphSeeds s [])
    (hend : running (.ok s) = false) {rule : DisjunctiveRule} (hrule : rule ∈ rules) {p q : Iri}
    (hp : p ∈ ruleProperties rule) (hq : q ∈ ruleProperties rule) :
    (p ∈ s.graph → q ∈ s.graph) ∧ (p ∈ s.nonGraph → q ∈ s.nonGraph) := by
  have hmem := h.perm.mem_iff.mpr hrule
  rw [append_nil, mem_append] at hmem
  rcases hmem with hplace | hrem
  · obtain ⟨⟨rule', flag⟩, hmem, rfl⟩ := mem_map.mp hplace
    cases flag with
    | false =>
      obtain ⟨-, hall⟩ := h.graphRules (rule', false) hmem rfl
      exact ⟨fun _ => hall q hq, fun hknown => absurd hknown (h.disjoint p (hall p hp))⟩
    | true =>
      have hall := h.otherRules (rule', true) hmem rfl
      exact ⟨fun hknown => absurd (hall p hp) (h.disjoint p hknown), fun _ => hall q hq⟩
  · obtain ⟨hnoGraph, hnoNonGraph⟩ := h.unknown (changed_eq_false hend hrem) rule hrem p hp
    exact ⟨fun hmem => absurd hmem hnoGraph, fun hmem => absurd hmem hnoNonGraph⟩

section final

variable {s : RuleOrder} (h : Sound rules graphSeeds nonGraphSeeds s [])
    (hend : running (.ok s) = false)

include h hend

theorem Sound.mem_graph_iff (p : Iri) : p ∈ s.graph ↔ ∃ g ∈ graphSeeds,
    ConnectedProperties rules g p := by
  constructor
  · exact h.graphConnected p
  · rintro ⟨g, hg, hconn⟩
    have hcl : ∀ rule ∈ {rule | rule ∈ rules}, ∀ p q, p ∈ ruleProperties rule →
      q ∈ ruleProperties rule → p ∈ {p | p ∈ s.graph} → q ∈ {p | p ∈ s.graph} :=
      fun rule hrule p q hp hq => (h.closed hend hrule hp hq).1
    exact Connected.mem_of_closed (s := {p | p ∈ s.graph}) hcl hconn (h.seedsGraph g hg)

theorem Sound.not_mixed : ¬ MixedComponent rules graphSeeds nonGraphSeeds := by
  rintro ⟨g, hg, n, hn, hconn⟩
  exact h.disjoint n ((h.mem_graph_iff hend n).mpr ⟨g, hg, hconn⟩) (h.seedsNonGraph n hn)

/-- A rule is not restricted just if one of its properties is connected with a property of a graph.
-/
theorem Sound.flag_eq_false_iff {q : DisjunctiveRule × Bool}
    (hq : q ∈ s.result ++ s.unprocessed.map fun rule => (rule, true)) :
    q.2 = false ↔ ∃ p ∈ ruleProperties q.1, ∃ g ∈ graphSeeds, ConnectedProperties rules g p := by
  have hiff : (∃ p ∈ ruleProperties q.1, ∃ g ∈ graphSeeds, ConnectedProperties rules g p) ↔
      ∃ p ∈ ruleProperties q.1, p ∈ s.graph :=
    exists_congr fun p => and_congr_right fun _ => (h.mem_graph_iff hend p).symm
  rw [hiff]
  rcases mem_append.mp hq with hplace | hrem
  · constructor
    · intro hflag
      obtain ⟨⟨p, hp⟩, hall⟩ := h.graphRules q hplace hflag
      exact ⟨p, hp, hall p hp⟩
    · rintro ⟨p, hp, hgraph⟩
      rw [← Bool.not_eq_true]
      exact fun hflag => h.disjoint p hgraph (h.otherRules q hplace hflag p hp)
  · obtain ⟨rule, hrule, rfl⟩ := mem_map.mp hrem
    constructor
    · exact fun hflag => Bool.noConfusion hflag
    · rintro ⟨p, hp, hgraph⟩
      exfalso
      exact (h.unknown (changed_eq_false hend hrule) rule hrule p hp).1 hgraph

end final

end RuleOrder

/-- The same error, or the same rules with the same flags. -/
def SameOutcome : Except String (List (DisjunctiveRule × Bool)) →
    Except String (List (DisjunctiveRule × Bool)) → Prop
  | .error message, .error message' => message = message'
  | .ok result, .ok result' => result.Perm result'
  | _, _ => False

open DescriptionGraph (edgeProperties)

section outcome

variable (rules : List DisjunctiveRule) (objectPropertiesInOwlAxioms : List Iri)
  (descriptionGraphs : List DescriptionGraph)

/-- What the order of the rules has to be. -/
def IsOutcome : Except String (List (DisjunctiveRule × Bool)) → Prop
  | .error message =>
    (message = mixedGraphPropertyError ∧ ∃ p ∈ edgeProperties descriptionGraphs,
      p ∈ objectPropertiesInOwlAxioms) ∨
    (message = mixedRuleError ∧ (∀ p ∈ edgeProperties descriptionGraphs,
      p ∉ objectPropertiesInOwlAxioms) ∧
      MixedComponent rules (edgeProperties descriptionGraphs) objectPropertiesInOwlAxioms)
  | .ok result =>
    (∀ p ∈ edgeProperties descriptionGraphs, p ∉ objectPropertiesInOwlAxioms) ∧
    ¬ MixedComponent rules (edgeProperties descriptionGraphs) objectPropertiesInOwlAxioms ∧
    (result.map Prod.fst).Perm rules ∧
    ∀ q ∈ result, q.2 = false ↔ ∃ p ∈ ruleProperties q.1, ∃ g ∈ edgeProperties descriptionGraphs,
        ConnectedProperties rules g p

/-- A sweep for every rule and one more are enough. -/
theorem exists_outcome : ∃ outcome, (∀ fuel, rules.length + 1 ≤ fuel →
    orderRulesForDescriptionGraphs rules objectPropertiesInOwlAxioms descriptionGraphs fuel =
    some outcome) ∧ IsOutcome rules objectPropertiesInOwlAxioms descriptionGraphs outcome := by
  unfold orderRulesForDescriptionGraphs
  rcases collectGraphProperties_spec objectPropertiesInOwlAxioms
      (edgeProperties descriptionGraphs) [] with
    ⟨hmixed, herror⟩ | ⟨hnone, graph, hok, hgraph⟩
  · rw [herror]
    exact ⟨_, fun fuel _ => rfl, .inl ⟨rfl, hmixed⟩⟩
  · rw [hok]
    have hgraph' : ∀ p, p ∈ graph ↔ p ∈ edgeProperties descriptionGraphs := by
      intro p
      rw [hgraph, or_iff_right not_mem_nil]
    have hst : RuleOrder.Between rules (edgeProperties descriptionGraphs)
      objectPropertiesInOwlAxioms (.ok ⟨graph, objectPropertiesInOwlAxioms, [], rules, true⟩) := {
      perm := by
        rw [append_nil]
        exact .refl rules
      seedsGraph := fun p hp => (hgraph' p).mpr hp
      seedsNonGraph := fun p hp => hp
      graphConnected := fun p hp => ⟨p, (hgraph' p).mp hp, Connected.refl p⟩
      nonGraphConnected := fun p hp => ⟨p, hp, Connected.refl p⟩
      disjoint := fun p hp => hnone p ((hgraph' p).mp hp)
      graphRules := forall_mem_nil _
      otherRules := forall_mem_nil _
      unknown := fun hchg => Bool.noConfusion hchg }
    obtain ⟨final, hfinal, hend, hfuel⟩ :=
      exists_loopWhile_eq RuleOrder.running RuleOrder.step _ RuleOrder.measure
        RuleOrder.step_spec hst
    refine ⟨_, fun fuel hle => by
      dsimp only
      rw [hfuel fuel hle]
      rfl, ?_⟩
    cases final with
    | error message => exact .inr ⟨hfinal.1, hnone, hfinal.2⟩
    | ok s =>
      have hsound : RuleOrder.Sound rules (edgeProperties descriptionGraphs)
        objectPropertiesInOwlAxioms s [] := hfinal
      refine ⟨hnone, hsound.not_mixed hend, ?_, fun q hq => hsound.flag_eq_false_iff hend hq⟩
      have hperm := hsound.perm
      rw [append_nil] at hperm
      rw [map_append, map_map]
      exact (map_id s.unprocessed).symm ▸ hperm

variable {rules objectPropertiesInOwlAxioms descriptionGraphs} {rules' : List DisjunctiveRule}

theorem connectedProperties_perm (h : rules.Perm rules') :
    ConnectedProperties rules = ConnectedProperties rules' := by
  unfold ConnectedProperties
  congr 1
  ext rule
  exact h.mem_iff

/-- The outcome is determined up to the order of the rules. -/
theorem IsOutcome.same (hperm : rules.Perm rules')
    {outcome outcome' : Except String (List (DisjunctiveRule × Bool))}
    (h : IsOutcome rules objectPropertiesInOwlAxioms descriptionGraphs outcome)
    (h' : IsOutcome rules' objectPropertiesInOwlAxioms descriptionGraphs outcome') :
    SameOutcome outcome outcome' := by
  have hmixed : MixedComponent rules = MixedComponent rules' := by
    unfold MixedComponent
    rw [connectedProperties_perm hperm]
  cases outcome with
  | error message =>
    cases outcome' with
    | error message' =>
      rcases h with ⟨rfl, p, hp, hmem⟩ | ⟨rfl, hnone, -⟩
      · rcases h' with ⟨rfl, -⟩ | ⟨-, hnone, -⟩
        · rfl
        · exact absurd hmem (hnone p hp)
      · rcases h' with ⟨-, p, hp, hmem⟩ | ⟨rfl, -⟩
        · exact absurd hmem (hnone p hp)
        · rfl
    | ok result' =>
      obtain ⟨hnone, hnotMixed, -⟩ := h'
      rcases h with ⟨-, p, hp, hmem⟩ | ⟨-, -, hmix⟩
      · exact absurd hmem (hnone p hp)
      · exact absurd (hmixed ▸ hmix) hnotMixed
  | ok result =>
    obtain ⟨hnone, hnotMixed, hres, hflags⟩ := h
    cases outcome' with
    | error message' =>
      rcases h' with ⟨-, p, hp, hmem⟩ | ⟨-, -, hmix⟩
      · exact absurd hmem (hnone p hp)
      · exact absurd (hmixed.symm ▸ hmix) hnotMixed
    | ok result' =>
      obtain ⟨-, -, hres', hflags'⟩ := h'
      classical
      let flagged : DisjunctiveRule → DisjunctiveRule × Bool :=
          fun rule => (rule, !decide (∃ p ∈ ruleProperties rule,
        ∃ g ∈ edgeProperties descriptionGraphs, ConnectedProperties rules g p))
      have heq : ∀ (l : List (DisjunctiveRule × Bool)),
        (∀ q ∈ l, q.2 = false ↔ ∃ p ∈ ruleProperties q.1,
          ∃ g ∈ edgeProperties descriptionGraphs, ConnectedProperties rules g p) →
            l = (l.map Prod.fst).map flagged := by
        intro l hl
        rw [map_map]
        refine (map_id l).symm.trans (map_congr_left fun q hq => Prod.ext rfl ?_)
        change q.2 = !decide _
        cases hflag : q.2 with
        | false => rw [decide_eq_true ((hl q hq).mp hflag), Bool.not_true]
        | true =>
          rw [decide_eq_false, Bool.not_false]
          intro hex
          rw [(hl q hq).mpr hex] at hflag
          cases hflag
      have hflags'' := connectedProperties_perm hperm ▸ hflags'
      change result.Perm result'
      rw [heq result hflags, heq result' hflags'']
      exact (hres.trans (hperm.trans hres'.symm)).map flagged

end outcome

/-- The rules are refused just if a property of a graph edge is a property of the axioms, or a
component of the properties has one of each.  Otherwise each rule is placed once, and it is not
restricted to named individuals just if its properties lie in a component with a property of a
graph.  All this does not depend on the order of the rules. -/
theorem orderRulesForDescriptionGraphs_spec (rules : List DisjunctiveRule)
    (objectPropertiesInOwlAxioms : List Iri) (descriptionGraphs : List DescriptionGraph) :
    ∃ outcome, (∀ fuel, rules.length + 1 ≤ fuel →
        orderRulesForDescriptionGraphs rules objectPropertiesInOwlAxioms descriptionGraphs fuel =
        some outcome) ∧ ((∃ message, outcome = .error message) ↔
        (∃ p ∈ edgeProperties descriptionGraphs, p ∈ objectPropertiesInOwlAxioms) ∨
          ∃ g ∈ edgeProperties descriptionGraphs, ∃ n ∈ objectPropertiesInOwlAxioms,
          ConnectedProperties rules g n) ∧
      (∀ result, outcome = .ok result → (result.map Prod.fst).Perm rules ∧
        ∀ q ∈ result, q.2 = false ↔
          ∃ p ∈ ruleProperties q.1, ∃ g ∈ edgeProperties descriptionGraphs,
          ConnectedProperties rules g p) ∧
      ∀ rules', rules.Perm rules' → ∃ outcome', SameOutcome outcome outcome' ∧ ∀ fuel,
      rules'.length + 1 ≤ fuel →
        orderRulesForDescriptionGraphs rules' objectPropertiesInOwlAxioms descriptionGraphs fuel =
        some outcome' := by
  obtain ⟨outcome, hfuel, hout⟩ :=
    exists_outcome rules objectPropertiesInOwlAxioms descriptionGraphs
  refine ⟨outcome, hfuel, ?_, ?_, fun rules' hperm => ?_⟩
  · cases outcome with
    | error message =>
      refine iff_of_true ⟨message, rfl⟩ ?_
      rcases hout with ⟨-, hmem⟩ | ⟨-, -, hmixed⟩
      · exact .inl hmem
      · exact .inr hmixed
    | ok result =>
      obtain ⟨hnone, hnotMixed, -⟩ := hout
      refine iff_of_false ?_ ?_
      · rintro ⟨message, hmessage⟩
        cases hmessage
      · rintro (⟨p, hp, hmem⟩ | hmixed)
        · exact hnone p hp hmem
        · exact hnotMixed hmixed
  · rintro result rfl
    obtain ⟨-, -, hplace, hflags⟩ := hout
    exact ⟨hplace, hflags⟩
  · obtain ⟨outcome', hfuel', hout'⟩ :=
      exists_outcome rules' objectPropertiesInOwlAxioms descriptionGraphs
    exact ⟨outcome', hout.same hperm hout', hfuel'⟩

end Hermit
