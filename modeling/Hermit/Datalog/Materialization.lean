import Hermit.Datalog.Tableau

/-! # Reading a materialized model

A bound atom is looked up, an unbound one is enumerated.  Both agree with what is stored for active
nodes, and `owl:Thing` holds of the active abstract nodes.
-/

namespace Hermit

open List Option

namespace Library

/-- A pointwise partial map whose values tell its arguments apart keeps a list free of duplicates.
-/
theorem exists_mapM_nodup {α β : Type*} {f : α → Option β} {l : List α} (hl : l.Nodup)
    (hf : ∀ a ∈ l, ∃ b, f a = some b)
    (hinj : ∀ a ∈ l, ∀ a' ∈ l, ∀ b, f a = some b → f a' = some b → a = a') :
    ∃ l', l.mapM f = some l' ∧ l'.Nodup ∧ ∀ b, b ∈ l' ↔ ∃ a ∈ l, f a = some b := by
  induction l with
  | nil => exact ⟨[], rfl, nodup_nil, by simp⟩
  | cons a l ih =>
    obtain ⟨hnew, hl⟩ := nodup_cons.mp hl
    obtain ⟨b, hb⟩ := hf a mem_cons_self
    obtain ⟨l', hl', hnd, hmem⟩ := ih hl (fun a ha => hf a (mem_cons_of_mem _ ha))
      fun a ha a' ha' => hinj a (mem_cons_of_mem _ ha) a' (mem_cons_of_mem _ ha')
    refine ⟨b :: l', ?_, nodup_cons.mpr ⟨fun hmember => ?_, hnd⟩, fun c => ?_⟩
    · rw [mapM_cons, hb, hl']
      rfl
    · obtain ⟨a', ha', hb'⟩ := (hmem b).mp hmember
      have heq := hinj a mem_cons_self a' (mem_cons_of_mem _ ha') b hb hb'
      exact hnew (heq ▸ ha')
    · rw [mem_cons, hmem, exists_mem_cons_iff, hb, some.injEq, eq_comm]

end Library

namespace Datalog

/-- A tableau and the nodes of the individuals that occur in facts, which are never pruned. -/
structure Materialization (rawKey : DLPredicate → Fin (2 ^ 61)) where
  tableau : Tableau
  termToNode : AList fun _ : Individual => NodeId
  reachable : tableau.Reachable rawKey
  root : ∀ individual n, termToNode.lookup individual = some n →
    ∃ node, tableau.node n = some node ∧ node.nodeType.getMergePrecedence < 2

namespace Materialization

variable {rawKey : DLPredicate → Fin (2 ^ 61)} (M : Materialization rawKey)

/-- The individual of a node, by the node it was loaded to. -/
def nodeToTerm : AList fun _ : NodeId => Individual :=
  M.termToNode.entries.foldl (fun terms entry => terms.insert entry.2 entry.1) ∅

def nodeForIri (iri : Iri) : Option NodeId :=
  (M.termToNode.lookup ⟨iri⟩).bind M.tableau.getCanonicalNode

/-- The nodes of the tableau, in the order of their creation. -/
def tableauNodes : List NodeId :=
  (List.range M.tableau.nodes.length).filterMap fun i =>
      if h : i < 2 ^ 61 then some ⟨i, h⟩ else none

def conceptLabel (rawKey : DLPredicate → Fin (2 ^ 61)) (concept : AtomicConcept) : TableauObject :=
  predicateToStoredLabel rawKey (.atomicConcept concept)

attribute [local instance] TableKind.neZero_two in
/-- The canonical node of a stored tuple, twice. -/
def readNode (i : ℕ) : Option (NodeId × NodeId) := do
  let tuple ← M.tableau.binaryExtensionTable.tuples[i]?
  let n ← (tuple 1).asNode
  let canonical ← M.tableau.getCanonicalNode n
  return (canonical, canonical)

attribute [local instance] TableKind.neZero_three in
/-- The canonical nodes of a stored tuple. -/
def readPair (i : ℕ) : Option (NodeId × NodeId) := do
  let tuple ← M.tableau.ternaryExtensionTable.tuples[i]?
  let a ← (tuple 1).asNode
  let b ← (tuple 2).asNode
  let a ← M.tableau.getCanonicalNode a
  let b ← M.tableau.getCanonicalNode b
  return (a, b)

/-- The nodes of a concept, each with itself. -/
def conceptExtension (concept : AtomicConcept) : Option (List (NodeId × NodeId)) :=
  if concept = .thing then do
    let active := M.tableauNodes.filter fun n => M.tableau.isActive n && M.tableau.isAbstract n
    let canonical ← active.mapM M.tableau.getCanonicalNode
    return (canonical.foldl insertSet []).map fun n => (n, n)
  else do
    let tupleIndices ← M.tableau.binaryExtensionTable.createBinaryRetrieval ![some 0, none]
      [some (conceptLabel rawKey concept), none] .total M.tableau.isActive
    tupleIndices.mapM M.readNode

/-- The pairs of nodes that are stored with a label. -/
def pairExtension (label : TableauObject) : Option (List (NodeId × NodeId)) := do
  let tupleIndices ← M.tableau.ternaryExtensionTable.createTernaryRetrieval ![some 0, none, none]
    [some label, none, none] .total M.tableau.isActive
  tupleIndices.mapM M.readPair

def roleLabel (rawKey : DLPredicate → Fin (2 ^ 61)) (role : AtomicRole) : TableauObject :=
  predicateToStoredLabel rawKey (.atomicRole role)

/-- An inverse role has the pairs of its role the other way round. -/
def roleExtension : Role → Option (List (NodeId × NodeId))
  | .atomicRole role => M.pairExtension (roleLabel rawKey role)
  | .inverseRole inverse => (M.pairExtension (roleLabel rawKey inverse)).map (·.map Prod.swap)

def comparisonExtension (predicate : DLPredicate) : Option (List (NodeId × NodeId)) :=
  M.pairExtension (predicateToStoredLabel rawKey predicate)

def conceptHoldsNode (concept : AtomicConcept) (n : NodeId) : Option Bool :=
  M.tableau.containsConceptAssertion rawKey concept n

def roleHoldsNodes : Role → NodeId → NodeId → Option Bool
  | .atomicRole role, nFrom, nTo => M.tableau.ternaryContains (roleLabel rawKey role) nFrom nTo
  | .inverseRole inverse, nFrom, nTo =>
    M.tableau.ternaryContains (roleLabel rawKey inverse) nTo nFrom

def comparisonHoldsNodes (predicate : DLPredicate) (n0 n1 : NodeId) : Option Bool :=
  (M.tableau.ternaryExtensionTable.createTernaryRetrieval ![some 0, some 1, some 2]
    [some (predicateToStoredLabel rawKey predicate), some (.node n0), some (.node n1)] .total
      M.tableau.isActive).map
      fun tupleIndices => !tupleIndices.isEmpty

/-! ## What holds in the model -/

/-- A concept holds of the active nodes it is stored for, and `owl:Thing` of the active abstract
nodes. -/
def HoldsConcept (concept : AtomicConcept) (n : NodeId) : Prop :=
  M.tableau.isActive n = true ∧ if concept = .thing then M.tableau.isAbstract n = true
    else ![conceptLabel rawKey concept, .node n] ∈ M.tableau.binaryExtensionTable.tuples

/-- The pair is stored with a label, and its nodes are active. -/
def HoldsPair (label : TableauObject) (a b : NodeId) : Prop :=
  (M.tableau.isActive a = true ∧ M.tableau.isActive b = true) ∧
    ![label, .node a, .node b] ∈ M.tableau.ternaryExtensionTable.tuples

def HoldsRole : Role → NodeId → NodeId → Prop
  | .atomicRole role, a, b => M.HoldsPair (roleLabel rawKey role) a b
  | .inverseRole inverse, a, b => M.HoldsPair (roleLabel rawKey inverse) b a

end Materialization

end Datalog

namespace ExtensionTable

variable {isActive : Fin (2 ^ 61) → Bool} {label : TableauObject}
variable {levels : ℕ}

/-- A retrieval of all tuples gives the numbers of those that are kept. -/
theorem exists_createRetrieval_total (isActive : Fin (2 ^ 61) → Bool) {kind : TableKind}
    {x : ExtensionTable kind.arity}
    (hx : Reachable kind levels x) {bindingPositions : Fin kind.arity → Option ℕ}
    {bindingsBuffer : List (Option TableauObject)}
    (hslots : SlotsSet bindingPositions bindingsBuffer) :
    ∃ retrieved, x.createRetrieval bindingPositions bindingsBuffer .total isActive =
    some retrieved ∧ retrieved.Nodup ∧ ∀ i, i ∈ retrieved ↔ ∃ t, x.tuples[i]? = some t ∧
      kept bindingPositions bindingsBuffer isActive t = true := by
  obtain ⟨retrieved, hrun, hnd, hmem⟩ := hx.consistent.createRetrieval_spec hslots .total isActive
  refine ⟨retrieved, hrun, hnd, fun i => ?_⟩
  rw [hmem, Option.any_eq_true, and_iff_right_of_imp]
  rintro ⟨t, ht, -⟩
  have hlt := (List.getElem?_eq_some_iff.mp ht).1
  rw [← hx.consistent.delta] at hlt
  rw [inView, Bool.and_eq_true, decide_eq_true_iff, decide_eq_true_iff]
  exact ⟨Nat.zero_le i, hlt⟩

theorem slotsSet_binary : SlotsSet (![some 0, none] : Fin 2 → Option ℕ) [some label, none] :=
  Fin.forall_fin_two.mpr ⟨fun position h => ⟨label, by cases h; rfl⟩, nofun⟩

theorem slotsSet_ternary : SlotsSet (![some 0, none, none] : Fin 3 → Option ℕ)
    [some label, none, none] :=
  Fin.forall_fin_succ.mpr ⟨fun position h => ⟨label, by cases h; rfl⟩,
    Fin.forall_fin_two.mpr ⟨nofun, nofun⟩⟩

theorem slotsSet_bound {a b : NodeId} : SlotsSet (![some 0, some 1, some 2] : Fin 3 → Option ℕ)
    [some label, some (.node a), some (.node b)] :=
  Fin.forall_fin_succ.mpr ⟨fun position h => ⟨label, by cases h; rfl⟩,
    Fin.forall_fin_two.mpr ⟨fun position h => ⟨.node a, by cases h; rfl⟩, fun position h =>
        ⟨.node b, by cases h; rfl⟩⟩⟩

theorem asNode_eq_some {o : TableauObject} {n : NodeId} : o.asNode = some n ↔ o = .node n := by
  cases o <;> simp [TableauObject.asNode]

theorem exists_active_iff {o : TableauObject} :
    o.asNode.any isActive = true ↔ ∃ n, isActive n = true ∧ o = .node n := by
  rw [Option.any_eq_true]
  refine exists_congr fun n => ?_
  rw [asNode_eq_some, and_comm]

theorem kept_binary {t : Fin 2 → TableauObject} :
    kept ![some 0, none] [some label, none] isActive t = true ↔
    ∃ n, isActive n = true ∧ t = ![label, .node n] := by
  have hkept : kept ![some 0, none] [some label, none] isActive t =
      (((t 1).asNode.any isActive && true) &&
        (decide (some label = some (t 0)) && (true && true))) := rfl
  rw [hkept, Bool.and_true, Bool.and_true, Bool.and_eq_true, Bool.and_true, exists_active_iff,
      decide_eq_true_iff,
    some.injEq]
  constructor
  · rintro ⟨⟨n, hact, hn⟩, hlab⟩
    exact ⟨n, hact, funext (Fin.forall_fin_two.mpr ⟨hlab.symm, hn⟩)⟩
  · rintro ⟨n, hact, rfl⟩
    exact ⟨⟨n, hact, rfl⟩, rfl⟩

variable {t : Fin 3 → TableauObject}

theorem kept_ternary : kept ![some 0, none, none] [some label, none, none] isActive t = true ↔
    ∃ a b, (isActive a = true ∧ isActive b = true) ∧ t = ![label, .node a, .node b] := by
  have hkept : kept ![some 0, none, none] [some label, none, none] isActive t =
      (((t 1).asNode.any isActive && ((t 2).asNode.any isActive && true)) &&
        (decide (some label = some (t 0)) && (true && (true && true)))) := rfl
  rw [hkept, Bool.and_true, Bool.and_true, Bool.and_true, Bool.and_eq_true, Bool.and_eq_true,
      Bool.and_true,
    exists_active_iff, exists_active_iff, decide_eq_true_iff, some.injEq]
  constructor
  · rintro ⟨⟨⟨a, ha, hta⟩, b, hb, htb⟩, hlab⟩
    exact ⟨a, b, ⟨ha, hb⟩,
      funext (Fin.forall_fin_succ.mpr ⟨hlab.symm, Fin.forall_fin_two.mpr ⟨hta, htb⟩⟩)⟩
  · rintro ⟨a, b, ⟨ha, hb⟩, rfl⟩
    exact ⟨⟨⟨a, ha, rfl⟩, b, hb, rfl⟩, rfl⟩

theorem kept_bound {a b : NodeId} :
    kept ![some 0, some 1, some 2] [some label, some (.node a), some (.node b)] isActive t = true ↔
      (isActive a = true ∧ isActive b = true) ∧ t = ![label, .node a, .node b] := by
  have hkept : kept ![some 0, some 1, some 2] [some label, some (.node a), some (.node b)]
    isActive t = (((t 1).asNode.any isActive && ((t 2).asNode.any isActive && true)) &&
        (decide (some label = some (t 0)) && (decide (some (TableauObject.node a) = some (t 1)) &&
          (decide (some (TableauObject.node b) = some (t 2)) && true)))) := rfl
  rw [hkept, Bool.and_true, Bool.and_true, Bool.and_eq_true, Bool.and_eq_true, Bool.and_eq_true,
      Bool.and_eq_true,
    exists_active_iff, exists_active_iff, decide_eq_true_iff, decide_eq_true_iff,
      decide_eq_true_iff, some.injEq,
    some.injEq, some.injEq]
  constructor
  · rintro ⟨⟨⟨a', ha, hta⟩, b', hb, htb⟩, hlab, ha', hb'⟩
    cases ha'.trans hta
    cases hb'.trans htb
    exact ⟨⟨ha, hb⟩,
      funext (Fin.forall_fin_succ.mpr ⟨hlab.symm, Fin.forall_fin_two.mpr ⟨hta, htb⟩⟩)⟩
  · rintro ⟨⟨ha, hb⟩, rfl⟩
    exact ⟨⟨⟨a, ha, rfl⟩, b, hb, rfl⟩, rfl, rfl, rfl⟩

variable (isActive label)

theorem exists_binaryRetrieval {x : ExtensionTable 2} (hx : Reachable .binary levels x) :
    ∃ retrieved, x.createBinaryRetrieval ![some 0, none] [some label, none] .total isActive =
    some retrieved ∧ retrieved.Nodup ∧ ∀ i, i ∈ retrieved ↔ ∃ n,
      isActive n = true ∧ x.tuples[i]? = some ![label, .node n] := by
  obtain ⟨retrieved, hrun, hnd, hmem⟩ := exists_createRetrieval_total isActive hx slotsSet_binary
  refine ⟨retrieved, hrun, hnd, fun i => (hmem i).trans ⟨?_, ?_⟩⟩
  · rintro ⟨t, ht, hkept⟩
    obtain ⟨n, hact, rfl⟩ := kept_binary.mp hkept
    exact ⟨n, hact, ht⟩
  · rintro ⟨n, hact, ht⟩
    exact ⟨_, ht, kept_binary.mpr ⟨n, hact, rfl⟩⟩

variable {x : ExtensionTable 3} (hx : Reachable .ternary levels x)
include hx

theorem exists_ternaryRetrieval : ∃ retrieved, x.createTernaryRetrieval ![some 0, none, none]
    [some label, none, none] .total isActive = some retrieved ∧
      retrieved.Nodup ∧ ∀ i, i ∈ retrieved ↔ ∃ a b, (isActive a = true ∧ isActive b = true) ∧
        x.tuples[i]? = some ![label, .node a, .node b] := by
  obtain ⟨retrieved, hrun, hnd, hmem⟩ := exists_createRetrieval_total isActive hx slotsSet_ternary
  refine ⟨retrieved, hrun, hnd, fun i => (hmem i).trans ⟨?_, ?_⟩⟩
  · rintro ⟨t, ht, hkept⟩
    obtain ⟨a, b, hact, rfl⟩ := kept_ternary.mp hkept
    exact ⟨a, b, hact, ht⟩
  · rintro ⟨a, b, hact, ht⟩
    exact ⟨_, ht, kept_ternary.mpr ⟨a, b, hact, rfl⟩⟩

theorem exists_boundRetrieval (a b : NodeId) :
    ∃ retrieved, x.createTernaryRetrieval ![some 0, some 1, some 2]
    [some label, some (.node a), some (.node b)] .total isActive = some retrieved ∧
      (retrieved ≠ [] ↔ (isActive a = true ∧ isActive b = true) ∧
        ![label, .node a, .node b] ∈ x.tuples) := by
  obtain ⟨retrieved, hrun, hnd, hmem⟩ := exists_createRetrieval_total isActive hx slotsSet_bound
  refine ⟨retrieved, hrun, ?_⟩
  constructor
  · intro hne
    obtain ⟨i, hi⟩ := exists_mem_of_ne_nil retrieved hne
    obtain ⟨t, ht, hkept⟩ := (hmem i).mp hi
    obtain ⟨hact, rfl⟩ := kept_bound.mp hkept
    exact ⟨hact, mem_of_getElem? ht⟩
  · rintro ⟨hact, htup⟩
    obtain ⟨i, hi⟩ := mem_iff_getElem?.mp htup
    exact ne_nil_of_mem ((hmem i).mpr ⟨_, hi, kept_bound.mpr ⟨hact, rfl⟩⟩)

end ExtensionTable

namespace Datalog.Materialization

variable {rawKey : DLPredicate → Fin (2 ^ 61)} {M : Materialization rawKey} {n : NodeId}

theorem invariant (M : Materialization rawKey) : M.tableau.Invariant rawKey := M.reachable.invariant

theorem mem_tableauNodes (hact : M.tableau.isActive n = true) : n ∈ M.tableauNodes := by
  rw [tableauNodes, mem_filterMap]
  rw [Tableau.isActive, Option.any_eq_true] at hact
  obtain ⟨node, hnode, -⟩ := hact
  exact ⟨n.val, mem_range.mpr (List.getElem?_eq_some_iff.mp hnode).1, dif_pos n.isLt⟩

theorem isActive_of_nodeForIri {iri : Iri} (h : M.nodeForIri iri = some n) :
    M.tableau.isActive n = true := by
  obtain ⟨raw, hraw, hcan⟩ := bind_eq_some_iff.mp h
  obtain ⟨node, hnode, hprec⟩ := M.root ⟨iri⟩ raw hraw
  obtain ⟨c, hc, hact⟩ := M.invariant.exists_getCanonicalNode hnode hprec
  rw [hc] at hcan
  exact some.inj hcan ▸ hact

theorem isActive_of_holdsRole {role : Role} {a b : NodeId} (h : M.HoldsRole role a b) :
    M.tableau.isActive a = true ∧ M.tableau.isActive b = true := by
  cases role with
  | atomicRole role => exact h.1
  | inverseRole inverse => exact h.1.symm

section

variable (M : Materialization rawKey)

theorem exists_conceptExtension (concept : AtomicConcept) :
    ∃ l, M.conceptExtension concept = some l ∧ l.Nodup ∧ ∀ p, p ∈ l ↔
    p.1 = p.2 ∧ M.HoldsConcept concept p.1 := by
  have hinv := M.invariant
  unfold conceptExtension HoldsConcept
  by_cases hth : concept = .thing
  · simp only [if_pos hth]
    -- Active nodes are canonical.
    have hcan : ∀ l : List NodeId, (∀ n ∈ l, M.tableau.isActive n = true) →
        l.mapM M.tableau.getCanonicalNode = some l := by
      intro l hl
      apply Library.mapM_eq_some_iff.mpr
      exact forall₂_same.mpr fun n hn => hinv.getCanonicalNode_of_isActive (hl n hn)
    rw [hcan _ fun n hn => (Bool.and_eq_true_iff.mp (mem_filter.mp hn).2).1]
    refine ⟨_, rfl, ?_, fun p => ?_⟩
    · refine (nodup_foldl_insertSet _ _ nodup_nil).map fun a b hab => ?_
      exact (Prod.mk.inj hab).1
    · rw [List.mem_map]
      simp only [mem_foldl_insertSet, not_mem_nil, false_or, mem_filter, Bool.and_eq_true]
      constructor
      · rintro ⟨n, ⟨-, hn⟩, rfl⟩
        exact ⟨rfl, hn⟩
      · rintro ⟨heq, hn⟩
        exact ⟨p.1, ⟨mem_tableauNodes hn.1, hn⟩, Prod.ext rfl heq⟩
  · simp only [if_neg hth]
    obtain ⟨levels, hreach⟩ := hinv.binary
    obtain ⟨retrieved, hrun, hnd, hmem⟩ :=
      ExtensionTable.exists_binaryRetrieval M.tableau.isActive (conceptLabel rawKey concept) hreach
    have hread : ∀ i n, M.tableau.isActive n = true →
        M.tableau.binaryExtensionTable.tuples[i]? = some ![conceptLabel rawKey concept, .node n] →
        M.readNode i = some (n, n) := by
      intro i n hact hi
      rw [readNode, hi]
      change ((M.tableau.getCanonicalNode n).bind fun c => some (c, c)) = some (n, n)
      rw [hinv.getCanonicalNode_of_isActive hact]
      rfl
    rw [hrun, bind_eq_bind, bind_some]
    obtain ⟨l, hl, hlnodup, hlmem⟩ := Library.exists_mapM_nodup hnd (fun i hi => by
        obtain ⟨n, hact, hn⟩ := (hmem i).mp hi
        exact ⟨(n, n), hread i n hact hn⟩)
      (fun i hi j hj p hp hp' => by
        obtain ⟨n, hact, hn⟩ := (hmem i).mp hi
        obtain ⟨n', hact', hn'⟩ := (hmem j).mp hj
        rw [hread i n hact hn] at hp
        rw [hread j n' hact' hn'] at hp'
        cases hp
        cases hp'
        exact (getElem?_inj (List.getElem?_eq_some_iff.mp hn).1 hreach.consistent.nodup).mp
          (hn.trans hn'.symm))
    refine ⟨l, hl, hlnodup, fun p => ?_⟩
    rw [hlmem]
    constructor
    · rintro ⟨i, hi, hp⟩
      obtain ⟨n, hact, hn⟩ := (hmem i).mp hi
      rw [hread i n hact hn] at hp
      cases hp
      exact ⟨rfl, hact, mem_of_getElem? hn⟩
    · rintro ⟨heq, hact, htup⟩
      obtain ⟨i, hi⟩ := mem_iff_getElem?.mp htup
      refine ⟨i, (hmem i).mpr ⟨p.1, hact, hi⟩, ?_⟩
      rw [hread i p.1 hact hi]
      exact congrArg some (Prod.ext rfl heq)

theorem exists_pairExtension (label : TableauObject) :
    ∃ l, M.pairExtension label = some l ∧ l.Nodup ∧ ∀ p, p ∈ l ↔ M.HoldsPair label p.1 p.2 := by
  have hinv := M.invariant
  obtain ⟨levels, hreach⟩ := hinv.ternary
  obtain ⟨retrieved, hrun, hnd, hmem⟩ :=
    ExtensionTable.exists_ternaryRetrieval M.tableau.isActive label hreach
  have hread : ∀ i a b, M.tableau.isActive a = true ∧ M.tableau.isActive b = true →
      M.tableau.ternaryExtensionTable.tuples[i]? = some ![label, .node a, .node b] →
        M.readPair i = some (a, b) := by
    intro i a b hact hi
    rw [readPair, hi]
    change ((M.tableau.getCanonicalNode a).bind fun a =>
        (M.tableau.getCanonicalNode b).bind fun b => some (a, b)) = some (a, b)
    rw [hinv.getCanonicalNode_of_isActive hact.1, hinv.getCanonicalNode_of_isActive hact.2]
    rfl
  rw [pairExtension, hrun, bind_eq_bind, bind_some]
  obtain ⟨l, hl, hlnodup, hlmem⟩ := Library.exists_mapM_nodup hnd (fun i hi => by
      obtain ⟨a, b, hact, ht⟩ := (hmem i).mp hi
      exact ⟨(a, b), hread i a b hact ht⟩)
    (fun i hi j hj p hp hp' => by
      obtain ⟨a, b, hact, ht⟩ := (hmem i).mp hi
      obtain ⟨a', b', hact', ht'⟩ := (hmem j).mp hj
      rw [hread i a b hact ht] at hp
      rw [hread j a' b' hact' ht'] at hp'
      cases hp
      cases hp'
      exact (getElem?_inj (List.getElem?_eq_some_iff.mp ht).1 hreach.consistent.nodup).mp
        (ht.trans ht'.symm))
  refine ⟨l, hl, hlnodup, fun p => ?_⟩
  rw [hlmem]
  constructor
  · rintro ⟨i, hi, hp⟩
    obtain ⟨a, b, hact, ht⟩ := (hmem i).mp hi
    rw [hread i a b hact ht] at hp
    cases hp
    exact ⟨hact, mem_of_getElem? ht⟩
  · rintro ⟨hact, htup⟩
    obtain ⟨i, hi⟩ := mem_iff_getElem?.mp htup
    exact ⟨i, (hmem i).mpr ⟨p.1, p.2, hact, hi⟩, hread i p.1 p.2 hact hi⟩

theorem exists_roleExtension (role : Role) :
    ∃ l, M.roleExtension role = some l ∧ l.Nodup ∧ ∀ p, p ∈ l ↔ M.HoldsRole role p.1 p.2 := by
  cases role with
  | atomicRole role => exact M.exists_pairExtension _
  | inverseRole inverse =>
    obtain ⟨l, hl, hnd, hmem⟩ := M.exists_pairExtension (roleLabel rawKey inverse)
    refine ⟨l.map Prod.swap, ?_, hnd.map Prod.swap_injective, fun p => ?_⟩
    · rw [roleExtension, hl]
      rfl
    · rw [List.mem_map]
      constructor
      · rintro ⟨q, hq, rfl⟩
        exact (hmem q).mp hq
      · intro hp
        exact ⟨p.swap, (hmem p.swap).mpr hp, p.swap_swap⟩

end

theorem exists_conceptHoldsNode (concept : AtomicConcept) (hact : M.tableau.isActive n = true) :
    ∃ b, M.conceptHoldsNode concept n = some b ∧ (b = true ↔ M.HoldsConcept concept n) := by
  obtain ⟨levels, hreach⟩ := M.invariant.binary
  obtain ⟨index, hidx, hst⟩ :=
    hreach.consistent.getTupleIndex_spec (ExtensionTable.indexingSequences_ne_nil .binary)
    ![conceptLabel rawKey concept, .node n]
  have hcont : M.tableau.binaryContains (conceptLabel rawKey concept) n =
    some (index.isSome && M.tableau.isActive n) :=
    congrArg (Option.map fun index : Option ℕ => index.isSome && M.tableau.isActive n) hidx
  unfold conceptHoldsNode Tableau.containsConceptAssertion HoldsConcept
  by_cases hth : concept = .thing
  · cases habs : M.tableau.isAbstract n with
    | true => exact ⟨true, by simp [hth], by simp [hact, hth]⟩
    | false =>
      -- Only abstract nodes carry the label of `owl:Thing`.
      refine ⟨_, hcont, iff_of_false ?_ (by simp [hth])⟩
      rw [Bool.and_eq_true, hst]
      rintro ⟨htup, -⟩
      have hlab : conceptLabel rawKey concept = Tableau.thingLabel rawKey := by rw [hth]; rfl
      have := M.invariant.thing _ htup hlab n rfl
      rw [habs] at this
      cases this
  · refine ⟨index.isSome && M.tableau.isActive n, ?_, ?_⟩
    · rw [if_neg (by simp [hth])]
      exact hcont
    · rw [Bool.and_eq_true, hst, if_neg hth, and_comm]
      rfl

variable (M : Materialization rawKey)

theorem exists_ternaryContains (label : TableauObject) (a b : NodeId) :
    ∃ r, M.tableau.ternaryContains label a b = some r ∧ (r = true ↔ M.HoldsPair label a b) := by
  obtain ⟨levels, hreach⟩ := M.invariant.ternary
  obtain ⟨index, hidx, hst⟩ :=
    hreach.consistent.getTupleIndex_spec (ExtensionTable.indexingSequences_ne_nil .ternary)
    ![label, .node a, .node b]
  refine ⟨index.isSome && M.tableau.isActive a && M.tableau.isActive b, ?_, ?_⟩
  · exact congrArg (Option.map fun index : Option ℕ =>
      index.isSome && M.tableau.isActive a && M.tableau.isActive b) hidx
  · rw [Bool.and_eq_true, Bool.and_eq_true, hst, and_assoc, and_comm]
    rfl

theorem exists_roleHoldsNodes (role : Role) (a b : NodeId) :
    ∃ r, M.roleHoldsNodes role a b = some r ∧ (r = true ↔ M.HoldsRole role a b) := by
  cases role with
  | atomicRole role => exact M.exists_ternaryContains _ a b
  | inverseRole inverse => exact M.exists_ternaryContains _ b a

theorem exists_comparisonHoldsNodes (predicate : DLPredicate) (a b : NodeId) :
    ∃ r, M.comparisonHoldsNodes predicate a b = some r ∧
      (r = true ↔ M.HoldsPair (predicateToStoredLabel rawKey predicate) a b) := by
  obtain ⟨levels, hreach⟩ := M.invariant.ternary
  obtain ⟨retrieved, hrun, hne⟩ := ExtensionTable.exists_boundRetrieval M.tableau.isActive
    (predicateToStoredLabel rawKey predicate) hreach a b
  refine ⟨!retrieved.isEmpty, ?_, ?_⟩
  · rw [comparisonHoldsNodes, hrun]
    rfl
  · rw [Bool.not_eq_true', isEmpty_eq_false_iff]
    exact hne

end Datalog.Materialization

end Hermit
