import Hermit.Tableau.ClauseProgram
import Hermit.Tableau.ExtensionRetrieval

/-! # The tableau of the datalog engine

Materialization creates nodes, stores assertions about active nodes, and merges or prunes nodes; it
never backtracks.  In every tableau that arises in this way an active node is canonical, the nodes
of individuals lead to active ones, and `owl:Thing` is stored for abstract nodes only.
-/

namespace Hermit

open List hiding not_lt
open Option

namespace ExtensionTable

variable {arity : ℕ} {x : ExtensionTable arity}

/-- The index of a stored tuple. -/
def getTupleIndex (x : ExtensionTable arity) (tuple : Fin arity → TableauObject) :
    Option (Option ℕ) :=
  x.tupleIndexes.head?.bind (·.getTupleIndex tuple)

theorem Consistent.getTupleIndex_spec {indexingSequences : List (List (Fin arity))} {levels : ℕ}
    (h : x.Consistent indexingSequences levels) (hne : indexingSequences ≠ [])
    (t : Fin arity → TableauObject) :
    ∃ r, x.getTupleIndex t = some r ∧ (r.isSome = true ↔ t ∈ x.tuples) := by
  have hidxs : x.tupleIndexes ≠ [] := by
    intro hnil
    apply hne
    rw [← h.sequences, hnil]
    rfl
  obtain ⟨primary, others, hcons⟩ := exists_cons_of_ne_nil hidxs
  have hprim : primary ∈ x.tupleIndexes := hcons ▸ mem_cons_self
  obtain ⟨m, hm, hmap⟩ := (h.indexed primary hprim).map
  obtain ⟨r, hr, hval⟩ := hm.trie.getTupleIndex_spec t
  refine ⟨r, ?_, ?_⟩
  · rw [getTupleIndex, hcons]
    exact hr
  · have hproject : primary.project t = primary.indexingSequence.map t := rfl
    have hget : ∀ v, r = some v ↔ x.tuples[v]? = some t := by
      intro v
      rw [hval, ← hm.map _ (TupleIndex.length_project t), hproject, hmap]
    rw [isSome_iff_exists, mem_iff_getElem?]
    exact exists_congr hget

end ExtensionTable

namespace Datalog

/-! ## Nodes -/

inductive NodeType where
  | namedNode
  | niNode
  | rootConstantNode
  | treeNode
  | graphNode
  | concreteNode
deriving DecidableEq, Repr

namespace NodeType

def getMergePrecedence : NodeType → ℕ
  | namedNode => 0
  | niNode | rootConstantNode => 1
  | treeNode | graphNode | concreteNode => 2

def isAbstract : NodeType → Bool
  | namedNode | niNode | treeNode | graphNode => true
  | rootConstantNode | concreteNode => false

end NodeType

inductive NodeState where
  | active
  | merged
  | pruned
deriving DecidableEq, Repr

structure Node where
  nodeType : NodeType
  nodeState : NodeState
  parent : Option NodeId
  mergedInto : Option NodeId

structure Tableau where
  nodes : List Node
  numberOfMergedOrPrunedNodes : ℕ
  needsThingExtension : Bool
  needsRdfsLiteralExtension : Bool
  binaryExtensionTable : ExtensionTable 2
  ternaryExtensionTable : ExtensionTable 3

namespace Tableau

def new (needsThingExtension needsRdfsLiteralExtension : Bool) : Tableau :=
  ⟨[], 0, needsThingExtension, needsRdfsLiteralExtension, ExtensionTable.newBinaryExtensionTable,
    ExtensionTable.newTernaryExtensionTable⟩

variable (t : Tableau) (rawKey : DLPredicate → Fin (2 ^ 61))

def node (n : NodeId) : Option Node := t.nodes[n.val]?

def isActive (n : NodeId) : Bool := (t.node n).any (·.nodeState = .active)

def isAbstract (n : NodeId) : Bool := (t.node n).any (·.nodeType.isAbstract)

/-- The node of the next number. -/
def createNewNode (nodeType : NodeType) (parent : Option NodeId) : Tableau :=
  { t with nodes := t.nodes ++ [⟨nodeType, .active, parent, none⟩] }

def mergeNode (n mergeInto : NodeId) : Tableau :=
  { t with
    nodes := t.nodes.modify n.val fun node =>
        { node with nodeState := .merged, mergedInto := some mergeInto }
    numberOfMergedOrPrunedNodes := t.numberOfMergedOrPrunedNodes + 1 }

def pruneNode (n : NodeId) : Tableau :=
  { t with
    nodes := t.nodes.modify n.val fun node => { node with nodeState := .pruned }
    numberOfMergedOrPrunedNodes := t.numberOfMergedOrPrunedNodes + 1 }

/-- Follow the links of merged nodes. -/
def follow : ℕ → NodeId → Option NodeId
  | fuel, n =>
    match (t.node n).bind Node.mergedInto with
    | none => some n
    | some m =>
      match fuel with
      | 0 => none
      | fuel + 1 => follow fuel m

def getCanonicalNode (n : NodeId) : Option NodeId := t.follow t.numberOfMergedOrPrunedNodes n

/-! ## Assertions -/

def thingLabel : TableauObject := predicateToStoredLabel rawKey (.atomicConcept .thing)

def rdfsLiteralLabel : TableauObject :=
  predicateToStoredLabel rawKey (.dataRange (.atomic (.internalDatatype .rdfsLiteral)))

/-- Whether assertions with a label are stored. -/
def passes (label : TableauObject) : Bool :=
  (t.needsThingExtension || label ≠ thingLabel rawKey) &&
    (t.needsRdfsLiteralExtension || label ≠ rdfsLiteralLabel rawKey)

def addBinary (label : TableauObject) (n : NodeId) : Option Tableau :=
  if t.isActive n && t.passes rawKey label then
    (t.binaryExtensionTable.storeTuple ![label, .node n]).map fun stored =>
        { t with binaryExtensionTable := stored.2 }
  else some t

def addTernary (label : TableauObject) (n0 n1 : NodeId) : Option Tableau :=
  if t.isActive n0 && t.isActive n1 && t.passes rawKey label then
    (t.ternaryExtensionTable.storeTuple ![label, .node n0, .node n1]).map fun stored =>
      { t with ternaryExtensionTable := stored.2 }
  else some t

def binaryContains (label : TableauObject) (n : NodeId) : Option Bool :=
  (t.binaryExtensionTable.getTupleIndex ![label, .node n]).map fun index =>
      index.isSome && t.isActive n

def ternaryContains (label : TableauObject) (n0 n1 : NodeId) : Option Bool :=
  (t.ternaryExtensionTable.getTupleIndex ![label, .node n0, .node n1]).map fun index =>
    index.isSome && t.isActive n0 && t.isActive n1

def containsConceptAssertion (concept : AtomicConcept) (n : NodeId) : Option Bool :=
  if t.isAbstract n && concept = .thing then some true
  else t.binaryContains (predicateToStoredLabel rawKey (.atomicConcept concept)) n

/-- What materialization does, step by step.  Nodes that may not be pruned have no parent; a node is
merged into one that goes first; `owl:Thing` is asserted of abstract nodes only. -/
inductive Reachable : Tableau → Prop
  | new (needsThingExtension needsRdfsLiteralExtension : Bool) :
    Reachable (new needsThingExtension needsRdfsLiteralExtension)
  | createNewNode {t : Tableau} (nodeType : NodeType) (parent : Option NodeId) : Reachable t →
    t.nodes.length < 2 ^ 61 →
    (nodeType.getMergePrecedence < 2 → parent = none) → Reachable (t.createNewNode nodeType parent)
  | addBinary {t t' : Tableau} (label : TableauObject) (n : NodeId) : Reachable t →
    (label = thingLabel rawKey → t.isAbstract n = true) → t.addBinary rawKey label n = some t' →
      Reachable t'
  | addTernary {t t' : Tableau} (label : TableauObject) (n0 n1 : NodeId) : Reachable t →
    t.addTernary rawKey label n0 n1 = some t' → Reachable t'
  | propagateDeltaNew {t : Tableau} : Reachable t → Reachable { t with
      binaryExtensionTable := t.binaryExtensionTable.propagateDeltaNew.2
      ternaryExtensionTable := t.ternaryExtensionTable.propagateDeltaNew.2 }
  | mergeNode {t : Tableau} {n m : NodeId} {nodeN nodeM : Node} : Reachable t →
    t.node n = some nodeN → t.node m = some nodeM →
    nodeN.nodeState = .active → nodeM.nodeState = .active → n ≠ m →
    nodeM.nodeType.getMergePrecedence ≤ nodeN.nodeType.getMergePrecedence →
      Reachable (t.mergeNode n m)
  | pruneNode {t : Tableau} {n : NodeId} {nodeN : Node} : Reachable t → t.node n = some nodeN →
    nodeN.nodeState = .active →
    nodeN.parent ≠ none → Reachable (t.pruneNode n)

/-! ## What holds in every tableau -/

variable {t rawKey} {t' : Tableau} {n m : NodeId} {nodeN nodeM : Node}

/-- Merged nodes lead to nodes that go first, each to one that was merged later or not at all. -/
structure Invariant (rawKey : DLPredicate → Fin (2 ^ 61)) (t : Tableau) : Prop where
  binary : ∃ levels, ExtensionTable.Reachable .binary levels t.binaryExtensionTable
  ternary : ∃ levels, ExtensionTable.Reachable .ternary levels t.ternaryExtensionTable
  merged : ∀ n node, t.node n = some node → (node.mergedInto = none ↔ node.nodeState ≠ .merged)
  roots : ∀ n node, t.node n = some node → node.nodeType.getMergePrecedence < 2 →
    node.parent = none ∧ node.nodeState ≠ .pruned
  target : ∀ n node m, t.node n = some node → node.mergedInto = some m →
    ∃ nodeM, t.node m = some nodeM ∧ nodeM.nodeType.getMergePrecedence ≤
      node.nodeType.getMergePrecedence
  time : ∃ time : NodeId → ℕ, (∀ n, time n ≤ t.numberOfMergedOrPrunedNodes) ∧
    ∀ n node m, t.node n = some node → node.mergedInto = some m → time n < time m
  thing : ∀ tuple ∈ t.binaryExtensionTable.tuples, tuple 0 = thingLabel rawKey → ∀ n,
    tuple 1 = .node n → t.isAbstract n = true

variable {nodeType : NodeType} {parent : Option NodeId}

theorem node_createNewNode {node : Node}
    (h : (t.createNewNode nodeType parent).node n = some node) :
    t.node n = some node ∨ node = ⟨nodeType, .active, parent, none⟩ := by
  unfold createNewNode Tableau.node at h
  dsimp only at h
  by_cases hlt : n.val < t.nodes.length
  · rw [getElem?_append_left hlt] at h
    exact .inl h
  · rw [getElem?_append_right (not_lt.mp hlt), getElem?_singleton] at h
    split at h
    · exact .inr (some.inj h).symm
    · cases h

theorem node_createNewNode_of_some {node : Node} (h : t.node n = some node) :
    (t.createNewNode nodeType parent).node n = some node := by
  unfold Tableau.node createNewNode at *
  dsimp only
  rw [getElem?_append_left (List.getElem?_eq_some_iff.mp h).1]
  exact h

theorem isAbstract_of_node {nodes' : Tableau} (hnode : ∀ node, t.node n = some node →
      ∃ node', nodes'.node n = some node' ∧ node'.nodeType = node.nodeType)
      (h : t.isAbstract n = true) :
    nodes'.isAbstract n = true := by
  unfold isAbstract at h ⊢
  rw [Option.any_eq_true] at h ⊢
  obtain ⟨node, hn, habs⟩ := h
  obtain ⟨node', hn', htype⟩ := hnode node hn
  exact ⟨node', hn', htype ▸ habs⟩

theorem invariant_new (needsThing needsLiteral : Bool) :
    Invariant rawKey (new needsThing needsLiteral) where
  binary := ⟨0, .new⟩
  ternary := ⟨0, .new⟩
  merged := nofun
  roots := nofun
  target := nofun
  time := ⟨fun _ => 0, fun _ => le_rfl, nofun⟩
  thing := nofun

theorem Invariant.createNewNode (h : Invariant rawKey t)
    (hpar : nodeType.getMergePrecedence < 2 → parent = none) :
    Invariant rawKey (t.createNewNode nodeType parent) where
  binary := h.binary
  ternary := h.ternary
  merged n node hn := by
    rcases node_createNewNode hn with hn | rfl
    · exact h.merged n node hn
    · simp
  roots n node hn hprec := by
    rcases node_createNewNode hn with hn | rfl
    · exact h.roots n node hn hprec
    · exact ⟨hpar hprec, by simp⟩
  target n node m hn hm := by
    rcases node_createNewNode hn with hn | rfl
    · obtain ⟨nodeM, hnodeM, hle⟩ := h.target n node m hn hm
      exact ⟨nodeM, node_createNewNode_of_some hnodeM, hle⟩
    · cases hm
  time := by
    obtain ⟨time, hle, hlt⟩ := h.time
    refine ⟨time, hle, fun n node m hn hm => ?_⟩
    rcases node_createNewNode hn with hn | rfl
    · exact hlt n node m hn hm
    · cases hm
  thing tuple htup hlab n hn :=
    isAbstract_of_node (fun node hnode => ⟨node, node_createNewNode_of_some hnode, rfl⟩)
      (h.thing tuple htup hlab n hn)

theorem nodeColumns_pair (label : TableauObject) (n : NodeId) :
    ExtensionTable.NodeColumns ![label, .node n] :=
  Fin.forall_fin_two.mpr ⟨fun hzero => absurd rfl hzero, fun _ => ⟨n, rfl⟩⟩

theorem nodeColumns_triple (label : TableauObject) (n0 n1 : NodeId) :
    ExtensionTable.NodeColumns ![label, .node n0, .node n1] :=
  Fin.forall_fin_succ.mpr ⟨fun hzero => absurd rfl hzero,
    Fin.forall_fin_two.mpr ⟨fun _ => ⟨n0, rfl⟩, fun _ => ⟨n1, rfl⟩⟩⟩

variable {label : TableauObject}

theorem Invariant.addBinary (h : Invariant rawKey t)
    (habs : label = thingLabel rawKey → t.isAbstract n = true)
    (hadd : t.addBinary rawKey label n = some t') : Invariant rawKey t' := by
  unfold Tableau.addBinary at hadd
  split at hadd
  · obtain ⟨⟨outcome, table⟩, hstore, rfl⟩ := map_eq_some_iff.mp hadd
    obtain ⟨levels, hreach⟩ := h.binary
    obtain ⟨_, _, hy, hreach', hmem⟩ := hreach.exists_store (nodeColumns_pair label n)
    cases hstore.symm.trans hy
    refine { h with
      binary := ⟨levels, hreach'⟩
      thing := fun tuple htup hlab n' hn' => ?_ }
    rcases (hmem tuple).mp htup with htup | rfl
    · exact h.thing tuple htup hlab n' hn'
    · cases hn'
      exact habs hlab
  · cases hadd
    exact h

theorem Invariant.addTernary (h : Invariant rawKey t) {n0 n1 : NodeId}
    (hadd : t.addTernary rawKey label n0 n1 = some t') : Invariant rawKey t' := by
  unfold Tableau.addTernary at hadd
  split at hadd
  · obtain ⟨⟨outcome, table⟩, hstore, rfl⟩ := map_eq_some_iff.mp hadd
    obtain ⟨levels, hreach⟩ := h.ternary
    exact { h with ternary := ⟨levels, hreach.store (nodeColumns_triple label n0 n1) hstore⟩ }
  · cases hadd
    exact h

section change

variable {f : Node → Node}

theorem node_modify (hnodes : t'.nodes = t.nodes.modify n.val f) :
    t'.node n' = if n = n' then (t.node n').map f else t.node n' := by
  unfold Tableau.node
  rw [hnodes, getElem?_modify]
  simp only [Fin.val_inj]
  split
  · rfl
  · simp

/-- A node changes its state, but not its type. -/
theorem Invariant.modify (h : Invariant rawKey t) (hn : t.node n = some nodeN)
    (hnodes : t'.nodes = t.nodes.modify n.val f)
    (hbinary : t'.binaryExtensionTable = t.binaryExtensionTable)
    (hternary : t'.ternaryExtensionTable = t.ternaryExtensionTable)
    (htype : ∀ node, (f node).nodeType = node.nodeType)
    (hmg : (f nodeN).mergedInto = none ↔ (f nodeN).nodeState ≠ .merged)
    (hroots : nodeN.nodeType.getMergePrecedence < 2 →
      (f nodeN).parent = none ∧ (f nodeN).nodeState ≠ .pruned)
    (htgt : ∀ m, (f nodeN).mergedInto = some m → ∃ nodeM, t.node m = some nodeM ∧
      nodeM.nodeType.getMergePrecedence ≤ nodeN.nodeType.getMergePrecedence)
    (htime : ∃ time : NodeId → ℕ, (∀ k, time k ≤ t'.numberOfMergedOrPrunedNodes) ∧
      (∀ m, (f nodeN).mergedInto = some m → time n < time m) ∧
      ∀ k node m, n ≠ k → t.node k = some node → node.mergedInto = some m → time k < time m) :
    Invariant rawKey t' := by
  have hsame : ∀ k node, t.node k = some node → ∃ node', t'.node k = some node' ∧
      node'.nodeType = node.nodeType := by
    intro k node hk
    rw [node_modify hnodes, hk]
    split
    · exact ⟨_, rfl, htype node⟩
    · exact ⟨_, rfl, rfl⟩
  have hcases : ∀ k node, t'.node k = some node →
      n = k ∧ node = f nodeN ∨ n ≠ k ∧ t.node k = some node := by
    intro k node hk
    rw [node_modify hnodes] at hk
    split at hk
    · rename_i heq
      subst heq
      rw [hn] at hk
      exact .inl ⟨rfl, (some.inj hk).symm⟩
    · rename_i hnk
      exact .inr ⟨hnk, hk⟩
  refine {
    binary := hbinary ▸ h.binary
    ternary := hternary ▸ h.ternary
    merged := fun k node hk => ?_
    roots := fun k node hk hprec => ?_
    target := fun k node l hk hl => ?_
    time := ?_
    thing := fun tuple htup hlab k hk =>
      isAbstract_of_node (hsame k) (h.thing tuple (hbinary ▸ htup) hlab k hk) }
  · rcases hcases k node hk with ⟨-, rfl⟩ | ⟨-, hk⟩
    · exact hmg
    · exact h.merged k node hk
  · rcases hcases k node hk with ⟨-, rfl⟩ | ⟨-, hk⟩
    · exact hroots (htype nodeN ▸ hprec)
    · exact h.roots k node hk hprec
  · have htarget : ∃ nodeL, t.node l = some nodeL ∧
        nodeL.nodeType.getMergePrecedence ≤ node.nodeType.getMergePrecedence := by
      rcases hcases k node hk with ⟨-, rfl⟩ | ⟨-, hk⟩
      · exact (htype nodeN).symm ▸ htgt l hl
      · exact h.target k node l hk hl
    obtain ⟨nodeL, hnodeL, hprec⟩ := htarget
    obtain ⟨nodeL', hnodeL', htypeL⟩ := hsame l nodeL hnodeL
    exact ⟨nodeL', hnodeL', htypeL ▸ hprec⟩
  · obtain ⟨time, hbd, hlt, hltOther⟩ := htime
    refine ⟨time, hbd, fun k node l hk hl => ?_⟩
    rcases hcases k node hk with ⟨rfl, rfl⟩ | ⟨hnk, hk⟩
    · exact hlt l hl
    · exact hltOther k node l hnk hk hl

end change

theorem Invariant.mergeNode (h : Invariant rawKey t) (hn : t.node n = some nodeN)
    (hm : t.node m = some nodeM) (hactiveM : nodeM.nodeState = .active) (hne : n ≠ m)
    (hle : nodeM.nodeType.getMergePrecedence ≤ nodeN.nodeType.getMergePrecedence) :
    Invariant rawKey (t.mergeNode n m) := by
  refine h.modify hn rfl rfl rfl (fun _ => rfl) (by simp)
    (fun hprec => ⟨(h.roots n nodeN hn hprec).1, by simp⟩)
    (fun l hl => ⟨nodeM, some.inj hl ▸ hm, hle⟩) ?_
  obtain ⟨time, hbd, hlt⟩ := h.time
  -- A node that is merged now comes after all that were merged before, and before all others.
  let time' := fun k => if k = n then t.numberOfMergedOrPrunedNodes
    else if ((t.node k).bind Node.mergedInto).isSome then time k
      else t.numberOfMergedOrPrunedNodes + 1
  have hnone : ((t.node m).bind Node.mergedInto).isSome = false := by
    have := (h.merged m nodeM hm).mpr (by simp [hactiveM])
    simp [hm, this]
  refine ⟨time', fun k => ?_, fun l hl => ?_, fun k node l hnk hk hl => ?_⟩
  · have hk := hbd k
    simp only [time', Tableau.mergeNode]
    split_ifs <;> omega
  · cases hl
    simp [time', hne.symm, hnone]
  · have hsome : ((t.node k).bind Node.mergedInto).isSome = true := by simp [hk, hl]
    have htime := hlt k node l hk hl
    have hl' := hbd l
    simp only [time', hnk.symm, if_false, hsome, if_true]
    split
    · rename_i heq
      subst heq
      omega
    · split_ifs <;> omega

theorem Invariant.pruneNode (h : Invariant rawKey t) (hn : t.node n = some nodeN)
    (hactive : nodeN.nodeState = .active)
    (hpnt : nodeN.parent ≠ none) : Invariant rawKey (t.pruneNode n) := by
  have hnone : nodeN.mergedInto = none := (h.merged n nodeN hn).mpr (by simp [hactive])
  obtain ⟨time, hbd, hlt⟩ := h.time
  exact h.modify hn rfl rfl rfl (fun _ => rfl) (by simp [hnone])
    (fun hprec => absurd (h.roots n nodeN hn hprec).1 hpnt)
    (fun l hl => by cases hnone.symm.trans hl)
    ⟨time, fun k => (hbd k).trans (Nat.le_succ _),
      fun l hl => absurd (hnone.symm.trans hl) (by simp), fun k node l _ => hlt k node l⟩

theorem Reachable.invariant (h : Reachable rawKey t) : Invariant rawKey t := by
  induction h with
  | new needsThing needsLiteral => exact invariant_new needsThing needsLiteral
  | createNewNode nodeType parent _ _ hpar ih => exact ih.createNewNode hpar
  | addBinary label n _ habs hadd ih => exact ih.addBinary habs hadd
  | addTernary label n0 n1 _ hadd ih => exact ih.addTernary hadd
  | propagateDeltaNew _ ih =>
    obtain ⟨levels, hbinary⟩ := ih.binary
    obtain ⟨levels', hternary⟩ := ih.ternary
    exact { ih with
      binary := ⟨levels, hbinary.propagate⟩
      ternary := ⟨levels', hternary.propagate⟩ }
  | mergeNode _ hn hm _ hactiveM hne hle ih => exact ih.mergeNode hn hm hactiveM hne hle
  | pruneNode _ hn hact hpar ih => exact ih.pruneNode hn hact hpar

theorem Invariant.getCanonicalNode_of_isActive (h : Invariant rawKey t)
    (hact : t.isActive n = true) :
    t.getCanonicalNode n = some n := by
  unfold isActive at hact
  rw [Option.any_eq_true] at hact
  obtain ⟨node, hn, hstate⟩ := hact
  have hnone := (h.merged n node hn).mpr (by simp [of_decide_eq_true hstate])
  rw [getCanonicalNode, follow, hn, bind_some, hnone]

section

variable (h : Invariant rawKey t) (hn : t.node n = some nodeN)
  (hprec : nodeN.nodeType.getMergePrecedence < 2)
include h hn hprec

theorem Invariant.isActive_of_root (hmg : nodeN.mergedInto = none) : t.isActive n = true := by
  have hstate := (h.merged n nodeN hn).mp hmg
  have hprn := (h.roots n nodeN hn hprec).2
  rw [isActive, hn, any_some, decide_eq_true_iff]
  cases hs : nodeN.nodeState with
  | active => rfl
  | merged => exact absurd hs hstate
  | pruned => exact absurd hs hprn

/-- The nodes of individuals are merged into active nodes. -/
theorem Invariant.exists_getCanonicalNode : ∃ c,
    t.getCanonicalNode n = some c ∧ t.isActive c = true := by
  obtain ⟨time, hbd, hlt⟩ := h.time
  have hfollow : ∀ fuel n nodeN, t.node n = some nodeN → nodeN.nodeType.getMergePrecedence < 2 →
      t.numberOfMergedOrPrunedNodes - time n ≤ fuel → ∃ c,
        t.follow fuel n = some c ∧ t.isActive c = true := by
    intro fuel
    induction fuel with
    | zero =>
      intro n nodeN hn hprec hfuel
      have hle := hbd n
      cases hmg : nodeN.mergedInto with
      | none =>
        exact ⟨n,
          by rw [follow, hn, bind_some, hmg], h.isActive_of_root hn hprec hmg⟩
      | some m =>
        have := hlt n nodeN m hn hmg
        have := hbd m
        omega
    | succ fuel ih =>
      intro n nodeN hn hprec hfuel
      cases hmg : nodeN.mergedInto with
      | none =>
        exact ⟨n,
          by rw [follow, hn, bind_some, hmg], h.isActive_of_root hn hprec hmg⟩
      | some m =>
        obtain ⟨nodeM, hm, hle⟩ := h.target n nodeN m hn hmg
        have := hlt n nodeN m hn hmg
        have := hbd m
        obtain ⟨c, hc, hact⟩ := ih m nodeM hm (hle.trans_lt hprec) (by omega)
        refine ⟨c, ?_, hact⟩
        rw [follow, hn, bind_some, hmg]
        exact hc
  exact hfollow _ n nodeN hn hprec (Nat.sub_le _ _)

end

/-- After any steps the node of an individual leads to an active node, and that to itself. -/
theorem Reachable.getCanonicalNode_idem (h : Reachable rawKey t) (hn : t.node n = some nodeN)
    (hprec : nodeN.nodeType.getMergePrecedence < 2) :
    ∃ c, t.getCanonicalNode n = some c ∧ t.isActive c = true ∧ t.getCanonicalNode c = some c := by
  obtain ⟨c, hc, hact⟩ := h.invariant.exists_getCanonicalNode hn hprec
  exact ⟨c, hc, hact, h.invariant.getCanonicalNode_of_isActive hact⟩

theorem getCanonicalNode_idem_merged : ∃ t : Tableau,
    t.node 0 = some ⟨.namedNode, .merged, none, some 1⟩ ∧
    ∃ c, t.getCanonicalNode 0 = some c ∧ t.isActive c = true ∧ t.getCanonicalNode c = some c := by
  have hrun : Reachable (fun _ => 0) _ := .mergeNode (n := 0) (m := 1)
    (.createNewNode .namedNode none (.createNewNode .namedNode none (.new false false) (by decide)
      fun _ => rfl)
      (by decide) fun _ => rfl) rfl rfl rfl rfl (by decide) le_rfl
  exact ⟨_, rfl, hrun.getCanonicalNode_idem rfl (by decide)⟩

end Tableau

end Datalog

end Hermit
