import Hermit.Datalog.Tableau

/-! # Blocking on core labels

The validated strategies block a node by an earlier one with the same core signature.  A pass
starts at the first node that has changed: the later nodes leave the cache of blockers, and those
whose block may have changed are looked at again.  The callbacks of the extension tables and of the
nodes say what has changed.
-/

namespace Hermit

open Datalog (NodeType)

structure BlockingNode where
  parent : Option ℕ := none
  nodeType : NodeType := .namedNode
  isActive : Bool := true
  blocker : Option ℕ := none
  directlyBlocked : Bool := false
  hasBlockingInfoChanged : Bool := false
  hasChangedSinceValidation : Bool := false

def BlockingNode.isBlocked (x : BlockingNode) : Bool := x.blocker.isSome || x.directlyBlocked

structure BlockingConfiguration where
  pairwise : Bool
  hasInverses : Bool
  needsThingExtension : Bool
  needsNamedExtension : Bool

/-- An atomic concept on a node in the binary extension table. -/
structure ConceptAssertion where
  concept : AtomicConcept
  node : ℕ
  isCore : Bool
deriving DecidableEq

/-- The core label of a node and, in pairwise blocking, that of its parent. -/
abbrev ValidatedSignature := Finset AtomicConcept × Option (Finset AtomicConcept)

/-- A node is its place in the tableau, where the places from `numberOfNodes` on are free.  The
cache lists the blockers in the order in which they were added. -/
structure BlockingTableau where
  numberOfNodes : ℕ := 0
  nodes : ℕ → BlockingNode := fun _ => {}
  assertions : List ConceptAssertion := []
  firstChangedNode : Option ℕ := none
  lastValidatedUnchangedNode : Option ℕ := none
  blockersCache : List (ℕ × ValidatedSignature) := []

namespace BlockingTableau

variable (cfg : BlockingConfiguration) (s : BlockingTableau)

variable (node : ℕ)

def modifyNode (f : BlockingNode → BlockingNode) : BlockingTableau :=
  { s with nodes := Function.update s.nodes node (f (s.nodes node)) }

/-! ## Changes -/

def updateNodeChange : BlockingTableau :=
  match s.firstChangedNode with
  | none => { s with firstChangedNode := some node }
  | some current => if node < current then { s with firstChangedNode := some node } else s

/-- Move the frontier of the validation back.  It may be at a place that is free now, which comes
before every node. -/
def rewindFrontier : BlockingTableau :=
  match s.lastValidatedUnchangedNode with
  | none => s
  | some current =>
    if current < s.numberOfNodes ∧ node < current
      then { s with lastValidatedUnchangedNode := some node } else s

def invalidateBlockingCache : BlockingTableau :=
  s.modifyNode node fun x =>
      { x with hasBlockingInfoChanged := true, hasChangedSinceValidation := true }

def noteBlockingNodeChanged : BlockingTableau :=
  ((s.updateNodeChange node).invalidateBlockingCache node).rewindFrontier node

/-- After a validation a node that has changed is also looked at again by the next pass. -/
def validationInfoChanged : BlockingTableau :=
  let s := if s.lastValidatedUnchangedNode.isSome
    then (s.rewindFrontier node).updateNodeChange node else s
  s.modifyNode node fun x => { x with hasChangedSinceValidation := true }

def validationInfoChangedParent : BlockingTableau :=
  match (s.nodes node).parent with
  | some parent => s.validationInfoChanged parent
  | none => s

/-- A concept that is not core does not count for the signature, and the flag for a change of the
signature is taken back. -/
def conceptChanged (isCore : Bool) : BlockingTableau :=
  if !isCore then
    let s := (s.invalidateBlockingCache node).modifyNode node fun x =>
        { x with hasBlockingInfoChanged := false }
    (s.validationInfoChanged node).validationInfoChangedParent node
  else (s.noteBlockingNodeChanged node).validationInfoChangedParent node

def addConceptAssertion (concept : AtomicConcept) (node : ℕ) (isCore : Bool) : BlockingTableau :=
  if !(s.nodes node).isActive || (!cfg.needsThingExtension && concept = .thing) then s
  else match s.assertions.find? fun a => a.concept = concept ∧ a.node = node with
    | none =>
      let s : BlockingTableau := { s with assertions := s.assertions ++ [⟨concept, node, isCore⟩] }
      s.conceptChanged node isCore
    | some stored =>
      if isCore && !stored.isCore then
        let s : BlockingTableau := { s with assertions := s.assertions.map fun a =>
          if a.concept = concept ∧ a.node = node then { a with isCore := true } else a }
        s.conceptChanged node true
      else s

/-- Backtracking removes the assertions from the last one on. -/
def removeConceptAssertion : BlockingTableau :=
  match s.assertions.getLast? with
  | none => s
  | some a =>
    let s : BlockingTableau := { s with assertions := s.assertions.dropLast }
    s.conceptChanged a.node a.isCore

/-- A new role assertion.  Roles are not part of the signatures. -/
def roleAssertionAdded (node0 node1 : ℕ) (isCore : Bool) : BlockingTableau :=
  let s := if isCore then (s.updateNodeChange node0).updateNodeChange node1 else s
  (s.validationInfoChanged node0).validationInfoChanged node1

def roleAssertionRemoved (node0 node1 : ℕ) : BlockingTableau :=
  (s.validationInfoChanged node0).validationInfoChanged node1

/-! ## Nodes -/

def nodeStatusChanged : BlockingTableau :=
  ((s.noteBlockingNodeChanged node).validationInfoChanged node).validationInfoChangedParent node

def createNewNode (parent : Option ℕ) (nodeType : NodeType) : BlockingTableau :=
  let node := s.numberOfNodes
  let s := { s with
    numberOfNodes := node + 1
    nodes := Function.update s.nodes node { s.nodes node with
      parent := parent
      nodeType := nodeType
      isActive := true
      blocker := none
      directlyBlocked := false } }.nodeStatusChanged node
  if nodeType.isAbstract then
    let s := s.addConceptAssertion cfg .thing node true
    if nodeType = .namedNode && cfg.needsNamedExtension then
      s.addConceptAssertion cfg .internalNamed node true
    else s
  else s

/-- A node is merged or pruned, or it becomes active again. -/
def setActive (isActive : Bool) : BlockingTableau :=
  (s.modifyNode node fun x => { x with isActive := isActive }).nodeStatusChanged node

def validatedCacheRemove : BlockingTableau :=
  { s with blockersCache := s.blockersCache.filter fun e => e.1 ≠ node }

def validatedCacheAdd (signature : ValidatedSignature) : BlockingTableau :=
  let s := s.validatedCacheRemove node
  { s with blockersCache := s.blockersCache ++ [(node, signature)] }

def destroyLastTableauNode : BlockingTableau :=
  let node := s.numberOfNodes - 1
  let s := (s.validatedCacheRemove node).modifyNode node fun x =>
    { x with hasBlockingInfoChanged := false, hasChangedSinceValidation := true }
  { s with
    numberOfNodes := node
    firstChangedNode := s.firstChangedNode.bind fun current =>
        if node ≤ current then none else some current }

def nodeCoreConceptLabel : Finset AtomicConcept :=
  if (s.nodes node).isActive then
    ((s.assertions.filter fun a => a.node = node ∧ a.isCore).map (·.concept)).toFinset
  else ∅

def validatedBlockSignature : ValidatedSignature :=
  (s.nodeCoreConceptLabel node,
    if cfg.pairwise then some (((s.nodes node).parent.map s.nodeCoreConceptLabel).getD ∅) else none)

def canParticipateInBlocking : Bool :=
  (s.nodes node).isActive && (s.nodes node).nodeType = .treeNode &&
    (!cfg.hasInverses || match (s.nodes node).parent with
      | some parent =>
        (s.nodes parent).nodeType = .treeNode || (s.nodes parent).nodeType = .graphNode
      | none => false)

def setBlocked (blocker : Option ℕ) (directlyBlocked : Bool) : BlockingTableau :=
  s.modifyNode node fun x => { x with blocker := blocker, directlyBlocked := directlyBlocked }

/-! ## The pass -/

def possibleBlockers (signature : ValidatedSignature) : List ℕ :=
  (s.blockersCache.filter fun e => e.2 = signature).map (·.1)

/-- The blocker stays if it can. -/
def validatedGetBlocker (signature : ValidatedSignature) : Option ℕ :=
  match (s.nodes node).blocker.filter (· ∈ s.possibleBlockers signature) with
  | some current => some current
  | none => (s.possibleBlockers signature).head?

/-- Whether a node is looked at again: a direct block by a node before the start is kept otherwise.
-/
def recompute (start node : ℕ) : Bool :=
  (s.nodes node).hasBlockingInfoChanged || !(s.nodes node).directlyBlocked ||
    match (s.nodes node).blocker with
    | some blocker => start ≤ blocker
    | none => false

/-- The blocker of a node whose parent is not blocked.  After a validation a block is only set where
something has changed. -/
def chooseBlocker : Option ℕ :=
  let signature := s.validatedBlockSignature cfg node
  match s.lastValidatedUnchangedNode with
  | none => s.validatedGetBlocker node signature
  | some _ => (s.possibleBlockers signature).find? fun possible =>
    (s.nodes node).hasChangedSinceValidation || (s.nodes possible).hasChangedSinceValidation ||
      (s.nodes node).blocker = some possible

def recomputeBlock : BlockingTableau :=
  match (s.nodes node).parent with
  | none => s.setBlocked node none false
  | some parent =>
    if (s.nodes parent).isBlocked then s.setBlocked node (some parent) false
    else
      let blocker := s.chooseBlocker cfg node
      s.setBlocked node blocker blocker.isSome

def preBlockNode (start : ℕ) (s : BlockingTableau) (node : ℕ) : BlockingTableau :=
  let s :=
    if s.canParticipateInBlocking cfg node then
      let s := if s.recompute start node then s.recomputeBlock cfg node else s
      if !(s.nodes node).isBlocked then s.validatedCacheAdd node
        (s.validatedBlockSignature cfg node) else s
    else s
  s.modifyNode node fun x => { x with hasBlockingInfoChanged := false }

/-- The places of the nodes from one on. -/
def nodesFrom (start : ℕ) : List ℕ := List.range' start (s.numberOfNodes - start)

def computePreBlocking : BlockingTableau :=
  match s.firstChangedNode with
  | none => s
  | some start =>
    let s := (s.nodesFrom start).foldl validatedCacheRemove s
    let s := (s.nodesFrom start).foldl (preBlockNode cfg start) s
    { s with firstChangedNode := none }

/-! ## The validation -/

/-- What the validation takes from the rest of the tableau: whether the block of a node by a blocker
is valid at the time it is asked for, and whether a node has existentials left. -/
structure Validation where
  isBlockValid : ℕ → ℕ → Bool
  hasUnprocessedExistentials : ℕ → Bool

variable (validation : Validation)

/-- Try the blockers other than the present one. -/
def tryBlockers (node : ℕ) (present : Option ℕ) : List ℕ → BlockingTableau →
    Option ℕ × BlockingTableau
  | [], s => (none, s)
  | possible :: rest, s =>
    if some possible = present then tryBlockers node present rest s
    else
      let s := s.setBlocked node (some possible) true
      if validation.isBlockValid node possible then (some possible, s)
        else tryBlockers node present rest s

/-- A directly blocked node is validated if it or one of the nodes around it has changed, or if its
parent is not blocked. -/
def needsValidation (node : ℕ) : Bool :=
  let x := s.nodes node
  let changed := x.directlyBlocked && (x.hasChangedSinceValidation ||
    x.parent.any (fun p => (s.nodes p).hasChangedSinceValidation) ||
    x.blocker.any fun b => (s.nodes b).hasChangedSinceValidation)
  x.isBlocked && (changed || !x.parent.any fun p => (s.nodes p).isBlocked)

def validateBlock (node : ℕ) : BlockingTableau × Bool :=
  let present := (s.nodes node).blocker
  let valid := if (s.nodes node).directlyBlocked
    then present.filter (validation.isBlockValid node) else none
  let (valid, s) := match valid with
    | some blocker => (some blocker, s)
    | none =>
      tryBlockers validation node present
        (s.possibleBlockers (s.validatedBlockSignature cfg node)) s
  (s.setBlocked node valid valid.isSome, valid.isNone && validation.hasUnprocessedExistentials node)

/-- The state and the first node found without a valid blocker. -/
def validateNode (x : BlockingTableau × Option ℕ) (node : ℕ) : BlockingTableau × Option ℕ :=
  let (s, invalid) := x
  if !(s.nodes node).isActive then (s, invalid)
  else
    let (s, found) := if s.needsValidation node then s.validateBlock cfg validation node
      else (s, false)
    let invalid := if found && invalid.isNone then some node else invalid
    let s := { s with lastValidatedUnchangedNode := some node }
    if !(s.nodes node).isBlocked && s.canParticipateInBlocking cfg node then
      (s.validatedCacheAdd node (s.validatedBlockSignature cfg node), invalid)
    else (s, invalid)

def validateBlocks : BlockingTableau :=
  let start := s.lastValidatedUnchangedNode.getD 0
  let s := (s.nodesFrom start).foldl validatedCacheRemove s
  let (s, invalid) := (s.nodesFrom start).foldl (validateNode cfg validation) (s, none)
  let s := (s.nodesFrom start).foldl (fun s node => if (s.nodes node).isActive then
    s.modifyNode node fun x => { x with hasChangedSinceValidation := false } else s) s
  { s with firstChangedNode := invalid }

/-- No node is active below one that is not. -/
def Rooted : Prop :=
  ∀ n < s.numberOfNodes, (s.nodes n).isActive → ∀ p, (s.nodes n).parent = some p →
    (s.nodes p).isActive

inductive Action where
  | createNode (parent : Option ℕ) (nodeType : NodeType)
  | addConcept (concept : AtomicConcept) (node : ℕ) (isCore : Bool)
  | removeConcept
  | addRole (node0 node1 : ℕ) (isCore : Bool)
  | removeRole (node0 node1 : ℕ)
  | setActive (node : ℕ) (isActive : Bool)
  | destroyNode
  | computePreBlocking
  | validateBlocks (validation : Validation)

/-- A node is destroyed after its assertions have been removed.  The successors of a node go with it
and come back with it before the next pass, and blocks are validated only when nothing has
changed since a pass. -/
def Enabled : Action → Prop
  | .createNode parent _ => ∀ p ∈ parent, p < s.numberOfNodes
  | .addConcept _ node _ | .setActive node _ => node < s.numberOfNodes
  | .removeConcept => True
  | .addRole node0 node1 _ | .removeRole node0 node1 =>
    node0 < s.numberOfNodes ∧ node1 < s.numberOfNodes
  | .destroyNode => 0 < s.numberOfNodes ∧ ∀ a ∈ s.assertions, a.node < s.numberOfNodes - 1
  | .computePreBlocking => s.Rooted
  | .validateBlocks _ => s.Rooted ∧ s.firstChangedNode = none

def perform : Action → BlockingTableau
  | .createNode parent nodeType => s.createNewNode cfg parent nodeType
  | .addConcept concept node isCore => s.addConceptAssertion cfg concept node isCore
  | .removeConcept => s.removeConceptAssertion
  | .addRole node0 node1 isCore => s.roleAssertionAdded node0 node1 isCore
  | .removeRole node0 node1 => s.roleAssertionRemoved node0 node1
  | .setActive node isActive => s.setActive node isActive
  | .destroyNode => s.destroyLastTableauNode
  | .computePreBlocking => s.computePreBlocking cfg
  | .validateBlocks validation => s.validateBlocks cfg validation

/-- The states of the runs all of whose steps are permitted. -/
inductive Reached (permitted : BlockingTableau → Action → Prop) : BlockingTableau → Prop
  | initial : Reached permitted {}
  | step {s : BlockingTableau} {a : Action} (h : Reached permitted s) (hen : s.Enabled a)
      (hperm : permitted s a) : Reached permitted (s.perform cfg a)

end BlockingTableau

end Hermit
