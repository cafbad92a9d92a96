import Hermit.Library.Looping
import Hermit.Tableau.ClauseProgram

/-! # Evaluation of compiled clauses

The machine runs a program over one delta tuple.  What the source derives is recorded, so the
tables do not change.  A read out of bounds is `none`, as is a variable that holds no node.
-/

namespace Hermit

/-- What a program reads of a node. -/
structure Node where
  nodeId : ℤ
  isActive : Bool
  isTreeNode : Bool
  isRootNode : Bool
  treeDepth : ℤ

/-- What a program reads of a tableau. -/
structure Tableau where
  nodes : NodeId → Node
  table : (kind : TableKind) → ExtensionTable kind.arity
  needsDependencySets : Bool
  dependencySets : TableKind → List (Option PermanentDependencySet)
  containsClash : Bool

namespace Tableau

variable (tableau : Tableau)

/-- The table with a number of columns; there are two. -/
def tableKind : ℕ → Option TableKind
  | 2 => some .binary
  | 3 => some .ternary
  | _ => none

/-- The objects of a tuple. -/
def tupleObjects (tableArity tupleIndex : ℕ) : Option (List TableauObject) := do
  let kind ← tableKind tableArity
  let tuple ← (tableau.table kind).tuples[tupleIndex]?
  return List.ofFn tuple

def getDependencySet (tableArity tupleIndex : ℕ) : PermanentDependencySet :=
  if tableau.needsDependencySets then
    ((tableKind tableArity).bind fun kind =>
        ((tableau.dependencySets kind)[tupleIndex]?).join).getD .emptySet
  else .emptySet

/-- The matching tuples of a retrieval. -/
def openRetrieval (retrieval : VmRetrieval) (values : List (Option TableauObject)) :
    Option (List ℕ) := do
  let kind ← tableKind retrieval.tableArity
  (tableau.table kind).createRetrieval (fun column =>
      retrieval.bindingPositions[column.val]?.join) values
    retrieval.view fun node => (tableau.nodes node).isActive

end Tableau

/-- A derivation that is recorded: no head predicate for a clash, one for a fact, more for a
disjunction. -/
structure Derivation where
  headPredicates : List DLPredicate
  arguments : List NodeId
  isCore : List Bool
  dependencySet : PermanentDependencySet

structure Machine where
  programCounter : ℕ
  values : List (Option TableauObject)
  registers : Registers
  derivations : List Derivation

def nodeAt (values : List (Option TableauObject)) (variableIndex : ℕ) : Option NodeId :=
  values[variableIndex]?.join.bind TableauObject.asNode

/-- Whether the numbers ascend strictly, and whether all are equal. -/
def compareIds : List ℤ → ℤ → Bool × Bool → Bool × Bool
  | [], _, flags => flags
  | id :: ids, lastId, (strictlyAscending, allEqual) =>
    compareIds ids id (strictlyAscending && !(lastId ≥ id), allEqual && !(id ≠ lastId))

def idsAscendingOrEqual : List ℤ → Option Bool
  | [] => none
  | first :: ids =>
    let (strictlyAscending, allEqual) := compareIds ids first (true, true)
    some ((!strictlyAscending && allEqual) || (strictlyAscending && !allEqual))

section coreVariables

variable (tableau : Tableau) (values : List (Option TableauObject))

/-- The shallowest tree node among the first variables, from the last. -/
def potentialNonCore : ℕ → Option NodeId → Option NodeId
  | 0, current => current
  | variableIndex + 1, current =>
    match nodeAt values variableIndex with
    | none => potentialNonCore variableIndex current
    | some node =>
      let isShallower := current.all fun c =>
          (tableau.nodes node).treeDepth < (tableau.nodes c).treeDepth
      potentialNonCore variableIndex (if (tableau.nodes node).isTreeNode &&
        isShallower then some node else current)

/-- Mark the variables strictly below a node, from the last. -/
def markDeeper (root : NodeId) : ℕ → List Bool → List Bool
  | 0, coreVariables => coreVariables
  | variableIndex + 1, coreVariables =>
    match nodeAt values variableIndex with
    | none => markDeeper root variableIndex coreVariables
    | some node =>
      let isDeeper := !(tableau.nodes node).isRootNode && root ≠ node &&
        (tableau.nodes root).treeDepth < (tableau.nodes node).treeDepth
      markDeeper root variableIndex
        (if isDeeper then coreVariables.set variableIndex true else coreVariables)

def computeCoreVariables (variableCount : ℕ) (coreVariables : List Bool) : List Bool :=
  match potentialNonCore tableau values variableCount none with
  | none => coreVariables
  | some root => markDeeper tableau values root variableCount coreVariables

end coreVariables

namespace Machine

def goTo (programCounter : ℕ) (m : Machine) : Machine := { m with programCounter := programCounter }

def next (m : Machine) : Machine := m.goTo (m.programCounter + 1)

/-- A jump to a resolved label. -/
def jump (target : ℤ) (m : Machine) : Machine := m.goTo target.toNat

def branch (condition : Bool) (target : ℤ) (m : Machine) : Machine :=
  if condition then m.next else m.jump target

def record (d : Derivation) (m : Machine) : Machine :=
  { m with derivations := m.derivations ++ [d] }

def unionDependencySet (m : Machine) : PermanentDependencySet :=
  PermanentDependencySet.permanentUnionOf m.registers.unionConstituents

end Machine

/-- Write a slot that has to be there. -/
def setSlot {α : Type*} (l : List α) (i : ℕ) (a : α) : Option (List α) :=
  if i < l.length then some (l.set i a) else none

section evaluation

variable (program : WorkerProgram) (tableau : Tableau)
variable (deltaObjects : List TableauObject) (deltaDependencySet : PermanentDependencySet)

/-- The tuple at which a retrieval stands. -/
def currentTuple (m : Machine) (r : ℕ) : Option (VmRetrieval × ℕ) := do
  let retrieval ← program.retrievals[r]?
  let cursor ← m.registers.cursors[r]?
  let tupleIndex ← cursor.indices[cursor.position]?
  return (retrieval, tupleIndex)

/-- A column of the delta tuple or of the current tuple of a retrieval. -/
def retrievalObject (m : Machine) (fromRetrieval column : ℕ) : Option TableauObject :=
  if fromRetrieval = 0 then deltaObjects[column]?
  else do
    let (retrieval, tupleIndex) ← currentTuple program m fromRetrieval
    let objects ← tableau.tupleObjects retrieval.tableArity tupleIndex
    objects[column]?

def retrievalDependencySet (m : Machine) (fromRetrieval : ℕ) : Option PermanentDependencySet :=
  if fromRetrieval = 0 then some deltaDependencySet
  else do
    let (retrieval, tupleIndex) ← currentTuple program m fromRetrieval
    return tableau.getDependencySet retrieval.tableArity tupleIndex

/-- Record a derivation from the slots of its arguments; without a slot a predicate is core. -/
def derive (headPredicates : List DLPredicate) (slots : List ℕ) (coreSlots : List (Option ℕ))
    (m : Machine) :
    Option Machine := do
  let arguments ← slots.mapM (nodeAt m.values)
  let isCore ← coreSlots.mapM fun slot => slot.elim (some true) fun i =>
      m.registers.coreVariables[i]?
  return (m.record ⟨headPredicates, arguments, isCore, m.unionDependencySet⟩).next

def execute (worker : Worker) (m : Machine) : Option Machine :=
  match worker with
  | .copyValues fromRetrieval fromColumn toIndex => do
    let value ← retrievalObject program tableau deltaObjects m fromRetrieval fromColumn
    let values ← setSlot m.values toIndex (some value)
    return { m with values := values }.next
  | .copyDependencySet fromRetrieval targetIndex => do
    let dependencySet ← retrievalDependencySet program tableau deltaDependencySet m fromRetrieval
    let constituents ← setSlot m.registers.unionConstituents targetIndex (some dependencySet)
    return { m with registers := { m.registers with unionConstituents := constituents } }.next
  | .branchIfNotEqual jump fromRetrieval column1 column2 => do
    let lhs ← retrievalObject program tableau deltaObjects m fromRetrieval column1
    let rhs ← retrievalObject program tableau deltaObjects m fromRetrieval column2
    return m.branch (lhs = rhs) jump
  | .branchIfNotNodeIdLessEqualThan jump var1 var2 => do
    let node1 ← nodeAt m.values var1
    let node2 ← nodeAt m.values var2
    return m.branch ((tableau.nodes node1).nodeId ≤ (tableau.nodes node2).nodeId) jump
  | .branchIfNotNodeIdsAscendingOrEqual jump nodeVars => do
    let slots ← program.nodeVarLists[nodeVars]?
    let nodes ← slots.mapM (nodeAt m.values)
    let condition ← idsAscendingOrEqual (nodes.map fun node => (tableau.nodes node).nodeId)
    return m.branch condition jump
  | .openRetrieval r => do
    let retrieval ← program.retrievals[r]?
    let indices ← tableau.openRetrieval retrieval m.values
    let cursors ← setSlot m.registers.cursors r ⟨indices, 0⟩
    return { m with registers := { m.registers with cursors := cursors } }.next
  | .nextRetrieval r => do
    let cursor ← m.registers.cursors[r]?
    let cursors ← setSlot m.registers.cursors r { cursor with position := cursor.position + 1 }
    return { m with registers := { m.registers with cursors := cursors } }.next
  | .hasMoreRetrieval eof r => do
    let cursor ← m.registers.cursors[r]?
    return m.branch (cursor.position < cursor.indices.length) eof
  | .jumpTo target => some (m.jump target)
  | .setClash => derive [] [] [] m
  | .deriveUnaryFact predicate argumentIndex =>
    derive [predicate] [argumentIndex] [some argumentIndex] m
  | .deriveBinaryFact predicate argument1 argument2 =>
    derive [predicate] [argument1, argument2] [none] m
  | .deriveTernaryFact predicate argument1 argument2 argument3 =>
    derive [predicate] [argument1, argument2, argument3] [none] m
  | .deriveDisjunction disjunction => do
    let d ← program.disjunctions[disjunction]?
    derive d.headPredicates d.copyValuesToArguments d.copyIsCore m
  | .computeCoreVariables variableCount =>
    if m.values.length < variableCount then none
    else
      let coreVariables := computeCoreVariables tableau m.values variableCount
        m.registers.coreVariables
      some { m with registers := { m.registers with coreVariables := coreVariables } }.next
  | .callMatchStartedOnMonitor => some m.next
  | .callMatchFinishedOnMonitor => some m.next

/-- One round of the loop. -/
def step (m : Machine) : Option Machine := do
  let worker ← program.workers[m.programCounter]?
  execute program tableau deltaObjects deltaDependencySet worker m

def running (m : Machine) : Bool :=
  m.programCounter < program.workers.length && !tableau.containsClash

/-- The loop; it is `none` when the fuel runs out. -/
def run (fuel : ℕ) (m : Machine) : Option Machine :=
  loopWhile (running program tableau) (step program tableau deltaObjects deltaDependencySet) fuel m

end evaluation

/-- Run the program over a delta tuple, with the shared buffer. -/
def DLClauseEvaluator.evaluate (e : DLClauseEvaluator) (tableau : Tableau) (fuel : ℕ)
    (values : List (Option TableauObject)) (deltaObjects : List TableauObject)
    (deltaDependencySet : PermanentDependencySet) :
    Option (DLClauseEvaluator × List (Option TableauObject) × List Derivation) := do
  let m ← run e.program tableau deltaObjects deltaDependencySet fuel ⟨0, values, e.registers, []⟩
  return ({ e with registers := m.registers }, m.values, m.derivations)

end Hermit
