import Hermit.Tableau.ExtensionTable

/-! # Description graphs

The manager of the graph tuples keeps one table for each graph and, for every node, the list of
its occurrences in them.  A tuple is stored by pushing its occurrences and removed by popping
them, table by table.  A merge stores the images of the tuples of the node that goes away, and a
check merges the tuples that share a node.
-/

namespace Hermit

/-- A place of a node: positions are counted from one. -/
structure Occurrence where
  graphIndex : ℕ
  tupleIndex : ℕ
  positionInTuple : ℕ
deriving DecidableEq, Repr

/-- The table of one graph.  Its single index over all columns only tells stored tuples apart. -/
structure GraphTable where
  numberOfVertices : ℕ
  tuples : List (List ℕ) := []
  marks : Watermarks := ⟨0, 0, 0⟩
  indicesByBranchingPoint : ℕ → Watermarks := fun _ => ⟨0, 0, 0⟩

namespace GraphTable

variable (x : GraphTable)

def storeTuple (tuple : List ℕ) : StoreOutcome × GraphTable :=
  if tuple ∈ x.tuples then (.alreadyPresent (x.tuples.idxOf tuple), x)
  else (.added x.tuples.length, { x with
    tuples := x.tuples ++ [tuple]
    marks := { x.marks with afterDeltaNew := x.tuples.length + 1 } })

def propagateDeltaNew : Bool × GraphTable :=
  (x.marks.afterExtensionThis ≠ x.marks.afterDeltaNew,
    { x with marks := ⟨x.marks.afterExtensionThis, x.marks.afterDeltaNew, x.tuples.length⟩ })

def branchingPointPushed (level : ℕ) : GraphTable :=
  { x with indicesByBranchingPoint := Function.update x.indicesByBranchingPoint level x.marks }

/-- The removed tuples, the last one first, and the table at the level. -/
def backtrack (level : ℕ) : List (List ℕ) × GraphTable :=
  let marks := x.indicesByBranchingPoint level
  ((x.tuples.drop marks.afterDeltaNew).reverse, { x with
    tuples := x.tuples.take marks.afterDeltaNew
    marks := marks })

/-- The tuples of the old delta with their numbers. -/
def deltaOld : List (List ℕ × ℕ) :=
  (x.tuples.zipIdx.take x.marks.afterExtensionThis).drop x.marks.afterExtensionOld

end GraphTable

structure DescriptionGraphManager where
  tables : List GraphTable := []
  /-- The occurrences of a node, the head of its list first. -/
  occurrences : ℕ → List Occurrence := fun _ => []

namespace DescriptionGraphManager

variable (m : DescriptionGraphManager)

def hasDescriptionGraphs : Bool := !m.tables.isEmpty

/-- Push the occurrences of a tuple, those at the last position first. -/
def pushOccurrences (graphIndex tupleIndex : ℕ) (tuple : List ℕ)
    (occurrences : ℕ → List Occurrence) :
    ℕ → List Occurrence :=
  (tuple.zipIdx 1).foldr (fun node occurrences => Function.update occurrences node.1
    (⟨graphIndex, tupleIndex, node.2⟩ :: occurrences node.1)) occurrences

/-- Pop the head of the list of every node of a tuple. -/
def popOccurrences (occurrences : ℕ → List Occurrence) (tuple : List ℕ) : ℕ → List Occurrence :=
  tuple.foldr (fun node occurrences =>
    Function.update occurrences node (occurrences node).tail) occurrences

def descriptionGraphTupleAdded (graphIndex tupleIndex : ℕ) (tuple : List ℕ) :
    DescriptionGraphManager :=
  { m with occurrences := pushOccurrences graphIndex tupleIndex tuple m.occurrences }

def addTuple (graphIndex : ℕ) (tuple : List ℕ) : DescriptionGraphManager :=
  match m.tables[graphIndex]? with
  | none => m
  | some table =>
    match table.storeTuple tuple with
    | (.added tupleIndex, table) =>
      { m with tables := m.tables.set graphIndex table }.descriptionGraphTupleAdded graphIndex
        tupleIndex tuple
    | (.alreadyPresent _, _) => m

def propagateDeltaNew : Bool × DescriptionGraphManager :=
  (m.tables.any fun table => table.propagateDeltaNew.1,
    { m with tables := m.tables.map fun table => table.propagateDeltaNew.2 })

def branchingPointPushed (level : ℕ) : DescriptionGraphManager :=
  { m with tables := m.tables.map fun table => table.branchingPointPushed level }

/-- The tables go back one after the other, and each pops the occurrences of what it removes. -/
def backtrack (level : ℕ) : DescriptionGraphManager where
  tables := m.tables.map fun table => (table.backtrack level).2
  occurrences := m.tables.foldl (fun occurrences table =>
    (table.backtrack level).1.foldl popOccurrences occurrences) m.occurrences

def tupleAt (graphIndex tupleIndex : ℕ) : Option (List ℕ) :=
  m.tables[graphIndex]?.bind fun table => table.tuples[tupleIndex]?

end DescriptionGraphManager

/-! ## Nodes -/

/-- What a branching point remembers of the nodes. -/
structure NodeMarks where
  lastMergedOrPrunedNode : ℕ
  lastTableauNode : ℕ
  clash : Bool
deriving DecidableEq, Repr

/-- The part of the tableau that the manager works with.  A node is its place in the list of nodes,
which stores the parents.  The merged and the pruned nodes are on a stack, the last one first, and
a merged one stands there with the node it was merged into. -/
structure GraphTableau where
  manager : DescriptionGraphManager
  parents : List (Option ℕ) := []
  mergedOrPruned : List (ℕ × Option ℕ) := []
  clash : Bool := false
  level : ℕ := 0
  branchingPoints : ℕ → NodeMarks := fun _ => ⟨0, 0, false⟩

namespace GraphTableau

/-- What a merge takes from the rest of the tableau: whether the first node goes into the second, as
precedence and parents say, and whether the facts that are copied clash. -/
structure Merging where
  mergesFirst : GraphTableau → ℕ → ℕ → Bool
  copyClashes : GraphTableau → ℕ → ℕ → Bool

variable (merging : Merging) (s : GraphTableau)

def isActive (node : ℕ) : Bool :=
  node < s.parents.length && s.mergedOrPruned.all fun e => e.1 ≠ node

def createNode (parent : Option ℕ) : GraphTableau := { s with parents := s.parents ++ [parent] }

def pruneNode (node : ℕ) : GraphTableau :=
  { s with mergedOrPruned := (node, none) :: s.mergedOrPruned }

def mergeNode (node mergeInto : ℕ) : GraphTableau :=
  { s with mergedOrPruned := (node, some mergeInto) :: s.mergedOrPruned }

def tupleIsActive (tuple : List ℕ) : Bool := tuple.all s.isActive

/-- Whether a node goes with its parent, or with the merged node as its parent. -/
def prunes (mergeFrom current : ℕ) : Bool :=
  match s.parents[current]? with
  | some (some parent) => s.isActive current && (!s.isActive parent || parent == mergeFrom)
  | _ => false

/-- Look at the nodes from the merged one on. -/
def pruneSuccessors (mergeFrom : ℕ) : GraphTableau :=
  (List.range' mergeFrom (s.parents.length - mergeFrom)).foldl (fun s current =>
    if s.prunes mergeFrom current then s.pruneNode current else s) s

/-- The active tuples in which a node occurs, with another node at the place of each occurrence. -/
def rewrittenTuples (mergeFrom mergeInto : ℕ) : List (ℕ × List ℕ) :=
  (s.manager.occurrences mergeFrom).filterMap fun r =>
    (s.manager.tupleAt r.graphIndex r.tupleIndex).bind fun tuple =>
      if s.tupleIsActive tuple then some (r.graphIndex,
        tuple.set (r.positionInTuple - 1) mergeInto) else none

def mergeGraphs (mergeFrom mergeInto : ℕ) : GraphTableau :=
  if s.manager.hasDescriptionGraphs then
    { s with
      manager := (s.rewrittenTuples mergeFrom mergeInto).foldl
        (fun m t => m.addTuple t.1 t.2) s.manager }
  else s

/-- The node that goes away and the one that stays. -/
def chooseMergeDirection (node0 node1 : ℕ) : ℕ × ℕ :=
  if merging.mergesFirst s node0 node1 then (node0, node1) else (node1, node0)

def mergeNodes (node0 node1 : ℕ) : GraphTableau :=
  if !s.isActive node0 || !s.isActive node1 || node0 == node1 then s
  else
    let (mergeFrom, mergeInto) := s.chooseMergeDirection merging node0 node1
    let clash := s.clash || merging.copyClashes s mergeFrom mergeInto
    let s := (s.pruneSuccessors mergeFrom).mergeGraphs mergeFrom mergeInto
    { s.mergeNode mergeFrom mergeInto with clash := clash }

/-! ## Constraints -/

/-- The nodes of two tuples at each position, the last one first. -/
def mergeTuples (first second : List ℕ) : GraphTableau :=
  (first.zip second).foldr (fun nodes s =>
    if nodes.1 ≠ nodes.2 then s.mergeNodes merging nodes.1 nodes.2 else s) s

/-- Look at one occurrence of the node that a tuple has at a position. -/
def checkOccurrence (m : DescriptionGraphManager) (graphIndex tupleIndex : ℕ) (tuple : List ℕ)
    (position : ℕ) (s : GraphTableau) (r : Occurrence) : GraphTableau :=
  if r.graphIndex == graphIndex &&
    (r.tupleIndex != tupleIndex || r.positionInTuple != position) then
    match m.tupleAt graphIndex r.tupleIndex with
    | some other =>
      if s.tupleIsActive other then
        if r.positionInTuple = position then s.mergeTuples merging tuple other
        else { s with clash := true }
      else s
    | none => s
  else s

def checkTuple (m : DescriptionGraphManager) (graphIndex : ℕ) (s : GraphTableau)
    (tuple : List ℕ × ℕ) :
    GraphTableau :=
  if s.clash then s
  else (tuple.1.zipIdx 1).foldl (fun s node => (m.occurrences node.1).foldl
    (checkOccurrence merging m graphIndex tuple.2 tuple.1 node.2) s) s

def checkTable (m : DescriptionGraphManager) (s : GraphTableau) (table : GraphTable × ℕ) :
    GraphTableau :=
  if s.clash then s else table.1.deltaOld.foldl (checkTuple merging m table.2) s

/-- The manager is taken out of the tableau while it checks its tuples, and one without graphs is in
its place. -/
def checkGraphConstraints : GraphTableau :=
  if s.manager.hasDescriptionGraphs then
    let m := s.manager
    { m.tables.zipIdx.foldl (checkTable merging m) { s with manager := {} } with manager := m }
  else s

/-- The loop of an iteration goes on with a check if there are new tuples and no clash. -/
def propagate : GraphTableau :=
  let (changed, m) := s.manager.propagateDeltaNew
  let s := { s with manager := m }
  if changed && !s.clash then s.checkGraphConstraints merging else s

def pushBranchingPoint : GraphTableau :=
  { s with
    manager := s.manager.branchingPointPushed s.level
    branchingPoints := Function.update s.branchingPoints s.level
      ⟨s.mergedOrPruned.length, s.parents.length, s.clash⟩
    level := s.level + 1 }

/-- The tables first, then the merged and pruned nodes, then the created ones. -/
def backtrackTo (level : ℕ) : GraphTableau :=
  let marks := s.branchingPoints level
  { s with
    manager := s.manager.backtrack level
    mergedOrPruned := s.mergedOrPruned.drop (s.mergedOrPruned.length - marks.lastMergedOrPrunedNode)
    parents := s.parents.take marks.lastTableauNode
    clash := false
    level := level + 1 }

/-- What the calculus can do to the graphs. -/
inductive Action where
  | create (parent : Option ℕ)
  | expand (graphIndex : ℕ) (tuple : List ℕ)
  | merge (node0 node1 : ℕ)
  | setClash
  | propagate
  | push
  | backtrack (level : ℕ)
deriving DecidableEq, Repr

/-- A node is created for an active one and a tuple is laid out over active ones.  A branching point
that was pushed during a clash is not backtracked to, since the clash does not depend on it. -/
def Enabled : Action → Prop
  | .create parent => ∀ p ∈ parent, s.isActive p
  | .expand graphIndex tuple =>
    (∃ table, s.manager.tables[graphIndex]? = some table ∧ tuple.length = table.numberOfVertices) ∧
      s.tupleIsActive tuple
  | .merge _ _ | .setClash | .propagate | .push => True
  | .backtrack level => level < s.level ∧ (s.branchingPoints level).clash = false

def perform : Action → GraphTableau
  | .create parent => s.createNode parent
  | .expand graphIndex tuple => { s with manager := s.manager.addTuple graphIndex tuple }
  | .merge node0 node1 => s.mergeNodes merging node0 node1
  | .setClash => { s with clash := true }
  | .propagate => s.propagate merging
  | .push => s.pushBranchingPoint
  | .backtrack level => s.backtrackTo level

/-- The tableau before anything is known about the graphs. -/
def initial (vertices : List ℕ) : GraphTableau where
  manager := { tables := vertices.map fun n => { numberOfVertices := n } }

/-- The states of the runs all of whose steps are permitted. -/
inductive Reached (permitted : GraphTableau → Action → Prop) : GraphTableau → Prop
  | initial (vertices : List ℕ) : Reached permitted (initial vertices)
  | step {s : GraphTableau} {a : Action} (h : Reached permitted s) (hen : s.Enabled a)
      (hperm : permitted s a) : Reached permitted (s.perform merging a)

end GraphTableau

end Hermit
