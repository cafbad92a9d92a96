import Hermit.Tableau.TupleIndexRetrieval

/-! # Extension tables

An extension table keeps tuples in the order in which they came, and a tuple index for each of
several orders of the columns.  Two numbers divide the tuples into the old extension, the old
delta and the new one.  Pushing a branching point saves the numbers, and backtracking to it
removes all later tuples.  A retrieval takes the index with the longest bound prefix, and scans
the window of its view if no index has one.
-/

namespace Hermit

/-- The part of the table a retrieval ranges over. -/
inductive View where
  | extensionThis
  | extensionOld
  | deltaOld
  | total
deriving DecidableEq, Repr

inductive StoreOutcome where
  | added (tupleIndex : ℕ)
  | alreadyPresent (tupleIndex : ℕ)
deriving DecidableEq, Repr

def TableauObject.asNode : TableauObject → Option (Fin (2 ^ 61))
  | .node id => some id
  | _ => none

/-- The ends of the old extension, of the current one and of the table. -/
structure Watermarks where
  afterExtensionOld : ℕ
  afterExtensionThis : ℕ
  afterDeltaNew : ℕ
deriving DecidableEq, Repr

structure ExtensionTable (arity : ℕ) where
  tuples : List (Fin arity → TableauObject)
  tupleIndexes : List (TupleIndex arity)
  marks : Watermarks
  indicesByBranchingPoint : List Watermarks

namespace ExtensionTable

variable {arity : ℕ}

/-! ## Storage -/

def new (indexingSequences : List (List (Fin arity))) : ExtensionTable arity where
  tuples := []
  tupleIndexes := indexingSequences.map TupleIndex.new
  marks := ⟨0, 0, 0⟩
  indicesByBranchingPoint := List.replicate 2 ⟨0, 0, 0⟩

variable (x : ExtensionTable arity)

/-- Store a tuple unless the primary index has it. -/
def storeTuple (tuple : Fin arity → TableauObject) : Option (StoreOutcome × ExtensionTable arity) :=
  match x.tupleIndexes with
  | [] => none
  | primary :: others => do
    let firstFree := x.tuples.length
    let (addIndex, primary) ← primary.addTuple tuple firstFree
    if addIndex = firstFree then
      let others ← others.mapM fun index => do
        let (_, index) ← index.addTuple tuple addIndex
        return index
      let tuples := x.tuples ++ [tuple]
      return (.added addIndex, { x with
        tuples := tuples
        tupleIndexes := primary :: others
        marks := { x.marks with afterDeltaNew := tuples.length } })
    else return (.alreadyPresent addIndex, { x with tupleIndexes := primary :: others })

def propagateDeltaNew : Bool × ExtensionTable arity :=
  (x.marks.afterExtensionThis ≠ x.marks.afterDeltaNew,
    { x with marks := ⟨x.marks.afterExtensionThis, x.marks.afterDeltaNew, x.tuples.length⟩ })

/-- Save the numbers at a level; missing levels are filled with zeros. -/
def branchingPointPushed (level : ℕ) : ExtensionTable arity :=
  let saved := x.indicesByBranchingPoint ++
    List.replicate (level + 1 - x.indicesByBranchingPoint.length) ⟨0, 0, 0⟩
  { x with indicesByBranchingPoint := saved.set level x.marks }

/-- Remove the tuples from a number down to another one from all indexes; the last comes first. -/
def removeTuples (newAfterDeltaNew : ℕ) :
    ℕ → List (TupleIndex arity) →
    Option (List (Fin arity → TableauObject) × List (TupleIndex arity))
  | 0, indexes => some ([], indexes)
  | tupleIndex + 1, indexes =>
    if newAfterDeltaNew < tupleIndex + 1 then do
      let tuple ← x.tuples[tupleIndex]?
      -- The source goes through the indexes from the last; they do not share anything.
      let indexes ← indexes.mapM fun index => do
        let (_, index) ← index.removeTuple tuple
        return index
      let (removed, indexes) ← removeTuples newAfterDeltaNew tupleIndex indexes
      return (tuple :: removed, indexes)
    else some ([], indexes)

/-- Return to a level and give the removed tuples. -/
def backtrack (level : ℕ) : Option (List (Fin arity → TableauObject) × ExtensionTable arity) := do
  let marks ← x.indicesByBranchingPoint[level]?
  let (removed, indexes) ← x.removeTuples marks.afterDeltaNew x.marks.afterDeltaNew x.tupleIndexes
  return (removed, { x with
    tuples := x.tuples.take marks.afterDeltaNew
    tupleIndexes := indexes
    marks := marks })

/-- The saved numbers stay. -/
def clear : ExtensionTable arity where
  tuples := []
  tupleIndexes := x.tupleIndexes.map TupleIndex.clear
  marks := ⟨0, 0, 0⟩
  indicesByBranchingPoint := x.indicesByBranchingPoint

/-! ## Retrieval -/

def viewRange : View → ℕ × ℕ
  | .extensionThis => (0, x.marks.afterExtensionThis)
  | .extensionOld => (0, x.marks.afterExtensionOld)
  | .deltaOld => (x.marks.afterExtensionOld, x.marks.afterExtensionThis)
  | .total => (0, x.marks.afterDeltaNew)

def inView (view : View) (tupleIndex : ℕ) : Bool :=
  (x.viewRange view).1 ≤ tupleIndex && tupleIndex < (x.viewRange view).2

/-- How many columns of a sequence are bound before the first free one. -/
def boundPrefix (bindingPositions : Fin arity → Option ℕ) (sequence : List (Fin arity)) : ℕ :=
  (sequence.takeWhile fun column => (bindingPositions column).isSome).length

/-- The last of the indexes with the longest bound prefix, if that is not empty. -/
def selectIndex (bindingPositions : Fin arity → Option ℕ) : Option (TupleIndex arity × ℕ) :=
  x.tupleIndexes.reverse.foldl (fun selected index =>
    let bound := boundPrefix bindingPositions index.indexingSequence
    if selected.elim 0 Prod.snd < bound then some (index, bound) else selected) none

section retrieval

variable (bindingPositions : Fin arity → Option ℕ) (bindingsBuffer : List (Option TableauObject))
    (view : View)

/-- The tuples of the view that the selected index finds, or `none` if no index is selected. -/
def indexedTupleIndicesInto : Option (Option (List ℕ)) :=
  match x.selectIndex bindingPositions with
  | none => some none
  | some (index, bestPrefix) => do
    let selection ← (index.indexingSequence.take bestPrefix).mapM bindingPositions
    let current ← index.openRetrieval bindingsBuffer selection
    let out ← index.collectFrom selection.length (x.inView view) index.nodes.length current
    return some out

/-- Whether some tuple of the view that the selected index finds satisfies the visitor. -/
def indexedVisit (visit : ℕ → Option Bool) : Option (Option Bool) :=
  match x.selectIndex bindingPositions with
  | none => some none
  | some (index, bestPrefix) => do
    let selection ← (index.indexingSequence.take bestPrefix).mapM bindingPositions
    let current ← index.openRetrieval bindingsBuffer selection
    let found ← index.visitFrom selection.length (x.inView view) visit index.nodes.length current
    return some found

/-- Whether the bound columns have the values of the buffer. -/
def selectionMatches (tuple : Fin arity → TableauObject) : List (Fin arity) → Option Bool
  | [] => some true
  | column :: columns =>
    match bindingPositions column with
    | none => selectionMatches tuple columns
    | some position => do
      let expected ← bindingsBuffer[position]?
      if expected = some (tuple column) then selectionMatches tuple columns else return false

variable (isActive : Fin (2 ^ 61) → Bool)

/-- Whether a tuple has active nodes only, and the bound values. -/
def keep (tupleIndex : ℕ) : Option Bool := do
  let tuple ← x.tuples[tupleIndex]?
  let nodes ← ((List.finRange arity).drop 1).mapM fun column => (tuple column).asNode
  if nodes.all isActive then
    selectionMatches bindingPositions bindingsBuffer tuple (List.finRange arity)
  else return false

/-- Retain what a test accepts. -/
def retain (test : ℕ → Option Bool) : List ℕ → Option (List ℕ)
  | [] => some []
  | i :: is => do
    let b ← test i
    let rest ← retain test is
    return if b then i :: rest else rest

def anyOf (test : ℕ → Option Bool) : List ℕ → Option Bool
  | [] => some false
  | i :: is => do
    if ← test i then return true else anyOf test is

/-- The window of a view. -/
def window : List ℕ := List.range' (x.viewRange view).1
    ((x.viewRange view).2 - (x.viewRange view).1)

/-- The ascending scan of the window. -/
def scan : Option (List ℕ) :=
  retain (x.keep bindingPositions bindingsBuffer isActive) (x.window view)

/-- The retrieval of both kinds of tables. -/
def createRetrieval : Option (List ℕ) := do
  match ← x.indexedTupleIndicesInto bindingPositions bindingsBuffer view with
  | some tupleIndices => retain (x.keep bindingPositions bindingsBuffer isActive) tupleIndices
  | none => x.scan bindingPositions bindingsBuffer view isActive

def keepAndVisit (visit : ℕ → Bool) (tupleIndex : ℕ) : Option Bool := do
  let kept ← x.keep bindingPositions bindingsBuffer isActive tupleIndex
  return kept && visit tupleIndex

def visitRetrieval (visit : ℕ → Bool) : Option Bool := do
  match ← x.indexedVisit bindingPositions bindingsBuffer view
      (x.keepAndVisit bindingPositions bindingsBuffer isActive visit) with
  | some found => return found
  | none => anyOf (x.keepAndVisit bindingPositions bindingsBuffer isActive visit) (x.window view)

end retrieval

end ExtensionTable

/-! ## The two tables -/

/-- Concepts with nodes, and roles with two nodes. -/
inductive TableKind where
  | binary
  | ternary
deriving DecidableEq, Repr

namespace TableKind

def arity : TableKind → ℕ
  | binary => 2
  | ternary => 3

theorem neZero_two : NeZero 2 := inferInstance

theorem neZero_three : NeZero 3 := inferInstance

attribute [local instance] neZero_two in
def binarySequences : List (List (Fin 2)) := [[1, 0], [0, 1]]

def ternarySequences : List (List (Fin 3)) := [[0, 1, 2], [1, 2, 0], [2, 0, 1]]

def indexingSequences : (kind : TableKind) → List (List (Fin kind.arity))
  | binary => binarySequences
  | ternary => ternarySequences

end TableKind

namespace ExtensionTable

def newBinaryExtensionTable : ExtensionTable 2 := new TableKind.binary.indexingSequences

def newTernaryExtensionTable : ExtensionTable 3 := new TableKind.ternary.indexingSequences

def createBinaryRetrieval (x : ExtensionTable 2) := x.createRetrieval

def createTernaryRetrieval (x : ExtensionTable 3) := x.createRetrieval

end ExtensionTable

end Hermit
