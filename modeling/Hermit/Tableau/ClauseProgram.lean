import Hermit.Library.Sorted
import Hermit.Model.Clause
import Hermit.Tableau.ExtensionTable

/-! # Compiled DL clauses

All clauses with one body are compiled into one program of workers.  It is a nested-loop join over
the extension tables: the first body atom is the delta atom, whose tuple is given from outside,
and every other atom with an extension opens a retrieval and loops over it.  Jumps go to negative
labels first, which are resolved at the end.  What the source unwraps is `none` here if it is not
there.
-/

namespace Hermit

abbrev NodeId := Fin (2 ^ 61)

/-! ## Dependency sets -/

/-- The branching points a fact depends on, the latest first. -/
structure PermanentDependencySet where
  branchingPoints : List ℤ
  sorted : branchingPoints.Pairwise (· > ·)
deriving DecidableEq

namespace PermanentDependencySet

def emptySet : PermanentDependencySet := ⟨[], .nil⟩

theorem pairwise_sortDedup (branchingPoints : List ℤ) :
    (sortDedup (· ≥ ·) branchingPoints).Pairwise (· > ·) := by
  have hnd := nodup_sortDedup (· ≥ ·) (fun a b : ℤ => le_total b a)
    (fun a b c hab hbc => le_trans hbc hab) (fun a b hab hba => le_antisymm hba hab) branchingPoints
  have hsort : (sortDedup (· ≥ ·) branchingPoints).Pairwise (· ≥ ·) :=
    (List.pairwise_insertionSort (· ≥ ·) branchingPoints).sublist (List.destutter_sublist _ _)
  exact (List.Pairwise.and hsort hnd).imp fun h => lt_of_le_of_ne h.1 h.2.symm

def intern (branchingPoints : List ℤ) : PermanentDependencySet :=
  ⟨sortDedup (· ≥ ·) branchingPoints, pairwise_sortDedup branchingPoints⟩

/-- The union of the sets that are there; a single one is returned as it is. -/
def permanentUnionOf (constituents : List (Option PermanentDependencySet)) :
    PermanentDependencySet :=
  match constituents.reduceOption with
  | [only] => only
  | present => intern (present.flatMap branchingPoints)

/-- The union has the branching points of the constituents. -/
theorem mem_permanentUnionOf (constituents : List (Option PermanentDependencySet)) (b : ℤ) :
    b ∈ (permanentUnionOf constituents).branchingPoints ↔
      ∃ s, some s ∈ constituents ∧ b ∈ s.branchingPoints := by
  have hpresent : ∀ s, s ∈ constituents.reduceOption ↔ some s ∈ constituents :=
    fun s => List.reduceOption_mem_iff
  simp only [← hpresent]
  unfold permanentUnionOf
  split
  · rename_i only honly
    simp [honly]
  · simp [intern]

end PermanentDependencySet

/-! ## The values buffer -/

/-- The label under which a predicate is stored; `rawKey` is the address of the interned value. -/
def predicateToStoredLabel (rawKey : DLPredicate → Fin (2 ^ 61)) (predicate : DLPredicate) :
    TableauObject :=
  match predicate with
  | .atomicConcept _ | .atLeastConcept _ | .atLeastDataRange _ | .existsDescriptionGraph _ =>
    .concept (rawKey predicate)
  | _ => .dlPredicate (rawKey predicate)

/-- One buffer for all programs: slots for the variables of a body come first, then one for every
body predicate and one for every other body term. -/
structure ValuesBufferManager where
  valuesBuffer : List (Option TableauObject)
  bodyDlPredicatesToIndexes : List (DLPredicate × ℕ)
  maxNumberOfVariables : ℕ
  bodyNonvariableTermsToIndexes : List (Term × ℕ)

namespace ValuesBufferManager

def bodyDlPredicates (dlClauses : List DLClause) : List DLPredicate :=
  ((dlClauses.flatMap DLClause.bodyAtoms).map Atom.dlPredicate).foldl insertSet []

def bodyNonvariableTerms (dlClauses : List DLClause) : List Term :=
  (((dlClauses.flatMap DLClause.bodyAtoms).flatMap Atom.arguments).filter fun t =>
      t.asVariable.isNone).foldl
    insertSet []

def bodyVariables (dlClause : DLClause) : List Variable :=
  (dlClause.bodyAtoms.flatMap Atom.variables).foldl insertSet []

def numberOfVariables (dlClauses : List DLClause) : ℕ :=
  (dlClauses.map fun c => (bodyVariables c).length).foldl max 0

/-- A term without a node is an error. -/
def nodeFor (termsToNodes : Term → Option NodeId) (term : Term) : Except Term NodeId :=
  (termsToNodes term).elim (.error term) .ok

def new (rawKey : DLPredicate → Fin (2 ^ 61)) (dlClauses : List DLClause)
    (termsToNodes : Term → Option NodeId) :
    Except Term ValuesBufferManager := do
  let predicates := bodyDlPredicates dlClauses
  let terms := bodyNonvariableTerms dlClauses
  let firstIndex := numberOfVariables dlClauses
  let nodes ← terms.mapM (nodeFor termsToNodes)
  return {
    valuesBuffer := List.replicate firstIndex none ++
      predicates.map (fun p => some (predicateToStoredLabel rawKey p)) ++ nodes.map fun n =>
          some (.node n)
    bodyDlPredicatesToIndexes := predicates.zipIdx firstIndex
    maxNumberOfVariables := firstIndex
    bodyNonvariableTermsToIndexes := terms.zipIdx (firstIndex + predicates.length) }

end ValuesBufferManager

/-! ## Workers -/

/-- How the core flags of derived facts are computed. -/
inductive CoreVariablePolicy where
  | allTrue
  | simpleCore
  | complexCore
deriving DecidableEq, Repr

inductive Worker where
  | copyValues (fromRetrieval fromColumn toIndex : ℕ)
  | copyDependencySet (fromRetrieval targetIndex : ℕ)
  | branchIfNotEqual (jump : ℤ) (fromRetrieval column1 column2 : ℕ)
  | branchIfNotNodeIdLessEqualThan (jump : ℤ) (var1 var2 : ℕ)
  | branchIfNotNodeIdsAscendingOrEqual (jump : ℤ) (nodeVars : ℕ)
  | openRetrieval (retrieval : ℕ)
  | nextRetrieval (retrieval : ℕ)
  | hasMoreRetrieval (eof : ℤ) (retrieval : ℕ)
  | jumpTo (target : ℤ)
  | setClash
  | deriveUnaryFact (predicate : DLPredicate) (argumentIndex : ℕ)
  | deriveBinaryFact (predicate : DLPredicate) (argument1 argument2 : ℕ)
  | deriveTernaryFact (predicate : DLPredicate) (argument1 argument2 argument3 : ℕ)
  | deriveDisjunction (disjunction : ℕ)
  | computeCoreVariables (variableCount : ℕ)
  | callMatchStartedOnMonitor
  | callMatchFinishedOnMonitor
deriving DecidableEq

structure DisjunctionWorker where
  headPredicates : List DLPredicate
  copyIsCore : List (Option ℕ)
  copyValuesToArguments : List ℕ

/-- The part of a retrieval that does not change; a free column has no binding position. -/
structure VmRetrieval where
  tableArity : ℕ
  bindingPositions : List (Option ℕ)
  view : View

/-- What compilation produces and evaluation leaves as it is. -/
structure WorkerProgram where
  workers : List Worker
  nodeVarLists : List (List ℕ)
  disjunctions : List DisjunctionWorker
  retrievals : List VmRetrieval

/-- The matching tuples of a retrieval, and the current one. -/
structure Cursor where
  indices : List ℕ
  position : ℕ

/-- What evaluation changes besides the shared buffer. -/
structure Registers where
  cursors : List Cursor
  coreVariables : List Bool
  unionConstituents : List (Option PermanentDependencySet)

structure DLClauseEvaluator where
  program : WorkerProgram
  registers : Registers

/-! ## The compiler -/

def DLPredicate.isAtomicConcept : DLPredicate → Bool
  | .atomicConcept _ => true
  | _ => false

namespace DLClause

def isAtomicConceptInclusion (c : DLClause) : Bool :=
  match c.bodyAtoms, c.headAtoms with
  | [bodyAtom], [headAtom] =>
    match bodyAtom.arguments, headAtom.arguments with
    | [argument],
      [argument'] => bodyAtom.dlPredicate.isAtomicConcept && headAtom.dlPredicate.isAtomicConcept &&
        argument.asVariable.isSome && argument = argument'
    | _, _ => false
  | _, _ => false

end DLClause

/-- What the compiler is given: a body with the delta atom first, and the clauses with this body. -/
structure ClauseGroup where
  bodyDlClause : DLClause
  headDlClauses : List DLClause
  policy : CoreVariablePolicy
  manager : ValuesBufferManager

def headVariables (headDlClauses : List DLClause) : List Variable :=
  ((headDlClauses.flatMap DLClause.headAtoms).flatMap Atom.variables).foldl insertSet []

def occursInBodyAtoms (bodyAtoms : List Atom) (v : Variable) : Bool :=
  bodyAtoms.any fun atom => atom.variables.contains v

/-- Add the variables of every atom that occur again in a later one. -/
def repeatedVariables : List Atom → List Variable → List Variable
  | [], found => found
  | atom :: bodyAtoms, found =>
    repeatedVariables bodyAtoms (atom.variables.foldl
      (fun found v => if occursInBodyAtoms bodyAtoms v then insertSet found v else found) found)

namespace ClauseGroup

variable (g : ClauseGroup)

/-- The variables that have a slot: those that occur in two atoms, and those of the heads. -/
def storedVariables : List Variable :=
  (headVariables g.headDlClauses).foldl insertSet (repeatedVariables g.bodyDlClause.bodyAtoms [])

def indexOf (v : Variable) : Option ℕ :=
  if v ∈ g.storedVariables then some (g.storedVariables.idxOf v) else none

/-- The slot of a term that has to be a variable; a missing one is out of all bounds. -/
def slotOf (term : Term) : Option ℕ :=
  term.asVariable.map fun v => (g.indexOf v).getD (2 ^ 64 - 1)

def complexCoreUsesWorker : Bool :=
  g.bodyDlClause.headAtoms.length = 1 && g.bodyDlClause.isAtomicConceptInclusion && 1 <
    g.storedVariables.length

def initialCoreVariables : List Bool :=
  match g.policy with
  | .allTrue => List.replicate g.storedVariables.length true
  | .simpleCore => List.replicate g.storedVariables.length false
  | .complexCore => List.replicate g.storedVariables.length (1 < g.bodyDlClause.headAtoms.length)

end ClauseGroup

/-- The part of the compiler that changes. -/
structure Compiler where
  boundSoFar : List Variable
  workers : List Worker
  nodeVarLists : List (List ℕ)
  disjunctions : List DisjunctionWorker
  retrievals : List VmRetrieval
  labels : List (Option ℕ)

namespace Compiler

def push (worker : Worker) (c : Compiler) : Compiler := { c with workers := c.workers ++ [worker] }

def pushAll (workers : List Worker) (c : Compiler) : Compiler :=
  { c with workers := c.workers ++ workers }

/-- The labels are the negated indices; the first index is never used. -/
def addLabel (c : Compiler) : ℤ × Compiler :=
  (-c.labels.length, { c with labels := c.labels ++ [none] })

def setLabelProgramCounter (labelId : ℤ) (c : Compiler) : Compiler :=
  { c with labels := c.labels.set (-labelId).toNat (some c.workers.length) }

end Compiler

/-- The columns of the later occurrences of a variable. -/
def laterColumns (v : Variable) : List Term → ℕ → List ℕ
  | [], _ => []
  | term :: terms, inner =>
    if term = .variable v then (inner + 1) :: laterColumns v terms (inner + 1)
      else laterColumns v terms (inner + 1)

/-- Compare all later occurrences of every variable that is not bound yet. -/
def checkUnboundVariableMatches (boundSoFar : List Variable) (retrievalIndex : ℕ) (jump : ℤ) :
    List Term → ℕ → List Worker
  | [], _ => []
  | .variable v :: terms, outer =>
    (if v ∈ boundSoFar then []
      else (laterColumns v terms (outer + 1)).map
        (.branchIfNotEqual jump retrievalIndex (outer + 1))) ++
      checkUnboundVariableMatches boundSoFar retrievalIndex jump terms (outer + 1)
  | _ :: terms, outer =>
    checkUnboundVariableMatches boundSoFar retrievalIndex jump terms (outer + 1)

namespace ClauseGroup

variable (g : ClauseGroup)

/-- Copy the columns of the variables that have a slot and are not bound yet. -/
def generateBindings (retrievalIndex : ℕ) : List Term → ℕ → List Variable →
    List Worker × List Variable
  | [], _, boundSoFar => ([], boundSoFar)
  | .variable v :: terms, argumentIndex, boundSoFar =>
    if v ∈ boundSoFar then generateBindings retrievalIndex terms (argumentIndex + 1) boundSoFar
    else
      match g.indexOf v with
      | none => generateBindings retrievalIndex terms (argumentIndex + 1) boundSoFar
      | some variableIndex =>
        let (workers, bound) :=
          generateBindings retrievalIndex terms (argumentIndex + 1) (v :: boundSoFar)
        (.copyValues retrievalIndex (argumentIndex + 1) variableIndex :: workers, bound)
  | _ :: terms, argumentIndex, boundSoFar =>
    generateBindings retrievalIndex terms (argumentIndex + 1) boundSoFar

def compileCheckUnboundVariableMatches (atom : Atom) (retrievalIndex : ℕ) (jump : ℤ)
    (c : Compiler) : Compiler :=
  c.pushAll (checkUnboundVariableMatches c.boundSoFar retrievalIndex jump atom.arguments 0)

def compileGenerateBindings (retrievalIndex : ℕ) (atom : Atom) (c : Compiler) : Compiler :=
  let (workers, boundSoFar) := g.generateBindings retrievalIndex atom.arguments 0 c.boundSoFar
  { c.pushAll workers with boundSoFar := boundSoFar }

/-- Where the value of a term is found when a retrieval is opened. -/
def bindingPosition (boundSoFar : List Variable) : Term → Option (Option ℕ)
  | .variable v => some (if v ∈ boundSoFar then g.indexOf v else none)
  | other => (g.manager.bodyNonvariableTermsToIndexes.lookup other).map some

def bindingPositions (boundSoFar : List Variable) (atom : Atom) : Option (List (Option ℕ)) := do
  let predicate ← g.manager.bodyDlPredicatesToIndexes.lookup atom.dlPredicate
  let arguments ← atom.arguments.mapM (g.bindingPosition boundSoFar)
  return some predicate :: arguments

/-- The worker for a single head atom. -/
def factWorker (atom : Atom) : Option Worker := do
  match ← atom.arguments.mapM g.slotOf with
  | [argumentIndex] => return .deriveUnaryFact atom.dlPredicate argumentIndex
  | [argument1, argument2] => return .deriveBinaryFact atom.dlPredicate argument1 argument2
  | [argument1, argument2, argument3] =>
    return .deriveTernaryFact atom.dlPredicate argument1 argument2 argument3
  | _ => none

def disjunctionWorker (headAtoms : List Atom) : Option DisjunctionWorker := do
  let arguments ← (headAtoms.flatMap Atom.arguments).mapM g.slotOf
  return {
    headPredicates := headAtoms.map Atom.dlPredicate
    copyIsCore := headAtoms.map fun atom => if atom.dlPredicate.arity =
      1 then atom.variables.head?.bind g.indexOf else none
    copyValuesToArguments := arguments }

def deriveHead (headAtoms : List Atom) (c : Compiler) : Option Compiler :=
  match headAtoms with
  | [] => some (c.push .setClash)
  | [atom] => (g.factWorker atom).map (c.push ·)
  | headAtoms => (g.disjunctionWorker headAtoms).map fun disjunction =>
    { c.push (.deriveDisjunction c.disjunctions.length) with
      disjunctions := c.disjunctions ++ [disjunction] }

def compileHead (headClause : DLClause) (c : Compiler) : Option Compiler :=
  (g.deriveHead headClause.headAtoms (c.push .callMatchStartedOnMonitor)).map
    (Compiler.push .callMatchFinishedOnMonitor)

def compileHeads (c : Compiler) : Option Compiler :=
  let c := if g.policy = .complexCore ∧ g.complexCoreUsesWorker then
    c.push (.computeCoreVariables g.storedVariables.length) else c
  g.headDlClauses.foldlM (fun c headClause => g.compileHead headClause c) c

/-- Compile the atoms from one on; where it fails, the program goes on with the next tuple of the
last atom that has an extension. -/
def compileBodyAtom : List Atom → ℤ → Compiler → Option Compiler
  | [], _, c => g.compileHeads c
  | atom :: atoms, lastAtomNextElement, c =>
    match atom.dlPredicate with
    | .nodeIdLessEqualThan => do
      let var1 ← atom.arguments[0]?.bind g.slotOf
      let var2 ← atom.arguments[1]?.bind g.slotOf
      compileBodyAtom atoms lastAtomNextElement
        (c.push (.branchIfNotNodeIdLessEqualThan lastAtomNextElement var1 var2))
    | .nodeIDsAscendingOrEqual _ => do
      let nodeVars ← atom.arguments.mapM g.slotOf
      compileBodyAtom atoms lastAtomNextElement
        { c.push
            (.branchIfNotNodeIdsAscendingOrEqual lastAtomNextElement c.nodeVarLists.length) with
          nodeVarLists := c.nodeVarLists ++ [nodeVars] }
    | _ => do
      let (afterLoop, c) := c.addLabel
      let (nextElement, c) := c.addLabel
      let bindingPositions ← g.bindingPositions c.boundSoFar atom
      let retrieval := c.retrievals.length
      let opened : VmRetrieval := ⟨atom.arguments.length + 1, bindingPositions, .extensionThis⟩
      let c := { c.push (.openRetrieval retrieval) with retrievals := c.retrievals ++ [opened] }
      let loopStart := c.workers.length
      let c := c.push (.hasMoreRetrieval afterLoop retrieval)
      let c := compileCheckUnboundVariableMatches atom retrieval nextElement c
      let c := g.compileGenerateBindings retrieval atom c
      let c := c.push (.copyDependencySet retrieval retrieval)
      let c ← compileBodyAtom atoms nextElement c
      let c := c.setLabelProgramCounter nextElement
      let c := (c.push (.nextRetrieval retrieval)).push (.jumpTo loopStart)
      return c.setLabelProgramCounter afterLoop

end ClauseGroup

def resolveJump (labels : List (Option ℕ)) (jump : ℤ) : Option ℤ :=
  if jump < 0 then labels[(-jump).toNat]?.join.map fun target : ℕ => (target : ℤ) else some jump

def Worker.resolve (labels : List (Option ℕ)) : Worker → Option Worker
  | .branchIfNotEqual jump r column1 column2 =>
    (resolveJump labels jump).map (.branchIfNotEqual · r column1 column2)
  | .branchIfNotNodeIdLessEqualThan jump var1 var2 =>
    (resolveJump labels jump).map (.branchIfNotNodeIdLessEqualThan · var1 var2)
  | .branchIfNotNodeIdsAscendingOrEqual jump nodeVars =>
    (resolveJump labels jump).map (.branchIfNotNodeIdsAscendingOrEqual · nodeVars)
  | .hasMoreRetrieval eof r => (resolveJump labels eof).map (.hasMoreRetrieval · r)
  | .jumpTo target => (resolveJump labels target).map .jumpTo
  | worker => some worker

namespace ClauseGroup

variable (g : ClauseGroup)

def generateCode : Option WorkerProgram := do
  let firstAtom ← g.bodyDlClause.bodyAtoms.head?
  let arity := firstAtom.dlPredicate.arity + 1
  let c : Compiler := ⟨[], [], [], [], [⟨arity, List.replicate arity none, .deltaOld⟩], [none]⟩
  let (afterRule, c) := c.addLabel
  let c := compileCheckUnboundVariableMatches firstAtom 0 afterRule c
  let c := g.compileGenerateBindings 0 firstAtom c
  let c := c.push (.copyDependencySet 0 0)
  let c ← g.compileBodyAtom g.bodyDlClause.bodyAtoms.tail afterRule c
  let c := c.setLabelProgramCounter afterRule
  let workers ← c.workers.mapM (Worker.resolve c.labels)
  return ⟨workers, c.nodeVarLists, c.disjunctions, c.retrievals⟩

def compile : Option DLClauseEvaluator := do
  let program ← g.generateCode
  return ⟨program, ⟨program.retrievals.map fun _ => ⟨[], 0⟩, g.initialCoreVariables,
    program.retrievals.map fun _ => none⟩⟩

end ClauseGroup

end Hermit
