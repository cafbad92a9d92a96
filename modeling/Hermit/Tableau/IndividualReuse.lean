import Hermit.Model.Predicate

/-! # Reuse of individuals

An existential is satisfied by a node that was made for another one.  The choice is a branching
point, so that a clash that depends on it can make a fresh successor instead; what the clash
depends on has to include what the existential of the branching point depends on.
-/

namespace Hermit

namespace IndividualReuse

/-- What is stored with a dependency set.  Tuples of other predicates, disjunctions and buffered
equalities have numbers. -/
inductive Item where
  | concept (c : LiteralConcept) (node : ℕ)
  | atLeast (c : AtLeastConcept) (node : ℕ)
  | role (r : AtomicRole) (source target : ℕ)
  | merged (node into : ℕ)
  | other (key : ℕ)
deriving DecidableEq

abbrev DependencySet := Finset ℕ

/-- What a branching point chooses between. -/
inductive Choice where
  /-- The state a test starts from, without a choice. -/
  | base
  /-- The disjuncts of a disjunction, or the roots of an annotated equality. -/
  | alternatives (count current : ℕ)
  | reuse (existential : AtLeastConcept) (forNode : ℕ) (wasParentReuse : Bool)
deriving DecidableEq

/-- A branching point, with how much of every list was there when it was pushed. -/
structure BranchingPoint where
  stored : ℕ
  nodes : ℕ
  reused : ℕ
  choice : Choice
deriving DecidableEq

/-- The part of a tableau that dependency sets concern, under the strategy that is not
deterministic.  Nodes are numbered in order of creation, branching points by their levels. -/
structure State where
  stored : List (Item × DependencySet)
  branchingPoints : List BranchingPoint
  parents : List (Option ℕ)
  clash : Option DependencySet
  nonbacktrackableBranchingPoint : ℤ
  reusedNodes : AtomicConcept → Option (ℕ × ℕ)
  reuseBacktracking : List AtomicConcept
  doReuseAlways : List AtomicConcept
  dontReuseThisRun : List AtomicConcept

/-- The tableau before a test. -/
def start (doReuseAlways dontReuseEver : List AtomicConcept) : State where
  stored := []
  branchingPoints := []
  parents := []
  clash := none
  nonbacktrackableBranchingPoint := -1
  reusedNodes _ := none
  reuseBacktracking := []
  doReuseAlways := doReuseAlways
  dontReuseThisRun := dontReuseEver

/-! ## Stored dependency sets -/

/-- The dependency set of what is stored, empty if it is not. -/
def setOf (stored : List (Item × DependencySet)) (item : Item) : DependencySet :=
  (stored.lookup item).getD ∅

/-- Where a node was merged into, and what the merge depends on. -/
def mergedInto (stored : List (Item × DependencySet)) (node : ℕ) : Option (ℕ × DependencySet) :=
  stored.findSome? fun p =>
    match p.1 with
    | .merged source into => if source = node then some (into, p.2) else none
    | _ => none

/-- The end of a chain of merges, and a set with what the chain depends on; a chain is not longer
than what is stored. -/
def followMerges (stored : List (Item × DependencySet)) : ℕ → ℕ → DependencySet → ℕ × DependencySet
  | 0, node, dependencySet => (node, dependencySet)
  | fuel + 1, node, dependencySet =>
    match mergedInto stored node with
    | none => (node, dependencySet)
    | some (into, merged) => followMerges stored fuel into (dependencySet ∪ merged)

namespace State

variable (s : State)

def getCanonicalNode (node : ℕ) : ℕ := (followMerges s.stored s.stored.length node ∅).1

def addCanonicalNodeDependencySet (node : ℕ) (dependencySet : DependencySet) : DependencySet :=
  (followMerges s.stored s.stored.length node dependencySet).2

/-- Store something, unless it is there already. -/
def store (item : Item) (dependencySet : DependencySet) : State :=
  if (s.stored.lookup item).isSome then s
    else { s with stored := s.stored ++ [(item, dependencySet)] }

/-- What follows from premises depends on all they depend on. -/
def unionOf (premises : List ℕ) : DependencySet :=
  premises.foldr (fun k union => (s.stored[k]?.elim ∅ Prod.snd) ∪ union) ∅

/-- Store items one after the other, each with premises of its own. -/
def storeAll (items : List (Item × List ℕ)) (dependencySet : DependencySet) : State :=
  items.foldl (fun s p => s.store p.1 (dependencySet ∪ s.unionOf p.2)) s

def addRoleAssertion (role : Role) (source target : ℕ) (dependencySet : DependencySet) : State :=
  match role with
  | .atomicRole r => s.store (.role r source target) dependencySet
  | .inverseRole inverseOf => s.store (.role inverseOf target source) dependencySet

/-- The new node has the number of nodes so far. -/
def createNewNode (parent : Option ℕ) (dependencySet : DependencySet) : State :=
  { s with parents := s.parents ++ [parent] }.store
    (.concept (.atomicConcept .thing) s.parents.length) dependencySet

def containsConceptAssertion (c : LiteralConcept) (node : ℕ) : Bool :=
  c = .atomicConcept .thing || (s.stored.lookup (.concept c node)).isSome

/-- The new branching point has the number of branching points so far as its level. -/
def pushBranchingPoint (choice : Choice) : State :=
  { s with branchingPoints := s.branchingPoints ++
      [⟨s.stored.length, s.parents.length, s.reuseBacktracking.length, choice⟩] }

def backtrackTo (level : ℕ) (branchingPoint : BranchingPoint) : State :=
  { s with
    stored := s.stored.take branchingPoint.stored
    branchingPoints := s.branchingPoints.take (level + 1)
    parents := s.parents.take branchingPoint.nodes
    clash := none
    reusedNodes := fun c =>
      if c ∈ s.reuseBacktracking.drop branchingPoint.reused then none else s.reusedNodes c
    reuseBacktracking := s.reuseBacktracking.take branchingPoint.reused }

/-! ## Expansion -/

def shouldReuse (concept : AtomicConcept) : Bool :=
  if "internal:".toList.isPrefixOf concept.iri.toList then false
  else s.doReuseAlways.contains concept || !s.dontReuseThisRun.contains concept

def recordReuse (concept : AtomicConcept) (node branchingPoint : ℕ) : State :=
  { s with
    reusedNodes := fun c => if c = concept then some (node, branchingPoint) else s.reusedNodes c
    reuseBacktracking := s.reuseBacktracking ++ [concept] }

/-- Satisfy an existential by the parent; `none` if the parent is not in the concept. -/
def tryParentReuse (atLeast : AtLeastConcept) (node : ℕ) : Option State := do
  if atLeast.number ≠ 1 then none
  else
    let parent ← s.parents[node]?.join
    if s.containsConceptAssertion atLeast.toConcept parent then
      let level := s.branchingPoints.length
      let dependency := insert level (setOf s.stored (.atLeast atLeast node))
      return (s.pushBranchingPoint (.reuse atLeast node true)).addRoleAssertion atLeast.onRole node
        parent dependency
    else none

/-- Satisfy an existential by the node of its concept, made for the first existential of the
concept; `none` if the concept is not reused. -/
def expandWithModelReuse (atLeast : AtLeastConcept) (node : ℕ) : Option State :=
  match atLeast.toConcept with
  | .atomicNegationConcept _ => none
  | .atomicConcept toConcept =>
    if atLeast.number = 1 ∧ s.shouldReuse toConcept then
      let dependency := setOf s.stored (.atLeast atLeast node)
      match s.reusedNodes toConcept with
      | none =>
        let level := s.branchingPoints.length
        let existentialNode := s.parents.length
        let dependency := insert level dependency
        some (((((s.pushBranchingPoint (.reuse atLeast node false)).createNewNode none
          dependency).recordReuse
          toConcept existentialNode level).store
            (.concept (.atomicConcept toConcept) existentialNode) dependency)
          |>.addRoleAssertion atLeast.onRole node existentialNode dependency)
      | some (reuseNode, branchingPoint) =>
        let dependency :=
          insert branchingPoint (s.addCanonicalNodeDependencySet reuseNode dependency)
        some (s.addRoleAssertion atLeast.onRole node (s.getCanonicalNode reuseNode) dependency)
    else none

/-- Make a fresh successor instead of a reused node. -/
def reuseStartNextChoice (level : ℕ) (existential : AtLeastConcept) (forNode : ℕ)
    (wasParentReuse : Bool) (clashDependencySet : DependencySet) : State :=
  let s := match wasParentReuse, existential.toConcept with
    | false, .atomicConcept atomic => { s with dontReuseThisRun := atomic :: s.dontReuseThisRun }
    | _, _ => s
  let dependencySet := clashDependencySet.erase level
  let existentialNode := s.parents.length
  (((s.createNewNode (some forNode) dependencySet).store
    (.concept existential.toConcept existentialNode)
    dependencySet)).addRoleAssertion existential.onRole forNode existentialNode dependencySet

/-- The next choice of a branching point after backtracking to it; the last alternative does not
depend on it any more. -/
def startNextChoice (level : ℕ) (branchingPoint : BranchingPoint) (items : List (Item × List ℕ))
    (clashDependencySet : DependencySet) : Option State :=
  match branchingPoint.choice with
  | .base => none
  | .alternatives count current =>
    if current + 1 < count then
      let dependencySet :=
        if current + 2 = count then clashDependencySet.erase level else clashDependencySet
      let next : BranchingPoint :=
        { branchingPoint with choice := .alternatives count (current + 1) }
      some ({ s with branchingPoints := s.branchingPoints.set level next }.storeAll items
        dependencySet)
    else none
  | .reuse existential forNode wasParentReuse =>
    some (s.reuseStartNextChoice level existential forNode wasParentReuse clashDependencySet)

end State

/-- What a tableau does with dependency sets.  Premises are positions of what is stored. -/
inductive Action where
  /-- Rules, merges and expansions without a choice. -/
  | derive (item : Item) (premises : List ℕ)
  | createNode (parent : Option ℕ) (premises : List ℕ)
  | setClash (premises : List ℕ)
  /-- The branching point under the facts of a test. -/
  | pushBase
  | assertTestFact (item : Item) (level : ℕ)
  | restoreCheckpoint (level : ℕ)
  /-- The first of a number of alternatives; a single one is no choice. -/
  | choose (premises : List ℕ) (count : ℕ) (items : List (Item × List ℕ))
  | tryParentReuse (atLeast : AtLeastConcept) (node : ℕ)
  | expandWithModelReuse (atLeast : AtLeastConcept) (node : ℕ)
  | backtrackOnClash (items : List (Item × List ℕ))

namespace State

variable (s : State)

def isBase (level : ℕ) : Bool := (s.branchingPoints[level]?.map BranchingPoint.choice) = some .base

/-- Backtrack to the latest branching point a clash depends on and take its next choice. -/
def backtrackOnClash (items : List (Item × List ℕ)) : Option State := do
  let clashDependencySet ← s.clash
  let newCurrent ← (clashDependencySet.max : Option ℕ)
  if newCurrent ≤ s.nonbacktrackableBranchingPoint then none
  else
    let branchingPoint ← s.branchingPoints[newCurrent]?
    (s.backtrackTo newCurrent branchingPoint).startNextChoice newCurrent branchingPoint items
      clashDependencySet

def perform : Action → Option State
  | .derive item premises => some (s.store item (s.unionOf premises))
  | .createNode parent premises => some (s.createNewNode parent (s.unionOf premises))
  | .setClash premises => some { s with clash := some (s.unionOf premises) }
  | .pushBase =>
    some { s.pushBranchingPoint .base with
      nonbacktrackableBranchingPoint := s.branchingPoints.length }
  | .assertTestFact item level => if s.isBase level then some (s.store item {level}) else none
  | .restoreCheckpoint level =>
    if s.isBase level then s.branchingPoints[level]?.map fun branchingPoint =>
      { s.backtrackTo level branchingPoint with nonbacktrackableBranchingPoint := level }
    else none
  | .choose premises count items =>
    let dependencySet := s.unionOf premises
    if 1 < count then
      some ((s.pushBranchingPoint (.alternatives count 0)).storeAll items
        (insert s.branchingPoints.length dependencySet))
    else some (s.storeAll items dependencySet)
  | .tryParentReuse atLeast node => s.tryParentReuse atLeast node
  | .expandWithModelReuse atLeast node => s.expandWithModelReuse atLeast node
  | .backtrackOnClash items => s.backtrackOnClash items

def run (actions : List Action) : Option State := actions.foldlM perform s

end State

end IndividualReuse

end Hermit
