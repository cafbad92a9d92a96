import Hermit.Graph
import Hermit.Hierarchy.Hierarchy

/-! # Instances of object roles

Pairs of individuals are known or possible instances of the nodes of a role hierarchy.  A query
tests the possible pairs of a node, passes those that are refuted to the parents, and then descends
to the children.  A recursion that runs out of fuel is `none`, as is a node that is not there.
-/

namespace Hermit

/-- The targets of every source; no source is without targets. -/
abbrev Relations := AList fun _ : String => List String

namespace Relations

variable (relations : Relations)

def has (source target : String) : Bool := (relations.lookup source).any (target ∈ ·)

def add (source target : String) : Relations :=
  relations.insert source (insertSet ((relations.lookup source).getD []) target)

def remove (source target : String) : Relations :=
  match relations.lookup source with
  | none => relations
  | some successors =>
    if successors.filter (· ≠ target) = [] then relations.erase source
    else relations.insert source (successors.filter (· ≠ target))

def pairs : List (String × String) := relations.entries.flatMap fun entry =>
    entry.2.map fun target => (entry.1, target)

end Relations

structure RoleElement where
  knownRelations : Relations
  possibleRelations : Relations

namespace RoleElement

def empty : RoleElement := ⟨∅, ∅⟩

variable (e : RoleElement)

def addKnown (source target : String) : RoleElement :=
  { e with knownRelations := e.knownRelations.add source target }

def removeKnown (source target : String) : RoleElement :=
  { e with knownRelations := e.knownRelations.remove source target }

def addPossible (source target : String) : RoleElement :=
  { e with possibleRelations := e.possibleRelations.add source target }

def removePossible (source target : String) : RoleElement :=
  { e with possibleRelations := e.possibleRelations.remove source target }

def setToKnown (source target : String) : RoleElement :=
  (e.removePossible source target).addKnown source target

end RoleElement

structure SeededRoleInstanceManager where
  nodeToElement : AList fun _ : NodeRef => RoleElement
  readingOffFoundPossible : Bool
  inconsistent : Bool

namespace SeededRoleInstanceManager

def new : SeededRoleInstanceManager := ⟨∅, false, false⟩

variable {E : Type*} (m : SeededRoleInstanceManager)

variable (n : NodeRef)

/-- The element of a node; it is empty if it is not there. -/
def element : RoleElement := (m.nodeToElement.lookup n).getD .empty

def isKnownAt (source target : String) : Bool :=
  (m.element n).knownRelations.has source target

def isPossibleAt (source target : String) : Bool :=
  (m.element n).possibleRelations.has source target

def modify (change : RoleElement → RoleElement) : SeededRoleInstanceManager :=
  { m with nodeToElement := m.nodeToElement.insert n (change (m.element n)) }

def modifyIfPresent (change : RoleElement → RoleElement) : SeededRoleInstanceManager :=
  match m.nodeToElement.lookup n with
  | none => m
  | some e => { m with nodeToElement := m.nodeToElement.insert n (change e) }

/-! ## Adding pairs -/

variable (h : Hierarchy E)

/-- Record a known pair unless a node below knows it, and remove it above. -/
def addKnownRoleInstance (n : NodeRef) (source target : String) : SeededRoleInstanceManager :=
  if n = h.top then m
  else if ((h.descendantNodes n).filter (· ≠ n)).any (m.isKnownAt · source target) then m
  else ((h.ancestorNodes n).filter (· ≠ n)).foldl
    (fun m a => m.modifyIfPresent a (·.removeKnown source target))
    (m.modify n (·.addKnown source target))

/-- Record a possible pair unless it is possible at a node below, and remove it above. -/
def addPossibleRoleInstance (n : NodeRef) (source target : String) : SeededRoleInstanceManager :=
  if n = h.top then m
  else if ((h.descendantNodes n).filter (· ≠ n)).any (m.isPossibleAt · source target) then m
  else ((h.ancestorNodes n).filter (· ≠ n)).foldl
    (fun m a => m.modifyIfPresent a (·.removePossible source target))
    { m.modify n (·.addPossible source target) with readingOffFoundPossible := true }

variable (isRoleInstance : E → String → String → Bool)

/-- Test the possible successors of a subject.  For a refuted successor the subject itself is
collected, and passed to the parents as a possible successor. -/
def realizeSubject (role : E) (current : NodeRef)
    (m : SeededRoleInstanceManager) (individual : String) : SeededRoleInstanceManager :=
  let successors := ((m.element current).possibleRelations.lookup individual).getD []
  let s : SeededRoleInstanceManager × List String := successors.foldl (fun s successor =>
    if isRoleInstance role individual successor
      then (s.1.modify current (·.addKnown individual successor), s.2)
    else (s.1, insertSet s.2 individual)) (m, [])
  ((h.parentNodes current).filter (· ≠ h.top)).foldl
    (fun m parent => m.modify parent fun e =>
        s.2.foldl (fun e nonInstance => e.addPossible individual nonInstance) e) s.1

def realizeNode (current : NodeRef) : Option SeededRoleInstanceManager :=
  (h.representative current).map fun role =>
    if (m.element current).possibleRelations.entries = [] then m
    else ((m.element current).possibleRelations.keys.foldl
      (realizeSubject h isRoleInstance role current) m).modifyIfPresent
      current fun e => { e with possibleRelations := ∅ }

/-- Take nodes from the queue, and append their parents to it. -/
def realizeLoop (h : Hierarchy E) (isRoleInstance : E → String → String → Bool) :
    ℕ → List NodeRef → List NodeRef → SeededRoleInstanceManager → Option SeededRoleInstanceManager
  | _, [], _, m => some m
  | 0, _ :: _, _, _ => none
  | fuel + 1, current :: toProcess, visited, m =>
    if current ∈ visited then realizeLoop h isRoleInstance fuel toProcess visited m
    else (m.realizeNode h isRoleInstance current).bind (realizeLoop h isRoleInstance fuel
        (Worklist.enqueueFresh (current :: visited) (h.parentNodes current) toProcess)
        (current :: visited))

/-- Every node is queued at most once. -/
def realizeObjectRoles : Option SeededRoleInstanceManager :=
  if !m.readingOffFoundPossible then some m
  else (realizeLoop h isRoleInstance h.nodes.length [h.bottom] [] m).map fun m =>
      { m with readingOffFoundPossible := false }

/-! ## Queries -/

/-- Pass a refuted pair to the parents. -/
def passToParents (n : NodeRef) (source target : String) : SeededRoleInstanceManager :=
  (h.parentNodes n).foldl (fun m p => m.modify p (·.addPossible source target)) m

/-- Ask one child after the other until one says yes. -/
def anyChild (ask : NodeRef → SeededRoleInstanceManager →
      Option (Bool × SeededRoleInstanceManager)) :
    List NodeRef → SeededRoleInstanceManager → Option (Bool × SeededRoleInstanceManager)
  | [], m => some (false, m)
  | c :: children, m => do
    let (answer, m) ← ask c m
    if answer then return (true, m) else anyChild ask children m

def hasObjectRoleRelationship (h : Hierarchy E) (allIndividuals : List String)
    (isRoleInstance : E → String → String → Bool) (individual1 individual2 : String) :
    ℕ → NodeRef → SeededRoleInstanceManager → Option (Bool × SeededRoleInstanceManager)
  | 0, _, _ => none
  | fuel + 1, n, m =>
    if n = h.top ∨ m.isKnownAt n individual1 individual2 then some (true, m)
    else
      let containsUnknown := individual1 ∉ allIndividuals ∨ individual2 ∉ allIndividuals
      if m.isPossibleAt n individual1 individual2 ∨ containsUnknown then
        (h.representative n).map fun role =>
          if isRoleInstance role individual1 individual2 then
            (true, if containsUnknown then m else m.modify n (·.setToKnown individual1 individual2))
          else (false, m.passToParents h n individual1 individual2)
      else anyChild (hasObjectRoleRelationship h allIndividuals isRoleInstance individual1
        individual2 fuel) (h.childNodes n) m

/-- Test a possible pair of a node. -/
def resolve (role : E) (n : NodeRef)
    (m : SeededRoleInstanceManager) (pair : String × String) : SeededRoleInstanceManager :=
  if isRoleInstance role pair.1 pair.2 then m.modify n (·.setToKnown pair.1 pair.2)
  else m.passToParents h n pair.1 pair.2

/-- The traversal that the collecting queries share: `atNode` does what a query does at a node, and
`everything` adds all individuals. -/
def collect {R : Type} (h : Hierarchy E) (everything : R → R)
    (atNode : E → NodeRef → SeededRoleInstanceManager → R → SeededRoleInstanceManager × R) :
    ℕ → NodeRef → SeededRoleInstanceManager × R → Option (SeededRoleInstanceManager × R)
  | 0, _, _ => none
  | fuel + 1, n, (m, result) =>
    if n = h.top ∨ m.inconsistent then some (m, everything result)
    else (h.representative n).elim none fun role =>
      (h.childNodes n).foldlM (fun s c => collect h everything atNode fuel c s)
        (atNode role n m result)

variable (allIndividuals : List String)

/-- Add the known pairs of a subject. -/
def addRelevant (result : Relations) (entry : Sigma fun _ : String => List String) :
    Relations :=
  if entry.1 ∉ allIndividuals then result
  else
    let successors := (entry.2.filter (· ∈ allIndividuals)).foldl insertSet
      ((result.lookup entry.1).getD [])
    if successors = [] then result.erase entry.1 else result.insert entry.1 successors

def collectObjectPropertyInstances
    (isRoleInstance : E → String → String → Bool) (fuel : ℕ) (n : NodeRef) :
    SeededRoleInstanceManager × Relations → Option (SeededRoleInstanceManager × Relations) :=
  collect h (fun result => allIndividuals.foldl (fun result i =>
      result.insert i allIndividuals) result)
    (fun role n m result =>
      let m := (m.element n).possibleRelations.pairs.foldl (resolve h isRoleInstance role n) m
      (m, (m.element n).knownRelations.entries.foldl (addRelevant allIndividuals) result)) fuel n

def getObjectPropertyInstances
    (isRoleInstance : E → String → String → Bool) (fuel : ℕ) (n : NodeRef) :
    Option (SeededRoleInstanceManager × Relations) :=
  collectObjectPropertyInstances h allIndividuals isRoleInstance fuel n (m, ∅)

def collectObjectPropertyValues
    (isRoleInstance : E → String → String → Bool) (subject : String) (fuel : ℕ) (n : NodeRef) :
    SeededRoleInstanceManager × List String → Option (SeededRoleInstanceManager × List String) :=
  collect h (allIndividuals.foldl insertSet) (fun role n m result =>
      let successors := ((m.element n).possibleRelations.lookup subject).getD []
      let m := successors.foldl (fun m successor =>
          resolve h isRoleInstance role n m (subject, successor)) m
      let known := ((m.element n).knownRelations.lookup subject).getD []
      (m, (known.filter (· ∈ allIndividuals)).foldl insertSet result)) fuel n

def getObjectPropertyValues
    (isRoleInstance : E → String → String → Bool) (subject : String) (fuel : ℕ) (n : NodeRef) :
    Option (SeededRoleInstanceManager × List String) :=
  collectObjectPropertyValues h allIndividuals isRoleInstance subject fuel n (m, [])

/-- Test a possible subject.  Whatever keeps it from being one, the pair is passed to the parents.
-/
def resolveSubject (isRoleInstance : E → String → String → Bool) (role : E)
    (n : NodeRef) (object : String) (s : SeededRoleInstanceManager × List String)
    (entry : Sigma fun _ : String => List String) : SeededRoleInstanceManager × List String :=
  if entry.1 ∈ allIndividuals ∧ object ∈ entry.2 ∧ isRoleInstance role entry.1 object then
    (s.1.modify n (·.setToKnown entry.1 object), insertSet s.2 entry.1)
  else (s.1.passToParents h n entry.1 object, s.2)

def collectObjectPropertySubjects
    (isRoleInstance : E → String → String → Bool) (object : String) (fuel : ℕ) (n : NodeRef) :
    SeededRoleInstanceManager × List String → Option (SeededRoleInstanceManager × List String) :=
  collect h (allIndividuals.foldl insertSet) (fun role n m result =>
      let known := (m.element n).knownRelations.entries.filter fun entry =>
          entry.1 ∈ allIndividuals ∧ object ∈ entry.2
      let result := (known.map fun entry => entry.1).foldl insertSet result
      (m.element n).possibleRelations.entries.foldl
        (resolveSubject h allIndividuals isRoleInstance role n object) (m, result))
    fuel n

def getObjectPropertySubjects
    (isRoleInstance : E → String → String → Bool) (object : String) (fuel : ℕ) (n : NodeRef) :
    Option (SeededRoleInstanceManager × List String) :=
  collectObjectPropertySubjects h allIndividuals isRoleInstance object fuel n (m, [])

end SeededRoleInstanceManager

end Hermit
