import Hermit.Graph
import Hermit.Hierarchy.Hierarchy
import Hermit.Library.Sorted

/-! # Instances of classes

Individuals are known or possible instances of the nodes of a class hierarchy.  They are read off a
model and kept at the most specific nodes; realization tests the possible ones and passes those that
are refuted to the parent nodes.  A loop that runs out of fuel is `none`, as is a node that is not
there.
-/

namespace Hermit

structure AtomicConceptElement where
  known : List String
  possible : List String
deriving DecidableEq

namespace AtomicConceptElement

def empty : AtomicConceptElement := ⟨[], []⟩

variable (e : AtomicConceptElement)

variable (individual : String)

def isKnown : Bool := individual ∈ e.known

def hasPossibles : Bool := !e.possible.isEmpty

def addKnown : AtomicConceptElement :=
  { e with known := insertSet e.known individual }

def addPossible : AtomicConceptElement :=
  { e with possible := insertSet e.possible individual }

/-- Remove what a node below records. -/
def strip (below : AtomicConceptElement) : AtomicConceptElement where
  known := e.known.filter (· ∉ below.known)
  possible := e.possible.filter fun i => i ∉ below.known ∧ i ∉ below.possible

end AtomicConceptElement

abbrev Elements := AList fun _ : NodeRef => AtomicConceptElement

namespace Elements

variable (elements : Elements)

/-- Change an element, which is created if it is not there. -/
def modify (n : NodeRef) (change : AtomicConceptElement → AtomicConceptElement) : Elements :=
  elements.insert n (change ((elements.lookup n).getD .empty))

/-- Change an element that is there. -/
def modifyIfPresent (n : NodeRef) (change : AtomicConceptElement →
      AtomicConceptElement) : Elements :=
  match elements.lookup n with
  | none => elements
  | some e => elements.insert n (change e)

end Elements

structure ReadOffConcept where
  conceptIri : String
  known : Bool

structure SeededClassInstanceManager where
  conceptToElement : Elements
  readingOffFoundPossible : Bool
  individualToEquivalenceClass : AList fun _ : String => List String
  possibleEquivalencePairs : List (String × String)

namespace SeededClassInstanceManager

def new : SeededClassInstanceManager := ⟨∅, false, ∅, []⟩

variable {E : Type*} (m : SeededClassInstanceManager)

/-! ## Reading off -/

def readOffType (individual : String) (nodeForElement : String → Option NodeRef)
    (m : SeededClassInstanceManager) (label : ReadOffConcept) : SeededClassInstanceManager :=
  match nodeForElement label.conceptIri with
  | none => m
  | some n =>
    if label.known
      then { m with conceptToElement := m.conceptToElement.modify n (·.addKnown individual) }
    else { m with
      conceptToElement := m.conceptToElement.modify n (·.addPossible individual)
      readingOffFoundPossible := true }

def readOffTypes (individual : String) (labels : List ReadOffConcept)
    (nodeForElement : String → Option NodeRef) :
    SeededClassInstanceManager :=
  labels.foldl (readOffType individual nodeForElement) m

def seedTopKnown (top : NodeRef) (individual : String) : SeededClassInstanceManager :=
  { m with conceptToElement := m.conceptToElement.modify top (·.addKnown individual) }

/-- The state of the upward traversal. -/
structure Traversal where
  elements : Elements
  toProcess : List NodeRef
  queued : List NodeRef

variable (h : Hierarchy E)

/-- Remove what a node records from all nodes above it. -/
def stripAncestors (current : NodeRef) (below : AtomicConceptElement)
    (elements : Elements) : Elements :=
  ((h.ancestorNodes current).filter (· ≠ current)).foldl
    (fun elements ancestor => elements.modifyIfPresent ancestor (·.strip below)) elements

/-- Process the first node; the traversal goes on above nodes that have an element only. -/
def normalizeNode (t : Traversal) : Option Traversal :=
  match t.toProcess with
  | [] => none
  | current :: toProcess =>
    match t.elements.lookup current with
    | none => some { t with toProcess := toProcess }
    | some e =>
      let (toProcess, queued) := Worklist.enqueueNew (h.parentNodes current) (toProcess, t.queued)
      some ⟨stripAncestors h current e t.elements, toProcess, queued⟩

/-- Keep instances at the most specific nodes.  Every node is queued once at most. -/
def normalizeConceptInstances (elements : Elements) : Option Elements :=
  let (toProcess, queued) := Worklist.enqueueNew (h.parentNodes h.bottom) ([], [])
  (loopWhile (fun t => !t.toProcess.isEmpty) (normalizeNode h) h.nodes.length ⟨elements, toProcess,
    queued⟩).map
    Traversal.elements

/-- Pass refuted instances to a parent.  For top they are known, unless its element is new. -/
def passToParent (top : NodeRef) (nonInstances : List String) (elements : Elements)
    (parent : NodeRef) : Elements :=
  let existed := (elements.lookup parent).isSome
  elements.modify parent fun e =>
    if parent = top ∧ existed then nonInstances.foldl .addKnown e
      else nonInstances.foldl .addPossible e

/-- Test the possible instances of a node. -/
def realizeNode (isInstance : E → String → Bool) (elements : Elements) (current : NodeRef) :
    Option Elements :=
  if current = h.bottom then some elements
  else
    match elements.lookup current with
    | none => some elements
    | some e =>
      if e.hasPossibles then
        (h.representative current).map fun representative =>
          let (instances, nonInstances) := e.possible.partition (isInstance representative)
          let realized : AtomicConceptElement := { instances.foldl .addKnown e with possible := [] }
          (h.parentNodes current).foldl (passToParent h.top nonInstances)
            (elements.insert current realized)
      else some elements

def realize (isInstance : E → String → Bool) : Option SeededClassInstanceManager := do
  let elements ← normalizeConceptInstances h m.conceptToElement
  if m.readingOffFoundPossible then
    let order ← h.nodesBottomUp
    let elements ← order.foldlM (realizeNode h isInstance) elements
    return { m with conceptToElement := elements, readingOffFoundPossible := false }
  else
    return { m with conceptToElement := elements }

/-! ## Queries -/

def isKnownAt (n : NodeRef) (individual : String) : Bool :=
  (m.conceptToElement.lookup n).any (·.isKnown individual)

def isKnownOfDescendant (h : Hierarchy E) (individual : String) : ℕ → NodeRef → Option Bool
  | 0, _ => none
  | fuel + 1, n =>
    if n = h.bottom then some false
    else if m.isKnownAt n individual then some true
    else (h.childNodes n).anyM (isKnownOfDescendant h individual fuel)

/-- Add the known instances of a node; direct ones are not known further down. -/
def collectKnown (n : NodeRef) (direct : Bool) (fuel : ℕ) (result : List String) :
    Option (List String) :=
  match m.conceptToElement.lookup n with
  | none => some result
  | some e => e.known.foldlM (fun result individual => do
      let isDirect ← if direct then
          (!·) <$> (h.childNodes n).anyM (m.isKnownOfDescendant h individual fuel) else some true
      return if isDirect then insertSet result individual else result) result

def collectInstances (h : Hierarchy E) (direct : Bool) : ℕ → NodeRef → List String →
    Option (List String)
  | 0, _, _ => none
  | fuel + 1, n, result => do
    let result ← m.collectKnown h n direct fuel result
    if direct then return result
    let collectChild := fun result child =>
      if child = h.bottom then some result else collectInstances h direct fuel child result
    (h.childNodes n).foldlM collectChild result

def getInstances (n : NodeRef) (direct : Bool) (allIndividuals : List String) (fuel : ℕ) :
    Option (List String) :=
  if n = h.bottom then some []
  else if !direct ∧ n = h.top then some allIndividuals
  else m.collectInstances h direct fuel n []

/-- The nodes without a child among the given ones. -/
def minimalNodes (types : List NodeRef) : List NodeRef :=
  types.filter fun n => ¬ (h.childNodes n).any (· ∈ types)

def getTypesOf (individual : String) (direct : Bool) : List NodeRef :=
  let typeNodes := m.conceptToElement.entries.foldl (fun typeNodes entry =>
    if entry.2.isKnown individual ∧ entry.1 ∉ typeNodes
      then (h.ancestorNodes entry.1).foldl insertSet typeNodes
    else typeNodes) []
  if direct then minimalNodes h typeNodes else typeNodes

end SeededClassInstanceManager

end Hermit
