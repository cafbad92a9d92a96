import Hermit.Graph
import Hermit.Structural.Automaton
import Hermit.Structural.OwlAxioms

/-! # Automata of the non-simple properties

The inclusions between properties, closed under inverse, are read as a grammar.
Every property with a chain inclusion below it gets an automaton: a skeleton with
one path for each inclusion into its class of equivalent properties, where the
automata of smaller properties are spliced in.
-/

namespace Hermit

abbrev Inclusion := ObjectPropExpr × ObjectPropExpr

abbrev Chain := List ObjectPropExpr × ObjectPropExpr

/-- Why a property hierarchy is rejected. -/
inductive RegularityError where
  | notRegular
  | cyclicDependency (property : ObjectPropExpr)
deriving DecidableEq, Repr

/-- The text of an error; `debug` is how the OWL library prints a property. -/
def RegularityError.message (debug : ObjectPropExpr → String) : RegularityError → String
  | .notRegular => "The given property hierarchy is not regular."
  | .cyclicDependency p =>
    "The given property hierarchy is not regular. Cyclic dependency involving " ++ debug p

/-! ## Structural regularity -/

section regularity

variable (order : HashOrder ObjectPropExpr)

/-- The inclusions between two properties that are not each other's inverse. -/
def inclusionGraph (simple : List Inclusion) : Graph ObjectPropExpr :=
  simple.foldl
    (fun g i => if i.1 ≠ i.2 ∧ i.1 ≠ inverseProperty i.2 then g.addEdge i.1 i.2 else g) .empty

/-- The properties that include a property and are included in it or its inverse. -/
def findEquivalentProperties (simple : List Inclusion) :
    AList fun _ : ObjectPropExpr => List ObjectPropExpr :=
  let graph := (inclusionGraph simple).transitivelyClose order
  graph.elements.foldl
    (fun result obj =>
      let successors := graph.getSuccessors obj
      if obj ∈ successors ∨ inverseProperty obj ∈ successors then
        result.insert obj (successors.filter fun succ =>
          succ ≠ obj ∧ (obj ∈ graph.getSuccessors succ ∨
            inverseProperty obj ∈ graph.getSuccessors succ))
      else result) ∅

variable (equivalent : AList fun _ : ObjectPropExpr => List ObjectPropExpr)

/-- Whether `b` is listed as equivalent to `a`. -/
def areEquivalent (a b : ObjectPropExpr) : Bool :=
  (equivalent.lookup a).any fun s => b ∈ s

/-- One role of a chain: reject it or add its edge to the super-property. -/
def addChainEdge (n : ℕ)
    (sup : ObjectPropExpr) (graph : Graph ObjectPropExpr) (entry : ObjectPropExpr × ℕ) :
    Except RegularityError (Graph ObjectPropExpr) :=
  let (sub, i) := entry
  if n ≠ 2 ∧ 0 < i ∧ i + 1 < n ∧ (sub = sup ∨ areEquivalent equivalent sup sub = true) then
    .error .notRegular
  else if inverseProperty sub = sup then .error .notRegular
  else if sub ≠ sup then .ok (graph.addEdge sub sup)
  else .ok graph

/-- The edges of one chain. -/
def addChain (graph : Graph ObjectPropExpr) (chain : Chain) :
    Except RegularityError (Graph ObjectPropExpr) :=
  if chain.1.length ≠ 2 ∧ chain.1.head? = some chain.2 ∧ chain.1.getLast? = some chain.2 then
    .error .notRegular
  else chain.1.zipIdx.foldlM (addChainEdge equivalent chain.1.length chain.2) graph

/-- The dependency of each property on those below it. -/
def buildPropertyOrdering (simple : List Inclusion) (complex : List Chain)
    (equivalent : AList fun _ : ObjectPropExpr => List ObjectPropExpr) :
    Except RegularityError (Graph ObjectPropExpr) :=
  complex.foldlM (addChain equivalent) (simple.foldl (fun g i =>
        if i.1 ≠ i.2 ∧ i.1 ≠ inverseProperty i.2 ∧ areEquivalent equivalent i.1 i.2 = false then
          g.addEdge i.1 i.2
        else g) .empty)

/-- Remove the edge of two equivalent properties, with the edges to its target's successors
added in its place. -/
def trimEdge (temp : Graph ObjectPropExpr) (state : Graph ObjectPropExpr × Bool)
    (edge : ObjectPropExpr × ObjectPropExpr) : Graph ObjectPropExpr × Bool :=
  if areEquivalent equivalent edge.1 edge.2 then
    (((temp.getSuccessors edge.2).foldl
        (fun g s => if edge.1 ≠ s then g.addEdge edge.1 s else g) state.1).removeEdge edge.1 edge.2,
      true)
  else state

/-- One pass of the trimming loop, over a copy of the graph. -/
def trimPass (pass : ℕ) (graph : Graph ObjectPropExpr) : Graph ObjectPropExpr × Bool :=
  ((order.arrange pass graph.clone.elements).flatMap fun prop =>
      (order.arrange pass (graph.clone.getSuccessors prop)).map fun succ => (prop, succ)).foldl
    (trimEdge equivalent graph.clone) (graph, false)

/-- Trim until a pass changes nothing; `none` when `fuel` passes were not enough. -/
def trim (equivalent : AList fun _ : ObjectPropExpr => List ObjectPropExpr) :
    ℕ → ℕ → Graph ObjectPropExpr → Option (Graph ObjectPropExpr)
  | 0, _, _ => none
  | fuel + 1, pass, graph =>
    match trimPass order equivalent pass graph with
    | (graph', true) => trim equivalent fuel (pass + 1) graph'
    | (graph', false) => some graph'

/-- Reject a dependency graph with a cycle that equivalences do not explain. -/
def checkForRegularity (fuel : ℕ) (graph : Graph ObjectPropExpr)
    (equivalent : AList fun _ : ObjectPropExpr => List ObjectPropExpr) :
    Option (Except RegularityError Unit) :=
  match trim order equivalent fuel 0 graph.clone with
  | none => none
  | some trimmed =>
    let closed := trimmed.transitivelyClose order
    match (order.arrange 0 closed.elements).find? fun prop =>
        prop ∈ closed.getSuccessors prop || inverseProperty prop ∈ closed.getSuccessors prop with
    | some prop => some (.error (.cyclicDependency prop))
    | none => some (.ok ())

end regularity

/-! ## The role box as a grammar -/

structure RoleBox where
  /-- The reflexive-transitive closure of the inclusions above each property. -/
  supers : AList fun _ : ObjectPropExpr => List ObjectPropExpr
  inclusions : List Inclusion
  chains : List Chain
  /-- The properties with a chain inclusion below them. -/
  nonSimple : List ObjectPropExpr

namespace RoleBox

variable (inclusions : List Inclusion)

/-- Append an inclusion of two different properties that is not there yet. -/
def pushInclusion (i : Inclusion) : List Inclusion :=
  if i.1 ≠ i.2 ∧ i ∉ inclusions then inclusions ++ [i] else inclusions

/-- The simple inclusions, closed under inverse. -/
def closeInclusions (simple : List Inclusion) : List Inclusion :=
  simple.foldl
    (fun acc i => pushInclusion (pushInclusion acc i) (inverseProperty i.1, inverseProperty i.2)) []

/-- The inclusion of the inverse chain. -/
def mirrorChain (chain : Chain) : Chain :=
  (chain.1.reverse.map inverseProperty, inverseProperty chain.2)

/-- The chain inclusions, closed under inverse. -/
def closeChains (complex : List Chain) : List Chain :=
  complex.foldl (fun acc chain => insertSet (insertSet acc chain) (mirrorChain chain)) []

/-- The properties directly above a property. -/
def direct (role : ObjectPropExpr) : List ObjectPropExpr :=
  (inclusions.filter (·.1 = role)).map (·.2)

/-- The properties that occur in the inclusions. -/
def roles (chains : List Chain) : List ObjectPropExpr :=
  (inclusions.flatMap (fun i => [i.1, i.2]) ++ chains.flatMap fun c => c.1 ++ [c.2]).dedup

def closeSupers (roles : List ObjectPropExpr) :
    AList fun _ : ObjectPropExpr => List ObjectPropExpr :=
  roles.foldl (fun supers role =>
      supers.insert role (Worklist.reachPush (direct inclusions) roles [role])) ∅

def new (simple : List Inclusion) (complex : List Chain) : RoleBox :=
  let inclusions := closeInclusions simple
  let chains := closeChains complex
  let supers := closeSupers inclusions (roles inclusions chains)
  { supers := supers
    inclusions := inclusions
    chains := chains
    nonSimple := (chains.flatMap fun c => (supers.lookup c.2).getD []).dedup }

variable (rb : RoleBox)

def isSubProperty (sub sup : ObjectPropExpr) : Bool :=
  sub = sup || (rb.supers.lookup sub).any fun s => sup ∈ s

/-- Whether the two properties include each other. -/
def equivalent (a b : ObjectPropExpr) : Bool := rb.isSubProperty a b && rb.isSubProperty b a

/-- A path from `current` to `target` along the given labels, through fresh states. -/
def addPath (target : ℕ) : List ObjectPropExpr → ℕ → Automaton × List Transition →
    Automaton × List Transition
  | [], _, skeleton => skeleton
  | [role], current, (a, ts) => (a, ts ++ [⟨current, some role, target⟩])
  | role :: rest, current, (a, ts) =>
    addPath target rest a.states.length
      (a.addState false false, ts ++ [⟨current, some role, a.states.length⟩])

variable (property : ObjectPropExpr)

/-- The labels of a chain between the occurrences of the class at its ends. -/
def middle (subs : List ObjectPropExpr) : List ObjectPropExpr :=
  let front := if (subs.head?.any fun r => rb.equivalent r property) then subs.tail else subs
  if (subs.getLast?.any fun r => rb.equivalent r property) then front.dropLast else front

/-- The path of one chain into the class of `property`, between the initial state `0` and the
final state `1`: an occurrence of the class at the start (end) of the chain becomes the final
(initial) state. -/
def addChainPath (skeleton : Automaton × List Transition)
    (chain : Chain) : Automaton × List Transition :=
  if !rb.equivalent chain.2 property then skeleton
  else
    let source := if (chain.1.head?.any fun r => rb.equivalent r property) then 1 else 0
    let target := if (chain.1.getLast?.any fun r => rb.equivalent r property) then 0 else 1
    let labels := rb.middle property chain.1
    if labels.isEmpty then (skeleton.1, skeleton.2 ++ [⟨source, none, target⟩])
    else addPath target labels source skeleton

/-- The transition of a simple inclusion of a non-simple property of another class. -/
def inclusionTransition (i : Inclusion) : Option Transition :=
  if rb.equivalent i.2 property && !rb.equivalent i.1 property && (i.1 ∈ rb.nonSimple) then
    some ⟨0, some i.1, 1⟩
  else none

/-- The states of the skeleton and the transitions to put between them. -/
def skeleton : Automaton × List Transition :=
  rb.chains.foldl (rb.addChainPath property)
    ((Automaton.empty.addState true false).addState false true,
      ⟨0, some property, 1⟩ :: rb.inclusions.filterMap (rb.inclusionTransition property))

/-- The automata built so far, and whether a dependency had to be cut. -/
structure Memo where
  complete : AList fun _ : ObjectPropExpr => Automaton
  irregular : Bool

/-- Put one transition into the automaton; a non-simple property of another class is replaced
by its automaton. -/
def spliceTransition
    (recurse : ObjectPropExpr → Memo → Option (Automaton × Memo)) (state : Automaton × Memo)
    (t : Transition) : Option (Automaton × Memo) :=
  match t.label with
  | none => some (state.1.addTransition t.start none t.stop, state.2)
  | some role =>
    if rb.equivalent role property && !(t.start == 0 && t.stop == 1) then
      some (state.1.addTransition t.start (some role) t.stop, { state.2 with irregular := true })
    else if !rb.equivalent role property && (role ∈ rb.nonSimple) then
      match recurse role state.2 with
      | none => none
      | some (smaller, memo) => some (automataConnector state.1 smaller t.start t.stop, memo)
    else some (state.1.addTransition t.start (some role) t.stop, state.2)

def singleTransitionAutomaton : Automaton :=
  ((Automaton.empty.addState true false).addState false true).addTransition 0 (some property) 1

/-- The automaton of the words that `property` derives, memoised.  `building` holds the
properties under construction: the source inserts a property before the recursive calls and
removes it after them.  `none` means that the fuel ran out. -/
def completeAutomaton : ℕ → List ObjectPropExpr → ObjectPropExpr → Memo → Option (Automaton × Memo)
  | 0, _, _, _ => none
  | fuel + 1, building, property, memo =>
    match memo.complete.lookup property with
    | some automaton => some (automaton, memo)
    | none =>
      if isAnonymousProperty property then
        if inverseProperty property ∈ building then
          some (singleTransitionAutomaton property, { memo with irregular := true })
        else
          match completeAutomaton fuel building (inverseProperty property) memo with
          | none => none
          | some (automaton, memo') =>
            some (automaton.mirroredCopy.minimized,
              { memo' with
                complete := memo'.complete.insert property automaton.mirroredCopy.minimized })
      else if property ∈ building then
        some (singleTransitionAutomaton property, { memo with irregular := true })
      else
        match (rb.skeleton property).2.foldlM
            (rb.spliceTransition property (completeAutomaton fuel (property :: building)))
            ((rb.skeleton property).1, memo) with
        | none => none
        | some (automaton, memo') =>
          some (automaton.minimized,
            { memo' with complete := memo'.complete.insert property automaton.minimized })

/-- Enough fuel for a named and an inverse call for each property. -/
def fuel : ℕ := 2 * rb.nonSimple.length + 2

/-- The automata of the non-simple properties, in the order of their labels. -/
def completeAll : Option Memo :=
  (sortDedup labelLE rb.nonSimple).foldlM
    (fun memo property => (rb.completeAutomaton rb.fuel [] property memo).map (·.2)) ⟨∅, false⟩

end RoleBox

structure InclusionManager where
  automataByProperty : AList fun _ : ObjectPropExpr => Automaton
  irregular : Bool

def topObjectProperty : ObjectPropExpr := .objectProperty topObjectRole

/-- `⊤` repeated: an edge of the top property and an ε transition back. -/
def topAutomaton : Automaton :=
  (((Automaton.empty.addState true false).addState false true).addTransition 0
    (some topObjectProperty) 1).addTransition 1 none 0

/-- The automata together with one for the top property, which queries may mention. -/
def addTopAutomaton (automata : AList fun _ : ObjectPropExpr => Automaton) :
    AList fun _ : ObjectPropExpr => Automaton :=
  if topObjectProperty ∈ automata then automata
  else (automata.insert (inverseProperty topObjectProperty) topAutomaton.mirroredCopy).insert
    topObjectProperty topAutomaton

/-- The chain inclusions as pairs. -/
def OwlAxioms.chains (axioms : OwlAxioms) : List Chain :=
  axioms.complexObjectPropertyInclusions.map fun c => (c.subObjectProperties, c.superObjectProperty)

/-- Check the role box and build the automata.  The result is `none` when `fuel` passes of the
trimming loop were not enough. -/
def createAutomata (order : HashOrder ObjectPropExpr) (fuel : ℕ) (axioms : OwlAxioms) :
    Option (Except RegularityError (InclusionManager × OwlAxioms)) :=
  let simple := axioms.simpleObjectPropertyInclusions
  let equivalent := findEquivalentProperties order simple
  match buildPropertyOrdering simple axioms.chains equivalent with
  | .error e => some (.error e)
  | .ok graph =>
    match checkForRegularity order fuel graph equivalent with
    | none => none
    | some (.error e) => some (.error e)
    | some (.ok ()) =>
      let roleBox := RoleBox.new simple axioms.chains
      match roleBox.completeAll with
      | none => none
      | some memo =>
        some (.ok (⟨addTopAutomaton memo.complete, memo.irregular⟩,
          { axioms with
            complexObjectPropertyExpressions :=
              (sortDedup labelLE roleBox.nonSimple).foldl insertSet
                axioms.complexObjectPropertyExpressions }))

end Hermit
