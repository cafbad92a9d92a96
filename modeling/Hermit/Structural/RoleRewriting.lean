import Hermit.Structural.ExpressionManager
import Hermit.Structural.RoleBox

/-! # Rewriting restrictions over role automata

A universal restriction over a property with an automaton is replaced by a fresh class,
and inclusions push that class along the transitions: each state of the automaton has
a class of its own, and the terminal state lies below the filler.  State classes that
hold of everything are eliminated afterwards.
-/

namespace Hermit

/-- The places where a property with chains below it may not occur. -/
inductive SimplicityError where
  | asymmetric (ope : ObjectPropExpr)
  | irreflexive (ope : ObjectPropExpr)
  | disjoint (ope : ObjectPropExpr)
  | cardinality (ope : ObjectPropExpr)
  | selfRestriction (ope : ObjectPropExpr)
deriving DecidableEq, Repr

/-- The text of an error; `debug` is how the OWL library prints a property. -/
def SimplicityError.message (debug : ObjectPropExpr → String) : SimplicityError → String
  | .asymmetric ope =>
    "Non-simple property '" ++ debug ope ++ "' appears in an asymmetric object property axiom."
  | .irreflexive ope =>
    "Non-simple property '" ++ debug ope ++ "' appears in an irreflexive object property axiom."
  | .disjoint ope =>
    "Non-simple property '" ++ debug ope ++ "' appears in a disjoint object properties axiom."
  | .cardinality ope =>
    "Non-simple property '" ++ debug ope ++ "' appears in a cardinality restriction."
  | .selfRestriction ope =>
    "Non-simple property '" ++ debug ope ++ "' appears in a Self restriction."

/-- The name of the state class with the given number. -/
def allName (n : ℕ) : Iri := "internal:all#" ++ n.repr

def freshClass (n : ℕ) : ClassExpr := .class (allName n)

def isComplement : ClassExpr → Bool
  | .objectComplementOf _ => true
  | _ => false

/-! ## Replacing restrictions -/

/-- The error for the first property that has chains below it. -/
def checkSimple (complex : List ObjectPropExpr) (error : ObjectPropExpr → SimplicityError)
    (properties : List ObjectPropExpr) : Except SimplicityError Unit :=
  properties.forM fun ope => if ope ∈ complex then .error (error ope) else .ok ()

/-- The properties of a disjunct that have to be simple.  The complement of a Self restriction
is not looked into. -/
def checkDisjunct (complex : List ObjectPropExpr) : ClassExpr → Except SimplicityError Unit
  | .objectMinCardinality _ ope _ => checkSimple complex .cardinality [ope]
  | .objectMaxCardinality _ ope _ => checkSimple complex .cardinality [ope]
  | .objectExactCardinality _ ope _ => checkSimple complex .cardinality [ope]
  | .objectHasSelf ope => checkSimple complex .selfRestriction [ope]
  | _ => .ok ()

/-- The replacements found so far; `fresh` holds the classes introduced for them. -/
structure Replacements where
  nextIndex : ℕ
  fresh : List ClassExpr := []
  replacedDescriptions : AList (fun _ : ClassExpr => ClassExpr) := ∅
  replacementOrder : List ClassExpr := []

namespace InclusionManager

variable (order : ExpressionOrder) (manager : InclusionManager)

/-- Whether the restriction is replaced, and whether its filler is negative then. -/
def allValuesMatch : ClassExpr → Option Bool
  | .objectAllValuesFrom ope bce =>
    if !isOwlThing bce && (manager.automataByProperty.lookup ope).isSome then
      some (isComplement bce || isOwlNothing bce)
    else none
  | _ => none

def replaceDisjunct (complex : List ObjectPropExpr) (r : Replacements) (d : ClassExpr) :
    Except SimplicityError (ClassExpr × Replacements) := do
  checkDisjunct complex d
  match manager.allValuesMatch d with
  | none => return (d, r)
  | some fillerIsNegative =>
    match r.replacedDescriptions.lookup d with
    | some replacement => return (replacement, r)
    | none =>
      let atom := freshClass r.nextIndex
      let replacement := if fillerIsNegative then order.getComplementNnf atom else atom
      return (replacement,
        { nextIndex := r.nextIndex + 1
          fresh := insertSet r.fresh atom
          replacedDescriptions := r.replacedDescriptions.insert d replacement
          replacementOrder := r.replacementOrder ++ [d] })

def replaceInclusion (complex : List ObjectPropExpr) (r : Replacements) :
    List ClassExpr → Except SimplicityError (List ClassExpr × Replacements)
  | [] => .ok ([], r)
  | d :: ds => do
    let (d, r) ← manager.replaceDisjunct order complex r d
    let (ds, r) ← replaceInclusion complex r ds
    return (d :: ds, r)

def replaceInclusions (complex : List ObjectPropExpr) (r : Replacements) :
    List (List ClassExpr) → Except SimplicityError (List (List ClassExpr) × Replacements)
  | [] => .ok ([], r)
  | e :: es => do
    let (e, r) ← manager.replaceInclusion order complex r e
    let (es, r) ← replaceInclusions complex r es
    return (e :: es, r)

/-! ## The inclusions of the states -/

/-- The classes given to the states so far, in the order of the states. -/
structure StateConcepts where
  concepts : List ClassExpr
  nextIndex : ℕ
  fresh : List ClassExpr

def addStateConcept (a : Automaton) (replacement : ClassExpr) (c : StateConcepts) (state : ℕ) :
    StateConcepts :=
  if a.isInitial state then { c with concepts := c.concepts ++ [replacement] }
  else
    let atom := freshClass c.nextIndex
    let concept := if isComplement replacement then order.getComplementNnf atom else atom
    { concepts := c.concepts ++ [concept]
      nextIndex := c.nextIndex + 1
      fresh := insertSet c.fresh atom }

def stateConcept (concepts : List ClassExpr) (state : ℕ) : ClassExpr :=
  concepts.getD state (.class owlNothing)

def transitionInclusion (concepts : List ClassExpr) (t : Transition) : List ClassExpr :=
  match t.label with
  | none => [order.getComplementNnf (stateConcept concepts t.start), stateConcept concepts t.stop]
  | some label =>
    [order.getComplementNnf (stateConcept concepts t.start),
      .objectAllValuesFrom label (stateConcept concepts t.stop)]

def finalInclusion (concepts : List ClassExpr) (filler : ClassExpr) (state : ℕ) : List ClassExpr :=
  if isOwlNothing filler then [order.getComplementNnf (stateConcept concepts state)]
  else [order.getComplementNnf (stateConcept concepts state), filler]

/-- The inclusions for an automaton whose states have the given classes. -/
def automatonInclusions (a : Automaton) (concepts : List ClassExpr) (filler : ClassExpr) :
    List (List ClassExpr) :=
  a.transitions.map (transitionInclusion order concepts) ++
    a.terminals.map (finalInclusion order concepts filler)

/-- The classes for the states of a replaced restriction and the inclusions between them. -/
def encodeRestriction (replaced : AList fun _ : ClassExpr => ClassExpr)
    (r : ℕ × List ClassExpr × List (List ClassExpr)) (allValues : ClassExpr) :
    ℕ × List ClassExpr × List (List ClassExpr) :=
  match allValues with
  | .objectAllValuesFrom property filler =>
    match manager.automataByProperty.lookup property, replaced.lookup allValues with
    | some a, some replacement =>
      let states := (List.range a.states.length).foldl (addStateConcept order a replacement)
        ⟨[], r.1, r.2.1⟩
      (states.nextIndex, states.fresh, r.2.2 ++ automatonInclusions order a states.concepts filler)
    | _, _ => r
  | _ => r

end InclusionManager

/-! ## Eliminating universal states -/

/-- The state that an inclusion makes universal: its only disjunct beside the complements of
states known to be so. -/
def impliedState (fresh universal : List ClassExpr) :
    Option ClassExpr → List ClassExpr → Option ClassExpr
  | positive, [] => positive
  | positive, .class c :: ds =>
    if positive.isNone && .class c ∈ fresh then impliedState fresh universal (some (.class c)) ds
    else none
  | positive, .objectComplementOf inner :: ds =>
    if inner ∈ universal then impliedState fresh universal positive ds else none
  | _, _ :: _ => none

def universalStep (fresh universal inclusion : List ClassExpr) : List ClassExpr :=
  match impliedState fresh universal none inclusion with
  | some state => insertSet universal state
  | none => universal

/-- One pass over the inclusions. -/
def universalPass (fresh : List ClassExpr) (inclusions : List (List ClassExpr))
    (universal : List ClassExpr) : List ClassExpr :=
  inclusions.foldl (universalStep fresh) universal

/-- Passes until nothing changes. -/
def universalStates (fresh : List ClassExpr) (inclusions : List (List ClassExpr)) :
    ℕ → List ClassExpr → List ClassExpr
  | 0, universal => universal
  | passes + 1, universal =>
    let next := universalPass fresh inclusions universal
    if next = universal then universal else universalStates fresh inclusions passes next

/-- The disjuncts that remain, unless one of them holds of everything. -/
def keptDisjuncts (universal : List ClassExpr) : List ClassExpr → Option (List ClassExpr)
  | [] => some []
  | .class c :: ds =>
    if .class c ∈ universal then none else (keptDisjuncts universal ds).map (.class c :: ·)
  | .objectComplementOf inner :: ds =>
    if inner ∈ universal then keptDisjuncts universal ds
    else (keptDisjuncts universal ds).map (.objectComplementOf inner :: ·)
  | .objectAllValuesFrom ope (.objectComplementOf inner) :: ds =>
    if .objectComplementOf inner ∈ universal then none
    else if inner ∈ universal then
      (keptDisjuncts universal ds).map (.objectAllValuesFrom ope (.class owlNothing) :: ·)
    else (keptDisjuncts universal ds).map
      (.objectAllValuesFrom ope (.objectComplementOf inner) :: ·)
  | .objectAllValuesFrom ope bce :: ds =>
    if bce ∈ universal then none
    else (keptDisjuncts universal ds).map (.objectAllValuesFrom ope bce :: ·)
  | d :: ds => (keptDisjuncts universal ds).map (d :: ·)

def eliminateInclusion (universal : List ClassExpr) (inclusion : List ClassExpr) :
    List (List ClassExpr) :=
  match keptDisjuncts universal inclusion with
  | none => []
  | some [] => [[.class owlNothing]]
  | some kept => [kept]

/-- The inclusions without the states that hold of everything.  Every pass but the last adds a
fresh class. -/
def eliminateUniversalStates (fresh : List ClassExpr) (inclusions : List (List ClassExpr)) :
    List (List ClassExpr) :=
  let universal := universalStates fresh inclusions (fresh.length + 1) []
  if universal.isEmpty then inclusions else inclusions.flatMap (eliminateInclusion universal)

/-- The inclusions before the universal states are eliminated, and the classes introduced. -/
def InclusionManager.encodeInclusions (order : ExpressionOrder) (manager : InclusionManager)
    (complex : List ObjectPropExpr) (inclusions : List (List ClassExpr))
    (firstReplacementIndex : ℕ) :
    Except SimplicityError (List (List ClassExpr) × List ClassExpr) := do
  let (inclusions, r) ← manager.replaceInclusions order complex
    { nextIndex := firstReplacementIndex }
    inclusions
  let (_, fresh, inclusions) := r.replacementOrder.foldl
    (manager.encodeRestriction order r.replacedDescriptions) (r.nextIndex, r.fresh, inclusions)
  return (inclusions, fresh)

/-- Replace the restrictions over properties with an automaton. -/
def InclusionManager.rewriteAxioms (order : ExpressionOrder) (manager : InclusionManager)
    (axioms : OwlAxioms) (firstReplacementIndex : ℕ) : Except SimplicityError OwlAxioms := do
  let complex := axioms.complexObjectPropertyExpressions
  checkSimple complex .asymmetric axioms.asymmetricObjectProperties
  checkSimple complex .irreflexive axioms.irreflexiveObjectProperties
  checkSimple complex .disjoint axioms.disjointObjectProperties.flatten
  let (inclusions, fresh) ← manager.encodeInclusions order complex axioms.conceptInclusions
    firstReplacementIndex
  return { axioms with conceptInclusions := eliminateUniversalStates fresh inclusions }

end Hermit
