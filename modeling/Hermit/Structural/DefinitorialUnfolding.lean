import Hermit.Owl.Semantics
import Hermit.Library.DepthFirst
import Hermit.Library.Sorted

/-! # Lazy unfolding of acyclic definitorial ontologies

An ontology of definitions `A ≡ E` of distinct named classes and of assertions
is replaced by `A ⊑ nnf(E)`, `notA ⊑ nnf(¬E)` and `A ⊓ notA ⊑ ⊥`, with a fresh
complement name `notA` for every defined `A`.  The two ontologies are
equisatisfiable.
-/

namespace Hermit.DefinitorialUnfolding

/-- The definitions collected so far, by the defined class. -/
abbrev Definitions := AList fun _ : Iri => ClassExpr

def complementPrefix : String := "urn:hermit-rs:definitorial-complement:"

def isBuiltIn (c : Iri) : Bool := c == owlThing || c == owlNothing

def isBuiltInProperty (p : Iri) : Bool := p == topObjectRole || p == bottomObjectRole

mutual
/-- Whether an expression uses only the ALC constructors over named object properties. -/
def isSupported : ClassExpr → Bool
  | .class _ => true
  | .objectIntersectionOf operands => allSupported operands
  | .objectUnionOf operands => allSupported operands
  | .objectComplementOf operand => isSupported operand
  | .objectSomeValuesFrom (.objectProperty p) bce => !isBuiltInProperty p && isSupported bce
  | .objectAllValuesFrom (.objectProperty p) bce => !isBuiltInProperty p && isSupported bce
  | _ => false
def allSupported : List ClassExpr → Bool
  | [] => true
  | d :: ds => isSupported d && allSupported ds
end

mutual
/-- The class names of an expression. -/
def collectClasses : ClassExpr → List Iri
  | .class c => [c]
  | .objectIntersectionOf operands => collectAll operands
  | .objectUnionOf operands => collectAll operands
  | .objectComplementOf operand => collectClasses operand
  | .objectSomeValuesFrom _ bce => collectClasses bce
  | .objectAllValuesFrom _ bce => collectClasses bce
  | _ => []
def collectAll : List ClassExpr → List Iri
  | [] => []
  | d :: ds => collectClasses d ++ collectAll ds
end

/-- The second arm of the match on a definition: `[e, A]` with `A` not built in. -/
def definedSecond (e : ClassExpr) : ClassExpr → Option (Iri × ClassExpr)
  | .class c => if !isBuiltIn c then some (c, e) else none
  | _ => none

/-- The defined class and its definition, when the operands have that shape. -/
def definitionOf : List ClassExpr → Option (Iri × ClassExpr)
  | [.class c, e] => if !isBuiltIn c then some (c, e) else definedSecond (.class c) e
  | [e, d] => definedSecond e d
  | _ => none

/-- The components without logical content that unfolding passes over. -/
def isSkipped : NonLogical → Bool
  | .ontologyID | .annotationOnOntology | .annotationAssertion | .declareClass
  | .declareObjectProperty | .declareNamedIndividual | .declareAnnotationProperty => true
  | _ => false

/-- One turn of the loop over the ontology; `none` leaves the ontology alone. -/
def visitComponent (state : Definitions × List Component) :
    Component → Option (Definitions × List Component)
  | .nonLogical kind => if isSkipped kind then some state else none
  | .equivalentClasses operands =>
    match definitionOf operands with
    | none => none
    | some (defined, definition) =>
      if !isSupported definition || (state.1.lookup defined).isSome then none
      else some (state.1.insert defined definition, state.2)
  | .classAssertion ce (.named i) =>
    if isSupported ce then some (state.1, state.2 ++ [.classAssertion ce (.named i)]) else none
  | .objectPropertyAssertion (.objectProperty p) (.named i) (.named j) =>
    if !isBuiltInProperty p then
      some (state.1, state.2 ++
        [.objectPropertyAssertion (.objectProperty p) (.named i) (.named j)])
    else none
  | _ => none

variable (definitions : Definitions)

/-- The defined classes that the definition of `c` uses, in order. -/
def usedDefinitions (c : Iri) : List Iri :=
  match definitions.lookup c with
  | none => []
  | some definition =>
    (sortDedup (· ≤ ·) (collectClasses definition)).filter (· ∈ definitions)

/-- The search of `is_acyclic` over all defined classes, with one nested call for each of them. -/
def visitDefinitions :=
  let keys := (orderedEntries (· ≤ ·) definitions).map (·.1)
  DepthFirst.visitAll (DepthFirst.visit (usedDefinitions definitions) (keys.length + 1)) keys
    fun _ => .unvisited

/-- Whether no defined class depends on itself through the definitions. -/
def isAcyclic : Bool :=
  match visitDefinitions definitions with
  | some (result, _) => result
  | none => false

def complement (c : Iri) : Iri := complementPrefix ++ c

mutual
/-- The negation normal form of an expression, or of its complement when `negated`,
with the negation of a defined class replaced by its complement name.  The last
arm is unreachable in the source: `isSupported` admits no other constructor. -/
def nnf (definitions : Definitions) : ClassExpr → Bool → ClassExpr
  | .class c, negated =>
    if isBuiltIn c then
      if (c == owlThing) != negated then .class owlThing else .class owlNothing
    else if !negated then .class c
    else if c ∈ definitions then .class (complement c)
    else .objectComplementOf (.class c)
  | .objectComplementOf operand, negated => nnf definitions operand (!negated)
  | .objectIntersectionOf operands, negated =>
    if !negated then .objectIntersectionOf (nnfAll definitions operands negated)
    else .objectUnionOf (nnfAll definitions operands negated)
  | .objectUnionOf operands, negated =>
    if negated then .objectIntersectionOf (nnfAll definitions operands negated)
    else .objectUnionOf (nnfAll definitions operands negated)
  | .objectSomeValuesFrom ope bce, negated =>
    if !negated then .objectSomeValuesFrom ope (nnf definitions bce negated)
    else .objectAllValuesFrom ope (nnf definitions bce negated)
  | .objectAllValuesFrom ope bce, negated =>
    if negated then .objectSomeValuesFrom ope (nnf definitions bce negated)
    else .objectAllValuesFrom ope (nnf definitions bce negated)
  | ce, _ => ce
def nnfAll (definitions : Definitions) : List ClassExpr → Bool → List ClassExpr
  | [], _ => []
  | d :: ds, negated => nnf definitions d negated :: nnfAll definitions ds negated
end

/-- The three axioms that replace a definition. -/
def unfoldDefinition (entry : Sigma fun _ : Iri => ClassExpr) : List Component :=
  [.subClassOf (.class entry.1) (nnf definitions entry.2 false),
    .subClassOf (.class (complement entry.1)) (nnf definitions entry.2 true),
    .disjointClasses [.class entry.1, .class (complement entry.1)]]

def unfoldAssertion : Component → Component
  | .classAssertion ce i => .classAssertion (nnf definitions ce false) i
  | other => other

/-- The replacement of the definitions, in the order of their names, then the assertions. -/
def unfolded (assertions : List Component) : List Component :=
  (orderedEntries (· ≤ ·) definitions).flatMap (unfoldDefinition definitions) ++
    assertions.map (unfoldAssertion definitions)

def assertionClasses : Component → List Iri
  | .classAssertion ce _ => collectClasses ce
  | _ => []

/-- The names the freshness of the complement names is checked against. -/
def usedNames (assertions : List Component) : List Iri :=
  definitions.entries.flatMap (fun entry => entry.1 :: collectClasses entry.2) ++
    assertions.flatMap assertionClasses

def hasComplementPrefix (c : Iri) : Bool := complementPrefix.toList.isPrefixOf c.toList

/-- An equisatisfiable ontology with the definitions lazily unfolded, or `none` when the
ontology is not made only of acyclic definitions and assertions, or has no definition. -/
def unfoldDefinitions (ontology : List Component) : Option (List Component) :=
  match ontology.foldlM visitComponent ((∅ : Definitions), []) with
  | none => none
  | some (definitions, assertions) =>
    if definitions.entries.isEmpty || !isAcyclic definitions then none
    else if (usedNames definitions assertions).any hasComplementPrefix then none
    else some (unfolded definitions assertions)

end Hermit.DefinitorialUnfolding
