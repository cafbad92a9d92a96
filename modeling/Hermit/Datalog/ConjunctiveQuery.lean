import Hermit.Datalog.Materialization

/-! # Conjunctive queries

A query is evaluated by a nested-loop join over its atoms, which are reordered first.  The maps that
record what is bound are changed on the way down and restored by hand on the way back.  What the
source unwraps is `none` here if it is not there.
-/

namespace Hermit.Datalog

inductive QueryTerm where
  | var (name : String)
  | individual (iri : Iri)
deriving DecidableEq

inductive QueryAtom where
  | concept (classExpression : ClassExpr) (term : QueryTerm)
  | role (property : ObjectPropExpr) (first second : QueryTerm)
  | equality (first second : QueryTerm)
  | inequality (first second : QueryTerm)

namespace QueryAtom

def terms : QueryAtom → List QueryTerm
  | concept _ t => [t]
  | role _ a b => [a, b]
  | equality a b => [a, b]
  | inequality a b => [a, b]

end QueryAtom

/-- An answer has an individual or nothing for every answer term. -/
abbrev Row := List (Option Iri)

structure ConjunctiveQuery where
  atoms : List QueryAtom
  answerTerms : List QueryTerm

def unsupportedConcept : String :=
  "DatalogEngine query concept atoms must be named classes; complex class expressions are not part of the clausified query vocabulary"

def conceptOf : ClassExpr → Except String AtomicConcept
  | .class iri => .ok ⟨iri⟩
  | _ => .error unsupportedConcept

def roleOf : ObjectPropExpr → Role
  | .objectProperty p => .atomicRole ⟨p⟩
  | .inverseObjectProperty p => .inverseRole ⟨p⟩

/-! ## The order of the atoms -/

/-- Bound variables count for an atom, unbound ones against it. -/
def atomGoodness (atom : QueryAtom) (boundVariables : List String) : ℤ :=
  let bound := atom.terms.countP fun | .var v => v ∈ boundVariables | .individual _ => false
  let unbound := atom.terms.countP fun | .var v => v ∉ boundVariables | .individual _ => false
  bound * 100 - unbound * 10

def addAtomVariables (atom : QueryAtom) (boundVariables : List String) : List String :=
  atom.terms.foldl (fun bound term =>
      match term with | .var v => insertSet bound v | .individual _ => bound) boundVariables

/-- The best unused atom, the last one among equals. -/
def bestIndex (atoms : List QueryAtom) (used : List Bool)
    (boundVariables : List String) : Option ℕ :=
  ((List.range atoms.length).reverse.foldl (fun (best : Option ℕ × ℤ) index =>
    match used[index]?, atoms[index]? with
    | some false, some atom =>
      if best.2 < atomGoodness atom boundVariables
        then (some index, atomGoodness atom boundVariables) else best
    | _, _ => best) (none, -1000)).1

def swapLoop (atoms : List QueryAtom) : ℕ → List Bool → List QueryAtom → List String →
    Option (List QueryAtom)
  | fuel, used, reordered, boundVariables =>
    if reordered.length = atoms.length then some reordered
    else match fuel with
      | 0 => none
      | fuel + 1 =>
        match bestIndex atoms used boundVariables with
        | none => none
        | some index =>
          match atoms[index]? with
          | none => none
          | some atom =>
            swapLoop atoms fuel (used.set index true) (reordered ++ [atom])
              (addAtomVariables atom boundVariables)

/-- The first atom stays first. -/
def swapBodyAtoms : List QueryAtom → Option (List QueryAtom)
  | [] => some []
  | atom :: atoms =>
    swapLoop (atom :: atoms) atoms.length (true :: List.replicate atoms.length false) [atom]
      (addAtomVariables atom [])

/-! ## The join -/

/-- What is bound: the individuals of the bound nodes that have one, the bound variables and their
nodes. -/
structure JoinState where
  binding : AList fun _ : String => Iri
  boundSoFar : List String
  nodeBinding : AList fun _ : String => NodeId

namespace JoinState

def empty : JoinState := ⟨∅, [], ∅⟩

variable (s : JoinState)

def isBound : QueryTerm → Bool
  | .var v => v ∈ s.boundSoFar
  | .individual _ => true

def unbind (v : String) : JoinState :=
  ⟨s.binding.erase v, s.boundSoFar.filter (· ≠ v), s.nodeBinding.erase v⟩

end JoinState

/-- A part of the join reports rows and leaves a state behind. -/
abbrev Join := JoinState → Option (List Row × JoinState)

/-- Run the body for one element after the other. -/
def forEach {α : Type} (body : α → Join) : List α → Join
  | [], s => some ([], s)
  | a :: l, s => do
    let (rows, s) ← body a s
    let (rest, s) ← forEach body l s
    return (rows ++ rest, s)

section join

variable {rawKey : DLPredicate → Fin (2 ^ 61)} (M : Materialization rawKey)

def resolveBound (s : JoinState) : QueryTerm → Option NodeId
  | .var v => (s.nodeBinding.lookup v).or ((s.binding.lookup v).bind M.nodeForIri)
  | .individual iri => M.nodeForIri iri

def bindRoleEndpoint (v : String) (n : NodeId) (s : JoinState) : JoinState where
  binding :=
    match M.nodeToTerm.lookup n with
    | some representative => s.binding.insert v representative.uri
    | none => s.binding.erase v
  boundSoFar := insertSet s.boundSoFar v
  nodeBinding := s.nodeBinding.insert v n

def matchConceptAtom (concept : AtomicConcept) (term : QueryTerm) (next : Join) : Join := fun s =>
  match term, s.isBound term with
  | .var v, false => do
    let extension ← M.conceptExtension concept
    let (rows, s) ← forEach (fun p s => next (bindRoleEndpoint M v p.1 s)) extension s
    return (rows, s.unbind v)
  | _, _ =>
    match resolveBound M s term with
    | none => some ([], s)
    | some n => do
      if ← M.conceptHoldsNode concept n then next s else return ([], s)

/-- Bind a term that was not bound to the node of a tuple; a variable that got a node from this
tuple already must have the same one. -/
def tryBind (bound : Bool) (term : QueryTerm) (n : NodeId) (r : Bool × List String × JoinState) :
    Bool × List String × JoinState :=
  match r, bound, term with
  | (true, newlyBound, s), false, .var v =>
    match s.nodeBinding.lookup v with
    | some existing => (existing = n, newlyBound, s)
    | none => (true, newlyBound ++ [v], bindRoleEndpoint M v n s)
  | _, _, _ => r

def matchTuple (firstBound secondBound : Bool) (firstNode secondNode : Option NodeId)
    (first second : QueryTerm) (next : Join) (p : NodeId × NodeId) : Join := fun s =>
  if firstNode.any (· ≠ p.1) ∨ secondNode.any (· ≠ p.2) then some ([], s)
  else
    let r := tryBind M secondBound second p.2 (tryBind M firstBound first p.1 (true, [], s))
    (if r.1 then next r.2.2 else some ([], r.2.2)).map fun result =>
        (result.1, r.2.1.foldl JoinState.unbind result.2)

/-- An atom with two terms: a lookup if both are bound, and otherwise a loop over its extension. -/
def matchPairAtom (extension : Option (List (NodeId × NodeId)))
    (holds : NodeId → NodeId → Option Bool)
    (first second : QueryTerm) (next : Join) : Join := fun s =>
  let firstNode := if s.isBound first then resolveBound M s first else none
  let secondNode := if s.isBound second then resolveBound M s second else none
  if (s.isBound first ∧ firstNode.isNone) ∨ (s.isBound second ∧ secondNode.isNone) then some ([], s)
  else
    match firstNode, secondNode with
    | some a, some b => do
      if ← holds a b then next s else return ([], s)
    | _, _ => do
      let extension ← extension
      forEach (matchTuple M (s.isBound first) (s.isBound second) firstNode secondNode first second
        next) extension s

def matchComparisonAtom (predicate : DLPredicate) (first second : QueryTerm) (next : Join) : Join :=
  matchPairAtom M (M.comparisonExtension predicate) (M.comparisonHoldsNodes predicate)
    first second next

def matchRoleAtom (role : Role) (first second : QueryTerm) (next : Join) : Join :=
  matchPairAtom M (M.roleExtension role) (M.roleHoldsNodes role) first second next

def emitAnswers (answerTerms : List QueryTerm) (binding : AList fun _ : String => Iri) : Row :=
  answerTerms.map fun
    | .var v => binding.lookup v
    | .individual iri => some iri

def join (answerTerms : List QueryTerm) : List QueryAtom → Join
  | [], s => some ([emitAnswers answerTerms s.binding], s)
  | .concept classExpression term :: atoms, s =>
    match conceptOf classExpression with
    | .ok concept => matchConceptAtom M concept term (join answerTerms atoms) s
    | .error _ => none
  | .role property first second :: atoms, s =>
    matchRoleAtom M (roleOf property) first second (join answerTerms atoms) s
  | .equality first second :: atoms, s =>
    matchComparisonAtom M .equality first second (join answerTerms atoms) s
  | .inequality first second :: atoms, s =>
    matchComparisonAtom M .inequality first second (join answerTerms atoms) s

/-- Concepts must be named and individuals known. -/
def validateTerm : QueryTerm → Except String Unit
  | .var _ => .ok ()
  | .individual iri =>
    if (M.nodeForIri iri).isNone then .error
      ("Term '" ++ iri ++ "' is unknown to the reasoner.") else .ok ()

def validateAtom (atom : QueryAtom) : Except String Unit := do
  match atom with
  | .concept classExpression _ => discard (conceptOf classExpression)
  | _ => pure ()
  atom.terms.forM (validateTerm M)

end join

variable {rawKey : DLPredicate → Fin (2 ^ 61)}

/-- The rows that are reported, or an error before any is. -/
def ConjunctiveQuery.evaluate (query : ConjunctiveQuery) (M : Materialization rawKey) :
    Option (Except String (List Row)) :=
  match query.atoms.forM (validateAtom M) with
  | .error message => some (.error message)
  | .ok _ => do
    let ordered ← swapBodyAtoms query.atoms
    let (rows, _) ← join M query.answerTerms ordered .empty
    return .ok rows

end Hermit.Datalog
