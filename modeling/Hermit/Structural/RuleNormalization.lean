import Hermit.Structural.OwlNormalization

/-! # Normalising rules

A rule is split into one rule for each head atom.  Its individuals become variables
bound by nominals in the body, the equalities of its body become a substitution, and
its complex classes and data ranges get definitions.  The head of a normalised rule
is read as a disjunction.
-/

namespace Hermit

/-- The state of the normalisation of one rule.  The two work lists hold the atoms that
are still to be visited. -/
structure RuleNormalizerState where
  normalizedBodyAtoms : List SwrlAtom := []
  normalizedHeadAtoms : List SwrlAtom := []
  variableRepresentative : AList (fun _ : Iri => Iri) := ∅
  individualsToVariables : AList (fun _ : Iri => Iri) := ∅
  bodyDataRangeVariables : List Iri := []
  headDataRangeVariables : List Iri := []
  newVariableIndex : ℕ := 0
  bodyWork : List SwrlAtom := []
  headWork : List SwrlAtom := []

/-- The name of the fresh variable with the given number. -/
def swrlVariable (n : ℕ) : Iri := "internal:swrl#" ++ n.repr

namespace RuleNormalizerState

variable (nz : RuleNormalizerState)

def insertBody (atom : SwrlAtom) : RuleNormalizerState :=
  { nz with normalizedBodyAtoms := insertSet nz.normalizedBodyAtoms atom }

def insertHead (atom : SwrlAtom) : RuleNormalizerState :=
  { nz with normalizedHeadAtoms := insertSet nz.normalizedHeadAtoms atom }

/-- Insert on the side the atom was visited on. -/
def insertAt (isPositive : Bool) (atom : SwrlAtom) : RuleNormalizerState :=
  if isPositive then nz.insertHead atom else nz.insertBody atom

def pushBodyWork (atom : SwrlAtom) : RuleNormalizerState :=
  { nz with bodyWork := nz.bodyWork ++ [atom] }

def pushHeadWork (atom : SwrlAtom) : RuleNormalizerState :=
  { nz with headWork := nz.headWork ++ [atom] }

def rnFreshVariable : Iri × RuleNormalizerState :=
  (swrlVariable nz.newVariableIndex, { nz with newVariableIndex := nz.newVariableIndex + 1 })

/-- The variable recorded for another one; the record is looked up once. -/
def representative (v : Iri) : Iri :=
  (nz.variableRepresentative.lookup v).getD v

def nominalAtom (individual : Iri) (v : Iri) : SwrlAtom :=
  .classAtom (.objectOneOf [.named individual]) (.variable v)

def requireNamedIri : Individ → Except Failure Iri
  | .named n => .ok n
  | .anonymous _ => .error (.error
      "A SWRL rule contains a fact with an anonymous individual, which is not allowed.")

/-- The variable that stands for an argument. -/
def rnVariableFor : IArgument → Except Failure (Iri × RuleNormalizerState)
  | .variable v => .ok (nz.representative v, nz)
  | .individual individual => do
    let named ← requireNamedIri individual
    match nz.individualsToVariables.lookup named with
    | some existing => return (nz.representative existing, nz)
    | none =>
      let (fresh, nz) := nz.rnFreshVariable
      let nz := { nz with individualsToVariables := nz.individualsToVariables.insert named fresh }
      let nz := nz.pushBodyWork (nominalAtom named fresh)
      return (nz.representative fresh, nz)

/-- Record an equality of the body. -/
def unify (first second : IArgument) : Except Failure RuleNormalizerState := do
  let (variable1, nz) ← nz.rnVariableFor first
  match second with
  | .variable v2 =>
    return { nz with variableRepresentative := nz.variableRepresentative.insert v2 variable1 }
  | .individual individual =>
    let named ← requireNamedIri individual
    let nz := { nz with individualsToVariables := nz.individualsToVariables.insert named variable1 }
    return nz.pushBodyWork (nominalAtom named variable1)

def isSameIndividualAtom : SwrlAtom → Bool
  | .sameIndividualAtom _ _ => true
  | _ => false

def unifyAtom : SwrlAtom → Except Failure RuleNormalizerState
  | .sameIndividualAtom first second => nz.unify first second
  | _ => .ok nz

end RuleNormalizerState

namespace Normalizer

open RuleNormalizerState

variable (order : ExpressionOrder)

variable (s : Normalizer)

/-- The named class of a class atom; a new definition lies below the class of a head atom and
above the class of a body atom. -/
def rnVisitClass (pred : ClassExpr) (isPositive : Bool) : Except Failure (ClassExpr × Normalizer) :=
  let simplified := order.getSimplified (order.getNnf pred)
  if isClass simplified then .ok (simplified, s)
  else do
    let (definition, alreadyExists, s) ← s.getClassFor order pred
    if alreadyExists then return (.class definition, s)
    else if isPositive then
      return (.class definition, s.pushInclusion [order.negative (.class definition), pred])
    else return (.class definition, s.pushInclusion [order.negative pred, .class definition])

def isDataCombination : DataRangeExpr → Bool
  | .dataIntersectionOf _ => true
  | .dataUnionOf _ => true
  | _ => false

/-- The data range of a head atom that stands for a data range atom on either side. -/
def rnVisitDataRange (pred : DataRangeExpr) (isPositive : Bool) : DataRangeExpr × Normalizer :=
  let dr := order.positiveDr (if isPositive then pred else .dataComplementOf pred)
  if isDataCombination dr then
    match s.getDataDefinitionFor dr with
    | (definition, true, s) => (.datatype definition, s)
    | (definition, false, s) =>
      (.datatype definition, s.pushDataRangeInclusion [order.negativeDr (.datatype definition), dr])
  else (dr, s)

def rnVisitAtom (nz : RuleNormalizerState) (isPositive : Bool) :
    SwrlAtom → Except Failure (Normalizer × RuleNormalizerState)
  | .classAtom pred arg => do
    let (v, nz) ← nz.rnVariableFor arg
    let (c, s) ← s.rnVisitClass order pred isPositive
    return (s, nz.insertAt isPositive (.classAtom c (.variable v)))
  | .dataRangeAtom pred arg =>
    match arg with
    | .literal _ => .error (.error ("A SWRL rule contains a data range with an argument that is "
        ++ "not a literal, and such rules are not supported."))
    | .variable v =>
      let (dr, s) := s.rnVisitDataRange order pred isPositive
      let nz := nz.insertHead (.dataRangeAtom dr (.variable v))
      .ok (s, { nz with headDataRangeVariables := insertSet nz.headDataRangeVariables v })
  | .objectPropertyAtom pred first second => do
    -- an inverse property is visited with its arguments swapped
    let (p, first, second) := match pred with
      | .objectProperty p => (p, first, second)
      | .inverseObjectProperty p => (p, second, first)
    let (variable1, nz) ← nz.rnVariableFor first
    let (variable2, nz) ← nz.rnVariableFor second
    return (s, nz.insertAt isPositive
      (.objectPropertyAtom (.objectProperty p) (.variable variable1) (.variable variable2)))
  | .dataPropertyAtom pred subject value => do
    let (variable1, nz) ← nz.rnVariableFor subject
    match value with
    | .variable v2 =>
      let variable2 := nz.representative v2
      if isPositive then
        let nz := nz.insertHead (.dataPropertyAtom pred (.variable variable1) (.variable variable2))
        return (s, { nz with
          headDataRangeVariables := insertSet nz.headDataRangeVariables variable2 })
      else if variable2 ∉ nz.bodyDataRangeVariables then
        let nz := { nz with
          bodyDataRangeVariables := insertSet nz.bodyDataRangeVariables variable2 }
        return (s, nz.insertBody
          (.dataPropertyAtom pred (.variable variable1) (.variable variable2)))
      else
        let (fresh, nz) := nz.rnFreshVariable
        let nz := nz.insertBody (.dataPropertyAtom pred (.variable variable1) (.variable fresh))
        return (s, nz.insertHead
          (.differentIndividualsAtom (.variable variable2) (.variable fresh)))
    | .literal l =>
      let atom := .classAtom (.dataHasValue pred l) (.variable variable1)
      if isPositive then return (s, nz.pushHeadWork atom)
      else return (s, nz.pushBodyWork atom)
  | .sameIndividualAtom first second =>
    if isPositive then do
      let (v1, nz) ← nz.rnVariableFor first
      let (v2, nz) ← nz.rnVariableFor second
      return (s, nz.insertHead (.sameIndividualAtom (.variable v1) (.variable v2)))
    else .error (.error ("Internal error: this SWRLSameIndividualAtom should have been "
      ++ "processed earlier."))
  | .differentIndividualsAtom first second => do
    let (v1, nz) ← nz.rnVariableFor first
    let (v2, nz) ← nz.rnVariableFor second
    if isPositive then
      return (s, nz.insertHead (.differentIndividualsAtom (.variable v1) (.variable v2)))
    else return (s, nz.insertHead (.sameIndividualAtom (.variable v1) (.variable v2)))
  | .builtInAtom _ _ => .error (.error
      "A SWRL rule uses a built-in atom, but built-in atoms are not supported yet.")

/-- Visit the head atoms, those added on the way included. -/
def rnVisitHead : ℕ → Normalizer → RuleNormalizerState →
    Except Failure (Normalizer × RuleNormalizerState)
  | 0, _, _ => .error .outOfFuel
  | fuel + 1, s, nz =>
    match nz.headWork with
    | [] => .ok (s, nz)
    | atom :: rest => do
      let (s, nz) ← s.rnVisitAtom order { nz with headWork := rest } true atom
      rnVisitHead fuel s nz

/-- Visit the body atoms, those added on the way included. -/
def rnVisitBody : ℕ → Normalizer → RuleNormalizerState →
    Except Failure (Normalizer × RuleNormalizerState)
  | 0, _, _ => .error .outOfFuel
  | fuel + 1, s, nz =>
    match nz.bodyWork with
    | [] => .ok (s, nz)
    | atom :: rest => do
      let (s, nz) ← s.rnVisitAtom order { nz with bodyWork := rest } false atom
      rnVisitBody fuel s nz

/-- Normalise a rule with a single head atom. -/
def normalizeRule (fuel : ℕ) (s : Normalizer) (body : List SwrlAtom) (headAtom : SwrlAtom) :
    Except Failure Normalizer := do
  let start : RuleNormalizerState :=
    { bodyWork := body.filter (!isSameIndividualAtom ·), headWork := [headAtom] }
  let nz ← body.foldlM unifyAtom start
  let (s, nz) ← rnVisitHead order fuel s nz
  let (s, nz) ← rnVisitBody order fuel s nz
  if nz.headDataRangeVariables.all (· ∈ nz.bodyDataRangeVariables) then
    return { s with axioms := { s.axioms with
      rules := s.axioms.rules ++ [⟨nz.normalizedBodyAtoms, nz.normalizedHeadAtoms⟩] } }
  else throw (.error ("A SWRL rule contains data range variables in the head, but not "
    ++ "in the body, and this is not supported."))

def normalizeRules (fuel : ℕ) (s : Normalizer) : Except Failure Normalizer :=
  s.rules.foldlM (fun s (r : List SwrlAtom × List SwrlAtom) =>
    r.2.foldlM (fun s headAtom => s.normalizeRule order fuel r.1 headAtom) s) { s with rules := [] }

end Normalizer

end Hermit
