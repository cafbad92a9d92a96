import Hermit.Model.Predicate

/-! # The driver of the calculus

The saturation loop and the tests that read its answer.  The interrupt flag may be raised at
any moment; the calculus polls it at many places and latches what it finds.  What it does
between the polls is a parameter.
-/

namespace Hermit

inductive InterruptError where
  | interrupted | timeout
deriving DecidableEq, Repr

/-- A tableau as its driver sees it.  The answers of the interrupt flag are numbered by the polls.
-/
structure PolledTableau (σ : Type) where
  flag : ℕ → Option InterruptError
  polls : ℕ := 0
  pendingInterrupt : Option InterruptError := none
  rest : σ

/-- A computation on a tableau, without a result if it does not end. -/
abbrev TableauM (σ : Type) := StateT (PolledTableau σ) Option

variable {σ α β : Type}

namespace PolledTableau

/-- A poll between the two states found the flag raised. -/
def RaisedBetween (t t' : PolledTableau σ) : Prop :=
  ∃ k, t.polls ≤ k ∧ k < t'.polls ∧ t.flag k ≠ none

/-- Between the states the flag is polled any number of times, and the first interrupt is kept. -/
structure Latches (t t' : PolledTableau σ) : Prop where
  flag : t'.flag = t.flag
  polls : t.polls ≤ t'.polls
  pending : t'.pendingInterrupt = none ↔ t.pendingInterrupt = none ∧ ¬ t.RaisedBetween t'

end PolledTableau

namespace TableauM

def noteInterrupt : TableauM σ Unit := fun t =>
  match t.pendingInterrupt with
  | some _ => some ((), t)
  | none => some ((), { t with pendingInterrupt := t.flag t.polls, polls := t.polls + 1 })

def takePendingInterrupt : TableauM σ (Option InterruptError) := fun t =>
  some (t.pendingInterrupt, { t with pendingInterrupt := none })

def startTask : TableauM σ Unit := fun t => some ((), { t with pendingInterrupt := none })

/-- A computation that latches what it polls. -/
def Latching (x : TableauM σ α) : Prop := ∀ t a t', x t = some (a, t') → t.Latches t'

end TableauM

/-- A part of the calculus: it may poll the flag anywhere, and does nothing else with the latch. -/
abbrev Operation (σ α : Type) := { x : TableauM σ α // x.Latching }

/-- The parts of the tableau, its managers and its strategies that the driver and the tests call. -/
structure Calculus (σ : Type) where
  containsClash : σ → Bool
  aboxChoiceClash : σ → Bool
  isExact : σ → Bool
  checkUnknownDatatypeRestrictions : σ → Bool
  checkDatatypes : σ → Bool
  datatypeCheckNeeded : σ → Bool
  processAnnotatedEqualities : Operation σ Unit
  propagateDeltaNewAll : Operation σ Bool
  checkGraphConstraints : Operation σ Unit
  applyDlClauses : Operation σ Unit
  /-- The clauses of an additional ontology. -/
  applyAdditionalDlClauses : Option (Operation σ Unit)
  applyUnknownDatatypeRestrictionSemantics : Operation σ Unit
  checkDatatypeConstraints : Operation σ Unit
  expandExistentials : Operation σ Bool
  expandExistentialsFinalChance : Operation σ Bool
  processFirstGroundDisjunction : Operation σ Bool
  backtrackOnClash : Operation σ Bool
  existentialStrategyModelFound : Operation σ Unit
  cacheModelSignatures : Operation σ Unit
  hasNominals : Bool
  loadAbox : Operation σ Unit
  clear : σ → σ
  restoreAboxCheckpoint : σ → Option σ
  pushAboxCheckpoint : σ → σ
  freshTestNode : σ → ℕ × σ
  addConceptAssertion : LiteralConcept → ℕ → σ → σ

namespace Calculus

open TableauM

variable (C : Calculus σ)

/-! ## The driver -/

def clash : TableauM σ Bool := do return C.containsClash (← get).rest

/-- The operation, unless there is a clash. -/
def unlessClash (x : TableauM σ Unit) : TableauM σ Unit := do
  if ← C.clash then pure () else x

def triedUnlessClash (x : TableauM σ Bool) : TableauM σ Bool := do
  if ← C.clash then pure false else x

def whenSet (flag : σ → Bool) (x : TableauM σ Unit) : TableauM σ Unit := do
  let t ← get
  if flag t.rest then x else pure ()

def applyAdditional : TableauM σ Unit :=
  match C.applyAdditionalDlClauses with
  | some apply => C.unlessClash apply.1
  | none => pure ()

/-- One round after new facts have been propagated. -/
def round : TableauM σ Unit := do
  C.unlessClash C.checkGraphConstraints.1
  C.applyDlClauses.1
  C.applyAdditional
  whenSet C.checkUnknownDatatypeRestrictions
    (C.unlessClash C.applyUnknownDatatypeRestrictionSemantics.1)
  whenSet (fun t => C.checkDatatypes t && C.datatypeCheckNeeded t)
    (C.unlessClash C.checkDatatypeConstraints.1)
  C.unlessClash C.processAnnotatedEqualities.1

/-- Rounds while there are new facts and no clash; whether there was one. -/
def rounds : ℕ → TableauM σ Bool
  | 0 => failure
  | fuel + 1 => do
    let propagated ← C.propagateDeltaNewAll.1
    let clash ← C.clash
    if propagated && !clash then
      C.round
      let _ ← rounds fuel
      pure true
    else pure false

variable (fuel : ℕ)

def doIteration : TableauM σ Bool := do
  noteInterrupt
  let changed ← C.triedUnlessClash (do
    C.processAnnotatedEqualities.1
    C.rounds fuel)
  if changed then pure true
  else
    let expanded ← C.triedUnlessClash C.expandExistentials.1
    if expanded then pure true
    else
      let processed ← C.triedUnlessClash C.processFirstGroundDisjunction.1
      if processed then pure true
      else if ← C.clash then C.backtrackOnClash.1
      else pure false

/-- An iteration, and the final chance of the existentials if their expansion is not exact. -/
def iterate (exact : Bool) (fuel : ℕ) : TableauM σ Bool := do
  let worked ← C.doIteration fuel
  if !exact && !worked then C.triedUnlessClash C.expandExistentialsFinalChance.1 else pure worked

/-- Iterations until there is no work left or an interrupt is taken. -/
def saturate (exact : Bool) : ℕ → TableauM σ (Option InterruptError)
  | 0 => failure
  | fuel + 1 => do
    match ← takePendingInterrupt with
    | some e => pure (some e)
    | none =>
      let hasMoreWork ← C.iterate exact fuel
      if hasMoreWork then saturate exact fuel else pure none

/-- What a found model leaves behind, and the last poll. -/
def finish : TableauM σ Unit := do
  C.unlessClash (do
    C.existentialStrategyModelFound.1
    C.cacheModelSignatures.1)
  noteInterrupt

def runCalculus : TableauM σ (Except InterruptError Bool) := do
  startTask
  let exact := C.isExact (← get).rest
  match ← C.saturate exact fuel with
  | some e => pure (.error e)
  | none =>
    match ← takePendingInterrupt with
    | some e => pure (.error e)
    | none =>
      C.finish
      match ← takePendingInterrupt with
      | some e => pure (.error e)
      | none => return .ok !(← C.clash)

/-! ## Tests -/

/-- An interrupt is taken for the answer that there is no model. -/
def unwrapOrFalse : Except InterruptError Bool → Bool
  | .ok b => b
  | .error _ => false

def isConsistentChecked : TableauM σ (Except InterruptError Bool) := do
  C.loadAbox.1
  if ← C.clash then pure (.ok false) else C.runCalculus fuel

def isConsistent : TableauM σ Bool := unwrapOrFalse <$> C.isConsistentChecked fuel

/-- The answer that an incremental reasoner gives, and keeps until the next change. -/
def cachedIsConsistent (cached : Option Bool) : TableauM σ (Bool × Option Bool) :=
  match cached with
  | some consistent => pure (consistent, cached)
  | none => do
    let consistent ← C.isConsistent fuel
    pure (consistent, some consistent)

/-- Makes the tableau ready for a test; `false` when the ABox has no model.  The tableau is the
one of the last test or, if `reused` is `false`, a new one. -/
def checkoutTestTableau (reused : Bool) : TableauM σ Bool := do
  let clearTableau : TableauM σ Unit := modify fun t =>
    { t with rest := C.clear t.rest, pendingInterrupt := none }
  if C.hasNominals then
    let t ← get
    match if reused then C.restoreAboxCheckpoint t.rest else none with
    | some restored =>
      modify fun t => { t with rest := restored, pendingInterrupt := none }
      pure true
    | none =>
      if reused then clearTableau
      C.loadAbox.1
      if ← C.clash then pure false
      else
        match ← C.runCalculus fuel with
        | .ok true =>
          modify fun t => { t with rest := C.pushAboxCheckpoint t.rest }
          pure true
        | .ok false => pure false
        | .error _ =>
          clearTableau
          C.loadAbox.1
          pure true
  else
    if reused then clearTableau
    pure true

/-- Runs a test, and once more on a new ABox if the first run could not undo a choice. -/
def runTest (reused : Bool) (test : TableauM σ α) : TableauM σ (Option α) := do
  if ← C.checkoutTestTableau fuel reused then
    let result ← test
    if C.aboxChoiceClash (← get).rest then
      modify fun t => { t with rest := C.clear t.rest, pendingInterrupt := none }
      C.loadAbox.1
      if ← C.clash then pure none
      else
        let result ← test
        pure (some result)
    else pure (some result)
  else pure none

/-- Asserts the concepts on a new node. -/
def assertOnFreshNode (concepts : List LiteralConcept) : TableauM σ Unit :=
  modify fun t =>
    let (node, rest) := C.freshTestNode t.rest
    { t with rest := concepts.foldl (fun rest c => C.addConceptAssertion c node rest) rest }

/-- Whether the concepts have no model together; `none` from `runTest` counts as `true`. -/
def clashes (concepts : List LiteralConcept) : TableauM σ Bool := do
  C.assertOnFreshNode concepts
  if ← C.clash then pure true
  else return !unwrapOrFalse (← C.runCalculus fuel)

def atomicSubsumes (reused : Bool) (sub sup : AtomicConcept) : TableauM σ Bool :=
  if sub = sup then pure true
  else return (← C.runTest fuel reused
    (C.clashes fuel [.atomicConcept sub, sup.getNegation])).getD true

def atomicSubsumedByUnion (reused : Bool) (child : AtomicConcept)
    (candidates : List AtomicConcept) : TableauM σ Bool := do
  let concepts := .atomicConcept child :: candidates.map AtomicConcept.getNegation
  return (← C.runTest fuel reused (C.clashes fuel concepts)).getD true

/-- The root of a model of the concept is read off; `none` when there is no model. -/
def satisfiableRoot (reused : Bool) (concept : LiteralConcept) (readOff : PolledTableau σ → α) :
    TableauM σ (Option α) := do
  let found ← C.runTest fuel reused (do
    C.assertOnFreshNode [concept]
    if ← C.clash then pure none
    else if unwrapOrFalse (← C.runCalculus fuel) then return some (readOff (← get))
    else pure none)
  pure found.join

def atomicSatisfiable (reused : Bool) (element : AtomicConcept) : TableauM σ Bool := do
  return (← C.satisfiableRoot fuel reused (.atomicConcept element) fun _ => ()).isSome

end Calculus

end Hermit
