import Hermit.Owl.Syntax
import Hermit.Library.Sorted
import Hermit.Library.Worklist

/-! # Automata over object property expressions

A state is its position in the list of states and a transition without a label is
an ε transition.  The operations are those the role automata are built with:
reversal, determinisation by subsets, minimisation, the mirror image that also
inverts the labels, and splicing one automaton into another.
-/

namespace Hermit

/-- Named properties before inverses, then by IRI. -/
def labelOrderKey : ObjectPropExpr → ℕ × Iri
  | .objectProperty p => (0, p)
  | .inverseObjectProperty p => (1, p)

/-- The lexicographic order of the keys. -/
def labelLE (a b : ObjectPropExpr) : Prop :=
  (labelOrderKey a).1 < (labelOrderKey b).1 ∨
    ((labelOrderKey a).1 = (labelOrderKey b).1 ∧ (labelOrderKey a).2 ≤ (labelOrderKey b).2)

instance : DecidableRel labelLE := fun _ _ => inferInstanceAs (Decidable (_ ∨ _))

structure Transition where
  start : ℕ
  label : Option ObjectPropExpr
  stop : ℕ
deriving DecidableEq, Repr

structure StateData where
  initial : Bool
  terminal : Bool
deriving DecidableEq, Repr

structure Automaton where
  states : List StateData
  transitions : List Transition
deriving DecidableEq, Repr

namespace Automaton

/-- The most subsets a determinisation builds before it gives up. -/
def maxDeterministicStates : ℕ := 4096

def empty : Automaton := ⟨[], []⟩

variable (a : Automaton)

/-- Add a state; its number is the length of the list before. -/
def addState (initial terminal : Bool) : Automaton :=
  { a with states := a.states ++ [⟨initial, terminal⟩] }

/-- Add a transition that is not there yet. -/
def addTransition (start : ℕ) (label : Option ObjectPropExpr) (stop : ℕ) : Automaton :=
  if ⟨start, label, stop⟩ ∈ a.transitions then a
  else { a with transitions := a.transitions ++ [⟨start, label, stop⟩] }

def isInitial (s : ℕ) : Bool := (a.states[s]?.map (·.initial)).getD false

def isTerminal (s : ℕ) : Bool := (a.states[s]?.map (·.terminal)).getD false

def initials : List ℕ := (List.range a.states.length).filter a.isInitial

def terminals : List ℕ := (List.range a.states.length).filter a.isTerminal

/-- The first initial state.  The source indexes the list; the automata it is called on
have exactly one. -/
def initialState : ℕ := a.initials.headD 0

/-- The first terminal state, as `initialState`. -/
def finalState : ℕ := a.terminals.headD 0

/-- The labels of the transitions in label order, each once. -/
def labels : List ObjectPropExpr := sortDedup labelLE (a.transitions.filterMap (·.label))

/-- The automaton of the reversed words. -/
def reversed : Automaton :=
  a.transitions.foldl (fun r t => r.addTransition t.stop t.label t.start)
    ⟨a.states.map fun s => ⟨s.terminal, s.initial⟩, []⟩

/-! ## Determinisation -/

/-- The ends of the transitions out of `s` that carry `label`. -/
def successors (label : Option ObjectPropExpr) (s : ℕ) : List ℕ :=
  a.transitions.filterMap fun t => if t.start = s ∧ t.label = label then some t.stop else none

/-- The states reachable by ε transitions, as an ordered set. -/
def closure (seed : List ℕ) : List ℕ :=
  sortDedup (· ≤ ·) (Worklist.reachPop (a.successors none) (List.range a.states.length) seed)

def accepting (subset : List ℕ) : Bool := subset.any a.isTerminal

/-- The subsets found so far, each numbered by its position, and the automaton over them. -/
structure Subsets where
  subsets : List (List ℕ)
  result : Automaton

/-- The states that `label` leads to from a subset. -/
def seedOf (subset : List ℕ) (label : ObjectPropExpr) : List ℕ :=
  subset.flatMap (a.successors (some label))

/-- Follow one label out of the subset numbered `source`. -/
def followLabel (source : ℕ) (subset : List ℕ) (found : Subsets) (label : ObjectPropExpr) :
    Option Subsets :=
  if (a.seedOf subset label).isEmpty then some found
  else
    match found.subsets.idxOf? (a.closure (a.seedOf subset label)) with
    | some number =>
      some { found with result := found.result.addTransition source (some label) number }
    | none =>
      if found.subsets.length ≥ maxDeterministicStates then none
      else some
        { subsets := found.subsets ++ [a.closure (a.seedOf subset label)]
          result := (found.result.addState false
            (a.accepting (a.closure (a.seedOf subset label)))).addTransition source
              (some label) found.subsets.length }

/-- Process the subsets in the order they were found, starting with number `source`. -/
def followSubsets (labels : List ObjectPropExpr) : ℕ → ℕ → Subsets → Option Automaton
  | 0, _, found => some found.result
  | fuel + 1, source, found =>
    match found.subsets[source]? with
    | none => some found.result
    | some subset =>
      match labels.foldlM (a.followLabel source subset) found with
      | none => none
      | some found' => followSubsets labels fuel (source + 1) found'

/-- The ε-free deterministic automaton of the same language, or `none` when more than
`maxDeterministicStates` subsets arise.  One round for each subset is enough fuel. -/
def determinized (labels : List ObjectPropExpr) : Option Automaton :=
  a.followSubsets labels maxDeterministicStates 0
    ⟨[a.closure a.initials], empty.addState true (a.accepting (a.closure a.initials))⟩

/-- The state is no longer terminal. -/
def clearTerminal (s : ℕ) : Automaton :=
  { a with states := a.states.modify s fun d => { d with terminal := false } }

/-- The automaton with exactly one terminal state: its own, or a fresh one that every former
terminal state reaches by an ε transition. -/
def normalized : Automaton :=
  if a.terminals.length ≠ 1 then
    a.terminals.foldl (fun b s => (b.clearTerminal s).addTransition s none a.states.length)
      (a.addState false true)
  else a

/-- The minimal deterministic automaton of the language, brought to one terminal state; the
automaton itself when the determinisation gives up. -/
def minimized : Automaton :=
  match a.reversed.determinized a.labels with
  | none => a
  | some r =>
    match r.reversed.determinized a.labels with
    | none => a
    | some minimal => minimal.normalized

/-- The automaton of the reversed words with every letter inverted. -/
def mirroredCopy : Automaton :=
  a.transitions.foldl (fun r t => r.addTransition t.stop (t.label.map inverseProperty) t.start)
    ⟨a.states.map fun s => ⟨s.terminal, s.initial⟩, []⟩

/-- Copy the states of `other` behind those of `a`, with neither flag, and its transitions. -/
def disjointUnion (other : Automaton) : Automaton :=
  other.transitions.foldl
    (fun r t => r.addTransition (a.states.length + t.start) t.label (a.states.length + t.stop))
    { a with states := a.states ++ other.states.map fun _ => ⟨false, false⟩ }

end Automaton

/-- Splice `smaller` into `bigger` between `source` and `target` by ε transitions. -/
def automataConnector (bigger smaller : Automaton) (source target : ℕ) : Automaton :=
  ((bigger.disjointUnion smaller).addTransition source none
      (bigger.states.length + smaller.initialState)).addTransition
    (bigger.states.length + smaller.finalState) none target

end Hermit
