import Hermit.Library.Exploration
import Hermit.Library.Worklist

/-! # Automata over code points

Transitions are labelled by intervals of code points, and there are ε transitions.  The
vectors of the source with one entry for each state are one list of states here, and its
sets of states are finite sets.
-/

namespace Hermit

/-- The largest code point. -/
def maxCp : ℕ := 0x10FFFF

structure CharTransition where
  min : ℕ
  max : ℕ
  target : ℕ
deriving DecidableEq, Repr

structure CharState where
  trans : List CharTransition := []
  eps : List ℕ := []
  accept : Bool := false
deriving DecidableEq, Repr

def CharState.shift (offset : ℕ) (s : CharState) : CharState where
  trans := s.trans.map fun t => { t with target := t.target + offset }
  eps := s.eps.map (· + offset)
  accept := s.accept

/-- An automaton; its states are the positions in the list. -/
structure StringAutomaton where
  start : ℕ
  states : List CharState
deriving DecidableEq, Repr

namespace StringAutomaton

open Exploration

variable (a other : StringAutomaton)

def stateAt (s : ℕ) : CharState := a.states[s]?.getD {}

def trans (s : ℕ) : List CharTransition := (a.stateAt s).trans

def eps (s : ℕ) : List ℕ := (a.stateAt s).eps

def accept (s : ℕ) : Bool := (a.stateAt s).accept

def size : ℕ := a.states.length

/-! ## Simple languages -/

def emptyLanguage : StringAutomaton := ⟨0, [{}]⟩

def epsilon : StringAutomaton := ⟨0, [{ accept := true }]⟩

def ranges (intervals : List (ℕ × ℕ)) : StringAutomaton :=
  let proper := intervals.filter fun i => i.1 ≤ i.2
  ⟨0, [{ trans := proper.map fun i => ⟨i.1, i.2, 1⟩ }, { accept := !proper.isEmpty }]⟩

def charRange (min max : ℕ) : StringAutomaton := ranges [(min, max)]

def char (c : ℕ) : StringAutomaton := charRange c c

/-! ## Regular operations -/

/-- Append the states of the other automaton, renumbered. -/
def appendStates : StringAutomaton :=
  { a with states := a.states ++ other.states.map (CharState.shift a.size) }

/-- An ε transition from one state to another; the first may cease to accept. -/
def link (clear : Bool) (target : ℕ) (a : StringAutomaton) (s : ℕ) : StringAutomaton :=
  { a with states := a.states.modify s fun st =>
      { st with eps := st.eps ++ [target], accept := st.accept && !clear } }

def finals : List ℕ := (List.range a.size).filter a.accept

def concatenate : StringAutomaton :=
  a.finals.foldl (link true (other.start + a.size)) (a.appendStates other)

def union : StringAutomaton :=
  let both := a.appendStates other
  { start := both.size
    states := both.states ++ [{ eps := [a.start, other.start + a.size] }] }

def «repeat» : StringAutomaton :=
  let loop := a.finals.foldl (link false a.start) a
  { start := a.size
    states := loop.states ++ [{ eps := [a.start], accept := true }] }

/-- One more copy behind the accepting states of the copies so far. -/
def addCopy (min : ℕ) (r : StringAutomaton × List ℕ) (copy : ℕ) : StringAutomaton × List ℕ :=
  (r.2.foldl (link (decide (copy < min)) (a.start + r.1.size)) (r.1.appendStates a),
    a.finals.map (· + r.1.size))

/-- Between `min` and `max` repetitions. -/
def repeatRange (min max : ℕ) : StringAutomaton :=
  if max < min then emptyLanguage
  else ((List.range max).foldl (a.addCopy min) (epsilon, [epsilon.start])).1

def repeatMin (min : ℕ) : StringAutomaton := (a.repeatRange min min).concatenate a.repeat

def optional : StringAutomaton := a.union epsilon

def epsClosure (states : Finset ℕ) : Finset ℕ :=
  (Worklist.reachPush a.eps (List.range a.size) (states.sort (· ≤ ·))).toFinset

/-- The targets of the transitions whose intervals contain the given one. -/
def moves (states : Finset ℕ) (lo hi : ℕ) : Finset ℕ :=
  states.biUnion fun s =>
    (((a.trans s).filter fun t => t.min ≤ lo && hi ≤ t.max).map (·.target)).toFinset

def accepts (states : Finset ℕ) : Bool := (states.sort (· ≤ ·)).any a.accept

def runFrom (current : Finset ℕ) : List ℕ → Bool
  | [] => a.accepts current
  | c :: w =>
    let current := a.epsClosure (a.moves current c c)
    if current = ∅ then false else runFrom current w

def run (w : List ℕ) : Bool := a.runFrom (a.epsClosure {a.start}) w

/-- The points at which the transitions from a set of states may change. -/
def points (states : Finset ℕ) : Finset ℕ :=
  states.biUnion fun s =>
    ((a.trans s).flatMap fun t => t.min :: if t.max < maxCp then [t.max + 1] else []).toFinset

/-- The intervals from each point to the next, the last one up to the largest code point. -/
def elementary : List ℕ → List (ℕ × ℕ)
  | [] => []
  | [p] => [(p, maxCp)]
  | p :: q :: ps => (p, q - 1) :: elementary (q :: ps)

def subsetEdges (states : Finset ℕ) : List ((ℕ × ℕ) × Finset ℕ) :=
  (elementary ((a.points states).sort (· ≤ ·))).filterMap fun i =>
    let target := a.moves states i.1 i.2
    if target = ∅ then none else some (i, a.epsClosure target)

/-- A state for every key, with the transitions of its row. -/
def ofNumbering {κ : Type} (accept : κ → Bool) (n : Numbering κ (ℕ × ℕ)) : StringAutomaton where
  start := 0
  states := List.zipWith
    (fun k row => { trans := row.map fun e => ⟨e.1.1, e.1.2, e.2⟩, accept := accept k })
    n.keys n.rows

def determinize : StringAutomaton :=
  ofNumbering a.accepts (explore a.subsetEdges (2 ^ a.size) ⟨[a.epsClosure {a.start}], []⟩)

/-! ## Boolean operations -/

def pairEdges (p : ℕ × ℕ) : List ((ℕ × ℕ) × (ℕ × ℕ)) :=
  (a.trans p.1).flatMap fun ta => (other.trans p.2).filterMap fun tb =>
    let lo := max ta.min tb.min
    let hi := min ta.max tb.max
    if hi < lo then none else some ((lo, hi), (ta.target, tb.target))

def intersection : StringAutomaton :=
  let da := a.determinize
  let db := other.determinize
  ofNumbering (fun p => da.accept p.1 && db.accept p.2)
    (explore (da.pairEdges db) (da.size * db.size) ⟨[(da.start, db.start)], []⟩)

/-- The gaps between the intervals of sorted transitions, as transitions to the sink. -/
def gaps (sink : ℕ) : ℕ → List CharTransition → List CharTransition
  | next, [] => if next ≤ maxCp then [⟨next, maxCp, sink⟩] else []
  | next, t :: ts =>
    (if next < t.min then [⟨next, t.min - 1, sink⟩] else []) ++ gaps sink (t.max + 1) ts

def complete (sink : ℕ) (s : CharState) : CharState :=
  { s with
    trans := s.trans ++ gaps sink 0 (s.trans.insertionSort fun t u => t.min ≤ u.min)
    accept := !s.accept }

def complement : StringAutomaton :=
  let dfa := a.determinize
  { dfa with
    states := dfa.states.map (complete dfa.size) ++
      [{ trans := [⟨0, maxCp, dfa.size⟩], accept := true }] }

def minus : StringAutomaton := a.intersection other.complement

def successors (s : ℕ) : List ℕ := (a.trans s).map (·.target) ++ a.eps s

def isEmpty : Bool :=
  !(Worklist.reachPush a.successors (List.range a.size)
    ((a.epsClosure {a.start}).sort (· ≤ ·))).any a.accept

end StringAutomaton

end Hermit
