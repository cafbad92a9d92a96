import Hermit.Datatypes.DistinctAssignment
import Hermit.Datatypes.ValueSpace
import Hermit.Library.Exploration

/-! # Deciding a component of data nodes

Nodes of a component must take values of their spaces, adjacent nodes different ones.  A clique
with one space is decided by its count.  Otherwise edges between disjoint datatypes go, nodes
with more values than neighbours go one after the other, and the spaces of the rest are listed.
What is left falls into parts without edges between them: a clique is decided by a matching and
any other part by backtracking.
-/

namespace Hermit.Datatypes

open Exploration Library

/-- An infinite space, or a finite one with its count and perhaps its values.  Counts are 128 bits
wide. -/
inductive NodeValueSpace (Value : Type) where
  | infinite
  | finite (count : Fin (2 ^ 128)) (values : Option (List Value))

/-- The nodes of a component.  `materialize` lists a space of at most so many values. -/
structure Component (n : ℕ) (Value : Type) where
  spaces : Fin n → NodeValueSpace Value
  adjacency : Fin n → List (Fin n)
  mostSpecific : Fin n → Option Datatype
  representative : Fin n → ℕ
  materialize : Fin n → ℕ → Option (List Value)

/-- The largest finite space that is listed in advance. -/
def maxEnumeratedValues : ℕ := 4096

/-- A count as a machine word: the high half is lost. -/
def asUsize (count : Fin (2 ^ 128)) : ℕ := count.val % 2 ^ 64

variable {Value : Type} [DecidableEq Value] {n : ℕ}

/-! ## Cliques with one space -/

/-- Whether two spaces are known to be equal.  Spaces that are not listed are not compared. -/
def nodeValueSpacesEqual : NodeValueSpace Value → NodeValueSpace Value → Bool
  | .infinite, .infinite => true
  | .finite count values, .finite count' values' =>
    if count ≠ count' then false
    else
      match values, values' with
      | some vs, some vs' =>
        vs.length = vs'.length && ((vs.zip vs').all (fun p => p.1 = p.2) ||
          (vs.all (fun v => vs'.any fun v' => v = v') && vs'.all fun v' => vs.any fun v => v = v'))
      | _, _ => false
  | _, _ => false

namespace Component

variable (x : Component n Value)

def isClique : Bool := (List.finRange n).all fun i => (x.adjacency i).length = n - 1

def sameRestrictions : Bool := (List.finRange n).all fun i => x.representative i = 0

def sameValueSpace (x : Component (n + 1) Value) : Bool :=
  x.sameRestrictions || (List.finRange (n + 1)).all fun i =>
      i = 0 || nodeValueSpacesEqual (x.spaces 0) (x.spaces i)

/-! ## Elimination -/

def disjoint (i j : Fin n) : Bool :=
  match x.mostSpecific i, x.mostSpecific j with
  | some d, some d' => datatypesDisjoint d d'
  | _, _ => false

/-- The edges that are left when those between disjoint datatypes go. -/
def trimmed (i : Fin n) : List (Fin n) := (x.adjacency i).filter fun j => !x.disjoint i j

/-- Whether a node has more values than neighbours. -/
def enough (i : Fin n) (degree : ℕ) : Bool :=
  match x.spaces i with
  | .infinite => true
  | .finite count _ => degree < asUsize count

end Component

/-- The nodes that are left, how many neighbours each has among them, and those to look at.  The
last to be pushed comes first. -/
structure Elimination (n : ℕ) where
  alive : Fin n → Bool
  degree : Fin n → ℕ
  queue : List (Fin n)

namespace Elimination

/-- A neighbour of a node that goes has one neighbour less and is looked at again. -/
def loseNeighbour (s : Elimination n) (j : Fin n) : Elimination n :=
  if s.alive j then
    { s with
      degree := Function.update s.degree j (s.degree j - 1)
      queue := if j ∈ s.queue then s.queue else j :: s.queue }
  else s

def remove (adjacency : Fin n → List (Fin n)) (i : Fin n) (s : Elimination n) : Elimination n :=
  (adjacency i).foldl loseNeighbour { s with alive := Function.update s.alive i false }

/-- Remove nodes that have enough values, until none is left to look at. -/
def eliminate (adjacency : Fin n → List (Fin n)) (enough : Fin n → ℕ → Bool) :
    ℕ → Elimination n → Option (Elimination n)
  | 0, s => if s.queue = [] then some s else none
  | fuel + 1, s =>
    match s.queue with
    | [] => some s
    | i :: queue =>
      if s.alive i && enough i (s.degree i) then eliminate adjacency enough fuel
        (remove adjacency i { s with queue })
      else eliminate adjacency enough fuel { s with queue }

/-- Steps enough: the queue has no repetition, and is filled again only when a node goes. -/
def fuel (n : ℕ) : ℕ := (n + 1) * (n + 1)

def survivors (s : Elimination n) : List (Fin n) := (List.finRange n).filter fun i => s.alive i

end Elimination

/-- The lists of the survivors; nodes with one representative share one.  An empty list is a
clash, and a space that cannot be listed ends the test without one. -/
def Component.enumerate (x : Component n Value) :
    List (Fin n) → List (ℕ × List Value) → (Fin n → Option (List Value)) →
      Except Bool (Fin n → Option (List Value))
  | [], _, explicit => .ok explicit
  | i :: survivors, listed, explicit =>
    match listed.lookup (x.representative i) with
    | some values => enumerate x survivors listed (Function.update explicit i (some values))
    | none =>
      match x.spaces i with
      | .finite _ (some values) =>
        enumerate x survivors ((x.representative i, values) :: listed)
          (Function.update explicit i (some values))
      | .finite _ none =>
        match x.materialize i (max n maxEnumeratedValues) with
        | some [] => .error true
        | some values =>
          enumerate x survivors ((x.representative i, values) :: listed)
            (Function.update explicit i (some values))
        | none => .error false
      | .infinite => .error false

/-- The numbers of values, in the order in which they are met. -/
def numberValues (known : List Value) : List Value → List ℕ × List Value
  | [] => ([], known)
  | v :: vs =>
    let known := number known v
    let (ids, known') := numberValues known vs
    (known.idxOf v :: ids, known')

def numberSets (known : List Value) : List (List Value) → List (List ℕ) × List Value
  | [] => ([], known)
  | vs :: sets =>
    let (ids, known) := numberValues known vs
    let (rest, known) := numberSets known sets
    (ids :: rest, known)

/-! ## Parts -/

section parts

variable {m : ℕ} (candidateIds : Fin m → List ℕ) (radjacent : Fin m → List (Fin m)) (valueCount : ℕ)

/-- Mark a node and add it to the members, unless it is marked. -/
def meet (root : Fin m) (s : (Fin m → Option (Fin m)) × List (Fin m)) (nb : Fin m) :
    (Fin m → Option (Fin m)) × List (Fin m) :=
  if s.1 nb = none then (Function.update s.1 nb (some root), s.2 ++ [nb]) else s

/-- The part of a node, breadth first. -/
def gather (root : Fin m) : ℕ → (Fin m → Option (Fin m)) → List (Fin m) → List (Fin m) →
    Option ((Fin m → Option (Fin m)) × List (Fin m))
  | _, component, done, [] => some (component, done)
  | 0, _, _, _ :: _ => none
  | fuel + 1, component, done, k :: pending =>
    let (component, pending) := (radjacent k).foldl (meet root) (component, pending)
    gather root fuel component (done ++ [k]) pending

def isCliquePart (members : List (Fin m)) : Bool :=
  members.all fun k => ((radjacent k).filter fun nb => nb ≠ k).dedup.length = members.length - 1

/-- Backtracking: each node in turn takes a value that none of its neighbours has. -/
def search : List (Fin m) → (Fin m → Option ℕ) → Bool
  | [], _ => true
  | k :: order, chosen =>
    let taken := (radjacent k).filterMap fun nb => (chosen nb).bind fun v => (candidateIds nb)[v]?
    (List.range (candidateIds k).length).any fun v =>
      (candidateIds k)[v]?.any (fun id => id ∉ taken) &&
        search order (Function.update chosen k (some v))

def partSatisfiable (members : List (Fin m)) : Option Bool :=
  if isCliquePart radjacent members then
    hasDistinctAssignment (fun k : Fin members.length => candidateIds (members.get k)) valueCount
  else
    let order := members.mergeSort fun k k' => (candidateIds k).length ≤ (candidateIds k').length
    some (search candidateIds radjacent order fun _ => none)

/-- Whether some part has no assignment. -/
def someUnsatisfiable : List (Fin m) → (Fin m → Option (Fin m)) → Option Bool
  | [], _ => some false
  | root :: roots, component =>
    if component root ≠ none then someUnsatisfiable roots component
    else do
      let (component, members) ← gather radjacent root m
        (Function.update component root (some root)) [] [root]
      if ← partSatisfiable candidateIds radjacent valueCount members
        then someUnsatisfiable roots component
      else return true

end parts

/-- Decide the survivors by their positions. -/
def decideSurvivors (adjacency : Fin n → List (Fin n)) (survivors : List (Fin n))
    (explicit : Fin n → Option (List Value)) : Option Bool :=
  let (candidateIds, known) := numberSets [] (survivors.map fun i => (explicit i).getD [])
  let radjacent := fun k : Fin survivors.length =>
    (adjacency (survivors.get k)).filterMap fun j => survivors.finIdxOf? j
  someUnsatisfiable (fun k => candidateIds.getD k []) radjacent known.length
    (List.finRange survivors.length)
    fun _ => none

def Component.afterElimination (x : Component n Value) (s : Elimination n) : Option Bool :=
  if s.survivors = [] then some false
  else
    match x.enumerate s.survivors [] fun _ => none with
    | .error clash => some clash
    | .ok explicit => do
      let enough := fun (i : Fin n) degree => decide (degree < ((explicit i).getD []).length)
      let s ← Elimination.eliminate x.trimmed enough (Elimination.fuel n)
        { s with queue := s.survivors.reverse }
      if s.survivors = [] then return false else decideSurvivors x.trimmed s.survivors explicit

def Component.byElimination (x : Component n Value) : Option Bool := do
  let s ← Elimination.eliminate x.trimmed x.enough (Elimination.fuel n)
    ⟨fun _ => true, fun i => (x.trimmed i).length, (List.finRange n).reverse⟩
  x.afterElimination s

/-- Whether no assignment of values to the nodes gives adjacent nodes different ones. -/
def componentIsUnsatisfiable : {n : ℕ} → Component n Value → Option Bool
  | 0, _ => some false
  | n + 1, x =>
    if x.isClique && x.sameValueSpace then
      match x.spaces 0 with
      | .finite count _ => some (asUsize count < n + 1)
      | .infinite => some false
    else x.byElimination

end Hermit.Datatypes
