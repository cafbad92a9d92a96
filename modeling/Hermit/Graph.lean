import Hermit.Library.Worklist

/-! # Directed graphs with successor sets

Elements stand for themselves here; the source interns them, which cannot be
observed.  A set is a list without duplicates, and the order in which a hash set
or map is traversed is a parameter.
-/

namespace Hermit

/-- Some order for every traversal of a hash set, the traversals being numbered. -/
structure HashOrder (α : Type*) where
  arrange : ℕ → List α → List α
  perm : ∀ n l, (arrange n l).Perm l

/-- The order of insertion, whatever the traversal. -/
def HashOrder.insertion (α : Type*) : HashOrder α := ⟨fun _ l => l, fun _ _ => .refl _⟩

/-- Insert into a set. -/
def insertSet {α : Type*} [DecidableEq α] (l : List α) (x : α) : List α :=
  if x ∈ l then l else l ++ [x]

@[simp] theorem mem_insertSet {α : Type*} [DecidableEq α] (l : List α) (x y : α) :
    y ∈ insertSet l x ↔ y ∈ l ∨ y = x := by
  unfold insertSet
  split
  · constructor
    · exact .inl
    · rintro (h | rfl) <;> assumption
  · simp

theorem mem_foldl_insertSet {α : Type*} [DecidableEq α] (l s : List α) (x : α) :
    x ∈ l.foldl insertSet s ↔ x ∈ s ∨ x ∈ l := by
  induction l generalizing s with
  | nil => simp
  | cons a l ih => simp [ih, or_assoc]

theorem nodup_foldl_insertSet {α : Type*} [DecidableEq α] (l s : List α) (hs : s.Nodup) :
    (l.foldl insertSet s).Nodup := by
  induction l generalizing s with
  | nil => exact hs
  | cons a l ih =>
    apply ih
    unfold insertSet
    split
    · exact hs
    · exact List.nodup_append.mpr ⟨hs, by simp, by simp; grind⟩

structure Graph (α : Type*) where
  elements : List α
  successors : AList fun _ : α => List α

namespace Graph

variable {α : Type*} [DecidableEq α]

def empty : Graph α := ⟨[], ∅⟩

variable (g : Graph α)

def getSuccessors (node : α) : List α := (g.successors.lookup node).getD []

def addEdge (source target : α) : Graph α where
  elements := insertSet (insertSet g.elements source) target
  successors := g.successors.insert source (insertSet (g.getSuccessors source) target)

/-- Remove a single edge; a node keeps its entry when its last successor goes. -/
def removeEdge (node successor : α) : Graph α :=
  match g.successors.lookup node with
  | none => g
  | some targets => { g with successors := g.successors.insert node (targets.erase successor) }

/-- The edges, source by source. -/
def edges : List (α × α) :=
  g.successors.entries.flatMap fun entry => entry.2.map fun target => (entry.1, target)

/-- A copy drops the entries without successors. -/
def clone : Graph α :=
  g.edges.foldl (fun copy e => copy.addEdge e.1 e.2) ⟨g.elements, ∅⟩

/-- Replace the successors of `key` by everything reachable from it. -/
def closeKey (key : α) : Graph α :=
  { g with successors :=
      g.successors.insert key (Worklist.reachPush g.getSuccessors g.elements (g.getSuccessors key))
        }

/-- Close the nodes one after the other, in some order. -/
def transitivelyClose (order : HashOrder α) (g : Graph α) : Graph α :=
  (order.arrange 0 g.successors.keys).foldl closeKey g

end Graph

end Hermit
