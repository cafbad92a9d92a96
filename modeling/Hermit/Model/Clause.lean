import Hermit.Graph
import Hermit.Model.Predicate

/-! # DL clauses -/

namespace Hermit

/-- A body, read as a conjunction, and a head, read as a disjunction. -/
structure DLClause where
  headAtoms : List Atom
  bodyAtoms : List Atom
deriving DecidableEq

namespace DLClause

/-- The variables of the head that the body does not bind; for the empty clause `X`. -/
def unsafeVariables (c : DLClause) : List Variable :=
  let inHead := (c.headAtoms.flatMap Atom.variables).foldl insertSet []
  let unbound := (c.bodyAtoms.flatMap Atom.variables).foldl List.erase inHead
  if c.headAtoms = [] ∧ c.bodyAtoms = [] then insertSet unbound ⟨"X"⟩ else unbound

/-- Bind every unsafe variable by a unary body atom, in the order of a hash set. -/
def getSafeVersion (order : HashOrder Variable) (traversal : ℕ) (safeMakingPredicate : DLPredicate)
    (h : safeMakingPredicate.arity = 1) (c : DLClause) : DLClause :=
  if c.unsafeVariables = [] then c
  else
    { c with
      bodyAtoms := c.bodyAtoms ++ (order.arrange traversal c.unsafeVariables).map fun v =>
        ⟨safeMakingPredicate, [.variable v], h⟩ }

theorem mem_foldl_erase {α : Type*} [DecidableEq α] (l s : List α) (hs : s.Nodup) (x : α) :
    x ∈ l.foldl List.erase s ↔ x ∈ s ∧ x ∉ l := by
  induction l generalizing s with
  | nil => simp
  | cons a l ih => simp [ih _ (hs.erase a), hs.mem_erase_iff]; tauto

theorem mem_unsafeVariables (c : DLClause) (v : Variable) : v ∈ c.unsafeVariables ↔
      ((∃ a ∈ c.headAtoms, v ∈ a.variables) ∧ ∀ a ∈ c.bodyAtoms, v ∉ a.variables) ∨
        (c.headAtoms = [] ∧ c.bodyAtoms = [] ∧ v = ⟨"X"⟩) := by
  have hmem : v ∈ (c.bodyAtoms.flatMap Atom.variables).foldl List.erase
        ((c.headAtoms.flatMap Atom.variables).foldl insertSet []) ↔
      (∃ a ∈ c.headAtoms, v ∈ a.variables) ∧ ∀ a ∈ c.bodyAtoms, v ∉ a.variables := by
    rw [mem_foldl_erase _ _ (nodup_foldl_insertSet _ _ List.nodup_nil), mem_foldl_insertSet]
    simp
  unfold unsafeVariables
  split
  · rename_i h
    rw [mem_insertSet, hmem]
    simp [h]
  · rename_i h
    rw [hmem, or_iff_left]
    intro hv
    exact h ⟨hv.1, hv.2.1⟩

end DLClause

end Hermit
