import Mathlib

/-! # When an at-least restriction is satisfied

The expansion counts the successors of a node that can serve as witnesses of a
restriction and looks for enough of them that are pairwise unequal.  A number
that is not positive needs none.
-/

namespace Hermit.Tableau

open List

inductive SatType where
  | notSatisfied
  | permanentlySatisfied
  | currentlySatisfied
deriving DecidableEq

/-- What the expansion reads of the tableau: the successors along the role in the order of the
retrieval, which of them hold the filler, which cannot be merged away, and the inequalities. -/
structure Successors (Node : Type*) where
  successors : List Node
  candidate : Node → Bool
  isPermanentSatisfier : Node → Bool
  containsInequality : Node → Node → Bool

variable {Node : Type*} (view : Successors Node)

/-- Whether nodes can be added to the selected ones, all pairwise unequal, up to the cardinality. -/
def containsSubsetOfNUnequalNodes (cardinality : ℕ) : List Node → List Node → Bool
  | [], selected => selected.length = cardinality
  | node :: nodes, selected =>
    selected.length = cardinality || ((selected.all fun s => view.containsInequality node s) &&
        containsSubsetOfNUnequalNodes cardinality nodes (selected ++ [node])) ||
      containsSubsetOfNUnequalNodes cardinality nodes selected

def atLeastSatType (cardinality : ℤ) : SatType :=
  if cardinality ≤ 0 then .permanentlySatisfied
  else if cardinality = 1 then
    match view.successors.find? view.candidate with
    | some s => if view.isPermanentSatisfier s then .permanentlySatisfied else .currentlySatisfied
    | none => .notSatisfied
  else
    let satisfiers := view.successors.filter view.candidate
    if cardinality.toNat ≤ satisfiers.length &&
        containsSubsetOfNUnequalNodes view cardinality.toNat satisfiers [] then
      if satisfiers.all view.isPermanentSatisfier then .permanentlySatisfied
        else .currentlySatisfied
    else .notSatisfied

/-- As many successors as the number says hold the filler and are pairwise unequal. -/
def HasWitnesses (number : ℕ) : Prop :=
  ∃ witnesses : List Node, witnesses.Sublist view.successors ∧ witnesses.length = number ∧
    (∀ s ∈ witnesses, view.candidate s = true) ∧
    witnesses.Pairwise fun s t => view.containsInequality t s = true

theorem exists_of_containsSubset {cardinality : ℕ} {nodes selected : List Node}
    (h : containsSubsetOfNUnequalNodes view cardinality nodes selected = true)
    (hselected : selected.Pairwise fun s t => view.containsInequality t s = true) :
    ∃ more, more.Sublist nodes ∧ (selected ++ more).length = cardinality ∧
      (selected ++ more).Pairwise fun s t => view.containsInequality t s = true := by
  induction nodes generalizing selected with
  | nil =>
    refine ⟨[], .slnil, ?_, by rwa [append_nil]⟩
    rw [append_nil]
    simpa [containsSubsetOfNUnequalNodes] using h
  | cons node nodes ih =>
    simp only [containsSubsetOfNUnequalNodes, Bool.or_eq_true, Bool.and_eq_true, decide_eq_true_eq,
      all_eq_true] at h
    rcases h with (hfull | ⟨hunequal, htake⟩) | hskip
    · exact ⟨[], nil_sublist _, by rwa [append_nil], by rwa [append_nil]⟩
    · have hpw : (selected ++ [node]).Pairwise fun s t =>
        view.containsInequality t s = true := by
        rw [pairwise_append]
        refine ⟨hselected, pairwise_singleton _ _, fun s hs t ht => ?_⟩
        rw [mem_singleton.mp ht]
        exact hunequal s hs
      obtain ⟨more, hmore, hlen, hall⟩ := ih htake hpw
      rw [append_assoc, singleton_append] at hlen hall
      exact ⟨node :: more, hmore.cons_cons node, hlen, hall⟩
    · obtain ⟨more, hmore, hlen, hall⟩ := ih hskip hselected
      exact ⟨more, hmore.cons node, hlen, hall⟩

/-- A restriction with a positive number is satisfied by witnesses only. -/
theorem hasWitnesses_of_satType {cardinality : ℤ} (hpos : 1 ≤ cardinality)
    (h : atLeastSatType view cardinality ≠ .notSatisfied) :
    HasWitnesses view cardinality.toNat := by
  rw [atLeastSatType, if_neg (by omega)] at h
  by_cases hone : cardinality = 1
  · rw [if_pos hone] at h
    obtain rfl := hone
    cases hfind : view.successors.find? view.candidate with
    | none =>
      rw [hfind] at h
      exact absurd rfl h
    | some s =>
      refine ⟨[s], singleton_sublist.mpr (mem_of_find?_eq_some hfind), rfl, ?_,
        pairwise_singleton _ _⟩
      intro t ht
      rw [mem_singleton.mp ht]
      exact find?_some hfind
  · rw [if_neg hone] at h
    by_cases hcount : (cardinality.toNat ≤ (view.successors.filter view.candidate).length &&
        containsSubsetOfNUnequalNodes view cardinality.toNat
          (view.successors.filter view.candidate) []) = true
    · obtain ⟨witnesses, hsubl, hlen, hpw⟩ :=
        exists_of_containsSubset view ((Bool.and_eq_true _ _).mp hcount).2 List.Pairwise.nil
      exact ⟨witnesses, hsubl.trans filter_sublist, hlen,
        fun s hs => (mem_filter.mp (hsubl.subset hs)).2, hpw⟩
    · exact absurd (if_neg hcount) h

end Hermit.Tableau
