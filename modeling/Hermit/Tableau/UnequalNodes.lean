import Hermit.Datalog.Tableau
import Hermit.Library.Selection

/-! # Choosing unequal nodes

An at-least restriction with a number above one is satisfied by so many successors that are
pairwise unequal.  An inequality is stored in one direction and holds in both, so both tuples are
looked up.  The search extends a buffer of selected nodes and takes the last one back.
-/

namespace Hermit

open List Option Library

section search

variable (rawKey : DLPredicate → Fin (2 ^ 61)) (ternaryExtensionTable : ExtensionTable 3)

def inequalityTuple (a b : NodeId) : Fin 3 → TableauObject :=
  ![predicateToStoredLabel rawKey .inequality, .node a, .node b]

def containsInequality (a b : NodeId) : Option Bool := do
  let ab ← ternaryExtensionTable.getTupleIndex (inequalityTuple rawKey a b)
  if ab.isSome then return true
  else
    let ba ← ternaryExtensionTable.getTupleIndex (inequalityTuple rawKey b a)
    return ba.isSome

/-- The inner loop; it goes on with the next node at the first selected node that is not unequal. -/
def unequalToSelected (node : NodeId) : List NodeId → Option Bool
  | [] => some true
  | selectedNode :: selected => do
    if ← containsInequality rawKey ternaryExtensionTable node selectedNode
      then unequalToSelected node selected
    else return false

/-- The outer loop over the nodes that are left; the buffer is returned as it then is. -/
def selectUnequalNodes (cardinality : ℕ) : List NodeId → List NodeId → Option (Bool × List NodeId)
  | [], selected => some (false, selected)
  | node :: nodes, selected => do
    if ← unequalToSelected rawKey ternaryExtensionTable node selected then
      let selected := selected ++ [node]
      let (found, selected) ←
        if selected.length = cardinality then some (true, selected)
        else selectUnequalNodes cardinality nodes selected
      if found then return (true, selected)
      else selectUnequalNodes cardinality nodes selected.dropLast
    else selectUnequalNodes cardinality nodes selected

def containsSubsetOfNUnequalNodes (nodes : List NodeId) (startAt : ℕ) (selected : List NodeId)
    (cardinality : ℕ) :
    Option (Bool × List NodeId) :=
  if selected.length = cardinality then some (true, selected)
  else selectUnequalNodes rawKey ternaryExtensionTable cardinality (nodes.drop startAt) selected

/-- An inequality of the nodes is stored in one direction at least. -/
def StoredUnequal (a b : NodeId) : Prop :=
  inequalityTuple rawKey a b ∈ ternaryExtensionTable.tuples ∨
    inequalityTuple rawKey b a ∈ ternaryExtensionTable.tuples

end search

/-! ## The search finds what there is -/

section correctness

variable {rawKey : DLPredicate → Fin (2 ^ 61)} {x : ExtensionTable 3} {R : NodeId → NodeId → Bool}

section

variable {n : ℕ} (hx : ExtensionTable.Reachable .ternary n x)
include hx

theorem getTupleIndex_ternary (t : Fin 3 → TableauObject) :
    ∃ r, x.getTupleIndex t = some r ∧ (r.isSome = true ↔ t ∈ x.tuples) :=
  hx.consistent.getTupleIndex_spec (ExtensionTable.indexingSequences_ne_nil .ternary) t

theorem containsInequality_spec (a b : NodeId) :
    ∃ found, containsInequality rawKey x a b = some found ∧
    (found = true ↔ StoredUnequal rawKey x a b) := by
  obtain ⟨ab, hab, hst⟩ := getTupleIndex_ternary hx (inequalityTuple rawKey a b)
  obtain ⟨ba, hba, hst'⟩ := getTupleIndex_ternary hx (inequalityTuple rawKey b a)
  rw [containsInequality, hab]
  cases hfnd : ab.isSome with
  | true =>
    refine ⟨true, ?_, fun _ => .inl (hst.mp hfnd), fun _ => rfl⟩
    rw [bind_eq_bind, bind_some, if_pos hfnd]
    rfl
  | false =>
    refine ⟨ba.isSome, ?_, ?_⟩
    · rw [bind_eq_bind, bind_some, if_neg (by rw [hfnd]; exact Bool.false_ne_true), hba]
      rfl
    · rw [hst', StoredUnequal, or_iff_right]
      intro h
      rw [hst.mpr h] at hfnd
      cases hfnd

end

section

variable (hR : ∀ a b, containsInequality rawKey x a b = some (R a b))
include hR

theorem unequalToSelected_eq (node : NodeId) (selected : List NodeId) :
    unequalToSelected rawKey x node selected = some (selected.all (R node)) := by
  induction selected with
  | nil => rfl
  | cons selectedNode selected ih =>
    rw [unequalToSelected, hR, all_cons]
    cases R node selectedNode with
    | true => exact ih
    | false => rfl

theorem selectUnequalNodes_eq (cardinality : ℕ) (nodes selected : List NodeId) :
    selectUnequalNodes rawKey x cardinality nodes selected =
      some (selectFrom R cardinality nodes selected) := by
  induction nodes generalizing selected with
  | nil => rfl
  | cons node nodes ih =>
    rw [selectUnequalNodes, selectFrom, unequalToSelected_eq hR, bind_eq_bind, bind_some]
    cases selected.all (R node) with
    | false => exact ih selected
    | true =>
      by_cases hcount : (selected ++ [node]).length = cardinality
      · simp [hcount]
      · simp only [hcount, ih]
        cases hfnd : (selectFrom R cardinality nodes (selected ++ [node])).1 <;> simp [hfnd]

end

/-- The nodes of a list, each once, that belong to a set. -/
theorem exists_completes_iff {nodes : List NodeId} (hnd : nodes.Nodup)
    (hsymm : ∀ a b, R a b = R b a)
    (cardinality : ℕ) : (∃ chosen, Library.Completes R cardinality nodes [] chosen) ↔
      ∃ chosen : Finset NodeId, (∀ node ∈ chosen, node ∈ nodes) ∧ chosen.card = cardinality ∧
        (chosen : Set NodeId).Pairwise fun a b => R a b = true := by
  constructor
  · rintro ⟨chosen, hch⟩
    have hdist := hnd.sublist hch.sublist
    refine ⟨chosen.toFinset, fun node hnode => ?_, ?_, ?_⟩
    · exact hch.sublist.subset (List.mem_toFinset.mp hnode)
    · rw [toFinset_card_of_nodup hdist]
      exact (Nat.zero_add _).symm.trans hch.length
    · rw [coe_toFinset]
      have : Std.Symm fun a b => R b a = true := ⟨fun a b h => (hsymm a b).trans h⟩
      refine hch.pairwise.set_pairwise.mono' fun a b h => ?_
      exact (hsymm a b).trans h
  · rintro ⟨chosen, hsub, hcard, hpw⟩
    have hmem : ∀ node, node ∈ nodes.filter (· ∈ chosen) ↔ node ∈ chosen := by
      intro node
      rw [mem_filter, decide_eq_true_eq]
      exact ⟨And.right, fun h => ⟨hsub node h, h⟩⟩
    have hdist := hnd.filter (· ∈ chosen)
    refine ⟨nodes.filter (· ∈ chosen), filter_sublist, ?_, fun _ _ _ h => absurd h not_mem_nil, ?_⟩
    · rw [length_nil, Nat.zero_add, ← hcard, ← toFinset_card_of_nodup hdist]
      congr 1
      ext node
      rw [List.mem_toFinset, hmem]
    · refine hdist.imp_of_mem fun {a b} ha hb hne => ?_
      exact hpw ((hmem b).mp hb) ((hmem a).mp ha) hne.symm

end correctness

/-- The search over distinct nodes finds a number of them just if that many are pairwise unequal, by
an inequality stored in one direction at least; otherwise it leaves the buffer empty. -/
theorem containsSubsetOfNUnequalNodes_iff (rawKey : DLPredicate → Fin (2 ^ 61)) (level : ℕ)
    (x : ExtensionTable 3)
    (hx : ExtensionTable.Reachable .ternary level x) (nodes : List NodeId) (hnd : nodes.Nodup)
    (cardinality : ℕ) :
    ∃ found selected, containsSubsetOfNUnequalNodes rawKey x nodes 0 [] cardinality = some
    (found, selected) ∧ (found = true ↔ ∃ chosen : Finset NodeId, (∀ node ∈ chosen, node ∈ nodes) ∧
        chosen.card = cardinality ∧ (chosen : Set NodeId).Pairwise (StoredUnequal rawKey x)) ∧
      (found = false → selected = []) := by
  have hfnd : ∀ a b, ∃ found, containsInequality rawKey x a b = some found ∧
      (found = true ↔ StoredUnequal rawKey x a b) := containsInequality_spec hx
  choose R hR hiff using hfnd
  have hsymm : ∀ a b, R a b = R b a := by
    intro a b
    rw [Bool.eq_iff_iff, hiff, hiff]
    exact or_comm
  have hst : (fun a b => R a b = true) = StoredUnequal rawKey x := by
    funext a b
    exact propext (hiff a b)
  have hchoice := exists_completes_iff hnd hsymm cardinality
  rw [hst] at hchoice
  rw [containsSubsetOfNUnequalNodes, drop_zero]
  by_cases hzero : ([] : List NodeId).length = cardinality
  · refine ⟨true, [], by rw [if_pos hzero], ⟨fun _ => ⟨∅, ?_, ?_, ?_⟩, fun _ => rfl⟩, nofun⟩
    · exact fun node hnode => absurd hnode (Finset.notMem_empty node)
    · exact Finset.card_empty.trans hzero
    · rw [Finset.coe_empty]
      exact Set.pairwise_empty _
  · rw [if_neg hzero, selectUnequalNodes_eq hR]
    have hlt : ([] : List NodeId).length < cardinality := by
      rw [length_nil] at hzero ⊢
      omega
    obtain ⟨hfnd, hbuffer⟩ : ((selectFrom R cardinality nodes []).1 = true ↔
        ∃ chosen, Library.Completes R cardinality nodes [] chosen) ∧
          ((selectFrom R cardinality nodes []).1 = false →
            (selectFrom R cardinality nodes []).2 = []) :=
      selectFrom_spec hlt
    exact ⟨_, _, rfl, hfnd.trans hchoice, hbuffer⟩

/-- The inequality of the nodes 2 and 1 is stored in the direction that is looked up last. -/
theorem containsSubsetOfNUnequalNodes_iff_pair : ∃ x : ExtensionTable 3,
    ExtensionTable.Reachable .ternary 0 x ∧
    ∃ chosen : Finset NodeId, (∀ node ∈ chosen, node ∈ [1, 2]) ∧ chosen.card = 2 ∧
      (chosen : Set NodeId).Pairwise (StoredUnequal (fun _ => 0) x) := by
  have hrun : (ExtensionTable.newTernaryExtensionTable.storeTuple
    (inequalityTuple (fun _ => 0) 2 1)).bind (fun stored =>
      containsSubsetOfNUnequalNodes (fun _ => 0) stored.2 [1, 2] 0 [] 2) = some (true, [1, 2]) :=
        by decide +kernel
  obtain ⟨stored, hst, hrun⟩ := bind_eq_some_iff.mp hrun
  have hnodes : ExtensionTable.NodeColumns (inequalityTuple (fun _ => 0) 2 1) := by
    intro column hcol
    fin_cases column
    · exact absurd rfl hcol
    · exact ⟨2, rfl⟩
    · exact ⟨1, rfl⟩
  have hx : ExtensionTable.Reachable .ternary 0 stored.2 := .store .new hnodes hst
  obtain ⟨found, selected, hsearch, hfnd, -⟩ :=
    containsSubsetOfNUnequalNodes_iff (fun _ => 0) 0 stored.2 hx [1, 2] (by decide) 2
  rw [hrun] at hsearch
  cases hsearch
  exact ⟨stored.2, hx, hfnd.mp rfl⟩

end Hermit
