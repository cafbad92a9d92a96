import Hermit.Tableau.GraphOccurrences

/-! # Backtracking of description graphs

What a step adds to the graphs goes away when a branching point is backtracked to that was there
before it.  So a property that steps keep also holds of every state that can still be returned to.
-/

namespace Hermit

open DescriptionGraphManager List Function

/-! ## Checkpoints -/

/-- The lengths that the branching points below a level remember of something that only grows. -/
structure Checkpoints (level : ℕ) (saved : ℕ → ℕ) (length : ℕ) : Prop where
  le : ∀ k < level, saved k ≤ length
  mono : ∀ j k, j ≤ k → k < level → saved j ≤ saved k

namespace Checkpoints

variable {level length : ℕ} {saved : ℕ → ℕ}

theorem grow (h : Checkpoints level saved length) {length' : ℕ} (hle : length ≤ length') :
    Checkpoints level saved length' :=
  ⟨fun k hk => (h.le k hk).trans hle, h.mono⟩

theorem push (h : Checkpoints level saved length) {saved' : ℕ → ℕ} (hlev : saved' level = length)
    (hblw : ∀ k < level, saved' k = saved k) : Checkpoints (level + 1) saved' length := by
  have hle : ∀ k < level + 1, saved' k ≤ length := by
    intro k hk
    rcases Nat.lt_succ_iff_lt_or_eq.mp hk with hk | rfl
    · rw [hblw k hk]
      exact h.le k hk
    · exact hlev.le
  constructor
  · exact hle
  · intro j k hjk hk
    rcases Nat.lt_succ_iff_lt_or_eq.mp hk with hk | rfl
    · rw [hblw k hk, hblw j (by omega)]
      exact h.mono j k hjk hk
    · rw [hlev]
      exact hle j (by omega)

theorem back (h : Checkpoints level saved length) {k : ℕ} (hk : k < level) :
    Checkpoints (k + 1) saved (saved k) :=
  ⟨fun j hj => h.mono j k (by omega) hk, fun i j hij hj => h.mono i j hij (by omega)⟩

end Checkpoints

/-! ## Removed tuples -/

namespace GraphTable

theorem removedCount_store (x : GraphTable) (tuple : List ℕ) (marks : Watermarks) {level : ℕ}
    (h : (x.indicesByBranchingPoint level).afterDeltaNew ≤ x.tuples.length) (node : ℕ) :
    removedCount { x with tuples := x.tuples ++ [tuple], marks := marks } level node =
      x.removedCount level node + tuple.count node := by
  simp only [removedCount, List.drop_append_of_le_length h, List.flatten_append, List.count_append,
    List.flatten_cons, List.flatten_nil, List.append_nil]

theorem removedCount_backtrack (x : GraphTable) {j k : ℕ}
    (hjk : (x.indicesByBranchingPoint j).afterDeltaNew ≤
      (x.indicesByBranchingPoint k).afterDeltaNew)
    (hk : (x.indicesByBranchingPoint k).afterDeltaNew ≤ x.tuples.length) (node : ℕ) :
    (x.backtrack k).2.removedCount j node + x.removedCount k node = x.removedCount j node := by
  have hlen : (x.indicesByBranchingPoint j).afterDeltaNew ≤
      (x.tuples.take (x.indicesByBranchingPoint k).afterDeltaNew).length := by
    rw [List.length_take]
    omega
  have hspl : x.tuples.drop (x.indicesByBranchingPoint j).afterDeltaNew =
      (x.tuples.take (x.indicesByBranchingPoint k).afterDeltaNew).drop
        (x.indicesByBranchingPoint j).afterDeltaNew ++
        x.tuples.drop (x.indicesByBranchingPoint k).afterDeltaNew := by
    rw [← List.drop_append_of_le_length hlen, List.take_append_drop]
  simp only [removedCount, backtrack, hspl, List.flatten_append, List.count_append]

end GraphTable

namespace DescriptionGraphManager

variable {m : DescriptionGraphManager} {tables : List GraphTable}

theorem removedCount_set {g level node c : ℕ} {x x' : GraphTable}
    (hg : tables[g]? = some x) (h : x'.removedCount level node = x.removedCount level node + c) :
    removedCount (tables.set g x') level node = removedCount tables level node + c := by
  induction tables generalizing g with
  | nil => cases hg
  | cons y tables ih =>
    cases g with
    | zero =>
      cases hg
      simp only [List.set_cons_zero, removedCount, List.map_cons, List.sum_cons, h]
      omega
    | succ g =>
      have hrest := ih hg
      simp only [removedCount] at hrest
      simp only [List.set_cons_succ, removedCount, List.map_cons, List.sum_cons, hrest]
      omega

variable {j k : ℕ}

theorem ext_backtrack {m' : DescriptionGraphManager}
    (ht : m'.tables.map (fun x => (x.backtrack j).2) = m.tables.map fun x => (x.backtrack k).2)
    (ho : ∀ node, (m'.occurrences node).drop (removedCount m'.tables j node) =
      (m.occurrences node).drop (removedCount m.tables k node)) :
    m'.backtrack j = m.backtrack k := by
  have hoccs : (m'.backtrack j).occurrences = (m.backtrack k).occurrences := by
    funext node
    rw [backtrack_occurrences_apply, backtrack_occurrences_apply]
    exact ho node
  simp only [backtrack] at hoccs
  simp only [backtrack, ht, hoccs]

/-- A tuple that is stored after a branching point goes away with it. -/
theorem backtrack_addTuple (h : ∀ x ∈ m.tables,
      (x.indicesByBranchingPoint k).afterDeltaNew ≤ x.tuples.length) (g : ℕ)
    (tuple : List ℕ) : (m.addTuple g tuple).backtrack k = m.backtrack k := by
  rcases addTuple_cases m g tuple with ⟨heq, -⟩ | ⟨x, hg, -, heq⟩
  · rw [heq]
  · have hx := h x (List.mem_of_getElem? hg)
    have hlt : g < m.tables.length := (List.getElem?_eq_some_iff.mp hg).1
    have hget : m.tables[g] = x := (List.getElem?_eq_some_iff.mp hg).2
    rw [heq]
    apply ext_backtrack
    · rw [List.map_set]
      simp only [GraphTable.backtrack, List.take_append_of_le_length hx]
      apply List.ext_getElem (by simp)
      intro i hi hi'
      rw [List.getElem_set]
      split_ifs with hgi
      · subst hgi
        simp [hget]
      · rfl
    · intro node
      dsimp only
      rw [removedCount_set hg (x.removedCount_store tuple _ hx node), pushOccurrences_apply,
          Nat.add_comm,
        ← length_tupleOccurrences g x.tuples.length tuple node, ← List.drop_drop, List.drop_left]

theorem backtrack_propagateDeltaNew (k : ℕ) : m.propagateDeltaNew.2.backtrack k =
    m.backtrack k := by
  apply ext_backtrack
  · simp [propagateDeltaNew, GraphTable.propagateDeltaNew, GraphTable.backtrack, Function.comp_def]
  · intro node
    have hcount : removedCount m.propagateDeltaNew.2.tables k node =
        removedCount m.tables k node := by
      rw [propagateDeltaNew, removedCount, List.map_map]
      rfl
    rw [hcount]
    rfl

theorem removedCount_backtrack (h : ∀ x ∈ tables, (x.indicesByBranchingPoint j).afterDeltaNew ≤
      (x.indicesByBranchingPoint k).afterDeltaNew ∧
      (x.indicesByBranchingPoint k).afterDeltaNew ≤ x.tuples.length) (node : ℕ) :
    removedCount (tables.map fun x => (x.backtrack k).2) j node + removedCount tables k node =
      removedCount tables j node := by
  induction tables with
  | nil => rfl
  | cons x tables ih =>
    have hx := h x List.mem_cons_self
    have hfst := x.removedCount_backtrack hx.1 hx.2 node
    have hrest := ih fun y hy => h y (List.mem_cons_of_mem _ hy)
    simp only [removedCount] at hrest
    simp only [removedCount, List.map_cons, List.sum_cons]
    omega

/-- An earlier branching point is reached as well by way of a later one. -/
theorem backtrack_backtrack (h : ∀ x ∈ m.tables, (x.indicesByBranchingPoint j).afterDeltaNew ≤
      (x.indicesByBranchingPoint k).afterDeltaNew ∧
      (x.indicesByBranchingPoint k).afterDeltaNew ≤ x.tuples.length) :
    (m.backtrack k).backtrack j = m.backtrack j := by
  apply ext_backtrack
  · simp only [backtrack, List.map_map]
    apply List.map_congr_left
    intro x hx
    simp [GraphTable.backtrack, List.take_take, (h x hx).1]
  · intro node
    rw [backtrack_occurrences_apply, List.drop_drop, Nat.add_comm]
    congr 1
    exact removedCount_backtrack h node

end DescriptionGraphManager

/-! ## Steps -/

namespace GraphTableau

variable {merging : Merging} {s s' s'' : GraphTableau}

/-- The branching points remember prefixes of what is there. -/
structure Bounded (s : GraphTableau) : Prop where
  full : ∀ x ∈ s.manager.tables, x.marks.afterDeltaNew = x.tuples.length
  tuples : ∀ x ∈ s.manager.tables,
    Checkpoints s.level (fun k => (x.indicesByBranchingPoint k).afterDeltaNew) x.tuples.length
  mergedOrPruned : Checkpoints s.level (fun k => (s.branchingPoints k).lastMergedOrPrunedNode)
    s.mergedOrPruned.length
  parents : Checkpoints s.level (fun k => (s.branchingPoints k).lastTableauNode) s.parents.length

/-- A step that the branching points of before undo. -/
structure Extends (s s' : GraphTableau) : Prop where
  level_eq : s'.level = s.level
  branchingPoints_eq : s'.branchingPoints = s.branchingPoints
  bounded : s.Bounded → s'.Bounded
  backtrackTo_eq : s.Bounded → ∀ k < s.level, s'.backtrackTo k = s.backtrackTo k

theorem Extends.refl (s : GraphTableau) : Extends s s := ⟨rfl, rfl, id, fun _ _ _ => rfl⟩

theorem Extends.trans (h : Extends s s') (h' : Extends s' s'') : Extends s s'' where
  level_eq := h'.level_eq.trans h.level_eq
  branchingPoints_eq := h'.branchingPoints_eq.trans h.branchingPoints_eq
  bounded hs := h'.bounded (h.bounded hs)
  backtrackTo_eq hs k hk :=
    (h'.backtrackTo_eq (h.bounded hs) k (h.level_eq ▸ hk)).trans (h.backtrackTo_eq hs k hk)

theorem extends_createNode (s : GraphTableau) (parent : Option ℕ) :
    Extends s (s.createNode parent) where
  level_eq := rfl
  branchingPoints_eq := rfl
  bounded hs := ⟨hs.full, hs.tuples, hs.mergedOrPruned, hs.parents.grow (by simp [createNode])⟩
  backtrackTo_eq hs k hk := by
    have hle := hs.parents.le k hk
    simp only [backtrackTo, createNode, List.take_append_of_le_length hle]

theorem extends_addTuple (s : GraphTableau) (g : ℕ) (tuple : List ℕ) :
    Extends s { s with manager := s.manager.addTuple g tuple } where
  level_eq := rfl
  branchingPoints_eq := rfl
  bounded hs := by
    rcases addTuple_cases s.manager g tuple with ⟨heq, -⟩ | ⟨x, hg, -, heq⟩
    · simp only [heq]
      exact hs
    · have hx := List.mem_of_getElem? hg
      constructor
      · simp only [heq]
        intro y hy
        rcases List.mem_or_eq_of_mem_set hy with hy | rfl
        · exact hs.full y hy
        · simp
      · simp only [heq]
        intro y hy
        rcases List.mem_or_eq_of_mem_set hy with hy | rfl
        · exact hs.tuples y hy
        · exact (hs.tuples x hx).grow (by simp)
      · exact hs.mergedOrPruned
      · exact hs.parents
  backtrackTo_eq hs k hk := by
    have hle : ∀ x ∈ s.manager.tables, (x.indicesByBranchingPoint k).afterDeltaNew ≤
      x.tuples.length :=
      fun x hx => (hs.tuples x hx).le k hk
    simp only [backtrackTo, backtrack_addTuple hle]

theorem extends_propagateDeltaNew (s : GraphTableau) :
    Extends s { s with manager := s.manager.propagateDeltaNew.2 } where
  level_eq := rfl
  branchingPoints_eq := rfl
  bounded hs := by
    constructor
    · intro x hx
      obtain ⟨y, -, rfl⟩ := List.mem_map.mp hx
      rfl
    · intro x hx
      obtain ⟨y, hy, rfl⟩ := List.mem_map.mp hx
      exact hs.tuples y hy
    · exact hs.mergedOrPruned
    · exact hs.parents
  backtrackTo_eq _ k _ := by
    simp only [backtrackTo, backtrack_propagateDeltaNew]

/-- A state in which some more nodes have gone away, and that may have a clash. -/
def Shrinks (s s' : GraphTableau) : Prop :=
  ∃ removed clash, s' = { s with
    mergedOrPruned := removed ++ s.mergedOrPruned
    clash := s.clash || clash }

namespace Shrinks

theorem refl (s : GraphTableau) : Shrinks s s := ⟨[], false, by simp⟩

variable (h : Shrinks s s')
include h

theorem trans (h' : Shrinks s' s'') : Shrinks s s'' := by
  obtain ⟨removed, clash, rfl⟩ := h
  obtain ⟨removed', clash', rfl⟩ := h'
  exact ⟨removed' ++ removed, clash || clash', by simp [Bool.or_assoc]⟩

theorem toExtends : Extends s s' := by
  obtain ⟨removed, clash, rfl⟩ := h
  constructor
  · rfl
  · rfl
  · exact fun hs => ⟨hs.full, hs.tuples, hs.mergedOrPruned.grow (by simp), hs.parents⟩
  · intro hs k hk
    have hle := hs.mergedOrPruned.le k hk
    have hdrop : (removed ++ s.mergedOrPruned).drop ((removed ++ s.mergedOrPruned).length -
        (s.branchingPoints k).lastMergedOrPrunedNode) =
        s.mergedOrPruned.drop (s.mergedOrPruned.length - (s.branchingPoints
          k).lastMergedOrPrunedNode) := by
      have hlen :
        (removed ++ s.mergedOrPruned).length - (s.branchingPoints k).lastMergedOrPrunedNode =
          removed.length +
            (s.mergedOrPruned.length - (s.branchingPoints k).lastMergedOrPrunedNode) := by
        rw [List.length_append]
        omega
      rw [hlen, ← List.drop_drop, List.drop_left]
    simp only [backtrackTo, hdrop]

theorem manager_eq : s'.manager = s.manager := by
  obtain ⟨removed, clash, rfl⟩ := h
  rfl

theorem withManager (m : DescriptionGraphManager) :
    Shrinks { s with manager := m } { s' with manager := m } := by
  obtain ⟨removed, clash, rfl⟩ := h
  exact ⟨removed, clash, rfl⟩

end Shrinks

theorem shrinks_pruneSuccessors (s : GraphTableau) (node : ℕ) :
    Shrinks s (s.pruneSuccessors node) := by
  apply List.foldlRecOn (motive := Shrinks s)
  · exact Shrinks.refl s
  · intro s' hs' current _
    split_ifs
    · exact hs'.trans ⟨[(current, none)], false, by simp [pruneNode]⟩
    · exact hs'

theorem clash_pruneSuccessors (s : GraphTableau) (node : ℕ) :
    (s.pruneSuccessors node).clash = s.clash := by
  apply List.foldlRecOn (motive := fun s' : GraphTableau => s'.clash = s.clash)
  · rfl
  · intro s' hs' current _
    split_ifs <;> exact hs'

theorem manager_mergeGraphs (s : GraphTableau) (mergeFrom mergeInto : ℕ) :
    s.mergeGraphs mergeFrom mergeInto =
    { s with manager := (s.mergeGraphs mergeFrom mergeInto).manager } := by
  rw [mergeGraphs]
  split_ifs <;> rfl

theorem chooseMergeDirection_cases (merging : Merging) (s : GraphTableau) (node0 node1 : ℕ) :
    s.chooseMergeDirection merging node0 node1 = (node0, node1) ∨
      s.chooseMergeDirection merging node0 node1 = (node1, node0) := by
  unfold chooseMergeDirection
  split_ifs
  · exact .inl rfl
  · exact .inr rfl

/-- A merge that goes through: the descendants are pruned, the tuples rewritten, and the node goes.
-/
theorem mergeNodes_cases (merging : Merging) (s : GraphTableau) (node0 node1 : ℕ) :
    s.mergeNodes merging node0 node1 = s ∧ (s.isActive node0 → s.isActive node1 → node0 = node1) ∨
      ∃ mergeFrom mergeInto,
        s.chooseMergeDirection merging node0 node1 = (mergeFrom, mergeInto) ∧ s.isActive mergeFrom ∧
        s.isActive mergeInto ∧ mergeFrom ≠ mergeInto ∧
        s.mergeNodes merging node0 node1 = { s.pruneSuccessors mergeFrom with
          manager := ((s.pruneSuccessors mergeFrom).mergeGraphs mergeFrom mergeInto).manager
          mergedOrPruned := (mergeFrom, some mergeInto) ::
            (s.pruneSuccessors mergeFrom).mergedOrPruned
          clash := s.clash || merging.copyClashes s mergeFrom mergeInto } := by
  by_cases hidle : (!s.isActive node0 || !s.isActive node1 || node0 == node1) = true
  · refine .inl ⟨by rw [mergeNodes, if_pos hidle], fun h0 h1 => ?_⟩
    simpa [h0, h1] using hidle
  · obtain ⟨mergeFrom, mergeInto, hdir⟩ : ∃ a b,
      s.chooseMergeDirection merging node0 node1 = (a, b) :=
      ⟨_, _, rfl⟩
    have hmerge : s.mergeNodes merging node0 node1 = { s.pruneSuccessors mergeFrom with
        manager := ((s.pruneSuccessors mergeFrom).mergeGraphs mergeFrom mergeInto).manager
        mergedOrPruned := (mergeFrom, some mergeInto) ::
          (s.pruneSuccessors mergeFrom).mergedOrPruned
        clash := s.clash || merging.copyClashes s mergeFrom mergeInto } := by
      rw [mergeNodes, if_neg hidle, hdir]
      dsimp only
      rw [manager_mergeGraphs]
      rfl
    simp only [Bool.or_eq_true, Bool.not_eq_true', beq_iff_eq, not_or, Bool.not_eq_false] at hidle
    obtain ⟨⟨h0, h1⟩, hne⟩ := hidle
    refine .inr ⟨mergeFrom, mergeInto, hdir, ?_⟩
    rcases chooseMergeDirection_cases merging s node0 node1 with h | h <;> cases hdir.symm.trans h
    · exact ⟨h0, h1, hne, hmerge⟩
    · exact ⟨h1, h0, Ne.symm hne, hmerge⟩

theorem foldl_addTuple_extends (tuples : List (ℕ × List ℕ)) (s : GraphTableau) :
    Extends s { s with manager := tuples.foldl (fun m t => m.addTuple t.1 t.2) s.manager } := by
  induction tuples generalizing s with
  | nil => exact Extends.refl s
  | cons t tuples ih => exact (extends_addTuple s t.1 t.2).trans (ih _)

theorem extends_mergeGraphs (s : GraphTableau) (mergeFrom mergeInto : ℕ) :
    Extends s (s.mergeGraphs mergeFrom mergeInto) := by
  rw [mergeGraphs]
  split_ifs
  · exact foldl_addTuple_extends _ s
  · exact Extends.refl s

theorem extends_mergeNodes (s : GraphTableau) (node0 node1 : ℕ) :
    Extends s (s.mergeNodes merging node0 node1) := by
  rcases mergeNodes_cases merging s node0 node1 with ⟨heq, -⟩ | ⟨a, b, -, -, -, -, heq⟩
  · rw [heq]
    exact Extends.refl s
  · have hprn := (shrinks_pruneSuccessors s a).toExtends
    have hgs := extends_mergeGraphs (s.pruneSuccessors a) a b
    have hlast : Shrinks ((s.pruneSuccessors a).mergeGraphs a b)
        (s.mergeNodes merging node0 node1) := by
      refine ⟨[(a, some b)], merging.copyClashes s a b, ?_⟩
      rw [heq, manager_mergeGraphs]
      simp only [clash_pruneSuccessors]
      rfl
    exact (hprn.trans hgs).trans hlast.toExtends

/-- Without graphs a merge takes nodes away and nothing else. -/
theorem shrinks_mergeNodes (hs : s.manager.hasDescriptionGraphs = false) (node0 node1 : ℕ) :
    Shrinks s (s.mergeNodes merging node0 node1) := by
  rcases mergeNodes_cases merging s node0 node1 with ⟨heq, -⟩ | ⟨a, b, -, -, -, -, heq⟩
  · rw [heq]
    exact Shrinks.refl s
  · obtain ⟨removed, clash, hprn⟩ := shrinks_pruneSuccessors s a
    have hgs : (s.pruneSuccessors a).mergeGraphs a b = s.pruneSuccessors a := by
      rw [mergeGraphs, (shrinks_pruneSuccessors s a).manager_eq, hs]
      rfl
    refine ⟨(a, some b) :: removed, merging.copyClashes s a b, ?_⟩
    rw [heq, hgs, hprn]
    rfl

/-! ## Checks -/

/-- The merges of the nodes at the same positions. -/
def mergePairs (merging : Merging) (s : GraphTableau) (pairs : List (ℕ × ℕ)) : GraphTableau :=
  pairs.foldr (fun nodes s => if nodes.1 ≠ nodes.2
    then s.mergeNodes merging nodes.1 nodes.2 else s) s

theorem shrinks_mergePairs (hs : s.manager.hasDescriptionGraphs = false) (pairs : List (ℕ × ℕ)) :
    Shrinks s (s.mergePairs merging pairs) := by
  induction pairs with
  | nil => exact Shrinks.refl s
  | cons nodes rest ih =>
    rw [mergePairs, List.foldr_cons]
    split_ifs
    · apply ih.trans
      apply shrinks_mergeNodes
      exact ih.manager_eq ▸ hs
    · exact ih

theorem shrinks_mergeTuples (hs : s.manager.hasDescriptionGraphs = false) (first second : List ℕ) :
    Shrinks s (s.mergeTuples merging first second) :=
  shrinks_mergePairs hs (first.zip second)

theorem shrinks_checkOccurrence (m : DescriptionGraphManager) (g i p : ℕ) (tuple : List ℕ)
    (r : Occurrence)
    (hs : s.manager.hasDescriptionGraphs = false) :
    Shrinks s (checkOccurrence merging m g i tuple p s r) := by
  rw [checkOccurrence]
  split
  · split
    · split
      · split
        · exact shrinks_mergeTuples hs _ _
        · exact ⟨[], true, by simp⟩
      · exact Shrinks.refl s
    · exact Shrinks.refl s
  · exact Shrinks.refl s

/-- A fold of steps that take nodes away where there are no graphs. -/
theorem Shrinks.foldl {α : Type*} {f : GraphTableau → α → GraphTableau}
    (h : ∀ s x, s.manager.hasDescriptionGraphs = false → Shrinks s (f s x)) (l : List α)
    (hs : s.manager.hasDescriptionGraphs = false) : Shrinks s (l.foldl f s) := by
  induction l generalizing s with
  | nil => exact refl s
  | cons x l ih =>
    have hx := h s x hs
    exact hx.trans (ih (hx.manager_eq ▸ hs))

theorem shrinks_checkTuple (m : DescriptionGraphManager) (g : ℕ) (tuple : List ℕ × ℕ)
    (hs : s.manager.hasDescriptionGraphs = false) : Shrinks s (checkTuple merging m g s tuple) := by
  rw [checkTuple]
  split_ifs
  · exact Shrinks.refl s
  · exact Shrinks.foldl (fun s node hs =>
      Shrinks.foldl (fun s r hs => shrinks_checkOccurrence m g tuple.2 node.2 tuple.1 r hs) _ hs) _
        hs

theorem shrinks_checkTable (m : DescriptionGraphManager) (table : GraphTable × ℕ)
    (hs : s.manager.hasDescriptionGraphs = false) : Shrinks s (checkTable merging m s table) := by
  rw [checkTable]
  split_ifs
  · exact Shrinks.refl s
  · exact Shrinks.foldl (fun s tuple hs => shrinks_checkTuple m table.2 tuple hs) _ hs

theorem shrinks_checkGraphConstraints (s : GraphTableau) :
    Shrinks s (s.checkGraphConstraints merging) := by
  rw [checkGraphConstraints]
  split_ifs
  · have hcheck : Shrinks { s with manager := {} }
        (s.manager.tables.zipIdx.foldl (checkTable merging s.manager) { s with manager := {} }) :=
      Shrinks.foldl (fun _ table hs => shrinks_checkTable s.manager table hs) _ rfl
    exact hcheck.withManager s.manager
  · exact Shrinks.refl s

theorem extends_propagate (s : GraphTableau) : Extends s (s.propagate merging) := by
  rw [propagate]
  dsimp only
  split_ifs
  · exact (extends_propagateDeltaNew s).trans (shrinks_checkGraphConstraints _).toExtends
  · exact extends_propagateDeltaNew s

/-! ## Reached states -/

def Action.branches : Action → Bool
  | .push | .backtrack _ => true
  | _ => false

theorem extends_perform (s : GraphTableau) {a : Action} (ha : a.branches = false) :
    Extends s (s.perform merging a) := by
  cases a with
  | create parent => exact extends_createNode s parent
  | expand g tuple => exact extends_addTuple s g tuple
  | merge node0 node1 => exact extends_mergeNodes s node0 node1
  | setClash => exact Shrinks.toExtends ⟨[], true, by simp [perform]⟩
  | propagate => exact extends_propagate s
  | push => cases ha
  | backtrack level => cases ha

theorem bounded_initial (vertices : List ℕ) : (initial vertices).Bounded := by
  have hemp : ∀ (saved : ℕ → ℕ) (n : ℕ), Checkpoints 0 saved n :=
    fun _ _ => ⟨fun _ hk => absurd hk (Nat.not_lt_zero _), fun _ _ _ hk =>
      absurd hk (Nat.not_lt_zero _)⟩
  constructor
  · intro x hx
    obtain ⟨n, -, rfl⟩ := List.mem_map.mp hx
    rfl
  · exact fun _ _ => hemp _ _
  · exact hemp _ _
  · exact hemp _ _

theorem Bounded.pushBranchingPoint (hs : s.Bounded) : s.pushBranchingPoint.Bounded := by
  constructor
  · intro x hx
    obtain ⟨y, hy, rfl⟩ := List.mem_map.mp hx
    exact hs.full y hy
  · intro x hx
    obtain ⟨y, hy, rfl⟩ := List.mem_map.mp hx
    apply (hs.tuples y hy).push
    · simp [GraphTable.branchingPointPushed, hs.full y hy]
    · intro k hk
      simp [GraphTable.branchingPointPushed, Function.update_of_ne hk.ne]
  · apply hs.mergedOrPruned.push
    · simp [GraphTableau.pushBranchingPoint]
    · intro k hk
      simp [GraphTableau.pushBranchingPoint, Function.update_of_ne hk.ne]
  · apply hs.parents.push
    · simp [GraphTableau.pushBranchingPoint]
    · intro k hk
      simp [GraphTableau.pushBranchingPoint, Function.update_of_ne hk.ne]

variable {k : ℕ}

theorem Bounded.backtrackTo (hs : s.Bounded) (hk : k < s.level) : (s.backtrackTo k).Bounded := by
  constructor
  · intro x hx
    obtain ⟨y, hy, rfl⟩ := List.mem_map.mp hx
    have hle := (hs.tuples y hy).le k hk
    simp [GraphTable.backtrack, hle]
  · intro x hx
    obtain ⟨y, hy, rfl⟩ := List.mem_map.mp hx
    have hle := (hs.tuples y hy).le k hk
    have hback := (hs.tuples y hy).back hk
    have hlen : (y.backtrack k).2.tuples.length = (y.indicesByBranchingPoint k).afterDeltaNew := by
      simp [GraphTable.backtrack, hle]
    rw [hlen]
    exact hback
  · have hle := hs.mergedOrPruned.le k hk
    have hback := hs.mergedOrPruned.back hk
    have hlen : s.mergedOrPruned.length -
        (s.mergedOrPruned.length - (s.branchingPoints k).lastMergedOrPrunedNode) =
        (s.branchingPoints k).lastMergedOrPrunedNode := by omega
    simpa [GraphTableau.backtrackTo, hlen] using hback
  · have hle := hs.parents.le k hk
    have hback := hs.parents.back hk
    simpa [GraphTableau.backtrackTo, hle] using hback

/-- What a property of the graphs may depend on. -/
def content (s : GraphTableau) :
    List (ℕ × List (List ℕ) × Watermarks) × (ℕ → List Occurrence) × List (Option ℕ) ×
      List (ℕ × Option ℕ) × Bool :=
  (s.manager.tables.map fun x => (x.numberOfVertices, x.tuples, x.marks),
    s.manager.occurrences, s.parents, s.mergedOrPruned, s.clash)

/-- A branching point is returned to as it was pushed. -/
theorem content_backtrackTo_push (hs : s.Bounded) (hclash : s.clash = false) :
    (s.pushBranchingPoint.backtrackTo s.level).content = s.content := by
  have htabs : ((s.pushBranchingPoint.manager.backtrack s.level).tables.map fun x =>
      (x.numberOfVertices, x.tuples, x.marks)) = s.manager.tables.map fun x =>
      (x.numberOfVertices, x.tuples, x.marks) := by
    simp only [pushBranchingPoint, branchingPointPushed, backtrack, List.map_map]
    apply List.map_congr_left
    intro x hx
    simp [GraphTable.branchingPointPushed, GraphTable.backtrack, hs.full x hx]
  have hcount : ∀ node, removedCount s.pushBranchingPoint.manager.tables s.level node = 0 := by
    intro node
    rw [removedCount, List.sum_eq_zero_iff_forall_eq_nat]
    intro n hn
    obtain ⟨x, hx, rfl⟩ := List.mem_map.mp hn
    obtain ⟨y, hy, rfl⟩ := List.mem_map.mp hx
    simp [GraphTable.removedCount, GraphTable.branchingPointPushed, hs.full y hy]
  have hoccs : (s.pushBranchingPoint.manager.backtrack s.level).occurrences =
      s.manager.occurrences := by
    funext node
    rw [backtrack_occurrences_apply, hcount]
    rfl
  simp only [content, backtrackTo, htabs, hoccs, hclash]
  simp [pushBranchingPoint]

theorem content_backtrackTo_push_of_lt (hk : k < s.level) :
    (s.pushBranchingPoint.backtrackTo k).content = (s.backtrackTo k).content := by
  have htabs : (s.pushBranchingPoint.manager.backtrack k).tables.map (fun x =>
      (x.numberOfVertices, x.tuples, x.marks)) = (s.manager.backtrack k).tables.map fun x =>
      (x.numberOfVertices, x.tuples, x.marks) := by
    simp only [pushBranchingPoint, branchingPointPushed, backtrack, List.map_map]
    apply List.map_congr_left
    intro x _
    simp [GraphTable.branchingPointPushed, GraphTable.backtrack, Function.update_of_ne hk.ne]
  have hcount : ∀ node, removedCount s.pushBranchingPoint.manager.tables k node =
      removedCount s.manager.tables k node := by
    intro node
    simp only [removedCount, pushBranchingPoint, branchingPointPushed, List.map_map]
    congr 1
    apply List.map_congr_left
    intro x _
    simp [GraphTable.branchingPointPushed, GraphTable.removedCount, Function.update_of_ne hk.ne]
  have hoccs : (s.pushBranchingPoint.manager.backtrack k).occurrences =
      (s.manager.backtrack k).occurrences := by
    funext node
    rw [backtrack_occurrences_apply, backtrack_occurrences_apply, hcount]
    rfl
  simp only [content, backtrackTo, htabs, hoccs]
  simp [pushBranchingPoint, Function.update_of_ne hk.ne]

theorem backtrackTo_backtrackTo (hs : s.Bounded) {j : ℕ} (hj : j ≤ k) (hk : k < s.level) :
    (s.backtrackTo k).backtrackTo j = s.backtrackTo j := by
  have hman : (s.manager.backtrack k).backtrack j = s.manager.backtrack j :=
    backtrack_backtrack fun x hx => ⟨(hs.tuples x hx).mono j k hj hk, (hs.tuples x hx).le k hk⟩
  have hle := hs.mergedOrPruned.le k hk
  have hmono := hs.mergedOrPruned.mono j k hj hk
  have hmg : (s.mergedOrPruned.drop
    (s.mergedOrPruned.length - (s.branchingPoints k).lastMergedOrPrunedNode)).drop
      ((s.mergedOrPruned.drop
        (s.mergedOrPruned.length - (s.branchingPoints k).lastMergedOrPrunedNode)).length -
        (s.branchingPoints j).lastMergedOrPrunedNode) =
      s.mergedOrPruned.drop (s.mergedOrPruned.length - (s.branchingPoints
        j).lastMergedOrPrunedNode) := by
    rw [List.drop_drop, List.length_drop]
    congr 1
    omega
  have hpars : (s.parents.take (s.branchingPoints k).lastTableauNode).take
    (s.branchingPoints j).lastTableauNode =
      s.parents.take (s.branchingPoints j).lastTableauNode := by
    rw [List.take_take, Nat.min_eq_left (hs.parents.mono j k hj hk)]
  simp only [backtrackTo, hman, hmg, hpars]

/-- What steps keep that are no branching points holds of all reached states. -/
theorem Reached.holds {permitted : GraphTableau → Action → Prop} {I : GraphTableau → Prop}
    (hinit : ∀ vertices, I (GraphTableau.initial vertices))
    (hcongr : ∀ s s', s'.content = s.content → I s → I s')
    (hstep : ∀ s a, I s → s.Bounded → s.Enabled a → permitted s a → a.branches = false →
      I (s.perform merging a))
    (h : Reached merging permitted s) : I s := by
  have hkept : s.Bounded ∧ I s ∧ ∀ k < s.level, (s.branchingPoints k).clash = false →
      I (s.backtrackTo k) := by
    induction h with
    | initial vertices =>
      exact ⟨bounded_initial vertices, hinit vertices, fun k hk => absurd hk (Nat.not_lt_zero k)⟩
    | @step s a _ hen hperm ih =>
      obtain ⟨hbnd, hs, hsaved⟩ := ih
      cases ha : a.branches with
      | false =>
        have hext : Extends s (s.perform merging a) := extends_perform s ha
        refine ⟨hext.bounded hbnd, hstep s a hs hbnd hen hperm ha, ?_⟩
        intro k hk hclash
        rw [hext.level_eq] at hk
        rw [hext.branchingPoints_eq] at hclash
        rw [hext.backtrackTo_eq hbnd k hk]
        exact hsaved k hk hclash
      | true =>
        cases a with
        | push =>
          refine ⟨hbnd.pushBranchingPoint, ?_, ?_⟩
          · apply hcongr s _ _ hs
            simp [content, perform, pushBranchingPoint, branchingPointPushed,
              GraphTable.branchingPointPushed]
          · intro k hk hclash
            rcases Nat.lt_succ_iff_lt_or_eq.mp hk with hk | rfl
            · apply hcongr _ _ (content_backtrackTo_push_of_lt hk)
              apply hsaved k hk
              simpa [perform, pushBranchingPoint, Function.update_of_ne hk.ne] using hclash
            · apply hcongr _ _ (content_backtrackTo_push hbnd _) hs
              simpa [perform, pushBranchingPoint] using hclash
        | backtrack k =>
          obtain ⟨hk, hclash⟩ := hen
          refine ⟨hbnd.backtrackTo hk, hsaved k hk hclash, ?_⟩
          intro j hj hclash'
          have hjk : j ≤ k := Nat.lt_succ_iff.mp hj
          rw [perform, backtrackTo_backtrackTo hbnd hjk hk]
          exact hsaved j (hjk.trans_lt hk) hclash'
        | _ => cases ha
  exact hkept.2.1

theorem Bounded.perform (hs : s.Bounded) (hen : s.Enabled a) : (s.perform merging a).Bounded := by
  cases ha : a.branches with
  | false => exact (extends_perform s ha).bounded hs
  | true =>
    cases a with
    | push => exact hs.pushBranchingPoint
    | backtrack k => exact hs.backtrackTo hen.1
    | _ => cases ha

/-- Whatever is done to the graphs after a branching point was pushed, short of backtracking below
it, backtracking to it gives them back. -/
theorem Reached.content_backtrackTo {permitted : GraphTableau → Action → Prop}
    (h : Reached merging permitted s) (hclash : s.clash = false)
    (hrun : Relation.ReflTransGen (fun t t' => ∃ a,
      t.Enabled a ∧ (∀ k, a = .backtrack k → s.level ≤ k) ∧
      t' = t.perform merging a) s.pushBranchingPoint t) : (t.backtrackTo s.level).content =
      s.content := by
  have hbnd : s.Bounded := by
    clear hclash hrun
    induction h with
    | initial vertices => exact bounded_initial vertices
    | step _ hen _ ih => exact ih.perform hen
  have hkept : t.Bounded ∧ s.level < t.level ∧ (t.backtrackTo s.level).content = s.content := by
    induction hrun with
    | refl =>
      exact ⟨hbnd.pushBranchingPoint, Nat.lt_succ_self _, content_backtrackTo_push hbnd hclash⟩
    | @tail u _ _ hstep ih =>
      obtain ⟨a, hen, habove, rfl⟩ := hstep
      obtain ⟨ht, hlev, hcont⟩ := ih
      refine ⟨ht.perform hen, ?_⟩
      cases ha : a.branches with
      | false =>
        have hext : Extends u (u.perform merging a) := extends_perform u ha
        exact ⟨hext.level_eq ▸ hlev, hext.backtrackTo_eq ht _ hlev ▸ hcont⟩
      | true =>
        cases a with
        | push =>
          exact ⟨Nat.lt_succ_of_lt hlev, (content_backtrackTo_push_of_lt hlev).trans hcont⟩
        | backtrack k =>
          have hk := habove k rfl
          refine ⟨Nat.lt_succ_of_le hk, ?_⟩
          rw [GraphTableau.perform, backtrackTo_backtrackTo ht hk hen.1]
          exact hcont
        | _ => cases ha
  exact hkept.2.2

/-- A tuple is laid out over the only node and a clash is found before backtracking. -/
theorem content_backtrackTo_expanded :
    (((((initial [1]).createNode none).pushBranchingPoint.perform ⟨fun _ _ _ => true,
      fun _ _ _ => false⟩
      (.expand 0 [0])).perform ⟨fun _ _ _ => true, fun _ _ _ => false⟩ .setClash).backtrackTo
      0).content = ((initial [1]).createNode none).content := by
  have hcr : Reached ⟨fun _ _ _ => true, fun _ _ _ => false⟩ (fun _ _ => True)
    ((initial [1]).createNode none) :=
    .step (a := .create none) (.initial [1]) nofun trivial
  exact hcr.content_backtrackTo rfl
    (.tail (.tail .refl ⟨.expand 0 [0], ⟨⟨_, rfl, rfl⟩, rfl⟩, nofun, rfl⟩) ⟨.setClash, trivial,
      nofun, rfl⟩)

end GraphTableau

end Hermit
