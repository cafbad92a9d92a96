import Hermit.Tableau.GraphBacktracking

/-! # Graph constraints

Active tuples of one graph that share a node are equal once nothing is left to check, and the lists
of occurrences are exact throughout.
-/

namespace Hermit

open List

/-! ## Stored tuples -/

namespace DescriptionGraphManager

variable {m : DescriptionGraphManager}

def Stored (m : DescriptionGraphManager) (graphIndex : ℕ) (tuple : List ℕ) : Prop :=
  ∃ x, m.tables[graphIndex]? = some x ∧ tuple ∈ x.tuples

variable {g : ℕ} {tuple : List ℕ}

theorem stored_iff : m.Stored g tuple ↔ ∃ i, m.tupleAt g i = some tuple := by
  simp only [Stored, tupleAt_eq_some, mem_iff_getElem?]
  constructor
  · rintro ⟨x, hx, i, hi⟩
    exact ⟨i, x, hx, hi⟩
  · rintro ⟨i, x, hx, hi⟩
    exact ⟨x, hx, i, hi⟩

theorem stored_addTuple {g' : ℕ} {tuple' : List ℕ} : (m.addTuple g tuple).Stored g' tuple' ↔
      m.Stored g' tuple' ∨ g' = g ∧ tuple' = tuple ∧ g < m.tables.length := by
  rcases addTuple_cases m g tuple with ⟨heq, hall⟩ | ⟨x, hg, hnew, heq⟩
  · rw [heq]
    constructor
    · exact .inl
    · rintro (h | ⟨rfl, rfl, hlt⟩)
      · exact h
      · exact ⟨_, getElem?_eq_getElem hlt, hall _ (getElem?_eq_getElem hlt)⟩
  · have hlt : g < m.tables.length := (List.getElem?_eq_some_iff.mp hg).1
    simp only [stored_iff, tupleAt_addTuple hg hnew]
    constructor
    · rintro ⟨i, hi⟩
      split_ifs at hi with h
      · exact .inr ⟨h.1, (Option.some.inj hi).symm, hlt⟩
      · exact .inl ⟨i, hi⟩
    · rintro (⟨i, hi⟩ | ⟨rfl, rfl, -⟩)
      · refine ⟨i, ?_⟩
        rw [if_neg, hi]
        rintro ⟨rfl, rfl⟩
        simp [tupleAt, hg] at hi
      · exact ⟨x.tuples.length, if_pos ⟨rfl, rfl⟩⟩

theorem length_tables_addTuple (g : ℕ) (tuple : List ℕ) :
    (m.addTuple g tuple).tables.length = m.tables.length := by
  rcases addTuple_cases m g tuple with ⟨heq, -⟩ | ⟨x, -, -, heq⟩ <;> simp [heq]

/-- A tuple of the length that a graph has. -/
def Fits (m : DescriptionGraphManager) (graphIndex : ℕ) (tuple : List ℕ) : Prop :=
  ∀ x, m.tables[graphIndex]? = some x → tuple.length = x.numberOfVertices

theorem Fits.addTuple {g' : ℕ} {tuple' : List ℕ} (h : m.Fits g' tuple') :
    (m.addTuple g tuple).Fits g' tuple' := by
  rcases addTuple_cases m g tuple with ⟨heq, -⟩ | ⟨x, hg, -, heq⟩
  · rw [heq]
    exact h
  · rw [heq]
    intro y hy
    have hlt : g < m.tables.length := (List.getElem?_eq_some_iff.mp hg).1
    by_cases hgg : g = g'
    · subst hgg
      rw [getElem?_set_self hlt] at hy
      cases hy
      exact h x hg
    · rw [getElem?_set_ne hgg] at hy
      exact h y hy

theorem stored_foldl_addTuple {tuples : List (ℕ × List ℕ)} :
    (tuples.foldl (fun m t => m.addTuple t.1 t.2) m).Stored g tuple ↔
      m.Stored g tuple ∨ (g, tuple) ∈ tuples ∧ g < m.tables.length := by
  induction tuples generalizing m with
  | nil => simp
  | cons t tuples ih =>
    rw [foldl_cons, ih, stored_addTuple, length_tables_addTuple, mem_cons, Prod.ext_iff]
    constructor
    · rintro ((h | ⟨rfl, rfl, hlt⟩) | ⟨hmem, hlt⟩)
      · exact .inl h
      · exact .inr ⟨.inl ⟨rfl, rfl⟩, hlt⟩
      · exact .inr ⟨.inr hmem, hlt⟩
    · rintro (h | ⟨⟨rfl, rfl⟩ | hmem, hlt⟩)
      · exact .inl (.inl h)
      · exact .inl (.inr ⟨rfl, rfl, hlt⟩)
      · exact .inr ⟨hmem, hlt⟩

end DescriptionGraphManager

namespace GraphTableau

variable {merging : Merging} {s s' : GraphTableau}

variable {node : ℕ} {first second : List ℕ}

theorem isActive_iff :
    s.isActive node = true ↔ node < s.parents.length ∧ ∀ e ∈ s.mergedOrPruned, e.1 ≠ node := by
  simp [isActive]

theorem tupleIsActive_iff {tuple : List ℕ} : s.tupleIsActive tuple = true ↔ ∀ n ∈ tuple,
    s.isActive n = true := by
  simp [tupleIsActive]

theorem Shrinks.isActive (h : Shrinks s s') (hs' : s'.isActive node = true) :
    s.isActive node = true := by
  obtain ⟨removed, clash, rfl⟩ := h
  rw [isActive_iff] at hs' ⊢
  exact ⟨hs'.1, fun e he => hs'.2 e (mem_append_right _ he)⟩

theorem Shrinks.tupleIsActive (h : Shrinks s s') {tuple : List ℕ}
    (hs' : s'.tupleIsActive tuple = true) :
    s.tupleIsActive tuple = true := by
  rw [tupleIsActive_iff] at hs' ⊢
  exact fun n hn => h.isActive (hs' n hn)

theorem Shrinks.clash (h : Shrinks s s') (hs : s.clash = true) : s'.clash = true := by
  obtain ⟨removed, clash, rfl⟩ := h
  simp [hs]

theorem isActive_createNode {parent : Option ℕ} (hnode : node < s.parents.length) :
    (s.createNode parent).isActive node = s.isActive node := by
  simp [isActive, createNode, hnode, Nat.lt_succ_of_lt hnode]

/-! ## Checked tuples -/

/-- Two tuples that a check has dealt with. -/
def Settled (first second : List ℕ) (s : GraphTableau) : Prop :=
  s.clash = true ∨ (s.tupleIsActive first = true → s.tupleIsActive second = true → first = second)

theorem Settled.shrink (h : Settled first second s) (hs : Shrinks s s') :
    Settled first second s' := by
  rcases h with h | h
  · exact .inl (hs.clash h)
  · exact .inr fun h1 h2 => h (hs.tupleIsActive h1) (hs.tupleIsActive h2)

theorem Settled.symm (h : Settled first second s) : Settled second first s := by
  rcases h with h | h
  · exact .inl h
  · exact .inr fun h2 h1 => (h h1 h2).symm

/-- After a merge the two nodes are not both active. -/
theorem eq_of_isActive_mergeNodes {node0 node1 : ℕ}
    (h0 : (s.mergeNodes merging node0 node1).isActive node0 = true)
    (h1 : (s.mergeNodes merging node0 node1).isActive node1 = true) : node0 = node1 := by
  rcases mergeNodes_cases merging s node0 node1 with ⟨heq, hidle⟩ | ⟨a, b, hdir, -, -, -, heq⟩
  · rw [heq] at h0 h1
    exact hidle h0 h1
  · have hgone : (s.mergeNodes merging node0 node1).isActive a = false := by
      rw [heq]
      simp [isActive]
    rcases chooseMergeDirection_cases merging s node0 node1
      with h | h <;> cases hdir.symm.trans h
    · rw [h0] at hgone
      cases hgone
    · rw [h1] at hgone
      cases hgone

theorem eq_of_isActive_mergePairs (hs : s.manager.hasDescriptionGraphs = false)
    {pairs : List (ℕ × ℕ)} :
    ∀ nodes ∈ pairs, (s.mergePairs merging pairs).isActive nodes.1 = true →
      (s.mergePairs merging pairs).isActive nodes.2 = true → nodes.1 = nodes.2 := by
  induction pairs with
  | nil => exact fun _ h => by cases h
  | cons pair rest ih =>
    intro nodes hnodes h0 h1
    have hrest : Shrinks s (s.mergePairs merging rest) := shrinks_mergePairs hs rest
    have hstep : Shrinks (s.mergePairs merging rest) (s.mergePairs merging (pair :: rest)) := by
      rw [mergePairs, mergePairs, foldr_cons]
      split_ifs
      · apply shrinks_mergeNodes
        exact hrest.manager_eq ▸ hs
      · exact Shrinks.refl _
    rcases mem_cons.mp hnodes with rfl | hmem
    · by_contra hne
      rw [mergePairs, foldr_cons, if_pos hne] at h0 h1
      exact hne (eq_of_isActive_mergeNodes h0 h1)
    · exact ih nodes hmem (hstep.isActive h0) (hstep.isActive h1)

theorem settled_mergeTuples (hs : s.manager.hasDescriptionGraphs = false)
    (hlen : first.length = second.length) : Settled first second
    (s.mergeTuples merging first second) := by
  refine .inr fun h1 h2 => ?_
  rw [tupleIsActive_iff] at h1 h2
  apply ext_getElem hlen
  intro i hi hi'
  have hmem : (first[i], second[i]) ∈ first.zip second := by
    rw [← getElem_zip (h := by simp [hi, hi'])]
    exact getElem_mem _
  exact eq_of_isActive_mergePairs hs _ hmem (h1 _ (getElem_mem hi)) (h2 _ (getElem_mem hi'))

theorem settled_foldl {α : Type*} {f : GraphTableau → α → GraphTableau} {l : List α} {x : α}
    (hf : ∀ s x, s.manager.hasDescriptionGraphs = false → Shrinks s (f s x)) (hx : x ∈ l)
    (hstep : ∀ s, s.manager.hasDescriptionGraphs = false → Settled first second (f s x))
    (hs : s.manager.hasDescriptionGraphs = false) : Settled first second (l.foldl f s) := by
  induction l generalizing s with
  | nil => cases hx
  | cons y l ih =>
    have hy := hf s y hs
    have hnone := hy.manager_eq ▸ hs
    rcases mem_cons.mp hx with rfl | hmem
    · exact (hstep s hs).shrink (Shrinks.foldl hf l hnone)
    · exact ih hmem hnone

section Check

variable {m : DescriptionGraphManager} (hexact : m.ExactOccurrences)
  (hlen : ∀ x ∈ m.tables, ∀ tuple ∈ x.tuples, tuple.length = x.numberOfVertices)
include hexact hlen

/-- The check of a tuple of the old delta settles it with every stored tuple that shares a node. -/
theorem settled_checkTuple {g i j n : ℕ} {x : GraphTable} {first second : List ℕ}
    (hx : m.tables[g]? = some x)
    (hi : x.tuples[i]? = some first) (hj : x.tuples[j]? = some second) (hn : n ∈ first)
    (hn' : n ∈ second) (hs : s.manager.hasDescriptionGraphs = false) :
    Settled first second (checkTuple merging m g s (first, i)) := by
  obtain ⟨p, hp⟩ := mem_iff_getElem?.mp hn
  obtain ⟨q, hq⟩ := mem_iff_getElem?.mp hn'
  by_cases hij : i = j
  · subst hij
    cases hi.symm.trans hj
    exact .inr fun _ _ => rfl
  have hat : m.tupleAt g j = some second := DescriptionGraphManager.tupleAt_eq_some.mpr ⟨x, hx, hj⟩
  have hplace : (⟨g, j, q + 1⟩ : Occurrence) ∈ m.occurrences n :=
    ((hexact n).2 _).mpr ⟨Nat.le_add_left 1 q, second, hat, hq⟩
  have hposn : (n, p + 1) ∈ first.zipIdx 1 :=
    mk_mem_zipIdx_iff_le_and_getElem?_sub.mpr ⟨Nat.le_add_left 1 p, hp⟩
  have hsame : first.length = second.length := by
    have hmem := mem_of_getElem? hx
    rw [hlen x hmem first (mem_of_getElem? hi), hlen x hmem second (mem_of_getElem? hj)]
  rw [checkTuple]
  split_ifs with hclash
  · exact .inl hclash
  · refine settled_foldl (fun s node hs =>
      Shrinks.foldl (fun s r hs => shrinks_checkOccurrence m g i node.2 first r hs) _ hs)
        hposn ?_ hs
    intro s hs
    refine settled_foldl (fun s r hs => shrinks_checkOccurrence m g i (p + 1) first r hs)
      hplace ?_ hs
    intro s hs
    have hoth : ((g == g) && (j != i || q + 1 != p + 1)) = true := by simp [Ne.symm hij]
    rw [checkOccurrence, if_pos hoth, hat]
    dsimp only
    split_ifs with hact hpq
    · exact settled_mergeTuples hs hsame
    · exact .inl rfl
    · exact .inr fun _ h => absurd h hact

theorem settled_checkGraphConstraints {g i j n : ℕ} {x : GraphTable} {first second : List ℕ}
    (hs : s.manager = m) (hx : m.tables[g]? = some x) (hi : x.tuples[i]? = some first)
    (hnew : x.marks.afterExtensionOld ≤ i ∧ i < x.marks.afterExtensionThis)
    (hj : x.tuples[j]? = some second) (hn : n ∈ first) (hn' : n ∈ second) : Settled first second
    (s.checkGraphConstraints merging) := by
  have htable : (x, g) ∈ m.tables.zipIdx := mk_mem_zipIdx_iff_getElem?.mpr hx
  have hdelta : (first, i) ∈ x.deltaOld := by
    rw [GraphTable.deltaOld, mem_iff_getElem?]
    refine ⟨i - x.marks.afterExtensionOld, ?_⟩
    rw [getElem?_drop, Nat.add_sub_of_le hnew.1, getElem?_take, if_pos hnew.2, getElem?_zipIdx, hi]
    simp
  have hgs : s.manager.hasDescriptionGraphs = true := by
    have hpos : m.tables ≠ [] := ne_nil_of_mem (mem_of_getElem? hx)
    simp [DescriptionGraphManager.hasDescriptionGraphs, hs, hpos]
  have hfold : Settled first second
      (s.manager.tables.zipIdx.foldl (checkTable merging s.manager) { s with manager := {} }) := by
    subst hs
    refine settled_foldl (fun s table hs => shrinks_checkTable _ table hs) htable ?_ rfl
    intro σ hσ
    rw [checkTable]
    split_ifs with hclash
    · exact .inl hclash
    · exact settled_foldl (fun s tuple hs => shrinks_checkTuple _ g tuple hs) hdelta
        (fun σ hσ => settled_checkTuple hexact hlen hx hi hj hn hn' hσ) hσ
  rw [checkGraphConstraints, if_pos hgs]
  exact hfold

end Check

/-! ## Rigidity -/

/-- Active tuples of one graph that share a node are equal. -/
def Rigid (s : GraphTableau) : Prop :=
  ∀ g first second, s.manager.Stored g first → s.manager.Stored g second → s.tupleIsActive first →
    s.tupleIsActive second → ∀ n ∈ first, n ∈ second → first = second

/-- The tuples are in their tables, their nodes exist, and those that have left the new delta are
settled, unless there is a clash. -/
structure Checked (s : GraphTableau) : Prop where
  exact : s.manager.ExactOccurrences
  length : ∀ x ∈ s.manager.tables, ∀ tuple ∈ x.tuples, tuple.length = x.numberOfVertices
  inRange : ∀ x ∈ s.manager.tables, ∀ tuple ∈ x.tuples, ∀ n ∈ tuple, n < s.parents.length
  marks : ∀ x ∈ s.manager.tables, x.marks.afterExtensionThis ≤ x.tuples.length
  settled : ∀ x ∈ s.manager.tables, ∀ first ∈ x.tuples.take x.marks.afterExtensionThis,
    ∀ second ∈ x.tuples.take x.marks.afterExtensionThis, ∀ n ∈ first, n ∈ second →
      Settled first second s

namespace Checked

theorem shrink (h : Checked s) (hs : Shrinks s s') : Checked s' := by
  have hman := hs.manager_eq
  have hset : ∀ first second, Settled first second s → Settled first second s' :=
    fun _ _ h' => h'.shrink hs
  obtain ⟨removed, clash, rfl⟩ := hs
  exact ⟨h.exact, h.length, h.inRange, h.marks, fun x hx first hfst second hsnd n hn hn' =>
    hset _ _ (h.settled x hx first hfst second hsnd n hn hn')⟩

theorem addTuple (h : Checked s) (g : ℕ) (tuple : List ℕ)
    (hlen : s.manager.Fits g tuple) (hrng : ∀ n ∈ tuple, n < s.parents.length) :
    Checked { s with manager := s.manager.addTuple g tuple } := by
  rcases DescriptionGraphManager.addTuple_cases s.manager g tuple with ⟨heq, -⟩ | ⟨x, hg, -, heq⟩
  · rw [heq]
    exact h
  · have hx := mem_of_getElem? hg
    have hexact := h.exact.addTuple g tuple
    rw [heq] at hexact ⊢
    constructor
    · exact hexact
    · intro y hy t ht
      rcases mem_or_eq_of_mem_set hy with hy | rfl
      · exact h.length y hy t ht
      · rcases mem_append.mp ht with ht | ht
        · exact h.length x hx t ht
        · rw [mem_singleton.mp ht]
          exact hlen x hg
    · intro y hy t ht
      rcases mem_or_eq_of_mem_set hy with hy | rfl
      · exact h.inRange y hy t ht
      · rcases mem_append.mp ht with ht | ht
        · exact h.inRange x hx t ht
        · rw [mem_singleton.mp ht]
          exact hrng
    · intro y hy
      rcases mem_or_eq_of_mem_set hy with hy | rfl
      · exact h.marks y hy
      · have := h.marks x hx
        simp only [length_append, length_singleton]
        omega
    · intro y hy
      rcases mem_or_eq_of_mem_set hy with hy | rfl
      · exact h.settled y hy
      · simp only [take_append_of_le_length (h.marks x hx)]
        exact h.settled x hx

theorem createNode (h : Checked s) (parent : Option ℕ) : Checked (s.createNode parent) := by
  have hact : ∀ x ∈ s.manager.tables, ∀ tuple ∈ x.tuples,
      (s.createNode parent).tupleIsActive tuple = s.tupleIsActive tuple := by
    intro x hx tuple ht
    rw [Bool.eq_iff_iff, tupleIsActive_iff, tupleIsActive_iff]
    exact forall₂_congr fun n hn => by rw [isActive_createNode (h.inRange x hx tuple ht n hn)]
  constructor
  · exact h.exact
  · exact h.length
  · intro x hx tuple ht n hn
    have := h.inRange x hx tuple ht n hn
    simp only [GraphTableau.createNode, length_append, length_singleton]
    omega
  · exact h.marks
  · intro x hx first hfst second hsnd n hn hn'
    rw [Settled, hact x hx first (mem_of_mem_take hfst), hact x hx second (mem_of_mem_take hsnd)]
    exact h.settled x hx first hfst second hsnd n hn hn'

theorem foldl_addTuple (h : Checked s) {tuples : List (ℕ × List ℕ)}
    (hlen : ∀ t ∈ tuples, s.manager.Fits t.1 t.2)
    (hrng : ∀ t ∈ tuples, ∀ n ∈ t.2, n < s.parents.length) :
    Checked { s with manager := tuples.foldl (fun m t => m.addTuple t.1 t.2) s.manager } := by
  induction tuples generalizing s with
  | nil => exact h
  | cons t tuples ih =>
    have hfst := h.addTuple t.1 t.2 (hlen t mem_cons_self) (hrng t mem_cons_self)
    exact ih hfst (fun t' ht' => (hlen t' (mem_cons_of_mem _ ht')).addTuple)
      fun t' ht' => hrng t' (mem_cons_of_mem _ ht')

theorem mergeGraphs (h : Checked s) {mergeFrom mergeInto : ℕ}
    (hinto : mergeInto < s.parents.length) :
    Checked (s.mergeGraphs mergeFrom mergeInto) := by
  rw [GraphTableau.mergeGraphs]
  split_ifs
  · have hrewritten : ∀ t ∈ s.rewrittenTuples mergeFrom mergeInto, ∃ x ∈ s.manager.tables,
        s.manager.tables[t.1]? = some x ∧ ∃ tuple ∈ x.tuples, ∃ p, t.2 = tuple.set p mergeInto := by
      intro t ht
      obtain ⟨r, -, hr⟩ := mem_filterMap.mp ht
      obtain ⟨tuple, hat, hr⟩ := Option.bind_eq_some_iff.mp hr
      obtain ⟨x, hx, htuple⟩ := DescriptionGraphManager.tupleAt_eq_some.mp hat
      split_ifs at hr
      rw [← Option.some.inj hr]
      exact ⟨x, mem_of_getElem? hx, hx, tuple, mem_of_getElem? htuple, _, rfl⟩
    apply h.foldl_addTuple
    · intro t ht y hy
      obtain ⟨x, hmem, hx, tuple, htuple, p, hp⟩ := hrewritten t ht
      cases hx.symm.trans hy
      rw [hp, length_set, h.length y hmem tuple htuple]
    · intro t ht n hn
      obtain ⟨x, hmem, hx, tuple, htuple, p, hp⟩ := hrewritten t ht
      rw [hp] at hn
      rcases mem_or_eq_of_mem_set hn with hn | rfl
      · exact h.inRange x hmem tuple htuple n hn
      · exact hinto
  · exact h

theorem mergeNodes (h : Checked s) (node0 node1 : ℕ) :
    Checked (s.mergeNodes merging node0 node1) := by
  rcases mergeNodes_cases merging s node0 node1 with ⟨heq, -⟩ | ⟨a, b, -, -, hb, -, heq⟩
  · rw [heq]
    exact h
  · have hpars : (s.pruneSuccessors a).parents = s.parents := by
      obtain ⟨removed, clash, hprn⟩ := shrinks_pruneSuccessors s a
      rw [hprn]
    have hgs : Checked ((s.pruneSuccessors a).mergeGraphs a b) :=
      (h.shrink (shrinks_pruneSuccessors s a)).mergeGraphs (hpars.symm ▸ (isActive_iff.mp hb).1)
    apply hgs.shrink
    refine ⟨[(a, some b)], merging.copyClashes s a b, ?_⟩
    rw [heq, manager_mergeGraphs]
    simp only [clash_pruneSuccessors]
    rfl

theorem propagate (h : Checked s) (hbnd : s.Bounded) : Checked (s.propagate merging) := by
  have hexact : s.manager.propagateDeltaNew.2.ExactOccurrences := by
    refine h.exact.congr ?_ rfl
    simp [DescriptionGraphManager.propagateDeltaNew, GraphTable.propagateDeltaNew]
  have hlen : ∀ x ∈ s.manager.propagateDeltaNew.2.tables, ∀ tuple ∈ x.tuples,
      tuple.length = x.numberOfVertices := by
    intro x hx
    obtain ⟨y, hy, rfl⟩ := mem_map.mp hx
    exact h.length y hy
  have hrng : ∀ x ∈ s.manager.propagateDeltaNew.2.tables, ∀ tuple ∈ x.tuples, ∀ n ∈ tuple,
      n < s.parents.length := by
    intro x hx
    obtain ⟨y, hy, rfl⟩ := mem_map.mp hx
    exact h.inRange y hy
  have hmarks : ∀ x ∈ s.manager.propagateDeltaNew.2.tables,
      x.marks.afterExtensionThis ≤ x.tuples.length := by
    intro x hx
    obtain ⟨y, hy, rfl⟩ := mem_map.mp hx
    exact (hbnd.full y hy).le
  rw [GraphTableau.propagate]
  dsimp only
  split_ifs with hgo
  · have hshrinks : Shrinks { s with manager := s.manager.propagateDeltaNew.2 }
        ({ s with manager := s.manager.propagateDeltaNew.2 }.checkGraphConstraints merging) :=
      shrinks_checkGraphConstraints _
    -- A tuple of the old delta is checked against the others, whichever of the two comes first.
    have hchk : ∀ y ∈ s.manager.tables, ∀ (i j : ℕ) first second n, y.tuples[i]? = some first →
        y.tuples[j]? = some second → y.marks.afterExtensionThis ≤ i → n ∈ first → n ∈ second →
        Settled first second
          ({ s with manager := s.manager.propagateDeltaNew.2 }.checkGraphConstraints merging) := by
      intro y hy i j first second n hi hj hle hn hn'
      obtain ⟨g, hg⟩ := mem_iff_getElem?.mp hy
      have hx : s.manager.propagateDeltaNew.2.tables[g]? = some y.propagateDeltaNew.2 := by
        simp [DescriptionGraphManager.propagateDeltaNew, hg]
      have hlt : i < y.marks.afterDeltaNew := by
        rw [hbnd.full y hy]
        exact (List.getElem?_eq_some_iff.mp hi).1
      exact settled_checkGraphConstraints hexact hlen rfl hx hi ⟨hle, hlt⟩ hj hn hn'
    have hset : ∀ y ∈ s.manager.tables, ∀ first ∈ y.tuples, ∀ second ∈ y.tuples, ∀ n ∈ first,
      n ∈ second → Settled first second
          ({ s with manager := s.manager.propagateDeltaNew.2 }.checkGraphConstraints merging) := by
      intro y hy first hfst second hsnd n hn hn'
      obtain ⟨i, hi⟩ := mem_iff_getElem?.mp hfst
      obtain ⟨j, hj⟩ := mem_iff_getElem?.mp hsnd
      by_cases hnew : y.marks.afterExtensionThis ≤ i
      · exact hchk y hy i j first second n hi hj hnew hn hn'
      · by_cases hnew' : y.marks.afterExtensionThis ≤ j
        · exact (hchk y hy j i second first n hj hi hnew' hn' hn).symm
        · have htake : ∀ k tuple, y.tuples[k]? = some tuple → k < y.marks.afterExtensionThis →
              tuple ∈ y.tuples.take y.marks.afterExtensionThis := by
            intro k tuple hk hlt
            apply mem_of_getElem? (i := k)
            rw [getElem?_take_of_lt hlt, hk]
          have hold : Settled first second { s with manager := s.manager.propagateDeltaNew.2 } :=
            h.settled y hy first (htake i first hi (by omega)) second
              (htake j second hj (by omega)) n hn hn'
          exact hold.shrink hshrinks
    obtain ⟨removed, clash, heq⟩ := hshrinks
    rw [heq] at hset ⊢
    refine ⟨hexact, hlen, hrng, hmarks, ?_⟩
    intro x hx first hfst second hsnd n hn hn'
    obtain ⟨y, hy, rfl⟩ := mem_map.mp hx
    exact hset y hy first (mem_of_mem_take hfst) second (mem_of_mem_take hsnd) n hn hn'
  · refine ⟨hexact, hlen, hrng, hmarks, ?_⟩
    intro x hx first hfst second hsnd n hn hn'
    obtain ⟨y, hy, rfl⟩ := mem_map.mp hx
    by_cases hclash : s.clash = true
    · exact .inl hclash
    · have hunchanged : y.marks.afterExtensionThis = y.marks.afterDeltaNew := by
        by_contra hne
        apply hgo
        simp only [Bool.and_eq_true, Bool.not_eq_true', Bool.not_eq_true] at hclash ⊢
        exact ⟨any_eq_true.mpr ⟨y, hy, decide_eq_true hne⟩, hclash⟩
      simp only [GraphTable.propagateDeltaNew, ← hunchanged] at hfst hsnd
      exact h.settled y hy first hfst second hsnd n hn hn'

theorem congr (h : Checked s) (hcont : s'.content = s.content) : Checked s' := by
  simp only [content, Prod.mk.injEq] at hcont
  obtain ⟨htabs, hoccs, hpars, hmg, hclash⟩ := hcont
  have hmem : ∀ x ∈ s'.manager.tables, ∃ y ∈ s.manager.tables,
    x.numberOfVertices = y.numberOfVertices ∧
      x.tuples = y.tuples ∧ x.marks.afterExtensionThis = y.marks.afterExtensionThis := by
    intro x hx
    have hx' := mem_map_of_mem (f := fun x : GraphTable =>
      (x.numberOfVertices, x.tuples, x.marks)) hx
    rw [htabs] at hx'
    obtain ⟨y, hy, hxy⟩ := mem_map.mp hx'
    simp only [Prod.mk.injEq] at hxy
    exact ⟨y, hy, hxy.1.symm, hxy.2.1.symm, congrArg Watermarks.afterExtensionThis hxy.2.2.symm⟩
  have hact : ∀ tuple, s'.tupleIsActive tuple = s.tupleIsActive tuple := by
    intro tuple
    have hnode : s'.isActive = s.isActive := by
      funext node
      rw [isActive, isActive, hpars, hmg]
    rw [tupleIsActive, tupleIsActive, hnode]
  have hset : ∀ first second, Settled first second s → Settled first second s' := by
    intro first second h'
    simpa only [Settled, hact, hclash] using h'
  constructor
  · refine h.exact.congr ?_ hoccs
    have htup := congrArg (List.map fun x => x.2.1) htabs
    simpa only [map_map, Function.comp_def] using htup
  · intro x hx
    obtain ⟨y, hy, hn, ht, -⟩ := hmem x hx
    rw [hn, ht]
    exact h.length y hy
  · intro x hx
    obtain ⟨y, hy, -, ht, -⟩ := hmem x hx
    rw [ht, hpars]
    exact h.inRange y hy
  · intro x hx
    obtain ⟨y, hy, -, ht, hm⟩ := hmem x hx
    rw [ht, hm]
    exact h.marks y hy
  · intro x hx
    obtain ⟨y, hy, -, ht, hm⟩ := hmem x hx
    rw [ht, hm]
    exact fun first hfst second hsnd n hn hn' =>
        hset _ _ (h.settled y hy first hfst second hsnd n hn hn')

end Checked

theorem checked_of_reached {permitted : GraphTableau → Action → Prop}
    (h : Reached merging permitted s) : Checked s := by
  apply h.holds
  · intro vertices
    have hemp : ∀ x ∈ (initial vertices).manager.tables, x.tuples = [] ∧ x.marks = ⟨0, 0, 0⟩ := by
      intro x hx
      obtain ⟨n, -, rfl⟩ := mem_map.mp hx
      exact ⟨rfl, rfl⟩
    constructor
    · intro node
      refine ⟨nodup_nil, fun r => ⟨fun hr => absurd hr not_mem_nil, ?_⟩⟩
      rintro ⟨-, tuple, hat, -⟩
      obtain ⟨x, hx, htuple⟩ := DescriptionGraphManager.tupleAt_eq_some.mp hat
      rw [(hemp x (mem_of_getElem? hx)).1] at htuple
      cases htuple
    · intro x hx tuple ht
      rw [(hemp x hx).1] at ht
      cases ht
    · intro x hx tuple ht
      rw [(hemp x hx).1] at ht
      cases ht
    · intro x hx
      rw [(hemp x hx).2]
      exact Nat.zero_le _
    · intro x hx first hfst
      rw [(hemp x hx).1, take_nil] at hfst
      cases hfst
  · exact fun s s' hcont hs => hs.congr hcont
  · intro s a hs hbnd hen _ ha
    cases a with
    | create parent => exact hs.createNode parent
    | expand g tuple =>
      obtain ⟨⟨x, hx, hlen⟩, hact⟩ := hen
      apply hs.addTuple g tuple
      · intro y hy
        cases hx.symm.trans hy
        exact hlen
      · exact fun n hn => (isActive_iff.mp (tupleIsActive_iff.mp hact n hn)).1
    | merge node0 node1 => exact hs.mergeNodes node0 node1
    | setClash => exact hs.shrink ⟨[], true, by simp [perform]⟩
    | propagate => exact hs.propagate hbnd
    | push => cases ha
    | backtrack level => cases ha

/-- The calculus has nothing left to check. -/
structure Stopped (s : GraphTableau) : Prop where
  clash : s.clash = false
  checked : ∀ x ∈ s.manager.tables, x.marks.afterExtensionThis = x.tuples.length

theorem Checked.rigid (h : Checked s) (hs : s.Stopped) : s.Rigid := by
  rintro g first second ⟨x, hx, hfst⟩ ⟨y, hy, hsnd⟩ h1 h2 n hn hn'
  cases hx.symm.trans hy
  have hmem := mem_of_getElem? hx
  have htake : x.tuples.take x.marks.afterExtensionThis = x.tuples := by
    rw [hs.checked x hmem, take_length]
  rcases h.settled x hmem first (htake.symm ▸ hfst) second (htake.symm ▸ hsnd) n hn hn'
    with hclash | heq
  · rw [hs.clash] at hclash
    cases hclash
  · exact heq h1 h2

end GraphTableau

end Hermit
