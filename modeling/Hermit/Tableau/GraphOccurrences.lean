import Hermit.Tableau.DescriptionGraphs

/-! # Occurrence lists

The list of a node holds exactly its places in the stored tuples: a stored tuple puts its places
on top, and the tuples that a backtracked table removes take as many off.
-/

namespace Hermit

open List

/-! ## Occurrences in tuples -/

/-- The occurrences of a node in one tuple. -/
def tupleOccurrences (graphIndex tupleIndex : ℕ) (tuple : List ℕ) (node : ℕ) : List Occurrence :=
  ((tuple.zipIdx 1).filter fun x => x.1 = node).map fun x => ⟨graphIndex, tupleIndex, x.2⟩

theorem mem_tupleOccurrences {g i node : ℕ} {tuple : List ℕ} {r : Occurrence} :
    r ∈ tupleOccurrences g i tuple node ↔
      r.graphIndex = g ∧ r.tupleIndex = i ∧ 1 ≤ r.positionInTuple ∧
        tuple[r.positionInTuple - 1]? = some node := by
  simp only [tupleOccurrences, mem_map, mem_filter, decide_eq_true_eq]
  constructor
  · rintro ⟨⟨n, p⟩, ⟨hmem, rfl⟩, rfl⟩
    have hp := mk_mem_zipIdx_iff_le_and_getElem?_sub.mp hmem
    exact ⟨rfl, rfl, hp⟩
  · rintro ⟨rfl, rfl, hp⟩
    exact ⟨(node, r.positionInTuple), ⟨mk_mem_zipIdx_iff_le_and_getElem?_sub.mpr hp, rfl⟩, rfl⟩

theorem nodup_tupleOccurrences (g i : ℕ) (tuple : List ℕ) (node : ℕ) :
    (tupleOccurrences g i tuple node).Nodup := by
  have hsnd : ((tuple.zipIdx 1).map Prod.snd).Nodup := by
    rw [zipIdx_map_snd]
    exact nodup_range'
  have hfilt := (List.Nodup.of_map _ hsnd).filter fun x => x.1 = node
  apply hfilt.map_on
  intro x hx y hy hxy
  have hx' := (mem_filter.mp hx).2
  have hy' := (mem_filter.mp hy).2
  simp only [decide_eq_true_eq] at hx' hy'
  simp only [Occurrence.mk.injEq, true_and] at hxy
  exact Prod.ext (hx'.trans hy'.symm) hxy

theorem length_tupleOccurrences (g i : ℕ) (tuple : List ℕ) (node : ℕ) :
    (tupleOccurrences g i tuple node).length = tuple.count node := by
  have hcount : ∀ (l : List ℕ) k, ((l.zipIdx k).filter fun x => x.1 = node).length =
      l.count node := by
    intro l
    induction l with
    | nil => exact fun _ => rfl
    | cons a l ih =>
      intro k
      by_cases h : a = node <;> simp [h, ih]
  rw [tupleOccurrences, length_map, hcount]

/-- How often a node occurs in the tuples that a table removes. -/
def GraphTable.removedCount (x : GraphTable) (level node : ℕ) : ℕ :=
  (x.tuples.drop (x.indicesByBranchingPoint level).afterDeltaNew).flatten.count node

namespace DescriptionGraphManager

theorem pushOccurrences_apply (g i : ℕ) (tuple : List ℕ) (occurrences : ℕ → List Occurrence)
    (node : ℕ) :
    pushOccurrences g i tuple occurrences node =
      tupleOccurrences g i tuple node ++ occurrences node := by
  have hpush : ∀ (l : List (ℕ × ℕ)),
      l.foldr (fun x (occurrences : ℕ → List Occurrence) => Function.update occurrences x.1
        (⟨g, i, x.2⟩ :: occurrences x.1)) occurrences node =
      ((l.filter fun x => x.1 = node).map fun x => Occurrence.mk g i x.2) ++ occurrences node := by
    intro l
    induction l with
    | nil => rfl
    | cons x l ih =>
      by_cases h : x.1 = node
      · subst h
        simp [ih]
      · simp [h, Function.update_of_ne (Ne.symm h), ih]
  exact hpush _

theorem popOccurrences_apply (occurrences : ℕ → List Occurrence) (tuple : List ℕ) (node : ℕ) :
    popOccurrences occurrences tuple node = (occurrences node).drop (tuple.count node) := by
  induction tuple with
  | nil => rfl
  | cons n tuple ih =>
    rw [popOccurrences, foldr_cons]
    rw [popOccurrences] at ih
    by_cases h : n = node
    · subst h
      rw [Function.update_self, ih, tail_drop, count_cons_self]
    · rw [Function.update_of_ne (Ne.symm h), ih, count_cons_of_ne h]

theorem foldl_popOccurrences_apply (tuples : List (List ℕ)) (occurrences : ℕ → List Occurrence)
    (node : ℕ) :
    tuples.foldl popOccurrences occurrences node =
      (occurrences node).drop (tuples.flatten.count node) := by
  induction tuples generalizing occurrences with
  | nil => rfl
  | cons tuple tuples ih =>
    rw [foldl_cons, ih, popOccurrences_apply, drop_drop, flatten_cons, count_append]

/-- How often a node occurs in what the tables remove. -/
def removedCount (tables : List GraphTable) (level node : ℕ) : ℕ :=
  (tables.map fun table => table.removedCount level node).sum

theorem backtrack_occurrences_apply (m : DescriptionGraphManager) (level node : ℕ) :
    (m.backtrack level).occurrences node =
      (m.occurrences node).drop (removedCount m.tables level node) := by
  have hpop : ∀ (tables : List GraphTable) occurrences, tables.foldl (fun occurrences table =>
        (table.backtrack level).1.foldl popOccurrences occurrences) occurrences node =
      (occurrences node).drop (removedCount tables level node) := by
    intro tables
    induction tables with
    | nil => exact fun _ => rfl
    | cons table tables ih =>
      intro occurrences
      rw [foldl_cons, ih, foldl_popOccurrences_apply, drop_drop]
      congr 1
      have hperm : ((table.tuples.drop
        (table.indicesByBranchingPoint level).afterDeltaNew).reverse).flatten.Perm
          (table.tuples.drop (table.indicesByBranchingPoint level).afterDeltaNew).flatten :=
        (reverse_perm _).flatten
      simp only [GraphTable.backtrack, removedCount, GraphTable.removedCount, map_cons, sum_cons,
        hperm.count_eq]
  exact hpop _ _

variable {m : DescriptionGraphManager}

/-- Storing a tuple changes nothing, or it puts the tuple at the end of its table and its places on
top of the lists. -/
theorem addTuple_cases (m : DescriptionGraphManager) (g : ℕ) (tuple : List ℕ) :
    m.addTuple g tuple = m ∧ (∀ table, m.tables[g]? = some table → tuple ∈ table.tuples) ∨
      ∃ table, m.tables[g]? = some table ∧ tuple ∉ table.tuples ∧
        m.addTuple g tuple = ⟨m.tables.set g { table with
          tuples := table.tuples ++ [tuple]
          marks := { table.marks with afterDeltaNew := table.tuples.length + 1 } },
          pushOccurrences g table.tuples.length tuple m.occurrences⟩ := by
  cases hg : m.tables[g]? with
  | none => exact .inl ⟨by rw [addTuple, hg], fun _ h => by cases h⟩
  | some table =>
    by_cases hmem : tuple ∈ table.tuples
    · refine .inl ⟨?_, fun _ h => by cases h; exact hmem⟩
      rw [addTuple, hg]
      simp only [GraphTable.storeTuple, if_pos hmem]
    · refine .inr ⟨table, rfl, hmem, ?_⟩
      rw [addTuple, hg]
      simp only [GraphTable.storeTuple, if_neg hmem, descriptionGraphTupleAdded]

theorem tupleAt_eq_some {g i : ℕ} {tuple : List ℕ} :
    m.tupleAt g i = some tuple ↔ ∃ table, m.tables[g]? = some table ∧
    table.tuples[i]? = some tuple := by
  rw [tupleAt, Option.bind_eq_some_iff]

theorem tupleAt_addTuple {g : ℕ} {tuple : List ℕ} {table : GraphTable}
    (hg : m.tables[g]? = some table) (hnew : tuple ∉ table.tuples) (g' i : ℕ) :
    (m.addTuple g tuple).tupleAt g' i =
      if g' = g ∧ i = table.tuples.length then some tuple else m.tupleAt g' i := by
  rcases addTuple_cases m g tuple with ⟨-, h⟩ | ⟨table', hg', -, h⟩
  · exact absurd (h table hg) hnew
  · cases hg.symm.trans hg'
    have hlt : g < m.tables.length := (List.getElem?_eq_some_iff.mp hg).1
    rw [h, tupleAt, tupleAt]
    by_cases hgg : g' = g
    · subst hgg
      simp only [getElem?_set_self hlt, Option.bind_some, hg, true_and]
      by_cases hi : i = table.tuples.length
      · simp [hi]
      · rw [if_neg hi]
        by_cases hlt' : i < table.tuples.length
        · exact getElem?_append_left hlt'
        · rw [getElem?_eq_none (by simp; omega), getElem?_eq_none (by omega)]
    · rw [if_neg fun h => hgg h.1, getElem?_set_ne (Ne.symm hgg)]

/-- A place of a node in the stored tuples. -/
def StoredAt (m : DescriptionGraphManager) (node : ℕ) (r : Occurrence) : Prop :=
  1 ≤ r.positionInTuple ∧ ∃ tuple, m.tupleAt r.graphIndex r.tupleIndex = some tuple ∧
    tuple[r.positionInTuple - 1]? = some node

/-- Every list holds the places of its node, each of them once. -/
def ExactOccurrences (m : DescriptionGraphManager) : Prop :=
  ∀ node, (m.occurrences node).Nodup ∧ ∀ r, r ∈ m.occurrences node ↔ m.StoredAt node r

theorem ExactOccurrences.addTuple (hm : m.ExactOccurrences) (g : ℕ) (tuple : List ℕ) :
    (m.addTuple g tuple).ExactOccurrences := by
  rcases addTuple_cases m g tuple with ⟨h, -⟩ | ⟨table, hg, hnew, h⟩
  · rw [h]
    exact hm
  · intro node
    have hoccs : (m.addTuple g tuple).occurrences node =
        tupleOccurrences g table.tuples.length tuple node ++ m.occurrences node := by
      rw [h]
      exact pushOccurrences_apply _ _ _ _ _
    have hfree : m.tupleAt g table.tuples.length = none := by
      rw [tupleAt, hg]
      exact getElem?_eq_none le_rfl
    obtain ⟨hnd, hmem⟩ := hm node
    rw [hoccs]
    constructor
    · apply (nodup_tupleOccurrences _ _ _ _).append hnd
      intro r hr hr'
      obtain ⟨rg, ri, -⟩ := mem_tupleOccurrences.mp hr
      obtain ⟨-, t, ht, -⟩ := (hmem r).mp hr'
      rw [rg, ri, hfree] at ht
      cases ht
    · intro r
      simp only [mem_append, mem_tupleOccurrences, hmem, StoredAt, tupleAt_addTuple hg hnew]
      by_cases hr : r.graphIndex = g ∧ r.tupleIndex = table.tuples.length
      · obtain ⟨rg, ri⟩ := hr
        simp [rg, ri, hfree]
      · simp only [if_neg hr]
        constructor
        · rintro (⟨rg, ri, -⟩ | h')
          · exact absurd ⟨rg, ri⟩ hr
          · exact h'
        · exact .inr

theorem ExactOccurrences.congr {m' : DescriptionGraphManager} (hm : m.ExactOccurrences)
    (ht : m'.tables.map (·.tuples) = m.tables.map (·.tuples))
    (ho : m'.occurrences = m.occurrences) :
    m'.ExactOccurrences := by
  have hat : ∀ g i, m'.tupleAt g i = m.tupleAt g i := by
    intro g i
    have hg := congrArg (·[g]?) ht
    simp only [getElem?_map] at hg
    simp only [tupleAt]
    cases h' : m'.tables[g]? <;> cases h : m.tables[g]? <;> simp_all
  intro node
  rw [ho]
  simp only [StoredAt, hat]
  exact hm node

end DescriptionGraphManager

end Hermit
