import Hermit.Tableau.ExtensionTable

/-! # Indexed retrieval and scanning agree

Every index of a reachable table maps the projections of the stored tuples to their positions.
What the index of the longest bound prefix finds in a window is therefore what the tests keep
of a scan, once the remaining bindings are tested as well.
-/

namespace Hermit.ExtensionTable

open List hiding lt_irrefl
open ExtensionTable
open Option hiding min_eq_left

open Library TupleIndex

variable {arity : ℕ}

/-! ## The indexes of a list of tuples -/

/-- Every column once. -/
def Indexing (sequence : List (Fin arity)) : Prop := sequence.Nodup ∧ ∀ column, column ∈ sequence

section

variable {sequence : List (Fin arity)} (h : Indexing sequence)
include h

theorem Indexing.map_injective {t t' : Fin arity → TableauObject}
    (heq : sequence.map t = sequence.map t') : t = t' := by
  funext column
  exact map_inj_left.mp heq column (h.2 column)

theorem Indexing.exists_tuple {w : List TableauObject} (hw : w.length = sequence.length) :
    ∃ t : Fin arity → TableauObject, sequence.map t = w := by
  have hlt : ∀ column, sequence.idxOf column < w.length := by
    intro column
    rw [hw]
    exact idxOf_lt_length_of_mem (h.2 column)
  refine ⟨fun column => w.get ⟨sequence.idxOf column, hlt column⟩, ?_⟩
  apply ext_getElem
  · rw [length_map, hw]
  · intro i hi hi'
    rw [getElem_map, get_eq_getElem]
    congr 1
    exact h.1.idxOf_getElem i (by rwa [length_map] at hi)

end

/-- An index maps the projections of the tuples to their positions. -/
structure Indexed (index : TupleIndex arity)
    (tuples : List (Fin arity → TableauObject)) : Prop where
  indexing : Indexing index.indexingSequence
  map : ∃ m : List TableauObject → Option ℕ, index.Represents m ∧
    ∀ t i, m (index.indexingSequence.map t) = some i ↔ tuples[i]? = some t

section indexed

variable {index : TupleIndex arity} {tuples : List (Fin arity → TableauObject)}
    {t : Fin arity → TableauObject}

theorem indexed_clear (h : Indexing index.indexingSequence)
    (hpos : 0 < index.indexingSequence.length) :
    Indexed index.clear [] :=
  ⟨h, fun _ => none, represents_clear hpos, fun _ _ => ⟨nofun, nofun⟩⟩

/-- A new tuple is added at the end. -/
theorem Indexed.add (h : Indexed index tuples) (ht : t ∉ tuples) :
    ∃ index', index.addTuple t tuples.length = some (tuples.length, index') ∧
      Indexed index' (tuples ++ [t]) ∧ index'.indexingSequence = index.indexingSequence := by
  obtain ⟨m, hm, hmap⟩ := h.map
  have hnone : m (index.indexingSequence.map t) = none := by
    rw [eq_none_iff_forall_ne_some]
    intro i hi
    exact ht (mem_of_getElem? ((hmap t i).mp hi))
  obtain ⟨r, m', index', hstep, hadd, hm', hseq⟩ := hm.addTuple_spec t tuples.length
  rw [mapStep, hnone] at hstep
  obtain ⟨hr, rfl⟩ := Prod.mk.inj (some.inj hstep)
  obtain rfl := some.inj hr
  refine ⟨index', hadd, ⟨hseq ▸ h.indexing, _, hm', fun t' i => ?_⟩, hseq⟩
  rw [hseq]
  by_cases heq : t' = t
  · subst heq
    rw [Function.update_self, some_inj]
    constructor
    · rintro rfl
      exact getElem?_concat_length
    · intro hi
      rcases getElem?_concat_eq_some hi with hi | ⟨hi, -⟩
      · exact absurd (mem_of_getElem? hi) ht
      · exact hi.symm
  · rw [Function.update_of_ne fun hword => heq (h.indexing.map_injective hword), hmap]
    constructor
    · exact getElem?_isPrefixOf (prefix_append tuples [t])
    · intro hi
      rcases getElem?_concat_eq_some hi with hi | ⟨-, hi⟩
      · exact hi
      · exact absurd hi heq

theorem Indexed.add_stored (h : Indexed index tuples) {i : ℕ} (hi : tuples[i]? = some t) (v : ℕ) :
    ∃ index', index.addTuple t v = some (i, index') ∧ Indexed index' tuples ∧
      index'.indexingSequence = index.indexingSequence := by
  obtain ⟨m, hm, hmap⟩ := h.map
  obtain ⟨r, m', index', hstep, hadd, hm', hseq⟩ := hm.addTuple_spec t v
  rw [mapStep, (hmap t i).mpr hi] at hstep
  obtain ⟨hr, rfl⟩ := Prod.mk.inj (some.inj hstep)
  obtain rfl := some.inj hr
  exact ⟨index', hadd, ⟨hseq ▸ h.indexing, m, hm', by rw [hseq]; exact hmap⟩, hseq⟩

theorem Indexed.remove (h : Indexed index (tuples ++ [t])) (ht : t ∉ tuples) :
    ∃ r index', index.removeTuple t = some (r, index') ∧ Indexed index' tuples ∧
      index'.indexingSequence = index.indexingSequence := by
  obtain ⟨m, hm, hmap⟩ := h.map
  obtain ⟨index', hrem, hm', hseq⟩ := hm.removeTuple_spec t
    ((hmap t tuples.length).mpr getElem?_concat_length)
  refine ⟨_, index', hrem, ⟨hseq ▸ h.indexing, _, hm', fun t' i => ?_⟩, hseq⟩
  rw [hseq]
  by_cases heq : t' = t
  · subst heq
    rw [Function.update_self]
    exact ⟨nofun, fun hi => absurd (mem_of_getElem? hi) ht⟩
  · rw [Function.update_of_ne fun hword => heq (h.indexing.map_injective hword), hmap]
    constructor
    · intro hi
      rcases getElem?_concat_eq_some hi with hi | ⟨-, hi⟩
      · exact hi
      · exact absurd hi heq
    · exact getElem?_isPrefixOf (prefix_append tuples [t])

/-- Each index is changed by itself. -/
theorem exists_mapM_indexes {f : TupleIndex arity → Option (TupleIndex arity)}
    {indexes : List (TupleIndex arity)}
    (h : ∀ index ∈ indexes, ∃ index', f index = some index' ∧ Indexed index' tuples ∧
      index'.indexingSequence = index.indexingSequence) :
    ∃ indexes', indexes.mapM f = some indexes' ∧ (∀ index ∈ indexes', Indexed index tuples) ∧
      indexes'.map (·.indexingSequence) = indexes.map (·.indexingSequence) := by
  induction indexes with
  | nil => exact ⟨[], rfl, nofun, rfl⟩
  | cons index indexes ih =>
    obtain ⟨index', hf, hidx, hseq⟩ := h index mem_cons_self
    obtain ⟨indexes', hmapM, hall, hseqs⟩ := ih fun i hi => h i (mem_cons_of_mem index hi)
    refine ⟨index' :: indexes', ?_, forall_mem_cons.mpr ⟨hidx, hall⟩, ?_⟩
    · rw [mapM_cons, hf, hmapM]
      rfl
    · rw [map_cons, map_cons, hseq, hseqs]

end indexed

/-! ## Consistent tables -/

/-- All columns but the first hold nodes. -/
def NodeColumns (t : Fin arity → TableauObject) : Prop :=
  ∀ column : Fin arity, column.val ≠ 0 → ∃ id, (t column).asNode = some id

def Ordered (marks : Watermarks) : Prop :=
  marks.afterExtensionOld ≤ marks.afterExtensionThis ∧
    marks.afterExtensionThis ≤ marks.afterDeltaNew

/-- The indexes map all stored tuples, and the saved numbers are those of earlier, smaller tables.
-/
structure Consistent (indexingSequences : List (List (Fin arity))) (levels : ℕ)
    (x : ExtensionTable arity) :
    Prop where
  sequences : x.tupleIndexes.map (·.indexingSequence) = indexingSequences
  indexed : ∀ index ∈ x.tupleIndexes, Indexed index x.tuples
  nodup : x.tuples.Nodup
  nodes : ∀ t ∈ x.tuples, NodeColumns t
  ordered : Ordered x.marks
  delta : x.marks.afterDeltaNew = x.tuples.length
  saved : ∀ l < levels, ∃ w, x.indicesByBranchingPoint[l]? = some w ∧ Ordered w ∧
    w.afterDeltaNew ≤ x.tuples.length
  increasing : ∀ l l' w w', l ≤ l' → l' < levels → x.indicesByBranchingPoint[l]? = some w →
    x.indicesByBranchingPoint[l']? = some w' → w.afterDeltaNew ≤ w'.afterDeltaNew

section steps

variable {indexingSequences : List (List (Fin arity))} {levels : ℕ} {x : ExtensionTable arity}

theorem consistent_new (h : ∀ sequence ∈ indexingSequences,
      Indexing sequence ∧ 0 < sequence.length) :
    (new indexingSequences).Consistent indexingSequences 0 where
  sequences := by
    rw [new, List.map_map]
    exact List.map_id' _
  indexed := by
    intro index hindex
    obtain ⟨sequence, hsequence, rfl⟩ := List.mem_map.mp hindex
    exact indexed_clear (h sequence hsequence).1 (h sequence hsequence).2
  nodup := nodup_nil
  nodes := nofun
  ordered := ⟨le_rfl, le_rfl⟩
  delta := rfl
  saved := nofun
  increasing := nofun

theorem Consistent.clear (h : x.Consistent indexingSequences levels) :
    x.clear.Consistent indexingSequences 0 where
  sequences := by
    rw [ExtensionTable.clear, List.map_map, ← h.sequences]
    rfl
  indexed := by
    intro index hindex
    obtain ⟨index, hmem, rfl⟩ := List.mem_map.mp hindex
    obtain ⟨m, hm, -⟩ := (h.indexed index hmem).map
    exact indexed_clear (h.indexed index hmem).indexing hm.nonempty
  nodup := nodup_nil
  nodes := nofun
  ordered := ⟨le_rfl, le_rfl⟩
  delta := rfl
  saved := nofun
  increasing := nofun

theorem Consistent.propagateDeltaNew (h : x.Consistent indexingSequences levels) :
    x.propagateDeltaNew.2.Consistent indexingSequences levels where
  sequences := h.sequences
  indexed := h.indexed
  nodup := h.nodup
  nodes := h.nodes
  ordered := ⟨h.ordered.2, h.delta.le⟩
  delta := rfl
  saved := h.saved
  increasing := h.increasing

/-- A tuple was stored, or it is now at the end; nothing fails. -/
theorem Consistent.storeTuple (h : x.Consistent indexingSequences levels)
    (hne : indexingSequences ≠ []) {t : Fin arity → TableauObject} (ht : NodeColumns t) :
    ∃ outcome y, x.storeTuple t = some (outcome, y) ∧ y.Consistent indexingSequences levels ∧
      y.indicesByBranchingPoint = x.indicesByBranchingPoint ∧
      ((∃ i, outcome = .alreadyPresent i ∧ x.tuples[i]? = some t ∧ y.tuples = x.tuples) ∨
        outcome = .added x.tuples.length ∧ t ∉ x.tuples ∧ y.tuples = x.tuples ++ [t]) := by
  have hidxs : x.tupleIndexes ≠ [] := by
    intro hnil
    apply hne
    rw [← h.sequences, hnil]
    rfl
  obtain ⟨primary, others, hcons⟩ := exists_cons_of_ne_nil hidxs
  have hidx := h.indexed
  have hsequences := h.sequences
  rw [hcons] at hidx hsequences
  by_cases hmem : t ∈ x.tuples
  · obtain ⟨i, hi⟩ := mem_iff_getElem?.mp hmem
    obtain ⟨hlt, -⟩ := List.getElem?_eq_some_iff.mp hi
    obtain ⟨primary', hadd, hprim, hseq⟩ :=
      (hidx primary mem_cons_self).add_stored hi x.tuples.length
    refine ⟨.alreadyPresent i, { x with tupleIndexes := primary' :: others }, ?_, ?_, rfl,
      .inl ⟨i, rfl, hi, rfl⟩⟩
    · rw [ExtensionTable.storeTuple, hcons]
      dsimp only
      rw [hadd, bind_eq_bind, bind_some]
      dsimp only
      rw [if_neg hlt.ne]
      rfl
    · exact { h with
        sequences := by rw [← hsequences, map_cons, map_cons, hseq]
        indexed := forall_mem_cons.mpr ⟨hprim, (forall_mem_cons.mp hidx).2⟩ }
  · obtain ⟨primary', hadd, hprim, hseq⟩ := (hidx primary mem_cons_self).add hmem
    have hadds : ∀ index ∈ others, ∃ index', (do
        let r ← index.addTuple t x.tuples.length
        return r.2) = some index' ∧ Indexed index' (x.tuples ++ [t]) ∧
          index'.indexingSequence = index.indexingSequence := by
      intro index hindex
      obtain ⟨index', hindex', hrest⟩ := (hidx index (mem_cons_of_mem primary hindex)).add hmem
      refine ⟨index', ?_, hrest⟩
      rw [hindex']
      rfl
    obtain ⟨others', hmapM, hoth, hseqs⟩ := exists_mapM_indexes hadds
    refine ⟨.added x.tuples.length, { x with
        tuples := x.tuples ++ [t]
        tupleIndexes := primary' :: others'
        marks := { x.marks with afterDeltaNew := (x.tuples ++ [t]).length } }, ?_, ?_, rfl,
      .inr ⟨rfl, hmem, rfl⟩⟩
    · rw [ExtensionTable.storeTuple, hcons]
      dsimp only
      rw [hadd, bind_eq_bind, bind_some]
      dsimp only
      rw [if_pos rfl, hmapM]
      rfl
    · have hlen : x.tuples.length ≤ (x.tuples ++ [t]).length := by
        rw [length_append]
        omega
      exact {
        sequences := by rw [← hsequences, map_cons, map_cons, hseq, hseqs]
        indexed := forall_mem_cons.mpr ⟨hprim, hoth⟩
        nodup := by
          rw [nodup_append]
          refine ⟨h.nodup, nodup_singleton t, fun a ha b hb => ?_⟩
          rintro rfl
          exact hmem (mem_singleton.mp hb ▸ ha)
        nodes := by
          intro a ha
          rcases mem_append.mp ha with ha | ha
          · exact h.nodes a ha
          · rwa [mem_singleton.mp ha]
        ordered := ⟨h.ordered.1, h.ordered.2.trans (h.delta.le.trans hlen)⟩
        delta := rfl
        saved := by
          intro l hl
          obtain ⟨w, hw, hord, hle⟩ := h.saved l hl
          exact ⟨w, hw, hord, hle.trans hlen⟩
        increasing := h.increasing }

theorem getElem?_pushed_self (level : ℕ) :
    (x.branchingPointPushed level).indicesByBranchingPoint[level]? = some x.marks := by
  unfold branchingPointPushed
  dsimp only
  rw [getElem?_set_self]
  rw [length_append, length_replicate]
  omega

theorem getElem?_pushed {level l : ℕ} (hne : l ≠ level) {w : Watermarks}
    (hw : x.indicesByBranchingPoint[l]? = some w) :
    (x.branchingPointPushed level).indicesByBranchingPoint[l]? = some w := by
  unfold branchingPointPushed
  dsimp only
  rw [getElem?_set_ne hne.symm]
  exact getElem?_isPrefixOf (prefix_append _ _) hw

theorem Consistent.branchingPointPushed (h : x.Consistent indexingSequences levels) :
    (x.branchingPointPushed levels).Consistent indexingSequences (levels + 1) where
  sequences := h.sequences
  indexed := h.indexed
  nodup := h.nodup
  nodes := h.nodes
  ordered := h.ordered
  delta := h.delta
  saved := by
    intro l hl
    by_cases heq : l = levels
    · subst heq
      exact ⟨x.marks, getElem?_pushed_self l, h.ordered, h.delta.le⟩
    · obtain ⟨w, hw, hrest⟩ := h.saved l (by omega)
      exact ⟨w, getElem?_pushed heq hw, hrest⟩
  increasing := by
    intro l l' w w' hle hl' hw hw'
    obtain ⟨v, hv, -, hvle⟩ : ∃ v,
      (x.branchingPointPushed levels).indicesByBranchingPoint[l]? = some v ∧
        Ordered v ∧ v.afterDeltaNew ≤ x.marks.afterDeltaNew := by
      by_cases heq : l = levels
      · subst heq
        exact ⟨x.marks, getElem?_pushed_self l, h.ordered, le_rfl⟩
      · obtain ⟨v, hv, hord, hvle⟩ := h.saved l (by omega)
        exact ⟨v, getElem?_pushed heq hv, hord, hvle.trans h.delta.ge⟩
    obtain rfl := some.inj (hv.symm.trans hw)
    by_cases heq' : l' = levels
    · subst heq'
      rw [getElem?_pushed_self] at hw'
      rwa [← some.inj hw']
    · obtain ⟨u, hu, -⟩ := h.saved l (by omega)
      obtain ⟨u', hu', -⟩ := h.saved l' (by omega)
      have hle' := h.increasing l l' u u' hle (by omega) hu hu'
      rw [getElem?_pushed (by omega) hu] at hv
      rw [getElem?_pushed heq' hu'] at hw'
      rwa [← some.inj hv, ← some.inj hw']

/-- Removing tuples one by one leaves those before a number. -/
theorem removeTuples_spec (hnd : x.tuples.Nodup) {newAfterDeltaNew k : ℕ}
    {indexes : List (TupleIndex arity)} (hle : newAfterDeltaNew ≤ k) (hk : k ≤ x.tuples.length)
    (hidx : ∀ index ∈ indexes, Indexed index (x.tuples.take k)) :
    ∃ removed indexes', x.removeTuples newAfterDeltaNew k indexes = some (removed, indexes') ∧
      (∀ index ∈ indexes', Indexed index (x.tuples.take newAfterDeltaNew)) ∧
      indexes'.map (·.indexingSequence) = indexes.map (·.indexingSequence) := by
  induction k generalizing indexes with
  | zero =>
    obtain rfl := Nat.le_zero.mp hle
    exact ⟨[], indexes, rfl, hidx, rfl⟩
  | succ k ih =>
    rw [removeTuples]
    by_cases hlt : newAfterDeltaNew < k + 1
    · have hget : x.tuples[k]? = some x.tuples[k] := getElem?_eq_getElem hk
      have htake : x.tuples.take (k + 1) = x.tuples.take k ++ [x.tuples[k]] :=
        take_succ_eq_append_getElem hk
      have hnm : x.tuples[k] ∉ x.tuples.take k := by
        have htaken := hnd.sublist (take_sublist (k + 1) x.tuples)
        rw [htake, nodup_append] at htaken
        exact fun hmem => htaken.2.2 _ hmem _ mem_cons_self rfl
      rw [htake] at hidx
      have hremoves : ∀ index ∈ indexes, ∃ index', (do
          let r ← index.removeTuple x.tuples[k]
          return r.2) = some index' ∧ Indexed index' (x.tuples.take k) ∧
            index'.indexingSequence = index.indexingSequence := by
        intro index hindex
        obtain ⟨r, index', hrem, hrest⟩ := (hidx index hindex).remove hnm
        refine ⟨index', ?_, hrest⟩
        rw [hrem]
        rfl
      obtain ⟨indexes₁, hmapM, hidx₁, hseq₁⟩ := exists_mapM_indexes hremoves
      obtain ⟨removed, indexes', hrun, hidx', hseq'⟩ := ih (Nat.lt_succ_iff.mp hlt) (by omega) hidx₁
      refine ⟨x.tuples[k] :: removed, indexes', ?_, hidx', hseq'.trans hseq₁⟩
      rw [if_pos hlt, hget, bind_eq_bind, bind_some, hmapM, bind_eq_bind, bind_some, hrun]
      rfl
    · obtain rfl : newAfterDeltaNew = k + 1 := by omega
      exact ⟨[], indexes, by rw [if_neg hlt], hidx, rfl⟩

/-- Backtracking to a level restores the table as it was when the level was pushed. -/
theorem Consistent.backtrack (h : x.Consistent indexingSequences levels) {level : ℕ}
    (hlev : level < levels) :
    ∃ removed y, x.backtrack level = some (removed, y) ∧
    y.Consistent indexingSequences (level + 1) := by
  obtain ⟨marks, hmarks, hord, hle⟩ := h.saved level hlev
  have htake : x.tuples.take x.marks.afterDeltaNew = x.tuples := by
    rw [h.delta, take_length]
  obtain ⟨removed, indexes, hrem, hidx, hseq⟩ := removeTuples_spec h.nodup
    (hle.trans h.delta.ge) h.delta.le (htake.symm ▸ h.indexed)
  refine ⟨removed, _, by
    rw [ExtensionTable.backtrack, hmarks, bind_eq_bind, bind_some, hrem]
    rfl, ?_⟩
  have hlen : (x.tuples.take marks.afterDeltaNew).length = marks.afterDeltaNew := by
    rw [length_take, min_eq_left hle]
  exact {
    sequences := hseq.trans h.sequences
    indexed := hidx
    nodup := h.nodup.sublist (take_sublist _ _)
    nodes := fun t ht => h.nodes t (mem_of_mem_take ht)
    ordered := hord
    delta := hlen.symm
    saved := by
      intro l hl
      obtain ⟨w, hw, hwordered, -⟩ := h.saved l (by omega)
      refine ⟨w, hw, hwordered, ?_⟩
      rw [hlen]
      exact h.increasing l level w marks (by omega) hlev hw hmarks
    increasing := fun l l' w w' hle' hl' => h.increasing l l' w w' hle' (by omega) }

end steps

/-! ## Reachable tables -/

/-- The tables of a run, with the number of branching points.  A new branching point comes on
top of the others, and backtracking keeps the one it goes back to. -/
inductive Reachable (kind : TableKind) : ℕ → ExtensionTable kind.arity → Prop
  | new : Reachable kind 0 (new kind.indexingSequences)
  | store {n x t outcome y} : Reachable kind n x → NodeColumns t →
    x.storeTuple t = some (outcome, y) →
      Reachable kind n y
  | propagate {n x} : Reachable kind n x → Reachable kind n x.propagateDeltaNew.2
  | push {n x} : Reachable kind n x → Reachable kind (n + 1) (x.branchingPointPushed n)
  | backtrack {n x level removed y} : Reachable kind n x → level < n →
    x.backtrack level = some (removed, y) →
      Reachable kind (level + 1) y
  | clear {n x} : Reachable kind n x → Reachable kind 0 x.clear

section reachable

variable {kind : TableKind} {n : ℕ} {x : ExtensionTable kind.arity}

theorem indexing_indexingSequences (kind : TableKind) :
    ∀ sequence ∈ kind.indexingSequences, Indexing sequence ∧ 0 < sequence.length := by
  cases kind with
  | binary =>
    change ∀ sequence ∈ TableKind.binarySequences,
      (sequence.Nodup ∧ ∀ column : Fin 2, column ∈ sequence) ∧ 0 < sequence.length
    decide
  | ternary =>
    change ∀ sequence ∈ TableKind.ternarySequences,
      (sequence.Nodup ∧ ∀ column : Fin 3, column ∈ sequence) ∧ 0 < sequence.length
    decide

theorem indexingSequences_ne_nil (kind : TableKind) : kind.indexingSequences ≠ [] := by
  cases kind <;> exact cons_ne_nil _ _

theorem Reachable.consistent (h : Reachable kind n x) : x.Consistent kind.indexingSequences n := by
  induction h with
  | new => exact consistent_new (indexing_indexingSequences kind)
  | store _ ht hstore ih =>
    obtain ⟨outcome, y, hy, hconsistent, -⟩ := ih.storeTuple (indexingSequences_ne_nil kind) ht
    obtain ⟨-, rfl⟩ := Prod.mk.inj (some.inj (hstore.symm.trans hy))
    exact hconsistent
  | propagate _ ih => exact ih.propagateDeltaNew
  | push _ ih => exact ih.branchingPointPushed
  | backtrack _ hlev hback ih =>
    obtain ⟨removed, y, hy, hconsistent⟩ := ih.backtrack hlev
    obtain ⟨-, rfl⟩ := Prod.mk.inj (some.inj (hback.symm.trans hy))
    exact hconsistent
  | clear _ ih => exact ih.clear

/-- Storing adds the tuple if it is not there. -/
theorem Reachable.exists_store (h : Reachable kind n x) {t : Fin kind.arity → TableauObject}
    (ht : NodeColumns t) : ∃ outcome y, x.storeTuple t = some (outcome, y) ∧ Reachable kind n y ∧
      ∀ u, u ∈ y.tuples ↔ u ∈ x.tuples ∨ u = t := by
  obtain ⟨outcome, y, hy, -, -, hst⟩ := h.consistent.storeTuple (indexingSequences_ne_nil kind) ht
  refine ⟨outcome, y, hy, .store h ht hy, fun u => ?_⟩
  rcases hst with ⟨i, -, hi, htup⟩ | ⟨-, -, htup⟩
  · have hmem : t ∈ x.tuples := mem_of_getElem? hi
    rw [htup]
    exact ⟨.inl, fun hu => hu.elim id fun hu => hu ▸ hmem⟩
  · rw [htup, mem_append, mem_singleton]

/-- Every list of distinct tuples can be stored. -/
theorem exists_reachable {l : List (Fin kind.arity → TableauObject)} (hl : l.Nodup)
    (hnodes : ∀ t ∈ l, NodeColumns t) : ∃ x, Reachable kind 0 x ∧ x.tuples = l := by
  induction l using List.reverseRecOn with
  | nil => exact ⟨_, .new, rfl⟩
  | append_singleton l t ih =>
    obtain ⟨hl', -, hnew⟩ := nodup_append.mp hl
    obtain ⟨x, hx, rfl⟩ := ih hl' fun u hu => hnodes u (mem_append_left _ hu)
    have ht := hnodes t (mem_append_right _ mem_cons_self)
    obtain ⟨outcome, y, hy, -, -, hst⟩ :=
      hx.consistent.storeTuple (indexingSequences_ne_nil kind) ht
    rcases hst with ⟨i, -, hi, -⟩ | ⟨-, -, htup⟩
    · exact absurd rfl (hnew t (mem_of_getElem? hi) t mem_cons_self)
    · exact ⟨y, .store hx ht hy, htup⟩

/-- No operation of a run fails. -/
theorem Reachable.store_backtrack_ne_none (h : Reachable kind n x)
    {t : Fin kind.arity → TableauObject}
    (ht : NodeColumns t) {level : ℕ} (hlev : level < n) : x.storeTuple t ≠ none ∧
    x.backtrack level ≠ none := by
  obtain ⟨outcome, y, hy, -⟩ := h.exists_store ht
  obtain ⟨removed, z, hz, -⟩ := h.consistent.backtrack hlev
  rw [hy, hz]
  exact ⟨some_ne_none _, some_ne_none _⟩

/-- Two tuples are removed again, and one of them could be stored once more. -/
theorem store_backtrack_ne_none_pushed : ∃ x : ExtensionTable 2, Reachable .binary 1 x ∧
    ![.concept 5, .node 3] ∈ x.tuples ∧ ![.concept 5, .node 4] ∈ x.tuples ∧
      x.storeTuple ![.concept 5, .node 3] ≠ none ∧ x.backtrack 0 ≠ none := by
  have hnodes : ∀ n, NodeColumns (![.concept 5, .node n] : Fin 2 → TableauObject) := fun n =>
    Fin.forall_fin_two.mpr ⟨fun h => absurd rfl h, fun _ => ⟨n, rfl⟩⟩
  obtain ⟨-, x, -, hx, hmem⟩ :=
    (Reachable.push .new : Reachable .binary 1 _).exists_store (hnodes 3)
  obtain ⟨-, y, -, hy, hmem'⟩ := hx.exists_store (hnodes 4)
  exact ⟨y, hy, (hmem' _).mpr (.inl ((hmem _).mpr (.inr rfl))), (hmem' _).mpr (.inr rfl),
    Reachable.store_backtrack_ne_none hy (hnodes 3) Nat.zero_lt_one⟩

end reachable

section bound

variable (bindingPositions : Fin arity → Option ℕ) (bindingsBuffer : List (Option TableauObject))

/-- The value that a column is bound to. -/
def slotValue (column : Fin arity) : Option TableauObject :=
  (bindingPositions column).bind fun position => bindingsBuffer[position]?.getD none

/-- Every bound column has a value. -/
def SlotsSet : Prop :=
  ∀ column position, bindingPositions column = some position → ∃ o,
    bindingsBuffer[position]? = some (some o)

variable {bindingPositions bindingsBuffer}

theorem SlotsSet.slotValue (h : SlotsSet bindingPositions bindingsBuffer) {column : Fin arity}
    {position : ℕ} (hposn : bindingPositions column = some position) :
    bindingsBuffer[position]? = some (slotValue bindingPositions bindingsBuffer column) ∧
      (slotValue bindingPositions bindingsBuffer column).isSome := by
  obtain ⟨o, ho⟩ := h column position hposn
  rw [ExtensionTable.slotValue, hposn, bind_some, ho]
  exact ⟨rfl, rfl⟩

variable (h : SlotsSet bindingPositions bindingsBuffer)
include h

/-- The selected slots hold the values of the selected columns. -/
theorem exists_selection {columns : List (Fin arity)}
    (hbd : ∀ column ∈ columns, (bindingPositions column).isSome) :
    ∃ (selection : List ℕ) (objects : List TableauObject),
    columns.mapM bindingPositions = some selection ∧
      selection.mapM (fun i => bindingsBuffer[i]?.getD none) = some objects ∧
      selection.length = columns.length ∧ ∀ t, objects = columns.map t ↔
        ∀ column ∈ columns, slotValue bindingPositions bindingsBuffer column = some (t column) := by
  induction columns with
  | nil => exact ⟨[], [], rfl, rfl, rfl, fun t => ⟨nofun, fun _ => rfl⟩⟩
  | cons column columns ih =>
    obtain ⟨hcol, hcols⟩ := forall_mem_cons.mp hbd
    obtain ⟨selection, objects, hsel, hobjs, hlen, hmatch⟩ := ih hcols
    obtain ⟨position, hposn⟩ := isSome_iff_exists.mp hcol
    obtain ⟨hslot, hsome⟩ := h.slotValue hposn
    obtain ⟨o, ho⟩ := isSome_iff_exists.mp hsome
    refine ⟨position :: selection, o :: objects, ?_, ?_, ?_, fun t => ?_⟩
    · rw [mapM_cons, hposn, hsel]
      rfl
    · rw [mapM_cons, hslot, ho, hobjs]
      rfl
    · rw [length_cons, length_cons, hlen]
    · rw [map_cons, List.cons.injEq, hmatch, forall_mem_cons, ho, some_inj]

theorem selectionMatches_eq (t : Fin arity → TableauObject) (columns : List (Fin arity)) :
    selectionMatches bindingPositions bindingsBuffer t columns = some (columns.all fun column =>
      (bindingPositions column).isNone || slotValue bindingPositions bindingsBuffer column = some
      (t column)) := by
  induction columns with
  | nil => rfl
  | cons column columns ih =>
    rw [selectionMatches, all_cons]
    cases hposn : bindingPositions column with
    | none => exact ih
    | some position =>
      dsimp only
      rw [(h.slotValue hposn).1, bind_eq_bind, bind_some]
      by_cases heq : slotValue bindingPositions bindingsBuffer column = some (t column)
      · rw [if_pos heq, ih, decide_eq_true heq]
        rfl
      · rw [if_neg heq, decide_eq_false heq]
        rfl

end bound

section select

variable {bindingPositions : Fin arity → Option ℕ}

theorem select_spec (bindingPositions : Fin arity → Option ℕ) (indexes : List (TupleIndex arity))
    (selected : Option (TupleIndex arity × ℕ)) :
    let result := indexes.foldl (fun selected index =>
      let bound := boundPrefix bindingPositions index.indexingSequence
      if selected.elim 0 Prod.snd < bound then some (index, bound) else selected) selected
    (result = selected ∨ ∃ index ∈ indexes,
      0 < boundPrefix bindingPositions index.indexingSequence ∧
      result = some (index, boundPrefix bindingPositions index.indexingSequence)) ∧
    (result = none → selected = none ∧
      ∀ index ∈ indexes, boundPrefix bindingPositions index.indexingSequence = 0) := by
  induction indexes generalizing selected with
  | nil => exact ⟨.inl rfl, fun h => ⟨h, nofun⟩⟩
  | cons index indexes ih =>
    dsimp only
    rw [foldl_cons]
    by_cases hlt : selected.elim 0 Prod.snd < boundPrefix bindingPositions index.indexingSequence
    · rw [if_pos hlt]
      obtain ⟨hcases, hnone⟩ :=
        ih (some (index, boundPrefix bindingPositions index.indexingSequence))
      refine ⟨.inr ?_, fun h => absurd (hnone h).1 (some_ne_none _)⟩
      rcases hcases with hcases | ⟨index', hmem, hrest⟩
      · exact ⟨index, mem_cons_self, by omega, hcases⟩
      · exact ⟨index', mem_cons_of_mem index hmem, hrest⟩
    · rw [if_neg hlt]
      obtain ⟨hcases, hnone⟩ := ih selected
      constructor
      · rcases hcases with hcases | ⟨index', hmem, hrest⟩
        · exact .inl hcases
        · exact .inr ⟨index', mem_cons_of_mem index hmem, hrest⟩
      · intro h
        obtain ⟨rfl, hall⟩ := hnone h
        rw [elim_none, Nat.not_lt, Nat.le_zero] at hlt
        exact ⟨rfl, forall_mem_cons.mpr ⟨hlt, hall⟩⟩

variable {x : ExtensionTable arity}

theorem selectIndex_eq_some {index : TupleIndex arity} {bestPrefix : ℕ}
    (h : x.selectIndex bindingPositions = some (index, bestPrefix)) :
    index ∈ x.tupleIndexes ∧ 0 < bestPrefix ∧ index.indexingSequence.take bestPrefix =
        index.indexingSequence.takeWhile fun column => (bindingPositions column).isSome := by
  rcases (select_spec bindingPositions x.tupleIndexes.reverse none).1
    with hnone | ⟨index', hmem, hpos, hsome⟩
  · cases hnone.symm.trans h
  · obtain ⟨rfl, rfl⟩ := Prod.mk.inj (some.inj (hsome.symm.trans h))
    refine ⟨mem_reverse.mp hmem, hpos, ?_⟩
    exact (prefix_iff_eq_take.mp <| takeWhile_prefix _).symm

/-- No index is selected just if none has a bound first column. -/
theorem selectIndex_eq_none_iff : x.selectIndex bindingPositions = none ↔
    ∀ index ∈ x.tupleIndexes, boundPrefix bindingPositions index.indexingSequence = 0 := by
  obtain ⟨hcases, hnone⟩ := select_spec bindingPositions x.tupleIndexes.reverse none
  constructor
  · intro h index hindex
    exact (hnone h).2 index (mem_reverse.mpr hindex)
  · intro h
    rcases hcases with hcases | ⟨index, hmem, hpos, -⟩
    · exact hcases
    · rw [h index (mem_reverse.mp hmem)] at hpos
      exact absurd hpos (lt_irrefl 0)

end select

/-! ## The tests -/

section

variable {test : ℕ → Option Bool} {p : ℕ → Bool} {l : List ℕ} (h : ∀ i ∈ l, test i = some (p i))
include h

theorem retain_eq : retain test l = some (l.filter p) := by
  induction l with
  | nil => rfl
  | cons i l ih =>
    obtain ⟨hi, hl⟩ := forall_mem_cons.mp h
    rw [retain, hi, ih hl, filter_cons]
    rfl

theorem anyOf_eq : anyOf test l = some (l.any p) := by
  induction l with
  | nil => rfl
  | cons i l ih =>
    obtain ⟨hi, hl⟩ := forall_mem_cons.mp h
    rw [anyOf, hi, ih hl, any_cons]
    cases p i <;> rfl

end

theorem NodeColumns.exists_nodes {t : Fin arity → TableauObject} (h : NodeColumns t)
    (isActive : Fin (2 ^ 61) → Bool) {columns : List (Fin arity)}
    (hcols : ∀ column ∈ columns, column.val ≠ 0) :
    ∃ nodes, columns.mapM (fun column => (t column).asNode) = some nodes ∧
      nodes.all isActive = columns.all fun column => (t column).asNode.any isActive := by
  induction columns with
  | nil => exact ⟨[], rfl, rfl⟩
  | cons column columns ih =>
    obtain ⟨hcol, hcols⟩ := forall_mem_cons.mp hcols
    obtain ⟨id, hid⟩ := h column hcol
    obtain ⟨nodes, hnodes, hall⟩ := ih hcols
    refine ⟨id :: nodes, ?_, ?_⟩
    · rw [mapM_cons, hid, hnodes]
      rfl
    · rw [all_cons, all_cons, hall, hid]
      rfl

theorem val_ne_zero_of_mem_drop {column : Fin arity} (h : column ∈ (List.finRange arity).drop 1) :
    column.val ≠ 0 := by
  obtain ⟨i, hi, rfl⟩ := getElem_of_mem h
  rw [getElem_drop, getElem_finRange]
  simp

section retrieved

variable {indexingSequences : List (List (Fin arity))} {levels : ℕ} {x : ExtensionTable arity}
  {bindingPositions : Fin arity → Option ℕ} {bindingsBuffer : List (Option TableauObject)}
  {isActive : Fin (2 ^ 61) → Bool} {view : View}

/-- Whether a tuple has active nodes only, and the bound values. -/
def kept (bindingPositions : Fin arity → Option ℕ) (bindingsBuffer : List (Option TableauObject))
    (isActive : Fin (2 ^ 61) → Bool) (t : Fin arity → TableauObject) : Bool :=
  (((List.finRange arity).drop 1).all fun column => (t column).asNode.any isActive) &&
    (List.finRange arity).all fun column =>
      (bindingPositions column).isNone || slotValue bindingPositions bindingsBuffer column =
        some (t column)

theorem slotValue_of_kept {t : Fin arity → TableauObject}
    (h : kept bindingPositions bindingsBuffer isActive t)
    {column : Fin arity} (hbd : (bindingPositions column).isSome) :
    slotValue bindingPositions bindingsBuffer column = some (t column) := by
  rw [kept, Bool.and_eq_true, List.all_eq_true, List.all_eq_true] at h
  have hcol := h.2 column (mem_finRange column)
  rw [Bool.or_eq_true, isNone_iff_eq_none, decide_eq_true_iff] at hcol
  rcases hcol with hnone | hval
  · rw [hnone] at hbd
    cases hbd
  · exact hval

variable (h : x.Consistent indexingSequences levels)
    (hslots : SlotsSet bindingPositions bindingsBuffer)

include h

variable {i : ℕ}

theorem Consistent.lt_length (hi : x.inView view i) : i < x.tuples.length := by
  obtain ⟨hold, hthis⟩ := h.ordered
  have hdelta := h.delta
  rw [inView, Bool.and_eq_true, decide_eq_true_iff, decide_eq_true_iff] at hi
  have hlt := hi.2
  cases view <;> simp only [viewRange] at hlt <;> omega

omit h in
theorem mem_window : i ∈ x.window view ↔ x.inView view i := by
  rw [window, mem_range'_1, inView, Bool.and_eq_true, decide_eq_true_iff, decide_eq_true_iff]
  omega

include hslots

/-- On the tuples of a view the test succeeds. -/
theorem Consistent.keep_eq (hi : x.inView view i) :
    x.keep bindingPositions bindingsBuffer isActive i =
      some (x.tuples[i]?.any (kept bindingPositions bindingsBuffer isActive)) := by
  obtain ⟨t, hget⟩ : ∃ t, x.tuples[i]? = some t := ⟨_, getElem?_eq_getElem (h.lt_length hi)⟩
  obtain ⟨nodes, hnodes, hall⟩ := (h.nodes _ (mem_of_getElem? hget)).exists_nodes isActive
    fun column => val_ne_zero_of_mem_drop
  rw [keep, hget, bind_eq_bind, bind_some, hnodes, bind_eq_bind, bind_some, hall,
    selectionMatches_eq hslots, any_some, kept]
  cases ((List.finRange arity).drop 1).all fun column => (t column).asNode.any isActive <;> rfl

/-- The tuples below the bound values of the selected index. -/
theorem Consistent.select (isActive : Fin (2 ^ 61) → Bool) {index : TupleIndex arity}
    {bestPrefix : ℕ} (hselect : x.selectIndex bindingPositions = some (index, bestPrefix)) :
    ∃ (m : List TableauObject → Option ℕ) (selection : List ℕ) (objects : List TableauObject),
      index.Represents m ∧ Separates m index.indexingSequence.length ∧
      (index.indexingSequence.take bestPrefix).mapM bindingPositions = some selection ∧
      selection.mapM (fun i => bindingsBuffer[i]?.getD none) = some objects ∧
      0 < selection.length ∧ selection.length ≤ index.indexingSequence.length ∧
      ∀ v, x.tuples[v]?.any (kept bindingPositions bindingsBuffer isActive) →
        Matches m index.indexingSequence.length objects v := by
  obtain ⟨hmem, hpos, htake⟩ := selectIndex_eq_some hselect
  obtain ⟨hindexing, m, hm, hmap⟩ := h.indexed index hmem
  have hbd : ∀ column ∈ index.indexingSequence.takeWhile fun column =>
      (bindingPositions column).isSome,
      (bindingPositions column).isSome := List.all_eq_true.mp all_takeWhile
  obtain ⟨selection, objects, hsel, hobjs, hlen, hmatch⟩ := exists_selection hslots
    (fun column hcol => hbd column (htake ▸ hcol))
  have hlen' := hlen
  rw [length_take] at hlen'
  have hnonempty := hm.nonempty
  refine ⟨m, selection, objects, hm, ?_, hsel, hobjs, by omega, by omega, fun v hv => ?_⟩
  · intro w w' hw hw' v hv hv'
    obtain ⟨t, rfl⟩ := hindexing.exists_tuple hw
    obtain ⟨t', rfl⟩ := hindexing.exists_tuple hw'
    rw [some.inj (((hmap t v).mp hv).symm.trans ((hmap t' v).mp hv'))]
  · obtain ⟨t, ht, hkept⟩ := (Option.any_eq_true _ _).mp hv
    refine ⟨index.indexingSequence.map t, length_map _, ?_, (hmap t v).mpr ht⟩
    rw [(hmatch t).mpr, map_take]
    · exact take_prefix _ _
    · intro column hcol
      rw [htake] at hcol
      exact slotValue_of_kept hkept (hbd column hcol)

/-- What the index finds in a view and the test keeps. -/
theorem Consistent.createRetrieval_spec (view : View) (isActive : Fin (2 ^ 61) → Bool) :
    ∃ retrieved, x.createRetrieval bindingPositions bindingsBuffer view isActive = some retrieved ∧
      retrieved.Nodup ∧ ∀ i, i ∈ retrieved ↔
        x.inView view i ∧ x.tuples[i]?.any (kept bindingPositions bindingsBuffer isActive) := by
  cases hselect : x.selectIndex bindingPositions with
  | none =>
    rw [createRetrieval, indexedTupleIndicesInto, hselect]
    refine ⟨_, retain_eq fun i hi => h.keep_eq hslots (mem_window.mp hi), ?_, fun i => ?_⟩
    · exact (nodup_range' _ Nat.one_pos).filter _
    · rw [mem_filter, mem_window]
  | some selected =>
    obtain ⟨index, bestPrefix⟩ := selected
    obtain ⟨m, selection, objects, hm, hseparates, hsel, hobjs, hpos, hle, hmatches⟩ :=
      h.select hslots isActive hselect
    obtain ⟨current, found, hopen, hfnd, hnd, hmem⟩ :=
      hm.collect_spec hobjs hpos hle hseparates
      (x.inView view)
    refine ⟨found.filter fun i =>
        x.tuples[i]?.any (kept bindingPositions bindingsBuffer isActive), ?_,
      hnd.filter _, fun i => ?_⟩
    · have hidx : x.indexedTupleIndicesInto bindingPositions bindingsBuffer view =
          some (some found) := by
        rw [indexedTupleIndicesInto, hselect]
        dsimp only
        rw [hsel, bind_eq_bind, bind_some, hopen, bind_eq_bind, bind_some, hfnd]
        rfl
      rw [createRetrieval, hidx]
      exact retain_eq fun i hi => h.keep_eq hslots ((hmem i).mp hi).1
    · rw [mem_filter, hmem]
      exact ⟨fun hi => ⟨hi.1.1, hi.2⟩, fun hi => ⟨⟨hi.1, hmatches i hi.2⟩, hi.2⟩⟩

theorem Consistent.keepAndVisit_eq (isActive : Fin (2 ^ 61) → Bool) (visit : ℕ → Bool)
    (hi : x.inView view i) :
    x.keepAndVisit bindingPositions bindingsBuffer isActive visit i =
      some (x.tuples[i]?.any (kept bindingPositions bindingsBuffer isActive) && visit i) := by
  rw [keepAndVisit, h.keep_eq hslots hi]
  rfl

/-- Whether the index finds a tuple of a view that the test keeps and the visitor accepts. -/
theorem Consistent.indexedVisit_spec (view : View) (isActive : Fin (2 ^ 61) → Bool)
    (visit : ℕ → Bool) :
    ∃ r, x.indexedVisit bindingPositions bindingsBuffer view
        (x.keepAndVisit bindingPositions bindingsBuffer isActive visit) = some r ∧
      (r = none ↔ x.selectIndex bindingPositions = none) ∧
      ∀ found, r = some found → (found = true ↔ ∃ i, (x.inView view i ∧
        x.tuples[i]?.any (kept bindingPositions bindingsBuffer isActive)) ∧ visit i) := by
  rw [indexedVisit]
  cases hselect : x.selectIndex bindingPositions with
  | none => exact ⟨none, rfl, ⟨fun _ => rfl, fun _ => rfl⟩, nofun⟩
  | some selected =>
    obtain ⟨index, bestPrefix⟩ := selected
    obtain ⟨m, selection, objects, hm, -, hsel, hobjs, hpos, hle, hmatches⟩ :=
      h.select hslots isActive hselect
    obtain ⟨current, found, hopen, hfnd, hiff⟩ := hm.visit_spec hobjs hpos hle (x.inView view)
      fun i hi => h.keepAndVisit_eq hslots isActive visit hi
    refine ⟨some found, ?_, ⟨nofun, nofun⟩, ?_⟩
    · dsimp only
      rw [hsel, bind_eq_bind, bind_some, hopen, bind_eq_bind, bind_some, hfnd]
      rfl
    · intro found' heq
      obtain rfl := some.inj heq
      rw [hiff]
      constructor
      · rintro ⟨i, hview, hvis, -⟩
        rw [Bool.and_eq_true] at hvis
        exact ⟨i, ⟨hview, hvis.1⟩, hvis.2⟩
      · rintro ⟨i, ⟨hview, hkept⟩, hvis⟩
        exact ⟨i, hview, by rw [Bool.and_eq_true]; exact ⟨hkept, hvis⟩, hmatches i hkept⟩

end retrieved

/-- After any run, what the longest bound prefix finds and the test keeps is what the test keeps
of the ascending scan of the window, each tuple once; and the visitor is satisfied just by a
tuple of the scan. -/
theorem retrieval_eq_scan (kind : TableKind) (n : ℕ) (x : ExtensionTable kind.arity)
    (hx : Reachable kind n x)
    (bindingPositions : Fin kind.arity → Option ℕ) (bindingsBuffer : List (Option TableauObject))
    (hslots : SlotsSet bindingPositions bindingsBuffer) (view : View)
    (isActive : Fin (2 ^ 61) → Bool) :
    ∃ scanned retrieved, x.scan bindingPositions bindingsBuffer view isActive = some scanned ∧
      x.createRetrieval bindingPositions bindingsBuffer view isActive = some retrieved ∧
      retrieved.Nodup ∧ (∀ i, i ∈ retrieved ↔ i ∈ scanned) ∧ ∀ visit : ℕ → Bool,
        x.visitRetrieval bindingPositions bindingsBuffer view isActive visit = some
        (scanned.any visit) ∧ ∃ r, x.indexedVisit bindingPositions bindingsBuffer view
            (x.keepAndVisit bindingPositions bindingsBuffer isActive visit) = some r ∧
          (r = none ↔ ∀ index ∈ x.tupleIndexes,
            boundPrefix bindingPositions index.indexingSequence = 0) ∧
          ∀ found, r = some found → (found = true ↔ ∃ i ∈ scanned, visit i) := by
  have h := hx.consistent
  have hscan : x.scan bindingPositions bindingsBuffer view isActive =
    some ((x.window view).filter fun i =>
      x.tuples[i]?.any (kept bindingPositions bindingsBuffer isActive)) :=
    retain_eq fun i hi => h.keep_eq hslots (mem_window.mp hi)
  have hmem : ∀ i, i ∈ ((x.window view).filter fun i =>
      x.tuples[i]?.any (kept bindingPositions bindingsBuffer isActive)) ↔ x.inView view i ∧
        x.tuples[i]?.any (kept bindingPositions bindingsBuffer isActive) := by
    intro i
    rw [mem_filter, mem_window]
  obtain ⟨retrieved, hretrieved, hnd, hfnd⟩ := h.createRetrieval_spec hslots view isActive
  refine ⟨_, retrieved, hscan, hretrieved, hnd, fun i => by rw [hfnd, hmem], fun visit => ?_⟩
  obtain ⟨r, hr, hnone, hsome⟩ := h.indexedVisit_spec hslots view isActive visit
  have hsome' : ∀ found, r = some found → (found = true ↔ ∃ i ∈ ((x.window view).filter fun i =>
      x.tuples[i]?.any (kept bindingPositions bindingsBuffer isActive)), visit i) := by
    intro found hfnd
    rw [hsome found hfnd]
    exact exists_congr fun i => and_congr_left fun _ => (hmem i).symm
  refine ⟨?_, r, hr, hnone.trans selectIndex_eq_none_iff, hsome'⟩
  rw [visitRetrieval, hr, bind_eq_bind, bind_some]
  cases r with
  | none =>
    dsimp only
    rw [anyOf_eq fun i hi => h.keepAndVisit_eq hslots isActive visit (mem_window.mp hi),
      List.any_filter]
  | some found =>
    refine congrArg some (Bool.eq_iff_iff.mpr ?_)
    rw [hsome' found rfl, List.any_eq_true]

/-- Two concepts of one node, the second stored above a branching point. -/
theorem retrieval_eq_scan_two : ∃ x : ExtensionTable 2, Reachable .binary 1 x ∧
    x.scan ![none, some 1] [none, some (.node 3)] .total (fun _ => true) = some [0, 1] ∧
    x.createRetrieval ![none, some 1] [none, some (.node 3)] .total (fun _ => true) = some [1, 0] ∧
    x.visitRetrieval ![none, some 1] [none, some (.node 3)] .total (fun _ => true) (· == 1) =
    some true := by
  have hnodes : ∀ concept : Fin (2 ^ 61), NodeColumns ![TableauObject.concept concept, .node 3] :=
      by
    intro concept
    exact Fin.forall_fin_two.mpr ⟨fun h => absurd rfl h, fun _ => ⟨3, rfl⟩⟩
  have hslots : SlotsSet (![none, some 1] : Fin 2 → Option ℕ) [none, some (.node 3)] := by
    refine Fin.forall_fin_two.mpr ⟨nofun, fun position hposn => ?_⟩
    cases hposn
    exact ⟨_, rfl⟩
  obtain ⟨x, hx, hscan, hretr⟩ : ∃ x : ExtensionTable 2, Reachable .binary 1 x ∧
      x.scan ![none, some 1] [none, some (.node 3)] .total (fun _ => true) = some [0, 1] ∧
      x.createRetrieval ![none, some 1] [none, some (.node 3)] .total (fun _ => true) =
        some [1, 0] := by
    have hrun : (newBinaryExtensionTable.storeTuple ![.concept 5, .node 3]).bind (fun first =>
        ((first.2.branchingPointPushed 0).storeTuple ![.concept 6, .node 3]).bind fun second =>
          some (second.2.scan ![none, some 1] [none, some (.node 3)] .total (fun _ => true),
            second.2.createRetrieval ![none, some 1] [none, some (.node 3)] .total
              (fun _ => true))) =
        some (some [0, 1], some [1, 0]) := by decide +kernel
    obtain ⟨first, hfst, hrun⟩ := bind_eq_some_iff.mp hrun
    obtain ⟨second, hsnd, hrun⟩ := bind_eq_some_iff.mp hrun
    obtain ⟨hscan, hretr⟩ := Prod.mk.inj (some.inj hrun)
    exact ⟨second.2, .store (.push (.store .new (hnodes 5) hfst)) (hnodes 6) hsnd, hscan, hretr⟩
  obtain ⟨scanned, -, hscanned, -, -, -, hvis⟩ := retrieval_eq_scan .binary 1 x hx ![none, some 1]
    [none, some (.node 3)] hslots .total fun _ => true
  obtain rfl := some.inj (hscan.symm.trans hscanned)
  exact ⟨x, hx, hscan, hretr, (hvis _).1⟩

end Hermit.ExtensionTable
