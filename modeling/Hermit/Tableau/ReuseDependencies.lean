import Hermit.Library.Trail
import Hermit.Tableau.IndividualReuse

/-! # Dependency sets under reuse of individuals

Every stored dependency set that has the level of a branching point of reuse has what the assertion
expanded there depends on, as long as no existential takes a node that was made for another one
which depends on more.  Then a clash that leads back to the branching point depends on all that the
fresh successor depends on.
-/

namespace Hermit

open Option hiding min_eq_left
open List

namespace IndividualReuse

/-! ## Closed dependency sets -/

namespace State

variable {s : State} {d d' : DependencySet} {level : ℕ}

/-- What the assertion expanded at a branching point of reuse depends on. -/
def expandedSet (s : State) (level : ℕ) : Option DependencySet := do
  let branchingPoint ← s.branchingPoints[level]?
  match branchingPoint.choice with
  | .reuse existential forNode _ =>
    some (setOf (s.stored.take branchingPoint.stored) (.atLeast existential forNode))
  | _ => none

/-- A set of levels that there are, with all that the assertions expanded at them depend on. -/
def Closed (s : State) (d : DependencySet) : Prop :=
  ∀ level ∈ d, level < s.branchingPoints.length ∧ ∀ set, s.expandedSet level = some set → set ⊆ d

theorem closed_empty : s.Closed ∅ := nofun

variable {s' : State} {stored : List (Item × DependencySet)} {bp : BranchingPoint}

theorem Closed.of_eq (hd : s.Closed d) (hlen : s'.branchingPoints.length = s.branchingPoints.length)
    (hset : ∀ level, s'.expandedSet level = s.expandedSet level) : s'.Closed d := by
  unfold Closed at hd ⊢
  simpa only [hlen, hset] using hd

theorem Closed.union (h : s.Closed d) (h' : s.Closed d') : s.Closed (d ∪ d') := by
  intro level hlev
  rcases Finset.mem_union.mp hlev with hmem | hmem
  · obtain ⟨hlt, hset⟩ := h level hmem
    exact ⟨hlt, fun set heq => (hset set heq).trans Finset.subset_union_left⟩
  · obtain ⟨hlt, hset⟩ := h' level hmem
    exact ⟨hlt, fun set heq => (hset set heq).trans Finset.subset_union_right⟩

/-- Adding a level needs what its assertion depends on. -/
theorem Closed.insert (h : s.Closed d) (hlev : level < s.branchingPoints.length)
    (hset : ∀ set, s.expandedSet level = some set → set ⊆ d) : s.Closed (insert level d) := by
  intro i hi
  rcases Finset.mem_insert.mp hi with rfl | hi
  · exact ⟨hlev, fun set heq => (hset set heq).trans (Finset.subset_insert _ _)⟩
  · obtain ⟨hlt, hsub⟩ := h i hi
    exact ⟨hlt, fun set heq => (hsub set heq).trans (Finset.subset_insert _ _)⟩

theorem mem_of_lookup {item : Item} (h : stored.lookup item = some d) : (item, d) ∈ stored := by
  obtain ⟨front, rest, rfl, -⟩ := lookup_eq_some_iff.mp h
  exact mem_append_right _ mem_cons_self

theorem closed_setOf (h : ∀ p ∈ stored, s.Closed p.2) (item : Item) :
    s.Closed (setOf stored item) := by
  rw [setOf]
  cases hlook : stored.lookup item with
  | none => exact closed_empty
  | some d => exact h _ (mem_of_lookup hlook)

theorem closed_followMerges (h : ∀ p ∈ stored, s.Closed p.2)
    (fuel node : ℕ) (hd : s.Closed d) : s.Closed (followMerges stored fuel node d).2 := by
  induction fuel generalizing node d with
  | zero => exact hd
  | succ fuel ih =>
    rw [followMerges]
    cases hmg : mergedInto stored node with
    | none => exact hd
    | some r =>
      obtain ⟨into, merged⟩ := r
      refine ih into (hd.union ?_)
      obtain ⟨p, hp, heq⟩ := exists_of_findSome?_eq_some hmg
      have hset : p.2 = merged := by
        split at heq
        · split at heq
          · exact congrArg Prod.snd (some.inj heq)
          · cases heq
        · cases heq
      rw [← hset]
      exact h p hp

/-- How much was stored before every branching point. -/
def marks (s : State) : List ℕ := s.branchingPoints.map BranchingPoint.stored

/-- All stored sets and the clash are closed, and what was stored before a branching point does not
depend on it or a later one. -/
structure Invariant (s : State) : Prop where
  stored : ∀ p ∈ s.stored, s.Closed p.2
  clash : ∀ d, s.clash = some d → s.Closed d
  trail : Trail (fun level p => ∀ i ∈ p.2, i < level) s.marks s.stored

/-- The invariant depends on the branching points through the marks and the sets only. -/
theorem Invariant.of_eq (h : s.Invariant) (hst : s'.stored = s.stored)
    (hclash : s'.clash = s.clash) (hmarks : s'.marks = s.marks)
    (hset : ∀ level, s'.expandedSet level = s.expandedSet level) : s'.Invariant := by
  have hlen : s'.branchingPoints.length = s.branchingPoints.length := by
    simpa only [marks, length_map] using congrArg List.length hmarks
  have hcl : ∀ {d}, s.Closed d → s'.Closed d := fun hd => hd.of_eq hlen hset
  refine ⟨?_, ?_, ?_⟩
  · rw [hst]
    exact fun p hp => hcl (h.stored p hp)
  · rw [hclash]
    exact fun d hd => hcl (h.clash d hd)
  · rw [hst, hmarks]
    exact h.trail

theorem getElem?_marks (h : s.branchingPoints[level]? = some bp) :
    s.marks[level]? = some bp.stored := by
  rw [marks, getElem?_map, h]
  rfl

theorem Invariant.closed_unionOf (h : s.Invariant) (premises : List ℕ) :
    s.Closed (s.unionOf premises) := by
  induction premises with
  | nil => exact closed_empty
  | cons k premises ih =>
    refine Closed.union ?_ ih
    cases hk : s.stored[k]? with
    | none => exact closed_empty
    | some p => exact h.stored p (mem_of_getElem? hk)

/-- The assertion expanded at a branching point depends on earlier ones only. -/
theorem Invariant.lt_of_mem_expandedSet (h : s.Invariant) {set : DependencySet}
    (hset : s.expandedSet level = some set) {i : ℕ} (hi : i ∈ set) : i < level := by
  obtain ⟨bp, hbp, heq⟩ := bind_eq_some_iff.mp hset
  split at heq
  · obtain rfl := some.inj heq
    rw [setOf] at hi
    cases hlook : (s.stored.take bp.stored).lookup _ with
    | none =>
      rw [hlook] at hi
      exact absurd hi (Finset.notMem_empty i)
    | some d =>
      rw [hlook] at hi
      exact h.trail.before level bp.stored (getElem?_marks hbp) _ (mem_of_lookup hlook) i hi
  · cases heq

/-! ## Storing -/

theorem branchingPoints_store (s : State) (item : Item) (d : DependencySet) :
    (s.store item d).branchingPoints = s.branchingPoints := by
  rw [store]
  split <;> rfl

theorem expandedSet_store (h : s.Invariant) (item : Item) (d : DependencySet) (level : ℕ) :
    (s.store item d).expandedSet level = s.expandedSet level := by
  rw [store]
  split
  · rfl
  · cases hbp : s.branchingPoints[level]? with
    | none => simp [expandedSet, hbp]
    | some bp =>
      simp [expandedSet, hbp, take_append_of_le_length (h.trail.le_length (getElem?_marks hbp))]

theorem closed_store (h : s.Invariant) (item : Item) : (s.store item d).Closed d' ↔
    s.Closed d' := by
  unfold Closed
  simp only [branchingPoints_store, expandedSet_store h]

theorem Invariant.store (h : s.Invariant) (hd : s.Closed d) (item : Item) :
    (s.store item d).Invariant := by
  have hcl : ∀ {d'}, s.Closed d' → (s.store item d).Closed d' := (closed_store h item).mpr
  have hmarks : (s.store item d).marks = s.marks := by
    rw [marks, branchingPoints_store]
    rfl
  by_cases hold : (s.stored.lookup item).isSome
  · rwa [State.store, if_pos hold]
  · have hst : (s.store item d).stored = s.stored ++ [(item, d)] := by
      rw [State.store, if_neg hold]
    have hclash : (s.store item d).clash = s.clash := by
      rw [State.store, if_neg hold]
    refine ⟨?_, ?_, ?_⟩
    · intro p hp
      rw [hst, mem_append, mem_singleton] at hp
      rcases hp with hp | rfl
      · exact hcl (h.stored p hp)
      · exact hcl hd
    · intro d' hd'
      rw [hclash] at hd'
      exact hcl (h.clash d' hd')
    · rw [hmarks, hst]
      exact h.trail.append _

theorem Invariant.storeAll (h : s.Invariant) (hd : s.Closed d) (items : List (Item × List ℕ)) :
    (s.storeAll items d).Invariant := by
  induction items generalizing s with
  | nil => exact h
  | cons p items ih =>
    exact ih (h.store (hd.union (h.closed_unionOf p.2)) p.1) ((closed_store h p.1).mpr hd)

theorem Invariant.addRoleAssertion (h : s.Invariant) (hd : s.Closed d) (role : Role)
    (source target : ℕ) :
    (s.addRoleAssertion role source target d).Invariant := by
  cases role with
  | atomicRole r | inverseRole inverseOf => exact h.store hd _

theorem Invariant.createNewNode (h : s.Invariant) (hd : s.Closed d) (parent : Option ℕ) :
    (s.createNewNode parent d).Invariant := by
  have h' : Invariant { s with parents := s.parents ++ [parent] } :=
    h.of_eq rfl rfl rfl fun _ => rfl
  exact h'.store hd _

theorem closed_createNewNode (h : s.Invariant) (parent : Option ℕ) :
    (s.createNewNode parent d).Closed d' ↔ s.Closed d' := by
  have h' : Invariant { s with parents := s.parents ++ [parent] } :=
    h.of_eq rfl rfl rfl fun _ => rfl
  exact closed_store h' _

theorem expandedSet_pushBranchingPoint (s : State) (choice : Choice)
    (hlev : level < s.branchingPoints.length) :
    (s.pushBranchingPoint choice).expandedSet level = s.expandedSet level := by
  rw [expandedSet, expandedSet, pushBranchingPoint, getElem?_append_left hlev]

theorem length_pushBranchingPoint (s : State) (choice : Choice) :
    (s.pushBranchingPoint choice).branchingPoints.length = s.branchingPoints.length + 1 :=
  length_append

theorem Closed.pushBranchingPoint (hd : s.Closed d) (choice : Choice) :
    (s.pushBranchingPoint choice).Closed d := by
  intro level hlev
  obtain ⟨hlt, hset⟩ := hd level hlev
  refine ⟨?_, ?_⟩
  · rw [length_pushBranchingPoint]
    exact Nat.lt_add_right _ hlt
  · rw [expandedSet_pushBranchingPoint s choice hlt]
    exact hset

/-- A set with the level of a new branching point, if it has all of the assertion that is expanded.
-/
theorem Closed.insert_pushBranchingPoint (hd : s.Closed d) (choice : Choice)
    (hch : ∀ existential forNode parentReuse, choice = .reuse existential forNode parentReuse →
      setOf s.stored (.atLeast existential forNode) ⊆ d) :
    (s.pushBranchingPoint choice).Closed (Insert.insert s.branchingPoints.length d) := by
  refine (hd.pushBranchingPoint choice).insert ?_ ?_
  · rw [length_pushBranchingPoint]
    exact Nat.lt_add_one _
  · intro set hset
    rw [expandedSet, State.pushBranchingPoint, getElem?_concat_length] at hset
    cases choice with
    | reuse existential forNode parentReuse =>
      have heq : setOf (s.stored.take s.stored.length) (.atLeast existential forNode) = set :=
        some.inj hset
      rw [take_length] at heq
      rw [← heq]
      exact hch existential forNode parentReuse rfl
    | _ => cases hset

theorem Invariant.pushBranchingPoint (h : s.Invariant) (choice : Choice) :
    (s.pushBranchingPoint choice).Invariant := by
  have hmarks : (s.pushBranchingPoint choice).marks = s.marks ++ [s.stored.length] := by
    rw [marks, State.pushBranchingPoint, map_append]
    rfl
  refine ⟨?_, ?_, ?_⟩
  · exact fun p hp => (h.stored p hp).pushBranchingPoint choice
  · exact fun d hd => (h.clash d hd).pushBranchingPoint choice
  · rw [hmarks]
    refine h.trail.push ?_
    -- All that is stored depends on the levels before the new one.
    intro p hp i hi
    rw [marks, length_map]
    exact (h.stored p hp i hi).1

section

variable (h : s.Invariant) (hbp : s.branchingPoints[level]? = some bp)
include h hbp

theorem Invariant.expandedSet_backtrackTo {i : ℕ} (hi : i ≤ level) :
    (s.backtrackTo level bp).expandedSet i = s.expandedSet i := by
  rw [expandedSet, expandedSet, State.backtrackTo, getElem?_take_of_lt (Nat.lt_succ_of_le hi)]
  cases hearl : s.branchingPoints[i]? with
  | none => rfl
  | some earlier =>
    have hle := h.trail.mark_le (getElem?_marks hearl) (getElem?_marks hbp) hi
    simp only [bind_eq_bind, bind_some, take_take, min_eq_left hle]

theorem Invariant.closed_backtrackTo (hd : s.Closed d) (hle : ∀ i ∈ d, i ≤ level) :
    (s.backtrackTo level bp).Closed d := by
  have hlen := (List.getElem?_eq_some_iff.mp hbp).1
  intro i hi
  have hi' := hle i hi
  refine ⟨?_, ?_⟩
  · rw [State.backtrackTo, length_take]
    omega
  · rw [h.expandedSet_backtrackTo hbp hi']
    exact (hd i hi).2

end

theorem Invariant.backtrackTo (h : s.Invariant)
    (hbp : s.branchingPoints[level]? = some bp) : (s.backtrackTo level bp).Invariant := by
  have hmarks : (s.backtrackTo level bp).marks = s.marks.take (level + 1) := by
    rw [marks, marks, State.backtrackTo, map_take]
  refine ⟨?_, nofun, ?_⟩
  · intro p hp
    refine h.closed_backtrackTo hbp (h.stored p (mem_of_mem_take hp)) ?_
    exact fun i hi => (h.trail.before level bp.stored (getElem?_marks hbp) p hp i hi).le
  · rw [hmarks]
    exact h.trail.backtrack (getElem?_marks hbp)

/-- After backtracking no set has a later level, so that the last one can be taken away. -/
theorem Invariant.closed_erase (h : s.Invariant) (hd : s.Closed d)
    (hlast : s.branchingPoints.length = level + 1) :
    s.Closed (d.erase level) := by
  intro i hi
  obtain ⟨hne, hmem⟩ := Finset.mem_erase.mp hi
  obtain ⟨hlt, hset⟩ := hd i hmem
  refine ⟨hlt, fun set heq j hj => Finset.mem_erase.mpr ⟨?_, hset set heq hj⟩⟩
  have hlt' := h.lt_of_mem_expandedSet heq hj
  omega

/-! ## The nodes that are reused -/

def reuseMarks (s : State) : List ℕ := s.branchingPoints.map BranchingPoint.reused

/-- The recorded concepts are those with a node, and what was recorded before a branching point was
recorded at an earlier level. -/
structure ReuseInvariant (s : State) : Prop where
  lt_length : ∀ c node level, s.reusedNodes c = some (node, level) →
    level < s.branchingPoints.length
  recorded : ∀ c, c ∈ s.reuseBacktracking ↔ (s.reusedNodes c).isSome
  nodup : s.reuseBacktracking.Nodup
  trail : Trail (fun level c => ∀ node i, s.reusedNodes c = some (node, i) → i < level) s.reuseMarks
    s.reuseBacktracking

theorem ReuseInvariant.of_eq (h : s.ReuseInvariant) (hmarks : s'.reuseMarks = s.reuseMarks)
    (hnodes : s'.reusedNodes = s.reusedNodes)
    (hrec : s'.reuseBacktracking = s.reuseBacktracking) :
    s'.ReuseInvariant := by
  have hlen : s'.branchingPoints.length = s.branchingPoints.length := by
    simpa only [reuseMarks, length_map] using congrArg List.length hmarks
  refine ⟨?_, ?_, ?_, ?_⟩
  · rw [hlen, hnodes]
    exact h.lt_length
  · rw [hnodes, hrec]
    exact h.recorded
  · rw [hrec]
    exact h.nodup
  · rw [hmarks, hnodes, hrec]
    exact h.trail

theorem ReuseInvariant.store (h : s.ReuseInvariant) (item : Item) (d : DependencySet) :
    (s.store item d).ReuseInvariant := by
  rw [State.store]
  split
  · exact h
  · exact h.of_eq rfl rfl rfl

theorem ReuseInvariant.storeAll (h : s.ReuseInvariant) (items : List (Item × List ℕ))
    (d : DependencySet) :
    (s.storeAll items d).ReuseInvariant := by
  induction items generalizing s with
  | nil => exact h
  | cons p items ih => exact ih (h.store p.1 _)

theorem ReuseInvariant.addRoleAssertion (h : s.ReuseInvariant) (role : Role) (source target : ℕ)
    (d : DependencySet) : (s.addRoleAssertion role source target d).ReuseInvariant := by
  cases role with
  | atomicRole r | inverseRole inverseOf => exact h.store _ d

theorem ReuseInvariant.createNewNode (h : s.ReuseInvariant) (parent : Option ℕ)
    (d : DependencySet) :
    (s.createNewNode parent d).ReuseInvariant := by
  have h' : ReuseInvariant { s with parents := s.parents ++ [parent] } := h.of_eq rfl rfl rfl
  exact h'.store _ d

theorem ReuseInvariant.pushBranchingPoint (h : s.ReuseInvariant) (choice : Choice) :
    (s.pushBranchingPoint choice).ReuseInvariant := by
  have hmarks : (s.pushBranchingPoint choice).reuseMarks = s.reuseMarks ++
      [s.reuseBacktracking.length] := by
    rw [reuseMarks, State.pushBranchingPoint, map_append]
    rfl
  refine ⟨?_, h.recorded, h.nodup, ?_⟩
  · intro c node level hnode
    rw [length_pushBranchingPoint]
    exact Nat.lt_add_right _ (h.lt_length c node level hnode)
  · rw [hmarks]
    refine h.trail.push ?_
    intro c _ node i hnode
    rw [reuseMarks, length_map]
    exact h.lt_length c node i hnode

/-- A concept without a node is recorded at the last level. -/
theorem ReuseInvariant.recordReuse (h : s.ReuseInvariant) {concept : AtomicConcept} (node : ℕ)
    (hnew : s.reusedNodes concept = none) (hlev : level < s.branchingPoints.length) :
    (s.recordReuse concept node level).ReuseInvariant := by
  have hnot : concept ∉ s.reuseBacktracking := by
    rw [h.recorded, hnew]
    exact Bool.false_ne_true
  refine ⟨?_, ?_, ?_, ?_⟩
  · intro c node' level' hnode
    simp only [State.recordReuse] at hnode ⊢
    split at hnode
    · obtain ⟨rfl, rfl⟩ := Prod.mk.inj (some.inj hnode)
      exact hlev
    · exact h.lt_length c node' level' hnode
  · intro c
    simp only [State.recordReuse, mem_append, mem_singleton]
    split
    · rename_i heq
      exact iff_of_true (.inr heq) rfl
    · rename_i hne
      rw [or_iff_left hne]
      exact h.recorded c
  · exact nodup_append.mpr ⟨h.nodup, nodup_singleton _, fun a ha b hb => by
      rw [mem_singleton.mp hb]
      exact fun heq => hnot (heq ▸ ha)⟩
  · refine Trail.append (h.trail.imp ?_) _
    intro level' mark _ c hc hbef node' i hnode
    have hne : c ≠ concept := fun heq => hnot (heq ▸ mem_of_mem_take hc)
    simp only [State.recordReuse, if_neg hne] at hnode
    exact hbef node' i hnode

theorem ReuseInvariant.backtrackTo (h : s.ReuseInvariant)
    (hbp : s.branchingPoints[level]? = some bp) : (s.backtrackTo level bp).ReuseInvariant := by
  have hmarks : (s.backtrackTo level bp).reuseMarks = s.reuseMarks.take (level + 1) := by
    rw [reuseMarks, reuseMarks, State.backtrackTo, map_take]
  have hmark : s.reuseMarks[level]? = some bp.reused := by
    rw [reuseMarks, getElem?_map, hbp]
    rfl
  have hlen := (List.getElem?_eq_some_iff.mp hbp).1
  -- A concept that keeps its node was recorded before the mark.
  have hkept : ∀ c p, (s.backtrackTo level bp).reusedNodes c = some p →
      s.reusedNodes c = some p ∧ c ∈ s.reuseBacktracking.take bp.reused := by
    intro c p hp
    simp only [State.backtrackTo] at hp
    split at hp
    · cases hp
    · rename_i hdrop
      have hmem := (h.recorded c).mpr (isSome_of_eq_some hp)
      rw [← take_append_drop bp.reused s.reuseBacktracking, mem_append] at hmem
      exact ⟨hp, hmem.resolve_right hdrop⟩
  have hdisj : ∀ c ∈ s.reuseBacktracking.take bp.reused,
      c ∉ s.reuseBacktracking.drop bp.reused := by
    intro c htake hdrop
    have hnd := h.nodup
    rw [← take_append_drop bp.reused s.reuseBacktracking] at hnd
    exact disjoint_of_nodup_append hnd htake hdrop
  refine ⟨?_, ?_, ?_, ?_⟩
  · intro c node i hnode
    obtain ⟨hold, hmem⟩ := hkept c _ hnode
    have hlt := h.trail.before level bp.reused hmark c hmem node i hold
    rw [State.backtrackTo, length_take]
    omega
  · intro c
    constructor
    · intro hmem
      simp only [State.backtrackTo] at hmem ⊢
      rw [if_neg (hdisj c hmem)]
      exact (h.recorded c).mp (mem_of_mem_take hmem)
    · intro hsome
      obtain ⟨p, hp⟩ := isSome_iff_exists.mp hsome
      exact (hkept c p hp).2
  · exact h.nodup.sublist (take_sublist _ _)
  · rw [hmarks]
    refine Trail.imp (h.trail.backtrack hmark) ?_
    intro i mark _ c _ hbef node j hnode
    exact hbef node j (hkept c _ hnode).1

/-! ## Steps -/

/-- Both invariants. -/
structure Sound (s : State) : Prop where
  invariant : s.Invariant
  reuse : s.ReuseInvariant

theorem sound_start (doReuseAlways dontReuseEver : List AtomicConcept) :
    (start doReuseAlways dontReuseEver).Sound where
  invariant := ⟨nofun, nofun, .nil⟩
  reuse := ⟨nofun, fun _ => iff_of_false not_mem_nil Bool.false_ne_true, nodup_nil, .nil⟩

theorem Sound.store (h : s.Sound) (hd : s.Closed d) (item : Item) : (s.store item d).Sound :=
  ⟨h.invariant.store hd item, h.reuse.store item d⟩

theorem Sound.storeAll (h : s.Sound) (hd : s.Closed d) (items : List (Item × List ℕ)) :
    (s.storeAll items d).Sound :=
  ⟨h.invariant.storeAll hd items, h.reuse.storeAll items d⟩

theorem Sound.addRoleAssertion (h : s.Sound) (hd : s.Closed d) (role : Role) (source target : ℕ) :
    (s.addRoleAssertion role source target d).Sound :=
  ⟨h.invariant.addRoleAssertion hd role source target,
    h.reuse.addRoleAssertion role source target d⟩

theorem Sound.createNewNode (h : s.Sound) (hd : s.Closed d) (parent : Option ℕ) :
    (s.createNewNode parent d).Sound :=
  ⟨h.invariant.createNewNode hd parent, h.reuse.createNewNode parent d⟩

theorem Sound.pushBranchingPoint (h : s.Sound) (choice : Choice) :
    (s.pushBranchingPoint choice).Sound :=
  ⟨h.invariant.pushBranchingPoint choice, h.reuse.pushBranchingPoint choice⟩

theorem Sound.backtrackTo (h : s.Sound) (hbp : s.branchingPoints[level]? = some bp) :
    (s.backtrackTo level bp).Sound :=
  ⟨h.invariant.backtrackTo hbp, h.reuse.backtrackTo hbp⟩

theorem Sound.closed_setOf (h : s.Sound) (item : Item) : s.Closed (setOf s.stored item) :=
  State.closed_setOf h.invariant.stored item

/-- The set for an existential with a node of its own has what the assertion depends on. -/
theorem Sound.closed_insert_reuse (h : s.Sound) (atLeast : AtLeastConcept) (node : ℕ)
    (parentReuse : Bool) :
    (s.pushBranchingPoint (.reuse atLeast node parentReuse)).Closed
      (Insert.insert s.branchingPoints.length (setOf s.stored (.atLeast atLeast node))) := by
  refine (h.closed_setOf _).insert_pushBranchingPoint _ ?_
  intro existential forNode _ hch
  obtain ⟨rfl, rfl, -⟩ := Choice.reuse.inj hch
  exact Finset.Subset.refl _

variable {atLeast : AtLeastConcept}

theorem Sound.tryParentReuse (h : s.Sound) {node : ℕ}
    (hstep : s.tryParentReuse atLeast node = some s') : s'.Sound := by
  rw [State.tryParentReuse] at hstep
  split at hstep
  · cases hstep
  · obtain ⟨parent, -, hstep⟩ := bind_eq_some_iff.mp hstep
    split at hstep
    · obtain rfl := some.inj hstep
      exact (h.pushBranchingPoint _).addRoleAssertion
        (h.closed_insert_reuse atLeast node true) _ _ _
    · cases hstep

/-- The condition under which a step keeps the invariant: where an existential takes a node that was
made for another one, the set for the new edge has what the assertion of the other one depends on.
-/
def Covering (s : State) : Action → Prop
  | .expandWithModelReuse atLeast node => ∀ toConcept reuseNode branchingPoint set,
    atLeast.toConcept = .atomicConcept toConcept → atLeast.number = 1 → s.shouldReuse toConcept →
    s.reusedNodes toConcept = some (reuseNode, branchingPoint) →
      s.expandedSet branchingPoint = some set →
    set ⊆ s.addCanonicalNodeDependencySet reuseNode (setOf s.stored (.atLeast atLeast node))
  | _ => True

/-- The node of a concept is made, recorded, and given its concept and an edge. -/
theorem Sound.reusedNode (h : s.Sound) (hd : s.Closed d) {toConcept : AtomicConcept}
    (hnew : s.reusedNodes toConcept = none) (hlev : level < s.branchingPoints.length) (role : Role)
    (node existentialNode : ℕ) :
    ((((s.createNewNode none d).recordReuse toConcept existentialNode level).store
      (.concept (.atomicConcept toConcept) existentialNode) d).addRoleAssertion role node
      existentialNode d).Sound := by
  have hcr := h.createNewNode hd none
  have hnodes : (s.createNewNode none d).reusedNodes = s.reusedNodes := by
    rw [State.createNewNode, State.store]
    split <;> rfl
  have hrec : ((s.createNewNode none d).recordReuse toConcept existentialNode level).Sound := by
    refine ⟨hcr.invariant.of_eq rfl rfl rfl fun _ => rfl, hcr.reuse.recordReuse _ ?_ ?_⟩
    · rw [hnodes]
      exact hnew
    · rw [State.createNewNode, branchingPoints_store]
      exact hlev
  have hcl : ((s.createNewNode none d).recordReuse toConcept existentialNode level).Closed d :=
    Closed.of_eq ((closed_createNewNode h.invariant none).mpr hd) rfl fun _ => rfl
  exact (hrec.store hcl _).addRoleAssertion ((closed_store hrec.invariant _).mpr hcl) _ _ _

theorem Sound.expandWithModelReuse (h : s.Sound) {node : ℕ}
    (hcovering : s.Covering (.expandWithModelReuse atLeast node))
    (hstep : s.expandWithModelReuse atLeast node = some s') : s'.Sound := by
  rw [State.expandWithModelReuse] at hstep
  split at hstep
  · cases hstep
  · rename_i toConcept hconc
    split at hstep
    · rename_i hreuse
      dsimp only at hstep
      split at hstep
      · rename_i hnew
        obtain rfl := some.inj hstep
        refine (h.pushBranchingPoint (.reuse atLeast node false)).reusedNode
          (h.closed_insert_reuse atLeast node false)
          hnew ?_ _ _ _
        rw [length_pushBranchingPoint]
        exact Nat.lt_add_one _
      · rename_i reuseNode branchingPoint hold
        obtain rfl := some.inj hstep
        refine h.addRoleAssertion ?_ _ _ _
        refine Closed.insert ?_ (h.reuse.lt_length _ _ _ hold) ?_
        · exact closed_followMerges h.invariant.stored _ _ (h.closed_setOf _)
        · intro set hset
          exact hcovering toConcept reuseNode branchingPoint set hconc hreuse.1 hreuse.2 hold hset
    · cases hstep

/-- A successor is made and given its concept and an edge. -/
theorem Sound.freshSuccessor (h : s.Sound) (hd : s.Closed d) (concept : LiteralConcept)
    (role : Role)
    (node existentialNode : ℕ) :
    (((s.createNewNode (some node) d).store (.concept concept existentialNode) d).addRoleAssertion
      role node
      existentialNode d).Sound := by
  have hcr := h.createNewNode hd (some node)
  have hcl := (closed_createNewNode (d := d) h.invariant (some node)).mpr hd
  exact (hcr.store hcl _).addRoleAssertion ((closed_store hcr.invariant _).mpr hcl) _ _ _

theorem Sound.reuseStartNextChoice (h : s.Sound) (hd : s.Closed d)
    (hlast : s.branchingPoints.length = level + 1)
    (existential : AtLeastConcept) (forNode : ℕ) (wasParentReuse : Bool) :
    (s.reuseStartNextChoice level existential forNode wasParentReuse d).Sound := by
  have hcl := h.invariant.closed_erase hd hlast
  have hsound : ∀ concepts : List AtomicConcept, Sound { s with dontReuseThisRun := concepts } :=
    fun concepts => ⟨h.invariant.of_eq rfl rfl rfl fun _ => rfl, h.reuse.of_eq rfl rfl rfl⟩
  unfold State.reuseStartNextChoice
  split
  · rename_i atomic _
    exact (hsound (atomic :: s.dontReuseThisRun)).freshSuccessor
      (hcl.of_eq rfl fun _ => rfl) _ _ _ _
  · exact h.freshSuccessor hcl _ _ _ _

theorem Sound.setAlternatives (h : s.Sound) (hbp : s.branchingPoints[level]? = some bp)
    {count current : ℕ} (hch : bp.choice = .alternatives count current) (next : ℕ) :
    Sound
        { s with
          branchingPoints :=
            s.branchingPoints.set level { bp with choice := .alternatives count next } } ∧
      ∀ d, s.Closed d → Closed
        { s with
          branchingPoints :=
            s.branchingPoints.set level { bp with choice := .alternatives count next } } d := by
  obtain ⟨hlt, hget⟩ := List.getElem?_eq_some_iff.mp hbp
  have hset : ∀ i, expandedSet
      { s with
        branchingPoints :=
          s.branchingPoints.set level { bp with choice := .alternatives count next } } i =
        s.expandedSet i := by
    intro i
    by_cases hi : i = level
    · subst hi
      have hold : s.expandedSet i = none := by
        rw [expandedSet, hbp, bind_eq_bind, bind_some, hch]
      rw [hold, expandedSet, getElem?_set_self hlt]
      rfl
    · simp [expandedSet, getElem?_set_ne (Ne.symm hi)]
  have hmarks : ∀ field : BranchingPoint → ℕ,
    field { bp with choice := .alternatives count next } = field bp →
      (s.branchingPoints.set level { bp with choice := .alternatives count next }).map field =
        s.branchingPoints.map field := by
    intro field hfield
    rw [map_set, hfield, ← hget]
    exact ext_getElem? fun i => by
      by_cases hi : i = level
      · subst hi
        simp [hlt]
      · simp [getElem?_set_ne (Ne.symm hi)]
  refine ⟨⟨h.invariant.of_eq rfl rfl (hmarks _ rfl) hset, h.reuse.of_eq (hmarks _ rfl) rfl rfl⟩,
    fun d hd => ?_⟩
  exact hd.of_eq length_set hset

variable {items : List (Item × List ℕ)}

theorem Sound.startNextChoice (h : s.Sound) (hd : s.Closed d)
    (hbp : s.branchingPoints[level]? = some bp) (hlast : s.branchingPoints.length = level + 1)
    (hstep : s.startNextChoice level bp items d = some s') : s'.Sound := by
  rw [State.startNextChoice] at hstep
  split at hstep
  · cases hstep
  · rename_i count current hch
    split at hstep
    · obtain rfl := some.inj hstep
      obtain ⟨hnext, hcl⟩ := h.setAlternatives hbp hch (current + 1)
      refine hnext.storeAll (hcl _ ?_) items
      split
      · exact h.invariant.closed_erase hd hlast
      · exact hd
    · cases hstep
  · obtain rfl := some.inj hstep
    exact h.reuseStartNextChoice hd hlast _ _ _

theorem Sound.backtrackOnClash (h : s.Sound)
    (hstep : s.backtrackOnClash items = some s') : s'.Sound := by
  obtain ⟨d, hclash, hstep⟩ := bind_eq_some_iff.mp hstep
  obtain ⟨level, hmax, hstep⟩ := bind_eq_some_iff.mp hstep
  split at hstep
  · cases hstep
  · obtain ⟨bp, hbp, hstep⟩ := bind_eq_some_iff.mp hstep
    have hle : ∀ i ∈ d, i ≤ level := fun i hi => Finset.le_max_of_eq hi hmax
    have hlen := (List.getElem?_eq_some_iff.mp hbp).1
    refine (h.backtrackTo hbp).startNextChoice
      (h.invariant.closed_backtrackTo hbp (h.invariant.clash d hclash) hle)
      ?_ ?_ hstep
    · rw [State.backtrackTo, getElem?_take_of_lt (Nat.lt_succ_self level)]
      exact hbp
    · rw [State.backtrackTo, length_take]
      omega

/-- Every step keeps the invariants under its condition. -/
theorem Sound.perform (h : s.Sound) {action : Action} (hcovering : s.Covering action)
    (hstep : s.perform action = some s') : s'.Sound := by
  cases action with
  | derive item premises =>
    obtain rfl := some.inj hstep
    exact h.store (h.invariant.closed_unionOf premises) item
  | createNode parent premises =>
    obtain rfl := some.inj hstep
    exact h.createNewNode (h.invariant.closed_unionOf premises) parent
  | setClash premises =>
    obtain rfl := some.inj hstep
    have hcl := h.invariant.closed_unionOf premises
    refine ⟨⟨h.invariant.stored, ?_, h.invariant.trail⟩, h.reuse.of_eq rfl rfl rfl⟩
    intro d hd
    obtain rfl := some.inj hd
    exact hcl
  | pushBase =>
    obtain rfl := some.inj hstep
    have hpush := h.pushBranchingPoint .base
    exact ⟨hpush.invariant.of_eq rfl rfl rfl fun _ => rfl, hpush.reuse.of_eq rfl rfl rfl⟩
  | assertTestFact item level =>
    rw [State.perform] at hstep
    split at hstep
    · rename_i hbase
      obtain rfl := some.inj hstep
      obtain ⟨bp, hbp, hch⟩ := map_eq_some_iff.mp (of_decide_eq_true hbase)
      refine h.store ?_ item
      rw [← insert_empty_eq]
      refine closed_empty.insert (List.getElem?_eq_some_iff.mp hbp).1 ?_
      intro set hset
      simp [expandedSet, hbp, hch] at hset
    · cases hstep
  | restoreCheckpoint level =>
    rw [State.perform] at hstep
    split at hstep
    · obtain ⟨bp, hbp, rfl⟩ := map_eq_some_iff.mp hstep
      have hback := h.backtrackTo hbp
      exact ⟨hback.invariant.of_eq rfl rfl rfl fun _ => rfl, hback.reuse.of_eq rfl rfl rfl⟩
    · cases hstep
  | choose premises count items =>
    have hcl := h.invariant.closed_unionOf premises
    rw [State.perform] at hstep
    split at hstep
    · obtain rfl := some.inj hstep
      exact (h.pushBranchingPoint _).storeAll
        (hcl.insert_pushBranchingPoint _ fun _ _ _ hch => Choice.noConfusion hch) items
    · obtain rfl := some.inj hstep
      exact h.storeAll hcl items
  | tryParentReuse atLeast node => exact h.tryParentReuse hstep
  | expandWithModelReuse atLeast node => exact h.expandWithModelReuse hcovering hstep
  | backtrackOnClash items => exact h.backtrackOnClash hstep

/-- Every step of a run meets its condition. -/
def CoversAlong : State → List Action → Prop
  | _, [] => True
  | s, action :: actions =>
    s.Covering action ∧ ∀ s', s.perform action = some s' → s'.CoversAlong actions

theorem Sound.run (h : s.Sound) {actions : List Action} (hcov : s.CoversAlong actions)
    (hrun : s.run actions = some s') : s'.Sound := by
  induction actions generalizing s with
  | nil =>
    obtain rfl := some.inj hrun
    exact h
  | cons action actions ih =>
    rw [State.run, foldlM_cons] at hrun
    obtain ⟨s₁, hstep, hrest⟩ := bind_eq_some_iff.mp hrun
    exact ih (h.perform hcov.1 hstep) (hcov.2 s₁ hstep) hrest

/-- A dependency set with the level of a branching point of reuse has all that the assertion
expanded there depends on; and so has the set for the fresh successor after a clash. -/
structure CoversAssertions (s : State) : Prop where
  stored : ∀ p ∈ s.stored, ∀ level ∈ p.2, ∀ set, s.expandedSet level = some set → set ⊆ p.2
  clash : ∀ d, s.clash = some d → ∀ level ∈ d, ∀ set, s.expandedSet level = some set → set ⊆ d
  nextChoice : ∀ d (level : ℕ) set, s.clash = some d → d.max = level →
    s.expandedSet level = some set →
    set ⊆ d.erase level

theorem Sound.coversAssertions (h : s.Sound) : s.CoversAssertions where
  stored p hp level hlev := (h.invariant.stored p hp level hlev).2
  clash d hd level hlev := (h.invariant.clash d hd level hlev).2
  nextChoice d level set hd hmax hset := by
    have hlev := Finset.mem_of_max hmax
    intro i hi
    refine Finset.mem_erase.mpr ⟨?_, (h.invariant.clash d hd level hlev).2 set hset hi⟩
    exact (h.invariant.lt_of_mem_expandedSet hset hi).ne

end State

/-- In a run in which every existential that takes a node made for another one depends on all that
the other one depends on, every stored set with the level of a branching point of reuse has what
the assertion expanded there depends on. -/
theorem coversAssertions_of_run (doReuseAlways dontReuseEver : List AtomicConcept)
    (actions : List Action) (s : State)
    (hcov : (start doReuseAlways dontReuseEver).CoversAlong actions)
    (hrun : (start doReuseAlways dontReuseEver).run actions = some s) : s.CoversAssertions :=
  ((State.sound_start doReuseAlways dontReuseEver).run hcov hrun).coversAssertions

def existsRoleC (role : String) : AtLeastConcept := ⟨1, .atomicRole ⟨role⟩, .atomicConcept ⟨"C"⟩⟩

/-- An existential at node 0 that depends on a choice, and one at node 1 with given premises; both
are expanded by one node. -/
def twoExistentials (premises : List ℕ) : List Action :=
  [.createNode none [], .createNode none [], .choose [] 2 [(.atLeast (existsRoleC "r") 0, [])],
    .expandWithModelReuse (existsRoleC "r") 0, .derive (.atLeast (existsRoleC "s") 1) premises,
    .expandWithModelReuse (existsRoleC "s") 1]

theorem coversAssertions_of_run_dependent : ∃ s, (start [] []).run (twoExistentials [2]) = some s ∧
    s.CoversAssertions := by
  refine ⟨_, rfl, coversAssertions_of_run [] [] (twoExistentials [2]) _ ?_ rfl⟩
  refine ⟨trivial, fun s₁ h₁ => ?_⟩
  obtain rfl := some.inj h₁
  refine ⟨trivial, fun s₂ h₂ => ?_⟩
  obtain rfl := some.inj h₂
  refine ⟨trivial, fun s₃ h₃ => ?_⟩
  obtain rfl := some.inj h₃
  refine ⟨fun toConcept reuseNode branchingPoint set _ _ _ hold => ?_, fun s₄ h₄ => ?_⟩
  · have hnone : (none : Option (ℕ × ℕ)) = some (reuseNode, branchingPoint) := hold
    cases hnone
  obtain rfl := some.inj h₄
  refine ⟨trivial, fun s₅ h₅ => ?_⟩
  obtain rfl := some.inj h₅
  refine ⟨fun toConcept reuseNode branchingPoint set hconc _ _ hold hset => ?_,
    fun s₆ h₆ => trivial⟩
  obtain rfl := LiteralConcept.atomicConcept.inj hconc
  obtain ⟨rfl, rfl⟩ := Prod.mk.inj (some.inj hold)
  obtain rfl := some.inj hset
  decide

/-- The edge of the second existential depends on the branching point only, and after a clash the
fresh successor of the first one depends on nothing. -/
theorem not_coversAssertions_independent : ∃ s, (start [] []).run (twoExistentials []) = some s ∧
    ¬ s.CoversAssertions ∧ s.expandedSet 1 = some {0} ∧ (.role ⟨"s"⟩ 1 2, {1}) ∈ s.stored ∧
    ∃ s', s.run [.setClash [7], .backtrackOnClash []] = some s' ∧
    (.role ⟨"r"⟩ 0 2, ∅) ∈ s'.stored := by
  refine ⟨_, rfl, fun h => ?_, by decide, by decide, _, rfl, by decide⟩
  exact absurd (h.stored (.role ⟨"s"⟩ 1 2, {1}) (by decide) 1 (by decide) {0} (by decide))
    (by decide)

end IndividualReuse

end Hermit
