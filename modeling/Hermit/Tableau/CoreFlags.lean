import Hermit.Tableau.ExtensionRetrieval

/-! # Core flags and backtracking

The flags that say which assertions are core are kept beside the tuples.  Adding a stored tuple
as core sets its flag, and backtracking truncates the tuples but does not touch the flags of those
that stay.
-/

namespace Hermit

open List hiding not_lt
open Option hiding or_assoc

/-- An extension table with the core flags of its tuples; without `isRealCore` all are core. -/
structure CoreTable (kind : TableKind) where
  table : ExtensionTable kind.arity
  isRealCore : Bool
  coreFlags : List Bool

namespace CoreTable

open ExtensionTable Library

variable {kind : TableKind}

def new (kind : TableKind) (isRealCore : Bool) : CoreTable kind where
  table := .new kind.indexingSequences
  isRealCore := isRealCore
  coreFlags := []

section operations

variable (x : CoreTable kind)

def isCore (tupleIndex : ℕ) : Bool :=
  if x.isRealCore then x.coreFlags.getD tupleIndex false else true

/-- Set a flag; missing flags are filled in as not core. -/
def setFlag (tupleIndex : ℕ) (isCore : Bool) : CoreTable kind :=
  if x.isRealCore then
    let resized := x.coreFlags ++ List.replicate (tupleIndex + 1 - x.coreFlags.length) false
    { x with coreFlags := resized.set tupleIndex isCore }
  else x

def addCore (tupleIndex : ℕ) : CoreTable kind := x.setFlag tupleIndex true

def storeTuple (tuple : Fin kind.arity → TableauObject) (isCore : Bool) :
    Option (StoreOutcome × CoreTable kind) := do
  let (outcome, table) ← x.table.storeTuple tuple
  match outcome with
  | .added tupleIndex => return (outcome, { x with table := table }.setFlag tupleIndex isCore)
  | .alreadyPresent _ => return (outcome, { x with table := table })

def upgradeCore (tupleIndex : ℕ) (isCore : Bool) : Bool × CoreTable kind :=
  if isCore && !x.isCore tupleIndex then (true, x.addCore tupleIndex) else (false, x)

/-- Add an assertion that passes the tests of its nodes and its label, and say whether it is new. -/
def addAssertion (tuple : Fin kind.arity → TableauObject) (isCore passes : Bool) :
    Option (Bool × CoreTable kind) :=
  if passes then do
    let (outcome, x) ← x.storeTuple tuple isCore
    match outcome with
    | .added _ => return (true, x)
    | .alreadyPresent tupleIndex => return (false, (x.upgradeCore tupleIndex isCore).2)
  else some (false, x)

def propagateDeltaNew : Bool × CoreTable kind :=
  (x.table.propagateDeltaNew.1, { x with table := x.table.propagateDeltaNew.2 })

def branchingPointPushed (level : ℕ) : CoreTable kind :=
  { x with table := x.table.branchingPointPushed level }

/-- The removed tuples come with their flags; no flag is changed. -/
def backtrack (level : ℕ) : Option
    (List ((Fin kind.arity → TableauObject) × Bool) × CoreTable kind) := do
  let (removed, table) ← x.table.backtrack level
  let last := x.table.marks.afterDeltaNew - 1
  return (removed.mapIdx fun k tuple => (tuple, x.isCore (last - k)), { x with table := table })

def clear : CoreTable kind := { x with table := x.table.clear, coreFlags := [] }

end operations

/-! ## Runs -/

/-- The label of an assertion, followed by its nodes. -/
abbrev Assertion (kind : TableKind) := {t : Fin kind.arity → TableauObject // NodeColumns t}

/-- What the tableau does with a table. -/
inductive Action (kind : TableKind) where
  | addAssertion (tuple : Assertion kind) (isCore passes : Bool)
  | propagateDeltaNew
  | pushBranchingPoint
  | backtrackTo (level : ℕ)
  | clear

/-- A step of the table under a number of branching points. -/
def perform : ℕ × CoreTable kind → Action kind → Option (ℕ × CoreTable kind)
  | (n, x), .addAssertion tuple isCore passes => do
    let (_, x) ← x.addAssertion tuple.1 isCore passes
    return (n, x)
  | (n, x), .propagateDeltaNew => some (n, x.propagateDeltaNew.2)
  | (n, x), .pushBranchingPoint => some (n + 1, x.branchingPointPushed n)
  | (n, x), .backtrackTo level =>
    if level < n then do
      let (_, x) ← x.backtrack level
      return (level + 1, x)
    else none
  | (_, x), .clear => some (0, x.clear)

def run (s : ℕ × CoreTable kind) (actions : List (Action kind)) : Option (ℕ × CoreTable kind) :=
  actions.foldlM perform s

/-- The branching point of a level is not taken away. -/
def Action.Keeps (level : ℕ) : Action kind → Prop
  | .backtrackTo level' => level ≤ level'
  | .clear => False
  | _ => True

section flags

variable (x : CoreTable kind) (i : ℕ) (b : Bool)

theorem isCore_setFlag (j : ℕ) :
    (x.setFlag i b).isCore j = if x.isRealCore ∧ j = i then b else x.isCore j := by
  unfold setFlag isCore
  cases hreal : x.isRealCore with
  | false => simp [hreal]
  | true =>
    by_cases hj : j = i
    · subst hj
      have hlt : j < (x.coreFlags ++ List.replicate (j + 1 - x.coreFlags.length) false).length := by
        rw [length_append, length_replicate]
        omega
      simp [getD_eq_getElem?_getD, getElem?_set_self hlt]
    · simp only [hj, and_false, if_false, if_true, getD_eq_getElem?_getD]
      rw [getElem?_set_ne (Ne.symm hj)]
      by_cases hlt : j < x.coreFlags.length
      · rw [getElem?_append_left hlt]
      · rw [getElem?_append_right (by omega), getElem?_replicate, getElem?_eq_none (by omega)]
        split <;> rfl

@[simp]
theorem table_setFlag : (x.setFlag i b).table = x.table := by
  unfold setFlag
  split <;> rfl

@[simp]
theorem isCore_with (table : ExtensionTable kind.arity) :
    { x with table := table }.isCore i = x.isCore i := rfl

@[simp]
theorem table_upgradeCore : (x.upgradeCore i b).2.table = x.table := by
  unfold upgradeCore addCore
  split
  · exact table_setFlag x i true
  · rfl

/-- A flag is only ever set. -/
theorem isCore_upgradeCore (j : ℕ) : (x.upgradeCore i b).2.isCore j =
    (x.isCore j || (b && j == i)) := by
  unfold upgradeCore addCore
  cases b with
  | false => simp
  | true =>
    cases hcore : x.isCore i with
    | true =>
      by_cases hj : j = i
      · simp [hj, hcore]
      · simp [hj]
    | false =>
      -- Only a table with real flags has one that is not set.
      have hreal : x.isRealCore = true := by
        unfold isCore at hcore
        split at hcore
        · assumption
        · cases hcore
      by_cases hj : j = i
      · simp [isCore_setFlag, hreal, hj]
      · simp [isCore_setFlag, hj]

end flags

/-! ## Steps -/

section steps

variable {levels : ℕ} {x : CoreTable kind}

/-- Adding an assertion sets the flag of the tuple if the assertion is core, and no flag else of
the tuples that are there. -/
theorem addAssertion_spec (h : x.table.Consistent kind.indexingSequences levels)
    (tuple : Assertion kind) (isCore passes : Bool) :
    ∃ new y, x.addAssertion tuple.1 isCore passes = some (new, y) ∧
      y.table.Consistent kind.indexingSequences levels ∧
      y.table.indicesByBranchingPoint = x.table.indicesByBranchingPoint ∧
      x.table.tuples <+: y.table.tuples ∧ ∀ i t, x.table.tuples[i]? = some t →
        (y.isCore i = true ↔ x.isCore i = true ∨ tuple.1 = t ∧ isCore = true ∧ passes = true) := by
  cases passes with
  | false => exact ⟨false, x, rfl, h, rfl, prefix_refl _, by simp⟩
  | true =>
    obtain ⟨outcome, table, hstore, hcons, hsaved, hcases⟩ :=
      h.storeTuple (indexingSequences_ne_nil kind) tuple.2
    unfold addAssertion storeTuple
    rw [hstore]
    rcases hcases with ⟨position, rfl, hposn, htup⟩ | ⟨rfl, hnm, htup⟩
    · refine ⟨false, _, rfl, ?_, ?_, ?_, ?_⟩
      · rwa [table_upgradeCore]
      · rwa [table_upgradeCore]
      · rw [table_upgradeCore, htup]
      · intro i t hi
        have heq : i = position ↔ tuple.1 = t := by
          constructor
          · rintro rfl
            exact some.inj (hposn.symm.trans hi)
          · rintro rfl
            exact (getElem?_inj (List.getElem?_eq_some_iff.mp hi).1 h.nodup).mp
              (hi.trans hposn.symm)
        rw [isCore_upgradeCore, isCore_with, Bool.or_eq_true, Bool.and_eq_true, beq_iff_eq, heq]
        simp only [true_and, and_comm]
    · refine ⟨true, _, rfl, ?_, ?_, ?_, ?_⟩
      · rwa [table_setFlag]
      · rwa [table_setFlag]
      · rw [table_setFlag, htup]
        exact prefix_append _ _
      · intro i t hi
        have hlt := (List.getElem?_eq_some_iff.mp hi).1
        have hne : tuple.1 ≠ t := fun heq => hnm (heq ▸ mem_of_getElem? hi)
        rw [isCore_setFlag, if_neg fun hand => hlt.ne hand.2, isCore_with]
        simp [hne]

theorem backtrack_eq_some {level : ℕ} {removed y} (h : x.backtrack level = some (removed, y)) :
    ∃ marks, x.table.indicesByBranchingPoint[level]? = some marks ∧
      y.table.tuples = x.table.tuples.take marks.afterDeltaNew ∧
      y.table.indicesByBranchingPoint = x.table.indicesByBranchingPoint ∧ ∀ i,
      y.isCore i = x.isCore i := by
  unfold CoreTable.backtrack ExtensionTable.backtrack at h
  obtain ⟨⟨removed', table⟩, htable, h⟩ := bind_eq_some_iff.mp h
  obtain ⟨marks, hmarks, htable⟩ := bind_eq_some_iff.mp htable
  obtain ⟨⟨removed', indexes⟩, -, htable⟩ := bind_eq_some_iff.mp htable
  cases htable
  cases h
  exact ⟨marks, hmarks, rfl, rfl, fun i => rfl⟩

theorem exists_backtrack (h : x.table.Consistent kind.indexingSequences levels) {level : ℕ}
    (hlev : level < levels) :
    ∃ removed y, x.backtrack level = some (removed, y) ∧
    y.table.Consistent kind.indexingSequences (level + 1) := by
  obtain ⟨removed, table, htable, hcons⟩ := h.backtrack hlev
  unfold CoreTable.backtrack
  rw [htable]
  exact ⟨_, _, rfl, hcons⟩

end steps

def Consistent (s : ℕ × CoreTable kind) : Prop := s.2.table.Consistent kind.indexingSequences s.1

theorem consistent_new (kind : TableKind) (isRealCore : Bool) :
    Consistent (0, new kind isRealCore) :=
  ExtensionTable.consistent_new (indexing_indexingSequences kind)

/-- A step fails only for want of the branching point it returns to. -/
theorem Consistent.perform {s : ℕ × CoreTable kind} (h : Consistent s) (action : Action kind)
    (hlev : ∀ level, action = .backtrackTo level → level < s.1) :
    ∃ s', perform s action = some s' ∧ Consistent s' := by
  obtain ⟨n, x⟩ := s
  cases action with
  | addAssertion tuple isCore passes =>
    obtain ⟨new, y, hadd, hcons, -⟩ := addAssertion_spec h tuple isCore passes
    refine ⟨(n, y), ?_, hcons⟩
    simp [CoreTable.perform, hadd]
  | propagateDeltaNew => exact ⟨_, rfl, h.propagateDeltaNew⟩
  | pushBranchingPoint => exact ⟨_, rfl, h.branchingPointPushed⟩
  | backtrackTo level =>
    obtain ⟨removed, y, hy, hcons⟩ := exists_backtrack h (hlev level rfl)
    refine ⟨(level + 1, y), ?_, hcons⟩
    simp [CoreTable.perform, hy, hlev level rfl]
  | clear => exact ⟨_, rfl, h.clear⟩

theorem perform_eq_none_iff {s : ℕ × CoreTable kind} (h : Consistent s) (action : Action kind) :
    perform s action = none ↔ ∃ level, action = .backtrackTo level ∧ s.1 ≤ level := by
  constructor
  · intro hnone
    by_contra hlev
    obtain ⟨s', hs', -⟩ := h.perform action fun level heq => lt_of_not_ge fun hle =>
        hlev ⟨level, heq, hle⟩
    cases hnone.symm.trans hs'
  · rintro ⟨level, rfl, hle⟩
    exact if_neg hle.not_gt

theorem Consistent.of_perform {s s' : ℕ × CoreTable kind} (h : Consistent s) {action : Action kind}
    (hstep : CoreTable.perform s action = some s') : Consistent s' := by
  obtain ⟨s'', hs'', hcons⟩ := h.perform action fun level heq => by
    by_contra hle
    rw [(perform_eq_none_iff h action).mpr ⟨level, heq, not_lt.mp hle⟩] at hstep
    cases hstep
  obtain rfl := some.inj (hstep.symm.trans hs'')
  exact hcons

theorem Consistent.of_run {s s' : ℕ × CoreTable kind} (h : Consistent s)
    {actions : List (Action kind)} (hrun : run s actions = some s') : Consistent s' := by
  induction actions generalizing s with
  | nil => exact some.inj hrun ▸ h
  | cons action actions ih =>
    obtain ⟨s₁, hstep, hrun⟩ := bind_eq_some_iff.mp hrun
    exact ih (h.of_perform hstep) hrun

/-! ## Since a branching point -/

/-- An assertion is added as core, and passes. -/
def Action.AddsCore (t : Fin kind.arity → TableauObject) : Action kind → Prop
  | .addAssertion tuple isCore passes => tuple.1 = t ∧ isCore = true ∧ passes = true
  | _ => False

/-- The numbers of a table are saved at a level, and its tuples are still there. -/
structure Since (n : ℕ) (x : CoreTable kind) (s : ℕ × CoreTable kind) : Prop where
  consistent : Consistent s
  level : n < s.1
  saved : s.2.table.indicesByBranchingPoint[n]? = some x.table.marks
  tuples : x.table.tuples <+: s.2.table.tuples

section since

variable {n : ℕ} {x : CoreTable kind} {s s' : ℕ × CoreTable kind}

theorem since_pushed (h : Consistent (n, x)) : Since n x (n + 1, x.branchingPointPushed n) where
  consistent := h.branchingPointPushed
  level := Nat.lt_succ_self n
  saved := getElem?_pushed_self n
  tuples := prefix_refl _

/-- A step keeps what a branching point has saved, and sets the flag of a tuple just by adding it as
core. -/
theorem Since.perform (h : Since n x s)
    (hdelta : x.table.marks.afterDeltaNew = x.table.tuples.length)
    {action : Action kind} (hkeep : action.Keeps n)
    (hstep : CoreTable.perform s action = some s') :
    Since n x s' ∧ ∀ i t, x.table.tuples[i]? = some t →
      (s'.2.isCore i = true ↔ s.2.isCore i = true ∨ action.AddsCore t) := by
  have hcons := h.consistent.of_perform hstep
  obtain ⟨levels, y⟩ := s
  cases action with
  | addAssertion tuple isCore passes =>
    obtain ⟨new, z, hadd, -, hsaved, htup, hflags⟩ :=
      addAssertion_spec h.consistent tuple isCore passes
    simp only [CoreTable.perform, hadd] at hstep
    cases hstep
    refine ⟨⟨hcons, h.level, hsaved ▸ h.saved, h.tuples.trans htup⟩, fun i t hi => ?_⟩
    exact hflags i t (getElem?_isPrefixOf h.tuples hi)
  | propagateDeltaNew =>
    cases hstep
    exact ⟨⟨hcons, h.level, h.saved, h.tuples⟩, fun i t _ => (or_iff_left id).symm⟩
  | pushBranchingPoint =>
    cases hstep
    exact ⟨⟨hcons, h.level.trans (Nat.lt_succ_self _),
        getElem?_pushed h.level.ne h.saved, h.tuples⟩,
      fun i t _ => (or_iff_left id).symm⟩
  | backtrackTo level =>
    simp only [CoreTable.perform] at hstep
    by_cases hlev : level < levels
    · rw [if_pos hlev] at hstep
      obtain ⟨⟨removed, z⟩, hbacktrack, hstep⟩ := bind_eq_some_iff.mp hstep
      cases hstep
      obtain ⟨marks, hmarks, htup, hsaved, hflags⟩ := backtrack_eq_some hbacktrack
      have hle : x.table.tuples.length ≤ marks.afterDeltaNew := by
        rw [← hdelta]
        exact h.consistent.increasing n level _ _ hkeep hlev h.saved hmarks
      refine ⟨⟨hcons, Nat.lt_succ_of_le hkeep, hsaved ▸ h.saved, ?_⟩, fun i t _ => ?_⟩
      · rw [htup]
        exact prefix_take_iff.mpr ⟨h.tuples, hle⟩
      · rw [hflags]
        exact (or_iff_left id).symm
    · rw [if_neg hlev] at hstep
      cases hstep
  | clear => exact hkeep.elim

variable (h : Since n x s) (hdelta : x.table.marks.afterDeltaNew = x.table.tuples.length)
include h hdelta

theorem Since.run {actions : List (Action kind)} (hkeep : ∀ action ∈ actions, action.Keeps n)
    (hrun : CoreTable.run s actions = some s') :
    Since n x s' ∧ ∀ i t, x.table.tuples[i]? = some t →
      (s'.2.isCore i = true ↔ s.2.isCore i = true ∨ ∃ action ∈ actions, action.AddsCore t) := by
  induction actions generalizing s with
  | nil =>
    obtain rfl := some.inj hrun
    exact ⟨h, fun i t _ => by simp⟩
  | cons action actions ih =>
    obtain ⟨s₁, hstep, hrun⟩ := bind_eq_some_iff.mp hrun
    obtain ⟨hac, hactions⟩ := forall_mem_cons.mp hkeep
    obtain ⟨h₁, hflags₁⟩ := h.perform hdelta hac hstep
    obtain ⟨h', hflags'⟩ := ih h₁ hactions hrun
    refine ⟨h', fun i t hi => ?_⟩
    rw [hflags' i t hi, hflags₁ i t hi, exists_mem_cons_iff, or_assoc]

/-- Backtracking to the branching point leaves the tuples of that time. -/
theorem Since.tuples_backtrackTo (hstep : CoreTable.perform s (.backtrackTo n) = some s') :
    s'.2.table.tuples = x.table.tuples := by
  obtain ⟨levels, y⟩ := s
  simp only [CoreTable.perform, if_pos h.level] at hstep
  obtain ⟨⟨removed, z⟩, hbacktrack, hstep⟩ := bind_eq_some_iff.mp hstep
  cases hstep
  obtain ⟨marks, hmarks, htup, -⟩ := backtrack_eq_some hbacktrack
  obtain rfl := some.inj (hmarks.symm.trans h.saved)
  rw [htup, hdelta]
  exact (prefix_iff_eq_take.mp h.tuples).symm

end since

/-- Backtracking to a branching point leaves just the tuples that were there when it was pushed.
Each of them has the flag it had then, unless it was stored as not core and has been added as core
since. -/
theorem backtrackTo_restores_iff (kind : TableKind) (isRealCore : Bool)
    (earlier later : List (Action kind))
    (n : ℕ) (x : CoreTable kind) (hearl : run (0, new kind isRealCore) earlier = some (n, x))
    (hkeep : ∀ action ∈ later, action.Keeps n) (s s' : ℕ × CoreTable kind)
    (hlater : run (n, x) (.pushBranchingPoint :: later) = some s)
    (hback : perform s (.backtrackTo n) = some s') :
    s'.2.table.tuples = x.table.tuples ∧
      ((∀ i < s'.2.table.tuples.length, s'.2.isCore i = x.isCore i) ↔
        ∀ i t, x.table.tuples[i]? = some t → x.isCore i = false → ∀ action ∈ later,
        ¬ action.AddsCore t) := by
  have hcons : Consistent (n, x) := (consistent_new kind isRealCore).of_run hearl
  obtain ⟨hsince, hflags⟩ := (since_pushed hcons).run hcons.delta hkeep hlater
  have htup := hsince.tuples_backtrackTo hcons.delta hback
  have hflags' : ∀ i t, x.table.tuples[i]? = some t →
      (s'.2.isCore i = true ↔ x.isCore i = true ∨ ∃ action ∈ later, action.AddsCore t) := by
    intro i t hi
    have hlast : (Action.backtrackTo n : Action kind).Keeps n := le_rfl
    rw [(hsince.perform hcons.delta hlast hback).2 i t hi, hflags i t hi]
    exact or_iff_left id
  refine ⟨htup, ?_⟩
  rw [htup]
  constructor
  · intro h i t hi hcore action hac hadds
    have hset := (hflags' i t hi).mpr (.inr ⟨action, hac, hadds⟩)
    rw [h i (List.getElem?_eq_some_iff.mp hi).1, hcore] at hset
    cases hset
  · intro h i hlt
    have hi := getElem?_eq_getElem hlt
    rw [Bool.eq_iff_iff, hflags' i _ hi]
    constructor
    · rintro (hcore | ⟨action, hac, hadds⟩)
      · exact hcore
      · by_contra hcore
        exact absurd hadds (h i _ hi (Bool.eq_false_iff.mpr hcore) action hac)
    · exact fun hcore => .inl hcore

def conceptAssertion (concept node : Fin (2 ^ 61)) : Assertion .binary :=
  ⟨(![.concept concept, .node node] : Fin 2 → TableauObject),
    Fin.forall_fin_two.mpr ⟨fun h => absurd rfl h, fun _ => ⟨node, rfl⟩⟩⟩

/-- A second concept is added as core above the branching point, and the first one again as not
core. -/
theorem backtrackTo_restores_two : ∃ x s s', run (0, new .binary true)
      [.addAssertion (conceptAssertion 5 3) false true] = some (0, x) ∧
    run (0, x) [.pushBranchingPoint, .addAssertion (conceptAssertion 6 3) true true,
      .addAssertion (conceptAssertion 5 3) false true] = some s ∧
    perform s (.backtrackTo 0) = some s' ∧ s'.2.table.tuples = [(conceptAssertion 5 3).1] ∧
    ∀ i < s'.2.table.tuples.length, s'.2.isCore i = x.isCore i := by
  have hrun : ((run (0, new .binary true) [.addAssertion (conceptAssertion 5 3) false true]).bind
    fun first =>
      (run first [.pushBranchingPoint, .addAssertion (conceptAssertion 6 3) true true,
        .addAssertion (conceptAssertion 5 3) false true]).bind fun s =>
      (perform s (.backtrackTo 0)).map fun _ => (first.1, first.2.table.tuples)) =
      some (0, [(conceptAssertion 5 3).1]) := by decide +kernel
  obtain ⟨⟨n, x⟩, hfst, hrun⟩ := bind_eq_some_iff.mp hrun
  obtain ⟨s, hs, hrun⟩ := bind_eq_some_iff.mp hrun
  obtain ⟨s', hs', hrun⟩ := map_eq_some_iff.mp hrun
  obtain ⟨rfl, htup⟩ := Prod.mk.inj hrun
  have hkeep : ∀ action ∈ [Action.addAssertion (conceptAssertion 6 3) true true,
      .addAssertion (conceptAssertion 5 3) false true], action.Keeps 0 := by
    intro action hac
    rcases mem_pair.mp hac with rfl | rfl <;> trivial
  obtain ⟨hsame, hflags⟩ := backtrackTo_restores_iff .binary true _ _ 0 x hfst hkeep s s' hs hs'
  refine ⟨x, s, s', hfst, hs, hs', hsame.trans htup, hflags.mpr fun i t hi _ action hac hadds => ?_⟩
  have ht : t = (conceptAssertion 5 3).1 := by
    dsimp only at htup
    rw [htup] at hi
    exact mem_singleton.mp (mem_of_getElem? hi)
  rcases mem_pair.mp hac with rfl | rfl
  · exact absurd (hadds.1.trans ht) (by decide)
  · exact Bool.noConfusion hadds.2.1

/-- The same concept is added as core above the branching point. -/
theorem exists_backtrackTo_upgraded : ∃ x s s', run (0, new .binary true)
      [.addAssertion (conceptAssertion 5 3) false true] = some (0, x) ∧
    run (0, x) [.pushBranchingPoint, .addAssertion (conceptAssertion 5 3) true true] = some s ∧
    perform s (.backtrackTo 0) = some s' ∧ s'.2.table.tuples = x.table.tuples ∧
    x.table.tuples = [(conceptAssertion 5 3).1] ∧ x.isCore 0 = false ∧ s'.2.isCore 0 = true := by
  have hrun : ((run (0, new .binary true) [.addAssertion (conceptAssertion 5 3) false true]).bind
    fun first =>
      (run first [.pushBranchingPoint, .addAssertion (conceptAssertion 5 3) true true]).bind
        fun s =>
      (perform s (.backtrackTo 0)).map fun s' =>
        (first.1, [first.2.table.tuples, s'.2.table.tuples], [first.2.isCore 0, s'.2.isCore 0])) =
      some (0, [[(conceptAssertion 5 3).1], [(conceptAssertion 5 3).1]], [false, true]) :=
        by decide +kernel
  obtain ⟨⟨n, x⟩, hfst, hrun⟩ := bind_eq_some_iff.mp hrun
  obtain ⟨s, hs, hrun⟩ := bind_eq_some_iff.mp hrun
  obtain ⟨s', hs', hrun⟩ := map_eq_some_iff.mp hrun
  simp only [Prod.mk.injEq, List.cons.injEq, and_true] at hrun
  obtain ⟨rfl, ⟨hx, hs'x⟩, hbef, hafter⟩ := hrun
  exact ⟨x, s, s', hfst, hs, hs', hs'x.trans hx.symm, hx, hbef, hafter⟩

end CoreTable

end Hermit
