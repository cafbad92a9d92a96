import Hermit.Tableau.ClauseProgram

/-! # The dependency set factory

Permanent dependency sets are descending lists of branching points that a table keyed by the list
shares; unions may be nested and are flattened on demand.  Whatever has been done with a factory,
its operations are those on finite sets of branching points, and the queries on a nested union
answer as those on its permanent form.  A permanent set always contains the branching point `-1`, an
empty union does not, so the queries are compared at the proper branching points.
-/

namespace Hermit

open List hiding isEmpty_iff le_antisymm le_of_lt
open Option

namespace PermanentDependencySet

/-- The list of a set ends at the empty set, whose branching point is `-1`. -/
def containsBranchingPoint (s : PermanentDependencySet) (branchingPoint : ℤ) : Bool :=
  branchingPoint == -1 || s.branchingPoints.contains branchingPoint

def isEmpty (s : PermanentDependencySet) : Bool := s.branchingPoints.isEmpty

def getMaximumBranchingPoint (s : PermanentDependencySet) : ℤ := s.branchingPoints.head?.getD (-1)

def getMinimumBranchingPoint (s : PermanentDependencySet) : ℤ :=
  s.branchingPoints.getLast?.getD (-1)

end PermanentDependencySet

/-- A dependency set, either permanent or a temporary union. -/
inductive DependencySet where
  | permanent (s : PermanentDependencySet)
  | union (dependencySets : List DependencySet)

namespace DependencySet

@[elab_as_elim, induction_eliminator]
theorem rec' {P : DependencySet → Prop} (permanent : ∀ s, P (.permanent s))
    (union : ∀ dependencySets, (∀ d ∈ dependencySets, P d) → P (.union dependencySets))
    (d : DependencySet) : P d :=
  DependencySet.rec (motive_1 := P) (motive_2 := fun dependencySets => ∀ d ∈ dependencySets, P d)
    permanent union nofun (fun _ _ hd hds => forall_mem_cons.mpr ⟨hd, hds⟩) d

mutual

def containsBranchingPoint (branchingPoint : ℤ) : DependencySet → Bool
  | .permanent s => s.containsBranchingPoint branchingPoint
  | .union dependencySets => anyContainsBranchingPoint branchingPoint dependencySets

/-- The last set is asked first. -/
def anyContainsBranchingPoint (branchingPoint : ℤ) : List DependencySet → Bool
  | [] => false
  | d :: dependencySets =>
    anyContainsBranchingPoint branchingPoint dependencySets ||
      d.containsBranchingPoint branchingPoint

end

mutual

def isEmpty : DependencySet → Bool
  | .permanent s => s.isEmpty
  | .union dependencySets => allEmpty dependencySets

def allEmpty : List DependencySet → Bool
  | [] => true
  | d :: dependencySets => d.isEmpty && allEmpty dependencySets

end

mutual

def getMaximumBranchingPoint : DependencySet → ℤ
  | .permanent s => s.getMaximumBranchingPoint
  | .union dependencySets => (maximumOf dependencySets).getD (-1)

def maximumOf : List DependencySet → Option ℤ
  | [] => none
  | d :: dependencySets =>
    some ((maximumOf dependencySets).elim d.getMaximumBranchingPoint
      (max d.getMaximumBranchingPoint))

end

mutual

def collectBranchingPoints : DependencySet → List ℤ → List ℤ
  | .permanent s, out => out ++ s.branchingPoints
  | .union dependencySets, out => collectAll dependencySets out

def collectAll : List DependencySet → List ℤ → List ℤ
  | [], out => out
  | d :: dependencySets, out => collectAll dependencySets (d.collectBranchingPoints out)

end

end DependencySet

/-! ## The sets meant -/

namespace PermanentDependencySet

def points (s : PermanentDependencySet) : Finset ℤ := s.branchingPoints.toFinset

@[simp] theorem mem_points {s : PermanentDependencySet} {b : ℤ} : b ∈ s.points ↔
    b ∈ s.branchingPoints :=
  List.mem_toFinset

@[simp] theorem points_intern (branchingPoints : List ℤ) :
    (intern branchingPoints).points = branchingPoints.toFinset := by
  ext b
  simp [points, intern]

/-- A descending list is known by its members. -/
theorem ext_points {s s' : PermanentDependencySet} (h : s.points = s'.points) : s = s' := by
  have hlist : s.branchingPoints = s'.branchingPoints := by
    refine eq_of_pairwise_of_mem_iff (fun a b hab hba => absurd hab (asymm hba)) s.sorted s'.sorted
      ?_ ?_ fun b => ?_
    · exact s.sorted.imp fun h => h.ne'
    · exact s'.sorted.imp fun h => h.ne'
    · rw [← mem_points, h, mem_points]
  cases s
  cases s'
  cases hlist
  rfl

variable (s : PermanentDependencySet)
include s

theorem containsBranchingPoint_iff {b : ℤ} (hb : 0 ≤ b) :
    s.containsBranchingPoint b = true ↔ b ∈ s.points := by
  have hne : b ≠ -1 := by omega
  simp [containsBranchingPoint, hne]

theorem isEmpty_iff : s.isEmpty = true ↔ s.points = ∅ := by
  simp [isEmpty, points]

theorem getMaximumBranchingPoint_eq : s.getMaximumBranchingPoint = s.points.max.unbotD (-1) := by
  obtain ⟨branchingPoints, hsort⟩ := s
  cases branchingPoints with
  | nil => rfl
  | cons b branchingPoints =>
    have hmax : (b :: branchingPoints).toFinset.max = b := by
      refine le_antisymm (Finset.max_le fun a ha => WithBot.coe_le_coe.mpr ?_)
        (Finset.le_max (by simp))
      rcases mem_cons.mp (List.mem_toFinset.mp ha) with rfl | ha
      · exact le_rfl
      · exact le_of_lt (rel_of_pairwise_cons hsort ha)
    rw [points, hmax]
    rfl

theorem getMinimumBranchingPoint_eq : s.getMinimumBranchingPoint = s.points.min.untopD (-1) := by
  obtain ⟨branchingPoints, hsort⟩ := s
  cases branchingPoints using List.reverseRecOn with
  | nil => rfl
  | append_singleton branchingPoints b =>
    have hmin : (branchingPoints ++ [b]).toFinset.min = b := by
      refine le_antisymm (Finset.min_le (by simp))
        (Finset.le_min fun a ha => WithTop.coe_le_coe.mpr ?_)
      rcases mem_append.mp (List.mem_toFinset.mp ha) with ha | ha
      · exact le_of_lt ((pairwise_append.mp hsort).2.2 a ha b (mem_singleton_self b))
      · exact (mem_singleton.mp ha).ge
    rw [points, hmin, getMinimumBranchingPoint, getLast?_concat]
    rfl

end PermanentDependencySet

namespace DependencySet

/-- The permanent sets at the leaves of a union. -/
def leaves : DependencySet → List PermanentDependencySet
  | .permanent s => [s]
  | .union dependencySets => allLeaves dependencySets
where
  allLeaves : List DependencySet → List PermanentDependencySet
  | [] => []
  | d :: dependencySets => d.leaves ++ allLeaves dependencySets

def points (d : DependencySet) : Finset ℤ := d.leaves.toFinset.biUnion PermanentDependencySet.points

@[simp] theorem leaves_permanent (s : PermanentDependencySet) : (permanent s).leaves = [s] := rfl

@[simp] theorem leaves_union (dependencySets : List DependencySet) :
    (union dependencySets).leaves = dependencySets.flatMap leaves := by
  rw [leaves]
  induction dependencySets with
  | nil => rfl
  | cons d dependencySets ih => rw [leaves.allLeaves, ih, flatMap_cons]

variable {b : ℤ}

theorem mem_points {d : DependencySet} : b ∈ d.points ↔ ∃ s ∈ d.leaves, b ∈ s.points := by
  simp [points]

@[simp] theorem points_permanent (s : PermanentDependencySet) :
    (permanent s).points = s.points := by
  simp [points]

theorem mem_points_union {dependencySets : List DependencySet} :
    b ∈ (union dependencySets).points ↔ ∃ d ∈ dependencySets, b ∈ d.points := by
  simp only [mem_points, leaves_union, mem_flatMap]
  constructor
  · rintro ⟨s, ⟨d, hd, hs⟩, hb⟩
    exact ⟨d, hd, s, hs, hb⟩
  · rintro ⟨d, hd, s, hs, hb⟩
    exact ⟨s, ⟨d, hd, hs⟩, hb⟩

/-- Flattening appends the branching points of the leaves. -/
theorem collectBranchingPoints_eq (d : DependencySet) (out : List ℤ) :
    d.collectBranchingPoints out = out ++ d.leaves.flatMap (·.branchingPoints) := by
  induction d generalizing out with
  | permanent s => simp [collectBranchingPoints]
  | union dependencySets ih =>
    rw [collectBranchingPoints, leaves_union]
    induction dependencySets generalizing out with
    | nil => simp [collectAll]
    | cons d dependencySets ihs =>
      rw [forall_mem_cons] at ih
      rw [collectAll, ih.1, ihs ih.2]
      simp

theorem toFinset_collectBranchingPoints (d : DependencySet) :
    (d.collectBranchingPoints []).toFinset = d.points := by
  ext b
  simp [collectBranchingPoints_eq, mem_points]

theorem containsBranchingPoint_iff (d : DependencySet) (hb : 0 ≤ b) :
    d.containsBranchingPoint b = true ↔ b ∈ d.points := by
  induction d with
  | permanent s => rw [containsBranchingPoint, s.containsBranchingPoint_iff hb, points_permanent]
  | union dependencySets ih =>
    rw [containsBranchingPoint, mem_points_union]
    induction dependencySets with
    | nil => simp [anyContainsBranchingPoint]
    | cons d dependencySets ihs =>
      rw [forall_mem_cons] at ih
      rw [anyContainsBranchingPoint, Bool.or_eq_true, ih.1, ihs ih.2, exists_mem_cons_iff, or_comm]

theorem isEmpty_iff (d : DependencySet) : d.isEmpty = true ↔ d.points = ∅ := by
  simp only [Finset.eq_empty_iff_forall_notMem]
  induction d with
  | permanent s => rw [isEmpty, s.isEmpty_iff, points_permanent, Finset.eq_empty_iff_forall_notMem]
  | union dependencySets ih =>
    rw [isEmpty]
    simp only [mem_points_union, not_exists, not_and]
    induction dependencySets with
    | nil => simp [allEmpty]
    | cons d dependencySets ihs =>
      rw [forall_mem_cons] at ih
      rw [allEmpty, Bool.and_eq_true, ih.1, ihs ih.2]
      simp only [forall_mem_cons, forall_and]

end DependencySet

/-- The greatest branching point, and `-1` if there is none, is a least upper bound of both. -/
theorem unbotD_max_le_iff {points : Finset ℤ} (hpts : ∀ b ∈ points, 0 ≤ b) (z : ℤ) :
    points.max.unbotD (-1) ≤ z ↔ -1 ≤ z ∧ ∀ b ∈ points, b ≤ z := by
  rcases points.eq_empty_or_nonempty with rfl | hne
  · simp
  · obtain ⟨m, hm⟩ := Finset.max_of_nonempty hne
    have hmem := Finset.mem_of_max hm
    rw [hm, WithBot.unbotD_coe]
    constructor
    · intro hz
      have hnonneg := hpts m hmem
      exact ⟨by omega, fun b hb => (Finset.le_max_of_eq hb hm).trans hz⟩
    · exact fun hz => hz.2 m hmem

namespace DependencySet

variable {d : DependencySet} (hd : ∀ b ∈ d.points, 0 ≤ b)
include hd

theorem getMaximumBranchingPoint_le_iff (z : ℤ) :
    d.getMaximumBranchingPoint ≤ z ↔ -1 ≤ z ∧ ∀ b ∈ d.points, b ≤ z := by
  induction d generalizing z with
  | permanent s =>
    rw [points_permanent] at hd ⊢
    rw [getMaximumBranchingPoint, s.getMaximumBranchingPoint_eq, unbotD_max_le_iff hd]
  | union dependencySets ih =>
    rw [getMaximumBranchingPoint]
    simp only [mem_points_union, forall_exists_index, and_imp] at hd ⊢
    induction dependencySets generalizing z with
    | nil => simp [maximumOf]
    | cons d dependencySets ihs =>
      rw [forall_mem_cons] at ih
      have hfst := ih.1 (fun b hb => hd b d mem_cons_self hb)
      have hrest := fun z => ihs ih.2 z fun b d hmem hb => hd b d (mem_cons_of_mem _ hmem) hb
      have hle : ∀ z, (maximumOf (d :: dependencySets)).getD (-1) ≤ z ↔
          d.getMaximumBranchingPoint ≤ z ∧ (maximumOf dependencySets).getD (-1) ≤ z := by
        intro z
        rw [maximumOf]
        cases maximumOf dependencySets with
        | none =>
          have hlower := ((hfst d.getMaximumBranchingPoint).mp le_rfl).1
          simp only [elim_none, getD_some, getD_none]
          exact ⟨fun h => ⟨h, hlower.trans h⟩, And.left⟩
        | some m => simp
      rw [hle, hfst, hrest]
      constructor
      · rintro ⟨⟨hz, hd⟩, -, hds⟩
        refine ⟨hz, fun b d' hmem hb => ?_⟩
        rcases mem_cons.mp hmem with rfl | hmem
        · exact hd b hb
        · exact hds b d' hmem hb
      · rintro ⟨hz, hds⟩
        exact ⟨⟨hz, fun b hb => hds b d mem_cons_self hb⟩, hz,
          fun b d' hmem hb => hds b d' (mem_cons_of_mem _ hmem) hb⟩

theorem getMaximumBranchingPoint_eq : d.getMaximumBranchingPoint = d.points.max.unbotD (-1) :=
  eq_of_forall_ge_iff fun z => (getMaximumBranchingPoint_le_iff hd z).trans
    (unbotD_max_le_iff hd z).symm

end DependencySet

/-! ## The table -/

structure CanonicalEntry where
  set : PermanentDependencySet
  usage : ℕ

structure DependencySetFactory where
  canonical : AList fun _ : List ℤ => CanonicalEntry
  emptySet : PermanentDependencySet

namespace DependencySetFactory

def new : DependencySetFactory :=
  ⟨AList.singleton [] ⟨.emptySet, 1⟩, .emptySet⟩

/-- Only the empty set remains. -/
def clear (_F : DependencySetFactory) : DependencySetFactory :=
  ⟨AList.singleton [] ⟨.emptySet, 1⟩, .emptySet⟩

variable (F : DependencySetFactory)

/-- The set kept for the branching points, else a new one. -/
def intern (branchingPoints : List ℤ) : DependencySetFactory × PermanentDependencySet :=
  let branchingPoints := PermanentDependencySet.intern branchingPoints
  match F.canonical.lookup branchingPoints.branchingPoints with
  | some entry => (F, entry.set)
  | none =>
    ({ F with
      canonical := F.canonical.insert branchingPoints.branchingPoints ⟨branchingPoints, 0⟩ },
        branchingPoints)

/-- The same over a buffer, which is left sorted. -/
def internScratch (scratch : List ℤ) : DependencySetFactory × List ℤ × PermanentDependencySet :=
  let scratch := PermanentDependencySet.intern scratch
  match F.canonical.lookup scratch.branchingPoints with
  | some entry => (F, scratch.branchingPoints, entry.set)
  | none =>
    ({ F with canonical := F.canonical.insert scratch.branchingPoints ⟨scratch, 0⟩ },
      scratch.branchingPoints, scratch)

/-- The branching points of the constituents that are there, one after the other. -/
def gathered (constituents : List (Option PermanentDependencySet)) : List ℤ :=
  constituents.foldl (fun branchingPoints constituent =>
    constituent.elim branchingPoints fun s => branchingPoints ++ s.branchingPoints) []

def permanentUnionOf (constituents : List (Option PermanentDependencySet)) :
    DependencySetFactory × PermanentDependencySet :=
  F.intern (gathered constituents)

/-- How many constituents are there, counted up to two, and the only one if it is one. -/
def countPresent : List (Option PermanentDependencySet) → ℕ → Option PermanentDependencySet →
    ℕ × Option PermanentDependencySet
  | [], count, only => (count, only)
  | none :: constituents, count, only => countPresent constituents count only
  | some s :: constituents, count, _ =>
    if count + 1 = 1 then countPresent constituents (count + 1) (some s) else (count + 1, none)

/-- A single constituent is returned as it is; the buffer is emptied first. -/
def permanentUnionOfScratch (constituents : List (Option PermanentDependencySet))
    (_scratch : List ℤ) :
    DependencySetFactory × List ℤ × PermanentDependencySet :=
  match countPresent constituents 0 none with
  | (1, some only) => (F, [], only)
  | _ => F.internScratch (gathered constituents)

def getPermanent : DependencySet → DependencySetFactory × PermanentDependencySet
  | .permanent s => (F, s)
  | .union dependencySets =>
    F.intern ((DependencySet.union dependencySets).collectBranchingPoints [])

def addBranchingPoint (dependencySet : DependencySet) (branchingPoint : ℤ) :
    DependencySetFactory × PermanentDependencySet :=
  let (F, permanent) := F.getPermanent dependencySet
  if permanent.containsBranchingPoint branchingPoint then (F, permanent)
  else F.intern (permanent.branchingPoints ++ [branchingPoint])

def removeBranchingPoint (dependencySet : DependencySet) (branchingPoint : ℤ) :
    DependencySetFactory × PermanentDependencySet :=
  let (F, permanent) := F.getPermanent dependencySet
  if !permanent.containsBranchingPoint branchingPoint then (F, permanent)
  else F.intern (permanent.branchingPoints.filter (· != branchingPoint))

def unionWith (set1 set2 : DependencySet) : DependencySetFactory × PermanentDependencySet :=
  let (F, permanent1) := F.getPermanent set1
  let (F, permanent2) := F.getPermanent set2
  if permanent1 = permanent2 then (F, permanent1)
  else F.intern (permanent1.branchingPoints ++ permanent2.branchingPoints)

def modifyUsage (s : PermanentDependencySet) (f : ℕ → ℕ) : DependencySetFactory :=
  match F.canonical.lookup s.branchingPoints with
  | some entry =>
    { F with canonical := F.canonical.insert s.branchingPoints ⟨entry.set, f entry.usage⟩ }
  | none => F

def addUsage (s : PermanentDependencySet) : DependencySetFactory := F.modifyUsage s (· + 1)

def removeUsage (s : PermanentDependencySet) : DependencySetFactory :=
  F.modifyUsage s fun usage => if usage > 0 then usage - 1 else usage

/-- The empty set is always in use. -/
def removeUnusedSets : DependencySetFactory :=
  { F with
    canonical := ⟨F.canonical.entries.filter fun entry => entry.1.isEmpty || entry.2.usage > 0,
      F.canonical.nodupKeys.sublist filter_sublist⟩ }

inductive Operation where
  | clear
  | getEmptySet
  | permanentUnionOf (constituents : List (Option PermanentDependencySet))
  | permanentUnionOfScratch (constituents : List (Option PermanentDependencySet)) (scratch : List ℤ)
  | getPermanent (dependencySet : DependencySet)
  | addBranchingPoint (dependencySet : DependencySet) (branchingPoint : ℤ)
  | removeBranchingPoint (dependencySet : DependencySet) (branchingPoint : ℤ)
  | unionWith (set1 set2 : DependencySet)
  | addUsage (s : PermanentDependencySet)
  | removeUsage (s : PermanentDependencySet)
  | removeUnusedSets

/-- The factory after an operation, and the set that it hands out. -/
def Operation.apply : Operation → DependencySetFactory × Option PermanentDependencySet
  | .clear => (F.clear, none)
  | .getEmptySet => (F, some F.emptySet)
  | .permanentUnionOf constituents =>
    ((F.permanentUnionOf constituents).1, some (F.permanentUnionOf constituents).2)
  | .permanentUnionOfScratch constituents scratch =>
    ((F.permanentUnionOfScratch constituents scratch).1,
      some (F.permanentUnionOfScratch constituents scratch).2.2)
  | .getPermanent d => ((F.getPermanent d).1, some (F.getPermanent d).2)
  | .addBranchingPoint d b => ((F.addBranchingPoint d b).1, some (F.addBranchingPoint d b).2)
  | .removeBranchingPoint d b =>
    ((F.removeBranchingPoint d b).1, some (F.removeBranchingPoint d b).2)
  | .unionWith set1 set2 => ((F.unionWith set1 set2).1, some (F.unionWith set1 set2).2)
  | .addUsage s => (F.addUsage s, none)
  | .removeUsage s => (F.removeUsage s, none)
  | .removeUnusedSets => (F.removeUnusedSets, none)

/-! ## What the operations return -/

/-- Every set is stored under its own branching points. -/
structure Canonical : Prop where
  set_eq : ∀ entry ∈ F.canonical.entries, entry.2.set.branchingPoints = entry.1
  emptySet_eq : F.emptySet = .emptySet

variable {F}

theorem canonical_new : new.Canonical where
  set_eq := fun entry hent => by
    obtain rfl := mem_singleton.mp hent
    rfl
  emptySet_eq := rfl

theorem Canonical.lookup (h : F.Canonical) {branchingPoints : List ℤ} {entry : CanonicalEntry}
    (hent : F.canonical.lookup branchingPoints = some entry) :
    entry.set.branchingPoints = branchingPoints :=
  h.set_eq ⟨branchingPoints, entry⟩ (AList.mem_lookup_iff.mp hent)

theorem Canonical.store (h : F.Canonical) (set : PermanentDependencySet) (usage : ℕ) :
    Canonical { F with canonical := F.canonical.insert set.branchingPoints ⟨set, usage⟩ } where
  set_eq := fun entry hent => by
    simp only [AList.entries_insert] at hent
    rcases mem_cons.mp hent with rfl | hent
    · rfl
    · exact h.set_eq entry ((kerase_sublist _ _).subset hent)
  emptySet_eq := h.emptySet_eq

/-- Interning returns the set of the points, whether the table had it or not. -/
theorem Canonical.intern (h : F.Canonical) (branchingPoints : List ℤ) :
    (F.intern branchingPoints).1.Canonical ∧ (F.intern branchingPoints).2 =
    .intern branchingPoints := by
  simp only [DependencySetFactory.intern]
  split
  · rename_i entry hent
    refine ⟨h, PermanentDependencySet.ext_points ?_⟩
    rw [PermanentDependencySet.points, h.lookup hent, ← PermanentDependencySet.points]
  · exact ⟨h.store _ _, rfl⟩

theorem internScratch_eq (scratch : List ℤ) :
    ((F.internScratch scratch).1, (F.internScratch scratch).2.2) = F.intern scratch := by
  simp only [internScratch, intern]
  split <;> rfl

section

variable (constituents : List (Option PermanentDependencySet))
include constituents

theorem gathered_eq :
    gathered constituents = constituents.reduceOption.flatMap (·.branchingPoints) := by
  have hfold : ∀ out, constituents.foldl (fun branchingPoints constituent =>
      constituent.elim branchingPoints fun s => branchingPoints ++ s.branchingPoints) out =
        out ++ constituents.reduceOption.flatMap (·.branchingPoints) := by
    induction constituents with
    | nil => simp
    | cons constituent constituents ih =>
      intro out
      cases constituent with
      | none => simp [ih]
      | some s => simp [ih]
  exact hfold []

theorem toFinset_gathered :
    (gathered constituents).toFinset = constituents.reduceOption.toFinset.biUnion
    PermanentDependencySet.points := by
  ext b
  simp [gathered_eq]

theorem countPresent_one (only : PermanentDependencySet) : countPresent constituents 1 (some only) =
      if constituents.reduceOption = [] then (1, some only) else (2, none) := by
  induction constituents with
  | nil => rfl
  | cons constituent constituents ih =>
    cases constituent with
    | none => simpa [countPresent] using ih
    | some s => simp [countPresent]

/-- The count stops at the second constituent that is there. -/
theorem countPresent_eq : countPresent constituents 0 none = match constituents.reduceOption with
      | [] => (0, none)
      | [only] => (1, some only)
      | _ => (2, none) := by
  induction constituents with
  | nil => rfl
  | cons constituent constituents ih =>
    cases constituent with
    | none => simpa [countPresent] using ih
    | some s =>
      rw [countPresent, if_pos rfl, countPresent_one, reduceOption_cons_of_some]
      cases constituents.reduceOption with
      | nil => rfl
      | cons s' constituents => rfl

end

/-! ## Each operation is one on finite sets -/

theorem Canonical.permanentUnionOf (h : F.Canonical)
    (constituents : List (Option PermanentDependencySet)) :
    (F.permanentUnionOf constituents).1.Canonical ∧ (F.permanentUnionOf constituents).2.points =
        constituents.reduceOption.toFinset.biUnion PermanentDependencySet.points := by
  obtain ⟨hcan, hset⟩ := h.intern (gathered constituents)
  refine ⟨hcan, ?_⟩
  rw [DependencySetFactory.permanentUnionOf, hset, PermanentDependencySet.points_intern,
    toFinset_gathered]

/-- The short cut for a single constituent returns what interning would. -/
theorem Canonical.permanentUnionOfScratch (h : F.Canonical)
    (constituents : List (Option PermanentDependencySet)) (scratch : List ℤ) :
    (F.permanentUnionOfScratch constituents scratch).1.Canonical ∧
      (F.permanentUnionOfScratch constituents scratch).2.2 =
      (F.permanentUnionOf constituents).2 := by
  obtain ⟨hcan, -⟩ := h.permanentUnionOf constituents
  have hscr := internScratch_eq (F := F) (gathered constituents)
  rw [Prod.ext_iff] at hscr
  rw [DependencySetFactory.permanentUnionOfScratch, countPresent_eq]
  split
  · rename_i only honly
    refine ⟨h, PermanentDependencySet.ext_points ?_⟩
    rw [(h.permanentUnionOf constituents).2]
    split at honly
    · cases honly
    · rename_i only' hpresent
      cases honly
      simp [hpresent]
    · cases honly
  · exact ⟨hscr.1 ▸ hcan, hscr.2⟩

/-- The machine's union of its constituents is the one the factory makes. -/
theorem Canonical.permanentUnionOf_eq (h : F.Canonical)
    (constituents : List (Option PermanentDependencySet)) :
    (F.permanentUnionOf constituents).2 = PermanentDependencySet.permanentUnionOf constituents := by
  refine PermanentDependencySet.ext_points ?_
  ext b
  rw [(h.permanentUnionOf constituents).2, PermanentDependencySet.mem_points,
    PermanentDependencySet.mem_permanentUnionOf]
  simp [reduceOption_mem_iff]

theorem permanentUnionOf_new :
    (new.permanentUnionOf [some (.intern [2, 1]), none, some (.intern [1])]).2 =
    PermanentDependencySet.permanentUnionOf [some (.intern [2, 1]), none, some (.intern [1])] :=
  canonical_new.permanentUnionOf_eq _

theorem Canonical.getPermanent (h : F.Canonical) (d : DependencySet) :
    (F.getPermanent d).1.Canonical ∧ (F.getPermanent d).2.points = d.points := by
  cases d with
  | permanent s => exact ⟨h, (DependencySet.points_permanent s).symm⟩
  | union dependencySets =>
    obtain ⟨hcan, hset⟩ :=
      h.intern ((DependencySet.union dependencySets).collectBranchingPoints [])
    refine ⟨hcan, ?_⟩
    rw [DependencySetFactory.getPermanent, hset, PermanentDependencySet.points_intern,
      DependencySet.toFinset_collectBranchingPoints]

theorem Canonical.addBranchingPoint (h : F.Canonical) (d : DependencySet) {b : ℤ} (hb : 0 ≤ b) :
    (F.addBranchingPoint d b).1.Canonical ∧ (F.addBranchingPoint d b).2.points =
    insert b d.points := by
  obtain ⟨hcan, hpts⟩ := h.getPermanent d
  simp only [DependencySetFactory.addBranchingPoint]
  split
  · rename_i hcont
    rw [PermanentDependencySet.containsBranchingPoint_iff _ hb, hpts] at hcont
    exact ⟨hcan, by rw [hpts, Finset.insert_eq_of_mem hcont]⟩
  · obtain ⟨hcan', hset⟩ := hcan.intern ((F.getPermanent d).2.branchingPoints ++ [b])
    refine ⟨hcan', ?_⟩
    rw [hset, PermanentDependencySet.points_intern, toFinset_append,
      ← PermanentDependencySet.points, hpts]
    ext a
    simp

theorem Canonical.removeBranchingPoint (h : F.Canonical) (d : DependencySet) (b : ℤ) :
    (F.removeBranchingPoint d b).1.Canonical ∧ (F.removeBranchingPoint d b).2.points =
    d.points.erase b := by
  obtain ⟨hcan, hpts⟩ := h.getPermanent d
  simp only [DependencySetFactory.removeBranchingPoint]
  split
  · rename_i hcont
    refine ⟨hcan, ?_⟩
    rw [← hpts, Finset.erase_eq_of_notMem]
    intro hmem
    simp only [PermanentDependencySet.containsBranchingPoint, Bool.not_eq_true',
      Bool.or_eq_false_iff] at hcont
    simp [PermanentDependencySet.mem_points.mp hmem] at hcont
  · obtain ⟨hcan', hset⟩ := hcan.intern ((F.getPermanent d).2.branchingPoints.filter (· != b))
    refine ⟨hcan', ?_⟩
    rw [hset, PermanentDependencySet.points_intern, ← hpts]
    ext a
    simp [and_comm]

theorem Canonical.unionWith (h : F.Canonical) (d d' : DependencySet) :
    (F.unionWith d d').1.Canonical ∧ (F.unionWith d d').2.points = d.points ∪ d'.points := by
  obtain ⟨hcan, hpts⟩ := h.getPermanent d
  obtain ⟨hcan', hpts'⟩ := hcan.getPermanent d'
  simp only [DependencySetFactory.unionWith]
  split
  · rename_i hsame
    refine ⟨hcan', ?_⟩
    rw [← hpts, ← hpts', ← hsame, Finset.union_self]
  · obtain ⟨hcan'', hset⟩ := hcan'.intern ((F.getPermanent d).2.branchingPoints ++
        ((F.getPermanent d).1.getPermanent d').2.branchingPoints)
    refine ⟨hcan'', ?_⟩
    rw [hset, PermanentDependencySet.points_intern, toFinset_append, ← hpts, ← hpts']
    rfl

theorem Canonical.modifyUsage (h : F.Canonical) (s : PermanentDependencySet) (f : ℕ → ℕ) :
    (F.modifyUsage s f).Canonical := by
  unfold DependencySetFactory.modifyUsage
  split
  · rename_i entry hent
    rw [← h.lookup hent]
    exact h.store entry.set _
  · exact h

theorem Canonical.removeUnusedSets (h : F.Canonical) : F.removeUnusedSets.Canonical where
  set_eq := fun entry hent => h.set_eq entry (mem_filter.mp hent).1
  emptySet_eq := h.emptySet_eq

/-! ## Whole runs -/

/-- An operation is given sets handed out before, and proper branching points. -/
def Operation.Allowed (given : List PermanentDependencySet) : Operation → Prop
  | .clear | .getEmptySet | .removeUnusedSets => True
  | .permanentUnionOf constituents => constituents.reduceOption ⊆ given
  | .permanentUnionOfScratch constituents _ => constituents.reduceOption ⊆ given
  | .getPermanent d => d.leaves ⊆ given
  | .addBranchingPoint d b => d.leaves ⊆ given ∧ 0 ≤ b
  | .removeBranchingPoint d b => d.leaves ⊆ given ∧ 0 ≤ b
  | .unionWith set1 set2 => set1.leaves ⊆ given ∧ set2.leaves ⊆ given
  | .addUsage s => s ∈ given
  | .removeUsage s => s ∈ given

/-- A factory after some operations, and the sets it has handed out. -/
inductive Run : DependencySetFactory → List PermanentDependencySet → Prop
  | start : Run new []
  | step {F : DependencySetFactory} {given : List PermanentDependencySet} (op : Operation) :
    Run F given → op.Allowed given → Run (op.apply F).1 ((op.apply F).2.toList ++ given)

variable {given : List PermanentDependencySet}

theorem nonneg_of_leaves (hgiven : ∀ s ∈ given, ∀ b ∈ s.points, 0 ≤ b)
    {d : DependencySet} (hd : d.leaves ⊆ given) : ∀ b ∈ d.points, 0 ≤ b := by
  intro b hb
  obtain ⟨s, hs, hb⟩ := DependencySet.mem_points.mp hb
  exact hgiven s (hd hs) b hb

/-- One operation keeps the table canonical and hands out a set of proper branching points. -/
theorem Canonical.apply (h : F.Canonical)
    (hgiven : ∀ s ∈ given, ∀ b ∈ s.points, 0 ≤ b) {op : Operation} (hop : op.Allowed given) :
    (op.apply F).1.Canonical ∧ ∀ s ∈ (op.apply F).2, ∀ b ∈ s.points, 0 ≤ b := by
  have hunion : ∀ constituents : List (Option PermanentDependencySet),
    constituents.reduceOption ⊆ given →
      ∀ b ∈ (F.permanentUnionOf constituents).2.points, 0 ≤ b := by
    intro constituents hcs b hb
    rw [(h.permanentUnionOf constituents).2, Finset.mem_biUnion] at hb
    obtain ⟨s, hs, hb⟩ := hb
    exact hgiven s (hcs (List.mem_toFinset.mp hs)) b hb
  cases op with
  | clear => exact ⟨canonical_new, nofun⟩
  | getEmptySet =>
    refine ⟨h, fun s hs b hb => ?_⟩
    obtain rfl := some.inj hs
    rw [h.emptySet_eq] at hb
    exact absurd hb (not_mem_nil ∘ PermanentDependencySet.mem_points.mp)
  | permanentUnionOf constituents =>
    refine ⟨(h.permanentUnionOf constituents).1, fun s hs => ?_⟩
    obtain rfl := some.inj hs
    exact hunion constituents hop
  | permanentUnionOfScratch constituents scratch =>
    refine ⟨(h.permanentUnionOfScratch constituents scratch).1, fun s hs => ?_⟩
    obtain rfl := some.inj hs
    rw [(h.permanentUnionOfScratch constituents scratch).2]
    exact hunion constituents hop
  | getPermanent d =>
    refine ⟨(h.getPermanent d).1, fun s hs => ?_⟩
    obtain rfl := some.inj hs
    rw [(h.getPermanent d).2]
    exact nonneg_of_leaves hgiven hop
  | addBranchingPoint d b =>
    refine ⟨(h.addBranchingPoint d hop.2).1, fun s hs => ?_⟩
    obtain rfl := some.inj hs
    rw [(h.addBranchingPoint d hop.2).2, Finset.forall_mem_insert]
    exact ⟨hop.2, nonneg_of_leaves hgiven hop.1⟩
  | removeBranchingPoint d b =>
    refine ⟨(h.removeBranchingPoint d b).1, fun s hs a ha => ?_⟩
    obtain rfl := some.inj hs
    rw [(h.removeBranchingPoint d b).2] at ha
    exact nonneg_of_leaves hgiven hop.1 a (Finset.mem_of_mem_erase ha)
  | unionWith set1 set2 =>
    refine ⟨(h.unionWith set1 set2).1, fun s hs b hb => ?_⟩
    obtain rfl := some.inj hs
    rw [(h.unionWith set1 set2).2] at hb
    rcases Finset.mem_union.mp hb with hb | hb
    · exact nonneg_of_leaves hgiven hop.1 b hb
    · exact nonneg_of_leaves hgiven hop.2 b hb
  | addUsage s => exact ⟨h.modifyUsage s _, nofun⟩
  | removeUsage s =>
    exact ⟨h.modifyUsage s fun usage => if usage > 0 then usage - 1 else usage, nofun⟩
  | removeUnusedSets => exact ⟨h.removeUnusedSets, nofun⟩

/-- In a whole run the table stays canonical, and only proper branching points occur. -/
theorem Run.canonical (h : Run F given) : F.Canonical ∧ ∀ s ∈ given, ∀ b ∈ s.points, 0 ≤ b := by
  induction h with
  | start => exact ⟨canonical_new, nofun⟩
  | step op _ hop ih =>
    obtain ⟨hcan, hset⟩ := ih.1.apply ih.2 hop
    refine ⟨hcan, fun s hs => ?_⟩
    rcases mem_append.mp hs with hs | hs
    · exact hset s (mem_toList.mp hs)
    · exact ih.2 s hs

/-- After any operations: the sets handed out are strictly descending; what the factory makes of
them is what the operation does to finite sets of branching points, a nested union standing for the
union of its leaves; and the queries on a nested union answer as those on its permanent form. -/
theorem Run.denotes {given : List PermanentDependencySet} (h : Run F given) :
    (∀ s ∈ given, s.branchingPoints.Pairwise (· > ·) ∧ ∀ b ∈ s.branchingPoints, 0 ≤ b) ∧
      (∀ d : DependencySet, d.leaves ⊆ given → (F.getPermanent d).2.points = d.points ∧
        (∀ b, 0 ≤ b → (F.addBranchingPoint d b).2.points = insert b d.points) ∧
        (∀ b, 0 ≤ b → (F.removeBranchingPoint d b).2.points = d.points.erase b) ∧
        (∀ d' : DependencySet, d'.leaves ⊆ given →
          (F.unionWith d d').2.points = d.points ∪ d'.points) ∧
        (∀ b, 0 ≤ b → d.containsBranchingPoint b = decide (b ∈ d.points) ∧
          (F.getPermanent d).2.containsBranchingPoint b = decide (b ∈ d.points)) ∧
        (d.isEmpty = decide (d.points = ∅) ∧ (F.getPermanent d).2.isEmpty = decide (d.points = ∅)) ∧
        (d.getMaximumBranchingPoint = d.points.max.unbotD (-1) ∧
          (F.getPermanent d).2.getMaximumBranchingPoint = d.points.max.unbotD (-1)) ∧
        (F.getPermanent d).2.getMinimumBranchingPoint = d.points.min.untopD (-1)) ∧
      ∀ constituents : List (Option PermanentDependencySet),
      constituents.reduceOption ⊆ given → ∀ scratch, (F.permanentUnionOf constituents).2.points =
          constituents.reduceOption.toFinset.biUnion PermanentDependencySet.points ∧
        (F.permanentUnionOfScratch constituents scratch).2.2 =
        (F.permanentUnionOf constituents).2 := by
  obtain ⟨hcan, hgiven⟩ := h.canonical
  refine ⟨fun s hs => ⟨s.sorted, fun b hb =>
      hgiven s hs b (PermanentDependencySet.mem_points.mpr hb)⟩,
    fun d hd => ?_, fun constituents _ scratch => ?_⟩
  · have hpts := (hcan.getPermanent d).2
    refine ⟨hpts, fun b hb => (hcan.addBranchingPoint d hb).2,
      fun b _ => (hcan.removeBranchingPoint d b).2, fun d' _ => (hcan.unionWith d d').2,
      fun b hb => ⟨?_, ?_⟩, ⟨?_, ?_⟩, ⟨?_, ?_⟩, ?_⟩
    · rw [Bool.eq_iff_iff, d.containsBranchingPoint_iff hb, decide_eq_true_iff]
    · rw [Bool.eq_iff_iff, PermanentDependencySet.containsBranchingPoint_iff _ hb,
        decide_eq_true_iff, hpts]
    · rw [Bool.eq_iff_iff, d.isEmpty_iff, decide_eq_true_iff]
    · rw [Bool.eq_iff_iff, PermanentDependencySet.isEmpty_iff, decide_eq_true_iff, hpts]
    · exact DependencySet.getMaximumBranchingPoint_eq (nonneg_of_leaves hgiven hd)
    · rw [PermanentDependencySet.getMaximumBranchingPoint_eq, hpts]
    · rw [PermanentDependencySet.getMinimumBranchingPoint_eq, hpts]
  · exact ⟨(hcan.permanentUnionOf constituents).2,
      (hcan.permanentUnionOfScratch constituents scratch).2⟩

/-- The sets `{3}` and `{3, 5}`, the second one inside nested unions. -/
theorem Run.denotes_two : ∃ (F : DependencySetFactory) (s s' : PermanentDependencySet),
    Run F [s', s] ∧ s.points = {3} ∧ s'.points = {3, 5} ∧
      (F.unionWith (.permanent s) (.union [.union [], .permanent s'])).2.points = {3, 5} ∧
      (F.removeBranchingPoint (.union [.permanent s', .permanent s]) 3).2.points = {5} := by
  obtain ⟨F, s, hs, hrun⟩ : ∃ F s, s.points = {3} ∧ Run F [s] :=
    ⟨_, _, ((Run.denotes .start).2.1 (.union []) (nil_subset _)).2.1 3 (by decide),
      Run.start.step (.addBranchingPoint (.union []) 3) ⟨nil_subset _, by decide⟩⟩
  have hins := ((Run.denotes hrun).2.1 (.permanent s) (List.Subset.refl _)).2.1 5 (by decide)
  obtain ⟨F', s', hs', hrun'⟩ : ∃ F' s', s'.points = {3, 5} ∧ Run F' [s', s] := by
    refine ⟨_, _, hins.trans ?_,
      hrun.step (.addBranchingPoint (.permanent s) 5) ⟨List.Subset.refl _, by decide⟩⟩
    simp only [DependencySet.points, DependencySet.leaves_permanent, toFinset_cons, toFinset_nil,
      Finset.biUnion_insert, Finset.biUnion_empty, hs]
    decide
  have hspec := (Run.denotes hrun').2.1
  refine ⟨F', s, s', hrun', hs, hs', ?_, ?_⟩
  · rw [(hspec (.permanent s) (by simp)).2.2.2.1 _ (by simp)]
    simp [DependencySet.points, hs, hs']
  · rw [(hspec (.union [.permanent s', .permanent s]) (by simp)).2.2.1 3 (by decide)]
    have hunion : (DependencySet.union [.permanent s', .permanent s]).points = {3, 5} := by
      simpa [DependencySet.points, hs, hs'] using Finset.pair_comm 5 3
    rw [hunion]
    decide

end DependencySetFactory
end Hermit
