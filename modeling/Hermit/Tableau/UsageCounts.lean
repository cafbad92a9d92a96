import Hermit.Datalog.Tableau
import Hermit.Tableau.DependencySetFactory

/-! # Usage counts of dependency sets

What the tableau keeps of dependency sets: one for each stored tuple, live ground disjunction,
merged node and buffered annotated equality, and that of the clash.  Every one is counted when it is
stored, and released when backtracking takes it away.  Whether a tuple is new and whether a
disjunction is satisfied are inputs here; the sets in local variables are those got since the last
collection.
-/

namespace Hermit

open List Option PermanentDependencySet

/-! ## The operations -/

namespace UsageCounts

open Datalog (NodeState)

structure GroundDisjunction where
  dependencySet : PermanentDependencySet
  next : Option ℕ
deriving DecidableEq

structure Node where
  nodeState : NodeState
  mergedIntoDependencySet : Option PermanentDependencySet
deriving DecidableEq

/-- The dependency sets of the tuples, and the numbers of tuples at the branching points. -/
structure ExtensionTable where
  needsDependencySets : Bool
  dependencySets : List (Option PermanentDependencySet)
  indicesByBranchingPoint : ℕ → ℕ

/-- The nodes are numbered as they are created, so the last one is known by their number. -/
structure BranchingPoint where
  numberOfNodes : ℕ
  lastMergedOrPrunedNode : Option ℕ
  firstGroundDisjunction : Option ℕ

end UsageCounts

open UsageCounts

structure CountedTableau where
  factory : DependencySetFactory
  tables : List UsageCounts.ExtensionTable
  groundDisjunctions : List (Option GroundDisjunction)
  firstGroundDisjunction : Option ℕ
  annotatedEqualities : List PermanentDependencySet
  annotatedEqualitiesByBranchingPoint : ℕ → ℕ
  nodes : List UsageCounts.Node
  mergedOrPrunedNodes : List ℕ
  clashDependencySet : Option PermanentDependencySet
  branchingPoints : List BranchingPoint
  nonbacktrackableBranchingPoint : ℤ
  aboxCheckpoint : Option ℕ
  aboxChoiceClash : Bool
  aboxCheckpointDisjunctions : ℕ
  held : List PermanentDependencySet

namespace CountedTableau

def new (needsDependencySets : List Bool) : CountedTableau where
  factory := .new
  tables := needsDependencySets.map fun needs => ⟨needs, [], fun _ => 0⟩
  groundDisjunctions := []
  firstGroundDisjunction := none
  annotatedEqualities := []
  annotatedEqualitiesByBranchingPoint := fun _ => 0
  nodes := []
  mergedOrPrunedNodes := []
  clashDependencySet := none
  branchingPoints := []
  nonbacktrackableBranchingPoint := -1
  aboxCheckpoint := none
  aboxChoiceClash := false
  aboxCheckpointDisjunctions := 0
  held := []

variable (t : CountedTableau)

/-- The permanent form of a set, which stays in a local variable. -/
def getPermanent (d : DependencySet) : CountedTableau × PermanentDependencySet :=
  ({ t with
    factory := (t.factory.getPermanent d).1
    held := (t.factory.getPermanent d).2 :: t.held }, (t.factory.getPermanent d).2)

def addUsage (s : PermanentDependencySet) : CountedTableau :=
  { t with factory := t.factory.addUsage s }

def removeUsage (s : Option PermanentDependencySet) : CountedTableau :=
  { t with factory := s.elim t.factory t.factory.removeUsage }

def clearClash : CountedTableau :=
  { t.removeUsage t.clashDependencySet with clashDependencySet := none }

def setClash (d : DependencySet) : CountedTableau :=
  let (t, permanent) := t.clearClash.getPermanent d
  { t.addUsage permanent with clashDependencySet := some permanent }

/-- Whether the tuple is new is not decided here. -/
def storeTuple (table : ℕ) (d : DependencySet) (added : Bool) : Option CountedTableau := do
  let (t, permanent) := t.getPermanent d
  let x ← t.tables[table]?
  if added then
    if x.needsDependencySets then
      return { t.addUsage permanent with
        tables :=
          t.tables.set table { x with dependencySets := x.dependencySets ++ [some permanent] } }
    else return { t with
      tables := t.tables.set table { x with dependencySets := x.dependencySets ++ [none] } }
  else return t

/-- A disjunction that is satisfied leaves an empty slot. -/
def deriveDisjunction (d : DependencySet) (satisfied : Bool) : CountedTableau :=
  let (t, permanent) := t.getPermanent d
  let t := t.addUsage permanent
  let gdIndex := t.groundDisjunctions.length
  if satisfied then { t with groundDisjunctions := t.groundDisjunctions ++ [none] }
  else { t with
    groundDisjunctions := t.groundDisjunctions ++ [some ⟨permanent, t.firstGroundDisjunction⟩]
    firstGroundDisjunction := some gdIndex }

def destroyGroundDisjunction (gdIndex : ℕ) : CountedTableau :=
  match t.groundDisjunctions[gdIndex]? with
  | some (some gd) =>
    { t.removeUsage (some gd.dependencySet) with
      groundDisjunctions := t.groundDisjunctions.set gdIndex none }
  | _ => t

def addAnnotatedEquality (d : DependencySet) : CountedTableau :=
  let (t, permanent) := t.getPermanent d
  { t.addUsage permanent with annotatedEqualities := t.annotatedEqualities ++ [permanent] }

def createNewNode : CountedTableau := { t with nodes := t.nodes ++ [⟨.active, none⟩] }

def mergeNode (node : ℕ) (d : DependencySet) : CountedTableau :=
  let (t, permanent) := t.getPermanent d
  { t.addUsage permanent with
    nodes := t.nodes.set node ⟨.merged, some permanent⟩
    mergedOrPrunedNodes := node :: t.mergedOrPrunedNodes }

def pruneNode (node : ℕ) : CountedTableau :=
  { t with
    nodes := t.nodes.modify node fun n => { n with nodeState := .pruned }
    mergedOrPrunedNodes := node :: t.mergedOrPrunedNodes }

def pushBranchingPoint : CountedTableau :=
  let level := t.branchingPoints.length
  { t with
    branchingPoints := t.branchingPoints ++
      [⟨t.nodes.length, t.mergedOrPrunedNodes.head?, t.firstGroundDisjunction⟩]
    tables := t.tables.map fun x =>
      { x with
        indicesByBranchingPoint :=
          Function.update x.indicesByBranchingPoint level x.dependencySets.length }
    annotatedEqualitiesByBranchingPoint :=
      Function.update t.annotatedEqualitiesByBranchingPoint level t.annotatedEqualities.length }

/-! ## Backtracking -/

/-- Destroy the ground disjunctions up to one. -/
def backtrackGroundDisjunctions (shouldBe : Option ℕ) : ℕ → CountedTableau → Option CountedTableau
  | fuel, t =>
    if t.firstGroundDisjunction = shouldBe then some t
    else
      match fuel, t.firstGroundDisjunction with
      | fuel + 1, some gd =>
        match t.groundDisjunctions[gd]? with
        | some (some data) =>
          backtrackGroundDisjunctions shouldBe fuel
            { t.destroyGroundDisjunction gd with firstGroundDisjunction := data.next }
        | _ => none
      | _, _ => none

/-- Release the last entries of a list, the last first. -/
def releaseLast (entries : List (Option PermanentDependencySet)) (newLength : ℕ) : CountedTableau :=
  (entries.drop newLength).reverse.foldl removeUsage t

def backtrackAnnotatedEqualities (level : ℕ) : CountedTableau :=
  let newLength := t.annotatedEqualitiesByBranchingPoint level
  { t.releaseLast (t.annotatedEqualities.map some) newLength with
    annotatedEqualities := t.annotatedEqualities.take newLength }

def backtrackTable (level table : ℕ) : CountedTableau :=
  match t.tables[table]? with
  | some x =>
    let newAfterDeltaNew := x.indicesByBranchingPoint level
    { t.releaseLast x.dependencySets newAfterDeltaNew with
      tables :=
        t.tables.set table { x with dependencySets := x.dependencySets.take newAfterDeltaNew } }
  | none => t

def backtrackExtensionTables (level : ℕ) : CountedTableau :=
  (List.range t.tables.length).foldl (fun t table => t.backtrackTable level table) t

def backtrackLastMergedOrPrunedNode (node : ℕ) : Option CountedTableau := do
  let n ← t.nodes[node]?
  if n.nodeState = .merged then
    return { t.removeUsage n.mergedIntoDependencySet with
      nodes := t.nodes.set node ⟨.active, none⟩ }
  else return { t with nodes := t.nodes.set node { n with nodeState := .active } }

/-- Undo merges and prunings up to a node. -/
def backtrackMergedOrPrunedNodes (shouldBe : Option ℕ) : List ℕ → CountedTableau →
    Option CountedTableau
  | [], t => if shouldBe = none then some { t with mergedOrPrunedNodes := [] } else none
  | node :: rest, t =>
    if some node = shouldBe then some { t with mergedOrPrunedNodes := node :: rest }
    else (t.backtrackLastMergedOrPrunedNode node).bind (backtrackMergedOrPrunedNodes shouldBe rest)

/-- Destroy the nodes after a number, the last first. -/
def destroyTableauNodes (numberOfNodes : ℕ) : CountedTableau :=
  { t.releaseLast (t.nodes.map (·.mergedIntoDependencySet)) numberOfNodes with
    nodes := t.nodes.take numberOfNodes }

def backtrackTo (newCurrentBranchingPoint : ℕ) : Option CountedTableau := do
  let branchingPoint ← t.branchingPoints[newCurrentBranchingPoint]?
  let t := { t with branchingPoints := t.branchingPoints.take (newCurrentBranchingPoint + 1) }
  let t ← t.backtrackGroundDisjunctions branchingPoint.firstGroundDisjunction
    t.groundDisjunctions.length
  let t := (t.backtrackAnnotatedEqualities newCurrentBranchingPoint).backtrackExtensionTables
    newCurrentBranchingPoint
  let t ← backtrackMergedOrPrunedNodes branchingPoint.lastMergedOrPrunedNode t.mergedOrPrunedNodes t
  return (t.destroyTableauNodes branchingPoint.numberOfNodes).clearClash

/-- Sets that nothing counts are dropped; no local variable survives this. -/
def removeUnusedSets : CountedTableau :=
  { t with factory := t.factory.removeUnusedSets, held := [] }

def currentBranchingPoint : ℤ := t.branchingPoints.length - 1

/-- The first half of the reaction to a clash; the next choice is made on what it leaves. -/
def backtrackOnClash : Option CountedTableau := do
  let clash ← t.clashDependencySet
  let newCurrent := clash.getMaximumBranchingPoint
  if newCurrent ≤ t.nonbacktrackableBranchingPoint then
    let minimum := clash.getMinimumBranchingPoint
    let choice := t.aboxCheckpoint.any fun checkpoint =>
        decide (0 ≤ minimum) && decide (minimum ≤ checkpoint)
    return { t with aboxChoiceClash := t.aboxChoiceClash || choice }
  else backtrackTo { t with held := clash :: t.held } newCurrent.toNat

def pushDummyDependencyBranchingPoint : CountedTableau :=
  let t := t.pushBranchingPoint
  let added := t.factory.addBranchingPoint (.permanent t.factory.emptySet) t.currentBranchingPoint
  { t with
    nonbacktrackableBranchingPoint := t.currentBranchingPoint
    factory := added.1
    held := added.2 :: t.held }

def pushAboxCheckpoint : CountedTableau :=
  let t := t.pushBranchingPoint
  { t with
    nonbacktrackableBranchingPoint := t.currentBranchingPoint
    aboxCheckpoint := some t.currentBranchingPoint.toNat
    aboxChoiceClash := false
    aboxCheckpointDisjunctions := t.groundDisjunctions.length }

/-- The empty slots at the end go, down to the number at the checkpoint. -/
def trimGroundDisjunctions : CountedTableau :=
  { t with groundDisjunctions := t.groundDisjunctions.take t.aboxCheckpointDisjunctions ++
      (t.groundDisjunctions.drop t.aboxCheckpointDisjunctions).rdropWhile Option.isNone }

def restoreAboxCheckpoint : Option CountedTableau :=
  match t.aboxCheckpoint with
  | none => some t
  | some checkpoint =>
    if t.aboxChoiceClash || decide (t.currentBranchingPoint < checkpoint) then some t
    else do
      let t ← t.backtrackTo checkpoint
      let t := { t with nonbacktrackableBranchingPoint := checkpoint }
      return t.trimGroundDisjunctions.removeUnusedSets

def clear : CountedTableau := new (t.tables.map (·.needsDependencySets))

/-! ## Runs -/

/-- What the tableau refers to. -/
def references : List PermanentDependencySet :=
  t.tables.flatMap (·.dependencySets.flatMap Option.toList) ++
    t.groundDisjunctions.flatMap (fun slot => (slot.map (·.dependencySet)).toList) ++
      t.annotatedEqualities ++
    t.nodes.flatMap (fun n => n.mergedIntoDependencySet.toList) ++ t.clashDependencySet.toList

inductive Step where
  | compute (op : DependencySetFactory.Operation)
  | storeTuple (table : ℕ) (d : DependencySet) (added : Bool)
  | setClash (d : DependencySet)
  | deriveDisjunction (d : DependencySet) (satisfied : Bool)
  | addAnnotatedEquality (d : DependencySet)
  | createNewNode
  | mergeNode (node : ℕ) (d : DependencySet)
  | pruneNode (node : ℕ)
  | pushBranchingPoint
  | pushDummyDependencyBranchingPoint
  | pushAboxCheckpoint
  | backtrackOnClash
  | restoreAboxCheckpoint
  | removeUnusedSets
  | clear

/-- A computation with dependency sets; its result stays in a local variable. -/
def compute (op : DependencySetFactory.Operation) : Option CountedTableau :=
  match op with
  | .clear | .addUsage _ | .removeUsage _ | .removeUnusedSets => none
  | op => some { t with
      factory := (op.apply t.factory).1
      held := (op.apply t.factory).2.toList ++ t.held }

def isActive (node : ℕ) : Bool := t.nodes[node]?.any (·.nodeState = .active)

def step : Step → Option CountedTableau
  | .compute op => t.compute op
  | .storeTuple table d added => t.storeTuple table d added
  | .setClash d => some (t.setClash d)
  | .deriveDisjunction d satisfied => some (t.deriveDisjunction d satisfied)
  | .addAnnotatedEquality d => some (t.addAnnotatedEquality d)
  | .createNewNode => some t.createNewNode
  | .mergeNode node d => if t.isActive node then some (t.mergeNode node d) else none
  | .pruneNode node => if t.isActive node then some (t.pruneNode node) else none
  | .pushBranchingPoint => some t.pushBranchingPoint
  | .pushDummyDependencyBranchingPoint => some t.pushDummyDependencyBranchingPoint
  | .pushAboxCheckpoint => some t.pushAboxCheckpoint
  | .backtrackOnClash => t.backtrackOnClash
  | .restoreAboxCheckpoint => t.restoreAboxCheckpoint
  | .removeUnusedSets => some t.removeUnusedSets
  | .clear => some t.clear

/-- The sets that a step is given. -/
def Step.arguments : Step → List PermanentDependencySet
  | .compute (.permanentUnionOf constituents) => constituents.reduceOption
  | .compute (.permanentUnionOfScratch constituents _) => constituents.reduceOption
  | .compute (.getPermanent d) => d.leaves
  | .compute (.addBranchingPoint d _) => d.leaves
  | .compute (.removeBranchingPoint d _) => d.leaves
  | .compute (.unionWith set1 set2) => set1.leaves ++ set2.leaves
  | .storeTuple _ d _ | .setClash d | .deriveDisjunction d _ | .addAnnotatedEquality d | .mergeNode
    _ d => d.leaves
  | _ => []

/-- The sets at hand: those in local variables, those the tableau refers to, and the empty one. -/
def available : List PermanentDependencySet := t.factory.emptySet :: (t.held ++ t.references)

/-- The sets of the disjunctions that were satisfied when they were derived, since everything was
cleared. -/
def Step.satisfiedSets (satisfied : List PermanentDependencySet) : Step →
    List PermanentDependencySet
  | .deriveDisjunction d true => (t.factory.getPermanent d).2 :: satisfied
  | .clear => []
  | _ => satisfied

inductive Run : CountedTableau → List PermanentDependencySet → Prop
  | new (needsDependencySets : List Bool) : Run (new needsDependencySets) []
  | step {t t' : CountedTableau} {satisfied : List PermanentDependencySet} (action : Step) :
    Run t satisfied →
    action.arguments ⊆ t.available → t.step action = some t' →
      Run t' (action.satisfiedSets t satisfied)

end CountedTableau

/-! ## Counting in the factory -/

namespace DependencySetFactory

variable {F F' : DependencySetFactory}

/-- The usage count of a set; one that is not kept has none. -/
def usageOf (F : DependencySetFactory) (s : PermanentDependencySet) : ℕ :=
  (F.canonical.lookup s.branchingPoints).elim 0 (·.usage)

def Interned (F : DependencySetFactory) (s : PermanentDependencySet) : Prop :=
  (F.canonical.lookup s.branchingPoints).isSome = true

instance (s : PermanentDependencySet) : Decidable (F.Interned s) :=
  inferInstanceAs (Decidable (_ = true))

variable {s : PermanentDependencySet}

theorem interned_of_usageOf_ne_zero (h : F.usageOf s ≠ 0) : F.Interned s := by
  unfold usageOf at h
  unfold Interned
  cases hs : F.canonical.lookup s.branchingPoints with
  | none => simp [hs] at h
  | some entry => rfl

variable {s' : PermanentDependencySet}

theorem branchingPoints_injective (h : s.branchingPoints = s'.branchingPoints) : s = s' :=
  PermanentDependencySet.ext_points
    (by rw [PermanentDependencySet.points, h, PermanentDependencySet.points])

/-- More sets may be kept, with the same counts. -/
structure Extends (F F' : DependencySetFactory) : Prop where
  usage : ∀ s, F'.usageOf s = F.usageOf s
  interned : ∀ s, F.Interned s → F'.Interned s
  canonical : F'.Canonical

theorem Canonical.extends_refl (h : F.Canonical) : F.Extends F := ⟨fun _ => rfl, fun _ => id, h⟩

theorem Extends.trans {F'' : DependencySetFactory} (h : F.Extends F') (h' : F'.Extends F'') :
    F.Extends F'' :=
  ⟨fun s => (h'.usage s).trans (h.usage s), fun s hs => h'.interned s (h.interned s hs),
    h'.canonical⟩

section

variable (h : F.Canonical)
include h

/-- A set that is new starts with no use. -/
theorem Canonical.extends_intern (branchingPoints : List ℤ) :
    F.Extends (F.intern branchingPoints).1 ∧ (F.intern branchingPoints).1.Interned
    (F.intern branchingPoints).2 := by
  obtain ⟨hcan, hset⟩ := h.intern branchingPoints
  refine ⟨⟨fun s => ?_, fun s hs => ?_, hcan⟩, ?_⟩
  · simp only [DependencySetFactory.intern]
    split
    · rfl
    · rename_i hnone
      by_cases hs : s.branchingPoints =
        (PermanentDependencySet.intern branchingPoints).branchingPoints
      · rw [usageOf, usageOf, hs, AList.lookup_insert, hnone]
        rfl
      · rw [usageOf, usageOf, AList.lookup_insert_ne hs]
  · simp only [DependencySetFactory.intern]
    split
    · exact hs
    · by_cases hsame : s.branchingPoints =
        (PermanentDependencySet.intern branchingPoints).branchingPoints
      · rw [Interned, hsame, AList.lookup_insert]
        rfl
      · rw [Interned, AList.lookup_insert_ne hsame]
        exact hs
  · rw [hset]
    simp only [DependencySetFactory.intern]
    split
    · rename_i entry hent
      simp [Interned, hent]
    · simp [Interned]

theorem Canonical.extends_getPermanent {d : DependencySet} (hd : ∀ s ∈ d.leaves, F.Interned s) :
    F.Extends (F.getPermanent d).1 ∧ (F.getPermanent d).1.Interned (F.getPermanent d).2 := by
  cases d with
  | permanent s => exact ⟨h.extends_refl, hd s (mem_singleton_self s)⟩
  | union dependencySets => exact h.extends_intern _

theorem Canonical.extends_addBranchingPoint {d : DependencySet} (hd : ∀ s ∈ d.leaves, F.Interned s)
    (b : ℤ) : F.Extends (F.addBranchingPoint d b).1 ∧
    (F.addBranchingPoint d b).1.Interned (F.addBranchingPoint d b).2 := by
  obtain ⟨hext, hint⟩ := h.extends_getPermanent hd
  simp only [DependencySetFactory.addBranchingPoint]
  split
  · exact ⟨hext, hint⟩
  · obtain ⟨hext', hint'⟩ := hext.canonical.extends_intern _
    exact ⟨hext.trans hext', hint'⟩

/-- The computations keep the counts; what they return is kept. -/
theorem Canonical.extends_apply (hemp : F.Interned .emptySet) {op : Operation}
    (hop : ∀ s ∈ (CountedTableau.Step.compute op).arguments, F.Interned s)
    (hcmp : op ≠ .clear ∧ (∀ s, op ≠ .addUsage s) ∧ (∀ s, op ≠ .removeUsage s) ∧
      op ≠ .removeUnusedSets) :
    F.Extends (op.apply F).1 ∧ ∀ s ∈ (op.apply F).2, (op.apply F).1.Interned s := by
  cases op with
  | clear => exact absurd rfl hcmp.1
  | addUsage s => exact absurd rfl (hcmp.2.1 s)
  | removeUsage s => exact absurd rfl (hcmp.2.2.1 s)
  | removeUnusedSets => exact absurd rfl hcmp.2.2.2
  | getEmptySet =>
    refine ⟨h.extends_refl, fun s hs => ?_⟩
    obtain rfl := some.inj hs
    rw [h.emptySet_eq]
    exact hemp
  | permanentUnionOf constituents =>
    obtain ⟨hext, hint⟩ := h.extends_intern (gathered constituents)
    exact ⟨hext, fun s hs => some.inj hs ▸ hint⟩
  | permanentUnionOfScratch constituents scratch =>
    have hscr := internScratch_eq (F := F) (gathered constituents)
    rw [Prod.ext_iff] at hscr
    simp only [Operation.apply, DependencySetFactory.permanentUnionOfScratch, countPresent_eq]
    split
    · rename_i only honly
      refine ⟨h.extends_refl, fun s hs => ?_⟩
      obtain rfl := some.inj hs
      split at honly
      · cases honly
      · rename_i only' hpresent
        cases honly
        exact hop only (by simp [CountedTableau.Step.arguments, hpresent])
      · cases honly
    · obtain ⟨hext, hint⟩ := h.extends_intern (gathered constituents)
      rw [hscr.1, hscr.2]
      exact ⟨hext, fun s hs => some.inj hs ▸ hint⟩
  | getPermanent d =>
    obtain ⟨hext, hint⟩ := h.extends_getPermanent (d := d) hop
    exact ⟨hext, fun s hs => some.inj hs ▸ hint⟩
  | addBranchingPoint d b =>
    obtain ⟨hext, hint⟩ := h.extends_addBranchingPoint (d := d) hop b
    exact ⟨hext, fun s hs => some.inj hs ▸ hint⟩
  | removeBranchingPoint d b =>
    obtain ⟨hext, hint⟩ := h.extends_getPermanent (d := d) hop
    have hrem : F.Extends (F.removeBranchingPoint d b).1 ∧
        (F.removeBranchingPoint d b).1.Interned (F.removeBranchingPoint d b).2 := by
      simp only [DependencySetFactory.removeBranchingPoint]
      split
      · exact ⟨hext, hint⟩
      · obtain ⟨hext', hint'⟩ := hext.canonical.extends_intern _
        exact ⟨hext.trans hext', hint'⟩
    exact ⟨hrem.1, fun s hs => some.inj hs ▸ hrem.2⟩
  | unionWith set1 set2 =>
    obtain ⟨hext, hint⟩ := h.extends_getPermanent (d := set1) fun s hs =>
        hop s (mem_append_left _ hs)
    obtain ⟨hext', hint'⟩ := hext.canonical.extends_getPermanent (d := set2)
      fun s hs => hext.interned s (hop s (mem_append_right _ hs))
    have hunion : F.Extends (F.unionWith set1 set2).1 ∧
        (F.unionWith set1 set2).1.Interned (F.unionWith set1 set2).2 := by
      simp only [DependencySetFactory.unionWith]
      split
      · exact ⟨hext.trans hext', hext'.interned _ hint⟩
      · obtain ⟨hext'', hint''⟩ := hext'.canonical.extends_intern _
        exact ⟨(hext.trans hext').trans hext'', hint''⟩
    exact ⟨hunion.1, fun s hs => some.inj hs ▸ hunion.2⟩

end

theorem interned_modifyUsage {f : ℕ → ℕ} : (F.modifyUsage s f).Interned s' ↔ F.Interned s' := by
  unfold modifyUsage Interned
  split
  · rename_i entry hent
    by_cases hs : s'.branchingPoints = s.branchingPoints
    · rw [hs, AList.lookup_insert, hent]
      rfl
    · rw [AList.lookup_insert_ne hs]
  · rfl

theorem usageOf_modifyUsage (s s' : PermanentDependencySet) {f : ℕ → ℕ}
    (hf : F.Interned s ∨ f 0 = 0) :
    (F.modifyUsage s f).usageOf s' = if s' = s then f (F.usageOf s) else F.usageOf s' := by
  unfold modifyUsage usageOf
  split
  · rename_i entry hent
    by_cases hs : s' = s
    · subst hs
      simp [hent]
    · have hne : s'.branchingPoints ≠ s.branchingPoints := fun h => hs (branchingPoints_injective h)
      simp [AList.lookup_insert_ne hne, hs]
  · rename_i hnone
    by_cases hs : s' = s
    · subst hs
      rcases hf with hf | hf
      · simp [Interned, hnone] at hf
      · simp [hnone, hf]
    · simp [hs]

theorem usageOf_addUsage (hs : F.Interned s) (s' : PermanentDependencySet) :
    (F.addUsage s).usageOf s' = F.usageOf s' + [s].count s' := by
  rw [addUsage, usageOf_modifyUsage s s' (.inl hs), count_singleton]
  by_cases hsame : s' = s
  · simp [hsame]
  · simp [hsame, Ne.symm hsame]

theorem usageOf_removeUsage (s s' : PermanentDependencySet) :
    (F.removeUsage s).usageOf s' = F.usageOf s' - [s].count s' := by
  rw [removeUsage, usageOf_modifyUsage s s' (.inr rfl), count_singleton]
  by_cases hsame : s' = s
  · subst hsame
    simp only [if_true, beq_self_eq_true]
    split <;> omega
  · simp [hsame, Ne.symm hsame]

/-- Release one after the other. -/
def releases (F : DependencySetFactory) (entries : List (Option PermanentDependencySet)) :
    DependencySetFactory :=
  entries.foldl (fun F s => s.elim F F.removeUsage) F

theorem releases_spec (h : F.Canonical) (entries : List (Option PermanentDependencySet)) :
    (F.releases entries).Canonical ∧ (∀ s, (F.releases entries).Interned s ↔ F.Interned s) ∧
      ∀ s, (F.releases entries).usageOf s = F.usageOf s - (entries.flatMap Option.toList).count s :=
  by
  induction entries generalizing F with
  | nil => exact ⟨h, fun _ => Iff.rfl, fun _ => rfl⟩
  | cons entry entries ih =>
    cases entry with
    | none => exact ih h
    | some s =>
      obtain ⟨hcan, hint, husage⟩ :=
        ih (h.modifyUsage s fun usage => if usage > 0 then usage - 1 else usage)
      refine ⟨hcan, fun s' => (hint s').trans interned_modifyUsage, fun s' => ?_⟩
      rw [flatMap_cons, count_append, toList_some]
      rw [releases, foldl_cons, ← releases]
      refine (husage s').trans ?_
      rw [← removeUsage, usageOf_removeUsage]
      omega

/-- Only sets without use are dropped, and not the empty one. -/
theorem lookup_removeUnusedSets (branchingPoints : List ℤ) :
    F.removeUnusedSets.canonical.lookup branchingPoints =
    (F.canonical.lookup branchingPoints).filter fun entry =>
        branchingPoints.isEmpty || entry.usage > 0 := by
  ext entry
  rw [filter_eq_some_iff]
  exact AList.mem_lookup_iff.trans (mem_filter.trans (and_congr_left' AList.mem_lookup_iff.symm))

theorem isEmpty_branchingPoints : s.branchingPoints.isEmpty = true ↔ s = .emptySet := by
  constructor
  · intro h
    exact branchingPoints_injective (List.isEmpty_iff.mp h)
  · rintro rfl
    rfl

theorem usageOf_removeUnusedSets (s : PermanentDependencySet) :
    F.removeUnusedSets.usageOf s = F.usageOf s := by
  rw [usageOf, usageOf, lookup_removeUnusedSets]
  cases hs : F.canonical.lookup s.branchingPoints with
  | none => rfl
  | some entry =>
    rw [filter_some]
    split
    · rfl
    · rename_i hdropped
      have hzero : ¬entry.usage > 0 := fun hpos => hdropped (by simp [hpos])
      exact (Nat.eq_zero_of_not_pos hzero).symm

theorem interned_removeUnusedSets (s : PermanentDependencySet) :
    F.removeUnusedSets.Interned s ↔ F.Interned s ∧ (s = .emptySet ∨ F.usageOf s ≠ 0) := by
  rw [Interned, Interned, usageOf, lookup_removeUnusedSets]
  cases hs : F.canonical.lookup s.branchingPoints with
  | none => simp
  | some entry =>
    rw [filter_some, ← isEmpty_branchingPoints]
    simp [Nat.pos_iff_ne_zero]

end DependencySetFactory

/-! ## References after an update -/

namespace Library

theorem count_flatMap_set {α β : Type*} [DecidableEq β] (f : α → List β) {l : List α} {i : ℕ}
    {a : α} (h : l[i]? = some a) (b : α) (x : β) : ((l.set i b).flatMap f).count x + (f a).count x =
    (l.flatMap f).count x + (f b).count x := by
  induction l generalizing i with
  | nil => cases h
  | cons c l ih =>
    cases i with
    | zero =>
      obtain rfl := some.inj h
      simp only [set_cons_zero, flatMap_cons, count_append]
      omega
    | succ i =>
      have hrest := ih h
      simp only [set_cons_succ, flatMap_cons, count_append]
      omega

theorem count_flatMap_take_drop {α β : Type*} [DecidableEq β] (f : α → List β) (l : List α)
    (n : ℕ) (x : β) :
    ((l.take n).flatMap f).count x + ((l.drop n).flatMap f).count x = (l.flatMap f).count x := by
  rw [← count_append, ← flatMap_append, take_append_drop]

end Library

namespace CountedTableau

open DependencySetFactory (Extends)

variable {t t' : CountedTableau} {satisfied satisfied' : List PermanentDependencySet}

/-- Every count is that of the references and of the disjunctions that were satisfied when derived.
-/
structure Accounts (t : CountedTableau) (satisfied : List PermanentDependencySet) : Prop where
  canonical : t.factory.Canonical
  empty : t.factory.Interned .emptySet
  usage : ∀ s, s ≠ .emptySet → t.factory.usageOf s = t.references.count s + satisfied.count s
  held : ∀ s ∈ t.held, t.factory.Interned s
  unmerged : ∀ n ∈ t.nodes, n.nodeState ≠ .merged → n.mergedIntoDependencySet = none

theorem count_references (t : CountedTableau) (s : PermanentDependencySet) : t.references.count s =
    (t.tables.flatMap (·.dependencySets.flatMap Option.toList)).count s +
      (t.groundDisjunctions.flatMap fun slot => (slot.map (·.dependencySet)).toList).count s +
      t.annotatedEqualities.count s + (t.nodes.flatMap fun n =>
        n.mergedIntoDependencySet.toList).count s +
      t.clashDependencySet.toList.count s := by
  simp only [references, count_append]

section

variable (h : t.Accounts satisfied)
include h

/-- What is at hand is kept by the factory. -/
theorem Accounts.interned {s : PermanentDependencySet} (hs : s ∈ t.available) :
    t.factory.Interned s := by
  rcases mem_cons.mp hs with rfl | hs
  · rw [h.canonical.emptySet_eq]
    exact h.empty
  · rcases mem_append.mp hs with hs | hs
    · exact h.held s hs
    · by_cases hemp : s = .emptySet
      · exact hemp ▸ h.empty
      · apply DependencySetFactory.interned_of_usageOf_ne_zero
        have hpos := count_pos_iff.mpr hs
        rw [h.usage s hemp]
        omega

/-- The factory may keep more, and other local variables, while the references stay. -/
theorem Accounts.extend (hext : t.factory.Extends t'.factory)
    (hreferences : ∀ s, t'.references.count s = t.references.count s)
    (hheld : ∀ s ∈ t'.held, s ∈ t.held ∨ t'.factory.Interned s) (hnodes : t'.nodes = t.nodes) :
    t'.Accounts satisfied where
  canonical := hext.canonical
  empty := hext.interned _ h.empty
  usage s hs := by rw [hext.usage, h.usage s hs, hreferences]
  held s hs := (hheld s hs).elim (fun hs => hext.interned s (h.held s hs)) id
  unmerged := hnodes ▸ h.unmerged

/-- A set is counted once more, and one reference or satisfied disjunction more has it. -/
theorem Accounts.store {p : PermanentDependencySet} (hp : t.factory.Interned p)
    (hfac : t'.factory = t.factory.addUsage p) (hheld : t'.held = t.held)
    (hcount : ∀ s, t'.references.count s + satisfied'.count s =
      t.references.count s + satisfied.count s + [p].count s)
    (hunm : ∀ n ∈ t'.nodes, n ∈ t.nodes ∨ n.nodeState = .merged) : t'.Accounts satisfied' where
  canonical := hfac ▸ h.canonical.modifyUsage p (· + 1)
  empty := hfac ▸ DependencySetFactory.interned_modifyUsage.mpr h.empty
  usage s hs := by
    rw [hfac, DependencySetFactory.usageOf_addUsage hp, h.usage s hs]
    exact (hcount s).symm
  held s hs := hfac ▸ DependencySetFactory.interned_modifyUsage.mpr (h.held s (hheld ▸ hs))
  unmerged n hn hstate := (hunm n hn).elim (fun hn => h.unmerged n hn hstate) fun hn =>
      absurd hn hstate

theorem Accounts.release (entries : List (Option PermanentDependencySet))
    (hfac : t'.factory = t.factory.releases entries) (hheld : t'.held = t.held)
    (hcount : ∀ s, t'.references.count s + (entries.flatMap Option.toList).count s =
      t.references.count s)
    (hunm : ∀ n ∈ t'.nodes, n.nodeState ≠ .merged → n.mergedIntoDependencySet = none) :
    t'.Accounts satisfied := by
  obtain ⟨hcan, hint, husage⟩ := DependencySetFactory.releases_spec h.canonical entries
  refine ⟨hfac ▸ hcan, hfac ▸ (hint _).mpr h.empty, fun s hs => ?_, fun s hs =>
      ?_, hunm⟩
  · have hs := h.usage s hs
    have hcount := hcount s
    rw [hfac, husage]
    omega
  · rw [hfac, hint]
    exact h.held s (hheld ▸ hs)

theorem Accounts.same (hfac : t'.factory = t.factory) (hheld : t'.held = t.held)
    (hcount : ∀ s, t'.references.count s = t.references.count s)
    (hunm : ∀ n ∈ t'.nodes, n.nodeState ≠ .merged → n.mergedIntoDependencySet = none) :
    t'.Accounts satisfied :=
  h.release [] hfac hheld (fun s => by simp [hcount s]) hunm

end

theorem accounts_new (needsDependencySets : List Bool) : (new needsDependencySets).Accounts [] where
  canonical := DependencySetFactory.canonical_new
  empty := rfl
  usage s hs := by
    have hnone : DependencySetFactory.new.usageOf s = 0 := by
      have hpts : s.branchingPoints ≠ [] :=
        fun h => hs (DependencySetFactory.branchingPoints_injective h)
      rw [DependencySetFactory.usageOf, DependencySetFactory.new, AList.singleton, AList.lookup,
        dlookup_cons_ne _ _ hpts]
      rfl
    have hreferences : (new needsDependencySets).references = [] := by
      simp [references, new, flatMap_map]
    rw [hreferences]
    exact hnone
  held := nofun
  unmerged := nofun

/-! ## The operations keep the accounts -/

variable {d : DependencySet} {node : ℕ}

theorem Accounts.getPermanent (h : t.Accounts satisfied)
    (hd : ∀ s ∈ d.leaves, t.factory.Interned s) :
    (t.getPermanent d).1.Accounts satisfied ∧ (t.getPermanent d).1.factory.Interned
    (t.getPermanent d).2 := by
  obtain ⟨hext, hint⟩ := h.canonical.extends_getPermanent (d := d) hd
  refine ⟨h.extend hext (fun s => rfl) (fun s hs => ?_) rfl, hint⟩
  rcases mem_cons.mp hs with rfl | hs
  · exact .inr hint
  · exact .inl hs

theorem Accounts.clearClash (h : t.Accounts satisfied) : t.clearClash.Accounts satisfied := by
  refine h.release [t.clashDependencySet] rfl rfl (fun s => ?_) h.unmerged
  simp only [count_references, CountedTableau.clearClash, removeUsage, flatMap_cons, flatMap_nil,
    append_nil, toList_none, count_nil]
  omega

theorem Accounts.setClash (h : t.Accounts satisfied) (hd : ∀ s ∈ d.leaves, t.factory.Interned s) :
    (t.setClash d).Accounts satisfied := by
  have hint := (DependencySetFactory.releases_spec h.canonical [t.clashDependencySet]).2.1
  obtain ⟨hperm, hp⟩ := h.clearClash.getPermanent (d := d) fun s hs =>
      (hint s).mpr (hd s hs)
  refine hperm.store hp rfl rfl (fun s => ?_) fun n hn => .inl hn
  simp only [count_references, CountedTableau.setClash, addUsage, CountedTableau.getPermanent,
      CountedTableau.clearClash,
    removeUsage, toList_none, toList_some, count_nil]
  omega

theorem Accounts.storeTuple (h : t.Accounts satisfied) {table : ℕ} {added : Bool}
    (hd : ∀ s ∈ d.leaves, t.factory.Interned s) (hstore : t.storeTuple table d added = some t') :
    t'.Accounts satisfied := by
  obtain ⟨hperm, hp⟩ := h.getPermanent hd
  simp only [CountedTableau.storeTuple, bind_eq_bind, bind_eq_some_iff] at hstore
  obtain ⟨x, hx, hstore⟩ := hstore
  have hset := fun entry s => Library.count_flatMap_set
    (fun x => x.dependencySets.flatMap Option.toList) hx
    { x with dependencySets := x.dependencySets ++ [entry] } s
  simp only [flatMap_append, flatMap_cons, flatMap_nil, append_nil, count_append] at hset
  split at hstore
  · split at hstore
    · cases hstore
      refine hperm.store hp rfl rfl (fun s => ?_) fun n hn => .inl hn
      have hset := hset (some (t.getPermanent d).2) s
      simp only [count_references, addUsage, CountedTableau.getPermanent, toList_some] at hset ⊢
      omega
    · cases hstore
      refine hperm.same rfl rfl (fun s => ?_) hperm.unmerged
      have hset := hset none s
      simp only [count_references, CountedTableau.getPermanent, toList_none, count_nil] at hset ⊢
      omega
  · cases hstore
    exact hperm

theorem Accounts.deriveDisjunction (h : t.Accounts satisfied)
    (hd : ∀ s ∈ d.leaves, t.factory.Interned s) (b : Bool) : (t.deriveDisjunction d b).Accounts
    ((Step.deriveDisjunction d b).satisfiedSets t satisfied) := by
  obtain ⟨hperm, hp⟩ := h.getPermanent hd
  cases b with
  | true =>
    refine hperm.store hp rfl rfl (fun s => ?_) fun n hn => .inl hn
    simp only [count_references, CountedTableau.deriveDisjunction, addUsage,
        CountedTableau.getPermanent, if_true,
      Step.satisfiedSets, flatMap_append, flatMap_cons, flatMap_nil, append_nil, map_none,
      toList_none, count_cons, count_nil]
    omega
  | false =>
    refine hperm.store hp rfl rfl (fun s => ?_) fun n hn => .inl hn
    simp only [count_references, CountedTableau.deriveDisjunction, addUsage,
        CountedTableau.getPermanent,
      Bool.false_eq_true, if_false, Step.satisfiedSets, flatMap_append, flatMap_cons, flatMap_nil,
      append_nil, map_some, toList_some, count_append]
    omega

theorem Accounts.addAnnotatedEquality (h : t.Accounts satisfied)
    (hd : ∀ s ∈ d.leaves, t.factory.Interned s) :
    (t.addAnnotatedEquality d).Accounts satisfied := by
  obtain ⟨hperm, hp⟩ := h.getPermanent hd
  refine hperm.store hp rfl rfl (fun s => ?_) fun n hn => .inl hn
  simp only [count_references, CountedTableau.addAnnotatedEquality, addUsage,
    CountedTableau.getPermanent, count_append]
  omega

theorem Accounts.createNewNode (h : t.Accounts satisfied) : t.createNewNode.Accounts satisfied := by
  refine h.same rfl rfl (fun s => ?_) fun n hn hstate => ?_
  · simp [count_references, CountedTableau.createNewNode]
  · rcases mem_append.mp hn with hn | hn
    · exact h.unmerged n hn hstate
    · rw [mem_singleton.mp hn]

theorem exists_of_isActive (hnode : t.isActive node = true) :
    ∃ n, t.nodes[node]? = some n ∧ n.nodeState = .active := by
  simpa [isActive, Option.any_eq_true] using hnode

theorem Accounts.mergeNode (h : t.Accounts satisfied)
    (hd : ∀ s ∈ d.leaves, t.factory.Interned s) (hnode : t.isActive node = true) :
    (t.mergeNode node d).Accounts satisfied := by
  obtain ⟨n, hn, hstate⟩ := exists_of_isActive hnode
  have hnone := h.unmerged n (mem_of_getElem? hn) (by simp [hstate])
  obtain ⟨hperm, hp⟩ := h.getPermanent hd
  refine hperm.store hp rfl rfl (fun s => ?_) fun n' hn' => ?_
  · have hset := Library.count_flatMap_set (fun n : UsageCounts.Node =>
      n.mergedIntoDependencySet.toList) hn
      ⟨.merged, some (t.getPermanent d).2⟩ s
    simp only [hnone, toList_none, toList_some, count_nil] at hset
    simp only [count_references, CountedTableau.mergeNode, addUsage,
      CountedTableau.getPermanent] at hset ⊢
    omega
  · rcases mem_or_eq_of_mem_set hn' with hn' | rfl
    · exact .inl hn'
    · exact .inr rfl

theorem Accounts.pruneNode (h : t.Accounts satisfied) (hnode : t.isActive node = true) :
    (t.pruneNode node).Accounts satisfied := by
  obtain ⟨n, hn, hstate⟩ := exists_of_isActive hnode
  have hnone := h.unmerged n (mem_of_getElem? hn) (by simp [hstate])
  have hmodify : t.nodes.modify node (fun n => { n with nodeState := .pruned }) =
      t.nodes.set node ⟨.pruned, none⟩ := by
    rw [modify_eq_set_getElem?, hn]
    simp [hnone]
  refine h.same rfl rfl (fun s => ?_) fun n' hn' hstate' => ?_
  · have hset := Library.count_flatMap_set (fun n : UsageCounts.Node =>
      n.mergedIntoDependencySet.toList) hn ⟨.pruned, none⟩ s
    simp only [hnone, toList_none, count_nil] at hset
    simp only [count_references, CountedTableau.pruneNode, hmodify]
    omega
  · rw [CountedTableau.pruneNode, hmodify] at hn'
    rcases mem_or_eq_of_mem_set hn' with hn' | rfl
    · exact h.unmerged n' hn' hstate'
    · rfl

theorem Accounts.pushBranchingPoint (h : t.Accounts satisfied) :
    t.pushBranchingPoint.Accounts satisfied :=
  h.same rfl rfl (fun s =>
      by simp [count_references, CountedTableau.pushBranchingPoint, flatMap_map]) h.unmerged

/-! ## Backtracking keeps the accounts -/

theorem Accounts.destroyGroundDisjunction (h : t.Accounts satisfied) (gdIndex : ℕ) :
    (t.destroyGroundDisjunction gdIndex).Accounts satisfied := by
  unfold CountedTableau.destroyGroundDisjunction
  split
  · rename_i gd hgd
    refine h.release [some gd.dependencySet] rfl rfl (fun s => ?_) h.unmerged
    have hset := Library.count_flatMap_set (fun slot : Option GroundDisjunction =>
        (slot.map (·.dependencySet)).toList) hgd none s
    simp only [count_references, removeUsage, flatMap_cons, flatMap_nil, append_nil, map_some,
      map_none, toList_none, toList_some, count_nil] at hset ⊢
    omega
  · exact h

variable {shouldBe : Option ℕ}

theorem Accounts.backtrackGroundDisjunctions (h : t.Accounts satisfied) {fuel : ℕ}
    (hrun : backtrackGroundDisjunctions shouldBe fuel t = some t') : t'.Accounts satisfied := by
  induction fuel generalizing t with
  | zero =>
    unfold CountedTableau.backtrackGroundDisjunctions at hrun
    split at hrun
    · cases hrun
      exact h
    · cases hrun
  | succ fuel ih =>
    unfold CountedTableau.backtrackGroundDisjunctions at hrun
    split at hrun
    · cases hrun
      exact h
    · split at hrun
      · rename_i fuel' gd hfuel hfst
        cases hfuel
        split at hrun
        · refine ih ?_ hrun
          have hdestroyed := h.destroyGroundDisjunction gd
          exact hdestroyed.same rfl rfl (fun s => rfl) hdestroyed.unmerged
        · cases hrun
      · cases hrun

variable (entries : List (Option PermanentDependencySet))

theorem releaseLast_factory (newLength : ℕ) : t.releaseLast entries newLength =
    { t with factory := t.factory.releases (entries.drop newLength).reverse } := by
  rw [releaseLast]
  induction (entries.drop newLength).reverse generalizing t with
  | nil => rfl
  | cons entry entries ih => exact ih

theorem count_reverse_flatMap (s : PermanentDependencySet) :
    (entries.reverse.flatMap Option.toList).count s = (entries.flatMap Option.toList).count s :=
  ((reverse_perm entries).flatMap_right _).count_eq s

theorem Accounts.backtrackAnnotatedEqualities (h : t.Accounts satisfied) (level : ℕ) :
    (t.backtrackAnnotatedEqualities level).Accounts satisfied := by
  rw [CountedTableau.backtrackAnnotatedEqualities]
  simp only [releaseLast_factory]
  refine h.release _ rfl rfl (fun s => ?_) h.unmerged
  have hspl := Library.count_flatMap_take_drop (fun s => [s]) t.annotatedEqualities
    (t.annotatedEqualitiesByBranchingPoint level) s
  simp only [flatMap_singleton'] at hspl
  rw [count_reverse_flatMap, ← map_drop, flatMap_map]
  simp only [count_references, toList_some, flatMap_singleton']
  omega

theorem Accounts.backtrackTable (h : t.Accounts satisfied) (level table : ℕ) :
    (t.backtrackTable level table).Accounts satisfied := by
  unfold CountedTableau.backtrackTable
  split
  · rename_i x hx
    simp only [releaseLast_factory]
    refine h.release _ rfl rfl (fun s => ?_) h.unmerged
    have hset := Library.count_flatMap_set (fun x => x.dependencySets.flatMap Option.toList) hx
      { x with dependencySets := x.dependencySets.take (x.indicesByBranchingPoint level) } s
    have hspl := Library.count_flatMap_take_drop Option.toList x.dependencySets
      (x.indicesByBranchingPoint level) s
    rw [count_reverse_flatMap]
    simp only [count_references] at hset ⊢
    omega
  · exact h

theorem Accounts.backtrackExtensionTables (h : t.Accounts satisfied) (level : ℕ) :
    (t.backtrackExtensionTables level).Accounts satisfied := by
  unfold CountedTableau.backtrackExtensionTables
  induction List.range t.tables.length generalizing t with
  | nil => exact h
  | cons table tables ih => exact ih (h.backtrackTable level table)

theorem Accounts.backtrackLastMergedOrPrunedNode (h : t.Accounts satisfied)
    (hrun : t.backtrackLastMergedOrPrunedNode node = some t') : t'.Accounts satisfied := by
  simp only [CountedTableau.backtrackLastMergedOrPrunedNode, bind_eq_bind, bind_eq_some_iff] at hrun
  obtain ⟨n, hn, hrun⟩ := hrun
  have hset := fun b s => Library.count_flatMap_set
    (fun n : UsageCounts.Node => n.mergedIntoDependencySet.toList) hn b s
  have hunm : ∀ b : UsageCounts.Node, b.mergedIntoDependencySet = none →
    ∀ n' ∈ t.nodes.set node b, n'.nodeState ≠ .merged → n'.mergedIntoDependencySet = none := by
    intro b hb n' hn' hstate
    rcases mem_or_eq_of_mem_set hn' with hn' | rfl
    · exact h.unmerged n' hn' hstate
    · exact hb
  split at hrun
  · cases hrun
    refine h.release [n.mergedIntoDependencySet] rfl rfl (fun s => ?_) (hunm _ rfl)
    have hset := hset ⟨.active, none⟩ s
    simp only [count_references, removeUsage, flatMap_cons, flatMap_nil, append_nil, toList_none,
      count_nil] at hset ⊢
    omega
  · rename_i hstate
    have hnone := h.unmerged n (mem_of_getElem? hn) hstate
    cases hrun
    refine h.same rfl rfl (fun s => ?_) (hunm _ hnone)
    have hset := hset { n with nodeState := .active } s
    simp only [count_references] at hset ⊢
    omega

theorem Accounts.backtrackMergedOrPrunedNodes {stack : List ℕ} (h : t.Accounts satisfied)
    (hrun : backtrackMergedOrPrunedNodes shouldBe stack t = some t') : t'.Accounts satisfied := by
  induction stack generalizing t with
  | nil =>
    rw [CountedTableau.backtrackMergedOrPrunedNodes] at hrun
    split at hrun
    · cases hrun
      exact h.same rfl rfl (fun s => rfl) h.unmerged
    · cases hrun
  | cons node rest ih =>
    rw [CountedTableau.backtrackMergedOrPrunedNodes] at hrun
    split at hrun
    · cases hrun
      exact h.same rfl rfl (fun s => rfl) h.unmerged
    · obtain ⟨t₁, hnode, hrun⟩ := bind_eq_some_iff.mp hrun
      exact ih (h.backtrackLastMergedOrPrunedNode hnode) hrun

theorem Accounts.destroyTableauNodes (h : t.Accounts satisfied) (numberOfNodes : ℕ) :
    (t.destroyTableauNodes numberOfNodes).Accounts satisfied := by
  rw [CountedTableau.destroyTableauNodes]
  simp only [releaseLast_factory]
  refine h.release _ rfl rfl (fun s => ?_) fun n hn => h.unmerged n (mem_of_mem_take hn)
  have hspl := Library.count_flatMap_take_drop
    (fun n : UsageCounts.Node => n.mergedIntoDependencySet.toList) t.nodes
    numberOfNodes s
  rw [count_reverse_flatMap, ← map_drop, flatMap_map]
  simp only [count_references]
  omega

theorem Accounts.backtrackTo (h : t.Accounts satisfied) {level : ℕ}
    (hrun : t.backtrackTo level = some t') :
    t'.Accounts satisfied := by
  simp only [CountedTableau.backtrackTo, bind_eq_bind, bind_eq_some_iff] at hrun
  obtain ⟨branchingPoint, -, t₁, hdisjunctions, t₂, hnodes, hrun⟩ := hrun
  cases hrun
  have hst : Accounts { t with branchingPoints := t.branchingPoints.take (level + 1) }
    satisfied :=
    h.same rfl rfl (fun s => rfl) h.unmerged
  have h₁ := hst.backtrackGroundDisjunctions hdisjunctions
  have h₂ := ((h₁.backtrackAnnotatedEqualities level).backtrackExtensionTables
    level).backtrackMergedOrPrunedNodes hnodes
  exact (h₂.destroyTableauNodes _).clearClash

theorem Accounts.removeUnusedSets (h : t.Accounts satisfied) :
    t.removeUnusedSets.Accounts satisfied where
  canonical := h.canonical.removeUnusedSets
  empty := (DependencySetFactory.interned_removeUnusedSets _).mpr ⟨h.empty, .inl rfl⟩
  usage s hs := (DependencySetFactory.usageOf_removeUnusedSets s).trans (h.usage s hs)
  held := nofun
  unmerged := h.unmerged

theorem Accounts.backtrackOnClash (h : t.Accounts satisfied) (hrun : t.backtrackOnClash = some t') :
    t'.Accounts satisfied := by
  simp only [CountedTableau.backtrackOnClash, bind_eq_bind, bind_eq_some_iff] at hrun
  obtain ⟨clash, hclash, hrun⟩ := hrun
  split at hrun
  · cases hrun
    exact h.same rfl rfl (fun s => rfl) h.unmerged
  · have hmem : clash ∈ t.references := mem_append_right _ (by simp [hclash])
    have hheld : Accounts { t with held := clash :: t.held } satisfied := by
      refine h.extend h.canonical.extends_refl (fun s => rfl) (fun s hs => ?_) rfl
      rcases mem_cons.mp hs with rfl | hs
      · exact .inr (h.interned (mem_cons_of_mem _ (mem_append_right _ hmem)))
      · exact .inl hs
    exact hheld.backtrackTo hrun

theorem Accounts.pushDummyDependencyBranchingPoint (h : t.Accounts satisfied) :
    t.pushDummyDependencyBranchingPoint.Accounts satisfied := by
  have hemp : ∀ s ∈ (DependencySet.permanent t.factory.emptySet).leaves,
      t.factory.Interned s := fun _ hs =>
    h.interned (mem_singleton.mp hs ▸ mem_cons_self)
  obtain ⟨hext, hint⟩ := h.pushBranchingPoint.canonical.extends_addBranchingPoint hemp
    t.pushBranchingPoint.currentBranchingPoint
  refine h.pushBranchingPoint.extend hext (fun s => rfl) (fun s hs => ?_) rfl
  rcases mem_cons.mp hs with rfl | hs
  · exact .inr hint
  · exact .inl hs

theorem Accounts.pushAboxCheckpoint (h : t.Accounts satisfied) :
    t.pushAboxCheckpoint.Accounts satisfied :=
  h.pushBranchingPoint.same rfl rfl (fun _ => rfl) h.unmerged

theorem flatMap_rdropWhile_isNone (slots : List (Option GroundDisjunction)) :
    (slots.rdropWhile Option.isNone).flatMap (fun slot => (slot.map (·.dependencySet)).toList) =
      slots.flatMap fun slot => (slot.map (·.dependencySet)).toList := by
  induction slots using List.reverseRecOn with
  | nil => rfl
  | append_singleton slots slot ih =>
    cases slot with
    | none => rw [rdropWhile_concat_pos _ _ _ rfl, ih, flatMap_append]; simp
    | some gd => rw [rdropWhile_concat_neg _ _ _ Bool.false_ne_true]

/-- Only empty slots go. -/
theorem Accounts.trimGroundDisjunctions (h : t.Accounts satisfied) :
    t.trimGroundDisjunctions.Accounts satisfied := by
  refine h.same rfl rfl (fun s => ?_) h.unmerged
  simp only [count_references, CountedTableau.trimGroundDisjunctions]
  rw [flatMap_append, flatMap_rdropWhile_isNone, ← flatMap_append, take_append_drop]

theorem Accounts.restoreAboxCheckpoint (h : t.Accounts satisfied)
    (hrun : t.restoreAboxCheckpoint = some t') :
    t'.Accounts satisfied := by
  unfold CountedTableau.restoreAboxCheckpoint at hrun
  split at hrun
  · cases hrun
    exact h
  · split at hrun
    · cases hrun
      exact h
    · rename_i checkpoint _ _
      obtain ⟨t₁, hback, hrun⟩ := bind_eq_some_iff.mp hrun
      cases hrun
      have h₁ := h.backtrackTo hback
      have hreset : Accounts { t₁ with nonbacktrackableBranchingPoint := checkpoint } satisfied :=
        h₁.same rfl rfl (fun s => rfl) h₁.unmerged
      exact hreset.trimGroundDisjunctions.removeUnusedSets

theorem Accounts.compute (h : t.Accounts satisfied) {op : DependencySetFactory.Operation}
    (hop : ∀ s ∈ (Step.compute op).arguments, t.factory.Interned s)
    (hrun : t.compute op = some t') : t'.Accounts satisfied := by
  have hcmp : (op ≠ .clear ∧ (∀ s, op ≠ .addUsage s) ∧ (∀ s, op ≠ .removeUsage s) ∧
    op ≠ .removeUnusedSets) ∧ t' = { t with
        factory := (op.apply t.factory).1, held := (op.apply t.factory).2.toList ++ t.held } := by
    cases op <;> cases hrun <;> exact ⟨⟨nofun, nofun, nofun, nofun⟩, rfl⟩
  obtain ⟨hcmp, rfl⟩ := hcmp
  obtain ⟨hext, hint⟩ := h.canonical.extends_apply h.empty hop hcmp
  refine h.extend hext (fun s => rfl) (fun s hs => ?_) rfl
  rcases mem_append.mp hs with hs | hs
  · exact .inr (hint s (mem_toList.mp hs))
  · exact .inl hs

/-! ## Whole runs -/

theorem Accounts.step (h : t.Accounts satisfied) {action : Step}
    (hgiven : action.arguments ⊆ t.available)
    (hstep : t.step action = some t') : t'.Accounts (action.satisfiedSets t satisfied) := by
  have hint : ∀ s ∈ action.arguments, t.factory.Interned s := fun s hs => h.interned (hgiven hs)
  cases action with
  | compute op => exact h.compute hint hstep
  | storeTuple table d added => exact h.storeTuple hint hstep
  | setClash d => exact some.inj hstep ▸ h.setClash hint
  | deriveDisjunction d b => exact some.inj hstep ▸ h.deriveDisjunction hint b
  | addAnnotatedEquality d => exact some.inj hstep ▸ h.addAnnotatedEquality hint
  | createNewNode => exact some.inj hstep ▸ h.createNewNode
  | mergeNode node d =>
    obtain ⟨hact, hstep⟩ := ite_none_right_eq_some.mp hstep
    exact some.inj hstep ▸ h.mergeNode hint hact
  | pruneNode node =>
    obtain ⟨hact, hstep⟩ := ite_none_right_eq_some.mp hstep
    exact some.inj hstep ▸ h.pruneNode hact
  | pushBranchingPoint => exact some.inj hstep ▸ h.pushBranchingPoint
  | pushDummyDependencyBranchingPoint => exact some.inj hstep ▸ h.pushDummyDependencyBranchingPoint
  | pushAboxCheckpoint => exact some.inj hstep ▸ h.pushAboxCheckpoint
  | backtrackOnClash => exact h.backtrackOnClash hstep
  | restoreAboxCheckpoint => exact h.restoreAboxCheckpoint hstep
  | removeUnusedSets => exact some.inj hstep ▸ h.removeUnusedSets
  | clear => exact some.inj hstep ▸ accounts_new _

theorem Run.accounts (h : Run t satisfied) : t.Accounts satisfied := by
  induction h with
  | new needsDependencySets => exact accounts_new needsDependencySets
  | step action _ hgiven hstep ih => exact ih.step hgiven hstep

/-- The counts are those of the references, and what is not referred to is dropped, unless a
disjunction with a dependency set was satisfied when it was derived. -/
theorem Run.usage_eq_iff (h : Run t satisfied) :
    ((∀ s, t.factory.Interned s → s ≠ .emptySet → t.factory.usageOf s = t.references.count s) ∧
      ∀ s, t.factory.Interned s → s ≠ .emptySet →
      (t.removeUnusedSets.factory.Interned s ↔ s ∈ t.references)) ↔
    ∀ s ∈ satisfied, s = .emptySet := by
  have haccounts := h.accounts
  constructor
  · intro hcounts s hs
    by_contra hne
    have husage := haccounts.usage s hne
    have hpos := count_pos_iff.mpr hs
    have hint := DependencySetFactory.interned_of_usageOf_ne_zero (F := t.factory) (s :=
      s) (by omega)
    have hcount := hcounts.1 s hint hne
    omega
  · intro hsat
    have husage : ∀ s, s ≠ .emptySet → t.factory.usageOf s = t.references.count s := by
      intro s hne
      rw [haccounts.usage s hne, count_eq_zero_of_not_mem fun hs => hne (hsat s hs), add_zero]
    refine ⟨fun s _ hne => husage s hne, fun s hint hne => ?_⟩
    refine (DependencySetFactory.interned_removeUnusedSets s).trans ?_
    rw [husage s hne, ← Nat.pos_iff_ne_zero, count_pos_iff]
    exact ⟨fun h => h.2.resolve_left hne, fun h => ⟨hint, .inr h⟩⟩

theorem usage_eq_after_backtracking : ∃ t, Run t [] ∧ (intern [0]) ∉ t.references ∧
      ((∀ s, t.factory.Interned s → s ≠ .emptySet → t.factory.usageOf s = t.references.count s) ∧
        ∀ s, t.factory.Interned s → s ≠ .emptySet →
        (t.removeUnusedSets.factory.Interned s ↔ s ∈ t.references)) := by
  have hrun := Run.step .backtrackOnClash (.step (.setClash (.permanent (.intern [0])))
      (.step (.compute (.addBranchingPoint (.permanent .emptySet) 0))
        (.step .pushBranchingPoint (.new [true]) (nil_subset _) rfl) (by decide +kernel) rfl)
          (by decide +kernel) rfl)
    (nil_subset _) rfl
  exact ⟨_, hrun, by decide +kernel, hrun.usage_eq_iff.mpr nofun⟩

/-- A disjunction that was satisfied when it was derived is still counted when nothing is left of
it. -/
theorem exists_usage_without_references :
    ∃ t s, Run t [s] ∧ s ≠ .emptySet ∧ t.factory.Interned s ∧ t.factory.usageOf s = 1 ∧
    t.references = [] ∧ t.removeUnusedSets.factory.Interned s := by
  have hrun := Run.step .backtrackOnClash (.step (.setClash (.permanent (.intern [0])))
      (.step (.deriveDisjunction (.union [.permanent (.intern [0])]) true)
        (.step (.storeTuple 0 (.permanent (.intern [0])) true)
          (.step (.compute (.addBranchingPoint (.permanent .emptySet) 0))
            (.step .pushBranchingPoint (.new [true]) (nil_subset _) rfl) (by decide +kernel) rfl)
          (by decide +kernel) rfl) (by decide +kernel) rfl) (by decide +kernel) rfl)
    (nil_subset _) rfl
  exact ⟨_, _, hrun, by decide +kernel⟩

/-- A count is that of the references and of the disjunctions that were satisfied when derived, and
cleaning up drops no other sets than those with neither. -/
theorem Run.usage_eq_add (h : Run t satisfied) {s : PermanentDependencySet} (hne : s ≠ .emptySet) :
    t.factory.usageOf s = t.references.count s + satisfied.count s ∧
      (t.removeUnusedSets.factory.Interned s ↔ s ∈ t.references ∨ s ∈ satisfied) := by
  have husage := h.accounts.usage s hne
  have hpos : t.factory.usageOf s ≠ 0 ↔ s ∈ t.references ∨ s ∈ satisfied := by
    rw [husage, ← count_pos_iff, ← count_pos_iff]
    omega
  refine ⟨husage, (DependencySetFactory.interned_removeUnusedSets s).trans ?_⟩
  rw [← hpos]
  exact ⟨fun h => h.2.resolve_left hne, fun h =>
      ⟨DependencySetFactory.interned_of_usageOf_ne_zero h, .inr h⟩⟩

theorem usage_eq_add_clash : ∃ t s, Run t [] ∧ t.references = [s] ∧
    t.factory.usageOf s = t.references.count s + List.count s [] ∧
      (t.removeUnusedSets.factory.Interned s ↔ s ∈ t.references ∨ s ∈ []) := by
  have hrun := Run.step (.setClash (.permanent (.intern [0])))
    (.step (.compute (.addBranchingPoint (.permanent .emptySet) 0)) (.new [true])
      (by decide +kernel) rfl)
    (by decide +kernel) rfl
  exact ⟨_, .intern [0], hrun, by decide +kernel, hrun.usage_eq_add (by decide +kernel)⟩

end CountedTableau
end Hermit
