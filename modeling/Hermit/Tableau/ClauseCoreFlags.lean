import Hermit.Tableau.BodyOrder
import Hermit.Tableau.ClauseEvaluation

/-! # Core flags of derived facts

The worker for core variables needs a clause with one unary body atom and two stored variables, so
a head variable that is not in the body.  A program without it changes no core flags: a fact has
the same flags whatever was evaluated before.  The worker sets flags that are never reset.
-/

namespace Hermit

open List hiding lt_asymm
open Option Library

/-! ## Programs without the worker for core variables -/

/-- The program of the group has the worker. -/
def ClauseGroup.ComputesCoreVariables (g : ClauseGroup) : Prop :=
  g.policy = .complexCore ∧ g.complexCoreUsesWorker = true

/-- A fact about one node has a core flag; the others are core. -/
def Worker.HasFlags : Worker → Prop
  | .computeCoreVariables _ => False
  | .deriveUnaryFact predicate _ => predicate.arity = 1
  | .deriveBinaryFact predicate _ _ => predicate.arity ≠ 1
  | .deriveTernaryFact predicate _ _ _ => predicate.arity ≠ 1
  | _ => True

def DisjunctionWorker.HasFlags (d : DisjunctionWorker) : Prop :=
  List.Forall₂ (fun (predicate : DLPredicate) (slot : Option ℕ) => slot.isSome ↔
    predicate.arity = 1)
    d.headPredicates d.copyIsCore

/-- All workers and disjunctions have the flags of their predicates. -/
structure HaveFlags (workers : List Worker) (disjunctions : List DisjunctionWorker) : Prop where
  workers : ∀ worker ∈ workers, worker.HasFlags
  disjunctions : ∀ disjunction ∈ disjunctions, disjunction.HasFlags

variable {workers added : List Worker}

theorem HaveFlags.append {disjunctions addedDisjunctions : List DisjunctionWorker}
    (h : HaveFlags workers disjunctions) (h' : HaveFlags added addedDisjunctions) :
    HaveFlags (workers ++ added) (disjunctions ++ addedDisjunctions) where
  workers := forall_mem_append.mpr ⟨h.workers, h'.workers⟩
  disjunctions := forall_mem_append.mpr ⟨h.disjunctions, h'.disjunctions⟩

theorem HaveFlags.append_workers {disjunctions : List DisjunctionWorker}
    (h : HaveFlags workers disjunctions) (hadd : ∀ worker ∈ added, worker.HasFlags) :
    HaveFlags (workers ++ added) disjunctions :=
  ⟨forall_mem_append.mpr ⟨h.workers, hadd⟩, h.disjunctions⟩

theorem Worker.HasFlags.resolve {labels : List (Option ℕ)} {worker resolved : Worker}
    (h : worker.HasFlags)
    (hresolve : worker.resolve labels = some resolved) : resolved.HasFlags := by
  unfold Worker.resolve at hresolve
  split at hresolve
  · obtain ⟨target, -, rfl⟩ := map_eq_some_iff.mp hresolve
    trivial
  · obtain ⟨target, -, rfl⟩ := map_eq_some_iff.mp hresolve
    trivial
  · obtain ⟨target, -, rfl⟩ := map_eq_some_iff.mp hresolve
    trivial
  · obtain ⟨target, -, rfl⟩ := map_eq_some_iff.mp hresolve
    trivial
  · obtain ⟨target, -, rfl⟩ := map_eq_some_iff.mp hresolve
    trivial
  · obtain rfl := some.inj hresolve
    exact h

namespace ClauseGroup

variable {g : ClauseGroup} {c c' : Compiler}

theorem hasFlags_checks (boundSoFar : List Variable) (retrieval : ℕ) (jump : ℤ) (terms : List Term)
    (outer : ℕ) :
    ∀ worker ∈ checkUnboundVariableMatches boundSoFar retrieval jump terms outer,
    worker.HasFlags := by
  induction terms generalizing outer with
  | nil => exact forall_mem_nil _
  | cons term terms ih =>
    match term with
    | .variable v =>
      rw [checkUnboundVariableMatches]
      refine forall_mem_append.mpr ⟨?_, ?_⟩
      · intro worker hwork
        split at hwork
        · cases hwork
        · obtain ⟨column, -, rfl⟩ := List.mem_map.mp hwork
          trivial
      · exact ih (outer + 1)
    | .individual _ => exact ih (outer + 1)
    | .constant _ => exact ih (outer + 1)

theorem hasFlags_bindings (g : ClauseGroup) (retrieval : ℕ) (terms : List Term) (argumentIndex : ℕ)
    (boundSoFar : List Variable) :
    ∀ worker ∈ (g.generateBindings retrieval terms argumentIndex boundSoFar).1,
    worker.HasFlags := by
  induction terms generalizing argumentIndex boundSoFar with
  | nil => exact forall_mem_nil _
  | cons term terms ih =>
    match term with
    | .variable v =>
      rw [generateBindings]
      split
      · exact ih _ _
      · split
        · exact ih _ _
        · exact forall_mem_cons.mpr ⟨trivial, ih _ _⟩
    | .individual _ => exact ih _ _
    | .constant _ => exact ih _ _

theorem hasFlags_loopBody (g : ClauseGroup) (boundSoFar : List Variable) (retrieval : ℕ) (jump : ℤ)
    (atom : Atom) :
    ∀ worker ∈ g.loopBody boundSoFar retrieval jump atom, worker.HasFlags := by
  refine forall_mem_append.mpr ⟨?_, ?_⟩
  · exact forall_mem_append.mpr ⟨hasFlags_checks _ _ _ _ _, hasFlags_bindings g _ _ _ _⟩
  · exact forall_mem_singleton.mpr trivial

theorem hasFlags_factWorker {atom : Atom} {worker : Worker} (h : g.factWorker atom = some worker) :
    worker.HasFlags := by
  obtain ⟨slots, hslots, h⟩ := bind_eq_some_iff.mp h
  have hlen : atom.dlPredicate.arity = slots.length :=
    atom.arity_eq.trans (mapM_eq_some_iff.mp hslots).length_eq
  split at h
  · obtain rfl := some.inj h
    exact hlen
  · obtain rfl := some.inj h
    rw [Worker.HasFlags, hlen]
    simp
  · obtain rfl := some.inj h
    rw [Worker.HasFlags, hlen]
    simp
  · cases h

/-- The variable of a unary head atom has a slot. -/
theorem hasFlags_disjunctionWorker {headAtoms : List Atom} {d : DisjunctionWorker}
    (hst : ∀ atom ∈ headAtoms, ∀ v ∈ atom.variables, v ∈ g.storedVariables)
    (h : g.disjunctionWorker headAtoms = some d) : d.HasFlags := by
  obtain ⟨slots, hslots, h⟩ := bind_eq_some_iff.mp h
  obtain rfl := some.inj h
  unfold DisjunctionWorker.HasFlags
  rw [forall₂_map_left_iff, forall₂_map_right_iff, forall₂_same]
  intro atom hatom
  by_cases harity : atom.dlPredicate.arity = 1
  · obtain ⟨term, hterm⟩ := length_eq_one_iff.mp (atom.arity_eq.symm.trans harity)
    have hmem : term ∈ headAtoms.flatMap Atom.arguments :=
      mem_flatMap.mpr ⟨atom, hatom, by rw [hterm]; exact mem_singleton_self term⟩
    obtain ⟨slot, -, hslot⟩ := exists_of_forall₂_left (mapM_eq_some_iff.mp hslots) hmem
    obtain ⟨v, hv, -⟩ := map_eq_some_iff.mp hslot
    have hvars : atom.variables = [v] := by
      rw [Atom.variables, hterm, filterMap_cons, hv]
      rfl
    obtain ⟨i, hi⟩ := ClauseGroup.exists_indexOf
      (hst atom hatom v (by rw [hvars]; exact mem_singleton_self v))
    rw [if_pos harity, hvars, head?_cons, bind_some, hi]
    exact ⟨fun _ => harity, fun _ => rfl⟩
  · rw [if_neg harity]
    exact ⟨fun h => Bool.noConfusion h, fun h => absurd h harity⟩

variable {headClause : DLClause}

theorem haveFlags_compileHead
    (hst : ∀ atom ∈ headClause.headAtoms, ∀ v ∈ atom.variables, v ∈ g.storedVariables)
    (hflags : HaveFlags c.workers c.disjunctions) (h : g.compileHead headClause c = some c') :
    HaveFlags c'.workers c'.disjunctions := by
  have hstart : HaveFlags (c.push .callMatchStartedOnMonitor).workers c.disjunctions :=
    hflags.append_workers (forall_mem_singleton.mpr trivial)
  obtain ⟨c₁, hc₁, rfl⟩ := map_eq_some_iff.mp h
  have hderived : HaveFlags c₁.workers c₁.disjunctions := by
    unfold deriveHead at hc₁
    split at hc₁
    · obtain rfl := some.inj hc₁
      exact hstart.append_workers (forall_mem_singleton.mpr trivial)
    · obtain ⟨worker, hwork, rfl⟩ := map_eq_some_iff.mp hc₁
      exact hstart.append_workers (forall_mem_singleton.mpr (hasFlags_factWorker hwork))
    · obtain ⟨d, hd, rfl⟩ := map_eq_some_iff.mp hc₁
      exact hstart.append ⟨forall_mem_singleton.mpr trivial,
        forall_mem_singleton.mpr (hasFlags_disjunctionWorker hst hd)⟩
  exact hderived.append_workers (forall_mem_singleton.mpr trivial)

theorem mem_storedVariables_of_head (hcla : headClause ∈ g.headDlClauses)
    {atom : Atom} (hatom : atom ∈ headClause.headAtoms) {v : Variable} (hv : v ∈ atom.variables) :
    v ∈ g.storedVariables :=
  mem_storedVariables.mpr (.inl (mem_headVariables.mpr ⟨headClause, hcla, atom, hatom, hv⟩))

section

variable (hwork : ¬ g.ComputesCoreVariables)
include hwork

theorem haveFlags_compileHeads (hflags : HaveFlags c.workers c.disjunctions)
    (h : g.compileHeads c = some c') :
    HaveFlags c'.workers c'.disjunctions := by
  unfold compileHeads at h
  have hnone : ¬ (g.policy = .complexCore ∧ g.complexCoreUsesWorker = true) := hwork
  rw [if_neg hnone] at h
  have hfold : ∀ headClauses ⊆ g.headDlClauses, ∀ c : Compiler, HaveFlags c.workers c.disjunctions →
      headClauses.foldlM (fun c headClause => g.compileHead headClause c) c = some c' →
        HaveFlags c'.workers c'.disjunctions := by
    intro headClauses
    induction headClauses with
    | nil =>
      intro _ c hflags h
      obtain rfl := some.inj h
      exact hflags
    | cons headClause headClauses ih =>
      intro hsub c hflags h
      obtain ⟨hcla, hrest⟩ := cons_subset.mp hsub
      obtain ⟨c₁, hc₁, h⟩ := bind_eq_some_iff.mp h
      exact ih hrest c₁
        (haveFlags_compileHead (fun atom hatom v => mem_storedVariables_of_head hcla hatom)
        hflags hc₁) h
  exact hfold _ (List.Subset.refl _) c hflags h

theorem haveFlags_compileBodyAtom {atoms : List Atom} {jump : ℤ}
    (hflags : HaveFlags c.workers c.disjunctions) (h : g.compileBodyAtom atoms jump c = some c') :
    HaveFlags c'.workers c'.disjunctions := by
  induction atoms generalizing c c' jump with
  | nil => exact haveFlags_compileHeads hwork hflags h
  | cons atom atoms ih =>
    cases hext : isPredicateWithExtension atom.dlPredicate with
    | true =>
      rw [compileBodyAtom_extension hext] at h
      obtain ⟨positions, -, h⟩ := bind_eq_some_iff.mp h
      obtain ⟨inner, hinn, rfl⟩ := map_eq_some_iff.mp h
      have henter : HaveFlags (g.enterLoop c atom positions).workers
        (g.enterLoop c atom positions).disjunctions :=
        hflags.append_workers (forall_mem_cons.mpr ⟨trivial,
          forall_mem_cons.mpr ⟨trivial, hasFlags_loopBody g _ _ _ _⟩⟩)
      exact (ih henter hinn).append_workers
        (forall_mem_cons.mpr ⟨trivial, forall_mem_singleton.mpr trivial⟩)
    | false =>
      obtain ⟨worker, slots, added, -, hrest, hcases⟩ := compileBodyAtom_comparison hext h
      refine ih (hflags.append_workers (forall_mem_singleton.mpr ?_)) hrest
      rcases hcases with ⟨-, -, var1, var2, -, rfl⟩ | ⟨-, -, rfl⟩
      · trivial
      · trivial

theorem haveFlags_generateCode {p : WorkerProgram} (h : g.generateCode = some p) :
    HaveFlags p.workers p.disjunctions := by
  unfold generateCode at h
  obtain ⟨firstAtom, -, h⟩ := bind_eq_some_iff.mp h
  obtain ⟨c', hbody, h⟩ := bind_eq_some_iff.mp h
  obtain ⟨workers, hworkers, h⟩ := bind_eq_some_iff.mp h
  obtain rfl := some.inj h
  have hflags : HaveFlags c'.workers c'.disjunctions :=
    haveFlags_compileBodyAtom hwork ⟨hasFlags_loopBody g [] 0 (-1) firstAtom,
      forall_mem_nil _⟩ hbody
  refine ⟨fun worker hmem => ?_, hflags.disjunctions⟩
  obtain ⟨unresolved, hunresolved, hresolve⟩ :=
    exists_of_forall₂_right (mapM_eq_some_iff.mp hworkers) hmem
  exact (hflags.workers unresolved hunresolved).resolve hresolve

end

/-- A clause of the worker is an inclusion of two concepts of one variable. -/
theorem complexCoreUsesWorker_cases (h : g.complexCoreUsesWorker = true) :
    1 < g.storedVariables.length ∧ ∃ bodyAtom headAtom v, g.bodyDlClause.bodyAtoms = [bodyAtom] ∧
      g.bodyDlClause.headAtoms = [headAtom] ∧ bodyAtom.arguments = [.variable v] ∧
      headAtom.arguments = [.variable v] := by
  unfold complexCoreUsesWorker at h
  simp only [Bool.and_eq_true, decide_eq_true_eq] at h
  obtain ⟨⟨-, hincl⟩, hlen⟩ := h
  unfold DLClause.isAtomicConceptInclusion at hincl
  split at hincl
  · rename_i bodyAtom headAtom hbody hhead
    split at hincl
    · rename_i argument argument' harg harg'
      simp only [Bool.and_eq_true, decide_eq_true_eq] at hincl
      obtain ⟨⟨-, hvar⟩, rfl⟩ := hincl
      cases argument with
      | «variable» v =>
        exact ⟨hlen, bodyAtom, headAtom, v, hbody, hhead, harg, harg'⟩
      | individual _ => cases hvar
      | constant _ => cases hvar
    · cases hincl
  · cases hincl

/-- In a clause with one unary body atom the head variables are its variable. -/
theorem not_computesCoreVariables
    (hsafe : ∀ v ∈ headVariables g.headDlClauses, ∃ atom ∈ g.bodyDlClause.bodyAtoms,
      v ∈ atom.variables) :
    ¬ g.ComputesCoreVariables := by
  rintro ⟨-, h⟩
  obtain ⟨hlen, bodyAtom, -, v, hbody, -, harg, -⟩ := complexCoreUsesWorker_cases h
  have hvar : ∀ atom ∈ g.bodyDlClause.bodyAtoms, ∀ w ∈ atom.variables, w ∈ [v] := by
    intro atom hatom w hw
    rw [hbody] at hatom
    rw [mem_singleton.mp hatom, Atom.variables, harg] at hw
    exact hw
  have hsub : g.storedVariables ⊆ [v] := by
    intro w hw
    rcases mem_storedVariables.mp hw with hw | ⟨front, atom, rest, hspl, hw, -⟩
    · obtain ⟨atom, hatom, hw⟩ := hsafe w hw
      exact hvar atom hatom w hw
    · refine hvar atom ?_ w hw
      rw [hspl]
      exact mem_append_right _ mem_cons_self
  have hle := (subperm_of_subset g.nodup_storedVariables hsub).length_le
  rw [length_singleton] at hle
  omega

end ClauseGroup

/-! ## No run changes the flags -/

/-- The flag of a fact about one node. -/
def ClauseGroup.unaryIsCore (g : ClauseGroup) : Bool :=
  match g.policy with
  | .allTrue => true
  | .simpleCore => false
  | .complexCore => 1 < g.bodyDlClause.headAtoms.length

theorem ClauseGroup.initialCoreVariables_eq (g : ClauseGroup) :
    g.initialCoreVariables = List.replicate g.storedVariables.length g.unaryIsCore := by
  unfold initialCoreVariables unaryIsCore
  cases g.policy <;> rfl

/-- Facts about one node have a common flag, and the others are core. -/
def flagsOf (unaryIsCore : Bool) (headPredicates : List DLPredicate) : List Bool :=
  headPredicates.map fun predicate => if predicate.arity = 1 then unaryIsCore else true

/-- The core variables have one flag, and so do the derived facts. -/
structure Flagged (variableCount : ℕ) (unaryIsCore : Bool) (m : Machine) : Prop where
  coreVariables : m.registers.coreVariables = List.replicate variableCount unaryIsCore
  derivations : ∀ d ∈ m.derivations, d.isCore = flagsOf unaryIsCore d.headPredicates

section flagged

variable {variableCount : ℕ} {unaryIsCore : Bool} {m m' : Machine}

variable {headPredicates : List DLPredicate} {coreSlots : List (Option ℕ)}

/-- The flags that a derivation reads. -/
theorem eq_flagsOf {isCore : List Bool}
    (hslots : List.Forall₂ (fun (predicate : DLPredicate) (slot : Option ℕ) => slot.isSome ↔
      predicate.arity = 1) headPredicates coreSlots) (hread : List.Forall₂ (fun slot b =>
      (slot.elim (some true) fun i => (List.replicate variableCount unaryIsCore)[i]?) = some b)
      coreSlots isCore) : isCore = flagsOf unaryIsCore headPredicates := by
  induction hslots generalizing isCore with
  | nil =>
    cases hread
    rfl
  | @cons predicate slot headPredicates coreSlots hslot _ ih =>
    obtain ⟨b, rest, hb, hrest, rfl⟩ := forall₂_cons_left_iff.mp hread
    rw [flagsOf, map_cons]
    refine congrArg₂ List.cons ?_ (ih hrest)
    cases slot with
    | none =>
      rw [if_neg fun harity => Bool.noConfusion (hslot.mpr harity)]
      exact (some.inj hb).symm
    | some i =>
      rw [if_pos (hslot.mp rfl)]
      exact eq_of_mem_replicate (mem_of_getElem? hb)

theorem Flagged.derive (h : Flagged variableCount unaryIsCore m) {slots : List ℕ}
    (hslots : List.Forall₂ (fun (predicate : DLPredicate) (slot : Option ℕ) => slot.isSome ↔
      predicate.arity = 1) headPredicates coreSlots)
    (hder : Hermit.derive headPredicates slots coreSlots m = some m') :
    Flagged variableCount unaryIsCore m' := by
  unfold Hermit.derive at hder
  obtain ⟨arguments, -, hder⟩ := bind_eq_some_iff.mp hder
  obtain ⟨isCore, hisCore, hder⟩ := bind_eq_some_iff.mp hder
  obtain rfl := some.inj hder
  refine ⟨h.coreVariables, forall_mem_append.mpr ⟨h.derivations, forall_mem_singleton.mpr ?_⟩⟩
  rw [h.coreVariables] at hisCore
  exact eq_flagsOf hslots (mapM_eq_some_iff.mp hisCore)

variable {program : WorkerProgram} (hprog : HaveFlags program.workers program.disjunctions)
  (tableau : Tableau) (deltaObjects : List TableauObject)
  (deltaDependencySet : PermanentDependencySet)

theorem Flagged.of_eq (h : Flagged variableCount unaryIsCore m)
    (hcore : m'.registers.coreVariables = m.registers.coreVariables)
    (hders : m'.derivations = m.derivations) :
    Flagged variableCount unaryIsCore m' :=
  ⟨hcore.trans h.coreVariables, hders ▸ h.derivations⟩

theorem Flagged.branch (h : Flagged variableCount unaryIsCore m) (condition : Bool) (target : ℤ) :
    Flagged variableCount unaryIsCore (m.branch condition target) := by
  cases condition <;> exact h.of_eq rfl rfl

include hprog in
theorem Flagged.execute (h : Flagged variableCount unaryIsCore m) {worker : Worker}
    (hwork : worker.HasFlags)
    (hexec : Hermit.execute program tableau deltaObjects deltaDependencySet worker m = some m') :
    Flagged variableCount unaryIsCore m' := by
  have hone : ∀ {predicate : DLPredicate} {slot : Option ℕ}, (slot.isSome ↔ predicate.arity = 1) →
      List.Forall₂ (fun (predicate : DLPredicate) (slot : Option ℕ) => slot.isSome ↔
        predicate.arity = 1)
        [predicate] [slot] := fun hslot => .cons hslot .nil
  cases worker with
  | copyValues fromRetrieval fromColumn toIndex =>
    obtain ⟨value, -, hexec⟩ := bind_eq_some_iff.mp hexec
    obtain ⟨values, -, hexec⟩ := bind_eq_some_iff.mp hexec
    obtain rfl := some.inj hexec
    exact h.of_eq rfl rfl
  | copyDependencySet fromRetrieval targetIndex =>
    obtain ⟨dependencySet, -, hexec⟩ := bind_eq_some_iff.mp hexec
    obtain ⟨constituents, -, hexec⟩ := bind_eq_some_iff.mp hexec
    obtain rfl := some.inj hexec
    exact h.of_eq rfl rfl
  | branchIfNotEqual jump fromRetrieval column1 column2 =>
    obtain ⟨lhs, -, hexec⟩ := bind_eq_some_iff.mp hexec
    obtain ⟨rhs, -, hexec⟩ := bind_eq_some_iff.mp hexec
    obtain rfl := some.inj hexec
    exact h.branch _ _
  | branchIfNotNodeIdLessEqualThan jump var1 var2 =>
    obtain ⟨node1, -, hexec⟩ := bind_eq_some_iff.mp hexec
    obtain ⟨node2, -, hexec⟩ := bind_eq_some_iff.mp hexec
    obtain rfl := some.inj hexec
    exact h.branch _ _
  | branchIfNotNodeIdsAscendingOrEqual jump nodeVars =>
    obtain ⟨slots, -, hexec⟩ := bind_eq_some_iff.mp hexec
    obtain ⟨nodes, -, hexec⟩ := bind_eq_some_iff.mp hexec
    obtain ⟨condition, -, hexec⟩ := bind_eq_some_iff.mp hexec
    obtain rfl := some.inj hexec
    exact h.branch _ _
  | openRetrieval r =>
    obtain ⟨retrieval, -, hexec⟩ := bind_eq_some_iff.mp hexec
    obtain ⟨indices, -, hexec⟩ := bind_eq_some_iff.mp hexec
    obtain ⟨cursors, -, hexec⟩ := bind_eq_some_iff.mp hexec
    obtain rfl := some.inj hexec
    exact h.of_eq rfl rfl
  | nextRetrieval r =>
    obtain ⟨cursor, -, hexec⟩ := bind_eq_some_iff.mp hexec
    obtain ⟨cursors, -, hexec⟩ := bind_eq_some_iff.mp hexec
    obtain rfl := some.inj hexec
    exact h.of_eq rfl rfl
  | hasMoreRetrieval eof r =>
    obtain ⟨cursor, -, hexec⟩ := bind_eq_some_iff.mp hexec
    obtain rfl := some.inj hexec
    exact h.branch _ _
  | jumpTo target | callMatchStartedOnMonitor | callMatchFinishedOnMonitor =>
    obtain rfl := some.inj hexec
    exact h.of_eq rfl rfl
  | setClash => exact h.derive .nil hexec
  | deriveUnaryFact predicate argumentIndex =>
    exact h.derive (hone ⟨fun _ => hwork, fun _ => rfl⟩) hexec
  | deriveBinaryFact predicate argument1 argument2
  | deriveTernaryFact predicate argument1 argument2 argument3 =>
    exact h.derive (hone ⟨fun h => Bool.noConfusion h, fun harity => absurd harity hwork⟩) hexec
  | deriveDisjunction disjunction =>
    obtain ⟨d, hd, hexec⟩ := bind_eq_some_iff.mp hexec
    exact h.derive (hprog.disjunctions d (mem_of_getElem? hd)) hexec
  | computeCoreVariables variableCount => exact hwork.elim

include hprog in
theorem Flagged.run (h : Flagged variableCount unaryIsCore m) {fuel : ℕ}
    (hrun : Hermit.run program tableau deltaObjects deltaDependencySet fuel m = some m') :
    Flagged variableCount unaryIsCore m' := by
  refine loopWhile_invariant (Flagged variableCount unaryIsCore) (fun s s' hs hstep => ?_) h hrun
  obtain ⟨worker, hwork, hexec⟩ := bind_eq_some_iff.mp hstep
  exact hs.execute hprog tableau deltaObjects deltaDependencySet
    (hprog.workers worker (mem_of_getElem? hwork)) hexec

end flagged

/-! ## Flags after other evaluations -/

section again

variable {g : ClauseGroup} {rawKey : DLPredicate → Fin (2 ^ 61)} {tableau : Tableau} {delta : Atom}

variable (g rawKey delta) in
/-- The registers after evaluations over any tuples of the delta atom's predicate, in any tableaus;
other programs may have used the buffer in between. -/
inductive Reached (evaluator : DLClauseEvaluator) : Registers → Prop
  | compiled : Reached evaluator evaluator.registers
  | evaluated {registers registers' : Registers} {tableau : Tableau} {fuel : ℕ}
      {values values' : List (Option TableauObject)} {nodes : List NodeId}
        {deltaDependencySet : PermanentDependencySet}
      {derivations : List Derivation} : Reached evaluator registers → g.manager.Shared values →
      (∀ kind, ∃ n, ExtensionTable.Reachable kind n (tableau.table kind)) →
        nodes.length = delta.arguments.length →
      { evaluator with registers := registers }.evaluate tableau fuel values
        (predicateToStoredLabel rawKey delta.dlPredicate :: nodes.map .node) deltaDependencySet =
          some ({ evaluator with registers := registers' }, values', derivations) →
      Reached evaluator registers'

variable {evaluator : DLClauseEvaluator} {registers registers' : Registers}
    {values values' : List (Option TableauObject)}
  {objects : List TableauObject} {deltaDependencySet : PermanentDependencySet}
  {derivations : List Derivation} {fuel : ℕ}

/-- An evaluation keeps the core variables, and derives facts with their flags. -/
theorem evaluate_flagged {e e' : DLClauseEvaluator}
    (hprog : HaveFlags e.program.workers e.program.disjunctions)
    {variableCount : ℕ} {unaryIsCore : Bool}
    (hcore : e.registers.coreVariables = List.replicate variableCount unaryIsCore)
    (h : e.evaluate tableau fuel values objects deltaDependencySet =
      some (e', values', derivations)) :
    e'.registers.coreVariables = List.replicate variableCount unaryIsCore ∧
      ∀ d ∈ derivations, d.isCore = flagsOf unaryIsCore d.headPredicates := by
  obtain ⟨m, hm, hres⟩ := bind_eq_some_iff.mp h
  cases hres
  have hflag : Flagged variableCount unaryIsCore m :=
    Flagged.run hprog tableau objects deltaDependencySet ⟨hcore, forall_mem_nil _⟩ hm
  exact ⟨hflag.coreVariables, hflag.derivations⟩

variable (hcomp : g.compile = some evaluator)

include hcomp

theorem coreVariables_compile : evaluator.registers.coreVariables =
    List.replicate g.storedVariables.length g.unaryIsCore := by
  obtain ⟨p, -, hev⟩ := bind_eq_some_iff.mp hcomp
  obtain rfl := some.inj hev
  exact g.initialCoreVariables_eq

theorem haveFlags_compile (hwork : ¬ g.ComputesCoreVariables) :
    HaveFlags evaluator.program.workers evaluator.program.disjunctions := by
  obtain ⟨p, hcode, hev⟩ := bind_eq_some_iff.mp hcomp
  obtain rfl := some.inj hev
  exact ClauseGroup.haveFlags_generateCode hwork hcode

/-- Earlier evaluations of a program without the worker keep the flags. -/
theorem Reached.coreVariables (hprog : HaveFlags evaluator.program.workers
    evaluator.program.disjunctions) (hreach : Reached g rawKey delta evaluator registers) :
    registers.coreVariables = List.replicate g.storedVariables.length g.unaryIsCore := by
  induction hreach with
  | compiled => exact coreVariables_compile hcomp
  | @evaluated registers registers' tableau fuel values values' nodes deltaDependencySet derivations
    _ _ _ _ heval ih =>
    exact (evaluate_flagged (e := { evaluator with registers := registers }) hprog ih heval).1

end again

/-- Facts with the same predicates and arguments have the same flags. -/
def SameFlags (derivations derivations' : List Derivation) : Prop :=
  ∀ d ∈ derivations, ∀ d' ∈ derivations', d.headPredicates = d'.headPredicates →
    d.arguments = d'.arguments → d.isCore = d'.isCore

/-- Whatever was evaluated before, the facts of a delta tuple have the flags that a freshly compiled
evaluator gives them. -/
def KeepsFlags (g : ClauseGroup) (rawKey : DLPredicate → Fin (2 ^ 61)) (delta : Atom)
    (evaluator : DLClauseEvaluator) : Prop :=
  ∀ registers, Reached g rawKey delta evaluator registers →
    ∀ (tableau : Tableau) (fuel fuel' : ℕ) (values : List (Option TableauObject))
      (nodes : List NodeId) (deltaDependencySet : PermanentDependencySet)
      (used fresh : DLClauseEvaluator × List (Option TableauObject))
      (derivations derivations' : List Derivation),
      g.manager.Shared values → nodes.length = delta.arguments.length →
      { evaluator with registers := registers }.evaluate tableau fuel values
        (predicateToStoredLabel rawKey delta.dlPredicate :: nodes.map .node) deltaDependencySet =
          some (used.1, used.2, derivations) →
      evaluator.evaluate tableau fuel' values
        (predicateToStoredLabel rawKey delta.dlPredicate :: nodes.map .node) deltaDependencySet =
          some (fresh.1, fresh.2, derivations') →
      SameFlags derivations derivations'

theorem keepsFlags_of_not {g : ClauseGroup} {rawKey : DLPredicate → Fin (2 ^ 61)} {delta : Atom}
    {evaluator : DLClauseEvaluator} (hcomp : g.compile = some evaluator)
    (hwork : ¬ g.ComputesCoreVariables) : KeepsFlags g rawKey delta evaluator := by
  have hprog := haveFlags_compile hcomp hwork
  intro registers hreach tableau fuel fuel' values nodes set used fresh derivations derivations' _
    _ heval heval' d hd d' hd' hpreds _
  have hused := evaluate_flagged (e := { evaluator with registers := registers }) hprog
    (hreach.coreVariables hcomp hprog) heval
  have hfresh := evaluate_flagged hprog (coreVariables_compile hcomp) heval'
  rw [hused.2 d hd, hfresh.2 d' hd', hpreds]

/-! ## The worker keeps flags that it has set -/

section worker

variable {tableau : Tableau} {values : List (Option TableauObject)} {i n : ℕ}
  {other root : NodeId}

/-- The slots hold one node, but for one of them. -/
def HoldBut (values : List (Option TableauObject)) (n i : ℕ) (other root : NodeId) : Prop :=
  ∀ k < n, nodeAt values k = some (if k = i then other else root)

theorem HoldBut.of_succ (h : HoldBut values (n + 1) i other root) : HoldBut values n i other root :=
  fun k hk => h k (Nat.lt_succ_of_lt hk)

section

variable (h : HoldBut values n i other root)
include h

/-- The node of the other slots is found if no other tree node is as shallow. -/
theorem potentialNonCore_eq (htree : (tableau.nodes root).isTreeNode = true)
    (hoth : (tableau.nodes other).isTreeNode = true →
      (tableau.nodes root).treeDepth < (tableau.nodes other).treeDepth)
    {current : Option NodeId}
    (hcur : current = some root ∨ (∃ k < n, k ≠ i) ∧ ∀ c, current = some c →
      (tableau.nodes root).treeDepth < (tableau.nodes c).treeDepth) :
    potentialNonCore tableau values n current = some root := by
  induction n generalizing current with
  | zero =>
    rcases hcur with rfl | ⟨⟨k, hk, -⟩, -⟩
    · rfl
    · cases hk
  | succ n ih =>
    rw [potentialNonCore, h n n.lt_succ_self]
    dsimp only
    by_cases hi : n = i
    · rw [if_pos hi]
      refine ih h.of_succ ?_
      split
      · rename_i hpick
        obtain ⟨htreeOther, hshallower⟩ := Bool.and_eq_true_iff.mp hpick
        have hless := hoth htreeOther
        rcases hcur with rfl | ⟨⟨k, hk, hki⟩, -⟩
        · rw [all_some, decide_eq_true_eq] at hshallower
          omega
        · refine .inr ⟨⟨k, by omega, hki⟩, fun c hc => ?_⟩
          obtain rfl := some.inj hc
          exact hless
      · refine hcur.imp_right fun ⟨⟨k, hk, hki⟩, hall⟩ => ⟨⟨k, by omega, hki⟩, hall⟩
    · rw [if_neg hi, htree, Bool.true_and]
      refine ih h.of_succ (.inl ?_)
      cases current with
      | none => rfl
      | some c =>
        rcases hcur with heq | ⟨-, hall⟩
        · rw [heq, all_some, if_neg (by simp)]
        · rw [all_some, if_pos (decide_eq_true (hall c rfl))]

/-- A flag that is set stays, and that of a deeper node is set. -/
theorem getElem?_markDeeper {coreVariables : List Bool}
    (hset : coreVariables[i]? = some true ∨ i < n ∧ i < coreVariables.length ∧
      (tableau.nodes other).isRootNode = false ∧ (tableau.nodes root).treeDepth <
      (tableau.nodes other).treeDepth) :
    (markDeeper tableau values root n coreVariables)[i]? = some true := by
  induction n generalizing coreVariables with
  | zero => exact hset.resolve_right fun hi => Nat.not_lt_zero i hi.1
  | succ n ih =>
    rw [markDeeper, h n n.lt_succ_self]
    dsimp only
    refine ih h.of_succ ?_
    by_cases hi : n = i
    · subst hi
      rw [if_pos rfl]
      rcases hset with hset | ⟨-, hlen, hroot, hdeeper⟩
      · split
        · exact .inl (getElem?_set_self (List.getElem?_eq_some_iff.mp hset).1)
        · exact .inl hset
      · have hne : root ≠ other := by
          rintro rfl
          omega
        rw [hroot, decide_eq_true hne, decide_eq_true hdeeper]
        exact .inl (getElem?_set_self hlen)
    · rw [if_neg hi, if_neg (by simp)]
      exact hset.imp_right (And.imp_left fun hlt => by omega)

/-- Nothing is marked if no other node is deeper. -/
theorem markDeeper_eq (hoth : (tableau.nodes other).isRootNode = true)
    (coreVariables : List Bool) :
    markDeeper tableau values root n coreVariables = coreVariables := by
  induction n with
  | zero => rfl
  | succ n ih =>
    rw [markDeeper, h n n.lt_succ_self]
    dsimp only
    rw [if_neg, ih h.of_succ]
    split
    · simp [hoth]
    · simp

end

theorem getElem?_of_nodeAt {k : ℕ} {node : NodeId} (h : nodeAt values k = some node) :
    values[k]? = some (some (.node node)) := by
  obtain ⟨o, ho, hnode⟩ := bind_eq_some_iff.mp h
  rw [join_eq_some_iff] at ho
  cases o with
  | node id =>
    obtain rfl := some.inj hnode
    exact ho
  | _ => cases hnode

theorem HoldBut.set (h : HoldBut values n i other root) (hi : i < values.length) (node : NodeId) :
    HoldBut (values.set i (some (.node node))) n i node root := by
  intro k hk
  by_cases hki : k = i
  · subst hki
    rw [nodeAt, getElem?_set_self hi, if_pos rfl]
    rfl
  · have hold := h k hk
    rw [if_neg hki] at hold ⊢
    rwa [nodeAt, getElem?_set_ne (Ne.symm hki)]

theorem length_computeCoreVariables (tableau : Tableau) (values : List (Option TableauObject))
    (variableCount : ℕ) (coreVariables : List Bool) :
    (computeCoreVariables tableau values variableCount coreVariables).length =
      coreVariables.length := by
  unfold computeCoreVariables
  split
  · rfl
  · exact length_markDeeper _ _ _ _

section run

variable {g : ClauseGroup} {p : WorkerProgram} {objects : List TableauObject}
  {registers : Registers} {deltaDependencySet : PermanentDependencySet} {node : NodeId}
  {m : Machine} {head : Atom} {v : Variable} (hclash : tableau.containsClash = false)

include hclash

theorem reaches_worker (hat : p.At 0 [.copyValues 0 1 i, .copyDependencySet 0 0])
    (hcore : p.At 2 [.computeCoreVariables n])
    (hobj : objects[1]? = some (.node node)) (hi : i < values.length) (hn : n ≤ values.length)
    (hcs : 0 < registers.unionConstituents.length) :
    Reaches p tableau objects deltaDependencySet ⟨0, values, registers, []⟩
      ⟨3, values.set i (some (.node node)), ⟨registers.cursors,
        computeCoreVariables tableau (values.set i (some (.node node))) n registers.coreVariables,
        registers.unionConstituents.set 0 (some deltaDependencySet)⟩, []⟩ := by
  let m₁ : Machine := ⟨1, values.set i (some (.node node)), registers, []⟩
  let m₂ : Machine := { m₁ with
    programCounter := 2
    registers := { registers with unionConstituents :=
      registers.unionConstituents.set 0 (some deltaDependencySet) } }
  have hcopy : Reaches p tableau objects deltaDependencySet ⟨0, values, registers, []⟩ m₁ := by
    refine Reaches.of_execute hclash hat.head ?_
    change Option.bind objects[1]? _ = _
    rw [hobj, bind_some, setSlot_eq hi]
    rfl
  have hset : Reaches p tableau objects deltaDependencySet m₁ m₂ := by
    refine Reaches.of_execute hclash hat.tail.head ?_
    change Option.bind (setSlot registers.unionConstituents 0 _) _ = _
    rw [setSlot_eq hcs]
    rfl
  refine Steps.trans hcopy (Steps.trans hset (Reaches.of_execute hclash hcore.head ?_))
  have hlen : (values.set i (some (.node node))).length = values.length := length_set
  rw [execute, if_neg (by dsimp only [m₂, m₁]; omega)]
  rfl

/-- The head of the inclusion is derived with the flag of its slot. -/
theorem reaches_inclusion {worker : Worker} {b : Bool} (hderives : g.DerivesHead p [head] worker)
    (hat : p.At m.programCounter [.callMatchStartedOnMonitor, worker, .callMatchFinishedOnMonitor])
    (hhead : head.arguments = [.variable v]) (hi : g.indexOf v = some i)
    (hnode : nodeAt m.values i = some node) (hb : m.registers.coreVariables[i]? = some b) :
    Reaches p tableau objects deltaDependencySet m
      ((m.record ⟨[head.dlPredicate], [node], [b], m.unionDependencySet⟩).goTo
        (m.programCounter + 3)) := by
  cases hderives with
  | disjunction htwo => exact absurd htwo (by simp)
  | fact hfact =>
    have hslot : head.arguments.mapM g.slotOf = some [i] := by
      rw [hhead, mapM_cons, ClauseGroup.slotOf, Term.asVariable, map_some, hi]
      rfl
    rw [ClauseGroup.factWorker, hslot] at hfact
    obtain rfl := some.inj hfact
    have hstart : Reaches p tableau objects deltaDependencySet m m.next :=
      Reaches.of_execute hclash hat.head rfl
    have hder : Reaches p tableau objects deltaDependencySet m.next (m.next.record
        ⟨[head.dlPredicate], [node], [b], m.unionDependencySet⟩).next := by
      refine Reaches.of_execute hclash hat.tail.head ?_
      change Option.bind ([i].mapM (nodeAt m.values)) _ = _
      rw [mapM_cons, hnode]
      change Option.bind (Option.bind m.registers.coreVariables[i]? _) _ = _
      rw [hb]
      rfl
    exact Steps.trans hstart (Steps.trans hder (Reaches.of_execute hclash hat.tail.tail.head rfl))

end run

/-- After the worker all slots hold nodes, so the heads can be derived. -/
theorem ready_of_holdBut {g : ClauseGroup} {p : WorkerProgram}
    {rawKey : DLPredicate → Fin (2 ^ 61)} {v : Variable} {node : NodeId}
    {deltaDependencySet : PermanentDependencySet} {m : Machine}
    (hgr : Ground g rawKey (fun _ => none) values) (hi : g.indexOf v = some i)
    (hvals : m.values = values.set i (some (.node node)))
    (hhold : HoldBut m.values g.storedVariables.length i node root)
    (hcs : m.registers.unionConstituents = [some deltaDependencySet])
    (hcount : p.retrievals.length = 1) (hcurs : m.registers.cursors.length = p.retrievals.length)
    (hcore : m.registers.coreVariables.length = g.storedVariables.length) :
    Ready g p rawKey (fun _ => none) g.storedVariables
      (fun w => ((g.indexOf w).bind (nodeAt m.values)).getD node) [deltaDependencySet] m := by
  have hkept : ∀ k : ℕ, (∀ w, g.indexOf w = some k → w ∈ ([] : List Variable)) →
      m.values[k]? = values[k]? := by
    intro k hk
    rw [hvals]
    refine getElem?_set_ne fun hik => ?_
    subst hik
    cases hk v hi
  refine ⟨hgr.of_slots (hvals ▸ length_set) hkept, fun w hw => ?_, ?_, ?_, hcurs, hcore⟩
  · obtain ⟨k, hk⟩ := ClauseGroup.exists_indexOf hw
    have hnode := hhold k (ClauseGroup.indexOf_lt hk)
    refine ⟨k, hk, ?_⟩
    rw [hk, bind_some, hnode, getD_some]
    exact getElem?_of_nodeAt hnode
  · rw [hcs]
    rfl
  · rw [hcs, hcount]
    rfl

/-- Two nodes of a branch, and root nodes. -/
def branchTableau : Tableau where
  nodes node := ⟨node.val, true, node.val = 1 ∨ node.val = 2, ¬ (node.val = 1 ∨ node.val = 2),
    if node.val = 1 ∨ node.val = 2 then node.val else 0⟩
  table kind := ExtensionTable.new kind.indexingSequences
  needsDependencySets := true
  dependencySets _ := []
  containsClash := false

/-- On the branch, a node below the other slots is marked, and a root node changes nothing. -/
theorem computeCoreVariables_branch (h : HoldBut values n i other root) (hn : 1 < n)
    (hroot : root.val = 1) {coreVariables : List Bool} (hi : i < n)
    (hlen : coreVariables.length = n) :
    (other.val = 2 → (computeCoreVariables branchTableau values n coreVariables)[i]? = some true) ∧
    (other.val = 3 → computeCoreVariables branchTableau values n coreVariables = coreVariables) :=
  by
  have htree : (branchTableau.nodes root).isTreeNode = true := by simp [branchTableau, hroot]
  have hex : ∃ k < n, k ≠ i := by
    by_cases hzero : i = 0
    · exact ⟨1, hn, by omega⟩
    · exact ⟨0, by omega, Ne.symm hzero⟩
  have hnone : ∀ c, (none : Option NodeId) = some c →
      (branchTableau.nodes root).treeDepth < (branchTableau.nodes c).treeDepth := by
    intro c hc
    cases hc
  constructor
  · intro hoth
    have hdeeper : (branchTableau.nodes root).treeDepth < (branchTableau.nodes other).treeDepth :=
      by simp [branchTableau, hroot, hoth]
    rw [computeCoreVariables, potentialNonCore_eq h htree (fun _ => hdeeper) (.inr ⟨hex, hnone⟩)]
    exact getElem?_markDeeper h (.inr ⟨hi, hlen ▸ hi, by simp [branchTableau, hoth], hdeeper⟩)
  · intro hoth
    rw [computeCoreVariables, potentialNonCore_eq h htree (fun htreeOther => ?_)
      (.inr ⟨hex, hnone⟩)]
    · exact markDeeper_eq h (by simp [branchTableau, hoth]) _
    · simp [branchTableau, hoth] at htreeOther

section inclusion

variable {g : ClauseGroup} {rawKey : DLPredicate → Fin (2 ^ 61)} {evaluator : DLClauseEvaluator}
  (hcomp : g.compile = some evaluator) (hwork : g.ComputesCoreVariables) {delta head : Atom}
  {v : Variable} (hbody : g.bodyDlClause.bodyAtoms = [delta])
  (hdelta : delta.arguments = [.variable v]) (hhead : head.arguments = [.variable v])
  {first : DLClause} {rest : List DLClause} (hfst : g.headDlClauses = first :: rest)
  (hfirstHead : first.headAtoms = [head])
include hcomp hwork hbody hdelta hhead hfst hfirstHead

/-- A program with the worker runs it before it derives the inclusion of the group. -/
theorem exists_evaluate_worker (hi : g.indexOf v = some i) {registers : Registers}
    (hregs : evaluator.HasRegisters registers)
    (hgr : Ground g rawKey (fun _ => none) values)
    (hslots : HoldBut values g.storedVariables.length i other root)
    (hclash : tableau.containsClash = false)
    (node : NodeId) (deltaDependencySet : PermanentDependencySet) :
    ∃ fuel registers' d derivations b,
      { evaluator with registers := registers }.evaluate tableau fuel values
        (predicateToStoredLabel rawKey delta.dlPredicate :: [node].map .node) deltaDependencySet =
          some ({ evaluator with registers := registers' }, values.set i (some (.node node)),
            d :: derivations) ∧
      evaluator.HasRegisters registers' ∧
      registers'.coreVariables = computeCoreVariables tableau (values.set i (some (.node node)))
        g.storedVariables.length registers.coreVariables ∧
      d.headPredicates = [head.dlPredicate] ∧ d.arguments = [node] ∧ d.isCore = [b] ∧
      registers'.coreVariables[i]? = some b := by
  obtain ⟨p, hcode, hev⟩ := bind_eq_some_iff.mp hcomp
  obtain rfl := some.inj hev
  obtain ⟨hcurs, hcore, hcs⟩ := hregs
  rw [length_map] at hcurs hcs
  rw [g.length_initialCoreVariables] at hcore
  obtain ⟨firstAtom, atoms, hatoms, hat, hlay⟩ := ClauseGroup.generateCode_spec hcode
  obtain ⟨rfl, rfl⟩ := List.cons.inj (hatoms.symm.trans hbody)
  have hcount : p.retrievals.length = 1 := ClauseGroup.length_retrievals_generateCode hcode hatoms
  have hloop : g.loopBody [] 0 p.workers.length firstAtom =
      [.copyValues 0 1 i, .copyDependencySet 0 0] := by
    rw [ClauseGroup.loopBody, hdelta, ClauseGroup.generateBindings, if_neg not_mem_nil, hi]
    rfl
  rw [hloop] at hat hlay
  cases hlay with
  | heads hcoreAt hheads =>
  have hcoreWorkers : g.coreWorkers = [.computeCoreVariables g.storedVariables.length] :=
    if_pos hwork
  rw [hcoreWorkers] at hcoreAt hheads
  rw [hfst] at hheads
  cases hheads with
  | cons hderives hfirstAt hrest =>
  rw [hfirstHead] at hderives
  have hlt := ClauseGroup.indexOf_lt hi
  have hwidth : i < values.length := hlt.trans_le hgr.width
  obtain ⟨constituent, hconst⟩ := length_eq_one_iff.mp (hcs.trans hcount)
  set values' := values.set i (some (.node node)) with hvals'
  have hhold : HoldBut values' g.storedVariables.length i node root := hslots.set hwidth node
  set core := computeCoreVariables tableau values' g.storedVariables.length registers.coreVariables
    with hcoreVariables
  have hcoreLength : core.length = g.storedVariables.length :=
    (length_computeCoreVariables _ _ _ _).trans hcore
  obtain ⟨b, hb⟩ : ∃ b, core[i]? = some b := ⟨_, getElem?_eq_getElem (hcoreLength ▸ hlt)⟩
  have hnode : nodeAt values' i = some node := by rw [hhold i hlt, if_pos rfl]
  let m : Machine := ⟨3, values', ⟨registers.cursors, core,
    registers.unionConstituents.set 0 (some deltaDependencySet)⟩, []⟩
  have hworkerRun : Reaches p tableau
      (predicateToStoredLabel rawKey firstAtom.dlPredicate :: [node].map .node) deltaDependencySet
      ⟨0, values, registers, []⟩ m :=
    reaches_worker hclash hat hcoreAt rfl hwidth hgr.width (by omega)
  let d : Derivation := ⟨[head.dlPredicate], [node], [b], m.unionDependencySet⟩
  let m' : Machine := { m with programCounter := 6, derivations := [d] }
  have hder : Reaches p tableau
      (predicateToStoredLabel rawKey firstAtom.dlPredicate :: [node].map .node) deltaDependencySet
      m m' := reaches_inclusion hclash hderives hfirstAt hhead hi hnode hb
  have hready := ready_of_holdBut (m := m') hgr hi rfl hhold
    (congrArg (List.set · 0 (some deltaDependencySet)) hconst) hcount hcurs hcoreLength
  obtain ⟨new, hheads, -⟩ := hready.reaches_heads hclash hcount.symm hrest
    fun c hc atom hatom w hw => ClauseGroup.mem_storedVariables_of_head
      (hfst ▸ mem_cons_of_mem _ hc) hatom hw
  have hend : running p tableau ({ m' with derivations := m'.derivations ++ new }.goTo
      p.workers.length) = false := by
    change (decide (p.workers.length < p.workers.length) && _) = false
    rw [decide_eq_false (lt_irrefl _), Bool.false_and]
  obtain ⟨fuel, hfuel⟩ := (Steps.trans hworkerRun (Steps.trans hder hheads)).loopWhile_eq hend
  refine ⟨fuel, m.registers, d, new, b, ?_, ⟨?_, ?_, ?_⟩, rfl, rfl, rfl, rfl, hb⟩
  · rw [DLClauseEvaluator.evaluate, run, hfuel fuel le_rfl]
    rfl
  · rw [length_map]
    exact hcurs
  · exact hcoreLength.trans g.length_initialCoreVariables.symm
  · rw [length_map]
    exact length_set.trans hcs

/-- With the worker, a fact at a node below a node that an earlier program left in the buffer makes
all later facts of its predicate core. -/
theorem not_keepsFlags (hheads : g.bodyDlClause.headAtoms = [head])
    (hst : 1 < g.storedVariables.length)
    (hwidth : g.storedVariables.length ≤ g.manager.maxNumberOfVariables)
    (hbuffer : g.manager.maxNumberOfVariables ≤ g.manager.valuesBuffer.length)
    (hgr : ∀ values, g.manager.Shared values → Ground g rawKey (fun _ => none) values) :
    ¬ KeepsFlags g rawKey delta evaluator := by
  intro hkeep
  obtain ⟨i, hi⟩ : ∃ i, g.indexOf v = some i := by
    refine ClauseGroup.exists_indexOf (ClauseGroup.mem_storedVariables_of_head
      (hfst ▸ mem_cons_self) (hfirstHead ▸ mem_cons_self) ?_)
    rw [Atom.variables, hhead]
    exact mem_cons_self
  have hlt := ClauseGroup.indexOf_lt hi
  set values := List.replicate g.manager.maxNumberOfVariables (some (TableauObject.node 1)) ++
    g.manager.valuesBuffer.drop g.manager.maxNumberOfVariables with hvals
  have hshare : g.manager.Shared values := by
    refine ⟨?_, fun k hk => ?_⟩
    · rw [hvals, length_append, length_replicate, length_drop]
      omega
    · rw [hvals, getElem?_append_right (by simpa using hk), length_replicate, getElem?_drop]
      congr 1
      omega
  have hold : HoldBut values g.storedVariables.length i 1 1 := by
    intro k hk
    rw [nodeAt, hvals, getElem?_append_left (by rw [length_replicate]; omega),
      getElem?_replicate_of_lt (by omega), ite_self]
    rfl
  have hheldBy : ∀ node, HoldBut (values.set i (some (.node node))) g.storedVariables.length i
      node 1 := hold.set (hlt.trans_le (hgr values hshare).width)
  have hcore : evaluator.registers.coreVariables =
      List.replicate g.storedVariables.length false := by
    rw [coreVariables_compile hcomp, ClauseGroup.unaryIsCore, hwork.1, hheads]
    rfl
  have hrun := @exists_evaluate_worker branchTableau values i 1 1 g rawKey evaluator hcomp hwork
    delta head v hbody hdelta hhead first rest hfst hfirstHead hi
  obtain ⟨fuel, registers, d, derivations, b, heval, hregs, hmark, -⟩ :=
    hrun ⟨rfl, rfl, rfl⟩ (hgr values hshare) hold rfl 2 .emptySet
  obtain ⟨fuel₁, registers₁, d₁, derivations₁, b₁, heval₁, -, hcore₁, hpreds₁, hargs₁,
    hflags₁, hb₁⟩ := hrun hregs (hgr values hshare) hold rfl 3 .emptySet
  obtain ⟨fuel₂, registers₂, d₂, derivations₂, b₂, heval₂, -, hcore₂, hpreds₂, hargs₂,
    hflags₂, hb₂⟩ := hrun ⟨rfl, rfl, rfl⟩ (hgr values hshare) hold rfl 3 .emptySet
  have hbranch : ∀ node : NodeId, ∀ coreVariables : List Bool,
      coreVariables.length = g.storedVariables.length → _ := fun node _ =>
    computeCoreVariables_branch (hheldBy node) hst rfl hlt
  have hlen : evaluator.registers.coreVariables.length = g.storedVariables.length := by
    rw [hcore, length_replicate]
  rw [hcore₁, (hbranch 3 _ (hregs.coreVariables.trans hlen)).2 rfl, hmark,
    (hbranch 2 _ hlen).1 rfl] at hb₁
  rw [hcore₂, (hbranch 3 _ hlen).2 rfl, hcore, getElem?_replicate_of_lt hlt] at hb₂
  have hsame := hkeep registers (.evaluated .compiled hshare
    (fun _ => ⟨0, .new⟩) (congrArg List.length hdelta).symm heval) branchTableau fuel₁ fuel₂ values
    [3] .emptySet (_, _) (_, _) _ _ hshare (congrArg List.length hdelta).symm heval₁ heval₂ d₁
    mem_cons_self d₂ mem_cons_self (hpreds₁.trans hpreds₂.symm)
    (hargs₁.trans hargs₂.symm)
  rw [hflags₁, hflags₂, ← some.inj hb₁, ← some.inj hb₂] at hsame
  cases hsame

end inclusion

end worker

/-- Take a group of clauses with one body, compiled under a policy for core variables.  Without the
worker for core variables, a fact of a delta tuple has the same flags whatever was evaluated before;
with it, and with a slot for every variable, an earlier evaluation can make later facts core.
Clauses whose head variables are bound in the body do not need it. -/
theorem keepsFlags_iff (rawKey : DLPredicate → Fin (2 ^ 61)) (dlClauses : List DLClause)
    (manager : ValuesBufferManager)
    (hman : ValuesBufferManager.new rawKey dlClauses (fun _ => none) = .ok manager)
    (representative : DLClause) (members : List DLClause)
    (hgroup : (representative, members) ∈ groupByBody dlClauses) (index : ℕ)
    (bodyDlClause : DLClause)
    (hswap : swapBodyToFront representative index = some bodyDlClause) (policy : CoreVariablePolicy)
    (evaluator : DLClauseEvaluator)
    (hcomp : (ClauseGroup.mk bodyDlClause members policy manager).compile = some evaluator)
    (delta : Atom) (atoms : List Atom) (hbody : bodyDlClause.bodyAtoms = delta :: atoms) :
    (¬ (ClauseGroup.mk bodyDlClause members policy manager).ComputesCoreVariables →
      KeepsFlags ⟨bodyDlClause, members, policy, manager⟩ rawKey delta evaluator) ∧
    ((ClauseGroup.mk bodyDlClause members policy manager).storedVariables.length ≤
        manager.maxNumberOfVariables →
      KeepsFlags ⟨bodyDlClause, members, policy, manager⟩ rawKey delta evaluator →
      ¬ (ClauseGroup.mk bodyDlClause members policy manager).ComputesCoreVariables) ∧
    ((∀ c ∈ dlClauses, c.Evaluable) →
      ¬ (ClauseGroup.mk bodyDlClause members policy manager).ComputesCoreVariables) := by
  refine ⟨keepsFlags_of_not hcomp, fun hwidth hkeep hwork => ?_, fun hevaluable =>
    ClauseGroup.not_computesCoreVariables
      (prepared_of_group hman hevaluable hgroup hswap policy hbody).safe⟩
  obtain ⟨-, rest, -, hheads, -, -, -⟩ := swapBodyToFront_spec hswap
  obtain ⟨hst, bodyAtom, head, v, hbody', hhead', hdelta, hhead⟩ :=
    ClauseGroup.complexCoreUsesWorker_cases hwork.2
  obtain ⟨rfl, rfl⟩ := List.cons.inj (hbody.symm.trans hbody')
  obtain ⟨rest, hmems⟩ := head?_eq_some_iff.mp (isGroup_of_mem_groupByBody _ hgroup).1
  obtain ⟨hnum, hlen, -⟩ := ValuesBufferManager.new_spec hman
  exact not_keepsFlags hcomp hwork hbody' hdelta hhead hmems (hheads.symm.trans hhead') hhead'
    hst hwidth hlen
    (fun values hvals => ClauseGroup.ground_of_shared hman hvals (hwidth.trans_eq hnum)) hkeep

theorem keepsFlags_joinClause : ∃ manager evaluator,
    ValuesBufferManager.new nameKey [joinClause] (fun _ => none) = .ok manager ∧
    swapBodyToFront joinClause 0 = some joinClause ∧
    (ClauseGroup.mk joinClause [joinClause] .complexCore manager).compile = some evaluator ∧
    ¬ (ClauseGroup.mk joinClause [joinClause] .complexCore manager).ComputesCoreVariables ∧
    KeepsFlags ⟨joinClause, [joinClause], .complexCore, manager⟩ nameKey
      ⟨.atomicRole ⟨"r"⟩, [.variable ⟨"X"⟩, .variable ⟨"Y"⟩], rfl⟩ evaluator := by
  have hswap : swapBodyToFront joinClause 0 = some joinClause := by decide
  have hwork : ∀ manager : ValuesBufferManager,
      ¬ (ClauseGroup.mk joinClause [joinClause] .complexCore manager).ComputesCoreVariables := by
    rintro manager ⟨-, h⟩
    cases h
  refine ⟨_, _, rfl, hswap, rfl, hwork _, ?_⟩
  exact (keepsFlags_iff nameKey [joinClause] _ rfl joinClause [joinClause] mem_cons_self
    0 joinClause
    hswap .complexCore _ rfl _ _ rfl).1 (hwork _)

/-- A clause with the body `A(X)`. -/
def inclusionFromA (name : String) : DLClause :=
  ⟨[⟨.atomicConcept ⟨name⟩, [.variable ⟨"X"⟩], rfl⟩],
    [⟨.atomicConcept ⟨"A"⟩, [.variable ⟨"X"⟩], arity_conceptA⟩]⟩

/-- The body `A(X)` and the head `X ≈ Y`. -/
def equalityFromA : DLClause :=
  ⟨[⟨.equality, [.variable ⟨"X"⟩, .variable ⟨"Y"⟩], arity_equality⟩],
    [⟨.atomicConcept ⟨"A"⟩, [.variable ⟨"X"⟩], arity_conceptA⟩]⟩

/-- The body `r(X, Y)` and the head `s(X, Y)`. -/
def roleInclusion : DLClause :=
  ⟨[⟨.atomicRole ⟨"s"⟩, [.variable ⟨"X"⟩, .variable ⟨"Y"⟩], arity_role "s"⟩],
    [⟨.atomicRole ⟨"r"⟩, [.variable ⟨"X"⟩, .variable ⟨"Y"⟩], arity_role "r"⟩]⟩

/-- The evaluator of a group of clauses, with the buffer it shares with the others. -/
def compileMembers (dlClauses : List DLClause) (representative : DLClause)
    (members : List DLClause) :
    Option (DLClauseEvaluator × List (Option TableauObject)) := do
  let manager ← (ValuesBufferManager.new nameKey dlClauses (fun _ => none)).toOption
  let bodyDlClause ← swapBodyToFront representative 0
  let evaluator ← (ClauseGroup.mk bodyDlClause members .complexCore manager).compile
  return (evaluator, manager.valuesBuffer)

attribute [local instance] neZero_keys in
/-- The flags of the facts for `A(3)` after `r(0, 1)` and `A(2)`, and of a fresh evaluator. -/
def branchFlags : Option (List (List Bool) × List (List Bool)) := do
  let dlClauses := [inclusionFromA "B", equalityFromA, roleInclusion]
  let (roles, values) ← compileMembers dlClauses roleInclusion [roleInclusion]
  let (concepts, _) ← compileMembers dlClauses (inclusionFromA "B")
    [inclusionFromA "B", equalityFromA]
  let (_, values, _) ← roles.evaluate branchTableau 20
    values [.dlPredicate 0, .node 0, .node 1] .emptySet
  let (used, values, _) ← concepts.evaluate branchTableau 20 values [.concept 1, .node 2] .emptySet
  let (_, _, derivations) ← used.evaluate branchTableau 20 values [.concept 1, .node 3] .emptySet
  let (_, _, derivations') ← concepts.evaluate branchTableau 20
    values [.concept 1, .node 3] .emptySet
  return (derivations.map Derivation.isCore, derivations'.map Derivation.isCore)

/-- Let the clauses be `A(X) → B(X)`, `A(X) → X ≈ Y` and `r(X, Y) → s(X, Y)`, compiled for complex
core.  The evaluation of `r(0, 1)` leaves the node 1 in the slot of `Y`.  For `A(2)` the worker
finds 2 below 1, and the flag that it sets stays for `A(3)`, though 3 is a root node: the fact
`B(3)` is core, and from a fresh evaluator it is not. -/
theorem branchFlags_eq : branchFlags = some ([[true], [true]], [[false], [true]]) := by
  decide +kernel

end Hermit
