import Hermit.Tableau.ClauseMatching

/-! # The layout of a compiled clause

The workers of an atom lie in one piece of the program, those of the later atoms inside it.  Every
jump out of a piece goes to its end, and the end of a piece is where the next tuple of the atom
around it is taken.
-/

namespace Hermit

open Compiler List Option Library

/-! ## Pieces of a program -/

/-- The workers lie in the program from a position on. -/
def WorkerProgram.At (p : WorkerProgram) (base : ℕ) (workers : List Worker) : Prop :=
  ∀ i w, workers[i]? = some w → p.workers[base + i]? = some w

theorem WorkerProgram.At.head {p : WorkerProgram} {base : ℕ} {w : Worker} {workers : List Worker}
    (h : p.At base (w :: workers)) : p.workers[base]? = some w := h 0 w rfl

theorem WorkerProgram.At.tail {p : WorkerProgram} {base : ℕ} {w : Worker} {workers : List Worker}
    (h : p.At base (w :: workers)) : p.At (base + 1) workers := by
  intro i w' hi
  rw [Nat.add_right_comm, Nat.add_assoc]
  exact h (i + 1) w' hi

section

variable {p : WorkerProgram} {base : ℕ} {workers workers' : List Worker}
  (h : p.At base (workers ++ workers'))
include h

theorem WorkerProgram.At.left : p.At base workers := by
  intro i w hi
  apply h i w
  rw [getElem?_append_left (List.getElem?_eq_some_iff.mp hi).1]
  exact hi

theorem WorkerProgram.At.right : p.At (base + workers.length) workers' := by
  intro i w hi
  rw [Nat.add_assoc]
  apply h (workers.length + i) w
  rw [getElem?_append_right (by omega), Nat.add_sub_cancel_left]
  exact hi

end

namespace ClauseGroup

variable (g : ClauseGroup) (p : WorkerProgram)

/-- The worker that derives the head of a clause. -/
inductive DerivesHead : List Atom → Worker → Prop
  | clash : DerivesHead [] .setClash
  | fact {atom worker} : g.factWorker atom = some worker → DerivesHead [atom] worker
  | disjunction {headAtoms j d} : 2 ≤ headAtoms.length → g.disjunctionWorker headAtoms = some d →
      p.disjunctions[j]? = some d → DerivesHead headAtoms (.deriveDisjunction j)

inductive HeadsLayout : List DLClause → ℕ → ℕ → Prop
  | nil {base} : HeadsLayout [] base base
  | cons {headClause headClauses base last worker} : DerivesHead g p headClause.headAtoms worker →
      p.At base [.callMatchStartedOnMonitor, worker, .callMatchFinishedOnMonitor] →
      HeadsLayout headClauses (base + 3) last → HeadsLayout (headClause :: headClauses) base last

/-- The workers before the heads: at most one, which computes core variables. -/
def coreWorkers : List Worker :=
  if g.policy = .complexCore ∧ g.complexCoreUsesWorker
    then [.computeCoreVariables g.storedVariables.length] else []

/-- What is run for every tuple of an atom before the later atoms. -/
def loopBody (boundSoFar : List Variable) (retrieval : ℕ) (jump : ℤ) (atom : Atom) : List Worker :=
  checkUnboundVariableMatches boundSoFar retrieval jump atom.arguments 0 ++
    (g.generateBindings retrieval atom.arguments 0 boundSoFar).1 ++
      [.copyDependencySet retrieval retrieval]

/-- The atoms lie between two positions, with variables bound before and a number of retrievals
opened before. -/
inductive Layout : List Atom → List Variable → ℕ → ℕ → ℕ → Prop
  | heads {boundSoFar retrieval base last} : p.At base g.coreWorkers →
      HeadsLayout g p g.headDlClauses (base + g.coreWorkers.length) last →
      Layout [] boundSoFar retrieval base last
  | lessEqual {atom atoms boundSoFar retrieval base last var1 var2} :
    atom.dlPredicate = .nodeIdLessEqualThan →
      atom.arguments.mapM g.slotOf = some [var1, var2] →
      p.workers[base]? = some (.branchIfNotNodeIdLessEqualThan (last : ℕ) var1 var2) →
      Layout atoms boundSoFar retrieval (base + 1) last →
        Layout (atom :: atoms) boundSoFar retrieval base last
  | ascending {atom atoms boundSoFar retrieval base last arity j slots} :
      atom.dlPredicate = .nodeIDsAscendingOrEqual arity →
      atom.arguments.mapM g.slotOf = some slots → p.nodeVarLists[j]? = some slots →
      p.workers[base]? = some (.branchIfNotNodeIdsAscendingOrEqual (last : ℕ) j) →
      Layout atoms boundSoFar retrieval (base + 1) last →
        Layout (atom :: atoms) boundSoFar retrieval base last
  | extension {atom atoms boundSoFar retrieval base next positions} :
      isPredicateWithExtension atom.dlPredicate = true →
        g.bindingPositions boundSoFar atom = some positions →
      p.retrievals[retrieval]? = some ⟨atom.arguments.length + 1, positions, .extensionThis⟩ →
      p.At base (.openRetrieval retrieval :: .hasMoreRetrieval (next + 2 : ℕ) retrieval ::
        g.loopBody boundSoFar retrieval next atom) →
      Layout atoms (g.generateBindings retrieval atom.arguments 0 boundSoFar).2 (retrieval + 1)
        (base + 2 + (g.loopBody boundSoFar retrieval next atom).length) next →
      p.At next [.nextRetrieval retrieval, .jumpTo (base + 1 : ℕ)] →
      Layout (atom :: atoms) boundSoFar retrieval base (next + 2)

end ClauseGroup

namespace Compiler

/-- Everything is only added to. -/
structure Grows (c c' : Compiler) : Prop where
  workers : c.workers <+: c'.workers
  nodeVarLists : c.nodeVarLists <+: c'.nodeVarLists
  disjunctions : c.disjunctions <+: c'.disjunctions
  retrievals : c.retrievals <+: c'.retrievals
  labels_le : c.labels.length ≤ c'.labels.length
  labels : ∀ i < c.labels.length, c'.labels[i]? = c.labels[i]?

theorem Grows.refl (c : Compiler) : c.Grows c :=
  ⟨prefix_rfl, prefix_rfl, prefix_rfl, prefix_rfl, le_rfl, fun _ _ => rfl⟩

theorem Grows.trans {c c' c'' : Compiler} (h : c.Grows c') (h' : c'.Grows c'') : c.Grows c'' where
  workers := h.workers.trans h'.workers
  nodeVarLists := h.nodeVarLists.trans h'.nodeVarLists
  disjunctions := h.disjunctions.trans h'.disjunctions
  retrievals := h.retrievals.trans h'.retrievals
  labels_le := h.labels_le.trans h'.labels_le
  labels := by
    intro i hi
    rw [h'.labels i (lt_of_lt_of_le hi h.labels_le), h.labels i hi]

/-- The final program has the workers with their labels resolved, and the other lists. -/
structure Installed (p : WorkerProgram) (labels : List (Option ℕ)) (c : Compiler) : Prop where
  workers : ∀ (i : ℕ) (w : Worker), c.workers[i]? = some w → ∃ w',
    w.resolve labels = some w' ∧ p.workers[i]? = some w'
  nodeVarLists : c.nodeVarLists <+: p.nodeVarLists
  disjunctions : c.disjunctions <+: p.disjunctions
  retrievals : c.retrievals <+: p.retrievals

variable {p : WorkerProgram} {labels : List (Option ℕ)} {c c' : Compiler}

theorem Installed.of_grows (h : Installed p labels c') (hgrow : c.Grows c') :
    Installed p labels c where
  workers := by
    intro i w hi
    apply h.workers i w
    obtain ⟨rest, hrest⟩ := hgrow.workers
    rw [← hrest, getElem?_append_left (List.getElem?_eq_some_iff.mp hi).1]
    exact hi
  nodeVarLists := hgrow.nodeVarLists.trans h.nodeVarLists
  disjunctions := hgrow.disjunctions.trans h.disjunctions
  retrievals := hgrow.retrievals.trans h.retrievals

/-- Added workers lie where they were added, resolved. -/
theorem Installed.at (workers : List Worker) {resolved : List Worker} {base : ℕ}
    (h : Installed p labels c)
    (hworkers : ∃ front, front.length = base ∧ front ++ workers <+: c.workers)
    (hresolved : workers.mapM (Worker.resolve labels) = some resolved) : p.At base resolved := by
  obtain ⟨front, rfl, rest, hrest⟩ := hworkers
  intro i w' hi
  have hpw := mapM_eq_some_iff.mp hresolved
  obtain ⟨hlt, hw'⟩ := List.getElem?_eq_some_iff.mp hi
  have hlt' : i < workers.length := by rw [hpw.length_eq]; exact hlt
  have hres := hpw.get hlt' hlt
  rw [get_eq_getElem, get_eq_getElem] at hres
  have hinside : c.workers[front.length + i]? = some workers[i] := by
    rw [← hrest, append_assoc, getElem?_append_right (by omega), Nat.add_sub_cancel_left,
      getElem?_append_left hlt', getElem?_eq_getElem hlt']
  obtain ⟨w'', hw'', hat⟩ := h.workers (front.length + i) workers[i] hinside
  rw [hat, ← hw'', hres]
  exact congrArg some hw'

end Compiler

/-! ## Labels -/

section resolution

variable {labels : List (Option ℕ)}

theorem resolveJump_label {i target : ℕ} (hpos : 0 < i) (h : labels[i]? = some (some target)) :
    resolveJump labels (-(i : ℤ)) = some (target : ℤ) := by
  unfold resolveJump
  rw [if_pos (by omega), neg_neg, Int.toNat_natCast, h]
  rfl

theorem resolveJump_natCast (target : ℕ) : resolveJump labels target = some (target : ℤ) := by
  unfold resolveJump
  rw [if_neg (by omega)]

theorem mapM_resolve_checks {jump target : ℤ} (h : resolveJump labels jump = some target)
    (boundSoFar : List Variable) (retrieval : ℕ) (terms : List Term) (outer : ℕ) :
    (checkUnboundVariableMatches boundSoFar retrieval jump terms outer).mapM
    (Worker.resolve labels) =
      some (checkUnboundVariableMatches boundSoFar retrieval target terms outer) := by
  induction terms generalizing outer with
  | nil => rfl
  | cons term terms ih =>
    match term with
    | .variable v =>
      rw [checkUnboundVariableMatches, checkUnboundVariableMatches]
      refine mapM_append_eq_some ?_ (ih (outer + 1))
      split
      · rfl
      · rw [mapM_eq_some_iff, forall₂_map_left_iff, forall₂_map_right_iff, forall₂_same]
        intro column _
        rw [Worker.resolve, h]
        rfl
    | .individual _ => exact ih (outer + 1)
    | .constant _ => exact ih (outer + 1)

theorem mapM_resolve_bindings (g : ClauseGroup) (retrieval : ℕ) (terms : List Term)
    (argumentIndex : ℕ) (boundSoFar : List Variable) :
    (g.generateBindings retrieval terms argumentIndex boundSoFar).1.mapM (Worker.resolve labels) =
      some (g.generateBindings retrieval terms argumentIndex boundSoFar).1 := by
  induction terms generalizing argumentIndex boundSoFar with
  | nil => rfl
  | cons term terms ih =>
    match term with
    | .variable v =>
      rw [ClauseGroup.generateBindings]
      split
      · exact ih _ _
      · split
        · exact ih _ _
        · rename_i i hi
          have hfst : [Worker.copyValues retrieval (argumentIndex + 1) i].mapM
            (Worker.resolve labels) = some [.copyValues retrieval (argumentIndex + 1) i] := rfl
          exact mapM_append_eq_some hfst (ih _ _)
    | .individual _ => exact ih _ _
    | .constant _ => exact ih _ _

theorem mapM_resolve_loopBody {jump target : ℤ} (h : resolveJump labels jump = some target)
    (g : ClauseGroup) (boundSoFar : List Variable) (retrieval : ℕ) (atom : Atom) :
    (g.loopBody boundSoFar retrieval jump atom).mapM (Worker.resolve labels) =
      some (g.loopBody boundSoFar retrieval target atom) :=
  mapM_append_eq_some (mapM_append_eq_some (mapM_resolve_checks h _ _ _ _)
    (mapM_resolve_bindings _ _ _ _ _)) rfl

theorem length_loopBody (g : ClauseGroup) (boundSoFar : List Variable) (retrieval : ℕ)
    (jump target : ℤ) (atom : Atom) : (g.loopBody boundSoFar retrieval jump atom).length =
      (g.loopBody boundSoFar retrieval target atom).length := by
  have hchecks : ∀ terms outer,
    (checkUnboundVariableMatches boundSoFar retrieval jump terms outer).length =
      (checkUnboundVariableMatches boundSoFar retrieval target terms outer).length := by
    intro terms
    induction terms with
    | nil => intro outer; rfl
    | cons term terms ih =>
      intro outer
      match term with
      | .variable v =>
        rw [checkUnboundVariableMatches, checkUnboundVariableMatches, length_append,
          length_append, ih]
        split
        · rfl
        · rw [length_map, length_map]
      | .individual _ => exact ih _
      | .constant _ => exact ih _
  unfold ClauseGroup.loopBody
  rw [length_append, length_append, length_append, length_append, hchecks]

end resolution

namespace ClauseGroup

variable {g : ClauseGroup} {c c' : Compiler}

variable (p : WorkerProgram) (labels : List (Option ℕ))

theorem compileHead_spec {headClause : DLClause} (h : g.compileHead headClause c = some c') :
    c.Grows c' ∧ c'.labels = c.labels ∧ c'.workers.length = c.workers.length + 3 ∧
      (Installed p labels c' → ∃ worker, DerivesHead g p headClause.headAtoms worker ∧
        p.At c.workers.length [.callMatchStartedOnMonitor, worker, .callMatchFinishedOnMonitor]) :=
  by
  obtain ⟨c₁, hc₁, rfl⟩ := map_eq_some_iff.mp h
  unfold deriveHead at hc₁
  -- One worker is added between the two events; the disjunction is added with it.
  obtain ⟨worker, added, rfl, hres, hder⟩ : ∃ worker added,
      c₁ = { c.pushAll [.callMatchStartedOnMonitor, worker] with
        disjunctions := c.disjunctions ++ added } ∧
      worker.resolve labels = some worker ∧
      (c.disjunctions ++ added <+: p.disjunctions → DerivesHead g p headClause.headAtoms worker) :=
        by
    split at hc₁
    · obtain rfl := some.inj hc₁
      rename_i hnil
      refine ⟨.setClash, [], ?_, rfl, fun _ => ?_⟩
      · simp [push, pushAll]
      · rw [hnil]
        exact .clash
    · rename_i atom hatom
      obtain ⟨worker, hwork, rfl⟩ := map_eq_some_iff.mp hc₁
      refine ⟨worker, [], by simp [push, pushAll], ?_, fun _ => ?_⟩
      · unfold factWorker at hwork
        obtain ⟨slots, -, hwork⟩ := bind_eq_some_iff.mp hwork
        split at hwork <;> cases hwork <;> rfl
      · rw [hatom]
        exact .fact hwork
    · rename_i hnotNil hnotSingle
      obtain ⟨d, hd, rfl⟩ := map_eq_some_iff.mp hc₁
      refine ⟨.deriveDisjunction c.disjunctions.length, [d], by simp [push, pushAll], rfl,
        fun hdisjunctions => .disjunction ?_ hd ?_⟩
      · match hheads : headClause.headAtoms with
        | [] => exact absurd hheads hnotNil
        | [atom] => exact absurd hheads (hnotSingle atom)
        | _ :: _ :: _ => simp
      · apply getElem?_isPrefixOf hdisjunctions
        rw [getElem?_append_right le_rfl, Nat.sub_self]
        rfl
  refine ⟨⟨?_, prefix_rfl, prefix_append _ _, prefix_rfl, le_rfl, fun _ _ => rfl⟩, rfl, ?_, ?_⟩
  · exact ⟨_, (append_assoc _ _ _).symm⟩
  · simp [push, pushAll]
  · intro hinst
    refine ⟨worker, hder hinst.disjunctions, hinst.at
      [.callMatchStartedOnMonitor, worker, .callMatchFinishedOnMonitor] ⟨c.workers, rfl, ?_⟩ ?_⟩
    · simp [push, pushAll]
    · rw [mapM_eq_some_iff]
      exact .cons rfl (.cons hres (.cons rfl .nil))

theorem foldlM_compileHead_spec {headClauses : List DLClause}
    (h : headClauses.foldlM (fun c headClause => g.compileHead headClause c) c = some c') :
    c.Grows c' ∧ c'.labels = c.labels ∧ (Installed p labels c' →
      HeadsLayout g p headClauses c.workers.length c'.workers.length) := by
  induction headClauses generalizing c with
  | nil =>
    obtain rfl := some.inj h
    exact ⟨.refl _, rfl, fun _ => .nil⟩
  | cons headClause headClauses ih =>
    rw [foldlM_cons, bind_eq_bind, bind_eq_some_iff] at h
    obtain ⟨c₁, hc₁, h⟩ := h
    obtain ⟨hgrow, hlab, hlen, hat⟩ := compileHead_spec p labels hc₁
    obtain ⟨hgrow', hlab', hlay⟩ := ih h
    refine ⟨hgrow.trans hgrow', hlab'.trans hlab, fun hinst => ?_⟩
    obtain ⟨worker, hder, hat⟩ := hat (hinst.of_grows hgrow')
    exact .cons hder hat (hlen ▸ hlay hinst)

theorem compileHeads_spec (h : g.compileHeads c = some c') :
    c.Grows c' ∧ c'.labels = c.labels ∧ (Installed p labels c' →
      p.At c.workers.length g.coreWorkers ∧
        HeadsLayout g p g.headDlClauses (c.workers.length + g.coreWorkers.length)
        c'.workers.length) := by
  have hst : g.headDlClauses.foldlM (fun c headClause => g.compileHead headClause c)
    (c.pushAll g.coreWorkers) = some c' := by
    rw [← h, compileHeads, coreWorkers]
    by_cases hcore : g.policy = .complexCore ∧ g.complexCoreUsesWorker
    · rw [if_pos hcore, if_pos hcore]
      rfl
    · rw [if_neg hcore, if_neg hcore, pushAll, append_nil]
  obtain ⟨hgrow, hlab, hlay⟩ := foldlM_compileHead_spec p labels hst
  have hpush : c.Grows (c.pushAll g.coreWorkers) :=
    ⟨prefix_append _ _, prefix_rfl, prefix_rfl, prefix_rfl, le_rfl, fun _ _ => rfl⟩
  refine ⟨hpush.trans hgrow, hlab, fun hinst => ⟨?_, ?_⟩⟩
  · refine hinst.at g.coreWorkers ⟨c.workers, rfl, hgrow.workers⟩ ?_
    unfold coreWorkers
    split <;> rfl
  · have hheads := hlay hinst
    rwa [pushAll, length_append] at hheads

end ClauseGroup

/-! ## Bodies -/

namespace ClauseGroup

variable {g : ClauseGroup} {p : WorkerProgram} {labels : List (Option ℕ)} {c c' : Compiler}

/-- The compiler when it goes on to the atoms after one with an extension. -/
def enterLoop (g : ClauseGroup) (c : Compiler) (atom : Atom) (positions : List (Option ℕ)) :
    Compiler where
  boundSoFar := (g.generateBindings c.retrievals.length atom.arguments 0 c.boundSoFar).2
  workers := c.workers ++ (.openRetrieval c.retrievals.length ::
    .hasMoreRetrieval (-c.labels.length) c.retrievals.length ::
      g.loopBody c.boundSoFar c.retrievals.length (-(c.labels.length + 1 : ℕ)) atom)
  nodeVarLists := c.nodeVarLists
  disjunctions := c.disjunctions
  retrievals := c.retrievals ++ [⟨atom.arguments.length + 1, positions, .extensionThis⟩]
  labels := c.labels ++ [none, none]

/-- The compiler after the loop of an atom, which was entered from another one. -/
def leaveLoop (c inner : Compiler) : Compiler where
  boundSoFar := inner.boundSoFar
  workers := inner.workers ++ [.nextRetrieval c.retrievals.length,
    .jumpTo (c.workers.length + 1 : ℕ)]
  nodeVarLists := inner.nodeVarLists
  disjunctions := inner.disjunctions
  retrievals := inner.retrievals
  labels := (inner.labels.set (c.labels.length + 1) (some inner.workers.length)).set c.labels.length
    (some (inner.workers.length + 2))

variable {atoms : List Atom} {jump : ℤ}

theorem compileBodyAtom_extension {atom : Atom}
    (hext : isPredicateWithExtension atom.dlPredicate = true) :
    g.compileBodyAtom (atom :: atoms) jump c = (g.bindingPositions c.boundSoFar atom).bind
    fun positions =>
      (g.compileBodyAtom atoms (-(c.labels.length + 1 : ℕ)) (g.enterLoop c atom positions)).map
      (leaveLoop c) := by
  rw [compileBodyAtom]
  split
  · rename_i hp
    rw [hp] at hext
    cases hext
  · rename_i hp
    rw [hp] at hext
    cases hext
  · apply Option.bind_congr
    intro positions _
    simp [compileCheckUnboundVariableMatches, compileGenerateBindings, push, pushAll,
      setLabelProgramCounter, enterLoop, leaveLoop, loopBody, map_eq_bind]

theorem length_workers_enterLoop (atom : Atom) (positions : List (Option ℕ)) (target : ℤ) :
    (g.enterLoop c atom positions).workers.length =
      c.workers.length + 2 + (g.loopBody c.boundSoFar c.retrievals.length target atom).length := by
  rw [enterLoop, length_append, length_cons, length_cons, length_loopBody g _ _ _ target]
  omega

theorem length_retrievals_enterLoop (atom : Atom) (positions : List (Option ℕ)) :
    (g.enterLoop c atom positions).retrievals.length = c.retrievals.length + 1 := by
  rw [enterLoop, length_append]
  rfl

theorem compileBodyAtom_comparison {atom : Atom}
    (hcmp : isPredicateWithExtension atom.dlPredicate = false)
    (h : g.compileBodyAtom (atom :: atoms) jump c = some c') :
    ∃ worker slots added, atom.arguments.mapM g.slotOf = some slots ∧ g.compileBodyAtom atoms jump
      { c.push worker with nodeVarLists := c.nodeVarLists ++ added } = some c' ∧
      (atom.dlPredicate = .nodeIdLessEqualThan ∧ added = [] ∧ (∃ var1 var2, slots = [var1, var2] ∧
          worker = .branchIfNotNodeIdLessEqualThan jump var1 var2) ∨
        (∃ arity, atom.dlPredicate = .nodeIDsAscendingOrEqual arity) ∧ added = [slots] ∧
          worker = .branchIfNotNodeIdsAscendingOrEqual jump c.nodeVarLists.length) := by
  rw [compileBodyAtom] at h
  split at h
  · rename_i hp
    obtain ⟨var1, hvar1, h⟩ := bind_eq_some_iff.mp h
    obtain ⟨var2, hvar2, h⟩ := bind_eq_some_iff.mp h
    have hslots : atom.arguments.mapM g.slotOf = some [var1, var2] := by
      have hlen := atom.arity_eq
      rw [hp] at hlen
      match hargs : atom.arguments with
      | [] | [_] | _ :: _ :: _ :: _ =>
        rw [hargs] at hlen
        simp [DLPredicate.arity] at hlen
      | [term1, term2] =>
        rw [hargs] at hvar1 hvar2
        rw [mapM_eq_some_iff]
        exact .cons hvar1 (.cons hvar2 .nil)
    refine ⟨_, _, [], hslots, ?_, .inl ⟨hp, rfl, var1, var2, rfl, rfl⟩⟩
    rw [append_nil]
    exact h
  · rename_i arity hp
    obtain ⟨slots, hslots, h⟩ := bind_eq_some_iff.mp h
    exact ⟨_, slots, [slots], hslots, h, .inr ⟨⟨arity, hp⟩, rfl, rfl⟩⟩
  · rename_i hnotLess hasc
    exfalso
    unfold isPredicateWithExtension at hcmp
    split at hcmp
    · rename_i hp
      exact hnotLess hp
    · rename_i arity hp
      exact hasc arity hp
    · cases hcmp

/-- The loop of an atom only adds to what was there before it. -/
theorem grows_leaveLoop {atom : Atom} {positions : List (Option ℕ)} {inner : Compiler}
    (h : (g.enterLoop c atom positions).Grows inner) : c.Grows (leaveLoop c inner) := by
  have hin : c.Grows (g.enterLoop c atom positions) :=
    ⟨prefix_append _ _, prefix_rfl, prefix_rfl, prefix_append _ _, by simp [enterLoop],
      fun i hi => getElem?_append_left hi⟩
  have hgrow := hin.trans h
  refine ⟨hgrow.workers.trans (prefix_append _ _), hgrow.nodeVarLists, hgrow.disjunctions,
    hgrow.retrievals, ?_, fun i hi => ?_⟩
  · rw [leaveLoop, length_set, length_set]
    exact hgrow.labels_le
  · rw [leaveLoop, getElem?_set_ne (by omega), getElem?_set_ne (by omega)]
    exact hgrow.labels i hi

/-- What compiling the atoms from one on adds, and that they lie there in the end: their labels
have to be resolved as they were set, and the label around them to their end. -/
theorem compileBodyAtom_spec (p : WorkerProgram) (labels : List (Option ℕ))
    (h : g.compileBodyAtom atoms jump c = some c') (hlab : 0 < c.labels.length) :
    c.Grows c' ∧ (Installed p labels c' →
      (∀ i, c.labels.length ≤ i → i < c'.labels.length → labels[i]? = c'.labels[i]?) →
      resolveJump labels jump = some (c'.workers.length : ℤ) →
      Layout g p atoms c.boundSoFar c.retrievals.length c.workers.length c'.workers.length) := by
  induction atoms generalizing c c' jump with
  | nil =>
    obtain ⟨hgrow, -, hlay⟩ := compileHeads_spec p labels h
    refine ⟨hgrow, fun hinst _ _ => ?_⟩
    obtain ⟨hcore, hheads⟩ := hlay hinst
    exact .heads hcore hheads
  | cons atom atoms ih =>
    by_cases hext : isPredicateWithExtension atom.dlPredicate = true
    · rw [compileBodyAtom_extension hext] at h
      obtain ⟨positions, hposns, h⟩ := bind_eq_some_iff.mp h
      obtain ⟨inner, hinn, rfl⟩ := map_eq_some_iff.mp h
      have henter : (g.enterLoop c atom positions).labels.length = c.labels.length + 2 := by
        rw [enterLoop, length_append]
        rfl
      obtain ⟨hgrow, hlay⟩ := ih hinn (by omega)
      have hlen := hgrow.labels_le
      have hout : inner.workers <+: (leaveLoop c inner).workers := prefix_append _ _
      refine ⟨grows_leaveLoop hgrow, fun hinst hset _ => ?_⟩
      have hlast : (leaveLoop c inner).workers.length = inner.workers.length + 2 := by
        rw [leaveLoop, length_append]
        rfl
      -- The two labels of this atom are resolved to the next element and to the end of the loop.
      have hlen' : (leaveLoop c inner).labels.length = inner.labels.length := by
        rw [leaveLoop, length_set, length_set]
      have hnext : resolveJump labels (-(c.labels.length + 1 : ℕ)) =
          some (inner.workers.length : ℤ) := by
        refine resolveJump_label (by omega) ?_
        rw [hset _ (by omega) (by omega), leaveLoop, getElem?_set_ne (by omega),
          getElem?_set_self (by omega)]
      have hafter : resolveJump labels (-c.labels.length) =
          some ((inner.workers.length + 2 : ℕ) : ℤ) := by
        refine resolveJump_label hlab ?_
        rw [hset _ le_rfl (by omega), leaveLoop, getElem?_set_self (by rw [length_set]; omega)]
      have hinn' : Installed p labels inner :=
        ⟨fun i w hi => hinst.workers i w (getElem?_isPrefixOf hout hi), hinst.nodeVarLists,
          hinst.disjunctions, hinst.retrievals⟩
      rw [hlast]
      refine .extension hext hposns ?_ ?_ ?_ ?_
      · refine getElem?_isPrefixOf (hgrow.retrievals.trans hinn'.retrievals) ?_
        rw [enterLoop, getElem?_append_right le_rfl, Nat.sub_self]
        rfl
      · refine hinn'.at _ ⟨c.workers, rfl, hgrow.workers⟩ ?_
        have hfst : [Worker.openRetrieval c.retrievals.length,
            .hasMoreRetrieval (-c.labels.length) c.retrievals.length].mapM
              (Worker.resolve labels) =
              some [.openRetrieval c.retrievals.length,
                .hasMoreRetrieval (inner.workers.length + 2 : ℕ) c.retrievals.length] := by
          rw [mapM_eq_some_iff]
          refine .cons rfl (.cons ?_ .nil)
          rw [Worker.resolve, hafter]
          rfl
        exact mapM_append_eq_some hfst (mapM_resolve_loopBody hnext g _ _ _)
      · have hrest := hlay hinn' (fun i hi hi' => ?_) hnext
        · rwa [length_workers_enterLoop atom positions inner.workers.length,
            length_retrievals_enterLoop] at hrest
        · rw [hset i (by omega) (by omega), leaveLoop, getElem?_set_ne (by omega),
            getElem?_set_ne (by omega)]
      · refine hinst.at [.nextRetrieval c.retrievals.length, .jumpTo (c.workers.length + 1 : ℕ)]
          ⟨inner.workers, rfl, prefix_rfl⟩ ?_
        rw [mapM_eq_some_iff]
        refine .cons rfl (.cons ?_ .nil)
        rw [Worker.resolve, resolveJump_natCast]
        rfl
    · rw [Bool.not_eq_true] at hext
      obtain ⟨worker, slots, added, hslots, hrest, hwork⟩ := compileBodyAtom_comparison hext h
      obtain ⟨hgrow, hlay⟩ := ih hrest hlab
      have hpush : c.Grows { c.push worker with nodeVarLists := c.nodeVarLists ++ added } :=
        ⟨prefix_append _ _, prefix_append _ _, prefix_rfl, prefix_rfl, le_rfl, fun _ _ => rfl⟩
      refine ⟨hpush.trans hgrow, fun hinst hset hjump => ?_⟩
      have hafter := hlay hinst hset hjump
      have hlen :
        ({ c.push worker with nodeVarLists := c.nodeVarLists ++ added } : Compiler).workers.length =
          c.workers.length + 1 := by
        rw [push, length_append]
        rfl
      rw [hlen] at hafter
      have hin : c.workers ++ [worker] <+: c'.workers := hgrow.workers
      obtain ⟨worker', hres, hat⟩ := hinst.workers c.workers.length worker (by
        apply getElem?_isPrefixOf hin
        rw [getElem?_append_right le_rfl, Nat.sub_self]
        rfl)
      rcases hwork with ⟨hp, -, var1, var2, rfl, rfl⟩ | ⟨⟨arity, hp⟩, rfl, rfl⟩
      · rw [Worker.resolve, hjump] at hres
        obtain rfl := some.inj hres
        exact .lessEqual hp hslots hat hafter
      · rw [Worker.resolve, hjump] at hres
        obtain rfl := some.inj hres
        refine .ascending hp hslots ?_ hat hafter
        refine getElem?_isPrefixOf (hgrow.nodeVarLists.trans hinst.nodeVarLists) ?_
        rw [getElem?_append_right le_rfl, Nat.sub_self]
        rfl

/-- The workers for the delta atom come first; where it fails, the program ends. -/
theorem generateCode_spec (h : g.generateCode = some p) :
    ∃ firstAtom atoms, g.bodyDlClause.bodyAtoms = firstAtom :: atoms ∧
      p.At 0 (g.loopBody [] 0 p.workers.length firstAtom) ∧
      Layout g p atoms (g.generateBindings 0 firstAtom.arguments 0 []).2 1
        (g.loopBody [] 0 p.workers.length firstAtom).length p.workers.length := by
  unfold generateCode at h
  obtain ⟨firstAtom, hfst, h⟩ := bind_eq_some_iff.mp h
  obtain ⟨c', hbody, h⟩ := bind_eq_some_iff.mp h
  obtain ⟨workers, hworkers, h⟩ := bind_eq_some_iff.mp h
  obtain rfl := some.inj h
  obtain ⟨atoms, hatoms⟩ : ∃ atoms, g.bodyDlClause.bodyAtoms = firstAtom :: atoms :=
    ⟨_, (eq_cons_of_mem_head? hfst)⟩
  rw [hatoms, tail_cons] at hbody
  let c : Compiler :=
      ⟨(g.generateBindings 0 firstAtom.arguments 0 []).2, g.loopBody [] 0 (-1) firstAtom, [], [],
    [⟨firstAtom.dlPredicate.arity + 1, List.replicate (firstAtom.dlPredicate.arity + 1) none,
      .deltaOld⟩], [none, none]⟩
  have hbody' : g.compileBodyAtom atoms (-1) c = some c' := hbody
  set labels := (c'.setLabelProgramCounter (-1)).labels with hlab
  set p : WorkerProgram := ⟨workers, c'.nodeVarLists, c'.disjunctions, c'.retrievals⟩ with hp
  obtain ⟨hgrow, hlay⟩ := compileBodyAtom_spec p labels hbody' Nat.zero_lt_two
  have hpw := mapM_eq_some_iff.mp hworkers
  have hlen : p.workers.length = c'.workers.length := hpw.length_eq.symm
  have hinst : Installed p labels c' := by
    refine ⟨fun i w hi => ?_, prefix_rfl, prefix_rfl, prefix_rfl⟩
    obtain ⟨hlt, rfl⟩ := List.getElem?_eq_some_iff.mp hi
    have hlt' : i < workers.length := hlen ▸ hlt
    exact ⟨workers[i], hpw.get hlt hlt', getElem?_eq_getElem hlt'⟩
  have hjump : resolveJump labels (-1) = some (c'.workers.length : ℤ) := by
    have htwo : 2 ≤ c'.labels.length := hgrow.labels_le
    refine resolveJump_label (i := 1) Nat.one_pos ?_
    exact getElem?_set_self (by omega)
  refine ⟨firstAtom, atoms, hatoms, ?_, ?_⟩
  · refine hinst.at (g.loopBody [] 0 (-1) firstAtom) ⟨[], rfl, hgrow.workers⟩ ?_
    rw [hlen]
    exact mapM_resolve_loopBody hjump g _ _ _
  · have hafter := hlay hinst (fun i hi _ => ?_) hjump
    · rw [length_loopBody g _ _ _ (-1), hlen]
      exact hafter
    · have htwo : 2 ≤ i := hi
      exact getElem?_set_ne (by simp; omega)

end ClauseGroup

end Hermit
