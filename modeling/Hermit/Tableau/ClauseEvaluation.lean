import Hermit.Tableau.ClauseOrder

/-! # Evaluation derives the heads of all matches

The programs of all clause groups share one buffer.  Whatever the earlier runs left in it and in the
registers, evaluating a program over a delta tuple records, for every match of the body whose delta
atom matches the tuple and for every clause of the group, one derivation.
-/

namespace Hermit

open List hiding lt_irrefl not_lt
open Option

open ValuesBufferManager

/-! ## The number of retrievals -/

namespace ClauseGroup

variable {g : ClauseGroup} {c c' : Compiler}

theorem retrievals_compileHeads (h : g.compileHeads c = some c') :
    c'.retrievals = c.retrievals := by
  have hhead : ∀ headClause c c', g.compileHead headClause c = some c' →
      c'.retrievals = c.retrievals := by
    intro headClause c c' h
    obtain ⟨c₁, hc₁, rfl⟩ := map_eq_some_iff.mp h
    unfold deriveHead at hc₁
    split at hc₁
    · obtain rfl := some.inj hc₁
      rfl
    · obtain ⟨worker, -, rfl⟩ := map_eq_some_iff.mp hc₁
      rfl
    · obtain ⟨worker, -, rfl⟩ := map_eq_some_iff.mp hc₁
      rfl
  have hfold : ∀ (headClauses : List DLClause) (c : Compiler),
    headClauses.foldlM (fun c headClause => g.compileHead headClause c) c = some c' →
      c'.retrievals = c.retrievals := by
    intro headClauses
    induction headClauses with
    | nil =>
      intro c h
      obtain rfl := some.inj h
      rfl
    | cons headClause headClauses ih =>
      intro c h
      rw [foldlM_cons, bind_eq_bind, bind_eq_some_iff] at h
      obtain ⟨c₁, hc₁, h⟩ := h
      rw [ih c₁ h, hhead headClause c c₁ hc₁]
  unfold compileHeads at h
  rw [hfold _ _ h]
  split <;> rfl

theorem length_retrievals_compileBodyAtom {atoms : List Atom} {jump : ℤ}
    (h : g.compileBodyAtom atoms jump c = some c') :
    c'.retrievals.length = c.retrievals.length +
      (atoms.filter fun atom => isPredicateWithExtension atom.dlPredicate).length := by
  induction atoms generalizing c c' jump with
  | nil =>
    rw [retrievals_compileHeads h]
    rfl
  | cons atom atoms ih =>
    cases hext : isPredicateWithExtension atom.dlPredicate with
    | true =>
      rw [compileBodyAtom_extension hext] at h
      obtain ⟨positions, -, h⟩ := bind_eq_some_iff.mp h
      obtain ⟨inner, hinn, rfl⟩ := map_eq_some_iff.mp h
      rw [filter_cons, if_pos hext, length_cons, leaveLoop, ih hinn, length_retrievals_enterLoop]
      omega
    | false =>
      obtain ⟨worker, slots, added, -, hrest, -⟩ := compileBodyAtom_comparison hext h
      rw [filter_cons, hext, if_neg Bool.false_ne_true, ih hrest]
      rfl

theorem length_retrievals_generateCode {p : WorkerProgram} (h : g.generateCode = some p)
    {atom : Atom} {atoms : List Atom} (hatoms : g.bodyDlClause.bodyAtoms = atom :: atoms) :
    p.retrievals.length = 1 + (atoms.filter fun atom =>
      isPredicateWithExtension atom.dlPredicate).length := by
  unfold generateCode at h
  obtain ⟨firstAtom, -, h⟩ := bind_eq_some_iff.mp h
  obtain ⟨c', hbody, h⟩ := bind_eq_some_iff.mp h
  obtain ⟨workers, -, h⟩ := bind_eq_some_iff.mp h
  obtain rfl := some.inj h
  rw [hatoms, tail_cons] at hbody
  exact length_retrievals_compileBodyAtom hbody

end ClauseGroup

variable {v : Variable}

/-- Found are the variables of an atom that occur again later. -/
theorem mem_repeatedVariables {atoms : List Atom} {found : List Variable} :
    v ∈ repeatedVariables atoms found ↔ v ∈ found ∨ ∃ front atom rest,
    atoms = front ++ atom :: rest ∧ v ∈ atom.variables ∧ occursInBodyAtoms rest v = true := by
  induction atoms generalizing found with
  | nil => simp [repeatedVariables]
  | cons atom atoms ih =>
    have hfold : ∀ (names found : List Variable), v ∈ names.foldl
        (fun found w => if occursInBodyAtoms atoms w then insertSet found w else found) found ↔
          v ∈ found ∨ v ∈ names ∧ occursInBodyAtoms atoms v = true := by
      intro names
      induction names with
      | nil => simp
      | cons w names ihNames =>
        intro found
        rw [foldl_cons, ihNames, mem_cons]
        by_cases hw : occursInBodyAtoms atoms w = true
        · rw [if_pos hw, mem_insertSet]
          constructor
          · rintro ((h | rfl) | h)
            · exact .inl h
            · exact .inr ⟨.inl rfl, hw⟩
            · exact .inr ⟨.inr h.1, h.2⟩
          · rintro (h | ⟨rfl | h, hv⟩)
            · exact .inl (.inl h)
            · exact .inl (.inr rfl)
            · exact .inr ⟨h, hv⟩
        · rw [if_neg hw]
          constructor
          · rintro (h | h)
            · exact .inl h
            · exact .inr ⟨.inr h.1, h.2⟩
          · rintro (h | ⟨rfl | h, hv⟩)
            · exact .inl h
            · exact absurd hv hw
            · exact .inr ⟨h, hv⟩
    rw [repeatedVariables, ih, hfold]
    constructor
    · rintro ((h | ⟨hv, hlater⟩) | ⟨front, atom', rest, rfl, hv, hlater⟩)
      · exact .inl h
      · exact .inr ⟨[], atom, atoms, rfl, hv, hlater⟩
      · exact .inr ⟨atom :: front, atom', rest, rfl, hv, hlater⟩
    · rintro (h | ⟨front, atom', rest, heq, hv, hlater⟩)
      · exact .inl (.inl h)
      · cases front with
        | nil =>
          obtain ⟨rfl, rfl⟩ := List.cons.inj heq
          exact .inl (.inr ⟨hv, hlater⟩)
        | cons first front =>
          obtain ⟨rfl, rfl⟩ := List.cons.inj heq
          exact .inr ⟨front, atom', rest, rfl, hv, hlater⟩

theorem ClauseGroup.mem_storedVariables {g : ClauseGroup} :
    v ∈ g.storedVariables ↔ v ∈ headVariables g.headDlClauses ∨ ∃ front atom rest,
      g.bodyDlClause.bodyAtoms = front ++ atom :: rest ∧ v ∈ atom.variables ∧
      occursInBodyAtoms rest v = true := by
  rw [storedVariables, mem_foldl_insertSet, mem_repeatedVariables,
    or_iff_right not_mem_nil, or_comm]

theorem ClauseGroup.nodup_storedVariables (g : ClauseGroup) : g.storedVariables.Nodup := by
  have hrepeated : ∀ (atoms : List Atom) (found : List Variable), found.Nodup →
      (repeatedVariables atoms found).Nodup := by
    intro atoms
    induction atoms with
    | nil => exact fun _ h => h
    | cons atom atoms ih =>
      intro found h
      apply ih
      generalize atom.variables = names
      induction names generalizing found with
      | nil => exact h
      | cons w names ihNames =>
        apply ihNames
        dsimp only
        split
        · exact nodup_foldl_insertSet [w] found h
        · exact h
  exact nodup_foldl_insertSet _ _ (hrepeated _ _ nodup_nil)

/-- The variables of a body that is placed well have slots when they are needed. -/
theorem Placed.bodyFits {g : ClauseGroup} {front atoms : List Atom} {seen : List Variable}
    (h : Placed {v | v ∈ seen} atoms) (hbody : g.bodyDlClause.bodyAtoms = front ++ atoms)
    (htabs : ∀ atom ∈ atoms, isPredicateWithExtension atom.dlPredicate = true →
      ∃ kind, Tableau.tableKind (atom.arguments.length + 1) = some kind)
    (hcomparisons : ∀ atom ∈ atoms, isPredicateWithExtension atom.dlPredicate = false →
      atom.arguments ≠ [])
    (hheads : ∀ v ∈ headVariables g.headDlClauses, v ∈ seen ∨ ∃ atom ∈ atoms, v ∈ atom.variables) :
    BodyFits g seen atoms := by
  induction atoms generalizing front seen with
  | nil =>
    refine .nil fun v hv => (hheads v hv).resolve_right ?_
    rintro ⟨atom, hatom, -⟩
    cases hatom
  | cons atom atoms ih =>
    cases h with
    | cons hbd hrest =>
      have hbody' : g.bodyDlClause.bodyAtoms = (front ++ [atom]) ++ atoms := by
        rw [hbody, append_assoc]
        rfl
      cases hext : isPredicateWithExtension atom.dlPredicate with
      | true =>
        have hset : ({v | v ∈ seen} ∪ {v | v ∈ atom.variables} : Set Variable) =
            {v | v ∈ seen ++ atom.variables} := by
          ext v
          exact mem_append.symm
        rw [hset] at hrest
        refine .extension hext (htabs atom mem_cons_self hext) (fun v hv hlater => ?_)
          (ih hrest hbody' (fun a ha => htabs a (mem_cons_of_mem _ ha))
            (fun a ha => hcomparisons a (mem_cons_of_mem _ ha)) fun v hv => ?_)
        · rw [ClauseGroup.mem_storedVariables]
          exact hlater.symm.imp_right fun hlater => ⟨front, atom, atoms, hbody, hv, hlater⟩
        · rcases hheads v hv with hseen | ⟨a, ha, hva⟩
          · exact .inl (mem_append_left _ hseen)
          · rcases mem_cons.mp ha with rfl | ha
            · exact .inl (mem_append_right _ hva)
            · exact .inr ⟨a, ha, hva⟩
      | false =>
        have hset : ({v | v ∈ seen} ∪ {v | v ∈ atom.variables} : Set Variable) = {v | v ∈ seen} :=
          Set.union_eq_left.mpr (hbd hext)
        rw [hset] at hrest
        refine .comparison hext (hcomparisons atom mem_cons_self hext) (hbd hext)
          (ih hrest hbody' (fun a ha => htabs a (mem_cons_of_mem _ ha))
            (fun a ha => hcomparisons a (mem_cons_of_mem _ ha)) fun v hv => ?_)
        rcases hheads v hv with hseen | ⟨a, ha, hva⟩
        · exact .inl hseen
        · rcases mem_cons.mp ha with rfl | ha
          · exact .inl (hbd hext v hva)
          · exact .inr ⟨a, ha, hva⟩

/-! ## The shared buffer -/

theorem lookup_zipIdx {α : Type*} [DecidableEq α] {l : List α} {n i : ℕ} {a : α}
    (h : (l.zipIdx n).lookup a = some i) : ∃ k, l[k]? = some a ∧ i = n + k := by
  induction l generalizing n with
  | nil => cases h
  | cons b l ih =>
    rw [zipIdx_cons, lookup_cons] at h
    by_cases hab : a = b
    · rw [beq_iff_eq.mpr hab] at h
      exact ⟨0, congrArg some hab.symm, (some.inj h).symm⟩
    · rw [beq_eq_false_iff_ne.mpr hab] at h
      obtain ⟨k, hk, rfl⟩ := ih h
      exact ⟨k + 1, hk, by omega⟩

namespace ValuesBufferManager

variable {rawKey : DLPredicate → Fin (2 ^ 61)} {dlClauses : List DLClause}
    {termsToNodes : Term → Option NodeId}
  {manager : ValuesBufferManager}

/-- A buffer after any runs: only slots of variables have changed. -/
structure Shared (manager : ValuesBufferManager) (values : List (Option TableauObject)) : Prop where
  length_eq : values.length = manager.valuesBuffer.length
  ground : ∀ i : ℕ, manager.maxNumberOfVariables ≤ i → values[i]? = manager.valuesBuffer[i]?

theorem mapM_nodes {terms : List Term} {nodes : List NodeId}
    (h : terms.mapM (nodeFor termsToNodes) = .ok nodes) :
    List.Forall₂ (fun term node => termsToNodes term = some node) terms nodes := by
  induction terms generalizing nodes with
  | nil =>
    cases h
    exact .nil
  | cons term terms ih =>
    rw [mapM_cons] at h
    cases hnode : termsToNodes term with
    | none =>
      rw [nodeFor, hnode] at h
      cases h
    | some node =>
      rw [nodeFor, hnode] at h
      cases hrest : terms.mapM (nodeFor termsToNodes) with
      | error e =>
        rw [hrest] at h
        cases h
      | ok rest =>
        rw [hrest] at h
        cases h
        exact .cons hnode (ih hrest)

/-- The slots of the predicates and terms lie above those of the variables and hold their values. -/
theorem new_spec (h : new rawKey dlClauses termsToNodes = .ok manager) :
    manager.maxNumberOfVariables = numberOfVariables dlClauses ∧
      manager.maxNumberOfVariables ≤ manager.valuesBuffer.length ∧
      (∀ (predicate : DLPredicate) (i : ℕ),
        manager.bodyDlPredicatesToIndexes.lookup predicate = some i →
        manager.maxNumberOfVariables ≤ i ∧
          manager.valuesBuffer[i]? = some (some (predicateToStoredLabel rawKey predicate))) ∧
      (∀ (term : Term) (i : ℕ), manager.bodyNonvariableTermsToIndexes.lookup term = some i →
        manager.maxNumberOfVariables ≤ i ∧ ∃ node, termsToNodes term = some node ∧
          manager.valuesBuffer[i]? = some (some (.node node))) := by
  unfold new at h
  cases hnodes : (bodyNonvariableTerms dlClauses).mapM (nodeFor termsToNodes) with
  | error e =>
    dsimp only at h
    rw [hnodes] at h
    cases h
  | ok nodes =>
    dsimp only at h
    rw [hnodes] at h
    cases h
    have hpw := mapM_nodes hnodes
    refine ⟨rfl, ?_, fun predicate i hi => ?_, fun term i hi => ?_⟩
    · simp only [length_append, length_replicate]
      omega
    · obtain ⟨k, hk, rfl⟩ := lookup_zipIdx hi
      have hlt := (List.getElem?_eq_some_iff.mp hk).1
      refine ⟨Nat.le_add_right _ _, ?_⟩
      rw [append_assoc, getElem?_append_right (by simp), length_replicate, Nat.add_sub_cancel_left,
        getElem?_append_left (by simpa using hlt), getElem?_map, hk]
      rfl
    · obtain ⟨k, hk, rfl⟩ := lookup_zipIdx hi
      obtain ⟨hlt, rfl⟩ := List.getElem?_eq_some_iff.mp hk
      have hlt' : k < nodes.length := by rw [← hpw.length_eq]; exact hlt
      refine ⟨by dsimp only; omega, nodes[k], hpw.get hlt hlt', ?_⟩
      rw [getElem?_append_right (by simp), getElem?_map]
      simp [hlt']

variable {dlClause : DLClause}

/-- Without nodes for terms, a buffer exists only for bodies of variables. -/
theorem variables_of_new (h : new rawKey dlClauses (fun _ => none) = .ok manager)
    (hcla : dlClause ∈ dlClauses) {atom : Atom} (hatom : atom ∈ dlClause.bodyAtoms) {term : Term}
    (hterm : term ∈ atom.arguments) : ∃ v, term = .variable v := by
  unfold new at h
  have hnone : bodyNonvariableTerms dlClauses = [] := by
    cases hterms : bodyNonvariableTerms dlClauses with
    | nil => rfl
    | cons first terms =>
      dsimp only at h
      rw [hterms, mapM_cons] at h
      cases h
  rcases term with v | individual | constant
  · exact ⟨v, rfl⟩
  all_goals
    exfalso
    have hmem :=
      (mem_foldl_insertSet (((dlClauses.flatMap DLClause.bodyAtoms).flatMap Atom.arguments).filter
      fun t => t.asVariable.isNone) [] _).mpr (.inr (mem_filter.mpr
        ⟨mem_flatMap.mpr ⟨atom, mem_flatMap.mpr ⟨dlClause, hcla, hatom⟩, hterm⟩, rfl⟩))
    rw [bodyNonvariableTerms] at hnone
    rw [hnone] at hmem
    cases hmem

theorem length_bodyVariables_le (hcla : dlClause ∈ dlClauses) :
    (bodyVariables dlClause).length ≤ numberOfVariables dlClauses := by
  have hfold : ∀ (lengths : List ℕ) (start : ℕ), start ≤ lengths.foldl max start ∧
      ∀ n ∈ lengths, n ≤ lengths.foldl max start := by
    intro lengths
    induction lengths with
    | nil => exact fun start => ⟨le_rfl, nofun⟩
    | cons first lengths ih =>
      intro start
      obtain ⟨hstart, hall⟩ := ih (max start first)
      refine ⟨(le_max_left _ _).trans hstart, fun n hn => ?_⟩
      rcases mem_cons.mp hn with rfl | hn
      · exact (le_max_right _ _).trans hstart
      · exact hall n hn
  exact (hfold _ 0).2 _ (List.mem_map.mpr ⟨dlClause, hcla, rfl⟩)

end ValuesBufferManager

/-- The precondition of the evaluator: head variables occur in the body, body predicates with an
extension are unary or binary, and comparisons compare something. -/
structure DLClause.Evaluable (c : DLClause) : Prop where
  safe : ∀ atom ∈ c.headAtoms, ∀ v ∈ atom.variables, ∃ bodyAtom ∈ c.bodyAtoms,
    v ∈ bodyAtom.variables
  tables : ∀ atom ∈ c.bodyAtoms, isPredicateWithExtension atom.dlPredicate = true →
    ∃ kind, Tableau.tableKind (atom.arguments.length + 1) = some kind
  comparisons : ∀ atom ∈ c.bodyAtoms, isPredicateWithExtension atom.dlPredicate = false →
    atom.arguments ≠ []

/-- Registers after any runs. -/
structure DLClauseEvaluator.HasRegisters (e : DLClauseEvaluator)
    (registers : Registers) : Prop where
  cursors : registers.cursors.length = e.registers.cursors.length
  coreVariables : registers.coreVariables.length = e.registers.coreVariables.length
  unionConstituents : registers.unionConstituents.length = e.registers.unionConstituents.length

section run

variable {g : ClauseGroup} {p : WorkerProgram} {tableau : Tableau}
    {rawKey : DLPredicate → Fin (2 ^ 61)}
  {termsToNodes : Term → Option NodeId} {delta : Atom} {atoms : List Atom} {m : Machine}
  {nodes : List NodeId}

/-- The run from the start to the end of a program. -/
theorem reaches_end (hclash : tableau.containsClash = false)
    (htabs : ∀ kind, ∃ n, ExtensionTable.Reachable kind n (tableau.table kind))
    (deltaDependencySet : PermanentDependencySet) (hcode : g.generateCode = some p)
    (hbody : g.bodyDlClause.bodyAtoms = delta :: atoms)
    (hvars : ∀ term ∈ delta.arguments, ∃ v, term = .variable v)
    (hfits : BodyFits g delta.variables atoms)
    (hst : ∀ v ∈ delta.variables, occursInBodyAtoms atoms v = true ∨
      v ∈ headVariables g.headDlClauses → v ∈ g.storedVariables)
    (hpc : m.programCounter = 0) (hders : m.derivations = [])
    (hgr : Ground g rawKey termsToNodes m.values)
    (hcurs : m.registers.cursors.length = p.retrievals.length)
    (hcs : m.registers.unionConstituents.length = p.retrievals.length)
    (hcore : m.registers.coreVariables.length = g.storedVariables.length)
    (hnodes : nodes.length = delta.arguments.length) :
    ∃ m' found, Reaches p tableau
    (predicateToStoredLabel rawKey delta.dlPredicate :: nodes.map .node)
        deltaDependencySet m m' ∧ m'.programCounter = p.workers.length ∧ Frame g [] 0 m m' ∧
      (found.map Prod.fst).Nodup ∧ (∀ q ∈ found, delta.Fits rawKey termsToNodes q.2
        (predicateToStoredLabel rawKey delta.dlPredicate :: nodes.map .node) ∧
        IsMatch rawKey termsToNodes tableau q.2 atoms q.1) ∧
      (∀ tuples σ, delta.Fits rawKey termsToNodes σ
        (predicateToStoredLabel rawKey delta.dlPredicate :: nodes.map .node) →
        IsMatch rawKey termsToNodes tableau σ atoms tuples → tuples ∈ found.map Prod.fst) ∧
      Recorded g tableau termsToNodes [deltaDependencySet] atoms found m'.derivations := by
  set objects := predicateToStoredLabel rawKey delta.dlPredicate :: nodes.map TableauObject.node
    with hobjs
  have hlen : objects.length = delta.arguments.length + 1 :=
    by rw [hobjs, length_cons, length_map, hnodes]
  obtain ⟨firstAtom, rest, hfst, hat, hlay⟩ := ClauseGroup.generateCode_spec hcode
  obtain ⟨rfl, rfl⟩ := List.cons.inj (hbody.symm.trans hfst)
  have hcount := ClauseGroup.length_retrievals_generateCode hcode hbody
  let σ : Variable → NodeId := fun _ => 0
  have hready : Ready g p rawKey termsToNodes [] σ [] m := ⟨hgr, nofun, rfl, hcs, hcurs, hcore⟩
  have hnone : delta.FitsSeen rawKey termsToNodes [] σ objects := by
    refine ⟨hlen, rfl, fun k term hk hseen => ?_⟩
    obtain ⟨v, rfl⟩ := hvars term (mem_of_getElem? hk)
    cases hseen v rfl
  have hnode : ∀ k, k + 1 < objects.length → ∃ node, objects[k + 1]? = some (.node node) := by
    intro k hk
    rw [hlen] at hk
    have hkn : k < nodes.length := by omega
    refine ⟨nodes[k], ?_⟩
    rw [hobjs, getElem?_cons_succ, getElem?_map, getElem?_eq_getElem (by omega)]
    rfl
  have hstart : p.At m.programCounter (g.loopBody [] 0 p.workers.length delta) := by
    rw [hpc]
    exact hat
  rcases reaches_loopBody (σ := σ) hclash hstart hready (fun column => rfl) (fun _ _ => rfl) hlen
    (by dsimp only [length_nil]; omega) with ⟨hdisagree, hrun⟩ | ⟨hagr, hbind⟩
  · refine ⟨_, [], hrun, Int.toNat_natCast _, .of_eq rfl rfl, nodup_nil, nofun,
      fun tuples σ' hfits' _ => ?_, ?_⟩
    · exact absurd hfits'.columnsAgree hdisagree
    · change Recorded g tableau termsToNodes [deltaDependencySet] atoms [] m.derivations
      rw [hders]
      exact .nil
  · obtain ⟨σ', -, hfits'⟩ := hnone.exists_fits hnode hagr
    obtain ⟨m₁, hrun₁, hpc₁, hders₁, -, hframe₁, hready₁⟩ := hbind σ' nofun hfits'
    have hneed : Needed g (g.generateBindings 0 delta.arguments 0 []).2 delta.variables atoms :=
        by
      refine ⟨fun v hv => ?_, fun v hv hlast => ?_⟩
      · exact mem_variables_iff.mpr ((mem_generateBindings.mp hv).resolve_left not_mem_nil).1
      · exact mem_generateBindings.mpr (.inr ⟨mem_variables_iff.mp hv, hst v hv hlast⟩)
    obtain ⟨m₂, found, new, hrun₂, hpc₂, hframe₂, hders₂, henum, hrec⟩ :=
      hlay.simulates hclash htabs m₁ σ' delta.variables [deltaDependencySet]
        (by rw [hpc₁, hpc, Nat.zero_add]; rfl) rfl
        Nat.one_pos hready₁ hfits hneed hcount.symm
    refine ⟨m₂, found, Steps.trans hrun₁ hrun₂, hpc₂,
        hframe₁.trans (hframe₂.mono (nil_subset _) (Nat.zero_le _)),
      henum.nodup, fun q hq => ?_, fun tuples σ'' hfits'' hmatch => ?_, ?_⟩
    · obtain ⟨heq, hmatch⟩ := henum.sound q hq
      exact ⟨(Atom.fits_congr heq).mp hfits', hmatch⟩
    · exact henum.complete tuples σ'' (hfits'.eqOn hfits'') hmatch
    · rw [hders₂, hders₁, hders, nil_append]
      exact hrec

end run

/-! ## All matches -/

namespace ClauseGroup

variable {g : ClauseGroup} {rawKey : DLPredicate → Fin (2 ^ 61)} {dlClauses : List DLClause}

theorem length_storedVariables_le {dlClause : DLClause} (hmem : dlClause ∈ dlClauses)
    (hbody : ∀ atom, atom ∈ g.bodyDlClause.bodyAtoms ↔ atom ∈ dlClause.bodyAtoms)
    (hheads : ∀ v ∈ headVariables g.headDlClauses, ∃ atom ∈ g.bodyDlClause.bodyAtoms,
      v ∈ atom.variables) :
    g.storedVariables.length ≤ numberOfVariables dlClauses := by
  have hsub : g.storedVariables ⊆ bodyVariables dlClause := by
    intro v hv
    have hoccurs : ∃ atom ∈ g.bodyDlClause.bodyAtoms, v ∈ atom.variables := by
      rcases mem_storedVariables.mp hv with hv | ⟨front, atom, rest, hspl, hv, -⟩
      · exact hheads v hv
      · refine ⟨atom, ?_, hv⟩
        rw [hspl]
        exact mem_append_right _ mem_cons_self
    obtain ⟨atom, hatom, hv⟩ := hoccurs
    apply (mem_foldl_insertSet _ _ _).mpr
    exact .inr (mem_flatMap.mpr ⟨atom, (hbody atom).mp hatom, hv⟩)
  calc g.storedVariables.length
      ≤ (bodyVariables dlClause).length :=
        (subperm_of_subset g.nodup_storedVariables hsub).length_le
    _ ≤ _ := length_bodyVariables_le hmem

/-- A buffer after any runs has the labels of the predicates. -/
theorem ground_of_shared {termsToNodes : Term → Option NodeId}
    (hman : new rawKey dlClauses termsToNodes = .ok g.manager)
    {values : List (Option TableauObject)} (hshare : g.manager.Shared values)
    (hwidth : g.storedVariables.length ≤ numberOfVariables dlClauses) :
    Ground g rawKey termsToNodes values := by
  obtain ⟨hnum, hlen, hpreds, hterms⟩ := new_spec hman
  rw [← hnum] at hwidth
  refine ⟨?_, fun predicate i hi => ?_, fun term i hi => ?_⟩
  · rw [hshare.length_eq]
    exact hwidth.trans hlen
  · obtain ⟨hle, hval⟩ := hpreds predicate i hi
    exact ⟨hwidth.trans hle, (hshare.ground i hle).trans hval⟩
  · obtain ⟨hle, node, hnode, hval⟩ := hterms term i hi
    exact ⟨hwidth.trans hle, node, hnode, (hshare.ground i hle).trans hval⟩

theorem length_initialCoreVariables : g.initialCoreVariables.length = g.storedVariables.length := by
  unfold initialCoreVariables
  split <;> exact length_replicate

end ClauseGroup

theorem mem_headVariables {headDlClauses : List DLClause} :
    v ∈ headVariables headDlClauses ↔ ∃ c ∈ headDlClauses, ∃ atom ∈ c.headAtoms,
    v ∈ atom.variables := by
  simp only [headVariables, mem_foldl_insertSet, not_mem_nil, false_or, mem_flatMap]
  constructor
  · rintro ⟨atom, ⟨c, hc, hatom⟩, hv⟩
    exact ⟨c, hc, atom, hatom, hv⟩
  · rintro ⟨c, hc, atom, hatom, hv⟩
    exact ⟨atom, ⟨c, hc, hatom⟩, hv⟩

/-- What a run needs of a group with its body in an order: the delta atom has variables only, every
variable is bound before it is used, and the buffer is large enough. -/
structure Prepared (g : ClauseGroup) (rawKey : DLPredicate → Fin (2 ^ 61)) (delta : Atom)
    (atoms : List Atom) :
    Prop where
  body : g.bodyDlClause.bodyAtoms = delta :: atoms
  safe : ∀ v ∈ headVariables g.headDlClauses, ∃ atom ∈ g.bodyDlClause.bodyAtoms, v ∈ atom.variables
  deltaVariables : ∀ term ∈ delta.arguments, ∃ v, term = .variable v
  fits : BodyFits g delta.variables atoms
  stored : ∀ v ∈ delta.variables, occursInBodyAtoms atoms v = true ∨
    v ∈ headVariables g.headDlClauses →
    v ∈ g.storedVariables
  ground : ∀ values, g.manager.Shared values → Ground g rawKey (fun _ => none) values
  outside : ∀ i v, g.indexOf v = some i → i < g.manager.maxNumberOfVariables

theorem prepared_of_group {rawKey : DLPredicate → Fin (2 ^ 61)} {dlClauses : List DLClause}
    {manager : ValuesBufferManager} (hman : new rawKey dlClauses (fun _ => none) = .ok manager)
    (heval : ∀ c ∈ dlClauses, c.Evaluable) {representative : DLClause}
    {members : List DLClause}
    (hgroup : (representative, members) ∈ groupByBody dlClauses) {index : ℕ}
    {bodyDlClause : DLClause}
    (hswap : swapBodyToFront representative index = some bodyDlClause) (policy : CoreVariablePolicy)
    {delta : Atom} {atoms : List Atom} (hbody : bodyDlClause.bodyAtoms = delta :: atoms) :
    Prepared ⟨bodyDlClause, members, policy, manager⟩ rawKey delta atoms := by
  set g : ClauseGroup := ⟨bodyDlClause, members, policy, manager⟩ with hg
  obtain ⟨hhead, hmems⟩ := isGroup_of_mem_groupByBody _ hgroup
  have hrep := (hmems representative (mem_of_head? hhead)).1
  obtain ⟨delta', rest, -, -, hbody', hperm, hplace⟩ := swapBodyToFront_spec hswap
  obtain ⟨rfl, rfl⟩ := List.cons.inj (hbody.symm.trans hbody')
  have hmem : ∀ atom, atom ∈ bodyDlClause.bodyAtoms ↔ atom ∈ representative.bodyAtoms :=
    fun _ => hperm.mem_iff
  have hcla := heval representative hrep
  have hheads : ∀ v ∈ headVariables members, ∃ atom ∈ bodyDlClause.bodyAtoms,
      v ∈ atom.variables := by
    intro v hv
    obtain ⟨c, hc, atom, hatom, hv⟩ := mem_headVariables.mp hv
    obtain ⟨hcMem, hcBody⟩ := hmems c hc
    obtain ⟨bodyAtom, hbodyAtom, hv⟩ := (heval c hcMem).safe atom hatom v hv
    rw [hcBody] at hbodyAtom
    exact ⟨bodyAtom, (hmem bodyAtom).mpr hbodyAtom, hv⟩
  have hinBody : ∀ atom ∈ atoms, atom ∈ representative.bodyAtoms := by
    intro atom hatom
    rw [← hmem, hbody]
    exact mem_cons_of_mem _ hatom
  have hwidth := g.length_storedVariables_le hrep hmem hheads
  refine ⟨hbody, hheads, fun term hterm => ?_, ?_, fun v hv hlater => ?_, fun values hvals => ?_,
    fun i v hv => ?_⟩
  · refine variables_of_new hman hrep ((hmem delta).mp ?_) hterm
    rw [hbody]
    exact mem_cons_self
  · have hspl : g.bodyDlClause.bodyAtoms = [delta] ++ atoms := hbody
    refine hplace.bodyFits hspl (fun atom hatom => hcla.tables atom (hinBody atom hatom))
      (fun atom hatom => hcla.comparisons atom (hinBody atom hatom)) fun v hv => ?_
    obtain ⟨atom, hatom, hv⟩ := hheads v hv
    rw [hbody] at hatom
    rcases mem_cons.mp hatom with rfl | hatom
    · exact .inl hv
    · exact .inr ⟨atom, hatom, hv⟩
  · rw [ClauseGroup.mem_storedVariables]
    exact hlater.symm.imp_right fun hlater => ⟨[], delta, atoms, hbody, hv, hlater⟩
  · exact g.ground_of_shared hman hvals hwidth
  · have hlt := ClauseGroup.indexOf_lt hv
    have hnum : manager.maxNumberOfVariables = numberOfVariables dlClauses := (new_spec hman).1
    change i < manager.maxNumberOfVariables
    omega

/-- A run over a tuple of the delta atom's predicate ends, and records the heads of all matches. -/
theorem Prepared.evaluate {g : ClauseGroup} {rawKey : DLPredicate → Fin (2 ^ 61)} {delta : Atom}
    {atoms : List Atom} (h : Prepared g rawKey delta atoms) {evaluator : DLClauseEvaluator}
    (hcomp : g.compile = some evaluator)
    {registers : Registers} (hregs : evaluator.HasRegisters registers)
    {values : List (Option TableauObject)} (hvals : g.manager.Shared values)
    {tableau : Tableau} (hclash : tableau.containsClash = false)
    (htabs : ∀ kind, ∃ n, ExtensionTable.Reachable kind n (tableau.table kind))
    {nodes : List NodeId} (hnodes : nodes.length = delta.arguments.length)
    (deltaDependencySet : PermanentDependencySet) :
    ∃ registers' values' derivations found, (∃ enough, ∀ fuel, enough ≤ fuel →
        { evaluator with registers := registers }.evaluate tableau fuel values
        (predicateToStoredLabel rawKey delta.dlPredicate :: nodes.map .node) deltaDependencySet =
          some ({ evaluator with registers := registers' }, values', derivations)) ∧
      evaluator.HasRegisters registers' ∧ g.manager.Shared values' ∧
      (found.map Prod.fst).Nodup ∧
      (∀ tuples σ, (tuples, σ) ∈ found → delta.Fits rawKey (fun _ => none) σ
          (predicateToStoredLabel rawKey delta.dlPredicate :: nodes.map .node) ∧
          IsMatch rawKey (fun _ => none) tableau σ atoms tuples) ∧
      (∀ tuples σ, delta.Fits rawKey (fun _ => none) σ
        (predicateToStoredLabel rawKey delta.dlPredicate :: nodes.map .node) →
        IsMatch rawKey (fun _ => none) tableau σ atoms tuples → tuples ∈ found.map Prod.fst) ∧
      List.Forall₂ (fun q d =>
          Records (fun _ => none) (deltaDependencySet :: matchDependencySets tableau atoms q.1.1)
        q.1.2 q.2 d) (found ×ˢ g.headDlClauses) derivations := by
  obtain ⟨p, hcode, hev⟩ := bind_eq_some_iff.mp hcomp
  obtain rfl := some.inj hev
  obtain ⟨hcurs, hcore, hcs⟩ := hregs
  rw [length_map] at hcurs hcs
  obtain ⟨m', found, hrun, hend, hframe, hnd, hsound, hcompl, hrec⟩ :=
    reaches_end (m := ⟨0, values, registers, []⟩) hclash htabs deltaDependencySet hcode h.body
      h.deltaVariables h.fits
      h.stored rfl rfl (h.ground values hvals) hcurs hcs
        (hcore.trans g.length_initialCoreVariables) hnodes
  have hstopped : running p tableau m' = false := by
    rw [running, hend, decide_eq_false (lt_irrefl _), Bool.false_and]
  obtain ⟨enough, henough⟩ := hrun.loopWhile_eq hstopped
  refine ⟨m'.registers, m'.values, m'.derivations, found, ⟨enough, fun fuel hfuel => ?_⟩,
      ?_, ?_, hnd,
    fun tuples σ hq => hsound _ hq, hcompl, hrec⟩
  · rw [DLClauseEvaluator.evaluate, run, henough fuel hfuel]
    rfl
  · refine ⟨?_, hframe.core_length.trans hcore, ?_⟩
    · rw [length_map]
      exact hframe.cursors_length.trans hcurs
    · rw [length_map]
      exact hframe.constituents_length.trans hcs
  · refine ⟨hframe.values_length.trans hvals.length_eq, fun i hi => ?_⟩
    rw [← hvals.ground i hi]
    refine hframe.slots i fun v hv => ?_
    exact absurd (h.outside i v hv) (not_lt.mpr hi)

/-- Take a group of clauses with one body, and an order of the body with a delta atom first.
Whatever earlier runs left in the shared buffer and the registers, evaluating the compiled group
over a tuple of the delta atom's predicate ends, keeps the buffer usable for all programs, and
records one derivation for every match and every clause of the group: `found` lists without
repetition the choices of tuples that match the other atoms while the delta atom matches the given
tuple. -/
theorem evaluate_records_matches (rawKey : DLPredicate → Fin (2 ^ 61)) (dlClauses : List DLClause)
    (manager : ValuesBufferManager)
    (hman : ValuesBufferManager.new rawKey dlClauses (fun _ => none) = .ok manager)
    (heval : ∀ c ∈ dlClauses, c.Evaluable) (representative : DLClause)
    (members : List DLClause)
    (hgroup : (representative, members) ∈ groupByBody dlClauses) (index : ℕ)
    (bodyDlClause : DLClause)
    (hswap : swapBodyToFront representative index = some bodyDlClause) (policy : CoreVariablePolicy)
    (evaluator : DLClauseEvaluator)
    (hcomp : (ClauseGroup.mk bodyDlClause members policy manager).compile = some evaluator)
    (registers : Registers) (hregs : evaluator.HasRegisters registers)
    (values : List (Option TableauObject)) (hvals : manager.Shared values)
    (tableau : Tableau) (hclash : tableau.containsClash = false)
    (htabs : ∀ kind, ∃ n, ExtensionTable.Reachable kind n (tableau.table kind))
    (delta : Atom) (atoms : List Atom) (hbody : bodyDlClause.bodyAtoms = delta :: atoms)
    (nodes : List NodeId) (hnodes : nodes.length = delta.arguments.length)
    (deltaDependencySet : PermanentDependencySet) :
    bodyDlClause.bodyAtoms.Perm representative.bodyAtoms ∧ ∃ registers' values' derivations found,
      (∃ enough, ∀ fuel, enough ≤ fuel →
        { evaluator with registers := registers }.evaluate tableau fuel values
        (predicateToStoredLabel rawKey delta.dlPredicate :: nodes.map .node) deltaDependencySet =
          some ({ evaluator with registers := registers' }, values', derivations)) ∧
      evaluator.HasRegisters registers' ∧ manager.Shared values' ∧
      (found.map Prod.fst).Nodup ∧
      (∀ tuples σ, (tuples, σ) ∈ found → delta.Fits rawKey (fun _ => none) σ
          (predicateToStoredLabel rawKey delta.dlPredicate :: nodes.map .node) ∧
          IsMatch rawKey (fun _ => none) tableau σ atoms tuples) ∧
      (∀ tuples σ, delta.Fits rawKey (fun _ => none) σ
        (predicateToStoredLabel rawKey delta.dlPredicate :: nodes.map .node) →
        IsMatch rawKey (fun _ => none) tableau σ atoms tuples → tuples ∈ found.map Prod.fst) ∧
      List.Forall₂ (fun q d =>
          Records (fun _ => none) (deltaDependencySet :: matchDependencySets tableau atoms q.1.1)
        q.1.2 q.2 d) (found ×ˢ members) derivations := by
  obtain ⟨-, -, -, -, -, hperm, -⟩ := swapBodyToFront_spec hswap
  exact ⟨hperm, (prepared_of_group hman heval hgroup hswap policy hbody).evaluate hcomp hregs hvals
    hclash htabs hnodes deltaDependencySet⟩

theorem arity_conceptA : (DLPredicate.atomicConcept ⟨"A"⟩).arity = 1 := rfl

theorem arity_conceptB : (DLPredicate.atomicConcept ⟨"B"⟩).arity = 1 := rfl

theorem arity_role (name : String) : (DLPredicate.atomicRole ⟨name⟩).arity = 2 := rfl

/-- `r(X, Y) ∧ A(X) → B(Y)`. -/
def joinClause : DLClause :=
  ⟨[⟨.atomicConcept ⟨"B"⟩, [.variable ⟨"Y"⟩], arity_conceptB⟩],
    [⟨.atomicRole ⟨"r"⟩, [.variable ⟨"X"⟩, .variable ⟨"Y"⟩], arity_role "r"⟩,
      ⟨.atomicConcept ⟨"A"⟩, [.variable ⟨"X"⟩], arity_conceptA⟩]⟩

/-- A tableau with the facts of a binary table, and one node for every number. -/
def conceptTableau (x : ExtensionTable 2) : Tableau where
  nodes node := ⟨node.val, true, true, false, 0⟩
  table
    | .binary => x
    | .ternary => ExtensionTable.newTernaryExtensionTable
  needsDependencySets := true
  dependencySets _ := []
  containsClash := false

theorem neZero_keys : NeZero (2 ^ 61) := inferInstance

-- The numerals are read with an instance of this module.
attribute [local instance] neZero_keys in
def nameKey : DLPredicate → Fin (2 ^ 61)
  | .atomicConcept c => if c.iri = "A" then 1 else if c.iri = "B" then 2 else 3
  | _ => 0

theorem evaluable_joinClause : ∀ c ∈ [joinClause], c.Evaluable := by
  intro c hc
  obtain rfl := mem_singleton.mp hc
  refine ⟨fun atom hatom v hv => ?_, fun atom hatom _ => ?_, fun atom hatom _ => ?_⟩
  · obtain rfl := mem_singleton.mp hatom
    obtain rfl := mem_singleton.mp hv
    exact ⟨_, mem_cons_self, by decide⟩
  · rcases mem_pair.mp hatom with rfl | rfl
    · exact ⟨.ternary, rfl⟩
    · exact ⟨.binary, rfl⟩
  · rcases mem_pair.mp hatom with rfl | rfl
    · exact cons_ne_nil _ _
    · exact cons_ne_nil _ _

attribute [local instance] neZero_keys in
def conceptFacts : List (Fin 2 → TableauObject) := [![.concept 1, .node 7], ![.concept 1, .node 8]]

theorem index_of_matches {x : ExtensionTable 2} {σ : Variable → NodeId} {i : ℕ}
    (hobjs : ∀ i, (conceptTableau x).tupleObjects 2 i = (conceptFacts[i]?).map List.ofFn)
    (hX : σ ⟨"X"⟩ = 7)
    (h : Atom.MatchesTuple nameKey (fun _ => none) (conceptTableau x) σ
      ⟨.atomicConcept ⟨"A"⟩, [.variable ⟨"X"⟩], arity_conceptA⟩ i) : i = 0 := by
  obtain ⟨objects, hobj, -, hfit⟩ := h.objects
  have hobj' := (hobjs i).symm.trans hobj
  rcases i with _ | _ | i
  · rfl
  · obtain rfl := Option.some.inj hobj'
    have hnode := (List.cons.inj (List.cons.inj hfit).2).1
    rw [Term.object, hX] at hnode
    cases hnode
  · cases hobj'

/-- With the facts `A(7)` and `A(8)` the fact `r(7, 9)` has one match. -/
theorem evaluate_records_matches_join : ∃ x manager evaluator registers values derivations enough,
    (conceptTableau x).tupleObjects 2 0 = some [.concept 1, .node 7] ∧
    (conceptTableau x).tupleObjects 2 1 = some [.concept 1, .node 8] ∧
    ValuesBufferManager.new nameKey [joinClause] (fun _ => none) = .ok manager ∧
    (ClauseGroup.mk joinClause [joinClause] .allTrue manager).compile = some evaluator ∧
    derivations.length = 1 ∧ ∀ fuel, enough ≤ fuel →
      evaluator.evaluate (conceptTableau x) fuel manager.valuesBuffer
          [.dlPredicate 0, .node 7, .node 9] .emptySet =
        some ({ evaluator with registers := registers }, values, derivations) := by
  have hnodes : ∀ t ∈ conceptFacts, ExtensionTable.NodeColumns t := by
    intro t ht
    rcases mem_pair.mp ht with rfl | rfl
    · exact Fin.forall_fin_two.mpr ⟨fun h => absurd rfl h, fun _ => ⟨7, rfl⟩⟩
    · exact Fin.forall_fin_two.mpr ⟨fun h => absurd rfl h, fun _ => ⟨8, rfl⟩⟩
  have hne : (![.concept 1, .node 7] : Fin 2 → TableauObject) ≠ ![.concept 1, .node 8] :=
    fun h => absurd (congrFun h 1) (by decide)
  obtain ⟨y, hy, htup⟩ : ∃ y : ExtensionTable 2, ExtensionTable.Reachable .binary 0 y ∧
      y.tuples = conceptFacts :=
    @ExtensionTable.exists_reachable .binary _
      (nodup_cons.mpr ⟨fun h => hne (mem_singleton.mp h), nodup_singleton _⟩) hnodes
  let x := y.propagateDeltaNew.2
  have htabs : ∀ kind, ∃ n, ExtensionTable.Reachable kind n ((conceptTableau x).table kind) := by
    rintro (_ | _)
    · exact ⟨0, hy.propagate⟩
    · exact ⟨0, .new⟩
  obtain ⟨-, registers, values, derivations, found, ⟨enough, henough⟩, -, -, hnd, hsound,
    hcompl, hrecs⟩ :=
    evaluate_records_matches nameKey [joinClause] _ rfl evaluable_joinClause joinClause [joinClause]
      (mem_singleton.mpr rfl) 0 joinClause (by decide) .allTrue _ rfl _ ⟨rfl, rfl, rfl⟩ _
      ⟨rfl, fun _ _ => rfl⟩ (conceptTableau x) rfl htabs _ _ rfl [7, 9] rfl .emptySet
  have hobjs : ∀ i, (conceptTableau x).tupleObjects 2 i = (conceptFacts[i]?).map List.ofFn := by
    intro i
    rw [← htup]
    change ((y.tuples[i]?).bind fun t => some (List.ofFn t)) = _
    cases y.tuples[i]? <;> rfl
  refine ⟨x, _, _, registers, values, derivations, enough, hobjs 0, hobjs 1, rfl, rfl, ?_, henough⟩
  have hall : ∀ tuples ∈ found.map Prod.fst, tuples = [0] := by
    intro tuples htup
    obtain ⟨q, hq, rfl⟩ := List.mem_map.mp htup
    obtain ⟨hfits, hmatch⟩ := hsound q.1 q.2 hq
    have hX : q.2 ⟨"X"⟩ = 7 := by
      have hobject := (List.cons.inj (List.cons.inj hfits).2).1
      exact (TableauObject.node.inj (Option.some.inj hobject)).symm
    obtain ⟨i, rest, hi, hrest, heq⟩ := forall₂_cons_left_iff.mp hmatch.extensions
    have hidx : i = 0 := index_of_matches hobjs hX hi
    rw [heq, hidx, forall₂_nil_left_iff.mp hrest]
  have hzero : [0] ∈ found.map Prod.fst := by
    refine hcompl [0] (fun v => if v = ⟨"X"⟩ then 7 else 9) rfl
      ⟨.cons ⟨⟨.binary, rfl, ?_⟩, _, hobjs 0, ?_, rfl⟩ .nil, ?_⟩
    · simp [conceptTableau, x, ExtensionTable.inView, ExtensionTable.viewRange,
        ExtensionTable.propagateDeltaNew, hy.consistent.delta, htup]
      exact Nat.succ_pos _
    · intro o ho
      obtain rfl := mem_singleton.mp ho
      exact ⟨7, rfl, rfl⟩
    · intro atom hatom hextension
      obtain rfl := mem_singleton.mp hatom
      cases hextension
  have hlen : found.length = 1 := by
    rw [← length_map Prod.fst]
    refine Nat.le_antisymm ?_ (length_pos_of_mem hzero)
    have hsub : found.map Prod.fst ⊆ [[0]] := fun t ht => mem_singleton.mpr (hall t ht)
    exact (subperm_of_subset hnd hsub).length_le
  rw [← hrecs.length_eq, length_product, hlen]
  rfl

end Hermit
