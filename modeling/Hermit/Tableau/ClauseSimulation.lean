import Hermit.Tableau.ClauseLayout

/-! # Compiled clauses enumerate the matches of their body

A run through the piece of an atom returns to its end, has changed no slot and no retrieval of the
atoms before, and has recorded the heads for every match of the atoms from this one on.
-/

namespace Hermit

open List hiding not_le not_lt
open Option

section simulation

variable {g : ClauseGroup} {p : WorkerProgram} {tableau : Tableau}
  {deltaObjects : List TableauObject} {deltaDependencySet : PermanentDependencySet}
  {rawKey : DLPredicate → Fin (2 ^ 61)} {termsToNodes : Term → Option NodeId}

variable (p tableau deltaObjects deltaDependencySet) in
/-- One machine leads to another in some rounds of the loop. -/
def Reaches : Machine → Machine → Prop :=
  Steps (running p tableau) (step p tableau deltaObjects deltaDependencySet)

variable (p tableau deltaObjects deltaDependencySet) in
/-- The machine goes on to one position if a condition holds, and to another one otherwise. -/
def Branches (condition : Prop) (m : Machine) (onward away : ℕ) : Prop :=
  condition ∧ Reaches p tableau deltaObjects deltaDependencySet m (m.goTo onward) ∨
    ¬ condition ∧ Reaches p tableau deltaObjects deltaDependencySet m (m.goTo away)

/-! ## Single workers -/

theorem Reaches.of_execute (hclash : tableau.containsClash = false) {m m' : Machine} {w : Worker}
    (hw : p.workers[m.programCounter]? = some w)
    (hexec : execute p tableau deltaObjects deltaDependencySet w m = some m') :
    Reaches p tableau deltaObjects deltaDependencySet m m' := by
  apply Steps.single
  · rw [running, hclash, Bool.not_false, Bool.and_true, decide_eq_true_iff]
    exact (List.getElem?_eq_some_iff.mp hw).1
  · rw [step, hw]
    exact hexec

variable {i argumentIndex : ℕ} {v : Variable} {terms : List Term}

theorem setSlot_eq {α : Type*} {l : List α} (h : i < l.length) (a : α) :
    setSlot l i a = some (l.set i a) :=
  if_pos h

theorem ClauseGroup.indexOf_lt (h : g.indexOf v = some i) : i < g.storedVariables.length := by
  unfold indexOf at h
  split at h
  · cases h
    apply idxOf_lt_length_of_mem
    assumption
  · cases h

theorem ClauseGroup.indexOf_injective {w : Variable} (hv : g.indexOf v = some i)
    (hw : g.indexOf w = some i) : v = w := by
  unfold indexOf at hv hw
  split at hv
  · rename_i hmem
    split at hw
    · exact (idxOf_inj hmem).mp (some.inj (hv.trans hw.symm))
    · cases hw
  · cases hv

theorem ClauseGroup.exists_indexOf (h : v ∈ g.storedVariables) : ∃ i, g.indexOf v = some i :=
  ⟨_, if_pos h⟩

/-! ## Comparisons of columns -/

/-- The objects are those that a retrieval reads. -/
def Reads (p : WorkerProgram) (tableau : Tableau) (deltaObjects : List TableauObject)
    (m : Machine) (r : ℕ) (objects : List TableauObject) : Prop :=
  ∀ column, retrievalObject p tableau deltaObjects m r column = objects[column]?

theorem Reads.congr {m m' : Machine} {r : ℕ} {objects : List TableauObject}
    (h : Reads p tableau deltaObjects m r objects)
    (hcurs : m'.registers.cursors = m.registers.cursors) :
    Reads p tableau deltaObjects m' r objects := by
  intro column
  rw [← h column, retrievalObject, retrievalObject, currentTuple, currentTuple, hcurs]

variable (hclash : tableau.containsClash = false)

include hclash

/-- A row of comparisons with one column goes on if all are equal, and jumps otherwise. -/
theorem reaches_comparisons (deltaDependencySet : PermanentDependencySet) {m : Machine}
    {r first : ℕ} {jump : ℤ} {columns : List ℕ} {objects : List TableauObject}
    (hat : p.At m.programCounter (columns.map (.branchIfNotEqual jump r first)))
    (hreads : Reads p tableau deltaObjects m r objects) (hfst : first < objects.length)
    (hcols : ∀ column ∈ columns, column < objects.length) :
    Branches p tableau deltaObjects deltaDependencySet
    (∀ column ∈ columns, objects[first]? = objects[column]?) m
      (m.programCounter + columns.length) jump.toNat := by
  induction columns generalizing m with
  | nil => exact .inl ⟨nofun, Steps.refl⟩
  | cons column columns ih =>
    have hlt := hcols column mem_cons_self
    have hexec : execute p tableau deltaObjects deltaDependencySet
      (.branchIfNotEqual jump r first column) m =
        some (m.branch (objects[first] = objects[column]) jump) := by
      rw [execute, hreads, hreads, getElem?_eq_getElem hfst, getElem?_eq_getElem hlt]
      rfl
    have hstep := Reaches.of_execute hclash hat.head hexec
    by_cases heq : objects[first] = objects[column]
    · rw [decide_eq_true heq, Machine.branch, if_pos rfl] at hstep
      rcases ih (m := m.next) hat.tail (hreads.congr rfl) fun c hc =>
          hcols c (mem_cons_of_mem _ hc) with
        ⟨hall, hrest⟩ | ⟨hnot, hrest⟩
      · refine .inl ⟨?_, ?_⟩
        · rw [forall_mem_cons]
          refine ⟨?_, hall⟩
          rw [getElem?_eq_getElem hfst, getElem?_eq_getElem hlt, heq]
        · have hjoin := Steps.trans hstep hrest
          rw [length_cons, Nat.add_comm columns.length, ← Nat.add_assoc]
          exact hjoin
      · refine .inr ⟨fun hall => hnot fun c hc => hall c (mem_cons_of_mem _ hc),
          Steps.trans hstep hrest⟩
    · rw [decide_eq_false heq, Machine.branch, if_neg Bool.false_ne_true] at hstep
      refine .inr ⟨fun hall => heq ?_, hstep⟩
      have hcol := hall column mem_cons_self
      rw [getElem?_eq_getElem hfst, getElem?_eq_getElem hlt] at hcol
      exact some.inj hcol

omit hclash in
theorem mem_laterColumns {inner column : ℕ} :
    column ∈ laterColumns v terms inner ↔ ∃ k, terms[k]? = some (.variable v) ∧
    column = inner + k + 1 := by
  induction terms generalizing inner with
  | nil => simp [laterColumns]
  | cons term terms ih =>
    have hshift : (∃ k, terms[k]? = some (.variable v) ∧ column = inner + 1 + k + 1) ↔
        ∃ k, (term :: terms)[k + 1]? = some (.variable v) ∧ column = inner + (k + 1) + 1 := by
      apply exists_congr
      intro k
      rw [getElem?_cons_succ, Nat.add_right_comm inner 1 k, Nat.add_assoc inner k 1]
    have hspl : (∃ k, (term :: terms)[k]? = some (.variable v) ∧ column = inner + k + 1) ↔
        (term = .variable v ∧ column = inner + 1) ∨
          ∃ k, (term :: terms)[k + 1]? = some (.variable v) ∧ column = inner + (k + 1) + 1 := by
      constructor
      · rintro ⟨k, hk, hcol⟩
        cases k with
        | zero => exact .inl ⟨some.inj hk, hcol⟩
        | succ k => exact .inr ⟨k, hk, hcol⟩
      · rintro (⟨rfl, hcol⟩ | ⟨k, hk, hcol⟩)
        · exact ⟨0, rfl, hcol⟩
        · exact ⟨k + 1, hk, hcol⟩
    rw [laterColumns, hspl, ← hshift, ← ih]
    by_cases hterm : term = .variable v
    · rw [if_pos hterm, mem_cons]
      exact or_congr_left ⟨fun h => ⟨hterm, h⟩, fun h => h.2⟩
    · rw [if_neg hterm]
      exact ⟨.inr, fun h => h.resolve_left fun h => hterm h.1⟩

/-- The columns of the variables that are not bound agree, from one column on. -/
def AgreeFrom (boundSoFar : List Variable) (terms : List Term) (outer : ℕ)
    (objects : List TableauObject) : Prop :=
  ∀ j k v, j < k → terms[j]? = some (.variable v) → terms[k]? = some (.variable v) →
    v ∉ boundSoFar →
    objects[outer + j + 1]? = objects[outer + k + 1]?

omit hclash in
theorem agreeFrom_cons {boundSoFar : List Variable} {term : Term} {outer : ℕ}
    {objects : List TableauObject} : AgreeFrom boundSoFar (term :: terms) outer objects ↔
      (∀ v, term = .variable v → v ∉ boundSoFar → ∀ column ∈ laterColumns v terms (outer + 1),
        objects[outer + 1]? = objects[column]?) ∧
        AgreeFrom boundSoFar terms (outer + 1) objects := by
  constructor
  · intro h
    refine ⟨?_, fun j k v hjk hj hk hv => ?_⟩
    · rintro v rfl hv column hcol
      obtain ⟨k, hk, rfl⟩ := mem_laterColumns.mp hcol
      have hagr := h 0 (k + 1) v (by omega) rfl hk hv
      rwa [Nat.add_zero, ← Nat.add_assoc, Nat.add_right_comm outer k 1] at hagr
    · have hagr := h (j + 1) (k + 1) v (by omega) hj hk hv
      rwa [← Nat.add_assoc, ← Nat.add_assoc, Nat.add_right_comm outer j 1,
        Nat.add_right_comm outer k 1] at hagr
  · rintro ⟨hfst, hrest⟩ j k v hjk hj hk hv
    obtain ⟨k, rfl⟩ : ∃ n, k = n + 1 := ⟨k - 1, by omega⟩
    rw [getElem?_cons_succ] at hk
    rw [← Nat.add_assoc, Nat.add_right_comm outer k 1]
    cases j with
    | zero => exact hfst v (some.inj hj) hv _ (mem_laterColumns.mpr ⟨k, hk, rfl⟩)
    | succ j =>
      rw [← Nat.add_assoc, Nat.add_right_comm outer j 1]
      exact hrest j k v (by omega) hj hk hv

/-- The checks go on if the columns agree, and jump otherwise. -/
theorem reaches_checks (deltaDependencySet : PermanentDependencySet) {boundSoFar : List Variable}
    {m : Machine} {r outer : ℕ} {jump : ℤ} {objects : List TableauObject}
    (hat : p.At m.programCounter (checkUnboundVariableMatches boundSoFar r jump terms outer))
    (hreads : Reads p tableau deltaObjects m r objects)
    (hlen : objects.length = outer + terms.length + 1) :
    Branches p tableau deltaObjects deltaDependencySet (AgreeFrom boundSoFar terms outer objects) m
      (m.programCounter + (checkUnboundVariableMatches boundSoFar r jump terms outer).length)
      jump.toNat := by
  induction terms generalizing m outer with
  | nil => exact .inl ⟨nofun, Steps.refl⟩
  | cons term terms ih =>
    rw [length_cons] at hlen
    rw [agreeFrom_cons]
    -- A term that is no variable, or a bound one, is not compared.
    have hskip (heq : checkUnboundVariableMatches boundSoFar r jump (term :: terms) outer =
          checkUnboundVariableMatches boundSoFar r jump terms (outer + 1))
        (hbd : ∀ v, term = .variable v → v ∈ boundSoFar) :
        Branches p tableau deltaObjects deltaDependencySet
          ((∀ v, term = .variable v → v ∉ boundSoFar →
            ∀ column ∈ laterColumns v terms (outer + 1), objects[outer + 1]? = objects[column]?) ∧
          AgreeFrom boundSoFar terms (outer + 1) objects) m
          (m.programCounter +
            (checkUnboundVariableMatches boundSoFar r jump (term :: terms) outer).length)
          jump.toNat := by
      rw [heq] at hat ⊢
      have hfst : ∀ v, term = .variable v → v ∉ boundSoFar →
        ∀ column ∈ laterColumns v terms (outer + 1),
          objects[outer + 1]? = objects[column]? := fun v hv hnot => absurd (hbd v hv) hnot
      rw [and_iff_right hfst]
      exact ih hat hreads (by omega)
    match term with
    | .individual _ => exact hskip rfl nofun
    | .constant _ => exact hskip rfl nofun
    | .variable v =>
      by_cases hbd : v ∈ boundSoFar
      · refine hskip ?_ fun w hw => ?_
        · rw [checkUnboundVariableMatches, if_pos hbd, nil_append]
        · cases hw
          exact hbd
      · rw [checkUnboundVariableMatches, if_neg hbd] at hat ⊢
        have hcols : ∀ column ∈ laterColumns v terms (outer + 1), column < objects.length := by
          intro column hcol
          obtain ⟨k, hk, rfl⟩ := mem_laterColumns.mp hcol
          have hlt := (List.getElem?_eq_some_iff.mp hk).1
          omega
        have hiff : (∀ w, Term.variable v = .variable w → w ∉ boundSoFar →
          ∀ column ∈ laterColumns w terms (outer + 1), objects[outer + 1]? = objects[column]?) ↔
              ∀ column ∈ laterColumns v terms (outer + 1),
                objects[outer + 1]? = objects[column]? := by
          constructor
          · exact fun h => h v rfl hbd
          · rintro h w hw _
            cases hw
            exact h
        rw [hiff]
        rcases reaches_comparisons hclash deltaDependencySet hat.left hreads (by omega) hcols
          with ⟨hall, hrun⟩ | ⟨hnot, hrun⟩
        · have hright := hat.right
          rw [length_map] at hright
          rcases ih (m := m.goTo _) hright (hreads.congr rfl) (by omega)
            with ⟨hagr, hrest⟩ | ⟨hnot, hrest⟩
          · refine .inl ⟨⟨hall, hagr⟩, ?_⟩
            rw [length_append, length_map, ← Nat.add_assoc]
            exact Steps.trans hrun hrest
          · exact .inr ⟨fun h => hnot h.2, Steps.trans hrun hrest⟩
        · exact .inr ⟨fun h => hnot h.1, hrun⟩

omit hclash in
/-- Bound are the variables that were, and those of the terms that have a slot. -/
theorem mem_generateBindings {r : ℕ} {boundSoFar : List Variable} :
    v ∈ (g.generateBindings r terms argumentIndex boundSoFar).2 ↔
      v ∈ boundSoFar ∨ .variable v ∈ terms ∧ v ∈ g.storedVariables := by
  induction terms generalizing argumentIndex boundSoFar with
  | nil => simp [ClauseGroup.generateBindings]
  | cons term terms ih =>
    cases term with
    | individual _ | constant _ =>
      rw [ClauseGroup.generateBindings, ih]
      · simp
      · intro _ h
        cases h
    | «variable» w =>
      rw [ClauseGroup.generateBindings]
      by_cases hbd : w ∈ boundSoFar
      · rw [if_pos hbd, ih]
        simp only [mem_cons, Term.variable.injEq]
        constructor
        · rintro (h | h)
          · exact .inl h
          · exact .inr ⟨.inr h.1, h.2⟩
        · rintro (h | ⟨rfl | h, hst⟩)
          · exact .inl h
          · exact .inl hbd
          · exact .inr ⟨h, hst⟩
      · rw [if_neg hbd]
        by_cases hst : w ∈ g.storedVariables
        · rw [ClauseGroup.indexOf, if_pos hst]
          dsimp only
          rw [ih]
          simp only [mem_cons, Term.variable.injEq]
          constructor
          · rintro ((rfl | h) | h)
            · exact .inr ⟨.inl rfl, hst⟩
            · exact .inl h
            · exact .inr ⟨.inr h.1, h.2⟩
          · rintro (h | ⟨rfl | h, hv⟩)
            · exact .inl (.inr h)
            · exact .inl (.inl rfl)
            · exact .inr ⟨h, hv⟩
        · rw [ClauseGroup.indexOf, if_neg hst]
          dsimp only
          rw [ih]
          simp only [mem_cons, Term.variable.injEq]
          constructor
          · rintro (h | h)
            · exact .inl h
            · exact .inr ⟨.inr h.1, h.2⟩
          · rintro (h | ⟨rfl | h, hv⟩)
            · exact .inl h
            · exact absurd hv hst
            · exact .inr ⟨h, hv⟩

variable (g) in
/-- The new variables have the objects of one of their columns, and no other slot changes. -/
structure Copied (boundSoFar bound : List Variable) (terms : List Term) (argumentIndex : ℕ)
    (objects : List TableauObject) (values values' : List (Option TableauObject)) : Prop where
  length_eq : values'.length = values.length
  new : ∀ v ∈ bound, v ∉ boundSoFar → ∃ i k, g.indexOf v = some i ∧ terms[k]? = some (.variable v) ∧
    values'[i]? = some objects[argumentIndex + k + 1]?
  old : ∀ i : ℕ, (∀ v, g.indexOf v = some i → v ∈ boundSoFar) → values'[i]? = values[i]?

omit hclash in
theorem Copied.cons {boundSoFar bound : List Variable}
    {objects : List TableauObject} {values values' : List (Option TableauObject)}
    (h : Copied g boundSoFar bound terms (argumentIndex + 1) objects values values') (term : Term) :
    Copied g boundSoFar bound (term :: terms) argumentIndex objects values values' where
  length_eq := h.length_eq
  new := by
    intro v hv hnot
    obtain ⟨i, k, hi, hk, hval⟩ := h.new v hv hnot
    refine ⟨i, k + 1, hi, hk, ?_⟩
    rw [hval, Nat.add_right_comm argumentIndex 1 k, Nat.add_assoc argumentIndex k 1]
  old := h.old

theorem reaches_bindings (deltaDependencySet : PermanentDependencySet) {boundSoFar : List Variable}
    {m : Machine} {r : ℕ} {objects : List TableauObject}
    (hat : p.At m.programCounter (g.generateBindings r terms argumentIndex boundSoFar).1)
    (hreads : Reads p tableau deltaObjects m r objects)
    (hlen : objects.length = argumentIndex + terms.length + 1)
    (hslots : g.storedVariables.length ≤ m.values.length) :
    ∃ values, Reaches p tableau deltaObjects deltaDependencySet m ({ m with values := values }.goTo
        (m.programCounter + (g.generateBindings r terms argumentIndex boundSoFar).1.length)) ∧
      Copied g boundSoFar (g.generateBindings r terms argumentIndex boundSoFar).2 terms
        argumentIndex objects
        m.values values := by
  induction terms generalizing m argumentIndex boundSoFar with
  | nil => exact ⟨m.values, Steps.refl, rfl, fun v hv hnot => absurd hv hnot, fun _ _ => rfl⟩
  | cons term terms ih =>
    rw [length_cons] at hlen
    -- A term that is not copied leaves everything to the rest.
    have hskip (heq : g.generateBindings r (term :: terms) argumentIndex boundSoFar =
          g.generateBindings r terms (argumentIndex + 1) boundSoFar) :
        ∃ values, Reaches p tableau deltaObjects deltaDependencySet m
          ({ m with values := values }.goTo (m.programCounter +
              (g.generateBindings r (term :: terms) argumentIndex boundSoFar).1.length)) ∧
          Copied g boundSoFar (g.generateBindings r (term :: terms) argumentIndex boundSoFar).2
            (term :: terms)
            argumentIndex objects m.values values := by
      rw [heq] at hat ⊢
      obtain ⟨values, hrun, hcopy⟩ := ih hat hreads (by omega) hslots
      exact ⟨values, hrun, hcopy.cons term⟩
    rcases term with v | _ | _
    · by_cases hbd : v ∈ boundSoFar
      · apply hskip
        rw [ClauseGroup.generateBindings, if_pos hbd]
      · cases hidx : g.indexOf v with
        | none =>
          apply hskip
          rw [ClauseGroup.generateBindings, if_neg hbd, hidx]
        | some i =>
          have heq : g.generateBindings r (.variable v :: terms) argumentIndex boundSoFar =
              (.copyValues r (argumentIndex + 1) i ::
                  (g.generateBindings r terms (argumentIndex + 1) (v :: boundSoFar)).1,
                (g.generateBindings r terms (argumentIndex + 1) (v :: boundSoFar)).2) := by
            rw [ClauseGroup.generateBindings, if_neg hbd, hidx]
          rw [heq] at hat ⊢
          have hi : i < m.values.length := lt_of_lt_of_le (ClauseGroup.indexOf_lt hidx) hslots
          obtain ⟨o, ho⟩ : ∃ o, objects[argumentIndex + 1]? = some o :=
            ⟨_, getElem?_eq_getElem (by omega)⟩
          have hexec : execute p tableau deltaObjects deltaDependencySet
            (.copyValues r (argumentIndex + 1) i) m =
              some (Machine.next { m with values := m.values.set i (some o) }) := by
            rw [execute, hreads, ho, bind_eq_bind, bind_some, setSlot_eq hi]
            rfl
          have hstep := Reaches.of_execute hclash hat.head hexec
          obtain ⟨values, hrun, hcopy⟩ :=
            ih (m := Machine.next { m with values := m.values.set i (some o) })
            hat.tail (hreads.congr rfl) (by omega) (hslots.trans_eq (length_set).symm)
          have honly : ∀ w, g.indexOf w = some i → w ∈ v :: boundSoFar := by
            intro w hw
            rw [ClauseGroup.indexOf_injective hw hidx]
            exact mem_cons_self
          refine ⟨values, ?_, hcopy.length_eq.trans length_set, fun w hw hnot => ?_, fun j hj => ?_⟩
          · rw [length_cons, Nat.add_comm _ 1, ← Nat.add_assoc]
            exact Steps.trans hstep hrun
          · by_cases hwv : w = v
            · subst hwv
              refine ⟨i, 0, hidx, rfl, ?_⟩
              rw [hcopy.old i honly, Nat.add_zero, ho]
              exact getElem?_set_self hi
            · exact (hcopy.cons (.variable v)).new w hw fun hmem =>
                (mem_cons.mp hmem).elim hwv hnot
          · have hne : i ≠ j := fun hij => hbd (hj v (hij ▸ hidx))
            rw [hcopy.old j fun w hw => mem_cons_of_mem _ (hj w hw)]
            exact getElem?_set_ne hne
    · exact hskip rfl
    · exact hskip rfl

/-! ## Machines between two atoms -/

variable (g rawKey termsToNodes) in
/-- The slots of the predicates and of the terms that are no variables hold their values, above the
slots of the variables. -/
structure Ground (values : List (Option TableauObject)) : Prop where
  width : g.storedVariables.length ≤ values.length
  predicates : ∀ (predicate : DLPredicate) (i : ℕ),
    g.manager.bodyDlPredicatesToIndexes.lookup predicate = some i →
    g.storedVariables.length ≤ i ∧ values[i]? =
      some (some (predicateToStoredLabel rawKey predicate))
  terms : ∀ (term : Term) (i : ℕ), g.manager.bodyNonvariableTermsToIndexes.lookup term = some i →
    g.storedVariables.length ≤ i ∧ ∃ node, termsToNodes term = some node ∧
      values[i]? = some (some (.node node))

variable (g p rawKey termsToNodes) in
/-- The bound variables have their values, and the tuples so far their dependency sets. -/
structure Ready (boundSoFar : List Variable) (σ : Variable → NodeId)
    (dependencySets : List PermanentDependencySet)
    (m : Machine) : Prop where
  ground : Ground g rawKey termsToNodes m.values
  slots : ∀ v ∈ boundSoFar, ∃ i : ℕ, g.indexOf v = some i ∧ m.values[i]? = some (some (.node (σ v)))
  constituents : m.registers.unionConstituents.take dependencySets.length = dependencySets.map some
  constituents_length : m.registers.unionConstituents.length = p.retrievals.length
  cursors_length : m.registers.cursors.length = p.retrievals.length
  core_length : m.registers.coreVariables.length = g.storedVariables.length

variable (g) in
/-- What a run through the later atoms leaves as it was. -/
structure Frame (boundSoFar : List Variable) (r : ℕ) (m m' : Machine) : Prop where
  values_length : m'.values.length = m.values.length
  slots : ∀ i : ℕ, (∀ v, g.indexOf v = some i → v ∈ boundSoFar) → m'.values[i]? = m.values[i]?
  cursors : m'.registers.cursors.take r = m.registers.cursors.take r
  cursors_length : m'.registers.cursors.length = m.registers.cursors.length
  constituents : m'.registers.unionConstituents.take r = m.registers.unionConstituents.take r
  constituents_length : m'.registers.unionConstituents.length = m.registers.unionConstituents.length
  core_length : m'.registers.coreVariables.length = m.registers.coreVariables.length

section frame

omit hclash

variable {boundSoFar bound : List Variable} {σ σ' : Variable → NodeId} {r r' : ℕ}
    {m m' m'' : Machine}
  {dependencySets : List PermanentDependencySet}

theorem Frame.of_eq (hvals : m'.values = m.values) (hregs : m'.registers = m.registers) :
    Frame g boundSoFar r m m' where
  values_length := by rw [hvals]
  slots := by
    intro i _
    rw [hvals]
  cursors := by rw [hregs]
  cursors_length := by rw [hregs]
  constituents := by rw [hregs]
  constituents_length := by rw [hregs]
  core_length := by rw [hregs]

theorem Frame.trans (h : Frame g boundSoFar r m m') (h' : Frame g boundSoFar r m' m'') :
    Frame g boundSoFar r m m'' where
  values_length := h'.values_length.trans h.values_length
  slots i hi := (h'.slots i hi).trans (h.slots i hi)
  cursors := h'.cursors.trans h.cursors
  cursors_length := h'.cursors_length.trans h.cursors_length
  constituents := h'.constituents.trans h.constituents
  constituents_length := h'.constituents_length.trans h.constituents_length
  core_length := h'.core_length.trans h.core_length

theorem take_eq_of_le {α : Type*} {l l' : List α} (h : l'.take r' = l.take r') (hle : r ≤ r') :
    l'.take r = l.take r := by
  rw [← Nat.min_eq_left hle, ← take_take, h, take_take]

theorem Frame.mono (h : Frame g bound r' m m') (hbd : boundSoFar ⊆ bound) (hle : r ≤ r') :
    Frame g boundSoFar r m m' where
  values_length := h.values_length
  slots i hi := h.slots i fun v hv => hbd (hi v hv)
  cursors := take_eq_of_le h.cursors hle
  cursors_length := h.cursors_length
  constituents := take_eq_of_le h.constituents hle
  constituents_length := h.constituents_length
  core_length := h.core_length

theorem Ground.of_slots {values values' : List (Option TableauObject)}
    (h : Ground g rawKey termsToNodes values) (hlen : values'.length = values.length)
    (hslots : ∀ i : ℕ, (∀ v, g.indexOf v = some i → v ∈ boundSoFar) → values'[i]? = values[i]?) :
    Ground g rawKey termsToNodes values' := by
  have habove : ∀ i : ℕ, g.storedVariables.length ≤ i → values'[i]? = values[i]? := by
    intro i hi
    apply hslots
    intro v hv
    have hlt := ClauseGroup.indexOf_lt hv
    omega
  refine ⟨h.width.trans_eq hlen.symm, fun predicate i hi => ?_, fun term i hi => ?_⟩
  · obtain ⟨hle, hval⟩ := h.predicates predicate i hi
    exact ⟨hle, (habove i hle).trans hval⟩
  · obtain ⟨hle, node, hnode, hval⟩ := h.terms term i hi
    exact ⟨hle, node, hnode, (habove i hle).trans hval⟩

theorem Ready.of_frame (h : Ready g p rawKey termsToNodes boundSoFar σ dependencySets m)
    (hframe : Frame g boundSoFar dependencySets.length m m') :
    Ready g p rawKey termsToNodes boundSoFar σ dependencySets m' where
  ground := h.ground.of_slots hframe.values_length hframe.slots
  slots := by
    intro v hv
    obtain ⟨i, hi, hval⟩ := h.slots v hv
    refine ⟨i, hi, (hframe.slots i fun w hw => ?_).trans hval⟩
    rw [ClauseGroup.indexOf_injective hw hi]
    exact hv
  constituents := hframe.constituents.trans h.constituents
  constituents_length := hframe.constituents_length.trans h.constituents_length
  cursors_length := hframe.cursors_length.trans h.cursors_length
  core_length := hframe.core_length.trans h.core_length

/-- A bound variable holds its node. -/
theorem Ready.nodeAt (h : Ready g p rawKey termsToNodes boundSoFar σ dependencySets m)
    {v : Variable} (hv : v ∈ boundSoFar) {slot : ℕ} (hslot : g.slotOf (.variable v) = some slot) :
    nodeAt m.values slot = some (σ v) := by
  obtain ⟨i, hi, hval⟩ := h.slots v hv
  have heq : slot = i := by
    rw [ClauseGroup.slotOf, Term.asVariable, map_some, hi] at hslot
    exact (some.inj hslot).symm
  rw [Hermit.nodeAt, heq, hval]
  rfl

/-- The slots of terms that are bound variables hold what the terms stand for. -/
theorem Ready.mapM_nodeAt (h : Ready g p rawKey termsToNodes boundSoFar σ dependencySets m)
    {terms : List Term} {slots : List ℕ} (hslots : terms.mapM g.slotOf = some slots)
    (hbd : ∀ v, .variable v ∈ terms → v ∈ boundSoFar) :
    ∃ names : List Variable, terms = names.map Term.variable ∧
      slots.mapM (Hermit.nodeAt m.values) = some (names.map σ) := by
  induction terms generalizing slots with
  | nil =>
    rw [mapM_nil] at hslots
    obtain rfl := some.inj hslots
    exact ⟨[], rfl, rfl⟩
  | cons term terms ih =>
    obtain ⟨slot, slots, hslot, hrest, rfl⟩ :=
      forall₂_cons_left_iff.mp (Library.mapM_eq_some_iff.mp hslots)
    obtain ⟨names, hterms, hnodes⟩ := ih (Library.mapM_eq_some_iff.mpr hrest)
      fun v hv => hbd v (mem_cons_of_mem _ hv)
    rcases term with v | _ | _
    · refine ⟨v :: names, by rw [map_cons, hterms], ?_⟩
      rw [Library.mapM_eq_some_iff] at hnodes ⊢
      exact .cons (h.nodeAt (hbd v mem_cons_self) hslot) hnodes
    · cases hslot
    · cases hslot

end frame

section loopBody

variable {boundSoFar : List Variable} {σ σ' : Variable → NodeId} {m : Machine}
  {dependencySets : List PermanentDependencySet} {dependencySet : PermanentDependencySet}
  {atom : Atom}
  {objects : List TableauObject} {jump : ℤ}

/-- A tuple whose columns disagree is left; otherwise its variables are bound as some map has them
that it fits, and its dependency set is added. -/
theorem reaches_loopBody
    (hat : p.At m.programCounter (g.loopBody boundSoFar dependencySets.length jump atom))
    (hready : Ready g p rawKey termsToNodes boundSoFar σ dependencySets m)
    (hreads : Reads p tableau deltaObjects m dependencySets.length objects)
    (hdep : ∀ m', m'.registers.cursors = m.registers.cursors →
      retrievalDependencySet p tableau deltaDependencySet m' dependencySets.length =
      some dependencySet) (hlen : objects.length = atom.arguments.length + 1)
    (hlt : dependencySets.length < p.retrievals.length) :
    (¬ atom.ColumnsAgree boundSoFar objects ∧
        Reaches p tableau deltaObjects deltaDependencySet m (m.goTo jump.toNat)) ∨
      atom.ColumnsAgree boundSoFar objects ∧
        ∀ σ', Set.EqOn σ σ' {v | v ∈ boundSoFar} → atom.Fits rawKey termsToNodes σ' objects →
          ∃ m', Reaches p tableau deltaObjects deltaDependencySet m m' ∧
            m'.programCounter = m.programCounter +
            (g.loopBody boundSoFar dependencySets.length jump atom).length ∧
            m'.derivations = m.derivations ∧ m'.registers.cursors = m.registers.cursors ∧
            Frame g boundSoFar dependencySets.length m m' ∧ Ready g p rawKey termsToNodes
              (g.generateBindings dependencySets.length atom.arguments 0 boundSoFar).2 σ'
              (dependencySets ++ [dependencySet]) m' := by
  have hagr : AgreeFrom boundSoFar atom.arguments 0 objects ↔
      atom.ColumnsAgree boundSoFar objects := by
    simp only [AgreeFrom, Atom.ColumnsAgree, Nat.zero_add]
  unfold ClauseGroup.loopBody at hat ⊢
  rcases reaches_checks hclash deltaDependencySet hat.left.left hreads (by omega)
    with ⟨hyes, hrun⟩ | ⟨hno, hrun⟩
  swap
  · exact .inl ⟨fun h => hno (hagr.mpr h), hrun⟩
  refine .inr ⟨hagr.mp hyes, fun σ' heq hfits => ?_⟩
  obtain ⟨values, hbind, hcopy⟩ :=
    reaches_bindings (m := m.goTo _) hclash deltaDependencySet hat.left.right
    (hreads.congr rfl) (by omega) hready.ground.width
  have hconst : dependencySets.length < m.registers.unionConstituents.length := by
    rw [hready.constituents_length]
    exact hlt
  set m₁ : Machine := Machine.goTo _ { m.goTo _ with values := values } with hm₁
  have hexec : execute p tableau deltaObjects deltaDependencySet
      (.copyDependencySet dependencySets.length dependencySets.length) m₁ =
          some (Machine.next { m₁ with
        registers := { m.registers with unionConstituents :=
          m.registers.unionConstituents.set dependencySets.length (some dependencySet) } }) := by
    rw [execute, hdep m₁ rfl, bind_eq_bind, bind_some]
    exact congrArg (Option.bind · _) (setSlot_eq hconst _)
  have hlast := hat.right.head
  rw [length_append, ← Nat.add_assoc] at hlast
  have hstep := Reaches.of_execute hclash (m := m₁) hlast hexec
  have hframe : Frame g boundSoFar dependencySets.length m (Machine.next { m₁ with
      registers := { m.registers with unionConstituents :=
        m.registers.unionConstituents.set dependencySets.length (some dependencySet) } }) :=
    ⟨hcopy.length_eq, hcopy.old, rfl, rfl, take_set_of_le le_rfl, length_set, rfl⟩
  refine ⟨_, Steps.trans hrun (Steps.trans hbind hstep), ?_, rfl, rfl, hframe, ?_⟩
  · rw [length_append, length_append, ← Nat.add_assoc, ← Nat.add_assoc]
    rfl
  · have hold := hready.of_frame hframe
    refine ⟨hold.ground, fun v hv => ?_, ?_, hold.constituents_length, hold.cursors_length,
      hold.core_length⟩
    · by_cases hbd : v ∈ boundSoFar
      · rw [← heq hbd]
        exact hold.slots v hbd
      · obtain ⟨i, k, hi, hk, hval⟩ := hcopy.new v hv hbd
        rw [Nat.zero_add, hfits.getElem? hk] at hval
        exact ⟨i, hi, hval⟩
    · have hset :
        (m.registers.unionConstituents.set dependencySets.length (some dependencySet)).take
          (dependencySets.length + 1) = dependencySets.map some ++ [some dependencySet] := by
        rw [take_set, take_add_one, hready.constituents, getElem?_eq_getElem hconst]
        simp
      rw [length_append, map_append]
      exact hset

end loopBody

variable (termsToNodes) in
/-- The derivation of a head under a match: the arguments are the images of the head terms, and the
branching points are those of the tuples. -/
structure Records (dependencySets : List PermanentDependencySet) (σ : Variable → NodeId)
    (headClause : DLClause)
    (d : Derivation) : Prop where
  headPredicates : d.headPredicates = headClause.headAtoms.map Atom.dlPredicate
  arguments : (headClause.headAtoms.flatMap Atom.arguments).map (Term.object termsToNodes σ) =
    d.arguments.map fun node => some (.node node)
  dependencySet : ∀ b, b ∈ d.dependencySet.branchingPoints ↔ ∃ s ∈ dependencySets,
    b ∈ s.branchingPoints

section heads

variable {boundSoFar : List Variable} {σ : Variable → NodeId} {m : Machine}
  {dependencySets : List PermanentDependencySet}
  (hready : Ready g p rawKey termsToNodes boundSoFar σ dependencySets m)
  (hcompl : dependencySets.length = p.retrievals.length)

include hready

omit hclash in
theorem Ready.slotOf_lt {v : Variable} (hv : v ∈ boundSoFar) {slot : ℕ}
    (hslot : g.slotOf (.variable v) = some slot) :
    slot < m.registers.coreVariables.length := by
  obtain ⟨i, hi, -⟩ := hready.slots v hv
  rw [ClauseGroup.slotOf, Term.asVariable, map_some, hi] at hslot
  obtain rfl := some.inj hslot
  rw [hready.core_length]
  exact ClauseGroup.indexOf_lt hi

include hcompl

omit hclash in
/-- A derivation from the slots of bound variables is recorded, with the union of all sets. -/
theorem Ready.derive_eq (headPredicates : List DLPredicate) {terms : List Term} {slots : List ℕ}
    (coreSlots : List (Option ℕ)) (hslots : terms.mapM g.slotOf = some slots)
    (hbd : ∀ v, .variable v ∈ terms → v ∈ boundSoFar)
    (hcore : ∀ slot, some slot ∈ coreSlots → slot < m.registers.coreVariables.length) :
    ∃ d : Derivation, derive headPredicates slots coreSlots m = some (m.record d).next ∧
      d.headPredicates = headPredicates ∧ terms.map (Term.object termsToNodes σ) =
      (d.arguments.map fun node => some (TableauObject.node node)) ∧
      ∀ b, b ∈ d.dependencySet.branchingPoints ↔ ∃ s ∈ dependencySets, b ∈ s.branchingPoints := by
  obtain ⟨names, rfl, hnodes⟩ := hready.mapM_nodeAt hslots hbd
  obtain ⟨isCore, hisCore⟩ : ∃ isCore : List Bool,
      coreSlots.mapM (fun slot => slot.elim (some true) fun i => m.registers.coreVariables[i]?) =
        some isCore := by
    clear hslots hbd
    induction coreSlots with
    | nil => exact ⟨[], rfl⟩
    | cons slot coreSlots ih =>
      obtain ⟨isCore, hisCore⟩ := ih fun slot hslot => hcore slot (mem_cons_of_mem _ hslot)
      obtain ⟨b, hb⟩ : ∃ b : Bool, (slot.elim (some true) fun i => m.registers.coreVariables[i]?) =
          some b := by
        cases slot with
        | none => exact ⟨true, rfl⟩
        | some i => exact ⟨_, getElem?_eq_getElem (hcore i mem_cons_self)⟩
      refine ⟨b :: isCore, ?_⟩
      rw [Library.mapM_eq_some_iff] at hisCore ⊢
      exact .cons hb hisCore
  refine ⟨⟨headPredicates, names.map σ, isCore, m.unionDependencySet⟩, ?_, rfl, ?_, fun b => ?_⟩
  · rw [derive, hnodes, bind_eq_bind, bind_some, hisCore]
    rfl
  · rw [List.map_map, List.map_map]
    rfl
  · have hall : m.registers.unionConstituents = dependencySets.map some := by
      rw [← hready.constituents, hcompl, ← hready.constituents_length, take_length]
    rw [Machine.unionDependencySet, PermanentDependencySet.mem_permanentUnionOf, hall]
    simp

variable (tableau deltaObjects deltaDependencySet) in
omit hclash in
theorem Ready.execute_head {headClause : DLClause} {worker : Worker}
    (hwork : g.DerivesHead p headClause.headAtoms worker)
    (hbd : ∀ atom ∈ headClause.headAtoms, ∀ v ∈ atom.variables, v ∈ boundSoFar) :
    ∃ d, execute p tableau deltaObjects deltaDependencySet worker m = some (m.record d).next ∧
      Records termsToNodes dependencySets σ headClause d := by
  obtain ⟨headAtoms, bodyAtoms⟩ := headClause
  dsimp only at hwork hbd
  have hterms : ∀ v, .variable v ∈ headAtoms.flatMap Atom.arguments → v ∈ boundSoFar := by
    intro v hv
    obtain ⟨atom, hatom, hv⟩ := mem_flatMap.mp hv
    exact hbd atom hatom v (mem_variables_iff.mpr hv)
  cases hwork with
  | clash =>
    obtain ⟨d, hd, hpreds, hargs, hset⟩ := hready.derive_eq hcompl [] [] (mapM_nil) nofun nofun
    exact ⟨d, hd, hpreds, hargs, hset⟩
  | @fact atom worker hfact =>
    rw [flatMap_singleton] at hterms
    obtain ⟨slots, hslots, hfact⟩ := bind_eq_some_iff.mp hfact
    -- The number of slots decides the worker; only a single argument has a core flag.
    have hder : ∃ coreSlots,
      (∀ slot, some slot ∈ coreSlots → slot < m.registers.coreVariables.length) ∧
        execute p tableau deltaObjects deltaDependencySet worker m =
          derive [atom.dlPredicate] slots coreSlots m := by
      split at hfact
      · rename_i slot
        cases hfact
        refine ⟨[some slot], fun slot' hslot' => ?_, rfl⟩
        obtain ⟨rfl⟩ := mem_singleton.mp hslot'
        obtain ⟨term, hterm, hslot⟩ :=
          Library.exists_of_forall₂_right (Library.mapM_eq_some_iff.mp hslots)
          mem_cons_self
        rcases term with v | _ | _
        · exact hready.slotOf_lt (hterms v hterm) hslot
        · cases hslot
        · cases hslot
      · cases hfact
        exact ⟨[none], by simp, rfl⟩
      · cases hfact
        exact ⟨[none], by simp, rfl⟩
      · cases hfact
    obtain ⟨coreSlots, hcore, hexec⟩ := hder
    obtain ⟨d, hd, hpreds, hargs, hset⟩ :=
      hready.derive_eq hcompl [atom.dlPredicate] coreSlots hslots
      hterms hcore
    refine ⟨d, hexec.trans hd, hpreds, ?_, hset⟩
    rw [flatMap_singleton]
    exact hargs
  | @disjunction headAtoms j worker hlen hwork hj =>
    obtain ⟨slots, hslots, hwork⟩ := bind_eq_some_iff.mp hwork
    obtain rfl := some.inj hwork
    have hcore : ∀ slot, some slot ∈ (headAtoms.map fun atom : Atom =>
        if atom.dlPredicate.arity = 1 then atom.variables.head?.bind g.indexOf else none) →
          slot < m.registers.coreVariables.length := by
      intro slot hslot
      obtain ⟨atom, -, hslot⟩ := List.mem_map.mp hslot
      split at hslot
      · obtain ⟨v, -, hv⟩ := bind_eq_some_iff.mp hslot
        rw [hready.core_length]
        exact ClauseGroup.indexOf_lt hv
      · cases hslot
    obtain ⟨d, hd, hpreds, hargs, hset⟩ :=
      hready.derive_eq hcompl (headAtoms.map Atom.dlPredicate) _
      hslots hterms hcore
    refine ⟨d, ?_, hpreds, hargs, hset⟩
    rw [execute, hj]
    exact hd

theorem Ready.reaches_heads {headClauses : List DLClause} {last : ℕ}
    (hlay : g.HeadsLayout p headClauses m.programCounter last)
    (hbd : ∀ headClause ∈ headClauses, ∀ atom ∈ headClause.headAtoms, ∀ v ∈ atom.variables,
      v ∈ boundSoFar) :
    ∃ new, Reaches p tableau deltaObjects deltaDependencySet m
        ({ m with derivations := m.derivations ++ new }.goTo last) ∧
      List.Forall₂ (fun headClause d => Records termsToNodes dependencySets σ headClause d)
        headClauses new := by
  induction headClauses generalizing m with
  | nil =>
    cases hlay
    refine ⟨[], ?_, .nil⟩
    rw [append_nil]
    exact Steps.refl
  | cons headClause headClauses ih =>
    cases hlay with
    | cons hwork hat hrest =>
      have hready₁ : Ready g p rawKey termsToNodes boundSoFar σ dependencySets m.next :=
        hready.of_frame (.of_eq rfl rfl)
      obtain ⟨d, hd, hrecs⟩ :=
        hready₁.execute_head tableau deltaObjects deltaDependencySet hcompl hwork
        (hbd headClause mem_cons_self)
      have hfst : Reaches p tableau deltaObjects deltaDependencySet m m.next :=
        Reaches.of_execute hclash hat.head rfl
      have hsnd := Reaches.of_execute (m := m.next) hclash hat.tail.head hd
      have hthird : Reaches p tableau deltaObjects deltaDependencySet (m.next.record d).next
          (m.next.record d).next.next := Reaches.of_execute hclash hat.tail.tail.head rfl
      have hready₃ : Ready g p rawKey termsToNodes boundSoFar σ dependencySets
        (m.next.record d).next.next :=
        hready.of_frame (.of_eq rfl rfl)
      obtain ⟨new, hrun, hnew⟩ := ih hready₃ hrest fun c hc => hbd c (mem_cons_of_mem _ hc)
      refine ⟨d :: new, ?_, .cons hrecs hnew⟩
      have hjoin := Steps.trans hfst (Steps.trans hsnd (Steps.trans hthird hrun))
      have heq : (m.next.record d).next.next.derivations ++ new = m.derivations ++ d :: new :=
        append_assoc _ _ _
      rw [heq] at hjoin
      exact hjoin

end heads

section positions

omit hclash

variable {boundSoFar : List Variable} {σ : Variable → NodeId} {m : Machine}
  {dependencySets : List PermanentDependencySet} {atom : Atom} {objects : List TableauObject}
  {positions : List (Option ℕ)}
  (hready : Ready g p rawKey termsToNodes boundSoFar σ dependencySets m)

include hready

/-- A position holds what the term stands for; only variables that are not bound have none. -/
theorem Ready.bindingPosition {term : Term} {position : Option ℕ}
    (h : g.bindingPosition boundSoFar term = some position) :
    (∃ i o, position = some i ∧ m.values[i]? = some (some o) ∧ term.object termsToNodes σ = some o ∧
        ∀ v, term = .variable v → v ∈ boundSoFar) ∨
      position = none ∧ ∃ v, term = .variable v ∧ v ∉ boundSoFar := by
  have hgr : ∀ other : Term, (∀ v, other ≠ .variable v) →
      (g.manager.bodyNonvariableTermsToIndexes.lookup other).map some = some position →
      ∃ i o, position = some i ∧ m.values[i]? = some (some o) ∧
        (termsToNodes other).map .node = some o ∧
        ∀ v, other = .variable v → v ∈ boundSoFar := by
    intro other hoth hlook
    obtain ⟨i, hi, rfl⟩ := map_eq_some_iff.mp hlook
    obtain ⟨-, node, hnode, hval⟩ := hready.ground.terms other i hi
    exact ⟨i, .node node, rfl, hval, by rw [hnode]; rfl, fun v hv => absurd hv (hoth v)⟩
  rcases term with v | individual | constant
  · rw [ClauseGroup.bindingPosition] at h
    obtain rfl := some.inj h
    by_cases hv : v ∈ boundSoFar
    · obtain ⟨i, hi, hval⟩ := hready.slots v hv
      rw [if_pos hv]
      refine .inl ⟨i, .node (σ v), hi, hval, rfl, fun w hw => ?_⟩
      cases hw
      exact hv
    · rw [if_neg hv]
      exact .inr ⟨rfl, v, rfl, hv⟩
  · exact .inl (hgr (.individual individual) nofun h)
  · exact .inl (hgr (.constant constant) nofun h)

variable (h : g.bindingPositions boundSoFar atom = some positions)

include h

theorem Ready.bindingPositions_eq : ∃ i arguments, positions = some i :: arguments ∧
    m.values[i]? = some (some (predicateToStoredLabel rawKey atom.dlPredicate)) ∧
    List.Forall₂ (fun term position => g.bindingPosition boundSoFar term = some position)
    atom.arguments arguments := by
  obtain ⟨i, hi, h⟩ := bind_eq_some_iff.mp h
  obtain ⟨arguments, hargs, h⟩ := bind_eq_some_iff.mp h
  obtain rfl := some.inj h
  exact ⟨i, arguments, rfl, (hready.ground.predicates _ i hi).2, Library.mapM_eq_some_iff.mp hargs⟩

theorem Ready.length_positions : positions.length = atom.arguments.length + 1 := by
  obtain ⟨i, arguments, rfl, -, hargs⟩ := hready.bindingPositions_eq h
  rw [length_cons, hargs.length_eq]

theorem Ready.positions_set {i : ℕ} (hi : some i ∈ positions) : ∃ o,
    m.values[i]? = some (some o) := by
  obtain ⟨i', arguments, rfl, hlab, hargs⟩ := hready.bindingPositions_eq h
  rcases mem_cons.mp hi with hi | hi
  · obtain rfl := some.inj hi
    exact ⟨_, hlab⟩
  · obtain ⟨term, -, hterm⟩ := Library.exists_of_forall₂_right hargs hi
    rcases hready.bindingPosition hterm with ⟨i'', o, heq, hval, -⟩ | ⟨heq, -⟩
    · obtain rfl := some.inj heq
      exact ⟨o, hval⟩
    · cases heq

/-- The values at the positions are those of a tuple just if it fits on what was seen. -/
theorem Ready.positions_iff (hlen : objects.length = atom.arguments.length + 1) :
    (∀ (column i : ℕ), positions[column]? = some (some i) → m.values[i]? = some objects[column]?) ↔
      atom.FitsSeen rawKey termsToNodes boundSoFar σ objects := by
  obtain ⟨label, arguments, rfl, hlab, hargs⟩ := hready.bindingPositions_eq h
  constructor
  · intro hvals
    refine ⟨hlen, ?_, fun k term hk hbd => ?_⟩
    · have hval := hvals 0 label rfl
      exact (some.inj (hlab.symm.trans hval)).symm
    · obtain ⟨hlt, rfl⟩ := List.getElem?_eq_some_iff.mp hk
      have hlt' : k < arguments.length := by rw [← hargs.length_eq]; exact hlt
      have hterm := hargs.get hlt hlt'
      rcases hready.bindingPosition hterm with ⟨i, o, heq, hval, hobj, -⟩ | ⟨-, v, hv, hnot⟩
      · have hcol := hvals (k + 1) i (by
          rw [getElem?_cons_succ, getElem?_eq_getElem hlt']
          exact congrArg some heq)
        rw [hval] at hcol
        exact (some.inj hcol).symm.trans hobj.symm
      · exact absurd (hbd v hv) hnot
  · intro hfits column i hi
    cases column with
    | zero =>
      obtain rfl := some.inj (some.inj hi)
      rw [hfits.label, hlab]
    | succ k =>
      rw [getElem?_cons_succ] at hi
      obtain ⟨hlt', hi⟩ := List.getElem?_eq_some_iff.mp hi
      have hlt : k < atom.arguments.length := by rw [hargs.length_eq]; exact hlt'
      have hterm := hargs.get hlt hlt'
      rcases hready.bindingPosition hterm with ⟨i', o, heq, hval, hobj, hbd⟩ | ⟨heq, -⟩
      · rw [get_eq_getElem, hi] at heq
        obtain rfl := some.inj heq
        rw [hval, hfits.columns k _ (getElem?_eq_getElem hlt) hbd]
        exact congrArg some hobj.symm
      · rw [get_eq_getElem, hi] at heq
        cases heq

end positions

/-! ## Runs through the atoms -/

variable (g) in
/-- What compilation and the order of a body guarantee from some atoms on, after the variables seen
before: comparisons come after their variables, variables that are needed later have slots, and
the head variables are seen in the end. -/
inductive BodyFits : List Variable → List Atom → Prop
  | nil {seen} : (∀ v ∈ headVariables g.headDlClauses, v ∈ seen) → BodyFits seen []
  | comparison {seen atom atoms} : isPredicateWithExtension atom.dlPredicate = false →
    atom.arguments ≠ [] →
      atom.variables ⊆ seen → BodyFits seen atoms → BodyFits seen (atom :: atoms)
  | extension {seen atom atoms} : isPredicateWithExtension atom.dlPredicate = true →
      (∃ kind, Tableau.tableKind (atom.arguments.length + 1) = some kind) →
      (∀ v ∈ atom.variables, occursInBodyAtoms atoms v = true ∨ v ∈ headVariables g.headDlClauses →
        v ∈ g.storedVariables) →
      BodyFits (seen ++ atom.variables) atoms → BodyFits seen (atom :: atoms)

variable (g) in
/-- The variables that were seen and are needed again are bound. -/
structure Needed (boundSoFar seen : List Variable) (atoms : List Atom) : Prop where
  subset : boundSoFar ⊆ seen
  bound : ∀ v ∈ seen, occursInBodyAtoms atoms v = true ∨ v ∈ headVariables g.headDlClauses →
    v ∈ boundSoFar

variable (tableau) in
/-- The dependency sets of the tuples of a match. -/
def matchDependencySets (atoms : List Atom) (tuples : List ℕ) : List PermanentDependencySet :=
  List.zipWith (fun atom t => tableau.getDependencySet (atom.arguments.length + 1) t)
    (atoms.filter fun atom => isPredicateWithExtension atom.dlPredicate) tuples

variable (g tableau termsToNodes) in
/-- For every match all heads are recorded, in order. -/
def Recorded (dependencySets : List PermanentDependencySet) (atoms : List Atom)
    (found : List (List ℕ × (Variable → NodeId))) (new : List Derivation) : Prop :=
  List.Forall₂ (fun q d =>
      Records termsToNodes (dependencySets ++ matchDependencySets tableau atoms q.1.1) q.1.2 q.2 d)
    (found ×ˢ g.headDlClauses) new

omit hclash in
theorem Recorded.append {dependencySets : List PermanentDependencySet} {atoms : List Atom}
    {found found' : List (List ℕ × (Variable → NodeId))} {new new' : List Derivation}
    (h : Recorded g tableau termsToNodes dependencySets atoms found new)
    (h' : Recorded g tableau termsToNodes dependencySets atoms found' new') :
    Recorded g tableau termsToNodes dependencySets atoms (found ++ found') (new ++ new') := by
  have hprod : (found ++ found') ×ˢ g.headDlClauses = found ×ˢ g.headDlClauses ++
    found' ×ˢ g.headDlClauses :=
    flatMap_append
  unfold Recorded
  rw [hprod]
  exact rel_append h h'

omit hclash in
/-- The matches of the later atoms, with a tuple for the first. -/
theorem Recorded.join {dependencySets : List PermanentDependencySet} {atom : Atom}
    {atoms : List Atom} {t : ℕ}
    {found : List (List ℕ × (Variable → NodeId))} {new : List Derivation}
    (hext : isPredicateWithExtension atom.dlPredicate = true)
    (h : Recorded g tableau termsToNodes
      (dependencySets ++ [tableau.getDependencySet (atom.arguments.length + 1) t]) atoms
      found new) :
    Recorded g tableau termsToNodes dependencySets (atom :: atoms)
    (found.map fun m => (t :: m.1, m.2)) new := by
  have hprod : (found.map fun m => (t :: m.1, m.2)) ×ˢ g.headDlClauses =
      (found ×ˢ g.headDlClauses).map fun q => ((t :: q.1.1, q.1.2), q.2) := by
    change List.flatMap _ _ = List.map _ (List.flatMap _ _)
    rw [flatMap_map, map_flatMap]
    simp only [List.map_map]
    rfl
  unfold Recorded
  rw [hprod, forall₂_map_left_iff]
  refine List.Forall₂.imp (fun q d hrecs => ?_) h
  have hsets : dependencySets ++ matchDependencySets tableau (atom :: atoms) (t :: q.1.1) =
      dependencySets ++ [tableau.getDependencySet (atom.arguments.length + 1) t] ++
        matchDependencySets tableau atoms q.1.1 := by
    rw [matchDependencySets, filter_cons, if_pos hext, zipWith_cons_cons, append_assoc]
    rfl
  dsimp only
  rw [hsets]
  exact hrecs

variable (g p tableau deltaObjects deltaDependencySet rawKey termsToNodes) in
/-- The program runs through some atoms and records the heads of their matches. -/
def Simulates (atoms : List Atom) (boundSoFar : List Variable) (r base last : ℕ) : Prop :=
  ∀ m σ seen dependencySets, m.programCounter = base → dependencySets.length = r → 0 < r →
    Ready g p rawKey termsToNodes boundSoFar σ dependencySets m → BodyFits g seen atoms →
      Needed g boundSoFar seen atoms →
    r + (atoms.filter fun atom => isPredicateWithExtension atom.dlPredicate).length =
      p.retrievals.length →
    ∃ m' found new, Reaches p tableau deltaObjects deltaDependencySet m m' ∧
      m'.programCounter = last ∧
      Frame g boundSoFar r m m' ∧ m'.derivations = m.derivations ++ new ∧
      Enumerates rawKey termsToNodes tableau seen σ atoms found ∧
      Recorded g tableau termsToNodes dependencySets atoms found new

omit hclash in
theorem length_markDeeper (values : List (Option TableauObject)) (root : NodeId) (variableCount : ℕ)
    (coreVariables : List Bool) :
    (markDeeper tableau values root variableCount coreVariables).length = coreVariables.length := by
  induction variableCount generalizing coreVariables with
  | zero => rfl
  | succ variableIndex ih =>
    rw [markDeeper]
    split
    · exact ih _
    · rw [ih]
      split
      · exact length_set
      · rfl

variable (deltaObjects deltaDependencySet) in
/-- The worker for core variables, if it is there, changes only them. -/
theorem reaches_coreWorkers {boundSoFar : List Variable} {σ : Variable → NodeId} {m : Machine}
    {dependencySets : List PermanentDependencySet}
    (hready : Ready g p rawKey termsToNodes boundSoFar σ dependencySets m)
    (hat : p.At m.programCounter g.coreWorkers) :
    ∃ m', Reaches p tableau deltaObjects deltaDependencySet m m' ∧
      m'.programCounter = m.programCounter + g.coreWorkers.length ∧ m'.derivations = m.derivations ∧
      Frame g boundSoFar dependencySets.length m m' := by
  unfold ClauseGroup.coreWorkers at hat ⊢
  split at hat
  · rename_i hcore
    rw [if_pos hcore]
    have hwidth := hready.ground.width
    have hexec : execute p tableau deltaObjects deltaDependencySet
        (.computeCoreVariables g.storedVariables.length) m = some (Machine.next { m with
          registers := { m.registers with
            coreVariables := computeCoreVariables tableau m.values g.storedVariables.length
              m.registers.coreVariables } }) := by
      rw [execute, if_neg (by omega)]
    refine ⟨_, Reaches.of_execute hclash hat.head hexec, rfl, rfl, rfl, fun _ _ => rfl, rfl, rfl,
      rfl, rfl, ?_⟩
    change (computeCoreVariables tableau m.values _ m.registers.coreVariables).length = _
    unfold computeCoreVariables
    split
    · rfl
    · exact length_markDeeper _ _ _ _
  · rename_i hcore
    rw [if_neg hcore]
    exact ⟨m, Steps.refl, rfl, rfl, .of_eq rfl rfl⟩

theorem simulates_heads {boundSoFar : List Variable} {r base last : ℕ}
    (hat : p.At base g.coreWorkers)
    (hheads : g.HeadsLayout p g.headDlClauses (base + g.coreWorkers.length) last) :
    Simulates g p tableau deltaObjects deltaDependencySet rawKey termsToNodes
    [] boundSoFar r base last := by
  intro m σ seen dependencySets hbase hr _ hready hfits hneed hcount
  subst hbase hr
  obtain ⟨m₁, hrun₁, hpc₁, hders₁, hframe₁⟩ :=
    reaches_coreWorkers deltaObjects deltaDependencySet hclash
    hready hat
  rw [← hpc₁] at hheads
  have hbd : ∀ headClause ∈ g.headDlClauses, ∀ atom ∈ headClause.headAtoms, ∀ v ∈ atom.variables,
      v ∈ boundSoFar := by
    intro headClause hheadClause atom hatom v hv
    have hhead : v ∈ headVariables g.headDlClauses := by
      rw [headVariables, mem_foldl_insertSet]
      exact .inr (mem_flatMap.mpr ⟨atom, mem_flatMap.mpr ⟨headClause, hheadClause, hatom⟩, hv⟩)
    cases hfits with
    | nil hseen => exact hneed.bound v (hseen v hhead) (.inr hhead)
  obtain ⟨new, hrun, hnew⟩ := (hready.of_frame hframe₁).reaches_heads hclash hcount hheads hbd
  refine ⟨_, [([], σ)], new, Steps.trans hrun₁ hrun, rfl, hframe₁.trans (.of_eq rfl rfl), ?_,
    enumerates_nil, ?_⟩
  · exact congrArg (· ++ new) hders₁
  · have hprod : ([([], σ)] : List (List ℕ × (Variable → NodeId))) ×ˢ g.headDlClauses =
        g.headDlClauses.map fun headClause => (([], σ), headClause) := by
      change List.flatMap _ _ = _
      rw [flatMap_singleton]
    unfold Recorded
    rw [hprod, forall₂_map_left_iff]
    refine List.Forall₂.imp (fun headClause d hrecs => ?_) hnew
    rw [matchDependencySets, filter_nil, zipWith_nil_left, append_nil]
    exact hrecs

section comparisons

variable {atom : Atom} {atoms : List Atom} {boundSoFar : List Variable} {r base last : ℕ}

theorem simulates_comparison {w : Worker} (hcmp : isPredicateWithExtension atom.dlPredicate = false)
    (hw : p.workers[base]? = some w)
    (hexec : ∀ m σ dependencySets, Ready g p rawKey termsToNodes boundSoFar σ dependencySets m →
      atom.variables ⊆ boundSoFar → atom.arguments ≠ [] → ∃ condition : Bool,
        execute p tableau deltaObjects deltaDependencySet w m = some
        (m.branch condition (last : ℕ)) ∧ (condition = true ↔ tableau.ComparisonHolds σ atom))
    (hrest : Simulates g p tableau deltaObjects deltaDependencySet rawKey termsToNodes atoms
      boundSoFar r (base + 1) last) :
    Simulates g p tableau deltaObjects deltaDependencySet rawKey termsToNodes
    (atom :: atoms) boundSoFar r base last := by
  intro m σ seen dependencySets hbase hr hpos hready hfits hneed hcount
  subst hbase
  cases hfits with
  | extension hext =>
    rw [hcmp] at hext
    cases hext
  | comparison _ hargs hseen hfits =>
    have hoccurs : ∀ v ∈ atom.variables, occursInBodyAtoms (atom :: atoms) v = true := by
      intro v hv
      rw [occursInBodyAtoms, any_cons, contains_iff_mem.mpr hv, Bool.true_or]
    have hlater : ∀ v, occursInBodyAtoms atoms v = true →
        occursInBodyAtoms (atom :: atoms) v = true := by
      intro v hv
      rw [occursInBodyAtoms] at hv
      rw [occursInBodyAtoms, any_cons, hv, Bool.or_true]
    obtain ⟨condition, hcondition, hholds⟩ := hexec m σ dependencySets hready
      (fun v hv => hneed.bound v (hseen hv) (.inl (hoccurs v hv))) hargs
    have hstep := Reaches.of_execute hclash hw hcondition
    rw [filter_cons, hcmp, if_neg Bool.false_ne_true] at hcount
    cases condition with
    | true =>
      obtain ⟨m', found, new, hrun, hpc, hframe, hders, henum, hrec⟩ :=
        hrest m.next σ seen dependencySets rfl hr hpos (hready.of_frame (.of_eq rfl rfl)) hfits
          ⟨hneed.subset, fun v hv hlast => hneed.bound v hv (hlast.imp_left (hlater v))⟩ hcount
      have hsame : Frame g boundSoFar r m m.next := .of_eq rfl rfl
      refine ⟨m', found, new, Steps.trans hstep hrun, hpc, hsame.trans hframe, hders,
        henum.keep hcmp hseen (hholds.mp rfl), ?_⟩
      unfold Recorded matchDependencySets at hrec ⊢
      rw [filter_cons, hcmp, if_neg Bool.false_ne_true]
      exact hrec
    | false =>
      have hfails : ¬ tableau.ComparisonHolds σ atom := fun h => Bool.false_ne_true (hholds.mpr h)
      refine ⟨_, [], [], hstep, Int.toNat_natCast last, .of_eq rfl rfl, (append_nil _).symm,
        enumerates_drop hcmp hseen hfails, .nil⟩

omit hclash in
/-- The slots of a comparison hold the nodes of its variables. -/
theorem Ready.comparison_nodes {σ : Variable → NodeId} {m : Machine}
    {dependencySets : List PermanentDependencySet}
    (hready : Ready g p rawKey termsToNodes boundSoFar σ dependencySets m)
    (hbd : atom.variables ⊆ boundSoFar)
    {slots : List ℕ} (hslots : atom.arguments.mapM g.slotOf = some slots) :
    slots.mapM (Hermit.nodeAt m.values) = some (atom.variables.map σ) ∧
    atom.variables.length = atom.arguments.length := by
  obtain ⟨names, hargs, hnodes⟩ := hready.mapM_nodeAt hslots fun v hv =>
      hbd (mem_variables_iff.mpr hv)
  have hvars : atom.variables = names := by
    rw [Atom.variables, hargs, filterMap_map]
    exact filterMap_some
  rw [hvars, hargs, length_map]
  exact ⟨hnodes, rfl⟩

theorem simulates_lessEqual {var1 var2 : ℕ} (hp : atom.dlPredicate = .nodeIdLessEqualThan)
    (hslots : atom.arguments.mapM g.slotOf = some [var1, var2])
    (hw : p.workers[base]? = some (.branchIfNotNodeIdLessEqualThan (last : ℕ) var1 var2))
    (hrest : Simulates g p tableau deltaObjects deltaDependencySet rawKey termsToNodes atoms
      boundSoFar r (base + 1) last) :
    Simulates g p tableau deltaObjects deltaDependencySet rawKey termsToNodes
    (atom :: atoms) boundSoFar r base last := by
  refine simulates_comparison hclash (by rw [hp]; rfl) hw
    (fun m σ dependencySets hready hbd _ => ?_) hrest
  obtain ⟨hnodes, -⟩ := hready.comparison_nodes hbd hslots
  obtain ⟨node1, nodes, hnode1, hnodes, heq⟩ :=
    forall₂_cons_left_iff.mp (Library.mapM_eq_some_iff.mp hnodes)
  obtain ⟨node2, none, hnode2, hnone, rfl⟩ := forall₂_cons_left_iff.mp hnodes
  obtain rfl := forall₂_nil_left_iff.mp hnone
  refine ⟨decide ((tableau.nodes node1).nodeId ≤ (tableau.nodes node2).nodeId), ?_, ?_⟩
  · rw [execute, hnode1, bind_eq_bind, bind_some, hnode2]
    rfl
  · have hids : (atom.variables.map fun v => (tableau.nodes (σ v)).nodeId) =
        [(tableau.nodes node1).nodeId, (tableau.nodes node2).nodeId] := by
      have hmap := congrArg (List.map fun node => (tableau.nodes node).nodeId) heq
      rw [List.map_map] at hmap
      exact hmap
    unfold Tableau.ComparisonHolds
    rw [hp, hids, decide_eq_true_iff]
    simp

omit hclash in
theorem compareIds_eq (ids : List ℤ) (lastId : ℤ) (strictlyAscending allEqual : Bool) :
    compareIds ids lastId (strictlyAscending, allEqual) =
      (strictlyAscending && decide ((lastId :: ids).IsChain (· < ·)),
        allEqual && decide ((lastId :: ids).IsChain (· = ·))) := by
  induction ids generalizing lastId strictlyAscending allEqual with
  | nil => simp [compareIds]
  | cons id ids ih =>
    rw [compareIds, ih]
    have hstrict : (!decide (lastId ≥ id)) = decide (lastId < id) := by
      rw [← decide_not]
      exact decide_eq_decide.mpr not_le
    have hequal : (!decide (id ≠ lastId)) = decide (lastId = id) := by
      rw [← decide_not]
      exact decide_eq_decide.mpr (not_not.trans eq_comm)
    rw [hstrict, hequal, Bool.and_assoc, Bool.and_assoc, ← Bool.decide_and, ← Bool.decide_and]
    simp only [isChain_cons_cons]

omit hclash in
theorem idsAscendingOrEqual_eq {ids : List ℤ} (h : ids ≠ []) : ∃ condition,
    idsAscendingOrEqual ids = some condition ∧
    (condition = true ↔ Xor (ids.IsChain (· < ·)) (ids.IsChain (· = ·))) := by
  cases ids with
  | nil => exact absurd rfl h
  | cons first ids =>
    refine ⟨_, rfl, ?_⟩
    rw [compareIds_eq, Bool.true_and, Bool.true_and]
    by_cases hstrict : (first :: ids).IsChain (· < ·) <;> by_cases hequal :
      (first :: ids).IsChain (· = ·) <;>
      simp [hstrict, hequal, Xor]

theorem simulates_ascending {arity j : ℕ} {slots : List ℕ}
    (hp : atom.dlPredicate = .nodeIDsAscendingOrEqual arity)
    (hslots : atom.arguments.mapM g.slotOf = some slots) (hj : p.nodeVarLists[j]? = some slots)
    (hw : p.workers[base]? = some (.branchIfNotNodeIdsAscendingOrEqual (last : ℕ) j))
    (hrest : Simulates g p tableau deltaObjects deltaDependencySet rawKey termsToNodes atoms
      boundSoFar r (base + 1) last) :
    Simulates g p tableau deltaObjects deltaDependencySet rawKey termsToNodes
    (atom :: atoms) boundSoFar r base last := by
  refine simulates_comparison hclash (by rw [hp]; rfl) hw
    (fun m σ dependencySets hready hbd hnonempty => ?_) hrest
  obtain ⟨hnodes, hlen⟩ := hready.comparison_nodes hbd hslots
  have hids : ((atom.variables.map σ).map fun node => (tableau.nodes node).nodeId) ≠ [] := by
    rw [← length_pos_iff, length_map, length_map, hlen]
    exact length_pos_iff.mpr hnonempty
  obtain ⟨condition, hcondition, hiff⟩ := idsAscendingOrEqual_eq hids
  refine ⟨condition, ?_, ?_⟩
  · rw [execute, hj, bind_eq_bind, bind_some, hnodes, bind_eq_bind, bind_some, hcondition]
    rfl
  · rw [hiff, List.map_map]
    unfold Tableau.ComparisonHolds
    rw [hp]
    rfl

end comparisons

/-! ### Atoms with an extension -/

section extensions

variable {atom : Atom} {atoms : List Atom} {boundSoFar : List Variable} {base next : ℕ}
  {positions : List (Option ℕ)} {dependencySets : List PermanentDependencySet}
  (hext : isPredicateWithExtension atom.dlPredicate = true)
  (hretr : p.retrievals[dependencySets.length]? =
    some ⟨atom.arguments.length + 1, positions, .extensionThis⟩)
  (hat : p.At base (.openRetrieval dependencySets.length ::
    .hasMoreRetrieval (next + 2 : ℕ) dependencySets.length ::
    g.loopBody boundSoFar dependencySets.length next atom))
  (hend : p.At next [.nextRetrieval dependencySets.length, .jumpTo (base + 1 : ℕ)])
  (hrest : Simulates g p tableau deltaObjects deltaDependencySet rawKey termsToNodes atoms
    (g.generateBindings dependencySets.length atom.arguments 0 boundSoFar).2
    (dependencySets.length + 1)
    (base + 2 + (g.loopBody boundSoFar dependencySets.length next atom).length) next)

variable {indices : List ℕ} {position : ℕ} {seen : List Variable}

variable (deltaObjects deltaDependencySet) in
omit hclash in
include hretr in
theorem reads_current {m : Machine} {t : ℕ} {objects : List TableauObject}
    (hpos : 0 < dependencySets.length)
    (hcursor : m.registers.cursors[dependencySets.length]? = some ⟨indices, position⟩)
    (ht : indices[position]? = some t)
    (hobjs : tableau.tupleObjects (atom.arguments.length + 1) t = some objects) :
    Reads p tableau deltaObjects m dependencySets.length objects ∧
      ∀ m', m'.registers.cursors = m.registers.cursors →
        retrievalDependencySet p tableau deltaDependencySet m' dependencySets.length =
          some (tableau.getDependencySet (atom.arguments.length + 1) t) := by
  have hcur : ∀ m' : Machine, m'.registers.cursors = m.registers.cursors →
      currentTuple p m' dependencySets.length =
        some (⟨atom.arguments.length + 1, positions, .extensionThis⟩, t) := by
    intro m' hm'
    rw [currentTuple, hretr, bind_eq_bind, bind_some, hm', hcursor, bind_eq_bind, bind_some, ht]
    rfl
  constructor
  · intro column
    rw [retrievalObject, if_neg (by omega), hcur m rfl, bind_eq_bind, bind_some]
    dsimp only
    rw [hobjs]
    rfl
  · intro m' hm'
    rw [retrievalDependencySet, if_neg (by omega), hcur m' hm']
    rfl

omit hclash in
theorem Needed.after (hneed : Needed g boundSoFar seen (atom :: atoms))
    (hst : ∀ v ∈ atom.variables, occursInBodyAtoms atoms v = true ∨
      v ∈ headVariables g.headDlClauses → v ∈ g.storedVariables) :
    Needed g (g.generateBindings dependencySets.length atom.arguments 0 boundSoFar).2
    (seen ++ atom.variables) atoms where
  subset := by
    intro v hv
    rcases mem_generateBindings.mp hv with hv | ⟨hv, -⟩
    · exact mem_append_left _ (hneed.subset hv)
    · exact mem_append_right _ (mem_variables_iff.mpr hv)
  bound := by
    intro v hv hlast
    rw [mem_generateBindings]
    rcases mem_append.mp hv with hv | hv
    · left
      refine hneed.bound v hv (hlast.imp_left fun hoccurs => ?_)
      rw [occursInBodyAtoms] at hoccurs
      rw [occursInBodyAtoms, any_cons, hoccurs, Bool.or_true]
    · exact .inr ⟨mem_variables_iff.mp hv, hst v hv hlast⟩

omit hclash in
/-- On the variables of the next atom it is the same to have been seen and to be bound. -/
theorem Needed.mem_iff (h : Needed g boundSoFar seen (atom :: atoms)) {v : Variable}
    (hv : v ∈ atom.variables) : v ∈ boundSoFar ↔ v ∈ seen := by
  refine ⟨fun hbd => h.subset hbd, fun hseen => h.bound v hseen (.inl ?_)⟩
  rw [occursInBodyAtoms, any_cons, contains_iff_mem.mpr hv, Bool.true_or]

omit hclash in
/-- What was seen of the tuple can be extended to a map that it fits. -/
theorem Needed.exists_fits {σ : Variable → NodeId} {objects : List TableauObject}
    (hneed : Needed g boundSoFar seen (atom :: atoms)) (hact : tableau.Active objects)
    (hfits : atom.FitsSeen rawKey termsToNodes boundSoFar σ objects)
    (hagr : atom.ColumnsAgree boundSoFar objects) :
    ∃ σ', Set.EqOn σ σ' {v | v ∈ seen} ∧ atom.Fits rawKey termsToNodes σ' objects := by
  have hmem : ∀ (k : ℕ) (v : Variable), atom.arguments[k]? = some (.variable v) →
    (v ∈ boundSoFar ↔ v ∈ seen) :=
    fun k v hk => hneed.mem_iff (mem_variables_iff.mpr (mem_of_getElem? hk))
  apply Atom.FitsSeen.exists_fits
  · refine ⟨hfits.length_eq, hfits.label, fun k term hk hseen =>
      hfits.columns k term hk fun v hv => ?_⟩
    subst hv
    exact (hmem k v hk).mpr (hseen v rfl)
  · exact fun k hk => hact.exists_node hk
  · exact fun j k v hjk hj hk hv => hagr j k v hjk hj hk fun hbd =>
      hv ((hmem k v hk).mp hbd)

omit hclash in
theorem getElem?_of_take_eq {α : Type*} {l l' : List α} {i : ℕ}
    (h : l'.take (i + 1) = l.take (i + 1)) :
    l'[i]? = l[i]? := by
  have heq := congrArg (fun l => l[i]?) h
  rwa [getElem?_take_of_lt (Nat.lt_succ_self i), getElem?_take_of_lt (Nat.lt_succ_self i)] at heq

variable (deltaObjects deltaDependencySet boundSoFar) in
include hend in
/-- From the end of the inner atoms the loop takes the next tuple. -/
theorem reaches_next {m : Machine} (hpc : m.programCounter = next)
    (hcursor : m.registers.cursors[dependencySets.length]? = some ⟨indices, position⟩) :
    ∃ m', Reaches p tableau deltaObjects deltaDependencySet m m' ∧ m'.programCounter = base + 1 ∧
      m'.derivations = m.derivations ∧
      m'.registers.cursors[dependencySets.length]? = some ⟨indices, position + 1⟩ ∧
      Frame g boundSoFar dependencySets.length m m' := by
  have hlt := (List.getElem?_eq_some_iff.mp hcursor).1
  set m₁ : Machine := Machine.next { m with registers := { m.registers with
    cursors := m.registers.cursors.set dependencySets.length ⟨indices, position + 1⟩ } } with hm₁
  have hexec : execute p tableau deltaObjects deltaDependencySet
    (.nextRetrieval dependencySets.length) m = some m₁ := by
    rw [execute, hcursor, bind_eq_bind, bind_some, setSlot_eq hlt]
    rfl
  have hfst := Reaches.of_execute hclash (hpc ▸ hend.head) hexec
  have hpc₁ : m₁.programCounter = next + 1 := congrArg (· + 1) hpc
  have hjump : Reaches p tableau deltaObjects deltaDependencySet m₁ (m₁.jump (base + 1 : ℕ)) :=
    Reaches.of_execute hclash (hpc₁ ▸ hend.tail.head) rfl
  refine ⟨_, Steps.trans hfst hjump, Int.toNat_natCast _, rfl, getElem?_set_self hlt, ?_⟩
  exact ⟨rfl, fun _ _ => rfl, take_set_of_le le_rfl, length_set, rfl, rfl, rfl⟩

include hext hretr hat hend hrest

/-- The loop over the tuples that are left, from the check whether there are more. -/
theorem reaches_tuples {remaining : List ℕ} {m : Machine} {σ : Variable → NodeId}
    (hpos : 0 < dependencySets.length) (hpc : m.programCounter = base + 1)
    (hcursor : m.registers.cursors[dependencySets.length]? = some ⟨indices, position⟩)
    (hrem : indices.drop position = remaining) (hnd : remaining.Nodup)
    (hready : Ready g p rawKey termsToNodes boundSoFar σ dependencySets m)
    (hneed : Needed g boundSoFar seen (atom :: atoms))
    (hst : ∀ v ∈ atom.variables, occursInBodyAtoms atoms v = true ∨
      v ∈ headVariables g.headDlClauses →
      v ∈ g.storedVariables) (hfits : BodyFits g (seen ++ atom.variables) atoms)
      (hcount : dependencySets.length + 1 +
      (atoms.filter fun atom => isPredicateWithExtension atom.dlPredicate).length =
      p.retrievals.length)
    (htup : ∀ t ∈ remaining, tableau.InExtensionThis (atom.arguments.length + 1) t ∧
      ∃ objects, tableau.tupleObjects (atom.arguments.length + 1) t = some objects ∧
      tableau.Active objects ∧ atom.FitsSeen rawKey termsToNodes boundSoFar σ objects) :
    ∃ m' found new, Reaches p tableau deltaObjects deltaDependencySet m m' ∧
    m'.programCounter = next + 2 ∧
      Frame g boundSoFar dependencySets.length m m' ∧ m'.derivations = m.derivations ++ new ∧
      EnumeratesOver rawKey termsToNodes tableau seen σ atom atoms remaining found ∧
      Recorded g tableau termsToNodes dependencySets (atom :: atoms) found new := by
  induction remaining generalizing m position with
  | nil =>
    have hle : indices.length ≤ position := drop_eq_nil_iff.mp hrem
    have hexec : execute p tableau deltaObjects deltaDependencySet
        (.hasMoreRetrieval (next + 2 : ℕ) dependencySets.length) m =
          some (m.jump (next + 2 : ℕ)) := by
      rw [execute, hcursor, bind_eq_bind, bind_some]
      dsimp only
      rw [decide_eq_false (by omega)]
      rfl
    have hstep := Reaches.of_execute hclash (hpc ▸ hat.tail.head) hexec
    exact ⟨_, [], [], hstep, Int.toNat_natCast _, .of_eq rfl rfl, (append_nil _).symm,
      enumeratesOver_nil, .nil⟩
  | cons t remaining ih =>
    have hlt : position < indices.length := by
      by_contra hge
      rw [drop_eq_nil_of_le (not_lt.mp hge)] at hrem
      cases hrem
    rw [drop_eq_getElem_cons hlt, List.cons.injEq] at hrem
    have ht : indices[position]? = some t := by rw [getElem?_eq_getElem hlt, hrem.1]
    obtain ⟨hnew, hnd⟩ := nodup_cons.mp hnd
    have hexec : execute p tableau deltaObjects deltaDependencySet
        (.hasMoreRetrieval (next + 2 : ℕ) dependencySets.length) m = some m.next := by
      rw [execute, hcursor, bind_eq_bind, bind_some]
      dsimp only
      rw [decide_eq_true hlt]
      rfl
    have hmore := Reaches.of_execute hclash (hpc ▸ hat.tail.head) hexec
    have hframe₁ : Frame g boundSoFar dependencySets.length m m.next := .of_eq rfl rfl
    have hpc₁ : m.next.programCounter = base + 2 := congrArg (· + 1) hpc
    obtain ⟨hin, objects, hobjs, hact, hfitsSeen⟩ := htup t mem_cons_self
    obtain ⟨hreads, hdep⟩ :=
      reads_current deltaObjects deltaDependencySet hretr (m := m.next)
      hpos hcursor ht hobjs
    rcases reaches_loopBody hclash (hpc₁ ▸ hat.tail.tail) (hready.of_frame hframe₁) hreads hdep
      hfitsSeen.length_eq (by omega) with ⟨hdisagree, hleave⟩ | ⟨hagr, hbind⟩
    · -- No map fits the tuple, and the loop goes on.
      obtain ⟨m₂, hrun₂, hpc₂, hders₂, hcursor₂, hframe₂⟩ :=
        reaches_next deltaObjects deltaDependencySet hclash
        boundSoFar (g := g) (m := m.next.goTo _) hend (Int.toNat_natCast next) hcursor
      have hsame : Frame g boundSoFar dependencySets.length m.next (m.next.goTo next) :=
        .of_eq rfl rfl
      have hframe := hframe₁.trans (hsame.trans hframe₂)
      obtain ⟨m', found, new, hrun, hlast, hframe', hders, hover, hrec⟩ :=
        ih hpc₂ hcursor₂ hrem.2
        hnd (hready.of_frame hframe) fun t ht => htup t (mem_cons_of_mem _ ht)
      refine ⟨m', found, new, Steps.trans hmore (Steps.trans hleave (Steps.trans hrun₂ hrun)),
          hlast,
        hframe.trans hframe', hders.trans (congrArg (· ++ new) hders₂),
        hover.skip hext fun σ' _ hmatch => hdisagree ?_, hrec⟩
      obtain ⟨-, objects', hobjs', -, hfits'⟩ := hmatch
      obtain rfl := some.inj (hobjs.symm.trans hobjs')
      exact hfits'.columnsAgree
    · obtain ⟨σ', heq, hfits'⟩ := hneed.exists_fits hact hfitsSeen hagr
      obtain ⟨m₂, hrun₂, hpc₂, hders₂, hcurs₂, hframe₂, hready₂⟩ := hbind σ'
        (fun v hv => heq (hneed.subset hv)) hfits'
      obtain ⟨m₃, found₃, new₃, hrun₃, hpc₃, hframe₃, hders₃, henum, hrec₃⟩ :=
        hrest m₂ σ'
        (seen ++ atom.variables) _ (by rw [hpc₂, hpc₁]) length_append (Nat.succ_pos _) hready₂ hfits
        (hneed.after hst) hcount
      have hcursor₃ : m₃.registers.cursors[dependencySets.length]? = some ⟨indices, position⟩ := by
        rw [getElem?_of_take_eq hframe₃.cursors, hcurs₂]
        exact hcursor
      obtain ⟨m₄, hrun₄, hpc₄, hders₄, hcursor₄, hframe₄⟩ :=
        reaches_next deltaObjects deltaDependencySet
        hclash boundSoFar (g := g) hend hpc₃ hcursor₃
      have hinn : Frame g boundSoFar dependencySets.length m₂ m₃ :=
        hframe₃.mono (fun v hv => mem_generateBindings.mpr (.inl hv)) (Nat.le_succ _)
      have hframe := hframe₁.trans (hframe₂.trans (hinn.trans hframe₄))
      obtain ⟨m', found, new, hrun, hlast, hframe', hders, hover, hrec⟩ :=
        ih hpc₄ hcursor₄ hrem.2
        hnd (hready.of_frame hframe) fun t ht => htup t (mem_cons_of_mem _ ht)
      refine ⟨m', found₃.map (fun q => (t :: q.1, q.2)) ++ found, new₃ ++ new, ?_, hlast,
          hframe.trans hframe', ?_,
        hover.join hext hnew heq ⟨hin, objects, hobjs, hact, hfits'⟩ henum,
        (hrec₃.join hext).append hrec⟩
      · exact Steps.trans hmore (Steps.trans hrun₂ (Steps.trans hrun₃ (Steps.trans hrun₄ hrun)))
      · rw [hders, hders₄, hders₃, hders₂, append_assoc]
        rfl

/-- An atom with an extension opens its retrieval and joins the tuples that it finds. -/
theorem reaches_extension (hposns : g.bindingPositions boundSoFar atom = some positions)
    (htabs : ∀ kind, ∃ n, ExtensionTable.Reachable kind n (tableau.table kind)) {m : Machine}
    {σ : Variable → NodeId} (hpc : m.programCounter = base) (hpos : 0 < dependencySets.length)
    (hready : Ready g p rawKey termsToNodes boundSoFar σ dependencySets m)
    (hfits : BodyFits g seen (atom :: atoms)) (hneed : Needed g boundSoFar seen (atom :: atoms))
    (hcount : dependencySets.length + ((atom :: atoms).filter fun atom =>
      isPredicateWithExtension atom.dlPredicate).length = p.retrievals.length) :
    ∃ m' found new, Reaches p tableau deltaObjects deltaDependencySet m m' ∧
    m'.programCounter = next + 2 ∧
      Frame g boundSoFar dependencySets.length m m' ∧ m'.derivations = m.derivations ++ new ∧
      Enumerates rawKey termsToNodes tableau seen σ (atom :: atoms) found ∧
      Recorded g tableau termsToNodes dependencySets (atom :: atoms) found new := by
  rw [filter_cons, if_pos hext, length_cons, Nat.add_comm _ 1, ← Nat.add_assoc] at hcount
  cases hfits with
  | comparison hcmp =>
    rw [hext] at hcmp
    cases hcmp
  | extension _ hkind hst hfits =>
    obtain ⟨kind, hkind⟩ := hkind
    obtain ⟨indices, hindices, hnd, hmem⟩ := tableau.openRetrieval_spec htabs
      ⟨atom.arguments.length + 1, positions, .extensionThis⟩ m.values hkind rfl
        (hready.length_positions hposns)
      fun i hi => hready.positions_set hposns hi
    have hlen : ∀ t objects, tableau.tupleObjects (atom.arguments.length + 1) t = some objects →
        objects.length = atom.arguments.length + 1 := by
      intro t objects hobjs
      rw [Tableau.tupleObjects, hkind, bind_eq_bind, bind_some] at hobjs
      obtain ⟨tuple, -, hobjs⟩ := bind_eq_some_iff.mp hobjs
      rw [← some.inj hobjs, length_ofFn, Tableau.arity_of_tableKind hkind]
    have hlt : dependencySets.length < m.registers.cursors.length := by
      rw [hready.cursors_length]
      omega
    have hexec : execute p tableau deltaObjects deltaDependencySet
      (.openRetrieval dependencySets.length) m =
        some (Machine.next { m with registers := { m.registers with
          cursors := m.registers.cursors.set dependencySets.length ⟨indices, 0⟩ } }) := by
      rw [execute, hretr, bind_eq_bind, bind_some, hindices, bind_eq_bind, bind_some,
        setSlot_eq hlt]
      rfl
    have hopen := Reaches.of_execute hclash (hpc ▸ hat.head) hexec
    have hframe : Frame g boundSoFar dependencySets.length m
      (Machine.next { m with registers := { m.registers with
        cursors := m.registers.cursors.set dependencySets.length ⟨indices, 0⟩ } }) :=
      ⟨rfl, fun _ _ => rfl, take_set_of_le le_rfl, length_set, rfl, rfl, rfl⟩
    obtain ⟨m', found, new, hrun, hlast, hframe', hders, hover, hrec⟩ :=
      reaches_tuples hclash hext hretr hat hend hrest hpos (congrArg (· + 1) hpc)
        (getElem?_set_self hlt) (drop_zero) hnd (hready.of_frame hframe) hneed hst hfits hcount
        fun t ht => by
          obtain ⟨hin, objects, hobjs, hact, hvals⟩ := (hmem t).mp ht
          exact ⟨hin, objects, hobjs, hact,
            (hready.positions_iff hposns (hlen t objects hobjs)).mp hvals⟩
    refine ⟨m', found, new, Steps.trans hopen hrun, hlast, hframe.trans hframe', hders,
      hover.enumerates hext fun t σ' heq hmatch => ?_, hrec⟩
    obtain ⟨hin, objects, hobjs, hact, hfits'⟩ := hmatch
    refine (hmem t).mpr ⟨hin, objects, hobjs, hact, ?_⟩
    exact (hready.positions_iff hposns (hlen t objects hobjs)).mpr
      (hfits'.fitsSeen fun v hv => heq (hneed.subset hv))

end extensions

/-- A program runs through the atoms as they lie. -/
theorem ClauseGroup.Layout.simulates {atoms : List Atom} {boundSoFar : List Variable}
    {r base last : ℕ} (h : g.Layout p atoms boundSoFar r base last)
    (htabs : ∀ kind, ∃ n, ExtensionTable.Reachable kind n (tableau.table kind)) :
    Simulates g p tableau deltaObjects deltaDependencySet rawKey termsToNodes atoms boundSoFar r
    base last := by
  induction h with
  | heads hat hheads => exact simulates_heads hclash hat hheads
  | lessEqual hp hslots hw _ ih => exact simulates_lessEqual hclash hp hslots hw ih
  | ascending hp hslots hj hw _ ih => exact simulates_ascending hclash hp hslots hj hw ih
  | @extension atom atoms boundSoFar r base next positions hext hposns hretr hat hlay hend ih =>
    intro m σ seen dependencySets hpc hr hpos hready hfits hneed hcount
    subst hr
    exact reaches_extension hclash hext hretr hat hend ih hposns htabs hpc hpos hready hfits hneed
      hcount

end simulation

end Hermit
