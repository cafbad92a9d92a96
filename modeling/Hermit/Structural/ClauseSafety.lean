import Hermit.Library.Draining
import Hermit.Library.Pointwise
import Hermit.Structural.OntologyClausification
import Hermit.Structural.RuleMeaning

/-! # Variables of clauses are bound

A clause is evaluated by matching the concept, role and data range atoms of its body.  A
variable that none of them has keeps whatever value the buffer held before.  All clauses
bind their variables, except for those of rules that compare variables in the head which
no class or property atom of the rule has.
-/

namespace Hermit

open Option hiding or_assoc
open List SwrlAtom

open Library

/-! ## Bound variables -/

/-- An atom that gives its variables values when it is matched. -/
def Atom.binds (a : Atom) : Bool :=
  match a.dlPredicate with
  | .atomicConcept _ => true
  | .atomicRole _ => true
  | .dataRange _ => true
  | _ => false

/-- A comparison of the positions of nodes. -/
def Atom.isComparison (a : Atom) : Bool :=
  match a.dlPredicate with
  | .nodeIdLessEqualThan => true
  | .nodeIDsAscendingOrEqual _ => true
  | _ => false

def BoundIn (body : List Atom) (v : Variable) : Prop := ∃ b ∈ body, b.binds ∧ v ∈ b.variables

/-- Every variable of the head and of a comparison in the body is bound by the body. -/
def DLClause.Bound (c : DLClause) : Prop :=
  ∀ a, a ∈ c.headAtoms ∨ a ∈ c.bodyAtoms ∧ a.isComparison → ∀ v ∈ a.variables, BoundIn c.bodyAtoms v

/-- Every variable of the body is bound by it. -/
def SelfBound (body : List Atom) : Prop := ∀ b ∈ body, ∀ v ∈ b.variables, BoundIn body v

variable {body : List Atom}

theorem BoundIn.append {v : Variable} (h : BoundIn body v) (extra : List Atom) :
    BoundIn (body ++ extra) v := by
  obtain ⟨b, hb, hbinds, hv⟩ := h
  exact ⟨b, mem_append_left _ hb, hbinds, hv⟩

theorem SelfBound.append {extra : List Atom} (h : SelfBound body)
    (hextra : ∀ b ∈ extra, ∀ v ∈ b.variables, BoundIn (body ++ extra) v) :
    SelfBound (body ++ extra) := by
  intro b hb v hv
  rcases mem_append.mp hb with hb | hb
  · exact (h b hb v hv).append extra
  · exact hextra b hb v hv

theorem SelfBound.append_binding {extra : List Atom} (h : SelfBound body)
    (hextra : ∀ b ∈ extra, b.binds) : SelfBound (body ++ extra) :=
  h.append fun b hb _ hv => ⟨b, mem_append_right _ hb, hextra b hb, hv⟩

/-- The safe version of a clause with a body that binds its own variables is bound. -/
theorem SelfBound.bound_getSafeVersion {c : DLClause} (h : SelfBound c.bodyAtoms)
    (order : HashOrder Variable) (traversal : ℕ) {p : DLPredicate} (harity : p.arity = 1)
    (hp : ∀ t, (⟨p, [t], harity⟩ : Atom).binds) :
    (c.getSafeVersion order traversal p harity).Bound := by
  have hbody : ∀ a ∈ c.bodyAtoms, a ∈ (c.getSafeVersion order traversal p harity).bodyAtoms := by
    intro a ha
    unfold DLClause.getSafeVersion
    split_ifs
    · exact ha
    · exact mem_append_left _ ha
  have hold : ∀ v, BoundIn c.bodyAtoms v →
      BoundIn (c.getSafeVersion order traversal p harity).bodyAtoms v := by
    rintro v ⟨b, hb, hbinds, hv⟩
    exact ⟨b, hbody b hb, hbinds, hv⟩
  have hnew : ∀ v ∈ c.unsafeVariables,
      BoundIn (c.getSafeVersion order traversal p harity).bodyAtoms v := by
    intro v hv
    refine ⟨⟨p, [.variable v], harity⟩, ?_, hp _, by simp [Atom.variables, Term.asVariable]⟩
    rw [DLClause.getSafeVersion, if_neg (ne_nil_of_mem hv)]
    refine mem_append_right _ (List.mem_map.mpr ⟨v, ?_, rfl⟩)
    exact (order.perm traversal _).mem_iff.mpr hv
  have hhead : (c.getSafeVersion order traversal p harity).headAtoms = c.headAtoms := by
    unfold DLClause.getSafeVersion
    split_ifs <;> rfl
  have hcmp : ∀ a ∈ (c.getSafeVersion order traversal p harity).bodyAtoms, a.isComparison →
      a ∈ c.bodyAtoms := by
    intro a ha hcomp
    unfold DLClause.getSafeVersion at ha
    split_ifs at ha
    · exact ha
    · refine (mem_append.mp ha).resolve_right fun hguard => ?_
      obtain ⟨v, -, rfl⟩ := List.mem_map.mp hguard
      have hbinds := hp (.variable v)
      cases p <;> simp_all [Atom.binds, Atom.isComparison]
  rintro a (ha | ⟨ha, hcomp⟩) v hv
  · rw [hhead] at ha
    by_cases hbd : ∃ b ∈ c.bodyAtoms, v ∈ b.variables
    · obtain ⟨b, hb, hvb⟩ := hbd
      exact hold v (h b hb v hvb)
    · push Not at hbd
      exact hnew v ((c.mem_unsafeVariables v).mpr (.inl ⟨⟨a, ha, hv⟩, hbd⟩))
  · exact hold v (h a (hcmp a ha hcomp) v hv)

/-! ## Concept inclusions -/

@[simp] theorem binds_unaryAtom (c : AtomicConcept) (t : Term) : (unaryAtom c t).binds := rfl

@[simp] theorem binds_getRoleAtomObject (ope : ObjectPropExpr) (s t : Term) :
    (getRoleAtomObject ope s t).binds := by
  cases ope with
  | objectProperty p => rfl
  | inverseObjectProperty p => rfl

@[simp] theorem binds_getRoleAtomData (dp : Iri) (s t : Term) :
    (getRoleAtomData dp s t).binds := rfl

namespace AxiomClausifier

variable {c : AxiomClausifier}

theorem selfBound_pushBody (h : SelfBound c.bodyAtoms) {a : Atom} (ha : a.binds) :
    SelfBound (c.pushBody a).bodyAtoms :=
  h.append_binding (by simpa using ha)

theorem selfBound_bindNominals (head : Term → Atom) (individuals : List Individ)
    (positiveFacts : List Atom) (h : SelfBound c.bodyAtoms) :
    SelfBound (bindNominals head individuals (c, positiveFacts)).1.bodyAtoms := by
  induction individuals generalizing c positiveFacts with
  | nil => exact h
  | cons individual individuals ih =>
    refine ih _ (h.append_binding ?_)
    simp [binds_unaryAtom]

variable {body : Term → List Atom} {head : Term → List Atom}

theorem selfBound_bindSuccessors (hbinds : ∀ t, ∀ b ∈ body t, b.binds)
    (hvar : ∀ y : Variable, ∃ b ∈ body (.variable y), y ∈ b.variables) (count : ℕ)
    (h : SelfBound c.bodyAtoms) : SelfBound (bindSuccessors body head count c).2.bodyAtoms ∧
      (∀ v, BoundIn c.bodyAtoms v → BoundIn (bindSuccessors body head count c).2.bodyAtoms v) ∧
      ∀ y ∈ (bindSuccessors body head count c).1,
        BoundIn (bindSuccessors body head count c).2.bodyAtoms y := by
  induction count generalizing c with
  | zero => exact ⟨h, fun _ hv => hv, by simp [bindSuccessors]⟩
  | succ count ih =>
    let y := indexedVariable "Y" c.yIndex
    obtain ⟨hself, hkeep, hnew⟩ := ih (c := { c with
      yIndex := c.yIndex + 1
      bodyAtoms := c.bodyAtoms ++ body (.variable y)
      headAtoms := c.headAtoms ++ head (.variable y) }) (h.append_binding (hbinds _))
    refine ⟨hself, fun v hv => hkeep v (hv.append _), fun v hv => ?_⟩
    rcases mem_cons.mp hv with rfl | hv
    · obtain ⟨b, hb, hyb⟩ := hvar y
      exact hkeep _ ⟨b, mem_append_right _ hb, hbinds _ b hb, hyb⟩
    · exact hnew v hv

theorem boundIn_comparisonAtoms {ys : List Variable} {body : List Atom}
    (h : ∀ y ∈ ys, BoundIn body y) : ∀ a ∈ comparisonAtoms ys, ∀ v ∈ a.variables,
    BoundIn body v := by
  intro a ha v hv
  apply h
  unfold comparisonAtoms at ha
  split_ifs at ha
  · rcases mem_append.mp ha with ha | ha
    · obtain ⟨p, hp, rfl⟩ := List.mem_map.mp ha
      have hp' := of_mem_zip hp
      have hv' : v = p.1 ∨ v = p.2 := by
        simpa [Atom.variables, Term.asVariable] using hv
      rcases hv' with rfl | rfl
      · exact hp'.1
      · exact mem_of_mem_tail hp'.2
    · rw [mem_singleton.mp ha] at hv
      simpa [Atom.variables, Term.asVariable, filterMap_map, Function.comp_def] using hv
  · cases ha

theorem binds_negatedRangeAtoms (range : LiteralDataRange) (t : Term) :
    ∀ b ∈ (negatedRangeAtoms range).1 t, b.binds := by
  intro b hb
  unfold negatedRangeAtoms at hb
  split at hb
  · dsimp only at hb
    split_ifs at hb
    · cases hb
    · rw [mem_singleton.mp hb]
      rfl
  · cases hb

theorem binds_atMostAtoms {bce : ClassExpr}
    (h : atMostAtoms bce = some (body, head)) (t : Term) : ∀ b ∈ body t, b.binds := by
  intro b hb
  unfold atMostAtoms at h
  split at h
  · cases h
    dsimp only at hb
    split_ifs at hb
    · cases hb
    · rw [mem_singleton.mp hb]
      rfl
  · cases h
    cases hb
  · cases h

theorem mem_variables_getRoleAtomObject (ope : ObjectPropExpr) (t : Term) (y : Variable) :
    y ∈ (getRoleAtomObject ope t (.variable y)).variables := by
  cases ope <;> cases t <;> simp [getRoleAtomObject, Atom.variables, Term.asVariable]

theorem mem_variables_getRoleAtomData (dp : Iri) (t : Term) (y : Variable) :
    y ∈ (getRoleAtomData dp t (.variable y)).variables := by
  cases t <;> simp [getRoleAtomData, Atom.variables, Term.asVariable]

/-- The successors of an at-most restriction are bound by their role atoms. -/
theorem selfBound_successors {role : Term → Atom}
    (hrole : ∀ t, (role t).binds) (hvar : ∀ y : Variable, y ∈ (role (.variable y)).variables)
    (hbody : ∀ t, ∀ b ∈ body t, b.binds) (head : Term → List Atom) (count : ℕ)
    (h : SelfBound c.bodyAtoms) :
    let r := bindSuccessors (fun y => role y :: body y) head count c.ensureYNotZero
    SelfBound r.2.bodyAtoms ∧ (∀ v, BoundIn c.bodyAtoms v → BoundIn r.2.bodyAtoms v) ∧
      ∀ y ∈ r.1, BoundIn r.2.bodyAtoms y := by
  have hc : c.ensureYNotZero.bodyAtoms = c.bodyAtoms := by
    unfold ensureYNotZero
    split_ifs <;> rfl
  rw [← hc] at h ⊢
  refine selfBound_bindSuccessors (fun t b hb => ?_) (fun y => ?_) count h
  · rcases mem_cons.mp hb with rfl | hb
    · exact hrole t
    · exact hbody t b hb
  · exact ⟨_, mem_cons_self, hvar y⟩

variable {r : AxiomClausifier × List Atom} {positiveFacts : List Atom}

/-- A disjunct keeps every variable of the body bound. -/
theorem selfBound_clausify {converter : DataRangeConverter} {object : ClassExpr}
    (h : SelfBound c.bodyAtoms)
    (hok : c.clausify converter object positiveFacts = some r) : SelfBound r.1.bodyAtoms := by
  unfold clausify at hok
  split at hok
  · cases hok
    exact h
  · cases hok
    exact selfBound_pushBody h (binds_getRoleAtomObject _ _ _)
  · cases hok
    exact selfBound_pushBody h (binds_unaryAtom _ _)
  · cases hok
    exact selfBound_pushBody h (binds_unaryAtom _ _)
  · cases hok
    exact selfBound_bindNominals _ _ _ h
  · cases hok
    exact selfBound_bindNominals _ _ _ h
  · simp only [bind_eq_bind, bind_eq_some_iff] at hok
    obtain ⟨toConcept, -, hok⟩ := hok
    split_ifs at hok <;> cases hok <;> exact h
  · next ope bce =>
    have hy : SelfBound
        (c.nextY.2.pushBody (getRoleAtomObject ope xTerm (.variable c.nextY.1))).bodyAtoms :=
      h.append_binding (by simp [binds_getRoleAtomObject])
    dsimp only at hok
    split at hok
    · split_ifs at hok <;> cases hok <;> exact hy
    · cases hok
      exact selfBound_bindNominals _ _ _ hy
    · split_ifs at hok
      · cases hok
        exact hy
      · cases hok
        exact selfBound_pushBody hy (binds_unaryAtom _ _)
    · cases hok
      exact selfBound_pushBody hy (binds_unaryAtom _ _)
    · cases hok
  · cases hok
    exact h
  · simp only [bind_eq_bind, bind_eq_some_iff] at hok
    obtain ⟨toConcept, -, hok⟩ := hok
    split_ifs at hok <;> cases hok <;> exact h
  · simp only [bind_eq_bind, bind_eq_some_iff] at hok
    obtain ⟨⟨body, head⟩, hatoms, toConcept, -, hok⟩ := hok
    cases hok
    obtain ⟨hself, -, hys⟩ := selfBound_successors (binds_getRoleAtomObject _ xTerm)
      (mem_variables_getRoleAtomObject _ xTerm) (binds_atMostAtoms hatoms) head _ h
    refine hself.append fun b hb v hv => (boundIn_comparisonAtoms hys b hb v hv).append _
  · split_ifs at hok
    · cases hok
      exact h
    · simp only [bind_eq_bind, bind_eq_some_iff] at hok
      obtain ⟨toConcept, -, hok⟩ := hok
      split_ifs at hok <;> cases hok <;> exact h
  · simp only [bind_eq_bind, bind_eq_some_iff] at hok
    obtain ⟨literalRange, -, hok⟩ := hok
    split_ifs at hok
    · cases hok
      exact h
    · cases hok
      refine h.append_binding fun b hb => ?_
      rcases mem_cons.mp hb with rfl | hb
      · rfl
      · exact binds_negatedRangeAtoms _ _ b hb
  · split_ifs at hok
    · cases hok
      exact h
    · simp only [bind_eq_bind, bind_eq_some_iff] at hok
      obtain ⟨toConcept, -, hok⟩ := hok
      split_ifs at hok <;> cases hok <;> exact h
  · simp only [bind_eq_bind, bind_eq_some_iff] at hok
    obtain ⟨literalRange, -, hok⟩ := hok
    cases hok
    exact (selfBound_successors (binds_getRoleAtomData _ xTerm)
      (mem_variables_getRoleAtomData _ xTerm) (binds_negatedRangeAtoms _) _ _ h).1
  · cases hok

theorem selfBound_clausifyAll {converter : DataRangeConverter} {inclusion : List ClassExpr}
    (h : SelfBound c.bodyAtoms)
    (hok : clausifyAll converter inclusion c positiveFacts = some r) : SelfBound r.1.bodyAtoms := by
  induction inclusion generalizing c positiveFacts with
  | nil =>
    cases hok
    exact h
  | cons description inclusion ih =>
    simp only [clausifyAll, bind_eq_bind, bind_eq_some_iff] at hok
    obtain ⟨r', hone, hok⟩ := hok
    exact ih (selfBound_clausify h hone) hok

end AxiomClausifier

theorem selfBound_nil : SelfBound [] := fun _ hb => by cases hb

variable {order : HashOrder Variable}

theorem bound_clausifyConceptInclusions
    {converter : DataRangeConverter} {traversal : ℕ} {inclusions : List (List ClassExpr)}
    {c : AxiomClausifier} {positiveFacts : List Atom} {r : List DLClause × List Atom}
    (h : SelfBound c.bodyAtoms)
    (hok : clausifyConceptInclusions order converter traversal inclusions c positiveFacts = .ok r) :
    ∀ clause ∈ r.1, clause.Bound := by
  induction inclusions generalizing traversal c positiveFacts r with
  | nil =>
    cases hok
    simp
  | cons inclusion inclusions ih =>
    simp only [clausifyConceptInclusions, AxiomClausifier.clausifyInclusion,
      AxiomClausifier.getDlClause, bind_eq_bind] at hok
    cases hall : AxiomClausifier.clausifyAll converter inclusion c positiveFacts with
    | none =>
      rw [hall] at hok
      cases hok
    | some p =>
      rw [hall] at hok
      simp only [bind_some, Option.pure_def, bind, Except.bind] at hok
      split at hok
      · cases hok
      · next q hrest =>
        cases hok
        intro clause hcla
        rcases mem_cons.mp hcla with rfl | hcla
        · exact (AxiomClausifier.selfBound_clausifyAll h hall).bound_getSafeVersion order traversal
            rfl fun _ => rfl
        · exact ih selfBound_nil hrest clause hcla

namespace DataRangeClausifier

variable {c c' : DataRangeClausifier} {converter : DataRangeConverter}

theorem selfBound_clausify {object : DataRangeExpr} (h : SelfBound c.bodyAtoms)
    (hok : c.clausify converter object = some c') : SelfBound c'.bodyAtoms := by
  unfold clausify at hok
  split at hok
  · split at hok
    · cases hok
      exact h.append_binding (by simp [rangeAtom, Atom.binds])
    · simp only [bind_eq_bind, bind_eq_some_iff] at hok
      obtain ⟨literalRange, -, hok⟩ := hok
      cases hok
      exact h.append_binding (AxiomClausifier.binds_negatedRangeAtoms _ _)
  · cases hok
  · cases hok
  · simp only [bind_eq_bind, bind_eq_some_iff] at hok
    obtain ⟨literalRange, -, hok⟩ := hok
    cases hok
    exact h

theorem selfBound_clausifyAll {inclusion : List DataRangeExpr} (h : SelfBound c.bodyAtoms)
    (hok : clausifyAll converter inclusion c = some c') : SelfBound c'.bodyAtoms := by
  induction inclusion generalizing c with
  | nil =>
    cases hok
    exact h
  | cons description inclusion ih =>
    simp only [clausifyAll, bind_eq_bind, bind_eq_some_iff] at hok
    obtain ⟨c₁, hone, hok⟩ := hok
    exact ih (selfBound_clausify h hone) hok

end DataRangeClausifier

theorem bound_clausifyDataRangeInclusions
    {converter : DataRangeConverter} {traversal : ℕ} {inclusions : List (List DataRangeExpr)}
    {c : DataRangeClausifier} {clauses : List DLClause} (h : SelfBound c.bodyAtoms)
    (hok : clausifyDataRangeInclusions order converter traversal inclusions c = .ok clauses) :
    ∀ clause ∈ clauses, clause.Bound := by
  induction inclusions generalizing traversal c clauses with
  | nil =>
    cases hok
    simp
  | cons inclusion inclusions ih =>
    simp only [clausifyDataRangeInclusions, DataRangeClausifier.clausifyInclusion,
      DataRangeClausifier.getDlClause, bind_eq_bind] at hok
    cases hall : DataRangeClausifier.clausifyAll converter inclusion c with
    | none =>
      rw [hall] at hok
      cases hok
    | some p =>
      rw [hall] at hok
      simp only [bind_some, Option.pure_def, bind, Except.bind] at hok
      split at hok
      · cases hok
      · next q hrest =>
        cases hok
        intro clause hcla
        rcases mem_cons.mp hcla with rfl | hcla
        · exact (DataRangeClausifier.selfBound_clausifyAll h hall).bound_getSafeVersion order
            traversal rfl fun _ => rfl
        · exact ih selfBound_nil hrest clause hcla

/-! ## Properties and keys -/

/-- A clause over binding body atoms is bound when its head has only their variables. -/
theorem bound_of_binds {c : DLClause} (hbody : ∀ b ∈ c.bodyAtoms, b.binds)
    (hhead : ∀ a ∈ c.headAtoms, ∀ v ∈ a.variables, ∃ b ∈ c.bodyAtoms, v ∈ b.variables) :
    c.Bound := by
  rintro a (ha | ⟨ha, -⟩) v hv
  · obtain ⟨b, hb, hvb⟩ := hhead a ha v hv
    exact ⟨b, hb, hbody b hb, hvb⟩
  · exact ⟨a, ha, hbody a ha, hv⟩

@[simp] theorem variables_getRoleAtomObject_variable (ope : ObjectPropExpr) (v w u : Variable) :
    u ∈ (getRoleAtomObject ope (.variable v) (.variable w)).variables ↔ u = v ∨ u = w := by
  cases ope with
  | objectProperty p => simp [getRoleAtomObject, Atom.variables, Term.asVariable]
  | inverseObjectProperty p =>
    simp [getRoleAtomObject, Atom.variables, Term.asVariable, or_comm]

@[simp] theorem variables_getRoleAtomData_variable (dp : Iri) (v w u : Variable) :
    u ∈ (getRoleAtomData dp (.variable v) (.variable w)).variables ↔ u = v ∨ u = w := by
  simp [getRoleAtomData, Atom.variables, Term.asVariable]

@[simp] theorem variables_unaryAtom_variable (c : AtomicConcept) (v u : Variable) :
    u ∈ (unaryAtom c (.variable v)).variables ↔ u = v := by
  simp [unaryAtom, Atom.variables, Term.asVariable]

@[simp] theorem variables_inequalityAtom_variable (v w u : Variable) :
    u ∈ (inequalityAtom (.variable v) (.variable w)).variables ↔ u = v ∨ u = w := by
  simp [inequalityAtom, Atom.variables, Term.asVariable]

theorem bound_propertyClauses (axioms : OwlAxioms) : ∀ c ∈ propertyClauses axioms, c.Bound := by
  intro c hc
  simp only [propertyClauses, mem_append, List.mem_map, mem_flatMap] at hc
  rcases hc
    with ((((((⟨w, -, rfl⟩ | ⟨w, -, rfl⟩) | ⟨ope, -, rfl⟩) | ⟨ope, -, rfl⟩) | ⟨ope, -, rfl⟩) |
    ⟨ps, -, w, -, rfl⟩) | hc) | ⟨ps, -, w, -, rfl⟩
  · exact bound_of_binds (by simp) (by simp [xTerm, yTerm])
  · exact bound_of_binds (by simp) (by simp [xTerm, yTerm])
  · exact bound_of_binds (by simp) (by simp)
  · exact bound_of_binds (by simp) (by simp [xTerm])
  · exact bound_of_binds (by simp) (by simp)
  · exact bound_of_binds (by simp) (by simp)
  · split_ifs at hc
    · rw [mem_singleton.mp hc]
      exact bound_of_binds (by simp) (by simp)
    · cases hc
  · exact bound_of_binds (by simp) (by simp [xTerm, yTerm, zTerm])

theorem binds_keyObjectAtoms (pes : List PropExpr) (yIndex : ℕ) :
    ∀ b ∈ (keyObjectAtoms pes yIndex).1, b.binds := by
  induction pes generalizing yIndex with
  | nil => simp [keyObjectAtoms]
  | cons pe pes ih =>
    cases pe with
    | objectPropertyExpression ope => simpa [keyObjectAtoms, namedAtom] using ih (yIndex + 1)
    | _ => exact ih yIndex

theorem keyDataAtoms_bound (pes : List PropExpr) (yIndex : ℕ) :
    (∀ b ∈ (keyDataAtoms pes yIndex).1, b.binds) ∧
      ∀ a ∈ (keyDataAtoms pes yIndex).2, ∀ v ∈ a.variables,
        ∃ b ∈ (keyDataAtoms pes yIndex).1, v ∈ b.variables := by
  induction pes generalizing yIndex with
  | nil => simp [keyDataAtoms]
  | cons pe pes ih =>
    cases pe with
    | dataProperty dp =>
      obtain ⟨hbody, hhead⟩ := ih (yIndex + 2)
      refine ⟨by simpa [keyDataAtoms] using hbody, fun a ha v hv => ?_⟩
      rcases mem_cons.mp ha with rfl | ha
      · simp only [keyVariable, variables_inequalityAtom_variable] at hv
        rcases hv with rfl | rfl
        · exact ⟨_, mem_cons_self, by simp [keyVariable, x1Term]⟩
        · exact ⟨_, mem_cons_of_mem _ mem_cons_self, by simp [keyVariable, x2Term]⟩
      · obtain ⟨b, hb, hvb⟩ := hhead a ha v hv
        exact ⟨b, mem_cons_of_mem _ (mem_cons_of_mem _ hb), hvb⟩
    | _ => exact ih yIndex

theorem bound_clausifyKey {object : HasKeyAxiom} {c : DLClause} (hok : clausifyKey object = .ok c) :
    c.Bound := by
  simp only [clausifyKey] at hok
  obtain ⟨p, hcls, hok⟩ := ok_of_bind hok
  cases hok
  obtain ⟨hdataBody, hdataHead⟩ := keyDataAtoms_bound object.propertyExpressions
    (keyObjectAtoms object.propertyExpressions 1).2
  have hclassAtoms : (∀ b ∈ p.1, b.binds) ∧
      ∀ a ∈ p.2, ∀ v ∈ a.variables, v = ⟨"X1"⟩ ∨ v = ⟨"X2"⟩ := by
    unfold keyClassAtoms at hcls
    split at hcls
    · split_ifs at hcls <;> cases hcls <;> simp
    · cases hcls
      simp [x1Term, x2Term]
    · cases hcls
  have hx : ∀ v, v = ⟨"X1"⟩ ∨ v = ⟨"X2"⟩ → ∃ b ∈ namedAtom x1Term :: namedAtom x2Term :: p.1 ++
      (keyObjectAtoms object.propertyExpressions 1).1 ++ (keyDataAtoms object.propertyExpressions
        (keyObjectAtoms object.propertyExpressions 1).2).1, v ∈ b.variables := by
    rintro v (rfl | rfl)
    · exact ⟨namedAtom x1Term, by simp, by simp [namedAtom, x1Term]⟩
    · exact ⟨namedAtom x2Term, by simp, by simp [namedAtom, x2Term]⟩
  refine bound_of_binds ?_ ?_
  · intro b hb
    simp only [cons_append, mem_cons, mem_append] at hb
    rcases hb with rfl | rfl | (hb | hb) | hb
    · rfl
    · rfl
    · exact hclassAtoms.1 b hb
    · exact binds_keyObjectAtoms _ _ b hb
    · exact hdataBody b hb
  · intro a ha v hv
    simp only [cons_append, mem_cons, mem_append] at ha
    rcases ha with rfl | ha | ha
    · apply hx
      simpa [equalityAtom, x1Term, x2Term, Atom.variables, Term.asVariable] using hv
    · exact hx v (hclassAtoms.2 a ha v hv)
    · obtain ⟨b, hb, hvb⟩ := hdataHead a ha v hv
      exact ⟨b, mem_append_right _ hb, hvb⟩

/-! ## Rules -/

/-- An equality or an inequality. -/
def SwrlAtom.compares : SwrlAtom → Bool
  | .sameIndividualAtom _ _ => true
  | .differentIndividualsAtom _ _ => true
  | _ => false

/-- The variables for individuals that are restricted to the named ones. -/
def SwrlAtom.abstractVariables (a : SwrlAtom) : List Iri :=
  if a.compares then [] else a.objectVariables

/-- Every variable that the head compares occurs in a class or a property atom of the rule, in
the body if it stands for a data value. -/
def DisjunctiveRule.CoversComparisons (r : DisjunctiveRule) : Prop :=
  ∀ h ∈ r.head, h.compares → ∀ v ∈ h.variables,
    (∃ a ∈ r.body ++ r.head, v ∈ a.abstractVariables) ∨ ∃ b ∈ r.body, v ∈ b.dataVariables

/-- Every data variable of the head occurs in the body. -/
def DisjunctiveRule.CoversData (r : DisjunctiveRule) : Prop :=
  ∀ h ∈ r.head, ∀ v ∈ h.dataVariables, ∃ b ∈ r.body, v ∈ b.dataVariables

/-- The atom that a rule atom is converted to has its variables, and binds them unless it is a
comparison. -/
structure ConvertsTo (a : SwrlAtom) (a' : Atom) : Prop where
  variables_iff : ∀ v : Variable, v ∈ a'.variables ↔ v.name ∈ a.variables
  binds_iff : a'.binds = !a.compares
  notComparison : a'.isComparison = false

variable {α : Type} {f : Variable → Except Failure α}

theorem of_toVariableI {arg : IArgument} {r : α} (h : (toVariableI arg >>= f) = .ok r) :
    ∃ v : Variable, arg = .variable v.name ∧ f v = .ok r := by
  cases arg with
  | «variable» v => exact ⟨⟨v⟩, rfl, h⟩
  | individual i => cases h

theorem of_toVariableD {arg : DArgument} {r : α} (h : (toVariableD arg >>= f) = .ok r) :
    ∃ v : Variable, arg = .variable v.name ∧ f v = .ok r := by
  cases arg with
  | «variable» v => exact ⟨⟨v⟩, rfl, h⟩
  | literal l => cases h

theorem Variable.eq_iff {v w : Variable} : v = w ↔ v.name = w.name := by
  cases v
  cases w
  simp

@[simp] theorem variables_equalityAtom_variable (v w u : Variable) :
    u ∈ (equalityAtom (.variable v) (.variable w)).variables ↔ u = v ∨ u = w := by
  simp [equalityAtom, Atom.variables, Term.asVariable]

@[simp] theorem variables_rangeAtom_variable (range : LiteralDataRange) (v u : Variable) :
    u ∈ (rangeAtom range (.variable v)).variables ↔ u = v := by
  simp [rangeAtom, Atom.variables, Term.asVariable]

variable {vars : List Variable}

theorem convertRuleAtom_spec {converter : DataRangeConverter}
    {a : SwrlAtom} {r : Atom × List Variable} (hok : convertRuleAtom converter vars a = .ok r) :
    ConvertsTo a r.1 ∧ ∀ v, v ∈ r.2 ↔ v ∈ vars ∨ v.name ∈ a.abstractVariables := by
  cases a with
  | builtInAtom pred args => cases hok
  | classAtom pred arg =>
    cases pred with
    | «class» c =>
      obtain ⟨v, rfl, hcls⟩ := of_toVariableI hok
      cases hcls
      refine ⟨⟨fun u => ?_, rfl, rfl⟩, fun u => ?_⟩
      · simp [SwrlAtom.variables, SwrlAtom.objectVariables, SwrlAtom.dataVariables,
          IArgument.variables, Variable.eq_iff]
      · simp [SwrlAtom.abstractVariables, SwrlAtom.compares, SwrlAtom.objectVariables,
          IArgument.variables, Variable.eq_iff]
    | _ => cases hok
  | objectPropertyAtom pred first second =>
    obtain ⟨v, rfl, hfst⟩ := of_toVariableI hok
    obtain ⟨w, rfl, hsnd⟩ := of_toVariableI hfst
    cases hsnd
    refine ⟨⟨fun u => ?_, ?_, ?_⟩, fun u => ?_⟩
    · simp [SwrlAtom.variables, SwrlAtom.objectVariables, SwrlAtom.dataVariables,
        IArgument.variables, Variable.eq_iff]
    · simp [SwrlAtom.compares]
    · cases pred <;> rfl
    · simp [SwrlAtom.abstractVariables, SwrlAtom.compares, SwrlAtom.objectVariables,
        IArgument.variables, Variable.eq_iff, or_assoc]
  | dataPropertyAtom pred subject value =>
    obtain ⟨v, rfl, hfst⟩ := of_toVariableI hok
    obtain ⟨w, rfl, hsnd⟩ := of_toVariableD hfst
    cases hsnd
    refine ⟨⟨fun u => ?_, rfl, rfl⟩, fun u => ?_⟩
    · simp [SwrlAtom.variables, SwrlAtom.objectVariables, SwrlAtom.dataVariables,
        IArgument.variables, DArgument.variables, Variable.eq_iff]
    · simp [SwrlAtom.abstractVariables, SwrlAtom.compares, SwrlAtom.objectVariables,
        IArgument.variables, Variable.eq_iff]
  | dataRangeAtom pred arg =>
    obtain ⟨v, rfl, hrng⟩ := of_toVariableD hok
    split at hrng
    · cases hrng
      refine ⟨⟨fun u => ?_, rfl, rfl⟩, fun u => ?_⟩
      · simp [SwrlAtom.variables, SwrlAtom.objectVariables, SwrlAtom.dataVariables,
          DArgument.variables, Variable.eq_iff]
      · simp [SwrlAtom.abstractVariables, SwrlAtom.compares, SwrlAtom.objectVariables]
    · cases hrng
  | sameIndividualAtom first second | differentIndividualsAtom first second =>
    obtain ⟨v, rfl, hfst⟩ := of_toVariableI hok
    obtain ⟨w, rfl, hsnd⟩ := of_toVariableI hfst
    cases hsnd
    refine ⟨⟨fun u => ?_, rfl, rfl⟩, fun u => ?_⟩
    · simp [SwrlAtom.variables, SwrlAtom.objectVariables, SwrlAtom.dataVariables,
        IArgument.variables, Variable.eq_iff]
    · simp [SwrlAtom.abstractVariables, SwrlAtom.compares]

theorem convertRuleAtoms_spec {converter : DataRangeConverter} {atoms : List SwrlAtom}
    {r : List Atom × List Variable} (hok : convertRuleAtoms converter atoms vars = .ok r) :
    List.Forall₂ ConvertsTo atoms r.1 ∧
      ∀ v, v ∈ r.2 ↔ v ∈ vars ∨ ∃ a ∈ atoms, v.name ∈ a.abstractVariables := by
  induction atoms generalizing vars r with
  | nil =>
    cases hok
    simp
  | cons a atoms ih =>
    simp only [convertRuleAtoms] at hok
    obtain ⟨p, hone, hok⟩ := ok_of_bind hok
    obtain ⟨q, hrest, hok⟩ := ok_of_bind hok
    cases hok
    obtain ⟨hconv, hvars⟩ := convertRuleAtom_spec hone
    obtain ⟨hall, hallVars⟩ := ih hrest
    refine ⟨.cons hconv hall, fun v => ?_⟩
    rw [hallVars, hvars]
    simp [or_assoc]

/-- A rule atom that is no comparison has its variables recorded or for data values. -/
theorem SwrlAtom.mem_variables_iff {a : SwrlAtom} (h : a.compares = false) (v : Iri) :
    v ∈ a.variables ↔ v ∈ a.abstractVariables ∨ v ∈ a.dataVariables := by
  simp [SwrlAtom.variables, SwrlAtom.abstractVariables, h]

/-- The clause of a rule is bound exactly when the rule covers the variables it compares. -/
theorem bound_clausifyRule_iff {converter : DataRangeConverter} {rule : DisjunctiveRule}
    {c : DLClause} (hdata : rule.CoversData) (hok : clausifyRule converter rule true = .ok c) :
    c.Bound ↔ rule.CoversComparisons := by
  simp only [clausifyRule] at hok
  obtain ⟨⟨bodyAtoms, vars⟩, hbody, hok⟩ := ok_of_bind hok
  dsimp only at hok
  obtain ⟨⟨headAtoms, vars'⟩, hhead, hok⟩ := ok_of_bind hok
  cases hok
  obtain ⟨hbodyAll, hvars⟩ := convertRuleAtoms_spec hbody
  obtain ⟨hheadAll, hvars'⟩ := convertRuleAtoms_spec hhead
  -- what binds a variable: its guard, or an atom of the body
  have hbd : ∀ v : Variable, BoundIn (bodyAtoms ++ vars'.map fun v => namedAtom (.variable v)) v ↔
      (∃ a ∈ rule.body ++ rule.head, v.name ∈ a.abstractVariables) ∨
        ∃ b ∈ rule.body, v.name ∈ b.dataVariables := by
    intro v
    have hguard : v ∈ vars' ↔ ∃ a ∈ rule.body ++ rule.head, v.name ∈ a.abstractVariables := by
      rw [hvars', hvars]
      simp [or_and_right, exists_or]
    constructor
    · rintro ⟨b, hb, hbinds, hv⟩
      rcases mem_append.mp hb with hb | hb
      · obtain ⟨a, ha, hconv⟩ := exists_of_forall₂_right hbodyAll hb
        have hcompares : a.compares = false := by simpa [hbinds] using hconv.binds_iff
        rcases (SwrlAtom.mem_variables_iff hcompares _).mp ((hconv.variables_iff v).mp hv)
          with habs | hdat
        · exact .inl ⟨a, mem_append_left _ ha, habs⟩
        · exact .inr ⟨a, ha, hdat⟩
      · obtain ⟨w, hw, rfl⟩ := List.mem_map.mp hb
        rw [(variables_unaryAtom_variable _ w v).mp hv]
        exact .inl (by rwa [← (variables_unaryAtom_variable _ w v).mp hv, ← hguard,
          (variables_unaryAtom_variable _ w v).mp hv])
    · rintro (habs | ⟨a, ha, hdat⟩)
      · refine ⟨namedAtom (.variable v), mem_append_right _
          (List.mem_map.mpr ⟨v, hguard.mpr habs, rfl⟩), rfl, by simp [namedAtom]⟩
      · obtain ⟨b, hb, hconv⟩ := exists_of_forall₂_left hbodyAll ha
        have hcompares : a.compares = false := by
          cases a <;> first | rfl | cases hdat
        refine ⟨b, mem_append_left _ hb, by simp [hconv.binds_iff, hcompares], ?_⟩
        exact (hconv.variables_iff v).mpr ((SwrlAtom.mem_variables_iff hcompares _).mpr (.inr hdat))
  constructor
  · intro hcla h hh hcompares v hv
    obtain ⟨h', hh', hconv⟩ := exists_of_forall₂_left hheadAll hh
    exact (hbd ⟨v⟩).mp (hcla h' (.inl hh') ⟨v⟩ ((hconv.variables_iff ⟨v⟩).mpr hv))
  · rintro hcov h' (hh' | ⟨hb, hcmp⟩) v hv
    · obtain ⟨h, hh, hconv⟩ := exists_of_forall₂_right hheadAll hh'
      have hv' := (hconv.variables_iff v).mp hv
      refine (hbd v).mpr ?_
      cases hcompares : h.compares with
      | true => exact hcov h hh hcompares v.name hv'
      | false =>
        rcases (SwrlAtom.mem_variables_iff hcompares _).mp hv' with habs | hdat
        · exact .inl ⟨h, mem_append_right _ hh, habs⟩
        · exact .inr (hdata h hh v.name hdat)
    · exfalso
      rcases mem_append.mp hb with hb | hb
      · obtain ⟨a, -, hconv⟩ := exists_of_forall₂_right hbodyAll hb
        simp [hconv.notComparison] at hcmp
      · obtain ⟨w, -, rfl⟩ := List.mem_map.mp hb
        cases hcmp

end Hermit
