import Hermit.Datalog.QueryAnswers

/-! # Evaluation of conjunctive queries

The atoms are joined in a greedy order, which is a permutation of the given one, and the solutions
of the atoms do not depend on their order.
-/

namespace Hermit.Datalog

open List

/-! ## The order of the atoms -/

/-- The atoms that are not used yet. -/
def unused : List QueryAtom → List Bool → List QueryAtom
  | atom :: atoms, isUsed :: used => if isUsed then unused atoms used else atom :: unused atoms used
  | _, _ => []

section order

variable {atoms : List QueryAtom} {atom : QueryAtom} {used : List Bool} {i : ℕ}

theorem exists_of_unused_ne_nil (h : unused atoms used ≠ []) :
    ∃ i, i < atoms.length ∧ used[i]? = some false := by
  induction atoms generalizing used with
  | nil => exact absurd rfl h
  | cons atom atoms ih =>
    cases used with
    | nil => exact absurd rfl h
    | cons isUsed used =>
      cases isUsed with
      | false => exact ⟨0, by simp, rfl⟩
      | true =>
        obtain ⟨i, hi, hused⟩ := ih h
        exact ⟨i + 1, by simpa using hi, hused⟩

theorem perm_unused_set (hused : used[i]? = some false) (hatom : atoms[i]? = some atom) :
    (unused atoms used).Perm (atom :: unused atoms (used.set i true)) := by
  induction atoms generalizing used i with
  | nil => cases hatom
  | cons first atoms ih =>
    cases used with
    | nil => cases hused
    | cons isUsed used =>
      cases i with
      | zero =>
        cases hused
        cases hatom
        exact List.Perm.refl _
      | succ i =>
        have hrest : (unused atoms used).Perm (atom :: unused atoms (used.set i true)) :=
          ih hused hatom
        cases isUsed with
        | true => exact hrest
        | false => exact (hrest.cons first).trans (List.Perm.swap atom first _)

theorem unused_replicate (atoms : List QueryAtom) :
    unused atoms (List.replicate atoms.length false) = atoms := by
  induction atoms with
  | nil => rfl
  | cons atom atoms ih => exact congrArg (atom :: ·) ih

/-- No goodness is as bad as the one the search starts with. -/
theorem lt_atomGoodness (atom : QueryAtom) (boundVariables : List String) :
    -1000 < atomGoodness atom boundVariables := by
  have hlen : atom.terms.length ≤ 2 := by cases atom <;> simp [QueryAtom.terms]
  have hcount : ∀ p : QueryTerm → Bool, atom.terms.countP p ≤ 2 :=
    fun p => countP_le_length.trans hlen
  obtain ⟨bound, unbound, heq⟩ : ∃ bound unbound : QueryTerm → Bool,
    atomGoodness atom boundVariables =
    (atom.terms.countP bound : ℤ) * 100 - (atom.terms.countP unbound : ℤ) * 10 := ⟨_, _, rfl⟩
  have := hcount unbound
  omega

/-- One round of the search for the best atom. -/
def consider (atoms : List QueryAtom) (used : List Bool) (boundVariables : List String)
    (best : Option ℕ × ℤ) (index : ℕ) :
    Option ℕ × ℤ :=
  match used[index]?, atoms[index]? with
  | some false, some atom =>
    if best.2 < atomGoodness atom boundVariables
      then (some index, atomGoodness atom boundVariables) else best
  | _, _ => best

/-- What the search has found among the indices it has seen. -/
structure Found (atoms : List QueryAtom) (used : List Bool) (best : Option ℕ × ℤ)
    (seen : List ℕ) : Prop where
  nothing : best.1 = none → best.2 = -1000 ∧ ∀ i ∈ seen, i < atoms.length → used[i]? ≠ some false
  index : ∀ i, best.1 = some i → used[i]? = some false ∧ i < atoms.length

theorem Found.consider {best : Option ℕ × ℤ} {seen : List ℕ} (h : Found atoms used best seen)
    (boundVariables : List String)
    (index : ℕ) : Found atoms used (consider atoms used boundVariables best index)
    (index :: seen) := by
  by_cases helig : used[index]? = some false ∧ index < atoms.length
  · obtain ⟨hused, hlt⟩ := helig
    have hconsider : Datalog.consider atoms used boundVariables best index =
        if best.2 < atomGoodness atoms[index] boundVariables then
          (some index, atomGoodness atoms[index] boundVariables) else best := by
      rw [Datalog.consider, hused, getElem?_eq_getElem hlt]
    rw [hconsider]
    split
    · refine ⟨nofun, ?_⟩
      rintro i ⟨⟩
      exact ⟨hused, hlt⟩
    · rename_i hworse
      refine ⟨fun hnone => ?_, h.index⟩
      rw [(h.nothing hnone).1] at hworse
      exact absurd (lt_atomGoodness atoms[index] boundVariables) hworse
  · have hconsider : Datalog.consider atoms used boundVariables best index = best := by
      unfold Datalog.consider
      split
      · rename_i hused hatom
        exact absurd ⟨hused, (List.getElem?_eq_some_iff.mp hatom).1⟩ helig
      · rfl
    rw [hconsider]
    refine ⟨fun hnone => ⟨(h.nothing hnone).1, ?_⟩, h.index⟩
    intro i hi hlt hused
    rcases mem_cons.mp hi with rfl | hi
    · exact helig ⟨hused, hlt⟩
    · exact (h.nothing hnone).2 i hi hlt hused

variable (boundVariables : List String)

/-- The search finds an unused atom if there is one. -/
theorem exists_bestIndex (h : unused atoms used ≠ []) :
    ∃ i, bestIndex atoms used boundVariables = some i ∧ used[i]? = some false ∧
    i < atoms.length := by
  have hfold : ∀ (indices : List ℕ) (best : Option ℕ × ℤ) (seen : List ℕ),
    Found atoms used best seen →
      Found atoms used (indices.foldl (consider atoms used boundVariables) best)
        (indices.reverse ++ seen) := by
    intro indices
    induction indices with
    | nil => exact fun best seen hfnd => hfnd
    | cons index indices ih =>
      intro best seen hfnd
      rw [reverse_cons, append_assoc]
      exact ih _ _ (hfnd.consider boundVariables index)
  have hfnd := hfold (List.range atoms.length).reverse (none, -1000) []
    ⟨fun _ => ⟨rfl, nofun⟩, nofun⟩
  cases hbest : bestIndex atoms used boundVariables with
  | some i => exact ⟨i, rfl, hfnd.index i hbest⟩
  | none =>
    obtain ⟨i, hi, hused⟩ := exists_of_unused_ne_nil h
    exact absurd hused ((hfnd.nothing hbest).2 i (by simp [hi]) hi)

theorem exists_swapLoop {fuel : ℕ} {reordered : List QueryAtom}
    (hperm : (reordered ++ unused atoms used).Perm atoms)
    (hfuel : (unused atoms used).length ≤ fuel) :
    ∃ ordered, swapLoop atoms fuel used reordered boundVariables = some ordered ∧
    ordered.Perm atoms := by
  have hlen : reordered.length + (unused atoms used).length = atoms.length := by
    rw [← length_append]
    exact hperm.length_eq
  induction fuel generalizing used reordered boundVariables with
  | zero =>
    have hnil : unused atoms used = [] := length_eq_zero_iff.mp (Nat.le_zero.mp hfuel)
    rw [hnil, append_nil] at hperm
    refine ⟨reordered, ?_, hperm⟩
    rw [swapLoop, if_pos hperm.length_eq]
  | succ fuel ih =>
    by_cases hnil : unused atoms used = []
    · rw [hnil, append_nil] at hperm
      refine ⟨reordered, ?_, hperm⟩
      rw [swapLoop, if_pos hperm.length_eq]
    · obtain ⟨i, hbest, hused, hi⟩ := exists_bestIndex boundVariables hnil
      have hpos := length_pos_iff.mpr hnil
      have hatom : atoms[i]? = some atoms[i] := getElem?_eq_getElem hi
      have hset := perm_unused_set hused hatom
      have hshorter := hset.length_eq
      rw [length_cons] at hshorter
      rw [swapLoop, if_neg (by omega)]
      simp only [hbest, hatom]
      refine ih _ ?_ (by omega) ?_
      · rw [append_assoc]
        exact (hset.symm.append_left reordered).trans hperm
      · rw [length_append, length_singleton]
        omega

theorem exists_swapBodyAtoms (atoms : List QueryAtom) :
    ∃ ordered, swapBodyAtoms atoms = some ordered ∧ ordered.Perm atoms := by
  cases atoms with
  | nil => exact ⟨[], rfl, List.Perm.refl _⟩
  | cons atom atoms =>
    have hunused : unused (atom :: atoms) (true :: List.replicate atoms.length false) = atoms :=
      unused_replicate atoms
    refine exists_swapLoop _ ?_ ?_
    · rw [hunused]
      exact List.Perm.refl _
    · rw [hunused]

end order

section evaluation

variable {rawKey : DLPredicate → Fin (2 ^ 61)} {M : Materialization rawKey} {σ : Assignment}
    {atoms : List QueryAtom} {atom : QueryAtom}

theorem forM_eq_ok_iff {α : Type} {f : α → Except String Unit} {l : List α} : l.forM f = .ok () ↔
    ∀ a ∈ l, f a = .ok () := by
  induction l with
  | nil => exact iff_of_true rfl nofun
  | cons a l ih =>
    have hcons : (a :: l).forM f = (f a).bind fun _ => l.forM f := rfl
    rw [hcons, forall_mem_cons]
    cases ha : f a with
    | error message => exact iff_of_false nofun fun h => nomatch h.1
    | ok u => exact ih.trans (and_iff_right rfl).symm

variable {n : NodeId}

theorem validateTerm_of_value {t : QueryTerm} (h : t.value M σ = some n) :
    validateTerm M t = .ok () := by
  cases t with
  | var v => rfl
  | individual iri =>
    rw [QueryTerm.value] at h
    rw [validateTerm, h]
    rfl

theorem validateAtom_concept {classExpression : ClassExpr} {term : QueryTerm} :
    validateAtom M (.concept classExpression term) = .ok () ↔
      (∃ concept, conceptOf classExpression = .ok concept) ∧ validateTerm M term = .ok () := by
  have hterms : (QueryAtom.concept classExpression term).terms.forM (validateTerm M) = .ok () ↔
      validateTerm M term = .ok () := by
    rw [forM_eq_ok_iff, QueryAtom.terms, forall_mem_singleton]
  cases hconc : conceptOf classExpression with
  | error message =>
    refine iff_of_false ?_ ?_
    · have herror : validateAtom M (.concept classExpression term) = .error message := by
        rw [validateAtom]
        simp only [hconc]
        rfl
      rw [herror]
      intro h
      cases h
    · rintro ⟨⟨_, h⟩, -⟩
      cases h
  | ok concept =>
    have hok : validateAtom M (.concept classExpression term) =
        (QueryAtom.concept classExpression term).terms.forM (validateTerm M) := by
      rw [validateAtom]
      simp only [hconc]
      rfl
    rw [hok, hterms]
    exact (and_iff_right ⟨concept, rfl⟩).symm

theorem validateAtom_of_holds (h : atom.Holds M σ) : validateAtom M atom = .ok () := by
  have hpair : ∀ first second, atom.terms = [first, second] → ∀ related,
    HoldsBetween M σ first second related → atom.terms.forM (validateTerm M) = .ok () := by
    rintro first second hterms related ⟨a, b, ha, hb, -⟩
    rw [forM_eq_ok_iff, hterms, forall_mem_cons, forall_mem_singleton]
    exact ⟨validateTerm_of_value ha, validateTerm_of_value hb⟩
  cases atom with
  | concept classExpression term =>
    obtain ⟨concept, n, hconc, hn, -⟩ := h
    exact validateAtom_concept.mpr ⟨⟨concept, hconc⟩, validateTerm_of_value hn⟩
  | role property first second | equality first second | inequality first second =>
    exact hpair first second rfl _ h

/-! ## Evaluation -/

theorem satisfies_of_perm {atoms' : List QueryAtom} (hperm : atoms'.Perm atoms) :
    Satisfies M atoms' σ ↔ Satisfies M atoms σ := by
  simp only [Satisfies, hperm.mem_iff]

theorem isActive_of_holds (h : atom.Holds M σ) {v : String} (hv : .var v ∈ atom.terms)
    (hn : σ v = some n) :
    M.tableau.isActive n = true := by
  have hpair : ∀ first second, atom.terms = [first, second] → ∀ related : NodeId → NodeId → Prop,
      (∀ a b, related a b → M.tableau.isActive a = true ∧ M.tableau.isActive b = true) →
      HoldsBetween M σ first second related → M.tableau.isActive n = true := by
    rintro first second hterms related hact ⟨a, b, ha, hb, hab⟩
    rw [hterms, mem_pair] at hv
    rcases hv with rfl | rfl
    · cases hn.symm.trans ha
      exact (hact _ _ hab).1
    · cases hn.symm.trans hb
      exact (hact _ _ hab).2
  cases atom with
  | concept classExpression term =>
    obtain ⟨concept, m, -, hm, hholds⟩ := h
    cases mem_singleton.mp hv
    cases hn.symm.trans hm
    exact hholds.1
  | role property first second =>
    exact hpair first second rfl _ (fun a b hab => Materialization.isActive_of_holdsRole hab) h
  | equality first second | inequality first second =>
    exact hpair first second rfl _ (fun a b hab => hab.1) h

/-- The nodes of an answer are canonical. -/
theorem getCanonicalNode_of_satisfies (h : Satisfies M atoms σ) {v : String} (hn : σ v = some n) :
    M.tableau.getCanonicalNode n = some n := by
  obtain ⟨atom, hatom, hv⟩ := (h.1 v).mp (by rw [hn]; rfl)
  exact M.invariant.getCanonicalNode_of_isActive (isActive_of_holds (h.2 atom hatom) hv hn)

/-- The rows that reach the collector. -/
def reportedRows : Except String (List Row) → List Row
  | .ok rows => rows
  | .error _ => []

/-- A valid query reports one row for every answer, and any other one has no answers. -/
theorem exists_evaluate (M : Materialization rawKey) (query : ConjunctiveQuery) :
    ∃ (result : Except String (List Row)) (l : List Assignment), query.evaluate M = some result ∧
      reportedRows result = l.map (answerRow M query.answerTerms) ∧ l.Nodup ∧ ∀ σ, σ ∈ l ↔
      Satisfies M query.atoms σ := by
  rw [ConjunctiveQuery.evaluate]
  cases hval : query.atoms.forM (validateAtom M) with
  | error message =>
    refine ⟨.error message, [], rfl, rfl, nodup_nil, fun σ => iff_of_false not_mem_nil fun hσ => ?_⟩
    have hok := forM_eq_ok_iff.mpr fun atom hatom => validateAtom_of_holds (hσ.2 atom hatom)
    cases hval.symm.trans hok
  | ok u =>
    have hatoms := forM_eq_ok_iff.mp hval
    obtain ⟨ordered, hord, hperm⟩ := exists_swapBodyAtoms query.atoms
    have hname : ∀ classExpression term, .concept classExpression term ∈ ordered →
        ∃ concept, conceptOf classExpression = .ok concept := by
      intro classExpression term hmem
      exact (validateAtom_concept.mp (hatoms _ (hperm.mem_iff.mp hmem))).1
    obtain ⟨s, l, hrun, -, hnd, hmem⟩ :=
      continues_join query.answerTerms hname .empty _ Represents.empty
    refine ⟨.ok (l.map (answerRow M query.answerTerms)), l, ?_, rfl, hnd, fun σ => ?_⟩
    · dsimp only
      rw [hord, Option.bind_eq_bind, Option.bind_some, hrun]
      rfl
    · rw [hmem, solves_empty, satisfies_of_perm hperm]

/-- Whatever the order of the atoms, a query reports one row for every assignment of canonical nodes
to its variables under which all atoms hold. -/
theorem evaluate_permutation (M : Materialization rawKey) (query : ConjunctiveQuery) :
    ∃ answers : List Assignment, answers.Nodup ∧ (∀ σ, σ ∈ answers ↔ Satisfies M query.atoms σ) ∧
      (∀ σ ∈ answers, ∀ v n, σ v = some n → M.tableau.getCanonicalNode n = some n) ∧
      ∀ atoms, atoms.Perm query.atoms → ∃ result,
      ConjunctiveQuery.evaluate ⟨atoms, query.answerTerms⟩ M = some result ∧
        (reportedRows result).Perm (answers.map (answerRow M query.answerTerms)) := by
  obtain ⟨-, answers, -, -, hnd, hmem⟩ := exists_evaluate M query
  refine ⟨answers, hnd, hmem, fun σ hσ v n hn =>
      getCanonicalNode_of_satisfies ((hmem σ).mp hσ) hn, fun atoms hperm => ?_⟩
  obtain ⟨result, l, hres, hrows, hnd', hmem'⟩ := exists_evaluate M ⟨atoms, query.answerTerms⟩
  refine ⟨result, hres, ?_⟩
  rw [hrows]
  apply List.Perm.map
  rw [perm_ext_iff_of_nodup hnd' hnd]
  intro σ
  rw [hmem', hmem, satisfies_of_perm hperm]

/-- The keys of a role, of a concept and of all other predicates. -/
def friendKeys (predicate : DLPredicate) : Fin (2 ^ 61) :=
  if predicate = .atomicRole ⟨"r"⟩ then 1 else if predicate = .atomicConcept ⟨"B"⟩ then 2 else 0

/-- The nodes of two individuals. -/
def twoNodes : Tableau :=
  ((Tableau.new false false).createNewNode .namedNode none).createNewNode .namedNode none

/-- The individual `a` is related to `b`, which is in `B`. -/
theorem exists_friends : ∃ M : Materialization friendKeys,
    M.termToNode = AList.insert ⟨"b"⟩ 1 (AList.insert ⟨"a"⟩ 0 ∅) ∧
      M.HoldsConcept ⟨"B"⟩ 1 ∧ M.HoldsPair (Materialization.roleLabel friendKeys ⟨"r"⟩) 0 1 := by
  obtain ⟨_, y, hy, -, hmem⟩ := (.new : ExtensionTable.Reachable .binary 0 _).exists_store
    (Tableau.nodeColumns_pair (Materialization.conceptLabel friendKeys ⟨"B"⟩) 1)
  obtain ⟨_, z, hz, -, hmem'⟩ := (.new : ExtensionTable.Reachable .ternary 0 _).exists_store
    (Tableau.nodeColumns_triple (Materialization.roleLabel friendKeys ⟨"r"⟩) 0 1)
  have hconcept : twoNodes.addBinary friendKeys (Materialization.conceptLabel friendKeys ⟨"B"⟩) 1 =
      some { twoNodes with binaryExtensionTable := y } := by
    rw [Tableau.addBinary, if_pos (by decide)]
    exact congrArg (Option.map _) hy
  have hrole : Tableau.addTernary { twoNodes with binaryExtensionTable := y } friendKeys
      (Materialization.roleLabel friendKeys ⟨"r"⟩) 0 1 =
        some { twoNodes with binaryExtensionTable := y, ternaryExtensionTable := z } := by
    have hadds : (twoNodes.isActive 0 && twoNodes.isActive 1 &&
      twoNodes.passes friendKeys (Materialization.roleLabel friendKeys ⟨"r"⟩)) = true := by decide
    exact (if_pos hadds).trans (congrArg (Option.map _) hz)
  have hnodes : Tableau.Reachable friendKeys twoNodes :=
    .createNewNode _ _ (.createNewNode _ _ (.new _ _) (by decide) fun _ => rfl) (by decide)
      fun _ => rfl
  have hreach := (hnodes.addBinary _ _ (by decide) hconcept).addTernary _ _ _ hrole
  refine ⟨⟨_, AList.insert ⟨"b"⟩ 1 (AList.insert ⟨"a"⟩ 0 ∅), hreach, fun individual n h => ?_⟩, rfl,
    ⟨rfl, (hmem _).mpr (.inr rfl)⟩, ⟨rfl, rfl⟩, (hmem' _).mpr (.inr rfl)⟩
  by_cases hb : individual = ⟨"b"⟩
  · rw [hb, AList.lookup_insert] at h
    cases h
    exact ⟨_, rfl, by decide⟩
  · rw [AList.lookup_insert_ne hb] at h
    by_cases ha : individual = ⟨"a"⟩
    · rw [ha, AList.lookup_insert] at h
      cases h
      exact ⟨_, rfl, by decide⟩
    · rw [AList.lookup_insert_ne ha] at h
      cases h

theorem evaluate_permutation_friends :
    ∃ (M : Materialization friendKeys) (answers : List Assignment),
      (∃ σ ∈ answers, answerRow M [.var "x"] σ = [some "a"]) ∧ ∃ result,
        ConjunctiveQuery.evaluate ⟨[.concept (.class "B") (.var "y"),
          .role (.objectProperty "r") (.var "x") (.var "y")], [.var "x"]⟩ M = some result ∧
        (reportedRows result).Perm (answers.map (answerRow M [.var "x"])) := by
  obtain ⟨M, hterms, hconcept, hrole⟩ := exists_friends
  obtain ⟨answers, -, hmem, -, hperm⟩ := evaluate_permutation M
    ⟨[.role (.objectProperty "r") (.var "x") (.var "y"), .concept (.class "B") (.var "y")],
      [.var "x"]⟩
  have hrow : M.nodeToTerm.lookup 0 = some ⟨"a"⟩ := by
    rw [Materialization.nodeToTerm, hterms]
    decide
  refine ⟨M, answers, ⟨fun v => if v = "x" then some 0 else if v = "y" then some 1 else none,
    (hmem _).mpr ⟨fun v => ?_, ?_⟩, ?_⟩, hperm _ (List.Perm.swap _ _ _)⟩
  · by_cases hx : v = "x"
    · simp [hx, QueryAtom.terms]
    · by_cases hy : v = "y" <;> simp [hx, hy, QueryAtom.terms]
  · intro atom hatom
    rcases mem_pair.mp hatom with rfl | rfl
    · exact ⟨0, 1, rfl, rfl, hrole⟩
    · exact ⟨⟨"B"⟩, 1, rfl, rfl, hconcept⟩
  · simp [answerRow, hrow]

end evaluation

end Hermit.Datalog
