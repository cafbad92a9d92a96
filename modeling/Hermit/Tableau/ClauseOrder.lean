import Hermit.Tableau.ClauseSimulation

/-! # Groups of clauses and the order of their bodies

Clauses with one body form a group, and every atom of the body with an extension is made the delta
atom once.  The other atoms are placed greedily; a comparison is never placed before its variables
are bound.
-/

namespace Hermit

open List Option

/-! ## Groups -/

/-- Add a clause to the group of its body. -/
def addToGroups : List (DLClause × List DLClause) → DLClause → List (DLClause × List DLClause)
  | [], dlClause => [(dlClause, [dlClause])]
  | (representative, members) :: groups, dlClause =>
    if representative.bodyAtoms = dlClause.bodyAtoms
      then (representative, members ++ [dlClause]) :: groups
    else (representative, members) :: addToGroups groups dlClause

def groupByBody (dlClauses : List DLClause) : List (DLClause × List DLClause) :=
  dlClauses.foldl addToGroups []

/-- The first member of a group is its representative, and all have its body. -/
def IsGroup (dlClauses : List DLClause) (group : DLClause × List DLClause) : Prop :=
  group.2.head? = some group.1 ∧ ∀ c ∈ group.2, c ∈ dlClauses ∧ c.bodyAtoms = group.1.bodyAtoms

variable {dlClauses : List DLClause}

theorem isGroup_of_mem_addToGroups {dlClause : DLClause} (hmem : dlClause ∈ dlClauses)
    {groups : List (DLClause × List DLClause)} (h : ∀ group ∈ groups, IsGroup dlClauses group) :
    ∀ group ∈ addToGroups groups dlClause, IsGroup dlClauses group := by
  induction groups with
  | nil =>
    intro group hgroup
    obtain rfl := mem_singleton.mp hgroup
    refine ⟨rfl, fun c hc => ?_⟩
    obtain rfl := mem_singleton.mp hc
    exact ⟨hmem, rfl⟩
  | cons first groups ih =>
    obtain ⟨representative, members⟩ := first
    have hfst := h _ mem_cons_self
    rw [addToGroups]
    split
    · rename_i hbody
      intro group hgroup
      rcases mem_cons.mp hgroup with rfl | hgroup
      · refine ⟨by rw [head?_append, hfst.1]; rfl, fun c hc => ?_⟩
        rcases mem_append.mp hc with hc | hc
        · exact hfst.2 c hc
        · obtain rfl := mem_singleton.mp hc
          exact ⟨hmem, hbody.symm⟩
      · exact h group (mem_cons_of_mem _ hgroup)
    · intro group hgroup
      rcases mem_cons.mp hgroup with rfl | hgroup
      · exact hfst
      · exact ih (fun group hgroup => h group (mem_cons_of_mem _ hgroup)) group hgroup

theorem isGroup_of_mem_groupByBody : ∀ group ∈ groupByBody dlClauses, IsGroup dlClauses group := by
  have hfold : ∀ (rest : List DLClause) (groups : List (DLClause × List DLClause)),
    rest ⊆ dlClauses → (∀ group ∈ groups, IsGroup dlClauses group) →
      ∀ group ∈ rest.foldl addToGroups groups, IsGroup dlClauses group := by
    intro rest
    induction rest with
    | nil => exact fun groups _ h => h
    | cons c rest ih =>
      intro groups hsub h
      rw [cons_subset] at hsub
      exact ih _ hsub.2 (isGroup_of_mem_addToGroups hsub.1 h)
  exact hfold dlClauses [] (List.Subset.refl _) nofun

/-! ## The order of a body -/

def Atom.getArgumentVariable (atom : Atom) (argumentIndex : ℕ) : Option Variable :=
  atom.arguments[argumentIndex]?.bind Term.asVariable

/-- How good it is to place an atom next.  Comparisons are bad until their variables are bound. -/
def getAtomGoodness (atom : Atom) (boundVariables : List Variable)
    (nodeIdComparisonAtoms : List Atom) : ℤ :=
  match atom.dlPredicate with
  | .nodeIdLessEqualThan =>
    if (atom.getArgumentVariable 0).any (· ∈ boundVariables) ∧
      (atom.getArgumentVariable 1).any (· ∈ boundVariables)
    then 1000 else -2000
  | .nodeIDsAscendingOrEqual _ => if ∀ v ∈ atom.variables, v ∈ boundVariables then 5000 else -5000
  | predicate =>
    let bound := (atom.variables.filter (· ∈ boundVariables)).length
    let unbound := (atom.variables.filter (· ∉ boundVariables)).length
    let goodness : ℤ := bound * 100 - unbound * 10
    if predicate.arity = 2 ∧ unbound = 1 then
      let first := atom.getArgumentVariable 0
      let unboundVariable := if first.any (· ∈ boundVariables)
        then atom.getArgumentVariable 1 else first
      -- An atom that binds the last variable of a comparison is a little better.
      let isCompared := unboundVariable.any fun v => nodeIdComparisonAtoms.any fun compareAtom =>
        (compareAtom.getArgumentVariable 0).any (fun w => w ∈ boundVariables ∨ v = w) &&
          (compareAtom.getArgumentVariable 1).any (fun w => w ∈ boundVariables ∨ v = w)
      if isCompared then goodness + 5 else goodness
    else goodness

section order

variable (body : List Atom)

/-- The best atom that is not used; the search goes from the last, which wins among equal ones. -/
def bestAtomIndex (usedAtoms : List Bool) (boundVariables : List Variable)
    (nodeIdComparisonAtoms : List Atom) :
    Option ℕ :=
  ((List.range body.length).reverse.foldl (fun best currentIndex =>
    match usedAtoms[currentIndex]?, body[currentIndex]? with
    | some false, some atom =>
      let goodness := getAtomGoodness atom boundVariables nodeIdComparisonAtoms
      if goodness > best.2 then (some currentIndex, goodness) else best
    | _, _ => best) ((none : Option ℕ), (-1000 : ℤ))).1

/-- Place a number of further atoms; without a good one the source leaves its arrays. -/
def placeAtoms : ℕ → List Bool → List Variable → List Atom → List Atom → Option (List Atom)
  | 0, _, _, _, reorderedAtoms => some reorderedAtoms
  | count + 1, usedAtoms, boundVariables, nodeIdComparisonAtoms, reorderedAtoms => do
    let bestAtomIndex ← bestAtomIndex body usedAtoms boundVariables nodeIdComparisonAtoms
    let bestAtom ← body[bestAtomIndex]?
    placeAtoms count (usedAtoms.set bestAtomIndex true)
      (bestAtom.variables.foldl insertSet boundVariables)
      (nodeIdComparisonAtoms.erase bestAtom) (reorderedAtoms ++ [bestAtom])

end order

def swapBodyToFront (dlClause : DLClause) (index : ℕ) : Option DLClause := do
  let body := dlClause.bodyAtoms
  let delta ← body[index]?
  let nodeIdComparisonAtoms := body.reverse.filter fun atom =>
      atom.dlPredicate = .nodeIdLessEqualThan
  let reorderedAtoms ← placeAtoms body (body.length - 1)
    ((List.replicate body.length false).set index true)
    (delta.variables.foldl insertSet []) nodeIdComparisonAtoms [delta]
  return ⟨dlClause.headAtoms, reorderedAtoms⟩

/-- Comparisons come after their variables. -/
inductive Placed : Set Variable → List Atom → Prop
  | nil {bound} : Placed bound []
  | cons {bound atom atoms} :
      (isPredicateWithExtension atom.dlPredicate = false → ∀ v ∈ atom.variables, v ∈ bound) →
      Placed (bound ∪ {v | v ∈ atom.variables}) atoms → Placed bound (atom :: atoms)

theorem forall_bound_of_goodness {atom : Atom} {boundVariables : List Variable}
    {nodeIdComparisonAtoms : List Atom}
    (h : -1000 < getAtomGoodness atom boundVariables nodeIdComparisonAtoms)
    (hcmp : isPredicateWithExtension atom.dlPredicate = false) : ∀ v ∈ atom.variables,
    v ∈ boundVariables := by
  unfold getAtomGoodness at h
  split at h
  · rename_i hp
    by_cases hbd : (atom.getArgumentVariable 0).any (· ∈ boundVariables) ∧
        (atom.getArgumentVariable 1).any (· ∈ boundVariables)
    · have hlen := atom.arity_eq
      rw [hp] at hlen
      obtain ⟨hfst, hsnd⟩ := hbd
      intro v hv
      rw [mem_variables_iff] at hv
      obtain ⟨k, hk⟩ := mem_iff_getElem?.mp hv
      have hlt := (List.getElem?_eq_some_iff.mp hk).1
      have hk' : k = 0 ∨ k = 1 := by
        rw [← hlen, DLPredicate.arity] at hlt
        omega
      rcases hk' with rfl | rfl
      · simpa [Atom.getArgumentVariable, hk, Term.asVariable] using hfst
      · simpa [Atom.getArgumentVariable, hk, Term.asVariable] using hsnd
    · rw [if_neg hbd] at h
      omega
  · by_cases hbd : ∀ v ∈ atom.variables, v ∈ boundVariables
    · exact hbd
    · rw [if_neg hbd] at h
      omega
  · rename_i hnotLess hasc
    exfalso
    unfold isPredicateWithExtension at hcmp
    split at hcmp
    · rename_i hp
      exact hnotLess hp
    · rename_i arity hp
      exact hasc arity hp
    · cases hcmp

section order

variable {body : List Atom}
variable {usedAtoms : List Bool} {boundVariables : List Variable}

/-- The best atom is an unused one, and good enough. -/
theorem bestAtomIndex_spec {nodeIdComparisonAtoms : List Atom} {i : ℕ}
    (h : bestAtomIndex body usedAtoms boundVariables nodeIdComparisonAtoms = some i) :
    usedAtoms[i]? = some false ∧ ∃ atom, body[i]? = some atom ∧
      -1000 < getAtomGoodness atom boundVariables nodeIdComparisonAtoms := by
  have hfold : ∀ (indexes : List ℕ) (best : Option ℕ × ℤ),
      (-1000 ≤ best.2 ∧ ∀ i, best.1 = some i → usedAtoms[i]? = some false ∧ ∃ atom,
        body[i]? = some atom ∧
        -1000 < getAtomGoodness atom boundVariables nodeIdComparisonAtoms) →
      ∀ i, (indexes.foldl (fun best currentIndex =>
        match usedAtoms[currentIndex]?, body[currentIndex]? with
        | some false, some atom =>
          let goodness := getAtomGoodness atom boundVariables nodeIdComparisonAtoms
          if goodness > best.2 then (some currentIndex, goodness) else best
        | _, _ => best) best).1 = some i →
      usedAtoms[i]? = some false ∧ ∃ atom, body[i]? = some atom ∧
        -1000 < getAtomGoodness atom boundVariables nodeIdComparisonAtoms := by
    intro indexes
    induction indexes with
    | nil => exact fun best hbest i hi => hbest.2 i hi
    | cons currentIndex indexes ih =>
      intro best hbest i hi
      rw [foldl_cons] at hi
      refine ih _ ?_ i hi
      split
      · rename_i atom hused hatom
        dsimp only
        split
        · rename_i hgood
          refine ⟨by dsimp only; omega, fun j hj => ?_⟩
          obtain rfl := some.inj hj
          exact ⟨hused, atom, hatom, by omega⟩
        · exact hbest
      · exact hbest
  refine hfold _ _ ⟨le_rfl, fun j hj => ?_⟩ i h
  cases hj

/-- The atoms that are not used yet. -/
def unusedAtoms : List Atom → List Bool → List Atom
  | atom :: body, false :: usedAtoms => atom :: unusedAtoms body usedAtoms
  | _ :: body, true :: usedAtoms => unusedAtoms body usedAtoms
  | _, _ => []

theorem perm_unusedAtoms {i : ℕ} {atom : Atom} (hatom : body[i]? = some atom)
    (hused : usedAtoms[i]? = some false) :
    (unusedAtoms body usedAtoms).Perm (atom :: unusedAtoms body (usedAtoms.set i true)) := by
  induction body generalizing usedAtoms i with
  | nil => cases hatom
  | cons first body ih =>
    cases usedAtoms with
    | nil => cases hused
    | cons used usedAtoms =>
      cases i with
      | zero =>
        obtain rfl := some.inj hatom
        obtain rfl := some.inj hused
        exact .refl _
      | succ i =>
        have hperm := ih hatom hused
        cases used with
        | false => exact (hperm.cons first).trans (.swap _ _ _)
        | true => exact hperm

theorem unusedAtoms_replicate : unusedAtoms body (List.replicate body.length false) = body := by
  induction body with
  | nil => rfl
  | cons first body ih => exact congrArg (first :: ·) ih

theorem placeAtoms_spec {count : ℕ} {nodeIdComparisonAtoms reorderedAtoms result : List Atom}
    (h : placeAtoms body count usedAtoms boundVariables nodeIdComparisonAtoms reorderedAtoms =
      some result) (hcount : (unusedAtoms body usedAtoms).length = count) :
    ∃ rest, result = reorderedAtoms ++ rest ∧ rest.Perm (unusedAtoms body usedAtoms) ∧
      Placed {v | v ∈ boundVariables} rest := by
  induction count generalizing usedAtoms boundVariables nodeIdComparisonAtoms reorderedAtoms with
  | zero =>
    obtain rfl := some.inj h
    rw [length_eq_zero_iff] at hcount
    exact ⟨[], (append_nil _).symm, by rw [hcount], .nil⟩
  | succ count ih =>
    obtain ⟨i, hi, h⟩ := bind_eq_some_iff.mp h
    obtain ⟨best, hbest, h⟩ := bind_eq_some_iff.mp h
    obtain ⟨hused, atom, hatom, hgood⟩ := bestAtomIndex_spec hi
    obtain rfl := some.inj (hbest.symm.trans hatom)
    have hperm := perm_unusedAtoms hbest hused
    have hlen := hperm.length_eq
    rw [length_cons] at hlen
    obtain ⟨rest, hres, hrest, hplace⟩ := ih h (by omega)
    refine ⟨best :: rest, ?_, (hrest.cons best).trans hperm.symm,
      .cons (forall_bound_of_goodness hgood) ?_⟩
    · rw [hres, append_assoc]
      rfl
    · have hset : ({v | v ∈ best.variables.foldl insertSet boundVariables} : Set Variable) =
          {v | v ∈ boundVariables} ∪ {v | v ∈ best.variables} := by
        ext v
        exact mem_foldl_insertSet _ _ _
      rw [← hset]
      exact hplace

end order

/-- The delta atom comes first, all atoms stay, and comparisons come after their variables. -/
theorem swapBodyToFront_spec {dlClause swapped : DLClause} {index : ℕ}
    (h : swapBodyToFront dlClause index = some swapped) :
    ∃ delta rest, dlClause.bodyAtoms[index]? = some delta ∧ swapped.headAtoms = dlClause.headAtoms ∧
      swapped.bodyAtoms = delta :: rest ∧ swapped.bodyAtoms.Perm dlClause.bodyAtoms ∧
      Placed {v | v ∈ delta.variables} rest := by
  obtain ⟨delta, hdelta, h⟩ := bind_eq_some_iff.mp h
  obtain ⟨atoms, hatoms, h⟩ := bind_eq_some_iff.mp h
  obtain rfl := some.inj h
  have hlt := (List.getElem?_eq_some_iff.mp hdelta).1
  have hperm := perm_unusedAtoms hdelta (getElem?_replicate_of_lt (a := false) hlt)
  rw [unusedAtoms_replicate] at hperm
  have hlen := hperm.length_eq
  rw [length_cons] at hlen
  obtain ⟨rest, rfl, hrest, hplace⟩ := placeAtoms_spec hatoms (by omega)
  have hset : ({v | v ∈ delta.variables.foldl insertSet []} : Set Variable) =
      {v | v ∈ delta.variables} := by
    ext v
    exact (mem_foldl_insertSet _ _ _).trans (or_iff_right not_mem_nil)
  rw [hset] at hplace
  exact ⟨delta, rest, hdelta, rfl, rfl, (hrest.cons delta).trans hperm.symm, hplace⟩

end Hermit
