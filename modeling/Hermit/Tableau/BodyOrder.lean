import Hermit.Tableau.ClauseOrder

/-! # The order of a body never gets stuck

A comparison is good enough to be placed next when its variables are bound, and an atom with an
extension unless far more of its arguments are unbound than bound, as in an atom of a large
description graph.  Such an atom, and a comparison of two nodes with an argument that is not a
variable, leave the search for the best atom without one.
-/

namespace Hermit

open List Option

/-! ## Good enough atoms -/

section goodness

variable {atom : Atom} {boundVariables : List Variable} {nodeIdComparisonAtoms : List Atom}

/-- Enough variables are bound to place an atom with an extension: a bound one makes up for ten. -/
def Atom.EnoughBound (atom : Atom) (boundVariables : List Variable) : Prop :=
  (atom.variables.filter (· ∉ boundVariables)).length <
    100 + 10 * (atom.variables.filter (· ∈ boundVariables)).length

theorem goodness_of_extension (h : isPredicateWithExtension atom.dlPredicate = true) :
    -1000 < getAtomGoodness atom boundVariables nodeIdComparisonAtoms ↔
      atom.EnoughBound boundVariables := by
  unfold getAtomGoodness Atom.EnoughBound
  split
  · rename_i hp
    rw [hp] at h
    cases h
  · rename_i hp
    rw [hp] at h
    cases h
  · dsimp only
    split
    · split <;> omega
    · omega

theorem Atom.EnoughBound.mono (h : atom.EnoughBound boundVariables) {bound : List Variable}
    (hsub : ∀ v ∈ boundVariables, v ∈ bound) :
    atom.EnoughBound bound := by
  unfold Atom.EnoughBound at h ⊢
  have hunbound : (atom.variables.filter (· ∉ bound)).length ≤
      (atom.variables.filter (· ∉ boundVariables)).length := by
    rw [← countP_eq_length_filter, ← countP_eq_length_filter]
    refine countP_mono_left fun v _ hv => ?_
    rw [decide_eq_true_eq] at hv ⊢
    exact fun hmem => hv (hsub v hmem)
  have hbd : (atom.variables.filter (· ∈ boundVariables)).length ≤
      (atom.variables.filter (· ∈ bound)).length := by
    rw [← countP_eq_length_filter, ← countP_eq_length_filter]
    refine countP_mono_left fun v _ hv => ?_
    rw [decide_eq_true_eq] at hv ⊢
    exact hsub v hv
  omega

theorem Atom.enoughBound_of_forall (h : ∀ v ∈ atom.variables, v ∈ boundVariables) :
    atom.EnoughBound boundVariables := by
  have hnone : atom.variables.filter (· ∉ boundVariables) = [] := by
    rw [filter_eq_nil_iff]
    intro v hv hnot
    exact of_decide_eq_true hnot (h v hv)
  rw [Atom.EnoughBound, hnone, length_nil]
  omega

/-- All arguments are variables. -/
def Atom.VariablesOnly (atom : Atom) : Prop := ∀ term ∈ atom.arguments, ∃ v, term = .variable v

theorem Atom.VariablesOnly.getArgumentVariable (h : atom.VariablesOnly) {k : ℕ}
    (hk : k < atom.arguments.length) :
    ∃ v ∈ atom.variables, atom.getArgumentVariable k = some v := by
  obtain ⟨v, hv⟩ := h _ (getElem_mem hk)
  refine ⟨v, mem_variables_iff.mpr (hv ▸ getElem_mem hk), ?_⟩
  rw [Atom.getArgumentVariable, getElem?_eq_getElem hk, bind_some, hv]
  rfl

theorem goodness_of_comparison (h : isPredicateWithExtension atom.dlPredicate = false)
    (hvars : atom.dlPredicate = .nodeIdLessEqualThan → atom.VariablesOnly)
    (hbd : ∀ v ∈ atom.variables, v ∈ boundVariables) :
    -1000 < getAtomGoodness atom boundVariables nodeIdComparisonAtoms := by
  unfold getAtomGoodness
  split
  · rename_i hp
    have hlen : atom.arguments.length = 2 := by
      rw [← atom.arity_eq, hp]
      rfl
    have harg : ∀ k < 2, (atom.getArgumentVariable k).any (· ∈ boundVariables) = true := by
      intro k hk
      obtain ⟨v, hv, heq⟩ := (hvars hp).getArgumentVariable (hlen ▸ hk)
      rw [heq, any_some, decide_eq_true_eq]
      exact hbd v hv
    rw [if_pos ⟨harg 0 Nat.zero_lt_two, harg 1 Nat.one_lt_two⟩]
    omega
  · rw [if_pos hbd]
    omega
  · rename_i hnotLess hasc
    exfalso
    unfold isPredicateWithExtension at h
    split at h
    · rename_i hp
      exact hnotLess hp
    · rename_i arity hp
      exact hasc arity hp
    · cases h

/-- A comparison of two nodes that is good enough has two variables. -/
theorem variablesOnly_of_goodness (hp : atom.dlPredicate = .nodeIdLessEqualThan)
    (h : -1000 < getAtomGoodness atom boundVariables nodeIdComparisonAtoms) :
    atom.VariablesOnly := by
  unfold getAtomGoodness at h
  rw [hp] at h
  dsimp only at h
  split at h
  · rename_i hbd
    have hlen : atom.arguments.length = 2 := by
      rw [← atom.arity_eq, hp]
      rfl
    have hvar : ∀ (k : ℕ) (term : Term), atom.arguments[k]? = some term →
        (atom.getArgumentVariable k).any (· ∈ boundVariables) = true → ∃ v, term = .variable v := by
      intro k term hk hany
      rw [Atom.getArgumentVariable, hk, bind_some] at hany
      cases term with
      | «variable» v => exact ⟨v, rfl⟩
      | individual _ => cases hany
      | constant _ => cases hany
    intro term hterm
    obtain ⟨k, hk⟩ := mem_iff_getElem?.mp hterm
    have hlt := (List.getElem?_eq_some_iff.mp hk).1
    have hcases : k = 0 ∨ k = 1 := by omega
    rcases hcases with rfl | rfl
    · exact hvar 0 term hk hbd.1
    · exact hvar 1 term hk hbd.2
  · omega

end goodness

section search

variable {body : List Atom} {usedAtoms : List Bool} {boundVariables : List Variable}
    {nodeIdComparisonAtoms : List Atom}
variable {i : ℕ}

/-- The better of the best atom so far and the one at the index. -/
def betterAtom (body : List Atom) (usedAtoms : List Bool) (boundVariables : List Variable)
    (nodeIdComparisonAtoms : List Atom) (best : Option ℕ × ℤ) (currentIndex : ℕ) : Option ℕ × ℤ :=
  match usedAtoms[currentIndex]?, body[currentIndex]? with
  | some false, some atom =>
    let goodness := getAtomGoodness atom boundVariables nodeIdComparisonAtoms
    if goodness > best.2 then (some currentIndex, goodness) else best
  | _, _ => best

/-- The search finds an atom if one is good enough. -/
theorem bestAtomIndex_ne_none {atom : Atom} (hused : usedAtoms[i]? = some false)
    (hatom : body[i]? = some atom)
    (hgood : -1000 < getAtomGoodness atom boundVariables nodeIdComparisonAtoms) :
    bestAtomIndex body usedAtoms boundVariables nodeIdComparisonAtoms ≠ none := by
  have hfold : ∀ (indexes : List ℕ) (best : Option ℕ × ℤ), (best.1 = none → best.2 = -1000) →
      best.1 ≠ none ∨ i ∈ indexes →
      (indexes.foldl (betterAtom body usedAtoms boundVariables nodeIdComparisonAtoms) best).1 ≠
        none := by
    intro indexes
    induction indexes with
    | nil =>
      intro best _ hfnd
      exact hfnd.resolve_right not_mem_nil
    | cons currentIndex indexes ih =>
      intro best hbest hfnd
      rw [foldl_cons, betterAtom]
      split
      · rename_i current hcurrentUsed hcur
        dsimp only
        split
        · exact ih _ (fun h => absurd h (some_ne_none _)) (.inl (some_ne_none _))
        · rename_i hless
          refine ih best hbest ?_
          rcases hfnd with hsome | hmem
          · exact .inl hsome
          · rcases mem_cons.mp hmem with rfl | hmem
            · obtain rfl := some.inj (hcur.symm.trans hatom)
              refine .inl fun hnone => hless ?_
              rw [hbest hnone]
              exact hgood
            · exact .inr hmem
      · rename_i hskip
        refine ih best hbest (hfnd.imp_right fun hmem => ?_)
        rcases mem_cons.mp hmem with rfl | hmem
        · exact absurd hatom (hskip atom hused)
        · exact hmem
  refine hfold _ _ (fun _ => rfl) (.inr ?_)
  rw [mem_reverse, mem_range]
  exact (List.getElem?_eq_some_iff.mp hatom).1

/-! ## Placing all atoms -/

/-- Each variable of a comparison occurs in an atom with an extension. -/
def ComparisonsCovered (body : List Atom) : Prop :=
  ∀ atom ∈ body, isPredicateWithExtension atom.dlPredicate = false → ∀ v ∈ atom.variables,
    ∃ other ∈ body, isPredicateWithExtension other.dlPredicate = true ∧ v ∈ other.variables

/-- The comparisons of two nodes are between variables. -/
def ComparesVariables (body : List Atom) : Prop :=
  ∀ atom ∈ body, atom.dlPredicate = .nodeIdLessEqualThan → atom.VariablesOnly

/-- The atoms can be placed in their order, each with enough variables bound. -/
inductive Placeable : List Variable → List Atom → Prop
  | nil {bound} : Placeable bound []
  | cons {bound atom atoms} : atom.EnoughBound bound →
      Placeable (bound ++ atom.variables) atoms → Placeable bound (atom :: atoms)

/-- The atoms with an extension. -/
def extensionAtoms (atoms : List Atom) : List Atom :=
  atoms.filter fun atom => isPredicateWithExtension atom.dlPredicate

/-- Some order of the other atoms with an extension can be placed after the delta atom. -/
def PlaceableAfter (body : List Atom) (delta : Atom) : Prop :=
  ∃ atoms, (delta :: atoms).Perm (extensionAtoms body) ∧ Placeable delta.variables atoms

theorem extensionAtoms_cons_of_pos {atom : Atom} (atoms : List Atom)
    (h : isPredicateWithExtension atom.dlPredicate = true) :
    extensionAtoms (atom :: atoms) = atom :: extensionAtoms atoms :=
  filter_cons_of_pos h

theorem extensionAtoms_cons_of_neg {atom : Atom} (atoms : List Atom)
    (h : isPredicateWithExtension atom.dlPredicate = false) :
    extensionAtoms (atom :: atoms) = extensionAtoms atoms :=
  filter_cons_of_neg (Bool.eq_false_iff.mp h)

variable {bound bound' : List Variable}

theorem Placeable.mono {atoms : List Atom}
    (h : Placeable bound atoms) (hsub : ∀ v ∈ bound, v ∈ bound') : Placeable bound' atoms := by
  induction h generalizing bound' with
  | nil => exact .nil
  | @cons bound atom atoms hatom _ ih =>
    refine .cons (hatom.mono hsub) (ih fun v hv => ?_)
    exact mem_append.mpr ((mem_append.mp hv).imp_left (hsub v))

/-- If the variables of the placed atoms are bound, the first of the others can be placed. -/
theorem Placeable.exists_enough {atoms : List Atom}
    (h : Placeable bound atoms) {unused : Atom → Prop} (hsub : ∀ v ∈ bound, v ∈ bound')
    (hused : ∀ atom ∈ atoms, ¬ unused atom → ∀ v ∈ atom.variables, v ∈ bound')
    (hex : ∃ atom ∈ atoms, unused atom) :
    ∃ atom ∈ atoms, unused atom ∧ atom.EnoughBound bound' := by
  induction h with
  | nil =>
    obtain ⟨atom, hatom, -⟩ := hex
    cases hatom
  | @cons bound atom atoms hatom _ ih =>
    by_cases hunused : unused atom
    · exact ⟨atom, mem_cons_self, hunused, hatom.mono hsub⟩
    · have hbd : ∀ v ∈ bound ++ atom.variables, v ∈ bound' := by
        intro v hv
        rcases mem_append.mp hv with hv | hv
        · exact hsub v hv
        · exact hused atom mem_cons_self hunused v hv
      have hrest : ∃ other ∈ atoms, unused other := by
        obtain ⟨other, hoth, hotherUnused⟩ := hex
        rcases mem_cons.mp hoth with rfl | hoth
        · exact absurd hotherUnused hunused
        · exact ⟨other, hoth, hotherUnused⟩
      obtain ⟨other, hoth, hgood⟩ :=
        ih hbd (fun other hoth => hused other (mem_cons_of_mem _ hoth)) hrest
      exact ⟨other, mem_cons_of_mem _ hoth, hgood⟩

/-- The variables of the delta atom and of the used atoms are bound. -/
structure UsedBound (body : List Atom) (delta : Atom) (usedAtoms : List Bool)
    (boundVariables : List Variable) : Prop where
  length : usedAtoms.length = body.length
  delta_bound : ∀ v ∈ delta.variables, v ∈ boundVariables
  bound : ∀ (i : ℕ) (atom : Atom), usedAtoms[i]? = some true → body[i]? = some atom →
    ∀ v ∈ atom.variables, v ∈ boundVariables

variable {delta : Atom}

section

variable (h : UsedBound body delta usedAtoms boundVariables)
include h

theorem UsedBound.place {atom : Atom} (hatom : body[i]? = some atom) :
    UsedBound body delta (usedAtoms.set i true)
      (atom.variables.foldl insertSet boundVariables) where
  length := length_set.trans h.length
  delta_bound := fun v hv => (mem_foldl_insertSet _ _ _).mpr (.inl (h.delta_bound v hv))
  bound := by
    intro j other hused hoth v hv
    rw [mem_foldl_insertSet]
    by_cases hij : i = j
    · subst hij
      obtain rfl := some.inj (hatom.symm.trans hoth)
      exact .inr hv
    · rw [getElem?_set_ne hij] at hused
      exact .inl (h.bound j other hused hoth v hv)

/-- The variables of an atom are bound if it is used wherever it occurs. -/
theorem UsedBound.forall_bound {atom : Atom} (hatom : atom ∈ body)
    (hused : ¬ ∃ j : ℕ, usedAtoms[j]? = some false ∧ body[j]? = some atom) :
    ∀ v ∈ atom.variables, v ∈ boundVariables := by
  obtain ⟨j, hj⟩ := mem_iff_getElem?.mp hatom
  have hlt : j < usedAtoms.length := h.length ▸ (List.getElem?_eq_some_iff.mp hj).1
  refine h.bound j atom ?_ hj
  rw [getElem?_eq_getElem hlt, some_inj]
  by_contra hfls
  refine hused ⟨j, ?_, hj⟩
  rw [getElem?_eq_getElem hlt, Bool.eq_false_iff.mpr hfls]

/-- An atom with an extension can be placed; if none is left, all comparisons can. -/
theorem UsedBound.exists_good (hcov : ComparisonsCovered body) (hvars : ComparesVariables body)
    (hplc : PlaceableAfter body delta) (nodeIdComparisonAtoms : List Atom)
    (hi : usedAtoms[i]? = some false) :
    ∃ (j : ℕ) (atom : Atom), usedAtoms[j]? = some false ∧ body[j]? = some atom ∧
      -1000 < getAtomGoodness atom boundVariables nodeIdComparisonAtoms := by
  by_cases hext : ∃ (j : ℕ) (atom : Atom), usedAtoms[j]? = some false ∧ body[j]? = some atom ∧
      isPredicateWithExtension atom.dlPredicate = true
  · obtain ⟨j, atom, hused, hatom, hatomExtension⟩ := hext
    obtain ⟨atoms, hperm, hatoms⟩ := hplc
    have hmem : atom ∈ delta :: atoms :=
      hperm.mem_iff.mpr (mem_filter.mpr ⟨mem_of_getElem? hatom, hatomExtension⟩)
    rcases mem_cons.mp hmem with rfl | hmem
    · -- The delta atom occurs once more.
      have henough := Atom.enoughBound_of_forall h.delta_bound
      exact ⟨j, atom, hused, hatom, (goodness_of_extension hatomExtension).mpr henough⟩
    · have hbody : ∀ other ∈ atoms, other ∈ body ∧
          isPredicateWithExtension other.dlPredicate = true := fun other hoth =>
        mem_filter.mp (hperm.mem_iff.mp (mem_cons_of_mem delta hoth))
      obtain ⟨other, hoth, ⟨k, hk, hkother⟩, henough⟩ := hatoms.exists_enough h.delta_bound
        (fun other hoth hused => h.forall_bound (hbody other hoth).1 hused)
        ⟨atom, hmem, j, hused, hatom⟩
      exact ⟨k, other, hk, hkother, (goodness_of_extension (hbody other hoth).2).mpr henough⟩
  · have hlt : i < body.length := h.length ▸ (List.getElem?_eq_some_iff.mp hi).1
    have hatom := getElem?_eq_getElem hlt
    have hcmp : isPredicateWithExtension body[i].dlPredicate = false :=
      Bool.eq_false_iff.mpr fun htrue => hext ⟨i, _, hi, hatom, htrue⟩
    refine ⟨i, _, hi, hatom, goodness_of_comparison hcmp (hvars _ (getElem_mem hlt)) fun v hv => ?_⟩
    obtain ⟨other, hoth, hotherExtension, hv⟩ := hcov _ (getElem_mem hlt) hcmp v hv
    refine h.forall_bound hoth (fun hunused => hext ?_) v hv
    obtain ⟨j, hj, hjother⟩ := hunused
    exact ⟨j, other, hj, hjother, hotherExtension⟩

end

theorem exists_unused (hcount : 0 < (unusedAtoms body usedAtoms).length) : ∃ i : ℕ,
    usedAtoms[i]? = some false := by
  induction body generalizing usedAtoms with
  | nil => simp [unusedAtoms] at hcount
  | cons atom body ih =>
    match usedAtoms with
    | [] => simp [unusedAtoms] at hcount
    | false :: usedAtoms => exact ⟨0, rfl⟩
    | true :: usedAtoms =>
      obtain ⟨i, hi⟩ := ih hcount
      exact ⟨i + 1, hi⟩

theorem placeAtoms_ne_none (hcov : ComparisonsCovered body)
    (hvars : ComparesVariables body) (hplc : PlaceableAfter body delta) {count : ℕ}
    {reorderedAtoms : List Atom} (h : UsedBound body delta usedAtoms boundVariables)
    (hcount : (unusedAtoms body usedAtoms).length = count) :
    placeAtoms body count usedAtoms boundVariables nodeIdComparisonAtoms reorderedAtoms ≠ none := by
  induction count generalizing usedAtoms boundVariables nodeIdComparisonAtoms reorderedAtoms with
  | zero => exact some_ne_none _
  | succ count ih =>
    have hpos : 0 < (unusedAtoms body usedAtoms).length := by omega
    obtain ⟨j, hj⟩ := exists_unused hpos
    obtain ⟨k, atom, hk, hatom, hgood⟩ := h.exists_good hcov hvars hplc nodeIdComparisonAtoms hj
    obtain ⟨i, hi⟩ := ne_none_iff_exists'.mp (bestAtomIndex_ne_none hk hatom hgood)
    obtain ⟨hused, best, hbest, -⟩ := bestAtomIndex_spec hi
    have hlen := (perm_unusedAtoms hbest hused).length_eq
    rw [length_cons] at hlen
    rw [placeAtoms, hi, bind_eq_bind, bind_some, hbest, bind_eq_bind, bind_some]
    exact ih (h.place hbest) (by omega)

variable {count : ℕ} {reorderedAtoms result : List Atom}
  (h : placeAtoms body count usedAtoms boundVariables nodeIdComparisonAtoms reorderedAtoms =
    some result)
include h

theorem placeAtoms_good
    (hgood : ∀ atom ∈ reorderedAtoms, atom.dlPredicate = .nodeIdLessEqualThan →
      atom.VariablesOnly) :
    ∀ atom ∈ result, atom.dlPredicate = .nodeIdLessEqualThan → atom.VariablesOnly := by
  induction count generalizing usedAtoms boundVariables nodeIdComparisonAtoms reorderedAtoms with
  | zero =>
    obtain rfl := some.inj h
    exact hgood
  | succ count ih =>
    obtain ⟨i, hi, h⟩ := bind_eq_some_iff.mp h
    obtain ⟨best, hbest, h⟩ := bind_eq_some_iff.mp h
    obtain ⟨-, atom, hatom, hatomGood⟩ := bestAtomIndex_spec hi
    obtain rfl := some.inj (hbest.symm.trans hatom)
    refine ih h (forall_mem_append.mpr ⟨hgood, forall_mem_singleton.mpr fun hp => ?_⟩)
    exact variablesOnly_of_goodness hp hatomGood

/-- The atoms that are placed were placeable in their order. -/
theorem placeAtoms_placeable :
    ∃ rest, result = reorderedAtoms ++ rest ∧ Placeable boundVariables (extensionAtoms rest) := by
  induction count generalizing usedAtoms boundVariables nodeIdComparisonAtoms reorderedAtoms with
  | zero =>
    obtain rfl := some.inj h
    exact ⟨[], (append_nil _).symm, .nil⟩
  | succ count ih =>
    obtain ⟨i, hi, h⟩ := bind_eq_some_iff.mp h
    obtain ⟨best, hbest, h⟩ := bind_eq_some_iff.mp h
    obtain ⟨-, atom, hatom, hgood⟩ := bestAtomIndex_spec hi
    obtain rfl := some.inj (hbest.symm.trans hatom)
    obtain ⟨rest, hres, hrest⟩ := ih h
    refine ⟨best :: rest, hres.trans (append_assoc _ _ _), ?_⟩
    cases hext : isPredicateWithExtension best.dlPredicate with
    | true =>
      rw [extensionAtoms_cons_of_pos _ hext]
      refine .cons ((goodness_of_extension hext).mp hgood) (hrest.mono fun v hv => ?_)
      exact mem_append.mpr ((mem_foldl_insertSet _ _ _).mp hv)
    | false =>
      rw [extensionAtoms_cons_of_neg _ hext]
      refine hrest.mono fun v hv => ?_
      -- A comparison binds nothing new.
      exact ((mem_foldl_insertSet _ _ _).mp hv).elim id (forall_bound_of_goodness hgood hext v)

end search

/-- The variables that are bound at a comparison come from earlier atoms with an extension. -/
theorem Placed.exists_binding {bound : Set Variable} {atoms : List Atom} (h : Placed bound atoms)
    (earlier : List Atom)
    (hbd : ∀ v ∈ bound, ∃ atom ∈ earlier, isPredicateWithExtension atom.dlPredicate = true ∧
      v ∈ atom.variables)
    {front rest : List Atom} {comparison : Atom} (hspl : atoms = front ++ comparison :: rest)
    (hcmp : isPredicateWithExtension comparison.dlPredicate = false) {v : Variable}
    (hv : v ∈ comparison.variables) :
    ∃ atom ∈ earlier ++ front, isPredicateWithExtension atom.dlPredicate = true ∧
    v ∈ atom.variables := by
  induction h generalizing earlier front with
  | nil =>
    cases front <;> cases hspl
  | @cons bound atom atoms hatom _ ih =>
    cases front with
    | nil =>
      obtain ⟨rfl, rfl⟩ := List.cons.inj hspl
      rw [append_nil]
      exact hbd v (hatom hcmp v hv)
    | cons first front =>
      obtain ⟨rfl, rfl⟩ := List.cons.inj hspl
      rw [append_cons]
      refine ih (earlier ++ [atom]) (fun w hw => ?_) rfl
      cases hext : isPredicateWithExtension atom.dlPredicate with
      | true =>
        rcases hw with hw | hw
        · obtain ⟨other, hoth, hrest⟩ := hbd w hw
          exact ⟨other, mem_append_left _ hoth, hrest⟩
        · exact ⟨atom, mem_append_right _ mem_cons_self, hext, hw⟩
      | false =>
        -- A comparison binds nothing new.
        obtain ⟨other, hoth, hrest⟩ := hbd w (hw.elim id (hatom hext w))
        exact ⟨other, mem_append_left _ hoth, hrest⟩

/-- Take a clause in which each variable of a comparison occurs in an atom with an extension.  An
atom with an extension can be swapped to the front just if the comparisons of two nodes are between
variables and the other atoms with an extension can be placed in some order: otherwise the search
for the best atom ends without one.  The swapped body is a permutation, and every comparison comes
after atoms with an extension that bind its variables. -/
theorem swapBodyToFront_isSome_iff (dlClause : DLClause)
    (hcov : ComparisonsCovered dlClause.bodyAtoms)
    (index : ℕ) (delta : Atom) (hdelta : dlClause.bodyAtoms[index]? = some delta)
    (hext : isPredicateWithExtension delta.dlPredicate = true) :
    ((swapBodyToFront dlClause index).isSome ↔
      ComparesVariables dlClause.bodyAtoms ∧ PlaceableAfter dlClause.bodyAtoms delta) ∧
    ∀ swapped, swapBodyToFront dlClause index = some swapped →
      swapped.headAtoms = dlClause.headAtoms ∧ swapped.bodyAtoms.Perm dlClause.bodyAtoms ∧
      swapped.bodyAtoms.head? = some delta ∧
      ∀ front comparison rest, swapped.bodyAtoms = front ++ comparison :: rest →
        isPredicateWithExtension comparison.dlPredicate = false → ∀ v ∈ comparison.variables,
          ∃ atom ∈ front, isPredicateWithExtension atom.dlPredicate = true ∧
          v ∈ atom.variables := by
  have hlt := (List.getElem?_eq_some_iff.mp hdelta).1
  constructor
  · constructor
    · intro hsome
      obtain ⟨swapped, hswap⟩ := isSome_iff_exists.mp hsome
      obtain ⟨delta', rest, -, -, hbody, hperm, -⟩ := swapBodyToFront_spec hswap
      obtain ⟨delta'', hdelta'', hplace⟩ := bind_eq_some_iff.mp hswap
      obtain ⟨atoms, hatoms, hplace⟩ := bind_eq_some_iff.mp hplace
      obtain rfl := some.inj hplace
      obtain rfl := some.inj (hdelta.symm.trans hdelta'')
      constructor
      · intro atom hatom
        refine placeAtoms_good hatoms (forall_mem_singleton.mpr fun hp => ?_) atom
          (hperm.mem_iff.mpr hatom)
        rw [hp] at hext
        cases hext
      · obtain ⟨rest, rfl, hrest⟩ := placeAtoms_placeable hatoms
        refine ⟨extensionAtoms rest, ?_, hrest.mono fun v hv => ?_⟩
        · rw [← extensionAtoms_cons_of_pos _ hext]
          exact hperm.filter _
        · exact ((mem_foldl_insertSet _ _ _).mp hv).resolve_left not_mem_nil
    · rintro ⟨hvars, hplc⟩
      have hperm := perm_unusedAtoms hdelta (getElem?_replicate_of_lt (a := false) hlt)
      rw [unusedAtoms_replicate] at hperm
      have hlen := hperm.length_eq
      rw [length_cons] at hlen
      have hst : UsedBound dlClause.bodyAtoms delta
          ((List.replicate dlClause.bodyAtoms.length false).set index true)
          (delta.variables.foldl insertSet []) := by
        refine ⟨length_set.trans length_replicate,
          fun v hv => (mem_foldl_insertSet _ _ _).mpr (.inr hv), fun i atom hused hatom v hv => ?_⟩
        by_cases hi : index = i
        · subst hi
          obtain rfl := some.inj (hdelta.symm.trans hatom)
          exact (mem_foldl_insertSet _ _ _).mpr (.inr hv)
        · rw [getElem?_set_ne hi] at hused
          cases eq_of_mem_replicate (mem_of_getElem? hused)
      have hplace : placeAtoms dlClause.bodyAtoms (dlClause.bodyAtoms.length - 1)
          ((List.replicate dlClause.bodyAtoms.length false).set index true)
            (delta.variables.foldl insertSet [])
          (dlClause.bodyAtoms.reverse.filter fun atom =>
              atom.dlPredicate = .nodeIdLessEqualThan) [delta] ≠ none :=
        placeAtoms_ne_none hcov hvars hplc hst (by omega)
      obtain ⟨atoms, hatoms⟩ := ne_none_iff_exists'.mp hplace
      rw [swapBodyToFront, hdelta, bind_eq_bind, bind_some]
      dsimp only
      rw [hatoms]
      rfl
  · intro swapped hswap
    obtain ⟨delta', rest, hdelta', hheads, hbody, hperm, hplaced⟩ := swapBodyToFront_spec hswap
    obtain rfl := some.inj (hdelta.symm.trans hdelta')
    refine ⟨hheads, hperm,
      by rw [hbody]; rfl, fun front comparison later hspl hcmp v hv => ?_⟩
    rw [hbody] at hspl
    cases front with
    | nil =>
      obtain ⟨rfl, -⟩ := List.cons.inj hspl
      cases hext.symm.trans hcmp
    | cons first front =>
      obtain ⟨rfl, hrest⟩ := List.cons.inj hspl
      exact hplaced.exists_binding [delta] (fun w hw =>
          ⟨delta, mem_singleton_self delta, hext, hw⟩)
        hrest hcmp hv

theorem arity_equality : DLPredicate.equality.arity = 2 := rfl

theorem arity_nodeIdLessEqualThan : DLPredicate.nodeIdLessEqualThan.arity = 2 := rfl

/-- Two successors that are compared. -/
def comparedSuccessors : DLClause :=
  ⟨[⟨.equality, [.variable ⟨"Y1"⟩, .variable ⟨"Y2"⟩], arity_equality⟩],
    [⟨.nodeIdLessEqualThan, [.variable ⟨"Y1"⟩, .variable ⟨"Y2"⟩], arity_nodeIdLessEqualThan⟩,
      ⟨.atomicRole ⟨"r"⟩, [.variable ⟨"X"⟩, .variable ⟨"Y1"⟩], rfl⟩,
      ⟨.atomicRole ⟨"r"⟩, [.variable ⟨"X"⟩, .variable ⟨"Y2"⟩], rfl⟩]⟩

theorem swapBodyToFront_comparedSuccessors :
    ∃ swapped, swapBodyToFront comparedSuccessors 1 = some swapped ∧
      swapped.bodyAtoms.Perm comparedSuccessors.bodyAtoms := by
  have hcov : ComparisonsCovered comparedSuccessors.bodyAtoms := by
    unfold ComparisonsCovered
    decide
  obtain ⟨hsome, hswap⟩ := swapBodyToFront_isSome_iff comparedSuccessors hcov 1 _ rfl rfl
  have hvars : ComparesVariables comparedSuccessors.bodyAtoms := by
    intro atom hatom hp term hterm
    simp only [comparedSuccessors, mem_cons, not_mem_nil, or_false] at hatom
    rcases hatom with rfl | rfl | rfl
    · rcases mem_pair.mp hterm with rfl | rfl
      · exact ⟨_, rfl⟩
      · exact ⟨_, rfl⟩
    · cases hp
    · cases hp
  have hplc : PlaceableAfter comparedSuccessors.bodyAtoms
      ⟨.atomicRole ⟨"r"⟩, [.variable ⟨"X"⟩, .variable ⟨"Y1"⟩], rfl⟩ := by
    refine ⟨[⟨.atomicRole ⟨"r"⟩, [.variable ⟨"X"⟩, .variable ⟨"Y2"⟩], rfl⟩], .refl _, ?_⟩
    refine .cons ?_ .nil
    unfold Atom.EnoughBound
    decide
  obtain ⟨swapped, heq⟩ := isSome_iff_exists.mp (hsome.mpr ⟨hvars, hplc⟩)
  exact ⟨swapped, heq, (hswap swapped heq).2.1⟩

/-- A node that is compared with the node of an individual. -/
def comparedIndividual : DLClause :=
  ⟨[], [⟨.atomicConcept ⟨"A"⟩, [.variable ⟨"X"⟩], rfl⟩,
    ⟨.nodeIdLessEqualThan, [.individual ⟨"a"⟩, .variable ⟨"X"⟩], arity_nodeIdLessEqualThan⟩]⟩

theorem swapBodyToFront_comparedIndividual : ComparisonsCovered comparedIndividual.bodyAtoms ∧
    (comparedIndividual.bodyAtoms[0]?.map fun atom =>
      isPredicateWithExtension atom.dlPredicate) = some true ∧
    swapBodyToFront comparedIndividual 0 = none := by
  unfold ComparisonsCovered
  decide

end Hermit
