import Hermit.Tableau.ClauseMachine
import Hermit.Tableau.ExtensionRetrieval

/-! # Matches of a clause body

A match maps the variables of a body to nodes and chooses a tuple of the current extension for
every atom that has one.  The matches of a list of atoms are enumerated atom by atom: a comparison
keeps or drops them, and an atom with an extension joins its tuples with the matches of the rest.
-/

namespace Hermit

open List hiding not_le
open Option

open ExtensionTable (Reachable SlotsSet kept slotValue)

/-! ## Matches -/

def isPredicateWithExtension : DLPredicate → Bool
  | .nodeIdLessEqualThan | .nodeIDsAscendingOrEqual _ => false
  | _ => true

section matching

variable (rawKey : DLPredicate → Fin (2 ^ 61)) (termsToNodes : Term → Option NodeId)
    (tableau : Tableau)

/-- What a term stands for. -/
def Term.object (σ : Variable → NodeId) : Term → Option TableauObject
  | .variable v => some (.node (σ v))
  | other => (termsToNodes other).map .node

/-- The tuple is the label of the atom and what its arguments stand for. -/
def Atom.Fits (σ : Variable → NodeId) (atom : Atom) (objects : List TableauObject) : Prop :=
  objects.map some = some (predicateToStoredLabel rawKey atom.dlPredicate) ::
      atom.arguments.map (Term.object termsToNodes σ)

namespace Tableau

/-- The current extension: what was there before the facts that are derived now. -/
def InExtensionThis (tableArity tupleIndex : ℕ) : Prop :=
  ∃ kind, tableKind tableArity = some kind ∧ (tableau.table kind).inView .extensionThis tupleIndex

/-- All columns after the label hold active nodes. -/
def Active (objects : List TableauObject) : Prop :=
  ∀ o ∈ objects.tail, ∃ node, o = .node node ∧ (tableau.nodes node).isActive

/-- The numbers of the nodes of a comparison; two or more numbers that ascend are not equal. -/
def ComparisonHolds (σ : Variable → NodeId) (atom : Atom) : Prop :=
  let ids := atom.variables.map fun v => (tableau.nodes (σ v)).nodeId
  match atom.dlPredicate with
  | .nodeIdLessEqualThan => ids.IsChain (· ≤ ·)
  | _ => Xor (ids.IsChain (· < ·)) (ids.IsChain (· = ·))

end Tableau

/-- The atom matches an active tuple of the current extension. -/
structure Atom.MatchesTuple (σ : Variable → NodeId) (atom : Atom) (tupleIndex : ℕ) : Prop where
  inExtension : tableau.InExtensionThis (atom.arguments.length + 1) tupleIndex
  objects : ∃ objects, tableau.tupleObjects (atom.arguments.length + 1) tupleIndex = some objects ∧
    tableau.Active objects ∧ atom.Fits rawKey termsToNodes σ objects

/-- One tuple for every atom with an extension, and all comparisons hold. -/
structure IsMatch (σ : Variable → NodeId) (atoms : List Atom) (tuples : List ℕ) : Prop where
  extensions : List.Forall₂ (fun atom t => atom.MatchesTuple rawKey termsToNodes tableau σ t)
    (atoms.filter fun atom => isPredicateWithExtension atom.dlPredicate) tuples
  comparisons : ∀ atom ∈ atoms, isPredicateWithExtension atom.dlPredicate = false →
    tableau.ComparisonHolds σ atom

end matching

/-! ## Enumeration -/

section enumeration

variable {rawKey : DLPredicate → Fin (2 ^ 61)} {termsToNodes : Term → Option NodeId}
    {tableau : Tableau}
  {σ σ' : Variable → NodeId} {atom : Atom} {atoms : List Atom} {seen : List Variable}

theorem mem_variables_iff {v : Variable} : v ∈ atom.variables ↔ .variable v ∈ atom.arguments := by
  rw [Atom.variables, mem_filterMap]
  constructor
  · rintro ⟨term, hterm, hv⟩
    match term with
    | .variable w =>
      cases hv
      exact hterm
  · intro hv
    exact ⟨_, hv, rfl⟩

theorem map_object_congr {terms : List Term} (h : ∀ v, .variable v ∈ terms → σ v = σ' v) :
    terms.map (Term.object termsToNodes σ) = terms.map (Term.object termsToNodes σ') := by
  apply map_congr_left
  intro term hterm
  match term with
  | .variable v => rw [Term.object, Term.object, h v hterm]
  | .individual _ => rfl
  | .constant _ => rfl

theorem Atom.fits_congr (h : Set.EqOn σ σ' {v | v ∈ atom.variables})
    {objects : List TableauObject} :
    atom.Fits rawKey termsToNodes σ objects ↔ atom.Fits rawKey termsToNodes σ' objects := by
  have hargs : atom.arguments.map (Term.object termsToNodes σ) =
      atom.arguments.map (Term.object termsToNodes σ') :=
        map_object_congr fun v hv => h (mem_variables_iff.mpr hv)
  unfold Fits
  rw [hargs]

variable {t : ℕ} {choices : List ℕ} {found : List (List ℕ × (Variable → NodeId))}

theorem Atom.MatchesTuple.congr (h : atom.MatchesTuple rawKey termsToNodes tableau σ t)
    (heq : Set.EqOn σ σ' {v | v ∈ atom.variables}) :
    atom.MatchesTuple rawKey termsToNodes tableau σ' t := by
  obtain ⟨hin, objects, hobjs, hact, hfits⟩ := h
  exact ⟨hin, objects, hobjs, hact, (Atom.fits_congr heq).mp hfits⟩

/-- A tuple determines the variables of the atom it fits. -/
theorem Atom.Fits.eqOn {objects : List TableauObject} (h : atom.Fits rawKey termsToNodes σ objects)
    (h' : atom.Fits rawKey termsToNodes σ' objects) : Set.EqOn σ σ' {v | v ∈ atom.variables} := by
  have hmap := (List.cons.inj (h.symm.trans h')).2
  intro v hv
  have hterm := map_inj_left.mp hmap _ (mem_variables_iff.mp hv)
  rw [Term.object, Term.object, some.injEq, TableauObject.node.injEq] at hterm
  exact hterm

theorem Atom.MatchesTuple.eqOn (h : atom.MatchesTuple rawKey termsToNodes tableau σ t)
    (h' : atom.MatchesTuple rawKey termsToNodes tableau σ' t) :
    Set.EqOn σ σ' {v | v ∈ atom.variables} := by
  obtain ⟨-, objects, hobjs, -, hfits⟩ := h
  obtain ⟨-, objects', hobjs', -, hfits'⟩ := h'
  obtain rfl := some.inj (hobjs.symm.trans hobjs')
  exact hfits.eqOn hfits'

theorem Tableau.comparisonHolds_congr (h : ∀ v ∈ atom.variables, σ v = σ' v) :
    tableau.ComparisonHolds σ atom ↔ tableau.ComparisonHolds σ' atom := by
  have hids : (atom.variables.map fun v => (tableau.nodes (σ v)).nodeId) =
      atom.variables.map fun v => (tableau.nodes (σ' v)).nodeId := by
    apply map_congr_left
    intro v hv
    rw [h v hv]
  unfold ComparisonHolds
  rw [hids]

variable (rawKey termsToNodes tableau) in
/-- The matches that agree on some variables with a map, each choice of tuples once. -/
structure Enumerates (seen : List Variable) (σ : Variable → NodeId) (atoms : List Atom)
    (found : List (List ℕ × (Variable → NodeId))) : Prop where
  nodup : (found.map Prod.fst).Nodup
  sound : ∀ m ∈ found, Set.EqOn σ m.2 {v | v ∈ seen} ∧
    IsMatch rawKey termsToNodes tableau m.2 atoms m.1
  complete : ∀ tuples σ', Set.EqOn σ σ' {v | v ∈ seen} →
    IsMatch rawKey termsToNodes tableau σ' atoms tuples → tuples ∈ found.map Prod.fst

theorem enumerates_nil : Enumerates rawKey termsToNodes tableau seen σ [] [([], σ)] where
  nodup := nodup_singleton _
  sound := by
    intro m hm
    rw [mem_singleton] at hm
    subst hm
    exact ⟨fun _ _ => rfl, ⟨.nil, nofun⟩⟩
  complete := by
    intro tuples σ' _ hmatch
    have hnil := hmatch.extensions
    rw [filter_nil, forall₂_nil_left_iff] at hnil
    rw [hnil]
    exact mem_singleton_self _

section comparison

variable (hcomparison : isPredicateWithExtension atom.dlPredicate = false)
    (hseen : atom.variables ⊆ seen)

include hcomparison

theorem isMatch_cons_comparison {tuples : List ℕ} :
    IsMatch rawKey termsToNodes tableau σ (atom :: atoms) tuples ↔
      tableau.ComparisonHolds σ atom ∧ IsMatch rawKey termsToNodes tableau σ atoms tuples := by
  have hfilt : ((atom :: atoms).filter fun atom => isPredicateWithExtension atom.dlPredicate) =
      atoms.filter fun atom => isPredicateWithExtension atom.dlPredicate := by
    rw [filter_cons, hcomparison, if_neg Bool.false_ne_true]
  constructor
  · rintro ⟨hext, hcmp⟩
    rw [hfilt] at hext
    exact ⟨hcmp atom mem_cons_self hcomparison, hext, fun a ha => hcmp a (mem_cons_of_mem _ ha)⟩
  · rintro ⟨hatom, hext, hcmp⟩
    rw [← hfilt] at hext
    refine ⟨hext, fun a ha => ?_⟩
    rcases mem_cons.mp ha with rfl | ha
    · exact fun _ => hatom
    · exact hcmp a ha

include hseen

theorem Enumerates.keep {found : List (List ℕ × (Variable → NodeId))}
    (h : Enumerates rawKey termsToNodes tableau seen σ atoms found)
    (hholds : tableau.ComparisonHolds σ atom) :
    Enumerates rawKey termsToNodes tableau seen σ (atom :: atoms) found where
  nodup := h.nodup
  sound := by
    intro m hm
    obtain ⟨hagr, hmatch⟩ := h.sound m hm
    have hcongr : tableau.ComparisonHolds σ atom ↔ tableau.ComparisonHolds m.2 atom :=
      Tableau.comparisonHolds_congr fun v hv => hagr (hseen hv)
    exact ⟨hagr, (isMatch_cons_comparison hcomparison).mpr ⟨hcongr.mp hholds, hmatch⟩⟩
  complete := by
    intro tuples σ' hagr hmatch
    exact h.complete tuples σ' hagr ((isMatch_cons_comparison hcomparison).mp hmatch).2

theorem enumerates_drop (hfails : ¬ tableau.ComparisonHolds σ atom) :
    Enumerates rawKey termsToNodes tableau seen σ (atom :: atoms) [] where
  nodup := nodup_nil
  sound := nofun
  complete := by
    intro tuples σ' hagr hmatch
    have hcongr : tableau.ComparisonHolds σ atom ↔ tableau.ComparisonHolds σ' atom :=
      Tableau.comparisonHolds_congr fun v hv => hagr (hseen hv)
    exact absurd (hcongr.mpr ((isMatch_cons_comparison hcomparison).mp hmatch).1) hfails

end comparison

section extension

variable (hextension : isPredicateWithExtension atom.dlPredicate = true)

include hextension

theorem isMatch_cons_extension {tuples : List ℕ} :
    IsMatch rawKey termsToNodes tableau σ (atom :: atoms) tuples ↔
      ∃ t rest, tuples = t :: rest ∧ atom.MatchesTuple rawKey termsToNodes tableau σ t ∧
        IsMatch rawKey termsToNodes tableau σ atoms rest := by
  have hfilt : ((atom :: atoms).filter fun atom => isPredicateWithExtension atom.dlPredicate) =
      atom :: atoms.filter fun atom => isPredicateWithExtension atom.dlPredicate := by
    rw [filter_cons, hextension, if_pos rfl]
  constructor
  · rintro ⟨hext, hcmp⟩
    rw [hfilt] at hext
    obtain ⟨t, rest, ht, hrest, rfl⟩ := forall₂_cons_left_iff.mp hext
    exact ⟨t, rest, rfl, ht, hrest, fun a ha => hcmp a (mem_cons_of_mem _ ha)⟩
  · rintro ⟨t, rest, rfl, ht, hext, hcmp⟩
    refine ⟨?_, fun a ha => ?_⟩
    · rw [hfilt]
      exact List.Forall₂.cons ht hext
    · rcases mem_cons.mp ha with rfl | ha
      · intro hfls
        rw [hextension] at hfls
        cases hfls
      · exact hcmp a ha

end extension

variable (rawKey termsToNodes tableau) in
/-- The matches whose first tuple is one of a list. -/
structure EnumeratesOver (seen : List Variable) (σ : Variable → NodeId) (atom : Atom)
    (atoms : List Atom)
    (choices : List ℕ) (found : List (List ℕ × (Variable → NodeId))) : Prop where
  nodup : (found.map Prod.fst).Nodup
  sound : ∀ m ∈ found, Set.EqOn σ m.2 {v | v ∈ seen} ∧
    IsMatch rawKey termsToNodes tableau m.2 (atom :: atoms) m.1
  chosen : ∀ tuples ∈ found.map Prod.fst, ∃ t ∈ choices, ∃ rest, tuples = t :: rest
  complete : ∀ t ∈ choices, ∀ rest σ', Set.EqOn σ σ' {v | v ∈ seen} →
    IsMatch rawKey termsToNodes tableau σ' (atom :: atoms) (t :: rest) →
      t :: rest ∈ found.map Prod.fst

theorem enumeratesOver_nil : EnumeratesOver rawKey termsToNodes tableau seen σ atom atoms [] [] :=
  ⟨nodup_nil, nofun, nofun, nofun⟩

variable (h : EnumeratesOver rawKey termsToNodes tableau seen σ atom atoms choices found)
  (hextension : isPredicateWithExtension atom.dlPredicate = true)
include h hextension

/-- All tuples that some match can choose were tried. -/
theorem EnumeratesOver.enumerates
    (hall : ∀ t σ', Set.EqOn σ σ' {v | v ∈ seen} →
      atom.MatchesTuple rawKey termsToNodes tableau σ' t → t ∈ choices) :
    Enumerates rawKey termsToNodes tableau seen σ (atom :: atoms) found where
  nodup := h.nodup
  sound := h.sound
  complete := by
    intro tuples σ' hagr hmatch
    obtain ⟨t, rest, rfl, ht, hrest⟩ := (isMatch_cons_extension hextension).mp hmatch
    exact h.complete t (hall t σ' hagr ht) rest σ' hagr hmatch

/-- A tuple that no match chooses adds nothing. -/
theorem EnumeratesOver.skip
    (hnone : ∀ σ', Set.EqOn σ σ' {v | v ∈ seen} →
      ¬ atom.MatchesTuple rawKey termsToNodes tableau σ' t) :
    EnumeratesOver rawKey termsToNodes tableau seen σ atom atoms (t :: choices) found where
  nodup := h.nodup
  sound := h.sound
  chosen := by
    intro tuples htup
    obtain ⟨t', ht', hrest⟩ := h.chosen tuples htup
    exact ⟨t', mem_cons_of_mem _ ht', hrest⟩
  complete := by
    intro t' ht' rest σ' hagr hmatch
    rcases mem_cons.mp ht' with rfl | ht'
    · obtain ⟨t₁, rest₁, heq, htuple, -⟩ := (isMatch_cons_extension hextension).mp hmatch
      cases heq
      exact absurd htuple (hnone σ' hagr)
    · exact h.complete t' ht' rest σ' hagr hmatch

/-- A tuple that fits is joined with the matches of the rest. -/
theorem EnumeratesOver.join {rest : List (List ℕ × (Variable → NodeId))} (hnew : t ∉ choices)
    (hagr : Set.EqOn σ σ' {v | v ∈ seen})
    (hatom : atom.MatchesTuple rawKey termsToNodes tableau σ' t)
    (hrest : Enumerates rawKey termsToNodes tableau (seen ++ atom.variables) σ' atoms rest) :
    EnumeratesOver rawKey termsToNodes tableau seen σ atom atoms (t :: choices)
      (rest.map (fun m => (t :: m.1, m.2)) ++ found) where
  nodup := by
    rw [map_append, List.map_map]
    have hfst : (Prod.fst ∘ fun m : List ℕ × (Variable → NodeId) => (t :: m.1, m.2)) =
      (t :: ·) ∘ Prod.fst := rfl
    rw [hfst, ← List.map_map]
    refine nodup_append.mpr ⟨hrest.nodup.map fun _ _ heq => (List.cons.inj heq).2, h.nodup, ?_⟩
    intro tuples htup tuples' htup' heq
    obtain ⟨rest', -, rfl⟩ := List.mem_map.mp htup
    obtain ⟨t', ht', rest'', rfl⟩ := h.chosen tuples' htup'
    obtain ⟨rfl, -⟩ := List.cons.inj heq
    exact hnew ht'
  sound := by
    intro m hm
    rcases mem_append.mp hm with hm | hm
    · obtain ⟨m', hm', rfl⟩ := List.mem_map.mp hm
      obtain ⟨hagr', hmatch⟩ := hrest.sound m' hm'
      refine ⟨fun v hv => ?_, ?_⟩
      · exact (hagr hv).trans (hagr' (mem_append_left _ hv))
      · have hatom' := hatom.congr fun v hv => hagr' (mem_append_right _ hv)
        exact (isMatch_cons_extension hextension).mpr ⟨t, m'.1, rfl, hatom', hmatch⟩
    · exact h.sound m hm
  chosen := by
    intro tuples htup
    rw [map_append] at htup
    rcases mem_append.mp htup with htup | htup
    · rw [List.map_map] at htup
      obtain ⟨m, -, rfl⟩ := List.mem_map.mp htup
      exact ⟨t, mem_cons_self, m.1, rfl⟩
    · obtain ⟨t', ht', hrest⟩ := h.chosen tuples htup
      exact ⟨t', mem_cons_of_mem _ ht', hrest⟩
  complete := by
    intro t' ht' rest' σ'' hagr'' hmatch
    rw [map_append, mem_append]
    rcases mem_cons.mp ht' with rfl | ht'
    · obtain ⟨t₁, rest₁, heq, htuple, hmatch'⟩ := (isMatch_cons_extension hextension).mp hmatch
      cases heq
      have hdetermined : Set.EqOn σ' σ'' {v | v ∈ seen ++ atom.variables} := by
        intro v hv
        rcases mem_append.mp hv with hv | hv
        · exact (hagr hv).symm.trans (hagr'' hv)
        · exact hatom.eqOn htuple hv
      have hmem := hrest.complete rest' σ'' hdetermined hmatch'
      obtain ⟨m, hm, rfl⟩ := List.mem_map.mp hmem
      left
      rw [List.map_map]
      exact List.mem_map.mpr ⟨m, hm, rfl⟩
    · right
      exact h.complete t' ht' rest' σ'' hagr'' hmatch

end enumeration

/-! ## One atom -/

section atom

variable {rawKey : DLPredicate → Fin (2 ^ 61)} {termsToNodes : Term → Option NodeId}
    {tableau : Tableau}
  {σ σ' : Variable → NodeId} {atom : Atom} {seen : List Variable} {objects : List TableauObject}

variable (rawKey termsToNodes) in
/-- The columns of the label, of the seen variables and of the other terms are as they should be. -/
structure Atom.FitsSeen (seen : List Variable) (σ : Variable → NodeId) (atom : Atom)
    (objects : List TableauObject) : Prop where
  length_eq : objects.length = atom.arguments.length + 1
  label : objects[0]? = some (predicateToStoredLabel rawKey atom.dlPredicate)
  columns : ∀ k term, atom.arguments[k]? = some term → (∀ v, term = .variable v → v ∈ seen) →
    objects[k + 1]? = term.object termsToNodes σ

/-- The columns of a variable that was not seen are equal. -/
def Atom.ColumnsAgree (seen : List Variable) (atom : Atom) (objects : List TableauObject) : Prop :=
  ∀ j k v, j < k → atom.arguments[j]? = some (.variable v) →
    atom.arguments[k]? = some (.variable v) → v ∉ seen →
    objects[j + 1]? = objects[k + 1]?

theorem Atom.Fits.getElem? (h : atom.Fits rawKey termsToNodes σ objects) {k : ℕ} {term : Term}
    (hk : atom.arguments[k]? = some term) : objects[k + 1]? = term.object termsToNodes σ := by
  have hmap := congrArg (fun l => l[k + 1]?) h
  simp only [getElem?_map, getElem?_cons_succ, hk, map_some] at hmap
  cases hobj : objects[k + 1]? with
  | none =>
    rw [hobj] at hmap
    cases hmap
  | some o =>
    rw [hobj] at hmap
    exact some.inj hmap

theorem Atom.Fits.fitsSeen (h : atom.Fits rawKey termsToNodes σ' objects)
    (heq : Set.EqOn σ σ' {v | v ∈ seen}) :
    atom.FitsSeen rawKey termsToNodes seen σ objects where
  length_eq := by
    have hlen := congrArg List.length h
    rwa [length_map, length_cons, length_map] at hlen
  label := by
    cases objects with
    | nil => cases h
    | cons o os => exact (List.cons.inj h).1
  columns := by
    intro k term hk hseen
    rw [h.getElem? hk]
    match term with
    | .variable v => rw [Term.object, Term.object, heq (hseen v rfl)]
    | .individual _ => rfl
    | .constant _ => rfl

theorem Atom.Fits.columnsAgree (h : atom.Fits rawKey termsToNodes σ objects) :
    atom.ColumnsAgree seen objects := by
  intro j k v _ hj hk _
  rw [h.getElem? hj, h.getElem? hk]

theorem Tableau.Active.exists_node (h : tableau.Active objects) {k : ℕ}
    (hk : k + 1 < objects.length) :
    ∃ node, objects[k + 1]? = some (.node node) := by
  obtain ⟨o, ho⟩ : ∃ o, objects[k + 1]? = some o := ⟨_, getElem?_eq_getElem hk⟩
  have hmem : o ∈ objects.tail := by
    cases objects with
    | nil => cases ho
    | cons o' os => exact mem_of_getElem? ho
  obtain ⟨node, rfl, -⟩ := h o hmem
  exact ⟨node, ho⟩

/-- The variables that were not seen can be read off the tuple. -/
theorem Atom.FitsSeen.exists_fits (h : atom.FitsSeen rawKey termsToNodes seen σ objects)
    (hnodes : ∀ k, k + 1 < objects.length → ∃ node, objects[k + 1]? = some (.node node))
    (hagr : atom.ColumnsAgree seen objects) :
    ∃ σ', Set.EqOn σ σ' {v | v ∈ seen} ∧ atom.Fits rawKey termsToNodes σ' objects := by
  let read (v : Variable) : NodeId :=
    (objects[atom.arguments.idxOf (.variable v) + 1]?.bind TableauObject.asNode).getD (σ v)
  refine ⟨fun v => if v ∈ seen then σ v else read v, fun v hv => (if_pos hv).symm, ?_⟩
  unfold Fits
  apply ext_getElem?
  intro i
  cases i with
  | zero => rw [getElem?_map, h.label, map_some, getElem?_cons_zero]
  | succ k =>
    rw [getElem?_map, getElem?_cons_succ, getElem?_map]
    cases hk : atom.arguments[k]? with
    | none =>
      have hle := List.getElem?_eq_none_iff.mp hk
      rw [List.getElem?_eq_none_iff.mpr (by rw [h.length_eq]; omega)]
      rfl
    | some term =>
      have hlt := (List.getElem?_eq_some_iff.mp hk).1
      obtain ⟨node, hnode⟩ := hnodes k (by rw [h.length_eq]; omega)
      rw [map_some, hnode, map_some]
      by_cases hseen : ∀ v, term = .variable v → v ∈ seen
      · -- A seen variable or another term has its column.
        rw [← hnode, h.columns k term hk hseen]
        match term with
        | .variable v => rw [Term.object, Term.object, if_pos (hseen v rfl)]
        | .individual _ => rfl
        | .constant _ => rfl
      · obtain ⟨v, hv⟩ := not_forall.mp hseen
        obtain ⟨rfl, hnotSeen⟩ := Classical.not_imp.mp hv
        -- The first column of the variable agrees with this one.
        have hmem : Term.variable v ∈ atom.arguments := mem_of_getElem? hk
        have hfst : atom.arguments[atom.arguments.idxOf (.variable v)]? = some (.variable v) :=
          List.getElem?_idxOf hmem
        have hle : atom.arguments.idxOf (.variable v) ≤ k := by
          by_contra hgt
          obtain ⟨hlt', heq⟩ := List.getElem?_eq_some_iff.mp hk
          have hne := not_of_lt_findIdx (not_le.mp hgt)
          rw [heq, beq_self_eq_true] at hne
          cases hne
        have hcol : objects[atom.arguments.idxOf (.variable v) + 1]? = some (.node node) := by
          rcases Nat.lt_or_eq_of_le hle with hlt' | heq
          · rw [hagr _ k v hlt' hfst hk hnotSeen, hnode]
          · rw [heq, hnode]
        rw [Term.object, if_neg hnotSeen]
        dsimp only [read]
        rw [hcol]
        rfl

end atom

section retrieval

variable {tableau : Tableau}

theorem Tableau.arity_of_tableKind {tableArity : ℕ} {kind : TableKind}
    (h : tableKind tableArity = some kind) :
    kind.arity = tableArity := by
  unfold tableKind at h
  split at h
  · cases h
    rfl
  · cases h
    rfl
  · cases h

theorem Tableau.active_ofFn {arity : ℕ} (tuple : Fin arity → TableauObject) :
    tableau.Active (List.ofFn tuple) ↔
      ∀ column ∈ (List.finRange arity).drop 1, (tuple column).asNode.any fun node =>
          (tableau.nodes node).isActive := by
  have htail : (List.ofFn tuple).tail = ((List.finRange arity).drop 1).map tuple := by
    rw [ofFn_eq_map, ← map_tail, drop_one]
  unfold Active
  rw [htail, List.forall_mem_map]
  apply forall₂_congr
  intro column _
  cases tuple column <;> simp [TableauObject.asNode]

/-- A retrieval finds the tuples of its window with active nodes and the values of the buffer,
each once. -/
theorem Tableau.openRetrieval_spec (htabs : ∀ kind, ∃ n, Reachable kind n (tableau.table kind))
    (retrieval : VmRetrieval) (values : List (Option TableauObject)) {kind : TableKind}
    (hkind : tableKind retrieval.tableArity = some kind) (hview : retrieval.view = .extensionThis)
    (hlen : retrieval.bindingPositions.length = retrieval.tableArity)
    (hset : ∀ position, some position ∈ retrieval.bindingPositions → ∃ o,
      values[position]? = some (some o)) :
    ∃ found, tableau.openRetrieval retrieval values = some found ∧ found.Nodup ∧
      ∀ t, t ∈ found ↔ tableau.InExtensionThis retrieval.tableArity t ∧
        ∃ objects, tableau.tupleObjects retrieval.tableArity t = some objects ∧
        tableau.Active objects ∧
          ∀ (column position : ℕ), retrieval.bindingPositions[column]? = some (some position) →
            values[position]? = some objects[column]? := by
  obtain ⟨n, hreachable⟩ := htabs kind
  have harity := arity_of_tableKind hkind
  have hslots : SlotsSet (fun column : Fin kind.arity =>
    retrieval.bindingPositions[column.val]?.join) values := by
    intro column position hposn
    exact hset position (List.mem_of_getElem? (Option.join_eq_some_iff.mp hposn))
  obtain ⟨found, hfnd, hnd, hmem⟩ :=
    hreachable.consistent.createRetrieval_spec hslots .extensionThis
    fun node => (tableau.nodes node).isActive
  refine ⟨found, ?_, hnd, fun t => ?_⟩
  · rw [openRetrieval, hkind, hview]
    exact hfnd
  · have hin : tableau.InExtensionThis retrieval.tableArity t ↔
        (tableau.table kind).inView .extensionThis t := by
      unfold InExtensionThis
      rw [hkind]
      exact ⟨fun ⟨kind', heq, ht⟩ => Option.some.inj heq ▸ ht, fun ht => ⟨kind, rfl, ht⟩⟩
    have hobjs : tableau.tupleObjects retrieval.tableArity t =
        (tableau.table kind).tuples[t]?.map List.ofFn := by
      rw [tupleObjects, hkind, Option.bind_eq_bind, Option.bind_some]
      cases (tableau.table kind).tuples[t]? <;> rfl
    rw [hmem, hin, hobjs, Option.any_eq_true]
    apply and_congr_right
    intro _
    constructor
    · rintro ⟨tuple, htuple, hkept⟩
      refine ⟨List.ofFn tuple, by rw [htuple]; rfl, ?_, fun column position hposn => ?_⟩
      · rw [active_ofFn]
        exact List.all_eq_true.mp (Bool.and_eq_true_iff.mp hkept).1
      · have hlt : column < kind.arity := by
          rw [harity, ← hlen]
          exact (List.getElem?_eq_some_iff.mp hposn).1
        have hbd : (fun column : Fin kind.arity => retrieval.bindingPositions[column.val]?.join)
          ⟨column, hlt⟩ =
            some position := by
          dsimp only
          rw [hposn]
          rfl
        have hval := ExtensionTable.slotValue_of_kept hkept (Option.isSome_of_mem hbd)
        rw [(hslots.slotValue hbd).1, hval, List.getElem?_ofFn, dif_pos hlt]
    · rintro ⟨objects, htuple, hact, hvals⟩
      obtain ⟨tuple, hget, rfl⟩ := Option.map_eq_some_iff.mp htuple
      refine ⟨tuple, hget, Bool.and_eq_true_iff.mpr
        ⟨List.all_eq_true.mpr (active_ofFn tuple |>.mp hact), ?_⟩⟩
      refine List.all_eq_true.mpr fun column _ => ?_
      rw [Bool.or_eq_true, Option.isNone_iff_eq_none, decide_eq_true_iff]
      cases hposn : retrieval.bindingPositions[column.val]?.join with
      | none => exact .inl hposn
      | some position =>
        right
        have hval := hvals column position (Option.join_eq_some_iff.mp hposn)
        rw [List.getElem?_ofFn, dif_pos column.isLt, (hslots.slotValue hposn).1] at hval
        exact Option.some.inj hval

end retrieval

end Hermit
