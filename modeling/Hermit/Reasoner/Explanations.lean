import Hermit.Library.MinimalSets

/-! # Explanations of entailed axioms

An explanation is a minimal set of axioms that entails an axiom.  One is found by leaving out axioms
as long as the others entail it, and all are found by removing the axioms of one after the other.
-/

namespace Hermit.Reasoner

open MinimalSets List

variable {C Ann : Type} [DecidableEq C]

/-! ## The explanation service -/

/-- An ontology is a set of components with annotations; its axioms are the components. -/
def ontologyFrom (components : List C) : Finset C := components.toFinset

/-- Leave out each element, from a position on, without which the test still succeeds. -/
def shrink {α : Type} (test : List α → Except String Bool) (support : List α) (index : ℕ) :
    Except String (List α) :=
  if index < support.length then
    match test (support.eraseIdx index) with
    | .error e => .error e
    | .ok true => shrink test (support.eraseIdx index) index
    | .ok false => shrink test support (index + 1)
  else .ok support
termination_by support.length - index
decreasing_by
  · rw [length_eraseIdx_of_lt (by assumption)]
    omega
  · omega

/-- One explanation, if the axiom is entailed. -/
def explain (isEntailedCore : Finset C → Except String Bool) (ontology : List (C × Ann)) :
    Except String (Option (List C)) := do
  if !(← isEntailedCore (ontologyFrom (ontology.map Prod.fst))) then return none
  return some (← shrink (fun reduced => isEntailedCore (ontologyFrom reduced))
    (ontology.map Prod.fst) 0)

/-- One explanation among the available axioms, by their positions. -/
def justifyIndices (isEntailedCore : Finset C → Except String Bool) (all : List C)
    (available : List (Fin all.length)) :
    Except String (Option (List (Fin all.length))) := do
  if !(← isEntailedCore (ontologyFrom (available.map all.get))) then return none
  return some (← shrink (fun reduced => isEntailedCore (ontologyFrom (reduced.map all.get)))
    available 0)

/-- The search for all explanations: each of the removals is looked at once, and the axioms of the
explanation that is found without them are removed in turn. -/
def searchExplanations (isEntailedCore : Finset C → Except String Bool) (all : List C)
    (order : Finset (Fin all.length) → List (Fin all.length))
    (justifications : List (List (Fin all.length)))
    (explored : Finset (Finset (Fin all.length))) : List (Finset (Fin all.length)) →
    Except String (List (List (Fin all.length)))
  | [] => .ok justifications
  | removed :: worklist =>
    if removed ∈ explored then searchExplanations isEntailedCore all order justifications
      explored worklist
    else
      match justifyIndices isEntailedCore all (order removedᶜ) with
      | .error e => .error e
      | .ok none =>
        searchExplanations isEntailedCore all order justifications
          (insert removed explored) worklist
      | .ok (some justification) =>
        let sorted := justification.mergeSort
        searchExplanations isEntailedCore all order
          (if justifications.contains sorted then justifications else justifications ++ [sorted])
            (insert removed explored)
          ((justification.map fun i => insert i removed).reverse ++ worklist)
termination_by worklist => (exploredᶜ.card, worklist.length)
decreasing_by
  · exact Prod.Lex.right _ (Nat.lt_succ_self _)
  all_goals
    refine Prod.Lex.left _ _ (Finset.card_lt_card ?_)
    refine Finset.compl_ssubset_compl.mpr (Finset.ssubset_insert (by assumption))

/-- All explanations; the order gives the sets of the axioms that are not removed as lists. -/
def allExplanations (isEntailedCore : Finset C → Except String Bool) (ontology : List (C × Ann))
    (order : Finset (Fin (ontology.map Prod.fst).length) →
      List (Fin (ontology.map Prod.fst).length)) : Except String (List (List C)) :=
  (searchExplanations isEntailedCore (ontology.map Prod.fst) order [] ∅ [∅]).map
      fun justifications =>
    justifications.map fun indices => indices.map (ontology.map Prod.fst).get

section shrinking

variable {α : Type} {test : List α → Except String Bool} {Q : List α → Bool}

/-- Leaving out a later element as well. -/
theorem eraseIdx_eraseIdx_subset {l : List α} {i j : ℕ} (hij : i < j) :
    (l.eraseIdx j).eraseIdx i ⊆ l.eraseIdx i := by
  intro x hx
  rw [mem_eraseIdx_iff_getElem] at hx ⊢
  obtain ⟨k, hk, hne, rfl⟩ := hx
  have hlen := (eraseIdx_sublist l j).length_le
  have hlen' : l.length ≤ (l.eraseIdx j).length + 1 := by
    rw [length_eraseIdx]
    split <;> omega
  by_cases hkj : k < j
  · exact ⟨k, by omega, hne, (getElem_eraseIdx_of_lt hk hkj).symm⟩
  · have hk' : k + 1 < l.length := by
      rw [length_eraseIdx] at hk
      split at hk <;> omega
    exact ⟨k + 1, hk', by omega, (getElem_eraseIdx_of_ge hk (by omega)).symm⟩

theorem shrink_spec (htest : ∀ l, test l = .ok (Q l))
    (hmono : ∀ l l', l ⊆ l' → Q l = true → Q l' = true) (support : List α)
    (index : ℕ) (hsupp : Q support = true)
    (hneed : ∀ i < index, i < support.length → Q (support.eraseIdx i) = false) :
    ∃ l, shrink test support index = .ok l ∧ l ⊆ support ∧ Q l = true ∧ ∀ i < l.length,
    Q (l.eraseIdx i) = false := by
  fun_induction shrink test support index with
  | case1 support index hlt e he => rw [htest] at he; cases he
  | case2 support index hlt htrue ih =>
    rw [htest, Except.ok.injEq] at htrue
    have hstill : ∀ i < index, i < (support.eraseIdx index).length →
        Q ((support.eraseIdx index).eraseIdx i) = false := by
      intro i hi hlen
      have hfls := hneed i hi (hlen.trans_le (eraseIdx_sublist support index).length_le)
      refine Bool.eq_false_iff.mpr fun hQ => ?_
      rw [hmono _ _ (eraseIdx_eraseIdx_subset hi) hQ] at hfls
      cases hfls
    obtain ⟨l, hl, hsub, hQ, hall⟩ := ih htrue hstill
    exact ⟨l, hl, fun x hx => eraseIdx_subset (hsub hx), hQ, hall⟩
  | case3 support index hlt hfls ih =>
    rw [htest, Except.ok.injEq] at hfls
    refine ih hsupp fun i hi hlen => ?_
    rcases Nat.lt_succ_iff_lt_or_eq.mp hi with hi | rfl
    · exact hneed i hi hlen
    · exact hfls
  | case4 support index hge =>
    exact ⟨support, rfl, List.Subset.refl _, hsupp, fun i hi => hneed i (by omega) hi⟩

end shrinking

section explanations

variable {isEntailedCore : Finset C → Except String Bool} {entails : Finset C → Bool}

/-- The axioms of an ontology. -/
def axioms (ontology : List (C × Ann)) : Finset C := ontologyFrom (ontology.map Prod.fst)

/-- A minimal set of axioms that entails the axiom. -/
def IsExplanation (entails : Finset C → Bool) (ontology : List (C × Ann)) (S : Finset C) : Prop :=
  Minimal (fun S => S ⊆ axioms ontology ∧ entails S = true) S

theorem explain_spec (horac : ∀ S, isEntailedCore S = .ok (entails S))
    (hmono : ∀ S T, S ⊆ T → entails S = true → entails T = true) (ontology : List (C × Ann)) :
    ∃ explanation, explain isEntailedCore ontology = .ok explanation ∧
      (explanation = none ↔ entails (axioms ontology) = false) ∧ ∀ l ∈ explanation,
      l.Nodup ∧ IsExplanation entails ontology l.toFinset := by
  cases hent : entails (axioms ontology) with
  | false =>
    refine ⟨none, ?_, iff_of_true rfl rfl, nofun⟩
    rw [explain, horac]
    change (if (!entails (axioms ontology)) = true then pure none else _) = _
    rw [hent]
    rfl
  | true =>
    obtain ⟨l, hl, hsub, hQ, hneed⟩ :=
      shrink_spec (Q := fun l => entails (ontologyFrom l)) (fun l => horac (ontologyFrom l))
      (fun l l' hl => hmono _ _ (toFinset_subset hl)) (ontology.map Prod.fst) 0 hent
        (fun i hi => absurd hi (Nat.not_lt_zero i))
    refine ⟨some l, ?_, iff_of_false nofun nofun, ?_⟩
    · rw [explain, horac]
      change (if (!entails (axioms ontology)) = true then pure none else _) = _
      rw [hent, hl]
      rfl
    · rintro _ ⟨⟩
      have hmono' : Monotone fun S : Finset C => entails S = true := fun S T hST => hmono S T hST
      have hneed' : ∀ i < l.length, ¬ entails (l.eraseIdx i).toFinset = true := fun i hi => by
        rw [show entails (l.eraseIdx i).toFinset = false from hneed i hi]
        exact Bool.false_ne_true
      have hmin := minimal_toFinset hmono' hQ hneed'
      refine ⟨nodup_of_needed (P := fun S => entails S = true) hQ hneed',
        ⟨toFinset_subset hsub, hQ⟩, fun T hT hle => hmin.2 hT.2 hle⟩

end explanations

/-! ## The search -/

section search

variable {isEntailedCore : Finset C → Except String Bool} {entails : Finset C → Bool} {all : List C}

/-- The axioms at some positions entail the axiom. -/
def EntailsAt (entails : Finset C → Bool) (all : List C) (J : Finset (Fin all.length)) : Prop :=
  entails (J.image all.get) = true

theorem entailsAt_toFinset {l : List (Fin all.length)} : EntailsAt entails all l.toFinset ↔
    entails (ontologyFrom (l.map all.get)) = true := by
  have hsame : l.toFinset.image all.get = (l.map all.get).toFinset := by
    ext c
    simp
  rw [EntailsAt, hsame]
  rfl

theorem monotone_entailsAt (hmono : ∀ S T, S ⊆ T → entails S = true → entails T = true) :
    Monotone (EntailsAt entails all) :=
  fun _ _ hJ => hmono _ _ (Finset.image_subset_image hJ)

theorem justifyIndices_spec (horac : ∀ S, isEntailedCore S = .ok (entails S))
    (hmono : ∀ S T, S ⊆ T → entails S = true → entails T = true)
    (available : List (Fin all.length)) :
    ∃ justification, justifyIndices isEntailedCore all available = .ok justification ∧
      (justification = none → ¬ EntailsAt entails all available.toFinset) ∧
      ∀ l ∈ justification, l.Nodup ∧ l ⊆ available ∧
      Minimal (EntailsAt entails all) l.toFinset := by
  cases hent : entails (ontologyFrom (available.map all.get)) with
  | false =>
    refine ⟨none, ?_, fun _ h => ?_, nofun⟩
    · rw [justifyIndices, horac]
      change (if (!entails (ontologyFrom (available.map all.get))) = true then pure none else _) = _
      rw [hent]
      rfl
    · rw [entailsAt_toFinset, hent] at h
      cases h
  | true =>
    obtain ⟨l, hl, hsub, hQ, hneed⟩ :=
      shrink_spec (Q := fun l => entails (ontologyFrom (l.map all.get)))
      (fun l => horac (ontologyFrom (l.map all.get)))
        (fun l l' hl => hmono _ _ (toFinset_subset (map_subset _ hl))) available 0 hent
      (fun i hi => absurd hi (Nat.not_lt_zero i))
    refine ⟨some l, ?_, nofun, ?_⟩
    · rw [justifyIndices, horac]
      change (if (!entails (ontologyFrom (available.map all.get))) = true then pure none else _) = _
      rw [hent, hl]
      rfl
    · rintro _ ⟨⟩
      have hneed' : ∀ i < l.length, ¬ EntailsAt entails all (l.eraseIdx i).toFinset :=
          fun i hi => by
        rw [entailsAt_toFinset, show entails (ontologyFrom ((l.eraseIdx i).map all.get)) =
          false from hneed i hi]
        exact Bool.false_ne_true
      have hP := entailsAt_toFinset.mpr hQ
      exact ⟨nodup_of_needed hP hneed', hsub, minimal_toFinset (monotone_entailsAt hmono) hP hneed'⟩

/-- What the search keeps: it holds minimal sets in increasing order, and after each removal that
was looked at, a set that was found avoids it and its elements were or will be removed as well. -/
structure Searched (entails : Finset C → Bool) (all : List C)
    (justifications : List (List (Fin all.length)))
    (explored : Finset (Finset (Fin all.length)))
    (worklist : List (Finset (Fin all.length))) : Prop where
  sorted : ∀ j ∈ justifications, j.Pairwise (· < ·)
  minimal : ∀ j ∈ justifications, Minimal (EntailsAt entails all) j.toFinset
  nodup : justifications.Nodup
  start : ∅ ∈ explored ∨ ∅ ∈ worklist
  hit : ∀ r ∈ explored, EntailsAt entails all rᶜ →
    ∃ j ∈ justifications, j.toFinset ⊆ rᶜ ∧ ∀ i ∈ j, insert i r ∈ explored ∨ insert i r ∈ worklist

variable {justifications : List (List (Fin all.length))}
    {explored : Finset (Finset (Fin all.length))}
  {worklist : List (Finset (Fin all.length))} {removed : Finset (Fin all.length)}

section

variable (h : Searched entails all justifications explored (removed :: worklist))
include h

theorem Searched.skip (hrem : removed ∈ explored) :
    Searched entails all justifications explored worklist := by
  have hmove : ∀ r, r ∈ explored ∨ r ∈ removed :: worklist → r ∈ explored ∨ r ∈ worklist := by
    rintro r (hr | hr)
    · exact .inl hr
    · rcases mem_cons.mp hr with rfl | hr
      · exact .inl hrem
      · exact .inr hr
  refine ⟨h.sorted, h.minimal, h.nodup, hmove _ h.start, fun r hr hent => ?_⟩
  obtain ⟨j, hj, hsub, hins⟩ := h.hit r hr hent
  exact ⟨j, hj, hsub, fun i hi => hmove _ (hins i hi)⟩

/-- A removal is looked at. -/
theorem Searched.explore (found : List (List (Fin all.length)))
    (more : List (Finset (Fin all.length))) (hfnd : ∀ j ∈ justifications, j ∈ found)
    (hsort : ∀ j ∈ found, j.Pairwise (· < ·))
    (hmin : ∀ j ∈ found, Minimal (EntailsAt entails all) j.toFinset) (hnd : found.Nodup)
    (hhit : EntailsAt entails all removedᶜ → ∃ j ∈ found, j.toFinset ⊆ removedᶜ ∧ ∀ i ∈ j,
      insert i removed ∈ more) :
    Searched entails all found (insert removed explored) (more ++ worklist) := by
  have hmove : ∀ r, r ∈ explored ∨ r ∈ removed :: worklist →
      r ∈ insert removed explored ∨ r ∈ more ++ worklist := by
    rintro r (hr | hr)
    · exact .inl (Finset.mem_insert_of_mem hr)
    · rcases mem_cons.mp hr with rfl | hr
      · exact .inl (Finset.mem_insert_self _ _)
      · exact .inr (mem_append_right _ hr)
  refine ⟨hsort, hmin, hnd, hmove _ h.start, fun r hr hent => ?_⟩
  rcases Finset.mem_insert.mp hr with rfl | hr
  · obtain ⟨j, hj, hsub, hins⟩ := hhit hent
    exact ⟨j, hj, hsub, fun i hi => .inr (mem_append_left _ (hins i hi))⟩
  · obtain ⟨j, hj, hsub, hins⟩ := h.hit r hr hent
    exact ⟨j, hfnd j hj, hsub, fun i hi => hmove _ (hins i hi)⟩

end

/-- Without duplicates the sorted list is strictly increasing. -/
theorem pairwise_mergeSort {n : ℕ} {l : List (Fin n)} (hl : l.Nodup) :
    l.mergeSort.Pairwise (· < ·) := by
  have hle : l.mergeSort.Pairwise (· ≤ ·) := pairwise_mergeSort' (· ≤ ·) l
  have hnd : l.mergeSort.Nodup := (mergeSort_perm l _).nodup_iff.mpr hl
  exact hle.imp₂ (fun a b => lt_of_le_of_ne) hnd

variable {order : Finset (Fin all.length) → List (Fin all.length)}
  (horac : ∀ S, isEntailedCore S = .ok (entails S))
  (hmono : ∀ S T, S ⊆ T → entails S = true → entails T = true)
  (horder : ∀ s, (order s).toFinset = s)
include horac hmono horder

theorem searchExplanations_spec (h : Searched entails all justifications explored worklist) :
    ∃ found last, searchExplanations isEntailedCore all order justifications explored
    worklist = .ok found ∧ Searched entails all found last [] := by
  fun_induction searchExplanations isEntailedCore all order justifications explored worklist with
  | case1 justifications explored => exact ⟨justifications, explored, rfl, h⟩
  | case2 justifications explored removed worklist hrem ih => exact ih (h.skip hrem)
  | case3 justifications explored removed worklist hrem e he =>
    obtain ⟨justification, hok, -⟩ := justifyIndices_spec horac hmono (order removedᶜ)
    cases he.symm.trans hok
  | case4 justifications explored removed worklist hrem hnone ih =>
    obtain ⟨justification, hok, hcl, -⟩ := justifyIndices_spec horac hmono (order removedᶜ)
    have hjustification : justification = none := Except.ok.inj (hok.symm.trans hnone)
    refine ih (h.explore justifications [] (fun j hj => hj) h.sorted h.minimal h.nodup
      fun hent => ?_)
    exact absurd (by rwa [horder]) (hcl hjustification)
  | case5 justifications explored removed worklist hrem justification hsome sorted ih =>
    obtain ⟨_, hok, -, hspec⟩ := justifyIndices_spec horac hmono (order removedᶜ)
    cases Except.ok.inj (hok.symm.trans hsome)
    obtain ⟨hnd, hsub, hmin⟩ := hspec justification rfl
    have hperm : sorted.Perm justification := mergeSort_perm justification _
    have hsame : sorted.toFinset = justification.toFinset := toFinset_eq_of_perm _ _ hperm
    have hmem : ∀ j,
      j ∈ (if justifications.contains sorted then justifications else justifications ++ [sorted]) ↔
        j ∈ justifications ∨ j = sorted := by
      intro j
      split
      · rename_i hcont
        rw [contains_iff_mem] at hcont
        exact ⟨.inl, fun hj => hj.elim id fun hj => hj ▸ hcont⟩
      · rw [mem_append, mem_singleton]
    refine ih (h.explore _ _ (fun j hj => (hmem j).mpr (.inl hj)) ?_ ?_ ?_ fun _ => ?_)
    · intro j hj
      rcases (hmem j).mp hj with hj | rfl
      · exact h.sorted j hj
      · exact pairwise_mergeSort hnd
    · intro j hj
      rcases (hmem j).mp hj with hj | rfl
      · exact h.minimal j hj
      · rwa [hsame]
    · split
      · exact h.nodup
      · rename_i hcont
        rw [contains_iff_mem] at hcont
        exact nodup_append.mpr ⟨h.nodup, nodup_singleton _, by
          rintro a ha b hb rfl
          exact hcont (mem_singleton.mp hb ▸ ha)⟩
    · refine ⟨sorted, (hmem _).mpr (.inr rfl), ?_, fun i hi => ?_⟩
      · rw [hsame, ← horder removedᶜ]
        exact toFinset_subset hsub
      · rw [mem_reverse]
        exact mem_map_of_mem (hperm.mem_iff.mp hi)

theorem searchExplanations_complete :
    ∃ found, searchExplanations isEntailedCore all order [] ∅ [∅] = .ok found ∧
    (found.map List.toFinset).Nodup ∧
      ∀ J, J ∈ found.map List.toFinset ↔ Minimal (EntailsAt entails all) J := by
  have hst : Searched entails all [] ∅ [∅] :=
    ⟨by simp, by simp, nodup_nil, .inr mem_cons_self, by simp⟩
  obtain ⟨found, explored, hfnd, h⟩ := searchExplanations_spec horac hmono horder hst
  refine ⟨found, hfnd, ?_, fun J => ⟨fun hJ => ?_, fun hJ => ?_⟩⟩
  · refine h.nodup.map_on fun j hj j' hj' heq => ?_
    have hperm : j.Perm j' := (perm_ext_iff_of_nodup ((h.sorted j hj).imp ne_of_lt)
        ((h.sorted j' hj').imp ne_of_lt)).mpr fun i => by
      rw [← mem_toFinset, heq, mem_toFinset]
    exact hperm.eq_of_pairwise (fun a b _ _ hab hba => absurd hab hba.asymm) (h.sorted j hj)
      (h.sorted j' hj')
  · obtain ⟨j, hj, rfl⟩ := mem_map.mp hJ
    exact h.minimal j hj
  · have hmem := mem_of_removals (monotone_entailsAt hmono) {J | J ∈ found.map List.toFinset}
      {r | r ∈ explored}
      (h.start.resolve_right not_mem_nil) (fun r hr hent => by
        obtain ⟨j, hj, hsub, hins⟩ := h.hit r hr hent
        exact ⟨j.toFinset, mem_map_of_mem hj, hsub, h.minimal j hj,
          fun i hi => (hins i (mem_toFinset.mp hi)).resolve_right not_mem_nil⟩) hJ
    exact hmem

end search

/-! ## All explanations -/

section all

variable {isEntailedCore : Finset C → Except String Bool} {entails : Finset C → Bool}
    {ontology : List (C × Ann)}

omit [DecidableEq C] in
/-- An axiom has one annotation if and only if it is at one position. -/
theorem annotation_unique_iff (hnd : ontology.Nodup) {c : C} :
    (∀ a b, (c, a) ∈ ontology → (c, b) ∈ ontology → a = b) ↔
      ∀ i j, (ontology.map Prod.fst).get i = c → (ontology.map Prod.fst).get j = c → i = j := by
  have hget : ∀ i, (ontology.map Prod.fst).get i = (ontology.get (i.cast (length_map _))).1 :=
    fun i => by simp
  constructor
  · intro h i j hi hj
    rw [hget] at hi hj
    have hmem : ∀ i, ontology.get i ∈ ontology := get_mem ontology
    have hsame : ontology.get (i.cast (length_map _)) = ontology.get (j.cast (length_map _)) := by
      refine Prod.ext (hi.trans hj.symm) (h _ _ ?_ ?_)
      · rw [← hi]
        exact hmem _
      · rw [← hj]
        exact hmem _
    exact Fin.cast_injective _ (nodup_iff_injective_get.mp hnd hsame)
  · intro h a b ha hb
    obtain ⟨i, hi⟩ := get_of_mem ha
    obtain ⟨j, hj⟩ := get_of_mem hb
    have hij := h (i.cast (length_map _).symm) (j.cast (length_map _).symm)
      (by rw [hget]; exact congrArg Prod.fst hi)
      (by rw [hget]; exact congrArg Prod.fst hj)
    have hij : i = j := Fin.cast_injective _ hij
    rw [← hij, hi] at hj
    exact (Prod.mk.inj hj).2

theorem image_get : Finset.univ.image (ontology.map Prod.fst).get = axioms ontology := by
  ext c
  rw [axioms, ontologyFrom, mem_toFinset, Finset.mem_image, mem_iff_get]
  simp

/-- The explanations are the images of the minimal sets of positions. -/
theorem minimal_entailsAt_iff {J : Finset (Fin (ontology.map Prod.fst).length)} :
    Minimal (EntailsAt entails (ontology.map Prod.fst)) J ↔
      Set.InjOn (ontology.map Prod.fst).get J ∧ IsExplanation entails ontology
      (J.image (ontology.map Prod.fst).get) := by
  have hiff := minimal_image_iff (P := fun S => entails S = true) (f :=
    (ontology.map Prod.fst).get) (J := J)
  rw [image_get] at hiff
  exact hiff

theorem IsExplanation.exists_minimal {S : Finset C} (hS : IsExplanation entails ontology S) :
    ∃ J, Minimal (EntailsAt entails (ontology.map Prod.fst)) J ∧
    J.image (ontology.map Prod.fst).get = S := by
  have hsurj : Set.SurjOn (ontology.map Prod.fst).get Set.univ S := by
    intro c hc
    have hmem := hS.prop.1 hc
    rw [← image_get, Finset.mem_image] at hmem
    obtain ⟨i, -, hi⟩ := hmem
    exact ⟨i, Set.mem_univ i, hi⟩
  obtain ⟨J, -, hinj, him⟩ := Finset.exists_subset_injOn_image_eq_of_surjOn Set.univ S hsurj
  exact ⟨J, minimal_entailsAt_iff.mpr ⟨hinj, him ▸ hS⟩, him⟩

/-- Two minimal sets of positions have the same axioms unless each axiom of an explanation is at one
position. -/
theorem injOn_image_iff : (∀ J J', Minimal (EntailsAt entails (ontology.map Prod.fst)) J →
      Minimal (EntailsAt entails (ontology.map Prod.fst)) J' →
        J.image (ontology.map Prod.fst).get = J'.image (ontology.map Prod.fst).get → J = J') ↔
      ∀ S, IsExplanation entails ontology S → ∀ c ∈ S, ∀ i j,
        (ontology.map Prod.fst).get i = c → (ontology.map Prod.fst).get j = c → i = j := by
  constructor
  · intro h S hS c hc i j hi hj
    by_contra hne
    obtain ⟨J, hJ, him⟩ := hS.exists_minimal
    obtain ⟨hinj, -⟩ := minimal_entailsAt_iff.mp hJ
    rw [← him] at hc
    obtain ⟨k, hk, hkc⟩ := Finset.mem_image.mp hc
    -- One of the positions is another one, and can take the place of the one in the set.
    obtain ⟨l, hl, hlk⟩ : ∃ l, (ontology.map Prod.fst).get l = c ∧ l ≠ k := by
      by_cases hik : i = k
      · exact ⟨j, hj, fun hjk => hne (hik.trans hjk.symm)⟩
      · exact ⟨i, hi, hik⟩
    have hlJ : l ∉ J := fun hmem => hlk (hinj hmem hk (hl.trans hkc.symm))
    have him' : (insert l (J.erase k)).image (ontology.map Prod.fst).get = S := by
      rw [Finset.image_insert, hl, ← hkc, ← Finset.image_insert, Finset.insert_erase hk, him]
    have hinj' : Set.InjOn (ontology.map Prod.fst).get (insert l (J.erase k) : Finset _) := by
      intro a ha b hb hab
      rcases Finset.mem_insert.mp ha with hal | ha'
      · rcases Finset.mem_insert.mp hb with hbl | hb'
        · exact hal.trans hbl.symm
        · rw [hal] at hab
          have hbk := hinj (Finset.mem_of_mem_erase hb') hk (hab.symm.trans (hl.trans hkc.symm))
          exact absurd hbk (Finset.ne_of_mem_erase hb')
      · rcases Finset.mem_insert.mp hb with hbl | hb'
        · rw [hbl] at hab
          have hak := hinj (Finset.mem_of_mem_erase ha') hk (hab.trans (hl.trans hkc.symm))
          exact absurd hak (Finset.ne_of_mem_erase ha')
        · exact hinj (Finset.mem_of_mem_erase ha') (Finset.mem_of_mem_erase hb') hab
    have hsame := h J (insert l (J.erase k)) hJ
      (minimal_entailsAt_iff.mpr ⟨hinj', him' ▸ hS⟩) (him.trans him'.symm)
    rw [hsame] at hlJ
    exact hlJ (Finset.mem_insert_self l _)
  · intro h J J' hJ hJ' him
    have hsub : ∀ J J', Minimal (EntailsAt entails (ontology.map Prod.fst)) J →
        J.image (ontology.map Prod.fst).get = J'.image (ontology.map Prod.fst).get → J ⊆ J' := by
      intro J J' hJ him i hi
      have hc := Finset.mem_image_of_mem (ontology.map Prod.fst).get hi
      have hc' := hc
      rw [him] at hc'
      obtain ⟨i', hi', heq⟩ := Finset.mem_image.mp hc'
      rwa [← h _ (minimal_entailsAt_iff.mp hJ).2 _ hc i' i heq rfl]
    exact Finset.Subset.antisymm (hsub J J' hJ him) (hsub J' J hJ' him.symm)

/-- All explanations are found, and each of them once if no axiom of one has two annotations. -/
theorem allExplanations_spec (entails : Finset C → Bool)
    (horac : ∀ S, isEntailedCore S = .ok (entails S))
    (hmono : ∀ S T, S ⊆ T → entails S = true → entails T = true) (ontology : List (C × Ann))
    (hnd : ontology.Nodup)
    {order : Finset (Fin (ontology.map Prod.fst).length) →
      List (Fin (ontology.map Prod.fst).length)}
    (horder : ∀ s, (order s).toFinset = s) :
    ∃ explanations, allExplanations isEntailedCore ontology order = .ok explanations ∧
      (∀ S, (∃ l ∈ explanations, l.toFinset = S) ↔ IsExplanation entails ontology S) ∧
      ((explanations.map List.toFinset).Nodup ↔
        ∀ S, IsExplanation entails ontology S → ∀ c ∈ S, ∀ a b, (c, a) ∈ ontology →
        (c, b) ∈ ontology → a = b) := by
  obtain ⟨found, hfnd, hdist, hmem⟩ := searchExplanations_complete horac hmono horder
  have himages : (found.map fun indices => indices.map (ontology.map Prod.fst).get).map
    List.toFinset = (found.map List.toFinset).map fun J => J.image (ontology.map Prod.fst).get := by
    rw [map_map, map_map]
    refine map_congr_left fun l _ => ?_
    ext c
    simp
  refine ⟨found.map fun indices => indices.map (ontology.map Prod.fst).get, ?_, fun S => ?_, ?_⟩
  · rw [allExplanations, hfnd]
    rfl
  · rw [← mem_map, himages, mem_map]
    constructor
    · rintro ⟨J, hJ, rfl⟩
      exact (minimal_entailsAt_iff.mp ((hmem J).mp hJ)).2
    · intro hS
      obtain ⟨J, hJ, him⟩ := hS.exists_minimal
      exact ⟨J, (hmem J).mpr hJ, him⟩
  · rw [himages, nodup_map_iff_inj_on hdist]
    simp only [hmem, annotation_unique_iff hnd, ← injOn_image_iff]
    exact ⟨fun h J J' hJ hJ' => h J hJ J' hJ', fun h J hJ J' hJ' => h J J' hJ hJ'⟩

/-- One explanation is found if and only if there is one; and all of them are found, each of them
once if and only if no axiom of an explanation has two annotations in the ontology. -/
theorem allExplanations_once_iff (isEntailedCore : Finset C → Except String Bool)
    (entails : Finset C → Bool) (horac : ∀ S, isEntailedCore S = .ok (entails S))
    (hmono : ∀ S T, S ⊆ T → entails S = true → entails T = true)
    (ontology : List (C × Ann)) (hnd : ontology.Nodup)
    (order : Finset (Fin (ontology.map Prod.fst).length) →
      List (Fin (ontology.map Prod.fst).length)) (horder : ∀ s, (order s).toFinset = s) :
    ((∃ explanation, explain isEntailedCore ontology = .ok explanation ∧
        (explanation = none ↔ entails (axioms ontology) = false) ∧
        ∀ l ∈ explanation, l.Nodup ∧ IsExplanation entails ontology l.toFinset) ∧
      ∃ explanations, allExplanations isEntailedCore ontology order = .ok explanations ∧
        (∀ S, (∃ l ∈ explanations, l.toFinset = S) ↔ IsExplanation entails ontology S) ∧
        (explanations.map List.toFinset).Nodup) ↔
      ∀ S, IsExplanation entails ontology S → ∀ c ∈ S, ∀ a b, (c, a) ∈ ontology →
      (c, b) ∈ ontology → a = b := by
  obtain ⟨explanations, hok, hall, honce⟩ :=
    allExplanations_spec entails horac hmono ontology hnd horder
  rw [and_iff_right (explain_spec horac hmono ontology), ← honce]
  constructor
  · rintro ⟨_, hok', -, hdist⟩
    cases hok'.symm.trans hok
    exact hdist
  · exact fun hdist => ⟨explanations, hok, hall, hdist⟩

/-- A subsumption that takes two axioms. -/
theorem allExplanations_once_iff_chain :
    ∃ explanations, allExplanations (fun S => .ok (decide ("A B" ∈ S ∧ "B C" ∈ S)))
    [("A B", ""), ("B C", ""), ("C D", "")] (fun s => s.sort (· ≤ ·)) = .ok explanations ∧
      (∀ S, (∃ l ∈ explanations, l.toFinset = S) ↔
        IsExplanation (fun S => decide ("A B" ∈ S ∧ "B C" ∈ S))
        [("A B", ""), ("B C", ""), ("C D", "")] S) ∧ (explanations.map List.toFinset).Nodup := by
  refine ((allExplanations_once_iff (fun S => .ok (decide ("A B" ∈ S ∧ "B C" ∈ S))) (fun S =>
      decide ("A B" ∈ S ∧ "B C" ∈ S))
    (fun S => rfl) ?_ [("A B", ""), ("B C", ""), ("C D", "")] (by decide) (fun s => s.sort (· ≤ ·))
      fun s => Finset.sort_toFinset _ _).mpr ?_).2
  · intro S T hST hS
    rw [decide_eq_true_eq] at hS ⊢
    exact ⟨hST hS.1, hST hS.2⟩
  · intro S _ c _ a b ha hb
    have hplain : ∀ axiomWithAnnotation ∈ [("A B", ""), ("B C", ""), ("C D", "")],
      axiomWithAnnotation.2 = "" := by decide
    exact (hplain _ ha).trans (hplain _ hb).symm

/-- An axiom that is in the ontology with and without an annotation explains itself twice. -/
theorem allExplanations_twice :
    ¬ ∃ explanations, allExplanations (fun S => .ok (decide ("A B" ∈ S)))
    [("A B", ""), ("A B", "label")] (fun s => s.sort (· ≤ ·)) = .ok explanations ∧
      (∀ S, (∃ l ∈ explanations, l.toFinset = S) ↔
        IsExplanation (fun S => decide ("A B" ∈ S)) [("A B", ""), ("A B", "label")] S) ∧
      (explanations.map List.toFinset).Nodup := by
  rintro ⟨explanations, hok, -, hdist⟩
  obtain ⟨_, hok', -, honce⟩ := allExplanations_spec (fun S => decide ("A B" ∈ S)) (fun S => rfl)
    (fun S T hST hS => decide_eq_true (hST (of_decide_eq_true hS))) [("A B", ""), ("A B", "label")]
      (by decide) fun s => Finset.sort_toFinset s (· ≤ ·)
  cases hok.symm.trans hok'
  have hexplanation : IsExplanation (fun S => decide ("A B" ∈ S)) [("A B", ""), ("A B", "label")]
      {"A B"} := by
    refine ⟨⟨by decide, by decide⟩, fun T hT _ => ?_⟩
    exact Finset.singleton_subset_iff.mpr (of_decide_eq_true hT.2)
  exact absurd (honce.mp hdist _ hexplanation "A B" (by decide) "" "label" (by decide)
    (by decide)) (by decide)

end all

end Hermit.Reasoner
