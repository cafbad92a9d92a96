import Hermit.Hierarchy.RoleInstanceManager

/-! # Queries for role instances

A query may only promote true pairs and add possible ones, so a pair that is recorded at a node of
which it is true stays recorded there.  A query answers exactly if and only if every true pair is
recorded in this way at or below the node: a pair that a child refutes reaches the node only after
the node has tested its possible pairs.
-/

namespace Hermit

open List hiding modify
open Option hiding or_assoc

open Hierarchy

/-! ## Relations -/

namespace Relations

variable {relations : Relations} {x y source target : String}

theorem has_iff : relations.has x y = true ↔ ∃ targets,
    relations.lookup x = some targets ∧ y ∈ targets := by
  simp [has, Option.any_eq_true]

theorem has_iff_mem_getD : relations.has x y = true ↔ y ∈ (relations.lookup x).getD [] := by
  rw [has_iff]
  cases relations.lookup x with
  | none => simp
  | some targets => simp

theorem has_iff_mem_entries : relations.has x y = true ↔ ∃ targets,
    ⟨x, targets⟩ ∈ relations.entries ∧ y ∈ targets := by
  rw [has_iff]
  refine exists_congr fun targets => and_congr_left fun _ => ?_
  exact AList.mem_lookup_iff

variable {targets : List String}

theorem has_empty : (∅ : Relations).has x y = false := rfl

theorem has_insert : Relations.has (relations.insert source targets) x y = true ↔
      if x = source then y ∈ targets else relations.has x y = true := by
  rw [has_iff_mem_getD]
  split
  · rename_i hx
    rw [hx, AList.lookup_insert, getD_some]
  · rename_i hx
    rw [AList.lookup_insert_ne hx, has_iff_mem_getD]

theorem has_erase : Relations.has (relations.erase source) x y = true ↔
    relations.has x y = true ∧ x ≠ source := by
  rw [has_iff_mem_getD]
  by_cases hx : x = source
  · rw [hx, AList.lookup_erase]
    simp
  · rw [AList.lookup_erase_ne hx, ← has_iff_mem_getD, and_iff_left hx]

theorem has_add : (relations.add source target).has x y = true ↔
    relations.has x y = true ∨ x = source ∧ y = target := by
  rw [add, has_insert]
  split
  · rename_i hx
    rw [mem_insertSet, hx, ← has_iff_mem_getD, and_iff_right rfl]
  · rename_i hx
    simp [hx]

theorem has_remove : (relations.remove source target).has x y = true ↔
    relations.has x y = true ∧ ¬ (x = source ∧ y = target) := by
  unfold remove
  split
  · rename_i hlook
    refine (and_iff_left_of_imp ?_).symm
    rintro hhas ⟨rfl, rfl⟩
    rw [has_iff, hlook] at hhas
    obtain ⟨targets, htgts, -⟩ := hhas
    cases htgts
  · rename_i successors hlook
    have hsrc : relations.has source y = true ↔ y ∈ successors := by
      rw [has_iff_mem_getD, hlook, getD_some]
    split
    · rename_i hemp
      rw [has_erase]
      refine and_congr_right fun hhas => not_congr ⟨fun hx => ⟨hx, ?_⟩, And.left⟩
      by_contra hy
      rw [hx, hsrc] at hhas
      have hmem : y ∈ successors.filter (· ≠ target) := by simp [hhas, hy]
      rw [hemp] at hmem
      cases hmem
    · rw [has_insert]
      split
      · rename_i hx
        rw [hx, hsrc]
        simp
      · rename_i hx
        simp [hx]

theorem mem_pairs : (x, y) ∈ relations.pairs ↔ relations.has x y = true := by
  rw [has_iff_mem_entries]
  simp only [pairs, mem_flatMap, List.mem_map, Prod.mk.injEq]
  constructor
  · rintro ⟨⟨source, targets⟩, hent, target, htgt, rfl, rfl⟩
    exact ⟨targets, hent, htgt⟩
  · rintro ⟨targets, hent, hy⟩
    exact ⟨_, hent, y, hy, rfl, rfl⟩

theorem exists_mem_cons {entries : List (Sigma fun _ : String => List String)} :
    (∃ targets', ⟨x, targets'⟩ ∈ (⟨source, targets⟩ : Sigma fun _ : String => List String) ::
      entries ∧ y ∈ targets') ↔
      x = source ∧ y ∈ targets ∨ ∃ targets', ⟨x, targets'⟩ ∈ entries ∧ y ∈ targets' := by
  constructor
  · rintro ⟨targets', hmem, hy⟩
    rcases mem_cons.mp hmem with heq | hmem
    · cases heq
      exact .inl ⟨rfl, hy⟩
    · exact .inr ⟨targets', hmem, hy⟩
  · rintro (⟨rfl, hy⟩ | ⟨targets', hmem, hy⟩)
    · exact ⟨targets, mem_cons_self, hy⟩
    · exact ⟨targets', mem_cons_of_mem _ hmem, hy⟩

end Relations

namespace SeededRoleInstanceManager

variable {m m' : SeededRoleInstanceManager} {n k : NodeRef} {x y source target : String}

/-! ## Changes of an element -/

variable (change : RoleElement → RoleElement)

theorem element_modify :
    (m.modify n change).element k = if k = n then change (m.element n) else m.element k := by
  unfold modify element
  split
  · rename_i hk
    rw [hk, AList.lookup_insert, getD_some]
  · rename_i hk
    rw [AList.lookup_insert_ne hk]

theorem isKnownAt_setToKnown : (m.modify n (·.setToKnown source target)).isKnownAt k x y = true ↔
    m.isKnownAt k x y = true ∨ k = n ∧ x = source ∧ y = target := by
  unfold isKnownAt
  rw [element_modify]
  split
  · rename_i hk
    rw [hk, RoleElement.setToKnown, RoleElement.addKnown, Relations.has_add, and_iff_right rfl]
    rfl
  · rename_i hk
    simp [hk]

theorem isPossibleAt_setToKnown : (m.modify n (·.setToKnown source target)).isPossibleAt k
    x y = true ↔ m.isPossibleAt k x y = true ∧ ¬ (k = n ∧ x = source ∧ y = target) := by
  unfold isPossibleAt
  rw [element_modify]
  split
  · rename_i hk
    rw [hk, RoleElement.setToKnown, RoleElement.addKnown, RoleElement.removePossible,
        Relations.has_remove,
      and_iff_right rfl]
  · rename_i hk
    simp [hk]

theorem isKnownAt_addPossible :
    (m.modify n (·.addPossible source target)).isKnownAt k x y = m.isKnownAt k x y := by
  unfold isKnownAt
  rw [element_modify]
  split
  · rename_i hk
    rw [hk, RoleElement.addPossible]
  · rfl

theorem isPossibleAt_addPossible : (m.modify n (·.addPossible source target)).isPossibleAt k
    x y = true ↔ m.isPossibleAt k x y = true ∨ k = n ∧ x = source ∧ y = target := by
  unfold isPossibleAt
  rw [element_modify]
  split
  · rename_i hk
    rw [hk, RoleElement.addPossible, Relations.has_add, and_iff_right rfl]
  · rename_i hk
    simp [hk]

theorem isKnownAt_addKnown : (m.modify n (·.addKnown source target)).isKnownAt k x y = true ↔
    m.isKnownAt k x y = true ∨ k = n ∧ x = source ∧ y = target := by
  unfold isKnownAt
  rw [element_modify]
  split
  · rename_i hk
    rw [hk, RoleElement.addKnown, Relations.has_add, and_iff_right rfl]
  · rename_i hk
    simp [hk]

theorem element_modifyIfPresent : (m.modifyIfPresent n change).element k = m.element k ∨
      k = n ∧ (m.modifyIfPresent n change).element k = change (m.element k) := by
  unfold modifyIfPresent
  split
  · exact .inl rfl
  · rename_i e hlook
    by_cases hk : k = n
    · right
      refine ⟨hk, ?_⟩
      rw [hk, element, element, AList.lookup_insert, hlook, getD_some, getD_some]
    · left
      rw [element, element, AList.lookup_insert_ne hk]

theorem isKnownAt_of_removeKnown
    (hknown : (m.modifyIfPresent n (·.removeKnown source target)).isKnownAt k x y = true) :
    m.isKnownAt k x y = true := by
  unfold isKnownAt at hknown ⊢
  rcases element_modifyIfPresent (m := m) (n := n) (k := k) (·.removeKnown source target)
    with helem | ⟨-, helem⟩
  · rwa [helem] at hknown
  · rw [helem, RoleElement.removeKnown, Relations.has_remove] at hknown
    exact hknown.1

theorem isKnownAt_removePossible :
    (m.modifyIfPresent n (·.removePossible source target)).isKnownAt k x y = m.isKnownAt k x y := by
  unfold isKnownAt
  rcases element_modifyIfPresent (m := m) (n := n) (k := k) (·.removePossible source target)
    with helem | ⟨-, helem⟩
  · rw [helem]
  · rw [helem, RoleElement.removePossible]

theorem inconsistent_modifyIfPresent :
    (m.modifyIfPresent n change).inconsistent = m.inconsistent := by
  unfold modifyIfPresent
  split
  · rfl
  · rfl

/-! ## True pairs stay recorded -/

/-- A pair is recorded at a node if it is known there, or possible and true. -/
def Recorded (holds : NodeRef → String → String → Prop) (m : SeededRoleInstanceManager)
    (n : NodeRef) (x y : String) : Prop :=
  m.isKnownAt n x y = true ∨ m.isPossibleAt n x y = true ∧ holds n x y

/-- What is recorded stays so, and only true pairs become known. -/
structure Grows (holds : NodeRef → String → String → Prop)
    (m m' : SeededRoleInstanceManager) : Prop where
  known : ∀ n x y, m.isKnownAt n x y = true → m'.isKnownAt n x y = true
  possible : ∀ n x y, m.isPossibleAt n x y = true → holds n x y → Recorded holds m' n x y
  sound : ∀ n x y, m'.isKnownAt n x y = true → m.isKnownAt n x y = true ∨ holds n x y
  inconsistent : m'.inconsistent = m.inconsistent

def Sound (holds : NodeRef → String → String → Prop) (m : SeededRoleInstanceManager) : Prop :=
  ∀ n x y, m.isKnownAt n x y = true → holds n x y

variable {holds : NodeRef → String → String → Prop}

theorem Recorded.holds_of_sound (hsound : Sound holds m) (hrec : Recorded holds m n x y) :
    holds n x y := by
  rcases hrec with hknown | ⟨-, hholds⟩
  · exact hsound n x y hknown
  · exact hholds

namespace Grows

theorem refl (m : SeededRoleInstanceManager) : Grows holds m m :=
  ⟨fun _ _ _ => id, fun _ _ _ hposs hholds => .inr ⟨hposs, hholds⟩, fun _ _ _ => .inl, rfl⟩

theorem recorded (hgrow : Grows holds m m') (hrec : Recorded holds m n x y) :
    Recorded holds m' n x y := by
  rcases hrec with hknown | ⟨hposs, hholds⟩
  · exact .inl (hgrow.known n x y hknown)
  · exact hgrow.possible n x y hposs hholds

theorem trans {m'' : SeededRoleInstanceManager} (hgrow : Grows holds m m')
    (hgrow' : Grows holds m' m'') :
    Grows holds m m'' where
  known n x y hknown := hgrow'.known n x y (hgrow.known n x y hknown)
  possible n x y hposs hholds := hgrow'.recorded (hgrow.possible n x y hposs hholds)
  sound n x y hknown := (hgrow'.sound n x y hknown).elim (hgrow.sound n x y) .inr
  inconsistent := hgrow'.inconsistent.trans hgrow.inconsistent

theorem soundness (hgrow : Grows holds m m') (hsound : Sound holds m) : Sound holds m' :=
  fun n x y hknown => (hgrow.sound n x y hknown).elim (hsound n x y) id

theorem foldl {α : Type*} {step : SeededRoleInstanceManager → α → SeededRoleInstanceManager}
    {l : List α} (hstep : ∀ m, ∀ a ∈ l, Grows holds m (step m a)) (m : SeededRoleInstanceManager) :
    Grows holds m (l.foldl step m) := by
  induction l generalizing m with
  | nil => exact .refl m
  | cons a l ih =>
    exact (hstep m a mem_cons_self).trans (ih (fun m b hb => hstep m b (mem_cons_of_mem _ hb)) _)

theorem setToKnown (hholds : holds n x y) : Grows holds m (m.modify n (·.setToKnown x y)) where
  known k u v hknown := isKnownAt_setToKnown.mpr (.inl hknown)
  possible k u v hposs hholds' := by
    by_cases heq : k = n ∧ u = x ∧ v = y
    · exact .inl (isKnownAt_setToKnown.mpr (.inr heq))
    · exact .inr ⟨isPossibleAt_setToKnown.mpr ⟨hposs, heq⟩, hholds'⟩
  sound k u v hknown := by
    rcases isKnownAt_setToKnown.mp hknown with hknown | ⟨rfl, rfl, rfl⟩
    · exact .inl hknown
    · exact .inr hholds
  inconsistent := rfl

theorem addPossible : Grows holds m (m.modify n (·.addPossible x y)) where
  known _ _ _ hknown := isKnownAt_addPossible.trans hknown
  possible _ _ _ hposs hholds := .inr ⟨isPossibleAt_addPossible.mpr (.inl hposs), hholds⟩
  sound _ _ _ hknown := .inl (isKnownAt_addPossible.symm.trans hknown)
  inconsistent := rfl

theorem passToParents {E : Type*} (h : Hierarchy E) : Grows holds m (m.passToParents h n x y) :=
  foldl (fun _ _ _ => addPossible) m

end Grows

end SeededRoleInstanceManager

namespace Hierarchy

variable {E : Type*} (h : Hierarchy E) (isRoleInstance : E → String → String → Bool)

/-- The pair is an instance of the role of a node. -/
def HasRoleInstance (n : NodeRef) (x y : String) : Prop :=
  ∃ role, h.representative n = some role ∧ isRoleInstance role x y = true

/-- The links of the hierarchy are true of the role instances. -/
structure ClassifiesRoles : Prop where
  wellFormed : h.WellFormed
  parent : ∀ n, ∀ p ∈ h.parentNodes n, ∀ x y, h.HasRoleInstance isRoleInstance n x y →
    h.HasRoleInstance isRoleInstance p x y

variable {h isRoleInstance} {n d : NodeRef} {x y : String}

theorem HasRoleInstance.lt (hn : h.HasRoleInstance isRoleInstance n x y) : n < h.nodes.length := by
  obtain ⟨role, hrole, -⟩ := hn
  obtain ⟨node, hnode, -⟩ := map_eq_some_iff.mp hrole
  exact (List.getElem?_eq_some_iff.mp hnode).1

theorem hasRoleInstance_iff {role : E} (hrole : h.representative n = some role) :
    h.HasRoleInstance isRoleInstance n x y ↔ isRoleInstance role x y = true := by
  simp [HasRoleInstance, hrole]

theorem exists_representative (hn : n < h.nodes.length) : ∃ role,
    h.representative n = some role := by
  refine ⟨(h.nodes.get ⟨n, hn⟩).representative, ?_⟩
  rw [representative, getElem?_eq_getElem hn]
  rfl

theorem ClassifiesRoles.ancestor (hc : h.ClassifiesRoles isRoleInstance) (hdn : h.Ancestor d n)
    (hd : h.HasRoleInstance isRoleInstance d x y) : h.HasRoleInstance isRoleInstance n x y := by
  induction hdn with
  | refl => exact hd
  | tail _ hp ih => exact hc.parent _ _ hp x y ih

end Hierarchy

namespace SeededRoleInstanceManager

section queries

variable {E : Type*} {h : Hierarchy E} {isRoleInstance : E → String → String → Bool}
    {individuals : List String}
  {m m' : SeededRoleInstanceManager} {n : NodeRef} {x y : String}

/-! ## One pair -/

variable {ask : NodeRef → SeededRoleInstanceManager → Option (Bool × SeededRoleInstanceManager)}
    {fuel : ℕ}

variable {children : List NodeRef}

theorem grows_anyChild {holds : NodeRef → String → String → Prop}
    (hask : ∀ c ∈ children, ∀ m b m', ask c m = some (b, m') → Grows holds m m')
    {m m' : SeededRoleInstanceManager} {b : Bool}
    (hrun : anyChild ask children m = some (b, m')) : Grows holds m m' := by
  induction children generalizing m with
  | nil =>
    cases hrun
    exact .refl _
  | cons c children ih =>
    rw [anyChild, bind_eq_bind, bind_eq_some_iff] at hrun
    obtain ⟨⟨answer, m₁⟩, hans, hrun⟩ := hrun
    have hgrow := hask c mem_cons_self m answer m₁ hans
    cases answer with
    | true =>
      cases hrun
      exact hgrow
    | false => exact hgrow.trans (ih (fun c hc => hask c (mem_cons_of_mem _ hc)) hrun)

theorem grows_hasObjectRoleRelationship {b : Bool}
    (hrun : hasObjectRoleRelationship h individuals isRoleInstance x y fuel n m = some (b, m')) :
    Grows (h.HasRoleInstance isRoleInstance) m m' := by
  induction fuel generalizing n m m' b with
  | zero => cases hrun
  | succ fuel ih =>
    rw [hasObjectRoleRelationship] at hrun
    split at hrun
    · cases hrun
      exact .refl _
    dsimp only at hrun
    split at hrun
    · obtain ⟨role, hrole, hrun⟩ := map_eq_some_iff.mp hrun
      split at hrun
      · rename_i hholds
        cases hrun
        split
        · exact .refl _
        · exact .setToKnown ⟨role, hrole, hholds⟩
      · cases hrun
        exact .passToParents h
    · exact grows_anyChild (fun c _ m b m' hrun => ih hrun) hrun

/-- A child that says yes is right. -/
theorem exists_of_anyChild {holds : NodeRef → String → String → Prop}
    {p : NodeRef → Prop} (hgrow : ∀ c ∈ children, ∀ m b m', ask c m = some (b, m') →
      Grows holds m m')
    (hask : ∀ c ∈ children, ∀ m m', Sound holds m → ask c m = some (true, m') → p c)
    {m m' : SeededRoleInstanceManager} (hsound : Sound holds m)
    (hrun : anyChild ask children m = some (true, m')) : ∃ c ∈ children, p c := by
  induction children generalizing m with
  | nil => cases hrun
  | cons c children ih =>
    rw [anyChild, bind_eq_bind, bind_eq_some_iff] at hrun
    obtain ⟨⟨answer, m₁⟩, hans, hrun⟩ := hrun
    cases answer with
    | true => exact ⟨c, mem_cons_self, hask c mem_cons_self m m₁ hsound hans⟩
    | false =>
      have hsound₁ := (hgrow c mem_cons_self m false m₁ hans).soundness hsound
      obtain ⟨d, hd, hp⟩ := ih (fun c hc => hgrow c (mem_cons_of_mem _ hc))
        (fun c hc => hask c (mem_cons_of_mem _ hc)) hsound₁ hrun
      exact ⟨d, mem_cons_of_mem _ hd, hp⟩

theorem hasRoleInstance_of_hasObjectRoleRelationship (hc : h.ClassifiesRoles isRoleInstance)
    (hsound : Sound (h.HasRoleInstance isRoleInstance) m) (htop : n ≠ h.top)
    (hrun : hasObjectRoleRelationship h individuals isRoleInstance x y fuel n m = some (true, m')) :
    h.HasRoleInstance isRoleInstance n x y := by
  induction fuel generalizing n m m' with
  | zero => cases hrun
  | succ fuel ih =>
    rw [hasObjectRoleRelationship] at hrun
    split at hrun
    · rename_i hknown
      exact hsound n x y (hknown.resolve_left htop)
    dsimp only at hrun
    split at hrun
    · obtain ⟨role, hrole, hrun⟩ := map_eq_some_iff.mp hrun
      split at hrun
      · rename_i hholds
        exact ⟨role, hrole, hholds⟩
      · cases hrun
    · obtain ⟨c, hchild, hholds⟩ := exists_of_anyChild
        (fun c _ m b m' hrun => grows_hasObjectRoleRelationship hrun)
        (fun c hchild m m' hsound hrun =>
            ih hsound (hc.wellFormed.child_ne_top hchild) hrun) hsound hrun
      exact hc.parent c n ((hc.wellFormed.mem_parentNodes c n).mpr hchild) x y hholds

/-- A child that would say yes in any later state is asked, unless an earlier one says yes. -/
theorem exists_anyChild {holds : NodeRef → String → String → Prop} (children : List NodeRef)
    (yes : NodeRef → SeededRoleInstanceManager → Prop)
    (hyes : ∀ c m m', Grows holds m m' → yes c m → yes c m')
    (hgrow : ∀ c ∈ children, ∀ m b m', ask c m = some (b, m') → Grows holds m m')
    (hask : ∀ c ∈ children, ∀ m, Sound holds m → ∃ b m',
      ask c m = some (b, m') ∧ (yes c m → b = true))
    {m : SeededRoleInstanceManager} (hsound : Sound holds m) :
    ∃ b m', anyChild ask children m = some (b, m') ∧ ((∃ c ∈ children, yes c m) → b = true) := by
  induction children generalizing m with
  | nil => exact ⟨false, m, rfl, by simp⟩
  | cons c children ih =>
    obtain ⟨answer, m₁, hans, htrue⟩ := hask c mem_cons_self m hsound
    rw [anyChild, hans]
    cases answer with
    | true => exact ⟨true, m₁, rfl, fun _ => rfl⟩
    | false =>
      have hgrow₁ := hgrow c mem_cons_self m false m₁ hans
      obtain ⟨b, m', hrun, hb⟩ := ih (fun c hc => hgrow c (mem_cons_of_mem _ hc))
        (fun c hc => hask c (mem_cons_of_mem _ hc)) (hgrow₁.soundness hsound)
      refine ⟨b, m', hrun, ?_⟩
      rintro ⟨d, hd, hyesd⟩
      rcases mem_cons.mp hd with rfl | hd
      · exact absurd (htrue hyesd) Bool.false_ne_true
      · exact hb ⟨d, hd, hyes d m m₁ hgrow₁ hyesd⟩

theorem exists_hasObjectRoleRelationship (hc : h.ClassifiesRoles isRoleInstance)
    {rank : NodeRef → ℕ}
    (hrank : ∀ n, ∀ p ∈ h.parentNodes n, rank n < rank p) (hx : x ∈ individuals)
    (hy : y ∈ individuals)
    (hsound : Sound (h.HasRoleInstance isRoleInstance) m) (hn : n < h.nodes.length)
    (hfuel : rank n < fuel) :
    ∃ b m', hasObjectRoleRelationship h individuals isRoleInstance x y fuel n m = some (b, m') ∧
      ((∃ d, h.Ancestor d n ∧ Recorded (h.HasRoleInstance isRoleInstance) m d x y) → b = true) := by
  induction fuel generalizing n m with
  | zero => omega
  | succ fuel ih =>
    have wf := hc.wellFormed
    rw [hasObjectRoleRelationship]
    by_cases hknown : n = h.top ∨ m.isKnownAt n x y = true
    · exact ⟨true, m, if_pos hknown, fun _ => rfl⟩
    rw [if_neg hknown]
    have hunk : ¬ (x ∉ individuals ∨ y ∉ individuals) := by simp [hx, hy]
    simp only [hunk, or_false, if_false]
    by_cases hposs : m.isPossibleAt n x y = true
    · obtain ⟨role, hrole⟩ := exists_representative hn
      rw [if_pos hposs, hrole, map_some]
      by_cases hholds : isRoleInstance role x y = true
      · rw [if_pos hholds]
        exact ⟨_, _, rfl, fun _ => rfl⟩
      · rw [if_neg hholds]
        refine ⟨_, _, rfl, ?_⟩
        rintro ⟨d, hdn, hd⟩
        exact absurd ((hasRoleInstance_iff hrole).mp (hc.ancestor hdn (hd.holds_of_sound hsound)))
          hholds
    · rw [if_neg hposs]
      obtain ⟨b, m', hrun, hb⟩ := exists_anyChild (h.childNodes n)
        (fun c m => ∃ d, h.Ancestor d c ∧ Recorded (h.HasRoleInstance isRoleInstance) m d x y)
        (fun c m m' hgrow => fun ⟨d, hdc, hd⟩ => ⟨d, hdc, hgrow.recorded hd⟩)
        (fun c _ m b m' hrun => grows_hasObjectRoleRelationship hrun)
        (fun c hchild m hsound => ih hsound (wf.child_lt hchild) (by
          have := hrank c n ((wf.mem_parentNodes c n).mpr hchild)
          omega)) hsound
      refine ⟨b, m', hrun, ?_⟩
      rintro ⟨d, hdn, hd⟩
      have hne : d ≠ n := by
        rintro rfl
        exact hd.elim (fun hd => hknown (.inr hd)) fun hd => hposs hd.1
      obtain ⟨c, hchild, hdc⟩ := wf.exists_child hdn hne
      exact hb ⟨c, hchild, d, hdc, hd⟩

/-- A pair that is true of no node further down is only found at the node. -/
theorem recorded_of_hasObjectRoleRelationship (hc : h.ClassifiesRoles isRoleInstance)
    (hx : x ∈ individuals) (hy : y ∈ individuals)
    (hsound : Sound (h.HasRoleInstance isRoleInstance) m) (htop : n ≠ h.top)
    (hblw : ∀ d, h.Ancestor d n → d ≠ n → ¬ h.HasRoleInstance isRoleInstance d x y)
    (hrun : hasObjectRoleRelationship h individuals isRoleInstance x y fuel n m = some (true, m')) :
    Recorded (h.HasRoleInstance isRoleInstance) m n x y := by
  have hholds := hasRoleInstance_of_hasObjectRoleRelationship hc hsound htop hrun
  cases fuel with
  | zero => cases hrun
  | succ fuel =>
    rw [hasObjectRoleRelationship] at hrun
    split at hrun
    · rename_i hknown
      exact .inl (hknown.resolve_left htop)
    dsimp only at hrun
    split at hrun
    · rename_i hposs
      have hunk : ¬ (x ∉ individuals ∨ y ∉ individuals) := by simp [hx, hy]
      exact .inr ⟨hposs.resolve_right hunk, hholds⟩
    · obtain ⟨c, hchild, hholds⟩ := exists_of_anyChild
        (fun c _ m b m' hrun => grows_hasObjectRoleRelationship hrun)
        (fun c hchild m m' hsound hrun =>
          hasRoleInstance_of_hasObjectRoleRelationship hc hsound (hc.wellFormed.child_ne_top hchild)
            hrun) hsound hrun
      have hpar := (hc.wellFormed.mem_parentNodes c n).mpr hchild
      exact absurd hholds (hblw c (.single hpar) (hc.wellFormed.ne_of_mem_parentNodes hpar))

/-! ## Collected pairs -/

section collecting

variable {R : Type}

/-- The result gains wanted true pairs only, among them all that are recorded at the given nodes. -/
structure Gathers (holds : NodeRef → String → String → Prop) (mem : R → String → String → Prop)
    (wanted : String → String → Prop) (nodes : NodeRef → Prop) (n : NodeRef)
    (s s' : SeededRoleInstanceManager × R) : Prop where
  grows : Grows holds s.1 s'.1
  kept : ∀ x y, mem s.2 x y → mem s'.2 x y
  sound : ∀ x y, mem s'.2 x y → mem s.2 x y ∨ wanted x y ∧ holds n x y
  complete : ∀ x y, wanted x y → (∃ d, nodes d ∧ Recorded holds s.1 d x y) → mem s'.2 x y

variable {mem : R → String → String → Prop} {wanted : String → String → Prop} {everything : R → R}
  {atNode : E → NodeRef → SeededRoleInstanceManager → R → SeededRoleInstanceManager × R}

namespace Gathers

variable {holds : NodeRef → String → String → Prop} {nodes nodes' : NodeRef → Prop}
    {s s' s'' : SeededRoleInstanceManager × R}

theorem trans (hgath : Gathers holds mem wanted nodes n s s')
    (hgath' : Gathers holds mem wanted nodes' n s' s'') :
    Gathers holds mem wanted (fun d => nodes d ∨ nodes' d) n s s'' where
  grows := hgath.grows.trans hgath'.grows
  kept x y hmem := hgath'.kept x y (hgath.kept x y hmem)
  sound x y hmem := (hgath'.sound x y hmem).elim (hgath.sound x y) .inr
  complete x y hwant hd := by
    obtain ⟨d, hd | hd, hrec⟩ := hd
    · exact hgath'.kept x y (hgath.complete x y hwant ⟨d, hd, hrec⟩)
    · exact hgath'.complete x y hwant ⟨d, hd, hgath.grows.recorded hrec⟩

theorem foldlM
    {run : SeededRoleInstanceManager × R → NodeRef → Option (SeededRoleInstanceManager × R)}
    {children : List NodeRef} {below : NodeRef → NodeRef → Prop}
    (hrun : ∀ c ∈ children, ∀ s, Sound holds s.1 → s.1.inconsistent = false →
      ∃ s', run s c = some s' ∧ Gathers holds mem wanted (below c) n s s')
    (s : SeededRoleInstanceManager × R) (hsound : Sound holds s.1)
    (hcons : s.1.inconsistent = false) :
    ∃ s', children.foldlM run s = some s' ∧ Gathers holds mem wanted
    (fun d => ∃ c ∈ children, below c d) n s s' := by
  induction children generalizing s with
  | nil => exact ⟨s, rfl, .refl _, fun _ _ => id, fun _ _ => .inl, by simp⟩
  | cons c children ih =>
    obtain ⟨s₁, hrun₁, hgath₁⟩ := hrun c mem_cons_self s hsound hcons
    obtain ⟨s', hrun', hgath'⟩ := ih (fun c hc => hrun c (mem_cons_of_mem _ hc)) s₁
      (hgath₁.grows.soundness hsound) (hgath₁.grows.inconsistent.trans hcons)
    refine ⟨s', ?_, ?_⟩
    · rw [foldlM_cons, hrun₁]
      exact hrun'
    · simpa only [exists_mem_cons_iff] using hgath₁.trans hgath'

end Gathers

theorem grows_collect (hstep : ∀ role n m result, h.representative n = some role →
      Grows (h.HasRoleInstance isRoleInstance) m (atNode role n m result).1)
    {fuel : ℕ} {s s' : SeededRoleInstanceManager × R}
    (hrun : collect h everything atNode fuel n s = some s') :
    Grows (h.HasRoleInstance isRoleInstance) s.1 s'.1 := by
  have hfold : ∀ {children : List NodeRef}
    {run : SeededRoleInstanceManager × R → NodeRef → Option (SeededRoleInstanceManager × R)},
      (∀ c s s', run s c = some s' → Grows (h.HasRoleInstance isRoleInstance) s.1 s'.1) →
      ∀ s s', children.foldlM run s = some s' →
        Grows (h.HasRoleInstance isRoleInstance) s.1 s'.1 := by
    intro children run hchild
    induction children with
    | nil =>
      intro s s' hrun
      cases hrun
      exact .refl _
    | cons c children ih =>
      intro s s' hrun
      rw [foldlM_cons, bind_eq_bind, bind_eq_some_iff] at hrun
      obtain ⟨s₁, hc, hrun⟩ := hrun
      exact (hchild c s s₁ hc).trans (ih s₁ s' hrun)
  induction fuel generalizing n s s' with
  | zero => cases hrun
  | succ fuel ih =>
    obtain ⟨m, result⟩ := s
    rw [collect] at hrun
    split at hrun
    · cases hrun
      exact .refl _
    · cases hrole : h.representative n with
      | none =>
        rw [hrole] at hrun
        cases hrun
      | some role =>
        rw [hrole] at hrun
        exact (hstep role n m result hrole).trans (hfold (fun c s s' hrun => ih hrun) _ _ hrun)

theorem exists_collect (hc : h.ClassifiesRoles isRoleInstance) {rank : NodeRef → ℕ}
    (hrank : ∀ n, ∀ p ∈ h.parentNodes n, rank n < rank p)
    (hstep : ∀ role n m result, h.representative n = some role →
      Sound (h.HasRoleInstance isRoleInstance) m →
      Gathers (h.HasRoleInstance isRoleInstance) mem wanted (· = n) n (m, result)
      (atNode role n m result)) {fuel : ℕ} {s : SeededRoleInstanceManager × R}
    (hsound : Sound (h.HasRoleInstance isRoleInstance) s.1)
    (hcons : s.1.inconsistent = false) (htop : n ≠ h.top) (hn : n < h.nodes.length)
    (hfuel : rank n < fuel) :
    ∃ s', collect h everything atNode fuel n s = some s' ∧
      Gathers (h.HasRoleInstance isRoleInstance) mem wanted (h.Ancestor · n) n s s' := by
  have wf := hc.wellFormed
  induction fuel generalizing n s with
  | zero => omega
  | succ fuel ih =>
    obtain ⟨m, result⟩ := s
    obtain ⟨role, hrole⟩ := exists_representative hn
    have hhere := hstep role n m result hrole hsound
    have hchildren : ∀ c ∈ h.childNodes n, ∀ s : SeededRoleInstanceManager × R,
        Sound (h.HasRoleInstance isRoleInstance) s.1 → s.1.inconsistent = false →
        ∃ s', collect h everything atNode fuel c s = some s' ∧
          Gathers (h.HasRoleInstance isRoleInstance) mem wanted (h.Ancestor · c) n s s' := by
      intro c hchild s hsound hcons
      have hpar := (wf.mem_parentNodes c n).mpr hchild
      have hlt := hrank c n hpar
      obtain ⟨s', hrun, hgath⟩ :=
        ih hsound hcons (wf.child_ne_top hchild) (wf.child_lt hchild) (by omega)
      refine ⟨s', hrun, hgath.grows, hgath.kept, fun x y hmem => ?_, hgath.complete⟩
      exact (hgath.sound x y hmem).imp_right fun hnew =>
          ⟨hnew.1, hc.parent c n hpar x y hnew.2⟩
    obtain ⟨s', hrun, hgath⟩ := Gathers.foldlM hchildren _ (hhere.grows.soundness hsound)
      (hhere.grows.inconsistent.trans hcons)
    have hall := hhere.trans hgath
    refine ⟨s', ?_, hall.grows, hall.kept, hall.sound, fun x y hwant hd =>
        hall.complete x y hwant ?_⟩
    · have hdescend : ¬ (n = h.top ∨ m.inconsistent = true) := by
        rw [show m.inconsistent = false from hcons]
        simp [htop]
      rw [collect, if_neg hdescend, hrole]
      exact hrun
    · obtain ⟨d, hdn, hd⟩ := hd
      refine ⟨d, ?_, hd⟩
      by_cases hne : d = n
      · exact .inl hne
      · obtain ⟨c, hchild, hdc⟩ := wf.exists_child hdn hne
        exact .inr ⟨c, hchild, hdc⟩

/-- First the possible pairs become known or not, then the known ones are collected. -/
theorem Gathers.of_known {holds : NodeRef → String → String → Prop} {result result' : R}
    (hsound : Sound holds m) (hgrow : Grows holds m m')
    (hresolved : ∀ x y, wanted x y → m.isPossibleAt n x y = true → holds n x y →
      m'.isKnownAt n x y = true)
    (hmem : ∀ x y, mem result' x y ↔ mem result x y ∨ wanted x y ∧ m'.isKnownAt n x y = true) :
    Gathers holds mem wanted (· = n) n (m, result) (m', result') where
  grows := hgrow
  kept x y hxy := (hmem x y).mpr (.inl hxy)
  sound x y hxy := ((hmem x y).mp hxy).imp_right fun hxy =>
      ⟨hxy.1, hgrow.soundness hsound n x y hxy.2⟩
  complete x y hwant hd := by
    obtain ⟨d, rfl, hd⟩ := hd
    refine (hmem x y).mpr (.inr ⟨hwant, ?_⟩)
    rcases hd with hknown | ⟨hposs, hholds⟩
    · exact hgrow.known d x y hknown
    · exact hresolved x y hwant hposs hholds

end collecting

theorem has_addRelevant (result : Relations) (entry : Sigma fun _ : String => List String) :
    (addRelevant individuals result entry).has x y = true ↔
      result.has x y = true ∨ (x ∈ individuals ∧ y ∈ individuals) ∧ x = entry.1 ∧ y ∈ entry.2 := by
  obtain ⟨source, targets⟩ := entry
  have hsuccs : ∀ y, y ∈ (targets.filter (· ∈ individuals)).foldl insertSet
    ((result.lookup source).getD []) ↔
      result.has source y = true ∨ y ∈ targets ∧ y ∈ individuals := by
    intro y
    rw [mem_foldl_insertSet, ← Relations.has_iff_mem_getD]
    simp
  unfold addRelevant
  dsimp only
  split
  · rename_i hsrc
    refine (or_iff_left ?_).symm
    rintro ⟨⟨hx, -⟩, rfl, -⟩
    exact hsrc hx
  rename_i hsrc
  rw [not_not] at hsrc
  split
  · -- Nothing is erased: the source had no targets.
    rename_i hemp
    have hnone : ∀ y, ¬ (result.has source y = true ∨ y ∈ targets ∧ y ∈ individuals) := by
      intro y
      rw [← hsuccs, hemp]
      exact not_mem_nil
    rw [Relations.has_erase, or_iff_left]
    · refine and_iff_left_of_imp ?_
      rintro hhas rfl
      exact hnone y (.inl hhas)
    · rintro ⟨⟨-, hy⟩, -, hytargets⟩
      exact hnone y (.inr ⟨hytargets, hy⟩)
  · rw [Relations.has_insert, hsuccs]
    split
    · rename_i hx
      subst hx
      simp [hsrc, and_comm]
    · rename_i hx
      simp [hx]

theorem has_foldl_addRelevant (entries : List (Sigma fun _ : String => List String))
    (result : Relations) :
    Relations.has (entries.foldl (addRelevant individuals) result) x y = true ↔
    result.has x y = true ∨
      (x ∈ individuals ∧ y ∈ individuals) ∧ ∃ targets, ⟨x, targets⟩ ∈ entries ∧ y ∈ targets := by
  induction entries generalizing result with
  | nil => simp
  | cons entry entries ih =>
    rw [foldl_cons, ih, has_addRelevant, or_assoc, ← and_or_left, Relations.exists_mem_cons]

section atNode

variable {role : E} (hrole : h.representative n = some role)

include hrole

theorem grows_resolve (pair : String × String) :
    Grows (h.HasRoleInstance isRoleInstance) m (resolve h isRoleInstance role n m pair) := by
  unfold resolve
  split
  · rename_i hholds
    exact .setToKnown ⟨role, hrole, hholds⟩
  · exact .passToParents h

theorem grows_foldl_resolve (pairs : List (String × String)) :
    Grows (h.HasRoleInstance isRoleInstance) m (pairs.foldl (resolve h isRoleInstance role n) m) :=
  .foldl (fun _ pair _ => grows_resolve hrole pair) m

theorem isKnownAt_foldl_resolve {pairs : List (String × String)} (hmem : (x, y) ∈ pairs)
    (hholds : h.HasRoleInstance isRoleInstance n x y) :
    (pairs.foldl (resolve h isRoleInstance role n) m).isKnownAt n x y = true := by
  induction pairs generalizing m with
  | nil => cases hmem
  | cons pair pairs ih =>
    rw [foldl_cons]
    rcases mem_cons.mp hmem with rfl | hmem
    · apply (grows_foldl_resolve hrole pairs).known
      rw [resolve, if_pos ((hasRoleInstance_iff hrole).mp hholds)]
      exact isKnownAt_setToKnown.mpr (.inr ⟨rfl, rfl, rfl⟩)
    · exact ih hmem

section

variable (individuals : List String) (hsound : Sound (h.HasRoleInstance isRoleInstance) m)
include hsound

theorem gathers_instances (result : Relations) : Gathers (h.HasRoleInstance isRoleInstance)
    (fun (result : Relations) x y => result.has x y = true)
      (fun x y => x ∈ individuals ∧ y ∈ individuals) (· = n) n (m, result)
      (let m := (m.element n).possibleRelations.pairs.foldl (resolve h isRoleInstance role n) m
       (m, (m.element n).knownRelations.entries.foldl (addRelevant individuals) result)) := by
  refine .of_known hsound (grows_foldl_resolve hrole _) (fun x y _ hposs hholds => ?_) fun x y => ?_
  · exact isKnownAt_foldl_resolve hrole (Relations.mem_pairs.mpr hposs) hholds
  · exact (has_foldl_addRelevant _ _).trans
      (or_congr_right (and_congr_right fun _ => Relations.has_iff_mem_entries.symm))

theorem gathers_values (subject : String) (result : List String) :
    Gathers (h.HasRoleInstance isRoleInstance)
    (fun (result : List String) x y => x = subject ∧ y ∈ result)
      (fun x y => x = subject ∧ y ∈ individuals) (· = n) n (m, result)
      (let successors := ((m.element n).possibleRelations.lookup subject).getD []
       let m := successors.foldl (fun m successor =>
           resolve h isRoleInstance role n m (subject, successor)) m
       let known := ((m.element n).knownRelations.lookup subject).getD []
       (m, (known.filter (· ∈ individuals)).foldl insertSet result)) := by
  dsimp only
  rw [← foldl_map (f := fun successor => (subject, successor)) (g :=
    resolve h isRoleInstance role n)]
  refine .of_known hsound (grows_foldl_resolve hrole _) ?_ fun x y => ?_
  · rintro x y ⟨rfl, -⟩ hposs hholds
    refine isKnownAt_foldl_resolve hrole (List.mem_map.mpr ⟨y, ?_, rfl⟩) hholds
    exact Relations.has_iff_mem_getD.mp hposs
  · rw [mem_foldl_insertSet, mem_filter, ← Relations.has_iff_mem_getD, decide_eq_true_iff,
      and_or_left, and_assoc]
    refine or_congr_right (and_congr_right ?_)
    rintro rfl
    exact and_comm

end

theorem foldl_resolveSubject (isRoleInstance : E → String → String → Bool) (individuals : List
      String) (object : String) (entries : List (Sigma fun _ : String => List String))
    (s : SeededRoleInstanceManager × List String) :
    Grows (h.HasRoleInstance isRoleInstance) s.1
        (entries.foldl (resolveSubject h individuals isRoleInstance role n object) s).1 ∧
      ∀ x, x ∈ (entries.foldl (resolveSubject h individuals isRoleInstance role n object) s).2 ↔
      x ∈ s.2 ∨ x ∈ individuals ∧ h.HasRoleInstance isRoleInstance n x object ∧ ∃ targets,
        ⟨x, targets⟩ ∈ entries ∧ object ∈ targets := by
  induction entries generalizing s with
  | nil => exact ⟨.refl _, by simp⟩
  | cons entry entries ih =>
    obtain ⟨source, targets⟩ := entry
    rw [foldl_cons]
    obtain ⟨hgrow, hmem⟩ :=
      ih (resolveSubject h individuals isRoleInstance role n object s ⟨source, targets⟩)
    have hstep : Grows (h.HasRoleInstance isRoleInstance) s.1
          (resolveSubject h individuals isRoleInstance role n object s ⟨source, targets⟩).1 ∧
        ∀ x, x ∈ (resolveSubject h individuals isRoleInstance role n object s ⟨source, targets⟩).2 ↔
          x ∈ s.2 ∨
          x ∈ individuals ∧ h.HasRoleInstance isRoleInstance n x object ∧ x = source ∧
            object ∈ targets := by
      unfold resolveSubject
      split
      · rename_i hyes
        obtain ⟨hsrc, hobj, hholds⟩ := hyes
        have hinst := (hasRoleInstance_iff hrole).mpr hholds
        refine ⟨.setToKnown hinst, fun x => ?_⟩
        rw [mem_insertSet]
        refine or_congr_right ⟨?_, fun hx => hx.2.2.1⟩
        rintro rfl
        exact ⟨hsrc, hinst, rfl, hobj⟩
      · rename_i hno
        refine ⟨.passToParents h, fun x => (or_iff_left ?_).symm⟩
        rintro ⟨hx, hinst, rfl, hobj⟩
        exact hno ⟨hx, hobj, (hasRoleInstance_iff hrole).mp hinst⟩
    refine ⟨hstep.1.trans hgrow, fun x => ?_⟩
    rw [hmem, hstep.2, or_assoc, ← and_or_left, ← and_or_left, Relations.exists_mem_cons]

theorem gathers_subjects (individuals : List String)
    (hsound : Sound (h.HasRoleInstance isRoleInstance) m) (object : String) (result : List String) :
    Gathers (h.HasRoleInstance isRoleInstance)
    (fun (result : List String) x y => y = object ∧ x ∈ result)
      (fun x y => y = object ∧ x ∈ individuals) (· = n) n (m, result)
      (let known := (m.element n).knownRelations.entries.filter fun entry =>
        entry.1 ∈ individuals ∧ object ∈ entry.2
       let result := (known.map fun entry => entry.1).foldl insertSet result
       (m.element n).possibleRelations.entries.foldl
         (resolveSubject h individuals isRoleInstance role n object) (m, result)) := by
  dsimp only
  let known := (m.element n).knownRelations.entries.filter fun entry =>
      entry.1 ∈ individuals ∧ object ∈ entry.2
  have hknown : ∀ x, x ∈ (known.map fun entry => entry.1).foldl insertSet result ↔
      x ∈ result ∨ x ∈ individuals ∧ m.isKnownAt n x object = true := by
    intro x
    rw [mem_foldl_insertSet, isKnownAt, Relations.has_iff_mem_entries]
    refine or_congr_right ?_
    simp only [known, List.mem_map, mem_filter, decide_eq_true_iff]
    constructor
    · rintro ⟨⟨source, targets⟩, ⟨hent, hx, hobj⟩, rfl⟩
      exact ⟨hx, targets, hent, hobj⟩
    · rintro ⟨hx, targets, hent, hobj⟩
      exact ⟨_, ⟨hent, hx, hobj⟩, rfl⟩
  obtain ⟨hgrow, hmem⟩ := foldl_resolveSubject hrole isRoleInstance individuals object
    (m.element n).possibleRelations.entries
      (m, (known.map fun entry => entry.1).foldl insertSet result)
  refine ⟨hgrow, ?_, ?_, ?_⟩
  · rintro x y ⟨hy, hx⟩
    exact ⟨hy, (hmem x).mpr (.inl ((hknown x).mpr (.inl hx)))⟩
  · rintro x y ⟨rfl, hx⟩
    rcases (hmem x).mp hx with hx | ⟨hx, hholds, -⟩
    · rcases (hknown x).mp hx with hx | ⟨hx, hk⟩
      · exact .inl ⟨rfl, hx⟩
      · exact .inr ⟨⟨rfl, hx⟩, hsound n x y hk⟩
    · exact .inr ⟨⟨rfl, hx⟩, hholds⟩
  · rintro x y ⟨rfl, hx⟩ ⟨d, rfl, hk | ⟨hposs, hholds⟩⟩
    · exact ⟨rfl, (hmem x).mpr (.inl ((hknown x).mpr (.inr ⟨hx, hk⟩)))⟩
    · exact ⟨rfl, (hmem x).mpr (.inr ⟨hx, hholds, Relations.has_iff_mem_entries.mp hposs⟩)⟩

end atNode

end queries

/-! ## Sequences of queries -/

section runs

variable {E : Type*} (h : Hierarchy E) (isRoleInstance : E → String → String → Bool)

/-- A store of pairs that were added one after the other; known pairs are true. -/
inductive Added : SeededRoleInstanceManager → Prop
  | new : Added .new
  | known {m : SeededRoleInstanceManager} {n : NodeRef} {x y : String} :
    Added m → h.HasRoleInstance isRoleInstance n x y → Added (m.addKnownRoleInstance h n x y)
  | possible {m : SeededRoleInstanceManager} {n : NodeRef} {x y : String} :
    Added m → n < h.nodes.length → Added (m.addPossibleRoleInstance h n x y)

/-- The stores that queries leave behind. -/
inductive Queried (start : SeededRoleInstanceManager) : SeededRoleInstanceManager → Prop
  | start : Queried start start
  | relationship {m m' : SeededRoleInstanceManager} {individuals : List String} {x y : String}
    {fuel : ℕ} {n : NodeRef} {b : Bool} :
    Queried start m → hasObjectRoleRelationship h individuals isRoleInstance x y fuel n m =
      some (b, m') → Queried start m'
  | instances {m m' : SeededRoleInstanceManager} {individuals : List String} {fuel : ℕ}
    {n : NodeRef} {result : Relations} :
    Queried start m → m.getObjectPropertyInstances h individuals isRoleInstance fuel n =
      some (m', result) → Queried start m'
  | values {m m' : SeededRoleInstanceManager} {individuals : List String} {subject : String}
    {fuel : ℕ} {n : NodeRef}
      {result : List String} :
    Queried start m → m.getObjectPropertyValues h individuals isRoleInstance subject fuel n =
      some (m', result) →
      Queried start m'
  | subjects {m m' : SeededRoleInstanceManager} {individuals : List String} {object : String}
    {fuel : ℕ} {n : NodeRef}
      {result : List String} :
    Queried start m → m.getObjectPropertySubjects h individuals isRoleInstance object fuel n =
      some (m', result) →
      Queried start m'

/-- Every query returns exactly the true pairs over the individuals. -/
structure Exact (individuals : List String) (m : SeededRoleInstanceManager) : Prop where
  relationship : ∀ n < h.nodes.length, n ≠ h.top → ∀ x ∈ individuals, ∀ y ∈ individuals, ∃ enough,
    ∀ fuel, enough ≤ fuel →
    ∃ b m', hasObjectRoleRelationship h individuals isRoleInstance x y fuel n m = some (b, m') ∧
      (b = true ↔ h.HasRoleInstance isRoleInstance n x y)
  instances : ∀ n < h.nodes.length, n ≠ h.top → ∃ enough, ∀ fuel, enough ≤ fuel →
    ∃ m' result, m.getObjectPropertyInstances h individuals isRoleInstance fuel n =
      some (m', result) ∧
      ∀ x y, result.has x y = true ↔ (x ∈ individuals ∧ y ∈ individuals) ∧
        h.HasRoleInstance isRoleInstance n x y
  values : ∀ n < h.nodes.length, n ≠ h.top → ∀ subject ∈ individuals, ∃ enough, ∀ fuel,
    enough ≤ fuel →
    ∃ m' result, m.getObjectPropertyValues h individuals isRoleInstance subject fuel n =
      some (m', result) ∧
      ∀ y, y ∈ result ↔ y ∈ individuals ∧ h.HasRoleInstance isRoleInstance n subject y
  subjects : ∀ n < h.nodes.length, n ≠ h.top → ∀ object ∈ individuals, ∃ enough, ∀ fuel,
    enough ≤ fuel →
    ∃ m' result, m.getObjectPropertySubjects h individuals isRoleInstance object fuel n =
      some (m', result) ∧
      ∀ x, x ∈ result ↔ x ∈ individuals ∧ h.HasRoleInstance isRoleInstance n x object

/-- Every true pair of a node is known at or below it, or possible at or below it at a node of which
it is true. -/
def RecordsTruePairs (individuals : List String) (m : SeededRoleInstanceManager) : Prop :=
  ∀ n, n ≠ h.top → ∀ x ∈ individuals, ∀ y ∈ individuals, h.HasRoleInstance isRoleInstance n x y →
    ∃ d, h.Ancestor d n ∧ Recorded (h.HasRoleInstance isRoleInstance) m d x y

variable {h isRoleInstance} {individuals : List String} {start m : SeededRoleInstanceManager}

theorem isKnownAt_of_foldl (change : RoleElement → RoleElement)
    (hchange : ∀ {m : SeededRoleInstanceManager} {n k x y},
      (m.modifyIfPresent n change).isKnownAt k x y = true →
      m.isKnownAt k x y = true) (ancestors : List NodeRef) (m : SeededRoleInstanceManager) :
    (∀ k x y, (ancestors.foldl (fun m a => m.modifyIfPresent a change) m).isKnownAt k x y = true →
      m.isKnownAt k x y = true) ∧
      (ancestors.foldl (fun m a => m.modifyIfPresent a change) m).inconsistent =
      m.inconsistent := by
  induction ancestors generalizing m with
  | nil => exact ⟨fun _ _ _ => id, rfl⟩
  | cons a ancestors ih =>
    obtain ⟨hknown, hflag⟩ := ih (m.modifyIfPresent a change)
    exact ⟨fun k x y hk => hchange (hknown k x y hk), hflag.trans (inconsistent_modifyIfPresent _)⟩

theorem Added.sound (hadd : Added h isRoleInstance m) :
    Sound (h.HasRoleInstance isRoleInstance) m ∧ m.inconsistent = false := by
  induction hadd with
  | new => exact ⟨fun n x y hn => absurd hn Bool.false_ne_true, rfl⟩
  | @known m n source target _ hholds ih =>
    unfold addKnownRoleInstance
    split
    · exact ih
    split
    · exact ih
    · obtain ⟨hmem, hflag⟩ :=
        isKnownAt_of_foldl (·.removeKnown source target) isKnownAt_of_removeKnown
        ((h.ancestorNodes n).filter (· ≠ n)) (m.modify n (·.addKnown source target))
      refine ⟨fun k x y hk => ?_, hflag.trans ih.2⟩
      rcases isKnownAt_addKnown.mp (hmem k x y hk) with hk | ⟨rfl, rfl, rfl⟩
      · exact ih.1 k x y hk
      · exact hholds
  | @possible m n source target _ _ ih =>
    unfold addPossibleRoleInstance
    split
    · exact ih
    split
    · exact ih
    · obtain ⟨hmem, hflag⟩ := isKnownAt_of_foldl (·.removePossible source target)
        (fun hk => isKnownAt_removePossible.symm.trans hk)
        ((h.ancestorNodes n).filter (· ≠ n))
          { m.modify n (·.addPossible source target) with readingOffFoundPossible := true }
      refine ⟨fun k x y hk => ?_, hflag.trans ih.2⟩
      exact ih.1 k x y (isKnownAt_addPossible.symm.trans (hmem k x y hk))

theorem Queried.grows (hqueried : Queried h isRoleInstance start m) :
    Grows (h.HasRoleInstance isRoleInstance) start m := by
  induction hqueried with
  | start => exact .refl _
  | relationship _ hrun ih => exact ih.trans (grows_hasObjectRoleRelationship hrun)
  | instances _ hrun ih =>
    exact ih.trans (grows_collect (fun role n m result hrole => grows_foldl_resolve hrole _) hrun)
  | values _ hrun ih =>
    refine ih.trans (grows_collect (fun role n m result hrole => ?_) hrun)
    exact .foldl (fun _ _ _ => grows_resolve hrole _) m
  | subjects _ hrun ih =>
    refine ih.trans (grows_collect (fun role n m result hrole => ?_) hrun)
    exact (foldl_resolveSubject hrole _ _ _ _ (m, _)).1

theorem RecordsTruePairs.exact (hc : h.ClassifiesRoles isRoleInstance)
    (hsound : Sound (h.HasRoleInstance isRoleInstance) m) (hcons : m.inconsistent = false)
    (hrecs : RecordsTruePairs h isRoleInstance individuals m) :
    Exact h isRoleInstance individuals m := by
  obtain ⟨rank, hrank⟩ := hc.wellFormed.acyclic
  refine ⟨fun n hn htop x hx y hy => ⟨rank n + 1, fun fuel hfuel => ?_⟩, fun n hn htop =>
      ⟨rank n + 1, fun fuel hfuel => ?_⟩,
    fun n hn htop subject hsubject => ⟨rank n + 1, fun fuel hfuel => ?_⟩,
    fun n hn htop object hobj => ⟨rank n + 1, fun fuel hfuel => ?_⟩⟩
  · obtain ⟨b, m', hrun, hb⟩ := exists_hasObjectRoleRelationship hc hrank hx hy hsound hn hfuel
    refine ⟨b, m', hrun, ?_, fun hholds => hb (hrecs n htop x hx y hy hholds)⟩
    rintro rfl
    exact hasRoleInstance_of_hasObjectRoleRelationship hc hsound htop hrun
  · obtain ⟨⟨m', result⟩, hrun, hgath⟩ := exists_collect hc hrank
      (fun role n m result hrole hsound => gathers_instances hrole individuals hsound result)
      (s := (m, ∅)) hsound hcons htop hn hfuel
    refine ⟨m', result, hrun, fun x y => ⟨fun hxy => ?_, fun hxy => ?_⟩⟩
    · exact (hgath.sound x y hxy).resolve_left nofun
    · exact hgath.complete x y hxy.1 (hrecs n htop x hxy.1.1 y hxy.1.2 hxy.2)
  · obtain ⟨⟨m', result⟩, hrun, hgath⟩ := exists_collect hc hrank
      (fun role n m result hrole hsound => gathers_values hrole individuals hsound subject result)
      (s := (m, [])) hsound hcons htop hn hfuel
    refine ⟨m', result, hrun, fun y => ⟨fun hy => ?_, fun hy => ?_⟩⟩
    · obtain ⟨⟨-, hy⟩, hholds⟩ := (hgath.sound subject y ⟨rfl, hy⟩).resolve_left nofun
      exact ⟨hy, hholds⟩
    · exact (hgath.complete subject y ⟨rfl, hy.1⟩ (hrecs n htop subject hsubject y hy.1 hy.2)).2
  · obtain ⟨⟨m', result⟩, hrun, hgath⟩ := exists_collect hc hrank
      (fun role n m result hrole hsound => gathers_subjects hrole individuals hsound object result)
      (s := (m, [])) hsound hcons htop hn hfuel
    refine ⟨m', result, hrun, fun x => ⟨fun hx => ?_, fun hx => ?_⟩⟩
    · obtain ⟨⟨-, hx⟩, hholds⟩ := (hgath.sound x object ⟨rfl, hx⟩).resolve_left nofun
      exact ⟨hx, hholds⟩
    · exact (hgath.complete x object ⟨rfl, hx.1⟩ (hrecs n htop x hx.1 object hobj hx.2)).2

/-- A lowest node that misses a pair would have to find it on its own. -/
theorem Exact.recordsTruePairs (hc : h.ClassifiesRoles isRoleInstance)
    (hsound : Sound (h.HasRoleInstance isRoleInstance) m)
    (hexact : Exact h isRoleInstance individuals m) :
    RecordsTruePairs h isRoleInstance individuals m := by
  obtain ⟨rank, hrank⟩ := hc.wellFormed.acyclic
  intro n htop x hx y hy hholds
  induction hsize : rank n using Nat.strongRecOn generalizing n with
  | ind size ih =>
    subst hsize
    by_contra hnone
    have hblw : ∀ d, h.Ancestor d n → d ≠ n → ¬ h.HasRoleInstance isRoleInstance d x y := by
      intro d hdn hne hd
      obtain ⟨c, hchild, hdc⟩ := hc.wellFormed.exists_child hdn hne
      have hpar := (hc.wellFormed.mem_parentNodes c n).mpr hchild
      obtain ⟨k, hkc, hk⟩ := ih (rank c) (hrank c n hpar) c (hc.wellFormed.child_ne_top hchild)
        (hc.ancestor hdc hd) rfl
      exact hnone ⟨k, hkc.trans (.single hpar), hk⟩
    obtain ⟨enough, henough⟩ := hexact.relationship n hholds.lt htop x hx y hy
    obtain ⟨b, m', hrun, hb⟩ := henough enough le_rfl
    rw [hb.mpr hholds] at hrun
    exact hnone ⟨n, .refl, recorded_of_hasObjectRoleRelationship hc hx hy hsound htop hblw hrun⟩

/-- All queries are exact after any sequence of earlier ones if and only if every true pair is
recorded at a node of which it is true. -/
theorem queries_exact_iff {E : Type*} (h : Hierarchy E)
    (isRoleInstance : E → String → String → Bool) (individuals : List String)
    (hc : h.ClassifiesRoles isRoleInstance) (start : SeededRoleInstanceManager)
    (hst : Added h isRoleInstance start) :
    (∀ m, Queried h isRoleInstance start m → Exact h isRoleInstance individuals m) ↔
      RecordsTruePairs h isRoleInstance individuals start := by
  obtain ⟨hsound, hcons⟩ := hst.sound
  constructor
  · intro hexact
    exact (hexact start .start).recordsTruePairs hc hsound
  · intro hrecs m hqueried
    have hgrow := hqueried.grows
    refine RecordsTruePairs.exact hc (hgrow.soundness hsound) (hgrow.inconsistent.trans hcons) ?_
    intro n htop x hx y hy hholds
    obtain ⟨d, hdn, hd⟩ := hrecs n htop x hx y hy hholds
    exact ⟨d, hdn, hgrow.recorded hd⟩

end runs

/-! ## A pair that a subrole refutes -/

/-- A role `s` with a subrole `r`. -/
def twoRoles : Hierarchy String :=
  ⟨[⟨"topObjectProperty", ["topObjectProperty"], [], [3]⟩,
      ⟨"bottomObjectProperty", ["bottomObjectProperty"], [2], []⟩,
    ⟨"r", ["r"], [3], [1]⟩, ⟨"s", ["s"], [0], [2]⟩], 0, 1⟩

/-- Only `s` relates `a` to `b`. -/
def isPairOfS (role individual1 individual2 : String) : Bool :=
  role = "topObjectProperty" ∨ role = "s" ∧ individual1 = "a" ∧ individual2 = "b"

theorem wellFormed_twoRoles : twoRoles.WellFormed :=
  wellFormed_of_rank (fun n => if n = 0 then 3 else if n = 1 then 0 else if n = 2 then 1 else 2) 3
    (by decide) (by decide)
    (by decide) (by decide) (by decide) (by decide) (by decide) (by decide) (by decide)

theorem hasRoleInstance_twoRoles {n : NodeRef} {x y : String}
    (hn : twoRoles.HasRoleInstance isPairOfS n x y) :
    n = 0 ∨ n = 3 ∧ x = "a" ∧ y = "b" := by
  have hnodes : ∀ n < twoRoles.nodes.length, n = 0 ∨ n = 1 ∨ n = 2 ∨ n = 3 := by decide
  have hlt := hn.lt
  obtain ⟨role, hrole, hholds⟩ := hn
  rcases hnodes n hlt with rfl | rfl | rfl | rfl
  · exact .inl rfl
  · cases hrole
    simp [isPairOfS] at hholds
  · cases hrole
    simp [isPairOfS] at hholds
  · cases hrole
    exact .inr ⟨rfl, by simpa [isPairOfS] using hholds⟩

theorem classifiesRoles_twoRoles : twoRoles.ClassifiesRoles isPairOfS := by
  refine ⟨wellFormed_twoRoles, fun n p hp x y hn => ?_⟩
  rcases hasRoleInstance_twoRoles hn with rfl | ⟨rfl, -, -⟩
  · cases hp
  · rw [show twoRoles.parentNodes 3 = [0] from rfl, mem_singleton] at hp
    subst hp
    exact ⟨"topObjectProperty", rfl, rfl⟩

/-- The pair is possible at `s`, of which it is true. -/
theorem queries_exact_iff_possibleAtS :
    twoRoles.ClassifiesRoles isPairOfS ∧ Added twoRoles isPairOfS
    (new.addPossibleRoleInstance twoRoles 3 "a" "b") ∧
      ∀ m, Queried twoRoles isPairOfS (new.addPossibleRoleInstance twoRoles 3 "a" "b") m →
        Exact twoRoles isPairOfS ["a", "b"] m := by
  have hadd : Added twoRoles isPairOfS (new.addPossibleRoleInstance twoRoles 3 "a" "b") :=
    .possible .new (by decide)
  refine ⟨classifiesRoles_twoRoles, hadd, ?_⟩
  apply (queries_exact_iff twoRoles isPairOfS ["a", "b"] classifiesRoles_twoRoles _ hadd).mpr
  intro n htop x hx y hy hholds
  rcases hasRoleInstance_twoRoles hholds with rfl | ⟨rfl, rfl, rfl⟩
  · exact absurd rfl htop
  · exact ⟨3, .refl, .inr ⟨by decide, hholds⟩⟩

/-- The pair is possible at `r`, which refutes it after `s` was asked. -/
theorem relationship_missed_at_superrole :
    twoRoles.ClassifiesRoles isPairOfS ∧ Added twoRoles isPairOfS
    (new.addPossibleRoleInstance twoRoles 2 "a" "b") ∧
      (∀ n, n ≠ twoRoles.top → ∀ x y, twoRoles.HasRoleInstance isPairOfS n x y → ∃ d,
        twoRoles.Ancestor d n ∧
        ((new.addPossibleRoleInstance twoRoles 2 "a" "b").isKnownAt d x y = true ∨
          (new.addPossibleRoleInstance twoRoles 2 "a" "b").isPossibleAt d x y = true)) ∧
      ¬ ∀ m, Queried twoRoles isPairOfS (new.addPossibleRoleInstance twoRoles 2 "a" "b") m →
        Exact twoRoles isPairOfS ["a", "b"] m := by
  refine ⟨classifiesRoles_twoRoles, .possible .new (by decide), fun n htop x y hholds => ?_,
    fun hexact => ?_⟩
  · rcases hasRoleInstance_twoRoles hholds with rfl | ⟨rfl, rfl, rfl⟩
    · exact absurd rfl htop
    · exact ⟨2, .single (show 3 ∈ twoRoles.parentNodes 2 by decide), .inr (by decide)⟩
  · obtain ⟨enough, henough⟩ :=
      (hexact _ .start).relationship 3 (by decide) (by decide) "a" (by decide) "b" (by decide)
    obtain ⟨b, m', hrun, hb⟩ := henough (enough + 2) (by omega)
    have hfls : hasObjectRoleRelationship twoRoles ["a", "b"] isPairOfS "a" "b" (enough + 2) 3
        (new.addPossibleRoleInstance twoRoles 2 "a" "b") =
        some (false, (new.addPossibleRoleInstance twoRoles 2 "a" "b").passToParents twoRoles 2
          "a" "b") := rfl
    rw [hfls] at hrun
    cases hrun
    exact absurd (hb.mpr ⟨"s", rfl, rfl⟩) Bool.false_ne_true

end SeededRoleInstanceManager

end Hermit
