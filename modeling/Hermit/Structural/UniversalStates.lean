import Hermit.Model.Clause
import Hermit.Structural.NormalizationModels
import Hermit.Structural.RoleRewriting

/-! # Eliminating universal states keeps the models

A state that the inclusions make universal holds of everything in each of their models,
so the inclusions without it hold as well.  Conversely the inclusions without it say
nothing about the state, and it can be read as everything.
-/

namespace Hermit

open List

variable {Dom Val : Type*}

namespace Interp

variable (J : Interp Dom Val)

/-- The given classes hold of everything. -/
def Universal (universal : List ClassExpr) : Prop := ∀ A ∈ universal, ∀ x, x ∈ J.expr A

/-- A model of a list of inclusions. -/
def CoversAll (inclusions : List (List ClassExpr)) : Prop := ∀ e ∈ inclusions, J.covers e

end Interp

/-! ## The states found are universal -/

section found

variable {J : Interp Dom Val} {fresh universal : List ClassExpr}
variable {A : ClassExpr} {positive : Option ClassExpr} {ds : List ClassExpr}

theorem mem_fresh_of_impliedState (hpos : ∀ B ∈ positive, B ∈ fresh)
    (h : impliedState fresh universal positive ds = some A) : A ∈ fresh := by
  induction ds generalizing positive with
  | nil => exact hpos A h
  | cons d ds ih =>
    cases d with
    | «class» c =>
      simp only [impliedState] at h
      split_ifs at h with hc
      simp only [Bool.and_eq_true, decide_eq_true_eq] at hc
      exact ih (fun B hB => by rw [← Option.mem_some.mp hB]; exact hc.2) h
    | objectComplementOf inner =>
      simp only [impliedState] at h
      split_ifs at h
      exact ih hpos h
    | _ => cases h

/-- Everything in a disjunct of the inclusion, or in the state found before, is in the state. -/
theorem mem_impliedState (hU : J.Universal universal)
    (h : impliedState fresh universal positive ds = some A)
    {x : Dom} (hx : (∃ B ∈ positive, x ∈ J.expr B) ∨ ∃ d ∈ ds, x ∈ J.expr d) : x ∈ J.expr A := by
  induction ds generalizing positive with
  | nil =>
    rcases hx with ⟨B, hB, hx⟩ | ⟨d, hd, -⟩
    · obtain rfl : B = A := by
        rw [impliedState] at h
        exact Option.some.inj (hB.symm.trans h)
      exact hx
    · cases hd
  | cons d ds ih =>
    cases d with
    | «class» c =>
      simp only [impliedState] at h
      split_ifs at h with hc
      simp only [Bool.and_eq_true, Option.isNone_iff_eq_none] at hc
      obtain ⟨rfl, -⟩ := hc
      refine ih h ?_
      rcases hx with ⟨B, hB, -⟩ | ⟨d, hd, hx⟩
      · cases hB
      · rcases mem_cons.mp hd with rfl | hd
        · exact .inl ⟨_, rfl, hx⟩
        · exact .inr ⟨d, hd, hx⟩
    | objectComplementOf inner =>
      simp only [impliedState] at h
      split_ifs at h with hinn
      refine ih h ?_
      rcases hx with hx | ⟨d, hd, hx⟩
      · exact .inl hx
      · rcases mem_cons.mp hd with rfl | hd
        · exact absurd (hU inner hinn x) hx
        · exact .inr ⟨d, hd, hx⟩
    | _ => cases h

theorem universalStep_cases (fresh universal e : List ClassExpr) :
    universalStep fresh universal e = universal ∨
      ∃ A, impliedState fresh universal none e = some A ∧
        universalStep fresh universal e = insertSet universal A := by
  unfold universalStep
  cases h : impliedState fresh universal none e with
  | none => exact .inl rfl
  | some A => exact .inr ⟨A, rfl, rfl⟩

/-- The invariant of the search: what was found is fresh and holds of everything. -/
structure Interp.Found (J : Interp Dom Val) (fresh universal : List ClassExpr) : Prop where
  subset : ∀ A ∈ universal, A ∈ fresh
  holds : J.Universal universal

theorem Interp.Found.insertSet (h : J.Found fresh universal) {e : List ClassExpr} (he : J.covers e)
    (hA : impliedState fresh universal none e = some A) :
    J.Found fresh (insertSet universal A) := by
  refine ⟨fun B hB => ?_, fun B hB x => ?_⟩
  · rcases (mem_insertSet _ _ _).mp hB with hB | rfl
    · exact h.subset B hB
    · exact mem_fresh_of_impliedState (fun B hB => by cases hB) hA
  · rcases (mem_insertSet _ _ _).mp hB with hB | rfl
    · exact h.holds B hB x
    · exact mem_impliedState h.holds hA (.inr (he x))

theorem Interp.Found.universalPass {inclusions : List (List ClassExpr)}
    (hJ : J.CoversAll inclusions)
    (h : J.Found fresh universal) : J.Found fresh (universalPass fresh inclusions universal) := by
  unfold Hermit.universalPass
  induction inclusions generalizing universal with
  | nil => exact h
  | cons e es ih =>
    refine ih (fun e' he' => hJ e' (mem_cons_of_mem _ he')) ?_
    rcases universalStep_cases fresh universal e with heq | ⟨A, hA, heq⟩
    · rw [heq]
      exact h
    · rw [heq]
      exact h.insertSet (hJ e mem_cons_self) hA

theorem Interp.Found.universalStates {inclusions : List (List ClassExpr)}
    (hJ : J.CoversAll inclusions) (passes : ℕ) (h : J.Found fresh universal) :
    J.Found fresh (universalStates fresh inclusions passes universal) := by
  induction passes generalizing universal with
  | zero => exact h
  | succ passes ih =>
    simp only [Hermit.universalStates]
    split_ifs
    · exact h
    · exact ih (h.universalPass hJ)

end found

/-! ## The search is complete -/

section complete

variable {fresh universal : List ClassExpr} {inclusions : List (List ClassExpr)}

/-- The states found so far, each once. -/
structure FreshSet (fresh universal : List ClassExpr) : Prop where
  subset : ∀ A ∈ universal, A ∈ fresh
  nodup : universal.Nodup

theorem FreshSet.length_le (h : FreshSet fresh universal) : universal.length ≤ fresh.length :=
  (h.nodup.subperm h.subset).length_le

theorem FreshSet.universalPass (h : FreshSet fresh universal) :
    FreshSet fresh (universalPass fresh inclusions universal) := by
  unfold Hermit.universalPass
  induction inclusions generalizing universal with
  | nil => exact h
  | cons e es ih =>
    refine ih ?_
    rcases universalStep_cases fresh universal e with heq | ⟨A, hA, heq⟩
    · rw [heq]
      exact h
    · rw [heq]
      refine ⟨fun B hB => ?_, nodup_foldl_insertSet [A] universal h.nodup⟩
      rcases (mem_insertSet _ _ _).mp hB with hB | rfl
      · exact h.subset B hB
      · exact mem_fresh_of_impliedState (fun B hB => by cases hB) hA

theorem prefix_insertSet {α : Type*} [DecidableEq α] (l : List α) (x : α) :
    l <+: insertSet l x := by
  unfold insertSet
  split
  · exact prefix_refl l
  · exact prefix_append l [x]

/-- A pass only appends. -/
theorem prefix_universalPass (fresh : List ClassExpr) (inclusions : List (List ClassExpr))
    (universal : List ClassExpr) : universal <+: universalPass fresh inclusions universal := by
  unfold universalPass
  induction inclusions generalizing universal with
  | nil => exact prefix_refl universal
  | cons e es ih =>
    refine List.IsPrefix.trans ?_ (ih _)
    rcases universalStep_cases fresh universal e with heq | ⟨A, -, heq⟩
    · rw [heq]
    · rw [heq]
      exact prefix_insertSet universal A

theorem freshSet_universalStates (h : FreshSet fresh universal) (passes : ℕ) :
    FreshSet fresh (universalStates fresh inclusions passes universal) := by
  induction passes generalizing universal with
  | zero => exact h
  | succ passes ih =>
    simp only [universalStates]
    split_ifs
    · exact h
    · exact ih h.universalPass

/-- The search ends because a pass changes nothing, not because it ran out of passes. -/
theorem universalPass_universalStates {passes : ℕ} (h : FreshSet fresh universal)
    (hpasses : fresh.length + 1 ≤ passes + universal.length) :
    universalPass fresh inclusions (universalStates fresh inclusions passes universal) =
      universalStates fresh inclusions passes universal := by
  induction passes generalizing universal with
  | zero =>
    have hle := h.length_le
    omega
  | succ passes ih =>
    simp only [universalStates]
    split_ifs with heq
    · exact heq
    · have hpre := prefix_universalPass fresh inclusions universal
      have hlt : universal.length < (universalPass fresh inclusions universal).length := by
        refine lt_of_le_of_ne hpre.length_le fun hlen => heq ?_
        exact (hpre.eq_of_length hlen).symm
      exact ih h.universalPass (by omega)

/-- As many passes as there are fresh names and one more reach the last one. -/
theorem universalPass_eliminated (fresh : List ClassExpr) (inclusions : List (List ClassExpr)) :
    universalPass fresh inclusions (universalStates fresh inclusions (fresh.length + 1) []) =
      universalStates fresh inclusions (fresh.length + 1) [] :=
  universalPass_universalStates ⟨nofun, nodup_nil⟩ le_rfl

end complete

section kept

variable {J : Interp Dom Val} {universal : List ClassExpr}

/-- A disjunct that is kept, a complement that is false, or a restriction that has become empty. -/
theorem mem_keptDisjuncts (hU : J.Universal universal) {e kept : List ClassExpr}
    (h : keptDisjuncts universal e = some kept) {x : Dom} (hx : ∃ d ∈ e, x ∈ J.expr d) :
    ∃ d ∈ kept, x ∈ J.expr d := by
  induction e generalizing kept with
  | nil =>
    obtain ⟨d, hd, -⟩ := hx
    cases hd
  | cons d ds ih =>
    -- the disjunct at the head may be replaced by one that holds whenever it does
    have hkeep : ∀ d', (keptDisjuncts universal ds).map (d' :: ·) = some kept →
        (x ∈ J.expr d → x ∈ J.expr d') → ∃ d ∈ kept, x ∈ J.expr d := by
      intro d' hmap himp
      obtain ⟨rest, hrest, rfl⟩ := Option.map_eq_some_iff.mp hmap
      obtain ⟨d₀, hd₀, hx⟩ := hx
      rcases mem_cons.mp hd₀ with rfl | hd₀
      · exact ⟨d', mem_cons_self, himp hx⟩
      · obtain ⟨d₁, hd₁, hx₁⟩ := ih hrest ⟨d₀, hd₀, hx⟩
        exact ⟨d₁, mem_cons_of_mem _ hd₁, hx₁⟩
    unfold keptDisjuncts at h
    split at h
    · next heq => cases heq
    · next heq =>
      cases heq
      split_ifs at h
      exact hkeep _ h id
    · next inner _ heq =>
      cases heq
      split_ifs at h with hinn
      · obtain ⟨d₀, hd₀, hx⟩ := hx
        rcases mem_cons.mp hd₀ with rfl | hd₀
        · exact absurd (hU inner hinn x) hx
        · exact ih h ⟨d₀, hd₀, hx⟩
      · exact hkeep _ h id
    · next ope inner _ heq =>
      cases heq
      split_ifs at h with _ hinn
      · refine hkeep _ h fun hall y hy => ?_
        exact absurd (hU inner hinn y) (hall y hy)
      · exact hkeep _ h id
    · next heq =>
      cases heq
      split_ifs at h
      exact hkeep _ h id
    · next heq =>
      cases heq
      exact hkeep _ h id

/-- A model of the inclusions is one of the inclusions that remain. -/
theorem Interp.CoversAll.eliminate {fresh : List ClassExpr} {inclusions : List (List ClassExpr)}
    (hJ : J.CoversAll inclusions) : J.CoversAll (eliminateUniversalStates fresh inclusions) := by
  have hfnd : J.Found fresh (universalStates fresh inclusions (fresh.length + 1) []) :=
    Interp.Found.universalStates hJ _ ⟨by simp, by simp [Interp.Universal]⟩
  unfold eliminateUniversalStates
  dsimp only
  split_ifs
  · exact hJ
  · intro e' he'
    obtain ⟨e, he, hmem⟩ := mem_flatMap.mp he'
    unfold eliminateInclusion at hmem
    have hcov := hJ e he
    split at hmem
    · cases hmem
    · next hkept =>
      obtain rfl := mem_singleton.mp hmem
      intro x
      obtain ⟨d, hd, -⟩ := mem_keptDisjuncts hfnd.holds hkept (hcov x)
      cases hd
    · next hkept =>
      obtain rfl := mem_singleton.mp hmem
      exact fun x => mem_keptDisjuncts hfnd.holds hkept (hcov x)

end kept

/-! ## Reading the eliminated states as everything -/

/-- The disjuncts in which a state may stand. -/
def IsStateDisjunct (c : Iri) (d : ClassExpr) : Prop :=
  d = .class c ∨ d = .objectComplementOf (.class c) ∨
    ∃ ope, d = .objectAllValuesFrom ope (.class c) ∨
      d = .objectAllValuesFrom ope (.objectComplementOf (.class c))

section restore

variable (J : Interp Dom Val) (universal : List ClassExpr)

open Classical in
/-- The interpretation that reads the given classes as everything. -/
noncomputable def Interp.withUniversal (hnone : .class owlNothing ∉ universal) : Interp Dom Val :=
  J.withClasses (fun c => if .class c ∈ universal then Set.univ else J.classes c)
    (by simp [J.classes_thing]) (by simp [hnone, J.classes_nothing])

variable {J universal}
variable {hnone : .class owlNothing ∉ universal}

theorem Interp.agreeOn_withUniversal :
    J.AgreeOn (J.withUniversal universal hnone) (fun c => .class c ∉ universal) := by
  refine ⟨fun c hc => ?_, rfl⟩
  simp [Interp.withUniversal, hc]

theorem Interp.mem_withUniversal {c : Iri} (hc : .class c ∈ universal) (x : Dom) :
    x ∈ (J.withUniversal universal hnone).expr (.class c) := by
  simp [Interp.withUniversal, hc]

/-- A disjunct that is left as it is says the same of every reading of the universal states. -/
theorem mem_withUniversal_of_mem {d : ClassExpr}
    (hshape : ClassesOver (fun c => .class c ∉ universal) d ∨ ∃ c, IsStateDisjunct c d)
    (hstate : ∀ c, IsStateDisjunct c d → .class c ∉ universal) {x : Dom} (hx : x ∈ J.expr d) :
    x ∈ (J.withUniversal universal hnone).expr d := by
  refine (Interp.agreeOn_withUniversal.mem_expr_of_classesOver ?_ x).mp hx
  rcases hshape with hover | ⟨c, hc⟩
  · exact hover
  · have hmem := hstate c hc
    rcases hc with rfl | rfl | ⟨ope, rfl | rfl⟩ <;> exact hmem

/-- What remains of an inclusion implies the inclusion when the states are read as everything. -/
theorem mem_withUniversal_of_keptDisjuncts (hcls : ∀ A ∈ universal, ∃ c, A = .class c)
    {e : List ClassExpr}
    (hshape : ∀ d ∈ e, ClassesOver (fun c => .class c ∉ universal) d ∨ ∃ c, IsStateDisjunct c d)
    {x : Dom} (h : ∀ kept, keptDisjuncts universal e = some kept → ∃ d ∈ kept, x ∈ J.expr d) :
    ∃ d ∈ e, x ∈ (J.withUniversal universal hnone).expr d := by
  induction e with
  | nil => simpa using h [] rfl
  | cons d ds ih =>
    have hd := hshape d mem_cons_self
    have ih := ih fun d' hd' => hshape d' (mem_cons_of_mem _ hd')
    have hlater : (∃ d' ∈ ds, x ∈ (J.withUniversal universal hnone).expr d') →
        ∃ d' ∈ d :: ds, x ∈ (J.withUniversal universal hnone).expr d' :=
      fun ⟨d', hd', hx⟩ => ⟨d', mem_cons_of_mem _ hd', hx⟩
    -- the head is kept, possibly as another disjunct that implies it
    have hkeep : ∀ d', keptDisjuncts universal (d :: ds) =
      (keptDisjuncts universal ds).map (d' :: ·) →
        (x ∈ J.expr d' → x ∈ (J.withUniversal universal hnone).expr d) →
          ∃ d' ∈ d :: ds, x ∈ (J.withUniversal universal hnone).expr d' := by
      intro d' heq himp
      rw [heq] at h
      cases hrest : keptDisjuncts universal ds with
      | none => exact hlater (ih fun kept hkept => by rw [hrest] at hkept; cases hkept)
      | some rest =>
        obtain ⟨d₀, hd₀, hx⟩ := h (d' :: rest) (by rw [hrest]; rfl)
        rcases mem_cons.mp hd₀ with rfl | hd₀
        · exact ⟨d, mem_cons_self, himp hx⟩
        · refine hlater (ih fun kept hkept => ⟨d₀, ?_, hx⟩)
          rw [hrest] at hkept
          exact Option.some.inj hkept ▸ hd₀
    cases d with
    | «class» c =>
      by_cases hc : .class c ∈ universal
      · exact ⟨.class c, mem_cons_self, Interp.mem_withUniversal hc x⟩
      · refine hkeep (.class c) (by simp [keptDisjuncts, hc]) fun hx => ?_
        refine mem_withUniversal_of_mem hd (fun c' hc' => ?_) hx
        obtain rfl : c = c' := by simpa [IsStateDisjunct] using hc'
        exact hc
    | objectComplementOf inner =>
      by_cases hinn : inner ∈ universal
      · exact hlater (ih fun kept hkept => h kept (by simpa [keptDisjuncts, hinn] using hkept))
      · refine hkeep (.objectComplementOf inner) (by simp [keptDisjuncts, hinn]) fun hx => ?_
        refine mem_withUniversal_of_mem hd (fun c hc => ?_) hx
        obtain rfl : inner = .class c := by simpa [IsStateDisjunct] using hc
        exact hinn
    | objectAllValuesFrom ope bce =>
      by_cases hbce : bce ∈ universal
      · obtain ⟨c, rfl⟩ := hcls bce hbce
        exact ⟨_, mem_cons_self, fun y _ => Interp.mem_withUniversal hbce y⟩
      · by_cases hcompl : ∃ inner ∈ universal, bce = .objectComplementOf inner
        · obtain ⟨inner, hinn, rfl⟩ := hcompl
          refine hkeep (.objectAllValuesFrom ope (.class owlNothing))
            (by simp [keptDisjuncts, hbce, hinn]) fun hx y hy => ?_
          rw [← Interp.agreeOn_withUniversal.role] at hy
          exact absurd (hx y hy) (J.notMem_expr_nothing y)
        · refine hkeep (.objectAllValuesFrom ope bce) ?_ fun hx => ?_
          · cases bce with
            | objectComplementOf inner =>
              have hinn : inner ∉ universal := fun hinn => hcompl ⟨inner, hinn, rfl⟩
              simp [keptDisjuncts, hbce, hinn]
            | _ => simp [keptDisjuncts, hbce]
          · refine mem_withUniversal_of_mem hd (fun c hc hmem => ?_) hx
            rcases hc with hc | hc | ⟨ope', hc | hc⟩
            · cases hc
            · cases hc
            · cases hc
              exact hbce hmem
            · cases hc
              exact hcompl ⟨_, hmem, rfl⟩
    | _ =>
      refine hkeep _ rfl fun hx => ?_
      refine mem_withUniversal_of_mem hd (fun c hc => ?_) hx
      simp [IsStateDisjunct] at hc

/-- A model of what remains becomes a model of the inclusions when the states are read as
everything. -/
theorem Interp.CoversAll.restore {fresh : List ClassExpr} {inclusions : List (List ClassExpr)}
    (hfresh : ∀ A ∈ fresh, ∃ c, A = .class c ∧ c ≠ owlNothing) (hshape : ∀ e ∈ inclusions, ∀ d ∈ e,
      ClassesOver (fun c => .class c ∉ fresh) d ∨ ∃ c, IsStateDisjunct c d)
    (hJ : J.CoversAll (eliminateUniversalStates fresh inclusions)) :
    ∃ K : Interp Dom Val, J.AgreeOn K (fun c => .class c ∉ fresh) ∧ K.CoversAll inclusions := by
  have hfnd : FreshSet fresh (universalStates fresh inclusions (fresh.length + 1) []) :=
    freshSet_universalStates ⟨by simp, nodup_nil⟩ _
  revert hJ hfnd
  unfold eliminateUniversalStates
  generalize universalStates fresh inclusions (fresh.length + 1) [] = universal
  intro hJ hfnd
  dsimp only at hJ
  split_ifs at hJ with hemp
  · exact ⟨J, Interp.AgreeOn.refl J _, hJ⟩
  · have hnone : .class owlNothing ∉ universal := by
      intro hmem
      obtain ⟨c, hc, hne⟩ := hfresh _ (hfnd.subset _ hmem)
      exact hne (ClassExpr.class.inj hc).symm
    refine ⟨J.withUniversal universal hnone, ?_, fun e he x => ?_⟩
    · exact Interp.agreeOn_withUniversal.mono fun c hc hmem => hc (hfnd.subset _ hmem)
    · refine mem_withUniversal_of_keptDisjuncts
        (fun A hA => (hfresh A (hfnd.subset A hA)).imp fun c hc => hc.1) (fun d hd => ?_) ?_
      · refine (hshape e he d hd).imp_left fun hover => ?_
        exact hover.mono fun c hc hmem => hc (hfnd.subset _ hmem)
      · intro kept hkept
        have hcov : ∀ e', e' ∈ eliminateInclusion universal e → J.covers e' :=
          fun e' he' => hJ e' (mem_flatMap.mpr ⟨e, he, he'⟩)
        unfold eliminateInclusion at hcov
        rw [hkept] at hcov
        cases kept with
        | nil =>
          obtain ⟨d, hd, hx⟩ := hcov _ (mem_singleton.mpr rfl) x
          obtain rfl := mem_singleton.mp hd
          exact absurd hx (J.notMem_expr_nothing x)
        | cons d ds => exact hcov _ (mem_singleton.mpr rfl) x

end restore

end Hermit
