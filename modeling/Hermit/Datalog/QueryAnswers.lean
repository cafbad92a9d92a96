import Hermit.Datalog.ConjunctiveQuery

/-! # Answers of conjunctive queries

An assignment answers a query if every atom holds under it in the model.  The join goes through the
assignments that extend what is bound and make the remaining atoms true, each once, whatever the
order of the atoms; so it reports one row for every answer.
-/

namespace Hermit.Datalog

open Option hiding or_assoc
open List Function

/-- The nodes of some variables. -/
abbrev Assignment := String → Option NodeId

section answers

variable {rawKey : DLPredicate → Fin (2 ^ 61)} (M : Materialization rawKey)

def QueryTerm.value (σ : Assignment) : QueryTerm → Option NodeId
  | .var v => σ v
  | .individual iri => M.nodeForIri iri

/-- Two terms have nodes between which a relation holds. -/
def HoldsBetween (σ : Assignment) (first second : QueryTerm)
    (holds : NodeId → NodeId → Prop) : Prop :=
  ∃ a b, first.value M σ = some a ∧ second.value M σ = some b ∧ holds a b

def QueryAtom.Holds (σ : Assignment) : QueryAtom → Prop
  | .concept classExpression term =>
    ∃ concept n, conceptOf classExpression = .ok concept ∧ term.value M σ = some n ∧
      M.HoldsConcept concept n
  | .role property first second => HoldsBetween M σ first second (M.HoldsRole (roleOf property))
  | .equality first second =>
    HoldsBetween M σ first second (M.HoldsPair (predicateToStoredLabel rawKey .equality))
  | .inequality first second =>
    HoldsBetween M σ first second (M.HoldsPair (predicateToStoredLabel rawKey .inequality))

/-- Exactly the variables of the atoms have nodes, and every atom holds. -/
def Satisfies (atoms : List QueryAtom) (σ : Assignment) : Prop :=
  (∀ v, (σ v).isSome = true ↔ ∃ atom ∈ atoms, .var v ∈ atom.terms) ∧ ∀ atom ∈ atoms, atom.Holds M σ

/-- The row of an assignment: the individuals that its nodes were loaded for. -/
def answerRow (answerTerms : List QueryTerm) (σ : Assignment) : Row :=
  answerTerms.map fun
    | .var v => (σ v).bind fun n => (M.nodeToTerm.lookup n).map Individual.uri
    | .individual iri => some iri

/-- The assignment extends another one to the variables of some atoms, and these hold. -/
def Solves (atoms : List QueryAtom) (σ τ : Assignment) : Prop :=
  (∀ v, (σ v).isSome = true → τ v = σ v) ∧
    (∀ v, (τ v).isSome = true ↔ (σ v).isSome = true ∨ ∃ atom ∈ atoms, .var v ∈ atom.terms) ∧
      ∀ atom ∈ atoms, atom.Holds M τ

variable {M} {σ τ : Assignment} {atom : QueryAtom} {atoms : List QueryAtom}

/-- Assignments to the same variables are compared there. -/
theorem assignment_ext (hsome : ∀ v, (τ v).isSome = true ↔ (σ v).isSome = true)
    (h : ∀ v, (σ v).isSome = true → τ v = σ v) :
    τ = σ := by
  funext v
  by_cases hv : (σ v).isSome = true
  · exact h v hv
  · have hτ : ¬ (τ v).isSome = true := fun hτ => hv ((hsome v).mp hτ)
    rw [not_isSome_iff_eq_none] at hv hτ
    rw [hv, hτ]

theorem solves_nil : Solves M [] σ τ ↔ τ = σ := by
  constructor
  · rintro ⟨hexts, hsupp, -⟩
    exact assignment_ext (by simpa using hsupp) hexts
  · rintro rfl
    exact ⟨fun _ _ => rfl, by simp, by simp⟩

theorem solves_empty : Solves M atoms (fun _ => none) τ ↔ Satisfies M atoms τ := by
  simp [Solves, Satisfies]

variable {t : QueryTerm}

theorem value_congr (h : ∀ v, t = .var v → τ v = σ v) : t.value M τ = t.value M σ := by
  cases t with
  | var v => exact h v rfl
  | individual iri => rfl

theorem holds_congr (h : ∀ v, .var v ∈ atom.terms → τ v = σ v) : atom.Holds M τ ↔
    atom.Holds M σ := by
  have hpair : ∀ first second, atom.terms = [first, second] → ∀ holds,
      HoldsBetween M τ first second holds ↔ HoldsBetween M σ first second holds := by
    intro first second hterms holds
    have hfst : first.value M τ = first.value M σ :=
      value_congr fun v hv => h v (by simp [hterms, hv])
    have hsnd : second.value M τ = second.value M σ :=
      value_congr fun v hv => h v (by simp [hterms, hv])
    rw [HoldsBetween, HoldsBetween, hfst, hsnd]
  cases atom with
  | concept classExpression term =>
    have hterm : term.value M τ = term.value M σ :=
      value_congr fun v hv => h v (by simp [QueryAtom.terms, hv])
    rw [QueryAtom.Holds, QueryAtom.Holds, hterm]
  | role property first second | equality first second | inequality first second =>
    exact hpair first second rfl _

/-- An atom without unbound variables is a test. -/
theorem solves_cons_of_bound (hbd : ∀ v, .var v ∈ atom.terms → (σ v).isSome = true) :
    Solves M (atom :: atoms) σ τ ↔ atom.Holds M σ ∧ Solves M atoms σ τ := by
  constructor
  · rintro ⟨hexts, hsupp, hholds⟩
    refine ⟨(holds_congr fun v hv => hexts v (hbd v hv)).mp (hholds atom mem_cons_self),
        hexts, fun v => ?_,
      fun a ha => hholds a (mem_cons_of_mem _ ha)⟩
    rw [hsupp, exists_mem_cons_iff]
    constructor
    · rintro (hv | hv | hv)
      · exact .inl hv
      · exact .inl (hbd v hv)
      · exact .inr hv
    · exact fun hv => hv.imp_right .inr
  · rintro ⟨hatom, hexts, hsupp, hholds⟩
    refine ⟨hexts, fun v => ?_, ?_⟩
    · rw [hsupp, exists_mem_cons_iff]
      constructor
      · exact fun hv => hv.imp_right .inr
      · rintro (hv | hv | hv)
        · exact .inl hv
        · exact .inl (hbd v hv)
        · exact .inr hv
    · intro a ha
      rcases mem_cons.mp ha with rfl | ha
      · exact (holds_congr fun v hv => hexts v (hbd v hv)).mpr hatom
      · exact hholds a ha

/-- The assignment extends another one exactly to the variables of an atom. -/
def Step (atom : QueryAtom) (σ ρ : Assignment) : Prop :=
  (∀ v, (σ v).isSome = true → ρ v = σ v) ∧ ∀ v, (ρ v).isSome = true ↔
    (σ v).isSome = true ∨ .var v ∈ atom.terms

/-- First the variables of the first atom get their nodes, then the others. -/
theorem solves_cons : Solves M (atom :: atoms) σ τ ↔ ∃ ρ,
    Step atom σ ρ ∧ atom.Holds M ρ ∧ Solves M atoms ρ τ := by
  constructor
  · rintro ⟨hexts, hsupp, hholds⟩
    let ρ : Assignment := fun v => if (σ v).isSome = true ∨ .var v ∈ atom.terms then τ v else none
    have hρ : ∀ v, (σ v).isSome = true ∨ .var v ∈ atom.terms → ρ v = τ v := fun v hv => if_pos hv
    have hsome : ∀ v, (ρ v).isSome = true ↔ (σ v).isSome = true ∨ .var v ∈ atom.terms := by
      intro v
      by_cases hv : (σ v).isSome = true ∨ .var v ∈ atom.terms
      · rw [hρ v hv, hsupp, exists_mem_cons_iff]
        exact iff_of_true (hv.imp_right .inl) hv
      · rw [show ρ v = none from if_neg hv]
        exact iff_of_false (by simp) hv
    refine ⟨ρ, ⟨fun v hv => (hρ v (.inl hv)).trans (hexts v hv), hsome⟩, ?_, fun v hv => ?_,
        fun v => ?_,
      fun a ha => hholds a (mem_cons_of_mem _ ha)⟩
    · exact (holds_congr fun v hv => hρ v (.inr hv)).mpr (hholds atom mem_cons_self)
    · exact (hρ v ((hsome v).mp hv)).symm
    · rw [hsupp, hsome, exists_mem_cons_iff, or_assoc]
  · rintro ⟨ρ, ⟨hexts, hsome⟩, hatom, hexts', hsupp, hholds⟩
    refine ⟨fun v hv => ?_, fun v => ?_, fun a ha => ?_⟩
    · have hv' : (ρ v).isSome = true := (hsome v).mpr (.inl hv)
      exact (hexts' v hv').trans (hexts v hv)
    · rw [hsupp, hsome, exists_mem_cons_iff, or_assoc]
    · rcases mem_cons.mp ha with rfl | ha
      · exact (holds_congr fun v hv => hexts' v ((hsome v).mpr (.inr hv))).mpr hatom
      · exact hholds a ha

/-- The first step to a solution is determined by it. -/
theorem Step.eq_of_solves {ρ ρ' : Assignment} (h : Step atom σ ρ) (h' : Step atom σ ρ')
    (hsolves : Solves M atoms ρ τ) (hsolves' : Solves M atoms ρ' τ) : ρ = ρ' := by
  have hsome : ∀ v, (ρ v).isSome = true ↔ (ρ' v).isSome = true :=
    fun v => (h.2 v).trans (h'.2 v).symm
  refine assignment_ext hsome fun v hv => ?_
  exact (hsolves.1 v ((hsome v).mpr hv)).symm.trans (hsolves'.1 v hv)

/-- Give a term a node: a variable without one gets it, any other term must have it. -/
def bindTerm (M : Materialization rawKey) (σ : Assignment) (t : QueryTerm) (n : NodeId) :
    Option Assignment :=
  match t.value M σ, t with
  | some m, _ => if m = n then some σ else none
  | none, .var v => some (Function.update σ v (some n))
  | none, .individual _ => none

theorem bindTerm_of_value {m : NodeId} (n : NodeId) (h : t.value M σ = some m) :
    bindTerm M σ t n = if m = n then some σ else none := by
  unfold bindTerm
  rw [h]

theorem bindTerm_of_unbound {v : String} (n : NodeId) (h : σ v = none) :
    bindTerm M σ (.var v) n = some (Function.update σ v (some n)) := by
  unfold bindTerm
  rw [show (QueryTerm.var v).value M σ = none from h]

theorem bindTerm_eq_some {n : NodeId} {ρ : Assignment} : bindTerm M σ t n = some ρ ↔
    (∀ v, (σ v).isSome = true → ρ v = σ v) ∧
    (∀ v, (ρ v).isSome = true ↔ (σ v).isSome = true ∨ t = .var v) ∧ t.value M ρ = some n := by
  unfold bindTerm
  cases hval : t.value M σ with
  | some m =>
    have hbd : ∀ v, t = .var v → (σ v).isSome = true := by
      rintro v rfl
      rw [show σ v = some m from hval]
      rfl
    simp only [ite_none_right_eq_some, some.injEq]
    constructor
    · rintro ⟨rfl, rfl⟩
      exact ⟨fun _ _ => rfl, fun v => (or_iff_left_of_imp (hbd v)).symm, hval⟩
    · rintro ⟨hexts, hsome, hn⟩
      rw [value_congr fun v hv => hexts v (hbd v hv), hval] at hn
      refine ⟨some.inj hn, (assignment_ext (fun v => ?_) hexts).symm⟩
      rw [hsome, or_iff_left_of_imp (hbd v)]
  | none =>
    cases t with
    | individual iri =>
      refine iff_of_false nofun ?_
      rintro ⟨-, -, hn⟩
      cases hval.symm.trans hn
    | var v =>
      have hv : σ v = none := hval
      simp only [some.injEq]
      constructor
      · rintro rfl
        refine ⟨fun w hw => update_of_ne ?_ _ _, fun w => ?_, by rw [QueryTerm.value, update_self]⟩
        · rintro rfl
          rw [hv] at hw
          cases hw
        · by_cases hw : w = v
          · simp [hw]
          · rw [update_of_ne hw]
            simp [Ne.symm hw]
      · rintro ⟨hexts, hsome, hn⟩
        funext w
        by_cases hw : w = v
        · rw [hw, update_self]
          exact hn.symm
        · rw [update_of_ne hw]
          by_cases hσ : (σ w).isSome = true
          · exact (hexts w hσ).symm
          · have hρ : ¬ (ρ w).isSome = true := by
              rw [hsome]
              simp [hσ, Ne.symm hw]
            rw [not_isSome_iff_eq_none] at hσ hρ
            rw [hσ, hρ]

/-! ## States of the join -/

variable (M) in
/-- The maps of a state say what an assignment says, and its nodes are active. -/
structure Represents (s : JoinState) (σ : Assignment) : Prop where
  bound : ∀ v, v ∈ s.boundSoFar ↔ (σ v).isSome = true
  node : ∀ v, s.nodeBinding.lookup v = σ v
  binding : ∀ v, s.binding.lookup v = (σ v).bind fun n => (M.nodeToTerm.lookup n).map Individual.uri
  active : ∀ v n, σ v = some n → M.tableau.isActive n = true

namespace Represents

variable {s : JoinState}

theorem empty : Represents M .empty fun _ => none :=
  ⟨by simp [JoinState.empty], fun _ => rfl, fun _ => rfl, nofun⟩

theorem bind (h : Represents M s σ) (v : String) {n : NodeId} (hact : M.tableau.isActive n = true) :
    Represents M (bindRoleEndpoint M v n s) (Function.update σ v (some n)) where
  bound w := by
    rw [bindRoleEndpoint, mem_insertSet, h.bound]
    by_cases hw : w = v
    · simp [hw]
    · rw [update_of_ne hw]
      simp [hw]
  node w := by
    by_cases hw : w = v
    · rw [hw, update_self]
      exact AList.lookup_insert _
    · rw [update_of_ne hw, ← h.node]
      exact AList.lookup_insert_ne hw
  binding w := by
    rw [bindRoleEndpoint]
    by_cases hw : w = v
    · rw [hw, update_self, bind_some]
      cases hterm : M.nodeToTerm.lookup n with
      | none => simp
      | some representative => simp
    · rw [update_of_ne hw, ← h.binding]
      cases M.nodeToTerm.lookup n with
      | none => exact AList.lookup_erase_ne hw
      | some representative => exact AList.lookup_insert_ne hw
  active w m hm := by
    by_cases hw : w = v
    · rw [hw, update_self] at hm
      exact some.inj hm ▸ hact
    · rw [update_of_ne hw] at hm
      exact h.active w m hm

theorem unbind (h : Represents M s σ) (v : String) :
    Represents M (s.unbind v) (Function.update σ v none) where
  bound w := by
    rw [JoinState.unbind, mem_filter, h.bound, decide_eq_true_iff]
    by_cases hw : w = v
    · simp [hw]
    · rw [update_of_ne hw, and_iff_left hw]
  node w := by
    by_cases hw : w = v
    · rw [hw, update_self]
      exact AList.lookup_erase _ _
    · rw [update_of_ne hw, ← h.node]
      exact AList.lookup_erase_ne hw
  binding w := by
    by_cases hw : w = v
    · rw [hw, update_self]
      exact AList.lookup_erase _ _
    · rw [update_of_ne hw, ← h.binding]
      exact AList.lookup_erase_ne hw
  active w m hm := by
    by_cases hw : w = v
    · rw [hw, update_self] at hm
      cases hm
    · rw [update_of_ne hw] at hm
      exact h.active w m hm

/-- Unbinding what was bound on the way restores the assignment. -/
theorem foldl_unbind (h : Represents M s τ) {newlyBound : List String}
    (hnew : ∀ v ∈ newlyBound, σ v = none) (hold : ∀ v, v ∉ newlyBound → τ v = σ v) : Represents M
    (newlyBound.foldl JoinState.unbind s) σ := by
  induction newlyBound generalizing s τ with
  | nil =>
    have heq : τ = σ := funext fun v => hold v not_mem_nil
    exact heq ▸ h
  | cons v newlyBound ih =>
    refine ih (h.unbind v) (fun w hw => hnew w (mem_cons_of_mem _ hw)) fun w hw => ?_
    by_cases hwv : w = v
    · rw [hwv, update_self, hnew v mem_cons_self]
    · rw [update_of_ne hwv]
      exact hold w (by simp [hwv, hw])

variable {t : QueryTerm}

variable (h : Represents M s σ)
include h

theorem isBound_iff : s.isBound t = true ↔ ∀ v, t = .var v → (σ v).isSome = true := by
  cases t with
  | var v =>
    rw [JoinState.isBound, decide_eq_true_iff, h.bound]
    constructor
    · rintro hv w ⟨⟩
      exact hv
    · exact fun hv => hv v rfl
  | individual iri => exact iff_of_true rfl nofun

theorem resolveBound_eq (hbd : s.isBound t = true) : resolveBound M s t = t.value M σ := by
  cases t with
  | var v =>
    obtain ⟨n, hn⟩ := isSome_iff_exists.mp ((h.isBound_iff.mp hbd) v rfl)
    rw [resolveBound, h.node, QueryTerm.value, hn]
    rfl
  | individual iri => rfl

theorem isActive_of_value {n : NodeId} (hn : t.value M σ = some n) :
    M.tableau.isActive n = true := by
  cases t with
  | var v => exact h.active v n hn
  | individual iri => exact Materialization.isActive_of_nodeForIri hn

theorem emitAnswers_eq (answerTerms : List QueryTerm) :
    emitAnswers answerTerms s.binding = answerRow M answerTerms σ := by
  apply map_congr_left
  intro t _
  cases t with
  | var v => exact h.binding v
  | individual iri => rfl

end Represents

/-- A part of the join reports one row for every wanted assignment, and leaves a good state behind.
-/
def Reports (row : Assignment → Row) (good : JoinState → Prop) (wanted : Assignment → Prop)
    (run : Option (List Row × JoinState)) : Prop :=
  ∃ (s : JoinState) (l : List Assignment), run = some (l.map row, s) ∧ good s ∧ l.Nodup ∧ ∀ τ,
    τ ∈ l ↔ wanted τ

section reports

variable {row : Assignment → Row} {good : JoinState → Prop} {wanted wanted' : Assignment → Prop}
    {s : JoinState}

theorem Reports.congr {run : Option (List Row × JoinState)} (h : Reports row good wanted run)
    (hiff : ∀ τ, wanted' τ ↔ wanted τ) : Reports row good wanted' run := by
  obtain ⟨s, l, hrun, hs, hnd, hmem⟩ := h
  exact ⟨s, l, hrun, hs, hnd, fun τ => (hmem τ).trans (hiff τ).symm⟩

theorem reports_nothing (hs : good s) (hnone : ∀ τ, ¬ wanted τ) :
    Reports row good wanted (some ([], s)) :=
  ⟨s, [], rfl, hs, nodup_nil, fun τ => iff_of_false not_mem_nil (hnone τ)⟩

/-- A loop reports what its rounds report, if no two rounds report the same. -/
theorem reports_forEach (good : JoinState → Prop) {α : Type} {body : α → Join} {l : List α}
    {wanted : α → Assignment → Prop} (hl : l.Nodup)
    (hbody : ∀ a ∈ l, ∀ s, good s → Reports row good (wanted a) (body a s))
    (hdisj : ∀ a ∈ l, ∀ b ∈ l, ∀ τ, wanted a τ → wanted b τ → a = b) (hs : good s) :
    Reports row good (fun τ => ∃ a ∈ l, wanted a τ) (forEach body l s) := by
  induction l generalizing s with
  | nil => exact reports_nothing hs (by simp)
  | cons a l ih =>
    obtain ⟨hnew, hl⟩ := nodup_cons.mp hl
    obtain ⟨s₁, l₁, hrun₁, hs₁, hnd₁, hmem₁⟩ := hbody a mem_cons_self s hs
    obtain ⟨s₂, l₂, hrun₂, hs₂, hnd₂, hmem₂⟩ :=
      ih hl (fun b hb => hbody b (mem_cons_of_mem _ hb))
      (fun b hb c hc => hdisj b (mem_cons_of_mem _ hb) c (mem_cons_of_mem _ hc)) hs₁
    refine ⟨s₂, l₁ ++ l₂, ?_, hs₂, ?_, fun τ => ?_⟩
    · rw [forEach, hrun₁, bind_eq_bind, bind_some]
      dsimp only
      rw [hrun₂, map_append]
      rfl
    · rw [nodup_append]
      refine ⟨hnd₁, hnd₂, fun τ hτ τ' hτ' => ?_⟩
      rintro rfl
      obtain ⟨b, hb, hwant⟩ := (hmem₂ τ).mp hτ'
      have heq := hdisj a mem_cons_self b (mem_cons_of_mem _ hb) τ ((hmem₁ τ).mp hτ) hwant
      exact hnew (heq ▸ hb)
    · rw [mem_append, hmem₁, hmem₂]
      exact (exists_mem_cons_iff (fun b => wanted b τ) a l).symm

end reports

section atoms

variable {answerTerms : List QueryTerm} {next : Join}

/-- What remains of the join reports the solutions of the remaining atoms. -/
def Continues (M : Materialization rawKey) (answerTerms : List QueryTerm) (atoms : List QueryAtom)
    (next : Join) : Prop :=
  ∀ s σ, Represents M s σ → Reports (answerRow M answerTerms) (Represents M · σ)
    (Solves M atoms σ) (next s)

variable {s : JoinState}

/-- A test of an atom whose variables are bound. -/
theorem reports_test (hnext : Continues M answerTerms atoms next) (hs : Represents M s σ)
    (hbd : ∀ v, .var v ∈ atom.terms → (σ v).isSome = true) {test : Option Bool}
    (htest : ∃ b, test = some b ∧ (b = true ↔ atom.Holds M σ)) :
    Reports (answerRow M answerTerms) (Represents M · σ) (Solves M (atom :: atoms) σ)
      (test.bind fun b => if b then next s else some ([], s)) := by
  obtain ⟨b, rfl, hb⟩ := htest
  rw [bind_some]
  cases b with
  | true =>
    refine (hnext s σ hs).congr fun τ => ?_
    rw [solves_cons_of_bound hbd, and_iff_right (hb.mp rfl)]
  | false =>
    refine reports_nothing hs fun τ hτ => ?_
    exact Bool.false_ne_true (hb.mpr ((solves_cons_of_bound hbd).mp hτ).1)

theorem step_update (M : Materialization rawKey) (classExpression : ClassExpr) {v : String}
    (hv : σ v = none) {ρ : Assignment} :
    Step (.concept classExpression (.var v)) σ ρ ↔ ∃ n, ρ = Function.update σ v (some n) := by
  have hbind : ∀ n, bindTerm M σ (.var v) n = some (Function.update σ v (some n)) :=
    fun n => bindTerm_of_unbound n hv
  have hterm : ∀ w, .var w ∈ (QueryAtom.concept classExpression (.var v)).terms ↔
    QueryTerm.var v = .var w :=
    fun w => mem_singleton.trans eq_comm
  constructor
  · rintro ⟨hexts, hsome⟩
    simp only [hterm] at hsome
    obtain ⟨n, hn⟩ := isSome_iff_exists.mp ((hsome v).mpr (.inr rfl))
    have heq := (hbind n).symm.trans (bindTerm_eq_some.mpr ⟨hexts, hsome, hn⟩)
    exact ⟨n, (some.inj heq).symm⟩
  · rintro ⟨n, rfl⟩
    obtain ⟨hexts, hsome, -⟩ := bindTerm_eq_some.mp (hbind n)
    refine ⟨hexts, fun w => ?_⟩
    rw [hsome, hterm]

theorem continues_matchConceptAtom (hnext : Continues M answerTerms atoms next)
    {classExpression : ClassExpr}
    {concept : AtomicConcept} (hconc : conceptOf classExpression = .ok concept)
    (term : QueryTerm) :
    Continues M answerTerms (.concept classExpression term :: atoms)
    (matchConceptAtom M concept term next) := by
  intro s σ hs
  have hholds : ∀ ρ n, term.value M ρ = some n →
      ((QueryAtom.concept classExpression term).Holds M ρ ↔ M.HoldsConcept concept n) := by
    intro ρ n hn
    constructor
    · rintro ⟨concept', n', hconc', hn', hholds⟩
      rw [hconc] at hconc'
      rw [hn] at hn'
      cases hconc'
      cases hn'
      exact hholds
    · exact fun hholds => ⟨concept, n, hconc, hn, hholds⟩
  cases hbd : s.isBound term with
  | true =>
    have hval := hs.resolveBound_eq hbd
    have hmatch : matchConceptAtom M concept term next s =
        (term.value M σ).elim (some ([], s)) fun n =>
          (M.conceptHoldsNode concept n).bind fun b => if b then next s else some ([], s) := by
      rw [← hval]
      unfold matchConceptAtom
      rw [hbd]
      cases term with
      | var v => cases resolveBound M s (.var v) <;> rfl
      | individual iri => cases resolveBound M s (.individual iri) <;> rfl
    have hvars : ∀ v, .var v ∈ (QueryAtom.concept classExpression term).terms →
        (σ v).isSome = true := by
      intro v hv
      exact hs.isBound_iff.mp hbd v (mem_singleton.mp hv).symm
    rw [hmatch]
    cases hn : term.value M σ with
    | none =>
      refine reports_nothing hs fun τ hτ => ?_
      obtain ⟨-, n, -, hn', -⟩ := ((solves_cons_of_bound hvars).mp hτ).1
      rw [hn] at hn'
      cases hn'
    | some n =>
      obtain ⟨b, hb, hiff⟩ :=
        Materialization.exists_conceptHoldsNode concept (hs.isActive_of_value hn)
      exact reports_test hnext hs hvars ⟨b, hb, hiff.trans (hholds σ n hn).symm⟩
  | false =>
    cases term with
    | individual iri => cases hbd
    | var v =>
      have hv : σ v = none := by
        have := hs.bound v
        rw [JoinState.isBound, decide_eq_false_iff_not, hs.bound, not_isSome_iff_eq_none] at hbd
        exact hbd
      obtain ⟨extension, hext, hnd, hmem⟩ := M.exists_conceptExtension concept
      -- Between the rounds the variable may keep its last node.
      let good : JoinState → Prop := fun s => ∃ ρ, Represents M s ρ ∧ Function.update ρ v none = σ
      have hgood : good s := ⟨σ, hs, by rw [← hv, update_eq_self]⟩
      have hloop : Reports (answerRow M answerTerms) good
          (fun τ => ∃ p ∈ extension, Solves M atoms (Function.update σ v (some p.1)) τ)
          (forEach (fun p s => next (bindRoleEndpoint M v p.1 s)) extension s) := by
        refine reports_forEach good hnd (fun p hp s hs => ?_) (fun p hp q hq τ hτ hτ' => ?_) hgood
        · obtain ⟨ρ, hρ, hrestore⟩ := hs
          have hact := ((hmem p).mp hp).2.1
          have hbind := hρ.bind v hact
          rw [show Function.update ρ v (some p.1) = Function.update σ v (some p.1) by
            rw [← hrestore, update_idem]] at hbind
          obtain ⟨s', l, hrun, hs', hnd', hmem'⟩ := hnext _ _ hbind
          refine ⟨s', l, hrun, ⟨_, hs', ?_⟩, hnd', hmem'⟩
          rw [update_idem, ← hv, update_eq_self]
        · have heq := Step.eq_of_solves ((step_update M classExpression hv).mpr ⟨p.1, rfl⟩)
            ((step_update M classExpression hv).mpr ⟨q.1, rfl⟩) hτ hτ'
          have hfst := congrFun heq v
          rw [update_self, update_self, some.injEq] at hfst
          exact Prod.ext hfst (((hmem p).mp hp).1.symm.trans (hfst.trans ((hmem q).mp hq).1))
      obtain ⟨s', l, hrun, ⟨ρ, hρ, hrestore⟩, hlnodup, hlmem⟩ := hloop
      refine ⟨s'.unbind v, l, ?_, hrestore ▸ hρ.unbind v, hlnodup, fun τ => (hlmem τ).trans ?_⟩
      · unfold matchConceptAtom
        rw [hbd]
        dsimp only
        rw [hext, bind_eq_bind, bind_some, hrun]
        rfl
      · rw [solves_cons]
        have hval : ∀ n, (QueryTerm.var v).value M (Function.update σ v (some n)) = some n :=
          fun n => by rw [QueryTerm.value, update_self]
        constructor
        · rintro ⟨p, hp, hτ⟩
          exact ⟨_, (step_update M _ hv).mpr ⟨p.1, rfl⟩,
            (hholds _ p.1 (hval p.1)).mpr ((hmem p).mp hp).2, hτ⟩
        · rintro ⟨ρ, hstep, hatom, hτ⟩
          obtain ⟨n, rfl⟩ := (step_update M _ hv).mp hstep
          exact ⟨(n, n), (hmem (n, n)).mpr ⟨rfl, (hholds _ n (hval n)).mp hatom⟩, hτ⟩

/-- Give two terms the nodes of a tuple. -/
def bindPair (M : Materialization rawKey) (σ : Assignment) (first second : QueryTerm)
    (p : NodeId × NodeId) : Option Assignment :=
  (bindTerm M σ first p.1).bind fun ρ => bindTerm M ρ second p.2

variable {first second : QueryTerm} {p : NodeId × NodeId}

theorem bindPair_eq_some (atom : QueryAtom) (hterms : atom.terms = [first, second])
    {ρ : Assignment} : bindPair M σ first second p = some ρ ↔
      Step atom σ ρ ∧ first.value M ρ = some p.1 ∧ second.value M ρ = some p.2 := by
  have hmem : ∀ v, .var v ∈ atom.terms ↔ first = .var v ∨ second = .var v := by
    intro v
    rw [hterms]
    simp [eq_comm]
  rw [bindPair, bind_eq_some_iff]
  simp only [bindTerm_eq_some, Step, hmem]
  constructor
  · rintro ⟨ρ₁, ⟨hexts₁, hsome₁, hfst⟩, hexts, hsome, hsnd⟩
    refine ⟨⟨fun v hv => ?_, fun v => ?_⟩, ?_, hsnd⟩
    · exact (hexts v ((hsome₁ v).mpr (.inl hv))).trans (hexts₁ v hv)
    · rw [hsome, hsome₁, or_assoc]
    · rw [value_congr fun v hv => hexts v ((hsome₁ v).mpr (.inr hv))]
      exact hfst
  · rintro ⟨⟨hexts, hsome⟩, hfst, hsnd⟩
    let ρ₁ : Assignment := fun v => if (σ v).isSome = true ∨ first = .var v then ρ v else none
    have hρ₁ : ∀ v, (σ v).isSome = true ∨ first = .var v → ρ₁ v = ρ v := fun v hv => if_pos hv
    have hsome₁ : ∀ v, (ρ₁ v).isSome = true ↔ (σ v).isSome = true ∨ first = .var v := by
      intro v
      by_cases hv : (σ v).isSome = true ∨ first = .var v
      · rw [hρ₁ v hv, hsome]
        exact iff_of_true (hv.imp_right .inl) hv
      · rw [show ρ₁ v = none from if_neg hv]
        exact iff_of_false (by simp) hv
    refine ⟨ρ₁, ⟨fun v hv => (hρ₁ v (.inl hv)).trans (hexts v hv), hsome₁, ?_⟩, fun v hv => ?_,
      fun v => ?_, hsnd⟩
    · rw [value_congr fun v hv => hρ₁ v (.inr hv)]
      exact hfst
    · exact (hρ₁ v ((hsome₁ v).mp hv)).symm
    · rw [hsome, hsome₁, or_assoc]

/-- A term that counts as bound has the node of the tuple; any other is a variable. -/
theorem exists_tryBind (hs : Represents M s σ) {bound : Bool} {t : QueryTerm} {n : NodeId}
    (hact : M.tableau.isActive n = true)
    (hbd : bound = true → t.value M σ = some n) (hvar : bound = false → ∃ v, t = .var v)
    (newlyBound : List String) :
    ∃ ok new s' ρ, tryBind M bound t n (true, newlyBound, s) = (ok, newlyBound ++ new, s') ∧
    Represents M s' ρ ∧ (∀ v ∈ new, σ v = none) ∧ (∀ v, v ∉ new → ρ v = σ v) ∧
      bindTerm M σ t n = if ok then some ρ else none := by
  cases bound with
  | true =>
    refine ⟨true, [], s, σ, ?_, hs, nofun, fun _ _ => rfl, ?_⟩
    · rw [append_nil]
      rfl
    · rw [bindTerm_of_value n (hbd rfl), if_pos rfl, if_pos rfl]
  | false =>
    obtain ⟨v, rfl⟩ := hvar rfl
    cases hv : σ v with
    | some m =>
      refine ⟨m = n, [], s, σ, ?_, hs, nofun, fun _ _ => rfl, ?_⟩
      · rw [append_nil, tryBind]
        simp only [hs.node, hv]
      · rw [bindTerm_of_value n (show (QueryTerm.var v).value M σ = some m from hv)]
        simp
    | none =>
      refine ⟨true, [v], bindRoleEndpoint M v n s, _, ?_, hs.bind v hact, ?_, fun w hw => ?_, ?_⟩
      · rw [tryBind]
        simp only [hs.node, hv]
      · intro w hw
        rwa [mem_singleton.mp hw]
      · exact update_of_ne (fun heq => hw (mem_singleton.mpr heq)) _ _
      · rw [bindTerm_of_unbound n hv, if_pos rfl]

theorem reports_matchTuple (hnext : Continues M answerTerms atoms next) (hs : Represents M s σ)
    {firstBound secondBound : Bool} (hfst : firstBound = false → ∃ v, first = .var v)
    (hsnd : secondBound = false → ∃ v, second = .var v)
    (hfirstValue : firstBound = true → (first.value M σ).isSome = true)
    (hsecondValue : secondBound = true → (second.value M σ).isSome = true)
    (hact : M.tableau.isActive p.1 = true ∧ M.tableau.isActive p.2 = true) :
    Reports (answerRow M answerTerms) (Represents M · σ)
      (fun τ => ∃ ρ, bindPair M σ first second p = some ρ ∧ Solves M atoms ρ τ)
      (matchTuple M firstBound secondBound (if firstBound then first.value M σ else none)
        (if secondBound then second.value M σ else none) first second next p s) := by
  by_cases hoth : (if firstBound then first.value M σ else none).any (· ≠ p.1) = true ∨
      (if secondBound then second.value M σ else none).any (· ≠ p.2) = true
  · -- A bound term has another node.
    rw [matchTuple, if_pos hoth]
    refine reports_nothing hs ?_
    rintro τ ⟨ρ, hρ, -⟩
    obtain ⟨⟨hexts, -⟩, hfirstρ, hsecondρ⟩ :=
      (bindPair_eq_some (.equality first second) rfl).mp hρ
    have hval : ∀ t : QueryTerm, (t.value M σ).isSome = true → t.value M ρ = t.value M σ := by
      intro t ht
      refine value_congr fun v hv => hexts v ?_
      subst hv
      exact ht
    rcases hoth with hoth | hoth
    · cases firstBound with
      | false => cases hoth
      | true =>
        rw [if_pos rfl, ← hval first (hfirstValue rfl), hfirstρ] at hoth
        simp at hoth
    · cases secondBound with
      | false => cases hoth
      | true =>
        rw [if_pos rfl, ← hval second (hsecondValue rfl), hsecondρ] at hoth
        simp at hoth
  · rw [matchTuple, if_neg hoth]
    have hsame := not_or.mp hoth
    have hnode : ∀ (bound : Bool) (t : QueryTerm) (n : NodeId),
      (bound = true → (t.value M σ).isSome = true) →
        ¬ (if bound then t.value M σ else none).any (· ≠ n) = true → bound = true →
          t.value M σ = some n := by
      rintro bound t n hval hsame rfl
      obtain ⟨m, hm⟩ := isSome_iff_exists.mp (hval rfl)
      rw [if_pos rfl, hm] at hsame
      rw [hm]
      simpa using hsame
    obtain ⟨ok₁, new₁, s₁, ρ₁, htry₁, hs₁, hnew₁, hold₁, hbind₁⟩ := exists_tryBind hs hact.1
      (hnode firstBound first p.1 hfirstValue hsame.1) hfst []
    rw [htry₁]
    cases ok₁ with
    | false =>
      refine ⟨new₁.foldl JoinState.unbind s₁, [], ?_, hs₁.foldl_unbind hnew₁ hold₁, nodup_nil,
        fun τ => ?_⟩
      · rfl
      · refine iff_of_false not_mem_nil ?_
        rintro ⟨ρ, hρ, -⟩
        rw [bindPair, hbind₁] at hρ
        cases hρ
    | true =>
      have hexts₁ := (bindTerm_eq_some.mp hbind₁).1
      have hsnd₁ : secondBound = true → second.value M ρ₁ = some p.2 := by
        intro hbd
        have hval := hnode secondBound second p.2 hsecondValue hsame.2 hbd
        rw [← hval]
        refine value_congr fun v hv => hexts₁ v ?_
        subst hv
        rw [show σ v = some p.2 from hval]
        rfl
      obtain ⟨ok₂, new₂, s₂, ρ₂, htry₂, hs₂, hnew₂, hold₂, hbind₂⟩ :=
        exists_tryBind hs₁ hact.2 hsnd₁ hsnd ([] ++ new₁)
      rw [htry₂, nil_append]
      have hbindPair : bindPair M σ first second p = if ok₂ then some ρ₂ else none := by
        rw [bindPair, hbind₁]
        exact hbind₂
      have hrestore : ∀ s, Represents M s ρ₂ →
          Represents M ((new₁ ++ new₂).foldl JoinState.unbind s) σ := by
        intro s hs
        refine hs.foldl_unbind (fun v hv => ?_) fun v hv => ?_
        · by_cases hv₁ : v ∈ new₁
          · exact hnew₁ v hv₁
          · rw [← hold₁ v hv₁]
            exact hnew₂ v ((mem_append.mp hv).resolve_left hv₁)
        · rw [mem_append, not_or] at hv
          exact (hold₂ v hv.2).trans (hold₁ v hv.1)
      cases ok₂ with
      | false =>
        refine ⟨_, [], rfl, hrestore s₂ hs₂, nodup_nil, fun τ => iff_of_false not_mem_nil ?_⟩
        rintro ⟨ρ, hρ, -⟩
        rw [hbindPair] at hρ
        cases hρ
      | true =>
        obtain ⟨s', l, hrun, hs', hnd, hmem⟩ := hnext s₂ ρ₂ hs₂
        refine ⟨_, l, ?_, hrestore s' hs', hnd, fun τ => ?_⟩
        · simp only [if_true, hrun]
          rfl
        · rw [hmem, hbindPair]
          simp

section pair

variable {related : NodeId → NodeId → Prop} {extension : Option (List (NodeId × NodeId))}
  {holds : NodeId → NodeId → Option Bool} (hnext : Continues M answerTerms atoms next)
  (hterms : atom.terms = [first, second]) (hs : Represents M s σ)
  (hatom : ∀ σ, atom.Holds M σ ↔ HoldsBetween M σ first second related)

include hs in
theorem resolved_eq (t : QueryTerm) : (if s.isBound t then resolveBound M s t else none) =
    if s.isBound t then t.value M σ else none := by
  split
  · exact hs.resolveBound_eq ‹_›
  · rfl

include hs hatom

/-- A bound term that stands for no node leaves no solution. -/
theorem reports_unknown (hunk : (s.isBound first = true ∧ (first.value M σ).isNone = true) ∨
      (s.isBound second = true ∧ (second.value M σ).isNone = true)) :
    Reports (answerRow M answerTerms) (Represents M · σ) (Solves M (atom :: atoms) σ)
      (matchPairAtom M extension holds first second next s) := by
  have hexts : ∀ t : QueryTerm, s.isBound t = true → ∀ τ,
      (∀ v, (σ v).isSome = true → τ v = σ v) → t.value M τ = t.value M σ := by
    intro t ht τ hτ
    exact value_congr fun v hv => hτ v (hs.isBound_iff.mp ht v hv)
  have hnothing : matchPairAtom M extension holds first second next s = some ([], s) := by
    unfold matchPairAtom
    simp only [resolved_eq hs]
    refine if_pos ?_
    refine hunk.imp (fun hfst => ?_) fun hsnd => ?_
    · rw [if_pos hfst.1]
      exact hfst
    · rw [if_pos hsnd.1]
      exact hsnd
  rw [hnothing]
  refine reports_nothing hs fun τ hτ => ?_
  obtain ⟨a, b, ha, hb, -⟩ := (hatom τ).mp (hτ.2.2 atom mem_cons_self)
  rcases hunk with ⟨hbd, hnone⟩ | ⟨hbd, hnone⟩
  · rw [hexts first hbd τ hτ.1] at ha
    rw [ha] at hnone
    cases hnone
  · rw [hexts second hbd τ hτ.1] at hb
    rw [hb] at hnone
    cases hnone

include hnext hterms

/-- With both terms bound the atom is a test. -/
theorem reports_bound {a b : NodeId} (hfst : s.isBound first = true)
    (hsnd : s.isBound second = true) (ha : first.value M σ = some a)
    (hb : second.value M σ = some b) (hholds : ∃ r, holds a b = some r ∧ (r = true ↔ related a b)) :
    Reports (answerRow M answerTerms) (Represents M · σ) (Solves M (atom :: atoms) σ)
      (matchPairAtom M extension holds first second next s) := by
  have htest : matchPairAtom M extension holds first second next s =
      (holds a b).bind fun r => if r then next s else some ([], s) := by
    unfold matchPairAtom
    simp only [resolved_eq hs]
    rw [if_pos hfst, if_pos hsnd, ha, hb, if_neg (by simp)]
    rfl
  rw [htest]
  refine reports_test hnext hs (fun v hv => ?_) ?_
  · rw [hterms, mem_cons, mem_singleton] at hv
    rcases hv with hv | hv
    · exact hs.isBound_iff.mp hfst v hv.symm
    · exact hs.isBound_iff.mp hsnd v hv.symm
  · obtain ⟨r, hr, hiff⟩ := hholds
    refine ⟨r, hr, hiff.trans ?_⟩
    rw [hatom, HoldsBetween, ha, hb]
    simp

/-- Otherwise the pairs of the extension are tried in turn. -/
theorem reports_scan (hval : ∀ t, t = first ∨ t = second → s.isBound t = true →
      (t.value M σ).isSome = true) (hboth : ¬ (s.isBound first = true ∧ s.isBound second = true))
    (hact : ∀ a b, related a b → M.tableau.isActive a = true ∧ M.tableau.isActive b = true)
    {l : List (NodeId × NodeId)} (hnd : l.Nodup) (hl : ∀ p, p ∈ l ↔ related p.1 p.2) :
    Reports (answerRow M answerTerms) (Represents M · σ) (Solves M (atom :: atoms) σ)
      (matchPairAtom M (some l) holds first second next s) := by
  have hsome : ∀ t, t = first ∨ t = second → ¬ (s.isBound t = true ∧
      (if s.isBound t then t.value M σ else none).isNone = true) := by
    rintro t ht ⟨hbd, hnone⟩
    obtain ⟨n, hn⟩ := isSome_iff_exists.mp (hval t ht hbd)
    rw [if_pos hbd, hn] at hnone
    cases hnone
  have hloop : matchPairAtom M (some l) holds first second next s =
      forEach (matchTuple M (s.isBound first) (s.isBound second)
        (if s.isBound first then first.value M σ else none)
        (if s.isBound second then second.value M σ else none) first second next) l s := by
    unfold matchPairAtom
    simp only [resolved_eq hs]
    rw [if_neg (not_or.mpr ⟨hsome first (.inl rfl), hsome second (.inr rfl)⟩)]
    cases hfst : s.isBound first with
    | false => rfl
    | true =>
      cases hsnd : s.isBound second with
      | false =>
        simp only [if_true, Bool.false_eq_true, if_false]
        cases first.value M σ with
        | none => rfl
        | some a => rfl
      | true => exact absurd ⟨hfst, hsnd⟩ hboth
  rw [hloop]
  have hvar : ∀ t : QueryTerm, s.isBound t = false → ∃ v, t = .var v := by
    intro t ht
    cases t with
    | var v => exact ⟨v, rfl⟩
    | individual iri => cases ht
  have hreports := reports_forEach (Represents M · σ) hnd
    (fun p hp s' hs' => reports_matchTuple hnext hs' (hvar first) (hvar second)
      (hval first (.inl rfl)) (hval second (.inr rfl)) (hact p.1 p.2 ((hl p).mp hp))) ?_ hs
  · refine hreports.congr fun τ => ?_
    rw [solves_cons]
    constructor
    · rintro ⟨ρ, hstep, hatomρ, hτ⟩
      obtain ⟨a, b, ha, hb, hab⟩ := (hatom ρ).mp hatomρ
      exact ⟨(a, b), (hl (a, b)).mpr hab, ρ,
        (bindPair_eq_some atom hterms).mpr ⟨hstep, ha, hb⟩, hτ⟩
    · rintro ⟨p, hp, ρ, hρ, hτ⟩
      obtain ⟨hstep, ha, hb⟩ := (bindPair_eq_some atom hterms).mp hρ
      exact ⟨ρ, hstep, (hatom ρ).mpr ⟨p.1, p.2, ha, hb, (hl p).mp hp⟩, hτ⟩
  · rintro p - q - τ ⟨ρ, hρ, hτ⟩ ⟨ρ', hρ', hτ'⟩
    obtain ⟨hstep, ha, hb⟩ := (bindPair_eq_some atom hterms).mp hρ
    obtain ⟨hstep', ha', hb'⟩ := (bindPair_eq_some atom hterms).mp hρ'
    obtain rfl := hstep.eq_of_solves hstep' hτ hτ'
    exact Prod.ext (some.inj (ha.symm.trans ha')) (some.inj (hb.symm.trans hb'))

omit hs

theorem continues_matchPairAtom
    (hact : ∀ a b, related a b → M.tableau.isActive a = true ∧ M.tableau.isActive b = true)
    (hext : ∃ l, extension = some l ∧ l.Nodup ∧ ∀ p, p ∈ l ↔ related p.1 p.2)
    (hholds : ∀ a b, ∃ r, holds a b = some r ∧ (r = true ↔ related a b)) :
    Continues M answerTerms (atom :: atoms) (matchPairAtom M extension holds first second next) :=
  by
  intro s σ hs
  by_cases hunk : (s.isBound first = true ∧ (first.value M σ).isNone = true) ∨
      (s.isBound second = true ∧ (second.value M σ).isNone = true)
  · exact reports_unknown hs hatom hunk
  have hval : ∀ t, t = first ∨ t = second → s.isBound t = true → (t.value M σ).isSome = true := by
    intro t ht hbd
    by_contra hnone
    have hnone : (t.value M σ).isNone = true := by simpa using hnone
    rcases ht with rfl | rfl
    · exact hunk (.inl ⟨hbd, hnone⟩)
    · exact hunk (.inr ⟨hbd, hnone⟩)
  by_cases hboth : s.isBound first = true ∧ s.isBound second = true
  · obtain ⟨a, ha⟩ := isSome_iff_exists.mp (hval first (.inl rfl) hboth.1)
    obtain ⟨b, hb⟩ := isSome_iff_exists.mp (hval second (.inr rfl) hboth.2)
    exact reports_bound hnext hterms hs hatom hboth.1 hboth.2 ha hb (hholds a b)
  · obtain ⟨l, rfl, hnd, hl⟩ := hext
    exact reports_scan hnext hterms hs hatom hval hboth hact hnd hl

end pair

theorem continues_join (answerTerms : List QueryTerm) {atoms : List QueryAtom}
    (hname : ∀ classExpression term, .concept classExpression term ∈ atoms → ∃ concept,
      conceptOf classExpression = .ok concept) :
    Continues M answerTerms atoms (join M answerTerms atoms) := by
  induction atoms with
  | nil =>
    intro s σ hs
    refine ⟨s, [σ], ?_, hs, nodup_singleton σ, fun τ => ?_⟩
    · rw [join, hs.emitAnswers_eq, map_singleton]
    · rw [mem_singleton, solves_nil]
  | cons atom atoms ih =>
    have hnext := ih fun classExpression term hmem =>
        hname classExpression term (mem_cons_of_mem _ hmem)
    have hcmp : ∀ predicate first second, atom.terms = [first, second] → (∀ σ, atom.Holds M σ ↔
          HoldsBetween M σ first second (M.HoldsPair (predicateToStoredLabel rawKey predicate))) →
        Continues M answerTerms (atom :: atoms)
          (matchComparisonAtom M predicate first second (join M answerTerms atoms)) := by
      intro predicate first second hterms hatom
      exact continues_matchPairAtom hnext hterms hatom (fun a b hab => hab.1)
        (M.exists_pairExtension _)
        (M.exists_comparisonHoldsNodes predicate)
    cases atom with
    | concept classExpression term =>
      obtain ⟨concept, hconc⟩ := hname classExpression term mem_cons_self
      intro s σ hs
      rw [join, hconc]
      exact continues_matchConceptAtom hnext hconc term s σ hs
    | role property first second =>
      refine continues_matchPairAtom hnext rfl (fun σ => Iff.rfl) (fun a b hab => ?_)
        (M.exists_roleExtension _)
        (M.exists_roleHoldsNodes _)
      exact Materialization.isActive_of_holdsRole hab
    | equality first second => exact hcmp .equality first second rfl fun σ => Iff.rfl
    | inequality first second => exact hcmp .inequality first second rfl fun σ => Iff.rfl

end atoms

end answers

end Hermit.Datalog
