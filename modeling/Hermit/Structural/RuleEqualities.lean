import Hermit.Library.Draining
import Hermit.Structural.RuleMeaning

/-! # Recording the equalities of a rule

An equality of the body is recorded as a replacement of its second argument by the first.
The replacement keeps the meaning of the rule as long as the variable it replaces has not
been replaced before and replaces no other variable.
-/

namespace Hermit

open List SwrlAtom

variable {Dom Val : Type*}

/-! ## Recording equalities -/

/-- A class atom over a variable, such as those that wait for a visit besides those of the rule. -/
def IsPushed (b : SwrlAtom) : Prop :=
  ∃ pred w, b = .classAtom pred (.variable w) ∧ isCountable pred

namespace RuleNormalizerState

variable (I : Interp Dom Val) (nz : RuleNormalizerState) (atoms rest : List SwrlAtom)

/-- The equalities of the body that are not recorded yet. -/
def EqualitiesHold (val : Iri → Dom ⊕ Val) : Prop :=
  ∀ b ∈ rest, isSameIndividualAtom b → I.mixedAtom (nz.substitute val) b

/-- What the rule says in the course of its normalisation. -/
def Meaning : Prop :=
  ∀ val, Interp.Respects atoms val → nz.BodyHolds I val → nz.EqualitiesHold I rest val →
    nz.HeadHolds I val

theorem isPushed_nominalAtom (i w : Iri) : IsPushed (nominalAtom i w) :=
  ⟨_, w, rfl, by simp [isCountable]⟩

/-- A variable for an individual: one of the rule, or one bound by a nominal. -/
def Anchored (w : Iri) : Prop :=
  (∃ a ∈ atoms, w ∈ a.objectVariables) ∨ ∃ i n, w = swrlVariable n ∧ nominalAtom i w ∈ nz.bodyWork

/-- The state while equalities are recorded: replacements are not replaced in turn. -/
structure Unifying : Prop extends nz.Scoped I where
  idempotent : ∀ u, nz.representative (nz.representative u) = nz.representative u
  reserved : ∀ n, nz.representative (swrlVariable n) = swrlVariable n
  anchored : ∀ a ∈ atoms, ∀ u ∈ a.objectVariables, nz.Anchored atoms (nz.representative u)
  individualsAnchored : ∀ i w, nz.individualsToVariables.lookup i = some w →
    nz.Anchored atoms (nz.representative w)
  replaced : ∀ u, nz.representative u ≠ u → ∃ a ∈ atoms, u ∈ a.objectVariables
  bodyAtoms : ∀ b ∈ nz.bodyWork, b ∈ atoms ∨ IsPushed b
  headAtoms : ∀ h ∈ nz.headWork, h ∈ atoms ∨ IsPushed h
  noBody : nz.normalizedBodyAtoms = []
  noHead : nz.normalizedHeadAtoms = []

/-- Replacing the variable by that of the argument changes nothing, or the variable has not been
replaced and replaces no other. -/
def Joins (first : IArgument) (v : Iri) : Prop :=
  (∀ r, nz.rnVariableFor first = .ok r → r.1 = nz.representative v) ∨
    nz.representative v = v ∧ ∀ u, nz.representative u = v → u = v

variable {I nz atoms rest} {val val' : Iri → Dom ⊕ Val}
variable {w : Iri} {arg : IArgument}

theorem Unifying.anchored_value (hnz : nz.Unifying I atoms) (hw : nz.Anchored atoms w)
    (hval : Interp.Respects atoms val) (hbody : nz.BodyHolds I val) : ∃ x, val w = .inl x := by
  rcases hw with ⟨a, ha, hv⟩ | ⟨i, n, rfl, hmem⟩
  · exact hval.object a ha w hv
  · have hvalue := Pinned.value (.inl hmem) hbody
    rw [hnz.reserved] at hvalue
    exact ⟨_, hvalue⟩

theorem Anchored.bindIndividual (h : nz.Anchored atoms w) (i x : Iri) :
    (nz.bindIndividual i x).Anchored atoms w := by
  rcases h with h | ⟨j, n, hn, hmem⟩
  · exact .inl h
  · exact .inr ⟨j, n, hn, mem_append_left _ hmem⟩

theorem Unifying.bindIndividual (hnz : nz.Unifying I atoms) {i : Iri} (hw : ¬ nz.Future w)
    (hanch : (nz.bindIndividual i w).Anchored atoms w) (hself : nz.representative w = w) :
    (nz.bindIndividual i w).Unifying I atoms := by
  refine ⟨hnz.toScoped.bindIndividual i w hw, hnz.idempotent, hnz.reserved, ?_, ?_,
      hnz.replaced, ?_,
    hnz.headAtoms, hnz.noBody, hnz.noHead⟩
  · intro a ha u hu
    exact (hnz.anchored a ha u hu).bindIndividual i w
  · intro j x hx
    by_cases hj : j = i
    · subst hj
      rw [show x = w by simpa [RuleNormalizerState.bindIndividual, pushBodyWork, eq_comm] using hx]
      change (nz.bindIndividual j w).Anchored atoms (nz.representative w)
      rw [hself]
      exact hanch
    · exact (hnz.individualsAnchored j x
        ((AList.lookup_insert_ne hj).symm.trans hx)).bindIndividual i w
  · intro b hb
    rcases mem_append.mp hb with hb | hb
    · exact hnz.bodyAtoms b hb
    · rw [mem_singleton.mp hb]
      exact .inr (isPushed_nominalAtom i w)

theorem Unifying.freshVariable (hnz : nz.Unifying I atoms) :
    nz.rnFreshVariable.2.Unifying I atoms :=
  ⟨hnz.toScoped.freshVariable, hnz.idempotent, hnz.reserved, hnz.anchored,
    hnz.individualsAnchored, hnz.replaced, hnz.bodyAtoms, hnz.headAtoms, hnz.noBody, hnz.noHead⟩

theorem Unifying.rnVariableFor (hnz : nz.Unifying I atoms)
    (harg : ∀ u ∈ arg.variables, ∃ a ∈ atoms, u ∈ a.objectVariables)
    {r : Iri × RuleNormalizerState} (hok : nz.rnVariableFor arg = .ok r) :
    r.2.Unifying I atoms ∧ r.2.Anchored atoms r.1 ∧ r.2.representative r.1 = r.1 := by
  rcases rnVariableFor_cases hok with ⟨v, rfl, rfl⟩ | ⟨i, v, rfl, hlook, rfl⟩ | ⟨i, rfl, -, rfl⟩
  · obtain ⟨a, ha, hv⟩ := harg v (by simp [IArgument.variables])
    exact ⟨hnz, hnz.anchored a ha v hv, hnz.idempotent v⟩
  · exact ⟨hnz, hnz.individualsAnchored i v hlook, hnz.idempotent v⟩
  · have hself : nz.representative nz.rnFreshVariable.1 = nz.rnFreshVariable.1 := hnz.reserved _
    have hanch : (nz.rnFreshVariable.2.bindIndividual i nz.rnFreshVariable.1).Anchored
        atoms nz.rnFreshVariable.1 :=
      .inr ⟨i, _, rfl, by simp [RuleNormalizerState.bindIndividual, pushBodyWork]⟩
    refine ⟨hnz.freshVariable.bindIndividual not_future_freshVariable hanch hself, ?_,
      hnz.idempotent _⟩
    rw [hself]
    exact hanch

/-- Two states with the same waiting atoms that read them alike. -/
theorem Unifying.holds_congr {nz' : RuleNormalizerState} (hnz : nz.Unifying I atoms)
    (rest : List SwrlAtom) (hnz' : nz'.Unifying I atoms) (hbodyWork : nz'.bodyWork = nz.bodyWork)
    (hheadWork : nz'.headWork = nz.headWork) (h : nz'.substitute val = nz.substitute val') :
    (nz'.BodyHolds I val ↔ nz.BodyHolds I val') ∧
      (nz'.EqualitiesHold I rest val ↔ nz.EqualitiesHold I rest val') ∧
      (nz'.HeadHolds I val ↔ nz.HeadHolds I val') := by
  refine ⟨⟨fun hbody => ⟨by simp [hnz.noBody], ?_⟩, fun hbody => ⟨by simp [hnz'.noBody], ?_⟩⟩, ?_,
    ?_⟩
  · rw [← hbodyWork, ← h]
    exact hbody.waiting
  · rw [hbodyWork, h]
    exact hbody.waiting
  · rw [EqualitiesHold, EqualitiesHold, h]
  · simp only [HeadHolds, h, hnz.noHead, hnz'.noHead, hheadWork, not_mem_nil, false_and,
      exists_false]

/-- One variable is replaced by another. -/
def replace (nz : RuleNormalizerState) (v w : Iri) : RuleNormalizerState :=
  { nz with variableRepresentative := nz.variableRepresentative.insert v w }

theorem representative_replace (v w u : Iri) :
    (nz.replace v w).representative u = if u = v then w else nz.representative u := by
  unfold replace representative
  by_cases hu : u = v
  · rw [if_pos hu, hu, AList.lookup_insert]
    rfl
  · rw [if_neg hu, AList.lookup_insert_ne hu]

theorem Unifying.replace (hatoms : Unreserved atoms) (hnz : nz.Unifying I atoms) {v : Iri}
    (hw : nz.Anchored atoms w) (hself : nz.representative w = w)
    (hv : ∃ a ∈ atoms, v ∈ a.objectVariables) (hjoin : w = nz.representative v ∨
      nz.representative v = v ∧ ∀ u, nz.representative u = v → u = v) :
    (nz.replace v w).Unifying I atoms := by
  obtain ⟨a, ha, hva⟩ := id hv
  have hrsv : ∀ n, swrlVariable n ≠ v :=
    fun n hn => hatoms a ha v (by simp [SwrlAtom.variables, hva]) n hn.symm
  have hanch : ∀ u, nz.Anchored atoms (nz.representative u) →
      (nz.replace v w).Anchored atoms ((nz.replace v w).representative u) := by
    intro u hu
    rw [representative_replace]
    split_ifs
    · exact hw
    · exact hu
  have hfuture : ∀ u, nz.Future u → u ≠ v := by
    rintro u ⟨n, -, rfl⟩
    exact hrsv n
  have hwfuture : ¬ nz.Future w := by
    rintro ⟨n, hn, rfl⟩
    rcases hw with ⟨b, hb, hwb⟩ | ⟨i, m, -, hmem⟩
    · exact hatoms b hb _ (by simp [SwrlAtom.variables, hwb]) n rfl
    · exact hnz.bodyWork _ hmem (swrlVariable n)
        (by simp [nominalAtom, SwrlAtom.variables, SwrlAtom.objectVariables, IArgument.variables])
        ⟨n, hn, rfl⟩
  refine ⟨⟨?_, ?_, hnz.normalizedBody, hnz.normalizedHead, hnz.bodyWork, hnz.headWork, ?_⟩,
    ?_, ?_, fun a ha u hu => hanch u (hnz.anchored a ha u hu),
    fun i x hx => hanch x (hnz.individualsAnchored i x hx), ?_, hnz.bodyAtoms, hnz.headAtoms,
    hnz.noBody, hnz.noHead⟩
  · intro u hu
    rw [representative_replace, if_neg (hfuture u hu)]
    exact hnz.representative_future u hu
  · intro u hu
    rw [representative_replace]
    split_ifs
    · exact hwfuture
    · exact hnz.representative u hu
  · intro i x hx
    obtain ⟨hfut, hpin⟩ := hnz.individuals i x hx
    refine ⟨hfut, hpin.imp id ?_⟩
    rintro ⟨c, hmem, -⟩
    rw [hnz.noBody] at hmem
    cases hmem
  · intro u
    simp only [representative_replace]
    rcases hjoin with hjoin | ⟨-, honly⟩
    · have hsame : ∀ x, (if x = v then w else nz.representative x) = nz.representative x := by
        intro x
        split_ifs with hx
        · rw [hx, hjoin]
        · rfl
      rw [hsame u, hsame, hnz.idempotent]
    · by_cases hu : u = v
      · rw [if_pos hu, hself]
        split_ifs <;> rfl
      · rw [if_neg hu, if_neg fun h => hu (honly u h), hnz.idempotent]
  · intro n
    rw [representative_replace, if_neg (hrsv n)]
    exact hnz.reserved n
  · intro u hu
    rw [representative_replace] at hu
    split_ifs at hu with huv
    · rw [huv]
      exact hv
    · exact hnz.replaced u hu

theorem Unifying.meaning_replace (hatoms : Unreserved atoms) (hsort : WellSorted atoms)
    (hnz : nz.Unifying I atoms) {v : Iri} (hw : nz.Anchored atoms w)
    (hself : nz.representative w = w)
    (hv : ∃ a ∈ atoms, v ∈ a.objectVariables) (hjoin : w = nz.representative v ∨
      nz.representative v = v ∧ ∀ u, nz.representative u = v → u = v) :
    (∀ val, Interp.Respects atoms val → nz.BodyHolds I val → val w = val (nz.representative v) →
      nz.EqualitiesHold I rest val → nz.HeadHolds I val) ↔
    (nz.replace v w).Meaning I atoms rest := by
  have hnz' := hnz.replace hatoms hw hself hv hjoin
  -- the rule before the replacement, at a valuation that equates the two variables
  have hbef : ∀ val val', (nz.replace v w).substitute val = nz.substitute val' →
      (nz.replace v w).BodyHolds I val → (nz.replace v w).EqualitiesHold I rest val →
      (nz.BodyHolds I val' → nz.EqualitiesHold I rest val' → nz.HeadHolds I val') →
        (nz.replace v w).HeadHolds I val := by
    intro val val' hsub hbody heqs h
    obtain ⟨hb, he, hh⟩ := hnz.holds_congr rest hnz' rfl rfl hsub
    exact hh.mpr (h (hb.mp hbody) (he.mp heqs))
  constructor
  · intro h val hval hbody heqs
    by_cases heq : w = nz.representative v
    · refine hbef val val ?_ hbody heqs fun hb he => h val hval hb (by rw [heq]) he
      funext u
      simp only [substitute, representative_replace]
      split_ifs with hu
      · rw [hu, heq]
      · rfl
    · obtain ⟨hroot, honly⟩ := hjoin.resolve_left heq
      have hne : w ≠ v := fun h => heq (h.trans hroot.symm)
      obtain ⟨x, hx⟩ := hnz'.anchored_value hw hval hbody
      let val' := Function.update val v (val w)
      have hself' : val' v = val w := Function.update_self _ _ _
      have hoth : ∀ u, u ≠ v → val' u = val u := fun u hu => Function.update_of_ne hu _ _
      have hsub : (nz.replace v w).substitute val = nz.substitute val' := by
        funext u
        simp only [substitute, representative_replace]
        split_ifs with hu
        · rw [hu, hroot, hself']
        · rw [hoth _ fun h => hu (honly u h)]
      have hval' : Interp.Respects atoms val' := by
        constructor
        · intro a ha u hu
          by_cases huv : u = v
          · exact ⟨x, by rw [huv, hself', hx]⟩
          · rw [hoth u huv]
            exact hval.object a ha u hu
        · intro a ha u hu
          obtain ⟨b, hb, hvb⟩ := hv
          have huv : u ≠ v := by
            rintro rfl
            exact hsort b hb a ha u hvb hu
          rw [hoth u huv]
          exact hval.data a ha u hu
      refine hbef val val' hsub hbody heqs fun hb he => h val' hval' hb ?_ he
      rw [hroot, hself', hoth w hne]
  · intro h val hval hbody heq heqs
    have hsub : (nz.replace v w).substitute val = nz.substitute val := by
      funext u
      simp only [substitute, representative_replace]
      split_ifs with hu
      · rw [hu, heq]
      · rfl
    obtain ⟨hb, he, hh⟩ := hnz.holds_congr rest hnz' rfl rfl hsub
    exact hh.mp (h val hval (hb.mpr hbody) (he.mpr heqs))

theorem Binds.substitute {nz' : RuleNormalizerState} (h : nz.Binds I atoms nz' arg w)
    (val : Iri → Dom ⊕ Val) :
    nz'.substitute val = nz.substitute val := by
  funext u
  simp only [RuleNormalizerState.substitute, representative, h.representatives]

theorem Binds.headHolds {nz' : RuleNormalizerState}
    (h : nz.Binds I atoms nz' arg w) : nz'.HeadHolds I val ↔ nz.HeadHolds I val := by
  rw [HeadHolds, HeadHolds, h.substitute, h.normalizedHead, h.headWork]

theorem not_future_of_mem (hatoms : Unreserved atoms) {a : SwrlAtom} (ha : a ∈ atoms) {u : Iri}
    (hu : u ∈ a.variables) : ¬ nz.Future u := by
  rintro ⟨n, -, rfl⟩
  exact hatoms a ha _ hu n rfl

theorem Unifying.unify (hatoms : Unreserved atoms) (hsort : WellSorted atoms)
    (hnz : nz.Unifying I atoms) {first second : IArgument}
    (hmem : .sameIndividualAtom first second ∈ atoms) (hrest : rest ⊆ atoms)
    (hjoins : ∀ v, second = .variable v → nz.Joins first v) {nz' : RuleNormalizerState}
    (hok : nz.unify first second = .ok nz') :
    nz'.Unifying I atoms ∧
      (nz.Meaning I atoms (.sameIndividualAtom first second :: rest) ↔ nz'.Meaning I atoms rest) :=
  by
  have hfst : ∀ u ∈ first.variables, ∃ a ∈ atoms, u ∈ a.objectVariables :=
    fun u hu => ⟨_, hmem, by simp [SwrlAtom.objectVariables, hu]⟩
  have hsnd : ∀ u ∈ second.variables, ∃ a ∈ atoms, u ∈ a.objectVariables :=
    fun u hu => ⟨_, hmem, by simp [SwrlAtom.objectVariables, hu]⟩
  have hnot : ∀ u, (∃ a ∈ atoms, u ∈ a.objectVariables) → ¬ nz.Future u := by
    rintro u ⟨a, ha, hu⟩
    exact not_future_of_mem hatoms ha (by simp [SwrlAtom.variables, hu])
  simp only [RuleNormalizerState.unify] at hok
  obtain ⟨⟨w, nz₁⟩, hvar, hok⟩ := Library.ok_of_bind hok
  have hbinds : nz.Binds I atoms nz₁ first w :=
    hnz.toScoped.rnVariableFor hatoms (fun u hu => hnot u (hfst u hu)) hvar
  obtain ⟨hnz₁, hanch, hself⟩ := hnz.rnVariableFor hfst hvar
  have hrep : ∀ u, nz₁.representative u = nz.representative u := by
    intro u
    simp only [representative, hbinds.representatives]
  -- the equality, the first argument read as its variable
  have hmean : nz.Meaning I atoms (.sameIndividualAtom first second :: rest) ↔
      ∀ val, Interp.Respects atoms val → nz₁.BodyHolds I val →
        val w = I.iValue (nz₁.substitute val) second → nz₁.EqualitiesHold I rest val →
          nz₁.HeadHolds I val := by
    have hmove := hbinds.meaning (fun val x => x = I.iValue (nz.substitute val) second →
      nz.EqualitiesHold I rest val → nz.HeadHolds I val) (by
        intro val val' x hagr h hx heqs
        rw [← hnz.toScoped.headHolds_congr hagr]
        refine h ?_ ?_
        · rw [hx]
          exact hnz.toScoped.iValue_substitute hagr.symm fun u hu => hnot u (hsnd u hu)
        · intro b hb hsame
          exact (hnz.toScoped.mixedAtom_substitute hagr
            fun u hu => not_future_of_mem hatoms (hrest hb) hu).mpr (heqs b hb hsame))
    simp only [Meaning, EqualitiesHold, forall_mem_cons, isSameIndividualAtom,
      forall_true_left, and_imp, Interp.mixedAtom] at hmove ⊢
    simp only [hbinds.substitute, hbinds.headHolds]
    exact hmove
  rw [hmean]
  cases second with
  | «variable» v =>
    cases hok
    have hjoin : w = nz₁.representative v ∨
        nz₁.representative v = v ∧ ∀ u, nz₁.representative u = v → u = v := by
      simp only [hrep]
      exact (hjoins v rfl).imp (fun h => h _ hvar) id
    have hv := hsnd v (by simp [IArgument.variables])
    exact ⟨hnz₁.replace hatoms hanch hself hv hjoin,
      hnz₁.meaning_replace hatoms hsort hanch hself hv hjoin⟩
  | individual i =>
    cases i with
    | anonymous id => cases hok
    | named i =>
      cases hok
      refine ⟨hnz₁.bindIndividual hbinds.notFuture (hanch.bindIndividual i w) hself, ?_⟩
      change _ ↔ (nz₁.bindIndividual i w).Meaning I atoms rest
      refine forall_congr' fun val => forall_congr' fun _ => ?_
      rw [bodyHolds_bindIndividual hself, and_imp]
      rfl

end RuleNormalizerState

/-! ## Equalities in order -/

/-- What an individual is replaced by after the given equalities, the last of which comes
first. -/
def standsFor : List SwrlAtom → IArgument → IArgument
  | _, .variable v => .variable v
  | [], .individual i => .individual i
  | .sameIndividualAtom first second :: earlier, .individual i =>
    if second = .individual i then standsFor earlier first else standsFor earlier (.individual i)
  | _ :: earlier, .individual i => standsFor earlier (.individual i)

/-- An equality with a second argument that is a variable ties it to what the first stands for. -/
def Tied : List SwrlAtom → IArgument → IArgument → Prop
  | [], _, _ => False
  | .sameIndividualAtom first (.variable v) :: earlier, s, t =>
    s = standsFor earlier first ∧ t = .variable v ∨ Tied earlier s t
  | _ :: earlier, s, t => Tied earlier s t

/-- The equalities make the two arguments equal. -/
def Equated (earlier : List SwrlAtom) : IArgument → IArgument → Prop :=
  Relation.EqvGen (Tied earlier)

theorem Tied.cons {atom : SwrlAtom} {earlier : List SwrlAtom} {s t : IArgument}
    (h : Tied earlier s t) : Tied (atom :: earlier) s t := by
  unfold Tied
  split
  · rename_i heq
    cases heq
  · rename_i heq
    cases heq
    exact .inr h
  · rename_i heq
    cases heq
    exact h

theorem Equated.cons {atom : SwrlAtom} {earlier : List SwrlAtom} {s t : IArgument}
    (h : Equated earlier s t) : Equated (atom :: earlier) s t :=
  h.mono fun _ _ => Tied.cons

/-- An argument that no other is tied to is equal to nothing else. -/
theorem Equated.eq_of_alone {earlier : List SwrlAtom} {p s : IArgument}
    (halone : ∀ s t, Tied earlier s t → (s = p ↔ t = p)) (h : Equated earlier s p) : s = p := by
  have hiff : ∀ s t, Equated earlier s t → (s = p ↔ t = p) := by
    intro s t h
    induction h with
    | rel s t h => exact halone s t h
    | refl s => rfl
    | symm s t _ ih => exact ih.symm
    | trans s t u _ _ ih ih' => exact ih.trans ih'
  exact (hiff s p h).mpr rfl

/-- An individual that no equality mentions. -/
def Unmentioned (earlier : List SwrlAtom) (i : Individ) : Prop :=
  ∀ first second, .sameIndividualAtom first second ∈ earlier →
    first ≠ .individual i ∧ second ≠ .individual i

section

variable {earlier : List SwrlAtom} {i : Individ} (h : Unmentioned earlier i)
include h

theorem Unmentioned.standsFor_iff (arg : IArgument) :
    standsFor earlier arg = .individual i ↔ arg = .individual i := by
  induction earlier generalizing arg with
  | nil => cases arg <;> rfl
  | cons atom earlier ih =>
    have hrest := ih fun first second hmem => h first second (mem_cons_of_mem _ hmem)
    cases arg with
    | «variable» v => rfl
    | individual j =>
      unfold standsFor
      split
      · rename_i heq
        cases heq
      · rename_i heq
        exact heq ▸ Iff.rfl
      · rename_i first second rest k heq heq'
        cases heq
        cases heq'
        obtain ⟨hfst, hsnd⟩ := h first second mem_cons_self
        split_ifs with hj
        · rw [hrest]
          exact iff_of_false hfst fun heq => hsnd (hj.trans heq)
        · exact hrest _
      · rename_i heq heq'
        cases heq
        cases heq'
        exact hrest _

theorem Unmentioned.not_tied {s t : IArgument} (hlinked : Tied earlier s t) :
    s ≠ .individual i ∧ t ≠ .individual i := by
  induction earlier with
  | nil => cases hlinked
  | cons atom earlier ih =>
    have hearl : Unmentioned earlier i :=
      fun first second hmem => h first second (mem_cons_of_mem _ hmem)
    unfold Tied at hlinked
    split at hlinked
    · cases hlinked
    · rename_i heq
      cases heq
      rcases hlinked with ⟨rfl, rfl⟩ | hlinked
      · exact ⟨fun heq => (h _ _ mem_cons_self).1 ((hearl.standsFor_iff _).mp heq), nofun⟩
      · exact ih hearl hlinked
    · rename_i heq
      cases heq
      exact ih hearl hlinked

end

namespace RuleNormalizerState

variable {I : Interp Dom Val} {nz nz' : RuleNormalizerState} {atoms earlier rest : List SwrlAtom}
  {fresh : Individ → Iri}

/-- The variable of an argument, given those made up for individuals. -/
def variableOf (nz : RuleNormalizerState) (fresh : Individ → Iri) : IArgument → Iri
  | .variable v => nz.representative v
  | .individual i => fresh i

/-- The state after the given equalities: arguments that are equated have one variable, and a
variable is equated with what replaces it. -/
structure Recorded (nz : RuleNormalizerState) (earlier : List SwrlAtom) (fresh : Individ → Iri) :
    Prop where
  reserved : ∀ i, ∃ n, fresh i = swrlVariable n
  linked : ∀ s t, Tied earlier s t → nz.variableOf fresh s = nz.variableOf fresh t
  equated : ∀ u, ∃ s, Equated earlier s (.variable u) ∧
    (s = .variable (nz.representative u) ∨ ∃ i, s = .individual i ∧ fresh i = nz.representative u)
  individuals : ∀ i w, nz.individualsToVariables.lookup i = some w →
    nz.representative w = nz.variableOf fresh (standsFor earlier (.individual (.named i)))
  unmentioned : ∀ i, nz.individualsToVariables.lookup i = none → Unmentioned earlier (.named i)

theorem variableOf_update {i : Individ} {w : Iri} {s : IArgument} (hs : s ≠ .individual i) :
    nz.variableOf (Function.update fresh i w) s = nz.variableOf fresh s := by
  cases s with
  | «variable» v => rfl
  | individual j => exact Function.update_of_ne (fun hj => hs (by rw [hj])) _ _

section

variable (h : nz.Recorded earlier fresh)
  (hrsv : ∀ n, nz.representative (swrlVariable n) = swrlVariable n)
include h hrsv

/-- An individual gets the variable of what it stands for, or one that no other argument has. -/
theorem Recorded.rnVariableFor {arg : IArgument} {r : Iri × RuleNormalizerState}
    (hok : nz.rnVariableFor arg = .ok r) :
    ∃ fresh', r.2.Recorded earlier fresh' ∧ r.2.variableRepresentative = nz.variableRepresentative ∧
      r.1 = r.2.variableOf fresh' (standsFor earlier arg) ∧
      ∀ i, arg = .individual (.named i) → r.2.individualsToVariables.lookup i ≠ none := by
  rcases rnVariableFor_cases hok with
    ⟨v, rfl, rfl⟩ | ⟨i, v, rfl, hlook, rfl⟩ | ⟨i, rfl, hlook, rfl⟩
  · refine ⟨fresh, h, rfl, ?_, fun i hi => by cases hi⟩
    rw [standsFor]
    rfl
  · refine ⟨fresh, h, rfl, h.individuals i v hlook, fun j hj => ?_⟩
    cases hj
    rw [hlook]
    exact Option.some_ne_none v
  · have hi := h.unmentioned i hlook
    have hfst : nz.representative nz.rnFreshVariable.1 = nz.rnFreshVariable.1 := hrsv _
    have hself : standsFor earlier (.individual (.named i)) = .individual (.named i) :=
      (hi.standsFor_iff _).mpr rfl
    have hfresh : Function.update fresh (.named i) nz.rnFreshVariable.1 (.named i) =
        nz.rnFreshVariable.1 := Function.update_self _ _ _
    have hupd : ∀ s, s ≠ .individual (.named i) →
        nz.variableOf (Function.update fresh (.named i) nz.rnFreshVariable.1) s =
          nz.variableOf fresh s := fun s => variableOf_update
    refine ⟨Function.update fresh (.named i) nz.rnFreshVariable.1, ⟨fun j => ?_, fun s t hst => ?_,
      fun u => ?_, fun j w hw => ?_, fun j hj => ?_⟩, rfl, ?_, fun j hj => ?_⟩
    · by_cases hj : j = .named i
      · exact ⟨_, by rw [hj, Function.update_self]; rfl⟩
      · rw [Function.update_of_ne hj]
        exact h.reserved j
    · obtain ⟨hs, ht⟩ := hi.not_tied hst
      exact (hupd s hs).trans ((h.linked s t hst).trans (hupd t ht).symm)
    · obtain ⟨s, hs, hcases⟩ := h.equated u
      refine ⟨s, hs, hcases.imp_right ?_⟩
      rintro ⟨j, rfl, hj⟩
      refine ⟨j, rfl, (Function.update_of_ne ?_ _ _).trans hj⟩
      rintro rfl
      have heq := Equated.eq_of_alone (fun s t hst => iff_of_false (hi.not_tied hst).1
        (hi.not_tied hst).2) (Relation.EqvGen.symm _ _ hs)
      cases heq
    · by_cases hj : j = i
      · subst hj
        rw [show w = nz.rnFreshVariable.1 by
          simpa [bindIndividual, pushBodyWork, eq_comm] using hw]
        rw [hself]
        exact hfst.trans hfresh.symm
      · refine (h.individuals j w ((AList.lookup_insert_ne hj).symm.trans hw)).trans
          (hupd _ fun heq => hj ?_).symm
        cases (hi.standsFor_iff _).mp heq
        rfl
    · refine h.unmentioned j ?_
      by_cases hji : j = i
      · rw [hji, hlook]
      · exact (AList.lookup_insert_ne hji).symm.trans hj
    · rw [hself]
      exact hfst.trans hfresh.symm
    · cases hj
      change (AList.insert i _ _).lookup i ≠ none
      rw [AList.lookup_insert]
      exact Option.some_ne_none _

end

/-- Recording an equality with a variable changes the variables of all arguments alike. -/
theorem Recorded.exists_variableOf_replace (h : nz.Recorded earlier fresh) {v w : Iri}
    (hv : ∀ n, v ≠ swrlVariable n) (hjoin : w = nz.representative v ∨
      nz.representative v = v ∧ ∀ u, nz.representative u = v → u = v) :
    ∃ f : Iri → Iri, f w = w ∧
      ∀ s, (nz.replace v w).variableOf fresh s = f (nz.variableOf fresh s) := by
  rcases hjoin with hsame | ⟨hself, honly⟩
  · refine ⟨id, rfl, fun s => ?_⟩
    cases s with
    | «variable» u =>
      change (nz.replace v w).representative u = nz.representative u
      rw [representative_replace]
      split_ifs with hu
      · rw [hu, hsame]
      · rfl
    | individual i => rfl
  · refine ⟨fun u => if u = v then w else u, ite_eq_right_iff.mpr fun h => h ▸ rfl, fun s => ?_⟩
    cases s with
    | «variable» u =>
      change (nz.replace v w).representative u =
        if nz.representative u = v then w else nz.representative u
      rw [representative_replace]
      by_cases hu : u = v
      · rw [if_pos hu, if_pos (hu ▸ hself)]
      · rw [if_neg hu, if_neg fun h => hu (honly u h)]
    | individual i =>
      obtain ⟨n, hn⟩ := h.reserved i
      exact (if_neg fun heq => hv n (heq.symm.trans hn)).symm

theorem Recorded.unify (h : nz.Recorded earlier fresh)
    (hrsv : ∀ n, nz.representative (swrlVariable n) = swrlVariable n)
    (hidempotent : ∀ u, nz.representative (nz.representative u) = nz.representative u)
    {first second : IArgument} (hsnd : ∀ v n, second = .variable v → v ≠ swrlVariable n)
    (hjoins : ∀ v, second = .variable v → nz.Joins first v)
    (hok : nz.unify first second = .ok nz') :
    ∃ fresh', nz'.Recorded (.sameIndividualAtom first second :: earlier) fresh' := by
  simp only [RuleNormalizerState.unify] at hok
  obtain ⟨⟨w, nz₁⟩, hvar, hok⟩ := Library.ok_of_bind hok
  obtain ⟨fresh', h₁, hreps, hw, hlook⟩ := h.rnVariableFor hrsv hvar
  dsimp only at h₁ hreps hw hlook hok
  have hrep : ∀ u, nz₁.representative u = nz.representative u := by
    intro u
    rw [representative, representative, hreps]
  have hunmentioned : ∀ j, nz₁.individualsToVariables.lookup j = none →
      second ≠ .individual (.named j) →
      Unmentioned (.sameIndividualAtom first second :: earlier) (.named j) := by
    intro j hj hne first' second' hmem
    rcases mem_cons.mp hmem with heq | hmem
    · cases heq
      exact ⟨fun hfst => hlook j hfst hj, hne⟩
    · exact h₁.unmentioned j hj first' second' hmem
  cases second with
  | «variable» v =>
    cases hok
    have hjoin : w = nz₁.representative v ∨
        nz₁.representative v = v ∧ ∀ u, nz₁.representative u = v → u = v := by
      simp only [hrep]
      exact (hjoins v rfl).imp_left fun h => h _ hvar
    obtain ⟨f, hf, hvariable⟩ := h₁.exists_variableOf_replace (fun n => hsnd v n rfl) hjoin
    have hlink : Tied (.sameIndividualAtom first (.variable v) :: earlier)
        (standsFor earlier first) (.variable v) := .inl ⟨rfl, rfl⟩
    refine ⟨fresh', h₁.reserved, fun s t hst => ?_, fun u => ?_, fun i x hx => ?_,
      fun j hj => hunmentioned j hj nofun⟩
    · change (nz₁.replace v w).variableOf fresh' s = (nz₁.replace v w).variableOf fresh' t
      rcases hst with ⟨rfl, rfl⟩ | hst
      · rw [hvariable, ← hw, hf]
        exact ((representative_replace v w v).trans (if_pos rfl)).symm
      · rw [hvariable, hvariable, h₁.linked s t hst]
    · change ∃ s : IArgument, Equated _ s _ ∧ (s = .variable ((nz₁.replace v w).representative u) ∨
          ∃ i, s = .individual i ∧ fresh' i = (nz₁.replace v w).representative u)
      rw [representative_replace]
      by_cases hu : u = v
      · subst hu
        rw [if_pos rfl]
        cases hbase : standsFor earlier first with
        | «variable» x =>
          rw [hbase] at hw hlink
          obtain ⟨s, hs, hcases⟩ := h₁.equated x
          refine ⟨s, .trans _ _ _ hs.cons (.rel _ _ hlink), ?_⟩
          rw [hw]
          exact hcases
        | individual i =>
          rw [hbase] at hw hlink
          exact ⟨.individual i, .rel _ _ hlink, .inr ⟨i, rfl, hw.symm⟩⟩
      · rw [if_neg hu]
        obtain ⟨s, hs, hcases⟩ := h₁.equated u
        exact ⟨s, hs.cons, hcases⟩
    · change (nz₁.replace v w).variableOf fresh' (.variable x) = _
      rw [hvariable, variableOf, h₁.individuals i x hx, ← hvariable]
      rfl
  | individual i =>
    cases i with
    | anonymous id => cases hok
    | named i =>
      cases hok
      refine ⟨fresh', h₁.reserved, h₁.linked, fun u => ?_, fun j x hx => ?_, fun j hj => ?_⟩
      · obtain ⟨s, hs, hcases⟩ := h₁.equated u
        exact ⟨s, hs.cons, hcases⟩
      · by_cases hj : j = i
        · subst hj
          rw [show x = w by simpa [pushBodyWork, eq_comm] using hx, standsFor, if_pos rfl]
          change nz₁.representative w = nz₁.variableOf fresh' (standsFor earlier first)
          rw [← hw]
          rcases rnVariableFor_cases hvar with
            ⟨v, -, heq⟩ | ⟨i, v, -, -, heq⟩ | ⟨i, -, -, heq⟩
          all_goals
            cases heq
            exact hidempotent _
        · rw [standsFor, if_neg fun heq => hj (by cases heq; rfl)]
          exact h₁.individuals j x ((AList.lookup_insert_ne hj).symm.trans hx)
      · by_cases hji : j = i
        · subst hji
          change (AList.insert j _ _).lookup j = none at hj
          rw [AList.lookup_insert] at hj
          cases hj
        · refine hunmentioned j ((AList.lookup_insert_ne hji).symm.trans hj) fun heq => hji ?_
          cases heq
          rfl

theorem Recorded.skip (h : nz.Recorded earlier fresh) {atom : SwrlAtom}
    (hatom : isSameIndividualAtom atom = false) : nz.Recorded (atom :: earlier) fresh := by
  cases atom with
  | sameIndividualAtom s t => cases hatom
  | _ =>
    refine ⟨h.reserved, h.linked, fun u => ?_, h.individuals, fun i hi first second hmem => ?_⟩
    · obtain ⟨s, hs, hcases⟩ := h.equated u
      exact ⟨s, hs.cons, hcases⟩
    · refine h.unmentioned i hi first second ((mem_cons.mp hmem).resolve_left fun heq => ?_)
      cases heq

end RuleNormalizerState

end Hermit
