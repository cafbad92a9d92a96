import Hermit.Library.Numbered
import Hermit.Structural.ExpressionSemantics
import Hermit.Structural.RuleNormalization

/-! # The meaning of rules under normalisation

A rule whose variables keep to individuals or to data values is read over valuations
into both.  The state of the normalisation of a rule is read as an implication: the
atoms of the body, normalised or waiting, imply one of those of the head, the waiting
ones under the substitution recorded so far.
-/

namespace Hermit

open List

variable {Dom Val : Type*}

/-! ## Variables of atoms -/

def IArgument.variables : IArgument → List Iri
  | .individual _ => []
  | .variable v => [v]

def DArgument.variables : DArgument → List Iri
  | .literal _ => []
  | .variable v => [v]

namespace SwrlAtom

def objectVariables : SwrlAtom → List Iri
  | .builtInAtom _ _ => []
  | .classAtom _ arg => arg.variables
  | .dataPropertyAtom _ s _ => s.variables
  | .dataRangeAtom _ _ => []
  | .differentIndividualsAtom s t => s.variables ++ t.variables
  | .objectPropertyAtom _ s t => s.variables ++ t.variables
  | .sameIndividualAtom s t => s.variables ++ t.variables

def dataVariables : SwrlAtom → List Iri
  | .builtInAtom _ args => args.flatMap DArgument.variables
  | .dataPropertyAtom _ _ t => t.variables
  | .dataRangeAtom _ t => t.variables
  | _ => []

end SwrlAtom

def SwrlAtom.variables (a : SwrlAtom) : List Iri := a.objectVariables ++ a.dataVariables

/-- No variable stands for an individual in one place and for a data value in another. -/
def WellSorted (atoms : List SwrlAtom) : Prop :=
  ∀ a ∈ atoms, ∀ b ∈ atoms, ∀ v ∈ a.objectVariables, v ∉ b.dataVariables

/-! ## Valuations into individuals and data values -/

namespace Interp

variable (I : Interp Dom Val)

def iValue (val : Iri → Dom ⊕ Val) : IArgument → Dom ⊕ Val
  | .individual i => .inl (I.individuals i)
  | .variable v => val v

def dValue (val : Iri → Dom ⊕ Val) : DArgument → Dom ⊕ Val
  | .literal l => .inr (I.literals l)
  | .variable v => val v

/-- The truth of an atom over values of both kinds. -/
def mixedAtom (val : Iri → Dom ⊕ Val) : SwrlAtom → Prop
  | .builtInAtom pred args => ∃ ds, args.map (I.dValue val) = ds.map .inr ∧ I.builtIns pred ds
  | .classAtom pred arg => ∃ x, I.iValue val arg = .inl x ∧ x ∈ I.expr pred
  | .dataPropertyAtom pred s t =>
    ∃ x d, I.iValue val s = .inl x ∧ I.dValue val t = .inr d ∧ I.dataProperties pred x d
  | .dataRangeAtom pred arg => ∃ d, I.dValue val arg = .inr d ∧ d ∈ I.dataRange pred
  | .differentIndividualsAtom s t => I.iValue val s ≠ I.iValue val t
  | .objectPropertyAtom pred s t =>
    ∃ x y, I.iValue val s = .inl x ∧ I.iValue val t = .inl y ∧ I.role pred x y
  | .sameIndividualAtom s t => I.iValue val s = I.iValue val t

/-- The valuation gives the variables of a rule values of the kinds they stand for. -/
structure Respects (atoms : List SwrlAtom) (val : Iri → Dom ⊕ Val) : Prop where
  object : ∀ a ∈ atoms, ∀ v ∈ a.objectVariables, ∃ x, val v = .inl x
  data : ∀ a ∈ atoms, ∀ v ∈ a.dataVariables, ∃ d, val v = .inr d

variable {I} {val val' : Iri → Dom ⊕ Val}

theorem iValue_congr {arg : IArgument} (h : ∀ v ∈ arg.variables, val v = val' v) :
    I.iValue val arg = I.iValue val' arg := by
  cases arg with
  | individual i => rfl
  | «variable» v => exact h v (by simp [IArgument.variables])

theorem dValue_congr {arg : DArgument} (h : ∀ v ∈ arg.variables, val v = val' v) :
    I.dValue val arg = I.dValue val' arg := by
  cases arg with
  | literal l => rfl
  | «variable» v => exact h v (by simp [DArgument.variables])

theorem mixedAtom_congr {a : SwrlAtom} (h : ∀ v ∈ a.variables, val v = val' v) :
    I.mixedAtom val a ↔ I.mixedAtom val' a := by
  simp only [SwrlAtom.variables, mem_append, or_imp, forall_and] at h
  cases a with
  | builtInAtom pred args =>
    have hmap : args.map (I.dValue val) = args.map (I.dValue val') := by
      apply map_congr_left
      intro arg harg
      exact dValue_congr fun v hv => h.2 v (mem_flatMap.mpr ⟨arg, harg, hv⟩)
    simp only [mixedAtom, hmap]
  | classAtom pred arg =>
    simp only [mixedAtom, iValue_congr (I := I) h.1]
  | dataPropertyAtom pred s t =>
    simp only [mixedAtom, iValue_congr (I := I) h.1, dValue_congr (I := I) h.2]
  | dataRangeAtom pred t =>
    simp only [mixedAtom, dValue_congr (I := I) h.2]
  | differentIndividualsAtom s t | objectPropertyAtom pred s t | sameIndividualAtom s t =>
    simp only [SwrlAtom.objectVariables, mem_append, or_imp, forall_and] at h
    simp only [mixedAtom, iValue_congr (I := I) h.1.1, iValue_congr (I := I) h.1.2]

section sorted

end sorted

end Interp

/-! ## The meaning of a state -/

theorem swrlVariable_inj {m n : ℕ} : swrlVariable m = swrlVariable n ↔ m = n :=
  append_repr_inj _

namespace RuleNormalizerState

variable (I : Interp Dom Val) (nz : RuleNormalizerState)

/-- The valuation of the variables of the rule, through the substitution recorded so far. -/
def substitute (val : Iri → Dom ⊕ Val) (v : Iri) : Dom ⊕ Val := val (nz.representative v)

/-- The atoms of the body, normalised and waiting. -/
structure BodyHolds (val : Iri → Dom ⊕ Val) : Prop where
  normalized : ∀ b ∈ nz.normalizedBodyAtoms, I.mixedAtom val b
  waiting : ∀ b ∈ nz.bodyWork, I.mixedAtom (nz.substitute val) b

/-- One of the atoms of the head, normalised or waiting. -/
def HeadHolds (val : Iri → Dom ⊕ Val) : Prop :=
  (∃ h ∈ nz.normalizedHeadAtoms, I.mixedAtom val h) ∨
    ∃ h ∈ nz.headWork, I.mixedAtom (nz.substitute val) h

/-- A variable that has not been made up yet. -/
def Future (u : Iri) : Prop := ∃ n, nz.newVariableIndex ≤ n ∧ u = swrlVariable n

/-- The body says which individual a variable stands for. -/
def Pinned (i w : Iri) : Prop :=
  nominalAtom i w ∈ nz.bodyWork ∨
    ∃ c, .classAtom (.class c) (.variable (nz.representative w)) ∈ nz.normalizedBodyAtoms ∧
      I.classes c = {I.individuals (.named i)}

/-- No atom has a variable that has not been made up yet, and the variables of individuals are
pinned to them. -/
structure Scoped : Prop where
  representative_future : ∀ u, nz.Future u → nz.representative u = u
  representative : ∀ u, ¬ nz.Future u → ¬ nz.Future (nz.representative u)
  normalizedBody : ∀ b ∈ nz.normalizedBodyAtoms, ∀ u ∈ b.variables, ¬ nz.Future u
  normalizedHead : ∀ h ∈ nz.normalizedHeadAtoms, ∀ u ∈ h.variables, ¬ nz.Future u
  bodyWork : ∀ b ∈ nz.bodyWork, ∀ u ∈ b.variables, ¬ nz.Future u
  headWork : ∀ h ∈ nz.headWork, ∀ u ∈ h.variables, ¬ nz.Future u
  individuals : ∀ i w, nz.individualsToVariables.lookup i = some w →
    ¬ nz.Future w ∧ nz.Pinned I i w

/-- The valuations agree on the variables made up so far. -/
def Agree (val val' : Iri → Dom ⊕ Val) : Prop := ∀ u, ¬ nz.Future u → val u = val' u

variable {I nz} {val val' : Iri → Dom ⊕ Val}

theorem Agree.symm (h : nz.Agree val val') : nz.Agree val' val := fun u hu => (h u hu).symm

variable {arg : IArgument} {atoms : List SwrlAtom}

section

variable (hnz : nz.Scoped I) (h : nz.Agree val val')
include hnz h

theorem Scoped.iValue_substitute (harg : ∀ u ∈ arg.variables, ¬ nz.Future u) :
    I.iValue (nz.substitute val) arg = I.iValue (nz.substitute val') arg :=
  Interp.iValue_congr fun u hu => h _ (hnz.representative u (harg u hu))

theorem Scoped.mixedAtom_substitute {a : SwrlAtom} (ha : ∀ u ∈ a.variables, ¬ nz.Future u) :
    I.mixedAtom (nz.substitute val) a ↔ I.mixedAtom (nz.substitute val') a :=
  Interp.mixedAtom_congr fun u hu => h _ (hnz.representative u (ha u hu))

theorem Scoped.bodyHolds_congr (hbody : nz.BodyHolds I val) : nz.BodyHolds I val' where
  normalized b hb := (Interp.mixedAtom_congr fun u hu => h u (hnz.normalizedBody b hb u hu)).mp
    (hbody.normalized b hb)
  waiting b hb := (hnz.mixedAtom_substitute h (hnz.bodyWork b hb)).mp (hbody.waiting b hb)

theorem Scoped.headHolds_congr : nz.HeadHolds I val ↔ nz.HeadHolds I val' := by
  unfold HeadHolds
  simp only [← exists_prop]
  exact or_congr (exists₂_congr fun a ha => Interp.mixedAtom_congr fun u hu =>
        h u (hnz.normalizedHead a ha u hu))
    (exists₂_congr fun a ha => hnz.mixedAtom_substitute h (hnz.headWork a ha))

end

theorem Pinned.value {i w : Iri} (h : nz.Pinned I i w) (hbody : nz.BodyHolds I val) :
    val (nz.representative w) = .inl (I.individuals (.named i)) := by
  rcases h with hwork | ⟨c, hmem, hc⟩
  · obtain ⟨x, hx, hmem⟩ := hbody.waiting _ hwork
    simp only [Interp.mem_expr_oneOf, mem_singleton, exists_eq_left] at hmem
    rw [← hmem]
    exact hx
  · obtain ⟨x, hx, hmem⟩ := hbody.normalized _ hmem
    rw [Interp.mem_expr_class, hc, Set.mem_singleton_iff] at hmem
    rw [← hmem]
    exact hx

/-! ## Variables for arguments -/

/-- The state after an individual was bound to a variable. -/
def bindIndividual (nz : RuleNormalizerState) (i w : Iri) : RuleNormalizerState :=
  { nz with individualsToVariables := nz.individualsToVariables.insert i w }.pushBodyWork
    (nominalAtom i w)

variable {r : Iri × RuleNormalizerState}

/-- An argument is a variable, an individual with a variable, or one that gets a fresh variable. -/
theorem rnVariableFor_cases (hok : nz.rnVariableFor arg = .ok r) :
    (∃ v, arg = .variable v ∧ r = (nz.representative v, nz)) ∨
    (∃ i v, arg = .individual (.named i) ∧ nz.individualsToVariables.lookup i = some v ∧
      r = (nz.representative v, nz)) ∨
    ∃ i, arg = .individual (.named i) ∧ nz.individualsToVariables.lookup i = none ∧
      r = (nz.representative nz.rnFreshVariable.1,
        nz.rnFreshVariable.2.bindIndividual i nz.rnFreshVariable.1) := by
  cases arg with
  | «variable» v =>
    cases hok
    exact .inl ⟨v, rfl, rfl⟩
  | individual i =>
    cases i with
    | anonymous id => cases hok
    | named i =>
      simp only [RuleNormalizerState.rnVariableFor, requireNamedIri, bind, Except.bind] at hok
      cases hlook : nz.individualsToVariables.lookup i with
      | some existing =>
        rw [hlook] at hok
        cases hok
        exact .inr (.inl ⟨i, existing, rfl, hlook, rfl⟩)
      | none =>
        rw [hlook] at hok
        cases hok
        exact .inr (.inr ⟨i, rfl, hlook, rfl⟩)

variable (I nz) in
/-- The state after an argument was given a variable: a statement about its value is one about
the value of the variable. -/
structure Binds (atoms : List SwrlAtom) (nz' : RuleNormalizerState) (arg : IArgument) (v : Iri) :
    Prop where
  inScope : nz'.Scoped I
  representatives : nz'.variableRepresentative = nz.variableRepresentative
  normalizedBody : nz'.normalizedBodyAtoms = nz.normalizedBodyAtoms
  normalizedHead : nz'.normalizedHeadAtoms = nz.normalizedHeadAtoms
  headWork : nz'.headWork = nz.headWork
  bodyDataRangeVariables : nz'.bodyDataRangeVariables = nz.bodyDataRangeVariables
  future : ∀ u, nz'.Future u → nz.Future u
  notFuture : ¬ nz'.Future v
  meaning : ∀ P : (Iri → Dom ⊕ Val) → Dom ⊕ Val → Prop,
    (∀ val val' x, nz.Agree val val' → P val x → P val' x) →
    ((∀ val, Interp.Respects atoms val → nz.BodyHolds I val →
        P val (I.iValue (nz.substitute val) arg)) ↔
      ∀ val, Interp.Respects atoms val → nz'.BodyHolds I val → P val (val v))

/-- The variables of the rule are not among those that normalisation makes up. -/
def Unreserved (atoms : List SwrlAtom) : Prop :=
  ∀ a ∈ atoms, ∀ v ∈ a.variables, ∀ n, v ≠ swrlVariable n

theorem respects_update (hatoms : Unreserved atoms) (hval : Interp.Respects atoms val) (n : ℕ)
    (x : Dom ⊕ Val) :
    Interp.Respects atoms (Function.update val (swrlVariable n) x) := by
  constructor
  · intro a ha v hv
    rw [Function.update_of_ne (hatoms a ha v (by simp [SwrlAtom.variables, hv]) n)]
    exact hval.object a ha v hv
  · intro a ha v hv
    rw [Function.update_of_ne (hatoms a ha v (by simp [SwrlAtom.variables, hv]) n)]
    exact hval.data a ha v hv

/-- The state after a variable was made up. -/
theorem Scoped.freshVariable (hnz : nz.Scoped I) : nz.rnFreshVariable.2.Scoped I := by
  have hfuture : ∀ u, ¬ nz.Future u → ¬ nz.rnFreshVariable.2.Future u := by
    rintro u hu ⟨n, hn, rfl⟩
    exact hu ⟨n, Nat.le_of_succ_le hn, rfl⟩
  constructor
  · rintro u ⟨n, hn, rfl⟩
    exact hnz.representative_future _ ⟨n, Nat.le_of_succ_le hn, rfl⟩
  · intro u hu
    by_cases hold : nz.Future u
    · have hrep : nz.rnFreshVariable.2.representative u = u := hnz.representative_future u hold
      rw [hrep]
      exact hu
    · exact hfuture _ (hnz.representative u hold)
  · intro b hb u hu
    exact hfuture u (hnz.normalizedBody b hb u hu)
  · intro b hb u hu
    exact hfuture u (hnz.normalizedHead b hb u hu)
  · intro b hb u hu
    exact hfuture u (hnz.bodyWork b hb u hu)
  · intro b hb u hu
    exact hfuture u (hnz.headWork b hb u hu)
  · intro i w hw
    exact ⟨hfuture w (hnz.individuals i w hw).1, (hnz.individuals i w hw).2⟩

theorem not_future_freshVariable : ¬ nz.rnFreshVariable.2.Future nz.rnFreshVariable.1 := by
  rintro ⟨n, hn, heq⟩
  have heq' := swrlVariable_inj.mp heq
  have hle : nz.newVariableIndex + 1 ≤ n := hn
  omega

theorem future_freshVariable : nz.Future nz.rnFreshVariable.1 := ⟨_, le_rfl, rfl⟩

/-- Waiting for a nominal over a variable that exists, and recording it for the individual. -/
theorem Scoped.bindIndividual (hnz : nz.Scoped I) (i w : Iri) (hw : ¬ nz.Future w) :
    (nz.bindIndividual i w).Scoped I := by
  refine ⟨hnz.representative_future, hnz.representative, hnz.normalizedBody, hnz.normalizedHead,
    ?_, hnz.headWork, ?_⟩
  · intro b hb u hu
    rcases mem_append.mp hb with hb | hb
    · exact hnz.bodyWork b hb u hu
    · rw [mem_singleton.mp hb] at hu
      simp only [SwrlAtom.variables, nominalAtom, SwrlAtom.objectVariables,
        SwrlAtom.dataVariables, IArgument.variables, append_nil, mem_singleton] at hu
      rw [hu]
      exact hw
  · intro j x hx
    by_cases hj : j = i
    · subst hj
      rw [show x = w by simpa [RuleNormalizerState.bindIndividual, pushBodyWork, eq_comm] using hx]
      exact ⟨hw, .inl (by simp [RuleNormalizerState.bindIndividual, pushBodyWork])⟩
    · have hx' : nz.individualsToVariables.lookup j = some x :=
        (AList.lookup_insert_ne hj).symm.trans hx
      obtain ⟨hfut, hpin⟩ := hnz.individuals j x hx'
      exact ⟨hfut, hpin.imp (mem_append_left _) id⟩

theorem bodyHolds_bindIndividual {i w : Iri} (hself : nz.representative w = w) :
    (nz.bindIndividual i w).BodyHolds I val ↔
      nz.BodyHolds I val ∧ val w = .inl (I.individuals (.named i)) := by
  constructor
  · intro h
    refine ⟨⟨h.normalized, fun b hb => h.waiting b (mem_append_left _ hb)⟩, ?_⟩
    have hpinned : (nz.bindIndividual i w).Pinned I i w :=
      .inl (by simp [bindIndividual, pushBodyWork])
    rw [← hself]
    exact hpinned.value h
  · rintro ⟨h, hval⟩
    refine ⟨h.normalized, fun b hb => ?_⟩
    rcases mem_append.mp hb with hb | hb
    · exact h.waiting b hb
    · rw [mem_singleton.mp hb]
      refine ⟨I.individuals (.named i), ?_, by simp⟩
      change val (nz.representative w) = _
      rw [hself, hval]

variable (hatoms : Unreserved atoms) (hnz : nz.Scoped I)
include hatoms hnz

theorem Scoped.binds_freshVariable (i : Iri) :
    let fresh := nz.rnFreshVariable.1
    let nz' := nz.rnFreshVariable.2.bindIndividual i fresh
    nz.Binds I atoms nz' (.individual (.named i)) (nz.representative fresh) := by
  intro fresh nz'
  have hscope : nz'.Scoped I := hnz.freshVariable.bindIndividual i fresh not_future_freshVariable
  have hrep : nz.representative fresh = fresh :=
    hnz.representative_future fresh future_freshVariable
  have hbody : ∀ val, nz'.BodyHolds I val ↔
      nz.BodyHolds I val ∧ val fresh = .inl (I.individuals (.named i)) := by
    intro val
    have hbind : nz'.BodyHolds I val ↔ nz.rnFreshVariable.2.BodyHolds I val ∧
        val fresh = .inl (I.individuals (.named i)) := bodyHolds_bindIndividual hrep
    rw [hbind]
    exact and_congr_left fun _ => ⟨fun h => ⟨h.normalized, h.waiting⟩,
      fun h => ⟨h.normalized, h.waiting⟩⟩
  rw [hrep]
  refine ⟨hscope, rfl, rfl, rfl, rfl, rfl, ?_, not_future_freshVariable, fun P hP => ?_⟩
  · rintro u ⟨n, hn, rfl⟩
    exact ⟨n, Nat.le_of_succ_le hn, rfl⟩
  · constructor
    · intro h val hval hb
      obtain ⟨hb, hfresh⟩ := (hbody val).mp hb
      rw [hfresh]
      exact h val hval hb
    · intro h val hval hb
      -- the value of the individual is given to the new variable
      let val' := Function.update val fresh (.inl (I.individuals (.named i)))
      have hagr : nz.Agree val val' := by
        intro u hu
        refine (Function.update_of_ne ?_ _ _).symm
        rintro rfl
        exact hu future_freshVariable
      have hself : val' fresh = .inl (I.individuals (.named i)) := Function.update_self _ _ _
      have hP' := h val' (respects_update hatoms hval _ _)
        ((hbody val').mpr ⟨hnz.bodyHolds_congr hagr hb, hself⟩)
      rw [hself] at hP'
      exact hP _ _ _ hagr.symm hP'

theorem Scoped.rnVariableFor (harg : ∀ u ∈ arg.variables, ¬ nz.Future u)
    (hok : nz.rnVariableFor arg = .ok r) : nz.Binds I atoms r.2 arg r.1 := by
  rcases rnVariableFor_cases hok with ⟨v, rfl, rfl⟩ | ⟨i, v, rfl, hlook, rfl⟩ | ⟨i, rfl, -, rfl⟩
  · exact ⟨hnz, rfl, rfl, rfl, rfl, rfl, fun _ h => h,
      hnz.representative v (harg v (by simp [IArgument.variables])), fun P _ => Iff.rfl⟩
  · obtain ⟨hfut, hpin⟩ := hnz.individuals i v hlook
    refine ⟨hnz, rfl, rfl, rfl, rfl, rfl, fun _ h => h, hnz.representative _ hfut, fun P _ => ?_⟩
    refine forall_congr' fun val => forall_congr' fun _ => forall_congr' fun hbody => ?_
    rw [hpin.value hbody]
    rfl
  · exact hnz.binds_freshVariable hatoms i

end RuleNormalizerState

end Hermit
