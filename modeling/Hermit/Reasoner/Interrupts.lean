import Hermit.Reasoner.RunCalculus

/-! # Interrupted tests

The driver reports an interrupt exactly when one of the polls of its run found the flag
raised, and the tests take that report for an answer.
-/

namespace Hermit

variable {σ α β : Type}

/-! ## What the driver reports -/

namespace PolledTableau

variable {t t' t'' : PolledTableau σ}

/-- The polls after a state are those up to a later one and those from there on. -/
theorem raisedBetween_iff (hflag : t'.flag = t.flag) (hpolls : t.polls ≤ t'.polls)
    (hpolls' : t'.polls ≤ t''.polls) :
    t.RaisedBetween t'' ↔ t.RaisedBetween t' ∨ t'.RaisedBetween t'' := by
  constructor
  · rintro ⟨k, hle, hlt, hk⟩
    by_cases h : k < t'.polls
    · exact .inl ⟨k, hle, h, hk⟩
    · exact .inr ⟨k, not_lt.mp h, hlt, by rwa [hflag]⟩
  · rintro (⟨k, hle, hlt, hk⟩ | ⟨k, hle, hlt, hk⟩)
    · exact ⟨k, hle, hlt.trans_le hpolls', hk⟩
    · exact ⟨k, hpolls.trans hle, hlt, by rwa [hflag] at hk⟩

theorem not_raisedBetween_of_polls_eq (h : t'.polls = t.polls) : ¬ t.RaisedBetween t' := by
  rintro ⟨k, hle, hlt, -⟩
  omega

namespace Latches

theorem refl (t : PolledTableau σ) : t.Latches t :=
  ⟨rfl, le_rfl, by simp [not_raisedBetween_of_polls_eq]⟩

theorem trans (h : t.Latches t') (h' : t'.Latches t'') : t.Latches t'' := by
  refine ⟨h'.flag.trans h.flag, h.polls.trans h'.polls, ?_⟩
  rw [h'.pending, h.pending, raisedBetween_iff h.flag h.polls h'.polls, not_or, and_assoc]

end Latches

end PolledTableau

namespace TableauM

variable {x : TableauM σ α} {f : α → TableauM σ β}

/-- A result of two computations is one of the second after one of the first. -/
theorem exists_of_bind {t t'' : PolledTableau σ} {b : β}
    (h : (x >>= f) t = some (b, t'')) : ∃ a t', x t = some (a, t') ∧ f a t' = some (b, t'') := by
  obtain ⟨⟨a, t'⟩, hx, hf⟩ := Option.bind_eq_some_iff.mp h
  exact ⟨a, t', hx, hf⟩

theorem exists_of_map {f : α → β} {t t' : PolledTableau σ} {b : β}
    (h : (f <$> x) t = some (b, t')) :
    ∃ a, x t = some (a, t') ∧ f a = b := by
  rw [map_eq_pure_bind] at h
  obtain ⟨a, s, hx, h⟩ := exists_of_bind h
  cases h
  exact ⟨a, hx, rfl⟩

theorem Latching.pure (a : α) : (pure a : TableauM σ α).Latching := by
  intro t b t' h
  cases h
  exact .refl t

theorem Latching.bind (hx : x.Latching) (hf : ∀ a, (f a).Latching) : (x >>= f).Latching := by
  intro t b t'' h
  obtain ⟨a, t', hxa, hfa⟩ := exists_of_bind h
  exact (hx t a t' hxa).trans (hf a t' b t'' hfa)

theorem latching_failure : (failure : TableauM σ α).Latching := by
  intro t a t' h
  cases h

theorem latching_get : (get : TableauM σ (PolledTableau σ)).Latching := by
  intro t a t' h
  cases h
  exact .refl t

theorem latching_noteInterrupt : (noteInterrupt : TableauM σ Unit).Latching := by
  intro t a t' h
  unfold noteInterrupt at h
  cases hp : t.pendingInterrupt with
  | some e =>
    rw [hp] at h
    cases h
    exact .refl t
  | none =>
    rw [hp] at h
    cases h
    refine ⟨rfl, Nat.le_succ _, ?_⟩
    have hraised : t.RaisedBetween
      { t with pendingInterrupt := t.flag t.polls, polls := t.polls + 1 } ↔
        t.flag t.polls ≠ none := by
      constructor
      · rintro ⟨k, hle, hlt, hk⟩
        obtain rfl : k = t.polls := by
          have hlt : k < t.polls + 1 := hlt
          omega
        exact hk
      · exact fun h => ⟨t.polls, le_rfl, Nat.lt_succ_self _, h⟩
    simp [hp, hraised]

end TableauM

namespace Calculus

open TableauM

variable {C : Calculus σ}

theorem latching_clash : C.clash.Latching := latching_get.bind fun _ => .pure _

theorem latching_unlessClash {x : TableauM σ Unit} (hx : x.Latching) :
    (C.unlessClash x).Latching := by
  apply latching_clash.bind
  intro clash
  cases clash
  · exact hx
  · exact .pure _

theorem latching_triedUnlessClash {x : TableauM σ Bool} (hx : x.Latching) :
    (C.triedUnlessClash x).Latching := by
  apply latching_clash.bind
  intro clash
  cases clash
  · exact hx
  · exact .pure _

theorem latching_whenSet {flag : σ → Bool} {x : TableauM σ Unit} (hx : x.Latching) :
    (whenSet flag x).Latching := by
  apply latching_get.bind
  intro t
  split
  · exact hx
  · exact .pure _

theorem latching_applyAdditional : C.applyAdditional.Latching := by
  unfold applyAdditional
  split
  · next apply _ => exact latching_unlessClash apply.2
  · exact .pure _

theorem latching_round : C.round.Latching := by
  apply (latching_unlessClash C.checkGraphConstraints.2).bind
  intro _
  apply C.applyDlClauses.2.bind
  intro _
  apply latching_applyAdditional.bind
  intro _
  apply (latching_whenSet (latching_unlessClash C.applyUnknownDatatypeRestrictionSemantics.2)).bind
  intro _
  apply (latching_whenSet (latching_unlessClash C.checkDatatypeConstraints.2)).bind
  intro _
  exact latching_unlessClash C.processAnnotatedEqualities.2

theorem latching_rounds (fuel : ℕ) : (C.rounds fuel).Latching := by
  induction fuel with
  | zero => exact latching_failure
  | succ fuel ih =>
    apply C.propagateDeltaNewAll.2.bind
    intro propagated
    apply latching_clash.bind
    intro clash
    split
    · apply latching_round.bind
      intro _
      exact ih.bind fun _ => .pure _
    · exact .pure _

theorem latching_doIteration (fuel : ℕ) : (C.doIteration fuel).Latching := by
  apply latching_noteInterrupt.bind
  intro _
  apply (latching_triedUnlessClash (C.processAnnotatedEqualities.2.bind fun _ =>
      latching_rounds fuel)).bind
  intro changed
  split
  · exact .pure _
  · apply (latching_triedUnlessClash C.expandExistentials.2).bind
    intro expanded
    split
    · exact .pure _
    · apply (latching_triedUnlessClash C.processFirstGroundDisjunction.2).bind
      intro processed
      split
      · exact .pure _
      · apply latching_clash.bind
        intro clash
        split
        · exact C.backtrackOnClash.2
        · exact .pure _

theorem latching_iterate (exact : Bool) (fuel : ℕ) : (C.iterate exact fuel).Latching := by
  apply (latching_doIteration fuel).bind
  intro worked
  split
  · exact latching_triedUnlessClash C.expandExistentialsFinalChance.2
  · exact .pure _

theorem takePendingInterrupt_bind {f : Option InterruptError → TableauM σ α} (t : PolledTableau σ) :
    (takePendingInterrupt >>= f) t = f t.pendingInterrupt { t with pendingInterrupt := none } :=
  rfl

/-- The loop ends with an interrupt that it was given or that was raised, or without any. -/
theorem saturate_spec {exact : Bool} {fuel : ℕ} {t t' : PolledTableau σ} {r : Option InterruptError}
    (h : C.saturate exact fuel t = some (r, t')) :
    t'.flag = t.flag ∧ t.polls ≤ t'.polls ∧ (r = none → t.Latches t') ∧
      (r ≠ none → t.pendingInterrupt = none → t.RaisedBetween t') := by
  induction fuel generalizing t with
  | zero => cases h
  | succ fuel ih =>
    rw [saturate, takePendingInterrupt_bind] at h
    cases hp : t.pendingInterrupt with
    | some e =>
      rw [hp] at h
      cases h
      refine ⟨rfl, le_rfl, ?_, ?_⟩ <;> simp
    | none =>
      have hsame : { t with pendingInterrupt := none } = t := by rw [← hp]
      rw [hp, hsame] at h
      obtain ⟨more, s, hwork, hrest⟩ := exists_of_bind h
      have hlatch := latching_iterate exact fuel t more s hwork
      cases more with
      | false =>
        cases hrest
        exact ⟨hlatch.flag, hlatch.polls, fun _ => hlatch, fun hr => absurd rfl hr⟩
      | true =>
        obtain ⟨hflag, hpolls, hnone, hsome⟩ := ih hrest
        refine ⟨hflag.trans hlatch.flag, hlatch.polls.trans hpolls,
          fun hr => hlatch.trans (hnone hr), fun hr _ => ?_⟩
        rw [PolledTableau.raisedBetween_iff hlatch.flag hlatch.polls hpolls]
        by_cases hpend : s.pendingInterrupt = none
        · exact .inr (hsome hr hpend)
        · refine .inl (by_contra fun hquiet => hpend ?_)
          exact hlatch.pending.mpr ⟨hp, hquiet⟩

theorem latching_finish : C.finish.Latching := by
  apply (latching_unlessClash
    (C.existentialStrategyModelFound.2.bind fun _ => C.cacheModelSignatures.2)).bind
  intro _
  exact latching_noteInterrupt

/-- The driver reports an interrupt exactly when one of its polls found the flag raised. -/
theorem runCalculus_spec {fuel : ℕ} {t t' : PolledTableau σ} {r : Except InterruptError Bool}
    (h : C.runCalculus fuel t = some (r, t')) :
    t'.flag = t.flag ∧ t.polls ≤ t'.polls ∧ ((∃ e, r = .error e) ↔ t.RaisedBetween t') := by
  unfold runCalculus at h
  obtain ⟨_, _, hst, h⟩ := exists_of_bind h
  cases hst
  obtain ⟨_, _, hget, h⟩ := exists_of_bind h
  cases hget
  obtain ⟨taken, s, hsaturate, h⟩ := exists_of_bind h
  obtain ⟨hflag, hpolls, hnone, hsome⟩ := saturate_spec hsaturate
  cases taken with
  | some e =>
    cases h
    exact ⟨hflag, hpolls, fun _ => hsome (by simp) rfl, fun _ => ⟨e, rfl⟩⟩
  | none =>
    have hlatch := hnone rfl
    dsimp only at h
    rw [takePendingInterrupt_bind] at h
    have hs : s.pendingInterrupt = none ↔ ¬ t.RaisedBetween s :=
      hlatch.pending.trans (and_iff_right rfl)
    cases hp : s.pendingInterrupt with
    | some e =>
      rw [hp] at h
      cases h
      refine ⟨hflag, hpolls, fun _ => ?_, fun _ => ⟨e, rfl⟩⟩
      by_contra hquiet
      rw [hs.mpr hquiet] at hp
      cases hp
    | none =>
      have hsame : { s with pendingInterrupt := none } = s := by rw [← hp]
      rw [hp, hsame] at h
      obtain ⟨_, s', hfinish, h⟩ := exists_of_bind h
      have hlatch' := latching_finish s _ s' hfinish
      have hboth : s'.pendingInterrupt = none ↔ ¬ t.RaisedBetween s' :=
        (hlatch.trans hlatch').pending.trans (and_iff_right rfl)
      rw [takePendingInterrupt_bind] at h
      have hflag' := hlatch'.flag.trans hflag
      have hpolls' := hpolls.trans hlatch'.polls
      cases hp' : s'.pendingInterrupt with
      | some e =>
        rw [hp'] at h
        cases h
        refine ⟨hflag', hpolls', fun _ => ?_, fun _ => ⟨e, rfl⟩⟩
        by_contra hquiet
        rw [hboth.mpr hquiet] at hp'
        cases hp'
      | none =>
        rw [hp'] at h
        cases h
        refine ⟨hflag', hpolls', ?_, fun hraised => absurd hraised (hboth.mp hp')⟩
        rintro ⟨e, he⟩
        cases he

/-! ## The run that decides a test -/

end Calculus

/-- A run of the calculus with the states it starts and stops in. -/
structure CalculusRun (σ : Type) where
  start : PolledTableau σ
  result : Except InterruptError Bool
  stop : PolledTableau σ

/-- The interrupt fired at one of the polls of the run. -/
def CalculusRun.Interrupted (run : CalculusRun σ) : Prop := run.start.RaisedBetween run.stop

namespace Calculus

open TableauM

variable (C : Calculus σ)

def recordedRun (fuel : ℕ) : TableauM σ (CalculusRun σ) := do
  let start ← get
  let result ← C.runCalculus fuel
  let stop ← get
  pure ⟨start, result, stop⟩

/-- The run of a test that loads its facts first; there is none when they clash. -/
def testRun (fuel : ℕ) (load : TableauM σ Unit) : TableauM σ (Option (CalculusRun σ)) := do
  load
  if ← C.clash then pure none else some <$> C.recordedRun fuel

/-- The run whose result is the answer of a test of the concepts. -/
def decidingRun (fuel : ℕ) (reused : Bool) (concepts : List LiteralConcept) :
    TableauM σ (Option (CalculusRun σ)) :=
  Option.join <$> C.runTest fuel reused (C.testRun fuel (C.assertOnFreshNode concepts))

variable {C}

theorem runCalculus_eq (fuel : ℕ) : C.runCalculus fuel =
    CalculusRun.result <$> C.recordedRun fuel := by
  simp [recordedRun]

variable {fuel : ℕ} {reused answer : Bool} {concepts : List LiteralConcept}

theorem recordedRun_interrupted {t t' : PolledTableau σ} {run : CalculusRun σ}
    (h : C.recordedRun fuel t = some (run, t')) : (∃ e, run.result = .error e) ↔
    run.Interrupted := by
  obtain ⟨_, _, hget, h⟩ := exists_of_bind h
  cases hget
  obtain ⟨result, s, hrun, h⟩ := exists_of_bind h
  cases h
  exact (runCalculus_spec hrun).2.2

variable {run : Option (CalculusRun σ)}

/-- The run of a test reports an interrupt exactly when the interrupt fired. -/
theorem testRun_interrupted {load : TableauM σ Unit} {t t' : PolledTableau σ}
    (h : C.testRun fuel load t = some (run, t')) :
    ∀ r ∈ run, (∃ e, r.result = .error e) ↔ r.Interrupted := by
  obtain ⟨_, s, -, h⟩ := exists_of_bind h
  obtain ⟨clash, s', -, h⟩ := exists_of_bind h
  cases clash with
  | true =>
    cases h
    rintro r ⟨⟩
  | false =>
    obtain ⟨run', hrun, rfl⟩ := exists_of_map h
    rintro r ⟨⟩
    exact recordedRun_interrupted hrun

theorem runTest_map (fuel : ℕ) (reused : Bool) (f : α → β) (test : TableauM σ α) :
    C.runTest fuel reused (f <$> test) = Option.map f <$> C.runTest fuel reused test := by
  unfold runTest
  simp only [map_eq_pure_bind, bind_assoc, pure_bind]
  apply bind_congr
  intro ready
  cases ready with
  | false => rfl
  | true =>
    simp only [if_true, bind_assoc]
    apply bind_congr
    intro result
    apply bind_congr
    intro t
    split
    · simp only [bind_assoc]
      apply bind_congr
      intro _
      apply bind_congr
      intro _
      apply bind_congr
      intro clash
      cases clash
      · simp
      · simp
    · simp

/-- The result of a test is the value of the test in some state. -/
theorem runTest_origin {test : TableauM σ α} {t t' : PolledTableau σ} {a : α}
    (h : C.runTest fuel reused test t = some (some a, t')) : ∃ s s', test s = some (a, s') := by
  unfold runTest at h
  obtain ⟨ready, s, -, h⟩ := exists_of_bind h
  cases ready with
  | false => cases h
  | true =>
    obtain ⟨result, s', htest, h⟩ := exists_of_bind h
    obtain ⟨_, _, hget, h⟩ := exists_of_bind h
    cases hget
    split at h
    · obtain ⟨_, _, -, h⟩ := exists_of_bind h
      obtain ⟨_, _, -, h⟩ := exists_of_bind h
      obtain ⟨clash, s'', -, h⟩ := exists_of_bind h
      cases clash with
      | true => cases h
      | false =>
        obtain ⟨result', _, htest', h⟩ := exists_of_bind h
        cases h
        exact ⟨_, _, htest'⟩
    · cases h
      exact ⟨_, _, htest⟩

theorem decidingRun_interrupted {t t' : PolledTableau σ}
    (h : C.decidingRun fuel reused concepts t = some (run, t')) :
    ∀ r ∈ run, (∃ e, r.result = .error e) ↔ r.Interrupted := by
  obtain ⟨found, htest, rfl⟩ := exists_of_map h
  intro r hr
  cases found with
  | none => cases hr
  | some run =>
    obtain ⟨s, s', hrun⟩ := runTest_origin htest
    exact testRun_interrupted hrun r hr

theorem isConsistentChecked_eq (fuel : ℕ) : C.isConsistentChecked fuel =
    (fun run => (run.map CalculusRun.result).getD (.ok false)) <$> C.testRun fuel C.loadAbox.1 := by
  unfold isConsistentChecked testRun
  simp only [map_eq_pure_bind, bind_assoc]
  apply bind_congr
  intro _
  apply bind_congr
  intro clash
  cases clash
  · simp [runCalculus_eq]
  · simp

theorem clashes_eq (fuel : ℕ) (concepts : List LiteralConcept) : C.clashes fuel concepts =
    (fun run => (run.map fun r => !unwrapOrFalse r.result).getD true) <$>
      C.testRun fuel (C.assertOnFreshNode concepts) := by
  unfold clashes testRun
  simp only [map_eq_pure_bind, bind_assoc]
  apply bind_congr
  intro _
  apply bind_congr
  intro clash
  cases clash
  · simp [runCalculus_eq]
  · simp

/-! ## Interrupted tests and their answers -/

/-- The ABox has a model: the check finds one when it is not interrupted. -/
def Consistent (C : Calculus σ) (t : PolledTableau σ) : Prop :=
  ∃ fuel t', C.isConsistentChecked fuel { t with flag := fun _ => none } = some (.ok true, t')

/-- The answer was given although the run it was taken from was interrupted. -/
def AnsweredInterrupted (run : Option (CalculusRun σ)) (answer definite : Bool) : Prop :=
  ∃ r ∈ run, r.Interrupted ∧ answer = definite

/-- An interrupted run is answered by whatever stands for a missing model. -/
theorem answeredInterrupted_iff {definite : Bool}
    (hans : ∀ r ∈ run, ∀ e, r.result = .error e → answer = definite)
    (hrun : ∀ r ∈ run, (∃ e, r.result = .error e) ↔ r.Interrupted) :
    AnsweredInterrupted run answer definite ↔ ∃ r ∈ run, r.Interrupted := by
  constructor
  · rintro ⟨r, hr, hint, -⟩
    exact ⟨r, hr, hint⟩
  · rintro ⟨r, hr, hint⟩
    obtain ⟨e, he⟩ := (hrun r hr).mpr hint
    exact ⟨r, hr, hint, hans r hr e he⟩

theorem isConsistent_eq_some {t t' : PolledTableau σ}
    (h : C.isConsistent fuel t = some (answer, t')) :
    ∃ run, C.testRun fuel C.loadAbox.1 t = some (run, t') ∧
      (AnsweredInterrupted run answer false ↔ ∃ r ∈ run, r.Interrupted) := by
  rw [isConsistent, isConsistentChecked_eq] at h
  obtain ⟨_, hchk, rfl⟩ := exists_of_map h
  obtain ⟨run, hrun, rfl⟩ := exists_of_map hchk
  refine ⟨run, hrun, answeredInterrupted_iff ?_ (testRun_interrupted hrun)⟩
  intro r hr e he
  simp [Option.mem_def.mp hr, he, unwrapOrFalse]

theorem runTest_testRun {f : Option (CalculusRun σ) → α} {t t' : PolledTableau σ} {found : Option α}
    (h : C.runTest fuel reused (f <$> C.testRun fuel (C.assertOnFreshNode concepts)) t =
      some (found, t')) :
    ∃ outcome : Option (Option (CalculusRun σ)),
      C.decidingRun fuel reused concepts t = some (outcome.join, t') ∧ found = outcome.map f := by
  rw [runTest_map] at h
  obtain ⟨outcome, hrun, rfl⟩ := exists_of_map h
  refine ⟨outcome, ?_, rfl⟩
  change Option.bind _ _ = _
  rw [hrun]
  rfl

theorem runTest_clashes {t t' : PolledTableau σ} {found : Option Bool}
    (h : C.runTest fuel reused (C.clashes fuel concepts) t = some (found, t')) :
    ∃ run, C.decidingRun fuel reused concepts t = some (run, t') ∧
      (AnsweredInterrupted run (found.getD true) true ↔ ∃ r ∈ run, r.Interrupted) := by
  rw [clashes_eq] at h
  obtain ⟨outcome, hdeciding, rfl⟩ := runTest_testRun h
  refine ⟨_, hdeciding, answeredInterrupted_iff ?_ (decidingRun_interrupted hdeciding)⟩
  intro r hr e he
  cases outcome with
  | none => rfl
  | some run => simp [show run = some r from hr, he, unwrapOrFalse]

/-- The run that decides whether the first concept is below the second. -/
def subsumptionRun (C : Calculus σ) (fuel : ℕ) (reused : Bool) (sub sup : AtomicConcept) :
    TableauM σ (Option (CalculusRun σ)) :=
  if sub = sup then pure none else C.decidingRun fuel reused [.atomicConcept sub, sup.getNegation]

theorem atomicSubsumes_eq_some {sub sup : AtomicConcept} {t t' : PolledTableau σ}
    (h : C.atomicSubsumes fuel reused sub sup t = some (answer, t')) :
    ∃ run, C.subsumptionRun fuel reused sub sup t = some (run, t') ∧
      (AnsweredInterrupted run answer true ↔ ∃ r ∈ run, r.Interrupted) := by
  unfold atomicSubsumes at h
  unfold subsumptionRun
  split at h
  · next hsame =>
    cases h
    rw [if_pos hsame]
    exact ⟨none, rfl, by simp [AnsweredInterrupted]⟩
  · next hdifferent =>
    obtain ⟨found, s, htest, h⟩ := exists_of_bind h
    cases h
    rw [if_neg hdifferent]
    exact runTest_clashes htest

theorem atomicSubsumedByUnion_eq_some {child : AtomicConcept}
    {candidates : List AtomicConcept} {t t' : PolledTableau σ}
    (h : C.atomicSubsumedByUnion fuel reused child candidates t = some (answer, t')) :
    ∃ run, C.decidingRun fuel reused
        (.atomicConcept child :: candidates.map AtomicConcept.getNegation) t = some (run, t') ∧
      (AnsweredInterrupted run answer true ↔ ∃ r ∈ run, r.Interrupted) := by
  obtain ⟨found, s, htest, h⟩ := exists_of_bind h
  cases h
  exact runTest_clashes htest

theorem atomicSatisfiable_eq_some {element : AtomicConcept} {t t' : PolledTableau σ}
    (h : C.atomicSatisfiable fuel reused element t = some (answer, t')) :
    ∃ run, C.decidingRun fuel reused [.atomicConcept element] t = some (run, t') ∧
      (AnsweredInterrupted run answer false ↔ ∃ r ∈ run, r.Interrupted) := by
  have hclo : (do
      C.assertOnFreshNode [.atomicConcept element]
      if ← C.clash then pure none
      else if unwrapOrFalse (← C.runCalculus fuel) then return some ((fun _ => ()) (← get))
      else pure none : TableauM σ (Option Unit)) =
      (fun run => if (run.map fun r => unwrapOrFalse r.result).getD false then some ()
        else none) <$>
        C.testRun fuel (C.assertOnFreshNode [.atomicConcept element]) := by
    unfold testRun
    simp only [map_eq_pure_bind, bind_assoc]
    apply bind_congr
    intro _
    apply bind_congr
    intro clash
    cases clash
    · simp only [runCalculus_eq, map_eq_pure_bind, bind_assoc, pure_bind,
        Bool.false_eq_true, if_false]
      apply bind_congr
      intro run
      by_cases hmodel : unwrapOrFalse run.result = true <;> simp [hmodel]
    · simp
  unfold atomicSatisfiable satisfiableRoot at h
  rw [hclo] at h
  obtain ⟨_, _, hroot, h⟩ := exists_of_bind h
  cases h
  obtain ⟨found, _, hfnd, h⟩ := exists_of_bind hroot
  cases h
  obtain ⟨outcome, hdeciding, rfl⟩ := runTest_testRun hfnd
  refine ⟨_, hdeciding, answeredInterrupted_iff ?_ (decidingRun_interrupted hdeciding)⟩
  intro r hr e he
  cases outcome with
  | none => rfl
  | some run => simp [show run = some r from hr, he, unwrapOrFalse]

/-- Exactly when the interrupt fires during the run that decides a test, the test answers all the
same: that an ABox with a model has none, or that the tested concepts clash. -/
theorem interrupted_tests_iff (C : Calculus σ) (fuel : ℕ) (t t' : PolledTableau σ) :
    (∀ answer, C.isConsistent fuel t = some (answer, t') →
      ∃ run, C.testRun fuel C.loadAbox.1 t = some (run, t') ∧
        (¬ (C.Consistent t ∧ AnsweredInterrupted run answer false) ↔
          (C.Consistent t → ∀ r ∈ run, ¬ r.Interrupted))) ∧
    (∀ answer cached, C.cachedIsConsistent fuel none t = some ((answer, cached), t') →
      ∃ run, C.testRun fuel C.loadAbox.1 t = some (run, t') ∧
        (¬ (C.Consistent t ∧ ∃ r ∈ run, r.Interrupted ∧ cached = some false) ↔
          (C.Consistent t → ∀ r ∈ run, ¬ r.Interrupted))) ∧
    (∀ reused element answer, C.atomicSatisfiable fuel reused element t = some (answer, t') →
      ∃ run, C.decidingRun fuel reused [.atomicConcept element] t = some (run, t') ∧
        (¬ AnsweredInterrupted run answer false ↔ ∀ r ∈ run, ¬ r.Interrupted)) ∧
    (∀ reused sub sup answer, C.atomicSubsumes fuel reused sub sup t = some (answer, t') →
      ∃ run, C.subsumptionRun fuel reused sub sup t = some (run, t') ∧
        (¬ AnsweredInterrupted run answer true ↔ ∀ r ∈ run, ¬ r.Interrupted)) ∧
    (∀ reused child candidates answer,
      C.atomicSubsumedByUnion fuel reused child candidates t = some (answer, t') →
      ∃ run, C.decidingRun fuel reused
          (.atomicConcept child :: candidates.map AtomicConcept.getNegation) t = some (run, t') ∧
        (¬ AnsweredInterrupted run answer true ↔ ∀ r ∈ run, ¬ r.Interrupted)) := by
  refine ⟨?_, ?_, ?_, ?_, ?_⟩
  · intro answer h
    obtain ⟨run, hrun, hiff⟩ := isConsistent_eq_some h
    refine ⟨run, hrun, ?_⟩
    rw [hiff]
    push Not
    rfl
  · intro answer cached h
    obtain ⟨consistent, s, hcons, h⟩ := exists_of_bind h
    cases h
    obtain ⟨run, hrun, hiff⟩ := isConsistent_eq_some hcons
    refine ⟨run, hrun, ?_⟩
    simp only [Option.some.injEq]
    rw [show (∃ r ∈ run, r.Interrupted ∧ answer = false) ↔ _ from hiff]
    push Not
    rfl
  · intro reused element answer h
    obtain ⟨run, hrun, hiff⟩ := atomicSatisfiable_eq_some h
    exact ⟨run, hrun, by rw [hiff]; push Not; rfl⟩
  · intro reused sub sup answer h
    obtain ⟨run, hrun, hiff⟩ := atomicSubsumes_eq_some h
    exact ⟨run, hrun, by rw [hiff]; push Not; rfl⟩
  · intro reused child candidates answer h
    obtain ⟨run, hrun, hiff⟩ := atomicSubsumedByUnion_eq_some h
    exact ⟨run, hrun, by rw [hiff]; push Not; rfl⟩

/-- The calculus of an ontology without clauses and facts: there is never anything to do. -/
def empty : Calculus Unit where
  containsClash _ := false
  aboxChoiceClash _ := false
  isExact _ := true
  checkUnknownDatatypeRestrictions _ := false
  checkDatatypes _ := false
  datatypeCheckNeeded _ := false
  processAnnotatedEqualities := ⟨pure (), .pure _⟩
  propagateDeltaNewAll := ⟨pure false, .pure _⟩
  checkGraphConstraints := ⟨pure (), .pure _⟩
  applyDlClauses := ⟨pure (), .pure _⟩
  applyAdditionalDlClauses := none
  applyUnknownDatatypeRestrictionSemantics := ⟨pure (), .pure _⟩
  checkDatatypeConstraints := ⟨pure (), .pure _⟩
  expandExistentials := ⟨pure false, .pure _⟩
  expandExistentialsFinalChance := ⟨pure false, .pure _⟩
  processFirstGroundDisjunction := ⟨pure false, .pure _⟩
  backtrackOnClash := ⟨pure false, .pure _⟩
  existentialStrategyModelFound := ⟨pure (), .pure _⟩
  cacheModelSignatures := ⟨pure (), .pure _⟩
  hasNominals := false
  loadAbox := ⟨pure (), .pure _⟩
  clear := id
  restoreAboxCheckpoint := some
  pushAboxCheckpoint := id
  freshTestNode := fun t => (0, t)
  addConceptAssertion := fun _ _ t => t

/-- The flag answers the same at every poll. -/
def emptyTableau (answer : Option InterruptError) : PolledTableau Unit :=
  { flag := fun _ => answer, rest := () }

theorem empty_consistent (answer : Option InterruptError) :
    empty.Consistent (emptyTableau answer) :=
  ⟨2, _, rfl⟩

/-- With a timeout that is over at the first poll the empty ontology counts as inconsistent, and two
concepts of it as subsumed. -/
theorem interrupted_tests_answer :
    let t := emptyTableau (some .timeout)
    empty.Consistent t ∧
      (∃ answer cached run t', empty.cachedIsConsistent 2 none t = some ((answer, cached), t') ∧
        empty.testRun 2 empty.loadAbox.1 t = some (run, t') ∧
        AnsweredInterrupted run answer false ∧ cached = some false) ∧
      ∃ run t', empty.atomicSubsumes 2 false ⟨"A"⟩ ⟨"B"⟩ t = some (true, t') ∧
        empty.subsumptionRun 2 false ⟨"A"⟩ ⟨"B"⟩ t = some (run, t') ∧
          AnsweredInterrupted run true true := by
  intro t
  refine ⟨empty_consistent _, ⟨false, some false, _, _, rfl, rfl, ?_, rfl⟩, _, _, rfl, rfl, ?_⟩
  · exact ⟨_, rfl, ⟨0, le_rfl, Nat.one_pos, by decide⟩, rfl⟩
  · exact ⟨_, rfl, ⟨0, le_rfl, Nat.one_pos, by decide⟩, rfl⟩

/-- The time is over at the second poll: the check is one that an interrupt answers. -/
theorem interrupted_tests_iff_timeout : ∃ run t t', t.flag 0 = none ∧
    empty.isConsistent 2 t = some (false, t') ∧
      empty.testRun 2 empty.loadAbox.1 t = some (run, t') ∧ empty.Consistent t ∧
        (∃ r ∈ run, r.Interrupted) ∧ AnsweredInterrupted run false false := by
  let t : PolledTableau Unit :=
    { flag := fun poll => if poll = 0 then none else some .timeout, rest := () }
  obtain ⟨t', ht'⟩ : ∃ t', empty.isConsistent 2 t = some (false, t') := ⟨_, rfl⟩
  obtain ⟨run, hrun, hiff⟩ := (interrupted_tests_iff empty 2 t t').1 false ht'
  have hint : ∃ r ∈ run, r.Interrupted := by
    cases Option.some.inj hrun
    exact ⟨_, rfl, 1, by decide, by decide, by decide⟩
  have hconsistent : empty.Consistent t := ⟨2, _, rfl⟩
  refine ⟨run, t, t', rfl, ht', hrun, hconsistent, hint, ?_⟩
  by_contra hnot
  obtain ⟨r, hr, hinterrupt⟩ := hint
  exact hiff.mp (fun h => hnot h.2) hconsistent r hr hinterrupt

end Calculus

end Hermit
