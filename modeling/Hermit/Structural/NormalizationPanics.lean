import Hermit.Structural.NormalizationTracking
import Hermit.Structural.StructuralOrder

/-! # When normalisation panics

The rules are followed atom by atom.  A class or an operand that was pushed as it
stands and does not break down ends in a panic, unless an error is reported before;
nothing else does.
-/

namespace Hermit

open Library List ExpressionOrder OwlNormalization

/-! ## The atoms of a rule -/

def argumentWeight : IArgument → ℕ
  | .individual _ => 1
  | .variable _ => 0

/-- A bound on the atoms that visiting an atom adds. -/
def atomWeight : SwrlAtom → ℕ
  | .builtInAtom _ _ => 1
  | .classAtom _ arg => argumentWeight arg + 1
  | .dataPropertyAtom _ subject (.literal _) => argumentWeight subject + 2
  | .dataPropertyAtom _ subject (.variable _) => argumentWeight subject + 1
  | .dataRangeAtom _ _ => 1
  | .differentIndividualsAtom first second => argumentWeight first + argumentWeight second + 1
  | .objectPropertyAtom _ first second => argumentWeight first + argumentWeight second + 1
  | .sameIndividualAtom first second => argumentWeight first + argumentWeight second + 1

/-- The atoms that visiting another atom adds: nominals and value restrictions over variables. -/
def IsAdded (atom : SwrlAtom) : Prop := ∃ pred v, atom = .classAtom pred (.variable v) ∧ isNnf pred

theorem IsAdded.weight {atom : SwrlAtom} (h : IsAdded atom) : atomWeight atom = 1 := by
  obtain ⟨pred, v, rfl, -⟩ := h
  rfl

namespace RuleNormalizerState

/-- The later state has more atoms to visit, all of them added ones; there are none unless the
weight of what was visited leaves room for them. -/
structure Adds (nz nz' : RuleNormalizerState) (room : ℕ) : Prop where
  body : ∃ added, nz'.bodyWork = nz.bodyWork ++ added ∧ ∀ a ∈ added, IsAdded a ∧ 0 < room
  head : ∃ added, nz'.headWork = nz.headWork ++ added ∧ ∀ a ∈ added, IsAdded a ∧ 0 < room

variable {nz nz' nz'' : RuleNormalizerState} {room room' : ℕ}

theorem Adds.of_eq (hbody : nz'.bodyWork = nz.bodyWork) (hhead : nz'.headWork = nz.headWork) :
    nz.Adds nz' room :=
  ⟨⟨[], by simp [hbody]⟩, ⟨[], by simp [hhead]⟩⟩

theorem Adds.refl : nz.Adds nz room := .of_eq rfl rfl

theorem Adds.trans (h : nz.Adds nz' room) (h' : nz'.Adds nz'' room') :
    nz.Adds nz'' (room + room') := by
  obtain ⟨⟨bs, hbs, hbs'⟩, ⟨hs, hhs, hhs'⟩⟩ := h
  obtain ⟨⟨bs₂, hbs₂, hbs₂'⟩, ⟨hs₂, hhs₂, hhs₂'⟩⟩ := h'
  refine ⟨⟨bs ++ bs₂, by simp [hbs₂, hbs], ?_⟩, ⟨hs ++ hs₂, by simp [hhs₂, hhs], ?_⟩⟩
  · intro a ha
    rcases mem_append.mp ha with ha | ha
    · exact ⟨(hbs' a ha).1, by have := (hbs' a ha).2; omega⟩
    · exact ⟨(hbs₂' a ha).1, by have := (hbs₂' a ha).2; omega⟩
  · intro a ha
    rcases mem_append.mp ha with ha | ha
    · exact ⟨(hhs' a ha).1, by have := (hhs' a ha).2; omega⟩
    · exact ⟨(hhs₂' a ha).1, by have := (hhs₂' a ha).2; omega⟩

theorem Adds.mono (h : nz.Adds nz' room) (hle : room ≤ room') : nz.Adds nz' room' := by
  have htrans := h.trans (Adds.refl : nz'.Adds nz' (room' - room))
  rwa [Nat.add_sub_cancel' hle] at htrans

theorem Adds.andThen (h : nz.Adds nz' room) (hbody : nz''.bodyWork = nz'.bodyWork)
    (hhead : nz''.headWork = nz'.headWork) : nz.Adds nz'' room :=
  h.trans (.of_eq hbody hhead : nz'.Adds nz'' 0)

theorem isAdded_nominalAtom (individual v : Iri) : IsAdded (nominalAtom individual v) :=
  ⟨_, _, rfl, rfl⟩

theorem ends_requireNamedIri (i : Individ) :
    Ends Failure.IsReported (fun _ => True) (requireNamedIri i) := by
  cases i <;> exact trivial

theorem ends_rnVariableFor (nz : RuleNormalizerState) (arg : IArgument) :
    Ends Failure.IsReported (fun r => nz.Adds r.2 (argumentWeight arg) ∧ r.2.headWork = nz.headWork)
      (nz.rnVariableFor arg) := by
  cases arg with
  | «variable» v => exact ⟨.refl, rfl⟩
  | individual i =>
    apply (ends_requireNamedIri i).bind
    intro named _
    split
    · exact ⟨.refl, rfl⟩
    · exact ⟨⟨⟨[nominalAtom named _], rfl, by simp [isAdded_nominalAtom, argumentWeight]⟩,
        ⟨[], by simp [pushBodyWork]⟩⟩, rfl⟩

/-- The later state has only added atoms of the body to visit besides. -/
def AddsBody (nz nz' : RuleNormalizerState) : Prop :=
  nz'.headWork = nz.headWork ∧ ∃ added, nz'.bodyWork = nz.bodyWork ++ added ∧ ∀ a ∈ added, IsAdded a

theorem AddsBody.trans (h : nz.AddsBody nz') (h' : nz'.AddsBody nz'') : nz.AddsBody nz'' := by
  obtain ⟨hhead, added, hbody, hadded⟩ := h
  obtain ⟨hhead', added', hbody', hadded'⟩ := h'
  refine ⟨hhead'.trans hhead, added ++ added', by simp [hbody', hbody], ?_⟩
  intro a ha
  rcases mem_append.mp ha with ha | ha
  · exact hadded a ha
  · exact hadded' a ha

theorem ends_unifyAtom (nz : RuleNormalizerState) (atom : SwrlAtom) :
    Ends Failure.IsReported nz.AddsBody (nz.unifyAtom atom) := by
  have hrefl : ∀ nt : RuleNormalizerState, nt.AddsBody nt := fun nt => ⟨rfl, [], by simp⟩
  cases atom with
  | sameIndividualAtom first second =>
    apply (nz.ends_rnVariableFor first).bind
    rintro r ⟨⟨⟨added, hbody, hadded⟩, -⟩, hhead⟩
    have hr : nz.AddsBody r.2 := ⟨hhead, added, hbody, fun a ha => (hadded a ha).1⟩
    cases second with
    | «variable» v => exact hr
    | individual i =>
      apply (ends_requireNamedIri i).bind
      intro named _
      have hpush : r.2.AddsBody ({ r.2 with
          individualsToVariables := r.2.individualsToVariables.insert named r.1 }.pushBodyWork
            (nominalAtom named r.1)) :=
        ⟨rfl, [nominalAtom named r.1], rfl, by simp [isAdded_nominalAtom]⟩
      exact hr.trans hpush
  | _ => exact hrefl nz

theorem ends_unify (body : List SwrlAtom) (nz : RuleNormalizerState) :
    Ends Failure.IsReported nz.AddsBody (body.foldlM unifyAtom nz) := by
  induction body generalizing nz with
  | nil => exact ⟨rfl, [], by simp⟩
  | cons atom body ih =>
    rw [foldlM_cons]
    apply (nz.ends_unifyAtom atom).bind
    intro nz' h
    exact (ih nz').imp fun nz'' h' => h.trans h'

end RuleNormalizerState

namespace Normalizer

open RuleNormalizerState

variable {order : ExpressionOrder} {seen : List ClassExpr} {s : Normalizer}

/-! ## Visiting atoms -/

theorem isDefinition_class (n : ℕ) : IsDefinition n (.class (definitionName n)) := .inl rfl

theorem steps_rnVisitClass_head (s : Normalizer) (pred : ClassExpr) (arg : IArgument) :
    Ends Failure.IsReported
      (fun r => Steps order seen seen (order.headBreaksDown seen (.classAtom pred arg)) s r.2)
      (s.rnVisitClass order pred true) := by
  unfold rnVisitClass
  dsimp only
  by_cases hclass : isClass (order.getSimplified (order.getNnf pred))
  · rw [if_pos hclass]
    exact Steps.refl.congr (by simp [headBreaksDown, needsDefinition, hclass])
  · rw [if_neg hclass]
    have hneeds : order.needsDefinition pred := by simp [needsDefinition, hclass]
    have hfine : order.headBreaksDown seen (.classAtom pred arg) ↔
        pred ∈ seen ∨ order.breaksDown [pred] := by
      simp [headBreaksDown, hneeds]
    rcases getClassFor_eq order s pred with ⟨c, hc, hget⟩ | ⟨hno, n, -, hget⟩
    · rw [hget]
      have hkey : s.Tracked order seen → order.headBreaksDown seen (.classAtom pred arg) :=
        fun ht => hfine.mpr (ht.keys pred _ hc).symm
      change Steps order seen seen _ s s
      exact ⟨rfl, fun ht _ => ht, fun ht hbad => absurd (hkey ht) hbad, id⟩
    · rw [hget]
      have hmem : s.Tracked order seen → pred ∉ seen := by
        intro ht hseen
        obtain ⟨c, hc⟩ := ht.seen pred hseen hneeds
        exact hno c hc
      have hpush : Steps order seen seen (order.breaksDown [pred]) s
          ((s.introduceDefinition order pred true).2.pushInclusion
            [order.negative (.class (definitionName n)), pred]) :=
        .introduceDefinition .inl (fun _ h => h) (fun _ h => .inl h) (fun _ => rfl)
          (breaksDown_definition (isDefinition_class n)).symm
      change Steps order seen seen _ s ((s.introduceDefinition order pred true).2.pushInclusion
        [order.negative (.class (definitionName n)), pred])
      refine ⟨hpush.rules, fun ht h => hpush.tracked ht ?_, fun ht h => hpush.stuck ht ?_,
        hpush.stays⟩
      · exact (hfine.mp h).resolve_left (hmem ht)
      · exact fun hb => h (hfine.mpr (.inr hb))

theorem steps_rnVisitClass_body (s : Normalizer) (pred : ClassExpr) :
    Ends Failure.IsReported (fun r => Steps order seen (seen ++ [pred]) True s r.2)
      (s.rnVisitClass order pred false) := by
  have hsame : ∀ (hseen : order.needsDefinition pred →
      ∃ c, s.definitions.lookup pred = some (.class c)),
        Steps order seen (seen ++ [pred]) True s s := by
    intro hseen
    refine ⟨rfl, fun ht _ => ⟨ht.classes, ht.ranges, ?_, ?_⟩, fun _ h => absurd trivial h, id⟩
    · intro k v hk
      exact (ht.keys k v hk).imp id (mem_append_left _)
    · intro k hk hneeds
      rcases mem_append.mp hk with hk | hk
      · exact ht.seen k hk hneeds
      · rw [mem_singleton.mp hk] at hneeds ⊢
        exact hseen hneeds
  unfold rnVisitClass
  dsimp only
  by_cases hclass : isClass (order.getSimplified (order.getNnf pred))
  · rw [if_pos hclass]
    exact hsame (by simp [needsDefinition, hclass])
  · rw [if_neg hclass]
    rcases getClassFor_eq order s pred with ⟨c, hc, hget⟩ | ⟨hno, n, -, hget⟩
    · rw [hget]
      exact hsame fun _ => ⟨c, hc⟩
    · rw [hget]
      have hnnf : order.breaksDown [order.negative pred, .class (definitionName n)] :=
        order.breaksDown_of_isNnf (by simp [isNnf])
      have hpush : Steps order seen (seen ++ [pred]) True s
          ((s.introduceDefinition order pred true).2.pushInclusion
            [order.negative pred, .class (definitionName n)]) :=
        .introduceDefinition (fun _ => .inr (by simp)) (by simp +contextual) (by simp)
          (fun _ => rfl) (iff_of_true trivial hnnf)
      exact hpush

theorem steps_rnVisitDataRange (s : Normalizer) (pred : DataRangeExpr) (isPositive : Bool) :
    Steps order seen seen True s (s.rnVisitDataRange order pred isPositive).2 := by
  have hget : ∀ dr, Steps order seen seen True s (s.getDataDefinitionFor dr).2.2 := by
    intro dr
    unfold getDataDefinitionFor
    split
    · exact .refl
    · exact .of_eq rfl rfl rfl rfl
  unfold rnVisitDataRange
  generalize (if isPositive then pred else .dataComplementOf pred) = dr
  have ht := hget (order.positiveDr dr)
  dsimp only
  split_ifs
  · split
    · next definition t heq =>
      rw [heq] at ht
      exact ht
    · next definition t heq =>
      rw [heq] at ht
      exact ht.andThen (.pushDataRangeInclusion (by simp))
  · exact .refl

/-- The classes seen after an atom was visited. -/
def seenAfter (isPositive : Bool) (seen : List ClassExpr) (atom : SwrlAtom) : List ClassExpr :=
  if isPositive then seen else seen ++ bodyClasses [atom]

theorem ends_rnVisitAtom (order : ExpressionOrder) (seen : List ClassExpr) (s : Normalizer)
    (nz : RuleNormalizerState) (isPositive : Bool) (atom : SwrlAtom) :
    Ends Failure.IsReported (fun r =>
      Steps order seen (seenAfter isPositive seen atom)
        (isPositive = true → order.headBreaksDown seen atom) s r.1 ∧
      nz.Adds r.2 (atomWeight atom - 1)) (s.rnVisitAtom order nz isPositive atom) := by
  have hplain : ∀ t, bodyClasses [atom] = [] → order.headBreaksDown seen atom = true →
      Steps order seen seen True s t → Steps order seen (seenAfter isPositive seen atom)
        (isPositive = true → order.headBreaksDown seen atom) s t := by
    intro t hbody hhead ht
    rw [show seenAfter isPositive seen atom = seen by simp [seenAfter, hbody]]
    exact ht.congr (by simp [hhead])
  have hins : ∀ (t t' : RuleNormalizerState) (a : SwrlAtom) (room : ℕ), t.Adds t' room →
      t.Adds (t'.insertAt isPositive a) room := by
    intro t t' a room h
    cases isPositive with
    | false | true => exact h.andThen rfl rfl
  cases atom with
  | builtInAtom pred args => exact trivial
  | classAtom pred arg =>
    apply (nz.ends_rnVariableFor arg).bind
    rintro v ⟨hv, -⟩
    cases isPositive with
    | true =>
      apply (steps_rnVisitClass_head s pred arg).bind
      intro r hr
      exact ⟨hr.congr (by simp), hins nz v.2 _ _ hv⟩
    | false =>
      apply (steps_rnVisitClass_body s pred).bind
      intro r hr
      exact ⟨hr.congr (by simp), hins nz v.2 _ _ hv⟩
  | dataRangeAtom pred arg =>
    cases arg with
    | literal l => exact trivial
    | «variable» v =>
      exact ⟨hplain _ rfl rfl (steps_rnVisitDataRange s pred isPositive), .of_eq rfl rfl⟩
  | objectPropertyAtom pred first second =>
    cases pred with
    | objectProperty p =>
      apply (nz.ends_rnVariableFor first).bind
      rintro v ⟨hv, -⟩
      apply (v.2.ends_rnVariableFor second).bind
      rintro w ⟨hw, -⟩
      exact ⟨hplain s rfl rfl .refl, hins nz w.2 _ _ (hv.trans hw)⟩
    | inverseObjectProperty p =>
      apply (nz.ends_rnVariableFor second).bind
      rintro v ⟨hv, -⟩
      apply (v.2.ends_rnVariableFor first).bind
      rintro w ⟨hw, -⟩
      have hadds := hins nz w.2 (.objectPropertyAtom (.objectProperty p) (.variable v.1)
        (.variable w.1)) _ (hv.trans hw)
      exact ⟨hplain s rfl rfl .refl, hadds.mono (by simp [atomWeight, Nat.add_comm])⟩
  | dataPropertyAtom pred subject value =>
    apply (nz.ends_rnVariableFor subject).bind
    rintro v ⟨hv, -⟩
    cases value with
    | «variable» v2 =>
      dsimp only
      split_ifs
      · exact ⟨hplain s rfl rfl .refl, hv.andThen rfl rfl⟩
      · exact ⟨hplain s rfl rfl .refl, hv.andThen rfl rfl⟩
      · exact ⟨hplain s rfl rfl .refl, hv.andThen rfl rfl⟩
    | literal l =>
      have hadded : IsAdded (.classAtom (.dataHasValue pred l) (.variable v.1)) := ⟨_, _, rfl, rfl⟩
      cases isPositive with
      | true =>
        have hpush : v.2.Adds
            (v.2.pushHeadWork (.classAtom (.dataHasValue pred l) (.variable v.1))) 1 :=
          ⟨⟨[], by simp [pushHeadWork]⟩, ⟨[_], rfl, by simp [hadded]⟩⟩
        exact ⟨hplain s rfl rfl .refl, hv.trans hpush⟩
      | false =>
        have hpush : v.2.Adds
            (v.2.pushBodyWork (.classAtom (.dataHasValue pred l) (.variable v.1))) 1 :=
          ⟨⟨[_], rfl, by simp [hadded]⟩, ⟨[], by simp [pushBodyWork]⟩⟩
        exact ⟨hplain s rfl rfl .refl, hv.trans hpush⟩
  | sameIndividualAtom first second =>
    cases isPositive with
    | false => exact trivial
    | true =>
      apply (nz.ends_rnVariableFor first).bind
      rintro v ⟨hv, -⟩
      apply (v.2.ends_rnVariableFor second).bind
      rintro w ⟨hw, -⟩
      exact ⟨hplain s rfl rfl .refl, (hv.trans hw).andThen rfl rfl⟩
  | differentIndividualsAtom first second =>
    apply (nz.ends_rnVariableFor first).bind
    rintro v ⟨hv, -⟩
    apply (v.2.ends_rnVariableFor second).bind
    rintro w ⟨hw, -⟩
    cases isPositive with
    | false | true => exact ⟨hplain s rfl rfl .refl, (hv.trans hw).andThen rfl rfl⟩

/-- The classes in negation normal form need not be remembered as seen. -/
theorem Steps.reseen {seen' seenNow : List ClassExpr} {p : Prop} {s s' : Normalizer}
    (h : Steps order seen seenNow p s s') (hkept : ∀ k ∈ seen', k ∈ seenNow)
    (hnnf : ∀ k ∈ seenNow, k ∈ seen' ∨ isNnf k) : Steps order seen seen' p s s' := by
  refine ⟨h.rules, fun ht hp => ?_, h.stuck, h.stays⟩
  have htrack := h.tracked ht hp
  refine ⟨htrack.classes, htrack.ranges, fun k v hk => ?_, fun k hk hneeds => ?_⟩
  · rcases htrack.keys k v hk with hb | hseen
    · exact .inl hb
    · rcases hnnf k hseen with hk' | hk'
      · exact .inr hk'
      · exact .inl (order.breaksDown_of_isNnf (by simpa using hk'))
  · exact htrack.seen k (hkept k hk) hneeds

theorem headBreaksDown_of_isAdded (order : ExpressionOrder) (seen : List ClassExpr)
    {atom : SwrlAtom} (h : IsAdded atom) : order.headBreaksDown seen atom := by
  obtain ⟨pred, v, rfl, hnnf⟩ := h
  have hbrk : order.breaksDown [pred] := order.breaksDown_of_isNnf (by simpa using hnnf)
  simp [headBreaksDown, hbrk]

variable {atoms : List SwrlAtom}

theorem mem_bodyClasses {k : ClassExpr} :
    k ∈ bodyClasses atoms ↔ ∃ arg, .classAtom k arg ∈ atoms := by
  unfold bodyClasses
  rw [mem_filterMap]
  constructor
  · rintro ⟨atom, hatom, hk⟩
    cases atom with
    | classAtom pred arg =>
      cases hk
      exact ⟨arg, hatom⟩
    | _ => cases hk
  · rintro ⟨arg, harg⟩
    exact ⟨_, harg, rfl⟩

theorem isNnf_of_mem_bodyClasses (h : ∀ a ∈ atoms, IsAdded a)
    {k : ClassExpr} (hk : k ∈ bodyClasses atoms) : isNnf k := by
  obtain ⟨arg, harg⟩ := mem_bodyClasses.mp hk
  obtain ⟨pred, v, heq, hnnf⟩ := h _ harg
  cases heq
  exact hnnf

/-- One turn of the loop over head atoms. -/
def headStep (order : ExpressionOrder) (r : Normalizer × RuleNormalizerState) :
    Except Failure (Normalizer × RuleNormalizerState) :=
  match r.2.headWork with
  | [] => .ok r
  | atom :: rest => r.1.rnVisitAtom order { r.2 with headWork := rest } true atom

/-- One turn of the loop over body atoms. -/
def bodyStep (order : ExpressionOrder) (r : Normalizer × RuleNormalizerState) :
    Except Failure (Normalizer × RuleNormalizerState) :=
  match r.2.bodyWork with
  | [] => .ok r
  | atom :: rest => r.1.rnVisitAtom order { r.2 with bodyWork := rest } false atom

section

variable (seen : List ClassExpr) (s : Normalizer) (nz : RuleNormalizerState)

theorem settles_rnVisitHead {headAtom : SwrlAtom} (hhead : nz.headWork = [headAtom]) :
    Settles Failure.IsReported (fun r =>
      Steps order seen seen (order.headBreaksDown seen headAtom) s r.1 ∧
      ∃ added, r.2.bodyWork = nz.bodyWork ++ added ∧ ∀ a ∈ added, IsAdded a)
      fun fuel => rnVisitHead order fuel s nz := by
  let inv : Normalizer × RuleNormalizerState → Prop := fun r =>
    (∃ p : Prop, Steps order seen seen p s r.1 ∧
      ((p ∧ ∀ a ∈ r.2.headWork, order.headBreaksDown seen a) ↔
        order.headBreaksDown seen headAtom)) ∧
    ∃ added, r.2.bodyWork = nz.bodyWork ++ added ∧ ∀ a ∈ added, IsAdded a
  have hinit : inv (s, nz) := ⟨⟨True, .refl, by simp [hhead]⟩, ⟨[], by simp⟩⟩
  have hset : Settles Failure.IsReported _ _ :=
    settles_of_drains (fun fuel (r : Normalizer × RuleNormalizerState) =>
      rnVisitHead order fuel r.1 r.2) (headStep order) (fun r => r.2.headWork) atomWeight inv
      ?_ ?_ ?_ hinit
  · refine hset.imp fun r hr => ?_
    obtain ⟨⟨⟨p, hp, hiff⟩, hadded⟩, hnil⟩ := hr
    rw [hnil] at hiff
    exact ⟨hp.congr (by simpa using hiff), hadded⟩
  · intro fuel r hnil
    simp [rnVisitHead, hnil]
  · intro fuel r a rest hcons
    simp [rnVisitHead, headStep, hcons]
  · rintro ⟨t, nt⟩ a rest ⟨⟨p, hp, hiff⟩, ⟨added, hadded, hall⟩⟩ hcons
    change nt.headWork = a :: rest at hcons
    simp only [headStep, hcons]
    refine (ends_rnVisitAtom order seen t { nt with headWork := rest } true a).imp fun r hr => ?_
    obtain ⟨hsteps, ⟨bs, hbs, hbs'⟩, ⟨hs, hhs, hhs'⟩⟩ := hr
    have hadd : ∀ b ∈ hs, order.headBreaksDown seen b :=
      fun b hb => headBreaksDown_of_isAdded order seen (hhs' b hb).1
    refine ⟨⟨⟨_, hp.trans hsteps, ?_⟩, ⟨added ++ bs, ?_, ?_⟩⟩, hs, ?_, ?_⟩
    · simp only [hcons, forall_mem_cons] at hiff
      rw [hhs, ← hiff, forall_mem_append]
      constructor
      · rintro ⟨⟨h1, h2⟩, h3, -⟩
        exact ⟨h1, h2 rfl, h3⟩
      · rintro ⟨h1, h2, h3⟩
        exact ⟨⟨h1, fun _ => h2⟩, h3, hadd⟩
    · rw [hbs, ← append_assoc, ← hadded]
    · intro b hb
      rcases mem_append.mp hb with hb | hb
      · exact hall b hb
      · exact (hbs' b hb).1
    · rw [hhs]
      exact perm_append_comm
    · intro b hb
      rw [(hhs' b hb).1.weight]
      have hroom := (hhs' b hb).2
      omega

theorem settles_rnVisitBody :
    Settles Failure.IsReported (fun r => ∃ seenNow, Steps order seen seenNow True s r.1 ∧
      (∀ k ∈ seen ++ bodyClasses nz.bodyWork, k ∈ seenNow) ∧
      ∀ k ∈ seenNow, k ∈ seen ++ bodyClasses nz.bodyWork ∨ isNnf k)
      fun fuel => rnVisitBody order fuel s nz := by
  let inv : Normalizer × RuleNormalizerState → Prop := fun r =>
    ∃ seenNow, Steps order seen seenNow True s r.1 ∧
      (∀ k ∈ seen ++ bodyClasses nz.bodyWork, k ∈ seenNow ++ bodyClasses r.2.bodyWork) ∧
      ∀ k ∈ seenNow ++ bodyClasses r.2.bodyWork, k ∈ seen ++ bodyClasses nz.bodyWork ∨ isNnf k
  have hinit : inv (s, nz) := ⟨seen, .refl, fun k hk => hk, fun k hk => .inl hk⟩
  have hset : Settles Failure.IsReported _ _ :=
    settles_of_drains (fun fuel (r : Normalizer × RuleNormalizerState) =>
      rnVisitBody order fuel r.1 r.2) (bodyStep order) (fun r => r.2.bodyWork) atomWeight inv
      ?_ ?_ ?_ hinit
  · refine hset.imp fun r hr => ?_
    obtain ⟨⟨seenNow, hsteps, hkept, hnnf⟩, hnil⟩ := hr
    rw [hnil] at hkept hnnf
    exact ⟨seenNow, hsteps, by simpa [bodyClasses] using hkept, by simpa [bodyClasses] using hnnf⟩
  · intro fuel r hnil
    simp [rnVisitBody, hnil]
  · intro fuel r a rest hcons
    simp [rnVisitBody, bodyStep, hcons]
  · rintro ⟨t, nt⟩ a rest ⟨seenNow, hsteps, hkept, hnnf⟩ hcons
    change nt.bodyWork = a :: rest at hcons
    simp only [bodyStep, hcons]
    refine (ends_rnVisitAtom order seenNow t { nt with bodyWork := rest } false a).imp
      fun r hr => ?_
    obtain ⟨hvis, ⟨bs, hbs, hbs'⟩, -⟩ := hr
    have hspl : bodyClasses (a :: rest) = bodyClasses [a] ++ bodyClasses rest := by
      rw [← singleton_append, bodyClasses, filterMap_append]
      rfl
    have happ : bodyClasses (rest ++ bs) = bodyClasses rest ++ bodyClasses bs := filterMap_append
    rw [hcons, hspl] at hkept hnnf
    refine ⟨⟨seenNow ++ bodyClasses [a], ?_, ?_, ?_⟩, bs, ?_, ?_⟩
    · exact (hsteps.trans hvis).congr (by simp)
    · intro k hk
      have hk' := hkept k hk
      rw [hbs, happ]
      simp only [mem_append] at hk' ⊢
      tauto
    · intro k hk
      rw [hbs, happ] at hk
      simp only [mem_append] at hk hnnf ⊢
      rcases hk with hk | hk | hk
      · exact hnnf k (by tauto)
      · exact hnnf k (by tauto)
      · exact .inr (isNnf_of_mem_bodyClasses (fun b hb => (hbs' b hb).1) hk)
    · rw [hbs]
      exact perm_append_comm
    · intro b hb
      rw [(hbs' b hb).1.weight]
      have hroom := (hbs' b hb).2
      omega

end

/-! ## Rules -/

theorem settles_normalizeRule (seen : List ClassExpr) (s : Normalizer) (body : List SwrlAtom)
    (headAtom : SwrlAtom) :
    Settles Failure.IsReported
      (Steps order seen (seen ++ bodyClasses body) (order.headBreaksDown seen headAtom) s)
      fun fuel => s.normalizeRule order fuel body headAtom := by
  let start : RuleNormalizerState :=
    { bodyWork := body.filter (!isSameIndividualAtom ·), headWork := [headAtom] }
  apply (ends_unify body start).settles.bind
  rintro nz ⟨hhead, added, hbody, hadded⟩
  apply (settles_rnVisitHead seen s nz hhead).bind
  rintro ⟨t, nt⟩ ⟨hsteps, added', hbody', hadded'⟩
  change nt.bodyWork = nz.bodyWork ++ added' at hbody'
  apply (settles_rnVisitBody seen t nt).bind
  rintro ⟨t', nt'⟩ ⟨seenNow, hsteps', hkept, hnnf⟩
  have hwork : nt.bodyWork = body.filter (!isSameIndividualAtom ·) ++ (added ++ added') := by
    rw [hbody', hbody, append_assoc]
  have hcls : ∀ k, k ∈ bodyClasses nt.bodyWork ↔
      k ∈ bodyClasses body ∨ k ∈ bodyClasses (added ++ added') := by
    intro k
    simp [hwork, mem_bodyClasses, isSameIndividualAtom, exists_or]
  have hnnf' : ∀ k ∈ bodyClasses (added ++ added'), isNnf k := by
    intro k hk
    refine isNnf_of_mem_bodyClasses (fun a ha => ?_) hk
    rcases mem_append.mp ha with ha | ha
    · exact hadded a ha
    · exact hadded' a ha
  have htrans : Steps order seen seenNow (order.headBreaksDown seen headAtom) s t' :=
    (hsteps.trans hsteps').congr (by simp)
  have hrule : Steps order seen (seen ++ bodyClasses body) (order.headBreaksDown seen headAtom)
      s t' := by
    refine htrans.reseen (fun k hk => hkept k ?_) (fun k hk => ?_)
    · simp only [mem_append, hcls] at hk ⊢
      tauto
    · rcases hnnf k hk with hk' | hk'
      · simp only [mem_append, hcls] at hk' ⊢
        rcases hk' with hk' | hk' | hk'
        · exact .inl (.inl hk')
        · exact .inl (.inr hk')
        · exact .inr (hnnf' k (by simpa using hk'))
      · exact .inr hk'
  apply Ends.settles
  dsimp only
  split_ifs
  · exact hrule.andThen_of_eq rfl rfl rfl rfl
  · exact trivial

theorem settles_normalizeSteps (seen : List ClassExpr) (s : Normalizer)
    (steps : List (List SwrlAtom × SwrlAtom)) :
    Settles Failure.IsReported
      (fun s' => ∃ seen', Steps order seen seen' (order.stepsBreakDown seen steps) s s')
      fun fuel => steps.foldlM (fun s r => s.normalizeRule order fuel r.1 r.2) s := by
  induction steps generalizing seen s with
  | nil => exact Ends.settles ⟨seen, Steps.refl.congr (by simp [stepsBreakDown])⟩
  | cons r steps ih =>
    simp only [foldlM_cons]
    apply (settles_normalizeRule seen s r.1 r.2).bind
    intro t ht
    refine (ih (seen ++ bodyClasses r.1) t).imp fun t' ht' => ?_
    obtain ⟨seen', hsteps⟩ := ht'
    exact ⟨seen', (ht.trans hsteps).congr (by simp [stepsBreakDown])⟩

theorem normalizeRules_eq_foldlM (order : ExpressionOrder) (fuel : ℕ)
    (rules : List (List SwrlAtom × List SwrlAtom)) (s : Normalizer) :
    rules.foldlM (fun s (r : List SwrlAtom × List SwrlAtom) =>
      r.2.foldlM (fun s headAtom => s.normalizeRule order fuel r.1 headAtom) s) s =
    (rules.flatMap fun r => r.2.map (r.1, ·)).foldlM
      (fun s (r : List SwrlAtom × SwrlAtom) => s.normalizeRule order fuel r.1 r.2) s := by
  induction rules generalizing s with
  | nil => rfl
  | cons r rules ih =>
    simp only [foldlM_cons, flatMap_cons, foldlM_append, foldlM_map, ih]

theorem settles_normalizeRules (order : ExpressionOrder) (s : Normalizer) :
    Settles Failure.IsReported (fun s' => ∃ seen,
      Steps order [] seen (order.stepsBreakDown [] (s.rules.flatMap fun r => r.2.map (r.1, ·)))
        ({ s with rules := [] } : Normalizer) s') fun fuel => s.normalizeRules order fuel := by
  simp only [normalizeRules, normalizeRules_eq_foldlM]
  exact settles_normalizeSteps [] _ _

theorem flatMap_waitingRules (ontology : List Component) :
    (ontology.flatMap waitingRules).flatMap (fun r => r.2.map (r.1, ·)) = ruleSteps ontology := by
  unfold ruleSteps
  rw [flatMap_assoc]
  refine flatMap_congr fun c _ => ?_
  cases c with
  | rule body head =>
    cases body with
    | nil => rfl
    | cons atom body => simp [waitingRules]
  | _ => rfl

/-- The inclusions settle, with a result exactly when nothing was stuck. -/
theorem settles_normalizeInclusions_of_tracked {fine : Prop} {seen : List ClassExpr}
    {s : Normalizer} (htrack : fine → s.Tracked order seen) (hstuck : ¬ fine → s.Stuck order) :
    Settles (Failure.Permitted fine) (fun _ => fine) fun fuel =>
        s.normalizeInclusions order fuel := by
  have hrng (hfine : fine) : ∀ e ∈ s.dataRangeInclusions, order.breaksDownData e := by
    intro e he
    exact order.breaksDownData_of_isNnfData ((htrack hfine).ranges e he)
  obtain ⟨n, r, hn, hr⟩ :=
    settles_normalizeInclusions order fine (fun hfine => (htrack hfine).classes) hrng
  refine ⟨n, r, hn, ?_⟩
  cases r with
  | error f => exact hr
  | ok t =>
    by_contra hfine
    obtain ⟨e, he, hbad⟩ := (hstuck hfine).classes
    exact normalizeInclusions_ne_ok order n he hbad (hn n le_rfl)

end Normalizer

theorem settles_processAxioms (order : ExpressionOrder) (axioms : OwlAxioms) (index : ℕ)
    (ontology : List Component) :
    Settles (Failure.Permitted (order.ontologyBreaksDown ontology))
      (fun _ => order.ontologyBreaksDown ontology)
      fun fuel => (new axioms index).processAxioms order fuel ontology := by
  let s₀ : Normalizer := { toOwlNormalization := new axioms index, toAxiomState := {} }
  have hs₀ : s₀.Tracked order [] := ⟨by simp [s₀], by simp [s₀], by simp [s₀, new], by simp⟩
  have hreported : ∀ f : Failure, f.IsReported →
      f.Permitted (order.ontologyBreaksDown ontology) := fun f hf => .inl hf
  have hvisits : Ends Failure.IsReported (Normalizer.Visits order _ _ s₀) _ :=
    Normalizer.visits_visitAxioms ontology s₀
  apply (hvisits.weaken hreported).settles.bind
  intro s₁ h₁
  apply ((Normalizer.settles_normalizeRules order s₁).weaken hreported).bind
  rintro s₂ ⟨seen, h₂⟩
  rw [h₁.rules, show s₀.rules = [] from rfl, nil_append, Normalizer.flatMap_waitingRules] at h₂
  have hsteps : Normalizer.Steps order [] seen
      (ontology.all order.componentBreaksDown ∧ order.stepsBreakDown [] (ruleSteps ontology))
      s₀ s₂ := h₁.steps.trans h₂
  have hfine : order.ontologyBreaksDown ontology ↔
      (ontology.all order.componentBreaksDown ∧ order.stepsBreakDown [] (ruleSteps ontology)) := by
    simp [ontologyBreaksDown]
  have hincls : Settles (Failure.Permitted (order.ontologyBreaksDown ontology)) _ _ :=
    Normalizer.settles_normalizeInclusions_of_tracked (fun h => hsteps.tracked hs₀ (hfine.mp h))
      (fun h => hsteps.stuck hs₀ fun h' => h (hfine.mpr h'))
  apply hincls.bind
  intro s₃ h₃
  exact Ends.settles h₃

/-- Normalisation of an ontology ends, whatever fuel beyond some amount it gets.  It never panics
when every inclusion pushed as it stands breaks down; otherwise it panics, unless an error is
reported before. -/
theorem processAxioms_panics_unless_breaksDown (order : ExpressionOrder) (axioms : OwlAxioms)
    (index : ℕ) (ontology : List Component) :
    ∃ n r, (∀ fuel, n ≤ fuel →
        (OwlNormalization.new axioms index).processAxioms order fuel ontology = r) ∧
      (order.ontologyBreaksDown ontology → Ends Failure.IsReported (fun _ => True) r) ∧
      (¬ order.ontologyBreaksDown ontology →
        Ends (fun f => f.IsReported ∨ f.IsPanic) (fun _ => False) r) := by
  obtain ⟨n, r, hn, hr⟩ := settles_processAxioms order axioms index ontology
  refine ⟨n, r, hn, fun hfine => ?_, fun hfine => ?_⟩
  · refine (hr.imp fun _ _ => trivial).weaken fun f hf => ?_
    exact hf.resolve_right fun h => h.2 hfine
  · refine (hr.imp fun _ h => hfine h).weaken fun f hf => ?_
    exact hf.imp id And.left

/-- A disjoint union with the complement of an intersection among its operands panics. -/
theorem processAxioms_disjointUnion_panics :
    ¬ ∃ n, ∀ fuel, n ≤ fuel → Ends Failure.IsReported (fun _ => True)
      ((new {} 0).processAxioms structuralOrder fuel
        [.disjointUnion "C" [.objectComplementOf (.objectIntersectionOf [.class "A", .class "B"]),
          .class "D"]]) := by
  rintro ⟨n, h⟩
  exact h (n + 10) (by omega)

end Hermit
