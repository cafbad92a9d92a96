import Hermit.Library.Draining
import Hermit.Structural.NormalizationModels
import Hermit.Structural.StructuralOrder

/-! # The names of definitions

A definition is numbered by the size of the map that it enters.  An entry that is overwritten leaves
the size as it is, so the next definition is given the same number.
-/

namespace Hermit

open List Option

/-- A call that asks for the literal that stands for an expression. -/
inductive DefinitionCall where
  | getDefinitionFor (description : ClassExpr) (forcePositive : Bool)
  | getClassFor (description : ClassExpr)

namespace DefinitionCall

def description : DefinitionCall → ClassExpr
  | .getDefinitionFor description _ => description
  | .getClassFor description => description

def forcePositive : DefinitionCall → Bool
  | .getDefinitionFor _ forcePositive => forcePositive
  | .getClassFor _ => true

end DefinitionCall

/-- The class of a literal. -/
def literalClass : ClassExpr → Option Iri
  | .class c => some c
  | .objectComplementOf (.class c) => some c
  | _ => none

namespace Normalizer

variable (order : ExpressionOrder)

def definitionsCount (s : Normalizer) : ℕ := s.definitions.entries.length

def answer (s : Normalizer) : DefinitionCall → Except Failure (ClassExpr × Normalizer)
  | .getDefinitionFor description forcePositive =>
    let (definition, _, s) := s.getDefinitionFor order description forcePositive
    .ok (definition, s)
  | .getClassFor description => do
    let (c, _, s) ← s.getClassFor order description
    return (.class c, s)

/-- The expressions that are asked for, with the literals that are handed out. -/
def answers : List DefinitionCall → Normalizer →
    Except Failure (List (ClassExpr × ClassExpr) × Normalizer)
  | [], s => .ok ([], s)
  | call :: calls, s => do
    let (definition, s) ← s.answer order call
    let (handedOut, s) ← answers calls s
    return ((call.description, definition) :: handedOut, s)

/-- The call forces a class for an expression that the complement of a class stands for. -/
def Replaces (s : Normalizer) (call : DefinitionCall) : Prop :=
  call.forcePositive = true ∧ ∃ definition, s.definitions.lookup call.description =
    some definition ∧ isClass definition = false

/-- No call of the run replaces a definition. -/
def Undisturbed : List DefinitionCall → Normalizer → Prop
  | [], _ => True
  | call :: calls, s =>
    ¬ s.Replaces call ∧ ∀ definition s', s.answer order call = .ok (definition, s') →
      Undisturbed calls s'

/-- Different expressions, and one expression before and after a replacement, have different names,
and the numbers from the count on are not in use. -/
structure NamesApart (handedOut : List (ClassExpr × ClassExpr)) (s : Normalizer) : Prop where
  named : ∀ p ∈ handedOut, ∃ n, literalClass p.2 = some (definitionName n)
  different : ∀ p ∈ handedOut, ∀ q ∈ handedOut, p.1 ≠ q.1 → literalClass p.2 ≠ literalClass q.2
  replaced : ∀ p ∈ handedOut, ∀ q ∈ handedOut, p.1 = q.1 → isClass p.2 = false →
    isClass q.2 = true →
    literalClass p.2 ≠ literalClass q.2
  unused : ∀ p ∈ handedOut, ∀ n, s.definitionsCount + s.firstReplacementIndex ≤ n →
    literalClass p.2 ≠ some (definitionName n)

/-! ## One call -/

variable {order} {s : Normalizer} {call : DefinitionCall}

/-- The literal that a new definition consists of. -/
def introduced (order : ExpressionOrder) (s : Normalizer) (call : DefinitionCall) : ClassExpr :=
  let fresh := definitionName (s.definitionsCount + s.firstReplacementIndex)
  if !call.forcePositive && !order.plVisit call.description then .objectComplementOf (.class fresh)
    else .class fresh

theorem literalClass_introduced : literalClass (s.introduced order call) = some
    (definitionName (s.definitionsCount + s.firstReplacementIndex)) := by
  unfold introduced
  dsimp only
  split_ifs <;> rfl

/-- A call hands out the definition that is there, unless it has to be replaced, or a new one. -/
theorem answer_cases (order : ExpressionOrder) (s : Normalizer) (call : DefinitionCall) :
    (∃ definition, s.definitions.lookup call.description = some definition ∧ ¬ s.Replaces call ∧
      s.answer order call = .ok (definition, s)) ∨
    ((s.definitions.lookup call.description = none ∨ s.Replaces call) ∧
      s.answer order call = .ok (s.introduced order call,
      { s with definitions := s.definitions.insert call.description (s.introduced order call) })) :=
  by
  cases call with
  | getDefinitionFor description forcePositive =>
    cases hlook : s.definitions.lookup description with
    | none =>
      refine .inr ⟨.inl hlook, ?_⟩
      simp only [answer, getDefinitionFor, hlook]
      rfl
    | some definition =>
      by_cases hrepl : (forcePositive && !isClass definition) = true
      · obtain ⟨hforce, hcls⟩ := Bool.and_eq_true_iff.mp hrepl
        refine .inr ⟨.inr ⟨hforce, definition, hlook, by simpa using hcls⟩, ?_⟩
        simp only [answer, getDefinitionFor, hlook, hrepl, if_true]
        rfl
      · refine .inl ⟨definition, hlook, ?_, ?_⟩
        · rintro ⟨hforce, definition', hlook', hcls⟩
          obtain rfl := some.inj (hlook.symm.trans hlook')
          rw [show forcePositive = true from hforce, hcls] at hrepl
          exact hrepl rfl
        · simp only [answer, getDefinitionFor, hlook, hrepl]
          rfl
  | getClassFor description =>
    have hnew : s.introduceDefinition order description true =
      (s.introduced order (.getClassFor description),
        { s with
          definitions := s.definitions.insert description
            (s.introduced order (.getClassFor description)) }) := rfl
    have hcls : ∃ c, s.introduced order (.getClassFor description) = .class c := ⟨_, rfl⟩
    obtain ⟨c, hc⟩ := hcls
    cases hlook : s.definitions.lookup description with
    | none =>
      refine .inr ⟨.inl hlook, ?_⟩
      simp only [answer, getClassFor, getDefinitionFor, hlook, hnew, hc]
      rfl
    | some definition =>
      cases hdef : isClass definition with
      | true =>
        refine .inl ⟨definition, hlook, ?_, ?_⟩
        · rintro ⟨-, definition', hlook', hcls⟩
          rw [some.inj (hlook.symm.trans hlook'), hcls] at hdef
          cases hdef
        · cases definition with
          | «class» c =>
            simp only [answer, getClassFor, getDefinitionFor, hlook, isClass, Bool.not_true,
                Bool.and_false, Bool.false_eq_true,
              if_false]
            rfl
          | _ => cases hdef
      | false =>
        refine .inr ⟨.inr ⟨rfl, definition, hlook, hdef⟩, ?_⟩
        simp only [answer, getClassFor, getDefinitionFor, hlook, hdef, Bool.not_false,
          Bool.and_self, if_true, hnew, hc]
        rfl

/-! ## Runs -/

/-- Each definition has a number of its own below the count. -/
structure Numbered (s : Normalizer) : Prop where
  named : ∀ e d, s.definitions.lookup e = some d →
    ∃ n < s.definitionsCount, literalClass d = some (definitionName (n + s.firstReplacementIndex))
  apart : ∀ e e' d d', s.definitions.lookup e = some d → s.definitions.lookup e' = some d' →
    literalClass d = literalClass d' → e = e'

theorem numbered_new (axioms : OwlAxioms) (index : ℕ) :
    Numbered { toOwlNormalization := .new axioms index, toAxiomState := {} } :=
  ⟨nofun, nofun⟩

variable {e : ClassExpr} {calls : List DefinitionCall} {handedOut : List (ClassExpr × ClassExpr)}

theorem definitionsCount_insert {d : ClassExpr} (h : s.definitions.lookup e = none) :
    definitionsCount { s with definitions := s.definitions.insert e d } =
    s.definitionsCount + 1 := by
  rw [definitionsCount, AList.entries_insert_of_notMem (AList.lookup_eq_none.mp h)]
  rfl

theorem definitionsCount_insert_of_mem {d : ClassExpr} (h : e ∈ s.definitions) :
    definitionsCount { s with definitions := s.definitions.insert e d } = s.definitionsCount := by
  have hlen : ∀ l : List (Sigma fun _ : ClassExpr => ClassExpr), l.length = l.keys.length := by
    intro l
    rw [List.keys, length_map]
  have hpos : 0 < s.definitions.entries.keys.length := length_pos_of_mem h
  have herase : (s.definitions.entries.keys.erase e).length =
    s.definitions.entries.keys.length - 1 := length_erase_of_mem h
  simp only [definitionsCount]
  rw [AList.entries_insert, length_cons, hlen, keys_kerase, herase, hlen s.definitions.entries]
  omega

theorem Numbered.introduce (h : s.Numbered) (hnone : s.definitions.lookup call.description = none) :
    Numbered { s with
    definitions := s.definitions.insert call.description (s.introduced order call) } := by
  have hname : literalClass (s.introduced order call) =
      some (definitionName (s.definitionsCount + s.firstReplacementIndex)) :=
        literalClass_introduced
  have hcount := definitionsCount_insert (d := s.introduced order call) hnone
  -- The new definition is the only one with the new number.
  have hfresh : ∀ e d, s.definitions.lookup e = some d →
      literalClass d ≠ literalClass (s.introduced order call) := by
    intro e d hlook heq
    obtain ⟨n, hn, hd⟩ := h.named e d hlook
    rw [hd, hname, some.injEq, definitionName_inj] at heq
    omega
  have hcases : ∀ e d, (s.definitions.insert call.description (s.introduced order call)).lookup
    e = some d → e = call.description ∧ d = s.introduced order call ∨ e ≠ call.description ∧
        s.definitions.lookup e = some d := by
    intro e d hlook
    by_cases he : e = call.description
    · rw [he, AList.lookup_insert] at hlook
      exact .inl ⟨he, (some.inj hlook).symm⟩
    · rw [AList.lookup_insert_ne he] at hlook
      exact .inr ⟨he, hlook⟩
  refine ⟨fun e d hlook => ?_, fun e e' d d' hlook hlook' heq => ?_⟩
  · rw [hcount]
    rcases hcases e d hlook with ⟨-, rfl⟩ | ⟨-, hlook⟩
    · exact ⟨s.definitionsCount, by omega, hname⟩
    · obtain ⟨n, hn, hd⟩ := h.named e d hlook
      exact ⟨n, by omega, hd⟩
  · rcases hcases e d hlook with ⟨rfl, rfl⟩ | ⟨-, hlook⟩
    · rcases hcases e' d' hlook' with ⟨rfl, rfl⟩ | ⟨-, hlook'⟩
      · rfl
      · exact absurd heq.symm (hfresh e' d' hlook')
    · rcases hcases e' d' hlook' with ⟨rfl, rfl⟩ | ⟨-, hlook'⟩
      · exact absurd heq (hfresh e d hlook)
      · exact h.apart e e' d d' hlook hlook' heq

/-- A run that replaces no definition hands out the definitions that are there at its end. -/
theorem Numbered.answers (h : s.Numbered) (hcalls : Undisturbed order calls s) :
    ∃ handedOut s', Normalizer.answers order calls s = .ok (handedOut, s') ∧ s'.Numbered ∧
      (∀ e d, s.definitions.lookup e = some d → s'.definitions.lookup e = some d) ∧
      ∀ p ∈ handedOut, s'.definitions.lookup p.1 = some p.2 := by
  induction calls generalizing s with
  | nil => exact ⟨[], s, rfl, h, fun _ _ hlook => hlook, nofun⟩
  | cons call calls ih =>
    obtain ⟨hreplaces, hrest⟩ := hcalls
    have hstep : ∃ definition t, s.answer order call = .ok (definition, t) ∧ t.Numbered ∧
        (∀ e d, s.definitions.lookup e = some d → t.definitions.lookup e = some d) ∧
        t.definitions.lookup call.description = some definition := by
      rcases s.answer_cases order call with ⟨definition, hlook, -, hans⟩ | ⟨hnone, hans⟩
      · exact ⟨definition, s, hans, h, fun _ _ hlook => hlook, hlook⟩
      · have hnone := hnone.resolve_right hreplaces
        refine ⟨_, _, hans, h.introduce hnone, fun e d hlook => ?_, AList.lookup_insert _⟩
        have hne : e ≠ call.description := by
          rintro rfl
          rw [hnone] at hlook
          cases hlook
        exact (AList.lookup_insert_ne hne).trans hlook
    obtain ⟨definition, t, hans, ht, hkeep, hlook⟩ := hstep
    obtain ⟨handedOut, s', hrun, hs', hkeep', hall⟩ := ih ht (hrest definition t hans)
    refine ⟨(call.description, definition) :: handedOut, s', ?_, hs', fun e d he =>
        hkeep' e d (hkeep e d he), ?_⟩
    · rw [Normalizer.answers, hans]
      simp only [bind, Except.bind, hrun]
      rfl
    · intro p hp
      rcases mem_cons.mp hp with rfl | hp
      · exact hkeep' _ _ hlook
      · exact hall p hp

theorem Numbered.namesApart (h : s.Numbered)
    (hall : ∀ p ∈ handedOut, s.definitions.lookup p.1 = some p.2) : NamesApart handedOut s where
  named p hp := by
    obtain ⟨n, -, hn⟩ := h.named p.1 p.2 (hall p hp)
    exact ⟨_, hn⟩
  different p hp q hq hne heq := hne (h.apart p.1 q.1 p.2 q.2 (hall p hp) (hall q hq) heq)
  replaced p hp q hq heq hcls hcls' := by
    have hp' := hall p hp
    rw [heq, hall q hq] at hp'
    rw [some.inj hp', hcls] at hcls'
    cases hcls'
  unused p hp n hn heq := by
    obtain ⟨m, hm, hname⟩ := h.named p.1 p.2 (hall p hp)
    rw [hname, some.injEq, definitionName_inj] at heq
    omega

/-- A defined expression keeps its definition, and the number of the next definition stays or is
used. -/
theorem next_used (he : e ∈ s.definitions) {s' : Normalizer}
    (hrun : answers order calls s = .ok (handedOut, s')) :
    s'.definitionsCount + s'.firstReplacementIndex = s.definitionsCount + s.firstReplacementIndex ∨
      ∃ q ∈ handedOut, q.1 ≠ e ∧ literalClass q.2 = some
      (definitionName (s.definitionsCount + s.firstReplacementIndex)) := by
  induction calls generalizing s handedOut with
  | nil =>
    cases hrun
    exact .inl rfl
  | cons call calls ih =>
    rw [answers] at hrun
    obtain ⟨⟨definition, t⟩, hans, hrun⟩ := Library.ok_of_bind hrun
    obtain ⟨⟨handedOut', t'⟩, hrun', hrest⟩ := Library.ok_of_bind hrun
    cases hrest
    rcases s.answer_cases order call with ⟨definition', -, -, hans'⟩ | ⟨hnew, hans'⟩
    · rw [hans'] at hans
      cases hans
      exact (ih he hrun').imp_right fun ⟨q, hq, hrest⟩ => ⟨q, mem_cons_of_mem _ hq, hrest⟩
    · rw [hans'] at hans
      cases hans
      by_cases hmem : call.description ∈ s.definitions
      · have hnext := ih ((AList.mem_insert _).mpr (.inr he)) hrun'
        rw [definitionsCount_insert_of_mem hmem] at hnext
        exact hnext.imp_right fun ⟨q, hq, hrest⟩ => ⟨q, mem_cons_of_mem _ hq, hrest⟩
      · refine .inr ⟨_, mem_cons_self, ?_, literalClass_introduced⟩
        rintro rfl
        exact hmem he

theorem NamesApart.tail {p : ClassExpr × ClassExpr} (h : NamesApart (p :: handedOut) s) :
    NamesApart handedOut s where
  named q hq := h.named q (mem_cons_of_mem _ hq)
  different q hq r hr := h.different q (mem_cons_of_mem _ hq) r (mem_cons_of_mem _ hr)
  replaced q hq r hr := h.replaced q (mem_cons_of_mem _ hq) r (mem_cons_of_mem _ hr)
  unused q hq := h.unused q (mem_cons_of_mem _ hq)

/-- After a replacement the next number is that of the new definition. -/
theorem undisturbed_of_namesApart {s' : Normalizer}
    (hrun : answers order calls s = .ok (handedOut, s')) (hapart : NamesApart handedOut s') :
    Undisturbed order calls s := by
  induction calls generalizing s handedOut with
  | nil => trivial
  | cons call calls ih =>
    rw [answers] at hrun
    obtain ⟨⟨definition, t⟩, hans, hrun⟩ := Library.ok_of_bind hrun
    obtain ⟨⟨handedOut', t'⟩, hrun', hrest⟩ := Library.ok_of_bind hrun
    cases hrest
    constructor
    · intro hreplaces
      rcases s.answer_cases order call with ⟨definition', -, hnot, -⟩ | ⟨-, hans'⟩
      · exact hnot hreplaces
      obtain ⟨-, old, hold, -⟩ := hreplaces
      have hmem : call.description ∈ s.definitions := by
        rw [← AList.lookup_isSome, hold]
        rfl
      rw [hans'] at hans
      cases hans
      rcases next_used ((AList.mem_insert _).mpr (.inl rfl)) hrun' with hnext | ⟨q, hq, hne, hname⟩
      · rw [definitionsCount_insert_of_mem hmem] at hnext
        exact hapart.unused _ mem_cons_self _ hnext.le literalClass_introduced
      · rw [definitionsCount_insert_of_mem hmem] at hname
        exact hapart.different _ mem_cons_self q (mem_cons_of_mem _ hq) (Ne.symm hne)
          (literalClass_introduced.trans hname.symm)
    · intro definition' u hans'
      rw [hans] at hans'
      cases hans'
      exact ih hrun' hapart.tail

end Normalizer

open Normalizer

/-- Every run of calls on a new normaliser hands out literals, and their names are kept apart if and
only if no call forces a class for an expression that the complement of a class stands for. -/
theorem definitionNames_apart_iff (order : ExpressionOrder) (axioms : OwlAxioms) (index : ℕ)
    (calls : List DefinitionCall) :
    let start : Normalizer := { toOwlNormalization := .new axioms index, toAxiomState := {} }
    (∃ handedOut s, start.answers order calls = .ok (handedOut, s) ∧ NamesApart handedOut s) ↔
      start.Undisturbed order calls := by
  intro start
  constructor
  · rintro ⟨handedOut, s, hrun, hapart⟩
    exact undisturbed_of_namesApart hrun hapart
  · intro hcalls
    obtain ⟨handedOut, s, hrun, hnumbered, -, hall⟩ := (numbered_new axioms index).answers hcalls
    exact ⟨handedOut, s, hrun, hnumbered.namesApart hall⟩

/-- A definition that is overwritten leaves its number to the next expression. -/
theorem definitionNames_collide :
    let start : Normalizer := { toOwlNormalization := .new {} 0, toAxiomState := {} }
    let hasSelf : ClassExpr := .objectHasSelf (.objectProperty "r")
    ∃ s, start.answers structuralOrder [.getDefinitionFor (.objectComplementOf hasSelf) false,
        .getClassFor (.objectComplementOf hasSelf), .getClassFor hasSelf] =
      .ok ([(.objectComplementOf hasSelf, .objectComplementOf (.class (definitionName 0))),
        (.objectComplementOf hasSelf, .class (definitionName 1)),
          (hasSelf, .class (definitionName 1))], s) ∧
      ¬ NamesApart [(.objectComplementOf hasSelf, .objectComplementOf (.class (definitionName 0))),
        (.objectComplementOf hasSelf, .class (definitionName 1)),
          (hasSelf, .class (definitionName 1))] s := by
  intro start hasSelf
  have hrun : ∃ s,
    start.answers structuralOrder [.getDefinitionFor (.objectComplementOf hasSelf) false,
      .getClassFor (.objectComplementOf hasSelf), .getClassFor hasSelf] =
      .ok ([(.objectComplementOf hasSelf, .objectComplementOf (.class (definitionName 0))),
        (.objectComplementOf hasSelf, .class (definitionName 1)),
          (hasSelf, .class (definitionName 1))], s) := by
    let first := AList.insert (.objectComplementOf hasSelf)
      (.objectComplementOf (.class (definitionName 0))) start.definitions
    let second := AList.insert (.objectComplementOf hasSelf) (.class (definitionName 1)) first
    refine ⟨{ start with definitions := AList.insert hasSelf (.class (definitionName 1)) second },
      ?_⟩
    simp [start, hasSelf, first, second, answers, answer, getClassFor, getDefinitionFor,
        introduceDefinition, ExpressionOrder.plVisit,
      OwlNormalization.new, isClass, bind, Except.bind]
    rfl
  obtain ⟨s, hrun⟩ := hrun
  refine ⟨s, hrun, fun h => ?_⟩
  exact h.different (.objectComplementOf hasSelf, .class (definitionName 1)) (by simp)
    (hasSelf, .class (definitionName 1))
    (by simp) (by simp [hasSelf]) rfl

end Hermit
