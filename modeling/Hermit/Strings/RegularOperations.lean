import Hermit.Library.Automata
import Hermit.Strings.Automaton

/-! # The languages of the regular operations

An automaton over code points is read as an automaton with ε transitions.  Running it on a
word decides the language, and appending one automaton behind states of another multiplies
the words that lead there by the language of the appended one.
-/

namespace Hermit

open List hiding le_refl lt_irrefl

namespace StringAutomaton

open Automata

variable (a b : StringAutomaton)

/-! ## The language -/

def toNFA : εNFA ℕ ℕ where
  step s
    | none => {t | t ∈ a.eps s}
    | some c => {q | ∃ t ∈ a.trans s, t.min ≤ c ∧ c ≤ t.max ∧ t.target = q}
  start := {a.start}
  accept := {s | a.accept s = true}

theorem mem_step_none (s q : ℕ) : q ∈ a.toNFA.step s none ↔ q ∈ a.eps s := Iff.rfl

theorem mem_step_some (s c q : ℕ) :
    q ∈ a.toNFA.step s (some c) ↔ ∃ t ∈ a.trans s, t.min ≤ c ∧ c ≤ t.max ∧ t.target = q := Iff.rfl

def language : Language ℕ := a.toNFA.accepts

theorem mem_language {w : List ℕ} :
    w ∈ a.language ↔ ∃ q, a.accept q = true ∧ w ∈ wordsTo a.toNFA q a.start := by
  unfold language
  rw [mem_accepts_iff]
  constructor
  · rintro ⟨s, rfl, q, hq, hw⟩
    exact ⟨q, hq, hw⟩
  · rintro ⟨q, hq, hw⟩
    exact ⟨a.start, rfl, q, hq, hw⟩

/-- All states exist, and the intervals are not empty and consist of code points. -/
structure WellFormed : Prop where
  start_lt : a.start < a.size
  eps_lt : ∀ s, ∀ e ∈ a.eps s, e < a.size
  target_lt : ∀ s, ∀ t ∈ a.trans s, t.target < a.size
  interval : ∀ s, ∀ t ∈ a.trans s, t.min ≤ t.max ∧ t.max ≤ maxCp

variable {s q : ℕ}

theorem stateAt_of_le (h : a.size ≤ s) : a.stateAt s = {} := by
  unfold stateAt
  rw [getElem?_eq_none h, Option.getD_none]

theorem lt_of_mem_eps {e : ℕ} (h : e ∈ a.eps s) : s < a.size := by
  by_contra hle
  rw [eps, a.stateAt_of_le (Nat.le_of_not_lt hle)] at h
  cases h

theorem lt_of_mem_trans {t : CharTransition} (h : t ∈ a.trans s) : s < a.size := by
  by_contra hle
  rw [trans, a.stateAt_of_le (Nat.le_of_not_lt hle)] at h
  cases h

theorem lt_of_accept (h : a.accept s = true) : s < a.size := by
  by_contra hle
  rw [accept, a.stateAt_of_le (Nat.le_of_not_lt hle)] at h
  cases h

theorem lt_of_mem_step {l : Option ℕ} (h : q ∈ a.toNFA.step s l) : s < a.size := by
  cases l with
  | none => exact a.lt_of_mem_eps h
  | some c =>
    obtain ⟨t, ht, -⟩ := h
    exact a.lt_of_mem_trans ht

variable {a b}

theorem WellFormed.step_lt (h : a.WellFormed) {l : Option ℕ} (hq : q ∈ a.toNFA.step s l) :
    q < a.size := by
  cases l with
  | none => exact h.eps_lt s q hq
  | some c =>
    obtain ⟨t, ht, -, -, rfl⟩ := hq
    exact h.target_lt s t ht

theorem mem_finals (s : ℕ) : s ∈ a.finals ↔ a.accept s = true := by
  unfold finals
  rw [mem_filter, mem_range]
  exact ⟨fun h => h.2, fun h => ⟨a.lt_of_accept h, h⟩⟩

/-! ## Running -/

section running

theorem mem_εClosure_iff_reach (S : Set ℕ) (x : ℕ) :
    x ∈ a.toNFA.εClosure S ↔ ∃ s ∈ S, Relation.ReflTransGen (fun s t => t ∈ a.eps s) s x := by
  constructor
  · intro h
    induction h with
    | base s hs => exact ⟨s, hs, .refl⟩
    | step s t ht _ ih =>
      obtain ⟨r, hr, hrs⟩ := ih
      exact ⟨r, hr, hrs.tail ht⟩
  · rintro ⟨s, hs, hsx⟩
    induction hsx with
    | refl => exact εNFA.εClosure.base s hs
    | tail _ ht ih => exact εNFA.εClosure.step _ _ ht ih

variable {S : Finset ℕ}

theorem WellFormed.mem_epsClosure (h : a.WellFormed) (hS : ∀ s ∈ S, s < a.size) (x : ℕ) :
    x ∈ a.epsClosure S ↔ x ∈ a.toNFA.εClosure (S : Set ℕ) := by
  have huniv : ∀ s ∈ List.range a.size, ∀ t ∈ a.eps s, t ∈ List.range a.size :=
    fun s _ t ht => mem_range.mpr (h.eps_lt s t ht)
  have hseeds : ∀ s ∈ S.sort (· ≤ ·), s ∈ List.range a.size :=
    fun s hs => mem_range.mpr (hS s ((Finset.mem_sort _).mp hs))
  unfold epsClosure
  rw [mem_toFinset, Worklist.mem_reachPush huniv hseeds, mem_εClosure_iff_reach]
  simp [Worklist.Reach]

theorem WellFormed.epsClosure_lt (h : a.WellFormed) (hS : ∀ s ∈ S, s < a.size) :
    ∀ x ∈ a.epsClosure S, x < a.size := by
  intro x hx
  rw [h.mem_epsClosure hS] at hx
  induction hx with
  | base s hs => exact hS s hs
  | step s t ht _ _ => exact h.eps_lt s t ht

theorem mem_moves (S : Finset ℕ) (lo hi x : ℕ) :
    x ∈ a.moves S lo hi ↔ ∃ s ∈ S, ∃ t ∈ a.trans s, (t.min ≤ lo ∧ hi ≤ t.max) ∧ t.target = x := by
  simp [moves, and_assoc]

theorem WellFormed.moves_lt (h : a.WellFormed) {lo hi : ℕ} : ∀ x ∈ a.moves S lo hi, x < a.size := by
  intro x hx
  obtain ⟨s, -, t, ht, -, rfl⟩ := (mem_moves S lo hi x).mp hx
  exact h.target_lt s t ht

/-- One step of a run. -/
theorem WellFormed.mem_epsClosure_moves (h : a.WellFormed) (S : Finset ℕ) (c x : ℕ) :
    x ∈ a.epsClosure (a.moves S c c) ↔ x ∈ a.toNFA.stepSet (S : Set ℕ) c := by
  rw [h.mem_epsClosure h.moves_lt, a.toNFA.mem_stepSet_iff, a.toNFA.mem_εClosure_iff_exists]
  constructor
  · rintro ⟨q, hq, hx⟩
    obtain ⟨s, hs, t, ht, ⟨hmin, hmax⟩, rfl⟩ := (mem_moves S c c q).mp hq
    refine ⟨s, hs, a.toNFA.mem_εClosure_iff_exists.mpr ⟨_, ?_, hx⟩⟩
    exact ⟨t, ht, hmin, hmax, rfl⟩
  · rintro ⟨s, hs, hx⟩
    obtain ⟨q, ⟨t, ht, hmin, hmax, rfl⟩, hx⟩ := a.toNFA.mem_εClosure_iff_exists.mp hx
    exact ⟨t.target, (mem_moves S c c _).mpr ⟨s, hs, t, ht, ⟨hmin, hmax⟩, rfl⟩, hx⟩

theorem accepts_iff (S : Finset ℕ) : a.accepts S = true ↔ ∃ q ∈ S, a.accept q = true := by
  simp [accepts]

theorem foldl_stepSet_empty (w : List ℕ) : w.foldl a.toNFA.stepSet ∅ = ∅ := by
  induction w with
  | nil => rfl
  | cons c w ih => rw [foldl_cons, εNFA.stepSet_empty, ih]

theorem WellFormed.runFrom_iff (h : a.WellFormed) (S : Finset ℕ) (w : List ℕ) :
    a.runFrom S w = true ↔ ∃ q ∈ w.foldl a.toNFA.stepSet (S : Set ℕ), a.accept q = true := by
  induction w generalizing S with
  | nil => exact accepts_iff S
  | cons c w ih =>
    have hstep : (a.epsClosure (a.moves S c c) : Set ℕ) = a.toNFA.stepSet (S : Set ℕ) c := by
      ext x
      exact h.mem_epsClosure_moves S c x
    rw [runFrom, foldl_cons, ← hstep]
    split_ifs with hemp
    · simp [hemp, foldl_stepSet_empty]
    · exact ih _

/-- A run decides the language. -/
theorem WellFormed.run_iff (h : a.WellFormed) (w : List ℕ) : a.run w = true ↔ w ∈ a.language := by
  have hst : ∀ s ∈ ({a.start} : Finset ℕ), s < a.size := by
    intro s hs
    rw [Finset.mem_singleton.mp hs]
    exact h.start_lt
  have hclo : (a.epsClosure {a.start} : Set ℕ) = a.toNFA.εClosure {a.start} := by
    ext x
    rw [Finset.mem_coe, h.mem_epsClosure hst, Finset.coe_singleton]
  unfold run
  rw [h.runFrom_iff, hclo]
  constructor
  · rintro ⟨q, hq, hacc⟩
    exact ⟨q, hacc, hq⟩
  · rintro ⟨q, hacc, hq⟩
    exact ⟨q, hq, hacc⟩

end running

/-! ## Appending and linking -/

@[simp] theorem size_appendStates : (a.appendStates b).size = a.size + b.size := by
  simp [appendStates, size]

theorem stateAt_appendStates_left (h : s < a.size) :
    (a.appendStates b).stateAt s = a.stateAt s := by
  unfold stateAt appendStates
  rw [getElem?_append_left h]

theorem stateAt_appendStates_right (s : ℕ) :
    (a.appendStates b).stateAt (s + a.size) = (b.stateAt s).shift a.size := by
  unfold stateAt appendStates
  rw [getElem?_append_right (Nat.le_add_left a.size s)]
  have hsub : s + a.size - a.states.length = s := Nat.add_sub_cancel s a.size
  rw [hsub, getElem?_map]
  cases b.states[s]? with
  | none => rfl
  | some st => rfl

theorem stateAt_link (clear : Bool) (target s q : ℕ) (hs : s < a.size) :
    (link clear target a s).stateAt q = if q = s then { a.stateAt q with
          eps := (a.stateAt q).eps ++ [target]
          accept := (a.stateAt q).accept && !clear }
      else a.stateAt q := by
  unfold stateAt link
  dsimp only
  rw [getElem?_modify]
  by_cases heq : q = s
  · subst heq
    have hq : a.states[q]? = some (a.states.get ⟨q, hs⟩) := getElem?_eq_getElem hs
    simp [hq]
  · have hne : ¬ s = q := fun h => heq h.symm
    simp [heq, hne]

@[simp] theorem size_link (clear : Bool) (target s : ℕ) :
    (link clear target a s).size = a.size := by
  simp [link, size]

/-- Linking several states: their transitions stay, and they get the ε transition. -/
structure Linked (clear : Bool) (target : ℕ) (sources : List ℕ) (a b : StringAutomaton) : Prop where
  start : b.start = a.start
  size : b.size = a.size
  trans : ∀ s, b.trans s = a.trans s
  eps : ∀ s e, e ∈ b.eps s ↔ e ∈ a.eps s ∨ s ∈ sources ∧ e = target
  accept : ∀ s, b.accept s = true ↔ a.accept s = true ∧ ¬ (clear = true ∧ s ∈ sources)

theorem linked_foldl (clear : Bool) (target : ℕ) {sources : List ℕ}
    (h : ∀ s ∈ sources, s < a.size) :
    Linked clear target sources a (sources.foldl (link clear target) a) := by
  induction sources generalizing a with
  | nil => exact ⟨rfl, rfl, fun _ => rfl, by simp, by simp⟩
  | cons s sources ih =>
    have hs : s < a.size := h s mem_cons_self
    have hrest : ∀ q ∈ sources, q < (link clear target a s).size := by
      intro q hq
      rw [size_link]
      exact h q (mem_cons_of_mem s hq)
    have hlink := ih hrest
    have hstate := fun q => stateAt_link clear target s q hs
    rw [foldl_cons]
    refine ⟨hlink.start, hlink.size.trans (size_link _ _ _), fun q => ?_, fun q e => ?_,
      fun q => ?_⟩
    · rw [hlink.trans, trans, trans, hstate]
      split_ifs <;> rfl
    · rw [hlink.eps, eps, eps, hstate]
      by_cases heq : q = s
      · simp [heq, or_assoc]
        tauto
      · simp [heq]
    · rw [hlink.accept, accept, accept, hstate]
      by_cases heq : q = s
      · cases clear <;> simp [heq]
      · simp [heq]

/-! ## Appending an automaton behind states -/

theorem mem_step_appendStates_left (h : s < a.size) (l : Option ℕ) (q : ℕ) :
    q ∈ (a.appendStates b).toNFA.step s l ↔ q ∈ a.toNFA.step s l := by
  have hstate := stateAt_appendStates_left (b := b) h
  cases l with
  | none => rw [mem_step_none, mem_step_none, eps, eps, hstate]
  | some c => rw [mem_step_some, mem_step_some, trans, trans, hstate]

theorem mem_step_appendStates_right (s : ℕ) (l : Option ℕ) (q : ℕ) :
    q ∈ (a.appendStates b).toNFA.step (s + a.size) l ↔ ∃ r ∈ b.toNFA.step s l, q = r + a.size := by
  have hstate := stateAt_appendStates_right (a := a) (b := b) s
  cases l with
  | none =>
    rw [mem_step_none, eps, hstate]
    simp only [CharState.shift, mem_map, mem_step_none, eps, eq_comm]
  | some c =>
    rw [mem_step_some, trans, hstate]
    simp only [CharState.shift, mem_map]
    constructor
    · rintro ⟨_, ⟨t, ht, rfl⟩, hmin, hmax, rfl⟩
      exact ⟨t.target, ⟨t, ht, hmin, hmax, rfl⟩, rfl⟩
    · rintro ⟨_, ⟨t, ht, hmin, hmax, rfl⟩, rfl⟩
      exact ⟨_, ⟨t, ht, rfl⟩, hmin, hmax, rfl⟩

/-- The second automaton behind some states of the first. -/
def attach (clear : Bool) (sources : List ℕ) (a b : StringAutomaton) : StringAutomaton :=
  sources.foldl (link clear (b.start + a.size)) (a.appendStates b)

section attach

variable {clear : Bool} {sources : List ℕ}

theorem linked_attach (hsrcs : ∀ s ∈ sources, s < a.size) :
    Linked clear (b.start + a.size) sources (a.appendStates b) (attach clear sources a b) := by
  apply linked_foldl
  intro s hs
  rw [size_appendStates]
  exact Nat.lt_add_right b.size (hsrcs s hs)

theorem size_attach (hsrcs : ∀ s ∈ sources, s < a.size) :
    (attach clear sources a b).size = a.size + b.size := by
  rw [(linked_attach hsrcs).size, size_appendStates]

theorem start_attach (hsrcs : ∀ s ∈ sources, s < a.size) :
    (attach clear sources a b).start = a.start :=
  (linked_attach hsrcs).start

theorem mem_step_attach (hsrcs : ∀ s ∈ sources, s < a.size) (s : ℕ) (l : Option ℕ) (q : ℕ) :
    q ∈ (attach clear sources a b).toNFA.step s l ↔
      q ∈ (a.appendStates b).toNFA.step s l ∨ l = none ∧ s ∈ sources ∧ q = b.start + a.size := by
  have hlinked : Linked clear (b.start + a.size) sources (a.appendStates b)
    (attach clear sources a b) :=
    linked_attach hsrcs
  cases l with
  | none => simpa [mem_step_none] using hlinked.eps s q
  | some c => simp [mem_step_some, hlinked.trans]

theorem accept_attach_left (hsrcs : ∀ s ∈ sources, s < a.size) {s : ℕ} (hs : s < a.size) :
    (attach clear sources a b).accept s = true ↔
      a.accept s = true ∧ ¬ (clear = true ∧ s ∈ sources) := by
  rw [(linked_attach hsrcs).accept, accept, stateAt_appendStates_left hs]
  rfl

theorem accept_attach_right (hsrcs : ∀ s ∈ sources, s < a.size) (s : ℕ) :
    (attach clear sources a b).accept (s + a.size) = true ↔ b.accept s = true := by
  have hnm : s + a.size ∉ sources := by
    intro hmem
    have := hsrcs _ hmem
    omega
  rw [(linked_attach hsrcs).accept, accept, stateAt_appendStates_right]
  simp only [hnm, and_false, not_false_eq_true, and_true]
  rfl

section

variable (ha : a.WellFormed) (hsrcs : ∀ s ∈ sources, s < a.size)
include ha hsrcs

/-- The words that lead into the first automaton are its own; those that lead into the second
one lead to one of the sources first. -/
theorem WellFormed.forward_attach : Forward (attach clear sources a b).toNFA fun q => {w |
      (q < a.size ∧ w ∈ wordsTo a.toNFA q a.start) ∨
      ∃ r, q = r + a.size ∧ ∃ u v, w = u ++ v ∧ (∃ s ∈ sources, u ∈ wordsTo a.toNFA s a.start) ∧
        v ∈ wordsTo b.toNFA r b.start} := by
  intro s l q hq w hw
  rcases (mem_step_attach hsrcs s l q).mp hq with hq | ⟨rfl, hs, rfl⟩
  · rcases hw with ⟨hs, hw⟩ | ⟨r, rfl, u, v, rfl, hu, hv⟩
    · rw [mem_step_appendStates_left hs] at hq
      exact .inl ⟨ha.step_lt hq, wordsTo_step hq hw⟩
    · obtain ⟨r', hr', rfl⟩ := (mem_step_appendStates_right r l q).mp hq
      exact .inr ⟨r', rfl, u, v ++ l.toList, append_assoc u v _, hu, wordsTo_step hr' hv⟩
  · have hlt := hsrcs s hs
    rcases hw with ⟨-, hw⟩ | ⟨r, rfl, -⟩
    · exact .inr ⟨b.start, rfl, w, [], by simp, ⟨s, hs, hw⟩, nil_mem_wordsTo _⟩
    · omega

theorem WellFormed.wordsTo_attach_left {q : ℕ} (hq : q < a.size) (w : List ℕ) :
    w ∈ wordsTo (attach clear sources a b).toNFA q a.start ↔ w ∈ wordsTo a.toNFA q a.start := by
  constructor
  · intro hw
    have hst : a.start < a.size ∧ [] ∈ wordsTo a.toNFA a.start a.start :=
      ⟨ha.start_lt, nil_mem_wordsTo _⟩
    rcases (ha.forward_attach (b := b) hsrcs).mem_of_wordsTo (.inl hst) hw
      with h | ⟨r, rfl, -⟩
    · exact h.2
    · omega
  · refine wordsTo_map id fun s l t ht => ?_
    exact (mem_step_attach hsrcs s l t).mpr
      (.inl ((mem_step_appendStates_left (a.lt_of_mem_step ht) l t).mpr ht))

theorem WellFormed.wordsTo_attach_right (q : ℕ) (w : List ℕ) :
    w ∈ wordsTo (attach clear sources a b).toNFA (q + a.size) a.start ↔
      ∃ u v, w = u ++ v ∧ (∃ s ∈ sources, u ∈ wordsTo a.toNFA s a.start) ∧
        v ∈ wordsTo b.toNFA q b.start := by
  constructor
  · intro hw
    have hst : a.start < a.size ∧ [] ∈ wordsTo a.toNFA a.start a.start :=
      ⟨ha.start_lt, nil_mem_wordsTo _⟩
    rcases (ha.forward_attach (b := b) hsrcs).mem_of_wordsTo (.inl hst) hw with h | ⟨r, hr, h⟩
    · omega
    · obtain rfl : q = r := by omega
      exact h
  · rintro ⟨u, v, rfl, ⟨s, hs, hu⟩, hv⟩
    have hu' : u ∈ wordsTo (attach clear sources a b).toNFA s a.start :=
      (ha.wordsTo_attach_left hsrcs (hsrcs s hs) u).mpr hu
    have hlink : b.start + a.size ∈ (attach clear sources a b).toNFA.step s none :=
      (mem_step_attach hsrcs s none _).mpr (.inr ⟨rfl, hs, rfl⟩)
    have hv' : v ∈ wordsTo (attach clear sources a b).toNFA (q + a.size) (b.start + a.size) := by
      refine wordsTo_map (· + a.size) (fun r l t ht => ?_) hv
      exact (mem_step_attach hsrcs _ l _).mpr
        (.inl ((mem_step_appendStates_right r l _).mpr ⟨t, ht, rfl⟩))
    have hmid := wordsTo_step hlink hu'
    simp only [Option.toList_none, append_nil] at hmid
    exact append_mem_wordsTo hmid hv'

end

theorem WellFormed.attach (ha : a.WellFormed) (hb : b.WellFormed)
    (hsrcs : ∀ s ∈ sources, s < a.size) : (attach clear sources a b).WellFormed := by
  have hlinked : Linked clear (b.start + a.size) sources (a.appendStates b)
    (StringAutomaton.attach clear sources a b) := linked_attach hsrcs
  have hsize : (StringAutomaton.attach clear sources a b).size = a.size + b.size :=
    size_attach hsrcs
  -- every state is one of the first automaton or a shifted one of the second
  have hcases : ∀ s, s < a.size ∨ ∃ r, s = r + a.size := by
    intro s
    rcases Nat.lt_or_ge s a.size with hs | hs
    · exact .inl hs
    · exact .inr ⟨s - a.size, by omega⟩
  have htrans : ∀ s, ∀ t ∈ (StringAutomaton.attach clear sources a b).trans s,
      t.target < a.size + b.size ∧ t.min ≤ t.max ∧ t.max ≤ maxCp := by
    intro s t ht
    rw [hlinked.trans, trans] at ht
    rcases hcases s with hs | ⟨r, rfl⟩
    · rw [stateAt_appendStates_left hs] at ht
      exact ⟨Nat.lt_add_right b.size (ha.target_lt s t ht), ha.interval s t ht⟩
    · rw [stateAt_appendStates_right] at ht
      obtain ⟨t', ht', rfl⟩ := mem_map.mp ht
      have hlt := hb.target_lt r t' ht'
      exact ⟨by dsimp only; omega, hb.interval r t' ht'⟩
  refine ⟨?_, fun s e he => ?_, fun s t ht => ?_, fun s t ht => (htrans s t ht).2⟩
  · rw [hsize, start_attach hsrcs]
    exact Nat.lt_add_right b.size ha.start_lt
  · rw [hsize]
    rcases (hlinked.eps s e).mp he with he | ⟨-, rfl⟩
    · rw [eps] at he
      rcases hcases s with hs | ⟨r, rfl⟩
      · rw [stateAt_appendStates_left hs] at he
        exact Nat.lt_add_right b.size (ha.eps_lt s e he)
      · rw [stateAt_appendStates_right] at he
        obtain ⟨e', he', rfl⟩ := mem_map.mp he
        have hlt := hb.eps_lt r e' he'
        omega
    · have hlt := hb.start_lt
      omega
  · rw [hsize]
    exact (htrans s t ht).1

end attach

/-! ## Concatenation and repetition -/

theorem finals_lt : ∀ s ∈ a.finals, s < a.size :=
  fun s hs => a.lt_of_accept ((mem_finals s).mp hs)

theorem WellFormed.concatenate (ha : a.WellFormed) (hb : b.WellFormed) :
    (a.concatenate b).WellFormed :=
  ha.attach hb finals_lt

theorem WellFormed.language_concatenate (ha : a.WellFormed) :
    (a.concatenate b).language = a.language * b.language := by
  ext w
  have hconcat : a.concatenate b = StringAutomaton.attach true a.finals a b := rfl
  rw [mem_language, Language.mem_mul, hconcat, start_attach finals_lt]
  constructor
  · rintro ⟨q, hq, hw⟩
    rcases Nat.lt_or_ge q a.size with hlt | hge
    · obtain ⟨hacc, hclear⟩ := (accept_attach_left finals_lt hlt).mp hq
      exact absurd ⟨rfl, (mem_finals q).mpr hacc⟩ hclear
    · obtain ⟨r, rfl⟩ : ∃ r, q = r + a.size := ⟨q - a.size, by omega⟩
      obtain ⟨u, v, rfl, ⟨s, hs, hu⟩, hv⟩ := (ha.wordsTo_attach_right finals_lt r w).mp hw
      refine ⟨u, a.mem_language.mpr ⟨s, (mem_finals s).mp hs, hu⟩, v, ?_, rfl⟩
      exact b.mem_language.mpr ⟨r, (accept_attach_right finals_lt r).mp hq, hv⟩
  · rintro ⟨u, hu, v, hv, rfl⟩
    obtain ⟨s, hs, hu⟩ := a.mem_language.mp hu
    obtain ⟨r, hr, hv⟩ := b.mem_language.mp hv
    refine ⟨r + a.size, (accept_attach_right finals_lt r).mpr hr, ?_⟩
    exact (ha.wordsTo_attach_right finals_lt r _).mpr
      ⟨u, v, rfl, ⟨s, (mem_finals s).mpr hs, hu⟩, hv⟩

/-- The copies so far: the words that lead to the last one, and those accepted before it. -/
structure Copies (a : StringAutomaton) (min copies : ℕ) (r : StringAutomaton × List ℕ) : Prop where
  wellFormed : r.1.WellFormed
  lt : ∀ s ∈ r.2, s < r.1.size
  accept : ∀ s ∈ r.2, r.1.accept s = true
  last : ∀ w, (∃ s ∈ r.2, w ∈ wordsTo r.1.toNFA s r.1.start) ↔ w ∈ a.language ^ copies
  earlier : ∀ w, (∃ q, r.1.accept q = true ∧ q ∉ r.2 ∧ w ∈ wordsTo r.1.toNFA q r.1.start) ↔
    ∃ k, min ≤ k ∧ k < copies ∧ w ∈ a.language ^ k

theorem Copies.addCopy (ha : a.WellFormed) {min copies : ℕ} {r : StringAutomaton × List ℕ}
    (h : Copies a min copies r) : Copies a min (copies + 1) (a.addCopy min r copies) := by
  have hst : (a.addCopy min r copies).1.start = r.1.start := start_attach h.lt
  have hright : ∀ s w, w ∈ wordsTo (a.addCopy min r copies).1.toNFA (s + r.1.size) r.1.start ↔ _ :=
    h.wellFormed.wordsTo_attach_right h.lt
  refine ⟨h.wellFormed.attach ha h.lt, ?_, ?_, fun w => ?_, fun w => ?_⟩
  · intro s hs
    obtain ⟨s', hs', rfl⟩ := mem_map.mp hs
    have hsize : (a.addCopy min r copies).1.size = r.1.size + a.size := size_attach h.lt
    have hlt := finals_lt s' hs'
    omega
  · intro s hs
    obtain ⟨s', hs', rfl⟩ := mem_map.mp hs
    exact (accept_attach_right h.lt s').mpr ((mem_finals s').mp hs')
  · rw [hst, pow_succ, Language.mem_mul]
    constructor
    · rintro ⟨s, hs, hw⟩
      obtain ⟨s', hs', rfl⟩ := mem_map.mp hs
      obtain ⟨u, v, rfl, hu, hv⟩ := (hright s' w).mp hw
      exact ⟨u, (h.last u).mp hu, v, a.mem_language.mpr ⟨s', (mem_finals s').mp hs', hv⟩, rfl⟩
    · rintro ⟨u, hu, v, hv, rfl⟩
      obtain ⟨s, hs, hv⟩ := a.mem_language.mp hv
      refine ⟨s + r.1.size, mem_map.mpr ⟨s, (mem_finals s).mpr hs, rfl⟩, ?_⟩
      exact (hright s _).mpr ⟨u, v, rfl, (h.last u).mpr hu, hv⟩
  · rw [hst]
    constructor
    · rintro ⟨q, hq, hnm, hw⟩
      rcases Nat.lt_or_ge q r.1.size with hlt | hge
      · obtain ⟨hacc, hclear⟩ := (accept_attach_left h.lt hlt).mp hq
        have hw' := (h.wellFormed.wordsTo_attach_left h.lt hlt w).mp hw
        by_cases hmem : q ∈ r.2
        · refine ⟨copies, ?_, Nat.lt_succ_self copies, (h.last w).mp ⟨q, hmem, hw'⟩⟩
          simpa [hmem] using hclear
        · obtain ⟨k, hmin, hk, hw⟩ := (h.earlier w).mp ⟨q, hacc, hmem, hw'⟩
          exact ⟨k, hmin, Nat.lt_succ_of_lt hk, hw⟩
      · obtain ⟨s, rfl⟩ : ∃ s, q = s + r.1.size := ⟨q - r.1.size, by omega⟩
        have hs := (accept_attach_right h.lt s).mp hq
        exact absurd (mem_map.mpr ⟨s, (mem_finals s).mpr hs, rfl⟩) hnm
    · rintro ⟨k, hmin, hk, hw⟩
      have hold : ∀ q < r.1.size, q ∉ (a.addCopy min r copies).2 := by
        intro q hq hmem
        obtain ⟨s, -, rfl⟩ := mem_map.mp hmem
        omega
      rcases Nat.lt_succ_iff_lt_or_eq.mp hk with hk | rfl
      · obtain ⟨q, hq, hnm, hw⟩ := (h.earlier w).mpr ⟨k, hmin, hk, hw⟩
        have hlt := r.1.lt_of_accept hq
        refine ⟨q, (accept_attach_left h.lt hlt).mpr ⟨hq, ?_⟩, hold q hlt, ?_⟩
        · exact fun hclear => hnm hclear.2
        · exact (h.wellFormed.wordsTo_attach_left h.lt hlt w).mpr hw
      · obtain ⟨q, hq, hw⟩ := (h.last w).mpr hw
        have hlt := h.lt q hq
        refine ⟨q, (accept_attach_left h.lt hlt).mpr ⟨h.accept q hq, ?_⟩, hold q hlt, ?_⟩
        · simp only [decide_eq_true_eq]
          omega
        · exact (h.wellFormed.wordsTo_attach_left h.lt hlt w).mpr hw

theorem wellFormed_epsilon : epsilon.WellFormed := by
  have hstate : ∀ s, (epsilon.stateAt s).trans = [] ∧ (epsilon.stateAt s).eps = [] := by
    intro s
    cases s with
    | zero | succ s => exact ⟨rfl, rfl⟩
  refine ⟨Nat.one_pos, fun s e he => ?_, fun s t ht => ?_, fun s t ht => ?_⟩
  · rw [eps, (hstate s).2] at he
    cases he
  · rw [trans, (hstate s).1] at ht
    cases ht
  · rw [trans, (hstate s).1] at ht
    cases ht

theorem wordsTo_epsilon {w : List ℕ} :
    w ∈ wordsTo epsilon.toNFA q epsilon.start ↔ q = 0 ∧ w = [] := by
  have hfwd : Forward epsilon.toNFA fun q => {w | q = 0 ∧ w = []} := by
    intro s l q hq
    have hlt := epsilon.lt_of_mem_step hq
    obtain rfl : s = 0 := Nat.lt_one_iff.mp hlt
    cases l with
    | none => cases hq
    | some c =>
      obtain ⟨t, ht, -⟩ := hq
      cases ht
  constructor
  · intro hw
    exact hfwd.mem_of_wordsTo ⟨rfl, rfl⟩ hw
  · rintro ⟨rfl, rfl⟩
    exact nil_mem_wordsTo _

theorem copies_epsilon (min : ℕ) : Copies a min 0 (epsilon, [epsilon.start]) := by
  refine ⟨wellFormed_epsilon, ?_, ?_, fun w => ?_, fun w => ?_⟩
  · intro s hs
    rw [mem_singleton.mp hs]
    exact wellFormed_epsilon.start_lt
  · intro s hs
    rw [mem_singleton.mp hs]
    rfl
  · rw [pow_zero, Language.mem_one]
    simp only [mem_singleton, exists_eq_left]
    rw [wordsTo_epsilon]
    exact ⟨fun h => h.2, fun h => ⟨rfl, h⟩⟩
  · constructor
    · rintro ⟨q, -, hnm, hw⟩
      obtain ⟨rfl, -⟩ := wordsTo_epsilon.mp hw
      exact absurd mem_cons_self hnm
    · rintro ⟨k, -, hk, -⟩
      omega

theorem WellFormed.copies_foldl (ha : a.WellFormed) (min copies : ℕ) :
    Copies a min copies ((List.range copies).foldl (a.addCopy min) (epsilon, [epsilon.start])) := by
  induction copies with
  | zero => exact copies_epsilon min
  | succ copies ih =>
    rw [range_succ, foldl_append]
    exact ih.addCopy ha

theorem wellFormed_emptyLanguage : emptyLanguage.WellFormed := by
  have hstate : ∀ s, emptyLanguage.stateAt s = {} := by
    intro s
    cases s with
    | zero => rfl
    | succ s => rfl
  refine ⟨Nat.one_pos, fun s e he => ?_, fun s t ht => ?_, fun s t ht => ?_⟩
  · rw [eps, hstate s] at he
    cases he
  · rw [trans, hstate s] at ht
    cases ht
  · rw [trans, hstate s] at ht
    cases ht

theorem WellFormed.repeatRange (ha : a.WellFormed) (min max : ℕ) :
    (a.repeatRange min max).WellFormed := by
  unfold StringAutomaton.repeatRange
  split_ifs
  · exact wellFormed_emptyLanguage
  · exact (ha.copies_foldl min max).wellFormed

theorem WellFormed.mem_language_repeatRange (ha : a.WellFormed) (min max : ℕ) (w : List ℕ) :
    w ∈ (a.repeatRange min max).language ↔ ∃ k, min ≤ k ∧ k ≤ max ∧ w ∈ a.language ^ k := by
  unfold StringAutomaton.repeatRange
  split_ifs with hlt
  · constructor
    · intro hw
      obtain ⟨q, hq, -⟩ := emptyLanguage.mem_language.mp hw
      have hlt := emptyLanguage.lt_of_accept hq
      obtain rfl : q = 0 := Nat.lt_one_iff.mp hlt
      cases hq
    · rintro ⟨k, hmin, hmax, -⟩
      omega
  · have hcopies := ha.copies_foldl min max
    rw [mem_language]
    constructor
    · rintro ⟨q, hq, hw⟩
      by_cases hmem : q ∈ ((List.range max).foldl (a.addCopy min) (epsilon, [epsilon.start])).2
      · exact ⟨max, by omega, le_refl max, (hcopies.last w).mp ⟨q, hmem, hw⟩⟩
      · obtain ⟨k, hmin, hk, hw⟩ := (hcopies.earlier w).mp ⟨q, hq, hmem, hw⟩
        exact ⟨k, hmin, hk.le, hw⟩
    · rintro ⟨k, hmin, hk, hw⟩
      rcases Nat.lt_or_eq_of_le hk with hk | rfl
      · obtain ⟨q, hq, -, hw⟩ := (hcopies.earlier w).mpr ⟨k, hmin, hk, hw⟩
        exact ⟨q, hq, hw⟩
      · obtain ⟨q, hq, hw⟩ := (hcopies.last w).mpr hw
        exact ⟨q, hcopies.accept q hq, hw⟩

/-! ## A new start -/

/-- The automaton with one more state, from which it starts. -/
def withStart (a : StringAutomaton) (st : CharState) : StringAutomaton := ⟨a.size, a.states ++ [st]⟩

variable (st : CharState)

theorem stateAt_withStart (s : ℕ) :
    (a.withStart st).stateAt s = if s = a.size then st else a.stateAt s := by
  unfold stateAt withStart
  dsimp only
  rcases Nat.lt_trichotomy s a.size with hlt | rfl | hgt
  · rw [getElem?_append_left hlt, if_neg (Nat.ne_of_lt hlt)]
  · have hlast : (a.states ++ [st])[a.size]? = some st := getElem?_concat_length
    rw [hlast, if_pos rfl]
    rfl
  · have hnone : (a.states ++ [st])[s]? = none := by
      apply getElem?_eq_none
      rw [length_append, length_singleton]
      exact hgt
    have hnone' : a.states[s]? = none := getElem?_eq_none hgt.le
    rw [hnone, hnone', if_neg (Nat.ne_of_gt hgt)]

theorem mem_step_withStart {targets : List ℕ} {accepts : Bool} (s : ℕ) (l : Option ℕ) (q : ℕ) :
    q ∈ (a.withStart { eps := targets, accept := accepts }).toNFA.step s l ↔
      q ∈ a.toNFA.step s l ∨ s = a.size ∧ l = none ∧ q ∈ targets := by
  have hstate := stateAt_withStart (a := a) { eps := targets, accept := accepts } s
  by_cases heq : s = a.size
  · rw [if_pos heq] at hstate
    have hold : a.stateAt s = {} := a.stateAt_of_le heq.ge
    cases l with
    | none =>
      rw [mem_step_none, mem_step_none, eps, eps, hstate, hold]
      simp [heq]
    | some c => simp [mem_step_some, trans, hstate, hold]
  · rw [if_neg heq] at hstate
    cases l with
    | none => simp [mem_step_none, eps, hstate, heq]
    | some c => simp [mem_step_some, trans, hstate, heq]

theorem accept_withStart (s : ℕ) :
    (a.withStart st).accept s = if s = a.size then st.accept else a.accept s := by
  unfold accept
  rw [stateAt_withStart]
  split_ifs <;> rfl

theorem size_withStart : (a.withStart st).size = a.size + 1 := by
  simp [withStart, size]

/-- The states keep their transitions, and the new start leads to states there are. -/
theorem wellFormed_withStart {targets : List ℕ} {accepts : Bool}
    (heps : ∀ s, ∀ e ∈ a.eps s, e < a.size) (htgt : ∀ s, ∀ t ∈ a.trans s, t.target < a.size)
    (hintv : ∀ s, ∀ t ∈ a.trans s, t.min ≤ t.max ∧ t.max ≤ maxCp)
    (htgts : ∀ e ∈ targets, e < a.size) :
    (a.withStart { eps := targets, accept := accepts }).WellFormed := by
  have htrans : ∀ s, ∀ t ∈ (a.withStart { eps := targets, accept := accepts }).trans s,
      t ∈ a.trans s := by
    intro s t ht
    rw [trans, stateAt_withStart] at ht
    split_ifs at ht
    · cases ht
    · exact ht
  refine ⟨?_, fun s e he => ?_, fun s t ht => ?_, fun s t ht => hintv s t (htrans s t ht)⟩
  · rw [size_withStart]
    exact Nat.lt_succ_self a.size
  · rw [size_withStart]
    rw [eps, stateAt_withStart] at he
    split_ifs at he
    · exact Nat.lt_succ_of_lt (htgts e he)
    · exact Nat.lt_succ_of_lt (heps s e he)
  · rw [size_withStart]
    exact Nat.lt_succ_of_lt (htgt s t (htrans s t ht))

theorem union_eq : a.union b =
    (a.appendStates b).withStart { eps := [a.start, b.start + a.size] } := rfl

theorem attach_nil : StringAutomaton.attach false [] a b = a.appendStates b := rfl

theorem WellFormed.union (ha : a.WellFormed) (hb : b.WellFormed) : (a.union b).WellFormed := by
  have happ : (StringAutomaton.attach false [] a b).WellFormed := ha.attach hb (by simp)
  rw [attach_nil] at happ
  rw [union_eq]
  refine wellFormed_withStart happ.eps_lt happ.target_lt happ.interval fun e he => ?_
  have hlt := ha.start_lt
  have hlt' := hb.start_lt
  rw [size_appendStates]
  rcases mem_pair.mp he with rfl | rfl <;> omega

theorem WellFormed.language_union (ha : a.WellFormed) (hb : b.WellFormed) :
    (a.union b).language = a.language + b.language := by
  have hfwd : Forward (a.union b).toNFA fun q => {w | (q < a.size ∧ w ∈ wordsTo a.toNFA q a.start) ∨
      (∃ r < b.size, q = r + a.size ∧ w ∈ wordsTo b.toNFA r b.start) ∨
      q = a.size + b.size ∧ w = []} := by
    intro s l q hq w hw
    rw [union_eq, mem_step_withStart, size_appendStates] at hq
    rcases hw with ⟨hs, hw⟩ | ⟨r, hr, rfl, hw⟩ | ⟨rfl, rfl⟩
    · rcases hq with hq | ⟨rfl, -, -⟩
      · rw [mem_step_appendStates_left hs] at hq
        exact .inl ⟨ha.step_lt hq, wordsTo_step hq hw⟩
      · omega
    · rcases hq with hq | ⟨heq, -, -⟩
      · obtain ⟨r', hr', rfl⟩ := (mem_step_appendStates_right r l q).mp hq
        exact .inr (.inl ⟨r', hb.step_lt hr', rfl, wordsTo_step hr' hw⟩)
      · omega
    · rcases hq with hq | ⟨-, rfl, hq⟩
      · have hlt := (a.appendStates b).lt_of_mem_step hq
        rw [size_appendStates] at hlt
        omega
      · rcases mem_pair.mp hq with rfl | rfl
        · exact .inl ⟨ha.start_lt, nil_mem_wordsTo _⟩
        · exact .inr (.inl ⟨b.start, hb.start_lt, rfl, nil_mem_wordsTo _⟩)
  have hst : (a.union b).start = a.size + b.size := size_appendStates
  have hacc : ∀ s, (a.union b).accept s =
      if s = a.size + b.size then false else (a.appendStates b).accept s := by
    intro s
    rw [union_eq, accept_withStart, size_appendStates]
  ext w
  rw [mem_language, Language.mem_add, hst]
  constructor
  · rintro ⟨q, hq, hw⟩
    rw [hacc] at hq
    rcases hfwd.mem_of_wordsTo (.inr (.inr ⟨rfl, rfl⟩)) hw with
      ⟨hlt, hw'⟩ | ⟨r, hr, rfl, hw'⟩ | ⟨rfl, -⟩
    · rw [if_neg (by omega), accept, stateAt_appendStates_left hlt] at hq
      exact .inl (a.mem_language.mpr ⟨q, hq, hw'⟩)
    · rw [if_neg (by omega), accept, stateAt_appendStates_right] at hq
      exact .inr (b.mem_language.mpr ⟨r, hq, hw'⟩)
    · rw [if_pos rfl] at hq
      cases hq
  · -- the new start leads to both old ones
    have hfst : ∀ e ∈ [a.start, b.start + a.size],
        [] ∈ wordsTo (a.union b).toNFA e (a.size + b.size) := by
      intro e he
      have hstep : e ∈ (a.union b).toNFA.step (a.size + b.size) none := by
        rw [union_eq, mem_step_withStart, size_appendStates]
        exact .inr ⟨rfl, rfl, he⟩
      exact wordsTo_step hstep (nil_mem_wordsTo _)
    have hold : ∀ s l t, t ∈ (a.appendStates b).toNFA.step s l →
        t ∈ (a.union b).toNFA.step s l := by
      intro s l t ht
      rw [union_eq, mem_step_withStart]
      exact .inl ht
    rintro (hw | hw)
    · obtain ⟨q, hq, hw⟩ := a.mem_language.mp hw
      have hlt := a.lt_of_accept hq
      refine ⟨q, ?_, append_mem_wordsTo (hfst a.start mem_cons_self) (wordsTo_map id ?_ hw)⟩
      · rw [hacc, if_neg (by omega), accept, stateAt_appendStates_left hlt]
        exact hq
      · exact fun s l t ht =>
          hold s l t ((mem_step_appendStates_left (a.lt_of_mem_step ht) l t).mpr ht)
    · obtain ⟨q, hq, hw⟩ := b.mem_language.mp hw
      have hlt := b.lt_of_accept hq
      refine ⟨q + a.size, ?_, append_mem_wordsTo (hfst _ (mem_cons_of_mem _ mem_cons_self))
        (wordsTo_map (· + a.size) ?_ hw)⟩
      · rw [hacc, if_neg (by omega), accept, stateAt_appendStates_right]
        exact hq
      · exact fun s l t ht => hold _ l _ ((mem_step_appendStates_right s l _).mpr ⟨t, ht, rfl⟩)

theorem language_epsilon : epsilon.language = 1 := by
  ext w
  rw [mem_language, Language.mem_one]
  constructor
  · rintro ⟨q, -, hw⟩
    exact (wordsTo_epsilon.mp hw).2
  · rintro rfl
    exact ⟨0, rfl, nil_mem_wordsTo _⟩

theorem repeat_eq : a.repeat =
    (a.finals.foldl (link false a.start) a).withStart { eps := [a.start], accept := true } := by
  unfold StringAutomaton.repeat withStart
  rw [(linked_foldl false a.start finals_lt).size]

theorem WellFormed.repeat (ha : a.WellFormed) : a.repeat.WellFormed := by
  have hlinked := linked_foldl false a.start (finals_lt (a := a))
  rw [repeat_eq]
  refine wellFormed_withStart ?_ ?_ ?_ ?_
  · intro s e he
    rw [hlinked.size]
    rcases (hlinked.eps s e).mp he with he | ⟨-, rfl⟩
    · exact ha.eps_lt s e he
    · exact ha.start_lt
  · intro s t ht
    rw [hlinked.trans] at ht
    rw [hlinked.size]
    exact ha.target_lt s t ht
  · intro s t ht
    rw [hlinked.trans] at ht
    exact ha.interval s t ht
  · intro e he
    rw [mem_singleton.mp he, hlinked.size]
    exact ha.start_lt

theorem mem_step_repeat (s : ℕ) (l : Option ℕ) (q : ℕ) :
    q ∈ a.repeat.toNFA.step s l ↔ q ∈ a.toNFA.step s l ∨
      l = none ∧ (a.accept s = true ∨ s = a.size) ∧ q = a.start := by
  have hlinked := linked_foldl false a.start (finals_lt (a := a))
  rw [repeat_eq, mem_step_withStart, hlinked.size, mem_singleton]
  cases l with
  | none =>
    rw [mem_step_none, mem_step_none, hlinked.eps, mem_finals]
    tauto
  | some c => simp [mem_step_some, hlinked.trans]

theorem WellFormed.language_repeat (ha : a.WellFormed) :
    a.repeat.language = KStar.kstar a.language := by
  have hlinked := linked_foldl false a.start (finals_lt (a := a))
  have hst : a.repeat.start = a.size := rfl
  have hacc : ∀ s, a.repeat.accept s = true ↔ s = a.size ∨ a.accept s = true := by
    intro s
    rw [repeat_eq, accept_withStart, hlinked.size]
    by_cases heq : s = a.size
    · simp [heq]
    · simp [heq, hlinked.accept]
  -- a word that leads to an accepting state ends one more round
  have hround : ∀ w q, a.accept q = true → w ∈ KStar.kstar a.language * wordsTo a.toNFA q a.start →
      w ∈ KStar.kstar a.language := by
    intro w q hq hw
    obtain ⟨u, hu, v, hv, rfl⟩ := Language.mem_mul.mp hw
    obtain ⟨ws, rfl, hws⟩ := Language.mem_kstar.mp hu
    refine Language.mem_kstar.mpr ⟨ws ++ [v], by simp, fun w hw => ?_⟩
    rcases mem_append.mp hw with hw | hw
    · exact hws w hw
    · rw [mem_singleton.mp hw]
      exact a.mem_language.mpr ⟨q, hq, hv⟩
  have hfwd : Forward a.repeat.toNFA fun q => {w |
      (q < a.size ∧ w ∈ KStar.kstar a.language * wordsTo a.toNFA q a.start) ∨ q = a.size ∧
        w = []} := by
    intro s l q hq w hw
    rcases (mem_step_repeat s l q).mp hq with hq | ⟨rfl, hs, rfl⟩
    · rcases hw with ⟨-, hw⟩ | ⟨rfl, -⟩
      · obtain ⟨u, hu, v, hv, rfl⟩ := Language.mem_mul.mp hw
        refine .inl ⟨ha.step_lt hq, Language.mem_mul.mpr ⟨u, hu, _, wordsTo_step hq hv, ?_⟩⟩
        rw [append_assoc]
      · exact absurd (a.lt_of_mem_step hq) (lt_irrefl _)
    · have hw' : w ∈ KStar.kstar a.language := by
        rcases hw with ⟨hlt, hw⟩ | ⟨-, rfl⟩
        · rcases hs with hs | rfl
          · exact hround w s hs hw
          · exact absurd hlt (lt_irrefl _)
        · exact Language.nil_mem_kstar _
      refine .inl ⟨ha.start_lt, Language.mem_mul.mpr ⟨w, hw', [], nil_mem_wordsTo _, ?_⟩⟩
      simp
  ext w
  rw [mem_language, hst]
  constructor
  · rintro ⟨q, hq, hw⟩
    rcases hfwd.mem_of_wordsTo (.inr ⟨rfl, rfl⟩) hw with ⟨hlt, hw⟩ | ⟨-, rfl⟩
    · rcases (hacc q).mp hq with rfl | hq
      · exact absurd hlt (lt_irrefl _)
      · exact hround w q hq hw
    · exact Language.nil_mem_kstar _
  · intro hw
    obtain ⟨ws, rfl, hws⟩ := Language.mem_kstar.mp hw
    -- every list of words leads back to the start or ends in an accepting state
    have hpath : ∀ ws : List (List ℕ), (∀ u ∈ ws, u ∈ a.language) → ∀ s, a.repeat.accept s = true →
        ∃ q, a.repeat.accept q = true ∧ ws.flatten ∈ wordsTo a.repeat.toNFA q s := by
      intro ws hws
      induction ws with
      | nil => exact fun s hs => ⟨s, hs, nil_mem_wordsTo _⟩
      | cons u ws ih =>
        intro s hs
        obtain ⟨q, hq, hu⟩ := a.mem_language.mp (hws u mem_cons_self)
        obtain ⟨r, hr, hrest⟩ := ih (fun v hv => hws v (mem_cons_of_mem u hv)) q
          ((hacc q).mpr (.inr hq))
        refine ⟨r, hr, append_mem_wordsTo ?_ hrest⟩
        have hstep : a.start ∈ a.repeat.toNFA.step s none :=
          (mem_step_repeat s none _).mpr (.inr ⟨rfl, ((hacc s).mp hs).symm, rfl⟩)
        have hu' : u ∈ wordsTo a.repeat.toNFA q a.start :=
          wordsTo_map id (fun s l t ht => (mem_step_repeat s l t).mpr (.inl ht)) hu
        exact append_mem_wordsTo (wordsTo_step hstep (nil_mem_wordsTo s)) hu'
    exact hpath ws hws a.size ((hacc a.size).mpr (.inl rfl))

end StringAutomaton

end Hermit
