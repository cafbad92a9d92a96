import Hermit.Structural.Automaton
import Hermit.Library.Automata

/-! # The languages of the automata

Every operation on automata is characterised by what it does to the accepted
words: reversal and mirroring reverse them, determinisation, normalisation and
minimisation keep them.
-/

namespace Hermit.Automaton

open List hiding lt_irrefl not_lt
open Option hiding or_assoc

open Automata

variable {a : Automaton}

/-- The automaton as a nondeterministic automaton with ε transitions. -/
def toNFA (a : Automaton) : εNFA ObjectPropExpr ℕ where
  step s l := {t | ⟨s, l, t⟩ ∈ a.transitions}
  start := {s | a.isInitial s = true}
  accept := {s | a.isTerminal s = true}

@[simp] theorem mem_toNFA_step (s t : ℕ) (l : Option ObjectPropExpr) :
    t ∈ a.toNFA.step s l ↔ ⟨s, l, t⟩ ∈ a.transitions := Iff.rfl

/-- The words the automaton accepts. -/
def language (a : Automaton) : Language ObjectPropExpr := a.toNFA.accepts

variable {w : List ObjectPropExpr}

theorem mem_language : w ∈ a.language ↔ ∃ p q x, a.isInitial p = true ∧ a.isTerminal q = true ∧
      x.reduceOption = w ∧ a.toNFA.IsPath p q x :=
  a.toNFA.mem_accepts_iff_exists_path

/-- Every transition joins two states of the automaton. -/
def WellFormed (a : Automaton) : Prop :=
  ∀ t ∈ a.transitions, t.start < a.states.length ∧ t.stop < a.states.length

variable {s i source : ℕ} {subset : List ℕ} {found' : Subsets} {l : ObjectPropExpr} {b : Automaton}

theorem isInitial_lt (h : a.isInitial s = true) : s < a.states.length := by
  by_contra hs
  simp [isInitial, getElem?_eq_none (not_lt.mp hs)] at h

theorem isTerminal_lt (h : a.isTerminal s = true) : s < a.states.length := by
  by_contra hs
  simp [isTerminal, getElem?_eq_none (not_lt.mp hs)] at h

@[simp] theorem mem_initials (s : ℕ) : s ∈ a.initials ↔ a.isInitial s = true := by
  simp only [initials, mem_filter, mem_range, and_iff_right_iff_imp]
  exact isInitial_lt

@[simp] theorem mem_terminals (s : ℕ) : s ∈ a.terminals ↔ a.isTerminal s = true := by
  simp only [terminals, mem_filter, mem_range, and_iff_right_iff_imp]
  exact isTerminal_lt

@[simp] theorem states_addTransition (s t : ℕ) (l : Option ObjectPropExpr) :
    (a.addTransition s l t).states = a.states := by
  unfold addTransition
  split <;> rfl

@[simp] theorem mem_addTransition (s t : ℕ) (l : Option ObjectPropExpr) (u : Transition) :
    u ∈ (a.addTransition s l t).transitions ↔ u ∈ a.transitions ∨ u = ⟨s, l, t⟩ := by
  unfold addTransition
  split
  · rename_i h
    constructor
    · exact .inl
    · rintro (hu | rfl)
      · exact hu
      · exact h
  · simp

/-- Adding the images of a list of transitions. -/
theorem foldl_addTransition (f : Transition → Transition) (ts : List Transition) (a : Automaton) :
    (ts.foldl (fun r t => r.addTransition (f t).start (f t).label (f t).stop) a).states = a.states ∧
      ∀ u, u ∈ (ts.foldl
        (fun r t => r.addTransition (f t).start (f t).label (f t).stop) a).transitions ↔
        u ∈ a.transitions ∨ ∃ t ∈ ts, u = f t := by
  induction ts generalizing a with
  | nil => simp
  | cons t ts ih =>
    rw [foldl_cons]
    obtain ⟨hstates, hmem⟩ := ih (a.addTransition (f t).start (f t).label (f t).stop)
    refine ⟨by rw [hstates, states_addTransition], fun u => ?_⟩
    rw [hmem, mem_addTransition, exists_mem_cons_iff, or_assoc]

/-! ## Reversal and mirroring -/

@[simp] theorem states_reversed : a.reversed.states = a.states.map fun s =>
    ⟨s.terminal, s.initial⟩ :=
  (foldl_addTransition (fun t => ⟨t.stop, t.label, t.start⟩) a.transitions _).1

@[simp] theorem mem_reversed (s t : ℕ) (l : Option ObjectPropExpr) :
    ⟨s, l, t⟩ ∈ a.reversed.transitions ↔ ⟨t, l, s⟩ ∈ a.transitions := by
  have h := (foldl_addTransition (fun t => ⟨t.stop, t.label, t.start⟩) a.transitions
    ⟨a.states.map fun s => ⟨s.terminal, s.initial⟩, []⟩).2 ⟨s, l, t⟩
  rw [reversed, h]
  constructor
  · rintro (h | ⟨⟨u, k, v⟩, hmem, heq⟩)
    · simp at h
    · obtain ⟨rfl, rfl, rfl⟩ := Transition.mk.inj heq
      exact hmem
  · exact fun h => .inr ⟨_, h, rfl⟩

@[simp] theorem isInitial_reversed (s : ℕ) : a.reversed.isInitial s = a.isTerminal s := by
  cases h : a.states[s]? <;> simp [isInitial, isTerminal, h]

@[simp] theorem isTerminal_reversed (s : ℕ) : a.reversed.isTerminal s = a.isInitial s := by
  cases h : a.states[s]? <;> simp [isInitial, isTerminal, h]

theorem WellFormed.reversed (h : a.WellFormed) : a.reversed.WellFormed := by
  rintro ⟨s, l, t⟩ ht
  have ht' := h _ ((mem_reversed s t l).mp ht)
  rw [states_reversed, length_map]
  exact ⟨ht'.2, ht'.1⟩

theorem mem_language_reversed (w : List ObjectPropExpr) :
    w ∈ a.reversed.language ↔ w.reverse ∈ a.language := by
  simp only [mem_language, isInitial_reversed, isTerminal_reversed]
  constructor
  · rintro ⟨p, q, x, hp, hq, rfl, hx⟩
    refine ⟨q, p, x.reverse, hq, hp, reduceOption_reverse x, ?_⟩
    have h := isPath_reverse (N := a.toNFA) id
      (fun s l t ht => by simpa using (mem_reversed s t l).mp ht) hx
    simpa using h
  · rintro ⟨p, q, x, hp, hq, hw, hx⟩
    refine ⟨q, p, x.reverse, hq, hp, by rw [reduceOption_reverse, hw, reverse_reverse], ?_⟩
    have h := isPath_reverse (N := a.reversed.toNFA) id (fun s l t ht => by simpa using ht) hx
    simpa using h

/-- The word read backwards along the inverse letters. -/
def mirrorWord (w : List ObjectPropExpr) : List ObjectPropExpr := (w.map inverseProperty).reverse

@[simp] theorem mirrorWord_mirrorWord (w : List ObjectPropExpr) :
    mirrorWord (mirrorWord w) = w := by
  simp [mirrorWord, map_reverse, Function.comp_def]

@[simp] theorem mirrorWord_append (v w : List ObjectPropExpr) :
    mirrorWord (v ++ w) = mirrorWord w ++ mirrorWord v := by
  simp [mirrorWord]

@[simp] theorem states_mirroredCopy :
    a.mirroredCopy.states = a.states.map fun s => ⟨s.terminal, s.initial⟩ :=
  (foldl_addTransition (fun t => ⟨t.stop, t.label.map inverseProperty, t.start⟩) a.transitions _).1

theorem mem_mirroredCopy (s t : ℕ) (l : Option ObjectPropExpr) :
    ⟨s, l, t⟩ ∈ a.mirroredCopy.transitions ↔ ⟨t, l.map inverseProperty, s⟩ ∈ a.transitions := by
  have hinv (k : Option ObjectPropExpr) : (k.map inverseProperty).map inverseProperty = k := by
    cases k <;> simp
  have h := (foldl_addTransition (fun t => ⟨t.stop, t.label.map inverseProperty, t.start⟩)
    a.transitions ⟨a.states.map fun s => ⟨s.terminal, s.initial⟩, []⟩).2 ⟨s, l, t⟩
  rw [mirroredCopy, h]
  constructor
  · rintro (h | ⟨⟨u, k, v⟩, hmem, heq⟩)
    · simp at h
    · obtain ⟨rfl, rfl, rfl⟩ := Transition.mk.inj heq
      rwa [hinv]
  · exact fun h => .inr ⟨_, h, by rw [hinv]⟩

@[simp] theorem isInitial_mirroredCopy (s : ℕ) : a.mirroredCopy.isInitial s = a.isTerminal s := by
  cases h : a.states[s]? <;> simp [isInitial, isTerminal, h]

@[simp] theorem isTerminal_mirroredCopy (s : ℕ) : a.mirroredCopy.isTerminal s = a.isInitial s := by
  cases h : a.states[s]? <;> simp [isInitial, isTerminal, h]

theorem WellFormed.mirroredCopy (h : a.WellFormed) : a.mirroredCopy.WellFormed := by
  rintro ⟨s, l, t⟩ ht
  have ht' := h _ ((mem_mirroredCopy s t l).mp ht)
  rw [states_mirroredCopy, length_map]
  exact ⟨ht'.2, ht'.1⟩

theorem mem_language_mirroredCopy (w : List ObjectPropExpr) :
    w ∈ a.mirroredCopy.language ↔ mirrorWord w ∈ a.language := by
  have hreduce (x : List (Option ObjectPropExpr)) :
      (x.map (Option.map inverseProperty)).reverse.reduceOption = mirrorWord x.reduceOption := by
    rw [reduceOption_reverse, reduceOption_map, mirrorWord]
  simp only [mem_language, isInitial_mirroredCopy, isTerminal_mirroredCopy]
  constructor
  · rintro ⟨p, q, x, hp, hq, rfl, hx⟩
    exact ⟨q, p, _, hq, hp, hreduce x, isPath_reverse inverseProperty
      (fun s l t ht => (mem_mirroredCopy s t l).mp ht) hx⟩
  · rintro ⟨p, q, x, hp, hq, hw, hx⟩
    refine ⟨q, p, _, hq, hp, by rw [hreduce x, hw, mirrorWord_mirrorWord],
      isPath_reverse inverseProperty (fun s l t ht => ?_) hx⟩
    apply (mem_mirroredCopy t s _).mpr
    cases l <;> simpa using ht

/-! ## Determinisation -/

@[simp] theorem mem_successors (l : Option ObjectPropExpr) (s t : ℕ) :
    t ∈ a.successors l s ↔ ⟨s, l, t⟩ ∈ a.transitions := by
  simp only [successors, mem_filterMap, ite_none_right_eq_some, some.injEq]
  constructor
  · rintro ⟨⟨u, k, v⟩, hmem, ⟨rfl, rfl⟩, rfl⟩
    exact hmem
  · intro h
    exact ⟨_, h, ⟨rfl, rfl⟩, rfl⟩

section

variable {seed : List ℕ} (ha : a.WellFormed) (hseed : ∀ s ∈ seed, s < a.states.length)
include ha hseed

theorem mem_closure (s : ℕ) : s ∈ a.closure seed ↔ s ∈ a.toNFA.εClosure {t | t ∈ seed} := by
  have huniv : ∀ s ∈ List.range a.states.length, ∀ t ∈ a.successors none s,
      t ∈ List.range a.states.length := by
    intro s _ t ht
    exact mem_range.mpr (ha _ ((mem_successors none s t).mp ht)).2
  rw [closure, mem_sortDedup, Worklist.mem_reachPop huniv (by simpa using hseed)]
  constructor
  · intro h
    apply h.mem_of_closed
    · exact fun s hs => εNFA.εClosure.base s hs
    · intro s hs t ht
      exact εNFA.εClosure.step s t ((mem_successors none s t).mp ht) hs
  · intro h
    induction h with
    | base s hs => exact .of_mem hs
    | step s t ht _ ih =>
      obtain ⟨r, hr, hrs⟩ := ih
      exact ⟨r, hr, hrs.tail ((mem_successors none s t).mpr ht)⟩

theorem closure_lt (hs : s ∈ a.closure seed) : s < a.states.length := by
  rw [mem_closure ha hseed] at hs
  induction hs with
  | base s hs => exact hseed s hs
  | step s t ht _ _ => exact (ha _ ht).2

end

theorem seedOf_lt (ha : a.WellFormed) (subset : List ℕ) (l : ObjectPropExpr) :
    ∀ s ∈ a.seedOf subset l, s < a.states.length := by
  intro s hs
  obtain ⟨r, -, hr⟩ := mem_flatMap.mp hs
  exact (ha _ ((mem_successors _ r s).mp hr)).2

/-- A subset that agrees with a set of states leads, by a letter, to one that agrees with the
states the letter leads to. -/
theorem mem_closure_seedOf (ha : a.WellFormed) {S : Set ℕ}
    (h : ∀ s, s ∈ subset ↔ s ∈ S) (l : ObjectPropExpr) (s : ℕ) :
    s ∈ a.closure (a.seedOf subset l) ↔ s ∈ a.toNFA.stepSet S l := by
  rw [mem_closure ha (seedOf_lt ha subset l), εNFA.mem_εClosure_iff_exists, εNFA.mem_stepSet_iff]
  constructor
  · rintro ⟨t, ht, hs⟩
    obtain ⟨r, hr, hrt⟩ := mem_flatMap.mp ht
    refine ⟨r, (h r).mp hr, ?_⟩
    rw [εNFA.mem_εClosure_iff_exists]
    exact ⟨t, (mem_successors _ r t).mp hrt, hs⟩
  · rintro ⟨r, hr, hs⟩
    rw [εNFA.mem_εClosure_iff_exists] at hs
    obtain ⟨t, ht, hs⟩ := hs
    exact ⟨t, mem_flatMap.mpr ⟨r, (h r).mpr hr, (mem_successors _ r t).mpr ht⟩, hs⟩

/-- What the search keeps of the subsets it has found: the automaton has one state for each,
the first is the closure of the initial states, and a transition leads to the closure of its
seeds. -/
structure Subsets.Valid (a : Automaton) (found : Subsets) : Prop where
  states : found.result.states = found.subsets.mapIdx fun i subset => ⟨i == 0, a.accepting subset⟩
  first : found.subsets[0]? = some (a.closure a.initials)
  edges : ∀ t ∈ found.result.transitions, ∃ l source, t.label = some l ∧
    found.subsets[t.start]? = some source ∧ a.seedOf source l ≠ [] ∧
      found.subsets[t.stop]? = some (a.closure (a.seedOf source l))
  bound : found.subsets.length ≤ maxDeterministicStates

/-- The transition of a letter out of a subset is there, if it has a seed at all. -/
def Subsets.Followed (a : Automaton) (found : Subsets) (i : ℕ) (l : ObjectPropExpr) : Prop :=
  ∀ subset, found.subsets[i]? = some subset → a.seedOf subset l ≠ [] →
    ∃ j, ⟨i, some l, j⟩ ∈ found.result.transitions

/-- The search only adds subsets and transitions. -/
structure Subsets.Extends (found found' : Subsets) : Prop where
  subsets : ∀ (i : ℕ) subset, found.subsets[i]? = some subset → found'.subsets[i]? = some subset
  transitions : ∀ t ∈ found.result.transitions, t ∈ found'.result.transitions

theorem Subsets.Extends.refl (found : Subsets) : found.Extends found :=
  ⟨fun _ _ h => h, fun _ h => h⟩

theorem Subsets.Extends.trans {f g h : Subsets} (hfg : f.Extends g) (hgh : g.Extends h) :
    f.Extends h :=
  ⟨fun i S hS => hgh.subsets i S (hfg.subsets i S hS),
    fun t ht => hgh.transitions t (hfg.transitions t ht)⟩

theorem Subsets.Extends.followed {found : Subsets} (h : found.Extends found')
    (hi : found.subsets[i]? = some subset) (hf : found.Followed a i l) : found'.Followed a i l := by
  intro subset' hi' hseed
  rw [h.subsets i subset hi, some.injEq] at hi'
  subst hi'
  obtain ⟨j, hj⟩ := hf subset hi hseed
  exact ⟨j, h.transitions _ hj⟩

theorem followLabel_spec {found : Subsets} (hv : found.Valid a)
    (hsrc : found.subsets[source]? = some subset)
    (h : a.followLabel source subset found l = some found') :
    found'.Valid a ∧ found.Extends found' ∧ found'.Followed a source l := by
  rw [followLabel] at h
  split at h
  · rename_i hemp
    rw [some.injEq] at h
    subst h
    refine ⟨hv, .refl _, ?_⟩
    intro subset' hs' hseed
    rw [hsrc, some.injEq] at hs'
    subst hs'
    exact absurd (List.isEmpty_iff.mp hemp) hseed
  · rename_i hseed
    have hseed' : a.seedOf subset l ≠ [] := fun h => hseed (List.isEmpty_iff.mpr h)
    split at h
    · rename_i number hnum
      rw [some.injEq] at h
      subst h
      have hget : found.subsets[number]? = some (a.closure (a.seedOf subset l)) := by
        rw [idxOf?_eq_some_iff] at hnum
        obtain ⟨hlt, heq, -⟩ := hnum
        rw [getElem?_eq_getElem hlt, heq]
      refine ⟨⟨by simpa using hv.states, hv.first, ?_, hv.bound⟩, ⟨fun _ _ h => h, ?_⟩, ?_⟩
      · intro t ht
        rcases (mem_addTransition _ _ _ _).mp ht with ht | rfl
        · exact hv.edges t ht
        · exact ⟨l, subset, rfl, hsrc, hseed', hget⟩
      · intro t ht
        exact (mem_addTransition _ _ _ _).mpr (.inl ht)
      · intro _ _ _
        exact ⟨number, (mem_addTransition _ _ _ _).mpr (.inr rfl)⟩
    · split at h
      · cases h
      · rename_i hbd
        rw [some.injEq] at h
        subst h
        have hpos : 0 < found.subsets.length := by
          by_contra hz
          have hfst := hv.first
          rw [getElem?_eq_none (by omega)] at hfst
          cases hfst
        have hold (i : ℕ) (S : List ℕ) (hi : found.subsets[i]? = some S) :
            (found.subsets ++ [a.closure (a.seedOf subset l)])[i]? = some S := by
          rw [getElem?_append_left (List.getElem?_eq_some_iff.mp hi).1, hi]
        refine ⟨⟨?_, hold 0 _ hv.first, ?_, ?_⟩, ⟨hold, ?_⟩, ?_⟩
        · rw [states_addTransition, addState, hv.states, mapIdx_append]
          have hne : (found.subsets.length == 0) = false := beq_false_of_ne (by omega)
          simp [hne]
        · intro t ht
          rcases (mem_addTransition _ _ _ _).mp ht with ht | rfl
          · obtain ⟨k, S, hk, hstart, hne, hstop⟩ := hv.edges t ht
            exact ⟨k, S, hk, hold _ _ hstart, hne, hold _ _ hstop⟩
          · refine ⟨l, subset, rfl, hold _ _ hsrc, hseed', ?_⟩
            rw [getElem?_append_right le_rfl, Nat.sub_self]
            rfl
        · rw [length_append, length_singleton]
          omega
        · intro t ht
          exact (mem_addTransition _ _ _ _).mpr (.inl ht)
        · intro _ _ _
          exact ⟨_, (mem_addTransition _ _ _ _).mpr (.inr rfl)⟩

theorem followLabels_spec (ls : List ObjectPropExpr) {found : Subsets}
    (hv : found.Valid a) (hsrc : found.subsets[source]? = some subset)
    (h : ls.foldlM (a.followLabel source subset) found = some found') :
    found'.Valid a ∧ found.Extends found' ∧ ∀ l ∈ ls, found'.Followed a source l := by
  induction ls generalizing found with
  | nil =>
    simp only [foldlM_nil, Option.pure_def, some.injEq] at h
    subst h
    exact ⟨hv, .refl _, by simp⟩
  | cons l ls ih =>
    simp only [foldlM_cons, bind_eq_bind, bind_eq_some_iff] at h
    obtain ⟨mid, hmid, hrest⟩ := h
    obtain ⟨hvm, hem, hfm⟩ := followLabel_spec hv hsrc hmid
    obtain ⟨hv', he', hf'⟩ := ih hvm (hem.subsets _ _ hsrc) hrest
    refine ⟨hv', hem.trans he', ?_⟩
    intro k hk
    rcases mem_cons.mp hk with rfl | hk
    · exact he'.followed (hem.subsets _ _ hsrc) hfm
    · exact hf' k hk

/-- The finished search: every letter has been followed out of every subset. -/
structure Subsets.Complete (a : Automaton) (ls : List ObjectPropExpr) (found : Subsets) : Prop where
  valid : found.Valid a
  followed : ∀ i < found.subsets.length, ∀ l ∈ ls, found.Followed a i l

theorem followSubsets_spec (ls : List ObjectPropExpr) (fuel : ℕ) {found : Subsets}
    {result : Automaton} (hfuel : source + fuel = maxDeterministicStates) (hv : found.Valid a)
    (hdone : ∀ i < source, i < found.subsets.length → ∀ l ∈ ls, found.Followed a i l)
    (h : a.followSubsets ls fuel source found = some result) :
    ∃ final : Subsets, final.Complete a ls ∧ final.result = result := by
  induction fuel generalizing source found with
  | zero =>
    rw [followSubsets, some.injEq] at h
    have hbd := hv.bound
    exact ⟨found, ⟨hv, fun i hi => hdone i (by omega) hi⟩, h⟩
  | succ fuel ih =>
    rw [followSubsets] at h
    split at h
    · rename_i hnone
      rw [some.injEq] at h
      have hlen := List.getElem?_eq_none_iff.mp hnone
      exact ⟨found, ⟨hv, fun i hi => hdone i (by omega) hi⟩, h⟩
    · rename_i subset hsrc
      split at h
      · cases h
      · rename_i found' hfold
        obtain ⟨hv', he', hf'⟩ := followLabels_spec ls hv hsrc hfold
        refine ih (by omega) hv' ?_ h
        intro i hi hlen l hl
        by_cases his : i = source
        · subst his
          exact hf' l hl
        · have hilt : i < found.subsets.length := by
            have := (List.getElem?_eq_some_iff.mp hsrc).1
            omega
          exact he'.followed (getElem?_eq_getElem hilt) (hdone i (by omega) hilt l hl)

theorem valid_initial : Subsets.Valid a
    ⟨[a.closure a.initials], empty.addState true (a.accepting (a.closure a.initials))⟩ := by
  refine ⟨?_, rfl, ?_, ?_⟩
  · simp [addState, empty]
  · simp [addState, empty]
  · simp [maxDeterministicStates]

theorem exists_complete_of_determinized {ls : List ObjectPropExpr}
    (h : a.determinized ls = some b) : ∃ found : Subsets,
    found.Complete a ls ∧ found.result = b := by
  exact followSubsets_spec ls maxDeterministicStates (Nat.zero_add _) valid_initial (by simp) h

section

variable {found : Subsets} {ls : List ObjectPropExpr}

theorem Subsets.Valid.isInitial (hv : found.Valid a) (i : ℕ) :
    found.result.isInitial i = true ↔ i = 0 := by
  have hpos : 0 < found.subsets.length := (List.getElem?_eq_some_iff.mp hv.first).1
  rw [Automaton.isInitial, hv.states]
  by_cases hi : i < found.subsets.length
  · simp [getElem?_eq_getElem hi]
  · rw [getElem?_eq_none (by simpa using hi)]
    simp
    omega

theorem Subsets.Valid.isTerminal (hv : found.Valid a) {i : ℕ} {subset : List ℕ}
    (hi : found.subsets[i]? = some subset) :
    found.result.isTerminal i = true ↔ ∃ s ∈ subset, a.isTerminal s = true := by
  rw [Automaton.isTerminal, hv.states]
  simp [hi, accepting]

theorem Subsets.Valid.wellFormed (hv : found.Valid a) : found.result.WellFormed := by
  intro t ht
  obtain ⟨l, source, -, hstart, -, hstop⟩ := hv.edges t ht
  rw [hv.states, length_mapIdx]
  exact ⟨(List.getElem?_eq_some_iff.mp hstart).1, (List.getElem?_eq_some_iff.mp hstop).1⟩

/-- The automaton over the subsets has no ε transition. -/
theorem Subsets.Valid.mem_stepSet (hv : found.Valid a) (S : Set ℕ) (l : ObjectPropExpr) (j : ℕ) :
    j ∈ found.result.toNFA.stepSet S l ↔ ∃ i ∈ S, ⟨i, some l, j⟩ ∈ found.result.transitions := by
  rw [εNFA.mem_stepSet_iff]
  refine exists_congr fun i => and_congr_right fun _ => ⟨?_, fun h => .base j h⟩
  intro h
  cases h with
  | base _ h => exact h
  | step s _ ht _ =>
    obtain ⟨k, _, hk, -⟩ := hv.edges _ ht
    cases hk

/-- The subset reached by a word is the set of states the word leads to, and a word that leads
to some state reaches a subset. -/
theorem Subsets.Complete.eval (hc : found.Complete a ls) (ha : a.WellFormed)
    (hls : ∀ t ∈ a.transitions, ∀ l, t.label = some l → l ∈ ls) (w : List ObjectPropExpr) :
    (∀ j ∈ found.result.toNFA.eval w, ∃ subset, found.subsets[j]? = some subset ∧
      ∀ s, s ∈ subset ↔ s ∈ a.toNFA.eval w) ∧
    ((a.toNFA.eval w).Nonempty → (found.result.toNFA.eval w).Nonempty) := by
  have hv := hc.valid
  induction w using List.reverseRecOn with
  | nil =>
    constructor
    · intro j hj
      have hj0 : j = 0 := by
        rw [εNFA.eval_nil] at hj
        cases hj with
        | base _ h => exact (hv.isInitial j).mp h
        | step s _ ht _ =>
          obtain ⟨k, _, hk, -⟩ := hv.edges _ ht
          cases hk
      subst hj0
      refine ⟨_, hv.first, fun s => ?_⟩
      rw [mem_closure ha (fun s hs => isInitial_lt ((mem_initials s).mp hs))]
      simp [toNFA]
    · intro _
      exact ⟨0, .base 0 ((hv.isInitial 0).mpr rfl)⟩
  | append_singleton w l ih =>
    rw [εNFA.eval_append_singleton, εNFA.eval_append_singleton]
    constructor
    · intro j hj
      obtain ⟨i, hi, ht⟩ := (hv.mem_stepSet _ l j).mp hj
      obtain ⟨subset, hsub, hmem⟩ := ih.1 i hi
      obtain ⟨k, source, hk, hstart, -, hstop⟩ := hv.edges _ ht
      rw [hsub, some.injEq] at hstart
      rw [some.injEq] at hk
      subst hk hstart
      exact ⟨_, hstop, fun s => mem_closure_seedOf ha hmem l s⟩
    · rintro ⟨s, hs⟩
      obtain ⟨t, ht, hts⟩ := εNFA.mem_stepSet_iff.mp hs
      obtain ⟨i, hi⟩ := ih.2 ⟨t, ht⟩
      obtain ⟨subset, hsub, hmem⟩ := ih.1 i hi
      have hseed : a.seedOf subset l ≠ [] := by
        rw [εNFA.mem_εClosure_iff_exists] at hts
        obtain ⟨u, hu, -⟩ := hts
        refine ne_nil_of_mem (a := u) (mem_flatMap.mpr ⟨t, (hmem t).mpr ht, ?_⟩)
        exact (mem_successors _ t u).mpr hu
      have hl : l ∈ ls := by
        rw [εNFA.mem_εClosure_iff_exists] at hts
        obtain ⟨u, hu, -⟩ := hts
        exact hls _ hu l rfl
      obtain ⟨j, hj⟩ := hc.followed i (List.getElem?_eq_some_iff.mp hsub).1 l hl subset hsub hseed
      exact ⟨j, (hv.mem_stepSet _ l j).mpr ⟨i, hi, hj⟩⟩

theorem Subsets.Complete.language (hc : found.Complete a ls) (ha : a.WellFormed)
    (hls : ∀ t ∈ a.transitions, ∀ l, t.label = some l → l ∈ ls) :
    found.result.language = a.language := by
  ext w
  obtain ⟨hsub, hne⟩ := hc.eval ha hls w
  constructor
  · rintro ⟨j, hterm, hj⟩
    obtain ⟨subset, hget, hmem⟩ := hsub j hj
    obtain ⟨s, hs, hst⟩ := (hc.valid.isTerminal hget).mp hterm
    exact ⟨s, hst, (hmem s).mp hs⟩
  · rintro ⟨s, hst, hs⟩
    obtain ⟨j, hj⟩ := hne ⟨s, hs⟩
    obtain ⟨subset, hget, hmem⟩ := hsub j hj
    exact ⟨j, (hc.valid.isTerminal hget).mpr ⟨s, (hmem s).mpr hs, hst⟩, hj⟩

end

/-- Determinisation over a list with all labels keeps the language and gives a well-formed
automaton with exactly one initial state. -/
theorem determinized_spec (ha : a.WellFormed) {ls : List ObjectPropExpr}
    (hls : ∀ t ∈ a.transitions, ∀ l, t.label = some l → l ∈ ls) (h : a.determinized ls = some b) :
    b.language = a.language ∧ b.WellFormed ∧ (∀ s, b.isInitial s = true ↔ s = 0) ∧
      ∀ t ∈ b.transitions, ∀ l, t.label = some l → l ∈ ls := by
  obtain ⟨found, hc, rfl⟩ := exists_complete_of_determinized h
  refine ⟨hc.language ha hls, hc.valid.wellFormed, hc.valid.isInitial, ?_⟩
  intro t ht l hl
  obtain ⟨k, source, hk, -, hne, -⟩ := hc.valid.edges t ht
  rw [hl, some.injEq] at hk
  subst hk
  obtain ⟨s, hs⟩ := exists_mem_of_ne_nil _ hne
  obtain ⟨r, -, hr⟩ := mem_flatMap.mp hs
  exact hls _ ((mem_successors _ r s).mp hr) l rfl

/-! ## Minimisation -/

/-- Exactly one initial and exactly one terminal state, as `automataConnector` needs them. -/
structure Single (a : Automaton) : Prop where
  wellFormed : a.WellFormed
  initial : ∀ s, a.isInitial s = true ↔ s = a.initialState
  terminal : ∀ s, a.isTerminal s = true ↔ s = a.finalState

theorem headD_of_unique {l : List ℕ} {x : ℕ} (h : ∀ s, s ∈ l ↔ s = x) : l.headD 0 = x := by
  cases l with
  | nil => simp at h
  | cons y l => exact (h y).mp (by simp)

theorem Single.mk_of_unique (hw : a.WellFormed) {t : ℕ} (hi : ∀ s, a.isInitial s = true ↔ s = i)
    (ht : ∀ s, a.isTerminal s = true ↔ s = t) : a.Single := by
  have hinit : a.initialState = i := headD_of_unique fun s => by rw [mem_initials, hi]
  have hfinal : a.finalState = t := headD_of_unique fun s => by rw [mem_terminals, ht]
  exact ⟨hw, by rwa [hinit], by rwa [hfinal]⟩

theorem Single.mem_language (h : a.Single) :
    w ∈ a.language ↔ w ∈ wordsTo a.toNFA a.finalState a.initialState := by
  rw [Automaton.mem_language, mem_wordsTo]
  constructor
  · rintro ⟨p, q, x, hp, hq, hw, hx⟩
    rw [h.initial] at hp
    rw [h.terminal] at hq
    subst hp hq
    exact ⟨x, hw, hx⟩
  · rintro ⟨x, hw, hx⟩
    exact ⟨_, _, x, (h.initial _).mpr rfl, (h.terminal _).mpr rfl, hw, hx⟩

/-- Redirecting the listed states to `target` by ε transitions and clearing their flags. -/
theorem foldl_clearTerminal (target : ℕ) (ss : List ℕ) (b : Automaton) :
    let c := ss.foldl (fun b s => (b.clearTerminal s).addTransition s none target) b
    c.states.length = b.states.length ∧ (∀ s, c.isInitial s = b.isInitial s) ∧
      (∀ s, c.isTerminal s = true ↔ b.isTerminal s = true ∧ s ∉ ss) ∧
      ∀ u, u ∈ c.transitions ↔ u ∈ b.transitions ∨ ∃ s ∈ ss, u = ⟨s, none, target⟩ := by
  induction ss generalizing b with
  | nil => simp
  | cons s ss ih =>
    rw [foldl_cons]
    obtain ⟨hlen, hinit, hterm, htrans⟩ := ih ((b.clearTerminal s).addTransition s none target)
    have hget (r : ℕ) : ((b.clearTerminal s).addTransition s none target).states[r]? =
        (b.states[r]?).map fun d => if s = r then { d with terminal := false } else d := by
      rw [states_addTransition, clearTerminal, getElem?_modify]
      cases b.states[r]? with
      | none => simp
      | some d => by_cases hsr : s = r <;> simp [hsr]
    refine ⟨?_, ?_, ?_, ?_⟩
    · rw [hlen, states_addTransition]
      simp [clearTerminal]
    · intro r
      rw [hinit, isInitial, hget, isInitial]
      cases b.states[r]? with
      | none => rfl
      | some d => by_cases hsr : s = r <;> simp [hsr]
    · intro r
      rw [hterm, isTerminal, hget, isTerminal, mem_cons]
      cases b.states[r]? with
      | none => simp
      | some d =>
        by_cases hsr : s = r
        · simp [hsr]
        · simp [hsr, Ne.symm hsr]
    · intro u
      rw [htrans, mem_addTransition, exists_mem_cons_iff, or_assoc]
      rfl

theorem isInitial_addState (s : ℕ) : (a.addState false true).isInitial s = a.isInitial s := by
  rw [isInitial, addState, isInitial]
  rcases lt_trichotomy s a.states.length with hs | rfl | hs
  · rw [getElem?_append_left hs]
  · simp
  · rw [getElem?_eq_none (by simp; omega), getElem?_eq_none (by omega)]

theorem isTerminal_addState (s : ℕ) :
    (a.addState false true).isTerminal s = true ↔ a.isTerminal s = true ∨ s = a.states.length := by
  rw [isTerminal, addState, isTerminal]
  rcases lt_trichotomy s a.states.length with hs | rfl | hs
  · rw [getElem?_append_left hs]
    simp [hs.ne]
  · simp
  · rw [getElem?_eq_none (by simp; omega), getElem?_eq_none (by omega)]
    simp
    omega

/-- The words that lead to a terminal state of `a`, with the empty word at the fresh one. -/
def restNormalized (a : Automaton) (s : ℕ) : Language ObjectPropExpr :=
  {w | if s = a.states.length then w = []
    else ∃ q x, a.isTerminal q = true ∧ x.reduceOption = w ∧ a.toNFA.IsPath s q x}

theorem mem_restNormalized (s : ℕ) (w : List ObjectPropExpr) :
    w ∈ a.restNormalized s ↔ if s = a.states.length then w = []
      else ∃ q x, a.isTerminal q = true ∧ x.reduceOption = w ∧ a.toNFA.IsPath s q x := Iff.rfl

theorem backward_restNormalized (ha : a.WellFormed) (hb : ∀ u, u ∈ b.transitions ↔
      u ∈ a.transitions ∨ ∃ s ∈ a.terminals, u = ⟨s, none, a.states.length⟩) :
    Backward b.toNFA a.restNormalized := by
  intro s l t ht w hw
  rcases (hb _).mp ht with ht | ⟨q, hq, heq⟩
  · obtain ⟨hs, ht'⟩ : s < a.states.length ∧ t < a.states.length := ha _ ht
    rw [mem_restNormalized, if_neg ht'.ne] at hw
    rw [mem_restNormalized, if_neg hs.ne]
    obtain ⟨q, x, hq, rfl, hx⟩ := hw
    refine ⟨q, l :: x, hq, ?_, .cons t s q l x ht hx⟩
    cases l <;> simp
  · obtain ⟨rfl, rfl, rfl⟩ := Transition.mk.inj heq
    rw [mem_terminals] at hq
    rw [mem_restNormalized, if_pos rfl] at hw
    rw [mem_restNormalized, if_neg (isTerminal_lt hq).ne]
    subst hw
    exact ⟨s, [], hq, rfl, .nil s⟩

theorem normalized_spec (ha : a.WellFormed) (hi : ∀ s, a.isInitial s = true ↔ s = i) :
    a.normalized.Single ∧ a.normalized.language = a.language := by
  by_cases hone : a.terminals.length ≠ 1
  · rw [normalized, if_pos hone]
    obtain ⟨hlen, hinit, hterm, htrans⟩ :=
      foldl_clearTerminal a.states.length a.terminals (a.addState false true)
    have hlen' : (a.addState false true).states.length = a.states.length + 1 := by
      simp [addState]
    have hinit' (s : ℕ) := (hinit s).trans (isInitial_addState s)
    have hterm' (s : ℕ) := (hterm s).trans (and_congr_left' (isTerminal_addState s))
    generalize a.terminals.foldl _ _ = b at *
    have hfinal : ∀ s, b.isTerminal s = true ↔ s = a.states.length := by
      intro s
      rw [hterm', mem_terminals]
      constructor
      · rintro ⟨h | h, hn⟩
        · exact absurd h hn
        · exact h
      · rintro rfl
        exact ⟨.inr rfl, fun h => absurd (isTerminal_lt h) (lt_irrefl _)⟩
    have hwf : b.WellFormed := by
      intro u hu
      rw [hlen, hlen']
      rcases (htrans u).mp hu with hu | ⟨s, hs, rfl⟩
      · have := ha u hu
        omega
      · have hlt := isTerminal_lt ((mem_terminals s).mp hs)
        exact ⟨Nat.lt_succ_of_lt hlt, Nat.lt_succ_self _⟩
    refine ⟨.mk_of_unique hwf (fun s => by rw [hinit', hi]) hfinal, ?_⟩
    ext w
    rw [mem_language, mem_language]
    constructor
    · rintro ⟨p, q, x, hp, hq, rfl, hx⟩
      rw [hinit'] at hp
      rw [hfinal] at hq
      subst hq
      have hnil : ([] : List ObjectPropExpr) ∈ a.restNormalized a.states.length := by
        rw [mem_restNormalized, if_pos rfl]
      have hmem := (backward_restNormalized ha htrans).append_mem hx hnil
      rw [append_nil, mem_restNormalized, if_neg (isInitial_lt hp).ne] at hmem
      obtain ⟨q, y, hq, hw, hy⟩ := hmem
      exact ⟨p, q, y, hp, hq, hw, hy⟩
    · rintro ⟨p, q, x, hp, hq, rfl, hx⟩
      refine ⟨p, a.states.length, x ++ [none], by rwa [hinit'], (hfinal _).mpr rfl, ?_, ?_⟩
      · rw [reduceOption_append, reduceOption_cons_of_none, reduceOption_nil, append_nil]
      · apply isPath_trans (isPath_mono (fun s l t ht => (htrans _).mpr (.inl ht)) hx)
        exact .singleton _ ((htrans _).mpr (.inr ⟨q, (mem_terminals q).mpr hq, rfl⟩))
  · rw [normalized, if_neg hone]
    rw [not_ne_iff, length_eq_one_iff] at hone
    obtain ⟨t, ht⟩ := hone
    refine ⟨.mk_of_unique ha hi (t := t) fun s => ?_, rfl⟩
    rw [← mem_terminals, ht, mem_singleton]

theorem mem_labels {t : Transition} (ht : t ∈ a.transitions) (hl : t.label = some l) :
    l ∈ a.labels := by
  rw [labels, mem_sortDedup]
  exact mem_filterMap.mpr ⟨t, ht, hl⟩

theorem label_mem_of_reversed {ls : List ObjectPropExpr}
    (h : ∀ t ∈ a.transitions, ∀ l, t.label = some l → l ∈ ls) :
    ∀ t ∈ a.reversed.transitions, ∀ l, t.label = some l → l ∈ ls := by
  rintro ⟨s, k, t⟩ ht l hl
  exact h _ ((mem_reversed s t k).mp ht) l hl

/-- Minimisation keeps the language and the single initial and terminal states. -/
theorem Single.minimized (h : a.Single) :
    a.minimized.Single ∧ a.minimized.language = a.language := by
  have hlab : ∀ t ∈ a.transitions, ∀ l, t.label = some l → l ∈ a.labels :=
    fun t ht l hl => mem_labels ht hl
  rw [Automaton.minimized]
  split
  · exact ⟨h, rfl⟩
  · rename_i r hr
    obtain ⟨hrl, hrw, -, hrlabels⟩ :=
      determinized_spec h.wellFormed.reversed (label_mem_of_reversed hlab) hr
    split
    · exact ⟨h, rfl⟩
    · rename_i minimal hm
      obtain ⟨hml, hmw, hmi, -⟩ :=
        determinized_spec hrw.reversed (label_mem_of_reversed hrlabels) hm
      obtain ⟨hs, hl⟩ := normalized_spec hmw hmi
      refine ⟨hs, ?_⟩
      rw [hl, hml]
      ext w
      rw [mem_language_reversed, hrl, mem_language_reversed, reverse_reverse]

theorem Single.mirroredCopy (h : a.Single) : a.mirroredCopy.Single :=
  .mk_of_unique h.wellFormed.mirroredCopy (fun s => by rw [isInitial_mirroredCopy, h.terminal])
    (fun s => by rw [isTerminal_mirroredCopy, h.initial])

end Hermit.Automaton
