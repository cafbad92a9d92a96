import Hermit.Structural.AutomatonLanguage
import Hermit.Library.Looping

/-! # Automata over the live labels

The read-off of role automata follows the transitions without a label or with a
live one.  `restrictedToLabels` keeps the paths between initial and terminal
states along them and numbers the states anew, `liveFirstLabels` collects the
letters an accepted word may start with.  Both are characterised by the words.
-/

namespace Hermit.Automaton

open Automata List Worklist

/-- The transitions without a label or with a live one. -/
def liveTransitions (a : Automaton) (live : List ObjectPropExpr) : List Transition :=
  a.transitions.filter fun t => t.label.all fun label => decide (label ∈ live)

def forward (edges : List Transition) (s : ℕ) : List Transition := edges.filter fun t => t.start = s

/-- The ends of the transitions out of a state. -/
def ends (edges : List Transition) (s : ℕ) : List ℕ := (forward edges s).map (·.stop)

def backward (edges : List Transition) (s : ℕ) : List ℕ :=
  (edges.filter fun t => t.stop = s).map (·.start)

/-- The states from which the edges lead to a terminal state. -/
def productive (a : Automaton) (edges : List Transition) : List ℕ :=
  Worklist.reachPop (backward edges) (List.range a.states.length) a.terminals

/-! ## First labels -/

structure LiveSearch where
  pending : List ℕ
  visited : List ℕ
  nullable : Bool
  labels : List ObjectPropExpr

/-- Note the label of a transition, or follow it if it has none. -/
def LiveSearch.follow (productive : List ℕ) (search : LiveSearch) (t : Transition) : LiveSearch :=
  if t.stop ∈ productive then
    match t.label with
    | some label => { search with labels := search.labels.insert label }
    | none => { search with pending := t.stop :: search.pending }
  else search

/-- One round: take the last pending state. -/
def LiveSearch.visit (a : Automaton) (edges : List Transition) (productive : List ℕ)
    (search : LiveSearch) :
    Option LiveSearch :=
  match search.pending with
  | [] => none
  | s :: pending =>
    if s ∈ search.visited ∨ s ∉ productive then some { search with pending := pending }
    else some ((forward edges s).foldl (LiveSearch.follow productive)
      { pending := pending, visited := s :: search.visited
        nullable := search.nullable || a.isTerminal s, labels := search.labels })

/-- Whether the empty word is accepted, and the first labels of the accepted words over the live
labels.  A state's transitions are followed once, so there are no more rounds than pushes. -/
def liveFirstLabels (a : Automaton) (live : List ObjectPropExpr) :
    Option (Bool × List ObjectPropExpr) :=
  (loopWhile (fun search => !search.pending.isEmpty)
      (LiveSearch.visit a (a.liveTransitions live) (a.productive (a.liveTransitions live)))
      (a.initials.length + ((List.range a.states.length).map fun s =>
          (forward (a.liveTransitions live) s).length).sum)
      ⟨a.initials.reverse, [], false, []⟩).map fun search => (search.nullable, search.labels)

/-- The states to which the edges lead from an initial state. -/
def fromStart (a : Automaton) (edges : List Transition) : List ℕ :=
  reachPop (ends edges) (List.range a.states.length) a.initials

/-- Copy a state that lies on a path or carries a flag, and remember its number. -/
def restrictState (a : Automaton) (fromStart toEnd : List ℕ)
    (copy : (ℕ → Option ℕ) × Automaton) (s : ℕ) :
    (ℕ → Option ℕ) × Automaton :=
  if (s ∈ fromStart ∧ s ∈ toEnd) ∨ a.isInitial s ∨ a.isTerminal s then
    (Function.update copy.1 s (some copy.2.states.length),
      copy.2.addState (a.isInitial s) (a.isTerminal s))
  else copy

/-- Copy a transition between two states on paths; `none` when one of them has no number. -/
def restrictTransition (fromStart toEnd : List ℕ) (states : ℕ → Option ℕ) (result : Automaton)
    (t : Transition) :
    Option Automaton :=
  if t.start ∈ fromStart ∧ t.stop ∈ toEnd then
    (states t.start).bind fun start => (states t.stop).map fun stop =>
        result.addTransition start t.label stop
  else some result

/-- The automaton on the paths along live labels. -/
def restrictedToLabels (a : Automaton) (live : List ObjectPropExpr) : Option Automaton :=
  let edges := a.liveTransitions live
  let fromStart := a.fromStart edges
  let toEnd := a.productive edges
  let copy := (List.range a.states.length).foldl (a.restrictState fromStart toEnd)
    (fun _ => none, empty)
  edges.foldlM (restrictTransition fromStart toEnd copy.1) copy.2

/-! ## The words over the live labels -/

variable {a : Automaton} {live : List ObjectPropExpr}

theorem mem_liveTransitions {t : Transition} :
    t ∈ a.liveTransitions live ↔ t ∈ a.transitions ∧ ∀ label, t.label = some label →
    label ∈ live := by
  rw [liveTransitions, mem_filter, Option.all_eq_true]
  simp only [decide_eq_true_eq]

/-- The automaton along the live transitions, with all its states. -/
def onlyLive (a : Automaton) (live : List ObjectPropExpr) : Automaton :=
  ⟨a.states, a.liveTransitions live⟩

variable {l : Option ObjectPropExpr} {s t : ℕ} {w : List ObjectPropExpr}

theorem mem_onlyLive_step :
    t ∈ (a.onlyLive live).toNFA.step s l ↔ ⟨s, l, t⟩ ∈ a.liveTransitions live := Iff.rfl

theorem isPath_onlyLive {x : List (Option ObjectPropExpr)} :
    (a.onlyLive live).toNFA.IsPath s t x ↔ a.toNFA.IsPath s t x ∧ ∀ label ∈ x.reduceOption,
    label ∈ live := by
  constructor
  · intro h
    induction h with
    | nil s => exact ⟨.nil s, by simp⟩
    | cons u s t l x hl _ ih =>
      obtain ⟨hmem, hlive⟩ := mem_liveTransitions.mp (mem_onlyLive_step.mp hl)
      refine ⟨.cons u s t l x hmem ih.1, ?_⟩
      cases l with
      | none => simpa using ih.2
      | some b =>
        rw [reduceOption_cons_of_some]
        exact forall_mem_cons.mpr ⟨hlive b rfl, ih.2⟩
  · rintro ⟨h, hlive⟩
    induction h with
    | nil s => exact .nil s
    | cons u s t l x hl _ ih =>
      cases l with
      | none =>
        exact .cons u s t none x (mem_liveTransitions.mpr ⟨hl, nofun⟩) (ih (by simpa using hlive))
      | some b =>
        rw [reduceOption_cons_of_some] at hlive
        obtain ⟨hb, hx⟩ := forall_mem_cons.mp hlive
        refine .cons u s t _ x (mem_liveTransitions.mpr ⟨hl, ?_⟩) (ih hx)
        intro c hc
        exact Option.some.inj hc ▸ hb

theorem mem_language_onlyLive :
    w ∈ (a.onlyLive live).language ↔ w ∈ a.language ∧ ∀ label ∈ w, label ∈ live := by
  rw [mem_language, mem_language]
  constructor
  · rintro ⟨p, q, x, hp, hq, rfl, hx⟩
    obtain ⟨hx, hlive⟩ := isPath_onlyLive.mp hx
    exact ⟨⟨p, q, x, hp, hq, rfl, hx⟩, hlive⟩
  · rintro ⟨⟨p, q, x, hp, hq, rfl, hx⟩, hlive⟩
    exact ⟨p, q, x, hp, hq, rfl, isPath_onlyLive.mpr ⟨hx, hlive⟩⟩

/-- The words that lead from one state to another along live labels. -/
def liveWords (a : Automaton) (live : List ObjectPropExpr) (t s : ℕ) : Language ObjectPropExpr :=
  wordsTo (a.onlyLive live).toNFA t s

theorem mem_language_iff_wordsTo :
    w ∈ a.language ↔ ∃ p q, a.isInitial p = true ∧ a.isTerminal q = true ∧
    w ∈ wordsTo a.toNFA q p := by
  rw [mem_language]
  constructor
  · rintro ⟨p, q, x, hp, hq, hx⟩
    exact ⟨p, q, hp, hq, x, hx⟩
  · rintro ⟨p, q, hp, hq, x, hx⟩
    exact ⟨p, q, x, hp, hq, hx⟩

theorem mem_language_iff_liveWords : (w ∈ a.language ∧ ∀ label ∈ w, label ∈ live) ↔
      ∃ p q, a.isInitial p = true ∧ a.isTerminal q = true ∧ w ∈ a.liveWords live q p := by
  rw [← mem_language_onlyLive, mem_language_iff_wordsTo]
  rfl

variable {edges : List Transition}

theorem mem_ends : t ∈ ends edges s ↔ ∃ l, ⟨s, l, t⟩ ∈ edges := by
  simp only [ends, forward, mem_map, mem_filter, decide_eq_true_eq]
  constructor
  · rintro ⟨⟨u, l, v⟩, ⟨hmem, rfl⟩, rfl⟩
    exact ⟨l, hmem⟩
  · rintro ⟨l, hmem⟩
    exact ⟨_, ⟨hmem, rfl⟩, rfl⟩

theorem mem_backward : s ∈ backward edges t ↔ ∃ l, ⟨s, l, t⟩ ∈ edges := by
  simp only [backward, mem_map, mem_filter, decide_eq_true_eq]
  constructor
  · rintro ⟨⟨u, l, v⟩, ⟨hmem, rfl⟩, rfl⟩
    exact ⟨l, hmem⟩
  · rintro ⟨l, hmem⟩
    exact ⟨_, ⟨hmem, rfl⟩, rfl⟩

section

variable (ha : a.WellFormed)
include ha

theorem lt_of_mem_liveTransitions {t : Transition} (ht : t ∈ a.liveTransitions live) :
    t.start < a.states.length ∧ t.stop < a.states.length :=
  ha t (mem_liveTransitions.mp ht).1

/-- A state is productive if some word over the live labels leads from it to a terminal state. -/
theorem mem_productive :
    s ∈ a.productive (a.liveTransitions live) ↔ ∃ q, a.isTerminal q = true ∧ ∃ w,
    w ∈ a.liveWords live q s := by
  have huniv : ∀ t ∈ List.range a.states.length, ∀ p ∈ backward (a.liveTransitions live) t,
      p ∈ List.range a.states.length := by
    intro t _ p hp
    obtain ⟨l, hl⟩ := mem_backward.mp hp
    exact mem_range.mpr (lt_of_mem_liveTransitions ha hl).1
  have hseeds : ∀ t ∈ a.terminals, t ∈ List.range a.states.length :=
    fun t ht => mem_range.mpr (isTerminal_lt ((mem_terminals t).mp ht))
  rw [productive, mem_reachPop huniv hseeds]
  simp only [Worklist.Reach, mem_terminals, liveWords, exists_mem_wordsTo_iff, mem_onlyLive_step,
    mem_backward]
  exact exists_congr fun q => and_congr_right fun _ => Relation.reflTransGen_swap.symm

theorem mem_fromStart : s ∈ a.fromStart (a.liveTransitions live) ↔ ∃ p, a.isInitial p = true ∧ ∃ w,
    w ∈ a.liveWords live s p := by
  have huniv : ∀ t ∈ List.range a.states.length, ∀ p ∈ ends (a.liveTransitions live) t,
      p ∈ List.range a.states.length := by
    intro t _ p hp
    obtain ⟨l, hl⟩ := mem_ends.mp hp
    exact mem_range.mpr (lt_of_mem_liveTransitions ha hl).2
  have hseeds : ∀ t ∈ a.initials, t ∈ List.range a.states.length :=
    fun t ht => mem_range.mpr (isInitial_lt ((mem_initials t).mp ht))
  rw [fromStart, mem_reachPop huniv hseeds]
  simp only [Worklist.Reach, mem_initials, liveWords, exists_mem_wordsTo_iff,
    mem_onlyLive_step, mem_ends]

theorem mem_fromStart_of_edge (hedge : ⟨s, l, t⟩ ∈ a.liveTransitions live)
    (hs : s ∈ a.fromStart (a.liveTransitions live)) :
    t ∈ a.fromStart (a.liveTransitions live) := by
  rw [mem_fromStart ha] at hs ⊢
  obtain ⟨p, hp, w, hw⟩ := hs
  exact ⟨p, hp, _, wordsTo_step (mem_onlyLive_step.mpr hedge) hw⟩

theorem mem_productive_of_edge (hedge : ⟨s, l, t⟩ ∈ a.liveTransitions live)
    (ht : t ∈ a.productive (a.liveTransitions live)) :
    s ∈ a.productive (a.liveTransitions live) := by
  rw [mem_productive ha] at ht ⊢
  obtain ⟨q, hq, w, hw⟩ := ht
  exact ⟨q, hq, _, backward_wordsTo q s l t (mem_onlyLive_step.mpr hedge) w hw⟩

theorem mem_productive_of_isTerminal (hs : a.isTerminal s = true) :
    s ∈ a.productive (a.liveTransitions live) :=
  (mem_productive ha).mpr ⟨s, hs, [], nil_mem_wordsTo s⟩

theorem mem_fromStart_of_isInitial (hs : a.isInitial s = true) :
    s ∈ a.fromStart (a.liveTransitions live) :=
  (mem_fromStart ha).mpr ⟨s, hs, [], nil_mem_wordsTo s⟩

end

theorem foldl_follow (productive : List ℕ) (ts : List Transition) (search : LiveSearch) :
    let after := ts.foldl (LiveSearch.follow productive) search
    after.visited = search.visited ∧ after.nullable = search.nullable ∧
      (∀ s, s ∈ after.pending ↔ s ∈ search.pending ∨ ∃ t ∈ ts,
        t.label = none ∧ t.stop ∈ productive ∧ t.stop = s) ∧
      (∀ l, l ∈ after.labels ↔ l ∈ search.labels ∨ ∃ t ∈ ts,
        t.label = some l ∧ t.stop ∈ productive) ∧
      after.pending.length ≤ search.pending.length + ts.length := by
  induction ts generalizing search with
  | nil => simp
  | cons t ts ih =>
    rw [foldl_cons]
    obtain ⟨hvis, hnull, hpend, hlab, hlen⟩ := ih (search.follow productive t)
    obtain ⟨start, label, stop⟩ := t
    rw [length_cons]
    by_cases hstop : stop ∈ productive
    · cases label with
      | none =>
        have hfollow : search.follow productive ⟨start, none, stop⟩ =
            { search with pending := stop :: search.pending } := if_pos hstop
        rw [hfollow] at hvis hnull hpend hlab hlen ⊢
        refine ⟨hvis, hnull, fun s => ?_, fun l => ?_, ?_⟩
        · rw [hpend, mem_cons, exists_mem_cons_iff]
          simp only [hstop, true_and]
          tauto
        · rw [hlab, exists_mem_cons_iff]
          simp
        · simp only [length_cons] at hlen
          omega
      | some b =>
        have hfollow : search.follow productive ⟨start, some b, stop⟩ =
            { search with labels := search.labels.insert b } := if_pos hstop
        rw [hfollow] at hvis hnull hpend hlab hlen ⊢
        dsimp only at hlen
        refine ⟨hvis, hnull, fun s => ?_, fun l => ?_, by omega⟩
        · rw [hpend, exists_mem_cons_iff]
          simp
        · rw [hlab, mem_insert_iff, exists_mem_cons_iff]
          simp only [hstop, and_true, Option.some.injEq]
          tauto
    · have hfollow : search.follow productive ⟨start, label, stop⟩ = search := if_neg hstop
      rw [hfollow] at hvis hnull hpend hlab hlen ⊢
      refine ⟨hvis, hnull, fun s => ?_, fun l => ?_, by omega⟩
      · rw [hpend, exists_mem_cons_iff]
        simp [hstop]
      · rw [hlab, exists_mem_cons_iff]
        simp [hstop]

/-- What the search keeps: it has followed the ε transitions out of the visited states, and the
results are those of the visited states. -/
structure LiveSearch.Sound (a : Automaton) (live : List ObjectPropExpr)
    (search : LiveSearch) : Prop where
  bound : ∀ s ∈ search.pending, s < a.states.length
  productive : ∀ s ∈ search.visited, s ∈ a.productive (a.liveTransitions live)
  reached : ∀ s, s ∈ search.visited ∨ s ∈ search.pending → ∃ p,
    a.isInitial p = true ∧ [] ∈ a.liveWords live s p
  initials : ∀ p, a.isInitial p = true → p ∈ search.visited ∨ p ∈ search.pending ∨
    p ∉ a.productive (a.liveTransitions live)
  closed : ∀ s ∈ search.visited, ∀ t, ⟨s, none, t⟩ ∈ a.liveTransitions live →
    t ∈ search.visited ∨ t ∈ search.pending ∨ t ∉ a.productive (a.liveTransitions live)
  nullable : search.nullable = true ↔ ∃ s ∈ search.visited, a.isTerminal s = true
  labels : ∀ l, l ∈ search.labels ↔ ∃ s ∈ search.visited,
      ∃ t ∈ a.productive (a.liveTransitions live),
    ⟨s, some l, t⟩ ∈ a.liveTransitions live

/-- The pending states and the transitions out of the states that are not visited. -/
def LiveSearch.work (a : Automaton) (live : List ObjectPropExpr) (search : LiveSearch) : ℕ :=
  search.pending.length +
    outstanding (ends (a.liveTransitions live)) (List.range a.states.length).toFinset search.visited

variable {search : LiveSearch}

theorem LiveSearch.Sound.visit (ha : a.WellFormed) (h : search.Sound a live)
    (hrun : (!search.pending.isEmpty) = true) :
    ∃ after, search.visit a (a.liveTransitions live) (a.productive (a.liveTransitions live)) =
    some after ∧ after.Sound a live ∧ after.work a live < search.work a live := by
  obtain ⟨pending, visited, nullable, labels⟩ := search
  cases pending with
  | nil => simp at hrun
  | cons s pending =>
    rw [LiveSearch.visit]
    dsimp only
    split
    · rename_i hskip
      have hdrop (t : ℕ) (ht : t ∈ visited ∨ t ∈ s :: pending ∨
        t ∉ a.productive (a.liveTransitions live)) :
          t ∈ visited ∨ t ∈ pending ∨ t ∉ a.productive (a.liveTransitions live) := by
        rw [mem_cons] at ht
        rcases ht with ht | (rfl | ht) | ht
        · exact .inl ht
        · exact hskip.imp_right .inr
        · exact .inr (.inl ht)
        · exact .inr (.inr ht)
      refine ⟨_, rfl, ⟨fun t ht => h.bound t (mem_cons_of_mem _ ht), h.productive,
        fun t ht => h.reached t (ht.imp_right (mem_cons_of_mem _)), fun p hp =>
            hdrop p (h.initials p hp),
        fun t ht u hu => hdrop u (h.closed t ht u hu), h.nullable, h.labels⟩, ?_⟩
      simp only [LiveSearch.work, length_cons]
      omega
    · rename_i hskip
      obtain ⟨hnew, hs⟩ := not_or.mp hskip
      have hs := not_not.mp hs
      obtain ⟨hvis, hnull, hpend, hlab, hlen⟩ :=
        foldl_follow (a.productive (a.liveTransitions live)) (forward (a.liveTransitions live) s)
          ⟨pending, s :: visited, nullable || a.isTerminal s, labels⟩
      refine ⟨_, rfl, ?_, ?_⟩
      · have hfwd {t : Transition} : t ∈ forward (a.liveTransitions live) s ↔
            t ∈ a.liveTransitions live ∧ t.start = s := by
          simp [forward]
        have hgone (t : ℕ) (ht : t ∈ visited ∨ t ∈ s :: pending ∨
          t ∉ a.productive (a.liveTransitions live)) :
            t ∈ s :: visited ∨ (t ∈ pending ∨ ∃ u ∈ forward (a.liveTransitions live) s,
              u.label = none ∧
              u.stop ∈ a.productive (a.liveTransitions live) ∧ u.stop = t) ∨
              t ∉ a.productive (a.liveTransitions live) := by
          rw [mem_cons] at ht ⊢
          tauto
        refine ⟨?_, ?_, ?_, ?_, ?_, ?_, ?_⟩
        · intro t ht
          rcases (hpend t).mp ht with ht | ⟨u, hu, -, -, rfl⟩
          · exact h.bound t (mem_cons_of_mem _ ht)
          · exact (lt_of_mem_liveTransitions ha (hfwd.mp hu).1).2
        · rw [hvis]
          exact forall_mem_cons.mpr ⟨hs, h.productive⟩
        · intro t ht
          rw [hvis, hpend, mem_cons] at ht
          rcases ht with (rfl | ht) | ht | ⟨⟨u, l, v⟩, hu, rfl, -, rfl⟩
          · exact h.reached t (.inr mem_cons_self)
          · exact h.reached t (.inl ht)
          · exact h.reached t (.inr (mem_cons_of_mem _ ht))
          · obtain ⟨hedge, heq⟩ := hfwd.mp hu
            obtain ⟨p, hp, hw⟩ := h.reached s (.inr mem_cons_self)
            rw [← heq] at hw
            exact ⟨p, hp, wordsTo_step (l := none) (mem_onlyLive_step.mpr hedge) hw⟩
        · intro p hp
          rw [hvis, hpend]
          exact hgone p (h.initials p hp)
        · intro t ht u hu
          rw [hvis, mem_cons] at ht
          rw [hvis, hpend]
          rcases ht with rfl | ht
          · by_cases hproductive : u ∈ a.productive (a.liveTransitions live)
            · exact .inr (.inl (.inr ⟨_, hfwd.mpr ⟨hu, rfl⟩, rfl, hproductive, rfl⟩))
            · exact .inr (.inr hproductive)
          · exact hgone u (h.closed t ht u hu)
        · rw [hnull, hvis, exists_mem_cons_iff, ← h.nullable, Bool.or_eq_true, or_comm]
        · intro l
          rw [hlab, hvis, exists_mem_cons_iff, h.labels, or_comm]
          refine or_congr_left ⟨?_, ?_⟩
          · rintro ⟨⟨u, k, v⟩, hu, rfl, hv⟩
            obtain ⟨hedge, heq⟩ := hfwd.mp hu
            exact ⟨v, hv, heq ▸ hedge⟩
          · rintro ⟨v, hv, hu⟩
            exact ⟨_, hfwd.mpr ⟨hu, rfl⟩, rfl, hv⟩
      · have hrng : s ∈ (List.range a.states.length).toFinset := by
          simpa using h.bound s mem_cons_self
        have hout := outstanding_cons (ends (a.liveTransitions live)) hrng hnew
        rw [LiveSearch.work, LiveSearch.work, hvis]
        rw [ends, length_map] at hout
        dsimp only at hlen ⊢
        rw [length_cons]
        omega

/-- At the end the visited states are the productive ones that ε transitions reach. -/
theorem LiveSearch.Sound.mem_visited (ha : a.WellFormed)
    (h : search.Sound a live) (hend : search.pending = []) :
    s ∈ search.visited ↔ (∃ p, a.isInitial p = true ∧ [] ∈ a.liveWords live s p) ∧
      s ∈ a.productive (a.liveTransitions live) := by
  constructor
  · exact fun hs => ⟨h.reached s (.inl hs), h.productive s hs⟩
  · rintro ⟨⟨p, hp, hw⟩, hs⟩
    rw [liveWords, nil_mem_wordsTo_iff] at hw
    induction hw with
    | refl => simpa [hend, hs] using h.initials p hp
    | tail _ hstep ih =>
      rename_i t u _
      have ht := mem_productive_of_edge ha (mem_onlyLive_step.mp hstep) hs
      simpa [hend, hs] using h.closed t (ih ht) u (mem_onlyLive_step.mp hstep)

theorem liveFirstLabels_spec (ha : a.WellFormed) (live : List ObjectPropExpr) :
    ∃ nullable labels, a.liveFirstLabels live = some (nullable, labels) ∧
    (nullable = true ↔ [] ∈ a.language) ∧
      ∀ label, label ∈ labels ↔ ∃ w, label :: w ∈ a.language ∧ ∀ l ∈ label :: w, l ∈ live := by
  have hst : (⟨a.initials.reverse, [], false, []⟩ : LiveSearch).Sound a live := by
    refine ⟨?_, by simp, ?_, ?_, by simp, by simp, by simp⟩
    · intro s hs
      exact isInitial_lt ((mem_initials s).mp (mem_reverse.mp hs))
    · intro s hs
      have hs : a.isInitial s = true := by simpa using hs
      exact ⟨s, hs, nil_mem_wordsTo s⟩
    · intro p hp
      exact .inr (.inl (mem_reverse.mpr ((mem_initials p).mpr hp)))
  obtain ⟨search, hsound, hend, hfuel⟩ :=
    exists_loopWhile_eq (fun search => !search.pending.isEmpty)
    (LiveSearch.visit a (a.liveTransitions live) (a.productive (a.liveTransitions live)))
    (LiveSearch.Sound a live) (LiveSearch.work a live) (fun search h hrun => h.visit ha hrun) hst
  have hend : search.pending = [] := by simpa using hend
  have hwork : LiveSearch.work a live ⟨a.initials.reverse, [], false, []⟩ ≤ a.initials.length +
      ((List.range a.states.length).map fun s => (forward (a.liveTransitions live) s).length).sum :=
        by
    have hle := outstanding_nil_le (ends (a.liveTransitions live)) (List.range a.states.length)
    simp only [ends, length_map] at hle
    rw [LiveSearch.work, length_reverse]
    exact Nat.add_le_add_left hle _
  refine ⟨search.nullable, search.labels, ?_, ?_, fun label => ?_⟩
  · rw [liveFirstLabels, hfuel _ hwork]
    rfl
  · have hnil : [] ∈ a.language ↔ [] ∈ a.language ∧ ∀ l ∈ ([] : List ObjectPropExpr),
      l ∈ live := by simp
    rw [hsound.nullable, hnil, mem_language_iff_liveWords]
    constructor
    · rintro ⟨s, hs, hterm⟩
      obtain ⟨p, hp, hw⟩ := ((hsound.mem_visited ha hend).mp hs).1
      exact ⟨p, s, hp, hterm, hw⟩
    · rintro ⟨p, s, hp, hterm, hw⟩
      exact ⟨s, (hsound.mem_visited ha hend).mpr ⟨⟨p, hp, hw⟩,
        mem_productive_of_isTerminal ha hterm⟩, hterm⟩
  · simp only [hsound.labels, hsound.mem_visited ha hend, mem_language_iff_liveWords]
    constructor
    · rintro ⟨s, ⟨⟨p, hp, hps⟩, -⟩, t, ht, hedge⟩
      obtain ⟨q, hq, w, hw⟩ := (mem_productive ha).mp ht
      exact ⟨w, p, q, hp, hq, cons_mem_wordsTo_iff.mpr ⟨s, t, hps, mem_onlyLive_step.mpr hedge, hw⟩⟩
    · rintro ⟨w, p, q, hp, hq, hw⟩
      obtain ⟨s, t, hps, hedge, hrest⟩ := cons_mem_wordsTo_iff.mp hw
      refine ⟨s, ⟨⟨p, hp, hps⟩, (mem_productive ha).mpr ⟨q, hq, label :: w, ?_⟩⟩, t,
        (mem_productive ha).mpr ⟨q, hq, w, hrest⟩, mem_onlyLive_step.mp hedge⟩
      exact cons_mem_wordsTo_iff.mpr ⟨s, t, nil_mem_wordsTo s, hedge, hrest⟩

/-! ## The restricted automaton -/

/-- Whether a state is copied. -/
def keeps (a : Automaton) (fromStart toEnd : List ℕ) (s : ℕ) : Bool :=
  decide ((s ∈ fromStart ∧ s ∈ toEnd) ∨ a.isInitial s ∨ a.isTerminal s)

theorem foldl_restrictState (fromStart toEnd : List ℕ) (ss : List ℕ) (hnd : ss.Nodup) :
    let copy := ss.foldl (a.restrictState fromStart toEnd) (fun _ => none, empty)
    copy.2.states = (ss.filter (a.keeps fromStart toEnd)).map
      (fun s => ⟨a.isInitial s, a.isTerminal s⟩) ∧
      copy.2.transitions = [] ∧ ∀ s ∈ ss.filter (a.keeps fromStart toEnd),
        copy.1 s = some ((ss.filter (a.keeps fromStart toEnd)).idxOf s) := by
  induction ss using List.reverseRecOn with
  | nil => simp [empty]
  | append_singleton ss s ih =>
    rw [nodup_append] at hnd
    obtain ⟨hnd, -, hdisj⟩ := hnd
    have hs : s ∉ ss := fun h => hdisj s h s (mem_singleton_self s) rfl
    obtain ⟨hstates, htranss, hnums⟩ := ih hnd
    rw [foldl_append, foldl_cons, foldl_nil, filter_append]
    generalize ss.foldl (a.restrictState fromStart toEnd) (fun _ => none, empty) = copy at *
    by_cases hkeep : a.keeps fromStart toEnd s = true
    · have hfilt : [s].filter (a.keeps fromStart toEnd) = [s] := by simp [hkeep]
      have hcopy : a.restrictState fromStart toEnd copy s =
        (Function.update copy.1 s (some copy.2.states.length),
          copy.2.addState (a.isInitial s) (a.isTerminal s)) := if_pos (of_decide_eq_true hkeep)
      rw [hfilt, hcopy]
      refine ⟨by simp [addState, hstates], htranss, fun t ht => ?_⟩
      dsimp only
      rcases mem_append.mp ht with ht | ht
      · have hne : t ≠ s := fun heq => hs (heq ▸ mem_of_mem_filter ht)
        rw [Function.update_of_ne hne, hnums t ht, idxOf_append_of_mem ht]
      · rw [mem_singleton.mp ht, Function.update_self, hstates,
          idxOf_append_of_notMem (fun h => hs (mem_of_mem_filter h))]
        simp
    · have hfilt : [s].filter (a.keeps fromStart toEnd) = [] := by simp [hkeep]
      have hcopy : a.restrictState fromStart toEnd copy s = copy :=
        if_neg fun h => hkeep (decide_eq_true h)
      rw [hfilt, hcopy, append_nil]
      exact ⟨hstates, htranss, hnums⟩

theorem exists_foldlM_restrictTransition {fromStart toEnd : List ℕ} {states : ℕ → Option ℕ}
    (number : ℕ → ℕ)
    (ts : List Transition) (hnum : ∀ t ∈ ts, t.start ∈ fromStart → t.stop ∈ toEnd →
      states t.start = some (number t.start) ∧ states t.stop = some (number t.stop))
      (b : Automaton) :
    ∃ r, ts.foldlM (restrictTransition fromStart toEnd states) b = some r ∧ r.states = b.states ∧
      ∀ u, u ∈ r.transitions ↔ u ∈ b.transitions ∨
        ∃ t ∈ ts, (t.start ∈ fromStart ∧ t.stop ∈ toEnd) ∧
        u = ⟨number t.start, t.label, number t.stop⟩ := by
  induction ts generalizing b with
  | nil => exact ⟨b, rfl, rfl, fun u => by simp⟩
  | cons t ts ih =>
    obtain ⟨ht, hts⟩ := forall_mem_cons.mp hnum
    by_cases hkeep : t.start ∈ fromStart ∧ t.stop ∈ toEnd
    · obtain ⟨hst, hstop⟩ := ht hkeep.1 hkeep.2
      have hstep : restrictTransition fromStart toEnd states b t =
          some (b.addTransition (number t.start) t.label (number t.stop)) := by
        rw [restrictTransition, if_pos hkeep, hst, hstop]
        rfl
      obtain ⟨r, hr, hstates, hmem⟩ :=
        ih hts (b.addTransition (number t.start) t.label (number t.stop))
      refine ⟨r, ?_, by rw [hstates, states_addTransition], fun u => ?_⟩
      · rw [foldlM_cons, hstep]
        exact hr
      · rw [hmem, mem_addTransition, exists_mem_cons_iff, or_assoc]
        simp only [hkeep, and_self, true_and]
    · have hstep : restrictTransition fromStart toEnd states b t = some b := by
        rw [restrictTransition, if_neg hkeep]
      obtain ⟨r, hr, hstates, hmem⟩ := ih hts b
      refine ⟨r, ?_, hstates, fun u => ?_⟩
      · rw [foldlM_cons, hstep]
        exact hr
      · rw [hmem, exists_mem_cons_iff]
        simp only [hkeep, false_and, false_or]

theorem restrictedToLabels_spec (ha : a.WellFormed) (live : List ObjectPropExpr) :
    ∃ r, a.restrictedToLabels live = some r ∧
      ∀ w, w ∈ r.language ↔ w ∈ a.language ∧ ∀ label ∈ w, label ∈ live := by
  let edges := a.liveTransitions live
  let kept := (List.range a.states.length).filter (a.keeps (a.fromStart edges) (a.productive edges))
  have hkept {s : ℕ} (hs : s < a.states.length)
    (h : (s ∈ a.fromStart edges ∧ s ∈ a.productive edges) ∨
      a.isInitial s = true ∨ a.isTerminal s = true) : s ∈ kept :=
    mem_filter.mpr ⟨mem_range.mpr hs, decide_eq_true h⟩
  have hends : ∀ t ∈ edges, t.start ∈ a.fromStart edges → t.stop ∈ a.productive edges →
      t.start ∈ kept ∧ t.stop ∈ kept := by
    intro t ht hst hstop
    obtain ⟨hlt, hlt'⟩ := lt_of_mem_liveTransitions ha ht
    exact ⟨hkept hlt (.inl ⟨hst, mem_productive_of_edge ha ht hstop⟩),
      hkept hlt' (.inl ⟨mem_fromStart_of_edge ha ht hst, hstop⟩)⟩
  obtain ⟨hcopy, hemp, hnums⟩ :=
    foldl_restrictState (a := a) (a.fromStart edges) (a.productive edges)
    (List.range a.states.length) nodup_range
  obtain ⟨r, hr, hstates, htranss⟩ :=
    exists_foldlM_restrictTransition (fun s => kept.idxOf s) edges
    (fun t ht hst hstop => ⟨hnums _ (hends t ht hst hstop).1,
      hnums _ (hends t ht hst hstop).2⟩) _
  refine ⟨r, hr, fun w => ?_⟩
  rw [hemp] at htranss
  rw [hcopy] at hstates
  have hstate (i : ℕ) : r.states[i]? = kept[i]?.map fun s => ⟨a.isInitial s, a.isTerminal s⟩ := by
    rw [hstates, getElem?_map]
  have hinit (i : ℕ) : r.isInitial i = true ↔ ∃ s, kept[i]? = some s ∧ a.isInitial s = true := by
    rw [isInitial, hstate]
    cases kept[i]? <;> simp
  have hterm (i : ℕ) : r.isTerminal i = true ↔ ∃ s, kept[i]? = some s ∧ a.isTerminal s = true := by
    rw [isTerminal, hstate]
    cases kept[i]? <;> simp
  have hnum {s : ℕ} (hs : s ∈ kept) : kept[kept.idxOf s]? = some s := by
    rw [getElem?_eq_getElem (idxOf_lt_length_iff.mpr hs), getElem_idxOf]
  rw [mem_language_iff_wordsTo, mem_language_iff_liveWords]
  constructor
  · rintro ⟨i, j, hi, hj, hw⟩
    obtain ⟨p, hp, hpi⟩ := (hinit i).mp hi
    obtain ⟨q, hq, hqj⟩ := (hterm j).mp hj
    have hstep : ∀ i l j, j ∈ r.toNFA.step i l →
        kept[j]?.getD 0 ∈ (a.onlyLive live).toNFA.step (kept[i]?.getD 0) l := by
      intro i l j hij
      rcases (htranss _).mp hij with hij | ⟨t, ht, ⟨hst, hstop⟩, heq⟩
      · simp at hij
      · obtain ⟨rfl, rfl, rfl⟩ := Transition.mk.inj heq
        rw [hnum (hends t ht hst hstop).1, hnum (hends t ht hst hstop).2]
        exact mem_onlyLive_step.mpr ht
    have hword := wordsTo_map (fun i => kept[i]?.getD 0) hstep hw
    rw [hp, hq] at hword
    exact ⟨p, q, hpi, hqj, hword⟩
  · rintro ⟨p, q, hp, hq, x, rfl, hx⟩
    -- along the path the states are on paths from an initial to a terminal state
    have hpath {s t : ℕ} {x : List (Option ObjectPropExpr)}
      (h : (a.onlyLive live).toNFA.IsPath s t x)
        (hs : s ∈ a.fromStart edges) (ht : t ∈ a.productive edges) :
        r.toNFA.IsPath (kept.idxOf s) (kept.idxOf t) x ∧ s ∈ a.productive edges := by
      induction h with
      | nil s => exact ⟨.nil _, ht⟩
      | cons u s t l x hl _ ih =>
        have hedge := mem_onlyLive_step.mp hl
        obtain ⟨hrest, hu⟩ := ih (mem_fromStart_of_edge ha hedge hs) ht
        refine ⟨.cons (kept.idxOf u) _ _ l x ?_ hrest, mem_productive_of_edge ha hedge hu⟩
        exact (htranss _).mpr (.inr ⟨_, hedge, ⟨hs, hu⟩, rfl⟩)
    have hp' := hkept (isInitial_lt hp) (.inr (.inl hp))
    have hq' := hkept (isTerminal_lt hq) (.inr (.inr hq))
    refine ⟨kept.idxOf p, kept.idxOf q, (hinit _).mpr ⟨p, hnum hp', hp⟩,
        (hterm _).mpr ⟨q, hnum hq', hq⟩,
      x, rfl, (hpath hx ?_ ?_).1⟩
    · exact mem_fromStart_of_isInitial ha hp
    · exact mem_productive_of_isTerminal ha hq

/-- Restriction, first labels and mirroring, by the words. -/
theorem restricted_live_mirrored (ha : a.WellFormed) (live : List ObjectPropExpr) :
    (∃ r, a.restrictedToLabels live = some r ∧
      ∀ w, w ∈ r.language ↔ w ∈ a.language ∧ ∀ label ∈ w, label ∈ live) ∧
    (∃ nullable labels, a.liveFirstLabels live = some (nullable, labels) ∧
      (nullable = true ↔ [] ∈ a.language) ∧
      ∀ label, label ∈ labels ↔ ∃ w, label :: w ∈ a.language ∧ ∀ l ∈ label :: w, l ∈ live) ∧
    ∀ w, w ∈ a.mirroredCopy.language ↔ (w.reverse.map inverseProperty) ∈ a.language := by
  refine ⟨restrictedToLabels_spec ha live, liveFirstLabels_spec ha live, fun w => ?_⟩
  rw [mem_language_mirroredCopy, mirrorWord, map_reverse]

/-- An ε cycle between two states, a step to the terminal state and a letter that is not live. -/
def cycleAutomaton (p q : ObjectPropExpr) : Automaton :=
  ⟨[⟨true, false⟩, ⟨false, false⟩, ⟨false, true⟩],
    [⟨0, none, 1⟩, ⟨1, none, 0⟩, ⟨1, some p, 2⟩, ⟨2, some q, 0⟩]⟩

theorem restricted_live_mirrored_cycle :
    (cycleAutomaton (.objectProperty "p") (.objectProperty "q")).WellFormed ∧
      ∃ r, (cycleAutomaton (.objectProperty "p") (.objectProperty "q")).restrictedToLabels
      [.objectProperty "p"] = some r ∧ ∀ w, w ∈ r.language ↔
        w ∈ (cycleAutomaton (.objectProperty "p") (.objectProperty "q")).language ∧
          ∀ label ∈ w, label ∈ [ObjectPropExpr.objectProperty "p"] :=
  have hwell : (cycleAutomaton (.objectProperty "p") (.objectProperty "q")).WellFormed := by
    simp [WellFormed, cycleAutomaton]
  ⟨hwell, (restricted_live_mirrored hwell [.objectProperty "p"]).1⟩

end Hermit.Automaton
