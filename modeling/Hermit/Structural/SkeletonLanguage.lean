import Hermit.Structural.RoleGrammar

/-! # Skeletons and splices

An automaton is put together from a skeleton whose transitions stand for
languages.  Its words are bounded from above by every family of languages at the
skeleton states that the transitions extend backwards, and each transition's
language is realised by paths.
-/

namespace Hermit

open List hiding le_trans not_lt

open Automaton Automata

/-! ## Splicing -/

/-- The language a label stands for, given the languages of the properties. -/
def labelLanguage (D : ObjectPropExpr → Language ObjectPropExpr) :
    Option ObjectPropExpr → Language ObjectPropExpr
  | none => 1
  | some r => D r

/-- A transition of the skeleton together with the language put in its place. -/
abbrev Splice := Transition × Language ObjectPropExpr

/-- The family extends backwards along every splice. -/
def SpliceClosed (used : List Splice) (rest : ℕ → Language ObjectPropExpr) : Prop :=
  ∀ s ∈ used, s.2 * rest s.1.stop ≤ rest s.1.start

/-- The automaton is the skeleton of `n` states with the listed splices. -/
structure Represents (n : ℕ) (used : List Splice) (a : Automaton) : Prop where
  wellFormed : a.WellFormed
  size : n ≤ a.states.length
  initial : ∀ s, a.isInitial s = true ↔ s = 0
  terminal : ∀ s, a.isTerminal s = true ↔ s = 1
  realised : ∀ s ∈ used, s.2 ≤ wordsTo a.toNFA s.1.stop s.1.start
  bounded : ∀ rest, SpliceClosed used rest →
    ∃ rest', (∀ s < n, rest' s = rest s) ∧ Backward a.toNFA rest'

namespace Represents

variable {n : ℕ} {used : List Splice} {a : Automaton}

theorem single (h : Represents n used a) : a.Single :=
  .mk_of_unique h.wellFormed h.initial h.terminal

theorem mem_language (h : Represents n used a) {w : List ObjectPropExpr} :
    w ∈ a.language ↔ w ∈ wordsTo a.toNFA 1 0 := by
  rw [h.single.mem_language, (h.single.initial 0).mp ((h.initial 0).mpr rfl),
    (h.single.terminal 1).mp ((h.terminal 1).mpr rfl)]

variable {rest : ℕ → Language ObjectPropExpr} {b : Automaton}

/-- Every family closed under the splices that has the empty word at the final state contains
the language at the initial state. -/
theorem language_le (h : Represents n used a) (hn : 2 ≤ n)
    (hrest : SpliceClosed used rest) (hnil : [] ∈ rest 1) : a.language ≤ rest 0 := by
  intro w hw
  obtain ⟨rest', hagr, hback⟩ := h.bounded rest hrest
  obtain ⟨x, rfl, hx⟩ := h.mem_language.mp hw
  rw [← hagr 1 (by omega)] at hnil
  have hmem := hback.append_mem hx hnil
  rwa [append_nil, hagr 0 (by omega)] at hmem

theorem addTransition (h : Represents n used a) {s t : ℕ} (hs : s < n) (ht : t < n)
    (l : Option ObjectPropExpr) :
    Represents n (used ++ [(⟨s, l, t⟩, {l.toList})]) (a.addTransition s l t) := by
  have hsize := h.size
  have hmono : ∀ p k q, q ∈ a.toNFA.step p k → q ∈ (a.addTransition s l t).toNFA.step p k :=
    fun p k q hq => (mem_addTransition _ _ _ _).mpr (.inl hq)
  refine ⟨?_, by simpa using hsize, ?_, ?_, ?_, ?_⟩
  · intro u hu
    rw [states_addTransition]
    rcases (mem_addTransition _ _ _ _).mp hu with hu | rfl
    · exact h.wellFormed u hu
    · exact ⟨lt_of_lt_of_le hs hsize, lt_of_lt_of_le ht hsize⟩
  · intro p
    rw [isInitial, states_addTransition]
    exact h.initial p
  · intro p
    rw [isTerminal, states_addTransition]
    exact h.terminal p
  · intro u hu w hw
    rcases mem_append.mp hu with hu | hu
    · obtain ⟨x, hx, hpath⟩ := h.realised u hu hw
      exact ⟨x, hx, isPath_mono hmono hpath⟩
    · rw [mem_singleton] at hu
      subst hu
      obtain rfl : w = l.toList := hw
      refine ⟨[l], by cases l <;> simp, .singleton _ ?_⟩
      exact (mem_addTransition _ _ _ _).mpr (.inr rfl)
  · intro rest hrest
    obtain ⟨rest', hagr, hback⟩ := h.bounded rest fun u hu => hrest u (by simp [hu])
    refine ⟨rest', hagr, ?_⟩
    intro p k q hq w hw
    rcases (mem_addTransition _ _ _ _).mp hq with hq | heq
    · exact hback p k q hq w hw
    · obtain ⟨rfl, rfl, rfl⟩ := Transition.mk.inj heq
      rw [hagr q ht] at hw
      rw [hagr p hs]
      exact hrest (⟨p, k, q⟩, {k.toList}) (by simp)
        (Language.append_mem_mul (Set.mem_singleton k.toList) hw)

theorem mem_automataConnector (a b : Automaton) (s t : ℕ) (u : Transition) :
    u ∈ (automataConnector a b s t).transitions ↔ u ∈ a.transitions ∨
      (∃ v ∈ b.transitions, u = ⟨a.states.length + v.start, v.label, a.states.length + v.stop⟩) ∨
      u = ⟨s, none, a.states.length + b.initialState⟩ ∨
      u = ⟨a.states.length + b.finalState, none, t⟩ := by
  have hunion := (foldl_addTransition
    (fun v => ⟨a.states.length + v.start, v.label, a.states.length + v.stop⟩) b.transitions
    { a with states := a.states ++ b.states.map fun _ => ⟨false, false⟩ }).2 u
  rw [automataConnector, mem_addTransition, mem_addTransition, disjointUnion, hunion, or_assoc,
    or_assoc]

theorem states_automataConnector (a b : Automaton) (s t : ℕ) :
    (automataConnector a b s t).states = a.states ++ b.states.map fun _ => ⟨false, false⟩ := by
  rw [automataConnector, states_addTransition, states_addTransition]
  exact (foldl_addTransition
    (fun v => ⟨a.states.length + v.start, v.label, a.states.length + v.stop⟩) b.transitions _).1

/-- The states of the spliced copy carry neither flag. -/
theorem flags_automataConnector (a b : Automaton) (s t p : ℕ) :
    (automataConnector a b s t).isInitial p = a.isInitial p ∧
      (automataConnector a b s t).isTerminal p = a.isTerminal p := by
  rw [isInitial, isTerminal, states_automataConnector, isInitial, isTerminal]
  by_cases hp : p < a.states.length
  · rw [getElem?_append_left hp]
    exact ⟨rfl, rfl⟩
  · rw [getElem?_append_right (by omega), getElem?_eq_none (not_lt.mp hp), getElem?_map]
    cases b.states[p - a.states.length]? <;> simp

/-- At a state of the copy: first a word of the copy, then one of `after`. -/
def restConnected (a b : Automaton) (rest : ℕ → Language ObjectPropExpr)
    (after : Language ObjectPropExpr) (p : ℕ) : Language ObjectPropExpr :=
  if p < a.states.length then rest p
  else wordsTo b.toNFA b.finalState (p - a.states.length) * after

variable {after : Language ObjectPropExpr}

theorem restConnected_of_lt {p : ℕ} (hp : p < a.states.length) :
    restConnected a b rest after p = rest p := by
  rw [restConnected, if_pos hp]

theorem restConnected_add (p : ℕ) : restConnected a b rest after (a.states.length + p) =
    wordsTo b.toNFA b.finalState p * after := by
  rw [restConnected, if_neg (by omega), Nat.add_sub_cancel_left]

theorem connect (h : Represents n used a) (hb : b.Single) {s t : ℕ} (hs : s < n)
    (ht : t < n) (l : Option ObjectPropExpr) :
    Represents n (used ++ [(⟨s, l, t⟩, b.language)]) (automataConnector a b s t) := by
  have hsize := h.size
  have hinit : b.initialState < b.states.length := isInitial_lt ((hb.initial _).mpr rfl)
  have hfinal : b.finalState < b.states.length := isTerminal_lt ((hb.terminal _).mpr rfl)
  have hmono : ∀ p k q, q ∈ a.toNFA.step p k → q ∈ (automataConnector a b s t).toNFA.step p k :=
    fun p k q hq => (mem_automataConnector a b s t _).mpr (.inl hq)
  refine ⟨?_, ?_, ?_, ?_, ?_, ?_⟩
  · intro u hu
    rw [states_automataConnector, length_append, length_map]
    rcases (mem_automataConnector a b s t u).mp hu with hu | ⟨v, hv, rfl⟩ | rfl | rfl
    · have := h.wellFormed u hu
      omega
    · have := hb.wellFormed v hv
      exact ⟨by simp; omega, by simp; omega⟩
    · exact ⟨by simp; omega, by simpa using hinit⟩
    · exact ⟨by simpa using hfinal, by simp; omega⟩
  · rw [states_automataConnector, length_append]
    omega
  · intro p
    rw [(flags_automataConnector a b s t p).1]
    exact h.initial p
  · intro p
    rw [(flags_automataConnector a b s t p).2]
    exact h.terminal p
  · intro u hu w hw
    rcases mem_append.mp hu with hu | hu
    · obtain ⟨x, hx, hpath⟩ := h.realised u hu hw
      exact ⟨x, hx, isPath_mono hmono hpath⟩
    · rw [mem_singleton] at hu
      subst hu
      obtain ⟨x, rfl, hx⟩ := hb.mem_language.mp hw
      -- enter the copy, follow its path, leave it
      have hcopy := isPath_map (N := (automataConnector a b s t).toNFA)
        (fun p => a.states.length + p) id (fun p k q hq => (mem_automataConnector a b s t _).mpr
          (.inr (.inl ⟨_, hq, by simp⟩))) hx
      simp only [Option.map_id, map_id_fun, id_eq] at hcopy
      refine ⟨none :: (x ++ [none]), ?_, ?_⟩
      · rw [reduceOption_cons_of_none, reduceOption_append,
          reduceOption_cons_of_none, reduceOption_nil, append_nil]
      · refine .cons _ _ _ _ _ ((mem_automataConnector a b s t _).mpr (.inr (.inr (.inl rfl)))) ?_
        apply isPath_trans hcopy
        exact .singleton _ ((mem_automataConnector a b s t _).mpr (.inr (.inr (.inr rfl))))
  · intro rest hrest
    obtain ⟨rest', hagr, hback⟩ := h.bounded rest fun u hu => hrest u (by simp [hu])
    have hsplice : b.language * rest t ≤ rest s := hrest (⟨s, l, t⟩, b.language) (by simp)
    refine ⟨restConnected a b rest' (rest t), ?_, ?_⟩
    · intro p hp
      rw [restConnected_of_lt (by omega), hagr p hp]
    · intro p k q hq w hw
      rcases (mem_automataConnector a b s t _).mp hq with hq | ⟨v, hv, heq⟩ | heq | heq
      · obtain ⟨hp, hq'⟩ : p < a.states.length ∧ q < a.states.length := h.wellFormed _ hq
        rw [restConnected_of_lt hq'] at hw
        rw [restConnected_of_lt hp]
        exact hback p k q hq w hw
      · obtain ⟨rfl, rfl, rfl⟩ := Transition.mk.inj heq
        rw [restConnected_add, Language.mem_mul] at hw
        rw [restConnected_add]
        obtain ⟨x, hx, y, hy, rfl⟩ := hw
        rw [← append_assoc]
        exact Language.append_mem_mul
          (backward_wordsTo b.finalState v.start v.label v.stop hv x hx) hy
      · obtain ⟨rfl, rfl, rfl⟩ := Transition.mk.inj heq
        rw [restConnected_add, Language.mem_mul] at hw
        rw [restConnected_of_lt (by omega), hagr p hs]
        obtain ⟨x, hx, y, hy, rfl⟩ := hw
        rw [Option.toList_none, nil_append]
        exact hsplice (Language.append_mem_mul (hb.mem_language.mpr hx) hy)
      · obtain ⟨rfl, rfl, rfl⟩ := Transition.mk.inj heq
        rw [restConnected_of_lt (by omega), hagr q ht] at hw
        rw [restConnected_add]
        exact Language.append_mem_mul (a := []) ⟨[], rfl, .nil _⟩ hw

end Represents

/-! ## Skeletons -/

namespace RoleBox

/-- A skeleton has no transitions of its own yet, the initial state `0` and the final state `1`. -/
structure SkeletonValid (sk : Automaton × List Transition) : Prop where
  empty : sk.1.transitions = []
  size : 2 ≤ sk.1.states.length
  initial : ∀ s, sk.1.isInitial s = true ↔ s = 0
  terminal : ∀ s, sk.1.isTerminal s = true ↔ s = 1
  range : ∀ t ∈ sk.2, t.start < sk.1.states.length ∧ t.stop < sk.1.states.length

/-- The family extends backwards along every transition. -/
def SkeletonClosed (D : ObjectPropExpr → Language ObjectPropExpr) (ts : List Transition)
    (rest : ℕ → Language ObjectPropExpr) : Prop :=
  ∀ t ∈ ts, labelLanguage D t.label * rest t.stop ≤ rest t.start

/-- Languages between states that compose. -/
structure Composes (W : ℕ → ℕ → Language ObjectPropExpr) : Prop where
  refl : ∀ p, 1 ≤ W p p
  trans : ∀ p q r, W p q * W q r ≤ W p r

/-- What adding transitions to a skeleton does: a family at the states extends to the new
states when `need` holds of it, and the new transitions provide `give`. -/
structure Grows (sk sk' : Automaton × List Transition)
    (need : (ObjectPropExpr → Language ObjectPropExpr) → (ℕ → Language ObjectPropExpr) → Prop)
    (give : (ObjectPropExpr → Language ObjectPropExpr) → (ℕ → ℕ → Language ObjectPropExpr) → Prop) :
    Prop where
  valid : SkeletonValid sk'
  size : sk.1.states.length ≤ sk'.1.states.length
  mono : ∀ t ∈ sk.2, t ∈ sk'.2
  extend : ∀ D rest, need D rest → SkeletonClosed D sk.2 rest →
    ∃ rest', (∀ s < sk.1.states.length, rest' s = rest s) ∧ SkeletonClosed D sk'.2 rest'
  provide : ∀ D W, Composes W → (∀ t ∈ sk'.2, labelLanguage D t.label ≤ W t.start t.stop) → give D W

variable {ts : List Transition} {M : Language ObjectPropExpr}

theorem SkeletonValid.addState {a : Automaton} (h : SkeletonValid (a, ts)) :
    SkeletonValid (a.addState false false, ts) := by
  have hsize : 2 ≤ a.states.length := h.size
  have hflags (s : ℕ) : (a.addState false false).isInitial s = a.isInitial s ∧
      (a.addState false false).isTerminal s = a.isTerminal s := by
    rw [isInitial, isTerminal, Automaton.addState, isInitial, isTerminal]
    rcases lt_trichotomy s a.states.length with hs | rfl | hs
    · rw [getElem?_append_left hs]
      exact ⟨rfl, rfl⟩
    · simp
    · rw [getElem?_eq_none (by simp; omega), getElem?_eq_none (by omega)]
      exact ⟨rfl, rfl⟩
  have hlen : (a.addState false false).states.length = a.states.length + 1 := by
    simp [Automaton.addState]
  refine ⟨h.empty, ?_, ?_, ?_, ?_⟩
  · change 2 ≤ (a.addState false false).states.length
    omega
  · intro s
    rw [(hflags s).1]
    exact h.initial s
  · intro s
    rw [(hflags s).2]
    exact h.terminal s
  · intro t ht
    have hrng : t.start < a.states.length ∧ t.stop < a.states.length := h.range t ht
    change t.start < (a.addState false false).states.length ∧
      t.stop < (a.addState false false).states.length
    omega

theorem SkeletonValid.addTransition {a : Automaton}
    (h : SkeletonValid (a, ts)) {t : Transition} (hst : t.start < a.states.length)
    (hstop : t.stop < a.states.length) : SkeletonValid (a, ts ++ [t]) := by
  refine ⟨h.empty, h.size, h.initial, h.terminal, ?_⟩
  intro u hu
  rcases mem_append.mp hu with hu | hu
  · exact h.range u hu
  · rw [mem_singleton] at hu
    subst hu
    exact ⟨hst, hstop⟩

/-- One more transition between states that are there. -/
theorem grows_addTransition {a : Automaton} (h : SkeletonValid (a, ts))
    {s t : ℕ} (hs : s < a.states.length) (ht : t < a.states.length) (l : Option ObjectPropExpr) :
    Grows (a, ts) (a, ts ++ [⟨s, l, t⟩]) (fun D rest => labelLanguage D l * rest t ≤ rest s)
      (fun D W => labelLanguage D l ≤ W s t) := by
  refine ⟨h.addTransition hs ht, le_rfl, fun u hu => mem_append_left _ hu, ?_, ?_⟩
  · intro D rest hneed hcl
    refine ⟨rest, fun _ _ => rfl, ?_⟩
    intro u hu
    rcases mem_append.mp hu with hu | hu
    · exact hcl u hu
    · rw [mem_singleton] at hu
      subst hu
      exact hneed
  · intro D W _ hW
    exact hW ⟨s, l, t⟩ (by simp)

theorem grows_addPath (target : ℕ) (labels : List ObjectPropExpr) (hlab : labels ≠ [])
    {current : ℕ} {a : Automaton} (h : SkeletonValid (a, ts))
    (hcur : current < a.states.length) (htgt : target < a.states.length) :
    Grows (a, ts) (addPath target labels current (a, ts))
      (fun D rest => (labels.map D).prod * rest target ≤ rest current)
      (fun D W => (labels.map D).prod ≤ W current target) := by
  induction labels generalizing current a ts with
  | nil => exact absurd rfl hlab
  | cons role labels ih =>
    cases labels with
    | nil =>
      have hgrow := grows_addTransition h hcur htgt (some role)
      simpa [addPath, labelLanguage] using hgrow
    | cons role' labels =>
      rw [addPath]
      swap
      · simp
      have hlen : (a.addState false false).states.length = a.states.length + 1 := by
        simp [Automaton.addState]
      have hmid : SkeletonValid (a.addState false false,
          ts ++ [⟨current, some role, a.states.length⟩]) :=
        h.addState.addTransition (by rw [hlen]; simp; omega) (by rw [hlen]; simp)
      have hfreshlt : a.states.length < (a.addState false false).states.length := by
        rw [hlen]
        exact Nat.lt_succ_self _
      have hgrow := ih (cons_ne_nil _ _) hmid hfreshlt (by rw [hlen]; omega)
      have hsize : a.states.length + 1 ≤
          (addPath target (role' :: labels) a.states.length (a.addState false false,
            ts ++ [⟨current, some role, a.states.length⟩])).1.states.length := by
        rw [← hlen]
        exact hgrow.size
      refine ⟨hgrow.valid, ?_, ?_, ?_, ?_⟩
      · exact le_trans (Nat.le_succ _) hsize
      · exact fun t ht => hgrow.mono t (mem_append_left _ ht)
      · intro D rest hneed hcl
        -- at the fresh state: the rest of the labels, then a word at the target
        have hfresh {s : ℕ} (hs : s < a.states.length) :
            Function.update rest a.states.length (((role' :: labels).map D).prod * rest target) s =
              rest s := Function.update_of_ne hs.ne _ _
        obtain ⟨rest', hagr, hcl'⟩ := hgrow.extend D
          (Function.update rest a.states.length (((role' :: labels).map D).prod * rest target))
          (by rw [hfresh htgt, Function.update_self]) (by
            intro t ht
            rcases mem_append.mp ht with ht | ht
            · obtain ⟨hst, hstop⟩ : t.start < a.states.length ∧ t.stop < a.states.length :=
                h.range t ht
              rw [hfresh hst, hfresh hstop]
              exact hcl t ht
            · rw [mem_singleton] at ht
              subst ht
              rw [hfresh hcur, Function.update_self, ← mul_assoc]
              simpa [labelLanguage] using hneed)
        refine ⟨rest', ?_, hcl'⟩
        intro s hs
        rw [hagr s (by rw [hlen]; exact Nat.lt_succ_of_lt hs), hfresh hs]
      · intro D W hW hreal
        have hrest := hgrow.provide D W hW hreal
        have hfst : D role ≤ W current a.states.length :=
          hreal ⟨current, some role, a.states.length⟩ (hgrow.mono _ (by simp))
        calc ((role :: role' :: labels).map D).prod
            = D role * ((role' :: labels).map D).prod := by rw [map_cons, prod_cons]
          _ ≤ W current a.states.length * W a.states.length target := mul_le_mul' hfst hrest
          _ ≤ W current target := hW.trans _ _ _

/-- Every label of a path is on some transition, and no transition of a path of two or more
labels joins the initial to the final state directly. -/
theorem exists_transition_addPath (target : ℕ) (labels : List ObjectPropExpr) {current : ℕ}
    {a : Automaton} (hsize : 2 ≤ a.states.length) {r : ObjectPropExpr} (hr : r ∈ labels) :
    ∃ t ∈ (addPath target labels current (a, ts)).2, t.label = some r ∧
      (¬ (t.start = 0 ∧ t.stop = 1) ∨ (labels = [r] ∧ t.start = current ∧ t.stop = target)) := by
  have hkeep (labels : List ObjectPropExpr) (current : ℕ) (a : Automaton) (ts : List Transition) :
      ∀ t ∈ ts, t ∈ (addPath target labels current (a, ts)).2 := by
    induction labels generalizing current a ts with
    | nil => simp [addPath]
    | cons role labels ih =>
      intro t ht
      cases labels with
      | nil => simp [addPath, ht]
      | cons role' labels =>
        rw [addPath]
        · exact ih _ _ _ t (by simp [ht])
        · simp
  induction labels generalizing current a ts with
  | nil => simp at hr
  | cons role labels ih =>
    cases labels with
    | nil =>
      rw [mem_singleton] at hr
      subst hr
      exact ⟨⟨current, some r, target⟩, by simp [addPath], rfl, .inr ⟨rfl, rfl, rfl⟩⟩
    | cons role' labels =>
      rw [addPath]
      swap
      · simp
      rcases mem_cons.mp hr with rfl | hr
      · refine ⟨⟨current, some r, a.states.length⟩, hkeep _ _ _ _ _ (by simp), rfl, .inl ?_⟩
        rintro ⟨-, hstop⟩
        simp only at hstop
        omega
      · have hsize' : 2 ≤ (a.addState false false).states.length := by
          simp [Automaton.addState]
          omega
        obtain ⟨t, ht, hlabel, hdir⟩ := ih hsize' hr
        refine ⟨t, ht, hlabel, .inl ?_⟩
        rcases hdir with hdir | ⟨-, hst, -⟩
        · exact hdir
        · rintro ⟨h0, -⟩
          omega

variable (rb : RoleBox) (property : ObjectPropExpr)

variable (subs : List ObjectPropExpr)

/-- Whether a chain starts in the class of `property`. -/
def startsIn : Bool := subs.head?.any fun r => rb.equivalent r property

/-- Whether a chain ends in the class of `property`. -/
def endsIn : Bool :=
  subs.getLast?.any fun r => rb.equivalent r property

/-- The state a chain's path starts at. -/
def sourceOf : ℕ := if rb.startsIn property subs then 1 else 0

/-- The state a chain's path ends at. -/
def targetOf : ℕ := if rb.endsIn property subs then 0 else 1

theorem sourceOf_lt : rb.sourceOf property subs < 2 := by
  unfold sourceOf
  split <;> omega

theorem targetOf_lt : rb.targetOf property subs < 2 := by
  unfold targetOf
  split <;> omega

theorem addChainPath_eq (sk : Automaton × List Transition) (chain : Chain)
    (h : rb.equivalent chain.2 property = true) :
    rb.addChainPath property sk chain = if (rb.middle property chain.1).isEmpty then
        (sk.1, sk.2 ++ [⟨rb.sourceOf property chain.1, none, rb.targetOf property chain.1⟩])
      else addPath (rb.targetOf property chain.1) (rb.middle property chain.1)
        (rb.sourceOf property chain.1) sk := by
  rw [addChainPath, h]
  rfl

variable {sk : Automaton × List Transition}

theorem grows_addChainPath (h : SkeletonValid sk) (chain : Chain) :
    Grows sk (rb.addChainPath property sk chain)
      (fun D rest => rb.equivalent chain.2 property = true →
        ((rb.middle property chain.1).map D).prod * rest (rb.targetOf property chain.1) ≤
          rest (rb.sourceOf property chain.1)) (fun D W => rb.equivalent chain.2 property = true →
        ((rb.middle property chain.1).map D).prod ≤
          W (rb.sourceOf property chain.1) (rb.targetOf property chain.1)) := by
  obtain ⟨a, ts⟩ := sk
  have hsize : 2 ≤ a.states.length := h.size
  have hsrc := lt_of_lt_of_le (rb.sourceOf_lt property chain.1) hsize
  have htgt := lt_of_lt_of_le (rb.targetOf_lt property chain.1) hsize
  by_cases heq : rb.equivalent chain.2 property = true
  · rw [addChainPath_eq rb property _ chain heq]
    split
    · rename_i hemp
      have hgrow := grows_addTransition h hsrc htgt none
      rw [List.isEmpty_iff] at hemp
      refine ⟨hgrow.valid, hgrow.size, hgrow.mono, ?_, ?_⟩
      · intro D rest hneed
        apply hgrow.extend D rest
        simpa [hemp, labelLanguage] using hneed heq
      · intro D W hW hreal _
        simpa [hemp, labelLanguage] using hgrow.provide D W hW hreal
    · rename_i hne
      have hgrow := grows_addPath (rb.targetOf property chain.1) (rb.middle property chain.1)
        (fun h => hne (List.isEmpty_iff.mpr h)) h hsrc htgt
      exact ⟨hgrow.valid, hgrow.size, hgrow.mono, fun D rest hneed =>
          hgrow.extend D rest (hneed heq),
        fun D W hW hreal _ => hgrow.provide D W hW hreal⟩
  · have hsame : rb.addChainPath property (a, ts) chain = (a, ts) := by
      simp [addChainPath, heq]
    rw [hsame]
    exact ⟨h, le_rfl, fun _ ht => ht, fun D rest _ hcl => ⟨rest, fun _ _ => rfl, hcl⟩,
      fun D W _ _ hne => absurd hne heq⟩

theorem grows_chains (chains : List Chain) (h : SkeletonValid sk) :
    Grows sk (chains.foldl (rb.addChainPath property) sk)
      (fun D rest => ∀ chain ∈ chains, rb.equivalent chain.2 property = true →
        ((rb.middle property chain.1).map D).prod * rest (rb.targetOf property chain.1) ≤
          rest (rb.sourceOf property chain.1))
      (fun D W => ∀ chain ∈ chains, rb.equivalent chain.2 property = true →
        ((rb.middle property chain.1).map D).prod ≤
          W (rb.sourceOf property chain.1) (rb.targetOf property chain.1)) := by
  induction chains generalizing sk with
  | nil =>
    exact ⟨h, le_rfl, fun _ ht => ht, fun D rest _ hcl => ⟨rest, fun _ _ => rfl, hcl⟩,
      fun D W _ _ => by simp⟩
  | cons chain chains ih =>
    rw [foldl_cons]
    have hfst := rb.grows_addChainPath property h chain
    have hrest := ih hfst.valid
    have hsize := h.size
    refine ⟨hrest.valid, hfst.size.trans hrest.size,
      fun t ht => hrest.mono t (hfst.mono t ht), ?_, ?_⟩
    · intro D rest hneed hcl
      obtain ⟨rest₁, hagr₁, hcl₁⟩ := hfst.extend D rest (hneed chain (by simp)) hcl
      -- the two states a chain's path joins keep their languages
      have hneed₁ : ∀ c ∈ chains, rb.equivalent c.2 property = true →
          ((rb.middle property c.1).map D).prod * rest₁ (rb.targetOf property c.1) ≤
            rest₁ (rb.sourceOf property c.1) := by
        intro c hc heq
        rw [hagr₁ _ (lt_of_lt_of_le (rb.targetOf_lt property c.1) hsize),
          hagr₁ _ (lt_of_lt_of_le (rb.sourceOf_lt property c.1) hsize)]
        exact hneed c (by simp [hc]) heq
      obtain ⟨rest₂, hagr₂, hcl₂⟩ := hrest.extend D rest₁ hneed₁ hcl₁
      refine ⟨rest₂, ?_, hcl₂⟩
      intro s hs
      rw [hagr₂ s (lt_of_lt_of_le hs hfst.size), hagr₁ s hs]
    · intro D W hW hreal c hc
      rcases mem_cons.mp hc with rfl | hc
      · exact hfst.provide D W hW fun t ht => hreal t (hrest.mono t ht)
      · exact hrest.provide D W hW hreal c hc

/-! ## Languages closed under the inclusions into a class -/

/-- The languages of the properties outside the class; a property of the class stands for
itself. -/
def outer (D : ObjectPropExpr → Language ObjectPropExpr) (r : ObjectPropExpr) :
    Language ObjectPropExpr :=
  if rb.equivalent r property then {[r]} else D r

/-- `M` when `b` holds, else the empty word. -/
def orEpsilon (b : Bool) (M : Language ObjectPropExpr) : Language ObjectPropExpr :=
  if b then M else 1

/-- `M` is closed under the inclusions into the class of `property`, where an occurrence of the
class at either end of a chain stands for `M`. -/
structure ClassClosed (D : ObjectPropExpr → Language ObjectPropExpr) (M : Language ObjectPropExpr) :
    Prop where
  inclusion : ∀ i ∈ rb.inclusions, rb.equivalent i.2 property = true →
    rb.equivalent i.1 property = false → i.1 ∈ rb.nonSimple → D i.1 ≤ M
  chain : ∀ c ∈ rb.chains, rb.equivalent c.2 property = true →
    orEpsilon (rb.startsIn property c.1) M *
      ((rb.middle property c.1).map (rb.outer property D)).prod *
      orEpsilon (rb.endsIn property c.1) M ≤ M

theorem skeletonValid_base (ts : List Transition) (hts : ∀ t ∈ ts, t.start < 2 ∧ t.stop < 2) :
    SkeletonValid ((Automaton.empty.addState true false).addState false true, ts) := by
  refine ⟨rfl, le_rfl, ?_, ?_, hts⟩
  · intro s
    rcases s with _ | _ | s
    · simp [isInitial, Automaton.addState, Automaton.empty]
    · simp [isInitial, Automaton.addState, Automaton.empty]
    · simp [isInitial, Automaton.addState, Automaton.empty]
  · intro s
    rcases s with _ | _ | s
    · simp [isTerminal, Automaton.addState, Automaton.empty]
    · simp [isTerminal, Automaton.addState, Automaton.empty]
    · simp [isTerminal, Automaton.addState, Automaton.empty]

theorem mem_inclusionTransitions (t : Transition) :
    t ∈ rb.inclusions.filterMap (rb.inclusionTransition property) ↔
      ∃ i ∈ rb.inclusions, rb.equivalent i.2 property = true ∧ rb.equivalent i.1 property = false ∧
        i.1 ∈ rb.nonSimple ∧ t = ⟨0, some i.1, 1⟩ := by
  simp only [mem_filterMap, inclusionTransition, Option.ite_none_right_eq_some,
    Option.some.injEq, Bool.and_eq_true, Bool.not_eq_true', decide_eq_true_eq]
  constructor
  · rintro ⟨i, hi, ⟨⟨h2, h1⟩, hns⟩, rfl⟩
    exact ⟨i, hi, h2, h1, hns, rfl⟩
  · rintro ⟨i, hi, h2, h1, hns, rfl⟩
    exact ⟨i, hi, ⟨⟨h2, h1⟩, hns⟩, rfl⟩

theorem baseValid : SkeletonValid ((Automaton.empty.addState true false).addState false true,
    ⟨0, some property, 1⟩ :: rb.inclusions.filterMap (rb.inclusionTransition property)) := by
  apply skeletonValid_base
  intro t ht
  rcases mem_cons.mp ht with rfl | ht
  · exact ⟨Nat.zero_lt_two, Nat.one_lt_two⟩
  · obtain ⟨i, -, -, -, -, rfl⟩ := (rb.mem_inclusionTransitions property t).mp ht
    exact ⟨Nat.zero_lt_two, Nat.one_lt_two⟩

theorem skeletonValid : SkeletonValid (rb.skeleton property) :=
  (rb.grows_chains property rb.chains (rb.baseValid property)).valid

/-- The words that may follow a word of `M` without leaving it. -/
def continuations (M : Language ObjectPropExpr) : Language ObjectPropExpr :=
  {w | ∀ u ∈ M, u ++ w ∈ M}

/-- `M` at the initial state, what may follow it at the final one. -/
def skeletonRest (M : Language ObjectPropExpr) : ℕ → Language ObjectPropExpr
  | 0 => M
  | _ + 1 => continuations M

theorem mul_continuations_le {L : Language ObjectPropExpr} (h : L ≤ M) :
    L * continuations M ≤ M := by
  rintro w ⟨u, hu, v, hv, rfl⟩
  exact hv u (h hu)

/-- A chain's path extends the languages at its ends backwards, by closure of `M`. -/
theorem chain_rest_le {P : Language ObjectPropExpr} {starts ends : Bool}
    (h : orEpsilon starts M * P * orEpsilon ends M ≤ M) :
    P * skeletonRest M (if ends then 0 else 1) ≤ skeletonRest M (if starts then 1 else 0) := by
  cases starts with
  | false =>
    cases ends with
    | false =>
      have h' : P ≤ M := by simpa [orEpsilon] using h
      exact mul_continuations_le h'
    | true => simpa [orEpsilon, skeletonRest] using h
  | true =>
    rintro w ⟨v, hv, z, hz, rfl⟩ u hu
    change u ++ (v ++ z) ∈ M
    rw [← append_assoc]
    cases ends with
    | false =>
      apply hz
      have h' : M * P ≤ M := by simpa [orEpsilon] using h
      exact h' (Language.append_mem_mul hu hv)
    | true =>
      have h' : M * P * M ≤ M := by simpa [orEpsilon] using h
      exact h' (Language.append_mem_mul (Language.append_mem_mul hu hv) hz)

/-- A language that is closed under the inclusions into the class bounds the skeleton. -/
theorem exists_skeletonClosed {D : ObjectPropExpr → Language ObjectPropExpr}
    (hprop : rb.equivalent property property = true)
    (hlet : [property] ∈ M) (hM : rb.ClassClosed property D M) :
    ∃ rest, rest 0 = M ∧ [] ∈ rest 1 ∧
      SkeletonClosed (rb.outer property D) (rb.skeleton property).2 rest := by
  have hgrow := rb.grows_chains property rb.chains (rb.baseValid property)
  have hneed : ∀ c ∈ rb.chains, rb.equivalent c.2 property = true →
      ((rb.middle property c.1).map (rb.outer property D)).prod *
        skeletonRest M (rb.targetOf property c.1) ≤ skeletonRest M (rb.sourceOf property c.1) :=
    fun c hc heq => chain_rest_le (hM.chain c hc heq)
  have hbase : SkeletonClosed (rb.outer property D)
      (⟨0, some property, 1⟩ :: rb.inclusions.filterMap (rb.inclusionTransition property))
      (skeletonRest M) := by
    intro t ht
    rcases mem_cons.mp ht with rfl | ht
    · apply mul_continuations_le
      rw [labelLanguage, outer, if_pos hprop]
      rintro _ rfl
      exact hlet
    · obtain ⟨i, hi, h2, h1, hns, rfl⟩ := (rb.mem_inclusionTransitions property t).mp ht
      apply mul_continuations_le
      rw [labelLanguage, outer, h1]
      exact hM.inclusion i hi h2 h1 hns
  obtain ⟨rest, hagr, hcl⟩ := hgrow.extend _ _ hneed hbase
  have hsize := (rb.baseValid property).size
  refine ⟨rest, hagr 0 (by omega), ?_, hcl⟩
  rw [hagr 1 (by omega)]
  intro u hu
  simpa using hu

end RoleBox

section spliced

variable {rb : RoleBox} {property : ObjectPropExpr} {used : List Splice} {a : Automaton}
  {D : ObjectPropExpr → Language ObjectPropExpr}

open RoleBox

theorem Represents.language_le_of_classClosed
    (h : Represents (rb.skeleton property).1.states.length used a)
    (hused : used.map (·.1) = (rb.skeleton property).2)
    (hle : ∀ s ∈ used, s.2 ≤ labelLanguage (rb.outer property D) s.1.label)
    (hprop : rb.equivalent property property = true) {M : Language ObjectPropExpr}
    (hlet : [property] ∈ M) (hM : rb.ClassClosed property D M) : a.language ≤ M := by
  obtain ⟨rest, hrest0, hnil, hcl⟩ := rb.exists_skeletonClosed property hprop hlet hM
  rw [← hrest0]
  apply h.language_le (rb.skeletonValid property).size ?_ hnil
  intro s hs
  refine le_trans (mul_le_mul_left (hle s hs) _) (hcl s.1 ?_)
  rw [← hused]
  exact mem_map_of_mem hs

theorem composes_wordsTo (a : Automaton) : Composes fun p q => wordsTo a.toNFA q p := by
  constructor
  · rintro p w rfl
    exact ⟨[], rfl, .nil p⟩
  · rintro p q r _ ⟨u, ⟨x, rfl, hx⟩, v, ⟨y, rfl, hy⟩, rfl⟩
    exact ⟨x ++ y, reduceOption_append x y, isPath_trans hx hy⟩

theorem Represents.classClosed_language
    (h : Represents (rb.skeleton property).1.states.length used a)
    (hused : used.map (·.1) = (rb.skeleton property).2)
    (hle : ∀ s ∈ used, labelLanguage (rb.outer property D) s.1.label ≤ s.2)
    (hprop : rb.equivalent property property = true) :
    [property] ∈ a.language ∧ rb.ClassClosed property D a.language := by
  have hgrow := rb.grows_chains property rb.chains (rb.baseValid property)
  have hcomp := composes_wordsTo a
  have hreal : ∀ t ∈ (rb.skeleton property).2,
      labelLanguage (rb.outer property D) t.label ≤ wordsTo a.toNFA t.stop t.start := by
    intro t ht
    rw [← hused] at ht
    obtain ⟨s, hs, rfl⟩ := mem_map.mp ht
    exact (hle s hs).trans (h.realised s hs)
  have hlang : a.language = wordsTo a.toNFA 1 0 := by
    ext w
    exact h.mem_language
  rw [hlang]
  refine ⟨?_, ?_, ?_⟩
  · apply hreal ⟨0, some property, 1⟩ (hgrow.mono _ (by simp))
    rw [labelLanguage, outer, if_pos hprop]
    rfl
  · intro i hi h2 h1 hns
    have hmem : (⟨0, some i.1, 1⟩ : Transition) ∈ (rb.skeleton property).2 := by
      apply hgrow.mono
      exact mem_cons_of_mem _
        ((rb.mem_inclusionTransitions property _).mpr ⟨i, hi, h2, h1, hns, rfl⟩)
    have hle := hreal _ hmem
    rwa [labelLanguage, outer, h1] at hle
  · intro c hc heq
    have hpath := hgrow.provide (rb.outer property D) _ hcomp hreal c hc heq
    rw [sourceOf, targetOf] at hpath
    -- at an end in the class the path joins up with one from the initial to the final state
    have hst : orEpsilon (rb.startsIn property c.1) (wordsTo a.toNFA 1 0) ≤
        wordsTo a.toNFA (if rb.startsIn property c.1 then 1 else 0) 0 := by
      cases rb.startsIn property c.1
      · exact hcomp.refl 0
      · exact le_rfl
    have hend : orEpsilon (rb.endsIn property c.1) (wordsTo a.toNFA 1 0) ≤
        wordsTo a.toNFA 1 (if rb.endsIn property c.1 then 0 else 1) := by
      cases rb.endsIn property c.1
      · exact hcomp.refl 1
      · exact le_rfl
    refine le_trans (mul_le_mul' (mul_le_mul' hst hpath) hend) ?_
    exact le_trans (mul_le_mul_left (hcomp.trans _ _ _) _) (hcomp.trans _ _ _)

end spliced

end Hermit
