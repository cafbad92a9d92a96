import Hermit.Structural.AutomatonLanguage
import Hermit.Library.Pointwise

/-! # The minimal automaton of a language

A determinised automaton reaches each of its states, and by a word of its own.
Determinising its reversal therefore numbers the residuals of the language in
the order in which the letters discover them, so that minimisation gives equal
automata for equal languages.
-/

namespace Hermit.Automaton

open List hiding le_antisymm le_total le_trans
open Option

open Automata

variable {a b c : Automaton}

/-! ## The determinised automaton -/

/-- An automaton without ε transitions in which a word leads to one state at most, and every
state is reached from smaller ones. -/
structure Deterministic (r : Automaton) : Prop where
  wellFormed : r.WellFormed
  initial : ∀ s, r.isInitial s = true ↔ s = 0
  labelled : ∀ t ∈ r.transitions, t.label ≠ none
  functional : ∀ s l t t', ⟨s, l, t⟩ ∈ r.transitions → ⟨s, l, t'⟩ ∈ r.transitions → t = t'
  reached : ∀ s < r.states.length, s ≠ 0 → ∃ t ∈ r.transitions, t.stop = s ∧ t.start < s

/-- What the search keeps of its numbering: no subset twice, and each found from an earlier one. -/
structure Subsets.Numbered (found : Subsets) : Prop where
  nodup : found.subsets.Nodup
  reached : ∀ s < found.subsets.length, s ≠ 0 → ∃ t ∈ found.result.transitions,
    t.stop = s ∧ t.start < s

variable {found : Subsets} {source s n : ℕ} {subset : List ℕ} {r : Automaton}

theorem followLabel_numbered {found' : Subsets} {l : ObjectPropExpr}
    (hn : found.Numbered) (hsrc : found.subsets[source]? = some subset)
    (h : a.followLabel source subset found l = some found') : found'.Numbered := by
  rw [followLabel] at h
  split at h
  · exact some.inj h ▸ hn
  · split at h
    · obtain rfl := some.inj h
      refine ⟨hn.nodup, fun s hs hne => ?_⟩
      obtain ⟨t, ht, hts⟩ := hn.reached s hs hne
      exact ⟨t, (mem_addTransition _ _ _ _).mpr (.inl ht), hts⟩
    · rename_i hnew
      split at h
      · cases h
      · obtain rfl := some.inj h
        have hnotin := idxOf?_eq_none_iff.mp hnew
        refine ⟨?_, fun s hs hne => ?_⟩
        · apply nodup_append.mpr
          refine ⟨hn.nodup, nodup_singleton _, fun S hS T hT => ?_⟩
          rw [mem_singleton.mp hT]
          exact fun heq => hnotin (heq ▸ hS)
        · simp only [length_append, length_singleton] at hs
          by_cases hold : s < found.subsets.length
          · obtain ⟨t, ht, hts⟩ := hn.reached s hold hne
            exact ⟨t, (mem_addTransition _ _ _ _).mpr (.inl ht), hts⟩
          · have hlt := (List.getElem?_eq_some_iff.mp hsrc).1
            refine ⟨_, (mem_addTransition _ _ _ _).mpr (.inr rfl), ?_, ?_⟩
            · dsimp only
              omega
            · dsimp only
              omega

theorem followLabels_numbered (ls : List ObjectPropExpr) {found' : Subsets}
    (hv : found.Valid a) (hn : found.Numbered) (hsrc : found.subsets[source]? = some subset)
    (h : ls.foldlM (a.followLabel source subset) found = some found') : found'.Numbered := by
  induction ls generalizing found with
  | nil => exact some.inj h ▸ hn
  | cons l ls ih =>
    simp only [foldlM_cons, bind_eq_bind, bind_eq_some_iff] at h
    obtain ⟨mid, hmid, hrest⟩ := h
    obtain ⟨hvm, hem, -⟩ := followLabel_spec hv hsrc hmid
    exact ih hvm (followLabel_numbered hn hsrc hmid) (hem.subsets _ _ hsrc) hrest

theorem followSubsets_numbered (ls : List ObjectPropExpr) (fuel : ℕ) {result : Automaton}
    (hv : found.Valid a) (hn : found.Numbered)
    (h : a.followSubsets ls fuel source found = some result) :
    ∃ final : Subsets, final.Valid a ∧ final.Numbered ∧ final.result = result := by
  induction fuel generalizing source found with
  | zero => exact ⟨found, hv, hn, some.inj h⟩
  | succ fuel ih =>
    rw [followSubsets] at h
    split at h
    · exact ⟨found, hv, hn, some.inj h⟩
    · rename_i subset hsrc
      split at h
      · cases h
      · rename_i found' hfold
        exact ih (followLabels_spec ls hv hsrc hfold).1
          (followLabels_numbered ls hv hn hsrc hfold) h

theorem determinized_deterministic {ls : List ObjectPropExpr} (h : a.determinized ls = some r) :
    r.Deterministic := by
  obtain ⟨found, hv, hn, rfl⟩ := followSubsets_numbered ls maxDeterministicStates valid_initial
    ⟨nodup_singleton _, by simp⟩ h
  refine ⟨hv.wellFormed, hv.isInitial, ?_, ?_, ?_⟩
  · intro t ht hnone
    obtain ⟨l, _, hl, -⟩ := hv.edges t ht
    rw [hl] at hnone
    cases hnone
  · intro s l t t' ht ht'
    obtain ⟨k, S, hk, hS, -, htgt⟩ := hv.edges _ ht
    obtain ⟨k', S', hk', hS', -, htgt'⟩ := hv.edges _ ht'
    obtain rfl : l = some k := hk
    obtain rfl := some.inj hk'
    obtain rfl := some.inj (hS.symm.trans hS')
    exact (getElem?_inj (List.getElem?_eq_some_iff.mp htgt).1 hn.nodup).mp (htgt.trans htgt'.symm)
  · rw [hv.states, length_mapIdx]
    exact hn.reached

/-- An automaton without ε transitions in which every state has a word that is accepted from it
alone. -/
structure Separated (b : Automaton) : Prop where
  wellFormed : b.WellFormed
  labelled : ∀ t ∈ b.transitions, t.label ≠ none
  separated : ∀ s < b.states.length, ∃ w, ∀ t, w ∈ acceptedFrom b.toNFA t ↔ t = s

theorem step_none (hlabelled : ∀ t ∈ b.transitions, t.label ≠ none) (s : ℕ) :
    b.toNFA.step s none = ∅ := by
  ext t
  exact iff_of_false (fun ht => hlabelled _ ht rfl) (Set.notMem_empty t)

variable {w : List ObjectPropExpr}

theorem mem_wordsTo_reversed {t : ℕ} :
    w ∈ wordsTo a.reversed.toNFA t s ↔ w.reverse ∈ wordsTo a.toNFA s t := by
  constructor
  · rintro ⟨x, rfl, hx⟩
    refine ⟨x.reverse, reduceOption_reverse x, ?_⟩
    simpa using isPath_reverse (N := a.toNFA) id
      (fun s l t ht => by simpa using (mem_reversed s t l).mp ht) hx
  · rintro ⟨x, hw, hx⟩
    refine ⟨x.reverse, by rw [reduceOption_reverse, hw, reverse_reverse], ?_⟩
    simpa using isPath_reverse (N := a.reversed.toNFA) id (fun s l t ht => by simpa using ht) hx

theorem Deterministic.exists_word (h : a.Deterministic) (hs : s < a.states.length) :
    ∃ w, w ∈ wordsTo a.toNFA s 0 := by
  induction s using Nat.strongRecOn with
  | ind s ih =>
    by_cases hzero : s = 0
    · subst hzero
      exact ⟨[], nil_mem_wordsTo 0⟩
    · obtain ⟨⟨u, l, v⟩, ht, rfl, hlt⟩ := h.reached s hs hzero
      obtain ⟨w, hw⟩ := ih u hlt (h.wellFormed _ ht).1
      exact ⟨_, wordsTo_step ht hw⟩

theorem Deterministic.separated_reversed (h : a.Deterministic) : a.reversed.Separated := by
  refine ⟨h.wellFormed.reversed, ?_, ?_⟩
  · rintro ⟨s, l, t⟩ ht
    exact h.labelled ⟨t, l, s⟩ ((mem_reversed s t l).mp ht)
  · intro s hs
    rw [states_reversed, length_map] at hs
    obtain ⟨w, hw⟩ := h.exists_word hs
    refine ⟨w.reverse, fun t => ?_⟩
    have haccepted : w.reverse ∈ acceptedFrom a.reversed.toNFA t ↔ w ∈ wordsTo a.toNFA t 0 := by
      constructor
      · rintro ⟨q, hq, hmem⟩
        obtain rfl : q = 0 := (h.initial q).mp ((isTerminal_reversed q).symm.trans hq)
        rwa [mem_wordsTo_reversed, reverse_reverse] at hmem
      · intro hmem
        refine ⟨0, (isTerminal_reversed 0).trans ((h.initial 0).mpr rfl), ?_⟩
        rwa [mem_wordsTo_reversed, reverse_reverse]
    rw [haccepted]
    constructor
    · exact fun hmem => wordsTo_unique (step_none h.labelled)
        (fun s l t ht t' ht' => h.functional s (some l) t t' ht ht') hmem hw
    · exact fun heq => heq ▸ hw

/-! ## Residuals -/

/-- The words accepted from the states of a subset. -/
def rest (b : Automaton) (subset : List ℕ) : Language ObjectPropExpr :=
  {w | ∃ s ∈ subset, w ∈ acceptedFrom b.toNFA s}

theorem mem_rest : w ∈ b.rest subset ↔ ∃ s ∈ subset, w ∈ acceptedFrom b.toNFA s := Iff.rfl

/-- The subsets of the search: closures of states. -/
def Closed (b : Automaton) (subset : List ℕ) : Prop :=
  ∃ seed, (∀ s ∈ seed, s < b.states.length) ∧ b.closure seed = subset

section Separated

variable (hb : b.Separated)

include hb

theorem Separated.mem_closure {seed : List ℕ} (hseed : ∀ s ∈ seed, s < b.states.length) (s : ℕ) :
    s ∈ b.closure seed ↔ s ∈ seed := by
  rw [Automaton.mem_closure hb.wellFormed hseed]
  constructor
  · intro h
    cases h with
    | base _ h => exact h
    | step t _ ht _ => exact absurd rfl (hb.labelled _ ht)
  · exact fun h => .base s h

theorem Separated.rest_closure {seed : List ℕ} (hseed : ∀ s ∈ seed, s < b.states.length) :
    b.rest (b.closure seed) = b.rest seed := by
  ext w
  simp only [mem_rest, hb.mem_closure hseed]

theorem Separated.rest_closure_initials : b.rest (b.closure b.initials) = b.language := by
  rw [hb.rest_closure fun s hs => isInitial_lt ((mem_initials s).mp hs)]
  ext w
  rw [language, mem_accepts_iff, mem_rest]
  simp only [mem_initials]
  rfl

variable {subset : List ℕ}

theorem Separated.nil_mem_rest : [] ∈ b.rest subset ↔ b.accepting subset = true := by
  rw [mem_rest, accepting, List.any_eq_true]
  simp only [nil_mem_acceptedFrom (step_none hb.labelled)]
  rfl

theorem Separated.cons_mem_rest {l : ObjectPropExpr} {w : List ObjectPropExpr} :
    l :: w ∈ b.rest subset ↔ w ∈ b.rest (b.seedOf subset l) := by
  simp only [mem_rest, cons_mem_acceptedFrom (step_none hb.labelled), seedOf, mem_flatMap,
      mem_successors,
    mem_toNFA_step]
  constructor
  · rintro ⟨s, hs, t, ht, hw⟩
    exact ⟨t, ⟨s, hs, ht⟩, hw⟩
  · rintro ⟨t, ⟨s, hs, ht⟩, hw⟩
    exact ⟨s, hs, t, ht, hw⟩

/-- A letter leads nowhere exactly if no word of the residual starts with it. -/
theorem Separated.seedOf_eq_nil_iff {l : ObjectPropExpr} :
    b.seedOf subset l = [] ↔ ∀ w, l :: w ∉ b.rest subset := by
  constructor
  · intro hnil w hw
    rw [hb.cons_mem_rest, hnil] at hw
    obtain ⟨s, hs, -⟩ := hw
    cases hs
  · intro h
    apply eq_nil_iff_forall_not_mem.mpr
    intro s hs
    obtain ⟨w, hw⟩ := hb.separated s (seedOf_lt hb.wellFormed subset l s hs)
    exact h w (hb.cons_mem_rest.mpr ⟨s, hs, (hw s).mpr rfl⟩)

/-- A subset is known by its residual. -/
theorem Separated.eq_of_rest_eq {S T : List ℕ} (hS : b.Closed S) (hT : b.Closed T)
    (h : b.rest S = b.rest T) : S = T := by
  have hmem (U : List ℕ) {s : ℕ} (hs : s < b.states.length) {w : List ObjectPropExpr}
      (hw : ∀ t, w ∈ acceptedFrom b.toNFA t ↔ t = s) : s ∈ U ↔ w ∈ b.rest U := by
    rw [mem_rest]
    simp only [hw, exists_eq_right]
  have hlt {U : List ℕ} (hU : b.Closed U) {s : ℕ} (hs : s ∈ U) : s < b.states.length := by
    obtain ⟨seed, hseed, rfl⟩ := hU
    exact closure_lt hb.wellFormed hseed hs
  have hiff (s : ℕ) : s ∈ S ↔ s ∈ T := by
    by_cases hs : s < b.states.length
    · obtain ⟨w, hw⟩ := hb.separated s hs
      rw [hmem S hs hw, hmem T hs hw, h]
    · exact iff_of_false (fun h => hs (hlt hS h)) (fun h => hs (hlt hT h))
  obtain ⟨seed, hseed, rfl⟩ := hS
  obtain ⟨seed', hseed', rfl⟩ := hT
  exact eq_of_pairwise_of_mem_iff (fun _ _ => le_antisymm)
    (pairwise_sortDedup _ le_total (fun _ _ _ => le_trans) _)
      (pairwise_sortDedup _ le_total (fun _ _ _ => le_trans) _)
    (nodup_sortDedup _ le_total (fun _ _ _ => le_trans) (fun _ _ => le_antisymm) _)
    (nodup_sortDedup _ le_total (fun _ _ _ => le_trans) (fun _ _ => le_antisymm) _) hiff

end Separated

/-! ## Two searches for one language -/

/-- Two searches that have found the same residuals and built the same automaton. -/
structure Matches (b c : Automaton) (f g : Subsets) : Prop where
  result : f.result = g.result
  rests : List.Forall₂ (fun S T => b.rest S = c.rest T) f.subsets g.subsets
  closed : ∀ S ∈ f.subsets, b.Closed S
  closed' : ∀ T ∈ g.subsets, c.Closed T

theorem Matches.getElem? {f g : Subsets} (h : Matches b c f g) (i : ℕ) :
    Option.Rel (fun S T => b.rest S = c.rest T) f.subsets[i]? g.subsets[i]? := by
  have hrests := h.rests
  generalize f.subsets = Ss at hrests
  generalize g.subsets = Ts at hrests
  induction hrests generalizing i with
  | nil => exact .none
  | cons hST _ ih =>
    cases i with
    | zero => exact .some hST
    | succ i => exact ih i

theorem closed_closure_seedOf (hb : b.WellFormed) (subset : List ℕ) (l : ObjectPropExpr) :
    b.Closed (b.closure (b.seedOf subset l)) := ⟨_, seedOf_lt hb subset l, rfl⟩

section Matches

variable (hb : b.Separated) (hc : c.Separated)

include hb hc

variable {S T : List ℕ}

section

variable (h : b.rest S = c.rest T)
include h

theorem rest_seedOf (l : ObjectPropExpr) :
    b.rest (b.closure (b.seedOf S l)) = c.rest (c.closure (c.seedOf T l)) := by
  rw [hb.rest_closure (seedOf_lt hb.wellFormed S l), hc.rest_closure (seedOf_lt hc.wellFormed T l)]
  ext w
  rw [← hb.cons_mem_rest, ← hc.cons_mem_rest, h]

theorem accepting_eq_of_rest_eq : b.accepting S = c.accepting T := by
  rw [Bool.eq_iff_iff, ← hb.nil_mem_rest, ← hc.nil_mem_rest, h]

theorem isEmpty_seedOf (l : ObjectPropExpr) : (b.seedOf S l).isEmpty = (c.seedOf T l).isEmpty := by
  rw [Bool.eq_iff_iff, List.isEmpty_iff, List.isEmpty_iff, hb.seedOf_eq_nil_iff,
    hc.seedOf_eq_nil_iff, h]

end

theorem followLabel_matches {f g : Subsets} (hfg : Matches b c f g) (source : ℕ)
    (hST : b.rest S = c.rest T) (l : ObjectPropExpr) :
    Option.Rel (Matches b c) (b.followLabel source S f l) (c.followLabel source T g l) := by
  have hrest := rest_seedOf hb hc hST l
  have hcl := closed_closure_seedOf hb.wellFormed S l
  have hcl' := closed_closure_seedOf hc.wellFormed T l
  -- a subset is found again on one side exactly if it is on the other
  have hidx : f.subsets.idxOf? (b.closure (b.seedOf S l)) =
      g.subsets.idxOf? (c.closure (c.seedOf T l)) := by
    refine Library.idxOf?_eq_of_forall₂ hfg.rests fun U hU V hV hUV => ⟨?_, ?_⟩
    · rintro rfl
      exact hc.eq_of_rest_eq (hfg.closed' V hV) hcl' (hUV.symm.trans hrest)
    · rintro rfl
      exact hb.eq_of_rest_eq (hfg.closed U hU) hcl (hUV.trans hrest.symm)
  rw [followLabel, followLabel, isEmpty_seedOf hb hc hST l, hidx, hfg.rests.length_eq, hfg.result,
    accepting_eq_of_rest_eq hb hc hrest]
  split
  · exact .some hfg
  · split
    · exact .some ⟨rfl, hfg.rests, hfg.closed, hfg.closed'⟩
    · split
      · exact .none
      · refine .some ⟨rfl, rel_append hfg.rests (.cons hrest .nil), ?_, ?_⟩
        · intro U hU
          rcases mem_append.mp hU with hU | hU
          · exact hfg.closed U hU
          · exact mem_singleton.mp hU ▸ hcl
        · intro V hV
          rcases mem_append.mp hV with hV | hV
          · exact hfg.closed' V hV
          · exact mem_singleton.mp hV ▸ hcl'

theorem foldlM_matches (ls : List ObjectPropExpr) {f g : Subsets} (hfg : Matches b c f g)
    (source : ℕ) (hST : b.rest S = c.rest T) :
    Option.Rel (Matches b c) (ls.foldlM (b.followLabel source S) f)
    (ls.foldlM (c.followLabel source T) g) := by
  induction ls generalizing f g with
  | nil => exact .some hfg
  | cons l ls ih =>
    rw [foldlM_cons, foldlM_cons]
    have hstep := followLabel_matches hb hc hfg source hST l
    generalize b.followLabel source S f l = o at hstep ⊢
    generalize c.followLabel source T g l = o' at hstep ⊢
    cases hstep with
    | some h => exact ih h
    | none => exact .none

end Matches

/-- Letters that lead nowhere can be left out of a round. -/
theorem foldlM_followLabel_filter (p : ObjectPropExpr → Bool) (ls : List ObjectPropExpr)
    (found : Subsets) (source : ℕ)
    (subset : List ℕ) (h : ∀ l ∈ ls, p l = false → a.seedOf subset l = []) :
    ls.foldlM (a.followLabel source subset) found = (ls.filter p).foldlM
    (a.followLabel source subset) found := by
  induction ls generalizing found with
  | nil => rfl
  | cons l ls ih =>
    obtain ⟨hl, hls⟩ := forall_mem_cons.mp h
    cases hp : p l with
    | true =>
      rw [filter_cons_of_pos hp, foldlM_cons, foldlM_cons]
      refine congrArg _ ?_
      funext found'
      exact ih found' hls
    | false =>
      have hstep : a.followLabel source subset found l = some found := by
        rw [followLabel, hl hp]
        rfl
      rw [filter_cons_of_neg (by simp [hp]), foldlM_cons, hstep]
      exact ih found hls

/-- The labels of an automaton are in label order, each once. -/
structure Covers (b : Automaton) (ls : List ObjectPropExpr) : Prop where
  sorted : ls.Pairwise labelLE
  nodup : ls.Nodup
  mem : ∀ t ∈ b.transitions, ∀ l, t.label = some l → l ∈ ls

theorem Covers.mem_of_seedOf {ls : List ObjectPropExpr} (h : b.Covers ls) {l : ObjectPropExpr}
    (hne : b.seedOf subset l ≠ []) : l ∈ ls := by
  obtain ⟨s, hs⟩ := exists_mem_of_ne_nil _ hne
  obtain ⟨r, -, hr⟩ := mem_flatMap.mp hs
  exact h.mem _ ((mem_successors _ r s).mp hr) l rfl

theorem labelLE_antisymm (l k : ObjectPropExpr) (h : labelLE l k) (h' : labelLE k l) : l = k := by
  have hkey : labelOrderKey l = labelOrderKey k := by
    rcases h with h | ⟨hkind, hiri⟩
    · rcases h' with h' | ⟨hkind', -⟩
      · omega
      · omega
    · rcases h' with h' | ⟨-, hiri'⟩
      · omega
      · exact Prod.ext hkind (String.le_antisymm hiri hiri')
  cases l <;> cases k <;> simp_all [labelOrderKey]

theorem labelLE_total (l k : ObjectPropExpr) : labelLE l k ∨ labelLE k l := by
  rcases lt_trichotomy (labelOrderKey l).1 (labelOrderKey k).1 with h | h | h
  · exact .inl (.inl h)
  · exact (String.le_total (labelOrderKey l).2 (labelOrderKey k).2).imp (fun hiri => .inr ⟨h, hiri⟩)
      (fun hiri => .inr ⟨h.symm, hiri⟩)
  · exact .inr (.inl h)

theorem labelLE_trans (l k j : ObjectPropExpr) (h : labelLE l k) (h' : labelLE k j) :
    labelLE l j := by
  rcases h with h | ⟨hkind, hiri⟩
  · rcases h' with h' | ⟨hkind', -⟩
    · exact .inl (h.trans h')
    · exact .inl (hkind' ▸ h)
  · rcases h' with h' | ⟨hkind', hiri'⟩
    · exact .inl (hkind ▸ h')
    · exact .inr ⟨hkind.trans hkind', String.le_trans hiri hiri'⟩

section Searches

variable {ls ks : List ObjectPropExpr} (hb : b.Separated) (hc : c.Separated) (hls : b.Covers ls)
    (hks : c.Covers ks)

include hb hc hls hks

/-- Both automata have the letters that lead anywhere. -/
theorem foldlM_labels_matches {f g : Subsets} (hfg : Matches b c f g) (source : ℕ) {S T : List ℕ}
    (hST : b.rest S = c.rest T) :
    Option.Rel (Matches b c) (ls.foldlM (b.followLabel source S) f)
    (ks.foldlM (c.followLabel source T) g) := by
  have hcommon : ls.filter (fun l => decide (l ∈ ks)) = ks.filter (fun l => decide (l ∈ ls)) := by
    refine eq_of_pairwise_of_mem_iff labelLE_antisymm (hls.sorted.filter _) (hks.sorted.filter _)
      (hls.nodup.filter _) (hks.nodup.filter _) fun l => ?_
    simp only [mem_filter, decide_eq_true_eq, and_comm]
  have hemp (l : ObjectPropExpr) : b.seedOf S l = [] ↔ c.seedOf T l = [] := by
    rw [hb.seedOf_eq_nil_iff, hc.seedOf_eq_nil_iff, hST]
  rw [foldlM_followLabel_filter (fun l => decide (l ∈ ks)) ls, hcommon,
    foldlM_followLabel_filter (fun l => decide (l ∈ ls)) ks]
  · exact foldlM_matches hb hc _ hfg source hST
  · intro l _ hl
    by_contra hne
    exact of_decide_eq_false hl (hls.mem_of_seedOf fun h => hne ((hemp l).mp h))
  · intro l _ hl
    by_contra hne
    exact of_decide_eq_false hl (hks.mem_of_seedOf fun h => hne ((hemp l).mpr h))

theorem followSubsets_eq (fuel : ℕ) {f g : Subsets} (hfg : Matches b c f g) (source : ℕ) :
    b.followSubsets ls fuel source f = c.followSubsets ks fuel source g := by
  induction fuel generalizing source f g with
  | zero => exact congrArg some hfg.result
  | succ fuel ih =>
    rw [followSubsets, followSubsets]
    have hsrc := hfg.getElem? source
    generalize f.subsets[source]? = o at hsrc ⊢
    generalize g.subsets[source]? = o' at hsrc ⊢
    cases hsrc with
    | none => exact congrArg some hfg.result
    | @some S T hST =>
      have hround := foldlM_labels_matches hb hc hls hks hfg source hST
      dsimp only
      generalize ls.foldlM (b.followLabel source S) f = p at hround ⊢
      generalize ks.foldlM (c.followLabel source T) g = p' at hround ⊢
      cases hround with
      | none => rfl
      | some h => exact ih h (source + 1)

theorem determinized_eq (hlang : b.language = c.language) :
    b.determinized ls = c.determinized ks := by
  have hrest : b.rest (b.closure b.initials) = c.rest (c.closure c.initials) := by
    rw [hb.rest_closure_initials, hc.rest_closure_initials, hlang]
  apply followSubsets_eq hb hc hls hks
  refine ⟨?_, .cons hrest .nil, ?_, ?_⟩
  · rw [accepting_eq_of_rest_eq hb hc hrest]
  · intro S hS
    exact ⟨_, fun s hs => isInitial_lt ((mem_initials s).mp hs), (mem_singleton.mp hS).symm⟩
  · intro T hT
    exact ⟨_, fun s hs => isInitial_lt ((mem_initials s).mp hs), (mem_singleton.mp hT).symm⟩

end Searches

/-! ## Minimisation -/

theorem covers_labels (h : ∀ t ∈ b.transitions, ∀ l, t.label = some l → l ∈ a.labels) :
    b.Covers a.labels :=
  ⟨pairwise_sortDedup _ labelLE_total labelLE_trans _,
    nodup_sortDedup _ labelLE_total labelLE_trans labelLE_antisymm _, h⟩

/-- The first determinisation, reversed again, accepts the words of the automaton. -/
theorem reversed_determinized_spec (ha : a.WellFormed)
    (hr : a.reversed.determinized a.labels = some r) :
    r.reversed.Separated ∧ r.reversed.Covers a.labels ∧ r.reversed.language = a.language := by
  obtain ⟨hlang, -, -, hlab⟩ :=
    determinized_spec ha.reversed (label_mem_of_reversed fun t ht l hl => mem_labels ht hl) hr
  refine ⟨(determinized_deterministic hr).separated_reversed,
    covers_labels (label_mem_of_reversed hlab), ?_⟩
  ext w
  rw [mem_language_reversed, hlang, mem_language_reversed, reverse_reverse]

/-- Neither determinisation exceeds `maxDeterministicStates`. -/
def Determinizes (a : Automaton) : Prop :=
  ∃ r m, a.reversed.determinized a.labels = some r ∧ r.reversed.determinized a.labels = some m

theorem minimized_eq_self (h : ¬ a.Determinizes) : a.minimized = a := by
  rw [minimized]
  split
  · rfl
  · rename_i r hr
    split
    · rfl
    · rename_i m hm
      exact absurd ⟨r, m, hr, hm⟩ h

theorem minimized_eq_normalized {m : Automaton} (hr : a.reversed.determinized a.labels = some r)
    (hm : r.reversed.determinized a.labels = some m) : a.minimized = m.normalized := by
  rw [minimized, hr]
  dsimp only
  rw [hm]

theorem Determinizes.minimized (ha : a.WellFormed) (h : a.Determinizes) :
    a.minimized.Single ∧ a.minimized.language = a.language := by
  obtain ⟨r, m, hr, hm⟩ := h
  obtain ⟨hseparated, hcov, hlang⟩ := reversed_determinized_spec ha hr
  obtain ⟨hlang', hwell, hinit, -⟩ := determinized_spec hseparated.wellFormed hcov.mem hm
  rw [minimized_eq_normalized hr hm]
  obtain ⟨hsgl, hnorm⟩ := normalized_spec hwell hinit
  exact ⟨hsgl, hnorm.trans (hlang'.trans hlang)⟩

section

variable (ha : a.WellFormed)
include ha

theorem language_minimized : a.minimized.language = a.language := by
  by_cases h : a.Determinizes
  · exact (h.minimized ha).2
  · rw [minimized_eq_self h]

/-- For equal languages the second determinisations agree. -/
theorem reversed_determinized_eq (hb : b.WellFormed) (hlang : b.language = a.language)
    {r' : Automaton} (hr : a.reversed.determinized a.labels = some r)
    (hr' : b.reversed.determinized b.labels = some r') :
    r'.reversed.determinized b.labels = r.reversed.determinized a.labels := by
  obtain ⟨hseparated, hcov, hl⟩ := reversed_determinized_spec ha hr
  obtain ⟨hseparated', hcov', hl'⟩ := reversed_determinized_spec hb hr'
  exact determinized_eq hseparated' hseparated hcov' hcov (hl'.trans (hlang.trans hl.symm))

theorem minimized_eq_of_language_eq (hb : b.WellFormed) (hda : a.Determinizes)
    (hdb : b.Determinizes) (hlang : b.language = a.language) : b.minimized = a.minimized := by
  obtain ⟨r, m, hr, hm⟩ := hda
  obtain ⟨r', m', hr', hm'⟩ := hdb
  have heq := reversed_determinized_eq ha hb hlang hr hr'
  obtain rfl := some.inj (hm'.symm.trans (heq.trans hm))
  rw [minimized_eq_normalized hr hm, minimized_eq_normalized hr' hm']

/-- The minimal automaton is its own minimisation: determinising its reversal may exceed the bound
by the fresh terminal state, but then it is returned as it is. -/
theorem minimized_minimized : a.minimized.minimized = a.minimized := by
  by_cases hda : a.Determinizes
  · by_cases hdm : a.minimized.Determinizes
    · exact minimized_eq_of_language_eq ha (hda.minimized ha).1.wellFormed hda hdm
        (hda.minimized ha).2
    · exact minimized_eq_self hdm
  · rw [minimized_eq_self hda, minimized_eq_self hda]

end

/-- Minimisation keeps the words and is idempotent; unless a determinisation exceeds the bound, its
result has one initial and one terminal state and depends on the words alone. -/
theorem minimized_canonical (ha : a.WellFormed) :
    a.minimized.language = a.language ∧ a.minimized.minimized = a.minimized ∧
      (a.Determinizes → (∃ i, ∀ s, a.minimized.isInitial s = true ↔ s = i) ∧
        (∃ t, ∀ s, a.minimized.isTerminal s = true ↔ s = t) ∧
        ∀ b : Automaton, b.WellFormed → b.Determinizes → b.language = a.language →
        b.minimized = a.minimized) ∧ (¬ a.Determinizes → a.minimized = a) := by
  refine ⟨language_minimized ha, minimized_minimized ha, fun h => ⟨?_, ?_, ?_⟩, minimized_eq_self⟩
  · exact ⟨_, (h.minimized ha).1.initial⟩
  · exact ⟨_, (h.minimized ha).1.terminal⟩
  · exact fun b hb hdb => minimized_eq_of_language_eq ha hb h hdb

/-- A letter or an ε transition to the terminal state, and an ε transition back. -/
def starAutomaton (l : ObjectPropExpr) : Automaton :=
  ⟨[⟨true, false⟩, ⟨false, true⟩], [⟨0, some l, 1⟩, ⟨0, none, 1⟩, ⟨1, none, 0⟩]⟩

theorem minimized_canonical_star :
    (starAutomaton (.objectProperty "p")).WellFormed ∧
    (starAutomaton (.objectProperty "p")).Determinizes ∧
      ∃ t, ∀ s, (starAutomaton (.objectProperty "p")).minimized.isTerminal s = true ↔ s = t :=
  have hwell : (starAutomaton (.objectProperty "p")).WellFormed :=
    by simp [WellFormed, starAutomaton]
  have hdeterminizes : (starAutomaton (.objectProperty "p")).Determinizes := ⟨_, _, rfl, rfl⟩
  ⟨hwell, hdeterminizes, ((minimized_canonical hwell).2.2.1 hdeterminizes).2.1⟩

/-! ## A reversal with too many subsets -/

def wideLabel (i : ℕ) : ObjectPropExpr := .objectProperty (String.ofList (List.replicate i 'a'))

theorem wideLabel_injective {i j : ℕ} (h : wideLabel i = wideLabel j) : i = j := by
  have hlist := congrArg String.toList (ObjectPropExpr.objectProperty.inj h)
  rw [String.toList_ofList, String.toList_ofList] at hlist
  simpa using congrArg List.length hlist

/-- `n` letters lead from `n` states to the first state, which is terminal like the second. -/
def wideAutomaton (n : ℕ) : Automaton :=
  ⟨(List.range (n + 1)).map fun s => ⟨decide (s = 1), decide (s ≤ 1)⟩,
    (List.range n).map fun i => ⟨i + 1, some (wideLabel i), 0⟩⟩

theorem mem_wideAutomaton {t : Transition} :
    t ∈ (wideAutomaton n).transitions ↔ ∃ i < n, t = ⟨i + 1, some (wideLabel i), 0⟩ := by
  simp only [wideAutomaton, List.mem_map, mem_range, eq_comm]

theorem wellFormed_wideAutomaton (n : ℕ) : (wideAutomaton n).WellFormed := by
  intro t ht
  obtain ⟨i, hi, rfl⟩ := mem_wideAutomaton.mp ht
  simp only [wideAutomaton, length_map, length_range]
  omega

theorem isTerminal_wideAutomaton (hn : 0 < n) : (wideAutomaton n).isTerminal s = true ↔ s ≤ 1 := by
  by_cases hs : s < n + 1
  · simp [isTerminal, wideAutomaton, hs]
  · rw [isTerminal, getElem?_eq_none (by simpa [wideAutomaton] using hs)]
    simp
    omega

/-- In the reversal a letter leads from the initial states to a state of its own. -/
theorem mem_eval_wideAutomaton {i : ℕ} (hi : i < n) :
    s ∈ (wideAutomaton n).reversed.toNFA.eval [wideLabel i] ↔ s = i + 1 := by
  have hnone : ∀ t ∈ (wideAutomaton n).reversed.transitions, t.label ≠ none := by
    rintro ⟨u, l, v⟩ ht hl
    obtain ⟨i, -, heq⟩ := mem_wideAutomaton.mp ((mem_reversed u v l).mp ht)
    obtain ⟨-, rfl, -⟩ := Transition.mk.inj heq
    cases hl
  have hclo (S : Set ℕ) (u : ℕ) : u ∈ (wideAutomaton n).reversed.toNFA.εClosure S ↔ u ∈ S := by
    constructor
    · intro h
      cases h with
      | base _ h => exact h
      | step t _ ht _ => exact absurd rfl (hnone _ ht)
    · exact fun h => .base u h
  have hstep (t u : ℕ) : u ∈ (wideAutomaton n).reversed.toNFA.step t (some (wideLabel i)) ↔
      t = 0 ∧ u = i + 1 := by
    rw [mem_toNFA_step, mem_reversed, mem_wideAutomaton]
    constructor
    · rintro ⟨j, -, heq⟩
      obtain ⟨hu, hl, rfl⟩ := Transition.mk.inj heq
      rw [wideLabel_injective (some.inj hl)]
      exact ⟨rfl, hu⟩
    · rintro ⟨rfl, rfl⟩
      exact ⟨i, hi, rfl⟩
  rw [← nil_append [wideLabel i], εNFA.eval_append_singleton, εNFA.mem_stepSet_iff]
  simp only [hclo, hstep, εNFA.eval_nil]
  constructor
  · rintro ⟨t, -, -, hs⟩
    exact hs
  · intro hs
    refine ⟨0, ?_, rfl, hs⟩
    exact (isInitial_reversed 0).trans ((isTerminal_wideAutomaton (by omega)).mpr (Nat.zero_le 1))

theorem not_determinizes_wideAutomaton (hn : maxDeterministicStates < n) :
    ¬ (wideAutomaton n).Determinizes := by
  rintro ⟨r, -, hr, -⟩
  obtain ⟨found, hcompl, -⟩ := exists_complete_of_determinized hr
  have hidx (i : ℕ) : ∃ j : ℕ, i < n → ∃ subset : List ℕ, found.subsets[j]? = some subset ∧ ∀ s,
      s ∈ subset ↔ s = i + 1 := by
    by_cases hi : i < n
    · obtain ⟨hsub, hne⟩ := hcompl.eval (wellFormed_wideAutomaton n).reversed
        (label_mem_of_reversed fun t ht l hl => mem_labels ht hl) [wideLabel i]
      obtain ⟨j, hj⟩ := hne ⟨i + 1, (mem_eval_wideAutomaton hi).mpr rfl⟩
      obtain ⟨subset, hget, hmem⟩ := hsub j hj
      exact ⟨j, fun _ => ⟨subset, hget, fun s => (hmem s).trans (mem_eval_wideAutomaton hi)⟩⟩
    · exact ⟨0, fun h => absurd h hi⟩
  choose index hidx using hidx
  have hmaps : ∀ i ∈ Finset.range n, index i ∈ Finset.range found.subsets.length := by
    intro i hi
    obtain ⟨subset, hget, -⟩ := hidx i (Finset.mem_range.mp hi)
    exact Finset.mem_range.mpr (List.getElem?_eq_some_iff.mp hget).1
  have hbd := hcompl.valid.bound
  obtain ⟨i, hi, j, hj, hne, heq⟩ := Finset.exists_ne_map_eq_of_card_lt_of_maps_to
    (by rw [Finset.card_range, Finset.card_range]; omega) hmaps
  obtain ⟨S, hS, hmem⟩ := hidx i (Finset.mem_range.mp hi)
  obtain ⟨T, hT, hmem'⟩ := hidx j (Finset.mem_range.mp hj)
  rw [heq, hT, some.injEq] at hS
  subst hS
  have := (hmem' (i + 1)).mp ((hmem (i + 1)).mpr rfl)
  omega

/-- An automaton with two terminal states that minimisation leaves as it is. -/
theorem minimized_wideAutomaton : (wideAutomaton (maxDeterministicStates + 1)).WellFormed ∧
    ¬ ∃ t, ∀ s, (wideAutomaton (maxDeterministicStates + 1)).minimized.isTerminal s =
    true ↔ s = t := by
  refine ⟨wellFormed_wideAutomaton _, ?_⟩
  rw [minimized_eq_self (not_determinizes_wideAutomaton (Nat.lt_succ_self _))]
  rintro ⟨t, ht⟩
  simp only [isTerminal_wideAutomaton (Nat.succ_pos _)] at ht
  have hzero := (ht 0).mp (Nat.zero_le 1)
  have hone := (ht 1).mp le_rfl
  omega

end Hermit.Automaton
