import Hermit.Strings.RegularOperations

/-! # The languages of the Boolean operations

Between two neighbouring points no transition begins or ends, so the intervals between
them determinise an automaton.  Filling the gaps between its intervals makes the
determinised automaton total, and then the other states are those of the complement.
-/

namespace Hermit

open List hiding le_antisymm le_min_iff le_refl max_le_iff not_le not_lt

namespace StringAutomaton

open Automata Exploration

variable {a b : StringAutomaton}

/-! ## The intervals between points -/

variable {ps w : List ℕ} {c s : ℕ}

/-- An interval begins at its point and contains no other one. -/
theorem mem_elementary (hsort : ps.Pairwise (· < ·)) (hle : ∀ p ∈ ps, p ≤ maxCp)
    {i : ℕ × ℕ} (hi : i ∈ elementary ps) :
    i.1 ∈ ps ∧ i.1 ≤ i.2 ∧ i.2 ≤ maxCp ∧ ∀ p ∈ ps, p ≤ i.1 ∨ i.2 < p := by
  induction ps using elementary.induct with
  | case1 => cases hi
  | case2 p =>
    obtain rfl := mem_singleton.mp hi
    refine ⟨mem_cons_self, hle p mem_cons_self, le_refl _, fun q hq => ?_⟩
    exact .inl (mem_singleton.mp hq).le
  | case3 p q ps ih =>
    obtain ⟨hp, hrest⟩ := pairwise_cons.mp hsort
    have hpq : p < q := hp q mem_cons_self
    have hq : q ≤ maxCp := hle q (mem_cons_of_mem p mem_cons_self)
    rcases mem_cons.mp hi with rfl | hi
    · refine ⟨mem_cons_self, by dsimp only; omega, by dsimp only; omega, fun r hr => ?_⟩
      rcases mem_cons.mp hr with rfl | hr
      · exact .inl (le_refl r)
      · rcases mem_cons.mp hr with rfl | hr'
        · exact .inr (by dsimp only; omega)
        · have hqr := (pairwise_cons.mp hrest).1 r hr'
          exact .inr (by dsimp only; omega)
    · obtain ⟨hmem, hlo, hhi, hoth⟩ := ih hrest (fun r hr => hle r (mem_cons_of_mem p hr)) hi
      refine ⟨mem_cons_of_mem p hmem, hlo, hhi, fun r hr => ?_⟩
      rcases mem_cons.mp hr with rfl | hr
      · exact .inl (hp i.1 hmem).le
      · exact hoth r hr

/-- Every code point from the first point on is in an interval. -/
theorem exists_mem_elementary {p : ℕ} (hp : p ∈ ps) (hpc : p ≤ c) (hc : c ≤ maxCp)
    (hsort : ps.Pairwise (· < ·)) : ∃ i ∈ elementary ps, i.1 ≤ c ∧ c ≤ i.2 := by
  induction ps using elementary.induct generalizing p with
  | case1 => cases hp
  | case2 q =>
    obtain rfl := mem_singleton.mp hp
    exact ⟨_, mem_cons_self, hpc, hc⟩
  | case3 q r ps ih =>
    obtain ⟨hq, hrest⟩ := pairwise_cons.mp hsort
    rcases Nat.lt_or_ge c r with hlt | hge
    · refine ⟨_, mem_cons_self, ?_, by dsimp only; omega⟩
      rcases mem_cons.mp hp with rfl | hp
      · exact hpc
      · exact (hq p hp).le.trans hpc
    · obtain ⟨i, hi, hlo, hhi⟩ := ih mem_cons_self hge hrest
      exact ⟨i, mem_cons_of_mem _ hi, hlo, hhi⟩

theorem pairwise_elementary (hsort : ps.Pairwise (· < ·)) (hle : ∀ p ∈ ps, p ≤ maxCp) :
    (elementary ps).Pairwise fun i j => i.2 < j.1 := by
  induction ps using elementary.induct with
  | case1 => exact .nil
  | case2 p => exact pairwise_singleton _ _
  | case3 p q ps ih =>
    obtain ⟨hp, hrest⟩ := pairwise_cons.mp hsort
    have hle' : ∀ r ∈ q :: ps, r ≤ maxCp := fun r hr => hle r (mem_cons_of_mem p hr)
    refine pairwise_cons.mpr ⟨fun i hi => ?_, ih hrest hle'⟩
    obtain ⟨hmem, -⟩ := mem_elementary hrest hle' hi
    have hpq := hp q mem_cons_self
    dsimp only
    rcases mem_cons.mp hmem with hq | hmem
    · omega
    · have hqi := (pairwise_cons.mp hrest).1 i.1 hmem
      omega

/-! ## The edges between sets of states -/

variable (S : Finset ℕ)

theorem mem_points (p : ℕ) :
    p ∈ a.points S ↔ ∃ s ∈ S, ∃ t ∈ a.trans s, p = t.min ∨ t.max < maxCp ∧ p = t.max + 1 := by
  simp only [points, Finset.mem_biUnion, mem_toFinset, mem_flatMap, mem_cons]
  refine exists_congr fun s => and_congr_right fun _ => exists_congr fun t =>
      and_congr_right fun _ => ?_
  split_ifs with hlt
  · simp [hlt]
  · simp [hlt]

def sortedPoints (a : StringAutomaton) (S : Finset ℕ) : List ℕ := (a.points S).sort (· ≤ ·)

theorem pairwise_sortedPoints : (a.sortedPoints S).Pairwise (· < ·) :=
  Finset.sortedLT_sort _ |>.pairwise

theorem mem_sortedPoints (p : ℕ) : p ∈ a.sortedPoints S ↔ p ∈ a.points S :=
  Finset.mem_sort _

theorem WellFormed.sortedPoints_le (h : a.WellFormed) (S : Finset ℕ) :
    ∀ p ∈ a.sortedPoints S, p ≤ maxCp := by
  intro p hp
  obtain ⟨s, -, t, ht, rfl | ⟨hlt, rfl⟩⟩ := (mem_points S p).mp ((mem_sortedPoints S p).mp hp)
  · have hintv := h.interval s t ht
    omega
  · exact hlt

/-- Within an interval between points all code points lead to the same states. -/
theorem WellFormed.moves_eq (h : a.WellFormed) (S : Finset ℕ) {i : ℕ × ℕ}
    (hi : i ∈ elementary (a.sortedPoints S)) (hlo : i.1 ≤ c) (hhi : c ≤ i.2) :
    a.moves S i.1 i.2 = a.moves S c c := by
  obtain ⟨-, -, hmax, hoth⟩ := mem_elementary (pairwise_sortedPoints S) (h.sortedPoints_le S) hi
  have hpoint : ∀ p, p ∈ a.points S → p ≤ i.1 ∨ i.2 < p :=
    fun p hp => hoth p ((mem_sortedPoints S p).mpr hp)
  ext x
  rw [mem_moves, mem_moves]
  refine exists_congr fun s => and_congr_right fun hs => exists_congr fun t =>
      and_congr_right fun ht =>
    and_congr_left fun _ => ⟨fun ⟨hmin, hmax⟩ => ⟨hmin.trans hlo, hhi.trans hmax⟩,
      fun ⟨hmin, hmaxc⟩ => ?_⟩
  constructor
  · rcases hpoint t.min ((mem_points S _).mpr ⟨s, hs, t, ht, .inl rfl⟩) with hle | hlt
    · exact hle
    · omega
  · rcases Nat.lt_or_ge t.max maxCp with hlt | hge
    · rcases hpoint (t.max + 1) ((mem_points S _).mpr ⟨s, hs, t, ht, .inr ⟨hlt, rfl⟩⟩)
        with hle | hlt'
      · omega
      · omega
    · omega

theorem mem_subsetEdges (e : (ℕ × ℕ) × Finset ℕ) :
    e ∈ a.subsetEdges S ↔ e.1 ∈ elementary (a.sortedPoints S) ∧ a.moves S e.1.1 e.1.2 ≠ ∅ ∧
      e.2 = a.epsClosure (a.moves S e.1.1 e.1.2) := by
  unfold subsetEdges
  rw [mem_filterMap]
  constructor
  · rintro ⟨i, hi, he⟩
    dsimp only at he
    split_ifs at he with hemp
    obtain rfl := Option.some.inj he
    exact ⟨hi, hemp, rfl⟩
  · rintro ⟨hi, hemp, htgt⟩
    refine ⟨e.1, hi, ?_⟩
    dsimp only
    rw [if_neg hemp, ← htgt]

/-- The edge for a code point leads to the states that a run is in after it. -/
theorem WellFormed.exists_mem_subsetEdges (h : a.WellFormed) (S : Finset ℕ) (c : ℕ)
    (P : Finset ℕ → Prop) :
    (∃ e ∈ a.subsetEdges S, (e.1.1 ≤ c ∧ c ≤ e.1.2) ∧ P e.2) ↔
      a.moves S c c ≠ ∅ ∧ P (a.epsClosure (a.moves S c c)) := by
  constructor
  · rintro ⟨e, he, ⟨hlo, hhi⟩, hP⟩
    obtain ⟨hi, hemp, htgt⟩ := (mem_subsetEdges S e).mp he
    have hmoves := h.moves_eq S hi hlo hhi
    rw [hmoves] at hemp htgt
    rw [htgt] at hP
    exact ⟨hemp, hP⟩
  · rintro ⟨hemp, hP⟩
    obtain ⟨x, hx⟩ := Finset.nonempty_iff_ne_empty.mpr hemp
    obtain ⟨s, hs, t, ht, ⟨hmin, hmax⟩, -⟩ := (mem_moves S c c x).mp hx
    have hpoint : t.min ∈ a.sortedPoints S :=
      (mem_sortedPoints S _).mpr ((mem_points S _).mpr ⟨s, hs, t, ht, .inl rfl⟩)
    have hc : c ≤ maxCp := hmax.trans (h.interval s t ht).2
    obtain ⟨i, hi, hlo, hhi⟩ := exists_mem_elementary hpoint hmin hc (pairwise_sortedPoints S)
    have hmoves := h.moves_eq S hi hlo hhi
    refine ⟨(i, a.epsClosure (a.moves S i.1 i.2)), (mem_subsetEdges S _).mpr ⟨hi, ?_, rfl⟩,
      ⟨hlo, hhi⟩, ?_⟩
    · dsimp only
      rwa [hmoves]
    · dsimp only
      rwa [hmoves]

/-! ## Automata read off a numbering -/

section numbering

variable {κ : Type} [DecidableEq κ] {expand : κ → List ((ℕ × ℕ) × κ)} {start : κ}
    {accept : κ → Bool}
  {n : Numbering κ (ℕ × ℕ)}

section

variable (h : n.Explored expand start)
include h

theorem size_ofNumbering : (ofNumbering accept n).size = n.keys.length := by
  simp [ofNumbering, size, h.length]

theorem stateAt_ofNumbering {i : ℕ} {k : κ} (hk : n.keys[i]? = some k) :
    (ofNumbering accept n).stateAt i =
      { trans := (expand k).map fun e => ⟨e.1.1, e.1.2, n.keys.idxOf e.2⟩, accept := accept k } :=
  by
  unfold stateAt ofNumbering
  dsimp only
  rw [getElem?_zipWith, hk, h.row i k hk]
  simp [row, Function.comp_def]

theorem eps_ofNumbering (i : ℕ) : (ofNumbering accept n).eps i = [] := by
  rcases Nat.lt_or_ge i n.keys.length with hlt | hge
  · rw [eps, stateAt_ofNumbering h (getElem?_eq_getElem hlt)]
  · rw [eps, stateAt_of_le _ (by rwa [size_ofNumbering h])]

theorem mem_trans_ofNumbering (i : ℕ) (t : CharTransition) : t ∈ (ofNumbering accept n).trans i ↔
      ∃ k, n.keys[i]? = some k ∧ ∃ e ∈ expand k, t = ⟨e.1.1, e.1.2, n.keys.idxOf e.2⟩ := by
  constructor
  · intro ht
    have hlt := lt_of_mem_trans _ ht
    rw [size_ofNumbering h] at hlt
    refine ⟨_, getElem?_eq_getElem hlt, ?_⟩
    rw [trans, stateAt_ofNumbering h (getElem?_eq_getElem hlt)] at ht
    obtain ⟨e, he, rfl⟩ := mem_map.mp ht
    exact ⟨e, he, rfl⟩
  · rintro ⟨k, hk, e, he, rfl⟩
    rw [trans, stateAt_ofNumbering h hk]
    exact mem_map.mpr ⟨e, he, rfl⟩

end

theorem getElem?_idxOf {keys : List κ} {k : κ} (hk : k ∈ keys) : keys[keys.idxOf k]? = some k := by
  rw [getElem?_eq_getElem (idxOf_lt_length_of_mem hk), getElem_idxOf]

variable (h : n.Explored expand start)
include h

theorem wellFormed_ofNumbering
    (hintv : ∀ k ∈ n.keys, ∀ e ∈ expand k, e.1.1 ≤ e.1.2 ∧ e.1.2 ≤ maxCp) :
    (ofNumbering accept n).WellFormed := by
  constructor
  · rw [size_ofNumbering h]
    exact (List.getElem?_eq_some_iff.mp h.start).1
  · intro s e he
    rw [eps_ofNumbering h] at he
    cases he
  · intro s t ht
    obtain ⟨k, hk, e, he, rfl⟩ := (mem_trans_ofNumbering h s t).mp ht
    rw [size_ofNumbering h]
    exact idxOf_lt_length_of_mem (h.closed k (mem_of_getElem? hk) e he)
  · intro s t ht
    obtain ⟨k, hk, e, he, rfl⟩ := (mem_trans_ofNumbering h s t).mp ht
    exact hintv k (mem_of_getElem? hk) e he

/-- The words accepted from a state are those that its key gives, when its edges spell them. -/
theorem mem_acceptedFrom_ofNumbering {words : κ → Language ℕ}
    (hnil : ∀ k ∈ n.keys, [] ∈ words k ↔ accept k = true)
    (hcons : ∀ k ∈ n.keys, ∀ c w, c :: w ∈ words k ↔ ∃ e ∈ expand k,
      (e.1.1 ≤ c ∧ c ≤ e.1.2) ∧ w ∈ words e.2)
    (w : List ℕ) {i : ℕ} {k : κ} (hk : n.keys[i]? = some k) :
    w ∈ acceptedFrom (ofNumbering accept n).toNFA i ↔ w ∈ words k := by
  have hnone : ∀ s, (ofNumbering accept n).toNFA.step s none = ∅ := by
    intro s
    ext q
    rw [mem_step_none, eps_ofNumbering h]
    simp
  induction w generalizing i k with
  | nil =>
    rw [nil_mem_acceptedFrom hnone, hnil k (mem_of_getElem? hk)]
    change (ofNumbering accept n).accept i = true ↔ _
    rw [StringAutomaton.accept, stateAt_ofNumbering h hk]
  | cons c w ih =>
    have hmem := mem_of_getElem? hk
    rw [cons_mem_acceptedFrom hnone, hcons k hmem]
    constructor
    · rintro ⟨q, ⟨t, ht, hmin, hmax, rfl⟩, hw⟩
      obtain ⟨k', hk', e, he, rfl⟩ := (mem_trans_ofNumbering h i t).mp ht
      obtain rfl := Option.some.inj (hk.symm.trans hk')
      exact ⟨e, he, ⟨hmin, hmax⟩, (ih (getElem?_idxOf (h.closed k hmem e he))).mp hw⟩
    · rintro ⟨e, he, ⟨hmin, hmax⟩, hw⟩
      refine ⟨n.keys.idxOf e.2, ⟨⟨e.1.1, e.1.2, n.keys.idxOf e.2⟩, ?_, hmin, hmax, rfl⟩, ?_⟩
      · exact (mem_trans_ofNumbering h i _).mpr ⟨k, hk, e, he, rfl⟩
      · exact (ih (getElem?_idxOf (h.closed k hmem e he))).mpr hw

theorem mem_language_ofNumbering (words : κ → Language ℕ)
    (hnil : ∀ k ∈ n.keys, [] ∈ words k ↔ accept k = true)
    (hcons : ∀ k ∈ n.keys, ∀ c w, c :: w ∈ words k ↔ ∃ e ∈ expand k,
      (e.1.1 ≤ c ∧ c ≤ e.1.2) ∧ w ∈ words e.2)
    (w : List ℕ) : w ∈ (ofNumbering accept n).language ↔ w ∈ words start := by
  rw [← mem_acceptedFrom_ofNumbering h hnil hcons w h.start, mem_language]
  rfl

end numbering

/-! ## Determinisation -/

/-- The words accepted from a set of states. -/
def wordsFrom (a : StringAutomaton) (S : Finset ℕ) : Language ℕ :=
  {w | ∃ q ∈ w.foldl a.toNFA.stepSet (S : Set ℕ), a.accept q = true}

theorem nil_mem_wordsFrom (S : Finset ℕ) : [] ∈ a.wordsFrom S ↔ a.accepts S = true :=
  (accepts_iff S).symm

section

variable (h : a.WellFormed)
include h

theorem WellFormed.cons_mem_wordsFrom (S : Finset ℕ) (c : ℕ) (w : List ℕ) : c :: w ∈ a.wordsFrom S ↔
      ∃ e ∈ a.subsetEdges S, (e.1.1 ≤ c ∧ c ≤ e.1.2) ∧ w ∈ a.wordsFrom e.2 := by
  have hstep : (a.epsClosure (a.moves S c c) : Set ℕ) = a.toNFA.stepSet (S : Set ℕ) c := by
    ext x
    exact h.mem_epsClosure_moves S c x
  have hcons : c :: w ∈ a.wordsFrom S ↔ w ∈ a.wordsFrom (a.epsClosure (a.moves S c c)) := by
    change (∃ q ∈ (c :: w).foldl a.toNFA.stepSet (S : Set ℕ), _) ↔
      ∃ q ∈ w.foldl a.toNFA.stepSet (a.epsClosure (a.moves S c c) : Set ℕ), _
    rw [foldl_cons, hstep]
  rw [hcons, h.exists_mem_subsetEdges S c fun T => w ∈ a.wordsFrom T, and_iff_right_of_imp]
  -- After no move no state is left, and no word is accepted.
  rintro ⟨q, hq, -⟩ hemp
  have hclo : (a.epsClosure (a.moves S c c) : Set ℕ) = ∅ := by
    ext x
    rw [Finset.mem_coe, h.mem_epsClosure h.moves_lt, hemp, Finset.coe_empty, εNFA.εClosure_empty]
  rw [hclo, foldl_stepSet_empty] at hq
  cases hq

theorem WellFormed.epsClosure_subset {S : Finset ℕ} (hS : ∀ s ∈ S, s < a.size) :
    a.epsClosure S ∈ (Finset.range a.size).powerset := by
  rw [Finset.mem_powerset]
  intro x hx
  exact Finset.mem_range.mpr (h.epsClosure_lt hS x hx)

theorem WellFormed.start_subset : ∀ s ∈ ({a.start} : Finset ℕ), s < a.size := by
  intro s hs
  rw [Finset.mem_singleton.mp hs]
  exact h.start_lt

theorem WellFormed.explored_subsets :
    (explore a.subsetEdges (2 ^ a.size) ⟨[a.epsClosure {a.start}], []⟩).Explored a.subsetEdges
      (a.epsClosure {a.start}) := by
  apply explored_explore_start (Finset.range a.size).powerset
  · intro S _ e he
    obtain ⟨-, -, htgt⟩ := (mem_subsetEdges S e).mp he
    rw [htgt]
    exact h.epsClosure_subset h.moves_lt
  · exact h.epsClosure_subset h.start_subset
  · rw [Finset.card_powerset, Finset.card_range]

theorem WellFormed.subsetEdges_interval (S : Finset ℕ) {e : (ℕ × ℕ) × Finset ℕ}
    (he : e ∈ a.subsetEdges S) : e.1.1 ≤ e.1.2 ∧ e.1.2 ≤ maxCp := by
  obtain ⟨hi, -⟩ := (mem_subsetEdges S e).mp he
  obtain ⟨-, hlo, hhi, -⟩ := mem_elementary (pairwise_sortedPoints S) (h.sortedPoints_le S) hi
  exact ⟨hlo, hhi⟩

end

theorem WellFormed.determinize (h : a.WellFormed) : a.determinize.WellFormed :=
  wellFormed_ofNumbering h.explored_subsets fun S _ _ he => h.subsetEdges_interval S he

theorem WellFormed.language_determinize (h : a.WellFormed) :
    a.determinize.language = a.language := by
  ext w
  have hdeterminize := mem_language_ofNumbering h.explored_subsets a.wordsFrom
    (fun S _ => nil_mem_wordsFrom S) (fun S _ c w => h.cons_mem_wordsFrom S c w) w
  rw [StringAutomaton.determinize, hdeterminize, ← h.run_iff, run, h.runFrom_iff]
  rfl

/-- The transitions of one state have disjoint intervals in increasing order. -/
def Deterministic (a : StringAutomaton) : Prop :=
  ∀ s, (a.trans s).Pairwise fun t u => t.max < u.min

theorem WellFormed.deterministic_determinize (h : a.WellFormed) : a.determinize.Deterministic := by
  intro s
  rcases Nat.lt_or_ge s a.determinize.size with hlt | hge
  · have hexp := h.explored_subsets
    rw [StringAutomaton.determinize, size_ofNumbering hexp] at hlt
    have hk := getElem?_eq_getElem hlt
    rw [StringAutomaton.determinize, trans, stateAt_ofNumbering hexp hk, pairwise_map]
    generalize (explore a.subsetEdges _ _).keys[s] = S
    unfold subsetEdges
    rw [pairwise_filterMap]
    refine (pairwise_elementary (pairwise_sortedPoints S) (h.sortedPoints_le S)).imp ?_
    intro i j hij e he e' he'
    dsimp only at he he'
    split_ifs at he he'
    obtain rfl := Option.some.inj he
    obtain rfl := Option.some.inj he'
    exact hij
  · rw [trans, stateAt_of_le _ hge]
    exact .nil

/-! ## Products -/

theorem mem_pairEdges (p : ℕ × ℕ) (e : (ℕ × ℕ) × (ℕ × ℕ)) :
    e ∈ a.pairEdges b p ↔ ∃ ta ∈ a.trans p.1, ∃ tb ∈ b.trans p.2,
      max ta.min tb.min ≤ min ta.max tb.max ∧
        e = ((max ta.min tb.min, min ta.max tb.max), (ta.target, tb.target)) := by
  unfold pairEdges
  simp only [mem_flatMap, mem_filterMap]
  refine exists_congr fun ta => and_congr_right fun _ => exists_congr fun tb =>
      and_congr_right fun _ => ?_
  split_ifs with hlt
  · simp [not_le.mpr hlt]
  · simp [not_lt.mp hlt, eq_comm]

theorem WellFormed.explored_pairs (ha : a.WellFormed) (hb : b.WellFormed) :
    (explore (a.pairEdges b) (a.size * b.size) ⟨[(a.start, b.start)], []⟩).Explored (a.pairEdges b)
      (a.start, b.start) := by
  apply explored_explore_start (Finset.range a.size ×ˢ Finset.range b.size)
  · intro p _ e he
    obtain ⟨ta, hta, tb, htb, -, rfl⟩ := (mem_pairEdges p e).mp he
    simp only [Finset.mem_product, Finset.mem_range]
    exact ⟨ha.target_lt p.1 ta hta, hb.target_lt p.2 tb htb⟩
  · simp only [Finset.mem_product, Finset.mem_range]
    exact ⟨ha.start_lt, hb.start_lt⟩
  · rw [Finset.card_product, Finset.card_range, Finset.card_range]

/-- The product of two automata without ε transitions. -/
def product (a b : StringAutomaton) : StringAutomaton :=
  ofNumbering (fun p => a.accept p.1 && b.accept p.2)
    (explore (a.pairEdges b) (a.size * b.size) ⟨[(a.start, b.start)], []⟩)

theorem WellFormed.product (ha : a.WellFormed) (hb : b.WellFormed) : (a.product b).WellFormed := by
  refine wellFormed_ofNumbering (ha.explored_pairs hb) fun p _ e he => ?_
  obtain ⟨ta, hta, tb, -, hle, rfl⟩ := (mem_pairEdges p e).mp he
  exact ⟨hle, (min_le_left _ _).trans (ha.interval p.1 ta hta).2⟩

theorem WellFormed.language_product (ha : a.WellFormed) (hb : b.WellFormed)
    (hεa : ∀ s, a.toNFA.step s none = ∅) (hεb : ∀ s, b.toNFA.step s none = ∅) (w : List ℕ) :
    w ∈ (a.product b).language ↔ w ∈ a.language ∧ w ∈ b.language := by
  have hlang : ∀ a : StringAutomaton, w ∈ a.language ↔ w ∈ acceptedFrom a.toNFA a.start :=
    fun a => mem_language a
  rw [hlang a, hlang b]
  refine mem_language_ofNumbering (ha.explored_pairs hb)
    (fun p => {w | w ∈ acceptedFrom a.toNFA p.1 ∧ w ∈ acceptedFrom b.toNFA p.2})
    (fun p _ => ?_) (fun p _ c w => ?_) w
  · change ([] ∈ acceptedFrom a.toNFA p.1 ∧ [] ∈ acceptedFrom b.toNFA p.2) ↔ _
    rw [nil_mem_acceptedFrom hεa, nil_mem_acceptedFrom hεb, Bool.and_eq_true]
    rfl
  · change (c :: w ∈ acceptedFrom a.toNFA p.1 ∧ c :: w ∈ acceptedFrom b.toNFA p.2) ↔
      ∃ e ∈ a.pairEdges b p, _ ∧ (w ∈ acceptedFrom a.toNFA e.2.1 ∧ w ∈ acceptedFrom b.toNFA e.2.2)
    rw [cons_mem_acceptedFrom hεa, cons_mem_acceptedFrom hεb]
    constructor
    · rintro ⟨⟨_, ⟨ta, hta, hmin, hmax, rfl⟩, hwa⟩, _, ⟨tb, htb, hmin', hmax', rfl⟩, hwb⟩
      have hlo : max ta.min tb.min ≤ c := max_le hmin hmin'
      have hhi : c ≤ min ta.max tb.max := le_min hmax hmax'
      exact ⟨_, (mem_pairEdges p _).mpr ⟨ta, hta, tb, htb, hlo.trans hhi, rfl⟩,
        ⟨hlo, hhi⟩, hwa, hwb⟩
    · rintro ⟨e, he, ⟨hlo, hhi⟩, hwa, hwb⟩
      obtain ⟨ta, hta, tb, htb, -, rfl⟩ := (mem_pairEdges p e).mp he
      obtain ⟨hmin, hmin'⟩ := max_le_iff.mp hlo
      obtain ⟨hmax, hmax'⟩ := le_min_iff.mp hhi
      exact ⟨⟨ta.target, ⟨ta, hta, hmin, hmax, rfl⟩, hwa⟩, tb.target,
        ⟨tb, htb, hmin', hmax', rfl⟩, hwb⟩

theorem WellFormed.step_none_determinize (h : a.WellFormed) (s : ℕ) :
    a.determinize.toNFA.step s none = ∅ := by
  ext q
  rw [mem_step_none, StringAutomaton.determinize, eps_ofNumbering h.explored_subsets]
  simp

theorem WellFormed.intersection (ha : a.WellFormed) (hb : b.WellFormed) :
    (a.intersection b).WellFormed :=
  ha.determinize.product hb.determinize

theorem WellFormed.mem_language_intersection (ha : a.WellFormed) (hb : b.WellFormed) (w : List ℕ) :
    w ∈ (a.intersection b).language ↔ w ∈ a.language ∧ w ∈ b.language := by
  have hprod := ha.determinize.language_product hb.determinize ha.step_none_determinize
    hb.step_none_determinize w
  rw [ha.language_determinize, hb.language_determinize] at hprod
  exact hprod

/-! ## Complements -/

variable {ts : List CharTransition}

theorem mem_gaps_interval {sink next : ℕ} (hts : ∀ t ∈ ts, t.max ≤ maxCp)
    (hmin : ∀ t ∈ ts, t.min ≤ t.max) {g : CharTransition} (hg : g ∈ gaps sink next ts) :
    g.target = sink ∧ g.min ≤ g.max ∧ g.max ≤ maxCp := by
  induction ts generalizing next with
  | nil =>
    simp only [gaps] at hg
    split_ifs at hg with hle
    · obtain rfl := mem_singleton.mp hg
      exact ⟨rfl, hle, le_refl _⟩
    · cases hg
  | cons t ts ih =>
    rcases mem_append.mp hg with hg | hg
    · split_ifs at hg with hlt
      · obtain rfl := mem_singleton.mp hg
        have hmax := hts t mem_cons_self
        have hle := hmin t mem_cons_self
        refine ⟨rfl, ?_, ?_⟩
        · dsimp only
          omega
        · dsimp only
          omega
      · cases hg
    · exact ih (fun u hu => hts u (mem_cons_of_mem t hu))
        (fun u hu => hmin u (mem_cons_of_mem t hu)) hg

/-- The gaps consist of the code points outside the intervals. -/
theorem exists_mem_gaps (sink : ℕ) {next : ℕ}
    (hsort : ts.Pairwise fun t u => t.max < u.min) (hts : ∀ t ∈ ts, t.min ≤ t.max ∧ t.max ≤ maxCp)
    (hnext : ∀ t ∈ ts, next ≤ t.min) (c : ℕ) : (∃ g ∈ gaps sink next ts, g.min ≤ c ∧ c ≤ g.max) ↔
      next ≤ c ∧ c ≤ maxCp ∧ ∀ t ∈ ts, ¬ (t.min ≤ c ∧ c ≤ t.max) := by
  induction ts generalizing next with
  | nil =>
    simp only [gaps]
    split_ifs with hle
    · simp
    · simp
      omega
  | cons t ts ih =>
    obtain ⟨htts, hrest⟩ := pairwise_cons.mp hsort
    obtain ⟨hle, hmax⟩ := hts t mem_cons_self
    have hnt := hnext t mem_cons_self
    have ih' := ih hrest (fun u hu => hts u (mem_cons_of_mem t hu)) (fun u hu => htts u hu)
    have hfst : (∃ g ∈ (if next < t.min then [(⟨next, t.min - 1, sink⟩ : CharTransition)] else []),
        g.min ≤ c ∧ c ≤ g.max) ↔ next ≤ c ∧ c < t.min := by
      split_ifs with hlt
      · simp
        omega
      · simp
        omega
    have hafter : ∀ u ∈ ts, t.max < u.min := htts
    simp only [gaps, mem_append, or_and_right, exists_or, hfst, ih', forall_mem_cons]
    constructor
    · rintro (⟨hnc, hct⟩ | ⟨htc, hc, hout⟩)
      · refine ⟨hnc, by omega, by omega, fun u hu => ?_⟩
        have := hafter u hu
        omega
      · exact ⟨by omega, hc, by omega, hout⟩
    · rintro ⟨hnc, hc, hnot, hout⟩
      rcases Nat.lt_or_ge c t.min with hct | hct
      · exact .inl ⟨hnc, hct⟩
      · exact .inr ⟨by omega, hc, hout⟩

/-- Flip the accepting states after adding a sink for all missing transitions. -/
def flip (dfa : StringAutomaton) : StringAutomaton :=
  { dfa with
    states := dfa.states.map (complete dfa.size) ++
      [{ trans := [⟨0, maxCp, dfa.size⟩], accept := true }] }

theorem size_flip : a.flip.size = a.size + 1 := by
  simp [flip, size]

theorem stateAt_flip (hs : s < a.size) : a.flip.stateAt s = complete a.size (a.stateAt s) := by
  have hs' : s < a.states.length := hs
  simp [flip, stateAt, getElem?_append_left, hs']

theorem stateAt_flip_sink :
    a.flip.stateAt a.size = { trans := [⟨0, maxCp, a.size⟩], accept := true } := by
  simp [flip, stateAt, size]

theorem stateAt_flip_of_lt (hs : a.size < s) : a.flip.stateAt s = {} := by
  apply stateAt_of_le
  rw [size_flip]
  exact hs

theorem Deterministic.trans_flip (hdet : a.Deterministic) (h : a.WellFormed) (hs : s < a.size) :
    a.flip.trans s = a.trans s ++ gaps a.size 0 (a.trans s) := by
  have hsort : (a.trans s).Pairwise fun t u => t.min ≤ u.min := by
    refine (hdet s).imp_of_mem fun {t u} ht _ htu => ?_
    have hintv := h.interval s t ht
    omega
  rw [trans, stateAt_flip hs]
  simp only [complete]
  rw [show (a.stateAt s).trans = a.trans s from rfl, hsort.insertionSort_eq]

theorem Deterministic.unique (hdet : a.Deterministic) {t u : CharTransition}
    (ht : t ∈ a.trans s) (hu : u ∈ a.trans s) (htc : t.min ≤ c ∧ c ≤ t.max)
    (huc : u.min ≤ c ∧ c ≤ u.max) :
    t = u := by
  obtain ⟨i, hi, rfl⟩ := getElem_of_mem ht
  obtain ⟨j, hj, rfl⟩ := getElem_of_mem hu
  have hpair := pairwise_iff_getElem.mp (hdet s)
  rcases Nat.lt_trichotomy i j with hij | rfl | hij
  · have hlt := hpair i j hi hj hij
    omega
  · rfl
  · have hlt := hpair j i hj hi hij
    omega

theorem Deterministic.wellFormed_flip (hdet : a.Deterministic) (h : a.WellFormed)
    (hε : ∀ s, a.toNFA.step s none = ∅) : a.flip.WellFormed := by
  have hmem : ∀ s, ∀ t ∈ a.flip.trans s,
      t ∈ a.trans s ∨ t.target = a.size ∧ t.min ≤ t.max ∧ t.max ≤ maxCp := by
    intro s t ht
    rcases Nat.lt_trichotomy s a.size with hs | rfl | hs
    · rw [hdet.trans_flip h hs] at ht
      rcases mem_append.mp ht with ht | ht
      · exact .inl ht
      · exact .inr (mem_gaps_interval (fun u hu => (h.interval s u hu).2)
          (fun u hu => (h.interval s u hu).1) ht)
    · rw [trans, stateAt_flip_sink] at ht
      obtain rfl := mem_singleton.mp ht
      exact .inr ⟨rfl, Nat.zero_le _, le_refl _⟩
    · rw [trans, stateAt_flip_of_lt hs] at ht
      cases ht
  constructor
  · rw [size_flip]
    exact h.start_lt.trans (Nat.lt_succ_self _)
  · intro s e he
    rcases Nat.lt_trichotomy s a.size with hs | rfl | hs
    · rw [eps, stateAt_flip hs] at he
      have he' : e ∈ a.toNFA.step s none := he
      rw [hε s] at he'
      cases he'
    · rw [eps, stateAt_flip_sink] at he
      cases he
    · rw [eps, stateAt_flip_of_lt hs] at he
      cases he
  · intro s t ht
    rw [size_flip]
    rcases hmem s t ht with ht | ⟨htgt, -⟩
    · exact (h.target_lt s t ht).trans (Nat.lt_succ_self _)
    · rw [htgt]
      exact Nat.lt_succ_self _
  · intro s t ht
    rcases hmem s t ht with ht | ⟨-, hintv⟩
    · exact h.interval s t ht
    · exact hintv

theorem step_none_flip (hε : ∀ s, a.toNFA.step s none = ∅) (s : ℕ) :
    a.flip.toNFA.step s none = ∅ := by
  ext q
  rw [mem_step_none, eps]
  rcases Nat.lt_trichotomy s a.size with hs | rfl | hs
  · rw [stateAt_flip hs]
    exact Set.ext_iff.mp (hε s) q
  · simp [stateAt_flip_sink]
  · simp [stateAt_flip_of_lt hs]

theorem accept_flip (hs : s ≤ a.size) : a.flip.accept s = !a.accept s := by
  rcases Nat.lt_or_eq_of_le hs with hs | rfl
  · rw [accept, stateAt_flip hs]
    rfl
  · rw [accept, stateAt_flip_sink, accept, stateAt_of_le a (le_refl _)]
    rfl

/-- From every state a code point leads on, as before or to the sink. -/
theorem Deterministic.mem_step_flip (hdet : a.Deterministic) (h : a.WellFormed)
    (hs : s ≤ a.size) (hc : c ≤ maxCp) (q : ℕ) :
    q ∈ a.flip.toNFA.step s (some c) ↔ q ∈ a.toNFA.step s (some c) ∨
      (∀ t ∈ a.trans s, ¬ (t.min ≤ c ∧ c ≤ t.max)) ∧ q = a.size := by
  rw [mem_step_some, mem_step_some]
  rcases Nat.lt_or_eq_of_le hs with hs | rfl
  · have hgaps := exists_mem_gaps a.size (hdet s) (fun t ht => h.interval s t ht)
      (fun t _ => Nat.zero_le t.min) c
    rw [hdet.trans_flip h hs]
    simp only [mem_append, or_and_right, exists_or]
    refine or_congr_right ?_
    constructor
    · rintro ⟨g, hg, hmin, hmax, rfl⟩
      obtain ⟨htgt, -⟩ := mem_gaps_interval (fun u hu => (h.interval s u hu).2)
        (fun u hu => (h.interval s u hu).1) hg
      exact ⟨(hgaps.mp ⟨g, hg, hmin, hmax⟩).2.2, htgt⟩
    · rintro ⟨hout, rfl⟩
      obtain ⟨g, hg, hmin, hmax⟩ := hgaps.mpr ⟨Nat.zero_le c, hc, hout⟩
      obtain ⟨htgt, -⟩ := mem_gaps_interval (fun u hu => (h.interval s u hu).2)
        (fun u hu => (h.interval s u hu).1) hg
      exact ⟨g, hg, hmin, hmax, htgt⟩
  · have htrans : a.trans a.size = [] := by
      rw [trans, stateAt_of_le a (le_refl _)]
    rw [trans, stateAt_flip_sink, htrans]
    simp [hc, eq_comm]

/-- By induction on the word: flipping rejects from each state what was accepted there. -/
theorem Deterministic.mem_acceptedFrom_flip (hdet : a.Deterministic) (h : a.WellFormed)
    (hε : ∀ s, a.toNFA.step s none = ∅) (hw : ∀ c ∈ w, c ≤ maxCp) (hs : s ≤ a.size) :
    w ∈ acceptedFrom a.flip.toNFA s ↔ w ∉ acceptedFrom a.toNFA s := by
  induction w generalizing s with
  | nil =>
    rw [nil_mem_acceptedFrom (step_none_flip hε), nil_mem_acceptedFrom hε]
    change a.flip.accept s = true ↔ ¬ a.accept s = true
    simp [accept_flip hs]
  | cons c w ih =>
    obtain ⟨hc, hw⟩ := forall_mem_cons.mp hw
    rw [cons_mem_acceptedFrom (step_none_flip hε), cons_mem_acceptedFrom hε]
    simp only [hdet.mem_step_flip h hs hc]
    by_cases hout : ∀ t ∈ a.trans s, ¬ (t.min ≤ c ∧ c ≤ t.max)
    · -- The sink accepts every word, and no transition was there before.
      have hstep : ∀ q, q ∉ a.toNFA.step s (some c) := by
        rintro q ⟨t, ht, hmin, hmax, -⟩
        exact hout t ht ⟨hmin, hmax⟩
      have hsink : w ∈ acceptedFrom a.flip.toNFA a.size := by
        rw [ih hw (le_refl _)]
        cases w with
        | nil =>
          rw [nil_mem_acceptedFrom hε]
          intro hacc
          exact Nat.lt_irrefl _ (a.lt_of_accept hacc)
        | cons d w =>
          rw [cons_mem_acceptedFrom hε]
          rintro ⟨q, hq, -⟩
          exact Nat.lt_irrefl _ (a.lt_of_mem_step hq)
      constructor
      · rintro - ⟨q, hq, -⟩
        exact hstep q hq
      · rintro -
        exact ⟨a.size, .inr ⟨hout, rfl⟩, hsink⟩
    · -- There is exactly one transition.
      obtain ⟨t, ht, htc⟩ := by
        push Not at hout
        exact hout
      have hstep : ∀ q, q ∈ a.toNFA.step s (some c) ↔ q = t.target := by
        intro q
        constructor
        · rintro ⟨u, hu, hmin, hmax, rfl⟩
          rw [hdet.unique ht hu htc ⟨hmin, hmax⟩]
        · rintro rfl
          exact ⟨t, ht, htc.1, htc.2, rfl⟩
      have ih' := ih hw (h.target_lt s t ht).le
      simp only [hstep, hout, false_and, or_false, exists_eq_left]
      exact ih'

theorem WellFormed.complement (h : a.WellFormed) : a.complement.WellFormed :=
  h.deterministic_determinize.wellFormed_flip h.determinize h.step_none_determinize

theorem WellFormed.mem_language_complement (h : a.WellFormed) (hw : ∀ c ∈ w, c ≤ maxCp) :
    w ∈ a.complement.language ↔ w ∉ a.language := by
  have hflip := h.deterministic_determinize.mem_acceptedFrom_flip h.determinize
    h.step_none_determinize
    hw h.determinize.start_lt.le
  rw [← h.language_determinize, mem_language, mem_language]
  exact hflip

theorem WellFormed.minus (ha : a.WellFormed) (hb : b.WellFormed) : (a.minus b).WellFormed :=
  ha.intersection hb.complement

theorem WellFormed.mem_language_minus (ha : a.WellFormed) (hb : b.WellFormed)
    (hw : ∀ c ∈ w, c ≤ maxCp) : w ∈ (a.minus b).language ↔ w ∈ a.language ∧ w ∉ b.language := by
  unfold StringAutomaton.minus
  rw [ha.mem_language_intersection hb.complement, hb.mem_language_complement hw]

/-- What is reached by transitions and ε steps is reached by some word. -/
theorem WellFormed.exists_wordsTo (h : a.WellFormed) {q : ℕ}
    (hsq : Relation.ReflTransGen (fun s t => t ∈ a.successors s) s q) :
    ∃ w, w ∈ wordsTo a.toNFA q s := by
  induction hsq with
  | refl => exact ⟨[], nil_mem_wordsTo s⟩
  | tail _ hstep ih =>
    obtain ⟨w, hw⟩ := ih
    rcases mem_append.mp hstep with hstep | hstep
    · obtain ⟨t, ht, rfl⟩ := mem_map.mp hstep
      have hmem : t.target ∈ a.toNFA.step _ (some t.min) :=
        ⟨t, ht, le_refl _, (h.interval _ t ht).1, rfl⟩
      exact ⟨_, wordsTo_step hmem hw⟩
    · exact ⟨_, wordsTo_step (show _ ∈ a.toNFA.step _ none from hstep) hw⟩

theorem reach_of_wordsTo {q : ℕ} (hw : w ∈ wordsTo a.toNFA q s) :
    Relation.ReflTransGen (fun s t => t ∈ a.successors s) s q := by
  obtain ⟨x, -, hpath⟩ := hw
  induction hpath with
  | nil => exact .refl
  | cons u _ _ l _ hl _ ih =>
    refine .head ?_ ih
    cases l with
    | none => exact mem_append.mpr (.inr hl)
    | some c =>
      obtain ⟨t, ht, -, -, rfl⟩ := hl
      exact mem_append.mpr (.inl (mem_map.mpr ⟨t, ht, rfl⟩))

theorem WellFormed.isEmpty_iff (h : a.WellFormed) : a.isEmpty = true ↔ ∀ w, w ∉ a.language := by
  have huniv : ∀ s ∈ List.range a.size, ∀ t ∈ a.successors s, t ∈ List.range a.size := by
    intro s _ t ht
    rw [mem_range]
    rcases mem_append.mp ht with ht | ht
    · obtain ⟨u, hu, rfl⟩ := mem_map.mp ht
      exact h.target_lt s u hu
    · exact h.eps_lt s t ht
  have hseeds : ∀ s ∈ (a.epsClosure {a.start}).sort (· ≤ ·), s ∈ List.range a.size :=
    fun s hs => mem_range.mpr (h.epsClosure_lt h.start_subset s ((Finset.mem_sort _).mp hs))
  have hreach : ∀ q, Worklist.Reach a.successors ((a.epsClosure {a.start}).sort (· ≤ ·)) q ↔
      ∃ w, w ∈ wordsTo a.toNFA q a.start := by
    intro q
    constructor
    · rintro ⟨s, hs, hsq⟩
      rw [Finset.mem_sort, h.mem_epsClosure h.start_subset, mem_εClosure_iff_reach] at hs
      obtain ⟨r, hr, hrs⟩ := hs
      obtain rfl : r = a.start := by simpa using hr
      have hrs' : Relation.ReflTransGen (fun s t => t ∈ a.successors s) a.start s :=
        hrs.lift id fun s t ht => mem_append.mpr (.inr ht)
      exact h.exists_wordsTo (hrs'.trans hsq)
    · rintro ⟨w, hw⟩
      refine ⟨a.start, ?_, reach_of_wordsTo hw⟩
      rw [Finset.mem_sort, h.mem_epsClosure h.start_subset]
      exact εNFA.εClosure.base _ (by simp)
  unfold isEmpty
  rw [Bool.not_eq_true', any_eq_false]
  simp only [Worklist.mem_reachPush huniv hseeds, hreach, mem_language]
  constructor
  · rintro hnone w ⟨q, hq, hw⟩
    exact hnone q ⟨w, hw⟩ hq
  · rintro hnone q ⟨w, hw⟩ hq
    exact hnone w ⟨q, hq, hw⟩

/-- Only words over code points are accepted. -/
theorem WellFormed.le_maxCp (h : a.WellFormed) (hw : w ∈ a.language) : ∀ c ∈ w, c ≤ maxCp := by
  have hbackward : Backward a.toNFA fun _ => {w | ∀ c ∈ w, c ≤ maxCp} := by
    intro s l t ht w hw
    cases l with
    | none => exact hw
    | some c =>
      obtain ⟨u, hu, -, hmax, -⟩ := ht
      exact forall_mem_cons.mpr ⟨hmax.trans (h.interval s u hu).2, hw⟩
  obtain ⟨q, -, x, rfl, hpath⟩ := (mem_language a).mp hw
  have hmem := hbackward.append_mem hpath (show [] ∈ _ from fun c hc => by cases hc)
  rwa [append_nil] at hmem

/-! ## Words accepted by runs -/

theorem WellFormed.repeatMin (h : a.WellFormed) (min : ℕ) : (a.repeatMin min).WellFormed :=
  (h.repeatRange min min).concatenate h.repeat

theorem WellFormed.language_repeatMin (h : a.WellFormed) (min : ℕ) :
    (a.repeatMin min).language = a.language ^ min * KStar.kstar a.language := by
  have hrng : (a.repeatRange min min).language = a.language ^ min := by
    ext w
    rw [h.mem_language_repeatRange]
    constructor
    · rintro ⟨k, hmin, hmax, hw⟩
      rwa [le_antisymm hmax hmin] at hw
    · intro hw
      exact ⟨min, le_refl _, le_refl _, hw⟩
  unfold StringAutomaton.repeatMin
  rw [(h.repeatRange min min).language_concatenate, hrng, h.language_repeat]

theorem WellFormed.optional (h : a.WellFormed) : a.optional.WellFormed := h.union wellFormed_epsilon

theorem WellFormed.language_optional (h : a.WellFormed) : a.optional.language = a.language + 1 := by
  unfold StringAutomaton.optional
  rw [h.language_union wellFormed_epsilon, language_epsilon]

theorem wellFormed_ranges {intervals : List (ℕ × ℕ)} (hmax : ∀ i ∈ intervals, i.2 ≤ maxCp) :
    (ranges intervals).WellFormed := by
  have hstate : ∀ s, (ranges intervals).eps s = [] ∧ ∀ t ∈ (ranges intervals).trans s,
      ∃ i ∈ intervals, i.1 ≤ i.2 ∧ t = ⟨i.1, i.2, 1⟩ := by
    intro s
    rcases s with _ | _ | s
    · refine ⟨rfl, fun t ht => ?_⟩
      obtain ⟨i, hi, rfl⟩ := mem_map.mp ht
      obtain ⟨hi, hle⟩ := mem_filter.mp hi
      exact ⟨i, hi, of_decide_eq_true hle, rfl⟩
    · exact ⟨rfl, fun t ht => by cases ht⟩
    · exact ⟨rfl, fun t ht => by cases ht⟩
  constructor
  · exact Nat.zero_lt_two
  · intro s e he
    rw [(hstate s).1] at he
    cases he
  · intro s t ht
    obtain ⟨i, -, -, rfl⟩ := (hstate s).2 t ht
    exact Nat.one_lt_two
  · intro s t ht
    obtain ⟨i, hi, hle, rfl⟩ := (hstate s).2 t ht
    exact ⟨hle, hmax i hi⟩

/-- A run of each operation's automaton decides that operation on the languages. -/
theorem run_operations (ha : a.WellFormed) (hb : b.WellFormed) :
    (∀ w, (∀ c ∈ w, c ≤ maxCp) → (a.run w = true ↔ w ∈ a.language) ∧
      ((a.union b).run w = true ↔ w ∈ a.language + b.language) ∧
      ((a.concatenate b).run w = true ↔ w ∈ a.language * b.language) ∧
      (a.repeat.run w = true ↔ w ∈ KStar.kstar a.language) ∧
      (∀ n, (a.repeatMin n).run w = true ↔ w ∈ a.language ^ n * KStar.kstar a.language) ∧
      (∀ m n, (a.repeatRange m n).run w = true ↔ ∃ k, m ≤ k ∧ k ≤ n ∧ w ∈ a.language ^ k) ∧
      (a.optional.run w = true ↔ w ∈ a.language + 1) ∧
      ((a.intersection b).run w = true ↔ w ∈ a.language ∧ w ∈ b.language) ∧
      (a.complement.run w = true ↔ w ∉ a.language) ∧
      ((a.minus b).run w = true ↔ w ∈ a.language ∧ w ∉ b.language) ∧
      (a.determinize.run w = true ↔ w ∈ a.language)) ∧
    (∀ s, (a.determinize.trans s).Pairwise fun t u => t.max < u.min) ∧
    (a.isEmpty = true ↔ ∀ w, (∀ c ∈ w, c ≤ maxCp) → a.run w = false) := by
  refine ⟨fun w hw => ⟨ha.run_iff w, ?_, ?_, ?_, fun n => ?_, fun m n => ?_, ?_, ?_, ?_, ?_, ?_⟩,
    ha.deterministic_determinize, ?_⟩
  · rw [(ha.union hb).run_iff, ha.language_union hb]
  · rw [(ha.concatenate hb).run_iff, ha.language_concatenate]
  · rw [ha.repeat.run_iff, ha.language_repeat]
  · rw [(ha.repeatMin n).run_iff, ha.language_repeatMin]
  · rw [(ha.repeatRange m n).run_iff, ha.mem_language_repeatRange]
  · rw [ha.optional.run_iff, ha.language_optional]
  · rw [(ha.intersection hb).run_iff, ha.mem_language_intersection hb]
  · rw [ha.complement.run_iff, ha.mem_language_complement hw]
  · rw [(ha.minus hb).run_iff, ha.mem_language_minus hb hw]
  · rw [ha.determinize.run_iff, ha.language_determinize]
  · rw [ha.isEmpty_iff]
    constructor
    · intro hemp w _
      rw [Bool.eq_false_iff, ne_eq, ha.run_iff]
      exact hemp w
    · intro hrun w hw
      have hreject := hrun w (ha.le_maxCp hw)
      rw [(ha.run_iff w).mpr hw] at hreject
      cases hreject

/-- The letters but `m` are the difference of two ranges. -/
theorem run_operations_letters : ((charRange 97 122).minus (char 109)).run [109] = true ↔
      [109] ∈ (charRange 97 122).language ∧ [109] ∉ (char 109).language := by
  have hletters : (charRange 97 122).WellFormed := wellFormed_ranges (by decide)
  have hm : (char 109).WellFormed := wellFormed_ranges (by decide)
  exact ((run_operations hletters hm).1 [109] (by decide)).2.2.2.2.2.2.2.2.2.1

end StringAutomaton

end Hermit
