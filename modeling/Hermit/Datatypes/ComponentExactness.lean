import Hermit.Datatypes.ComponentDecision

/-! # When the decision is exact

Counts of 2^64 and more are narrowed before they are compared.  In a clique with one space this
turns a large space into a small one; elsewhere it keeps a node that should go, and the test then
ends without a clash because the space is too large to be listed.  In all other cases the answer
is the right one.
-/

namespace Hermit.Datatypes

open Library Elimination List

variable {Value : Type} {n : ℕ}

/-! ## Cliques -/

section clique

variable {x : Component (n + 1) Value} {D : DatatypeMap Value} {space : Fin (n + 1) → Set Value}

theorem mem_adjacency_of_isClique (h : Simple x.adjacency) (hclq : x.isClique = true)
    (i j : Fin (n + 1)) :
    j ∈ x.adjacency i ↔ i ≠ j := by
  constructor
  · rintro hj rfl
    exact h.irrefl i hj
  · intro hne
    have hlen : (x.adjacency i).length = n :=
      of_decide_eq_true (all_eq_true.mp hclq i (mem_finRange i))
    have hnd : (i :: x.adjacency i).Nodup := nodup_cons.mpr ⟨h.irrefl i, h.nodup i⟩
    have huniv : (i :: x.adjacency i).toFinset = Finset.univ := by
      apply Finset.eq_univ_of_card
      rw [toFinset_card_of_nodup hnd, length_cons, hlen, Fintype.card_fin]
    have hmem : j ∈ (i :: x.adjacency i).toFinset := by
      rw [huniv]
      exact Finset.mem_univ j
    exact (mem_cons.mp (mem_toFinset.mp hmem)).resolve_left hne.symm

variable [DecidableEq Value] {values : Option (List Value)} {count : Fin (2 ^ 128)}

theorem lists_eq_of_nodeValueSpacesEqual
    {s : NodeValueSpace Value} (h : nodeValueSpacesEqual (.finite count values) s = true) :
    ∃ vs vs', values = some vs ∧ s = .finite count (some vs') ∧ ∀ v, v ∈ vs ↔ v ∈ vs' := by
  cases s with
  | infinite => cases h
  | finite count' values' =>
    unfold nodeValueSpacesEqual at h
    dsimp only at h
    by_cases hcount : count = count'
    · subst hcount
      rw [if_neg (not_not_intro rfl)] at h
      cases values with
      | none => cases h
      | some vs =>
        cases values' with
        | none => cases h
        | some vs' =>
          refine ⟨vs, vs', rfl, rfl, fun v => ?_⟩
          dsimp only at h
          rw [Bool.and_eq_true, Bool.or_eq_true, Bool.and_eq_true] at h
          obtain ⟨hlen, hzip | ⟨hsub, hsub'⟩⟩ := h
          · have heq : vs = vs' := by
              apply ext_getElem (of_decide_eq_true hlen)
              intro i hi hi'
              have hi'' : i < (vs.zip vs').length := by
                rw [length_zip]
                omega
              have hpair := all_eq_true.mp hzip _ (getElem_mem hi'')
              rw [getElem_zip] at hpair
              exact of_decide_eq_true hpair
            rw [heq]
          · constructor
            · intro hv
              obtain ⟨w, hw, heq⟩ := any_eq_true.mp (all_eq_true.mp hsub v hv)
              rwa [of_decide_eq_true heq]
            · intro hv
              obtain ⟨w, hw, heq⟩ := any_eq_true.mp (all_eq_true.mp hsub' v hv)
              rwa [← of_decide_eq_true heq]
    · rw [if_pos hcount] at h
      cases h

variable (h : x.Describes D space) (hsame : x.sameValueSpace = true)
include h hsame

/-- Nodes of one value space have the same values, unless all are infinite. -/
theorem space_eq_of_sameValueSpace
    (h0 : x.spaces 0 = .finite count values) (i : Fin (n + 1)) : space i = space 0 := by
  rw [Component.sameValueSpace, Bool.or_eq_true] at hsame
  rcases hsame with hsame | hsame
  · have hrep := all_eq_true.mp hsame
    apply h.representative
    rw [of_decide_eq_true (hrep i (mem_finRange i)), of_decide_eq_true (hrep 0 (mem_finRange 0))]
  · have hi := all_eq_true.mp hsame i (mem_finRange i)
    rw [Bool.or_eq_true] at hi
    rcases hi with hi | hi
    · rw [of_decide_eq_true hi]
    · rw [h0] at hi
      obtain ⟨vs, vs', rfl, hsp, hmem⟩ := lists_eq_of_nodeValueSpacesEqual hi
      ext v
      rw [← (h.listed i count vs' hsp).1.2 v, ← (h.listed 0 count vs h0).1.2 v, hmem]

theorem infinite_of_sameValueSpace (h0 : x.spaces 0 = .infinite) (i : Fin (n + 1)) :
    (space i).Infinite := by
  rw [Component.sameValueSpace, Bool.or_eq_true] at hsame
  rcases hsame with hsame | hsame
  · have hrep := all_eq_true.mp hsame
    have hsp : space i = space 0 := by
      apply h.representative
      rw [of_decide_eq_true (hrep i (mem_finRange i)), of_decide_eq_true (hrep 0 (mem_finRange 0))]
    rw [hsp]
    exact h.infinite 0 h0
  · have hi := all_eq_true.mp hsame i (mem_finRange i)
    rw [Bool.or_eq_true] at hi
    rcases hi with hi | hi
    · rw [of_decide_eq_true hi]
      exact h.infinite 0 h0
    · rw [h0] at hi
      refine h.infinite i ?_
      cases hsp : x.spaces i with
      | infinite => rfl
      | finite =>
        rw [hsp] at hi
        cases hi

end clique

-- Zero is read as the zero of a successor, not of a sum.
attribute [-instance] instNeZeroNatHAdd_1 in
/-- The counts that are compared are not spoiled by narrowing.  For a clique with one space, its
count has a narrowed value of at least the number of nodes if it does not fit into a machine word.
Otherwise there is an assignment, or no such node is left by an elimination that goes by narrowed
counts, unless an unlisted empty space comes before it. -/
def Component.Exact [DecidableEq Value] : {n : ℕ} → Component n Value → (Fin n → Set Value) → Prop
  | 0, _, _ => True
  | n + 1, x, space =>
    if x.isClique && x.sameValueSpace then
      ∀ count values, x.spaces 0 = .finite count values → 2 ^ 64 ≤ count.val → n + 1 ≤ asUsize count
    else x.Assigns space Set.univ ∨
      ∀ alive, x.Stuck alive → ∀ i, alive i = true → x.Huge i → ∃ j < i, x.EarlyEmpty j

/-- The decision says that there is no assignment just if there is none. -/
def Component.Decided [DecidableEq Value] (x : Component n Value)
    (space : Fin n → Set Value) : Prop :=
  ∃ b, componentIsUnsatisfiable x = some b ∧ (b = true ↔ ¬ x.Assigns space Set.univ)

section exact

variable [DecidableEq Value] [Inhabited Value] {D : DatatypeMap Value}

/-- A clique with one space is decided by its narrowed count. -/
theorem clique_decided_iff {x : Component (n + 1) Value} {space : Fin (n + 1) → Set Value}
    (h : x.Describes D space) (hclq : x.isClique = true) (hsame : x.sameValueSpace = true) :
    x.Decided space ↔ ∀ count values, x.spaces 0 = .finite count values → 2 ^ 64 ≤ count.val →
      n + 1 ≤ asUsize count := by
  have hadj := mem_adjacency_of_isClique h.simple hclq
  have hsize := h.size
  unfold Component.Decided
  rw [componentIsUnsatisfiable, hclq, hsame, Bool.true_and, if_pos rfl]
  cases h0 : x.spaces 0 with
  | infinite =>
    refine ⟨nofun, fun _ => ⟨false, rfl, nofun, fun hnot => absurd ?_ hnot⟩⟩
    exact colorable_of_infinite h.simple.symm h.simple.irrefl
      (infinite_of_sameValueSpace h hsame h0)
  | finite count values =>
    have hsp : space = fun _ => space 0 := funext (space_eq_of_sameValueSpace h hsame h0)
    have hasg : x.Assigns space Set.univ ↔ ((n + 1 : ℕ) : ℕ∞) ≤ (space 0).encard := by
      rw [Component.Assigns, hsp]
      exact colorable_clique_iff hadj
    have hcount := h.count 0 count values h0
    have hle := h.count_le h0
    rw [hasg]
    by_cases hhuge : 2 ^ 64 ≤ count.val
    · have hlarge : ((n + 1 : ℕ) : ℕ∞) ≤ (space 0).encard :=
        le_trans (by exact_mod_cast (hsize.le.trans hhuge)) hle
      constructor
      · rintro ⟨b, hb, hiff⟩ count' values' heq -
        cases heq
        obtain rfl := Option.some.inj hb
        by_contra hlt
        exact hiff.mp (decide_eq_true (not_le.mp hlt)) hlarge
      · intro hcond
        refine ⟨_, rfl, fun hb =>
            absurd (of_decide_eq_true hb) (not_lt.mpr (hcond count values rfl hhuge)),
          fun hnot => absurd hlarge hnot⟩
    · have hnarrow : asUsize count = count.val := Nat.mod_eq_of_lt (not_le.mp hhuge)
      refine ⟨fun _ count' values' heq hhuge' => ?_, fun _ => ⟨_, rfl, ?_⟩⟩
      · cases heq
        exact absurd hhuge' hhuge
      · rw [hnarrow, decide_eq_true_iff, not_le]
        rcases hcount with heq | ⟨hlt, hle⟩
        · rw [heq]
          exact_mod_cast Iff.rfl
        · refine ⟨fun hlt' => by omega, fun hsmall => ?_⟩
          exact_mod_cast hle.trans_lt hsmall

/-- The decision is right just if narrowing spoils no comparison. -/
theorem decided_iff_exact (x : Component n Value) (space : Fin n → Set Value)
    (h : x.Describes D space) :
    x.Decided space ↔ x.Exact space := by
  cases n with
  | zero =>
    refine ⟨fun _ => trivial, fun _ => ⟨false, rfl, nofun, fun hnot => absurd ?_ hnot⟩⟩
    exact ⟨fun i => i.elim0, fun i => i.elim0, fun i => i.elim0⟩
  | succ n =>
    rw [Component.Exact]
    by_cases hshortcut : (x.isClique && x.sameValueSpace) = true
    · rw [if_pos hshortcut]
      rw [Bool.and_eq_true] at hshortcut
      exact clique_decided_iff h hshortcut.1 hshortcut.2
    · rw [if_neg hshortcut, Component.Decided, componentIsUnsatisfiable, if_neg hshortcut]
      obtain ⟨b, s, hb, hleft, hsound, hmissed, hfnd⟩ := byElimination_spec h
      rw [hb]
      constructor
      · rintro ⟨b', heq, hiff⟩
        obtain rfl := Option.some.inj heq
        by_cases hasg : x.Assigns space Set.univ
        · exact .inl hasg
        · exact .inr fun alive hstuck i hi =>
            hfnd (hiff.mpr hasg) i (hleft.greatest alive hstuck i hi)
      · intro hcond
        refine ⟨b, rfl, fun hb hasg => ?_, fun hnot => ?_⟩
        · rw [hsound hasg] at hb
          cases hb
        · by_contra hfls
          obtain ⟨i, hi, hhuge, hbef⟩ := hmissed hnot (Bool.eq_false_iff.mpr hfls)
          rcases hcond with hasg | hcond
          · exact hnot hasg
          · obtain ⟨j, hj, hearly⟩ := hcond s.alive hleft.stuck i hi hhuge
            exact hbef j hj hearly

end exact

/-! ## Two longs -/

/-- So many integers from one on. -/
def integersFrom (min : ℤ) (count : ℕ) : List ℤ := (List.range count).map fun k : ℕ => min + (k : ℤ)

theorem length_integersFrom (min : ℤ) (count : ℕ) : (integersFrom min count).length = count := by
  rw [integersFrom, length_map, length_range]

theorem lists_integersFrom (min : ℤ) (count : ℕ) :
    Lists (integersFrom min count) (Set.Icc min (min + count - 1)) := by
  constructor
  · refine nodup_range.map fun k k' hk => ?_
    omega
  · intro v
    rw [integersFrom, mem_map, Set.mem_Icc]
    constructor
    · rintro ⟨k, hk, rfl⟩
      rw [mem_range] at hk
      omega
    · intro hv
      exact ⟨(v - min).toNat, mem_range.mpr (by omega), by omega⟩

/-- The values of the datatype `xsd:long`. -/
def longs : Set ℤ := Set.Icc (-2 ^ 63) (2 ^ 63 - 1)

theorem lists_longs : Lists (integersFrom (-2 ^ 63) (2 ^ 64)) longs := by
  have h := lists_integersFrom (-2 ^ 63) (2 ^ 64)
  have hmax : (-2 ^ 63 : ℤ) + ((2 ^ 64 : ℕ) : ℤ) - 1 = 2 ^ 63 - 1 := by norm_num
  rwa [hmax] at h

theorem encard_longs : longs.encard = ((2 ^ 64 : ℕ) : ℕ∞) := by
  rw [lists_longs.encard, length_integersFrom]

/-- Two different nodes of the datatype `xsd:long`. -/
def twoLongs : Component 2 ℤ where
  spaces := fun _ => .finite ⟨2 ^ 64, by decide⟩ none
  adjacency := ![[1], [0]]
  mostSpecific := fun _ => some .long
  representative := fun _ => 0
  materialize := fun _ cap => if 2 ^ 64 ≤ cap then some (integersFrom (-2 ^ 63) (2 ^ 64)) else none

/-- Integers are reals. -/
def integerMap : DatatypeMap ℤ := ⟨fun _ => .real, some⟩

theorem describes_twoLongs : twoLongs.Describes integerMap fun _ => longs where
  size := by decide
  simple := ⟨by decide, by decide, by decide⟩
  infinite := nofun
  count := by
    intro i count values hi
    cases hi
    exact .inl encard_longs
  listed := nofun
  representative := fun _ _ _ => rfl
  mostSpecific := by
    intro i d c hd hc v hv
    cases hd
    cases hc
    refine ⟨rfl, fun min max heq => ⟨v, rfl, ?_⟩⟩
    cases heq
    constructor
    · rintro a ⟨⟩
      exact hv.1
    · rintro b ⟨⟩
      exact hv.2
  materialized := by
    intro i cap values hvals
    unfold twoLongs at hvals
    dsimp only at hvals
    by_cases hcap : 2 ^ 64 ≤ cap
    · rw [if_pos hcap] at hvals
      obtain rfl := Option.some.inj hvals
      exact ⟨lists_longs, (length_integersFrom _ _).trans_le hcap⟩
    · rw [if_neg hcap] at hvals
      cases hvals
  materialize := by
    intro i cap count hi hle
    rw [encard_longs] at hle
    have hcap : 2 ^ 64 ≤ cap := by exact_mod_cast hle
    unfold twoLongs
    dsimp only
    rw [if_pos hcap]
    exact Option.some_ne_none _

/-- Two longs can differ, but the decision takes their count for zero. -/
theorem not_decided_twoLongs : twoLongs.Describes integerMap (fun _ => longs) ∧
    componentIsUnsatisfiable twoLongs = some true ∧ twoLongs.Assigns (fun _ => longs) Set.univ := by
  refine ⟨describes_twoLongs, by decide, fun i => i.val, fun i _ => ?_, fun i _ j _ hij heq => ?_⟩
  · change -2 ^ 63 ≤ (i.val : ℤ) ∧ (i.val : ℤ) ≤ 2 ^ 63 - 1
    omega
  · have hval : (i.val : ℤ) = j.val := heq
    have hij' : i = j := Fin.ext (by exact_mod_cast hval)
    exact describes_twoLongs.simple.irrefl i (hij'.symm ▸ hij)

/-- The condition at the two longs. -/
theorem decided_iff_exact_twoLongs : twoLongs.Describes integerMap (fun _ => longs) ∧
    (twoLongs.Decided (fun _ => longs) ↔ twoLongs.Exact fun _ => longs) :=
  ⟨describes_twoLongs, decided_iff_exact twoLongs _ describes_twoLongs⟩

end Hermit.Datatypes
