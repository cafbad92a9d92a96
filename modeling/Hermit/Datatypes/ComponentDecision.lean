import Hermit.Datatypes.ComponentElimination
import Hermit.Datatypes.ComponentParts

/-! # What the decision decides

The decision agrees with the assignments, except where a count of 2^64 or more is compared after
its high half was lost.
-/

namespace Hermit.Datatypes

open Exploration Library Elimination List Option Function

variable {Value : Type} {n : ℕ}

/-- A list holds the values of a space, each once. -/
def Lists (values : List Value) (space : Set Value) : Prop :=
  values.Nodup ∧ ∀ v, v ∈ values ↔ v ∈ space

theorem Lists.encard {values : List Value} {space : Set Value} (h : Lists values space) :
    space.encard = values.length := by
  classical
  have hsp : space = (values.toFinset : Set Value) := by
    ext v
    simp [h.2 v]
  rw [hsp, Set.encard_coe_eq_coe_finsetCard, toFinset_card_of_nodup h.1]

/-- The nodes have the given spaces.  A count may be capped above the number of nodes.  Numbers of
nodes and of listed values fit into a machine word. -/
structure Component.Describes (x : Component n Value) (D : DatatypeMap Value)
    (space : Fin n → Set Value) :
    Prop where
  size : n < 2 ^ 64
  simple : Simple x.adjacency
  infinite : ∀ i, x.spaces i = .infinite → (space i).Infinite
  count : ∀ i count values, x.spaces i = .finite count values →
    (space i).encard = count.val ∨ n < count.val ∧ (count.val : ℕ∞) ≤ (space i).encard
  listed : ∀ i count values, x.spaces i = .finite count (some values) →
    Lists values (space i) ∧ values.length < 2 ^ 64
  representative : ∀ i j, x.representative i = x.representative j → space i = space j
  mostSpecific : ∀ i d c, x.mostSpecific i = some d → valueSpaceClass d = some c → ∀ v ∈ space i,
    D.Within c v
  materialized : ∀ i cap values, x.materialize i cap = some values →
    Lists values (space i) ∧ values.length ≤ cap
  materialize : ∀ i (cap : ℕ) count, x.spaces i = .finite count none → (space i).encard ≤ cap →
    x.materialize i cap ≠ none

namespace Component

variable {x : Component n Value} {D : DatatypeMap Value} {space : Fin n → Set Value}

abbrev Assigns (x : Component n Value) (space : Fin n → Set Value) (S : Set (Fin n)) : Prop :=
  Colorable (fun i j => j ∈ x.adjacency i) space S

/-! ## Disjoint datatypes -/

theorem disjoint_comm (i j : Fin n) : x.disjoint i j = x.disjoint j i := by
  unfold disjoint
  cases x.mostSpecific i with
  | none => cases x.mostSpecific j <;> rfl
  | some d =>
    cases x.mostSpecific j with
    | none => rfl
    | some d' => exact datatypesDisjoint_comm d d'

theorem mem_trimmed {i j : Fin n} : j ∈ x.trimmed i ↔
    j ∈ x.adjacency i ∧ x.disjoint i j = false := by
  rw [trimmed, mem_filter, Bool.not_eq_eq_eq_not, Bool.not_true]

namespace Describes

variable (h : x.Describes D space)

include h

theorem simple_trimmed : Simple x.trimmed where
  symm := by
    intro i j hij
    rw [mem_trimmed] at hij ⊢
    exact ⟨h.simple.symm i j hij.1, by rw [disjoint_comm]; exact hij.2⟩
  irrefl := fun i hi => h.simple.irrefl i (mem_trimmed.mp hi).1
  nodup := fun i => (h.simple.nodup i).filter _

/-- Spaces of disjoint datatypes have no value in common. -/
theorem disjoint_space {i j : Fin n} (hij : x.disjoint i j = true) :
    Disjoint (space i) (space j) := by
  rw [Set.disjoint_left]
  intro v hi hj
  unfold disjoint at hij
  cases hd : x.mostSpecific i with
  | none =>
    rw [hd] at hij
    cases hij
  | some d =>
    cases hd' : x.mostSpecific j with
    | none =>
      rw [hd, hd'] at hij
      cases hij
    | some d' =>
      rw [hd, hd'] at hij
      dsimp only at hij
      unfold datatypesDisjoint at hij
      cases hc : valueSpaceClass d with
      | none =>
        rw [hc] at hij
        cases hij
      | some c =>
        cases hc' : valueSpaceClass d' with
        | none =>
          rw [hc, hc'] at hij
          cases hij
        | some c' =>
          rw [hc, hc'] at hij
          exact not_within_of_classesDisjoint D hij (h.mostSpecific i d c hd hc v hi)
            (h.mostSpecific j d' c' hd' hc' v hj)

theorem assigns_iff_trimmed {S : Set (Fin n)} :
    x.Assigns space S ↔ Colorable (fun i j => j ∈ x.trimmed i) space S := by
  refine colorable_congr_adj (fun i j hij => (mem_trimmed.mp hij).1) fun i j hij => ?_
  cases hdisj : x.disjoint i j with
  | false => exact .inl (mem_trimmed.mpr ⟨hij, hdisj⟩)
  | true => exact .inr (h.disjoint_space hdisj)

theorem count_le {i : Fin n} {count : Fin (2 ^ 128)} {values : Option (List Value)}
    (hi : x.spaces i = .finite count values) : (count.val : ℕ∞) ≤ (space i).encard := by
  rcases h.count i count values hi with heq | ⟨-, hle⟩
  · exact heq.ge
  · exact hle

/-- Enough after narrowing is enough. -/
theorem lt_encard_of_enough {i : Fin n} {degree : ℕ} (henough : x.enough i degree = true) :
    (degree : ℕ∞) < (space i).encard := by
  unfold enough at henough
  cases hi : x.spaces i with
  | infinite =>
    rw [(h.infinite i hi).encard_eq]
    exact ENat.natCast_lt_top degree
  | finite count values =>
    rw [hi] at henough
    have hlt : degree < asUsize count := of_decide_eq_true henough
    have hle : asUsize count ≤ count.val := Nat.mod_le _ _
    calc (degree : ℕ∞) < count.val := by exact_mod_cast hlt.trans_le hle
      _ ≤ (space i).encard := h.count_le hi

end Describes

/-- A node whose count does not fit into a machine word. -/
def Huge (x : Component n Value) (i : Fin n) : Prop :=
  ∃ count values, x.spaces i = .finite count values ∧ 2 ^ 64 ≤ count.val

/-- Nodes none of which can go before the others: each has a narrowed count of at most the number
of its neighbours among them. -/
def Stuck (x : Component n Value) (alive : Fin n → Bool) : Prop :=
  ∀ i, alive i = true → x.enough i (liveDegree x.trimmed alive i) = false

/-- An empty space that is not listed, the first of its representative. -/
def EarlyEmpty (x : Component n Value) (i : Fin n) : Prop :=
  (∃ count, x.spaces i = .finite count none ∧ count.val = 0) ∧ ∀ j < i,
    x.representative j ≠ x.representative i

/-! ## Listing -/

namespace Describes

variable (h : x.Describes D space)

include h

theorem liveDegree_lt (alive : Fin n → Bool) (i : Fin n) : liveDegree x.trimmed alive i < n := by
  have hsim := h.simple_trimmed
  have hnd : (i :: (x.trimmed i).filter fun j => alive j).Nodup :=
    nodup_cons.mpr ⟨fun hi => hsim.irrefl i (mem_filter.mp hi).1, (hsim.nodup i).filter _⟩
  have hle := hnd.length_le_card
  rwa [length_cons, Fintype.card_fin] at hle

/-- A node without enough values has a count that is lost or small. -/
theorem huge_or_small {i : Fin n} {alive : Fin n → Bool}
    (hi : x.enough i (liveDegree x.trimmed alive i) = false) :
    ∃ count values, x.spaces i = .finite count values ∧
      (x.Huge i ∨ (space i).encard = count.val ∧ count.val < n) := by
  have hdegree := h.liveDegree_lt alive i
  unfold enough at hi
  cases hsp : x.spaces i with
  | infinite =>
    rw [hsp] at hi
    cases hi
  | finite count values =>
    rw [hsp] at hi
    have hle : asUsize count ≤ liveDegree x.trimmed alive i := not_lt.mp (of_decide_eq_false hi)
    refine ⟨count, values, rfl, ?_⟩
    by_cases hhuge : 2 ^ 64 ≤ count.val
    · exact .inl ⟨count, values, hsp, hhuge⟩
    · have hcount : asUsize count = count.val := Nat.mod_eq_of_lt (not_le.mp hhuge)
      rw [hcount] at hle
      refine .inr ⟨(h.count i count values hsp).resolve_right fun hcapped => ?_, by omega⟩
      omega

theorem not_huge_of_lists {i : Fin n} {values : List Value} (hvals : Lists values (space i))
    (hlen : values.length < 2 ^ 64) : ¬ x.Huge i := by
  rintro ⟨count, values', hi, hhuge⟩
  have hle := h.count_le hi
  rw [hvals.encard] at hle
  have hle' : count.val ≤ values.length := by exact_mod_cast hle
  omega

theorem cap_lt : max n maxEnumeratedValues < 2 ^ 64 := by
  have hsize := h.size
  unfold maxEnumeratedValues
  omega

end Describes

/-- What listing the spaces of some nodes comes to. -/
def Outcome (x : Component n Value) (space : Fin n → Set Value) (nodes : List (Fin n)) :
    Except Bool (Fin n → Option (List Value)) → Prop
  | .ok explicit =>
    ∀ i ∈ nodes, (∃ values, explicit i = some values ∧ Lists values (space i)) ∧ ¬ x.Huge i
  | .error true => ∃ i ∈ nodes, space i = ∅ ∧ x.EarlyEmpty i ∧ ∀ j ∈ nodes, j < i → ¬ x.Huge j
  | .error false => ∃ i ∈ nodes, x.Huge i ∧ ∀ j ∈ nodes, j < i → ¬ x.EarlyEmpty j

/-- The lists so far are those of nodes before. -/
structure Listed (x : Component n Value) (space : Fin n → Set Value) (done : List (Fin n))
    (listed : List (ℕ × List Value)) (explicit : Fin n → Option (List Value)) : Prop where
  lookup : ∀ r values, listed.lookup r = some values →
    values.length < 2 ^ 64 ∧ ∃ j ∈ done, x.representative j = r ∧ Lists values (space j)
  covered : ∀ j ∈ done, listed.lookup (x.representative j) ≠ none
  explicit : ∀ i ∈ done, ∃ values, explicit i = some values ∧ Lists values (space i)
  not_huge : ∀ i ∈ done, ¬ x.Huge i
  not_early : ∀ i ∈ done, ¬ x.EarlyEmpty i

section enumerate

variable {done : List (Fin n)} {listed : List (ℕ × List Value)}
    {explicit : Fin n → Option (List Value)}
variable {values : List Value}

section

variable (hl : Listed x space done listed explicit) (h : x.Describes D space)
include hl h

/-- One more node, with a list that is known or new. -/
theorem Listed.add {i : Fin n} (hlists : Lists values (space i)) (hlen : values.length < 2 ^ 64)
    (hearly : ¬ x.EarlyEmpty i) {listed' : List (ℕ × List Value)}
    (hlook : ∀ r, listed'.lookup r = if r = x.representative i then some values
      else listed.lookup r) :
    Listed x space (done ++ [i]) listed' (Function.update explicit i (some values)) := by
  constructor
  · intro r values' hr
    rw [hlook] at hr
    by_cases heq : r = x.representative i
    · rw [if_pos heq] at hr
      obtain rfl := some.inj hr
      exact ⟨hlen, i, mem_append_right done mem_cons_self, heq.symm, hlists⟩
    · rw [if_neg heq] at hr
      obtain ⟨hlen, j, hj, hrest⟩ := hl.lookup r values' hr
      exact ⟨hlen, j, mem_append_left _ hj, hrest⟩
  · intro k hk
    rw [hlook]
    by_cases heq : x.representative k = x.representative i
    · rw [if_pos heq]
      exact some_ne_none values
    · rw [if_neg heq]
      rcases mem_append.mp hk with hk | hk
      · exact hl.covered k hk
      · rw [mem_singleton.mp hk] at heq
        exact absurd rfl heq
  · intro k hk
    by_cases heq : k = i
    · subst heq
      exact ⟨values, update_self .., hlists⟩
    · rw [update_of_ne heq]
      rcases mem_append.mp hk with hk | hk
      · exact hl.explicit k hk
      · exact absurd (mem_singleton.mp hk) heq
  · intro k hk
    rcases mem_append.mp hk with hk | hk
    · exact hl.not_huge k hk
    · rw [mem_singleton.mp hk]
      exact h.not_huge_of_lists hlists hlen
  · intro k hk
    rcases mem_append.mp hk with hk | hk
    · exact hl.not_early k hk
    · rwa [mem_singleton.mp hk]

theorem Listed.share {i : Fin n} (hbef : ∀ j ∈ done, j < i)
    (hvals : listed.lookup (x.representative i) = some values) :
    Listed x space (done ++ [i]) listed (Function.update explicit i (some values)) := by
  obtain ⟨hlen, j, hj, hrep, hlists⟩ := hl.lookup _ _ hvals
  rw [h.representative j i hrep] at hlists
  refine hl.add h hlists hlen (fun hearly => hearly.2 j (hbef j hj) hrep) fun r => ?_
  split_ifs with heq
  · rw [heq, hvals]
  · rfl

theorem Listed.extend {i : Fin n} (hlists : Lists values (space i)) (hlen : values.length < 2 ^ 64)
    (hearly : ¬ x.EarlyEmpty i) :
    Listed x space (done ++ [i]) ((x.representative i, values) :: listed)
      (Function.update explicit i (some values)) := by
  refine hl.add h hlists hlen hearly fun r => ?_
  rw [lookup_cons]
  split_ifs with heq
  · rw [heq, beq_self_eq_true]
  · rw [beq_false_of_ne heq]

end

/-- Listing the spaces of nodes that have not enough values comes to an end as described. -/
theorem Listed.enumerate (h : x.Describes D space) {nodes : List (Fin n)}
    (hnot : ∀ i ∈ nodes, ∃ alive, x.enough i (liveDegree x.trimmed alive i) = false)
    (hrest : ∀ i, i ∉ done ++ nodes → space i ≠ ∅) (hsort : (done ++ nodes).Pairwise (· < ·))
    (hl : Listed x space done listed explicit) :
    Outcome x space (done ++ nodes) (x.enumerate nodes listed explicit) := by
  induction nodes generalizing done listed explicit with
  | nil =>
    rw [append_nil]
    exact fun i hi => ⟨hl.explicit i hi, hl.not_huge i hi⟩
  | cons i nodes ih =>
    have hmem : i ∈ done ++ i :: nodes := mem_append_right done mem_cons_self
    have hmoved : done ++ i :: nodes = (done ++ [i]) ++ nodes := by
      rw [append_assoc, singleton_append]
    obtain ⟨-, hafter, hbef⟩ := pairwise_append.mp hsort
    have hbef' : ∀ j ∈ done, j < i := fun j hj => hbef j hj i mem_cons_self
    -- The nodes before this one are those done.
    have hdone : ∀ j ∈ done ++ i :: nodes, j < i → j ∈ done := by
      intro j hj hlt
      rcases mem_append.mp hj with hj | hj
      · exact hj
      · rcases mem_cons.mp hj with rfl | hj
        · exact absurd hlt (lt_irrefl j)
        · exact absurd hlt (lt_asymm ((pairwise_cons.mp hafter).1 j hj))
    obtain ⟨hnoti, hnot⟩ := forall_mem_cons.mp hnot
    have hcontinue : ∀ {listed' : List (ℕ × List Value)} {explicit' : Fin n → Option (List Value)},
        Listed x space (done ++ [i]) listed' explicit' →
        Outcome x space (done ++ i :: nodes) (x.enumerate nodes listed' explicit') := by
      intro listed' explicit' hl'
      rw [hmoved] at hrest hsort ⊢
      exact ih hnot hrest hsort hl'
    rw [Component.enumerate]
    cases hlook : listed.lookup (x.representative i) with
    | some values => exact hcontinue (hl.share h hbef' hlook)
    | none =>
      obtain ⟨alive, halive⟩ := hnoti
      obtain ⟨count, values, hsp, hcount⟩ := h.huge_or_small halive
      dsimp only
      rw [hsp]
      cases values with
      | some values =>
        obtain ⟨hlists, hlen⟩ := h.listed i count values hsp
        refine hcontinue (hl.extend h hlists hlen ?_)
        rintro ⟨⟨count', hcount', -⟩, -⟩
        rw [hsp] at hcount'
        cases hcount'
      | none =>
        dsimp only
        cases hmaterialize : x.materialize i (max n maxEnumeratedValues) with
        | none =>
          refine ⟨i, hmem, hcount.resolve_right fun hsmall => ?_, fun j hj hlt =>
              hl.not_early j (hdone j hj hlt)⟩
          refine h.materialize i _ count hsp ?_ hmaterialize
          rw [hsmall.1]
          exact_mod_cast hsmall.2.le.trans (le_max_left n maxEnumeratedValues)
        | some values =>
          obtain ⟨hlists, hlen⟩ := h.materialized i _ values hmaterialize
          have hlen' := hlen.trans_lt h.cap_lt
          cases values with
          | nil =>
            have hemp : space i = ∅ := by
              ext v
              exact ⟨fun hv => absurd ((hlists.2 v).mpr hv) not_mem_nil, nofun⟩
            have hzero := (hcount.resolve_left (h.not_huge_of_lists hlists hlen')).1
            rw [hemp, Set.encard_empty] at hzero
            refine ⟨i, hmem, hemp,
                ⟨⟨count, hsp, by exact_mod_cast hzero.symm⟩, fun j hlt hrep => ?_⟩,
              fun j hj hlt => hl.not_huge j (hdone j hj hlt)⟩
            by_cases hj : j ∈ done ++ i :: nodes
            · refine hl.covered j (hdone j hj hlt) ?_
              rw [hrep, hlook]
            · refine hrest j hj ?_
              rw [h.representative j i hrep, hemp]
          | cons v values =>
            refine hcontinue (hl.extend h hlists hlen' ?_)
            rintro ⟨⟨count', hcount', hzero⟩, -⟩
            rw [hsp] at hcount'
            cases hcount'
            have hsmall := (hcount.resolve_left (h.not_huge_of_lists hlists hlen')).1
            rw [hlists.encard, length_cons] at hsmall
            have hsmall' : values.length + 1 = count.val := by exact_mod_cast hsmall
            omega

end enumerate

end Component

section numbers

variable [DecidableEq Value]

theorem idxOf_of_initial {known known' : List Value} (h : known <+: known') {v : Value}
    (hv : v ∈ known) :
    known'.idxOf v = known.idxOf v := by
  obtain ⟨t, rfl⟩ := h
  exact idxOf_append_of_mem hv

theorem numberValues_spec (known values : List Value) (hknown : known.Nodup) :
    known <+: (numberValues known values).2 ∧ (numberValues known values).2.Nodup ∧
      (∀ v ∈ values, v ∈ (numberValues known values).2) ∧
      (numberValues known values).1 = values.map fun v =>
          (numberValues known values).2.idxOf v := by
  induction values generalizing known with
  | nil => exact ⟨prefix_refl known, hknown, nofun, rfl⟩
  | cons v values ih =>
    obtain ⟨hsub, hnd, hmem, hids⟩ := ih (number known v) (nodup_number hknown v)
    have hv : v ∈ number known v := (mem_number known v v).mpr (.inr rfl)
    refine ⟨(prefix_number known v).trans hsub, hnd, ?_, ?_⟩
    · exact forall_mem_cons.mpr ⟨hsub.subset hv, hmem⟩
    · rw [numberValues, map_cons]
      dsimp only
      rw [idxOf_of_initial hsub hv, ← hids]

theorem numberSets_spec (known : List Value) (sets : List (List Value)) (hknown : known.Nodup) :
    known <+: (numberSets known sets).2 ∧ (numberSets known sets).2.Nodup ∧
      (∀ values ∈ sets, ∀ v ∈ values, v ∈ (numberSets known sets).2) ∧
      (numberSets known sets).1 = sets.map fun values => values.map fun v =>
          (numberSets known sets).2.idxOf v := by
  induction sets generalizing known with
  | nil => exact ⟨prefix_refl known, hknown, nofun, rfl⟩
  | cons values sets ih =>
    obtain ⟨hsub, hnd, hmem, hids⟩ := numberValues_spec known values hknown
    obtain ⟨hsub', hnd', hmem', hids'⟩ := ih (numberValues known values).2 hnd
    refine ⟨hsub.trans hsub', hnd', ?_, ?_⟩
    · exact forall_mem_cons.mpr ⟨fun v hv => hsub'.subset (hmem v hv), hmem'⟩
    · rw [numberSets, map_cons]
      dsimp only
      rw [← hids', hids, List.cons.injEq]
      refine ⟨map_congr_left fun v hv => ?_, rfl⟩
      exact (idxOf_of_initial hsub' (hmem v hv)).symm

end numbers

section survivors

variable [DecidableEq Value] [Inhabited Value] {adjacency : Fin n → List (Fin n)}
    {survivors : List (Fin n)}
  {explicit : Fin n → Option (List Value)} {space : Fin n → Set Value}

theorem mem_positions (hnd : survivors.Nodup) {l : List (Fin n)} {k : Fin survivors.length} :
    k ∈ l.filterMap (fun j => survivors.finIdxOf? j) ↔ survivors.get k ∈ l := by
  rw [mem_filterMap]
  constructor
  · rintro ⟨j, hj, hk⟩
    obtain ⟨hget, -⟩ := finIdxOf?_eq_some_iff.mp hk
    change survivors.get k = j at hget
    rwa [hget]
  · intro hk
    refine ⟨survivors.get k, hk, finIdxOf?_eq_some_iff.mpr ⟨get_eq_getElem .., fun j hj heq => ?_⟩⟩
    have hinj := nodup_iff_injective_get.mp hnd
    have hjk : j = k := hinj heq
    exact absurd hj (by rw [hjk]; exact lt_irrefl k)

theorem decideSurvivors_spec (hadj : Simple adjacency) (hnd : survivors.Nodup)
    (hexpl : ∀ i ∈ survivors, ∃ values, explicit i = some values ∧ Lists values (space i)) :
    ∃ b, decideSurvivors adjacency survivors explicit = some b ∧
      (b = true ↔ ¬ Colorable (fun i j => j ∈ adjacency i) space {i | i ∈ survivors}) := by
  obtain ⟨-, hknown, hmem, hids⟩ :=
    numberSets_spec [] (survivors.map fun i => (explicit i).getD []) nodup_nil
  obtain ⟨ids, known, hnum⟩ : ∃ ids known,
      numberSets [] (survivors.map fun i => (explicit i).getD []) = (ids, known) := ⟨_, _, rfl⟩
  rw [hnum] at hknown hmem hids
  dsimp only at hknown hmem hids
  have hvals : ∀ k : Fin survivors.length,
      ids.getD k [] = ((explicit (survivors.get k)).getD []).map fun v => known.idxOf v := by
    intro k
    rw [hids, List.map_map]
    simp
  have hradjacent : Undirected fun k : Fin survivors.length =>
      (adjacency (survivors.get k)).filterMap fun j => survivors.finIdxOf? j := by
    constructor
    · intro k nb hnb
      rw [mem_positions hnd] at hnb ⊢
      exact hadj.symm _ _ hnb
    · intro k hk
      rw [mem_positions hnd] at hk
      exact hadj.irrefl _ hk
  have hbd : ∀ k : Fin survivors.length, ∀ id ∈ ids.getD k [], id < known.length := by
    intro k id hid
    rw [hvals] at hid
    obtain ⟨v, hv, rfl⟩ := List.mem_map.mp hid
    exact idxOf_lt_length_of_mem (hmem _ (List.mem_map_of_mem (List.get_mem survivors k)) v hv)
  obtain ⟨b, hb, hiff⟩ := someUnsatisfiable_spec hradjacent hbd
    (fun k (_ : (none : Option (Fin survivors.length)) = none) => mem_finRange k) fun k hk =>
        absurd rfl hk
  refine ⟨b, ?_, hiff.trans (not_congr ?_)⟩
  · rw [decideSurvivors, hnum]
    exact hb
  · have hrng : {i | i ∈ survivors} = Set.range survivors.get := by rw [Set.range_list_get]
    have him : ∀ k : Fin survivors.length, k ∈ Set.univ →
        {id | id ∈ ids.getD k []} = (fun v => known.idxOf v) '' space (survivors.get k) := by
      intro k _
      obtain ⟨values, hexpl, hlists⟩ := hexpl _ (List.get_mem survivors k)
      ext id
      change id ∈ ids.getD k [] ↔ _
      rw [hvals, hexpl, getD_some, List.mem_map]
      exact exists_congr fun v => and_congr_left fun _ => hlists.2 v
    have hinj : Set.InjOn (fun v => known.idxOf v) (⋃ k ∈ Set.univ, space (survivors.get k)) := by
      intro v hv w _ heq
      obtain ⟨k, -, hv⟩ := Set.mem_iUnion₂.mp hv
      obtain ⟨values, hexpl, hlists⟩ := hexpl _ (List.get_mem survivors k)
      refine (idxOf_inj (hmem values ?_ v ((hlists.2 v).mpr hv))).mp heq
      refine List.mem_map.mpr ⟨survivors.get k, List.get_mem survivors k, ?_⟩
      rw [hexpl, getD_some]
    rw [hrng, colorable_range_iff (nodup_iff_injective_get.mp hnd) fun a b =>
        mem_positions hnd,
      ← colorable_image_iff him hinj, Assignable]
    rw [show {k : Fin survivors.length | (none : Option (Fin survivors.length)) = none} =
      Set.univ from
      Set.eq_univ_of_forall fun _ => rfl]

end survivors

/-! ## After the elimination -/

section elimination

variable {adjacency : Fin n → List (Fin n)} {space : Fin n → Set Value}
    {alive : Fin n → Bool} {i : Fin n}

theorem mem_survivors {s : Elimination n} : i ∈ s.survivors ↔ s.alive i = true := by
  rw [Elimination.survivors, mem_filter]
  exact and_iff_right (mem_finRange i)

theorem nodup_survivors (s : Elimination n) : s.survivors.Nodup := (nodup_finRange n).filter _

theorem pairwise_survivors (s : Elimination n) : s.survivors.Pairwise (· < ·) :=
  (pairwise_lt_finRange n).filter _

/-- A node with more values than neighbours does not matter. -/
theorem colorable_update_iff (hadj : Simple adjacency) (hi : alive i = true)
    (hlarge : (liveDegree adjacency alive i : ℕ∞) < (space i).encard) :
    Colorable (fun i j => j ∈ adjacency i) space {j | alive j = true} ↔
      Colorable (fun i j => j ∈ adjacency i) space
      {j | Function.update alive i false j = true} := by
  have hins : {j | alive j = true} = insert i {j | Function.update alive i false j = true} := by
    ext j
    change alive j = true ↔ j = i ∨ Function.update alive i false j = true
    by_cases heq : j = i
    · subst heq
      simp [hi]
    · rw [update_of_ne heq]
      simp [heq]
  constructor
  · intro h
    rw [hins] at h
    exact h.mono (Set.subset_insert ..)
  · intro h
    rw [hins]
    refine h.insert hadj.symm (hadj.irrefl i) (l := (adjacency i).filter fun j => alive j) ?_ hlarge
    intro j hj hij
    refine mem_filter.mpr ⟨hij, ?_⟩
    have hmem : j ∈ {j | alive j = true} := by
      rw [hins]
      exact .inr hj
    exact hmem

variable {x : Component n Value} {D : DatatypeMap Value}

theorem enough_mono {d d' : ℕ} (hle : d ≤ d') (h : x.enough i d' = true) : x.enough i d = true := by
  unfold Component.enough at h ⊢
  cases hsp : x.spaces i with
  | infinite => rfl
  | finite count values =>
    rw [hsp] at h
    exact decide_eq_true (hle.trans_lt (of_decide_eq_true h))

theorem liveDegree_mono {alive' : Fin n → Bool} (h : ∀ j, alive j = true → alive' j = true) :
    liveDegree adjacency alive i ≤ liveDegree adjacency alive' i :=
  (monotone_filter_right (adjacency i) h).length_le

/-- What the first elimination leaves. -/
structure Left (x : Component n Value) (space : Fin n → Set Value) (s : Elimination n) : Prop where
  consistent : s.Consistent x.trimmed x.enough
  stuck : x.Stuck s.alive
  colorable : Colorable (fun i j => j ∈ x.trimmed i) space Set.univ ↔
    Colorable (fun i j => j ∈ x.trimmed i) space {i | s.alive i = true}
  nonempty : ∀ i, s.alive i = false → space i ≠ ∅
  greatest : ∀ alive, x.Stuck alive → ∀ i, alive i = true → s.alive i = true

theorem exists_left (h : x.Describes D space) :
    ∃ s, eliminate x.trimmed x.enough (Elimination.fuel n)
      ⟨fun _ => true, fun i => (x.trimmed i).length, (List.finRange n).reverse⟩ = some s ∧
      Left x space s := by
  have hadj := h.simple_trimmed
  have hnd : (List.finRange n).reverse.Nodup := nodup_reverse.mpr (nodup_finRange n)
  have hst : Consistent x.trimmed x.enough
      ⟨fun _ => true, fun i => (x.trimmed i).length, (List.finRange n).reverse⟩ :=
    ⟨fun j _ => by simp [liveDegree], fun j _ => .inl (mem_reverse.mpr (mem_finRange j)), hnd⟩
  have hkeep : ∀ alive i, alive i = true → x.enough i (liveDegree x.trimmed alive i) = true →
      ((Colorable (fun i j => j ∈ x.trimmed i) space Set.univ ↔
          Colorable (fun i j => j ∈ x.trimmed i) space {i | alive i = true}) ∧
        (∀ i, alive i = false → space i ≠ ∅) ∧ ∀ alive', x.Stuck alive' → ∀ i, alive' i = true →
          alive i = true) →
      (Colorable (fun i j => j ∈ x.trimmed i) space Set.univ ↔
          Colorable (fun i j => j ∈ x.trimmed i) space
            {j | Function.update alive i false j = true}) ∧
        (∀ j, Function.update alive i false j = false → space j ≠ ∅) ∧
        ∀ alive', x.Stuck alive' → ∀ j, alive' j = true →
          Function.update alive i false j = true := by
    rintro alive i hi henough ⟨hcol, hnonempty, hgreatest⟩
    have hlarge := h.lt_encard_of_enough henough
    refine ⟨hcol.trans (colorable_update_iff hadj hi hlarge), fun j hj => ?_,
      fun alive' hstuck j hj => ?_⟩
    · by_cases heq : j = i
      · subst heq
        rintro hemp
        rw [hemp, Set.encard_empty] at hlarge
        exact absurd hlarge not_lt_zero
      · rw [update_of_ne heq] at hj
        exact hnonempty j hj
    · have hne : j ≠ i := by
        rintro rfl
        -- A stuck set has no node with enough values among the nodes of a larger one.
        have hnot := hstuck j hj
        rw [enough_mono (liveDegree_mono (hgreatest alive' hstuck)) henough] at hnot
        cases hnot
      rw [update_of_ne hne]
      exact hgreatest alive' hstuck j hj
  obtain ⟨s, hs, hcons, hstuck, hcol, hnonempty, hgreatest⟩ :=
    hst.eliminate hadj hkeep
    ⟨by simp, fun _ h => (by cases h), fun _ _ _ _ => rfl⟩ (work_le_fuel hnd)
  exact ⟨s, hs, hcons, hstuck, hcol, hnonempty, hgreatest⟩

theorem empty_of_earlyEmpty (h : x.Describes D space) (hi : x.EarlyEmpty i) : space i = ∅ := by
  obtain ⟨⟨count, hsp, hzero⟩, -⟩ := hi
  rcases h.count i count none hsp with heq | ⟨hlt, -⟩
  · rw [hzero] at heq
    exact Set.encard_eq_zero.mp (by exact_mod_cast heq)
  · omega

theorem not_huge_of_earlyEmpty (hi : x.EarlyEmpty i) : ¬ x.Huge i := by
  rintro ⟨count, values, hsp, hhuge⟩
  obtain ⟨⟨count', hsp', hzero⟩, -⟩ := hi
  rw [hsp] at hsp'
  cases hsp'
  omega

variable [DecidableEq Value] [Inhabited Value]

/-- If all spaces of the survivors are listed the answer is exact. -/
theorem decide_listed (h : x.Describes D space) {s : Elimination n} (hleft : Left x space s)
    {explicit : Fin n → Option (List Value)}
    (hexpl : ∀ i ∈ s.survivors, ∃ values, explicit i = some values ∧ Lists values (space i)) :
    ∃ b, (do
        let s ← eliminate x.trimmed (fun i degree =>
          decide (degree < ((explicit i).getD []).length))
          (Elimination.fuel n) { s with queue := s.survivors.reverse }
        if s.survivors = [] then return false else decideSurvivors x.trimmed s.survivors explicit) =
          some b ∧
      (b = true ↔ ¬ Colorable (fun i j => j ∈ x.trimmed i) space {i | s.alive i = true}) := by
  have hadj := h.simple_trimmed
  have hnd : s.survivors.reverse.Nodup := nodup_reverse.mpr (nodup_survivors s)
  have hst : Consistent x.trimmed (fun i degree =>
      decide (degree < ((explicit i).getD []).length))
      { s with queue := s.survivors.reverse } :=
    ⟨hleft.consistent.degree, fun j hj => .inl (mem_reverse.mpr (mem_survivors.mpr hj)), hnd⟩
  have hkeep : ∀ alive i, alive i = true →
      decide (liveDegree x.trimmed alive i < ((explicit i).getD []).length) = true →
      ((Colorable (fun i j => j ∈ x.trimmed i) space {i | s.alive i = true} ↔
          Colorable (fun i j => j ∈ x.trimmed i) space {i | alive i = true}) ∧
        ∀ i, alive i = true → s.alive i = true) →
      (Colorable (fun i j => j ∈ x.trimmed i) space {i | s.alive i = true} ↔
          Colorable (fun i j => j ∈ x.trimmed i) space
            {j | Function.update alive i false j = true}) ∧
        ∀ j, Function.update alive i false j = true → s.alive j = true := by
    rintro alive i hi henough ⟨hcol, hsub⟩
    obtain ⟨values, hvals, hlists⟩ := hexpl i (mem_survivors.mpr (hsub i hi))
    have hlt := of_decide_eq_true henough
    rw [hvals, getD_some] at hlt
    have hlarge : (liveDegree x.trimmed alive i : ℕ∞) < (space i).encard := by
      rw [hlists.encard]
      exact_mod_cast hlt
    refine ⟨hcol.trans (colorable_update_iff hadj hi hlarge), fun j hj => hsub j ?_⟩
    by_cases heq : j = i
    · rwa [heq]
    · rwa [update_of_ne heq] at hj
  obtain ⟨s', hs', -, -, hcol, hsub⟩ := hst.eliminate hadj hkeep ⟨Iff.rfl, fun _ => id⟩
    (work_le_fuel hnd)
  rw [hs', bind_eq_bind, bind_some]
  have hset : {i | s'.alive i = true} = {i | i ∈ s'.survivors} := by
    ext i
    exact mem_survivors.symm
  rw [hcol, hset]
  by_cases hnil : s'.survivors = []
  · rw [if_pos hnil]
    have hemp : {i | i ∈ s'.survivors} = ∅ := by
      rw [hnil]
      exact Set.eq_empty_of_forall_notMem fun _ => not_mem_nil
    refine ⟨false, rfl, nofun, fun hnot => absurd ?_ hnot⟩
    rw [hemp]
    exact colorable_empty
  · rw [if_neg hnil]
    exact decideSurvivors_spec hadj (nodup_survivors s') fun i hi =>
      hexpl i (mem_survivors.mpr (hsub i (mem_survivors.mp hi)))

/-- The answer without the shortcut: it is never a clash where there is an assignment, and it
misses a clash only at a survivor whose count was lost. -/
theorem byElimination_spec (h : x.Describes D space) :
    ∃ b s, x.byElimination = some b ∧ Left x space s ∧ (x.Assigns space Set.univ → b = false) ∧
      (¬ x.Assigns space Set.univ → b = false → ∃ i, s.alive i = true ∧ x.Huge i ∧ ∀ j < i,
        ¬ x.EarlyEmpty j) ∧
      (b = true → ∀ i, s.alive i = true → x.Huge i → ∃ j < i, x.EarlyEmpty j) := by
  obtain ⟨s, hs, hleft⟩ := exists_left h
  have hasg : x.Assigns space Set.univ ↔
      Colorable (fun i j => j ∈ x.trimmed i) space {i | s.alive i = true} :=
    h.assigns_iff_trimmed.trans hleft.colorable
  rw [Component.byElimination, hs, bind_eq_bind, bind_some, Component.afterElimination]
  by_cases hnil : s.survivors = []
  · rw [if_pos hnil]
    have hemp : {i | s.alive i = true} = ∅ := by
      refine Set.eq_empty_of_forall_notMem fun i hi => ?_
      have hmem := mem_survivors.mpr hi
      rw [hnil] at hmem
      exact not_mem_nil hmem
    refine ⟨false, s, rfl, hleft, fun _ => rfl, fun hnot => absurd ?_ hnot, nofun⟩
    rw [hasg, hemp]
    exact colorable_empty
  · rw [if_neg hnil]
    have hout : Component.Outcome x space s.survivors
        (x.enumerate s.survivors [] fun _ => none) := by
      have hl : Component.Listed x space [] [] fun _ => none := ⟨nofun, nofun, nofun, nofun, nofun⟩
      have hrest : ∀ i, i ∉ [] ++ s.survivors → space i ≠ ∅ := by
        intro i hi
        rw [nil_append, mem_survivors] at hi
        exact hleft.nonempty i (Bool.eq_false_iff.mpr hi)
      exact hl.enumerate h (fun i hi => ⟨s.alive, hleft.stuck i (mem_survivors.mp hi)⟩) hrest
        (pairwise_survivors s)
    cases henumerate : x.enumerate s.survivors [] fun _ => none with
    | error clash =>
      rw [henumerate] at hout
      cases clash with
      | true =>
        obtain ⟨i, hi, hemp, hearly, hbef⟩ := hout
        refine ⟨true, s, rfl, hleft, fun hassign => ?_, nofun, fun _ k hk hhuge => ?_⟩
        · obtain ⟨v, hv⟩ := hassign.space_nonempty (Set.mem_univ i)
          rw [hemp] at hv
          exact absurd hv (Set.notMem_empty v)
        · refine ⟨i, lt_of_not_ge fun hle => ?_, hearly⟩
          rcases hle.lt_or_eq with hlt | rfl
          · exact hbef k (mem_survivors.mpr hk) hlt hhuge
          · exact not_huge_of_earlyEmpty hearly hhuge
      | false =>
        obtain ⟨i, hi, hhuge, hbef⟩ := hout
        refine ⟨false, s, rfl, hleft, fun _ => rfl, fun _ _ =>
            ⟨i, mem_survivors.mp hi, hhuge, fun j hlt hearly => ?_⟩,
          nofun⟩
        by_cases hj : s.alive j = true
        · exact hbef j (mem_survivors.mpr hj) hlt hearly
        · exact hleft.nonempty j (Bool.eq_false_iff.mpr hj) (empty_of_earlyEmpty h hearly)
    | ok explicit =>
      rw [henumerate] at hout
      obtain ⟨b, hb, hiff⟩ := decide_listed h hleft fun i hi => (hout i hi).1
      rw [← hasg] at hiff
      refine ⟨b, s, hb, hleft, fun hassign => Bool.eq_false_iff.mpr fun hb => hiff.mp hb hassign,
        fun hnot hb => ?_, fun _ i hi hhuge => absurd hhuge (hout i (mem_survivors.mpr hi)).2⟩
      rw [hiff.mpr hnot] at hb
      cases hb

end elimination

end Hermit.Datatypes
