import Hermit.Library.Cardinality

/-! # Colouring from lists

Each vertex of a graph has a set of values, and adjacent vertices must take different ones.  A
vertex with more values than neighbours can be left out, parts without edges between them are
coloured on their own, and edges between vertices without a common value do not matter.
-/

namespace Hermit.Library

open Function

variable {V A : Type*} {adj : V → V → Prop} {space : V → Set A} {S T : Set V}

/-- A choice of values for the vertices of a set, different on adjacent ones. -/
def Colorable (adj : V → V → Prop) (space : V → Set A) (S : Set V) : Prop :=
  ∃ f : V → A, (∀ i ∈ S, f i ∈ space i) ∧ ∀ i ∈ S, ∀ j ∈ S, adj i j → f i ≠ f j

theorem colorable_empty [Inhabited A] : Colorable adj space (∅ : Set V) :=
  ⟨fun _ => default, nofun, nofun⟩

theorem Colorable.mono (h : Colorable adj space T) (hST : S ⊆ T) : Colorable adj space S := by
  obtain ⟨f, hf, hadj⟩ := h
  exact ⟨f, fun i hi => hf i (hST hi), fun i hi j hj => hadj i (hST hi) j (hST hj)⟩

theorem Colorable.space_nonempty (h : Colorable adj space S) {i : V} (hi : i ∈ S) :
    (space i).Nonempty := by
  obtain ⟨f, hf, -⟩ := h
  exact ⟨f i, hf i hi⟩

/-- A set with more elements than a list has one outside the list. -/
theorem exists_not_mem_of_length_lt {s : Set A} {l : List A} (h : (l.length : ℕ∞) < s.encard) :
    ∃ v ∈ s, v ∉ l := by
  classical
  by_contra hall
  push Not at hall
  have hsub : s ⊆ (l.toFinset : Set A) := by
    intro v hv
    simpa using hall v hv
  have hle : s.encard ≤ l.length := by
    calc s.encard ≤ (l.toFinset : Set A).encard := Set.encard_le_encard hsub
      _ = l.toFinset.card := Set.encard_coe_eq_coe_finsetCard _
      _ ≤ l.length := by exact_mod_cast l.toFinset_card_le
  exact absurd h (not_lt.mpr hle)

/-- A vertex with more values than neighbours takes one that they leave. -/
theorem Colorable.insert (hsymm : ∀ i j, adj i j → adj j i) {i : V} (hirrefl : ¬ adj i i)
    {l : List V} (hl : ∀ j ∈ S, adj i j → j ∈ l) (hlarge : (l.length : ℕ∞) < (space i).encard)
    (h : Colorable adj space S) :
    Colorable adj space (insert i S) := by
  classical
  obtain ⟨f, hf, hadj⟩ := h
  obtain ⟨v, hv, hnm⟩ := exists_not_mem_of_length_lt (l := l.map f) (by rwa [List.length_map])
  have hne : ∀ j ∈ S, adj i j → v ≠ f j := by
    rintro j hj hij rfl
    exact hnm (List.mem_map_of_mem (hl j hj hij))
  refine ⟨Function.update f i v, ?_, ?_⟩
  · intro j hj
    by_cases heq : j = i
    · subst heq
      rwa [update_self]
    · rw [update_of_ne heq]
      exact hf j (hj.resolve_left heq)
  · intro j hj k hk hjk
    by_cases hji : j = i
    · subst hji
      have hkj : k ≠ j := by
        rintro rfl
        exact hirrefl hjk
      rw [update_self, update_of_ne hkj]
      exact hne k (hk.resolve_left hkj) hjk
    · rw [update_of_ne hji]
      by_cases hki : k = i
      · subst hki
        rw [update_self]
        exact (hne j (hj.resolve_left hji) (hsymm j k hjk)).symm
      · rw [update_of_ne hki]
        exact hadj j (hj.resolve_left hji) k (hk.resolve_left hki) hjk

/-- Infinite sets of values are enough for finitely many vertices. -/
theorem colorable_of_infinite [Inhabited A] [Finite V] (hsymm : ∀ i j, adj i j → adj j i)
    (hirrefl : ∀ i, ¬ adj i i) (h : ∀ i, (space i).Infinite) : Colorable adj space Set.univ := by
  classical
  have := Fintype.ofFinite V
  have hfinset : ∀ F : Finset V, Colorable adj space (F : Set V) := by
    intro F
    induction F using Finset.induction_on with
    | empty =>
      rw [Finset.coe_empty]
      exact colorable_empty
    | insert i F _ ih =>
      rw [Finset.coe_insert]
      refine ih.insert hsymm (hirrefl i) (l := F.toList) (fun j hj _ => Finset.mem_toList.mpr hj) ?_
      rw [(h i).encard_eq]
      exact ENat.natCast_lt_top _
  rw [← Finset.coe_univ]
  exact hfinset Finset.univ

/-- Parts without edges between them are coloured on their own. -/
theorem colorable_union_iff (hsymm : ∀ i j, adj i j → adj j i) (hno : ∀ i ∈ S, ∀ j ∈ T, ¬ adj i j) :
    Colorable adj space (S ∪ T) ↔ Colorable adj space S ∧ Colorable adj space T := by
  classical
  constructor
  · exact fun h => ⟨h.mono Set.subset_union_left, h.mono Set.subset_union_right⟩
  · rintro ⟨⟨f, hf, hfadj⟩, g, hg, hgadj⟩
    refine ⟨fun i => if i ∈ S then f i else g i, ?_, ?_⟩
    · intro i hi
      dsimp only
      by_cases hiS : i ∈ S
      · rw [if_pos hiS]
        exact hf i hiS
      · rw [if_neg hiS]
        exact hg i (hi.resolve_left hiS)
    · intro i hi j hj hij
      dsimp only
      by_cases hiS : i ∈ S <;> by_cases hjS : j ∈ S
      · rw [if_pos hiS, if_pos hjS]
        exact hfadj i hiS j hjS hij
      · exact absurd hij (hno i hiS j (hj.resolve_left hjS))
      · exact absurd (hsymm i j hij) (hno j hjS i (hi.resolve_left hiS))
      · rw [if_neg hiS, if_neg hjS]
        exact hgadj i (hi.resolve_left hiS) j (hj.resolve_left hjS) hij

/-- Edges between vertices without a common value may be dropped. -/
theorem colorable_congr_adj {adj' : V → V → Prop} (hle : ∀ i j, adj' i j → adj i j)
    (hdrop : ∀ i j, adj i j → adj' i j ∨ Disjoint (space i) (space j)) :
    Colorable adj space S ↔ Colorable adj' space S := by
  constructor
  · rintro ⟨f, hf, hadj⟩
    exact ⟨f, hf, fun i hi j hj hij => hadj i hi j hj (hle i j hij)⟩
  · rintro ⟨f, hf, hadj⟩
    refine ⟨f, hf, fun i hi j hj hij heq => ?_⟩
    rcases hdrop i j hij with hij' | hdisj
    · exact hadj i hi j hj hij' heq
    · exact Set.disjoint_left.mp hdisj (hf i hi) (heq ▸ hf j hj)

/-- Values may be renamed, as long as different values get different names. -/
theorem colorable_image_iff {B : Type*} [Inhabited A] {g : A → B} {space' : V → Set B}
    (him : ∀ i ∈ S, space' i = g '' space i) (hg : Set.InjOn g (⋃ i ∈ S, space i)) :
    Colorable adj space' S ↔ Colorable adj space S := by
  classical
  have hmem : ∀ {i v}, i ∈ S → v ∈ space i → v ∈ ⋃ i ∈ S, space i := by
    intro i v hi hv
    exact Set.mem_biUnion hi hv
  constructor
  · rintro ⟨f, hf, hadj⟩
    have hch : ∀ i, ∃ v, i ∈ S → v ∈ space i ∧ g v = f i := by
      intro i
      by_cases hi : i ∈ S
      · have hfi := hf i hi
        rw [him i hi] at hfi
        obtain ⟨v, hv, heq⟩ := hfi
        exact ⟨v, fun _ => ⟨hv, heq⟩⟩
      · exact ⟨default, fun h => absurd h hi⟩
    choose f' hf' using hch
    refine ⟨f', fun i hi => (hf' i hi).1, fun i hi j hj hij heq => hadj i hi j hj hij ?_⟩
    rw [← (hf' i hi).2, ← (hf' j hj).2, heq]
  · rintro ⟨f, hf, hadj⟩
    refine ⟨g ∘ f, fun i hi => ?_, fun i hi j hj hij heq => hadj i hi j hj hij ?_⟩
    · rw [him i hi]
      exact Set.mem_image_of_mem g (hf i hi)
    · exact hg (hmem hi (hf i hi)) (hmem hj (hf j hj)) heq

theorem colorable_range_iff {W : Type*} [Inhabited A] {e : W → V} (he : Function.Injective e)
    {adj' : W → W → Prop} (hadj : ∀ a b, adj' a b ↔ adj (e a) (e b)) :
    Colorable adj space (Set.range e) ↔ Colorable adj' (fun a => space (e a)) Set.univ := by
  constructor
  · rintro ⟨f, hf, hfadj⟩
    refine ⟨f ∘ e, fun a _ => hf _ (Set.mem_range_self a), fun a _ b _ hab => ?_⟩
    exact hfadj _ (Set.mem_range_self a) _ (Set.mem_range_self b) ((hadj a b).mp hab)
  · rintro ⟨f, hf, hfadj⟩
    refine ⟨Function.extend e f fun _ => default, ?_, ?_⟩
    · rintro _ ⟨a, rfl⟩
      rw [he.extend_apply]
      exact hf a trivial
    · rintro _ ⟨a, rfl⟩ _ ⟨b, rfl⟩ hab
      rw [he.extend_apply, he.extend_apply]
      exact hfadj a trivial b trivial ((hadj a b).mpr hab)

/-- A clique whose vertices have the same values needs as many values as vertices. -/
theorem colorable_clique_iff {n : ℕ} {adj : Fin n → Fin n → Prop} {s : Set A}
    (hadj : ∀ i j, adj i j ↔ i ≠ j) : Colorable adj (fun _ => s) Set.univ ↔
    (n : ℕ∞) ≤ s.encard := by
  constructor
  · rintro ⟨f, hf, hne⟩
    have hinj : Function.Injective f := by
      intro i j hij
      by_contra h
      exact hne i trivial j trivial ((hadj i j).mpr h) hij
    have hle := encard_le_of_length (S := s) (List.nodup_ofFn_ofInjective hinj) (by
      intro y hy
      obtain ⟨i, rfl⟩ := List.mem_ofFn.mp hy
      exact hf i trivial)
    rwa [List.length_ofFn] at hle
  · intro hle
    obtain ⟨t, hts, ht⟩ := Set.exists_subset_encard_eq hle
    have hfin : t.Finite := Set.finite_of_encard_eq_coe ht
    have hcard : hfin.toFinset.card = n := by
      have hencard := hfin.encard_eq_coe_toFinset_card
      rw [ht] at hencard
      exact_mod_cast hencard.symm
    refine ⟨fun i => ((hfin.toFinset.equivFinOfCardEq hcard).symm i).val, fun i _ => ?_,
      fun i _ j _ hij heq => ?_⟩
    · exact hts (hfin.mem_toFinset.mp ((hfin.toFinset.equivFinOfCardEq hcard).symm i).property)
    · exact (hadj i j).mp hij
        ((hfin.toFinset.equivFinOfCardEq hcard).symm.injective (Subtype.ext heq))

end Hermit.Library
