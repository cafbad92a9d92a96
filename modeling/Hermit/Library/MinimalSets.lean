import Mathlib

/-! # Minimal sets

A set is minimal if no element of it can be left out.  All minimal sets are found by removing the
elements of one that was found, each in turn, and looking for another one in what remains.
-/

namespace Hermit.MinimalSets

variable {α β : Type*} [DecidableEq α] [DecidableEq β]

section lists

variable {P : Finset α → Prop} {l : List α}

theorem toFinset_subset {l' : List α} (h : l ⊆ l') : l.toFinset ⊆ l'.toFinset :=
  fun _ hx => List.mem_toFinset.mpr (h (List.mem_toFinset.mp hx))

theorem mem_toFinset_eraseIdx {i : ℕ} (hi : i < l.length) {x : α} (hx : x ∈ l) (hne : x ≠ l[i]) :
    x ∈ (l.eraseIdx i).toFinset := by
  rw [List.mem_toFinset, List.mem_eraseIdx_iff_getElem]
  obtain ⟨j, hj, rfl⟩ := List.getElem_of_mem hx
  exact ⟨j, hj, fun heq => hne (by subst heq; rfl), rfl⟩

/-- A list whose elements are all needed is minimal. -/
theorem minimal_toFinset (hmono : Monotone P) (hP : P l.toFinset)
    (hneed : ∀ i < l.length, ¬ P (l.eraseIdx i).toFinset) :
    Minimal P l.toFinset := by
  refine ⟨hP, fun T hT hsub x hx => ?_⟩
  by_contra hnot
  obtain ⟨i, hi, rfl⟩ := List.getElem_of_mem (List.mem_toFinset.mp hx)
  refine hneed i hi (hmono (fun y hy => ?_) hT)
  exact mem_toFinset_eraseIdx hi (List.mem_toFinset.mp (hsub hy)) fun heq => hnot (heq ▸ hy)

/-- A list whose elements are all needed has each of them once. -/
theorem nodup_of_needed (hP : P l.toFinset)
    (hneed : ∀ i < l.length, ¬ P (l.eraseIdx i).toFinset) : l.Nodup := by
  rw [List.nodup_iff_injective_get]
  rintro ⟨i, hi⟩ ⟨j, hj⟩ heq
  by_contra hne
  have hij : j ≠ i := fun h => hne (by subst h; rfl)
  refine hneed i hi ?_
  have hsame : (l.eraseIdx i).toFinset = l.toFinset := by
    ext x
    refine ⟨fun hx => List.mem_toFinset.mpr (List.mem_of_mem_eraseIdx (List.mem_toFinset.mp hx)),
      fun hx => ?_⟩
    by_cases hx' : x = l[i]
    · rw [List.mem_toFinset, List.mem_eraseIdx_iff_getElem]
      exact ⟨j, hj, hij, heq.symm.trans hx'.symm⟩
    · exact mem_toFinset_eraseIdx hi (List.mem_toFinset.mp hx) hx'
  rwa [hsame]

end lists

/-- The removals start with none.  For each removal after which there is a set, one of the sets was
found, and each of its elements was removed as well.  Then all minimal sets were found. -/
theorem mem_of_removals [Fintype α] {P : Finset α → Prop} (hmono : Monotone P)
    (found removals : Set (Finset α)) (hst : ∅ ∈ removals)
    (hstep : ∀ r ∈ removals, P rᶜ → ∃ j ∈ found, j ⊆ rᶜ ∧ Minimal P j ∧ ∀ i ∈ j,
      insert i r ∈ removals) {K : Finset α} (hK : Minimal P K) : K ∈ found := by
  by_contra hnot
  -- Another set that was found has an element outside the set in question, which can be removed.
  have hgrow : ∀ n, ∃ r ∈ removals, Disjoint K r ∧ n ≤ r.card := by
    intro n
    induction n with
    | zero => exact ⟨∅, hst, Finset.disjoint_empty_right K, Nat.zero_le _⟩
    | succ n ih =>
      obtain ⟨r, hr, hdisj, hcard⟩ := ih
      have hsub : K ⊆ rᶜ := Finset.subset_compl_iff_disjoint_right.mpr hdisj
      obtain ⟨j, hj, hjr, hmin, hins⟩ := hstep r hr (hmono hsub hK.prop)
      obtain ⟨i, hi, hiK⟩ : ∃ i ∈ j, i ∉ K := by
        by_contra hall
        have hjK : j ⊆ K := fun i hi => by
          by_contra hiK
          exact hall ⟨i, hi, hiK⟩
        have hequal : j = K := Finset.Subset.antisymm hjK (hK.2 hmin.prop hjK)
        exact hnot (hequal ▸ hj)
      have hir : i ∉ r := Finset.mem_compl.mp (hjr hi)
      refine ⟨insert i r, hins i hi, Finset.disjoint_insert_right.mpr ⟨hiK, hdisj⟩, ?_⟩
      rw [Finset.card_insert_of_notMem hir]
      exact Nat.succ_le_succ hcard
  obtain ⟨r, -, -, hcard⟩ := hgrow (Fintype.card α + 1)
  exact absurd (hcard.trans (Finset.card_le_univ r)) (Nat.not_succ_le_self _)

/-! ## Images -/

section images

variable [Fintype α] {P : Finset β → Prop} {f : α → β} {J : Finset α}

/-- A minimal set of preimages has one preimage of each element of a minimal set. -/
theorem minimal_image_iff : Minimal (fun J : Finset α => P (J.image f)) J ↔
      Set.InjOn f J ∧ Minimal (fun S => S ⊆ Finset.univ.image f ∧ P S) (J.image f) := by
  constructor
  · intro hJ
    constructor
    · intro a ha b hb heq
      by_contra hne
      -- Without one of two preimages the image is the same.
      have hsame : (J.erase b).image f = J.image f := by
        refine Finset.Subset.antisymm (Finset.image_subset_image (Finset.erase_subset b J))
          fun y hy => ?_
        obtain ⟨x, hx, rfl⟩ := Finset.mem_image.mp hy
        by_cases hxb : x = b
        · exact Finset.mem_image.mpr ⟨a, Finset.mem_erase.mpr ⟨hne, ha⟩, by rw [hxb, heq]⟩
        · exact Finset.mem_image_of_mem f (Finset.mem_erase.mpr ⟨hxb, hx⟩)
      have hle : J ≤ J.erase b :=
        hJ.2 (show P ((J.erase b).image f) by rw [hsame]; exact hJ.prop) (Finset.erase_subset b J)
      exact Finset.notMem_erase b J (hle hb)
    · refine ⟨⟨Finset.image_subset_image (Finset.subset_univ J), hJ.prop⟩, fun T hT hsub => ?_⟩
      have hpart : (J.filter fun x => f x ∈ T).image f = T := by
        ext y
        rw [Finset.mem_image]
        constructor
        · rintro ⟨x, hx, rfl⟩
          exact (Finset.mem_filter.mp hx).2
        · intro hy
          obtain ⟨x, hx, rfl⟩ := Finset.mem_image.mp (hsub hy)
          exact ⟨x, Finset.mem_filter.mpr ⟨hx, hy⟩, rfl⟩
      have hle : J ≤ J.filter fun x => f x ∈ T := hJ.2 (show P
        ((J.filter fun x => f x ∈ T).image f) by rw [hpart]; exact hT.2) (Finset.filter_subset _ _)
      intro y hy
      obtain ⟨x, hx, rfl⟩ := Finset.mem_image.mp hy
      exact (Finset.mem_filter.mp (hle hx)).2
  · rintro ⟨hinj, hJ⟩
    refine ⟨hJ.prop.2, fun T hT hsub x hx => ?_⟩
    have hle := hJ.2 ⟨Finset.image_subset_image (Finset.subset_univ T), hT⟩
      (Finset.image_subset_image hsub)
    obtain ⟨x', hx', heq⟩ := Finset.mem_image.mp (hle (Finset.mem_image_of_mem f hx))
    rwa [← hinj (hsub hx') hx heq]

end images

end Hermit.MinimalSets
