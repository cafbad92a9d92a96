import Mathlib

/-! # Lists related entry by entry

Lists that are related position by position, and positions that stay in place when a
list grows at its end.
-/

namespace Hermit.Library

open List Option

variable {α β : Type*} {R : α → β → Prop} {l : List α} {l' : List β}

theorem exists_of_forall₂_left (h : List.Forall₂ R l l') {a : α} (ha : a ∈ l) :
    ∃ b ∈ l', R a b := by
  induction h with
  | nil => cases ha
  | cons hab _ ih =>
    rcases mem_cons.mp ha with rfl | ha
    · exact ⟨_, mem_cons_self, hab⟩
    · obtain ⟨b, hb, hR⟩ := ih ha
      exact ⟨b, mem_cons_of_mem _ hb, hR⟩

theorem exists_of_forall₂_right (h : List.Forall₂ R l l') {b : β} (hb : b ∈ l') : ∃ a ∈ l, R a b :=
  exists_of_forall₂_left h.flip hb

/-- Neighbours are related along a chain. -/
theorem forall_zip_tail (R : β → β → Prop) (f : α → β) (l : List α) :
    (∀ p ∈ l.zip l.tail, R (f p.1) (f p.2)) ↔ (l.map f).IsChain R := by
  induction l with
  | nil => simp
  | cons a l ih =>
    cases l with
    | nil => simp
    | cons b l =>
      simp only [tail_cons, zip_cons_cons, forall_mem_cons, map_cons, isChain_cons_cons] at ih ⊢
      rw [ih]

theorem getElem?_isPrefixOf {l l' : List α} (h : l <+: l') {i : ℕ} {x : α} (hx : l[i]? = some x) :
    l'[i]? = some x := by
  obtain ⟨t, rfl⟩ := h
  obtain ⟨hlt, -⟩ := List.getElem?_eq_some_iff.mp hx
  rwa [getElem?_append_left hlt]

/-- The first position of `a` is that of `b`, if they stand at the same positions. -/
theorem idxOf?_eq_of_forall₂ [BEq α] [LawfulBEq α] [BEq β] [LawfulBEq β] (h : List.Forall₂ R l l')
    {a : α} {b : β}
    (heq : ∀ x ∈ l, ∀ y ∈ l', R x y → (x = a ↔ y = b)) : l.idxOf? a = l'.idxOf? b := by
  induction h with
  | nil => rfl
  | @cons x y _ _ hxy _ ih =>
    have hhead : (x == a) = (y == b) := by
      rw [Bool.eq_iff_iff, beq_iff_eq, beq_iff_eq]
      exact heq x mem_cons_self y mem_cons_self hxy
    rw [idxOf?_cons, idxOf?_cons, hhead,
      ih fun x hx y hy => heq x (mem_cons_of_mem _ hx) y (mem_cons_of_mem _ hy)]

theorem getElem?_concat_eq_some {i : ℕ} {x y : α} (h : (l ++ [y])[i]? = some x) :
    l[i]? = some x ∨ i = l.length ∧ x = y := by
  rcases Nat.lt_or_ge i l.length with hlt | hge
  · rw [getElem?_append_left hlt] at h
    exact .inl h
  · rw [getElem?_append_right hge] at h
    obtain ⟨hlt, hx⟩ := List.getElem?_eq_some_iff.mp h
    simp only [length_singleton] at hlt
    refine .inr ⟨by omega, ?_⟩
    simpa using hx.symm

variable {f : α → Option β}

theorem mapM_eq_some_iff : l.mapM f = some l' ↔ List.Forall₂ (fun a b => f a = some b) l l' := by
  induction l generalizing l' with
  | nil => rw [mapM_nil, forall₂_nil_left_iff]; exact ⟨fun h => (some.inj h).symm, fun h => h ▸ rfl⟩
  | cons a l ih =>
    rw [mapM_cons, bind_eq_bind, bind_eq_some_iff, forall₂_cons_left_iff]
    apply exists_congr
    intro b
    constructor
    · rintro ⟨hb, hrest⟩
      rw [bind_eq_bind, bind_eq_some_iff] at hrest
      obtain ⟨bs, hbs, hrest⟩ := hrest
      exact ⟨bs, hb, ih.mp hbs, (some.inj hrest).symm⟩
    · rintro ⟨bs, hb, hbs, rfl⟩
      refine ⟨hb, ?_⟩
      rw [ih.mpr hbs]
      rfl

theorem mapM_append_eq_some {l₁ l₂ : List α} {r₁ r₂ : List β}
    (h₁ : l₁.mapM f = some r₁) (h₂ : l₂.mapM f = some r₂) : (l₁ ++ l₂).mapM f = some (r₁ ++ r₂) :=
  mapM_eq_some_iff.mpr (rel_append (mapM_eq_some_iff.mp h₁) (mapM_eq_some_iff.mp h₂))

theorem exists_mapM {l : List α} (h : ∀ a ∈ l, ∃ b, f a = some b) :
    ∃ r, l.mapM f = some r ∧ ∀ b, b ∈ r ↔ ∃ a ∈ l, f a = some b := by
  obtain ⟨r, hr⟩ : ∃ r, List.Forall₂ (fun a b => f a = some b) l r := by
    induction l with
    | nil => exact ⟨[], .nil⟩
    | cons a l ih =>
      obtain ⟨b, hb⟩ := h a mem_cons_self
      obtain ⟨r, hr⟩ := ih fun a ha => h a (mem_cons_of_mem _ ha)
      exact ⟨b :: r, .cons hb hr⟩
  refine ⟨r, mapM_eq_some_iff.mpr hr, fun b => ⟨exists_of_forall₂_right hr, ?_⟩⟩
  rintro ⟨a, ha, hb⟩
  obtain ⟨b', hb', hab⟩ := exists_of_forall₂_left hr ha
  rwa [some.inj (hb.symm.trans hab)]

end Hermit.Library
