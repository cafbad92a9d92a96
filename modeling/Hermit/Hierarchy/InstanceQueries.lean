import Hermit.Hierarchy.Realization

/-! # Types and instances after realization

When nothing is possible any more, a node is a type of an individual if and only if the individual
is known at or below it.  The queries read types and instances off in this way.
-/

namespace Hermit

open Hierarchy List

namespace SeededClassInstanceManager

variable {E : Type*} {h : Hierarchy E} {isInstance : E → String → Bool} {individuals : List String}
  {m : SeededClassInstanceManager}

/-! ## Types -/

section

variable (wf : h.WellFormed) (hlt : ∀ n i, m.conceptToElement.Known n i → n < h.nodes.length)
  (i : String) (n : NodeRef)
include wf hlt i

theorem mem_getTypesOf :
    n ∈ m.getTypesOf h i false ↔ ∃ d, m.conceptToElement.Known d i ∧ h.Ancestor d n := by
  let collect := fun (typeNodes : List NodeRef)
      (entry : Sigma fun _ : NodeRef => AtomicConceptElement) =>
    if entry.2.isKnown i ∧ entry.1 ∉ typeNodes then (h.ancestorNodes entry.1).foldl insertSet
      typeNodes else typeNodes
  -- What is collected is closed under ancestors, so a node that is there needs no second look.
  have hfold : ∀ (entries : List (Sigma fun _ : NodeRef => AtomicConceptElement)),
      (∀ entry ∈ entries, i ∈ entry.2.known → entry.1 < h.nodes.length) → ∀ typeNodes,
      (∀ a ∈ typeNodes, ∀ b, h.Ancestor a b → b ∈ typeNodes) →
      ∀ n, n ∈ entries.foldl collect typeNodes ↔
        n ∈ typeNodes ∨ ∃ entry ∈ entries, i ∈ entry.2.known ∧ h.Ancestor entry.1 n := by
    intro entries
    induction entries with
    | nil => simp
    | cons entry entries ih =>
      intro hents typeNodes hcl n
      have hrest : ∀ entry ∈ entries, i ∈ entry.2.known → entry.1 < h.nodes.length :=
        fun entry hent => hents entry (mem_cons_of_mem _ hent)
      rw [foldl_cons]
      by_cases hknown : i ∈ entry.2.known
      · have hstep : ∀ n, n ∈ collect typeNodes entry ↔ n ∈ typeNodes ∨ h.Ancestor entry.1 n := by
          intro n
          dsimp only [collect]
          split
          · rw [mem_foldl_insertSet, wf.mem_ancestorNodes (hents entry mem_cons_self hknown)]
          · rename_i hskip
            rw [AtomicConceptElement.isKnown, decide_eq_true_iff, not_and, not_not] at hskip
            exact ⟨.inl, fun hn => hn.elim id fun hn => hcl _ (hskip hknown) n hn⟩
        rw [ih hrest]
        · rw [hstep, or_assoc]
          simp [hknown]
        · intro a ha b hab
          rw [hstep] at ha ⊢
          exact ha.imp (fun ha => hcl a ha b hab) fun ha => ha.trans hab
      · have hstep : collect typeNodes entry = typeNodes := by
          dsimp only [collect]
          rw [if_neg]
          rw [AtomicConceptElement.isKnown, decide_eq_true_iff]
          exact fun hand => hknown hand.1
        rw [hstep, ih hrest typeNodes hcl]
        simp [hknown]
  have hents : ∀ n e, (⟨n, e⟩ : Sigma fun _ : NodeRef => AtomicConceptElement) ∈
    m.conceptToElement.entries ↔
      m.conceptToElement.lookup n = some e := fun n e => AList.mem_lookup_iff.symm
  have hall : ∀ entry ∈ m.conceptToElement.entries, i ∈ entry.2.known → entry.1 < h.nodes.length :=
    fun ⟨n, e⟩ hent hi => hlt n i ⟨e, (hents n e).mp hent, hi⟩
  rw [getTypesOf, if_neg Bool.false_ne_true, hfold _ hall [] nofun n, or_iff_right not_mem_nil]
  constructor
  · rintro ⟨⟨d, e⟩, hent, hi, hn⟩
    exact ⟨d, ⟨e, (hents d e).mp hent, hi⟩, hn⟩
  · rintro ⟨d, ⟨e, he, hi⟩, hn⟩
    exact ⟨⟨d, e⟩, (hents d e).mpr he, hi, hn⟩

theorem mem_getTypesOf_direct : n ∈ m.getTypesOf h i true ↔ n ∈ m.getTypesOf h i false ∧
      ∀ k ∈ m.getTypesOf h i false, h.Ancestor k n → k = n := by
  have hdir : m.getTypesOf h i true = minimalNodes h (m.getTypesOf h i false) := rfl
  rw [hdir, minimalNodes, mem_filter, decide_eq_true_iff, any_eq_true]
  refine and_congr_right fun hn => ⟨fun hnone k hk hkn => ?_, ?_⟩
  · by_contra hne
    obtain ⟨c, hc, hkc⟩ := wf.exists_child hkn hne
    refine hnone ⟨c, hc, decide_eq_true ?_⟩
    rw [mem_getTypesOf wf hlt] at hk ⊢
    obtain ⟨d, hd, hdk⟩ := hk
    exact ⟨d, hd, hdk.trans hkc⟩
  · rintro hmin ⟨c, hc, hmem⟩
    have hpar := (wf.mem_parentNodes c n).mpr hc
    obtain rfl := hmin c (of_decide_eq_true hmem) (.single hpar)
    obtain ⟨rank, hrank⟩ := wf.acyclic
    exact lt_irrefl _ (hrank _ _ hpar)

end

/-! ## Instances -/

theorem anyM_eq_some {α : Type*} {f : α → Option Bool} {l : List α} {p : α → Prop}
    (hf : ∀ a ∈ l, ∃ b, f a = some b ∧ (b = true ↔ p a)) :
    ∃ b, l.anyM f = some b ∧ (b = true ↔ ∃ a ∈ l, p a) := by
  induction l with
  | nil => exact ⟨false, rfl, by simp⟩
  | cons a l ih =>
    obtain ⟨b, hb, hbp⟩ := hf a mem_cons_self
    obtain ⟨c, hc, hcp⟩ := ih fun a ha => hf a (mem_cons_of_mem _ ha)
    refine ⟨b || c, ?_, by simp [hbp, hcp]⟩
    rw [List.anyM, hb]
    cases b with
    | true => rfl
    | false => exact hc

theorem foldlM_eq_some {α : Type*} {f : List String → α → Option (List String)} {l : List α}
    {p : α → String → Prop}
    (hf : ∀ a ∈ l, ∀ result, ∃ result', f result a = some result' ∧ ∀ i, i ∈ result' ↔
      i ∈ result ∨ p a i) (result : List String) :
    ∃ result', l.foldlM f result = some result' ∧ ∀ i, i ∈ result' ↔
    i ∈ result ∨ ∃ a ∈ l, p a i := by
  induction l generalizing result with
  | nil => exact ⟨result, rfl, by simp⟩
  | cons a l ih =>
    obtain ⟨result₁, hstep, hmem₁⟩ := hf a mem_cons_self result
    obtain ⟨result', hrest, hmem'⟩ := ih (fun a ha => hf a (mem_cons_of_mem _ ha)) result₁
    refine ⟨result', ?_, fun i => ?_⟩
    · rw [foldlM_cons, hstep]
      exact hrest
    · rw [hmem', hmem₁]
      simp [or_assoc]

theorem isKnownAt_iff {n : NodeRef} {i : String} : m.isKnownAt n i = true ↔
    m.conceptToElement.Known n i := by
  rw [isKnownAt, Elements.Known, Option.any_eq_true]
  simp [AtomicConceptElement.isKnown]

section instances

variable (wf : h.WellFormed) {rank : NodeRef → ℕ}
    (hrank : ∀ n, ∀ p ∈ h.parentNodes n, rank n < rank p)

include wf hrank

variable {fuel : ℕ} {n : NodeRef}

theorem exists_isKnownOfDescendant (i : String) (hn : n < h.nodes.length) (hfuel : rank n < fuel) :
    ∃ b, m.isKnownOfDescendant h i fuel n = some b ∧
      (b = true ↔ ∃ d, h.Ancestor d n ∧ d ≠ h.bottom ∧ m.conceptToElement.Known d i) := by
  induction fuel generalizing n with
  | zero => omega
  | succ fuel ih =>
    rw [isKnownOfDescendant]
    by_cases hbot : n = h.bottom
    · refine ⟨false, if_pos hbot, iff_of_false Bool.false_ne_true ?_⟩
      rintro ⟨d, hdn, hd, hknown⟩
      rw [hbot] at hdn
      exact hd (wf.eq_bottom_of_ancestor hdn)
    rw [if_neg hbot]
    by_cases hknown : m.isKnownAt n i = true
    · exact ⟨true, if_pos hknown, iff_of_true rfl ⟨n, .refl, hbot, isKnownAt_iff.mp hknown⟩⟩
    rw [if_neg hknown]
    obtain ⟨b, hb, hiff⟩ := anyM_eq_some fun c hc => ih (wf.child_lt hc) (by
      have := hrank c n ((wf.mem_parentNodes c n).mpr hc)
      omega)
    refine ⟨b, hb, hiff.trans ⟨?_, ?_⟩⟩
    · rintro ⟨c, hc, d, hdc, hd, hi⟩
      exact ⟨d, hdc.trans (.single ((wf.mem_parentNodes c n).mpr hc)), hd, hi⟩
    · rintro ⟨d, hdn, hd, hi⟩
      have hne : d ≠ n := by
        rintro rfl
        exact hknown (isKnownAt_iff.mpr hi)
      obtain ⟨c, hc, hdc⟩ := wf.exists_child hdn hne
      exact ⟨c, hc, d, hdc, hd, hi⟩

/-- Direct instances are known at the node and not further down. -/
theorem exists_collectKnown (direct : Bool) (hfuel : rank n ≤ fuel) (result : List String) :
    ∃ result', m.collectKnown h n direct fuel result = some result' ∧ ∀ i, i ∈ result' ↔
    i ∈ result ∨
      m.conceptToElement.Known n i ∧ (direct = true → ∀ d, h.Ancestor d n → d ≠ n → d ≠ h.bottom →
        ¬ m.conceptToElement.Known d i) := by
  unfold collectKnown
  cases hlook : m.conceptToElement.lookup n with
  | none => exact ⟨result, rfl, by simp [Elements.Known, hlook]⟩
  | some e =>
    have hstep : ∀ i ∈ e.known, ∀ result, ∃ result', (do
        let isDirect ← if direct then
            (!·) <$> (h.childNodes n).anyM (m.isKnownOfDescendant h i fuel) else some true
        return if isDirect then insertSet result i else result) = some result' ∧ ∀ j, j ∈ result' ↔
          j ∈ result ∨
          j = i ∧ (direct = true → ∀ d, h.Ancestor d n → d ≠ n → d ≠ h.bottom →
            ¬ m.conceptToElement.Known d i) := by
      intro i _ result
      cases direct with
      | false =>
        refine ⟨insertSet result i, rfl, fun j => ?_⟩
        simp
      | true =>
        have hchild : ∀ c ∈ h.childNodes n, ∃ b, m.isKnownOfDescendant h i fuel c = some b ∧
            (b = true ↔ ∃ d, h.Ancestor d c ∧ d ≠ h.bottom ∧ m.conceptToElement.Known d i) := by
          intro c hc
          have hlt := hrank c n ((wf.mem_parentNodes c n).mpr hc)
          exact exists_isKnownOfDescendant wf hrank i (wf.child_lt hc) (by omega)
        obtain ⟨b, hb, hiff⟩ := anyM_eq_some hchild
        have hblw : b = true ↔ ∃ d, h.Ancestor d n ∧ d ≠ n ∧ d ≠ h.bottom ∧
            m.conceptToElement.Known d i := by
          refine hiff.trans ⟨?_, ?_⟩
          · rintro ⟨c, hc, d, hdc, hd, hi⟩
            have hcn := (wf.mem_parentNodes c n).mpr hc
            refine ⟨d, hdc.trans (.single hcn), ?_, hd, hi⟩
            rintro rfl
            obtain rfl := wf.antisymm hdc (.single hcn)
            exact lt_irrefl _ (hrank _ _ hcn)
          · rintro ⟨d, hdn, hne, hd, hi⟩
            obtain ⟨c, hc, hdc⟩ := wf.exists_child hdn hne
            exact ⟨c, hc, d, hdc, hd, hi⟩
        refine ⟨if !b then insertSet result i else result, ?_, fun j => ?_⟩
        · rw [if_pos rfl, hb]
          rfl
        · cases b with
          | false =>
            have hnone : ∀ d, h.Ancestor d n → d ≠ n → d ≠ h.bottom →
              ¬ m.conceptToElement.Known d i :=
              fun d hdn hne hd hi => Bool.false_ne_true (hblw.mpr ⟨d, hdn, hne, hd, hi⟩)
            rw [Bool.not_false, if_pos rfl, mem_insertSet, and_iff_left fun _ => hnone]
          | true =>
            obtain ⟨d, hdn, hne, hd, hi⟩ := hblw.mp rfl
            have hsome : ¬ (true = true → ∀ d, h.Ancestor d n → d ≠ n → d ≠ h.bottom →
              ¬ m.conceptToElement.Known d i) :=
              fun hnone => hnone rfl d hdn hne hd hi
            rw [Bool.not_true, if_neg Bool.false_ne_true, or_iff_left fun hj => hsome hj.2]
    obtain ⟨result', hrun, hmem⟩ := foldlM_eq_some hstep result
    refine ⟨result', hrun, fun i => ?_⟩
    rw [hmem]
    simp [Elements.Known, hlook]

theorem exists_collectInstances (hbot : n ≠ h.bottom) (hfuel : rank n < fuel)
    (result : List String) :
    ∃ result', m.collectInstances h false fuel n result = some result' ∧ ∀ i, i ∈ result' ↔
    i ∈ result ∨ ∃ d, h.Ancestor d n ∧ d ≠ h.bottom ∧ m.conceptToElement.Known d i := by
  induction fuel generalizing n result with
  | zero => omega
  | succ fuel ih =>
    have hle : rank n ≤ fuel := by omega
    obtain ⟨result₁, hknown, hmem₁⟩ := exists_collectKnown (m := m) wf hrank false hle result
    have hstep : ∀ c ∈ h.childNodes n, ∀ result, ∃ result',
        (if c = h.bottom then some result else m.collectInstances h false fuel c result) =
          some result' ∧
          ∀ i, i ∈ result' ↔ i ∈ result ∨ c ≠ h.bottom ∧ ∃ d,
            h.Ancestor d c ∧ d ≠ h.bottom ∧ m.conceptToElement.Known d i := by
      intro c hc result
      by_cases hcb : c = h.bottom
      · exact ⟨result, if_pos hcb, by simp [hcb]⟩
      · rw [if_neg hcb]
        obtain ⟨result', hrun, hmem⟩ := ih hcb (by
          have := hrank c n ((wf.mem_parentNodes c n).mpr hc)
          omega) result
        exact ⟨result', hrun, fun i => by simp [hmem, hcb]⟩
    obtain ⟨result', hrun, hmem'⟩ := foldlM_eq_some hstep result₁
    refine ⟨result', ?_, fun i => ?_⟩
    · rw [collectInstances, hknown]
      exact hrun
    · rw [hmem', hmem₁, or_assoc]
      refine or_congr_right ⟨?_, ?_⟩
      · rintro (⟨hi, -⟩ | ⟨c, hc, -, d, hdc, hd, hi⟩)
        · exact ⟨n, .refl, hbot, hi⟩
        · exact ⟨d, hdc.trans (.single ((wf.mem_parentNodes c n).mpr hc)), hd, hi⟩
      · rintro ⟨d, hdn, hd, hi⟩
        by_cases hne : d = n
        · subst hne
          exact .inl ⟨hi, nofun⟩
        · obtain ⟨c, hc, hdc⟩ := wf.exists_child hdn hne
          refine .inr ⟨c, hc, ?_, d, hdc, hd, hi⟩
          rintro rfl
          exact hd (wf.eq_bottom_of_ancestor hdc)

end instances

theorem exists_getInstances (hc : h.Classifies isInstance individuals)
    (hcov : h.Covers isInstance individuals m.conceptToElement)
    (hset : Settled h h.allNodes m.conceptToElement)
    {n : NodeRef} (hn : n < h.nodes.length) (direct : Bool) :
    ∃ enough, ∀ fuel, enough ≤ fuel → ∃ result,
    m.getInstances h n direct individuals fuel = some result ∧
      ∀ i, i ∈ result ↔ i ∈ individuals ∧ n ∈ m.getTypesOf h i direct := by
  have wf := hc.wellFormed
  obtain ⟨rank, hrank⟩ := wf.acyclic
  have hlt : ∀ n i, m.conceptToElement.Known n i → n < h.nodes.length :=
    fun n i hi => (hcov.sound n i hi).2.lt
  have htypes := mem_getTypesOf wf hlt
  have hbot : ∀ i ∈ individuals, ¬ h.HasInstance isInstance h.bottom i := hc.bottom
  have hne : ∀ d i, m.conceptToElement.Known d i → d ≠ h.bottom := by
    rintro d i hi rfl
    obtain ⟨hmem, hd⟩ := hcov.sound _ i hi
    exact hbot i hmem hd
  by_cases hnb : n = h.bottom
  · refine ⟨0, fun fuel _ =>
      ⟨[], by rw [getInstances, if_pos hnb], fun i => iff_of_false not_mem_nil ?_⟩⟩
    rintro ⟨hi, hmem⟩
    have hfls : n ∈ m.getTypesOf h i false := by
      cases direct with
      | false => exact hmem
      | true => exact ((mem_getTypesOf_direct wf hlt i n).mp hmem).1
    obtain ⟨d, hd, hdn⟩ := (htypes i n).mp hfls
    rw [hnb] at hdn
    exact hbot i hi (hc.ancestor hdn (hcov.sound d i hd).2)
  by_cases htop : (!direct) = true ∧ n = h.top
  · obtain ⟨hdir, rfl⟩ := htop
    have hdir : direct = false := by simpa using hdir
    subst hdir
    refine ⟨0, fun fuel _ => ⟨individuals, ?_, fun i => (and_iff_left_of_imp fun hi => ?_).symm⟩⟩
    · rw [getInstances, if_neg hnb, if_pos ⟨rfl, rfl⟩]
    · obtain ⟨d, hdn, hd, hrec⟩ := hcov.covered i hi h.top (hc.top i hi)
      exact (htypes i h.top).mpr
        ⟨d, hrec.resolve_right (hset d (mem_range.mpr (hdn.lt hn)) hd i), hdn⟩
  have hget : ∀ fuel, m.getInstances h n direct individuals fuel =
      m.collectInstances h direct fuel n [] := by
    intro fuel
    rw [getInstances, if_neg hnb, if_neg htop]
  refine ⟨rank n + 1, fun fuel hfuel => ?_⟩
  rw [hget]
  cases direct with
  | false =>
    obtain ⟨result, hrun, hmem⟩ := exists_collectInstances (m := m) wf hrank hnb hfuel []
    refine ⟨result, hrun, fun i => ?_⟩
    rw [hmem, or_iff_right not_mem_nil, htypes]
    constructor
    · rintro ⟨d, hdn, -, hd⟩
      exact ⟨(hcov.sound d i hd).1, d, hd, hdn⟩
    · rintro ⟨-, d, hd, hdn⟩
      exact ⟨d, hdn, hne d i hd, hd⟩
  | true =>
    obtain ⟨fuel, rfl⟩ : ∃ k, fuel = k + 1 := ⟨fuel - 1, by omega⟩
    have hle : rank n ≤ fuel := by omega
    obtain ⟨result, hrun, hmem⟩ := exists_collectKnown (m := m) wf hrank true hle []
    refine ⟨result, ?_, fun i => ?_⟩
    · rw [collectInstances, hrun]
      rfl
    · rw [hmem, or_iff_right not_mem_nil, mem_getTypesOf_direct wf hlt, htypes]
      constructor
      · rintro ⟨hi, hnone⟩
        refine ⟨(hcov.sound n i hi).1, ⟨n, hi, .refl⟩, fun k hk hkn => ?_⟩
        obtain ⟨d, hd, hdk⟩ := (htypes i k).mp hk
        by_contra hkne
        refine hnone rfl d (hdk.trans hkn) ?_ (hne d i hd) hd
        rintro rfl
        exact hkne (wf.antisymm hkn hdk)
      · rintro ⟨-, ⟨d, hd, hdn⟩, hmin⟩
        obtain rfl := hmin d ((htypes i d).mpr ⟨d, hd, .refl⟩) hdn
        refine ⟨hd, fun _ k hkd hkne _ hk => hkne ?_⟩
        exact hmin k ((htypes i k).mpr ⟨k, hk, .refl⟩) hkd

/-! ## Realization of read-off labels -/

/-- Take a hierarchy whose links are true of the instances, and labels such that every known one is
a type and every type other than top is labelled.  Realization ends; then only bottom, which is
never tested, may have possible instances, the types are exactly the nodes whose concept has the
individual as an instance, the direct types are the minimal ones, and the instances of a node are
the individuals of which it is a type. -/
theorem realize_readOff_exact {E : Type*} (h : Hierarchy E) (isInstance : E → String → Bool)
    (individuals : List String)
    (hc : h.Classifies isInstance individuals) (labels : String → List ReadOffConcept)
    (nodeForElement : String → Option NodeRef)
    (hsound : ∀ i ∈ individuals, ∀ n, Labels labels nodeForElement true n i →
      h.HasInstance isInstance n i)
    (hcompl : ∀ i ∈ individuals, ∀ n, n ≠ h.top → h.HasInstance isInstance n i →
      ∃ known, Labels labels nodeForElement known n i) :
    ∃ m, (seedClassInstances h.top labels nodeForElement individuals).realize h
    isInstance = some m ∧
      (∀ n < h.nodes.length, n ≠ h.bottom → ∀ i, ¬ m.conceptToElement.Possible n i) ∧
      (∀ i ∈ individuals, ∀ n, n ∈ m.getTypesOf h i false ↔ h.HasInstance isInstance n i) ∧
      (∀ i ∈ individuals, ∀ n, n ∈ m.getTypesOf h i true ↔
        h.HasInstance isInstance n i ∧ ∀ k, h.HasInstance isInstance k i → h.Ancestor k n → k = n) ∧
      ∀ n < h.nodes.length, ∀ direct, ∃ enough, ∀ fuel, enough ≤ fuel →
        ∃ result, m.getInstances h n direct individuals fuel = some result ∧
          ∀ i, i ∈ result ↔ i ∈ individuals ∧ n ∈ m.getTypesOf h i direct := by
  obtain ⟨hknown, hposs, hflag⟩ := seedClassInstances_spec h.top labels nodeForElement individuals
  have hcov : h.Covers isInstance individuals
      (seedClassInstances h.top labels nodeForElement individuals).conceptToElement := by
    refine ⟨fun n i hn => ?_, fun n i hn => ((hposs n i).mp hn).1, fun i hi n hn =>
        ⟨n, .refl, ?_, ?_⟩⟩
    · obtain ⟨hi, hn⟩ := (hknown n i).mp hn
      rcases hn with hn | rfl
      · exact ⟨hi, hsound i hi n hn⟩
      · exact ⟨hi, hc.top i hi⟩
    · rintro rfl
      exact hc.bottom i hi hn
    · by_cases htop : n = h.top
      · exact .inl ((hknown n i).mpr ⟨hi, .inr htop⟩)
      · obtain ⟨known, hlab⟩ := hcompl i hi n htop hn
        cases known with
        | true => exact .inl ((hknown n i).mpr ⟨hi, .inl hlab⟩)
        | false => exact .inr ((hposs n i).mpr ⟨hi, hlab⟩)
  obtain ⟨m, hrealize, hcov', hset⟩ := exists_realize hc hcov hflag
  have hlt : ∀ n i, m.conceptToElement.Known n i → n < h.nodes.length :=
    fun n i hi => (hcov'.sound n i hi).2.lt
  have htypes : ∀ i ∈ individuals, ∀ n, n ∈ m.getTypesOf h i false ↔
      h.HasInstance isInstance n i := by
    intro i hi n
    rw [mem_getTypesOf hc.wellFormed hlt]
    constructor
    · rintro ⟨d, hd, hdn⟩
      exact hc.ancestor hdn (hcov'.sound d i hd).2
    · intro hn
      obtain ⟨d, hdn, hd, hrec⟩ := hcov'.covered i hi n hn
      exact ⟨d, hrec.resolve_right (hset d (mem_range.mpr (hdn.lt hn.lt)) hd i), hdn⟩
  refine ⟨m, hrealize, fun n hn => hset n (mem_range.mpr hn), htypes, fun i hi n => ?_,
    fun n hn direct => exists_getInstances hc hcov' hset hn direct⟩
  rw [mem_getTypesOf_direct hc.wellFormed hlt, htypes i hi]
  refine and_congr_right fun _ => forall_congr' fun k => ?_
  rw [htypes i hi]

/-- One class between top and bottom. -/
def oneClass : Hierarchy String := ⟨[⟨"Thing", ["Thing"], [], [2]⟩,
      ⟨"Nothing", ["Nothing", "U"], [2], []⟩, ⟨"A", ["A"], [0], [1]⟩], 0, 1⟩

/-- Only `a` is an instance of `A`. -/
def isInstanceOfA (concept individual : String) : Bool :=
  concept = "Thing" ∨ concept = "A" ∧ individual = "a"

def nodeForName : String → Option NodeRef
  | "A" => some 2
  | "U" => some 1
  | _ => none

theorem wellFormed_oneClass : oneClass.WellFormed :=
  wellFormed_of_rank (fun n => if n = 0 then 2 else if n = 1 then 0 else 1) 2 (by decide)
    (by decide) (by decide) (by decide)
    (by decide) (by decide) (by decide) (by decide) (by decide)

theorem classifies_oneClass (individuals : List String) :
    oneClass.Classifies isInstanceOfA individuals := by
  refine ⟨wellFormed_oneClass, fun n p hp i hn => ?_, fun i _ => ⟨"Thing", rfl, rfl⟩,
    fun i _ hi => ?_⟩
  · obtain ⟨e, he, hi⟩ := hn
    have hnodes : ∀ n < oneClass.nodes.length, n = 0 ∨ n = 1 ∨ n = 2 := by decide
    rcases hnodes n (lt_of_mem_parentNodes hp) with rfl | rfl | rfl
    · cases hp
    · cases he
      simp [isInstanceOfA] at hi
    · rw [show oneClass.parentNodes 2 = [0] from rfl, mem_singleton] at hp
      subst hp
      exact ⟨"Thing", rfl, rfl⟩
  · obtain ⟨e, he, hi⟩ := hi
    cases he
    simp [isInstanceOfA] at hi

/-- Both individuals are possible instances of `A`; only `a` turns out to be one. -/
theorem realize_readOff_exact_oneClass :
    ∃ m, (seedClassInstances 0 (fun _ => [⟨"A", false⟩]) nodeForName ["a", "b"]).realize oneClass
    isInstanceOfA = some m ∧
      (2 ∈ m.getTypesOf oneClass "a" true) ∧ 2 ∉ m.getTypesOf oneClass "b" false := by
  have hnodes : ∀ n < oneClass.nodes.length, n = 0 ∨ n = 1 ∨ n = 2 := by decide
  obtain ⟨m, hrealize, -, htypes, hdir, -⟩ :=
    realize_readOff_exact oneClass isInstanceOfA ["a", "b"]
    (classifies_oneClass _) (fun _ => [⟨"A", false⟩]) nodeForName
    (by
      rintro i - n ⟨label, hlab, hknown, -⟩
      rw [mem_singleton.mp hlab] at hknown
      cases hknown)
    (by
      rintro i - n htop ⟨e, he, hi⟩
      rcases hnodes n (HasInstance.lt ⟨e, he, hi⟩) with rfl | rfl | rfl
      · exact absurd rfl htop
      · cases he
        simp [isInstanceOfA] at hi
      · exact ⟨false, _, mem_singleton_self _, rfl, rfl⟩)
  refine ⟨m, hrealize, (hdir "a" (by simp) 2).mpr ⟨⟨"A", rfl, rfl⟩, fun k hk hk2 => ?_⟩,
    fun hb => ?_⟩
  · rcases hnodes k hk.lt with rfl | rfl | rfl
    · exact absurd (wellFormed_oneClass.antisymm hk2 (wellFormed_oneClass.below_top 2 (by decide)))
        (by decide)
    · obtain ⟨e, he, hi⟩ := hk
      cases he
      simp [isInstanceOfA] at hi
    · rfl
  · obtain ⟨e, he, hi⟩ := (htypes "b" (by simp) 2).mp hb
    cases he
    simp [isInstanceOfA] at hi

/-- A possible label of a class in the bottom node stays possible. -/
theorem realize_keeps_possible_bottom :
    oneClass.Classifies isInstanceOfA ["b"] ∧
      (∀ i ∈ ["b"], ∀ n, Labels (fun _ => [⟨"U", false⟩]) nodeForName true n i →
        oneClass.HasInstance isInstanceOfA n i) ∧
      (∀ i ∈ ["b"], ∀ n, n ≠ oneClass.top → oneClass.HasInstance isInstanceOfA n i →
        ∃ known, Labels (fun _ => [⟨"U", false⟩]) nodeForName known n i) ∧
      ∃ m, (seedClassInstances oneClass.top (fun _ => [⟨"U", false⟩]) nodeForName ["b"]).realize
      oneClass isInstanceOfA = some m ∧ ∃ n i, m.conceptToElement.Possible n i := by
  have hnodes : ∀ n < oneClass.nodes.length, n = 0 ∨ n = 1 ∨ n = 2 := by decide
  refine ⟨classifies_oneClass _, ?_, ?_, ?_⟩
  · rintro i - n ⟨label, hlab, hknown, -⟩
    rw [mem_singleton.mp hlab] at hknown
    cases hknown
  · rintro i hi n htop ⟨e, he, hinst⟩
    rcases hnodes n (HasInstance.lt ⟨e, he, hinst⟩) with rfl | rfl | rfl
    · exact absurd rfl htop
    · cases he
      simp [isInstanceOfA] at hinst
    · cases he
      rw [mem_singleton.mp hi] at hinst
      simp [isInstanceOfA] at hinst
  · exact ⟨_, rfl, 1, "b", _, rfl, mem_singleton_self _⟩

end SeededClassInstanceManager

end Hermit
