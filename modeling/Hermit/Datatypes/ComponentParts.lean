import Hermit.Datatypes.Component
import Hermit.Library.Coloring

/-! # The parts of a component

Backtracking finds values for the nodes of a part just if there are some, and so does the
matching if the part is a clique.  As no edge leaves a part, the survivors have an assignment
just if every part has one.
-/

namespace Hermit.Datatypes

open Library List Option Function

variable {m : ℕ} {candidateIds : Fin m → List ℕ} {radjacent : Fin m → List (Fin m)} {valueCount : ℕ}

/-- Edges go both ways and do not return to their node. -/
structure Undirected {m : ℕ} (radjacent : Fin m → List (Fin m)) : Prop where
  symm : ∀ k nb, nb ∈ radjacent k → k ∈ radjacent nb
  irrefl : ∀ k, k ∉ radjacent k

/-- The nodes of a list have values of their own lists, different on neighbours. -/
abbrev Assignable (candidateIds : Fin m → List ℕ) (radjacent : Fin m → List (Fin m))
    (S : Set (Fin m)) : Prop :=
  Colorable (fun k nb => nb ∈ radjacent k) (fun k => {id | id ∈ candidateIds k}) S

/-! ## Backtracking -/

section

variable {order : List (Fin m)} (h : Undirected radjacent) (hnd : order.Nodup)
include h hnd

/-- The search succeeds just if the nodes can be given values that also differ from those chosen
for neighbours before. -/
theorem search_eq_true_iff {chosen : Fin m → Option ℕ} (hfree : ∀ k ∈ order, chosen k = none) :
    search candidateIds radjacent order chosen = true ↔ ∃ f : Fin m → ℕ,
    (∀ k ∈ order, f k ∈ candidateIds k) ∧
      (∀ k ∈ order, ∀ nb ∈ order, nb ∈ radjacent k → f k ≠ f nb) ∧
      ∀ k ∈ order, ∀ nb ∈ radjacent k, ∀ v, chosen nb = some v →
      (candidateIds nb)[v]? ≠ some (f k) := by
  induction order generalizing chosen with
  | nil => exact ⟨fun _ => ⟨fun _ => 0, nofun, nofun, nofun⟩, fun _ => rfl⟩
  | cons k order ih =>
    obtain ⟨hk, hnd⟩ := nodup_cons.mp hnd
    obtain ⟨hkfree, hfree⟩ := forall_mem_cons.mp hfree
    have hne : ∀ k' ∈ order, k' ≠ k := by
      rintro k' hk' rfl
      exact hk hk'
    have hfree' : ∀ v, ∀ k' ∈ order, Function.update chosen k (some v) k' = none := by
      intro v k' hk'
      rw [update_of_ne (hne k' hk')]
      exact hfree k' hk'
    rw [search, List.any_eq_true]
    constructor
    · rintro ⟨v, hv, hstep⟩
      rw [Bool.and_eq_true, Option.any_eq_true] at hstep
      obtain ⟨⟨id, hid, hfresh⟩, hsearch⟩ := hstep
      obtain ⟨f, hvals, hpairs, hch⟩ := (ih hnd (hfree' v)).mp hsearch
      -- Later neighbours avoid the value because it was chosen before them.
      have havoid : ∀ k' ∈ order, k' ∈ radjacent k → f k' ≠ id := by
        rintro k' hk' hadj rfl
        exact hch k' hk' k (h.symm k k' hadj) v (update_self ..) hid
      refine ⟨Function.update f k id, ?_, ?_, ?_⟩
      · refine forall_mem_cons.mpr ⟨?_, fun k' hk' => ?_⟩
        · rw [update_self]
          exact mem_of_getElem? hid
        · rw [update_of_ne (hne k' hk')]
          exact hvals k' hk'
      · refine forall_mem_cons.mpr ⟨forall_mem_cons.mpr ⟨?_, ?_⟩, fun k' hk' =>
          forall_mem_cons.mpr ⟨?_, ?_⟩⟩
        · exact fun hadj => absurd hadj (h.irrefl k)
        · intro nb hnb hadj
          rw [update_self, update_of_ne (hne nb hnb)]
          exact (havoid nb hnb hadj).symm
        · intro hadj
          rw [update_self, update_of_ne (hne k' hk')]
          exact havoid k' hk' (h.symm k' k hadj)
        · intro nb hnb hadj
          rw [update_of_ne (hne k' hk'), update_of_ne (hne nb hnb)]
          exact hpairs k' hk' nb hnb hadj
      · refine forall_mem_cons.mpr ⟨?_, fun k' hk' => ?_⟩
        · intro nb hadj w hw heq
          rw [update_self] at heq
          refine of_decide_eq_true hfresh (mem_filterMap.mpr ⟨nb, hadj, ?_⟩)
          rw [hw, bind_some, heq]
        · intro nb hadj w hw
          rw [update_of_ne (hne k' hk')]
          refine hch k' hk' nb hadj w ?_
          rw [update_of_ne fun heq => by rw [heq, hkfree] at hw; cases hw]
          exact hw
    · rintro ⟨f, hvals, hpairs, hch⟩
      obtain ⟨hkvalue, hvals⟩ := forall_mem_cons.mp hvals
      obtain ⟨hkpairs, hpairs⟩ := forall_mem_cons.mp hpairs
      obtain ⟨hkchosen, hch⟩ := forall_mem_cons.mp hch
      obtain ⟨v, hv⟩ := mem_iff_getElem?.mp hkvalue
      refine ⟨v, mem_range.mpr (List.getElem?_eq_some_iff.mp hv).1, ?_⟩
      rw [Bool.and_eq_true, Option.any_eq_true]
      refine ⟨⟨f k, hv, decide_eq_true fun htaken => ?_⟩,
        (ih hnd (hfree' v)).mpr ⟨f, hvals, ?_, ?_⟩⟩
      · obtain ⟨nb, hadj, hnb⟩ := mem_filterMap.mp htaken
        obtain ⟨w, hw, hid⟩ := bind_eq_some_iff.mp hnb
        exact hkchosen nb hadj w hw hid
      · exact fun k' hk' nb hnb => hpairs k' hk' nb (mem_cons_of_mem k hnb)
      · intro k' hk' nb hadj w hw
        by_cases heq : nb = k
        · subst heq
          rw [update_self] at hw
          rw [← some.inj hw, hv]
          exact fun heq => hkpairs k' (mem_cons_of_mem nb hk') (h.symm k' nb hadj) (some.inj heq)
        · rw [update_of_ne heq] at hw
          exact hch k' hk' nb hadj w hw

/-- Without earlier choices the search decides whether its nodes are assignable. -/
theorem search_eq_true_iff_assignable : search candidateIds radjacent order (fun _ => none) = true ↔
      Assignable candidateIds radjacent {k | k ∈ order} := by
  rw [search_eq_true_iff h hnd fun _ _ => rfl]
  constructor
  · rintro ⟨f, hvals, hpairs, -⟩
    exact ⟨f, hvals, hpairs⟩
  · rintro ⟨f, hvals, hpairs⟩
    exact ⟨f, hvals, hpairs, nofun⟩

end

section part

variable {members : List (Fin m)} (hnd : members.Nodup)
  (hcl : ∀ k ∈ members, ∀ nb ∈ radjacent k, nb ∈ members)

include hnd hcl

/-- Every member has all the others as neighbours. -/
theorem mem_radjacent_of_isCliquePart (hclq : isCliquePart radjacent members = true)
    {k k' : Fin m} (hk : k ∈ members) (hk' : k' ∈ members) (hne : k' ≠ k) : k' ∈ radjacent k := by
  have hlen := of_decide_eq_true (List.all_eq_true.mp hclq k hk)
  have hsub : ((radjacent k).filter fun nb => nb ≠ k).dedup ⊆ members.erase k := by
    intro nb hnb
    rw [mem_dedup, mem_filter] at hnb
    exact (hnd.mem_erase_iff).mpr ⟨of_decide_eq_true hnb.2, hcl k hk nb hnb.1⟩
  have hperm := (subperm_of_subset (nodup_dedup _) hsub).perm_of_length_le (by
    rw [hlen, length_erase_of_mem hk])
  have hmem := hperm.mem_iff.mpr ((hnd.mem_erase_iff).mpr ⟨hne, hk'⟩)
  rw [mem_dedup, mem_filter] at hmem
  exact hmem.1

theorem partSatisfiable_spec (h : Undirected radjacent)
    (hvals : ∀ k, ∀ id ∈ candidateIds k, id < valueCount) :
    ∃ b, partSatisfiable candidateIds radjacent valueCount members = some b ∧
      (b = true ↔ Assignable candidateIds radjacent {k | k ∈ members}) := by
  unfold partSatisfiable
  by_cases hclq : isCliquePart radjacent members = true
  · rw [if_pos hclq]
    obtain ⟨b, hb, hiff⟩ :=
      hasDistinctAssignment_spec (fun k : Fin members.length => candidateIds (members.get k))
      fun k id hid => hvals _ id hid
    refine ⟨b, hb, hiff.trans ?_⟩
    have hinj : Function.Injective members.get := nodup_iff_injective_get.mp hnd
    have hadj : ∀ a b, members.get b ∈ radjacent (members.get a) ↔ a ≠ b := by
      intro a b
      constructor
      · rintro hab rfl
        exact h.irrefl _ hab
      · intro hab
        exact mem_radjacent_of_isCliquePart hnd hcl hclq (List.get_mem ..) (List.get_mem ..)
          fun heq => hab (hinj heq).symm
    have hrng : {k | k ∈ members} = Set.range members.get := by
      rw [Set.range_list_get]
    rw [Assignable, hrng, colorable_range_iff hinj fun a b => (hadj a b).symm]
    constructor
    · rintro ⟨f, hf, hlists⟩
      exact ⟨f, fun a _ => hlists a, fun a _ b _ hne heq => hne (hf heq)⟩
    · rintro ⟨f, hlists, hne⟩
      refine ⟨f, fun a b heq => ?_, fun a => hlists a trivial⟩
      by_contra hab
      exact hne a trivial b trivial hab heq
  · rw [if_neg hclq]
    refine ⟨_, rfl, ?_⟩
    rw [search_eq_true_iff_assignable h ((mergeSort_perm members _).nodup_iff.mpr hnd)]
    have hset :
      {k | k ∈ members.mergeSort fun k k' => (candidateIds k).length ≤ (candidateIds k').length} =
        {k | k ∈ members} := by
      ext k
      exact (mergeSort_perm members _).mem_iff
    rw [hset]

end part

section gather

variable {component component₀ : Fin m → Option (Fin m)}

theorem foldl_meet (root : Fin m) (nbs pending : List (Fin m))
    (component : Fin m → Option (Fin m)) :
    ∃ component' found, nbs.foldl (meet root) (component, pending) =
    (component', pending ++ found) ∧ found.Nodup ∧
      (∀ k, k ∈ found ↔ k ∈ nbs ∧ component k = none) ∧ ∀ k, component' k = none ↔
      component k = none ∧ k ∉ nbs := by
  induction nbs generalizing pending component with
  | nil => exact ⟨component, [], by simp, nodup_nil, by simp, by simp⟩
  | cons nb nbs ih =>
    rw [foldl_cons, meet]
    by_cases hnone : component nb = none
    · rw [if_pos hnone]
      obtain ⟨component', found, hfold, hnd, hfnd, hmarks⟩ :=
        ih (pending ++ [nb]) (Function.update component nb (some root))
      have hupd : ∀ k, Function.update component nb (some root) k = none ↔
          component k = none ∧ k ≠ nb := by
        intro k
        by_cases heq : k = nb
        · subst heq
          simp
        · rw [update_of_ne heq]
          simp [heq]
      refine ⟨component', nb :: found, ?_, ?_, fun k => ?_, fun k => ?_⟩
      · rw [hfold, append_assoc, singleton_append]
      · refine nodup_cons.mpr ⟨fun hmem => ?_, hnd⟩
        exact ((hupd nb).mp ((hfnd nb).mp hmem).2).2 rfl
      · rw [mem_cons, hfnd, hupd, mem_cons]
        by_cases heq : k = nb
        · subst heq
          simp [hnone]
        · simp [heq]
      · rw [hmarks, hupd, mem_cons]
        tauto
    · rw [if_neg hnone]
      obtain ⟨component', found, hfold, hnd, hfnd, hmarks⟩ := ih pending component
      have hne : ∀ k, component k = none → k ≠ nb := by
        rintro k hk rfl
        exact hnone hk
      refine ⟨component', found, hfold, hnd, fun k => ?_, fun k => ?_⟩
      · rw [hfnd, mem_cons]
        exact ⟨fun hk => ⟨.inr hk.1, hk.2⟩, fun hk => ⟨hk.1.resolve_left (hne k hk.2), hk.2⟩⟩
      · rw [hmarks, mem_cons]
        exact and_congr_right fun hk => by simp [hne k hk]

/-- The nodes found so far are marked, were not marked before, and those treated have only marked
neighbours. -/
structure Gathering (radjacent : Fin m → List (Fin m))
    (component₀ component : Fin m → Option (Fin m))
    (done pending : List (Fin m)) : Prop where
  nodup : (done ++ pending).Nodup
  marked : ∀ k, component k = none ↔ component₀ k = none ∧ k ∉ done ++ pending
  fresh : ∀ k ∈ done ++ pending, component₀ k = none
  treated : ∀ k ∈ done, ∀ nb ∈ radjacent k, component nb ≠ none

theorem Gathering.gather {done pending : List (Fin m)}
    (h : Gathering radjacent component₀ component done pending)
    (root : Fin m) {fuel : ℕ} (hfuel : m ≤ done.length + fuel) :
    ∃ component' members, gather radjacent root fuel component done pending = some
    (component', members) ∧
      Gathering radjacent component₀ component' members [] ∧ ∀ k ∈ done ++ pending,
      k ∈ members := by
  induction fuel generalizing component done pending with
  | zero =>
    have hlen := h.nodup.length_le_card
    rw [length_append, Fintype.card_fin] at hlen
    obtain rfl : pending = [] := length_eq_zero_iff.mp (by omega)
    exact ⟨component, done, by rw [Datatypes.gather], h, by simp⟩
  | succ fuel ih =>
    cases pending with
    | nil => exact ⟨component, done, by rw [Datatypes.gather], h, by simp⟩
    | cons k pending =>
      obtain ⟨component', found, hfold, hnd, hfnd, hmarks⟩ :=
        foldl_meet root (radjacent k) pending component
      have hmoved : (done ++ [k]) ++ (pending ++ found) = (done ++ k :: pending) ++ found := by simp
      have hstep : Gathering radjacent component₀ component' (done ++ [k]) (pending ++ found) := {
        nodup := by
          rw [hmoved, nodup_append]
          refine ⟨h.nodup, hnd, fun a ha b hb => ?_⟩
          rintro rfl
          exact ((h.marked a).mp ((hfnd a).mp hb).2).2 ha
        marked := by
          intro a
          rw [hmarks, hmoved, mem_append, hfnd, h.marked]
          tauto
        fresh := by
          intro a ha
          rw [hmoved] at ha
          rcases mem_append.mp ha with ha | ha
          · exact h.fresh a ha
          · exact ((h.marked a).mp ((hfnd a).mp ha).2).1
        treated := by
          intro a ha nb hnb hnone
          have hold := (hmarks nb).mp hnone
          rcases mem_append.mp ha with ha | ha
          · exact h.treated a ha nb hnb hold.1
          · rw [mem_singleton.mp ha] at hnb
            exact hold.2 hnb }
      obtain ⟨component'', members, hgather, hend, hmems⟩ := ih hstep (by
        rw [length_append, length_singleton]
        omega)
      refine ⟨component'', members, ?_, hend, fun a ha => hmems a ?_⟩
      · rw [Datatypes.gather, hfold]
        exact hgather
      · rw [hmoved]
        exact mem_append_left found ha

/-- A part has no edge to the rest. -/
theorem exists_part (h : Undirected radjacent) (hcl : ∀ k, component k ≠ none →
      ∀ nb ∈ radjacent k, component nb ≠ none) {root : Fin m} (hroot : component root = none) :
    ∃ component' members, gather radjacent root m
    (Function.update component root (some root)) [] [root] =
        some (component', members) ∧ members.Nodup ∧
        (∀ k ∈ members, ∀ nb ∈ radjacent k, nb ∈ members) ∧
      root ∈ members ∧ (∀ k ∈ members, component k = none) ∧
      ∀ k, component' k = none ↔ component k = none ∧ k ∉ members := by
  have hst : Gathering radjacent component
    (Function.update component root (some root)) [] [root] := {
    nodup := nodup_singleton root
    marked := by
      intro k
      by_cases heq : k = root
      · subst heq
        simp
      · rw [update_of_ne heq]
        simp [heq]
    fresh := by
      intro k hk
      rwa [mem_singleton.mp hk]
    treated := nofun }
  obtain ⟨component', members, hgather, hend, hmems⟩ := hst.gather root
    (show m ≤ ([] : List (Fin m)).length + m by simp)
  have hnd := hend.nodup
  have hmark := hend.marked
  have hfresh := hend.fresh
  rw [append_nil] at hnd hmark hfresh
  refine ⟨component', members, hgather, hnd, fun k hk nb hnb => ?_,
      hmems root mem_cons_self, hfresh,
    hmark⟩
  by_contra hnot
  refine hend.treated k hk nb hnb ((hmark nb).mpr ⟨?_, hnot⟩)
  -- A neighbour that was marked before would have its own neighbours marked before.
  by_contra hbef
  exact hcl nb hbef k (h.symm k nb hnb) (hfresh k hk)

end gather

theorem someUnsatisfiable_spec (h : Undirected radjacent)
    (hvals : ∀ k, ∀ id ∈ candidateIds k, id < valueCount)
    {roots : List (Fin m)} {component : Fin m → Option (Fin m)}
    (hroots : ∀ k, component k = none → k ∈ roots)
    (hcl : ∀ k, component k ≠ none → ∀ nb ∈ radjacent k, component nb ≠ none) :
    ∃ b, someUnsatisfiable candidateIds radjacent valueCount roots component = some b ∧
      (b = true ↔ ¬ Assignable candidateIds radjacent {k | component k = none}) := by
  induction roots generalizing component with
  | nil =>
    have hemp : {k | component k = none} = (∅ : Set (Fin m)) := by
      ext k
      exact ⟨fun hk => absurd (hroots k hk) not_mem_nil, nofun⟩
    refine ⟨false, rfl, nofun, fun hnot => absurd ?_ hnot⟩
    rw [hemp]
    exact colorable_empty
  | cons root roots ih =>
    rw [someUnsatisfiable]
    by_cases hroot : component root = none
    · rw [if_neg (not_not_intro hroot)]
      obtain ⟨component', members, hgather, hnd, hmems, hmem, hfresh, hmark⟩ :=
        exists_part h hcl hroot
      obtain ⟨b, hb, hiff⟩ := partSatisfiable_spec hnd hmems h hvals
      rw [hgather, bind_eq_bind, bind_some]
      dsimp only
      rw [hb, bind_eq_bind, bind_some]
      have hunion : {k | component k = none} = {k | k ∈ members} ∪ {k | component' k = none} := by
        ext k
        change component k = none ↔ k ∈ members ∨ component' k = none
        rw [hmark]
        by_cases hk : k ∈ members
        · simp [hk, hfresh k hk]
        · simp [hk]
      have hno : ∀ k ∈ {k | k ∈ members}, ∀ nb ∈ {k | component' k = none}, ¬ nb ∈ radjacent k :=
        fun k hk nb hnb hadj => ((hmark nb).mp hnb).2 (hmems k hk nb hadj)
      rw [hunion, Assignable, colorable_union_iff h.symm hno]
      cases b with
      | false =>
        refine ⟨true, rfl, fun _ hboth => ?_, fun _ => rfl⟩
        cases hiff.mpr hboth.1
      | true =>
        have hroots' : ∀ k, component' k = none → k ∈ roots := by
          intro k hk
          obtain ⟨hold, hnot⟩ := (hmark k).mp hk
          refine (mem_cons.mp (hroots k hold)).resolve_left ?_
          rintro rfl
          exact hnot hmem
        have hcl' : ∀ k, component' k ≠ none → ∀ nb ∈ radjacent k, component' nb ≠ none := by
          intro k hk nb hnb hnone
          obtain ⟨hold, hnot⟩ := (hmark nb).mp hnone
          refine hk ((hmark k).mpr ⟨?_, fun hk' => hnot (hmems k hk' nb hnb)⟩)
          by_contra hbef
          exact hcl k hbef nb hnb hold
        obtain ⟨b, hb, hrest⟩ := ih hroots' hcl'
        refine ⟨b, hb, hrest.trans (not_congr ?_)⟩
        exact ⟨fun hassign => ⟨hiff.mp rfl, hassign⟩, fun hboth => hboth.2⟩
    · rw [if_pos hroot]
      refine ih (fun k hk => (mem_cons.mp (hroots k hk)).resolve_left ?_) hcl
      rintro rfl
      exact hroot hk

end Hermit.Datatypes
