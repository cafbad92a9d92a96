import Hermit.Tableau.GraphConstraints

/-! # Images of graph tuples

The images of the stored tuples under the merges are stored in the runs in which no merge takes
away a node that an active tuple has at two places and no check has anything to merge.  While a
check runs, the manager is not in its place, and the merges that the check makes rewrite no tuple.
-/

namespace Hermit

open List hiding le_antisymm
open Option

open DescriptionGraphManager

namespace GraphTableau

variable {merging : Merging} {s s' : GraphTableau}

/-! ## Images -/

/-- The node that a merged one was merged into. -/
def MergedInto (s : GraphTableau) (node mergeInto : ℕ) : Prop :=
  (node, some mergeInto) ∈ s.mergedOrPruned

/-- A tuple with its nodes replaced along the merges. -/
def IsImage (s : GraphTableau) (tuple image : List ℕ) : Prop :=
  List.Forall₂ (Relation.ReflTransGen s.MergedInto) tuple image

/-- The active images of the stored tuples are stored. -/
def StoresImages (s : GraphTableau) : Prop :=
  ∀ g tuple image, s.manager.Stored g tuple → s.IsImage tuple image → s.tupleIsActive image →
    s.manager.Stored g image

/-- The tuples that a check compares with each other agree on the active nodes of the checked one.
-/
def NothingToMerge (s : GraphTableau) : Prop :=
  ∀ x ∈ s.manager.tables, ∀ tuple ∈ x.propagateDeltaNew.2.deltaOld, ∀ other ∈ x.tuples,
    s.tupleIsActive other →
    (∃ k : ℕ, ∃ n, tuple.1[k]? = some n ∧ other[k]? = some n) →
    ∀ (k : ℕ) n n', tuple.1[k]? = some n → other[k]? = some n' → s.isActive n → n = n'

/-- A merge takes away a node that the active tuples have at one place only, and a check has nothing
to merge. -/
def Harmless (merging : Merging) (s : GraphTableau) : Action → Prop
  | .merge node0 node1 =>
    let mergeFrom := (s.chooseMergeDirection merging node0 node1).1
    ∀ g tuple, s.manager.Stored g tuple → (s.pruneSuccessors mergeFrom).tupleIsActive tuple →
      ∀ (i k : ℕ), tuple[i]? = some mergeFrom → tuple[k]? = some mergeFrom → i = k
  | .propagate => s.clash = true ∨ s.NothingToMerge
  | _ => True

/-- The nodes that a node was created under come before it, and they are active as long as it is. -/
def Rooted (s : GraphTableau) : Prop :=
  ∀ (n p : ℕ), s.parents[n]? = some (some p) → p < n ∧ (s.isActive n = true → s.isActive p = true)

/-! ### Merges -/

variable {n p g : ℕ} {tuple : List ℕ}

theorem isActive_pruneNode {node : ℕ} :
    (s.pruneNode node).isActive n = true ↔ s.isActive n = true ∧ node ≠ n := by
  simp only [isActive_iff, pruneNode, forall_mem_cons]
  tauto

theorem prunes_iff {a : ℕ} (h : s.parents[n]? = some (some p)) :
    s.prunes a n = true ↔ s.isActive n = true ∧ (s.isActive p = true → p = a) := by
  simp only [prunes, h, Bool.and_eq_true, Bool.or_eq_true, Bool.not_eq_true', beq_iff_eq,
    ← Bool.not_eq_true]
  tauto

/-- The step of the walk over the nodes. -/
def pruneSuccessor (s : GraphTableau) (a current : ℕ) : GraphTableau :=
  if s.prunes a current then s.pruneNode current else s

theorem parents_pruneSuccessor (s : GraphTableau) (a current : ℕ) :
    (s.pruneSuccessor a current).parents = s.parents := by
  rw [pruneSuccessor]
  split_ifs <;> rfl

theorem isActive_pruneSuccessor {a current : ℕ} : (s.pruneSuccessor a current).isActive n = true ↔
      s.isActive n = true ∧ ¬(n = current ∧ s.prunes a current = true) := by
  rw [pruneSuccessor]
  split_ifs with h
  · rw [isActive_pruneNode]
    simp only [h, and_true]
    tauto
  · simp [h]

/-- Below the nodes that have been looked at, the active ones have active parents, none of them
the merged node. -/
theorem parent_of_foldl_prune {a : ℕ} (count start : ℕ)
    (hlt : ∀ (n p : ℕ), s.parents[n]? = some (some p) → p < n)
    (hstart : ∀ (n p : ℕ), n < start → s.parents[n]? = some (some p) → s.isActive n = true →
      s.isActive p = true ∧ p ≠ a) :
    ∀ (n p : ℕ), n < start + count → s.parents[n]? = some (some p) →
      ((List.range' start count).foldl (fun s current => s.pruneSuccessor a current) s).isActive n =
      true →
      ((List.range' start count).foldl (fun s current => s.pruneSuccessor a current) s).isActive p =
      true ∧ p ≠ a := by
  induction count generalizing start s with
  | zero => exact hstart
  | succ count ih =>
    intro n p hn hp hact
    rw [range'_succ, foldl_cons] at hact ⊢
    have hpars := s.parents_pruneSuccessor a start
    refine ih (start + 1) (hpars.symm ▸ hlt) ?_ n p (by omega) (hpars.symm ▸ hp) hact
    · intro n p hn hp hact
      rw [hpars] at hp
      have hpn := hlt n p hp
      rw [isActive_pruneSuccessor] at hact ⊢
      obtain ⟨hact, hkept⟩ := hact
      -- The node that was looked at last goes if its parent is not there to stay.
      have hpar : s.isActive p = true ∧ p ≠ a := by
        rcases Nat.lt_succ_iff_lt_or_eq.mp hn with hn | rfl
        · exact hstart n p hn hp hact
        · rw [prunes_iff hp] at hkept
          tauto
      exact ⟨⟨hpar.1, fun h => by omega⟩, hpar.2⟩

theorem Rooted.pruneSuccessors (h : s.Rooted) {a : ℕ} (hp : s.parents[n]? = some (some p))
    (hn : (s.pruneSuccessors a).isActive n = true) :
    (s.pruneSuccessors a).isActive p = true ∧ p ≠ a := by
  have hlt : n < s.parents.length := (List.getElem?_eq_some_iff.mp hp).1
  apply parent_of_foldl_prune (s.parents.length - a) a (fun n p hp => (h n p hp).1) _ n p _ hp hn
  · intro n p hn hp hact
    obtain ⟨hpn, hpar⟩ := h n p hp
    exact ⟨hpar hact, by omega⟩
  · omega

/-- The merged node is not pruned itself. -/
theorem Rooted.isActive_pruneSuccessors (h : s.Rooted) {a : ℕ} (ha : s.isActive a = true) :
    (s.pruneSuccessors a).isActive a = true := by
  have hkept : (s.pruneSuccessors a).parents = s.parents ∧
      ∀ n ≤ a, (s.pruneSuccessors a).isActive n = true ↔ s.isActive n = true := by
    apply List.foldlRecOn (motive := fun s' : GraphTableau =>
      s'.parents = s.parents ∧ ∀ n ≤ a, s'.isActive n = true ↔ s.isActive n = true)
    · exact ⟨rfl, fun _ _ => Iff.rfl⟩
    · rintro s' ⟨hpars, hact⟩ current hcur
      obtain ⟨hle, -⟩ := mem_range'_1.mp hcur
      refine ⟨(s'.parents_pruneSuccessor a current).trans hpars, fun n hn => ?_⟩
      refine (isActive_pruneSuccessor (a := a)).trans ?_
      rw [hact n hn]
      -- Only the merged node itself could go, and its parent stays.
      have hstays : ¬(n = current ∧ s'.prunes a current = true) := by
        rintro ⟨rfl, hprunes⟩
        cases le_antisymm hn hle
        cases hp : s'.parents[a]? with
        | none => simp [prunes, hp] at hprunes
        | some parent =>
          cases parent with
          | none => simp [prunes, hp] at hprunes
          | some p =>
            obtain ⟨hpn, hpar⟩ := h a p (hpars ▸ hp)
            have hkeep := ((prunes_iff hp).mp hprunes).2 ((hact p hpn.le).mpr (hpar ha))
            omega
      simp only [hstays, not_false_eq_true, and_true]
  exact (hkept.2 a le_rfl).mpr ha

/-! ### Images under a merge -/

section Merge

variable {a b : ℕ} {removed : List (ℕ × Option ℕ)}

variable (ha : s.isActive a = true) (hb : s.isActive b = true) (hab : a ≠ b)
  (hrem : ∀ e ∈ removed, e.2 = none)
  (hmg : s'.mergedOrPruned = (a, some b) :: (removed ++ s.mergedOrPruned))
include ha hb hab hrem hmg

theorem path_of_merge {n n' : ℕ} (h : Relation.ReflTransGen s'.MergedInto n n') :
    Relation.ReflTransGen s.MergedInto n n' ∨ Relation.ReflTransGen s.MergedInto n a ∧ n' = b := by
  have hstep : ∀ m k, s'.MergedInto m k → s.MergedInto m k ∨ m = a ∧ k = b := by
    intro m k hmk
    rw [MergedInto, hmg, mem_cons, mem_append] at hmk
    rcases hmk with hmk | hmk | hmk
    · cases hmk
      exact .inr ⟨rfl, rfl⟩
    · cases hrem _ hmk
    · exact .inl hmk
  have hstays : ∀ m k, s.isActive m = true → ¬ s.MergedInto m k := by
    intro m k hm hmk
    exact (isActive_iff.mp hm).2 _ hmk rfl
  induction h with
  | refl => exact .inl .refl
  | tail _ hlast ih =>
    rcases ih with hpath | ⟨hpath, rfl⟩
    · rcases hstep _ _ hlast with hold | ⟨rfl, rfl⟩
      · exact .inl (hpath.tail hold)
      · exact .inr ⟨hpath, rfl⟩
    · rcases hstep _ _ hlast with hold | ⟨rfl, rfl⟩
      · exact absurd hold (hstays _ _ hb)
      · exact absurd rfl hab

/-- An image after one more merge is an image before it, with the other node in the place of the
merged one. -/
theorem image_of_merge {tuple image : List ℕ} (h : s'.IsImage tuple image) :
    ∃ before, s.IsImage tuple before ∧ List.Forall₂
    (fun n n' => n' = n ∨ n = a ∧ n' = b) before image := by
  induction h with
  | nil => exact ⟨[], .nil, .nil⟩
  | cons hpath _ ih =>
    obtain ⟨before, him, hrepl⟩ := ih
    rcases path_of_merge ha hb hab hrem hmg hpath with hpath | ⟨hpath, rfl⟩
    · exact ⟨_ :: before, .cons hpath him, .cons (.inl rfl) hrepl⟩
    · exact ⟨a :: before, .cons hpath him, .cons (.inr ⟨rfl, rfl⟩) hrepl⟩

end Merge

/-- A node that no merge has taken away is its own image. -/
theorem IsImage.eq_self {image : List ℕ} (h : s.IsImage tuple image)
    (hact : ∀ n ∈ tuple, ∀ k, ¬ s.MergedInto n k) : image = tuple := by
  induction h with
  | nil => rfl
  | @cons n n' _ _ hpath _ ih =>
    have hhead : n = n' := by
      rcases hpath.cases_head with heq | ⟨k, hk, -⟩
      · exact heq
      · exact absurd hk (hact n mem_cons_self k)
    rw [← hhead, ih fun n hn => hact n (mem_cons_of_mem _ hn)]

theorem forall_mem_of_replaced {a b : ℕ} {before image : List ℕ} {Q : ℕ → Prop}
    (h : List.Forall₂ (fun n n' => n' = n ∨ n = a ∧ n' = b) before image) (ha : Q a)
    (himage : ∀ n ∈ image, Q n) : ∀ n ∈ before, Q n := by
  induction h with
  | nil => exact himage
  | cons hn _ ih =>
    obtain ⟨hfirst, hrest⟩ := forall_mem_cons.mp himage
    refine forall_mem_cons.mpr ⟨?_, ih hrest⟩
    rcases hn with rfl | ⟨rfl, -⟩
    · exact hfirst
    · exact ha

/-- A tuple with the merged node at one place only is the one that the merge stores. -/
theorem eq_set_of_replaced {a b : ℕ} {before image : List ℕ}
    (h : List.Forall₂ (fun n n' => n' = n ∨ n = a ∧ n' = b) before image) (ha : a ∉ image)
    (honce : ∀ (i k : ℕ), before[i]? = some a → before[k]? = some a → i = k) :
    image = before ∨ ∃ p : ℕ, before[p]? = some a ∧ image = before.set p b := by
  have hlen := h.length_eq
  have hat : ∀ i (hi : i < before.length) (hi' : i < image.length),
      image[i] = before[i] ∨ before[i] = a ∧ image[i] = b := by
    intro i hi hi'
    exact (forall₂_iff_get.mp h).2 i hi hi'
  by_cases hmem : a ∈ before
  · obtain ⟨p, hp, hpa⟩ := getElem_of_mem hmem
    refine .inr ⟨p, List.getElem?_eq_some_iff.mpr ⟨hp, hpa⟩, ?_⟩
    apply ext_getElem (by simp [hlen])
    intro i hi hi'
    have hi'' : i < before.length := hlen ▸ hi
    rw [getElem_set]
    split_ifs with hip
    · subst hip
      rcases hat p hp hi with heq | ⟨-, heq⟩
      · exact absurd (heq.trans hpa ▸ getElem_mem hi) ha
      · exact heq
    · rcases hat i hi'' hi with heq | ⟨heq, -⟩
      · exact heq
      · exact absurd (honce p i (List.getElem?_eq_some_iff.mpr ⟨hp, hpa⟩)
          (List.getElem?_eq_some_iff.mpr ⟨hi'', heq⟩)) hip
  · left
    apply ext_getElem hlen.symm
    intro i hi hi'
    rcases hat i hi' hi with heq | ⟨heq, -⟩
    · exact heq
    · exact absurd (heq ▸ getElem_mem hi') hmem

theorem mergedOrPruned_pruneSuccessors (s : GraphTableau) (a : ℕ) :
    (s.pruneSuccessors a).parents = s.parents ∧ ∃ removed, (∀ e ∈ removed, e.2 = none) ∧
      (s.pruneSuccessors a).mergedOrPruned = removed ++ s.mergedOrPruned := by
  apply List.foldlRecOn (motive := fun s' : GraphTableau => s'.parents = s.parents ∧
    ∃ removed, (∀ e ∈ removed, e.2 = none) ∧ s'.mergedOrPruned = removed ++ s.mergedOrPruned)
  · exact ⟨rfl, [], by simp, rfl⟩
  · rintro s' ⟨hpars, removed, hnone, heq⟩ current _
    split_ifs
    · refine ⟨hpars, (current, none) :: removed, ?_, by simp [pruneNode, heq]⟩
      simpa using hnone
    · exact ⟨hpars, removed, hnone, heq⟩

theorem stored_mergeGraphs {a b : ℕ} : (s.mergeGraphs a b).manager.Stored g tuple ↔
    s.manager.Stored g tuple ∨ (g, tuple) ∈ s.rewrittenTuples a b ∧
    g < s.manager.tables.length := by
  rw [mergeGraphs]
  split_ifs with hgs
  · exact stored_foldl_addTuple
  · have hemp : s.manager.tables = [] := by
      simpa [hasDescriptionGraphs] using hgs
    simp [hemp]

theorem mem_rewrittenTuples {a b : ℕ} : (g, tuple) ∈ s.rewrittenTuples a b ↔
    ∃ r ∈ s.manager.occurrences a, ∃ old, s.manager.tupleAt r.graphIndex r.tupleIndex = some old ∧
      s.tupleIsActive old = true ∧ g = r.graphIndex ∧
      tuple = old.set (r.positionInTuple - 1) b := by
  simp only [rewrittenTuples, mem_filterMap, bind_eq_some_iff, ite_none_right_eq_some,
    some.injEq, Prod.mk.injEq]
  constructor
  · rintro ⟨r, hr, old, hold, hact, rfl, rfl⟩
    exact ⟨r, hr, old, hold, hact, rfl, rfl⟩
  · rintro ⟨r, hr, old, hold, hact, rfl, rfl⟩
    exact ⟨r, hr, old, hold, hact, rfl, rfl⟩

theorem mergeNodes_of_inactive {node0 node1 : ℕ} (h : s.isActive node0 = false) :
    s.mergeNodes merging node0 node1 = s := by
  rw [mergeNodes, if_pos (by simp [h])]

theorem mergeTuples_of_agree {first second : List ℕ}
    (h : ∀ (k : ℕ) n n', first[k]? = some n → second[k]? = some n' → s.isActive n = true → n = n') :
    s.mergeTuples merging first second = s := by
  have hpairs : ∀ nodes ∈ first.zip second, nodes.1 ≠ nodes.2 → s.isActive nodes.1 = false := by
    intro nodes hnodes hne
    obtain ⟨k, hk⟩ := mem_iff_getElem?.mp hnodes
    obtain ⟨h1, h2⟩ := getElem?_zip_eq_some.mp hk
    rw [← Bool.not_eq_true]
    exact fun hact => hne (h k _ _ h1 h2 hact)
  rw [mergeTuples]
  generalize first.zip second = pairs at hpairs
  induction pairs with
  | nil => rfl
  | cons nodes rest ih =>
    rw [foldr_cons, ih fun x hx => hpairs x (mem_cons_of_mem _ hx)]
    split_ifs with hne
    · exact mergeNodes_of_inactive (hpairs nodes mem_cons_self hne)
    · rfl

theorem checkOccurrence_of_agree {m : DescriptionGraphManager} {i : ℕ} {other : List ℕ}
    {r : Occurrence} (hoth : m.tupleAt r.graphIndex r.tupleIndex = some other)
    (h : r.graphIndex = g → r.positionInTuple = p → s.tupleIsActive other = true →
      s.mergeTuples merging tuple other = s) :
    ∃ c, checkOccurrence merging m g i tuple p s r = { s with clash := c } := by
  rw [checkOccurrence]
  split
  · rename_i hgraph
    simp only [Bool.and_eq_true, beq_iff_eq] at hgraph
    rw [← hgraph.1, hoth]
    dsimp only
    split
    · split
      · rw [h hgraph.1 ‹_› ‹_›]
        exact ⟨s.clash, rfl⟩
      · exact ⟨true, rfl⟩
    · exact ⟨s.clash, rfl⟩
  · exact ⟨s.clash, rfl⟩

/-- A check that finds nothing to merge changes at most the clash. -/
theorem checkGraphConstraints_of_agree (hexact : s.manager.ExactOccurrences)
    (h : ∀ x ∈ s.manager.tables, ∀ tuple ∈ x.deltaOld, ∀ other ∈ x.tuples,
      s.tupleIsActive other = true → (∃ k : ℕ, ∃ n, tuple.1[k]? = some n ∧ other[k]? = some n) →
      ∀ (k : ℕ) n n', tuple.1[k]? = some n → other[k]? = some n' → s.isActive n = true → n = n') :
    ∃ c, s.checkGraphConstraints merging = { s with clash := c } := by
  rw [checkGraphConstraints]
  split_ifs
  · have hfold : ∃ c, s.manager.tables.zipIdx.foldl (checkTable merging s.manager)
      { s with manager := {} } = { s with manager := {}, clash := c } := by
      apply List.foldlRecOn (motive := fun σ : GraphTableau => ∃ c,
        σ = { s with manager := {}, clash := c })
      · exact ⟨s.clash, rfl⟩
      intro σ hσ table htable
      have hx := mem_of_getElem? (mk_mem_zipIdx_iff_getElem?.mp htable)
      rw [checkTable]
      split_ifs
      · exact hσ
      apply List.foldlRecOn (motive := fun σ : GraphTableau => ∃ c,
        σ = { s with manager := {}, clash := c })
      · exact hσ
      intro σ hσ tuple htup
      rw [checkTuple]
      split_ifs
      · exact hσ
      apply List.foldlRecOn (motive := fun σ : GraphTableau => ∃ c,
        σ = { s with manager := {}, clash := c })
      · exact hσ
      intro σ hσ node hnode
      have hposn := mk_mem_zipIdx_iff_le_and_getElem?_sub.mp hnode
      apply List.foldlRecOn (motive := fun σ : GraphTableau => ∃ c,
        σ = { s with manager := {}, clash := c })
      · exact hσ
      rintro σ ⟨c, rfl⟩ r hr
      obtain ⟨-, other, hoth, hplace⟩ := ((hexact node.1).2 r).mp hr
      apply checkOccurrence_of_agree hoth
      intro hgraph hsame hact
      apply mergeTuples_of_agree
      obtain ⟨x, hx', hmem⟩ := tupleAt_eq_some.mp hoth
      rw [hgraph, mk_mem_zipIdx_iff_getElem?.mp htable] at hx'
      cases hx'
      rw [hsame] at hplace
      exact h table.1 hx tuple htup other (mem_of_getElem? hmem) hact ⟨_, _, hposn.2, hplace⟩
    obtain ⟨c, hc⟩ := hfold
    refine ⟨c, ?_⟩
    simp only [hc]
  · exact ⟨s.clash, rfl⟩

/-! ### Steps -/

/-- What steps without harm keep. -/
structure Imaged (s : GraphTableau) : Prop where
  checked : s.Checked
  rooted : s.Rooted
  targets : ∀ e ∈ s.mergedOrPruned, ∀ k ∈ e.2, k < s.parents.length
  images : s.StoresImages

namespace Imaged

theorem inRange (h : Imaged s) {g : ℕ} {tuple image : List ℕ} (ht : s.manager.Stored g tuple)
    (him : s.IsImage tuple image) : ∀ n ∈ image, n < s.parents.length := by
  obtain ⟨x, hx, htup⟩ := ht
  have hrng := h.checked.inRange x (mem_of_getElem? hx) tuple htup
  clear htup
  induction him with
  | nil => exact fun _ hn => by cases hn
  | @cons n n' _ _ hpath _ ih =>
    intro m hm
    rcases mem_cons.mp hm with rfl | hm
    · rcases hpath.cases_tail with heq | ⟨k, -, hk⟩
      · rw [heq]
        exact hrng n mem_cons_self
      · exact h.targets _ hk m rfl
    · exact ih (fun k hk => hrng k (mem_cons_of_mem _ hk)) m hm

theorem createNode (h : Imaged s) {parent : Option ℕ} (hpar : ∀ p ∈ parent, s.isActive p = true) :
    Imaged (s.createNode parent) := by
  constructor
  · exact h.checked.createNode parent
  · intro n p hp
    by_cases hn : n < s.parents.length
    · have hold : s.parents[n]? = some (some p) := by
        simpa [GraphTableau.createNode, getElem?_append_left hn] using hp
      obtain ⟨hpn, hkeep⟩ := h.rooted n p hold
      refine ⟨hpn, fun hact => ?_⟩
      rw [isActive_createNode hn] at hact
      rw [isActive_createNode (hpn.trans hn)]
      exact hkeep hact
    · have hlast : n = s.parents.length ∧ parent = some p := by
        have hlt := (List.getElem?_eq_some_iff.mp hp).1
        have heq : n = s.parents.length := by
          simp only [GraphTableau.createNode, length_append, length_singleton] at hlt
          omega
        subst heq
        simpa [GraphTableau.createNode] using hp
      obtain ⟨rfl, rfl⟩ := hlast
      have hact := hpar p rfl
      have hlt := (isActive_iff.mp hact).1
      refine ⟨hlt, fun _ => ?_⟩
      rw [isActive_createNode hlt]
      exact hact
  · intro e he k hk
    have := h.targets e he k hk
    simp only [GraphTableau.createNode, length_append, length_singleton]
    omega
  · intro g tuple image ht him hact
    have him' : s.IsImage tuple image := him
    apply h.images g tuple image ht him'
    rw [tupleIsActive_iff] at hact ⊢
    intro n hn
    rw [← isActive_createNode (h.inRange ht him' n hn)]
    exact hact n hn

theorem addTuple (h : Imaged s) {g : ℕ} {tuple : List ℕ} (hlen : s.manager.Fits g tuple)
    (hact : s.tupleIsActive tuple = true) : Imaged
    { s with manager := s.manager.addTuple g tuple } := by
  rw [tupleIsActive_iff] at hact
  constructor
  · exact h.checked.addTuple g tuple hlen fun n hn => (isActive_iff.mp (hact n hn)).1
  · exact h.rooted
  · exact h.targets
  · intro g' tuple' image ht him hact'
    apply stored_addTuple.mpr
    rcases stored_addTuple.mp ht with hold | ⟨rfl, rfl, hlt⟩
    · exact .inl (h.images g' tuple' image hold him hact')
    · have hself : image = tuple' := by
        apply IsImage.eq_self him
        intro n hn k hk
        exact (isActive_iff.mp (hact n hn)).2 _ hk rfl
      exact .inr ⟨rfl, hself, hlt⟩

/-- Steps that change neither the nodes nor the stored tuples. -/
theorem of_same (h : Imaged s) (hchk : s'.Checked)
    (hst : ∀ g tuple, s'.manager.Stored g tuple ↔ s.manager.Stored g tuple)
    (hpars : s'.parents = s.parents) (hmg : s'.mergedOrPruned = s.mergedOrPruned) :
    Imaged s' := by
  have hnode : s'.isActive = s.isActive := by
    funext node
    rw [isActive, isActive, hpars, hmg]
  have hinto : s'.MergedInto = s.MergedInto := by
    funext n k
    rw [MergedInto, MergedInto, hmg]
  constructor
  · exact hchk
  · rw [Rooted, hpars, hnode]
    exact h.rooted
  · rw [hmg, hpars]
    exact h.targets
  · intro g tuple image ht him hact
    rw [hst] at ht ⊢
    rw [IsImage, hinto] at him
    rw [tupleIsActive, hnode] at hact
    exact h.images g tuple image ht him hact

theorem mergeNodes (h : Imaged s) {node0 node1 : ℕ}
    (hharm : Harmless merging s (.merge node0 node1)) :
    Imaged (s.mergeNodes merging node0 node1) := by
  have hchk : (s.mergeNodes merging node0 node1).Checked := h.checked.mergeNodes node0 node1
  rcases mergeNodes_cases merging s node0 node1 with ⟨heq, -⟩ | ⟨a, b, hdir, ha, hb, hab, heq⟩
  · rw [heq]
    exact h
  obtain ⟨hpars, removed, hrem, hprn⟩ := mergedOrPruned_pruneSuccessors s a
  have hman : (s.pruneSuccessors a).manager = s.manager := (shrinks_pruneSuccessors s a).manager_eq
  have hmg : (s.mergeNodes merging node0 node1).mergedOrPruned =
      (a, some b) :: (removed ++ s.mergedOrPruned) := by
    rw [heq, hprn]
  have hpars' : (s.mergeNodes merging node0 node1).parents = s.parents := by
    rw [heq, hpars]
  -- What is active after the merge was so after the pruning, and it is not the merged node.
  have hact : ∀ n, (s.mergeNodes merging node0 node1).isActive n = true ↔
      (s.pruneSuccessors a).isActive n = true ∧ n ≠ a := by
    intro n
    simp only [isActive_iff, hpars', hpars, hmg, hprn, forall_mem_cons]
    rw [ne_comm]
    tauto
  have hold : ∀ n, (s.pruneSuccessors a).isActive n = true → s.isActive n = true :=
    fun n => (shrinks_pruneSuccessors s a).isActive
  have hst : ∀ g tuple, (s.mergeNodes merging node0 node1).manager.Stored g tuple ↔
    s.manager.Stored g tuple ∨
      (g, tuple) ∈ (s.pruneSuccessors a).rewrittenTuples a b ∧ g < s.manager.tables.length := by
    intro g tuple
    rw [heq, ← hman]
    exact stored_mergeGraphs
  have honce : ∀ g tuple, s.manager.Stored g tuple →
    (s.pruneSuccessors a).tupleIsActive tuple = true →
      ∀ (i k : ℕ), tuple[i]? = some a → tuple[k]? = some a → i = k := by
    simpa [Harmless, hdir] using hharm
  constructor
  · exact hchk
  · intro n p hp
    rw [hpars'] at hp
    refine ⟨(h.rooted n p hp).1, fun hn => ?_⟩
    exact (hact p).mpr (h.rooted.pruneSuccessors hp ((hact n).mp hn).1)
  · rw [hmg, hpars']
    intro e he k hk
    rcases mem_cons.mp he with rfl | he
    · cases hk
      exact (isActive_iff.mp hb).1
    · rcases mem_append.mp he with he | he
      · rw [hrem e he] at hk
        cases hk
      · exact h.targets e he k hk
  · intro g tuple image ht him himageActive
    rw [tupleIsActive_iff] at himageActive
    rcases (hst g tuple).mp ht with ht | ⟨ht, hlt⟩
    · -- The image before the merge is stored, and so its image is among the rewritten tuples.
      obtain ⟨before, hbef, hrepl⟩ := image_of_merge ha hb hab hrem hmg him
      have hbeforeActive : ∀ n ∈ before, (s.pruneSuccessors a).isActive n = true :=
        forall_mem_of_replaced (Q := fun n => (s.pruneSuccessors a).isActive n = true) hrepl
          (h.rooted.isActive_pruneSuccessors ha) fun n hn => ((hact n).mp (himageActive n hn)).1
      have hbst : s.manager.Stored g before :=
        h.images g tuple before ht hbef (tupleIsActive_iff.mpr fun n hn =>
            hold n (hbeforeActive n hn))
      have hgone : a ∉ image := fun hmem => ((hact a).mp (himageActive a hmem)).2 rfl
      rcases eq_set_of_replaced hrepl hgone
        (honce g before hbst (tupleIsActive_iff.mpr hbeforeActive)) with rfl | ⟨p, hp, rfl⟩
      · exact (hst g _).mpr (.inl hbst)
      · obtain ⟨i, hi⟩ := stored_iff.mp hbst
        obtain ⟨x, hx, -⟩ := hbst
        refine (hst g _).mpr (.inr ⟨?_, (List.getElem?_eq_some_iff.mp hx).1⟩)
        apply mem_rewrittenTuples.mpr
        refine ⟨⟨g, i, p + 1⟩, ?_, before, ?_, tupleIsActive_iff.mpr hbeforeActive, rfl, rfl⟩
        · rw [hman]
          exact ((h.checked.exact a).2 _).mpr ⟨Nat.le_add_left 1 p, before, hi, hp⟩
        · rw [hman]
          exact hi
    · -- The nodes of a rewritten tuple are active, and none of them is the merged one.
      obtain ⟨r, hr, old, hat, holdActive, rfl, rfl⟩ := mem_rewrittenTuples.mp ht
      rw [hman] at hr hat
      obtain ⟨-, old', hat', hplace⟩ := ((h.checked.exact a).2 r).mp hr
      cases hat.symm.trans hat'
      have holdStored : s.manager.Stored r.graphIndex old := stored_iff.mpr ⟨_, hat⟩
      have hself : image = old.set (r.positionInTuple - 1) b := by
        apply IsImage.eq_self him
        intro n hn k hk
        obtain ⟨i, hi, rfl⟩ := getElem_of_mem hn
        have hn' : (s.isActive (old.set (r.positionInTuple - 1) b)[i] = true) ∧
            (old.set (r.positionInTuple - 1) b)[i] ≠ a := by
          rw [getElem_set]
          have hi' : i < old.length := by simpa using hi
          split_ifs with hri
          · exact ⟨hb, Ne.symm hab⟩
          · refine ⟨hold _ (tupleIsActive_iff.mp holdActive _ (getElem_mem hi')), fun heq => hri ?_⟩
            exact honce _ old holdStored holdActive _ i hplace
              (List.getElem?_eq_some_iff.mpr ⟨hi', heq⟩)
        rw [MergedInto, hmg, mem_cons, mem_append] at hk
        rcases hk with hk | hk | hk
        · exact hn'.2 (congrArg Prod.fst hk)
        · cases hrem _ hk
        · exact (isActive_iff.mp hn'.1).2 _ hk rfl
      rw [hself]
      exact (hst _ _).mpr (.inr ⟨ht, hlt⟩)

theorem propagate (h : Imaged s) (hbnd : s.Bounded) (hharm : Harmless merging s .propagate) :
    Imaged (s.propagate merging) := by
  have hchk : (s.propagate merging).Checked := h.checked.propagate hbnd
  have hst : ∀ g tuple, s.manager.propagateDeltaNew.2.Stored g tuple ↔
      s.manager.Stored g tuple := by
    intro g tuple
    simp only [Stored, propagateDeltaNew, getElem?_map, map_eq_some_iff]
    constructor
    · rintro ⟨_, ⟨x, hx, rfl⟩, ht⟩
      exact ⟨x, hx, ht⟩
    · rintro ⟨x, hx, ht⟩
      exact ⟨_, ⟨x, hx, rfl⟩, ht⟩
  rw [GraphTableau.propagate] at hchk ⊢
  dsimp only at hchk ⊢
  split_ifs at hchk ⊢ with hgo
  · have hexact : s.manager.propagateDeltaNew.2.ExactOccurrences := by
      refine h.checked.exact.congr ?_ rfl
      simp [propagateDeltaNew, GraphTable.propagateDeltaNew]
    have hsame : ∃ c, checkGraphConstraints merging
      { s with manager := s.manager.propagateDeltaNew.2 } =
        { s with manager := s.manager.propagateDeltaNew.2, clash := c } := by
      apply checkGraphConstraints_of_agree hexact
      intro x hx
      obtain ⟨y, hy, rfl⟩ := List.mem_map.mp hx
      rcases hharm with hclash | hnothing
      · simp [hclash] at hgo
      · exact hnothing y hy
    obtain ⟨c, hc⟩ := hsame
    rw [hc] at hchk ⊢
    exact h.of_same hchk hst rfl rfl
  · exact h.of_same hchk hst rfl rfl

theorem congr (h : Imaged s) (hcont : s'.content = s.content) : Imaged s' := by
  have hchk := h.checked.congr hcont
  simp only [content, Prod.mk.injEq] at hcont
  obtain ⟨htabs, -, hpars, hmg, -⟩ := hcont
  refine h.of_same hchk ?_ hpars hmg
  intro g tuple
  have hg := congrArg (fun l => (l[g]?).map fun x => x.2.1) htabs
  simp only [getElem?_map, Option.map_map, Function.comp_def] at hg
  have hiff : ∀ m : DescriptionGraphManager, m.Stored g tuple ↔
      ∃ tuples, (m.tables[g]?).map (·.tuples) = some tuples ∧ tuple ∈ tuples := by
    intro m
    simp only [Stored, map_eq_some_iff]
    constructor
    · rintro ⟨x, hx, ht⟩
      exact ⟨_, ⟨x, hx, rfl⟩, ht⟩
    · rintro ⟨_, ⟨x, hx, rfl⟩, ht⟩
      exact ⟨x, hx, ht⟩
  rw [hiff, hiff, hg]

end Imaged

theorem imaged_of_reached (h : Reached merging (Harmless merging) s) : Imaged s := by
  apply h.holds
  · intro vertices
    constructor
    · have hreach : Reached merging (Harmless merging) (GraphTableau.initial vertices) :=
        .initial vertices
      exact checked_of_reached hreach
    · intro n p hp
      cases hp
    · intro e he
      cases he
    · rintro g tuple image ⟨x, hx, ht⟩
      obtain ⟨n, -, rfl⟩ := List.mem_map.mp (mem_of_getElem? hx)
      cases ht
  · exact fun s s' hcont hs => hs.congr hcont
  · intro s a hs hbnd hen hharm ha
    cases a with
    | create parent => exact hs.createNode hen
    | expand g tuple =>
      obtain ⟨⟨x, hx, hlen⟩, hact⟩ := hen
      apply hs.addTuple _ hact
      intro y hy
      cases hx.symm.trans hy
      exact hlen
    | merge node0 node1 => exact hs.mergeNodes hharm
    | setClash =>
      exact hs.of_same (hs.checked.shrink ⟨[], true, by simp [perform]⟩)
        (fun _ _ => Iff.rfl) rfl rfl
    | propagate => exact hs.propagate hbnd hharm
    | push => cases ha
    | backtrack level => cases ha

/-! ## Runs -/

/-- What holds of the graphs: active tuples that share a node are equal when the calculus stops, the
images of the stored tuples are stored, and the lists of occurrences are exact. -/
structure Consistent (s : GraphTableau) : Prop where
  rigid : s.Stopped → s.Rigid
  images : s.StoresImages
  occurrences : s.manager.ExactOccurrences

/-- Only the images depend on what the merges do. -/
theorem consistent_iff_of_reached {permitted : GraphTableau → Action → Prop}
    (h : Reached merging permitted s) :
    s.Consistent ↔ s.StoresImages := by
  constructor
  · exact Consistent.images
  · exact fun himages => ⟨(checked_of_reached h).rigid, himages, (checked_of_reached h).exact⟩

/-- In every run the graphs are rigid when the calculus stops, and the occurrence lists are exact;
the graphs of a run without harm are consistent in every state. -/
theorem consistent_of_reached (permitted : GraphTableau → Action → Prop) :
    (Reached merging permitted s → (s.Stopped → s.Rigid) ∧ s.manager.ExactOccurrences) ∧
      (Reached merging (Harmless merging) s → s.Consistent) := by
  constructor
  · exact fun h => ⟨(checked_of_reached h).rigid, (checked_of_reached h).exact⟩
  · exact fun h => (consistent_iff_of_reached h).mpr (imaged_of_reached h).images

/-- Merges of the first node into the second, with no clash. -/
def firstIntoSecond : Merging := ⟨fun _ _ _ => true, fun _ _ _ => false⟩

/-- Two graphs of two vertices.  The node of the second graph is merged with the one of the first
during the check, and its tuple stays as it was. -/
def lostImage : List Action :=
  [.create none, .create (some 0), .expand 0 [0, 1], .create (some 0), .expand 1 [0, 2],
      .create (some 0),
    .expand 0 [3, 2], .propagate, .merge 3 0, .propagate, .propagate]

/-- A node with a tuple is merged, and the image is checked with the tuple. -/
def keptImage : List Action :=
  [.create none, .create (some 0), .create (some 0), .expand 0 [0, 2], .merge 2 1]

theorem consistent_of_reached_merge :
    ((keptImage.foldl (perform firstIntoSecond) (initial [2])).perform firstIntoSecond
      .propagate).Consistent := by
  suffices hreach : Reached firstIntoSecond (Harmless firstIntoSecond)
      ((keptImage.foldl (perform firstIntoSecond) (initial [2])).perform firstIntoSecond .propagate)
        from
    (consistent_of_reached (Harmless firstIntoSecond)).2 hreach
  have h0 : Reached firstIntoSecond (Harmless firstIntoSecond) (initial [2]) := .initial _
  have h1 := h0.step (a := .create none) (fun _ h => by cases h) trivial
  have h2 := h1.step (a := .create (some 0)) (fun p hp => by cases hp; decide +kernel) trivial
  have h3 := h2.step (a := .create (some 0)) (fun p hp => by cases hp; decide +kernel) trivial
  have h4 := h3.step (a := .expand 0 [0, 2]) ⟨⟨_, rfl, rfl⟩, by decide +kernel⟩ trivial
  have hmerge : Harmless firstIntoSecond
      ((keptImage.take 4).foldl (perform firstIntoSecond) (initial [2])) (.merge 2 1) := by
    rintro g tuple ⟨x, hx, ht⟩ - i k hi hk
    have honce :
      ∀ x ∈ ((keptImage.take 4).foldl (perform firstIntoSecond) (initial [2])).manager.tables,
        ∀ tuple ∈ x.tuples, tuple = [0, 2] := by
      decide +kernel
    rw [honce x (mem_of_getElem? hx) tuple ht] at hi hk
    have hplace : ∀ i : ℕ, [0, 2][i]? = some 2 → i = 1 := by
      intro i hi
      match i, hi with
      | 1, _ => rfl
    rw [hplace i hi, hplace k hk]
  have h5 := h4.step (a := .merge 2 1) trivial hmerge
  refine h5.step (a := .propagate) trivial (.inr ?_)
  intro x hx tuple htup other hoth hact _ k n n' hn hn' hact'
  have hagr : ∀ x ∈ (keptImage.foldl (perform firstIntoSecond) (initial [2])).manager.tables,
      ∀ tuple ∈ x.propagateDeltaNew.2.deltaOld, tuple.1.length = 2 ∧ ∀ other ∈ x.tuples,
      (keptImage.foldl (perform firstIntoSecond) (initial [2])).tupleIsActive other = true →
      ∀ k < 2, tuple.1[k]? = other[k]? ∨
        ∀ n ∈ tuple.1[k]?, (keptImage.foldl (perform firstIntoSecond) (initial [2])).isActive
          n = false := by
    decide +kernel
  obtain ⟨hlen, hagr⟩ := hagr x hx tuple htup
  have hk := hlen ▸ (List.getElem?_eq_some_iff.mp hn).1
  rcases hagr other hoth hact k hk with heq | hinactive
  · rw [hn, hn'] at heq
    exact some.inj heq
  · exact absurd ((hinactive n hn).symm.trans hact') Bool.false_ne_true

theorem exists_reached_lostImage : ∃ merging s, Reached merging (fun _ _ => True) s ∧ s.Stopped ∧
    ¬ s.StoresImages := by
  refine ⟨firstIntoSecond, lostImage.foldl (perform firstIntoSecond) (initial [2, 2]), ?_,
    ⟨by decide +kernel, by decide +kernel⟩, ?_⟩
  · have h0 : Reached firstIntoSecond (fun _ _ => True) (initial [2, 2]) := .initial _
    have h1 := h0.step (a := .create none) (fun _ h => by cases h) trivial
    have h2 := h1.step (a := .create (some 0)) (fun p hp => by cases hp; decide +kernel) trivial
    have h3 := h2.step (a := .expand 0 [0, 1]) ⟨⟨_, rfl, rfl⟩, by decide +kernel⟩ trivial
    have h4 := h3.step (a := .create (some 0)) (fun p hp => by cases hp; decide +kernel) trivial
    have h5 := h4.step (a := .expand 1 [0, 2]) ⟨⟨_, rfl, rfl⟩, by decide +kernel⟩ trivial
    have h6 := h5.step (a := .create (some 0)) (fun p hp => by cases hp; decide +kernel) trivial
    have h7 := h6.step (a := .expand 0 [3, 2]) ⟨⟨_, rfl, rfl⟩, by decide +kernel⟩ trivial
    have h8 := h7.step (a := .propagate) trivial trivial
    have h9 := h8.step (a := .merge 3 0) trivial trivial
    exact (h9.step (a := .propagate) trivial trivial).step (a := .propagate) trivial trivial
  · intro himages
    have hmg : (2, some 1) ∈
        (lostImage.foldl (perform firstIntoSecond) (initial [2, 2])).mergedOrPruned := by
      decide +kernel
    obtain ⟨x, hx, ht⟩ := himages 1 [0, 2] [0, 1] ⟨_, rfl, by decide +kernel⟩
      (.cons .refl (.cons (.single hmg) .nil)) (by decide +kernel)
    cases hx
    revert ht
    decide +kernel

end GraphTableau

end Hermit
