import Hermit.Tableau.TupleIndexShape

/-! # The tuple index as a finite map

Every node in use has a path of keys from the root, and no two share one.  The nodes whose
paths are as long as the indexing sequence carry the indices of the tuples.  While a tuple is
added or removed one node may lack what it should have; afterwards none does.
-/

namespace Hermit.TupleIndex

open Library EdgeKey List Option

variable {arity : ℕ} {T : Type} [EdgeKey T] {x x' : TupleIndex arity} {chain kids : ℕ → List ℕ}

/-! ## Paths -/

/-- The keys on the way from the root to a node. -/
inductive Path (x : TupleIndex arity) : ℕ → List UInt64 → Prop
  | root : Path x x.root []
  | child {i p : ℕ} {w : List UInt64} : x.Live i → i ≠ x.root → (x.node i).parent = some p →
      Path x p w → Path x i (w ++ [(x.node i).key])

variable {i p pending c : ℕ} {w : List UInt64} {k : UInt64}

theorem Path.live (h : x.Shaped chain kids) (hi : x.Path i w) : x.Live i := by
  cases hi with
  | root => exact h.root
  | child hlive _ _ _ => exact hlive

theorem Path.word_unique {w' : List UInt64} (hi : x.Path i w) (hi' : x.Path i w') : w = w' := by
  induction hi generalizing w' with
  | root =>
    cases hi' with
    | root => rfl
    | child _ hroot _ _ => exact absurd rfl hroot
  | child _ hroot hp _ ih =>
    cases hi' with
    | root => exact absurd rfl hroot
    | child _ _ hp' hw' =>
      obtain rfl := some.inj (hp.symm.trans hp')
      rw [ih hw']

theorem path_nil_iff : x.Path i [] ↔ i = x.root := by
  constructor
  · intro hi
    generalize hw : ([] : List UInt64) = w at hi
    cases hi with
    | root => rfl
    | child => simp at hw
  · rintro rfl
    exact .root

theorem path_concat_iff : x.Path i (w ++ [k]) ↔ ∃ p, x.Path p w ∧ x.IsChild p k i := by
  constructor
  · intro hi
    generalize hu : w ++ [k] = u at hi
    cases hi with
    | root => simp at hu
    | child hlive hroot hp hw =>
      obtain ⟨rfl, hk⟩ := append_inj' hu rfl
      exact ⟨_, hw, hlive, hroot, hp, (singleton_inj.mp hk).symm⟩
  · rintro ⟨p, hp, hlive, hroot, hpnt, rfl⟩
    exact .child hlive hroot hpnt hp

theorem Path.node_unique (h : x.Shaped chain kids) {j : ℕ} (hi : x.Path i w)
    (hj : x.Path j w) : i = j := by
  induction w using List.reverseRecOn generalizing i j with
  | nil => rw [path_nil_iff.mp hi, path_nil_iff.mp hj]
  | append_singleton w k ih =>
    obtain ⟨p, hp, hlive, hroot, hpnt, hkey⟩ := path_concat_iff.mp hi
    obtain ⟨q, hq, hlive', hroot', hpnt', hkey'⟩ := path_concat_iff.mp hj
    obtain rfl := ih hp hq
    exact h.unique i j hlive hlive' hroot hroot' (hpnt.trans hpnt'.symm) (hkey.trans hkey'.symm)

/-- A path goes through the nodes of its beginnings. -/
theorem Path.through {v : List UInt64} (hi : x.Path i (w ++ v)) : ∃ j, x.Path j w := by
  induction v using List.reverseRecOn generalizing i with
  | nil => exact ⟨i, by rwa [append_nil] at hi⟩
  | append_singleton v k ih =>
    rw [← append_assoc] at hi
    obtain ⟨p, hp, -⟩ := path_concat_iff.mp hi
    exact ih hp

/-- A trie in which the node `pending` alone may lack children or the index of its tuple. -/
structure Trie (x : TupleIndex arity) (pending : ℕ) : Prop where
  shaped : ∃ chain kids, x.Shaped chain kids
  path : ∀ i, x.Live i → ∃ w, x.Path i w ∧ w.length ≤ x.indexingSequence.length
  inner : ∀ i, x.Live i → i ≠ x.root → i ≠ pending → (x.node i).firstChild = none →
    ∃ w, x.Path i w ∧ w.length = x.indexingSequence.length
  leaf : ∀ i w, x.Path i w → i ≠ pending → w.length = x.indexingSequence.length →
    (x.node i).tupleIndex ≠ none

/-- The index of a tuple stands at the end of a path. -/
def Holds (x : TupleIndex arity) (w : List UInt64) (v : ℕ) : Prop :=
  ∃ i, x.Path i w ∧ (x.node i).tupleIndex = some v

theorem Shaped.firstChild_eq_none_iff (h : x.Shaped chain kids) (hp : x.Live p) :
    (x.node p).firstChild = none ↔ kids p = [] := by
  rw [(h.linked_kids p hp).head_eq, head?_eq_none_iff]

/-- The end of a longest path has no children. -/
theorem Trie.kids_eq_nil (h : x.Trie pending) (hs : x.Shaped chain kids)
    (hi : x.Path i w) (hw : w.length = x.indexingSequence.length) : kids i = [] := by
  rw [eq_nil_iff_forall_not_mem]
  intro j hj
  obtain ⟨hlive, hroot, hpnt⟩ := (hs.mem_kids i j).mp hj
  obtain ⟨u, hu, hlength⟩ := h.path j hlive
  have hu' := Path.child hlive hroot hpnt hi
  rw [hu.word_unique hu', length_append, length_singleton] at hlength
  omega

theorem Shaped.descend_spec (h : x.Shaped chain kids) (hp : x.Path p w) (objects : List T) :
    ∃ r, x.descend p objects = some r ∧ ∀ i, r = some i ↔
    x.Path i (w ++ objects.map uniqueKey) := by
  induction objects generalizing p w with
  | nil =>
    refine ⟨some p, rfl, fun i => ?_⟩
    rw [map_nil, append_nil, some.injEq]
    constructor
    · rintro rfl
      exact hp
    · exact fun hi => hp.node_unique h hi
  | cons o os ih =>
    obtain ⟨r, hr, hchild⟩ := h.getChildNode_spec p (uniqueKey o)
    have hword : w ++ (o :: os).map uniqueKey = w ++ [uniqueKey o] ++ os.map uniqueKey := by simp
    rw [descend, hr, hword]
    cases r with
    | none =>
      refine ⟨none, rfl, fun i => ⟨nofun, fun hi => ?_⟩⟩
      -- A path past the missing child would go through it.
      obtain ⟨c, hc⟩ := hi.through
      obtain ⟨q, hq, hqc⟩ := path_concat_iff.mp hc
      obtain rfl := hp.node_unique h hq
      cases (hchild c).mpr hqc
    | some c => exact ih (path_concat_iff.mpr ⟨p, hp, (hchild c).mp rfl⟩)

theorem Trie.getTupleIndex_spec (h : x.Trie pending) (tuple : Fin arity → T) :
    ∃ r, x.getTupleIndex tuple = some r ∧ ∀ v, r = some v ↔
    x.Holds ((x.project tuple).map uniqueKey) v := by
  obtain ⟨chain, kids, hs⟩ := h.shaped
  obtain ⟨r, hr, hpath⟩ := hs.descend_spec .root (x.project tuple)
  rw [getTupleIndex, hr]
  simp only [nil_append] at hpath
  cases r with
  | none =>
    refine ⟨none, rfl, fun v => ⟨nofun, ?_⟩⟩
    rintro ⟨i, hi, -⟩
    cases (hpath i).mpr hi
  | some i =>
    have hi := (hpath i).mp rfl
    refine ⟨(x.node i).tupleIndex, ?_, fun v => ⟨fun hv => ⟨i, hi, hv⟩, ?_⟩⟩
    · rw [bind_eq_bind, bind_some]
      dsimp only
      rw [getElem?_nodes (hi.live hs).1]
      rfl
    · rintro ⟨j, hj, hv⟩
      rwa [hi.node_unique hs hj]

/-! ## Adding -/

/-- What a new child changes for the paths. -/
structure Grown (x : TupleIndex arity) (p : ℕ) (k : UInt64) (c : ℕ)
    (x' : TupleIndex arity) : Prop where
  fresh : ¬ x.Live c
  live : ∀ i, x'.Live i ↔ x.Live i ∨ i = c
  root_eq : x'.root = x.root
  indexingSequence_eq : x'.indexingSequence = x.indexingSequence
  parent_eq : ∀ i, i ≠ c → (x'.node i).parent = (x.node i).parent
  key_eq : ∀ i, i ≠ c → (x'.node i).key = (x.node i).key
  tupleIndex_eq : ∀ i, i ≠ c → (x'.node i).tupleIndex = (x.node i).tupleIndex
  firstChild_eq : ∀ i, i ≠ c →
    (x'.node i).firstChild = if i = p then some c else (x.node i).firstChild
  new_parent : (x'.node c).parent = some p
  new_key : (x'.node c).key = k
  new_tupleIndex : (x'.node c).tupleIndex = none

theorem Added.grown (h : Added x p k c x') : Grown x p k c x' where
  fresh := h.fresh
  live := h.live
  root_eq := h.root_eq
  indexingSequence_eq := h.indexingSequence_eq
  parent_eq i hi := by rw [h.old_node i hi]
  key_eq i hi := by rw [h.old_node i hi]
  tupleIndex_eq i hi := by rw [h.old_node i hi]
  firstChild_eq i hi := by rw [h.old_node i hi]
  new_parent := by rw [h.new_node]
  new_key := by rw [h.new_node]
  new_tupleIndex := by rw [h.new_node]

theorem Resized.grown {x₁ : TupleIndex arity} (hr : Resized x x₁) (h : Grown x₁ p k c x') :
    Grown x p k c x' where
  fresh := fun hlive => h.fresh ((hr.live c).mpr hlive)
  live i := by rw [h.live, hr.live]
  root_eq := h.root_eq.trans hr.root_eq
  indexingSequence_eq := h.indexingSequence_eq.trans hr.indexingSequence_eq
  parent_eq i hi := by rw [h.parent_eq i hi, hr.fields i]
  key_eq i hi := by rw [h.key_eq i hi, hr.fields i]
  tupleIndex_eq i hi := by rw [h.tupleIndex_eq i hi, hr.fields i]
  firstChild_eq i hi := by rw [h.firstChild_eq i hi, hr.fields i]
  new_parent := h.new_parent
  new_key := h.new_key
  new_tupleIndex := h.new_tupleIndex

theorem Resized.isChild_iff (hr : Resized x x') : x'.IsChild p k c ↔ x.IsChild p k c := by
  rw [IsChild, IsChild, hr.live, hr.root_eq, hr.fields c]

/-- A child is found or added. -/
theorem Shaped.getChildNodeAddIfNecessary_spec (h : x.Shaped chain kids) (hp : x.Live p)
    (k : UInt64) :
    ∃ c x', x.getChildNodeAddIfNecessary p k = some (c, x') ∧
      (x' = x ∧ x.IsChild p k c ∨ Grown x p k c x' ∧ ∃ chain kids, x'.Shaped chain kids) := by
  obtain ⟨r, hr, hchild⟩ := h.getChildNode_spec p k
  rw [getChildNodeAddIfNecessary, hr]
  cases r with
  | some c => exact ⟨c, x, rfl, .inl ⟨rfl, (hchild c).mp rfl⟩⟩
  | none =>
    have hnew : ∀ i, ¬ x.IsChild p k i := fun i hi => by cases (hchild i).mpr hi
    by_cases hfull : x.resizeThreshold ≤ x.numberOfNodes
    · obtain ⟨x₁, chain₁, hx₁, hresized, hs₁⟩ := h.resizeBuckets_spec
      have hp₁ : x₁.Live p := (hresized.live p).mpr hp
      obtain ⟨c, x', hx', hadd⟩ := hs₁.addChild_spec hp₁ k
      refine ⟨c, x', ?_, .inr ⟨hresized.grown hadd.grown, _, _, hs₁.added hadd hp₁ ?_⟩⟩
      · simp only [bind_eq_bind, bind_some, hfull, if_true, hx₁]
        exact hx'
      · intro i hi
        exact hnew i (hresized.isChild_iff.mp hi)
    · obtain ⟨c, x', hx', hadd⟩ := h.addChild_spec hp k
      refine ⟨c, x', ?_, .inr ⟨hadd.grown, _, _, h.added hadd hp hnew⟩⟩
      simp only [bind_eq_bind, bind_some, hfull, if_false]
      exact hx'

theorem Grown.path_mono (hg : Grown x p k c x') (hi : x.Path i w) : x'.Path i w := by
  have hne : ∀ j, x.Live j → j ≠ c := by
    rintro j hj rfl
    exact hg.fresh hj
  induction hi with
  | root =>
    rw [← hg.root_eq]
    exact .root
  | @child i q w hlive hr hq _ ih =>
    rw [← hg.key_eq i (hne i hlive)]
    refine .child ((hg.live i).mpr (.inl hlive)) ?_ ?_ ih
    · rw [hg.root_eq]
      exact hr
    · rw [hg.parent_eq i (hne i hlive)]
      exact hq

/-- The old paths, and one more. -/
theorem Grown.path_iff (hg : Grown x p k c x') (hs : x.Shaped chain kids) (hp : x.Path p w)
    {u : List UInt64} :
    x'.Path i u ↔ x.Path i u ∨ i = c ∧ u = w ++ [k] := by
  have hne : ∀ j, x.Live j → j ≠ c := by
    rintro j hj rfl
    exact hg.fresh hj
  have hnew : x'.Path c (w ++ [k]) := by
    rw [← hg.new_key]
    refine .child ((hg.live c).mpr (.inr rfl)) ?_ hg.new_parent (hg.path_mono hp)
    rw [hg.root_eq]
    exact (hne _ hs.root).symm
  constructor
  · intro hi
    induction hi with
    | root =>
      rw [hg.root_eq]
      exact .inl .root
    | @child i q v hlive hr hq hv ih =>
      rw [hg.root_eq] at hr
      by_cases hic : i = c
      · subst hic
        rw [hg.new_parent] at hq
        obtain rfl := some.inj hq
        refine .inr ⟨rfl, ?_⟩
        rw [hg.new_key, hv.word_unique (hg.path_mono hp)]
      · have hlive' := ((hg.live i).mp hlive).resolve_right hic
        rw [hg.parent_eq i hic] at hq
        rw [hg.key_eq i hic]
        refine .inl (.child hlive' hr hq (ih.resolve_right ?_))
        -- An old node has an old parent.
        rintro ⟨rfl, -⟩
        obtain ⟨q', hq', hlq⟩ := hs.parent i hlive' hr
        exact hne q' hlq (some.inj (hq'.symm.trans hq))
  · rintro (hi | ⟨rfl, rfl⟩)
    · exact hg.path_mono hi
    · exact hnew

/-- One step down while adding a tuple. -/
theorem Trie.child (h : x.Trie p) (hp : x.Path p w) (hw : w.length < x.indexingSequence.length)
    (k : UInt64) :
    ∃ c x', x.getChildNodeAddIfNecessary p k = some (c, x') ∧ x'.Trie c ∧ x'.Path c (w ++ [k]) ∧
      x'.indexingSequence = x.indexingSequence ∧ (∀ u v, x'.Holds u v ↔ x.Holds u v) ∧
      ∀ i u, x'.Path i u → x.Path i u ∨ u = w ++ [k] := by
  obtain ⟨chain, kids, hs⟩ := h.shaped
  obtain ⟨c, x', hx', ⟨rfl, hchild⟩ | ⟨hg, hs'⟩⟩ :=
    hs.getChildNodeAddIfNecessary_spec (hp.live hs) k
  · refine ⟨c, x', hx', ⟨⟨chain, kids, hs⟩, h.path, fun i hi hroot hic hfst => ?_,
      fun i u hi hic hu => ?_⟩, path_concat_iff.mpr ⟨p, hp, hchild⟩, rfl, fun u v => Iff.rfl,
        fun i u => .inl⟩
    · refine h.inner i hi hroot ?_ hfst
      rintro rfl
      rw [hs.firstChild_eq_none_iff hi] at hfst
      have hmem := (hs.mem_kids i c).mpr ⟨hchild.1, hchild.2.1, hchild.2.2.1⟩
      rw [hfst] at hmem
      cases hmem
    · refine h.leaf i u hi ?_ hu
      rintro rfl
      rw [hi.word_unique hp] at hu
      omega
  · have hne : ∀ j, x.Live j → j ≠ c := by
      rintro j hj rfl
      exact hg.fresh hj
    refine ⟨c, x', hx', ⟨hs', fun i hi => ?_, fun i hi hroot hic hfst => ?_,
        fun i u hi hic hu => ?_⟩,
      (hg.path_iff hs hp).mpr (.inr ⟨rfl, rfl⟩), hg.indexingSequence_eq, fun u v => ?_,
      fun i u hi => ((hg.path_iff hs hp).mp hi).imp_right And.right⟩
    · rw [hg.indexingSequence_eq]
      rcases (hg.live i).mp hi with hi | rfl
      · obtain ⟨u, hu, hlength⟩ := h.path i hi
        exact ⟨u, hg.path_mono hu, hlength⟩
      · refine ⟨w ++ [k], (hg.path_iff hs hp).mpr (.inr ⟨rfl, rfl⟩), ?_⟩
        rw [length_append, length_singleton]
        exact hw
    · rw [hg.root_eq] at hroot
      rw [hg.firstChild_eq i hic] at hfst
      have hip : i ≠ p := by
        rintro rfl
        rw [if_pos rfl] at hfst
        cases hfst
      rw [if_neg hip] at hfst
      obtain ⟨u, hu, hlength⟩ := h.inner i (((hg.live i).mp hi).resolve_right hic) hroot hip hfst
      rw [hg.indexingSequence_eq]
      exact ⟨u, hg.path_mono hu, hlength⟩
    · rw [hg.indexingSequence_eq] at hu
      rw [hg.tupleIndex_eq i hic]
      rcases (hg.path_iff hs hp).mp hi with hi | ⟨rfl, -⟩
      · refine h.leaf i u hi ?_ hu
        rintro rfl
        rw [hi.word_unique hp] at hu
        omega
      · exact absurd rfl hic
    · constructor
      · rintro ⟨i, hi, hv⟩
        rcases (hg.path_iff hs hp).mp hi with hi | ⟨rfl, -⟩
        · refine ⟨i, hi, ?_⟩
          rwa [hg.tupleIndex_eq i (hne i (hi.live hs))] at hv
        · rw [hg.new_tupleIndex] at hv
          cases hv
      · rintro ⟨i, hi, hv⟩
        refine ⟨i, hg.path_mono hi, ?_⟩
        rwa [hg.tupleIndex_eq i (hne i (hi.live hs))]

theorem Trie.descendAdd_spec (h : x.Trie p) (hp : x.Path p w)
    (objects : List T) (hw : w.length + objects.length = x.indexingSequence.length) :
    ∃ leaf x', descendAdd x p objects = some (leaf, x') ∧ x'.Trie leaf ∧
      x'.Path leaf (w ++ objects.map uniqueKey) ∧ x'.indexingSequence = x.indexingSequence ∧
      (∀ u v, x'.Holds u v ↔ x.Holds u v) ∧
      ∀ i u, x'.Path i u → x.Path i u ∨ u <+: w ++ objects.map uniqueKey := by
  induction objects generalizing x p w with
  | nil => exact ⟨p, x, rfl, h, by simpa using hp, rfl, fun u v => Iff.rfl, fun i u => .inl⟩
  | cons o os ih =>
    rw [length_cons] at hw
    obtain ⟨c, x₁, hx₁, htrie, hpath, hseq, hholds, hpaths⟩ := h.child hp (by omega) (uniqueKey o)
    obtain ⟨leaf, x', hx', htrie', hpath', hseq', hholds', hpaths'⟩ := ih htrie hpath (by
      rw [hseq, length_append, length_singleton]
      omega)
    have hword : w ++ (o :: os).map uniqueKey = w ++ [uniqueKey o] ++ os.map uniqueKey := by simp
    rw [hword]
    refine ⟨leaf, x', ?_, htrie', hpath', hseq'.trans hseq, fun u v =>
        (hholds' u v).trans (hholds u v),
      fun i u hi => ?_⟩
    · rw [descendAdd, hx₁]
      exact hx'
    · rcases hpaths' i u hi with hi | hu
      · rcases hpaths i u hi with hi | rfl
        · exact .inl hi
        · exact .inr (prefix_append _ _)
      · exact .inr hu

/-- Store the index of a tuple at a node. -/
def store (x : TupleIndex arity) (leaf v : ℕ) : TupleIndex arity :=
  { x with nodes := x.nodes.modify leaf fun n => { n with tupleIndex := some v } }

section store

variable {leaf v : ℕ}

theorem live_store (i : ℕ) : (x.store leaf v).Live i ↔ x.Live i := by
  simp [Live, store]

theorem node_store (hleaf : leaf < x.nodes.length) (i : ℕ) : (x.store leaf v).node i =
    { x.node i with tupleIndex := if i = leaf then some v else (x.node i).tupleIndex } := by
  change nodeAt (x.nodes.modify leaf _) i = _
  rw [nodeAt_modify hleaf]
  split_ifs with hi
  · rw [hi]
    rfl
  · rfl

theorem Shaped.store (h : x.Shaped chain kids) (hleaf : leaf < x.nodes.length) :
    (x.store leaf v).Shaped chain kids := by
  have hpnt : ∀ i, ((x.store leaf v).node i).parent = (x.node i).parent := by
    intro i
    rw [node_store hleaf]
  have hkey : ∀ i, ((x.store leaf v).node i).key = (x.node i).key := by
    intro i
    rw [node_store hleaf]
  have hlength : (x.store leaf v).nodes.length = x.nodes.length := by
    simp [TupleIndex.store]
  refine ⟨h.free_nodup, fun i hi => ?_, ?_, h.length_buckets, (live_store _).mpr h.root,
      fun b hb => ?_,
    fun b i => ?_, fun p hp => ?_, fun p i => ?_, fun i hi hroot => ?_,
      fun i j hi hj hri hrj hpar hk => ?_⟩
  · rw [hlength]
    exact h.free_lt i hi
  · rw [hlength]
    exact h.count
  · refine (h.linked_chain b hb).congr fun i _ => ?_
    rw [node_store hleaf]
  · rw [h.mem_chain, live_store, bucketOf, bucketOf, hpnt, hkey]
    rfl
  · rw [node_store hleaf]
    refine (h.linked_kids p ((live_store p).mp hp)).congr (fun i _ => ?_) fun i _ => ?_
    · rw [node_store hleaf]
    · rw [node_store hleaf]
  · rw [h.mem_kids, live_store, hpnt]
    rfl
  · obtain ⟨p, hp, hlive⟩ := h.parent i ((live_store i).mp hi) hroot
    exact ⟨p, (hpnt i).trans hp, (live_store p).mpr hlive⟩
  · rw [hpnt, hpnt] at hpar
    rw [hkey, hkey] at hk
    exact h.unique i j ((live_store i).mp hi) ((live_store j).mp hj) hri hrj hpar hk

theorem path_store (hleaf : leaf < x.nodes.length) {i : ℕ} {w : List UInt64} :
    (x.store leaf v).Path i w ↔ x.Path i w := by
  have hpnt : ∀ i, ((x.store leaf v).node i).parent = (x.node i).parent := by
    intro i
    rw [node_store hleaf]
  have hkey : ∀ i, ((x.store leaf v).node i).key = (x.node i).key := by
    intro i
    rw [node_store hleaf]
  constructor
  · intro hi
    induction hi with
    | root => exact .root
    | @child i p w hlive hroot hp _ ih =>
      rw [hkey]
      exact .child ((live_store i).mp hlive) hroot ((hpnt i).symm.trans hp) ih
  · intro hi
    induction hi with
    | root => exact .root
    | @child i p w hlive hroot hp _ ih =>
      rw [← hkey]
      exact .child ((live_store i).mpr hlive) hroot ((hpnt i).trans hp) ih

end store

theorem Trie.store {leaf : ℕ} (h : x.Trie leaf) (hleaf : x.Path leaf w)
    (hw : w.length = x.indexingSequence.length) (v : ℕ) : (x.store leaf v).Trie x.root := by
  obtain ⟨chain, kids, hs⟩ := h.shaped
  have hlt : leaf < x.nodes.length := (hleaf.live hs).1
  refine ⟨⟨chain, kids, hs.store hlt⟩, fun i hi => ?_, fun i hi hroot hne hfst => ?_,
    fun i u hi hne hu => ?_⟩
  · obtain ⟨u, hu, hlength⟩ := h.path i ((live_store i).mp hi)
    exact ⟨u, (path_store hlt).mpr hu, hlength⟩
  · by_cases hil : i = leaf
    · subst hil
      exact ⟨w, (path_store hlt).mpr hleaf, hw⟩
    · rw [node_store hlt] at hfst
      obtain ⟨u, hu, hlength⟩ := h.inner i ((live_store i).mp hi) hroot hil hfst
      exact ⟨u, (path_store hlt).mpr hu, hlength⟩
  · rw [node_store hlt]
    by_cases hil : i = leaf
    · simp [hil]
    · simp only [hil, if_false]
      exact h.leaf i u ((path_store hlt).mp hi) hil hu

theorem Path.holds_store (hs : x.Shaped chain kids) {leaf : ℕ} (hleaf : x.Path leaf w)
    (v : ℕ) (u : List UInt64) (v' : ℕ) :
    (x.store leaf v).Holds u v' ↔ if u = w then v' = v else x.Holds u v' := by
  have hlt : leaf < x.nodes.length := (hleaf.live hs).1
  constructor
  · rintro ⟨i, hi, hv⟩
    rw [path_store hlt] at hi
    rw [node_store hlt] at hv
    by_cases hil : i = leaf
    · subst hil
      rw [if_pos (hi.word_unique hleaf)]
      simpa [eq_comm] using hv
    · have hu : u ≠ w := by
        rintro rfl
        exact hil (hi.node_unique hs hleaf)
      rw [if_neg hu]
      exact ⟨i, hi, by simpa [hil] using hv⟩
  · intro h
    split_ifs at h with hu
    · subst hu h
      refine ⟨leaf, (path_store hlt).mpr hleaf, ?_⟩
      rw [node_store hlt]
      simp
    · obtain ⟨i, hi, hv⟩ := h
      have hil : i ≠ leaf := by
        rintro rfl
        exact hu (hi.word_unique hleaf)
      refine ⟨i, (path_store hlt).mpr hi, ?_⟩
      rw [node_store hlt]
      simpa [hil] using hv

theorem Removed.path_iff {t : ℕ} {previous : Option ℕ} (hr : Removed x t previous x')
    (hs : x.Shaped chain kids) (hroot : t ≠ x.root) (hkids : kids t = []) :
    x'.Path i w ↔ x.Path i w ∧ i ≠ t := by
  have hpnt : ∀ i, (x'.node i).parent = (x.node i).parent := by
    intro i
    rw [hr.node_eq]
  have hkey : ∀ i, (x'.node i).key = (x.node i).key := by
    intro i
    rw [hr.node_eq]
  constructor
  · intro hi
    induction hi with
    | root =>
      rw [hr.root_eq]
      exact ⟨.root, hroot.symm⟩
    | @child i p w hlive hri hp _ ih =>
      obtain ⟨hlive, hit⟩ := (hr.live i).mp hlive
      rw [hr.root_eq] at hri
      rw [hkey]
      exact ⟨.child hlive hri ((hpnt i).symm.trans hp) ih.1, hit⟩
  · rintro ⟨hi, hit⟩
    induction hi with
    | root =>
      rw [← hr.root_eq]
      exact .root
    | @child i p w hlive hri hp _ ih =>
      rw [← hkey]
      refine .child ((hr.live i).mpr ⟨hlive, hit⟩) ?_ ((hpnt i).trans hp) (ih ?_)
      · rw [hr.root_eq]
        exact hri
      · -- The removed node has no children.
        rintro rfl
        have hmem := (hs.mem_kids p i).mpr ⟨hlive, hri, hp⟩
        rw [hkids] at hmem
        cases hmem

/-- Removing a node leaves its parent to be looked at. -/
theorem Trie.removeTrieNode_spec {t : ℕ} (h : x.Trie pending) (ht : x.Live t)
    (hroot : t ≠ x.root) (hfst : (x.node t).firstChild = none) (hp : (x.node t).parent = some p)
    (hpending : pending = t ∨ pending = x.root) (hseq : 0 < x.indexingSequence.length) :
    ∃ x', x.removeTrieNode t = some x' ∧ x'.Trie p ∧ x'.root = x.root ∧
      x'.indexingSequence = x.indexingSequence ∧ (∀ i w, x'.Path i w ↔ x.Path i w ∧ i ≠ t) ∧
      ∀ i, (x'.node i).tupleIndex = (x.node i).tupleIndex ∧
      (x'.node i).parent = (x.node i).parent := by
  obtain ⟨chain, kids, hs⟩ := h.shaped
  have hkids := (hs.firstChild_eq_none_iff ht).mp hfst
  obtain ⟨previous, x', hx', hr, hs'⟩ := hs.removeTrieNode_spec ht hroot hkids
  have hpath : ∀ i w, x'.Path i w ↔ x.Path i w ∧ i ≠ t := fun i w => hr.path_iff hs hroot hkids
  refine ⟨x', hx', ⟨⟨_, _, hs'⟩, fun i hi => ?_, fun i hi hri hip hfst' => ?_,
      fun i u hi hip hu => ?_⟩,
    hr.root_eq, hr.indexingSequence_eq, hpath, fun i => ?_⟩
  · obtain ⟨hi, hit⟩ := (hr.live i).mp hi
    obtain ⟨u, hu, hlength⟩ := h.path i hi
    rw [hr.indexingSequence_eq]
    exact ⟨u, (hpath i u).mpr ⟨hu, hit⟩, hlength⟩
  · obtain ⟨hi, hit⟩ := (hr.live i).mp hi
    rw [hr.root_eq] at hri
    have hne : ¬ (x.node t).parent = some i := by
      rw [hp]
      exact fun heq => hip (some.inj heq).symm
    rw [hr.node_eq] at hfst'
    simp only [hne, and_false, if_false] at hfst'
    have hpend : i ≠ pending := by
      rcases hpending with heq | heq
      · rwa [heq]
      · rwa [heq]
    obtain ⟨u, hu, hlength⟩ := h.inner i hi hri hpend hfst'
    rw [hr.indexingSequence_eq]
    exact ⟨u, (hpath i u).mpr ⟨hu, hit⟩, hlength⟩
  · obtain ⟨hi, hit⟩ := (hpath i u).mp hi
    rw [hr.indexingSequence_eq] at hu
    rw [hr.node_eq]
    refine h.leaf i u hi ?_ hu
    rintro rfl
    rcases hpending with heq | heq
    · exact hit heq
    · rw [heq] at hi
      rw [hi.word_unique .root] at hu
      exact hseq.ne hu
  · rw [hr.node_eq]
    exact ⟨rfl, rfl⟩

theorem Trie.prune_spec (h : x.Trie p) (hp : x.Path p w) {fuel : ℕ}
    (hfuel : w.length ≤ fuel) (hw : w.length < x.indexingSequence.length) :
    ∃ x', prune fuel (some p) x = some x' ∧ x'.Trie x'.root ∧
      x'.indexingSequence = x.indexingSequence ∧ (∀ i u, x'.Path i u → x.Path i u) ∧
      ∀ u, u.length = x.indexingSequence.length → ∀ v, x'.Holds u v ↔ x.Holds u v := by
  induction fuel generalizing x p w with
  | zero =>
    have hnil : w = [] := length_eq_zero_iff.mp (Nat.le_zero.mp hfuel)
    rw [hnil, path_nil_iff] at hp
    refine ⟨x, ?_, hp ▸ h, rfl, fun i u => id, fun u _ v => Iff.rfl⟩
    rw [prune, if_pos hp]
  | succ fuel ih =>
    obtain ⟨chain, kids, hs⟩ := h.shaped
    have hlive := hp.live hs
    by_cases hroot : p = x.root
    · refine ⟨x, ?_, hroot ▸ h, rfl, fun i u => id, fun u _ v => Iff.rfl⟩
      rw [prune, if_pos hroot]
    · rw [prune, if_neg hroot, getElem?_nodes hlive.1, bind_eq_bind, bind_some]
      by_cases hfst : (x.node p).firstChild = none
      · obtain ⟨q, hq, hqlive⟩ := hs.parent p hlive hroot
        obtain ⟨x₁, hx₁, htrie, hroot₁, hseq, hpath, hflds⟩ :=
          h.removeTrieNode_spec hlive hroot hfst
          hq (.inl rfl) (by omega)
        -- The path of the parent is one key shorter.
        obtain ⟨v, hv, rfl⟩ : ∃ v, x.Path q v ∧ w = v ++ [(x.node p).key] := by
          obtain ⟨v, hv, -⟩ := h.path q hqlive
          exact ⟨v, hv, hp.word_unique (.child hlive hroot hq hv)⟩
        rw [length_append, length_singleton] at hfuel hw
        have hqp : q ≠ p := by
          rintro rfl
          have hlength := congrArg List.length (hp.word_unique hv)
          simp at hlength
        obtain ⟨x', hx', htrie', hseq', hpaths, hholds⟩ :=
          ih htrie ((hpath q v).mpr ⟨hv, hqp⟩) (by omega)
          (by rw [hseq]; omega)
        refine ⟨x', ?_, htrie', hseq'.trans hseq, fun i u hi => ((hpath i u).mp (hpaths i u hi)).1,
          fun u hu v' => ?_⟩
        · rw [if_neg (not_not.mpr hfst), hx₁, hq]
          exact hx'
        · rw [hholds u (by rw [hseq, hu]) v']
          constructor
          · rintro ⟨i, hi, hv'⟩
            exact ⟨i, ((hpath i u).mp hi).1, by rwa [(hflds i).1] at hv'⟩
          · rintro ⟨i, hi, hv'⟩
            refine ⟨i, (hpath i u).mpr ⟨hi, ?_⟩, by rwa [(hflds i).1]⟩
            rintro rfl
            have hlength := congrArg List.length (hi.word_unique hp)
            rw [length_append, length_singleton] at hlength
            omega
      · refine ⟨x, ?_, ⟨h.shaped, h.path, fun i hi hri hne hfst' => ?_, fun i u hi hne hu => ?_⟩,
            rfl,
          fun i u => id, fun u _ v => Iff.rfl⟩
        · rw [if_pos hfst]
          rfl
        · refine h.inner i hi hri ?_ hfst'
          rintro rfl
          exact hfst hfst'
        · refine h.leaf i u hi ?_ hu
          rintro rfl
          rw [hi.word_unique hp] at hu
          omega

/-! ## Operations and maps -/

inductive Operation (T : Type) (arity : ℕ) where
  | addTuple (tuple : Fin arity → T) (potentialTupleIndex : ℕ)
  | removeTuple (tuple : Fin arity → T)
  | clear

/-- Perform one operation after another and collect the results. -/
def runSteps {σ α β : Type} (step : σ → α → Option (β × σ)) : σ → List α → Option (List β × σ)
  | s, [] => some ([], s)
  | s, a :: as => do
    let (r, s) ← step s a
    let (rs, s) ← runSteps step s as
    return (r :: rs, s)

def step (x : TupleIndex arity) : Operation T arity → Option (Option ℕ × TupleIndex arity)
  | .addTuple tuple v => do
    let (r, x) ← x.addTuple tuple v
    return (some r, x)
  | .removeTuple tuple => x.removeTuple tuple
  | .clear => some (none, x.clear)

/-- The operation on a finite map; only what is present can be removed. -/
def mapStep [DecidableEq T] (indexingSequence : List (Fin arity)) (m : List T → Option ℕ) :
    Operation T arity → Option (Option ℕ × (List T → Option ℕ))
  | .addTuple tuple v =>
    match m (indexingSequence.map tuple) with
    | some u => some (some u, m)
    | none => some (some v, Function.update m (indexingSequence.map tuple) (some v))
  | .removeTuple tuple =>
    match m (indexingSequence.map tuple) with
    | some u => some (some u, Function.update m (indexingSequence.map tuple) none)
    | none => none
  | .clear => some (none, fun _ => none)

/-- The index has the values of the map. -/
structure Represents (x : TupleIndex arity) (m : List T → Option ℕ) : Prop where
  trie : x.Trie x.root
  nonempty : 0 < x.indexingSequence.length
  keyed : ∀ i u, x.Path i u → ∃ w : List T, u = w.map uniqueKey
  map : ∀ w : List T, w.length = x.indexingSequence.length → ∀ v,
    m w = some v ↔ x.Holds (w.map uniqueKey) v

omit [EdgeKey T] in
theorem length_project (tuple : Fin arity → T) :
    (x.project tuple).length = x.indexingSequence.length := length_map _

theorem map_uniqueKey_injective {w w' : List T} (h : w.map uniqueKey = w'.map uniqueKey) : w = w' :=
  map_injective_iff.mpr EdgeKey.injective h

theorem shaped_clear (x : TupleIndex arity) : x.clear.Shaped (fun _ => []) (fun _ => []) := by
  have hlive : ∀ i, x.clear.Live i ↔ i = 0 := by
    intro i
    simp [Live, clear]
  have hlen : 1 ≤ max x.buckets.length initialBuckets := by
    unfold initialBuckets
    omega
  refine ⟨nodup_nil, fun _ h => (by cases h), rfl, ?_, (hlive _).mpr rfl, fun b hb => ?_, fun b i =>
      ?_, fun p hp => ?_,
    fun p i => ?_, fun i hi hroot => ?_, fun i j hi hj hri => ?_⟩
  · simp only [clear, length_replicate]
    omega
  · simp only [clear, length_replicate] at hb
    simp only [bucket, clear, getElem?_replicate, hb, if_true, getD_some]
    exact (rfl : (none : Option ℕ) = none)
  · rw [hlive]
    exact ⟨fun h => (by cases h), fun hi => absurd hi.1 hi.2.1⟩
  · rw [(hlive p).mp hp]
    exact doublyLinked_nil
  · rw [hlive]
    exact ⟨fun h => (by cases h), fun hi => absurd hi.1 hi.2.1⟩
  · exact absurd ((hlive i).mp hi) hroot
  · exact absurd ((hlive i).mp hi) hri

theorem represents_clear (h : 0 < x.indexingSequence.length) :
    x.clear.Represents fun _ : List T => none := by
  have hs := shaped_clear x
  have hroot : ∀ i, x.clear.Live i → i = x.clear.root := by
    intro i hi
    have hi' : i < 1 := hi.1
    exact Nat.lt_one_iff.mp hi'
  have hpath : ∀ i w, x.clear.Path i w → w = [] := by
    intro i w hi
    obtain rfl := hroot i (hi.live hs)
    exact hi.word_unique .root
  refine ⟨⟨⟨_, _, hs⟩, fun i hi => ?_, fun i hi hri => ?_, fun i w hi hri => ?_⟩, h,
    fun i u hi => ⟨[], hpath i u hi⟩, fun w hw v => ?_⟩
  · rw [hroot i hi]
    exact ⟨[], .root, Nat.zero_le _⟩
  · exact absurd (hroot i hi) hri
  · exact absurd (hroot i (hi.live hs)) hri
  · refine ⟨nofun, ?_⟩
    rintro ⟨i, hi, -⟩
    have hnil := congrArg List.length (hpath i _ hi)
    rw [length_map, hw, length_nil] at hnil
    exact absurd hnil h.ne'

section spec

variable [DecidableEq T] {m m' : List T → Option ℕ}

theorem Represents.addTuple_spec (h : x.Represents m) (tuple : Fin arity → T) (v : ℕ) :
    ∃ r m' x', mapStep x.indexingSequence m (.addTuple tuple v) = some (some r, m') ∧
      x.addTuple tuple v = some (r, x') ∧ x'.Represents m' ∧
      x'.indexingSequence = x.indexingSequence := by
  obtain ⟨leaf, x₁, hx₁, htrie, hpath, hseq, hholds, hpaths⟩ := h.trie.descendAdd_spec .root
    (x.project tuple) (by rw [length_project, length_nil, Nat.zero_add])
  rw [nil_append] at hpath hpaths
  have hkeyed : ∀ i u, x₁.Path i u → ∃ w : List T, u = w.map uniqueKey := by
    intro i u hi
    rcases hpaths i u hi with hi | hu
    · exact h.keyed i u hi
    · exact ⟨(x.project tuple).take u.length, by rw [map_take]; exact prefix_iff_eq_take.mp hu⟩
  obtain ⟨chain, kids, hs⟩ := htrie.shaped
  have hlt : leaf < x₁.nodes.length := (hpath.live hs).1
  have hlength : ((x.project tuple).map uniqueKey).length = x₁.indexingSequence.length := by
    rw [length_map, length_project, hseq]
  have hword := h.map (x.project tuple) (length_project tuple)
  cases hv : (x₁.node leaf).tupleIndex with
  | none =>
    have hnone : m (x.indexingSequence.map tuple) = none := by
      rw [eq_none_iff_forall_ne_some]
      intro u hu
      obtain ⟨i, hi, hiu⟩ := (hholds _ u).mpr ((hword u).mp hu)
      rw [hi.node_unique hs hpath, hv] at hiu
      cases hiu
    refine ⟨v, _, x₁.store leaf v, by rw [mapStep, hnone], ?_, ⟨htrie.store hpath hlength v, ?_,
      fun i u hi => hkeyed i u ((path_store hlt).mp hi), ?_⟩, hseq⟩
    · rw [addTuple, hx₁, bind_eq_bind, bind_some]
      dsimp only
      rw [getElem?_nodes hlt, bind_eq_bind, bind_some, hv]
      dsimp only
      rw [modifyNode_of_lt hlt]
      rfl
    · change 0 < x₁.indexingSequence.length
      rw [hseq]
      exact h.nonempty
    · intro w hw u
      change w.length = x₁.indexingSequence.length at hw
      rw [hseq] at hw
      rw [hpath.holds_store hs, hholds, ← h.map w hw u]
      by_cases heq : w = x.project tuple
      · rw [heq, if_pos rfl]
        change Function.update m (x.project tuple) (some v) (x.project tuple) = some u ↔ u = v
        rw [Function.update_self, some.injEq, eq_comm]
      · rw [if_neg (fun hkeys => heq (map_uniqueKey_injective hkeys))]
        exact Iff.of_eq (congrArg (· = some u) (Function.update_of_ne heq _ _))
  | some u =>
    have hsome : m (x.indexingSequence.map tuple) = some u :=
      (hword u).mpr ((hholds _ u).mp ⟨leaf, hpath, hv⟩)
    refine ⟨u, m, x₁, by rw [mapStep, hsome], ?_, ⟨⟨htrie.shaped, htrie.path,
      fun i hi hri hne hfst => ?_, fun i w hi hne hw => ?_⟩, by rw [hseq]; exact h.nonempty,
      hkeyed, fun w hw u => ?_⟩, hseq⟩
    · rw [addTuple, hx₁, bind_eq_bind, bind_some]
      dsimp only
      rw [getElem?_nodes hlt, bind_eq_bind, bind_some, hv]
      rfl
    · by_cases hil : i = leaf
      · subst hil
        exact ⟨_, hpath, hlength⟩
      · exact htrie.inner i hi hri hil hfst
    · by_cases hil : i = leaf
      · rw [hil, hv]
        simp
      · exact htrie.leaf i w hi hil hw
    · rw [hholds]
      exact h.map w (by rw [hw, hseq]) u

theorem Represents.removeTuple_spec (h : x.Represents m) (tuple : Fin arity → T) {u : ℕ}
    (hu : m (x.indexingSequence.map tuple) = some u) :
    ∃ x', x.removeTuple tuple = some (some u, x') ∧
      x'.Represents (Function.update m (x.indexingSequence.map tuple) none) ∧
      x'.indexingSequence = x.indexingSequence := by
  obtain ⟨chain, kids, hs⟩ := h.trie.shaped
  have hlength : ((x.project tuple).map uniqueKey).length = x.indexingSequence.length := by
    rw [length_map, length_project]
  obtain ⟨leaf, hleaf, hv⟩ := (h.map (x.project tuple) (length_project tuple) u).mp hu
  obtain ⟨r, hr, hdescend⟩ := hs.descend_spec .root (x.project tuple)
  obtain rfl : r = some leaf := (hdescend leaf).mpr hleaf
  have hlive := hleaf.live hs
  have hroot : leaf ≠ x.root := by
    rintro rfl
    rw [hleaf.word_unique .root] at hlength
    exact h.nonempty.ne hlength
  have hfst : (x.node leaf).firstChild = none :=
    (hs.firstChild_eq_none_iff hlive).mpr (h.trie.kids_eq_nil hs hleaf hlength)
  obtain ⟨p, hp, hplive⟩ := hs.parent leaf hlive hroot
  obtain ⟨w, hw, -⟩ := h.trie.path p hplive
  have hword := hleaf.word_unique (.child hlive hroot hp hw)
  have hwlength : w.length + 1 = x.indexingSequence.length := by
    rw [← hlength, hword, length_append, length_singleton]
  obtain ⟨x₁, hx₁, htrie, -, hseq, hpath, hflds⟩ :=
    h.trie.removeTrieNode_spec hlive hroot hfst hp
    (.inr rfl) h.nonempty
  have hpl : p ≠ leaf := by
    rintro rfl
    have hle := congrArg List.length (hleaf.word_unique hw)
    omega
  obtain ⟨x', hx', htrie', hseq', hpaths, hholds⟩ := htrie.prune_spec ((hpath p w).mpr ⟨hw, hpl⟩)
    (show w.length ≤ x₁.indexingSequence.length by rw [hseq]; omega) (by rw [hseq]; omega)
  refine ⟨x', ?_, ⟨htrie', ?_, fun i u hi => h.keyed i u ((hpath i u).mp (hpaths i u hi)).1,
    fun w' hw' v => ?_⟩, hseq'.trans hseq⟩
  · rw [removeTuple, hr, bind_eq_bind, bind_some]
    dsimp only
    rw [getElem?_nodes hlive.1, bind_eq_bind, bind_some, hx₁, bind_eq_bind, bind_some, hp, hx', hv]
    rfl
  · rw [hseq', hseq]
    exact h.nonempty
  · rw [hseq', hseq] at hw'
    rw [hholds _ (by rw [length_map, hw', hseq]) v]
    by_cases heq : w' = x.indexingSequence.map tuple
    · subst heq
      rw [Function.update_self]
      refine ⟨nofun, ?_⟩
      rintro ⟨i, hi, -⟩
      obtain ⟨hi, hil⟩ := (hpath i _).mp hi
      exact absurd (hi.node_unique hs hleaf) hil
    · rw [Function.update_of_ne heq, h.map w' hw' v]
      constructor
      · rintro ⟨i, hi, hiv⟩
        refine ⟨i, (hpath i _).mpr ⟨hi, ?_⟩, by rw [(hflds i).1, hiv]⟩
        rintro rfl
        exact heq (map_uniqueKey_injective (hi.word_unique hleaf))
      · rintro ⟨i, hi, hiv⟩
        exact ⟨i, ((hpath i _).mp hi).1, by rw [← (hflds i).1, hiv]⟩

/-- One operation on the index does what it does on the map. -/
theorem Represents.step (h : x.Represents m) {op : Operation T arity} {r : Option ℕ}
    (hop : mapStep x.indexingSequence m op = some (r, m')) :
    ∃ x', x.step op = some (r, x') ∧ x'.Represents m' ∧
    x'.indexingSequence = x.indexingSequence := by
  cases op with
  | addTuple tuple v =>
    obtain ⟨r', m'', x', hmap, hx', hrep, hseq⟩ := h.addTuple_spec tuple v
    rw [hmap] at hop
    obtain ⟨rfl, rfl⟩ := Prod.mk.inj (some.inj hop)
    refine ⟨x', ?_, hrep, hseq⟩
    rw [TupleIndex.step, hx']
    rfl
  | removeTuple tuple =>
    cases hu : m (x.indexingSequence.map tuple) with
    | none =>
      rw [mapStep, hu] at hop
      cases hop
    | some u =>
      rw [mapStep, hu] at hop
      obtain ⟨rfl, rfl⟩ := Prod.mk.inj (some.inj hop)
      exact h.removeTuple_spec tuple hu
  | clear =>
    obtain ⟨rfl, rfl⟩ := Prod.mk.inj (some.inj hop)
    exact ⟨x.clear, rfl, represents_clear h.nonempty, rfl⟩

theorem Represents.run (h : x.Represents m) {ops : List (Operation T arity)} {rs : List (Option ℕ)}
    (hops : runSteps (mapStep x.indexingSequence) m ops = some (rs, m')) :
    ∃ x', runSteps TupleIndex.step x ops = some (rs, x') ∧ x'.Represents m' ∧
      x'.indexingSequence = x.indexingSequence := by
  induction ops generalizing x m rs with
  | nil =>
    obtain ⟨rfl, rfl⟩ := Prod.mk.inj (some.inj hops)
    exact ⟨x, rfl, h, rfl⟩
  | cons op ops ih =>
    rw [runSteps] at hops
    obtain ⟨⟨r, m₁⟩, hstep, hops⟩ := bind_eq_some_iff.mp hops
    dsimp only at hops
    obtain ⟨⟨rs', m₂⟩, hrun, hops⟩ := bind_eq_some_iff.mp hops
    obtain ⟨rfl, rfl⟩ := Prod.mk.inj (some.inj hops)
    obtain ⟨x₁, hx₁, hrep, hseq⟩ := h.step hstep
    rw [← hseq] at hrun
    obtain ⟨x', hx', hrep', hseq'⟩ := ih hrep hrun
    refine ⟨x', ?_, hrep', hseq'.trans hseq⟩
    rw [runSteps, hx₁, bind_eq_bind, bind_some]
    dsimp only
    rw [hx']
    rfl

end spec

/-- The positions held by the buckets and by the nodes in use lie in the vector of nodes. -/
structure LinksInBounds (x : TupleIndex arity) : Prop where
  bucket : ∀ b i : ℕ, x.buckets[b]? = some (some i) → i < x.nodes.length
  firstChild : ∀ n i, x.Live n → (x.node n).firstChild = some i → i < x.nodes.length
  parent : ∀ n i, x.Live n → n ≠ x.root → (x.node n).parent = some i → i < x.nodes.length
  nextSibling : ∀ n i, x.Live n → n ≠ x.root → (x.node n).nextSibling = some i → i < x.nodes.length
  previousSibling : ∀ n i, x.Live n → n ≠ x.root → (x.node n).previousSibling = some i →
    i < x.nodes.length
  nextEntry : ∀ n i, x.Live n → n ≠ x.root → (x.node n).nextEntry = some i → i < x.nodes.length

theorem Shaped.linksInBounds (h : x.Shaped chain kids) : x.LinksInBounds := by
  have hkid : ∀ p, ∀ i ∈ kids p, i < x.nodes.length := fun p i hi => ((h.mem_kids p i).mp hi).1.1
  have hsib : ∀ n, x.Live n → n ≠ x.root → ∃ p l r, kids p = l ++ n :: r ∧
      (x.node n).previousSibling = l.getLast? ∧ (x.node n).nextSibling = r.head? := by
    intro n hn hroot
    obtain ⟨p, hp, hlive⟩ := h.parent n hn hroot
    obtain ⟨l, r, hlr⟩ := append_of_mem ((h.mem_kids p n).mpr ⟨hn, hroot, hp⟩)
    have hlink := h.linked_kids p hlive
    rw [hlr] at hlink
    exact ⟨p, l, r, hlr, hlink.neighbours⟩
  refine ⟨fun b i hi => ?_, fun n i hn hi => ?_, fun n i hn hroot hi => ?_,
      fun n i hn hroot hi => ?_,
    fun n i hn hroot hi => ?_, fun n i hn hroot hi => ?_⟩
  · obtain ⟨hb, -⟩ := List.getElem?_eq_some_iff.mp hi
    have hhead : x.bucket b = some i := by rw [TupleIndex.bucket, hi, getD_some]
    exact h.chain_lt b i ((h.linked_chain b hb).mem_of_head hhead)
  · exact hkid n i ((h.linked_kids n hn).forward.mem_of_head hi)
  · obtain ⟨p, hp, hlive⟩ := h.parent n hn hroot
    rw [hp] at hi
    rw [← some.inj hi]
    exact hlive.1
  · obtain ⟨p, l, r, hlr, -, hnext⟩ := hsib n hn hroot
    apply hkid p i
    rw [hlr]
    exact mem_append_right l (mem_cons_of_mem n (mem_of_head? (hnext.symm.trans hi)))
  · obtain ⟨p, l, r, hlr, hprev, -⟩ := hsib n hn hroot
    apply hkid p i
    rw [hlr]
    exact mem_append_left _ (mem_of_getLast? (hprev.symm.trans hi))
  · obtain ⟨l, r, hlr⟩ := append_of_mem ((h.mem_chain (x.bucketOf n) n).mpr ⟨hn, hroot, rfl⟩)
    have hlink := h.linked_chain (x.bucketOf n) (h.bucket_lt _ _)
    rw [hlr] at hlink
    apply h.chain_lt (x.bucketOf n) i
    rw [hlr]
    exact mem_append_right l (mem_cons_of_mem n (hlink.drop.2.mem_of_head hi))

/-- Every bucket heads a chain, and the nodes in use but the root lie each in the chain of its
own bucket and in no other. -/
def Chained (x : TupleIndex arity) : Prop :=
  ∃ chain : ℕ → List ℕ,
    (∀ b, b < x.buckets.length → Linked (fun i => (x.node i).nextEntry) (x.bucket b) (chain b)) ∧
    ∀ b i, i ∈ chain b ↔ x.Live i ∧ i ≠ x.root ∧
      b = bucketFor x.bucketsMask (x.node i).key (x.node i).parent

/-- The index refines a finite map, and its links stay sound, in every run that removes only
what is present. -/
theorem run_refines [DecidableEq T] (indexingSequence : List (Fin arity))
    (hsequence : indexingSequence ≠ []) (ops : List (Operation T arity)) (results : List (Option ℕ))
    (m : List T → Option ℕ)
    (hops : runSteps (mapStep indexingSequence) (fun _ => none) ops = some (results, m)) :
    ∃ x, runSteps step (new indexingSequence) ops = some (results, x) ∧
      (∀ tuple : Fin arity → T, x.getTupleIndex tuple = some (m (indexingSequence.map tuple))) ∧
      x.LinksInBounds ∧ x.Chained := by
  have hnew : (new indexingSequence).Represents fun _ : List T => none :=
    represents_clear (length_pos_iff.mpr hsequence)
  obtain ⟨x, hx, hrep, hseq⟩ := hnew.run hops
  obtain ⟨chain, kids, hs⟩ := hrep.trie.shaped
  refine ⟨x, hx, fun tuple => ?_, hs.linksInBounds, chain, hs.linked_chain, fun b i => ?_⟩
  · obtain ⟨r, hr, hval⟩ := hrep.trie.getTupleIndex_spec tuple
    rw [hr]
    have hmap := hrep.map (x.project tuple) (length_project tuple)
    have hproject : x.project tuple = indexingSequence.map tuple := by
      rw [project, hseq]
      rfl
    congr 1
    ext v
    rw [hval, ← hmap, hproject]
  · rw [hs.mem_chain, eq_comm (a := b)]
    rfl

/-- Two tuples of nodes, of which one is removed. -/
theorem run_refines_two : ∃ x : TupleIndex 2, runSteps step (new [0, 1])
      [.addTuple ![TableauObject.node 1, TableauObject.node 2] 0,
        .addTuple ![TableauObject.node 1, TableauObject.node 3] 1,
        .removeTuple ![TableauObject.node 1, TableauObject.node 2]] =
        some ([some 0, some 1, some 0], x) ∧ x.LinksInBounds ∧ x.Chained := by
  obtain ⟨x, hx, -, hlinks, hchained⟩ := run_refines [0, 1] (by decide)
    [.addTuple ![TableauObject.node 1, TableauObject.node 2] 0,
      .addTuple ![TableauObject.node 1, TableauObject.node 3] 1,
      .removeTuple ![TableauObject.node 1, TableauObject.node 2]]
    [some 0, some 1, some 0] _ rfl
  exact ⟨x, hx, hlinks, hchained⟩

end Hermit.TupleIndex
