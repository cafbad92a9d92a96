import Hermit.Library.Pointwise
import Hermit.Tableau.TupleIndexMap

/-! # Retrieval from a tuple index

A cursor walks over the leaves below the node of the bound values.  It climbs to the nearest
node with a sibling behind it and then takes first children.
-/

namespace Hermit.TupleIndex

open Library EdgeKey List Option

variable {arity : ℕ} {T : Type} [EdgeKey T] (x : TupleIndex arity)

/-! ## The cursor -/

/-- Take first children so many times; there is none below a missing node. -/
def firstChildren : ℕ → Option ℕ → Option (Option ℕ)
  | 0, current => some current
  | d + 1, current => do
    let trieNode ← current
    let node ← x.nodes[trieNode]?
    firstChildren d node.firstChild

/-- Follow the selected slots of the buffer downwards; each of those read must be set. -/
def descendBound (bindingsBuffer : List (Option T)) : ℕ → List ℕ → Option (Option ℕ)
  | trieNode, [] => some (some trieNode)
  | trieNode, i :: is => do
    let object ← bindingsBuffer[i]?.getD none
    match ← x.getChildNode trieNode (uniqueKey object) with
    | none => return none
    | some child => descendBound bindingsBuffer child is

/-- Find the node of the bound values, and the first leaf below it. -/
def openRetrieval (bindingsBuffer : List (Option T)) (selectionIndices : List ℕ) :
    Option (Option ℕ) := do
  match ← x.descendBound bindingsBuffer x.root selectionIndices with
  | none => return none
  | some trieNode =>
    let node ← x.nodes[trieNode]?
    if selectionIndices.length = 0 ∧ node.firstChild = none then return none
    else x.firstChildren (x.indexingSequence.length - selectionIndices.length) (some trieNode)

/-- Climb from a depth to a node with a sibling behind it, but not above the selected depth. -/
def climb (selectionLen : ℕ) : ℕ → Option ℕ → Option (ℕ × Option ℕ)
  | depth, current =>
    if depth = selectionLen then some (depth, current)
    else do
      let trieNode ← current
      let node ← x.nodes[trieNode]?
      if node.nextSibling ≠ none then return (depth, current)
      else
        match depth with
        | 0 => none
        | depth + 1 => climb selectionLen depth node.parent

def nextRetrieval (selectionLen : ℕ) (current : Option ℕ) : Option (Option ℕ) := do
  let (depth, current) ← x.climb selectionLen x.indexingSequence.length current
  if depth = selectionLen then return none
  else
    let trieNode ← current
    let node ← x.nodes[trieNode]?
    x.firstChildren (x.indexingSequence.length - depth) node.nextSibling

/-- Visit the tuples of a window in turn until one satisfies the visitor. -/
def visitFrom (selectionLen : ℕ) (inView : ℕ → Bool) (visit : ℕ → Option Bool) :
    ℕ → Option ℕ → Option Bool
  | _, none => some false
  | 0, some _ => none
  | fuel + 1, some current => do
    let node ← x.nodes[current]?
    if ← (node.tupleIndex.filter inView).elim (some false) visit then return true
    else
      let next ← x.nextRetrieval selectionLen (some current)
      visitFrom selectionLen inView visit fuel next

/-- The tuples in turn that are in a window. -/
def collectFrom (selectionLen : ℕ) (inView : ℕ → Bool) : ℕ → Option ℕ → Option (List ℕ)
  | _, none => some []
  | 0, some _ => none
  | fuel + 1, some current => do
    let node ← x.nodes[current]?
    let next ← x.nextRetrieval selectionLen (some current)
    let rest ← collectFrom selectionLen inView fuel next
    return node.tupleIndex.toList.filter inView ++ rest

section leaves

variable {α : Type*}

/-- The nodes so many levels below a node, in the order of the children. -/
def leaves (kids : α → List α) : ℕ → α → List α
  | 0, i => [i]
  | d + 1, i => (kids i).flatMap (leaves kids d)

/-- Every node has children, so many levels down. -/
def Deep (kids : α → List α) : ℕ → α → Prop
  | 0, _ => True
  | d + 1, i => kids i ≠ [] ∧ ∀ c ∈ kids i, Deep kids d c

/-- A node, `h` levels below the selected one and `d` above the leaves, and the leaves behind
those below it. -/
inductive Rest (kids : α → List α) (selected : α) : ℕ → ℕ → α → List α → Prop
  | top (d : ℕ) : Rest kids selected 0 d selected []
  | child {h d : ℕ} {p c : α} {l r rest : List α} : Rest kids selected h (d + 1) p rest →
      kids p = l ++ c :: r → (∀ b ∈ r, Deep kids d b) →
      Rest kids selected (h + 1) d c (r.flatMap (leaves kids d) ++ rest)

end leaves

section walk

variable {x} {chain kids : ℕ → List ℕ} {selected : ℕ}
variable {k c s : ℕ} {rest : List ℕ}

/-- The first leaf, with all others behind it. -/
theorem Shaped.firstChildren_spec (h : x.Shaped chain kids) {d : ℕ} {i : ℕ}
    (hi : x.Live i) (hdeep : Deep kids d i) (hrest : Rest kids selected k d i rest) :
    ∃ leaf t, leaves kids d i = leaf :: t ∧ x.firstChildren d (some i) = some (some leaf) ∧
      x.Live leaf ∧ Rest kids selected (k + d) 0 leaf (t ++ rest) := by
  induction d generalizing k i rest with
  | zero => exact ⟨i, [], rfl, rfl, hi, hrest⟩
  | succ d ih =>
    obtain ⟨hne, hkids⟩ := hdeep
    obtain ⟨c, r, hcr⟩ := exists_cons_of_ne_nil hne
    have hc : c ∈ kids i := by
      rw [hcr]
      exact mem_cons_self
    have hr : ∀ b ∈ r, Deep kids d b := by
      intro b hb
      apply hkids
      rw [hcr]
      exact mem_cons_of_mem c hb
    obtain ⟨leaf, t, hleaves, hfst, hlive, hleaf⟩ := ih ((h.mem_kids i c).mp hc).1 (hkids c hc)
      (Rest.child (l := []) hrest hcr hr)
    refine ⟨leaf, t ++ r.flatMap (leaves kids d), ?_, ?_, hlive, ?_⟩
    · rw [leaves, hcr, flatMap_cons, hleaves, cons_append]
    · have hhead : (x.node i).firstChild = some c := by
        rw [(h.linked_kids i hi).head_eq, hcr]
        rfl
      rw [firstChildren, bind_eq_bind, bind_some, getElem?_nodes hi.1, bind_eq_bind,
        bind_some, hhead]
      exact hfst
    · rw [append_assoc, show k + (d + 1) = k + 1 + d by omega]
      exact hleaf

theorem climb_top (s : ℕ) (current : Option ℕ) : x.climb s s current = some (s, current) := by
  rw [climb, if_pos rfl]

variable (h : x.Shaped chain kids)
include h

/-- From a node with leaves behind it the cursor comes to the first of them. -/
theorem Shaped.climb_spec {d : ℕ} (hrest : Rest kids selected k d c rest) :
    (rest = [] → ∃ current, x.climb s (s + k) (some c) = some (s, current)) ∧
      ∀ leaf t, rest = leaf :: t → ∃ depth current e,
      x.climb s (s + k) (some c) = some (depth, some current) ∧
        s < depth ∧ depth + e = s + k + d ∧ x.Live current ∧
        x.firstChildren e (x.node current).nextSibling = some (some leaf) ∧ x.Live leaf ∧
        Rest kids selected (k + d) 0 leaf t := by
  induction hrest with
  | top d => exact ⟨fun _ => ⟨some selected, climb_top s _⟩, nofun⟩
  | @child k d p c l r rest hp hkids hdeep ih =>
    have hc : c ∈ kids p := by
      rw [hkids]
      exact mem_append_right l mem_cons_self
    obtain ⟨hlive, hroot, hpar⟩ := (h.mem_kids p c).mp hc
    obtain ⟨q, hq, hqlive⟩ := h.parent c hlive hroot
    obtain rfl := some.inj (hpar.symm.trans hq)
    have hlink := h.linked_kids p hqlive
    rw [hkids] at hlink
    have hnext := hlink.neighbours.2
    have hclimb : x.climb s (s + (k + 1)) (some c) = if (x.node c).nextSibling ≠ none
        then some (s + (k + 1), some c) else x.climb s (s + k) (some p) := by
      rw [climb.eq_def]
      dsimp only
      rw [if_neg (show ¬ s + (k + 1) = s by omega), bind_eq_bind, bind_some,
        getElem?_nodes hlive.1, bind_eq_bind, bind_some, hpar]
      rfl
    cases r with
    | nil =>
      rw [hclimb, if_neg (by simp [hnext])]
      rw [show s + (k + 1) + d = s + k + (d + 1) by omega, show k + 1 + d = k + (d + 1) by omega]
      exact ih
    | cons b r =>
      have hb : x.Live b := by
        refine ((h.mem_kids p b).mp ?_).1
        rw [hkids]
        exact mem_append_right l (mem_cons_of_mem c mem_cons_self)
      obtain ⟨leaf', t', hleaves, hfst, hleaf, hrest'⟩ := h.firstChildren_spec hb
        (hdeep b mem_cons_self)
        (Rest.child (l := l ++ [c]) (r := r) hp (by rw [hkids]; simp)
          fun a ha => hdeep a (mem_cons_of_mem b ha))
      rw [hclimb, if_pos (by simp [hnext])]
      rw [flatMap_cons, hleaves]
      refine ⟨nofun, fun leaf t heq => ?_⟩
      obtain ⟨rfl, rfl⟩ := List.cons.inj heq
      refine ⟨s + (k + 1), c, d, rfl, by omega, rfl, hlive, ?_, hleaf, ?_⟩
      · rw [hnext]
        exact hfst
      · change Rest kids selected (k + 1 + d) 0 leaf' (t' ++ r.flatMap (leaves kids d) ++ rest)
        rw [append_assoc]
        exact hrest'

/-- One step of the cursor. -/
theorem Shaped.nextRetrieval_spec (hlen : s + k = x.indexingSequence.length)
    (hrest : Rest kids selected k 0 c rest) :
    x.nextRetrieval s (some c) = some rest.head? ∧
      ∀ leaf t, rest = leaf :: t → x.Live leaf ∧ Rest kids selected k 0 leaf t := by
  obtain ⟨hnil, hcons⟩ := h.climb_spec hrest (s := s)
  rw [nextRetrieval, ← hlen]
  cases rest with
  | nil =>
    obtain ⟨current, hcur⟩ := hnil rfl
    refine ⟨?_, nofun⟩
    rw [hcur, bind_eq_bind, bind_some]
    dsimp only
    rw [if_pos rfl]
    rfl
  | cons leaf t =>
    obtain ⟨depth, current, e, hclimb, hdepth, hsum, hlive, hfst, hleaf, hrest'⟩ := hcons leaf t rfl
    constructor
    · rw [hclimb, bind_eq_bind, bind_some]
      dsimp only
      rw [if_neg (by omega), bind_eq_bind, bind_some, getElem?_nodes hlive.1,
        bind_eq_bind, bind_some, show s + k - depth = e by omega]
      exact hfst
    · intro leaf' t' heq
      obtain ⟨rfl, rfl⟩ := List.cons.inj heq
      exact ⟨hleaf, hrest'⟩

theorem Shaped.collectFrom_spec (hlen : s + k = x.indexingSequence.length) (hc : x.Live c)
    (hrest : Rest kids selected k 0 c rest) (inView : ℕ → Bool) {fuel : ℕ}
    (hfuel : rest.length < fuel) :
    x.collectFrom s inView fuel (some c) =
      some ((c :: rest).flatMap fun i => (x.node i).tupleIndex.toList.filter inView) := by
  induction fuel generalizing c rest with
  | zero => simp at hfuel
  | succ fuel ih =>
    obtain ⟨hnext, hleaf⟩ := h.nextRetrieval_spec hlen hrest
    rw [collectFrom, getElem?_nodes hc.1, bind_eq_bind, bind_some, hnext, bind_eq_bind, bind_some]
    cases rest with
    | nil =>
      rw [head?_nil, collectFrom.eq_def]
      simp
    | cons leaf t =>
      obtain ⟨hlive, hrest'⟩ := hleaf leaf t rfl
      rw [head?_cons, ih hlive hrest' (Nat.lt_of_succ_lt_succ hfuel), flatMap_cons]
      rfl

theorem Shaped.visitFrom_spec (hlen : s + k = x.indexingSequence.length) (hc : x.Live c)
    (hrest : Rest kids selected k 0 c rest) (inView : ℕ → Bool) {visit : ℕ → Option Bool}
    {p : ℕ → Bool} (hvis : ∀ v, inView v → visit v = some (p v)) {fuel : ℕ}
    (hfuel : rest.length < fuel) :
    x.visitFrom s inView visit fuel (some c) =
      some ((c :: rest).any fun i => (x.node i).tupleIndex.any fun v => inView v && p v) := by
  have hstop : ∀ t : Option ℕ, (t.filter inView).elim (some false) visit =
      some (t.any fun v => inView v && p v) := by
    intro t
    cases t with
    | none => rfl
    | some v =>
      by_cases hview : inView v = true
      · rw [filter_some_pos hview, elim_some, hvis v hview, any_some, hview, Bool.true_and]
      · have hfls := Bool.eq_false_iff.mpr hview
        rw [filter_some_neg hfls, elim_none, any_some, hfls, Bool.false_and]
  induction fuel generalizing c rest with
  | zero => simp at hfuel
  | succ fuel ih =>
    obtain ⟨hnext, hleaf⟩ := h.nextRetrieval_spec hlen hrest
    rw [visitFrom, getElem?_nodes hc.1, bind_eq_bind, bind_some, hstop, bind_eq_bind,
      bind_some, any_cons]
    cases (x.node c).tupleIndex.any fun v => inView v && p v with
    | true => rfl
    | false =>
      rw [Bool.false_or, hnext, if_neg (by simp), bind_eq_bind, bind_some]
      cases rest with
      | nil =>
        rw [head?_nil, visitFrom.eq_def]
        rfl
      | cons leaf t =>
        obtain ⟨hlive, hrest'⟩ := hleaf leaf t rfl
        rw [head?_cons]
        exact ih hlive hrest' (Nat.lt_of_succ_lt_succ hfuel)

end walk

/-! ## What is retrieved -/

section retrieved

variable {x} {chain kids : ℕ → List ℕ}
variable {d p : ℕ} {w : List UInt64}

theorem Shaped.mem_leaves (h : x.Shaped chain kids) {i : ℕ} (hp : x.Path p w) :
    i ∈ leaves kids d p ↔ ∃ u, u.length = d ∧ x.Path i (w ++ u) := by
  induction d generalizing p w with
  | zero =>
    rw [leaves, mem_singleton]
    constructor
    · rintro rfl
      exact ⟨[], rfl, by rwa [append_nil]⟩
    · rintro ⟨u, hu, hi⟩
      rw [length_eq_zero_iff.mp hu, append_nil] at hi
      exact hi.node_unique h hp
  | succ d ih =>
    rw [leaves, mem_flatMap]
    constructor
    · rintro ⟨c, hc, hi⟩
      obtain ⟨hlive, hroot, hpar⟩ := (h.mem_kids p c).mp hc
      obtain ⟨u, hu, hi⟩ := (ih (.child hlive hroot hpar hp)).mp hi
      refine ⟨(x.node c).key :: u, by rw [length_cons, hu], ?_⟩
      rwa [append_assoc, singleton_append] at hi
    · rintro ⟨u, hu, hi⟩
      obtain ⟨k, u, rfl⟩ := exists_cons_of_length_eq_add_one hu
      rw [← singleton_append, ← append_assoc] at hi
      obtain ⟨c, hc⟩ := hi.through
      obtain ⟨q, hq, hlive, hroot, hpar, -⟩ := path_concat_iff.mp hc
      obtain rfl := hq.node_unique h hp
      exact ⟨c, (h.mem_kids q c).mpr ⟨hlive, hroot, hpar⟩, (ih hc).mpr ⟨u, Nat.succ.inj hu, hi⟩⟩

theorem Shaped.nodup_leaves (h : x.Shaped chain kids) (hp : x.Path p w) :
    (leaves kids d p).Nodup := by
  induction d generalizing p w with
  | zero => exact nodup_singleton p
  | succ d ih =>
    have hpath : ∀ c ∈ kids p, x.Path c (w ++ [(x.node c).key]) := by
      intro c hc
      obtain ⟨hlive, hroot, hpar⟩ := (h.mem_kids p c).mp hc
      exact .child hlive hroot hpar hp
    rw [leaves, nodup_flatMap]
    refine ⟨fun c hc => ih (hpath c hc), ?_⟩
    refine (h.linked_kids p (hp.live h)).forward.nodup.imp_of_mem
      fun {c c'} hc hc' hne i hi hi' => ?_
    -- A leaf below both would have a path through both.
    obtain ⟨u, -, hu⟩ := (h.mem_leaves (hpath c hc)).mp hi
    obtain ⟨u', -, hu'⟩ := (h.mem_leaves (hpath c' hc')).mp hi'
    have hword := hu.word_unique hu'
    rw [append_assoc, append_assoc, append_cancel_left_eq, singleton_append,
      singleton_append, List.cons.injEq] at hword
    have hc'' := hpath c' hc'
    rw [← hword.1] at hc''
    exact hne ((hpath c hc).node_unique h hc'')

/-- Nodes of a complete trie have children down to the leaves. -/
theorem Trie.deep (h : x.Trie x.root) (hs : x.Shaped chain kids)
    (hp : x.Path p w) (hw : w ≠ []) (hlen : w.length + d = x.indexingSequence.length) :
    Deep kids d p := by
  induction d generalizing p w with
  | zero => trivial
  | succ d ih =>
    have hroot : p ≠ x.root := by
      rintro rfl
      exact hw (hp.word_unique .root)
    constructor
    · intro hnil
      obtain ⟨u, hu, hlen'⟩ := h.inner p (hp.live hs) hroot hroot
        ((hs.firstChild_eq_none_iff (hp.live hs)).mpr hnil)
      rw [hu.word_unique hp] at hlen'
      omega
    · intro c hc
      obtain ⟨hlive, hroot', hpar⟩ := (hs.mem_kids p c).mp hc
      apply ih (.child hlive hroot' hpar hp)
      · simp
      · rw [length_append, length_singleton]
        omega

/-- The words of the map that begin with the bound values. -/
def Matches (m : List T → Option ℕ) (length : ℕ) (objects : List T) (v : ℕ) : Prop :=
  ∃ w : List T, w.length = length ∧ objects <+: w ∧ m w = some v

variable {m : List T → Option ℕ}

theorem Represents.holds_iff_matches (h : x.Represents m) {objects : List T}
    (hd : objects.length + d = x.indexingSequence.length) (v : ℕ) :
    (∃ u : List UInt64, u.length = d ∧ x.Holds (objects.map uniqueKey ++ u) v) ↔
      Matches m x.indexingSequence.length objects v := by
  constructor
  · rintro ⟨u, hu, hholds⟩
    obtain ⟨i, hi, hv⟩ := hholds
    obtain ⟨w, hw⟩ := h.keyed i _ hi
    have hlen : w.length = x.indexingSequence.length := by
      rw [← length_map (uniqueKey : T → UInt64), ← hw, length_append, length_map, hu, hd]
    refine ⟨w, hlen, ?_, (h.map w hlen v).mpr ⟨i, hw ▸ hi, hv⟩⟩
    have htake := congrArg (List.take objects.length) hw
    rw [take_append_of_le_length (by rw [length_map]), ← map_take, ← map_take, take_length] at htake
    rw [map_uniqueKey_injective htake]
    exact take_prefix _ _
  · rintro ⟨w, hlen, ⟨os, rfl⟩, hv⟩
    refine ⟨os.map uniqueKey, ?_, ?_⟩
    · rw [length_append] at hlen
      rw [length_map]
      omega
    · rw [← map_append]
      exact (h.map _ hlen v).mp hv

theorem length_of_mapM {α β : Type} {f : α → Option β} {l : List α} {r : List β}
    (h : l.mapM f = some r) :
    r.length = l.length :=
  (Library.mapM_eq_some_iff.mp h).length_eq.symm

theorem descendBound_eq {buffer : List (Option T)} {selection : List ℕ} {objects : List T}
    (hobjs : selection.mapM (fun i => buffer[i]?.getD none) = some objects) (trieNode : ℕ) :
    x.descendBound buffer trieNode selection = x.descend trieNode objects := by
  induction selection generalizing objects trieNode with
  | nil =>
    rw [← some.inj hobjs]
    rfl
  | cons i is ih =>
    rw [mapM_cons, bind_eq_bind, bind_eq_some_iff] at hobjs
    obtain ⟨object, hobj, hobjs⟩ := hobjs
    rw [bind_eq_bind, bind_eq_some_iff] at hobjs
    obtain ⟨os, hos, hobjs⟩ := hobjs
    rw [← some.inj hobjs, descendBound, hobj, bind_eq_bind, bind_some, descend]
    congr 1
    funext child
    cases child with
    | none => rfl
    | some child => exact ih hos child

/-- The cursor starts at the first of all leaves below the node of the bound values. -/
theorem Represents.openRetrieval_spec (h : x.Represents m) {buffer : List (Option T)}
    {selection : List ℕ} {objects : List T}
    (hobjs : selection.mapM (fun i => buffer[i]?.getD none) = some objects)
    (hpos : 0 < selection.length) (hle : selection.length ≤ x.indexingSequence.length) :
    ∃ (kids : ℕ → List ℕ) (ls : List ℕ), (∃ chain, x.Shaped chain kids) ∧ ls.Nodup ∧
      (∀ i, i ∈ ls ↔ ∃ u : List UInt64, u.length = x.indexingSequence.length - selection.length ∧
        x.Path i (objects.map uniqueKey ++ u)) ∧ x.openRetrieval buffer selection = some ls.head? ∧
      ∀ c rest, ls = c :: rest → x.Live c ∧
        ∃ selected, Rest kids selected (x.indexingSequence.length - selection.length) 0 c rest := by
  obtain ⟨chain, kids, hs⟩ := h.trie.shaped
  have hlen : objects.length = selection.length := by
    exact length_of_mapM hobjs
  obtain ⟨r, hr, hdescend⟩ := hs.descend_spec .root objects
  simp only [nil_append] at hdescend
  cases r with
  | none =>
    refine ⟨kids, [], ⟨chain, hs⟩, nodup_nil, fun i => ⟨nofun, ?_⟩, ?_, nofun⟩
    · rintro ⟨u, -, hi⟩
      obtain ⟨j, hj⟩ := hi.through
      cases (hdescend j).mpr hj
    · rw [openRetrieval, descendBound_eq hobjs, hr]
      rfl
  | some p =>
    have hp := (hdescend p).mp rfl
    have hne : objects.map (uniqueKey : T → UInt64) ≠ [] := by
      rw [← length_pos_iff, length_map]
      omega
    have hdeep := h.trie.deep hs hp hne (d := x.indexingSequence.length - selection.length) (by
      rw [length_map]
      omega)
    obtain ⟨leaf, t, hleaves, hfst, hlive, hrest⟩ :=
      hs.firstChildren_spec (hp.live hs) hdeep (.top _)
    refine ⟨kids, leaves kids (x.indexingSequence.length - selection.length) p, ⟨chain, hs⟩,
      hs.nodup_leaves hp, fun i => hs.mem_leaves hp, ?_, ?_⟩
    · rw [openRetrieval, descendBound_eq hobjs, hr, bind_eq_bind, bind_some]
      dsimp only
      rw [getElem?_nodes (hp.live hs).1, bind_eq_bind, bind_some,
        if_neg (fun hzero => hpos.ne' hzero.1), hfst, hleaves]
      rfl
    · intro c rest hcr
      rw [hleaves] at hcr
      obtain ⟨rfl, rfl⟩ := List.cons.inj hcr
      rw [Nat.zero_add, append_nil] at hrest
      exact ⟨hlive, p, hrest⟩

/-- Leaves are distinct nodes, so the walk is no longer than the vector of nodes. -/
theorem length_le_of_live {ls : List ℕ} (hnd : ls.Nodup)
    (hlive : ∀ i ∈ ls, x.Live i) : ls.length ≤ x.nodes.length := by
  have hsub : ls ⊆ List.range x.nodes.length := by
    intro i hi
    exact mem_range.mpr (hlive i hi).1
  have hle := (subperm_of_subset hnd hsub).length_le
  rwa [length_range] at hle

/-- Which tuples a leaf list carries. -/
theorem Represents.mem_tuples (h : x.Represents m) {objects : List T} {ls : List ℕ}
    (hd : objects.length + d = x.indexingSequence.length)
    (hls : ∀ i, i ∈ ls ↔ ∃ u : List UInt64, u.length = d ∧
      x.Path i (objects.map uniqueKey ++ u)) (v : ℕ) :
    (∃ i ∈ ls, (x.node i).tupleIndex = some v) ↔ Matches m x.indexingSequence.length objects v := by
  rw [← h.holds_iff_matches hd]
  constructor
  · rintro ⟨i, hi, hv⟩
    obtain ⟨u, hu, hpath⟩ := (hls i).mp hi
    exact ⟨u, hu, i, hpath, hv⟩
  · rintro ⟨u, hu, i, hpath, hv⟩
    exact ⟨i, (hls i).mpr ⟨u, hu, hpath⟩, hv⟩

theorem collectFrom_none (s : ℕ) (inView : ℕ → Bool) (fuel : ℕ) :
    x.collectFrom s inView fuel none = some [] := by
  cases fuel <;> rfl

theorem visitFrom_none (s : ℕ) (inView : ℕ → Bool) (visit : ℕ → Option Bool) (fuel : ℕ) :
    x.visitFrom s inView visit fuel none = some false := by
  cases fuel <;> rfl

/-- No two words have the same value. -/
def Separates (m : List T → Option ℕ) (length : ℕ) : Prop :=
  ∀ w w' : List T, w.length = length → w'.length = length → ∀ v, m w = some v →
    m w' = some v → w = w'

/-- Distinct leaves carry distinct tuples. -/
theorem Represents.leaf_unique (h : x.Represents m) (hm : Separates m x.indexingSequence.length)
    (hs : x.Shaped chain kids) {objects : List T} {i j v : ℕ}
    (hd : objects.length + d = x.indexingSequence.length)
    (hi : ∃ u : List UInt64, u.length = d ∧ x.Path i (objects.map uniqueKey ++ u))
    (hj : ∃ u : List UInt64, u.length = d ∧ x.Path j (objects.map uniqueKey ++ u))
    (hiv : (x.node i).tupleIndex = some v) (hjv : (x.node j).tupleIndex = some v) : i = j := by
  have hword : ∀ k, (∃ u : List UInt64, u.length = d ∧ x.Path k (objects.map uniqueKey ++ u)) →
      (x.node k).tupleIndex = some v →
      ∃ w : List T, w.length = x.indexingSequence.length ∧ x.Path k (w.map uniqueKey) ∧
        m w = some v := by
    rintro k ⟨u, hu, hk⟩ hv
    obtain ⟨w, hw⟩ := h.keyed k _ hk
    have hlen : w.length = x.indexingSequence.length := by
      rw [← length_map (uniqueKey : T → UInt64), ← hw, length_append, length_map, hu, hd]
    rw [hw] at hk
    exact ⟨w, hlen, hk, (h.map w hlen v).mpr ⟨k, hk, hv⟩⟩
  obtain ⟨w, hw, hpath, hv⟩ := hword i hi hiv
  obtain ⟨w', hw', hpath', hv'⟩ := hword j hj hjv
  rw [← hm w w' hw hw' v hv hv'] at hpath'
  exact hpath.node_unique hs hpath'

section cursor

variable {buffer : List (Option T)} {selection : List ℕ} {objects : List T}
  (hobjs : selection.mapM (fun i => buffer[i]?.getD none) = some objects)
  (hpos : 0 < selection.length) (hle : selection.length ≤ x.indexingSequence.length)

include hobjs hpos hle

/-- The cursor comes to the tuples below the bound values, to each once. -/
theorem Represents.collect_spec (h : x.Represents m) (hm : Separates m x.indexingSequence.length)
    (inView : ℕ → Bool) :
    ∃ current found, x.openRetrieval buffer selection = some current ∧
      x.collectFrom selection.length inView x.nodes.length current = some found ∧ found.Nodup ∧
      ∀ v, v ∈ found ↔ inView v ∧ Matches m x.indexingSequence.length objects v := by
  have hd : objects.length + (x.indexingSequence.length - selection.length) =
      x.indexingSequence.length := by
    rw [length_of_mapM hobjs]
    omega
  obtain ⟨kids, ls, ⟨chain, hs⟩, hnd, hls, hopen, hcons⟩ := h.openRetrieval_spec hobjs hpos hle
  have hlive : ∀ i ∈ ls, x.Live i := by
    intro i hi
    obtain ⟨u, -, hpath⟩ := (hls i).mp hi
    exact hpath.live hs
  have hfnd : x.collectFrom selection.length inView x.nodes.length ls.head? =
      some (ls.flatMap fun i => (x.node i).tupleIndex.toList.filter inView) := by
    cases ls with
    | nil => exact collectFrom_none _ _ _
    | cons c rest =>
      obtain ⟨hc, selected, hrest⟩ := hcons c rest rfl
      exact hs.collectFrom_spec (by omega) hc hrest inView (length_le_of_live hnd hlive)
  refine ⟨_, _, hopen, hfnd, ?_, fun v => ?_⟩
  · rw [nodup_flatMap]
    constructor
    · intro i _
      apply List.Nodup.filter
      cases (x.node i).tupleIndex with
      | none => exact nodup_nil
      | some v => exact nodup_singleton v
    · refine hnd.imp_of_mem fun {i j} hi hj hne v hiv hjv => hne ?_
      rw [mem_filter, mem_toList] at hiv hjv
      exact h.leaf_unique hm hs hd ((hls i).mp hi) ((hls j).mp hj) hiv.1 hjv.1
  · rw [← h.mem_tuples hd hls, mem_flatMap]
    constructor
    · rintro ⟨i, hi, hv⟩
      rw [mem_filter, mem_toList] at hv
      exact ⟨hv.2, i, hi, hv.1⟩
    · rintro ⟨hview, i, hi, hv⟩
      refine ⟨i, hi, ?_⟩
      rw [mem_filter, mem_toList]
      exact ⟨hv, hview⟩

/-- The cursor stops early just if some tuple below the bound values satisfies the visitor. -/
theorem Represents.visit_spec (h : x.Represents m) (inView : ℕ → Bool) {visit : ℕ → Option Bool}
    {p : ℕ → Bool} (hvis : ∀ v, inView v → visit v = some (p v)) :
    ∃ current b, x.openRetrieval buffer selection = some current ∧
      x.visitFrom selection.length inView visit x.nodes.length current = some b ∧
      (b = true ↔ ∃ v, inView v ∧ p v ∧ Matches m x.indexingSequence.length objects v) := by
  have hd : objects.length + (x.indexingSequence.length - selection.length) =
      x.indexingSequence.length := by
    rw [length_of_mapM hobjs]
    omega
  obtain ⟨kids, ls, ⟨chain, hs⟩, hnd, hls, hopen, hcons⟩ := h.openRetrieval_spec hobjs hpos hle
  have hlive : ∀ i ∈ ls, x.Live i := by
    intro i hi
    obtain ⟨u, -, hpath⟩ := (hls i).mp hi
    exact hpath.live hs
  have hfnd : x.visitFrom selection.length inView visit x.nodes.length ls.head? =
      some (ls.any fun i => (x.node i).tupleIndex.any fun v => inView v && p v) := by
    cases ls with
    | nil => exact visitFrom_none _ _ _ _
    | cons c rest =>
      obtain ⟨hc, selected, hrest⟩ := hcons c rest rfl
      exact hs.visitFrom_spec (by omega) hc hrest inView hvis (length_le_of_live hnd hlive)
  refine ⟨_, _, hopen, hfnd, ?_⟩
  rw [List.any_eq_true]
  constructor
  · rintro ⟨i, hi, hv⟩
    obtain ⟨v, hv, hstop⟩ := (Option.any_eq_true _ _).mp hv
    rw [Bool.and_eq_true] at hstop
    exact ⟨v, hstop.1, hstop.2, (h.mem_tuples hd hls v).mp ⟨i, hi, hv⟩⟩
  · rintro ⟨v, hview, hp, hmatch⟩
    obtain ⟨i, hi, hv⟩ := (h.mem_tuples hd hls v).mpr hmatch
    exact ⟨i, hi, (Option.any_eq_true _ _).mpr ⟨v, hv, by rw [Bool.and_eq_true]; exact ⟨hview, hp⟩⟩⟩

end cursor

end retrieved

end Hermit.TupleIndex
