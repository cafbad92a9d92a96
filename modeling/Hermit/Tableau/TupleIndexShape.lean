import Hermit.Library.Linked
import Hermit.Tableau.TupleIndex

/-! # The links of a tuple index

The nodes in use are threaded twice: through the chains of the buckets, where each lies in the
bucket of its key and parent, and through the lists of siblings, where each lies with the
children of its parent.  Adding and removing nodes keeps both, and so does moving the nodes to
more buckets.
-/

namespace Hermit.TupleIndex

open Option hiding guard
open List Function

open Library

variable {arity : ℕ} {x x' : TupleIndex arity} {chain kids : ℕ → List ℕ}

/-- The node at a position, and an empty one past the end. -/
def nodeAt (nodes : List TrieNode) (i : ℕ) : TrieNode := nodes[i]?.getD {}

def node (x : TupleIndex arity) (i : ℕ) : TrieNode := nodeAt x.nodes i

def bucket (x : TupleIndex arity) (b : ℕ) : Option ℕ := x.buckets[b]?.getD none

/-- A node in use. -/
def Live (x : TupleIndex arity) (i : ℕ) : Prop := i < x.nodes.length ∧ i ∉ x.free

/-- The bucket in which a node belongs. -/
def bucketOf (x : TupleIndex arity) (i : ℕ) : ℕ :=
  bucketFor x.bucketsMask (x.node i).key (x.node i).parent

/-- The nodes in use are the root and those of the chains, and the chains and the lists of
siblings hold the nodes that belong there. -/
structure Shaped (x : TupleIndex arity) (chain kids : ℕ → List ℕ) : Prop where
  free_nodup : x.free.Nodup
  free_lt : ∀ i ∈ x.free, i < x.nodes.length
  count : x.numberOfNodes + x.free.length + 1 = x.nodes.length
  length_buckets : x.buckets.length = x.bucketsMask + 1
  root : x.Live x.root
  linked_chain : ∀ b, b < x.buckets.length →
    Linked (fun i => (x.node i).nextEntry) (x.bucket b) (chain b)
  mem_chain : ∀ b i, i ∈ chain b ↔ x.Live i ∧ i ≠ x.root ∧ x.bucketOf i = b
  linked_kids : ∀ p, x.Live p → DoublyLinked (fun i => (x.node i).previousSibling)
    (fun i => (x.node i).nextSibling) (x.node p).firstChild (kids p)
  mem_kids : ∀ p i, i ∈ kids p ↔ x.Live i ∧ i ≠ x.root ∧ (x.node i).parent = some p
  parent : ∀ i, x.Live i → i ≠ x.root → ∃ p, (x.node i).parent = some p ∧ x.Live p
  unique : ∀ i j, x.Live i → x.Live j → i ≠ x.root → j ≠ x.root →
    (x.node i).parent = (x.node j).parent → (x.node i).key = (x.node j).key → i = j

theorem nodeAt_nodes (i : ℕ) : nodeAt x.nodes i = x.node i := rfl

variable {i t : ℕ} {l : List ℕ}

theorem getElem?_nodes (h : i < x.nodes.length) : x.nodes[i]? = some (x.node i) := by
  simp [node, nodeAt, h]

theorem nodeAt_modify {nodes : List TrieNode} (h : i < nodes.length) (f : TrieNode → TrieNode)
    (j : ℕ) : nodeAt (nodes.modify i f) j = if j = i then f
    (nodeAt nodes i) else nodeAt nodes j := by
  unfold nodeAt
  rw [getElem?_modify]
  split_ifs with hij hji hji
  · subst hij
    simp [h]
  · exact absurd hij.symm hji
  · exact absurd hji.symm hij
  · simp

theorem modifyNode_of_lt (h : i < x.nodes.length) (f : TrieNode → TrieNode) :
    x.modifyNode i f = some { x with nodes := x.nodes.modify i f } := if_pos h

theorem modifyLink_spec {link : Option ℕ} (h : ∀ i, link = some i → i < x.nodes.length)
    (f : TrieNode → TrieNode) :
    ∃ nodes, x.modifyLink link f = some { x with nodes := nodes } ∧ nodes.length = x.nodes.length ∧
      ∀ i, nodeAt nodes i = if link = some i then f (nodeAt x.nodes i) else nodeAt x.nodes i := by
  cases link with
  | none => exact ⟨x.nodes, rfl, rfl, fun i => by simp⟩
  | some j =>
    refine ⟨_, modifyNode_of_lt (h j rfl) f, length_modify _ _ _, fun i => ?_⟩
    rw [nodeAt_modify (h j rfl)]
    by_cases hij : i = j
    · simp [hij]
    · have hji : ¬ j = i := fun heq => hij heq.symm
      simp [hij, hji]

theorem bucketFor_le (mask : ℕ) (key : UInt64) (parent : Option ℕ) :
    bucketFor mask key parent ≤ mask :=
  Nat.and_le_right

theorem length_le_of_nodup (hnd : l.Nodup) {n : ℕ} (hlt : ∀ i ∈ l, i < n) : l.length ≤ n := by
  have hsub : l ⊆ List.range n := fun i hi => mem_range.mpr (hlt i hi)
  have hle := (hnd.subperm hsub).length_le
  rwa [length_range] at hle

theorem getElem?_buckets {b : ℕ} (h : b < x.buckets.length) :
    x.buckets[b]? = some (x.bucket b) := by
  simp [bucket, h]

section

variable (h : x.Shaped chain kids)
include h

theorem Shaped.bucket_lt (key : UInt64) (parent : Option ℕ) :
    bucketFor x.bucketsMask key parent < x.buckets.length := by
  rw [h.length_buckets]
  exact Nat.lt_succ_of_le (bucketFor_le _ _ _)

theorem Shaped.chain_lt (b : ℕ) : ∀ i ∈ chain b, i < x.nodes.length :=
  fun i hi => ((h.mem_chain b i).mp hi).1.1

theorem Shaped.length_chain_le {b : ℕ} (hb : b < x.buckets.length) :
    (chain b).length ≤ x.nodes.length :=
  length_le_of_nodup (h.linked_chain b hb).nodup (h.chain_lt b)

end

/-! ## Finding a child -/

theorem findFrom_spec (parent : ℕ) (key : UInt64) {head : Option ℕ}
    (hl : Linked (fun i => (x.node i).nextEntry) head l)
    (hlt : ∀ i ∈ l, i < x.nodes.length) {fuel : ℕ} (hfuel : l.length ≤ fuel) :
    ∃ r, x.findFrom parent key fuel head = some r ∧
      (∀ c, r = some c → c ∈ l ∧ (x.node c).parent = some parent ∧ (x.node c).key = key) ∧
      (r = none → ∀ c ∈ l, ¬ ((x.node c).parent = some parent ∧ (x.node c).key = key)) := by
  induction l generalizing head fuel with
  | nil =>
    rw [show head = none from hl]
    refine ⟨none, ?_, by simp, by simp⟩
    cases fuel <;> rfl
  | cons i l ih =>
    obtain ⟨rfl, hrest⟩ := hl
    cases fuel with
    | zero => simp at hfuel
    | succ fuel =>
      rw [findFrom, getElem?_nodes (hlt i mem_cons_self)]
      by_cases hmatch : (x.node i).parent = some parent ∧ (x.node i).key = key
      · refine ⟨some i, ?_, ?_, fun hnone => by cases hnone⟩
        · rw [bind_eq_bind, bind_some, if_pos hmatch]
          rfl
        · intro c hc
          obtain rfl := some.inj hc
          exact ⟨mem_cons_self, hmatch⟩
      · obtain ⟨r, hr, hsome, hnone⟩ := ih hrest (fun j hj => hlt j (mem_cons_of_mem i hj))
          (Nat.le_of_succ_le_succ hfuel)
        refine ⟨r, ?_, ?_, ?_⟩
        · rw [bind_eq_bind, bind_some, if_neg hmatch]
          exact hr
        · intro c hc
          obtain ⟨hmem, hmatch'⟩ := hsome c hc
          exact ⟨mem_cons_of_mem i hmem, hmatch'⟩
        · intro hr' c hc
          rcases mem_cons.mp hc with rfl | hc
          · exact hmatch
          · exact hnone hr' c hc

/-- The child of a node for a key. -/
def IsChild (x : TupleIndex arity) (parent : ℕ) (key : UInt64) (c : ℕ) : Prop :=
  x.Live c ∧ c ≠ x.root ∧ (x.node c).parent = some parent ∧ (x.node c).key = key

section

variable (h : x.Shaped chain kids)
include h

theorem Shaped.getChildNode_spec (parent : ℕ) (key : UInt64) :
    ∃ r, x.getChildNode parent key = some r ∧ ∀ c, r = some c ↔ x.IsChild parent key c := by
  have hb := h.bucket_lt key (some parent)
  obtain ⟨r, hr, hsome, hnone⟩ := findFrom_spec parent key (h.linked_chain _ hb) (h.chain_lt _)
    (h.length_chain_le hb)
  refine ⟨r, ?_, fun c => ⟨fun hc => ?_, fun hc => ?_⟩⟩
  · rw [getChildNode, getElem?_buckets hb, bind_eq_bind, bind_some]
    exact hr
  · obtain ⟨hmem, hpnt, hkey⟩ := hsome c hc
    obtain ⟨hlive, hroot, -⟩ := (h.mem_chain _ c).mp hmem
    exact ⟨hlive, hroot, hpnt, hkey⟩
  · obtain ⟨hlive, hroot, hpnt, hkey⟩ := hc
    cases r with
    | none =>
      have hmem : c ∈ chain (bucketFor x.bucketsMask key (some parent)) := by
        rw [h.mem_chain, bucketOf, hpnt, hkey]
        exact ⟨hlive, hroot, rfl⟩
      exact absurd ⟨hpnt, hkey⟩ (hnone rfl c hmem)
    | some c' =>
      obtain ⟨hmem, hpnt', hkey'⟩ := hsome c' rfl
      obtain ⟨hlive', hroot', -⟩ := (h.mem_chain _ c').mp hmem
      rw [h.unique c' c hlive' hlive hroot' hroot (hpnt'.trans hpnt.symm) (hkey'.trans hkey.symm)]

theorem Shaped.newTrieNode_spec :
    ∃ c nodes free, x.newTrieNode = some (c, { x with nodes := nodes, free := free }) ∧
      ¬ x.Live c ∧ c < nodes.length ∧ (∀ i, i ≠ c → nodeAt nodes i = x.node i) ∧
      (∀ i, i < nodes.length ∧ i ∉ free ↔ x.Live i ∨ i = c) ∧
      free.Nodup ∧ (∀ i ∈ free, i < nodes.length) ∧
      x.numberOfNodes + 1 + free.length + 1 = nodes.length := by
  have hcount := h.count
  have hnd := h.free_nodup
  have hfree := h.free_lt
  unfold newTrieNode Live
  cases hx : x.free with
  | nil =>
    rw [hx] at hcount
    refine ⟨x.nodes.length, x.nodes ++ [({} : TrieNode)], [], ?_, ?_, ?_, ?_, ?_, nodup_nil,
      by simp, ?_⟩
    · dsimp only
    · simp
    · simp
    · intro i hi
      simp only [node, nodeAt, getElem?_append]
      split_ifs with hlt
      · rfl
      · rw [getElem?_eq_none (by simp; omega), getElem?_eq_none (by omega)]
    · intro i
      simp only [length_append, length_singleton, not_mem_nil, not_false_eq_true, and_true]
      omega
    · simp only [length_append, length_singleton, length_nil] at hcount ⊢
      omega
  | cons reused free =>
    rw [hx] at hcount hnd hfree
    obtain ⟨hnot, hnd⟩ := nodup_cons.mp hnd
    have hlt := hfree reused mem_cons_self
    refine ⟨reused, x.nodes.modify reused fun _ => {}, free, ?_, ?_, ?_, ?_, ?_, hnd, ?_, ?_⟩
    · dsimp only
      rw [modifyNode_of_lt hlt]
      rfl
    · simp
    · rwa [length_modify]
    · intro i hi
      rw [nodeAt_modify hlt, if_neg hi]
      rfl
    · intro i
      rw [length_modify]
      constructor
      · rintro ⟨hi, hmem⟩
        by_cases heq : i = reused
        · exact .inr heq
        · refine .inl ⟨hi, fun hmem' => ?_⟩
          rcases mem_cons.mp hmem' with heq' | hmem'
          · exact heq heq'
          · exact hmem hmem'
      · rintro (⟨hi, hmem⟩ | rfl)
        · exact ⟨hi, fun hmem' => hmem (mem_cons_of_mem reused hmem')⟩
        · exact ⟨hlt, hnot⟩
    · intro i hi
      rw [length_modify]
      exact hfree i (mem_cons_of_mem reused hi)
    · rw [length_modify, ← hcount, length_cons]
      omega

/-- What adding a child changes. -/
structure Added (x : TupleIndex arity) (parent : ℕ) (key : UInt64) (c : ℕ) (x' : TupleIndex arity) :
    Prop where
  fresh : ¬ x.Live c
  live : ∀ i, x'.Live i ↔ x.Live i ∨ i = c
  root_eq : x'.root = x.root
  indexingSequence_eq : x'.indexingSequence = x.indexingSequence
  mask_eq : x'.bucketsMask = x.bucketsMask
  length_buckets : x'.buckets.length = x.buckets.length
  bucket_eq : ∀ b, b < x.buckets.length → x'.bucket b =
    if b = bucketFor x.bucketsMask key (some parent) then some c else x.bucket b
  free_nodup : x'.free.Nodup
  free_lt : ∀ i ∈ x'.free, i < x'.nodes.length
  count : x'.numberOfNodes + x'.free.length + 1 = x'.nodes.length
  new_node : x'.node c =
    { parent := some parent
      nextSibling := (x.node parent).firstChild
      nextEntry := x.bucket (bucketFor x.bucketsMask key (some parent))
      key := key }
  old_node : ∀ i, i ≠ c → x'.node i =
    { x.node i with
      previousSibling := if (x.node parent).firstChild = some i then some c
        else (x.node i).previousSibling
      firstChild := if i = parent then some c else (x.node i).firstChild }

theorem Shaped.addChild_spec {parent : ℕ} (hpnt : x.Live parent) (key : UInt64) :
    ∃ c x', x.addChild parent key = some (c, x') ∧ Added x parent key c x' := by
  obtain ⟨c, nodes, free, hnew, hfresh, hc, hnodes, hlive, hnd, hfree, hcount⟩ := h.newTrieNode_spec
  have hpc : parent ≠ c := by
    rintro rfl
    exact hfresh hpnt
  have hp : parent < nodes.length := ((hlive parent).mpr (.inl hpnt)).1
  have hb := h.bucket_lt key (some parent)
  have hsibling : ∀ s, (x.node parent).firstChild = some s → s < nodes.length ∧ s ≠ c := by
    intro s hs
    have hmem : s ∈ kids parent := (h.linked_kids parent hpnt).forward.mem_of_head hs
    obtain ⟨hs', -⟩ := (h.mem_kids parent s).mp hmem
    refine ⟨((hlive s).mpr (.inl hs')).1, ?_⟩
    rintro rfl
    exact hfresh hs'
  have hparentNode : nodeAt nodes parent = x.node parent := hnodes parent hpc
  have hget : nodes[parent]? = some (x.node parent) := by
    rw [← hparentNode]
    simp [nodeAt, hp]
  -- The nodes after linking the old first child back to the new one.
  obtain ⟨nodes₁, hnodes₁, hlen₁, hnode₁⟩ := modifyLink_spec
    (show ∀ i, (x.node parent).firstChild = some i →
      i < ({ x with nodes := nodes, free := free } : TupleIndex arity).nodes.length from
      fun i hi => (hsibling i hi).1) fun n => { n with previousSibling := some c }
  replace hnode₁ : ∀ i, i ≠ c → nodeAt nodes₁ i = if (x.node parent).firstChild = some i
      then { x.node i with previousSibling := some c } else x.node i := by
    intro i hi
    rw [hnode₁, hnodes i hi]
  have hp₁ : parent < nodes₁.length := by rwa [hlen₁]
  have hc₁ : c < (nodes₁.modify parent fun n => { n with firstChild := some c }).length := by
    rw [length_modify, hlen₁]
    exact hc
  refine ⟨c, { x with
    nodes := (nodes₁.modify parent fun n => { n with firstChild := some c }).modify c fun _ =>
      { parent := some parent
        nextSibling := (x.node parent).firstChild
        nextEntry := x.bucket (bucketFor x.bucketsMask key (some parent))
        key := key }
    free := free
    buckets := x.buckets.set (bucketFor x.bucketsMask key (some parent)) (some c)
    numberOfNodes := x.numberOfNodes + 1 }, ?_, ?_⟩
  · unfold addChild
    simp only [bind_eq_bind, Option.pure_def, hnew, bind_some, hget, hnodes₁]
    rw [modifyNode_of_lt hp₁, bind_some, getElem?_buckets hb, bind_some,
      modifyNode_of_lt hc₁, bind_some]
  · refine ⟨hfresh, fun i => ?_, rfl, rfl, rfl, ?_, fun b hb' => ?_, hnd, ?_, ?_, ?_,
      fun i hi => ?_⟩
    · simp only [Live, length_modify, hlen₁]
      exact hlive i
    · simp
    · simp only [bucket, getElem?_set]
      split_ifs with heq heq' heq'
      · simp
      · exact absurd heq.symm heq'
      · exact absurd heq'.symm heq
      · rfl
    · intro i hi
      simp only [length_modify, hlen₁]
      exact hfree i hi
    · simp only [length_modify, hlen₁]
      exact hcount
    · simp only [node]
      rw [nodeAt_modify hc₁, if_pos rfl]
    · change nodeAt _ i = _
      rw [nodeAt_modify hc₁, if_neg hi, nodeAt_modify hp₁]
      by_cases hip : i = parent
      · rw [if_pos hip, ← hip, hnode₁ i hi]
        by_cases hfst : (x.node i).firstChild = some i <;> simp [← hip, hfst]
      · rw [if_neg hip, hnode₁ i hi]
        by_cases hfst : (x.node parent).firstChild = some i <;> simp [hip, hfst]

section added

variable {parent : ℕ} {key : UInt64} {c : ℕ} (ha : Added x parent key c x')
include ha

omit h in
theorem Added.ne_of_live (hi : x.Live i) : i ≠ c := by
  rintro rfl
  exact ha.fresh hi

omit h in
theorem Added.bucketOf_eq (hi : i ≠ c) : x'.bucketOf i = x.bucketOf i := by
  rw [bucketOf, bucketOf, ha.mask_eq, ha.old_node i hi]

omit h in
theorem Added.bucketOf_new : x'.bucketOf c = bucketFor x.bucketsMask key (some parent) := by
  rw [bucketOf, ha.mask_eq, ha.new_node]

theorem Shaped.added_linked_chain {b : ℕ} (hb : b < x.buckets.length) :
    Linked (fun i => (x'.node i).nextEntry) (x'.bucket b)
      (Function.update chain (bucketFor x.bucketsMask key (some parent))
        (c :: chain (bucketFor x.bucketsMask key (some parent))) b) := by
  have hold : ∀ i ∈ chain b, (x'.node i).nextEntry = (x.node i).nextEntry := by
    intro i hi
    rw [ha.old_node i (ha.ne_of_live ((h.mem_chain b i).mp hi).1)]
  rw [ha.bucket_eq b hb]
  by_cases hbb : b = bucketFor x.bucketsMask key (some parent)
  · rw [if_pos hbb, hbb, update_self]
    refine ⟨rfl, ?_⟩
    simp only [ha.new_node]
    rw [← hbb]
    exact (h.linked_chain b hb).congr hold
  · rw [if_neg hbb, update_of_ne hbb]
    exact (h.linked_chain b hb).congr hold

theorem Shaped.added_mem_chain (b i : ℕ) :
    i ∈ Function.update chain (bucketFor x.bucketsMask key (some parent))
        (c :: chain (bucketFor x.bucketsMask key (some parent))) b ↔
      x'.Live i ∧ i ≠ x'.root ∧ x'.bucketOf i = b := by
  have hmem : i ∈ Function.update chain (bucketFor x.bucketsMask key (some parent))
      (c :: chain (bucketFor x.bucketsMask key (some parent))) b ↔
      i ∈ chain b ∨ b = bucketFor x.bucketsMask key (some parent) ∧ i = c := by
    by_cases hbb : b = bucketFor x.bucketsMask key (some parent)
    · rw [hbb, update_self, mem_cons]
      tauto
    · rw [update_of_ne hbb]
      tauto
  rw [hmem, ha.live, ha.root_eq, h.mem_chain]
  by_cases hic : i = c
  · subst hic
    rw [ha.bucketOf_new]
    constructor
    · rintro (⟨hlive, -⟩ | ⟨hb, -⟩)
      · exact absurd hlive ha.fresh
      · exact ⟨.inr rfl, (ha.ne_of_live h.root).symm, hb.symm⟩
    · rintro ⟨-, -, hb⟩
      exact .inr ⟨hb.symm, rfl⟩
  · rw [ha.bucketOf_eq hic]
    simp [hic]

variable (hpnt : x.Live parent)
include hpnt

theorem Shaped.added_linked_kids {p : ℕ} (hp : x'.Live p) :
    DoublyLinked (fun i => (x'.node i).previousSibling) (fun i => (x'.node i).nextSibling)
      (x'.node p).firstChild
      (Function.update (Function.update kids parent (c :: kids parent)) c [] p) := by
  have hne : ∀ p, ∀ i ∈ kids p, i ≠ c := fun p i hi => ha.ne_of_live ((h.mem_kids p i).mp hi).1
  have hold : ∀ p, ∀ i ∈ kids p, (x'.node i).nextSibling = (x.node i).nextSibling := by
    intro p i hi
    rw [ha.old_node i (hne p i hi)]
  have hback : ∀ p, ∀ i ∈ kids p, (x.node parent).firstChild ≠ some i →
      (x'.node i).previousSibling = (x.node i).previousSibling := by
    intro p i hi hfst
    rw [ha.old_node i (hne p i hi)]
    exact if_neg hfst
  by_cases hpc : p = c
  · rw [hpc, update_self, ha.new_node]
    exact doublyLinked_nil
  · rw [update_of_ne hpc]
    have hlive : x.Live p := ((ha.live p).mp hp).resolve_right hpc
    by_cases hpp : p = parent
    · subst hpp
      rw [update_self, ha.old_node p hpc]
      simp only [if_true]
      refine (h.linked_kids p hpnt).push ?_ ?_ (fun i hi => ?_) (hback p) (hold p)
      · simp only [ha.new_node]
      · simp only [ha.new_node]
      · have hmem : i ∈ kids p := (h.linked_kids p hpnt).forward.mem_of_head hi
        rw [ha.old_node i (hne p i hmem)]
        exact if_pos hi
    · rw [update_of_ne hpp, ha.old_node p hpc]
      simp only [hpp, if_false]
      refine (h.linked_kids p hlive).congr (fun i hi => hback p i hi ?_) (hold p)
      -- The first child of the parent is no child of another node.
      intro hfst
      have hmem : i ∈ kids parent := (h.linked_kids parent hpnt).forward.mem_of_head hfst
      have hpi := ((h.mem_kids p i).mp hi).2.2
      rw [((h.mem_kids parent i).mp hmem).2.2] at hpi
      exact hpp (some.inj hpi).symm

theorem Shaped.added_mem_kids (p i : ℕ) :
    i ∈ Function.update (Function.update kids parent (c :: kids parent)) c [] p ↔
      x'.Live i ∧ i ≠ x'.root ∧ (x'.node i).parent = some p := by
  have hmem : i ∈ Function.update (Function.update kids parent (c :: kids parent)) c [] p ↔
      p ≠ c ∧ (i ∈ kids p ∨ p = parent ∧ i = c) := by
    by_cases hpc : p = c
    · rw [hpc, update_self]
      simp
    · rw [update_of_ne hpc]
      by_cases hpp : p = parent
      · rw [hpp, update_self, mem_cons]
        have hpc' : parent ≠ c := hpp ▸ hpc
        tauto
      · rw [update_of_ne hpp]
        tauto
  rw [hmem, ha.live, ha.root_eq, h.mem_kids]
  by_cases hic : i = c
  · subst hic
    rw [ha.new_node]
    constructor
    · rintro ⟨-, ⟨hlive, -⟩ | ⟨hp, -⟩⟩
      · exact absurd hlive ha.fresh
      · exact ⟨.inr rfl, (ha.ne_of_live h.root).symm, congrArg some hp.symm⟩
    · rintro ⟨-, -, hp⟩
      obtain rfl := some.inj hp
      exact ⟨ha.ne_of_live hpnt, .inr ⟨rfl, rfl⟩⟩
  · rw [ha.old_node i hic]
    constructor
    · rintro ⟨-, ⟨hlive, hr, hp⟩ | ⟨-, heq⟩⟩
      · exact ⟨.inl hlive, hr, hp⟩
      · exact absurd heq hic
    · rintro ⟨hlive, hr, hp⟩
      have hlive' := hlive.resolve_right hic
      obtain ⟨q, hq, hlq⟩ := h.parent i hlive' hr
      obtain rfl := some.inj (hp.symm.trans hq)
      exact ⟨ha.ne_of_live hlq, .inl ⟨hlive', hr, hp⟩⟩

omit hpnt in
theorem Shaped.added_unique (hnew : ∀ i, ¬ x.IsChild parent key i) {j : ℕ} (hi : x'.Live i)
    (hj : x'.Live j) (hri : i ≠ x.root) (hrj : j ≠ x.root)
    (hpar : (x'.node i).parent = (x'.node j).parent) (hkey : (x'.node i).key = (x'.node j).key) :
    i = j := by
  have hchild : ∀ i, i ≠ c → x'.Live i → i ≠ x.root → (x'.node i).parent = some parent →
      (x'.node i).key ≠ key := by
    intro i hic hi hri hpar hkey
    rw [ha.old_node i hic] at hpar hkey
    exact hnew i ⟨((ha.live i).mp hi).resolve_right hic, hri, hpar, hkey⟩
  by_cases hic : i = c
  · by_cases hjc : j = c
    · rw [hic, hjc]
    · rw [hic, ha.new_node] at hpar hkey
      exact absurd hkey.symm (hchild j hjc hj hrj hpar.symm)
  · by_cases hjc : j = c
    · rw [hjc, ha.new_node] at hpar hkey
      exact absurd hkey (hchild i hic hi hri hpar)
    · rw [ha.old_node i hic, ha.old_node j hjc] at hpar hkey
      exact h.unique i j (((ha.live i).mp hi).resolve_right hic)
        (((ha.live j).mp hj).resolve_right hjc) hri hrj hpar hkey

/-- Both threads after adding a child in front of them. -/
theorem Shaped.added (hnew : ∀ i, ¬ x.IsChild parent key i) :
    x'.Shaped (Function.update chain (bucketFor x.bucketsMask key (some parent))
        (c :: chain (bucketFor x.bucketsMask key (some parent))))
      (Function.update (Function.update kids parent (c :: kids parent)) c []) where
  free_nodup := ha.free_nodup
  free_lt := ha.free_lt
  count := ha.count
  length_buckets := by rw [ha.length_buckets, ha.mask_eq, h.length_buckets]
  root := by
    rw [ha.root_eq, ha.live]
    exact .inl h.root
  linked_chain := fun b hb => h.added_linked_chain ha (ha.length_buckets ▸ hb)
  mem_chain := h.added_mem_chain ha
  linked_kids := fun p hp => h.added_linked_kids ha hpnt hp
  mem_kids := h.added_mem_kids ha hpnt
  parent := by
    intro i hi hroot
    rw [ha.root_eq] at hroot
    by_cases hic : i = c
    · subst hic
      exact ⟨parent, by rw [ha.new_node], (ha.live parent).mpr (.inl hpnt)⟩
    · obtain ⟨p, hp, hlive⟩ := h.parent i (((ha.live i).mp hi).resolve_right hic) hroot
      rw [ha.old_node i hic]
      exact ⟨p, hp, (ha.live p).mpr (.inl hlive)⟩
  unique := by
    intro i j hi hj hri hrj
    rw [ha.root_eq] at hri hrj
    exact h.added_unique ha hnew hi hj hri hrj

end added

end

/-! ## Removing a node -/

/-- What removing a node, found behind `previous` in its chain, changes. -/
structure Removed (x : TupleIndex arity) (t : ℕ) (previous : Option ℕ) (x' : TupleIndex arity) :
    Prop where
  live : ∀ i, x'.Live i ↔ x.Live i ∧ i ≠ t
  root_eq : x'.root = x.root
  indexingSequence_eq : x'.indexingSequence = x.indexingSequence
  mask_eq : x'.bucketsMask = x.bucketsMask
  length_buckets : x'.buckets.length = x.buckets.length
  bucket_eq : ∀ b, b < x.buckets.length → x'.bucket b =
    if previous = none ∧ b = x.bucketOf t then (x.node t).nextEntry else x.bucket b
  free_nodup : x'.free.Nodup
  free_lt : ∀ i ∈ x'.free, i < x'.nodes.length
  count : x'.numberOfNodes + x'.free.length + 1 = x'.nodes.length
  node_eq : ∀ i, x'.node i =
    { x.node i with
      firstChild := if (x.node t).previousSibling = none ∧ (x.node t).parent = some i
        then (x.node t).nextSibling else (x.node i).firstChild
      nextSibling := if (x.node t).previousSibling = some i
        then (x.node t).nextSibling else (x.node i).nextSibling
      previousSibling := if (x.node t).nextSibling = some i
        then (x.node t).previousSibling else (x.node i).previousSibling
      nextEntry := if previous = some i then (x.node t).nextEntry else (x.node i).nextEntry }

/-- Besides the root, a node to remove leaves something to count. -/
theorem Shaped.numberOfNodes_pos (h : x.Shaped chain kids) (ht : x.Live t) (hroot : t ≠ x.root) :
    0 < x.numberOfNodes := by
  have hnd : (t :: x.root :: x.free).Nodup := by
    refine nodup_cons.mpr ⟨fun hmem => ?_, nodup_cons.mpr ⟨h.root.2, h.free_nodup⟩⟩
    rcases mem_cons.mp hmem with heq | hmem
    · exact hroot heq
    · exact ht.2 hmem
  have hlt : ∀ i ∈ t :: x.root :: x.free, i < x.nodes.length := by
    intro i hi
    rcases mem_cons.mp hi with rfl | hi
    · exact ht.1
    · rcases mem_cons.mp hi with rfl | hi
      · exact h.root.1
      · exact h.free_lt i hi
  have hlen := length_le_of_nodup hnd hlt
  have hcount := h.count
  simp only [length_cons] at hlen
  omega

theorem skipSibling_spec {n : TrieNode} (hpnt : ∀ i, n.parent = some i → i < x.nodes.length)
    (hback : ∀ i, n.previousSibling = some i → i < x.nodes.length) :
    ∃ nodes, x.skipSibling n = some { x with nodes := nodes } ∧ nodes.length = x.nodes.length ∧
      ∀ i, nodeAt nodes i = { x.node i with
        firstChild := if n.previousSibling = none ∧ n.parent = some i then n.nextSibling
          else (x.node i).firstChild
        nextSibling := if n.previousSibling = some i then n.nextSibling
          else (x.node i).nextSibling } := by
  cases hn : n.previousSibling with
  | none =>
    obtain ⟨nodes, hnodes, hlen, hnode⟩ := modifyLink_spec hpnt
      fun m => { m with firstChild := n.nextSibling }
    refine ⟨nodes, ?_, hlen, fun i => ?_⟩
    · rw [skipSibling, hn]
      exact hnodes
    · rw [hnode]
      by_cases hi : n.parent = some i
      · simp [hi, nodeAt_nodes]
      · simp [hi, nodeAt_nodes]
  | some s =>
    have hs := hback s hn
    refine ⟨x.nodes.modify s fun m => { m with nextSibling := n.nextSibling }, ?_,
      length_modify _ _ _, fun i => ?_⟩
    · rw [skipSibling, hn]
      exact modifyNode_of_lt hs _
    · rw [nodeAt_modify hs]
      by_cases hi : i = s
      · subst hi
        simp [nodeAt_nodes]
      · have his : ¬ s = i := fun heq => hi heq.symm
        simp [hi, his, nodeAt_nodes]

theorem Shaped.unlink_spec (h : x.Shaped chain kids) (ht : x.Live t) (hroot : t ≠ x.root)
    {previous : Option ℕ} (hprevious : ∀ i, previous = some i → i < x.nodes.length)
    (hback : ∀ i, (x.node t).previousSibling = some i → i < x.nodes.length)
    (hnext : ∀ i, (x.node t).nextSibling = some i → i < x.nodes.length) :
    ∃ x', x.unlink t (x.bucketOf t) previous (x.node t) = some x' ∧ Removed x t previous x' := by
  have hpos := h.numberOfNodes_pos ht hroot
  obtain ⟨p, hp, hlive⟩ := h.parent t ht hroot
  obtain ⟨nodes₁, hnodes₁, hlen₁, hnode₁⟩ := skipSibling_spec
    (show ∀ i, (x.node t).parent = some i → i <
      ({ x with numberOfNodes := x.numberOfNodes - 1 } : TupleIndex arity).nodes.length from
      fun i hi => by
        rw [hp] at hi
        rw [← some.inj hi]
        exact hlive.1) hback
  replace hnode₁ : ∀ i, nodeAt nodes₁ i = { x.node i with
      firstChild := if (x.node t).previousSibling = none ∧ (x.node t).parent = some i
        then (x.node t).nextSibling else (x.node i).firstChild
      nextSibling := if (x.node t).previousSibling = some i
        then (x.node t).nextSibling else (x.node i).nextSibling } := hnode₁
  obtain ⟨nodes₂, hnodes₂, hlen₂, hnode₂⟩ := modifyLink_spec
    (show ∀ i, (x.node t).nextSibling = some i → i < ({ x with
        nodes := nodes₁, numberOfNodes := x.numberOfNodes - 1 } : TupleIndex arity).nodes.length
          from
      fun i hi => by
        rw [show _ = x.nodes.length from hlen₁]
        exact hnext i hi) fun n => { n with previousSibling := (x.node t).previousSibling }
  replace hlen₂ : nodes₂.length = x.nodes.length := hlen₂.trans hlen₁
  obtain ⟨nodes₃, hnodes₃, hlen₃, hnode₃⟩ := modifyLink_spec
    (show ∀ i, previous = some i → i < ({ x with
        nodes := nodes₂
        numberOfNodes := x.numberOfNodes - 1
        buckets := if previous = none then x.buckets.set (x.bucketOf t) (x.node t).nextEntry
          else x.buckets } : TupleIndex arity).nodes.length from
      fun i hi => by
        rw [show _ = x.nodes.length from hlen₂]
        exact hprevious i hi) fun n => { n with nextEntry := (x.node t).nextEntry }
  replace hlen₃ : nodes₃.length = x.nodes.length := hlen₃.trans hlen₂
  refine ⟨{ x with
    nodes := nodes₃
    numberOfNodes := x.numberOfNodes - 1
    buckets := if previous = none then x.buckets.set (x.bucketOf t) (x.node t).nextEntry
      else x.buckets
    free := t :: x.free }, ?_, ?_⟩
  · unfold unlink
    have hguard : (guard (0 < x.numberOfNodes) : Option Unit) = some () := if_pos hpos
    have hbuckets : (if previous = none then
        { x with nodes := nodes₂, numberOfNodes := x.numberOfNodes - 1
                 buckets := x.buckets.set (x.bucketOf t) (x.node t).nextEntry }
        else { x with nodes := nodes₂, numberOfNodes := x.numberOfNodes - 1 } : TupleIndex arity) =
        { x with
          nodes := nodes₂
          numberOfNodes := x.numberOfNodes - 1
          buckets := if previous = none then x.buckets.set (x.bucketOf t) (x.node t).nextEntry
            else x.buckets } := by
      split_ifs <;> rfl
    simp only [bind_eq_bind, Option.pure_def, hguard, bind_some]
    rw [hnodes₁, bind_some, hnodes₂, bind_some, hbuckets, hnodes₃, bind_some]
  · refine ⟨fun i => ?_, rfl, rfl, rfl, ?_, fun b hb => ?_, ?_, ?_, ?_, fun i => ?_⟩
    · simp only [Live, hlen₃, mem_cons, not_or]
      tauto
    · dsimp only
      split_ifs <;> simp
    · simp only [bucket]
      by_cases hnone : previous = none
      · rw [if_pos hnone, getElem?_set]
        by_cases hbt : b = x.bucketOf t
        · have hlt : x.bucketOf t < x.buckets.length := hbt ▸ hb
          rw [if_pos hbt.symm, if_pos hlt, if_pos ⟨hnone, hbt⟩]
          rfl
        · rw [if_neg (fun heq => hbt heq.symm), if_neg (fun hand => hbt hand.2)]
      · rw [if_neg hnone, if_neg (fun hand => hnone hand.1)]
    · exact nodup_cons.mpr ⟨ht.2, h.free_nodup⟩
    · intro i hi
      rw [hlen₃]
      rcases mem_cons.mp hi with rfl | hi
      · exact ht.1
      · exact h.free_lt i hi
    · have hcount := h.count
      dsimp only
      rw [hlen₃, length_cons]
      omega
    · change nodeAt nodes₃ i = _
      rw [hnode₃, hnode₂, hnode₁]
      by_cases hprev : previous = some i <;> by_cases hnext' : (x.node t).nextSibling = some i <;>
        simp [hprev, hnext']

theorem erase_append_cons {r : List ℕ} (h : (l ++ t :: r).Nodup) :
    (l ++ t :: r).erase t = l ++ r := by
  have ht : t ∉ l := fun hmem =>
    (nodup_append.mp h).2.2 t hmem t mem_cons_self rfl
  rw [erase_append_right _ ht, erase_cons_head]

section removed

variable (h : x.Shaped chain kids) (ht : x.Live t) (hroot : t ≠ x.root) {r : List ℕ}
  (hchain : chain (x.bucketOf t) = l ++ t :: r) (hr : Removed x t l.getLast? x')

include hr in
theorem Removed.bucketOf_eq (i : ℕ) : x'.bucketOf i = x.bucketOf i := by
  rw [bucketOf, bucketOf, hr.mask_eq, hr.node_eq]

include h

theorem Shaped.mem_erase_chain (b : ℕ) : i ∈ (chain b).erase t ↔ i ≠ t ∧ i ∈ chain b := by
  by_cases hbt : b = x.bucketOf t
  · rw [hbt]
    exact (h.linked_chain _ (h.bucket_lt _ _)).nodup.mem_erase_iff
  · have hnot : t ∉ chain b := fun hmem => hbt ((h.mem_chain b t).mp hmem).2.2.symm
    rw [erase_of_not_mem hnot]
    exact ⟨fun hi => ⟨ne_of_mem_of_not_mem hi hnot, hi⟩, fun hi => hi.2⟩

include ht hroot

theorem Shaped.mem_erase_kids (q : ℕ) : i ∈ (kids q).erase t ↔ i ≠ t ∧ i ∈ kids q := by
  obtain ⟨p, hp, hlive⟩ := h.parent t ht hroot
  by_cases hqp : q = p
  · subst hqp
    exact (h.linked_kids q hlive).forward.nodup.mem_erase_iff
  · have hnot : t ∉ kids q := by
      rw [h.mem_kids, hp]
      exact fun hmem => hqp (some.inj hmem.2.2).symm
    rw [erase_of_not_mem hnot]
    exact ⟨fun hi => ⟨ne_of_mem_of_not_mem hi hnot, hi⟩, fun hi => hi.2⟩

include hr

theorem Shaped.removed_linked_kids {q : ℕ} (hq : x.Live q) :
    DoublyLinked (fun i => (x'.node i).previousSibling) (fun i => (x'.node i).nextSibling)
      (x'.node q).firstChild ((kids q).erase t) := by
  obtain ⟨p, hp, hlive⟩ := h.parent t ht hroot
  obtain ⟨l', r', hsib⟩ := append_of_mem ((h.mem_kids p t).mpr ⟨ht, hroot, hp⟩)
  have hdoubly := h.linked_kids p hlive
  rw [hsib] at hdoubly
  obtain ⟨hprev, hnext⟩ := hdoubly.neighbours
  by_cases hqp : q = p
  · subst hqp
    rw [hsib, erase_append_cons hdoubly.forward.nodup, hr.node_eq]
    refine hdoubly.remove ?_ (fun j hj => ?_) (fun j hj hne => ?_) (fun j hj => ?_)
      fun j hj hne => ?_
    · simp [hp]
    · simp only [hr.node_eq, hj, if_true]
    · simp only [hr.node_eq, hne, if_false]
    · simp only [hr.node_eq, hj, if_true]
    · simp only [hr.node_eq, hne, if_false]
  · have hpq : ¬ (x.node t).parent = some q := by
      rw [hp]
      exact fun heq => hqp (some.inj heq).symm
    rw [erase_of_not_mem (fun hmem => hpq ((h.mem_kids q t).mp hmem).2.2), hr.node_eq]
    -- The neighbours of the node are children of its own parent.
    have hne : ∀ j ∈ kids q, j ∉ l' ++ t :: r' := by
      intro j hj hmem
      rw [← hsib] at hmem
      have hjq := ((h.mem_kids q j).mp hj).2.2
      rw [((h.mem_kids p j).mp hmem).2.2] at hjq
      exact hqp (some.inj hjq).symm
    simp only [hpq, and_false, if_false]
    refine (h.linked_kids q hq).congr (fun j hj => ?_) fun j hj => ?_
    · have hnot : ¬ (x.node t).nextSibling = some j := by
        rw [hnext]
        intro heq
        exact hne j hj (mem_append_right _ (mem_cons_of_mem t (mem_of_head? heq)))
      simp only [hr.node_eq, hnot, if_false]
    · have hnot : ¬ (x.node t).previousSibling = some j := by
        rw [hprev]
        intro heq
        exact hne j hj (mem_append_left _ (mem_of_getLast? heq))
      simp only [hr.node_eq, hnot, if_false]

include hchain

omit ht hroot in
theorem Shaped.removed_linked_chain {b : ℕ} (hb : b < x.buckets.length) :
    Linked (fun i => (x'.node i).nextEntry) (x'.bucket b) ((chain b).erase t) := by
  have hlink := h.linked_chain _ (h.bucket_lt (x.node t).key (x.node t).parent)
  rw [← bucketOf, hchain] at hlink
  rw [hr.bucket_eq b hb]
  by_cases hbt : b = x.bucketOf t
  · subst hbt
    rw [hchain, erase_append_cons hlink.nodup]
    refine hlink.remove ?_ (fun j hj => ?_) fun j hj hne => ?_
    · cases l with
      | nil => simp
      | cons k l => simp
    · simp only [hr.node_eq, hj, if_true]
    · simp only [hr.node_eq, hne, if_false]
  · rw [if_neg (fun hand => hbt hand.2),
      erase_of_not_mem (fun hmem => hbt ((h.mem_chain b t).mp hmem).2.2.symm)]
    refine (h.linked_chain b hb).congr fun j hj => ?_
    have hne : l.getLast? ≠ some j := by
      intro heq
      have hmem : j ∈ chain (x.bucketOf t) := by
        rw [hchain]
        exact mem_append_left _ (mem_of_getLast? heq)
      have hjb := ((h.mem_chain _ j).mp hmem).2.2
      rw [((h.mem_chain b j).mp hj).2.2] at hjb
      exact hbt hjb
    simp only [hr.node_eq, hne, if_false]

theorem Shaped.removed (hkids : kids t = []) :
    x'.Shaped (fun b => (chain b).erase t) (fun p => (kids p).erase t) where
  free_nodup := hr.free_nodup
  free_lt := hr.free_lt
  count := hr.count
  length_buckets := by rw [hr.length_buckets, hr.mask_eq, h.length_buckets]
  root := by
    rw [hr.root_eq, hr.live]
    exact ⟨h.root, hroot.symm⟩
  linked_chain := fun b hb => h.removed_linked_chain hchain hr (hr.length_buckets ▸ hb)
  mem_chain := by
    intro b i
    rw [h.mem_erase_chain, hr.live, hr.root_eq, h.mem_chain, hr.bucketOf_eq]
    tauto
  linked_kids := fun q hq => h.removed_linked_kids ht hroot hr ((hr.live q).mp hq).1
  mem_kids := by
    intro q i
    rw [h.mem_erase_kids ht hroot, hr.live, hr.root_eq, h.mem_kids, hr.node_eq]
    tauto
  parent := by
    intro i hi hroot'
    obtain ⟨hi, hit⟩ := (hr.live i).mp hi
    rw [hr.root_eq] at hroot'
    obtain ⟨q, hq, hqlive⟩ := h.parent i hi hroot'
    rw [hr.node_eq]
    refine ⟨q, hq, (hr.live q).mpr ⟨hqlive, ?_⟩⟩
    rintro rfl
    have hmem := (h.mem_kids q i).mpr ⟨hi, hroot', hq⟩
    rw [hkids] at hmem
    cases hmem
  unique := by
    intro i j hi hj hri hrj hpar hkey
    rw [hr.root_eq] at hri hrj
    rw [hr.node_eq, hr.node_eq] at hpar hkey
    exact h.unique i j ((hr.live i).mp hi).1 ((hr.live j).mp hj).1 hri hrj hpar hkey

end removed

/-- The walk along a chain comes to the node behind its predecessor. -/
theorem unlinkFrom_spec {bucket : ℕ} {head previous : Option ℕ} {r : List ℕ}
    (hl : Linked (fun i => (x.node i).nextEntry) head (l ++ t :: r))
    (hlt : ∀ i ∈ l ++ t :: r, i < x.nodes.length) (ht : t ∉ l) {fuel : ℕ}
    (hfuel : (l ++ t :: r).length ≤ fuel) :
    x.unlinkFrom t bucket fuel previous head =
      x.unlink t bucket (l.getLast?.or previous) (x.node t) := by
  induction l generalizing head previous fuel with
  | nil =>
    cases fuel with
    | zero => simp at hfuel
    | succ fuel =>
      rw [hl.1, unlinkFrom, getElem?_nodes (hlt t mem_cons_self), bind_eq_bind,
        bind_some, if_pos rfl]
      rfl
  | cons i l ih =>
    cases fuel with
    | zero => simp at hfuel
    | succ fuel =>
      have hit : i ≠ t := by
        rintro rfl
        exact ht mem_cons_self
      rw [hl.1, unlinkFrom, getElem?_nodes (hlt i mem_cons_self), bind_eq_bind,
        bind_some, if_neg hit, ih hl.2 (fun j hj => hlt j (mem_cons_of_mem i hj))
        (fun hmem => ht (mem_cons_of_mem i hmem)) (Nat.le_of_succ_le_succ hfuel)]
      cases l with
      | nil => rfl
      | cons j l =>
        rw [getLast?_cons_cons, getLast?_eq_some_getLast (cons_ne_nil j l)]
        rfl

theorem Shaped.removeTrieNode_spec (h : x.Shaped chain kids) (ht : x.Live t)
    (hroot : t ≠ x.root) (hkids : kids t = []) :
    ∃ previous x', x.removeTrieNode t = some x' ∧ Removed x t previous x' ∧
      x'.Shaped (fun b => (chain b).erase t) (fun p => (kids p).erase t) := by
  have hb : x.bucketOf t < x.buckets.length := h.bucket_lt _ _
  obtain ⟨l, r, hchain⟩ := append_of_mem ((h.mem_chain _ t).mpr ⟨ht, hroot, rfl⟩)
  have hlink := h.linked_chain _ hb
  have hlt := h.chain_lt (x.bucketOf t)
  have hlen := h.length_chain_le hb
  rw [hchain] at hlink hlt hlen
  have htl : t ∉ l := fun hmem =>
    (nodup_append.mp hlink.nodup).2.2 t hmem t mem_cons_self rfl
  obtain ⟨p, hp, hlive⟩ := h.parent t ht hroot
  obtain ⟨l', r', hsib⟩ := append_of_mem ((h.mem_kids p t).mpr ⟨ht, hroot, hp⟩)
  have hdoubly := h.linked_kids p hlive
  rw [hsib] at hdoubly
  obtain ⟨hprev, hnext⟩ := hdoubly.neighbours
  have hsibling_lt : ∀ i ∈ l' ++ t :: r', i < x.nodes.length := by
    intro i hi
    rw [← hsib] at hi
    exact ((h.mem_kids p i).mp hi).1.1
  obtain ⟨x', hx', hrem⟩ := h.unlink_spec ht hroot
    (fun i (hi : l.getLast? = some i) => hlt i (mem_append_left _ (mem_of_getLast? hi)))
    (fun i hi => hsibling_lt i (mem_append_left _ (mem_of_getLast? (hprev.symm.trans hi))))
    (fun i hi => hsibling_lt i (mem_append_right _
      (mem_cons_of_mem t (mem_of_head? (hnext.symm.trans hi)))))
  refine ⟨l.getLast?, x', ?_, hrem, h.removed ht hroot hchain hrem hkids⟩
  rw [removeTrieNode, getElem?_nodes ht.1, bind_eq_bind, bind_some]
  change (do
    let head ← x.buckets[x.bucketOf t]?
    x.unlinkFrom t (x.bucketOf t) x.nodes.length none head) = some x'
  rw [getElem?_buckets hb, bind_eq_bind, bind_some, unlinkFrom_spec hlink hlt htl hlen, or_none]
  exact hx'

/-! ## More buckets -/

section rehash

variable {mask : ℕ} {ids ids' : List ℕ} {r r' r'' : List TrieNode × List (Option ℕ)}
  {new new' new'' : ℕ → List ℕ}

/-- What moving nodes to new buckets changes: only links to the next entries, and those of the
nodes that were moved. -/
structure Rehashed (mask : ℕ) (ids : List ℕ) (r r' : List TrieNode × List (Option ℕ))
    (new new' : ℕ → List ℕ) : Prop where
  length_nodes : r'.1.length = r.1.length
  length_buckets : r'.2.length = r.2.length
  unchanged : ∀ i, i ∉ ids → nodeAt r'.1 i = nodeAt r.1 i
  fields : ∀ i, nodeAt r'.1 i = { nodeAt r.1 i with nextEntry := (nodeAt r'.1 i).nextEntry }
  linked : ∀ b, b < r'.2.length → Linked (fun i => (nodeAt r'.1 i).nextEntry)
    (r'.2[b]?.getD none) (new' b)
  mem : ∀ b i, i ∈ new' b ↔
    i ∈ new b ∨ i ∈ ids ∧ bucketFor mask (nodeAt r.1 i).key (nodeAt r.1 i).parent = b

theorem Rehashed.refl (hlink : ∀ b, b < r.2.length →
      Linked (fun i => (nodeAt r.1 i).nextEntry) (r.2[b]?.getD none) (new b)) :
    Rehashed mask [] r r new new :=
  ⟨rfl, rfl, fun _ _ => rfl, fun _ => rfl, hlink, fun b i => by simp⟩

theorem Rehashed.trans (h : Rehashed mask ids r r' new new')
    (h' : Rehashed mask ids' r' r'' new' new'') :
    Rehashed mask (ids ++ ids') r r'' new new'' := by
  refine ⟨h'.length_nodes.trans h.length_nodes, h'.length_buckets.trans h.length_buckets,
    fun i hi => ?_, fun i => ?_, h'.linked, fun b i => ?_⟩
  · rw [mem_append, not_or] at hi
    rw [h'.unchanged i hi.2, h.unchanged i hi.1]
  · rw [h'.fields i, h.fields i]
  · have hkey : (nodeAt r'.1 i).key = (nodeAt r.1 i).key := by rw [h.fields i]
    have hpnt : (nodeAt r'.1 i).parent = (nodeAt r.1 i).parent := by rw [h.fields i]
    rw [h'.mem, h.mem, hkey, hpnt, mem_append]
    tauto

/-- One node goes to the front of its new bucket. -/
theorem rehashed_push (hlink : ∀ b, b < r.2.length →
      Linked (fun i => (nodeAt r.1 i).nextEntry) (r.2[b]?.getD none) (new b))
    {i : ℕ} (hi : i < r.1.length) (hnew : ∀ b, i ∉ new b) {b : ℕ} (hb : b < r.2.length)
    (hbucket : b = bucketFor mask (nodeAt r.1 i).key (nodeAt r.1 i).parent) :
    Rehashed mask [i] r
      (r.1.modify i fun n => { n with nextEntry := r.2[b]?.getD none }, r.2.set b (some i))
      new (Function.update new b (i :: new b)) := by
  have hnode : ∀ j, nodeAt (r.1.modify i fun n => { n with nextEntry := r.2[b]?.getD none }) j =
      if j = i then { nodeAt r.1 i with nextEntry := r.2[b]?.getD none } else nodeAt r.1 j :=
    fun j => nodeAt_modify hi _ j
  refine ⟨length_modify _ _ _, length_set, fun j hj => ?_, fun j => ?_, fun b' hb' => ?_,
    fun b' j => ?_⟩
  · rw [hnode, if_neg (fun heq => hj (mem_singleton.mpr heq))]
  · rw [hnode]
    split_ifs with hji
    · rw [hji]
    · rfl
  · rw [length_set] at hb'
    have hcongr : Linked (fun j => (nodeAt (r.1.modify i fun n =>
        { n with nextEntry := r.2[b]?.getD none }) j).nextEntry) (r.2[b']?.getD none) (new b') := by
      refine (hlink b' hb').congr fun j hj => ?_
      rw [hnode, if_neg (ne_of_mem_of_not_mem hj (hnew b'))]
    by_cases hbb : b' = b
    · subst hbb
      rw [update_self]
      refine ⟨by simp [hb'], ?_⟩
      simp only [hnode, if_true]
      simp only [hnode] at hcongr
      exact hcongr
    · rw [update_of_ne hbb]
      have hget : (r.2.set b (some i))[b']? = r.2[b']? := getElem?_set_ne (fun heq => hbb heq.symm)
      simp only [hget]
      exact hcongr
  · by_cases hbb : b' = b
    · subst hbb
      rw [update_self, mem_cons, mem_singleton]
      constructor
      · rintro (rfl | hj)
        · exact .inr ⟨rfl, hbucket.symm⟩
        · exact .inl hj
      · rintro (hj | ⟨rfl, -⟩)
        · exact .inr hj
        · exact .inl rfl
    · rw [update_of_ne hbb, mem_singleton]
      constructor
      · exact .inl
      · rintro (hj | ⟨rfl, hbj⟩)
        · exact hj
        · exact absurd (hbj.symm.trans hbucket.symm) hbb

theorem rehashFrom_spec {head : Option ℕ} {fuel : ℕ}
    (hl : Linked (fun i => (nodeAt r.1 i).nextEntry) head ids) (hlt : ∀ i ∈ ids, i < r.1.length)
    (hfuel : ids.length ≤ fuel) (hmask : mask < r.2.length) (hlink : ∀ b, b < r.2.length →
      Linked (fun i => (nodeAt r.1 i).nextEntry) (r.2[b]?.getD none) (new b))
    (hnew : ∀ b, ∀ i ∈ ids, i ∉ new b) :
    ∃ r' new', rehashFrom mask fuel head r = some r' ∧ Rehashed mask ids r r' new new' := by
  have hnd := hl.nodup
  induction ids generalizing head fuel r new with
  | nil =>
    rw [show head = none from hl]
    refine ⟨r, new, ?_, .refl hlink⟩
    cases fuel <;> rfl
  | cons i l ih =>
    obtain ⟨rfl, hrest⟩ := hl
    obtain ⟨hil, hnd⟩ := nodup_cons.mp hnd
    cases fuel with
    | zero => simp at hfuel
    | succ fuel =>
      obtain ⟨nodes, buckets⟩ := r
      have hi : i < nodes.length := hlt i mem_cons_self
      have hb : bucketFor mask (nodeAt nodes i).key (nodeAt nodes i).parent < buckets.length :=
        (bucketFor_le _ _ _).trans_lt hmask
      have hpush := rehashed_push hlink hi (fun b => hnew b i mem_cons_self) hb rfl
      have hrest' : Linked (fun j => (nodeAt (nodes.modify i fun n => { n with
          nextEntry :=
            buckets[bucketFor mask (nodeAt nodes i).key (nodeAt nodes i).parent]?.getD none })
          j).nextEntry) (nodeAt nodes i).nextEntry l := by
        refine hrest.congr fun j hj => ?_
        rw [hpush.unchanged j fun hmem => hil (mem_singleton.mp hmem ▸ hj)]
      have hnew' : ∀ b, ∀ j ∈ l, j ∉ Function.update new
          (bucketFor mask (nodeAt nodes i).key (nodeAt nodes i).parent)
          (i :: new (bucketFor mask (nodeAt nodes i).key (nodeAt nodes i).parent)) b := by
        intro b j hj hmem
        rcases (hpush.mem b j).mp hmem with hmem | ⟨hmem, -⟩
        · exact hnew b j (mem_cons_of_mem i hj) hmem
        · exact hil (mem_singleton.mp hmem ▸ hj)
      obtain ⟨r', new', hr', hrehash⟩ := ih hrest' (fun j hj => by
          rw [hpush.length_nodes]
          exact hlt j (mem_cons_of_mem i hj))
        (Nat.le_of_succ_le_succ hfuel) (by rwa [hpush.length_buckets]) hpush.linked hnew' hnd
      refine ⟨r', new', ?_, hpush.trans hrehash⟩
      have hnode : nodes[i]? = some (nodeAt nodes i) := by simp [nodeAt, hi]
      have hbucket : buckets[bucketFor mask (nodeAt nodes i).key (nodeAt nodes i).parent]? =
          some (buckets[bucketFor mask (nodeAt nodes i).key (nodeAt nodes i).parent]?.getD none) :=
            by
        simp [hb]
      rw [rehashFrom, hnode, bind_eq_bind, bind_some]
      dsimp only
      rw [bind_eq_bind, hbucket, bind_some]
      exact hr'

theorem foldlM_rehashFrom_spec (new : ℕ → List ℕ) {heads : List (Option ℕ)} {chains : List (List ℕ)}
    {fuel : ℕ} (hl : List.Forall₂ (Linked fun i => (nodeAt r.1 i).nextEntry) heads chains)
    (hlt : ∀ l ∈ chains, ∀ i ∈ l, i < r.1.length) (hfuel : ∀ l ∈ chains, l.length ≤ fuel)
    (hdisj : chains.Pairwise List.Disjoint) (hmask : mask < r.2.length)
    (hlink : ∀ b, b < r.2.length →
      Linked (fun i => (nodeAt r.1 i).nextEntry) (r.2[b]?.getD none) (new b))
    (hnew : ∀ b, ∀ l ∈ chains, ∀ i ∈ l, i ∉ new b) :
    ∃ r' new', heads.foldlM (fun r head => rehashFrom mask fuel head r) r = some r' ∧
      Rehashed mask chains.flatten r r' new new' := by
  induction heads generalizing chains r new with
  | nil =>
    cases hl
    exact ⟨r, new, rfl, .refl hlink⟩
  | cons head heads ih =>
    obtain ⟨l, chains, hhead, hheads, rfl⟩ := forall₂_cons_left_iff.mp hl
    obtain ⟨hl, hdisj⟩ := pairwise_cons.mp hdisj
    obtain ⟨r₁, new₁, hr₁, hrehash₁⟩ := rehashFrom_spec hhead (hlt l mem_cons_self)
      (hfuel l mem_cons_self) hmask hlink fun b => hnew b l mem_cons_self
    have hheads' : List.Forall₂ (Linked fun i => (nodeAt r₁.1 i).nextEntry) heads chains := by
      rw [forall₂_iff_get] at hheads ⊢
      refine ⟨hheads.1, fun j hj hj' => (hheads.2 j hj hj').congr fun i hi => ?_⟩
      rw [hrehash₁.unchanged i fun hmem => hl _ (List.get_mem chains ⟨j, hj'⟩) hmem hi]
    obtain ⟨r', new', hr', hrehash⟩ := ih new₁ hheads' (fun l' hl' i hi => by
        rw [hrehash₁.length_nodes]
        exact hlt l' (mem_cons_of_mem l hl') i hi)
      (fun l' hl' => hfuel l' (mem_cons_of_mem l hl')) hdisj
      (by rwa [hrehash₁.length_buckets]) hrehash₁.linked
      (fun b l' hl' i hi hmem => by
        rcases (hrehash₁.mem b i).mp hmem with hmem | ⟨hmem, -⟩
        · exact hnew b l' (mem_cons_of_mem l hl') i hi hmem
        · exact hl l' hl' hmem hi)
    refine ⟨r', new', ?_, hrehash₁.trans hrehash⟩
    rw [foldlM_cons, hr₁]
    exact hr'

end rehash

/-- What a resize changes. -/
structure Resized (x x' : TupleIndex arity) : Prop where
  live : ∀ i, x'.Live i ↔ x.Live i
  root_eq : x'.root = x.root
  indexingSequence_eq : x'.indexingSequence = x.indexingSequence
  fields : ∀ i, x'.node i = { x.node i with nextEntry := (x'.node i).nextEntry }

theorem Shaped.resizeBuckets_spec (h : x.Shaped chain kids) :
    ∃ x' chain', x.resizeBuckets = some x' ∧ Resized x x' ∧ x'.Shaped chain' kids := by
  have hchains : List.Forall₂ (Linked fun i => (x.node i).nextEntry) x.buckets
      ((List.range x.buckets.length).map chain) := by
    rw [forall₂_iff_get]
    refine ⟨by simp, fun j hj hj' => ?_⟩
    have hlink := h.linked_chain j hj
    simp only [bucket, getElem?_eq_getElem hj, getD_some] at hlink
    simpa using hlink
  have hmem_chains : ∀ l ∈ (List.range x.buckets.length).map chain, ∃ b,
      b < x.buckets.length ∧ chain b = l := by
    intro l hl
    obtain ⟨b, hb, rfl⟩ := List.mem_map.mp hl
    exact ⟨b, mem_range.mp hb, rfl⟩
  have hdisj : ((List.range x.buckets.length).map chain).Pairwise List.Disjoint := by
    rw [pairwise_map]
    refine nodup_range.imp fun {b b'} hne i hi hi' => hne ?_
    rw [← ((h.mem_chain b i).mp hi).2.2, ((h.mem_chain b' i).mp hi').2.2]
  have hbuckets : x.buckets.length = x.bucketsMask + 1 := h.length_buckets
  obtain ⟨⟨nodes, buckets⟩, new, hr, hrehash⟩ := foldlM_rehashFrom_spec (fun _ => [])
    (show List.Forall₂ (Linked fun i => (nodeAt (x.nodes, List.replicate (x.buckets.length * 2)
      (none : Option ℕ)).1 i).nextEntry) x.buckets _ from hchains)
    (fun l hl i hi => by
      obtain ⟨b, -, rfl⟩ := hmem_chains l hl
      exact h.chain_lt b i hi)
    (fun l hl => by
      obtain ⟨b, hb, rfl⟩ := hmem_chains l hl
      exact h.length_chain_le hb)
    hdisj
    (show x.buckets.length * 2 - 1 <
        (List.replicate (x.buckets.length * 2) (none : Option ℕ)).length by
      rw [length_replicate]
      omega)
    (fun b hb => by
      rw [length_replicate] at hb
      simp only [getElem?_replicate, hb, if_true, getD_some]
      exact (rfl : (none : Option ℕ) = none))
    (fun b l hl i hi hmem => by cases hmem)
  have hlen : nodes.length = x.nodes.length := hrehash.length_nodes
  have hlength_buckets : buckets.length = x.buckets.length * 2 := by
    rw [show buckets.length = _ from hrehash.length_buckets, length_replicate]
  have hflds : ∀ i, nodeAt nodes i = { x.node i with nextEntry := (nodeAt nodes i).nextEntry } :=
    hrehash.fields
  refine ⟨{ x with
    nodes := nodes
    buckets := buckets
    bucketsMask := x.buckets.length * 2 - 1
    resizeThreshold := thresholdFor (x.buckets.length * 2) }, new, ?_, ?_, ?_⟩
  · rw [resizeBuckets]
    dsimp only
    rw [hr]
    rfl
  · refine ⟨fun i => ?_, rfl, rfl, hflds⟩
    simp only [Live, hlen]
  · have hlive : ∀ i, i < nodes.length ∧ i ∉ x.free ↔ x.Live i := by
      intro i
      rw [hlen]
      rfl
    have hpnt : ∀ i, (nodeAt nodes i).parent = (x.node i).parent := fun i => by rw [hflds i]
    have hkey : ∀ i, (nodeAt nodes i).key = (x.node i).key := fun i => by rw [hflds i]
    have hfst : ∀ i, (nodeAt nodes i).firstChild = (x.node i).firstChild := fun i => by rw [hflds i]
    have hprev : ∀ i, (nodeAt nodes i).previousSibling = (x.node i).previousSibling :=
      fun i => by rw [hflds i]
    have hnext : ∀ i, (nodeAt nodes i).nextSibling = (x.node i).nextSibling :=
      fun i => by rw [hflds i]
    refine ⟨h.free_nodup, fun i hi => ?_, ?_, ?_, (hlive _).mpr h.root, hrehash.linked,
        fun b i => ?_,
      fun p hp => ?_, fun p i => ?_, fun i hi hroot => ?_, fun i j hi hj hri hrj hpar hkey' => ?_⟩
    · rw [hlen]
      exact h.free_lt i hi
    · rw [hlen]
      exact h.count
    · dsimp only
      omega
    · rw [hrehash.mem]
      simp only [Live, hlive, bucketOf, node, hpnt, hkey]
      constructor
      · rintro (hmem | ⟨hmem, hb⟩)
        · cases hmem
        · obtain ⟨l, hl, hi⟩ := mem_flatten.mp hmem
          obtain ⟨b', -, rfl⟩ := hmem_chains l hl
          obtain ⟨hlive', hroot, -⟩ := (h.mem_chain b' i).mp hi
          exact ⟨hlive', hroot, hb⟩
      · rintro ⟨hlive', hroot, hb⟩
        refine .inr ⟨mem_flatten.mpr ⟨chain (x.bucketOf i), ?_, ?_⟩, hb⟩
        · exact List.mem_map.mpr ⟨_, mem_range.mpr (h.bucket_lt _ _), rfl⟩
        · exact (h.mem_chain _ i).mpr ⟨hlive', hroot, rfl⟩
    · simp only [node, hfst]
      exact (h.linked_kids p ((hlive p).mp hp)).congr (fun i _ => hprev i) fun i _ => hnext i
    · rw [h.mem_kids]
      simp only [Live, hlive, node, hpnt]
    · obtain ⟨p, hp, hplive⟩ := h.parent i ((hlive i).mp hi) hroot
      exact ⟨p, (hpnt i).trans hp, (hlive p).mpr hplive⟩
    · simp only [node, hpnt] at hpar
      simp only [node, hkey] at hkey'
      exact h.unique i j ((hlive i).mp hi) ((hlive j).mp hj) hri hrj hpar hkey'

end Hermit.TupleIndex
