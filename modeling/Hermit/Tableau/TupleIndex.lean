import Mathlib

/-! # The tuple index

A trie maps the projections of tuples to the indices of the tuples.  Its nodes lie in one
vector and are linked four ways: to the parent, to the first child, to both siblings, and to
the next node of the same hash bucket.  The empty link is `none`.  Every access may leave the
vector and every operation is then `none`, as it is where the source is unreachable; that
neither happens is part of what is proved.
-/

namespace Hermit

/-- Objects with keys of their own. -/
class EdgeKey (T : Type) where
  uniqueKey : T → UInt64
  injective : Function.Injective uniqueKey

open EdgeKey

/-! ## Objects of the tables -/

/-- Labels and nodes, by the addresses of the interned values and the numbers of the nodes.
Larger ones have no key. -/
inductive TableauObject where
  | concept (rawKey : Fin (2 ^ 61))
  | dlPredicate (rawKey : Fin (2 ^ 61))
  | negatedAtomicRole (address : Fin (2 ^ 61))
  | descriptionGraph (address : Fin (2 ^ 61))
  | node (id : Fin (2 ^ 61))
deriving DecidableEq, Repr

namespace TableauObject

def tag : TableauObject → ℕ
  | concept _ => 0
  | dlPredicate _ => 1
  | negatedAtomicRole _ => 2
  | descriptionGraph _ => 3
  | node _ => 4

def inner : TableauObject → Fin (2 ^ 61)
  | concept i => i
  | dlPredicate i => i
  | negatedAtomicRole i => i
  | descriptionGraph i => i
  | node i => i

variable (o : TableauObject)

def uniqueKey : UInt64 :=
  UInt64.ofNat ((o.tag <<< 61) ||| (o.inner.val &&& (1 <<< 61 - 1)))

theorem tag_lt : o.tag < 5 := by
  cases o <;> simp [tag]

theorem ext_tag_inner {o o' : TableauObject} (htag : o.tag = o'.tag) (hinn : o.inner = o'.inner) :
    o = o' := by
  cases o <;> cases o' <;> simp_all [tag, inner]

theorem toNat_uniqueKey : o.uniqueKey.toNat = o.tag * 2 ^ 61 + o.inner.val := by
  have htag := o.tag_lt
  have hinn := o.inner.isLt
  have hmask : o.inner.val &&& (1 <<< 61 - 1) = o.inner.val := by
    rw [Nat.one_shiftLeft, Nat.and_two_pow_sub_one_eq_mod, Nat.mod_eq_of_lt hinn]
  unfold uniqueKey
  rw [hmask, ← Nat.shiftLeft_add_eq_or_of_lt hinn, Nat.shiftLeft_eq, UInt64.toNat_ofNat_of_lt']
  simp only [UInt64.size]
  omega

/-- No two objects share a key. -/
theorem uniqueKey_injective : Function.Injective uniqueKey := by
  intro o o' h
  have hnat := congrArg UInt64.toNat h
  rw [toNat_uniqueKey, toNat_uniqueKey] at hnat
  have hinn := o.inner.isLt
  have hinn' := o'.inner.isLt
  apply ext_tag_inner
  · omega
  · apply Fin.ext
    omega

instance : EdgeKey TableauObject := ⟨uniqueKey, uniqueKey_injective⟩

end TableauObject

/-! ## The trie -/

structure TrieNode where
  parent : Option ℕ := none
  firstChild : Option ℕ := none
  previousSibling : Option ℕ := none
  nextSibling : Option ℕ := none
  tupleIndex : Option ℕ := none
  nextEntry : Option ℕ := none
  key : UInt64 := 0
deriving DecidableEq, Repr

structure TupleIndex (arity : ℕ) where
  indexingSequence : List (Fin arity)
  nodes : List TrieNode := []
  free : List ℕ := []
  root : ℕ := 0
  buckets : List (Option ℕ) := []
  bucketsMask : ℕ := 0
  resizeThreshold : ℕ := 0
  numberOfNodes : ℕ := 0
deriving DecidableEq, Repr

def initialBuckets : ℕ := 1024

/-- Mix the key of an edge with its parent. -/
def edgeHashKey (key : UInt64) (parent : ℕ) : UInt64 :=
  let h := key + UInt64.ofNat parent
  let h := h + ~~~(h <<< 9)
  let h := h ^^^ (h >>> 14)
  let h := h + (h <<< 4)
  h ^^^ (h >>> 10)

namespace TupleIndex

variable {arity : ℕ} {T : Type} [EdgeKey T] (x : TupleIndex arity)

/-- The bucket of an edge; a missing parent is the largest number. -/
def bucketFor (mask : ℕ) (key : UInt64) (parent : Option ℕ) : ℕ :=
  (edgeHashKey key (parent.getD (2 ^ 64 - 1))).toNat &&& mask

def modifyNode (i : ℕ) (f : TrieNode → TrieNode) : Option (TupleIndex arity) :=
  if i < x.nodes.length then some { x with nodes := x.nodes.modify i f } else none

/-- Follow a link, if there is one. -/
def modifyLink (link : Option ℕ) (f : TrieNode → TrieNode) : Option (TupleIndex arity) :=
  match link with
  | none => some x
  | some i => x.modifyNode i f

def newTrieNode : Option (ℕ × TupleIndex arity) :=
  match x.free with
  | reused :: free => do
    let x ← x.modifyNode reused fun _ => {}
    return (reused, { x with free := free })
  | [] => some (x.nodes.length, { x with nodes := x.nodes ++ [{}] })

/-- Four fifths of the buckets; the load factor of the source is a floating-point number. -/
def thresholdFor (len : ℕ) : ℕ := len * 4 / 5

/-- Grown buckets are kept, and emptied. -/
def clear : TupleIndex arity :=
  let len := max x.buckets.length initialBuckets
  { x with
    nodes := [{}]
    free := []
    root := 0
    buckets := List.replicate len none
    bucketsMask := len - 1
    resizeThreshold := thresholdFor len
    numberOfNodes := 0 }

def new (indexingSequence : List (Fin arity)) : TupleIndex arity :=
  clear { indexingSequence := indexingSequence }

/-! ## Children -/

/-- Walk a chain to the child with this parent and key. -/
def findFrom (parent : ℕ) (key : UInt64) : ℕ → Option ℕ → Option (Option ℕ)
  | _, none => some none
  | 0, some _ => none
  | fuel + 1, some child => do
    let node ← x.nodes[child]?
    if node.parent = some parent ∧ node.key = key then return some child
    else findFrom parent key fuel node.nextEntry

def getChildNode (parent : ℕ) (key : UInt64) : Option (Option ℕ) := do
  let head ← x.buckets[bucketFor x.bucketsMask key (some parent)]?
  x.findFrom parent key x.nodes.length head

/-- Move the nodes of a chain to the new buckets. -/
def rehashFrom (mask : ℕ) : ℕ → Option ℕ → List TrieNode × List (Option ℕ) →
    Option (List TrieNode × List (Option ℕ))
  | _, none, r => some r
  | 0, some _, _ => none
  | fuel + 1, some node, (nodes, buckets) => do
    let trie ← nodes[node]?
    let bucket := bucketFor mask trie.key trie.parent
    let head ← buckets[bucket]?
    rehashFrom mask fuel trie.nextEntry
      (nodes.modify node fun n => { n with nextEntry := head }, buckets.set bucket (some node))

def resizeBuckets : Option (TupleIndex arity) := do
  let len := x.buckets.length * 2
  let (nodes, buckets) ← x.buckets.foldlM
    (fun r head => rehashFrom (len - 1) x.nodes.length head r) (x.nodes, List.replicate len none)
  return { x with
    nodes := nodes
    buckets := buckets
    bucketsMask := len - 1
    resizeThreshold := thresholdFor len }

/-- A new node becomes the first child of its parent and the first node of its bucket. -/
def addChild (parent : ℕ) (key : UInt64) : Option (ℕ × TupleIndex arity) := do
  let bucket := bucketFor x.bucketsMask key (some parent)
  let (child, x) ← x.newTrieNode
  let parentNode ← x.nodes[parent]?
  let nextSibling := parentNode.firstChild
  let x ← x.modifyLink nextSibling fun n => { n with previousSibling := some child }
  let x ← x.modifyNode parent fun n => { n with firstChild := some child }
  let head ← x.buckets[bucket]?
  let x ← x.modifyNode child fun _ =>
    { parent := some parent, nextSibling := nextSibling, nextEntry := head, key := key }
  return (child, { x with
    buckets := x.buckets.set bucket (some child), numberOfNodes := x.numberOfNodes + 1 })

def getChildNodeAddIfNecessary (parent : ℕ) (key : UInt64) : Option (ℕ × TupleIndex arity) := do
  match ← x.getChildNode parent key with
  | some child => return (child, x)
  | none =>
    let x ← if x.resizeThreshold ≤ x.numberOfNodes then x.resizeBuckets else some x
    x.addChild parent key

/-- What links to a node in the list of siblings links to the node behind it. -/
def skipSibling (node : TrieNode) : Option (TupleIndex arity) :=
  match node.previousSibling with
  | none => x.modifyLink node.parent fun n => { n with firstChild := node.nextSibling }
  | some s => x.modifyNode s fun n => { n with nextSibling := node.nextSibling }

/-- Take a node, found behind `previousChild`, out of its lists. -/
def unlink (trieNode bucket : ℕ) (previousChild : Option ℕ) (node : TrieNode) :
    Option (TupleIndex arity) := do
  guard (0 < x.numberOfNodes)
  let x := { x with numberOfNodes := x.numberOfNodes - 1 }
  let x ← x.skipSibling node
  let x ← x.modifyLink node.nextSibling fun n => { n with previousSibling := node.previousSibling }
  let x := if previousChild = none
    then { x with buckets := x.buckets.set bucket node.nextEntry } else x
  let x ← x.modifyLink previousChild fun n => { n with nextEntry := node.nextEntry }
  return { x with free := trieNode :: x.free }

def unlinkFrom (trieNode bucket : ℕ) : ℕ → Option ℕ → Option ℕ → Option (TupleIndex arity)
  | _, _, none => none
  | 0, _, some _ => none
  | fuel + 1, previousChild, some child => do
    let node ← x.nodes[child]?
    if child = trieNode then x.unlink trieNode bucket previousChild node
    else unlinkFrom trieNode bucket fuel (some child) node.nextEntry

def removeTrieNode (trieNode : ℕ) : Option (TupleIndex arity) := do
  let node ← x.nodes[trieNode]?
  let bucket := bucketFor x.bucketsMask node.key node.parent
  let head ← x.buckets[bucket]?
  x.unlinkFrom trieNode bucket x.nodes.length none head

/-- Remove nodes upwards while they have no children. -/
def prune : ℕ → Option ℕ → TupleIndex arity → Option (TupleIndex arity)
  | _, none, _ => none
  | fuel, some trieNode, x =>
    if trieNode = x.root then some x
    else do
      let node ← x.nodes[trieNode]?
      if node.firstChild ≠ none then return x
      else
        match fuel with
        | 0 => none
        | fuel + 1 =>
          let x ← x.removeTrieNode trieNode
          prune fuel node.parent x

/-- Follow the objects of a projection downwards. -/
def descend : ℕ → List T → Option (Option ℕ)
  | trieNode, [] => some (some trieNode)
  | trieNode, object :: objects => do
    match ← x.getChildNode trieNode (uniqueKey object) with
    | none => return none
    | some child => descend child objects

def descendAdd : TupleIndex arity → ℕ → List T → Option (ℕ × TupleIndex arity)
  | x, trieNode, [] => some (trieNode, x)
  | x, trieNode, object :: objects => do
    let (child, x) ← x.getChildNodeAddIfNecessary trieNode (uniqueKey object)
    descendAdd x child objects

variable (tuple : Fin arity → T)

/-- The columns of a tuple in the order of the index. -/
def project : List T := x.indexingSequence.map tuple

def addTuple (potentialTupleIndex : ℕ) : Option (ℕ × TupleIndex arity) := do
  let (leaf, x) ← x.descendAdd x.root (x.project tuple)
  let node ← x.nodes[leaf]?
  match node.tupleIndex with
  | none =>
    let x ← x.modifyNode leaf fun n => { n with tupleIndex := some potentialTupleIndex }
    return (potentialTupleIndex, x)
  | some t => return (t, x)

def getTupleIndex : Option (Option ℕ) := do
  match ← x.descend x.root (x.project tuple) with
  | none => return none
  | some trieNode =>
    let node ← x.nodes[trieNode]?
    return node.tupleIndex

def removeTuple : Option (Option ℕ × TupleIndex arity) := do
  match ← x.descend x.root (x.project tuple) with
  | none => return (none, x)
  | some leaf =>
    let node ← x.nodes[leaf]?
    let x ← x.removeTrieNode leaf
    let x ← prune x.indexingSequence.length node.parent x
    return (node.tupleIndex, x)

end TupleIndex

end Hermit
