import Hermit.Tableau.CoreBlocking

/-! # Current blocks

After a pass the direct blocks are current: a blocked node has the signature of its blocker, an
earlier node that is active and not blocked.  Between two passes a block is current, or the next
pass looks at the node again.  Two kinds of steps lose track of a change: a concept that is not core
takes back the flag of a node that has changed, and in pairwise blocking a change of the core
label of a node is not noted at the nodes below it.
-/

namespace Hermit

open Option

open Datalog (NodeType)

namespace BlockingTableau

variable {cfg : BlockingConfiguration} {s s' s'' : BlockingTableau}

/-! ## Labels -/

theorem nodes_modifyNode (s : BlockingTableau) (k : ℕ) (f : BlockingNode → BlockingNode) (n : ℕ) :
    (s.modifyNode k f).nodes n = if n = k then f (s.nodes k) else s.nodes n := by
  simp only [modifyNode, Function.update_apply]

/-- The core label of a node, active or not. -/
def coreLabel (s : BlockingTableau) (node : ℕ) : Finset AtomicConcept :=
  ((s.assertions.filter fun a => a.node = node ∧ a.isCore).map (·.concept)).toFinset

def signature (cfg : BlockingConfiguration) (s : BlockingTableau) (node : ℕ) : ValidatedSignature :=
  (s.coreLabel node, if cfg.pairwise
    then some (((s.nodes node).parent.map s.coreLabel).getD ∅) else none)

variable {n node : ℕ}

theorem Rooted.validatedBlockSignature_eq (h : s.Rooted) (hn : n < s.numberOfNodes)
    (hactive : (s.nodes n).isActive = true) : s.validatedBlockSignature cfg n =
    s.signature cfg n := by
  have hlab : ∀ m, (s.nodes m).isActive = true → s.nodeCoreConceptLabel m = s.coreLabel m := by
    intro m hm
    rw [nodeCoreConceptLabel, if_pos hm, coreLabel]
  rw [validatedBlockSignature, signature, hlab n hactive]
  cases hp : (s.nodes n).parent with
  | none => rfl
  | some p => rw [map_some, map_some, hlab p (h n hn hactive p hp)]

/-- What a node has to be to take part in blocking while it is active. -/
def Eligible (cfg : BlockingConfiguration) (s : BlockingTableau) (node : ℕ) : Prop :=
  (s.nodes node).nodeType = .treeNode ∧ (cfg.hasInverses = true →
    ∃ p, (s.nodes node).parent = some p ∧
      ((s.nodes p).nodeType = .treeNode ∨ (s.nodes p).nodeType = .graphNode))

theorem canParticipateInBlocking_iff : s.canParticipateInBlocking cfg n = true ↔
    (s.nodes n).isActive = true ∧ s.Eligible cfg n := by
  cases hp : (s.nodes n).parent <;> cases hi : cfg.hasInverses <;>
    simp [canParticipateInBlocking, Eligible, hp, hi, and_assoc]

/-! ## What is kept -/

/-- The next pass starts no later than at a node. -/
def ChangedBy (s : BlockingTableau) (node : ℕ) : Prop := ∃ c, s.firstChangedNode = some c ∧ c ≤ node

/-- A node can block another one. -/
def Blocks (cfg : BlockingConfiguration) (s : BlockingTableau) (blocker node : ℕ) : Prop :=
  (s.nodes blocker).isActive = true ∧ (s.nodes blocker).isBlocked = false ∧
    s.signature cfg blocker = s.signature cfg node

/-- A direct block is current, or the next pass looks at the node again; and so for the cache. -/
structure Kept (cfg : BlockingConfiguration) (s : BlockingTableau) : Prop where
  parent_lt : ∀ n < s.numberOfNodes, ∀ p, (s.nodes n).parent = some p → p < n
  eligible : ∀ n < s.numberOfNodes, (s.nodes n).isBlocked = true → s.Eligible cfg n
  blocker_lt : ∀ n < s.numberOfNodes, (s.nodes n).directlyBlocked = true → ∃ b < n,
    (s.nodes n).blocker = some b
  blocks : ∀ n < s.numberOfNodes, (s.nodes n).isActive = true → (s.nodes n).directlyBlocked = true →
    ∀ b, (s.nodes n).blocker = some b → s.Blocks cfg b n ∨ s.ChangedBy b ∨
      (s.nodes n).hasBlockingInfoChanged = true ∧ s.ChangedBy n
  cache : ∀ e ∈ s.blockersCache, e.1 < s.numberOfNodes ∧ ((s.nodes e.1).isActive = true ∧
    (s.nodes e.1).isBlocked = false ∧ s.signature cfg e.1 = e.2 ∨ s.ChangedBy e.1)

/-- Two nodes that differ at most in what is flagged. -/
structure SameBlock (x y : BlockingNode) : Prop where
  parent : y.parent = x.parent
  nodeType : y.nodeType = x.nodeType
  blocker : y.blocker = x.blocker
  directlyBlocked : y.directlyBlocked = x.directlyBlocked

theorem SameBlock.isBlocked {x y : BlockingNode} (h : SameBlock x y) :
    y.isBlocked = x.isBlocked := by
  rw [BlockingNode.isBlocked, BlockingNode.isBlocked, h.blocker, h.directlyBlocked]

/-- A step in which the next pass comes to look at no less. -/
structure Weakens (s s' : BlockingTableau) : Prop where
  numberOfNodes : s'.numberOfNodes = s.numberOfNodes
  label : ∀ n, s'.coreLabel n = s.coreLabel n
  cache : s'.blockersCache = s.blockersCache
  block : ∀ n, SameBlock (s.nodes n) (s'.nodes n)
  active : ∀ n, (s'.nodes n).isActive = (s.nodes n).isActive
  flag : ∀ n, (s.nodes n).hasBlockingInfoChanged = true → (s'.nodes n).hasBlockingInfoChanged = true
  changed : ∀ n, s.ChangedBy n → s'.ChangedBy n

theorem Weakens.refl (s : BlockingTableau) : Weakens s s :=
  ⟨rfl, fun _ => rfl, rfl, fun _ => ⟨rfl, rfl, rfl, rfl⟩, fun _ => rfl, fun _ => id, fun _ => id⟩

theorem Weakens.trans (h : Weakens s s') (h' : Weakens s' s'') : Weakens s s'' where
  numberOfNodes := h'.numberOfNodes.trans h.numberOfNodes
  label n := (h'.label n).trans (h.label n)
  cache := h'.cache.trans h.cache
  block n := ⟨(h'.block n).parent.trans (h.block n).parent,
      (h'.block n).nodeType.trans (h.block n).nodeType,
    (h'.block n).blocker.trans (h.block n).blocker,
      (h'.block n).directlyBlocked.trans (h.block n).directlyBlocked⟩
  active n := (h'.active n).trans (h.active n)
  flag n hn := h'.flag n (h.flag n hn)
  changed n hn := h'.changed n (h.changed n hn)

section

variable (s : BlockingTableau) (k : ℕ)
include k

theorem weakens_modifyNode {f : BlockingNode → BlockingNode}
    (hblock : SameBlock (s.nodes k) (f (s.nodes k)))
    (hactive : (f (s.nodes k)).isActive = (s.nodes k).isActive)
    (hflag : (s.nodes k).hasBlockingInfoChanged = true →
      (f (s.nodes k)).hasBlockingInfoChanged = true) :
    Weakens s (s.modifyNode k f) := by
  refine ⟨rfl, fun _ => rfl, rfl, ?_, ?_, ?_, fun _ => id⟩
  · intro n
    rw [nodes_modifyNode]
    split_ifs with h
    · exact h ▸ hblock
    · exact ⟨rfl, rfl, rfl, rfl⟩
  · intro n
    rw [nodes_modifyNode]
    split_ifs with h
    · exact h ▸ hactive
    · rfl
  · intro n
    rw [nodes_modifyNode]
    split_ifs with h
    · exact h ▸ hflag
    · exact id

theorem changedBy_updateNodeChange : (s.updateNodeChange k).ChangedBy k := by
  rw [updateNodeChange]
  split
  · exact ⟨k, rfl, le_rfl⟩
  · rename_i c hc
    split_ifs with hlt
    · exact ⟨k, rfl, le_rfl⟩
    · exact ⟨c, hc, by omega⟩

theorem weakens_updateNodeChange : Weakens s (s.updateNodeChange k) := by
  have hchg : ∀ n, s.ChangedBy n → (s.updateNodeChange k).ChangedBy n := by
    rintro n ⟨c, hc, hle⟩
    simp only [updateNodeChange, hc]
    split_ifs with hlt
    · exact ⟨k, rfl, by omega⟩
    · exact ⟨c, hc, hle⟩
  have hrest : ∃ c, s.updateNodeChange k = { s with firstChangedNode := c } := by
    rw [updateNodeChange]
    split
    · exact ⟨_, rfl⟩
    · split_ifs
      · exact ⟨_, rfl⟩
      · exact ⟨s.firstChangedNode, rfl⟩
  obtain ⟨c, hc⟩ := hrest
  rw [hc] at hchg ⊢
  exact ⟨rfl, fun _ => rfl, rfl, fun _ => ⟨rfl, rfl, rfl, rfl⟩, fun _ => rfl, fun _ => id, hchg⟩

theorem weakens_rewindFrontier : Weakens s (s.rewindFrontier k) := by
  rw [rewindFrontier]
  split
  · exact Weakens.refl s
  · split_ifs
    · exact ⟨rfl, fun _ => rfl, rfl, fun _ => ⟨rfl, rfl, rfl, rfl⟩, fun _ => rfl, fun _ => id,
        fun _ => id⟩
    · exact Weakens.refl s

theorem weakens_invalidateBlockingCache : Weakens s (s.invalidateBlockingCache k) :=
  weakens_modifyNode s k ⟨rfl, rfl, rfl, rfl⟩ rfl fun _ => rfl

theorem weakens_noteBlockingNodeChanged : Weakens s (s.noteBlockingNodeChanged k) :=
  ((weakens_updateNodeChange s k).trans (weakens_invalidateBlockingCache _ k)).trans
    (weakens_rewindFrontier _ k)

theorem weakens_validationInfoChanged : Weakens s (s.validationInfoChanged k) := by
  rw [validationInfoChanged]
  apply Weakens.trans _ (weakens_modifyNode _ k ⟨rfl, rfl, rfl, rfl⟩ rfl fun h => h)
  split_ifs
  · exact (weakens_rewindFrontier s k).trans (weakens_updateNodeChange _ k)
  · exact Weakens.refl s

theorem weakens_validationInfoChangedParent : Weakens s (s.validationInfoChangedParent k) := by
  rw [validationInfoChangedParent]
  split
  · exact weakens_validationInfoChanged s _
  · exact Weakens.refl s

theorem noted_noteBlockingNodeChanged : (s.noteBlockingNodeChanged k).ChangedBy k ∧
      ((s.noteBlockingNodeChanged k).nodes k).hasBlockingInfoChanged = true := by
  have hrest := (weakens_invalidateBlockingCache (s.updateNodeChange k) k).trans
    (weakens_rewindFrontier _ k)
  refine ⟨hrest.changed k (changedBy_updateNodeChange s k), ?_⟩
  apply (weakens_rewindFrontier _ k).flag
  simp [invalidateBlockingCache, nodes_modifyNode]

end

theorem signature_eq {m : ℕ} (hlab : s'.coreLabel n = s.coreLabel m)
    (hpar : ((s'.nodes n).parent.map s'.coreLabel).getD ∅ =
      ((s.nodes m).parent.map s.coreLabel).getD ∅) :
    s'.signature cfg n = s.signature cfg m := by
  rw [signature, signature, hlab, hpar]

theorem Weakens.signature (h : Weakens s s') (n : ℕ) : s'.signature cfg n = s.signature cfg n := by
  apply signature_eq (h.label n)
  rw [(h.block n).parent, funext h.label]

theorem eligible_iff (hblock : ∀ n, SameBlock (s.nodes n) (s'.nodes n)) :
    s'.Eligible cfg n ↔ s.Eligible cfg n := by
  simp only [Eligible, (hblock _).parent, (hblock _).nodeType]

theorem Kept.weaken (h : Kept cfg s) (hs : Weakens s s') : Kept cfg s' := by
  constructor
  · intro n hn p hp
    rw [hs.numberOfNodes] at hn
    rw [(hs.block n).parent] at hp
    exact h.parent_lt n hn p hp
  · intro n hn hblkd
    rw [hs.numberOfNodes] at hn
    rw [(hs.block n).isBlocked] at hblkd
    exact (eligible_iff hs.block).mpr (h.eligible n hn hblkd)
  · intro n hn hdir
    rw [hs.numberOfNodes] at hn
    rw [(hs.block n).directlyBlocked] at hdir
    rw [(hs.block n).blocker]
    exact h.blocker_lt n hn hdir
  · intro n hn hactive hdir b hblk
    rw [hs.numberOfNodes] at hn
    rw [hs.active] at hactive
    rw [(hs.block n).directlyBlocked] at hdir
    rw [(hs.block n).blocker] at hblk
    rcases h.blocks n hn hactive hdir b hblk with hcur | hchg | ⟨hflag, hchg⟩
    · left
      rw [Blocks, hs.active, (hs.block b).isBlocked, hs.signature, hs.signature]
      exact hcur
    · exact .inr (.inl (hs.changed b hchg))
    · exact .inr (.inr ⟨hs.flag n hflag, hs.changed n hchg⟩)
  · intro e he
    rw [hs.cache] at he
    obtain ⟨hlt, hcur⟩ := h.cache e he
    rw [hs.numberOfNodes, hs.active, (hs.block e.1).isBlocked, hs.signature]
    exact ⟨hlt, hcur.imp_right (hs.changed e.1)⟩

/-- A step that changes the label of one node or whether it is active. -/
structure ChangesAt (s s' : BlockingTableau) (node : ℕ) : Prop where
  numberOfNodes : s'.numberOfNodes = s.numberOfNodes
  label : ∀ n ≠ node, s'.coreLabel n = s.coreLabel n
  cache : s'.blockersCache = s.blockersCache
  block : ∀ n, SameBlock (s.nodes n) (s'.nodes n)
  active : ∀ n ≠ node, (s'.nodes n).isActive = (s.nodes n).isActive
  flag : ∀ n, (s.nodes n).hasBlockingInfoChanged = true → (s'.nodes n).hasBlockingInfoChanged = true
  changed : ∀ n, s.ChangedBy n → s'.ChangedBy n

theorem ChangesAt.trans (h : ChangesAt s s' node) (h' : Weakens s' s'') : ChangesAt s s'' node where
  numberOfNodes := h'.numberOfNodes.trans h.numberOfNodes
  label n hn := (h'.label n).trans (h.label n hn)
  cache := h'.cache.trans h.cache
  block n := ⟨(h'.block n).parent.trans (h.block n).parent,
      (h'.block n).nodeType.trans (h.block n).nodeType,
    (h'.block n).blocker.trans (h.block n).blocker,
      (h'.block n).directlyBlocked.trans (h.block n).directlyBlocked⟩
  active n hn := (h'.active n).trans (h.active n hn)
  flag n hn := h'.flag n (h.flag n hn)
  changed n hn := h'.changed n (h.changed n hn)

/-- Every direct block that reads the label of a node through its parent is looked at again once the
node has changed: the blocked node is flagged, or its blocker comes from the changed node on. -/
def ParentSeen (cfg : BlockingConfiguration) (s : BlockingTableau) (node : ℕ) : Prop :=
  cfg.pairwise = true → ∀ n < s.numberOfNodes, (s.nodes n).isActive = true →
    (s.nodes n).directlyBlocked = true → (s.nodes n).parent = some node →
    (s.nodes n).hasBlockingInfoChanged = false → ∀ b, (s.nodes n).blocker = some b →
      node ≤ b ∨ s.ChangedBy b

/-- A node before the changed one has the same signature, since its parent comes before it. -/
theorem ChangesAt.signature_of_lt (hs : ChangesAt s s' node) (h : Kept cfg s)
    (hn : n < s.numberOfNodes) (hlt : n < node) :
    s'.signature cfg n = s.signature cfg n := by
  apply signature_eq (hs.label n (by omega))
  rw [(hs.block n).parent]
  cases hp : (s.nodes n).parent with
  | none => rfl
  | some p =>
    have hlt := h.parent_lt n hn p hp
    simp only [map_some, hs.label p (by omega)]

theorem ChangesAt.kept (hs : ChangesAt s s' node) (h : Kept cfg s)
    (hnoted : s'.ChangedBy node) (hflag : (s'.nodes node).hasBlockingInfoChanged = true)
    (hpar : s'.coreLabel node = s.coreLabel node ∨ s.ParentSeen cfg node) :
    Kept cfg s' := by
  have hafter : ∀ n, node ≤ n → s'.ChangedBy n := fun n hn => by
    obtain ⟨c, hc, hle⟩ := hnoted
    exact ⟨c, hc, hle.trans hn⟩
  constructor
  · intro n hn p hp
    rw [hs.numberOfNodes] at hn
    rw [(hs.block n).parent] at hp
    exact h.parent_lt n hn p hp
  · intro n hn hblkd
    rw [hs.numberOfNodes] at hn
    rw [(hs.block n).isBlocked] at hblkd
    exact (eligible_iff hs.block).mpr (h.eligible n hn hblkd)
  · intro n hn hdir
    rw [hs.numberOfNodes] at hn
    rw [(hs.block n).directlyBlocked] at hdir
    rw [(hs.block n).blocker]
    exact h.blocker_lt n hn hdir
  · intro n hn hactive hdir b hblk
    rw [hs.numberOfNodes] at hn
    by_cases hnode : n = node
    · subst hnode
      exact .inr (.inr ⟨hflag, hnoted⟩)
    rw [hs.active n hnode] at hactive
    rw [(hs.block n).directlyBlocked] at hdir
    rw [(hs.block n).blocker] at hblk
    rcases h.blocks n hn hactive hdir b hblk
      with ⟨hb, hunblocked, heq⟩ | hchg | ⟨hflag, hchg⟩
    · by_cases hle : node ≤ b
      · exact .inr (.inl (hafter b hle))
      obtain ⟨b', hb', hblk'⟩ := h.blocker_lt n hn hdir
      obtain rfl : b' = b := by rw [hblk] at hblk'; exact (some.inj hblk').symm
      have hblks : ((s.nodes n).parent = some node → s'.coreLabel node = s.coreLabel node) →
          s'.Blocks cfg b' n := by
        intro hlab
        refine ⟨(hs.active b' (by omega)).trans hb, (hs.block b').isBlocked.trans hunblocked, ?_⟩
        rw [hs.signature_of_lt h (by omega) (by omega), heq]
        symm
        apply signature_eq (hs.label n hnode)
        rw [(hs.block n).parent]
        cases hp : (s.nodes n).parent with
        | none => rfl
        | some p =>
          simp only [map_some]
          by_cases hpn : p = node
          · rw [hpn, hlab (hpn ▸ hp)]
          · rw [hs.label p hpn]
      by_cases hp : (s.nodes n).parent = some node
      · rcases hpar with hsame | hseen
        · exact .inl (hblks fun _ => hsame)
        by_cases hpw : cfg.pairwise = true
        · by_cases hflagged : (s.nodes n).hasBlockingInfoChanged = true
          · exact .inr (.inr ⟨hs.flag n hflagged, hafter n (h.parent_lt n hn node hp).le⟩)
          · rcases hseen hpw n hn hactive hdir hp (by simpa using hflagged) b' hblk
              with hge | hchg
            · exact .inr (.inl (hafter b' hge))
            · exact .inr (.inl (hs.changed b' hchg))
        · left
          refine ⟨(hs.active b' (by omega)).trans hb, (hs.block b').isBlocked.trans hunblocked, ?_⟩
          rw [hs.signature_of_lt h (by omega) (by omega), heq, signature, signature,
            hs.label n hnode]
          simp only [hpw]
          rfl
      · exact .inl (hblks fun h => absurd h hp)
    · exact .inr (.inl (hs.changed b hchg))
    · exact .inr (.inr ⟨hs.flag n hflag, hs.changed n hchg⟩)
  · intro e he
    rw [hs.cache] at he
    obtain ⟨hlt, hcur⟩ := h.cache e he
    refine ⟨hs.numberOfNodes ▸ hlt, ?_⟩
    by_cases hle : node ≤ e.1
    · exact .inr (hafter e.1 hle)
    · rw [hs.active e.1 (by omega), (hs.block e.1).isBlocked, hs.signature_of_lt h hlt (by omega)]
      exact hcur.imp_right (hs.changed e.1)

/-! ## The steps between two passes -/

/-- The flag of a node can be taken back: its block is looked at anyway. -/
def FlagSpare (s : BlockingTableau) (node : ℕ) : Prop :=
  (s.nodes node).isActive = true → (s.nodes node).directlyBlocked = true →
    (s.nodes node).hasBlockingInfoChanged = true → ∃ b,
      (s.nodes node).blocker = some b ∧ s.ChangedBy b

/-- A change of the concepts of a node reaches the next pass. -/
def ChangeSeen (cfg : BlockingConfiguration) (s : BlockingTableau) (node : ℕ)
    (isCore : Bool) : Prop :=
  if isCore then s.ParentSeen cfg node else s.FlagSpare node

theorem Kept.clearFlag (h : Kept cfg s) (hspare : s.FlagSpare node)
    {f : BlockingNode → BlockingNode} (hblock : SameBlock (s.nodes node) (f (s.nodes node)))
    (hactive : (f (s.nodes node)).isActive = (s.nodes node).isActive) :
    Kept cfg (s.modifyNode node f) := by
  have hsame : ∀ n, SameBlock (s.nodes n) ((s.modifyNode node f).nodes n) := by
    intro n
    rw [nodes_modifyNode]
    split_ifs with hn
    · exact hn ▸ hblock
    · exact ⟨rfl, rfl, rfl, rfl⟩
  have hactives : ∀ n, ((s.modifyNode node f).nodes n).isActive = (s.nodes n).isActive := by
    intro n
    rw [nodes_modifyNode]
    split_ifs with hn
    · exact hn ▸ hactive
    · rfl
  have hsig : ∀ n, (s.modifyNode node f).signature cfg n = s.signature cfg n := by
    intro n
    have hlab : (s.modifyNode node f).coreLabel = s.coreLabel := rfl
    rw [signature, signature, (hsame n).parent, hlab]
  constructor
  · intro n hn p hp
    rw [(hsame n).parent] at hp
    exact h.parent_lt n hn p hp
  · intro n hn hblkd
    rw [(hsame n).isBlocked] at hblkd
    exact (eligible_iff hsame).mpr (h.eligible n hn hblkd)
  · intro n hn hdir
    rw [(hsame n).directlyBlocked] at hdir
    rw [(hsame n).blocker]
    exact h.blocker_lt n hn hdir
  · intro n hn hact hdir b hblk
    rw [hactives] at hact
    rw [(hsame n).directlyBlocked] at hdir
    rw [(hsame n).blocker] at hblk
    rw [Blocks, hactives, (hsame b).isBlocked, hsig, hsig]
    rcases h.blocks n hn hact hdir b hblk with hcur | hchg | ⟨hflag, hchg⟩
    · exact .inl hcur
    · exact .inr (.inl hchg)
    · by_cases hnode : n = node
      · subst hnode
        obtain ⟨b', hb', hchg'⟩ := hspare hact hdir hflag
        rw [hblk] at hb'
        obtain rfl := some.inj hb'
        exact .inr (.inl hchg')
      · refine .inr (.inr ⟨?_, hchg⟩)
        rw [nodes_modifyNode, if_neg hnode]
        exact hflag
  · intro e he
    obtain ⟨hlt, hcur⟩ := h.cache e he
    rw [hactives, (hsame e.1).isBlocked, hsig]
    exact ⟨hlt, hcur⟩

theorem kept_conceptChanged {isCore : Bool} (h : Kept cfg s) (hs : ChangesAt s s' node)
    (hnodes : s'.nodes = s.nodes) (hchg : s'.firstChangedNode = s.firstChangedNode)
    (hlab : isCore = false → s'.coreLabel node = s.coreLabel node)
    (hseen : s.ChangeSeen cfg node isCore) :
    Kept cfg (s'.conceptChanged node isCore) := by
  cases isCore with
  | true =>
    have hrest := weakens_validationInfoChangedParent (s'.noteBlockingNodeChanged node) node
    obtain ⟨hnoted, hflag⟩ := noted_noteBlockingNodeChanged s' node
    exact ((hs.trans (weakens_noteBlockingNodeChanged s' node)).trans hrest).kept h
      (hrest.changed node hnoted)
      (hrest.flag node hflag) (.inr hseen)
  | false =>
    have hs' : Weakens s s' := by
      refine ⟨hs.numberOfNodes, ?_, hs.cache, hs.block, fun n =>
          by rw [hnodes], hs.flag, hs.changed⟩
      intro n
      by_cases hn : n = node
      · exact hn ▸ hlab rfl
      · exact hs.label n hn
    have hspare : s'.FlagSpare node := by
      have hspare : s.FlagSpare node := hseen
      simpa only [FlagSpare, ChangedBy, hnodes, hchg] using hspare
    have hclear : Kept cfg ((s'.invalidateBlockingCache node).modifyNode node fun x =>
        { x with hasBlockingInfoChanged := false }) := by
      have hmodify : (s'.invalidateBlockingCache node).modifyNode node (fun x =>
          { x with hasBlockingInfoChanged := false }) = s'.modifyNode node fun x =>
            { x with hasBlockingInfoChanged := false, hasChangedSinceValidation := true } := by
        simp [invalidateBlockingCache, modifyNode]
      rw [hmodify]
      exact (h.weaken hs').clearFlag hspare ⟨rfl, rfl, rfl, rfl⟩ rfl
    exact (hclear.weaken (weakens_validationInfoChanged _ node)).weaken
      (weakens_validationInfoChangedParent _ node)

theorem mem_coreLabel {c : AtomicConcept} :
    c ∈ s.coreLabel n ↔ ∃ a ∈ s.assertions, a.node = n ∧ a.isCore = true ∧ a.concept = c := by
  simp [coreLabel, and_assoc]

section

variable (h : Kept cfg s)
include h

theorem kept_assertions (node : ℕ) (isCore : Bool) (l : List ConceptAssertion)
    (hmem : ∀ a, a.node ≠ node ∨ isCore = false ∧ a.isCore = true → (a ∈ l ↔ a ∈ s.assertions))
    (hseen : s.ChangeSeen cfg node isCore) :
    Kept cfg
    (({ s with assertions := l } : BlockingTableau).conceptChanged node isCore) := by
  have hlab : ∀ n, n ≠ node ∨ isCore = false →
      ({ s with assertions := l } : BlockingTableau).coreLabel n = s.coreLabel n := by
    intro n hn
    ext c
    rw [mem_coreLabel, mem_coreLabel]
    constructor
    · rintro ⟨a, ha, rfl, hcore, rfl⟩
      exact ⟨a, (hmem a (hn.imp_right fun h => ⟨h, hcore⟩)).mp ha, rfl, hcore, rfl⟩
    · rintro ⟨a, ha, rfl, hcore, rfl⟩
      exact ⟨a, (hmem a (hn.imp_right fun h => ⟨h, hcore⟩)).mpr ha, rfl, hcore, rfl⟩
  have hs : ChangesAt s { s with assertions := l } node :=
    ⟨rfl, fun n hn => hlab n (.inl hn), rfl, fun _ => ⟨rfl, rfl, rfl, rfl⟩, fun _ _ => rfl,
      fun _ => id, fun _ => id⟩
  exact kept_conceptChanged h hs rfl rfl (fun hcore => hlab node (.inr hcore)) hseen

/-- What a concept assertion does to the state when it says something new. -/
def ConceptSeen (cfg : BlockingConfiguration) (s : BlockingTableau)
    (concept : AtomicConcept) (node : ℕ) (isCore : Bool) : Prop :=
  (s.nodes node).isActive = true → (concept = .thing → cfg.needsThingExtension = true) →
    match s.assertions.find? fun a => a.concept = concept ∧ a.node = node with
    | none => s.ChangeSeen cfg node isCore
    | some stored => isCore = true → stored.isCore = false → s.ChangeSeen cfg node true

theorem kept_addConceptAssertion {concept : AtomicConcept} {isCore : Bool}
    (hseen : s.ConceptSeen cfg concept node isCore) :
    Kept cfg (s.addConceptAssertion cfg concept node isCore) := by
  rw [addConceptAssertion]
  split_ifs with hskip
  · exact h
  simp only [Bool.or_eq_true, Bool.not_eq_true', Bool.and_eq_true, decide_eq_true_eq,
      not_or, not_and,
    Bool.not_eq_false] at hskip
  have hnew := hseen hskip.1 fun hth => by
    by_contra hneeds
    exact hskip.2 (by simpa using hneeds) hth
  cases hfind : s.assertions.find? fun a => a.concept = concept ∧ a.node = node with
  | none =>
    have hseen : s.ChangeSeen cfg node isCore := by rw [hfind] at hnew; exact hnew
    have hkept := kept_assertions h node isCore (s.assertions ++ [⟨concept, node, isCore⟩])
    apply hkept _ hseen
    intro a ha
    rw [List.mem_append, List.mem_singleton]
    apply or_iff_left
    rintro rfl
    rcases ha with hne | ⟨hcore, hcore'⟩
    · exact hne rfl
    · rw [hcore] at hcore'
      cases hcore'
  | some stored =>
    rw [hfind] at hnew
    dsimp only
    split_ifs with hupgrade
    · simp only [Bool.and_eq_true, Bool.not_eq_true'] at hupgrade
      have hkept := kept_assertions h node true (s.assertions.map fun a =>
        if a.concept = concept ∧ a.node = node then { a with isCore := true } else a)
      apply hkept _ (hnew hupgrade.1 hupgrade.2)
      intro a ha
      have hne : a.node ≠ node := ha.resolve_right fun h => by cases h.1
      rw [List.mem_map]
      constructor
      · rintro ⟨a', ha', rfl⟩
        split_ifs at hne ⊢ with hst
        · exact absurd hst.2 hne
        · exact ha'
      · intro ha'
        exact ⟨a, ha', if_neg fun hst => hne hst.2⟩
    · exact h

theorem kept_removeConceptAssertion
    (hseen : ∀ a ∈ s.assertions.getLast?, s.ChangeSeen cfg a.node a.isCore) :
    Kept cfg s.removeConceptAssertion := by
  rw [removeConceptAssertion]
  cases ha : s.assertions.getLast? with
  | none => exact h
  | some a =>
    have hassertions : s.assertions = s.assertions.dropLast ++ [a] :=
      (List.dropLast_append_getLast? a ha).symm
    apply kept_assertions h a.node a.isCore s.assertions.dropLast _ (hseen a ha)
    intro a' ha'
    conv_rhs => rw [hassertions]
    rw [List.mem_append, List.mem_singleton]
    symm
    apply or_iff_left
    rintro rfl
    rcases ha' with hne | ⟨hcore, hcore'⟩
    · exact hne rfl
    · rw [hcore] at hcore'
      cases hcore'

end

theorem weakens_nodeStatusChanged (s : BlockingTableau) (k : ℕ) :
    Weakens s (s.nodeStatusChanged k) :=
  ((weakens_noteBlockingNodeChanged s k).trans (weakens_validationInfoChanged _ k)).trans
    (weakens_validationInfoChangedParent _ k)

section

variable (h : Kept cfg s)
include h

theorem kept_setActive (node : ℕ) (isActive : Bool) : Kept cfg (s.setActive node isActive) := by
  have hs : ChangesAt s (s.modifyNode node fun x => { x with isActive := isActive }) node := by
    refine ⟨rfl, fun _ _ => rfl, rfl, ?_, ?_, ?_, fun _ => id⟩
    · intro n
      rw [nodes_modifyNode]
      split_ifs with hn
      · subst hn
        exact ⟨rfl, rfl, rfl, rfl⟩
      · exact ⟨rfl, rfl, rfl, rfl⟩
    · intro n hn
      rw [nodes_modifyNode, if_neg hn]
    · intro n
      rw [nodes_modifyNode]
      split_ifs with hn
      · subst hn
        exact id
      · exact id
  obtain ⟨hnoted, hflag⟩ :=
    noted_noteBlockingNodeChanged (s.modifyNode node fun x => { x with isActive := isActive }) node
  have hrest := (weakens_validationInfoChanged ((s.modifyNode node fun x =>
    { x with isActive := isActive }).noteBlockingNodeChanged node) node).trans
      (weakens_validationInfoChangedParent _ node)
  have hall := (hs.trans (weakens_noteBlockingNodeChanged _ node)).trans hrest
  exact hall.kept h (hrest.changed node hnoted) (hrest.flag node hflag)
    (.inl (((hrest.label node).trans ((weakens_noteBlockingNodeChanged _ node).label node)).trans
      rfl))

/-- The last node comes or goes. -/
theorem Kept.agree (hnodes : ∀ n < s.numberOfNodes, n < s'.numberOfNodes → s'.nodes n = s.nodes n)
    (hlab : ∀ n, s'.coreLabel n = s.coreLabel n)
    (hfresh : ∀ n < s'.numberOfNodes, s.numberOfNodes ≤ n → (s'.nodes n).isBlocked = false ∧ ∀ p,
      (s'.nodes n).parent = some p → p < n)
    (hcache : ∀ e ∈ s'.blockersCache, e ∈ s.blockersCache ∧ e.1 < s'.numberOfNodes)
    (hchg : ∀ n < s'.numberOfNodes, s.ChangedBy n → s'.ChangedBy n) :
    Kept cfg s' := by
  have hsig : ∀ n < s.numberOfNodes, n < s'.numberOfNodes →
      s'.signature cfg n = s.signature cfg n := by
    intro n hn hn'
    apply signature_eq (hlab n)
    rw [hnodes n hn hn', funext hlab]
  have hdirectly : ∀ x : BlockingNode, x.isBlocked = false → x.directlyBlocked = false := by
    intro x hx
    rw [BlockingNode.isBlocked, Bool.or_eq_false_iff] at hx
    exact hx.2
  constructor
  · intro n hn p hp
    by_cases hold : n < s.numberOfNodes
    · rw [hnodes n hold hn] at hp
      exact h.parent_lt n hold p hp
    · exact (hfresh n hn (by omega)).2 p hp
  · intro n hn hblkd
    by_cases hold : n < s.numberOfNodes
    · rw [hnodes n hold hn] at hblkd
      obtain ⟨htree, hinverses⟩ := h.eligible n hold hblkd
      rw [Eligible, hnodes n hold hn]
      refine ⟨htree, fun hi => ?_⟩
      obtain ⟨p, hp, htype⟩ := hinverses hi
      have hlt := h.parent_lt n hold p hp
      refine ⟨p, hp, ?_⟩
      rw [hnodes p (by omega) (by omega)]
      exact htype
    · rw [(hfresh n hn (by omega)).1] at hblkd
      cases hblkd
  · intro n hn hdir
    by_cases hold : n < s.numberOfNodes
    · rw [hnodes n hold hn] at hdir ⊢
      exact h.blocker_lt n hold hdir
    · rw [hdirectly _ (hfresh n hn (by omega)).1] at hdir
      cases hdir
  · intro n hn hactive hdir b hblk
    by_cases hold : n < s.numberOfNodes
    · rw [hnodes n hold hn] at hactive hdir hblk ⊢
      obtain ⟨b', hb', hblk'⟩ := h.blocker_lt n hold hdir
      obtain rfl : b' = b := by rw [hblk] at hblk'; exact (some.inj hblk').symm
      rw [Blocks, hnodes b' (by omega) (by omega), hsig b' (by omega) (by omega), hsig n hold hn]
      exact (h.blocks n hold hactive hdir b' hblk).imp_right
        (Or.imp (hchg b' (by omega)) (And.imp_right (hchg n hn)))
    · rw [hdirectly _ (hfresh n hn (by omega)).1] at hdir
      cases hdir
  · intro e he
    obtain ⟨he, hlt'⟩ := hcache e he
    obtain ⟨hlt, hcur⟩ := h.cache e he
    rw [hnodes e.1 hlt hlt', hsig e.1 hlt hlt']
    exact ⟨hlt', hcur.imp_right (hchg e.1 hlt')⟩

theorem kept_destroyLastTableauNode (hpos : 0 < s.numberOfNodes) :
    Kept cfg s.destroyLastTableauNode := by
  have hnum : s.destroyLastTableauNode.numberOfNodes = s.numberOfNodes - 1 := rfl
  have hlab : ∀ n, s.destroyLastTableauNode.coreLabel n = s.coreLabel n := fun _ => rfl
  apply h.agree (fun n hn hn' => ?_) hlab (fun n hn hle => ?_) (fun e he => ?_)
    (fun n hn hchg => ?_)
  · rw [hnum] at hn'
    have hne : n ≠ s.numberOfNodes - 1 := by omega
    simp [destroyLastTableauNode, nodes_modifyNode, hne, validatedCacheRemove]
  · omega
  · have he' : e ∈ (s.validatedCacheRemove (s.numberOfNodes - 1)).blockersCache := he
    rw [validatedCacheRemove, List.mem_filter, decide_eq_true_eq] at he'
    have := (h.cache e he'.1).1
    exact ⟨he'.1, by omega⟩
  · obtain ⟨c, hc, hle⟩ := hchg
    refine ⟨c, ?_, hle⟩
    have hfst : s.destroyLastTableauNode.firstChangedNode = s.firstChangedNode.bind fun current =>
            if s.numberOfNodes - 1 ≤ current then none else some current := rfl
    rw [hfst, hc, bind_some, if_neg (by omega)]

/-- Nothing is below a node that has just come. -/
theorem conceptSeen_last (hlast : s.numberOfNodes = node + 1) (concept : AtomicConcept) :
    s.ConceptSeen cfg concept node true := by
  have hpar : s.ParentSeen cfg node := by
    intro _ n hn _ _ hp
    have := h.parent_lt n hn node hp
    omega
  intro _ _
  split
  · exact hpar
  · exact fun _ _ => hpar

end

theorem numberOfNodes_addConceptAssertion (s : BlockingTableau) (concept : AtomicConcept) (node : ℕ)
    (isCore : Bool) :
    (s.addConceptAssertion cfg concept node isCore).numberOfNodes = s.numberOfNodes := by
  have hchg : ∀ s : BlockingTableau, (s.conceptChanged node isCore).numberOfNodes =
      s.numberOfNodes := by
    intro s
    rw [conceptChanged]
    split_ifs
    · exact (weakens_validationInfoChangedParent _ node).numberOfNodes.trans
        (weakens_validationInfoChanged _ node).numberOfNodes
    · exact (weakens_validationInfoChangedParent _ node).numberOfNodes.trans
        (weakens_noteBlockingNodeChanged s node).numberOfNodes
  rw [addConceptAssertion]
  split_ifs
  · rfl
  · split
    · exact hchg _
    · split_ifs with hupgrade
      · simp only [Bool.and_eq_true] at hupgrade
        rw [hupgrade.1] at hchg
        exact hchg _
      · rfl

theorem kept_createNewNode (h : Kept cfg s) {parent : Option ℕ} {nodeType : NodeType}
    (hpar : ∀ p ∈ parent, p < s.numberOfNodes) :
    Kept cfg (s.createNewNode cfg parent nodeType) := by
  have hcr : ∀ s' : BlockingTableau, s'.numberOfNodes = s.numberOfNodes + 1 →
    s'.assertions = s.assertions →
      s'.blockersCache = s.blockersCache → s'.firstChangedNode = s.firstChangedNode →
      s'.nodes = Function.update s.nodes s.numberOfNodes { s.nodes s.numberOfNodes with
        parent := parent, nodeType := nodeType, isActive := true, blocker :=
          none, directlyBlocked := false } →
      Kept cfg s' := by
    intro s' hnum hassertions hcache hfst hnodes
    apply h.agree (fun n hn _ => ?_) (fun n => ?_) (fun n hn hle => ?_) (fun e he => ?_)
      (fun n _ => ?_)
    · rw [hnodes, Function.update_of_ne (by omega)]
    · rw [coreLabel, coreLabel, hassertions]
    · obtain rfl : n = s.numberOfNodes := by omega
      rw [hnodes, Function.update_self]
      exact ⟨rfl, hpar⟩
    · rw [hcache] at he
      exact ⟨he, by have := (h.cache e he).1; omega⟩
    · rw [ChangedBy, ChangedBy, hfst]
      exact id
  rw [createNewNode]
  have hnode := (hcr { s with
    numberOfNodes := s.numberOfNodes + 1
    nodes := Function.update s.nodes s.numberOfNodes { s.nodes s.numberOfNodes with
      parent := parent, nodeType := nodeType, isActive := true, blocker :=
        none, directlyBlocked := false } }
    rfl rfl rfl rfl rfl).weaken (weakens_nodeStatusChanged _ s.numberOfNodes)
  have hlast := (weakens_nodeStatusChanged { s with
    numberOfNodes := s.numberOfNodes + 1
    nodes := Function.update s.nodes s.numberOfNodes { s.nodes s.numberOfNodes with
      parent := parent, nodeType := nodeType, isActive := true, blocker :=
        none, directlyBlocked := false } }
    s.numberOfNodes).numberOfNodes
  have hth := kept_addConceptAssertion hnode (conceptSeen_last hnode hlast .thing)
  split_ifs
  · exact kept_addConceptAssertion hth
      (conceptSeen_last hth ((numberOfNodes_addConceptAssertion _ _ _ _).trans hlast)
        .internalNamed)
  · exact hth
  · exact hnode

end BlockingTableau

end Hermit
