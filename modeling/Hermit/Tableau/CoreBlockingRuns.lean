import Hermit.Tableau.CoreBlockingChanges

/-! # Passes

A pass and a validation go through the nodes in order.  Up to the node they have come to, the direct
blocks are current, and so are the entries of the cache, all of which come before it.
-/

namespace Hermit

open List hiding not_le
open Option

open Datalog (NodeType)

namespace BlockingTableau

variable {cfg : BlockingConfiguration} {s t t' : BlockingTableau}

/-! ## The steps of a loop -/

/-- What passes leave alone. -/
structure SameShape (s t : BlockingTableau) : Prop where
  numberOfNodes : t.numberOfNodes = s.numberOfNodes
  assertions : t.assertions = s.assertions
  parent : ∀ n, (t.nodes n).parent = (s.nodes n).parent
  nodeType : ∀ n, (t.nodes n).nodeType = (s.nodes n).nodeType
  active : ∀ n, (t.nodes n).isActive = (s.nodes n).isActive

theorem SameShape.refl (s : BlockingTableau) : SameShape s s :=
  ⟨rfl, rfl, fun _ => rfl, fun _ => rfl, fun _ => rfl⟩

theorem SameShape.trans (h : SameShape s t) (h' : SameShape t t') : SameShape s t' where
  numberOfNodes := h'.numberOfNodes.trans h.numberOfNodes
  assertions := h'.assertions.trans h.assertions
  parent n := (h'.parent n).trans (h.parent n)
  nodeType n := (h'.nodeType n).trans (h.nodeType n)
  active n := (h'.active n).trans (h.active n)

theorem SameShape.signature (h : SameShape s t) (n : ℕ) :
    t.signature cfg n = s.signature cfg n := by
  have hlab : t.coreLabel = s.coreLabel := by
    funext m
    rw [coreLabel, coreLabel, h.assertions]
  rw [BlockingTableau.signature, BlockingTableau.signature, hlab, h.parent]

variable {n cached m upTo b k start : ℕ}

theorem SameShape.eligible (h : SameShape s t) : t.Eligible cfg n ↔ s.Eligible cfg n := by
  simp only [Eligible, h.parent, h.nodeType]

theorem SameShape.rooted (h : SameShape s t) (hs : s.Rooted) : t.Rooted := by
  intro n hn hact p hp
  rw [h.numberOfNodes] at hn
  rw [h.active] at hact ⊢
  rw [h.parent] at hp
  exact hs n hn hact p hp

theorem sameShape_modifyNode (s : BlockingTableau) (k : ℕ) {f : BlockingNode → BlockingNode}
    (hpar : (f (s.nodes k)).parent = (s.nodes k).parent)
    (htype : (f (s.nodes k)).nodeType = (s.nodes k).nodeType)
    (hact : (f (s.nodes k)).isActive = (s.nodes k).isActive) :
    SameShape s (s.modifyNode k f) := by
  refine ⟨rfl, rfl, ?_, ?_, ?_⟩ <;>
  · intro n
    rw [nodes_modifyNode]
    split_ifs with hn
    · subst hn
      assumption
    · rfl

/-- The blocks of the nodes before `upTo` are current, and the cache has current blockers before
`cached`. -/
structure Current (cfg : BlockingConfiguration) (s : BlockingTableau)
    (upTo cached : ℕ) : Prop where
  eligible : ∀ n < s.numberOfNodes, (s.nodes n).isBlocked = true → s.Eligible cfg n
  blocker_lt : ∀ n < s.numberOfNodes, (s.nodes n).directlyBlocked = true → ∃ b < n,
    (s.nodes n).blocker = some b
  blocks : ∀ n < s.numberOfNodes, n < upTo → (s.nodes n).isActive = true →
    (s.nodes n).directlyBlocked = true →
    ∀ b, (s.nodes n).blocker = some b → s.Blocks cfg b n
  cache : ∀ e ∈ s.blockersCache, e.1 < cached ∧ e.1 < s.numberOfNodes ∧
    (s.nodes e.1).isActive = true ∧
    (s.nodes e.1).isBlocked = false ∧ s.signature cfg e.1 = e.2

/-- One node is blocked or unblocked on which no block rests: it is blocked already, or the loop has
just come to it. -/
theorem Current.step {upTo' : ℕ} (h : Current cfg t upTo cached) (hshape : SameShape t t')
    (hcache : t'.blockersCache = t.blockersCache)
    (hoth : ∀ n ≠ m, SameBlock (t.nodes n) (t'.nodes n))
    (hfree : (t.nodes m).isBlocked = true ∨ upTo ≤ m ∧ cached ≤ m)
    (helig : m < t.numberOfNodes → (t'.nodes m).isBlocked = true → t.Eligible cfg m)
    (hlt : m < t.numberOfNodes → (t'.nodes m).directlyBlocked = true → ∃ b < m,
      (t'.nodes m).blocker = some b) (hblks : m < t.numberOfNodes → (t.nodes m).isActive = true →
      (t'.nodes m).directlyBlocked = true →
      ∀ b, (t'.nodes m).blocker = some b → t.Blocks cfg b m)
    (hupTo : ∀ n < upTo', n < upTo ∨ n = m) : Current cfg t' upTo' cached := by
  have hkeeps : ∀ b n, b ≠ m → t.Blocks cfg b n → t'.Blocks cfg b n := by
    rintro b n hb ⟨hact, hunblocked, heq⟩
    rw [Blocks, hshape.active, (hoth b hb).isBlocked, hshape.signature, hshape.signature]
    exact ⟨hact, hunblocked, heq⟩
  constructor
  · intro n hn hblkd
    rw [hshape.numberOfNodes] at hn
    rw [hshape.eligible]
    by_cases hm : n = m
    · subst hm
      exact helig hn hblkd
    · rw [(hoth n hm).isBlocked] at hblkd
      exact h.eligible n hn hblkd
  · intro n hn hdir
    rw [hshape.numberOfNodes] at hn
    by_cases hm : n = m
    · subst hm
      exact hlt hn hdir
    · rw [(hoth n hm).directlyBlocked] at hdir
      rw [(hoth n hm).blocker]
      exact h.blocker_lt n hn hdir
  · intro n hn hupto hact hdir b hblk
    rw [hshape.numberOfNodes] at hn
    rw [hshape.active] at hact
    by_cases hm : n = m
    · subst hm
      obtain ⟨b', hb', hblk'⟩ := hlt hn hdir
      obtain rfl : b' = b := by rw [hblk] at hblk'; exact (some.inj hblk').symm
      exact hkeeps b' n (by omega) (hblks hn hact hdir b' hblk)
    · rw [(hoth n hm).directlyBlocked] at hdir
      rw [(hoth n hm).blocker] at hblk
      have hbef := (hupTo n hupto).resolve_right hm
      have hcur := h.blocks n hn hbef hact hdir b hblk
      obtain ⟨b', hb', hblk'⟩ := h.blocker_lt n hn hdir
      obtain rfl : b' = b := by rw [hblk] at hblk'; exact (some.inj hblk').symm
      apply hkeeps b' n _ hcur
      rintro rfl
      rcases hfree with hblkd | ⟨hle, -⟩
      · rw [hcur.2.1] at hblkd
        cases hblkd
      · omega
  · intro e he
    rw [hcache] at he
    obtain ⟨hcached, hn, hact, hunblocked, heq⟩ := h.cache e he
    have hm : e.1 ≠ m := by
      rintro rfl
      rcases hfree with hblkd | ⟨-, hle⟩
      · rw [hunblocked] at hblkd
        cases hblkd
      · omega
    rw [hshape.numberOfNodes, hshape.active, (hoth e.1 hm).isBlocked, hshape.signature]
    exact ⟨hcached, hn, hact, hunblocked, heq⟩

theorem Current.same (h : Current cfg t upTo cached) (hshape : SameShape t t')
    (hcache : t'.blockersCache = t.blockersCache)
    (hnodes : ∀ n, SameBlock (t.nodes n) (t'.nodes n)) :
    Current cfg t' upTo cached := by
  constructor
  · intro n hn hblkd
    rw [(hnodes n).isBlocked] at hblkd
    exact hshape.eligible.mpr (h.eligible n (hshape.numberOfNodes ▸ hn) hblkd)
  · intro n hn hdir
    rw [(hnodes n).directlyBlocked] at hdir
    rw [(hnodes n).blocker]
    exact h.blocker_lt n (hshape.numberOfNodes ▸ hn) hdir
  · intro n hn hupTo hact hdir b hblk
    rw [hshape.active] at hact
    rw [(hnodes n).directlyBlocked] at hdir
    rw [(hnodes n).blocker] at hblk
    rw [Blocks, hshape.active, (hnodes b).isBlocked, hshape.signature, hshape.signature]
    exact h.blocks n (hshape.numberOfNodes ▸ hn) hupTo hact hdir b hblk
  · intro e he
    rw [hshape.numberOfNodes, hshape.active, (hnodes e.1).isBlocked, hshape.signature]
    exact h.cache e (hcache ▸ he)

theorem Current.cached_le {cached' : ℕ} (h : Current cfg t upTo cached) (hle : cached ≤ cached') :
    Current cfg t upTo cached' :=
  ⟨h.eligible, h.blocker_lt, h.blocks, fun e he =>
      ⟨(h.cache e he).1.trans_le hle, (h.cache e he).2⟩⟩

theorem sameShape_validatedCacheAdd (t : BlockingTableau) (m : ℕ) (signature : ValidatedSignature) :
    SameShape t (t.validatedCacheAdd m signature) :=
  ⟨rfl, rfl, fun _ => rfl, fun _ => rfl, fun _ => rfl⟩

theorem Current.cacheAdd (h : Current cfg t upTo m) (hroot : t.Rooted) (hm : m < t.numberOfNodes)
    (hact : (t.nodes m).isActive = true) (hunblocked : (t.nodes m).isBlocked = false) :
    Current cfg (t.validatedCacheAdd m (t.validatedBlockSignature cfg m)) upTo
    (m + 1) := by
  refine ⟨h.eligible, h.blocker_lt, h.blocks, ?_⟩
  intro e he
  simp only [validatedCacheAdd, validatedCacheRemove, mem_append, mem_filter, mem_singleton] at he
  rcases he with ⟨he, -⟩ | rfl
  · obtain ⟨hcached, hrest⟩ := h.cache e he
    exact ⟨by omega, hrest⟩
  · refine ⟨by omega, hm, hact, hunblocked, ?_⟩
    exact (hroot.validatedBlockSignature_eq hm hact).symm

theorem mem_possibleBlockers {signature : ValidatedSignature} :
    b ∈ s.possibleBlockers signature ↔ (b, signature) ∈ s.blockersCache := by
  simp [possibleBlockers]

/-- The possible blockers of a node that a loop has come to. -/
theorem Current.blocks_of_mem (h : Current cfg t upTo m) (hroot : t.Rooted)
    (hm : m < t.numberOfNodes) (hact : (t.nodes m).isActive = true)
    (hb : b ∈ t.possibleBlockers (t.validatedBlockSignature cfg m)) : b < m ∧
    t.Blocks cfg b m := by
  rw [mem_possibleBlockers, hroot.validatedBlockSignature_eq hm hact] at hb
  obtain ⟨hlt, -, hrest⟩ := h.cache _ hb
  exact ⟨hlt, hrest⟩

theorem nodes_setBlocked_of_ne (hn : n ≠ m) (blocker : Option ℕ) (direct : Bool) :
    SameBlock (t.nodes n) ((t.setBlocked m blocker direct).nodes n) := by
  rw [setBlocked, nodes_modifyNode, if_neg hn]
  exact ⟨rfl, rfl, rfl, rfl⟩

section

variable (t : BlockingTableau) (m : ℕ) (blocker : Option ℕ) (direct : Bool)
include blocker direct

theorem nodes_setBlocked_self : (t.setBlocked m blocker direct).nodes m =
    { t.nodes m with blocker := blocker, directlyBlocked := direct } := by
  rw [setBlocked, nodes_modifyNode, if_pos rfl]

theorem sameShape_setBlocked :
    SameShape t (t.setBlocked m blocker direct) := sameShape_modifyNode t m rfl rfl rfl

end

theorem Current.setBlocked {upTo' : ℕ} {blocker : Option ℕ} {direct : Bool}
    (h : Current cfg t upTo cached)
    (hfree : (t.nodes m).isBlocked = true ∨ upTo ≤ m ∧ cached ≤ m)
    (helig : t.Eligible cfg m)
    (hblks : direct = true → ∃ b < m, blocker = some b ∧ t.Blocks cfg b m)
    (hupTo : ∀ n < upTo', n < upTo ∨ n = m) : Current cfg
    (t.setBlocked m blocker direct) upTo' cached := by
  apply h.step (sameShape_setBlocked t m blocker direct) rfl
    (fun n hn => nodes_setBlocked_of_ne hn blocker direct) hfree
    (fun _ _ => helig) _ _ hupTo
  · intro _ hdir
    rw [nodes_setBlocked_self] at hdir ⊢
    obtain ⟨b, hb, hblk, -⟩ := hblks hdir
    exact ⟨b, hb, hblk⟩
  · intro _ _ hdir b hblk
    rw [nodes_setBlocked_self] at hdir hblk
    obtain ⟨b', hb', hblk', hcur⟩ := hblks hdir
    obtain rfl : b' = b := some.inj (hblk'.symm.trans hblk)
    exact hcur

/-- A loop over the places from one on, step by step. -/
theorem foldl_range'_invariant {α : Type} (f : α → ℕ → α) {P : ℕ → α → Prop} {stop : ℕ}
    (hstep : ∀ k x, k < stop → P k x → P (k + 1) (f x k)) (start : ℕ) (x : α) (h : P start x)
    (hle : start ≤ stop) :
    P stop ((List.range' start (stop - start)).foldl f x) := by
  obtain ⟨count, hstop⟩ := Nat.exists_eq_add_of_le hle
  rw [hstop, Nat.add_sub_cancel_left]
  clear hle
  induction count generalizing start x with
  | zero => exact h
  | succ count ih =>
    rw [range'_succ, foldl_cons]
    have hnext := ih (start + 1) (f x start) (hstep start x (by omega) h) (by omega)
    rwa [Nat.add_right_comm start 1 count] at hnext

/-! ## The pass -/

/-- A pass from `start` that has come to `k`. -/
structure Passed (cfg : BlockingConfiguration) (s : BlockingTableau) (start k : ℕ)
    (t : BlockingTableau) :
    Prop where
  shape : SameShape s t
  others : ∀ n, n < start ∨ k ≤ n → t.nodes n = s.nodes n
  current : Current cfg t k k

theorem chooseBlocker_mem (h : t.chooseBlocker cfg m = some b) :
    b ∈ t.possibleBlockers (t.validatedBlockSignature cfg m) := by
  rw [chooseBlocker] at h
  split at h
  · rw [validatedGetBlocker] at h
    split at h
    · rename_i current hcur
      obtain rfl := some.inj h
      rw [filter_eq_some_iff] at hcur
      simpa using hcur.2
    · exact mem_of_head? h
  · exact mem_of_find?_eq_some h

/-- A node that is looked at again is not blocked directly afterwards, or its blocker comes from the
cache. -/
theorem Current.recomputeBlock (h : Current cfg t k k) (hroot : t.Rooted) (hk : k < t.numberOfNodes)
    (hact : (t.nodes k).isActive = true) (helig : t.Eligible cfg k) :
    Current cfg (t.recomputeBlock cfg k) (k + 1) k := by
  have hset : ∀ blocker direct, (direct = true → ∃ b < k, blocker = some b ∧ t.Blocks cfg b k) →
      Current cfg (t.setBlocked k blocker direct) (k + 1) k :=
        fun blocker direct hblks =>
    h.setBlocked (.inr ⟨le_rfl, le_rfl⟩) helig hblks fun n hn => by omega
  rw [BlockingTableau.recomputeBlock]
  split
  · exact hset _ _ fun h => by cases h
  · split_ifs
    · exact hset _ _ fun h => by cases h
    · apply hset
      intro hsome
      obtain ⟨b, hb⟩ := isSome_iff_exists.mp hsome
      obtain ⟨hlt, hblks⟩ := h.blocks_of_mem hroot hk hact (chooseBlocker_mem hb)
      exact ⟨b, hlt, hb, hblks⟩

theorem sameShape_recomputeBlock (t : BlockingTableau) (k : ℕ) :
    SameShape t (t.recomputeBlock cfg k) := by
  rw [recomputeBlock]
  split
  · exact sameShape_setBlocked t k _ _
  · split_ifs
    · exact sameShape_setBlocked t k _ _
    · exact sameShape_setBlocked t k _ _

theorem nodes_recomputeBlock_of_ne (hn : n ≠ k) : (t.recomputeBlock cfg k).nodes n = t.nodes n := by
  have hset : ∀ blocker direct, (t.setBlocked k blocker direct).nodes n = t.nodes n :=
      fun blocker direct => by
    rw [setBlocked, nodes_modifyNode, if_neg hn]
  rw [recomputeBlock]
  split
  · exact hset _ _
  · split_ifs
    · exact hset _ _
    · exact hset _ _

/-- A block that a pass keeps was current before it. -/
theorem Passed.blocks_of_kept (h : Passed cfg s start k t) (hs : Kept cfg s)
    (hst : s.firstChangedNode = some start) (hk : k < s.numberOfNodes)
    (hact : (t.nodes k).isActive = true)
    (hdir : (t.nodes k).directlyBlocked = true) (hrecompute : t.recompute start k = false)
    (hblk : (t.nodes k).blocker = some b) : t.Blocks cfg b k := by
  have hsame := h.others k (.inr le_rfl)
  simp only [recompute, hblk, Bool.or_eq_false_iff, Bool.not_eq_false', decide_eq_false_iff_not,
    not_le] at hrecompute
  obtain ⟨⟨hflag, -⟩, hlt⟩ := hrecompute
  rw [hsame] at hact hdir hblk hflag
  rcases hs.blocks k hk hact hdir b hblk with hcur | ⟨c, hc, hle⟩ | ⟨hflagged, -⟩
  · rw [Blocks, h.others b (.inl hlt), h.shape.signature, h.shape.signature]
    exact hcur
  · rw [hst] at hc
    obtain rfl := some.inj hc
    omega
  · rw [hflag] at hflagged
    cases hflagged

theorem Passed.preBlockNode (h : Passed cfg s start k t) (hs : Kept cfg s)
    (hroot : s.Rooted) (hst : s.firstChangedNode = some start) (hle : start ≤ k)
    (hk : k < s.numberOfNodes) :
    Passed cfg s start (k + 1) (t.preBlockNode cfg start k) := by
  have hroot' := h.shape.rooted hroot
  have hk' : k < t.numberOfNodes := h.shape.numberOfNodes ▸ hk
  have hkeep : ((t.nodes k).isActive = true → (t.nodes k).directlyBlocked = true →
      ∀ b, (t.nodes k).blocker = some b → t.Blocks cfg b k) → Current cfg t (k + 1) k :=
    fun hblks => h.current.step (SameShape.refl t) rfl (fun n _ => ⟨rfl, rfl, rfl, rfl⟩)
      (.inr ⟨le_rfl, le_rfl⟩)
      (h.current.eligible k) (h.current.blocker_lt k) (fun _ => hblks) fun n hn => by omega
  have hflag : ∀ t', SameShape t t' → (∀ n ≠ k, t'.nodes n = t.nodes n) →
    Current cfg t' (k + 1) (k + 1) → Passed cfg s start (k + 1) (t'.modifyNode k fun x =>
          { x with hasBlockingInfoChanged := false }) := by
    intro t' hshape hoth hcur
    refine ⟨(h.shape.trans hshape).trans (sameShape_modifyNode t' k rfl rfl rfl), ?_, ?_⟩
    · intro n hn
      rw [nodes_modifyNode, if_neg (by omega), hoth n (by omega)]
      exact h.others n (by omega)
    · apply hcur.same (sameShape_modifyNode t' k rfl rfl rfl) rfl
      intro n
      rw [nodes_modifyNode]
      split_ifs with hn
      · subst hn
        exact ⟨rfl, rfl, rfl, rfl⟩
      · exact ⟨rfl, rfl, rfl, rfl⟩
  rw [BlockingTableau.preBlockNode]
  by_cases hcan : t.canParticipateInBlocking cfg k = true
  · obtain ⟨hact, helig⟩ := canParticipateInBlocking_iff.mp hcan
    simp only [hcan, if_true]
    have hlooked : ∃ t', (if t.recompute start k then t.recomputeBlock cfg k else t) =
      t' ∧ SameShape t t' ∧ (∀ n ≠ k, t'.nodes n = t.nodes n) ∧ Current cfg t' (k + 1) k := by
      refine ⟨_, rfl, ?_⟩
      split_ifs with hrecompute
      · exact ⟨sameShape_recomputeBlock t k, fun n => nodes_recomputeBlock_of_ne,
          h.current.recomputeBlock hroot' hk' hact helig⟩
      · exact ⟨SameShape.refl t, fun _ _ => rfl, hkeep fun hact hdir b hblk =>
          h.blocks_of_kept hs hst hk hact hdir (by simpa using hrecompute) hblk⟩
    obtain ⟨t', ht', hshape, hoth, hcur⟩ := hlooked
    rw [ht']
    split_ifs with hblkd
    · exact hflag _ (hshape.trans (sameShape_validatedCacheAdd t' k _)) hoth
        (hcur.cacheAdd (hshape.rooted hroot') (hshape.numberOfNodes ▸ hk')
          ((hshape.active k).trans hact)
          (by simpa using hblkd))
    · exact hflag t' hshape hoth (hcur.cached_le (by omega))
  · simp only [hcan]
    apply hflag t (SameShape.refl t) (fun _ _ => rfl)
    apply (hkeep _).cached_le (by omega)
    -- an active node that takes no part is not blocked
    intro hact hdir
    have hblkd : (t.nodes k).isBlocked = true :=
      by rw [BlockingNode.isBlocked, hdir, Bool.or_true]
    exact absurd (canParticipateInBlocking_iff.mpr ⟨hact, h.current.eligible k hk' hblkd⟩) hcan

theorem foldl_validatedCacheRemove (s : BlockingTableau) (l : List ℕ) :
    l.foldl validatedCacheRemove s =
    { s with blockersCache := s.blockersCache.filter fun e => e.1 ∉ l } := by
  induction l generalizing s with
  | nil => simp
  | cons n l ih =>
    rw [foldl_cons, ih]
    simp [validatedCacheRemove, List.filter_filter, Bool.and_comm]

theorem Current.all (h : Current cfg t upTo cached) (hupTo : t.numberOfNodes ≤ upTo) :
    Current cfg t t.numberOfNodes t.numberOfNodes :=
  ⟨h.eligible, h.blocker_lt, fun n hn _ => h.blocks n hn (hn.trans_le hupTo),
    fun e he => ⟨(h.cache e he).2.1, (h.cache e he).2⟩⟩

/-- What is kept up to the first node that has changed. -/
theorem Kept.current (h : Kept cfg s) (hst : ∀ c, s.firstChangedNode = some c → start ≤ c)
    (hcache : ∀ e ∈ t.blockersCache, e ∈ s.blockersCache ∧ (e.1 < s.numberOfNodes → e.1 < start))
    (hshape : SameShape s t)
    (hnodes : t.nodes = s.nodes) : Current cfg t start start := by
  have hunchanged : ∀ n < start, ¬ s.ChangedBy n := by
    rintro n hn ⟨c, hc, hle⟩
    have := hst c hc
    omega
  refine ⟨?_, ?_, ?_, ?_⟩
  · intro n hn hblkd
    rw [hshape.numberOfNodes] at hn
    rw [hnodes] at hblkd
    exact hshape.eligible.mpr (h.eligible n hn hblkd)
  · rw [hshape.numberOfNodes, hnodes]
    exact h.blocker_lt
  · intro n hn hlt hact hdir b hblk
    rw [hshape.numberOfNodes] at hn
    rw [hnodes] at hact hdir hblk
    obtain ⟨b', hb', hblk'⟩ := h.blocker_lt n hn hdir
    obtain rfl : b' = b := by rw [hblk] at hblk'; exact (some.inj hblk').symm
    rw [Blocks, hnodes, hshape.signature, hshape.signature]
    rcases h.blocks n hn hact hdir b' hblk with hcur | hchg | ⟨-, hchg⟩
    · exact hcur
    · exact absurd hchg (hunchanged b' (by omega))
    · exact absurd hchg (hunchanged n hlt)
  · intro e he
    obtain ⟨he, hlt⟩ := hcache e he
    obtain ⟨hn, hcur⟩ := h.cache e he
    rw [hshape.numberOfNodes, hshape.signature, hnodes]
    exact ⟨hlt hn, hn, hcur.resolve_right (hunchanged e.1 (hlt hn))⟩

theorem Current.kept (h : Current cfg t t.numberOfNodes t.numberOfNodes)
    (hpar : ∀ n < t.numberOfNodes, ∀ p, (t.nodes n).parent = some p → p < n) :
    Kept cfg t :=
  ⟨hpar, h.eligible, h.blocker_lt, fun n hn hact hdir b hblk =>
      .inl (h.blocks n hn hn hact hdir b hblk),
    fun e he => ⟨(h.cache e he).2.1, .inl (h.cache e he).2.2⟩⟩

/-- After a pass all direct blocks are current. -/
theorem Kept.computePreBlocking (h : Kept cfg s) (hroot : s.Rooted) :
    SameShape s (s.computePreBlocking cfg) ∧
      Current cfg (s.computePreBlocking cfg) s.numberOfNodes s.numberOfNodes :=
  by
  rw [BlockingTableau.computePreBlocking]
  cases hst : s.firstChangedNode with
  | none =>
    refine ⟨SameShape.refl s, ?_⟩
    apply h.current (fun c hc => by rw [hst] at hc; cases hc) _ (SameShape.refl s) rfl
    exact fun e he => ⟨he, id⟩
  | some start =>
    dsimp only
    rw [foldl_validatedCacheRemove]
    obtain ⟨t, ht⟩ : ∃ t : BlockingTableau, t = { s with
      blockersCache := s.blockersCache.filter fun e => e.1 ∉ s.nodesFrom start } := ⟨_, rfl⟩
    rw [← ht]
    have hshape : SameShape s t := ht ▸ ⟨rfl, rfl, fun _ => rfl, fun _ => rfl, fun _ => rfl⟩
    have hnodes : t.nodes = s.nodes := by rw [ht]
    have hinit : Passed cfg s start start t := by
      refine ⟨hshape, fun n _ => by rw [hnodes], ?_⟩
      apply h.current (fun c hc => by rw [hst] at hc; exact (some.inj hc).le) _ hshape hnodes
      intro e he
      rw [ht] at he
      simp only [nodesFrom, mem_filter, mem_range'_1, decide_eq_true_eq] at he
      exact ⟨he.1, fun hn => by omega⟩
    have hend : ∃ k, s.numberOfNodes ≤ k ∧ Passed cfg s start k
          ((t.nodesFrom start).foldl (BlockingTableau.preBlockNode cfg start) t) := by
      rw [nodesFrom, hshape.numberOfNodes]
      by_cases hle : start ≤ s.numberOfNodes
      · refine ⟨s.numberOfNodes, le_rfl, ?_⟩
        have hloop := foldl_range'_invariant (BlockingTableau.preBlockNode cfg start)
          (P := fun k t => start ≤ k ∧ Passed cfg s start k t)
          (fun k t hk ht => ⟨ht.1.trans (Nat.le_succ k), ht.2.preBlockNode h hroot hst ht.1 hk⟩)
            start t
          ⟨le_rfl, hinit⟩ hle
        exact hloop.2
      · rw [Nat.sub_eq_zero_of_le (by omega)]
        exact ⟨start, by omega, hinit⟩
    obtain ⟨k, hk, hpass⟩ := hend
    obtain ⟨t', ht'⟩ : ∃ t', (t.nodesFrom start).foldl
      (BlockingTableau.preBlockNode cfg start) t = t' := ⟨_, rfl⟩
    rw [ht'] at hpass ⊢
    have hforget : SameShape t' { t' with firstChangedNode := none } :=
      ⟨rfl, rfl, fun _ => rfl, fun _ => rfl, fun _ => rfl⟩
    refine ⟨hpass.shape.trans hforget, ?_⟩
    have hall := hpass.current.all (hpass.shape.numberOfNodes ▸ hk)
    rw [hpass.shape.numberOfNodes] at hall
    exact hall.same hforget rfl fun n => ⟨rfl, rfl, rfl, rfl⟩

/-! ## The validation -/

theorem setBlocked_setBlocked (t : BlockingTableau) (m : ℕ) (blocker blocker' : Option ℕ)
    (direct direct' : Bool) :
    (t.setBlocked m blocker direct).setBlocked m blocker' direct' =
    t.setBlocked m blocker' direct' := by
  simp [setBlocked, modifyNode]

/-- The trials leave no trace once the block is set, and the blocker found is one of the candidates.
-/
theorem tryBlockers_spec (validation : Validation) (m : ℕ) (present : Option ℕ)
    (candidates : List ℕ) (t : BlockingTableau) :
    (∀ blocker direct, (tryBlockers validation m present candidates t).2.setBlocked m
      blocker direct = t.setBlocked m blocker direct) ∧
    ∀ b, (tryBlockers validation m present candidates t).1 = some b → b ∈ candidates := by
  induction candidates generalizing t with
  | nil =>
    refine ⟨fun _ _ => rfl, ?_⟩
    intro b hb
    cases hb
  | cons possible rest ih =>
    rw [tryBlockers]
    split_ifs
    · exact ⟨(ih t).1, fun b hb => mem_cons_of_mem _ ((ih t).2 b hb)⟩
    · refine ⟨fun _ _ => setBlocked_setBlocked t m _ _ _ _, ?_⟩
      intro b hb
      obtain rfl := some.inj hb
      exact mem_cons_self
    · obtain ⟨hset, hmem⟩ := ih (t.setBlocked m (some possible) true)
      exact ⟨fun blocker direct => (hset blocker direct).trans (setBlocked_setBlocked t m _ _ _ _),
        fun b hb => mem_cons_of_mem _ (hmem b hb)⟩

theorem validateBlock_spec (cfg : BlockingConfiguration) (validation : Validation)
    (t : BlockingTableau) (k : ℕ) :
    ∃ valid : Option ℕ, (t.validateBlock cfg validation k).1 =
    t.setBlocked k valid valid.isSome ∧
      ∀ b ∈ valid, (t.nodes k).directlyBlocked = true ∧ (t.nodes k).blocker = some b ∨
        b ∈ t.possibleBlockers (t.validatedBlockSignature cfg k) := by
  obtain ⟨htried, hmem⟩ := tryBlockers_spec validation k (t.nodes k).blocker
    (t.possibleBlockers (t.validatedBlockSignature cfg k)) t
  rw [validateBlock]
  dsimp only
  split
  · rename_i b hb
    refine ⟨some b, rfl, ?_⟩
    intro b' hb'
    obtain rfl := some.inj hb'
    split_ifs at hb with hdir
    rw [filter_eq_some_iff] at hb
    exact .inl ⟨hdir, hb.1⟩
  · refine ⟨_, htried _ _, ?_⟩
    intro b hb
    exact .inr (hmem b hb)

/-- A validation of `s` that has come to `k`. -/
structure Validated (cfg : BlockingConfiguration) (s : BlockingTableau) (k : ℕ)
    (t : BlockingTableau) :
    Prop where
  shape : SameShape s t
  current : Current cfg t s.numberOfNodes k

theorem Validated.validateBlock (h : Validated cfg s k t) (hroot : s.Rooted)
    (hk : k < s.numberOfNodes)
    (hact : (t.nodes k).isActive = true) (hblkd : (t.nodes k).isBlocked = true)
    (validation : Validation) :
    Validated cfg s k (t.validateBlock cfg validation k).1 := by
  have hk' : k < t.numberOfNodes := h.shape.numberOfNodes ▸ hk
  obtain ⟨valid, hset, hval⟩ := validateBlock_spec cfg validation t k
  rw [hset]
  refine ⟨h.shape.trans (sameShape_setBlocked t k _ _), ?_⟩
  apply h.current.setBlocked (.inl hblkd) (h.current.eligible k hk' hblkd) _ fun n hn => .inl hn
  intro hsome
  obtain ⟨b, hb⟩ := isSome_iff_exists.mp hsome
  rcases hval b hb with ⟨hdir, hblk⟩ | hmem
  · obtain ⟨b', hlt, hblk'⟩ := h.current.blocker_lt k hk' hdir
    obtain rfl : b' = b := some.inj (hblk'.symm.trans hblk)
    exact ⟨b', hlt, hb, h.current.blocks k hk' hk hact hdir b' hblk⟩
  · obtain ⟨hlt, hblks⟩ := h.current.blocks_of_mem (h.shape.rooted hroot) hk' hact hmem
    exact ⟨b, hlt, hb, hblks⟩

theorem Validated.validateNode (h : Validated cfg s k t) (hroot : s.Rooted)
    (hk : k < s.numberOfNodes) (validation : Validation) (invalid : Option ℕ) :
    Validated cfg s (k + 1) (validateNode cfg validation (t, invalid) k).1 := by
  by_cases hact : (t.nodes k).isActive = true
  · have hlooked : Validated cfg s k (if t.needsValidation k then t.validateBlock cfg validation k
          else (t, false)).1 := by
      split_ifs with hneeds
      · simp only [needsValidation, Bool.and_eq_true] at hneeds
        exact h.validateBlock hroot hk hact hneeds.1 validation
      · exact h
    simp only [BlockingTableau.validateNode, hact, Bool.not_true, Bool.false_eq_true, if_false]
    generalize (if t.needsValidation k then t.validateBlock cfg validation k
      else (t, false)) = looked
      at hlooked ⊢
    obtain ⟨t', found⟩ := looked
    have hmarked : Validated cfg s k { t' with lastValidatedUnchangedNode := some k } :=
      ⟨hlooked.shape.trans ⟨rfl, rfl, fun _ => rfl, fun _ => rfl, fun _ => rfl⟩,
        hlooked.current.same ⟨rfl, rfl, fun _ => rfl, fun _ => rfl, fun _ => rfl⟩ rfl fun n =>
            ⟨rfl, rfl, rfl, rfl⟩⟩
    split
    · rename_i hcan
      simp only [Bool.and_eq_true, Bool.not_eq_true'] at hcan
      refine ⟨hmarked.shape.trans (sameShape_validatedCacheAdd _ k _), ?_⟩
      exact hmarked.current.cacheAdd (hmarked.shape.rooted hroot) (hmarked.shape.numberOfNodes ▸ hk)
        (canParticipateInBlocking_iff.mp hcan.2).1 hcan.1
    · exact ⟨hmarked.shape, hmarked.current.cached_le (Nat.le_succ k)⟩
  · simp only [BlockingTableau.validateNode, hact, Bool.not_false, if_true]
    exact ⟨h.shape, h.current.cached_le (Nat.le_succ k)⟩

theorem Validated.foldl_modifyNode (l : List ℕ) (h : Validated cfg s k t) :
    Validated cfg s k (l.foldl (fun t node => if (t.nodes node).isActive then
      t.modifyNode node fun x => { x with hasChangedSinceValidation := false } else t) t) := by
  induction l generalizing t with
  | nil => exact h
  | cons node l ih =>
    apply ih
    dsimp only
    split_ifs
    · have hshape : SameShape t (t.modifyNode node fun x =>
        { x with hasChangedSinceValidation := false }) :=
        sameShape_modifyNode t node rfl rfl rfl
      refine ⟨h.shape.trans hshape, h.current.same hshape rfl fun n => ?_⟩
      rw [nodes_modifyNode]
      split_ifs with hn
      · subst hn
        exact ⟨rfl, rfl, rfl, rfl⟩
      · exact ⟨rfl, rfl, rfl, rfl⟩
    · exact h

/-- Blocks are validated when all are current, and they are current afterwards. -/
theorem Kept.validateBlocks (h : Kept cfg s) (hroot : s.Rooted)
    (hunchanged : s.firstChangedNode = none)
    (validation : Validation) : SameShape s (s.validateBlocks cfg validation) ∧
      Current cfg (s.validateBlocks cfg validation) s.numberOfNodes
      s.numberOfNodes := by
  have hcur : Current cfg s s.numberOfNodes s.numberOfNodes :=
    h.current (fun c hc => by rw [hunchanged] at hc; cases hc) (fun e he => ⟨he, id⟩)
      (SameShape.refl s) rfl
  obtain ⟨start, hst⟩ : ∃ start, s.lastValidatedUnchangedNode.getD 0 = start := ⟨_, rfl⟩
  rw [BlockingTableau.validateBlocks, hst]
  dsimp only
  rw [foldl_validatedCacheRemove]
  obtain ⟨t, ht⟩ : ∃ t : BlockingTableau, t = { s with
    blockersCache := s.blockersCache.filter fun e => e.1 ∉ s.nodesFrom start } := ⟨_, rfl⟩
  rw [← ht]
  have hshape : SameShape s t := ht ▸ ⟨rfl, rfl, fun _ => rfl, fun _ => rfl, fun _ => rfl⟩
  have hinit : Validated cfg s start t := by
    rw [ht]
    refine ⟨⟨rfl, rfl, fun _ => rfl, fun _ => rfl, fun _ => rfl⟩, hcur.eligible,
      hcur.blocker_lt, hcur.blocks, ?_⟩
    intro e he
    simp only [nodesFrom, mem_filter, mem_range'_1, decide_eq_true_eq] at he
    have hcache := hcur.cache e he.1
    exact ⟨by omega, hcache.2⟩
  have hloop : ∃ k, s.numberOfNodes ≤ k ∧ Validated cfg s k
      ((t.nodesFrom start).foldl (BlockingTableau.validateNode cfg validation) (t,
        none)).1 := by
    rw [nodesFrom, hshape.numberOfNodes]
    by_cases hle : start ≤ s.numberOfNodes
    · refine ⟨s.numberOfNodes, le_rfl, ?_⟩
      apply foldl_range'_invariant (BlockingTableau.validateNode cfg validation)
        (P := fun k x => Validated cfg s k x.1) _ start (t, none) hinit hle
      exact fun k x hk hx => hx.validateNode hroot hk validation x.2
    · rw [Nat.sub_eq_zero_of_le (by omega)]
      exact ⟨start, by omega, hinit⟩
  obtain ⟨k, hk, hvalidated⟩ := hloop
  generalize (t.nodesFrom start).foldl (BlockingTableau.validateNode cfg validation)
    (t, none) = looped
    at hvalidated ⊢
  obtain ⟨t', invalid⟩ := looped
  have hclear := hvalidated.foldl_modifyNode (t'.nodesFrom start)
  generalize (t'.nodesFrom start).foldl _ t' = t'' at hclear ⊢
  have hmark : SameShape t'' { t'' with firstChangedNode := invalid } :=
    ⟨rfl, rfl, fun _ => rfl, fun _ => rfl, fun _ => rfl⟩
  refine ⟨hclear.shape.trans hmark, ?_⟩
  have hall := hclear.current.all hclear.shape.numberOfNodes.le
  rw [hclear.shape.numberOfNodes] at hall
  exact hall.same hmark rfl fun n => ⟨rfl, rfl, rfl, rfl⟩

/-! ## Runs -/

/-- The steps that lose no change. -/
def Harmless (cfg : BlockingConfiguration) (s : BlockingTableau) : Action → Prop
  | .addConcept concept node isCore => s.ConceptSeen cfg concept node isCore
  | .removeConcept => ∀ a ∈ s.assertions.getLast?, s.ChangeSeen cfg a.node a.isCore
  | _ => True

theorem SameShape.kept (h : SameShape s t) (hs : Kept cfg s)
    (hcur : Current cfg t s.numberOfNodes s.numberOfNodes) :
    Kept cfg t := by
  rw [← h.numberOfNodes] at hcur
  apply hcur.kept
  intro n hn p hp
  rw [h.parent] at hp
  exact hs.parent_lt n (h.numberOfNodes ▸ hn) p hp

theorem Kept.perform {a : Action} (h : Kept cfg s) (hen : s.Enabled a) (hharm : s.Harmless cfg a) :
    Kept cfg (s.perform cfg a) := by
  cases a with
  | createNode parent nodeType => exact kept_createNewNode h hen
  | addConcept concept node isCore => exact kept_addConceptAssertion h hharm
  | removeConcept => exact kept_removeConceptAssertion h hharm
  | addRole node0 node1 isCore =>
    have hchg : Weakens s (if isCore then (s.updateNodeChange node0).updateNodeChange node1
        else s) := by
      split_ifs
      · exact (weakens_updateNodeChange s node0).trans (weakens_updateNodeChange _ node1)
      · exact Weakens.refl s
    exact h.weaken ((hchg.trans (weakens_validationInfoChanged _ node0)).trans
      (weakens_validationInfoChanged _ node1))
  | removeRole node0 node1 =>
    exact h.weaken ((weakens_validationInfoChanged s node0).trans
      (weakens_validationInfoChanged _ node1))
  | setActive node isActive => exact kept_setActive h node isActive
  | destroyNode => exact kept_destroyLastTableauNode h hen.1
  | computePreBlocking =>
    obtain ⟨hshape, hcur⟩ := h.computePreBlocking hen
    exact hshape.kept h hcur
  | validateBlocks validation =>
    obtain ⟨hshape, hcur⟩ := h.validateBlocks hen.1 hen.2 validation
    exact hshape.kept h hcur

theorem Reached.kept (h : Reached cfg (Harmless cfg) s) : Kept cfg s := by
  induction h with
  | initial =>
    refine ⟨?_, ?_, ?_, ?_, ?_⟩
    · exact fun n hn => absurd hn (Nat.not_lt_zero n)
    · exact fun n hn => absurd hn (Nat.not_lt_zero n)
    · exact fun n hn => absurd hn (Nat.not_lt_zero n)
    · exact fun n hn => absurd hn (Nat.not_lt_zero n)
    · exact fun e he => absurd he not_mem_nil
  | step _ hen hharm ih => exact ih.perform hen hharm

/-- In a run whose changes of concepts all reach the next pass, every direct block is current right
after a pass. -/
theorem current_of_reached (h : Reached cfg (Harmless cfg) s) (hen : s.Enabled .computePreBlocking)
    {n : ℕ} (hn : n < (s.computePreBlocking cfg).numberOfNodes)
    (hact : ((s.computePreBlocking cfg).nodes n).isActive = true)
    (hdir : ((s.computePreBlocking cfg).nodes n).directlyBlocked = true) :
    ∃ b < n, ((s.computePreBlocking cfg).nodes n).blocker = some b ∧
      ((s.computePreBlocking cfg).nodes b).isActive = true ∧
      ((s.computePreBlocking cfg).nodes b).isBlocked = false ∧
      (s.computePreBlocking cfg).validatedBlockSignature cfg b =
        (s.computePreBlocking cfg).validatedBlockSignature cfg n := by
  obtain ⟨hshape, hcur⟩ := h.kept.computePreBlocking hen
  have hroot := hshape.rooted hen
  obtain ⟨b, hb, hblk⟩ := hcur.blocker_lt n hn hdir
  obtain ⟨hbactive, hunblocked, heq⟩ :=
    hcur.blocks n hn (hshape.numberOfNodes ▸ hn) hact hdir b hblk
  refine ⟨b, hb, hblk, hbactive, hunblocked, ?_⟩
  rw [hroot.validatedBlockSignature_eq (hb.trans hn) hbactive,
    hroot.validatedBlockSignature_eq hn hact, heq]

instance (s : BlockingTableau) : Decidable s.Rooted :=
  decidable_of_iff (∀ n < s.numberOfNodes, (s.nodes n).isActive = true →
    ((s.nodes n).parent.all fun p => (s.nodes p).isActive) = true) <| by
    simp only [Rooted, Option.all_eq_true]

instance : (s : BlockingTableau) → (a : Action) → Decidable (s.Enabled a)
  | s, .createNode parent _ => inferInstanceAs (Decidable (∀ p ∈ parent, p < s.numberOfNodes))
  | s, .addConcept _ node _ => inferInstanceAs (Decidable (node < s.numberOfNodes))
  | s, .setActive node _ => inferInstanceAs (Decidable (node < s.numberOfNodes))
  | _, .removeConcept => inferInstanceAs (Decidable True)
  | s, .addRole node0 node1 _ =>
    inferInstanceAs (Decidable (node0 < s.numberOfNodes ∧ node1 < s.numberOfNodes))
  | s, .removeRole node0 node1 =>
    inferInstanceAs (Decidable (node0 < s.numberOfNodes ∧ node1 < s.numberOfNodes))
  | s, .destroyNode =>
    inferInstanceAs (Decidable (0 < s.numberOfNodes ∧ ∀ a ∈ s.assertions,
      a.node < s.numberOfNodes - 1))
  | s, .computePreBlocking => inferInstanceAs (Decidable s.Rooted)
  | s, .validateBlocks _ => inferInstanceAs (Decidable (s.Rooted ∧ s.firstChangedNode = none))

/-- Whether all steps of a run can be taken. -/
def EnabledRun (cfg : BlockingConfiguration) : BlockingTableau → List Action → Prop
  | _, [] => True
  | s, a :: rest => s.Enabled a ∧ EnabledRun cfg (s.perform cfg a) rest

def decidableEnabledRun (cfg : BlockingConfiguration) :
    (s : BlockingTableau) → (actions : List Action) → Decidable (EnabledRun cfg s actions)
  | _, [] => inferInstanceAs (Decidable True)
  | s, a :: rest =>
    have := decidableEnabledRun cfg (s.perform cfg a) rest
    inferInstanceAs (Decidable (s.Enabled a ∧ EnabledRun cfg (s.perform cfg a) rest))

instance (cfg : BlockingConfiguration) (s : BlockingTableau) (actions : List Action) :
    Decidable (EnabledRun cfg s actions) := decidableEnabledRun cfg s actions

theorem reached_foldl {permitted : BlockingTableau → Action → Prop} {actions : List Action}
    (h : Reached cfg permitted s) (hen : EnabledRun cfg s actions)
    (hperm : ∀ a ∈ actions, ∀ s, permitted s a) :
    Reached cfg permitted (actions.foldl (perform cfg) s) := by
  induction actions generalizing s with
  | nil => exact h
  | cons a rest ih =>
    apply ih (.step h hen.1 (hperm a mem_cons_self s)) hen.2
    exact fun b hb => hperm b (mem_cons_of_mem a hb)

/-- The signature of a node is its own label. -/
def singleConfiguration : BlockingConfiguration := ⟨false, false, true, false⟩

/-- Two tree nodes below a named one, both with the core concept `A`. -/
def siblings : List Action :=
  [.createNode none .namedNode, .createNode (some 0) .treeNode, .createNode (some 0) .treeNode,
    .addConcept ⟨"A"⟩ 1 true, .addConcept ⟨"A"⟩ 2 true]

theorem harmless_siblings : ∀ a ∈ siblings, ∀ s, Harmless singleConfiguration s a := by
  have hcore : ∀ s concept node, ConceptSeen singleConfiguration s concept node true := by
    intro s concept node _ _
    have hpar : s.ParentSeen singleConfiguration node := fun h => by cases h
    split
    · exact hpar
    · exact fun _ _ => hpar
  intro a ha s
  simp only [siblings, mem_cons, not_mem_nil, or_false] at ha
  rcases ha with rfl | rfl | rfl | rfl | rfl
  · trivial
  · trivial
  · trivial
  · exact hcore s _ _
  · exact hcore s _ _

theorem current_of_reached_siblings : ∃ b < 2,
    ((((siblings.foldl (perform singleConfiguration) {}).computePreBlocking
      singleConfiguration).nodes 2).blocker = some b ∧
      (((siblings.foldl (perform singleConfiguration) {}).computePreBlocking
        singleConfiguration).nodes b).isActive = true ∧
      (((siblings.foldl (perform singleConfiguration) {}).computePreBlocking
        singleConfiguration).nodes b).isBlocked = false ∧
      ((siblings.foldl (perform singleConfiguration) {}).computePreBlocking
        singleConfiguration).validatedBlockSignature singleConfiguration b =
        ((siblings.foldl (perform singleConfiguration) {}).computePreBlocking
          singleConfiguration).validatedBlockSignature singleConfiguration 2) :=
  current_of_reached (reached_foldl .initial (by decide +kernel) harmless_siblings)
    (by decide +kernel)
    (by decide +kernel) (by decide +kernel) (by decide +kernel)

/-- The second node gets another core concept once it is blocked by the first, and then a concept
that is not core, which takes its flag back. -/
theorem exists_reached_staleBlock : ∃ s : BlockingTableau,
    Reached singleConfiguration (fun _ _ => True) s ∧ s.Enabled .computePreBlocking ∧ ∃ b,
    ((s.computePreBlocking singleConfiguration).nodes 2).blocker = some b ∧
      ((s.computePreBlocking singleConfiguration).nodes 2).isActive = true ∧
      ((s.computePreBlocking singleConfiguration).nodes 2).directlyBlocked = true ∧
      (s.computePreBlocking singleConfiguration).validatedBlockSignature singleConfiguration b ≠
        (s.computePreBlocking singleConfiguration).validatedBlockSignature singleConfiguration 2 :=
  by
  have hrun : EnabledRun singleConfiguration {}
      (siblings ++ [.computePreBlocking, .addConcept ⟨"B"⟩ 2 true, .addConcept ⟨"C"⟩ 2 false]) := by
    decide +kernel
  exact ⟨_, reached_foldl .initial hrun fun _ _ _ => trivial,
      by decide +kernel, 1, by decide +kernel,
    by decide +kernel, by decide +kernel, by decide +kernel⟩

end BlockingTableau

end Hermit
