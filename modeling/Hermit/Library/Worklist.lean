import Mathlib

/-! # Reachability by a worklist

Two loops over a stack of pending vertices: one marks a vertex when it is taken
from the stack, the other when it is put there.  With fuel for every vertex of a
closed universe both return exactly the vertices reachable from the seeds.
-/

namespace Hermit.Worklist

open List

variable {α : Type*} [DecidableEq α] {next : α → List α}

/-- `x` can be reached from a member of `seeds`. -/
def Reach (next : α → List α) (seeds : List α) (x : α) : Prop :=
  ∃ s ∈ seeds, Relation.ReflTransGen (fun a b => b ∈ next a) s x

variable {x : α}

omit [DecidableEq α] in
theorem Reach.of_mem {seeds : List α} (h : x ∈ seeds) : Reach next seeds x :=
  ⟨x, h, .refl⟩

omit [DecidableEq α] in
/-- A set that contains the seeds and is closed under `next` contains what they reach. -/
theorem Reach.mem_of_closed {seeds : List α} (h : Reach next seeds x) {p : α → Prop}
    (hseeds : ∀ s ∈ seeds, p s) (hcl : ∀ a, p a → ∀ b ∈ next a, p b) : p x := by
  obtain ⟨s, hs, hsx⟩ := h
  induction hsx with
  | refl => exact hseeds s hs
  | tail _ hb ih => exact hcl _ ih _ hb

/-! ## Marking on removal -/

/-- Take a vertex from the stack; an unmarked one is marked and its successors are pushed. -/
def closePop (next : α → List α) : ℕ → List α → List α → List α
  | 0, _, seen => seen
  | _ + 1, [], seen => seen
  | fuel + 1, a :: pending, seen =>
    if a ∈ seen then closePop next fuel pending seen
    else closePop next fuel ((next a).reverse ++ pending) (a :: seen)

/-- The loop with any way to put the successors among the pending vertices. -/
def closeBy (push : List α → List α → List α) (next : α → List α) : ℕ → List α → List α → List α
  | 0, _, seen => seen
  | _ + 1, [], seen => seen
  | fuel + 1, a :: pending, seen =>
    if a ∈ seen then closeBy push next fuel pending seen
    else closeBy push next fuel (push (next a) pending) (a :: seen)

theorem closePop_eq (fuel : ℕ) (pending seen : List α) :
    closePop next fuel pending seen = closeBy (fun new pending => new.reverse ++ pending) next fuel
    pending seen := by
  induction fuel generalizing pending seen with
  | zero => rfl
  | succ fuel ih =>
    cases pending with
    | nil => rfl
    | cons a pending => rw [closePop, closeBy, ih, ih]

section closeBy

variable {push : List α → List α → List α}
    (hpush : ∀ new pending, (push new pending).Perm (new ++ pending))

include hpush

theorem closeBy_sound (fuel : ℕ) (pending seen : List α) {p : α → Prop}
    (hpend : ∀ a ∈ pending, p a) (hseen : ∀ a ∈ seen, p a)
    (hcl : ∀ a, p a → ∀ b ∈ next a, p b) : ∀ a ∈ closeBy push next fuel pending seen, p a := by
  induction fuel generalizing pending seen with
  | zero => exact hseen
  | succ fuel ih =>
    cases pending with
    | nil => exact hseen
    | cons a pending =>
      have ha : p a := hpend a (by simp)
      have hrest : ∀ b ∈ pending, p b := fun b hb => hpend b (by simp [hb])
      rw [closeBy]
      split
      · exact ih pending seen hrest hseen
      · apply ih
        · intro b hb
          rcases mem_append.mp ((hpush _ _).mem_iff.mp hb) with hb | hb
          · exact hcl a ha b hb
          · exact hrest b hb
        · intro b hb
          rcases mem_cons.mp hb with rfl | hb
          · exact ha
          · exact hseen b hb

end closeBy

/-- What the loop may still push: the successors of the unmarked vertices. -/
def outstanding (next : α → List α) (univ : Finset α) (seen : List α) : ℕ :=
  ∑ a ∈ univ \ seen.toFinset, (next a).length

variable {univ : Finset α}

theorem outstanding_cons (next : α → List α) {seen : List α} {a : α}
    (ha : a ∈ univ) (hnew : a ∉ seen) :
    outstanding next univ (a :: seen) + (next a).length = outstanding next univ seen := by
  have hmem : a ∈ univ \ seen.toFinset := by simp [ha, hnew]
  have herase : univ \ (a :: seen).toFinset = (univ \ seen.toFinset).erase a := by
    ext b
    simp only [toFinset_cons, Finset.mem_sdiff, Finset.mem_insert, mem_toFinset,
      not_or, Finset.mem_erase]
    tauto
  rw [outstanding, herase, outstanding, Finset.sum_erase_add _ _ hmem]

theorem outstanding_cons_le (next : α → List α) (univ : Finset α) (a : α) (seen : List α) :
    outstanding next univ (a :: seen) ≤ outstanding next univ seen := by
  apply Finset.sum_le_sum_of_subset
  apply Finset.sdiff_subset_sdiff (Finset.Subset.refl univ)
  rw [toFinset_cons]
  exact Finset.subset_insert a _

/-- With enough fuel the result contains every pending vertex and is closed under `next`. -/
theorem closeBy_closed {push : List α → List α → List α}
    (hpush : ∀ new pending, (push new pending).Perm (new ++ pending))
    (huniv : ∀ a ∈ univ, ∀ b ∈ next a, b ∈ univ)
    (fuel : ℕ) (pending seen : List α) (hpend : ∀ a ∈ pending, a ∈ univ)
    (hfuel : pending.length + outstanding next univ seen < fuel)
    (hcl : ∀ a ∈ seen, ∀ b ∈ next a, b ∈ seen ∨ b ∈ pending) :
    (∀ a, a ∈ seen ∨ a ∈ pending → a ∈ closeBy push next fuel pending seen) ∧
      ∀ a ∈ closeBy push next fuel pending seen, ∀ b ∈ next a,
      b ∈ closeBy push next fuel pending seen := by
  induction fuel generalizing pending seen with
  | zero => omega
  | succ fuel ih =>
    cases pending with
    | nil => simpa [closeBy] using hcl
    | cons a pending =>
      have ha : a ∈ univ := hpend a (by simp)
      have hrest : ∀ b ∈ pending, b ∈ univ := fun b hb => hpend b (by simp [hb])
      rw [length_cons] at hfuel
      rw [closeBy]
      split
      · rename_i hseen
        have hcl' : ∀ c ∈ seen, ∀ b ∈ next c, b ∈ seen ∨ b ∈ pending := by
          intro c hc b hb
          rcases hcl c hc b hb with h | h
          · exact .inl h
          · rcases mem_cons.mp h with rfl | h
            · exact .inl hseen
            · exact .inr h
        obtain ⟨hmem, hnext⟩ := ih pending seen hrest (by omega) hcl'
        refine ⟨?_, hnext⟩
        intro b hb
        apply hmem
        rcases hb with hb | hb
        · exact .inl hb
        · rcases mem_cons.mp hb with rfl | hb
          · exact .inl hseen
          · exact .inr hb
      · rename_i hnew
        have hout := outstanding_cons next ha hnew
        have hcl' : ∀ c ∈ a :: seen, ∀ b ∈ next c, b ∈ a :: seen ∨ b ∈ push (next a) pending := by
          have hmem : ∀ b, b ∈ push (next a) pending ↔ b ∈ next a ∨ b ∈ pending :=
            fun b => (hpush _ _).mem_iff.trans mem_append
          intro c hc b hb
          rcases mem_cons.mp hc with rfl | hc
          · exact .inr ((hmem b).mpr (.inl hb))
          · rcases hcl c hc b hb with h | h
            · exact .inl (by simp [h])
            · rcases mem_cons.mp h with rfl | h
              · exact .inl (by simp)
              · exact .inr ((hmem b).mpr (.inr h))
        have hpend' : ∀ b ∈ push (next a) pending, b ∈ univ := by
          intro b hb
          rcases mem_append.mp ((hpush _ _).mem_iff.mp hb) with hb | hb
          · exact huniv a ha b hb
          · exact hrest b hb
        have hlen : (push (next a) pending).length + outstanding next univ (a :: seen) < fuel := by
          rw [(hpush _ _).length_eq, length_append]
          omega
        obtain ⟨hmem, hnext⟩ := ih _ (a :: seen) hpend' hlen hcl'
        refine ⟨?_, hnext⟩
        intro b hb
        apply hmem
        rcases hb with hb | hb
        · exact .inl (by simp [hb])
        · rcases mem_cons.mp hb with rfl | hb
          · exact .inl (by simp)
          · exact .inr ((hpush _ _).mem_iff.mpr (mem_append_right _ hb))

/-- The vertices reachable from `seeds` within the universe `univ`, marked on removal. -/
def reachPop (next : α → List α) (univ seeds : List α) : List α :=
  closePop next (seeds.length + (univ.map fun a => (next a).length).sum + 1) seeds.reverse []

theorem outstanding_nil_le (next : α → List α) (univ : List α) :
    outstanding next univ.toFinset [] ≤ (univ.map fun a => (next a).length).sum := by
  rw [outstanding]
  induction univ with
  | nil => simp
  | cons a univ ih =>
    rw [map_cons, sum_cons, toFinset_cons]
    simp only [toFinset_nil, Finset.sdiff_empty] at ih ⊢
    by_cases ha : a ∈ univ.toFinset
    · rw [Finset.insert_eq_of_mem ha]
      omega
    · rw [Finset.sum_insert ha]
      omega

/-- The loop finds what can be reached, whatever the order in which it takes the vertices. -/
theorem mem_closeBy {push : List α → List α → List α}
    (hpush : ∀ new pending, (push new pending).Perm (new ++ pending)) {univ seeds : List α}
    (huniv : ∀ a ∈ univ, ∀ b ∈ next a, b ∈ univ) (hseeds : ∀ a ∈ seeds, a ∈ univ) {fuel : ℕ}
    (hfuel : seeds.length + (univ.map fun a => (next a).length).sum < fuel) (x : α) :
    x ∈ closeBy push next fuel seeds [] ↔ Reach next seeds x := by
  constructor
  · intro h
    refine closeBy_sound hpush _ seeds [] (fun a ha => .of_mem ha) (by simp) ?_ x h
    rintro a ⟨s, hs, hsa⟩ b hb
    exact ⟨s, hs, hsa.tail hb⟩
  · intro h
    have hle := outstanding_nil_le next univ
    have huniv' : ∀ a ∈ univ.toFinset, ∀ b ∈ next a, b ∈ univ.toFinset := by simpa using huniv
    have hcl := closeBy_closed hpush huniv' fuel seeds [] (by simpa using hseeds)
      (by omega) (by simp)
    apply h.mem_of_closed
    · intro s hs
      exact hcl.1 s (.inr hs)
    · exact hcl.2

theorem mem_reachPop {univ seeds : List α} (huniv : ∀ a ∈ univ, ∀ b ∈ next a, b ∈ univ)
    (hseeds : ∀ a ∈ seeds, a ∈ univ) (x : α) :
    x ∈ reachPop next univ seeds ↔ Reach next seeds x := by
  rw [reachPop, closePop_eq, mem_closeBy (fun new pending =>
      (reverse_perm new).append_right pending) huniv
    (by simpa using hseeds) (by rw [length_reverse]; omega)]
  simp only [Reach, mem_reverse]

/-- The vertices reachable from `start`, taken in the order in which they were found. -/
def reachQueue (next : α → List α) (univ : List α) (start : α) : List α :=
  closeBy (fun new pending => pending ++ new) next
    ((univ.map fun a => (next a).length).sum + 2) [start] []

theorem mem_reachQueue {univ : List α} (huniv : ∀ a ∈ univ, ∀ b ∈ next a, b ∈ univ) {start : α}
    (hst : start ∈ univ) (x : α) : x ∈ reachQueue next univ start ↔
    Relation.ReflTransGen (fun a b => b ∈ next a) start x := by
  rw [reachQueue, mem_closeBy (fun new pending => perm_append_comm) huniv (by simpa using hst)
    (by rw [length_singleton]; omega)]
  simp only [Reach, mem_singleton, exists_eq_left]

/-! ## Marking on insertion -/

/-- Mark and push the unmarked ones among `bs`. -/
def pushNew : List α → List α × List α → List α × List α
  | [], state => state
  | b :: bs, (pending, seen) =>
    if b ∈ seen then pushNew bs (pending, seen) else pushNew bs (b :: pending, b :: seen)

/-- Take a vertex from the stack, mark and push its unmarked successors. -/
def closePush (next : α → List α) : ℕ → List α → List α → List α
  | 0, _, seen => seen
  | _ + 1, [], seen => seen
  | fuel + 1, a :: pending, seen =>
    closePush next fuel (pushNew (next a) (pending, seen)).1 (pushNew (next a) (pending, seen)).2

theorem mem_pushNew_snd (bs pending seen : List α) (x : α) :
    x ∈ (pushNew bs (pending, seen)).2 ↔ x ∈ bs ∨ x ∈ seen := by
  induction bs generalizing pending seen with
  | nil => simp [pushNew]
  | cons b bs ih =>
    rw [pushNew]
    split
    · rename_i hb
      rw [ih]
      constructor
      · rintro (h | h)
        · exact .inl (by simp [h])
        · exact .inr h
      · rintro (h | h)
        · rcases mem_cons.mp h with rfl | h
          · exact .inr hb
          · exact .inl h
        · exact .inr h
    · rw [ih, mem_cons, mem_cons]
      tauto

theorem mem_pushNew_fst (bs pending seen : List α) (x : α) :
    x ∈ (pushNew bs (pending, seen)).1 ↔ x ∈ pending ∨ (x ∈ bs ∧ x ∉ seen) := by
  induction bs generalizing pending seen with
  | nil => simp [pushNew]
  | cons b bs ih =>
    rw [pushNew]
    split
    · rename_i hb
      rw [ih, mem_cons]
      constructor
      · tauto
      · rintro (h | ⟨rfl | h, hn⟩)
        · exact .inl h
        · exact absurd hb hn
        · exact .inr ⟨h, hn⟩
    · rename_i hb
      rw [ih]
      simp only [mem_cons, not_or]
      constructor
      · rintro ((rfl | h) | ⟨h, -, hn⟩)
        · exact .inr ⟨.inl rfl, hb⟩
        · exact .inl h
        · exact .inr ⟨.inr h, hn⟩
      · rintro (h | ⟨rfl | h, hn⟩)
        · exact .inl (.inr h)
        · exact .inl (.inl rfl)
        · by_cases hxb : x = b
          · exact .inl (.inl hxb)
          · exact .inr ⟨h, hxb, hn⟩

/-- Every push is paid for by a vertex of the universe that gets marked. -/
theorem pushNew_length (univ : Finset α) (bs pending seen : List α) (hbs : ∀ b ∈ bs, b ∈ univ) :
    (pushNew bs (pending, seen)).1.length + (univ \ (pushNew bs (pending, seen)).2.toFinset).card =
      pending.length + (univ \ seen.toFinset).card := by
  induction bs generalizing pending seen with
  | nil => simp [pushNew]
  | cons b bs ih =>
    have hrest : ∀ c ∈ bs, c ∈ univ := fun c hc => hbs c (by simp [hc])
    rw [pushNew]
    split
    · exact ih pending seen hrest
    · rename_i hb
      have hmem : b ∈ univ \ seen.toFinset := by simp [hb, hbs b (by simp)]
      have herase : univ \ (b :: seen).toFinset = (univ \ seen.toFinset).erase b := by
        ext c
        simp only [toFinset_cons, Finset.mem_sdiff, Finset.mem_insert, mem_toFinset,
          not_or, Finset.mem_erase]
        tauto
      have hcard := Finset.card_erase_add_one hmem
      rw [ih (b :: pending) (b :: seen) hrest, herase, length_cons]
      omega

theorem closePush_sound (fuel : ℕ) (pending seen : List α) {p : α → Prop}
    (hpend : ∀ a ∈ pending, p a) (hseen : ∀ a ∈ seen, p a)
    (hcl : ∀ a, p a → ∀ b ∈ next a, p b) : ∀ a ∈ closePush next fuel pending seen, p a := by
  induction fuel generalizing pending seen with
  | zero => exact hseen
  | succ fuel ih =>
    cases pending with
    | nil => exact hseen
    | cons a pending =>
      have ha : p a := hpend a (by simp)
      rw [closePush]
      apply ih
      · intro b hb
        rcases (mem_pushNew_fst _ _ _ _).mp hb with hb | ⟨hb, -⟩
        · exact hpend b (by simp [hb])
        · exact hcl a ha b hb
      · intro b hb
        rcases (mem_pushNew_snd _ _ _ _).mp hb with hb | hb
        · exact hcl a ha b hb
        · exact hseen b hb

theorem closePush_closed (huniv : ∀ a ∈ univ, ∀ b ∈ next a, b ∈ univ)
    (fuel : ℕ) (pending seen : List α) (hpend : ∀ a ∈ pending, a ∈ univ)
    (hfuel : pending.length + (univ \ seen.toFinset).card < fuel)
    (hcl : ∀ a ∈ seen, a ∈ pending ∨ ∀ b ∈ next a, b ∈ seen) :
    (∀ a ∈ seen, a ∈ closePush next fuel pending seen) ∧
      ∀ a ∈ closePush next fuel pending seen, ∀ b ∈ next a,
        b ∈ closePush next fuel pending seen := by
  induction fuel generalizing pending seen with
  | zero => omega
  | succ fuel ih =>
    cases pending with
    | nil => simpa [closePush] using hcl
    | cons a pending =>
      have ha : a ∈ univ := hpend a (by simp)
      rw [closePush]
      have hlen := pushNew_length univ (next a) pending seen (huniv a ha)
      rw [length_cons] at hfuel
      have hpend' : ∀ b ∈ (pushNew (next a) (pending, seen)).1, b ∈ univ := by
        intro b hb
        rcases (mem_pushNew_fst _ _ _ _).mp hb with hb | ⟨hb, -⟩
        · exact hpend b (by simp [hb])
        · exact huniv a ha b hb
      have hcl' : ∀ c ∈ (pushNew (next a) (pending, seen)).2,
          c ∈ (pushNew (next a) (pending, seen)).1 ∨
            ∀ b ∈ next c, b ∈ (pushNew (next a) (pending, seen)).2 := by
        intro c hc
        simp only [mem_pushNew_fst, mem_pushNew_snd] at hc ⊢
        by_cases hcs : c ∈ seen
        · rcases hcl c hcs with h | h
          · rcases mem_cons.mp h with rfl | h
            · exact .inr fun b hb => .inl hb
            · exact .inl (.inl h)
          · exact .inr fun b hb => .inr (h b hb)
        · exact .inl (.inr ⟨hc.resolve_right hcs, hcs⟩)
      obtain ⟨hmem, hnext⟩ := ih _ _ hpend' (by omega) hcl'
      refine ⟨?_, hnext⟩
      intro b hb
      exact hmem b ((mem_pushNew_snd _ _ _ _).mpr (.inr hb))

/-- The vertices reachable from `seeds` within the universe `univ`, marked on insertion. -/
def reachPush (next : α → List α) (univ seeds : List α) : List α :=
  closePush next (seeds.length + univ.length + 1) seeds.reverse seeds

theorem mem_reachPush {univ seeds : List α} (huniv : ∀ a ∈ univ, ∀ b ∈ next a, b ∈ univ)
    (hseeds : ∀ a ∈ seeds, a ∈ univ) (x : α) :
    x ∈ reachPush next univ seeds ↔ Reach next seeds x := by
  constructor
  · intro h
    refine closePush_sound _ seeds.reverse seeds ?_ ?_ ?_ x h
    · intro a ha
      exact .of_mem (mem_reverse.mp ha)
    · exact fun a ha => .of_mem ha
    · rintro a ⟨s, hs, hsa⟩ b hb
      exact ⟨s, hs, hsa.tail hb⟩
  · intro h
    have hcard : (univ.toFinset \ seeds.toFinset).card ≤ univ.length :=
      (Finset.card_le_card Finset.sdiff_subset).trans univ.toFinset_card_le
    have huniv' : ∀ a ∈ univ.toFinset, ∀ b ∈ next a, b ∈ univ.toFinset := by simpa using huniv
    have hcl := closePush_closed huniv' (seeds.length + univ.length + 1) seeds.reverse seeds
      (by simpa using hseeds) (by rw [length_reverse]; omega)
      (fun a ha => .inl (mem_reverse.mpr ha))
    apply h.mem_of_closed
    · exact hcl.1
    · exact hcl.2

/-! ## Queues -/

/-- Append the unmarked ones among `bs` to a queue, and mark them. -/
def enqueueNew : List α → List α × List α → List α × List α
  | [], state => state
  | b :: bs, (queue, queued) =>
    if b ∈ queued then enqueueNew bs (queue, queued) else enqueueNew bs (queue ++ [b], b :: queued)

theorem mem_enqueueNew_fst {bs queue queued : List α} (h : x ∈ (enqueueNew bs (queue, queued)).1) :
    x ∈ queue ∨ x ∈ bs := by
  induction bs generalizing queue queued with
  | nil => exact .inl h
  | cons b bs ih =>
    rw [enqueueNew] at h
    split at h
    · exact (ih h).imp_right (mem_cons_of_mem _)
    · rcases ih h with h | h
      · rcases mem_append.mp h with h | h
        · exact .inl h
        · exact .inr (mem_cons.mpr (.inl (mem_singleton.mp h)))
      · exact .inr (mem_cons_of_mem _ h)

/-- A vertex moves from the unmarked ones to the queue. -/
theorem enqueueNew_length (univ : Finset α) (bs queue queued : List α) (hbs : ∀ b ∈ bs, b ∈ univ) :
    (enqueueNew bs (queue, queued)).1.length +
    (univ \ (enqueueNew bs (queue, queued)).2.toFinset).card =
      queue.length + (univ \ queued.toFinset).card := by
  induction bs generalizing queue queued with
  | nil => rfl
  | cons b bs ih =>
    have hrest : ∀ c ∈ bs, c ∈ univ := fun c hc => hbs c (mem_cons_of_mem _ hc)
    rw [enqueueNew]
    split
    · exact ih queue queued hrest
    · rename_i hnew
      have hmem : b ∈ univ \ queued.toFinset := by simp [hbs b, hnew]
      have herase : univ \ (b :: queued).toFinset = (univ \ queued.toFinset).erase b := by
        ext c
        simp only [toFinset_cons, Finset.mem_sdiff, Finset.mem_insert, mem_toFinset, not_or,
          Finset.mem_erase]
        tauto
      rw [ih (queue ++ [b]) (b :: queued) hrest, herase, length_append, length_singleton,
        Finset.card_erase_of_mem hmem]
      have := Finset.card_pos.mpr ⟨b, hmem⟩
      omega

/-- Append those that are neither marked nor in the queue. -/
def enqueueFresh (seen bs queue : List α) : List α :=
  bs.foldl (fun queue b => if b ∉ seen ∧ b ∉ queue then queue ++ [b] else queue) queue

/-- The order in which unmarked vertices are taken from a queue to which their successors are
appended. -/
def takeOrder (next : α → List α) : ℕ → List α → List α → Option (List α)
  | _, [], _ => some []
  | 0, _ :: _, _ => none
  | fuel + 1, a :: queue, seen =>
    if a ∈ seen then takeOrder next fuel queue seen
    else (takeOrder next fuel (enqueueFresh (a :: seen) (next a) queue) (a :: seen)).map (a :: ·)

variable {seen bs queue : List α}

theorem mem_enqueueFresh : x ∈ enqueueFresh seen bs queue ↔ x ∈ queue ∨ x ∈ bs ∧ x ∉ seen := by
  unfold enqueueFresh
  induction bs generalizing queue with
  | nil => simp
  | cons b bs ih =>
    rw [foldl_cons, ih, mem_cons]
    split
    · rename_i hb
      rw [mem_append, mem_singleton, or_assoc]
      refine or_congr_right ⟨?_, ?_⟩
      · rintro (rfl | hx)
        · exact ⟨.inl rfl, hb.1⟩
        · exact ⟨.inr hx.1, hx.2⟩
      · rintro ⟨rfl | hx, hnew⟩
        · exact .inl rfl
        · exact .inr ⟨hx, hnew⟩
    · rename_i hb
      constructor
      · exact fun hx => hx.imp_right fun hx => ⟨.inr hx.1, hx.2⟩
      · rintro (hx | ⟨rfl | hx, hnew⟩)
        · exact .inl hx
        · exact .inl (not_not.mp fun hx => hb ⟨hnew, hx⟩)
        · exact .inr ⟨hx, hnew⟩

theorem nodup_enqueueFresh (hqueue : queue.Nodup) : (enqueueFresh seen bs queue).Nodup := by
  unfold enqueueFresh
  induction bs generalizing queue with
  | nil => exact hqueue
  | cons b bs ih =>
    rw [foldl_cons]
    apply ih
    split
    · rename_i hb
      rw [nodup_append]
      refine ⟨hqueue, nodup_singleton b, fun a ha c hc => ?_⟩
      rw [mem_singleton.mp hc]
      rintro rfl
      exact hb.2 ha
    · exact hqueue

/-- Every vertex is taken once, and all that can be reached are. -/
theorem exists_takeOrder (huniv : ∀ a ∈ univ, ∀ b ∈ next a, b ∈ univ) (fuel : ℕ)
    (queue seen : List α) (hqueue : ∀ a ∈ queue, a ∈ univ ∧ a ∉ seen) (hnd : queue.Nodup)
    (hfuel : (univ \ seen.toFinset).card ≤ fuel)
    (hcl : ∀ a ∈ seen, ∀ b ∈ next a, b ∈ seen ∨ b ∈ queue) :
    ∃ order, takeOrder next fuel queue seen = some order ∧ order.Nodup ∧
    (∀ a ∈ order, a ∈ univ ∧ a ∉ seen) ∧
      (∀ a ∈ queue, a ∈ order) ∧ ∀ a, a ∈ seen ∨ a ∈ order → ∀ b ∈ next a,
      b ∈ seen ∨ b ∈ order := by
  induction fuel generalizing queue seen with
  | zero =>
    cases queue with
    | nil =>
      exact ⟨[], rfl, nodup_nil, nofun, nofun, fun a ha => hcl a (ha.resolve_right nofun)⟩
    | cons a queue =>
      obtain ⟨ha, hnew⟩ := hqueue a mem_cons_self
      have hpos : 0 < (univ \ seen.toFinset).card := Finset.card_pos.mpr ⟨a, by simp [ha, hnew]⟩
      omega
  | succ fuel ih =>
    cases queue with
    | nil =>
      exact ⟨[], rfl, nodup_nil, nofun, nofun, fun a ha => hcl a (ha.resolve_right nofun)⟩
    | cons a queue =>
      obtain ⟨ha, hnew⟩ := hqueue a mem_cons_self
      obtain ⟨hnot, hrest⟩ := nodup_cons.mp hnd
      have hqueue' : ∀ b ∈ enqueueFresh (a :: seen) (next a) queue, b ∈ univ ∧ b ∉ a :: seen := by
        intro b hb
        rcases mem_enqueueFresh.mp hb with hb | ⟨hb, hfresh⟩
        · obtain ⟨hb', hbnew⟩ := hqueue b (mem_cons_of_mem _ hb)
          refine ⟨hb', ?_⟩
          rw [mem_cons, not_or]
          exact ⟨fun heq => hnot (heq ▸ hb), hbnew⟩
        · exact ⟨huniv a ha b hb, hfresh⟩
      have hfuel' : (univ \ (a :: seen).toFinset).card ≤ fuel := by
        have hmem : a ∈ univ \ seen.toFinset := by simp [ha, hnew]
        have herase : univ \ (a :: seen).toFinset = (univ \ seen.toFinset).erase a := by
          ext b
          simp only [toFinset_cons, Finset.mem_sdiff, Finset.mem_insert, mem_toFinset, not_or,
            Finset.mem_erase]
          tauto
        have hcard := Finset.card_erase_add_one hmem
        rw [herase]
        omega
      have hcl' : ∀ c ∈ a :: seen, ∀ b ∈ next c,
          b ∈ a :: seen ∨ b ∈ enqueueFresh (a :: seen) (next a) queue := by
        intro c hc b hb
        by_cases hseen : b ∈ a :: seen
        · exact .inl hseen
        right
        rw [mem_enqueueFresh]
        rcases mem_cons.mp hc with rfl | hc
        · exact .inr ⟨hb, hseen⟩
        · rcases hcl c hc b hb with hb | hb
          · exact absurd (mem_cons_of_mem _ hb) hseen
          · rcases mem_cons.mp hb with rfl | hb
            · exact absurd mem_cons_self hseen
            · exact .inl hb
      obtain ⟨order, hrun, hordernodup, horder, hin, hnext⟩ :=
        ih _ _ hqueue' (nodup_enqueueFresh hrest) hfuel' hcl'
      refine ⟨a :: order, ?_, ?_, ?_, ?_, ?_⟩
      · rw [takeOrder, if_neg hnew, hrun]
        rfl
      · exact nodup_cons.mpr ⟨fun hmem => (horder a hmem).2 mem_cons_self, hordernodup⟩
      · intro b hb
        rcases mem_cons.mp hb with rfl | hb
        · exact ⟨ha, hnew⟩
        · exact ⟨(horder b hb).1, fun hseen => (horder b hb).2 (mem_cons_of_mem _ hseen)⟩
      · intro b hb
        rcases mem_cons.mp hb with rfl | hb
        · exact mem_cons_self
        · exact mem_cons_of_mem _ (hin b (mem_enqueueFresh.mpr (.inl hb)))
      · intro c hc b hb
        have hmove : ∀ x, x ∈ a :: seen ∨ x ∈ order ↔ x ∈ seen ∨ x ∈ a :: order := by
          intro x
          rw [mem_cons, mem_cons]
          tauto
        rw [← hmove] at hc ⊢
        exact hnext c hc b hb

end Hermit.Worklist
