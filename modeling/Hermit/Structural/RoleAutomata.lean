import Hermit.Structural.SkeletonLanguage

/-! # The automata accept the derivable words

The construction memoises the automata, so what holds of them is an invariant of
the memo: every stored automaton accepts derivable words only, and as long as no
dependency was cut it is the skeleton of its property with the stored automata
spliced in.  From the latter every derivable word is covered.
-/

namespace Hermit

open List hiding le_antisymm le_trans
open Option

open Automaton Automata RoleBox

variable {simple : List Inclusion} {complex : List Chain}

/-! ## The ends of a chain -/

/-- A chain of two or more properties is its middle between the occurrences of the class. -/
theorem exists_chain_parts (rb : RoleBox) (property : ObjectPropExpr) {subs : List ObjectPropExpr}
    (hlen : 2 ≤ subs.length) :
    ∃ front back, subs = front ++ rb.middle property subs ++ back ∧
      (if rb.startsIn property subs then ∃ r, front = [r] ∧ rb.equivalent r property = true
        else front = []) ∧
      (if rb.endsIn property subs then ∃ r, back = [r] ∧ rb.equivalent r property = true
        else back = []) := by
  obtain ⟨x, ys, rfl⟩ := exists_cons_of_length_pos (by omega : 0 < subs.length)
  have hys : ys ≠ [] := by
    rintro rfl
    simp at hlen
  obtain ⟨zs, y, rfl⟩ := eq_nil_or_concat' ys |>.resolve_left hys
  have hlast : (x :: (zs ++ [y])).getLast? = some y := by
    rw [← cons_append, getLast?_append]
    simp
  have hstarts : rb.startsIn property (x :: (zs ++ [y])) = rb.equivalent x property := by
    simp [startsIn]
  have hends : rb.endsIn property (x :: (zs ++ [y])) = rb.equivalent y property := by
    simp [endsIn, hlast]
  rw [hstarts, hends, middle, hlast]
  cases hx : rb.equivalent x property <;> cases hy : rb.equivalent y property
  · exact ⟨[], [], by simp [hx, hy], by simp, by simp⟩
  · refine ⟨[], [y], ?_, by simp, by simp [hy]⟩
    simp only [head?_cons, any_some, hx, hy, Bool.false_eq_true, if_false, if_true]
    rw [← cons_append, dropLast_concat]
    simp
  · exact ⟨[x], [], by simp [hx, hy], by simp [hx], by simp⟩
  · exact ⟨[x], [y], by simp [hx, hy], by simp [hx], by simp [hy]⟩

section parts

variable {rb : RoleBox} {property : ObjectPropExpr} {subs : List ObjectPropExpr}
  {D E : ObjectPropExpr → Language ObjectPropExpr} {M : Language ObjectPropExpr}

theorem orEpsilon_middle_le (hlen : 2 ≤ subs.length)
    (hE : ∀ r, E r ≤ D r) (hM : ∀ r, rb.equivalent r property = true → M ≤ D r) :
    orEpsilon (rb.startsIn property subs) M * ((rb.middle property subs).map E).prod *
      orEpsilon (rb.endsIn property subs) M ≤ (subs.map D).prod := by
  obtain ⟨front, back, hsubs, hfront, hback⟩ := exists_chain_parts rb property hlen
  have hend (b : Bool) (l : List ObjectPropExpr)
      (h : if b then ∃ r, l = [r] ∧ rb.equivalent r property = true else l = []) :
      orEpsilon b M ≤ (l.map D).prod := by
    cases b with
    | false =>
      obtain rfl : l = [] := by simpa using h
      exact le_rfl
    | true =>
      obtain ⟨r, rfl, hr⟩ : ∃ r, l = [r] ∧ rb.equivalent r property = true := by simpa using h
      simpa [orEpsilon] using hM r hr
  have hmiddle : ((rb.middle property subs).map E).prod ≤ ((rb.middle property subs).map D).prod :=
    prod_le_prod' fun r _ => hE r
  calc _ ≤ (front.map D).prod * ((rb.middle property subs).map D).prod * (back.map D).prod :=
        mul_le_mul' (mul_le_mul' (hend _ _ hfront) hmiddle) (hend _ _ hback)
    _ = (subs.map D).prod := by
        conv_rhs => rw [hsubs]
        rw [map_append, map_append, prod_append, prod_append]

theorem le_orEpsilon_middle (hlen : 2 ≤ subs.length) (hE : ∀ r ∈ rb.middle property subs, D r ≤ E r)
    (hM : ∀ r, rb.equivalent r property = true → r ∈ subs → D r ≤ M) :
    (subs.map D).prod ≤
      orEpsilon (rb.startsIn property subs) M * ((rb.middle property subs).map E).prod *
        orEpsilon (rb.endsIn property subs) M := by
  obtain ⟨front, back, hsubs, hfront, hback⟩ := exists_chain_parts rb property hlen
  have hend (b : Bool) (l : List ObjectPropExpr) (hl : ∀ r ∈ l, r ∈ subs)
      (h : if b then ∃ r, l = [r] ∧ rb.equivalent r property = true else l = []) :
      (l.map D).prod ≤ orEpsilon b M := by
    cases b with
    | false =>
      obtain rfl : l = [] := by simpa using h
      exact le_rfl
    | true =>
      obtain ⟨r, rfl, hr⟩ : ∃ r, l = [r] ∧ rb.equivalent r property = true := by simpa using h
      simpa [orEpsilon] using hM r hr (hl r (by simp))
  have hmiddle : ((rb.middle property subs).map D).prod ≤ ((rb.middle property subs).map E).prod :=
    prod_le_prod' hE
  have hfrontmem : ∀ r ∈ front, r ∈ subs := fun r hr => by
    rw [hsubs]
    simp [hr]
  have hbackmem : ∀ r ∈ back, r ∈ subs := fun r hr => by
    rw [hsubs]
    simp [hr]
  calc (subs.map D).prod
      = (front.map D).prod * ((rb.middle property subs).map D).prod * (back.map D).prod := by
        conv_lhs => rw [hsubs]
        rw [map_append, map_append, prod_append, prod_append]
    _ ≤ _ := mul_le_mul' (mul_le_mul' (hend _ _ hfrontmem hfront) hmiddle) (hend _ _ hbackmem hback)

end parts

/-- A property in the middle of a chain is on a transition other than the direct one. -/
theorem RoleBox.exists_transition_middle (rb : RoleBox) (property : ObjectPropExpr) {c : Chain}
    (hc : c ∈ rb.chains) (heq : rb.equivalent c.2 property = true) (hlen : 2 ≤ c.1.length)
    {r : ObjectPropExpr} (hr : r ∈ rb.middle property c.1) :
    ∃ t ∈ (rb.skeleton property).2, t.label = some r ∧ ¬ (t.start = 0 ∧ t.stop = 1) := by
  obtain ⟨before, after, hspl⟩ := append_of_mem hc
  have hval := (rb.grows_chains property before (rb.baseValid property)).valid
  have hafter := (rb.grows_chains property after
    (rb.grows_addChainPath property hval c).valid).mono
  rw [skeleton, hspl, foldl_append, foldl_cons]
  rw [addChainPath_eq rb property _ c heq, if_neg
    (fun h => ne_nil_of_mem hr (List.isEmpty_iff.mp h))] at hafter ⊢
  obtain ⟨t, ht, hlab, hdir⟩ := exists_transition_addPath (rb.targetOf property c.1)
    (rb.middle property c.1) hval.size hr
  refine ⟨t, hafter t ht, hlab, ?_⟩
  rcases hdir with hdir | ⟨hone, hst, hstop⟩
  · exact hdir
  · rintro ⟨h0, h1⟩
    -- a direct transition needs a chain with no end in the class, which is its own middle
    obtain ⟨front, back, hsubs, hfront, hback⟩ := exists_chain_parts rb property hlen
    have hs : rb.startsIn property c.1 = false := by
      by_contra hs
      rw [hst, sourceOf, if_pos (by simpa using hs)] at h0
      cases h0
    have he : rb.endsIn property c.1 = false := by
      by_contra he
      rw [hstop, targetOf, if_pos (by simpa using he)] at h1
      cases h1
    rw [hs] at hfront
    rw [he] at hback
    simp only [Bool.false_eq_true, if_false] at hfront hback
    rw [hsubs, hfront, hback, hone] at hlen
    simp at hlen

/-! ## The invariant of the memo -/

/-- The automaton of a property, as far as it is stored. -/
abbrev RoleBox.Memo.find (memo : Memo) (r : ObjectPropExpr) : Option Automaton :=
  memo.complete.lookup r

/-- The splice of one transition of the skeleton of `property`, with no dependency cut. -/
def RegularSplice (rb : RoleBox) (memo : Memo) (property : ObjectPropExpr) (s : Splice) : Prop :=
  match s.1.label with
  | none => s.2 = 1
  | some role =>
    if rb.equivalent role property then (s.1.start = 0 ∧ s.1.stop = 1) ∧ s.2 = {[role]}
    else if role ∈ rb.nonSimple then ∃ b, memo.find role = some b ∧ s.2 = b.language
    else s.2 = {[role]}

/-- The automaton of a named property is its spliced skeleton, that of an inverse the mirror
image of the automaton of the property. -/
def Built (rb : RoleBox) (memo : Memo) (property : ObjectPropExpr) (a : Automaton) : Prop :=
  if isAnonymousProperty property then
    ∃ b, memo.find (inverseProperty property) = some b ∧ a.language = mirrorLanguage b.language
  else ∃ used b, Represents (rb.skeleton property).1.states.length used b ∧
    used.map (·.1) = (rb.skeleton property).2 ∧ a.language = b.language ∧
    ∀ s ∈ used, RegularSplice rb memo property s

/-- Every stored automaton is sound, and built from the stored ones if nothing was cut. -/
structure MemoValid (simple : List Inclusion) (complex : List Chain) (memo : Memo) : Prop where
  single : ∀ r a, memo.find r = some a → a.Single
  sound : ∀ r a, memo.find r = some a → a.language ≤ derived simple complex r
  built : memo.irregular = false → ∀ r a, memo.find r = some a →
    Built (.new simple complex) memo r a

/-- A call keeps what is stored and does not touch the properties under construction. -/
structure Progress (building : List ObjectPropExpr) (memo memo' : Memo) : Prop where
  irregular : memo'.irregular = false → memo.irregular = false
  keeps : ∀ r a, memo.find r = some a → memo'.find r = some a
  frame : ∀ r ∈ building, memo'.find r = memo.find r ∧
    memo'.find (inverseProperty r) = memo.find (inverseProperty r)

theorem Progress.refl (building : List ObjectPropExpr) (memo : Memo) :
    Progress building memo memo :=
  ⟨id, fun _ _ h => h, fun _ _ => ⟨rfl, rfl⟩⟩

variable {building : List ObjectPropExpr} {memo memo' : Memo} {a : Automaton} {used : List Splice}
  {recurse : ObjectPropExpr → Memo → Option (Automaton × Memo)}

theorem Progress.trans {m₁ m₂ m₃ : Memo}
    (h : Progress building m₁ m₂) (h' : Progress building m₂ m₃) : Progress building m₁ m₃ := by
  refine ⟨fun hr => h.irregular (h'.irregular hr), fun r a hr => h'.keeps r a (h.keeps r a hr), ?_⟩
  intro r hr
  exact ⟨(h'.frame r hr).1.trans (h.frame r hr).1, (h'.frame r hr).2.trans (h.frame r hr).2⟩

theorem Progress.weaken {building' : List ObjectPropExpr} {m m' : Memo}
    (h : Progress building' m m') (hsub : ∀ r ∈ building, r ∈ building') : Progress building m m' :=
  ⟨h.irregular, h.keeps, fun r hr => h.frame r (hsub r hr)⟩

theorem RegularSplice.mono {rb : RoleBox} {property : ObjectPropExpr} {s : Splice}
    (hkeep : ∀ r a, memo.find r = some a → memo'.find r = some a)
    (h : RegularSplice rb memo property s) : RegularSplice rb memo' property s := by
  unfold RegularSplice at h ⊢
  split
  · rename_i hlab
    simpa only [hlab] using h
  · rename_i role hlab
    simp only [hlab] at h
    split
    · rename_i heq
      simpa [heq] using h
    · rename_i heq
      rw [if_neg heq] at h
      split
      · rename_i hns
        rw [if_pos hns] at h
        obtain ⟨b, hb, hlang⟩ := h
        exact ⟨b, hkeep role b hb, hlang⟩
      · rename_i hns
        rwa [if_neg hns] at h

theorem Built.mono {rb : RoleBox} {property : ObjectPropExpr}
    (hkeep : ∀ r a, memo.find r = some a → memo'.find r = some a) (h : Built rb memo property a) :
    Built rb memo' property a := by
  unfold Built at h ⊢
  split
  · rename_i han
    rw [if_pos han] at h
    obtain ⟨b, hb, hlang⟩ := h
    exact ⟨b, hkeep _ b hb, hlang⟩
  · rename_i han
    rw [if_neg han] at h
    obtain ⟨used, b, hrep, hused, hlang, hsplice⟩ := h
    exact ⟨used, b, hrep, hused, hlang, fun s hs => (hsplice s hs).mono hkeep⟩

/-- Marking the memo irregular keeps it valid. -/
theorem MemoValid.cut (h : MemoValid simple complex memo) :
    MemoValid simple complex { memo with irregular := true } :=
  ⟨h.single, h.sound, by simp⟩

theorem progress_cut (building : List ObjectPropExpr) (memo : Memo) :
    Progress building memo { memo with irregular := true } :=
  ⟨by simp, fun _ _ h => h, fun _ _ => ⟨rfl, rfl⟩⟩

theorem MemoValid.store (h : MemoValid simple complex memo) {property : ObjectPropExpr}
    (hnone : memo.find property = none) (hsgl : a.Single)
    (hsound : a.language ≤ derived simple complex property)
    (hbuilt : memo.irregular = false → Built (.new simple complex) memo property a) :
    MemoValid simple complex { memo with complete := memo.complete.insert property a } ∧
      ∀ r b, memo.find r = some b →
        Memo.find { memo with complete := memo.complete.insert property a } r = some b := by
  have hkeep : ∀ r b, memo.find r = some b →
      Memo.find { memo with complete := memo.complete.insert property a } r = some b := by
    intro r b hr
    have hne : r ≠ property := by
      rintro rfl
      rw [hnone] at hr
      cases hr
    rwa [Memo.find, AList.lookup_insert_ne hne]
  have hcases (r : ObjectPropExpr) (b : Automaton)
      (hr : Memo.find { memo with complete := memo.complete.insert property a } r = some b) :
      (r = property ∧ b = a) ∨ memo.find r = some b := by
    by_cases hne : r = property
    · subst hne
      rw [Memo.find, AList.lookup_insert, some.injEq] at hr
      exact .inl ⟨rfl, hr.symm⟩
    · rw [Memo.find, AList.lookup_insert_ne hne] at hr
      exact .inr hr
  refine ⟨⟨?_, ?_, ?_⟩, hkeep⟩
  · intro r b hr
    rcases hcases r b hr with ⟨rfl, rfl⟩ | hr
    · exact hsgl
    · exact h.single r b hr
  · intro r b hr
    rcases hcases r b hr with ⟨rfl, rfl⟩ | hr
    · exact hsound
    · exact h.sound r b hr
  · intro hirr r b hr
    rcases hcases r b hr with ⟨rfl, rfl⟩ | hr
    · exact (hbuilt hirr).mono hkeep
    · exact (h.built hirr r b hr).mono hkeep

/-! ## Soundness of one automaton -/

theorem equivalent_self (r : ObjectPropExpr) : (new simple complex).equivalent r r = true :=
  (equivalent_iff r r).mpr ⟨.refl, .refl⟩

theorem derived_eq_of_equivalent {r s : ObjectPropExpr}
    (h : (new simple complex).equivalent r s = true) :
    derived simple complex r = derived simple complex s := by
  obtain ⟨hrs, hsr⟩ := (equivalent_iff r s).mp h
  exact le_antisymm (derived_mono hrs) (derived_mono hsr)

/-- All chains have at least two properties. -/
def ChainsLong (complex : List Chain) : Prop := ∀ c ∈ complex, 2 ≤ c.1.length

section

variable (hlong : ChainsLong complex)
include hlong

theorem ToldChain.long {subs : List ObjectPropExpr} {sup : ObjectPropExpr}
    (h : ToldChain complex subs sup) : 2 ≤ subs.length := by
  rcases h with h | h
  · exact hlong _ h
  · simpa [mirrorWord] using hlong _ h

/-- The derivable words of a property are closed under the inclusions into its class. -/
theorem classClosed_derived (property : ObjectPropExpr) :
    (new simple complex).ClassClosed property (derived simple complex)
      (derived simple complex property) := by
  refine ⟨?_, ?_⟩
  · rintro ⟨sub, sup⟩ hi hsup - -
    obtain ⟨htold, -⟩ := (inclusions_new sub sup).mp hi
    rw [← derived_eq_of_equivalent hsup]
    exact (grammarClosed_derived simple).inclusion sub sup htold
  · rintro ⟨subs, sup⟩ hc hsup
    have htold := (chains_new subs sup).mp hc
    rw [← derived_eq_of_equivalent hsup]
    refine le_trans ?_ ((grammarClosed_derived simple).chain subs sup htold)
    apply orEpsilon_middle_le (htold.long hlong)
    · intro r
      unfold outer
      split
      · rintro _ rfl
        exact (grammarClosed_derived simple).letter r
      · exact le_rfl
    · intro r hr
      rw [derived_eq_of_equivalent hr, derived_eq_of_equivalent hsup]

/-- A splice of derivable words only. -/
def SoundSplice (simple : List Inclusion) (complex : List Chain) (property : ObjectPropExpr)
    (s : Splice) : Prop :=
  s.2 ≤ labelLanguage ((new simple complex).outer property (derived simple complex)) s.1.label

theorem Represents.language_le_derived {property : ObjectPropExpr}
    (h : Represents ((new simple complex).skeleton property).1.states.length used a)
    (hused : used.map (·.1) = ((new simple complex).skeleton property).2)
    (hsound : ∀ s ∈ used, SoundSplice simple complex property s) :
    a.language ≤ derived simple complex property :=
  h.language_le_of_classClosed hused hsound (equivalent_self property)
    ((grammarClosed_derived simple).letter property) (classClosed_derived hlong property)

end

theorem RoleBox.SkeletonValid.represents {sk : Automaton × List Transition} (h : SkeletonValid sk) :
    Represents sk.1.states.length [] sk.1 := by
  refine ⟨?_, le_rfl, h.initial, h.terminal, by simp, ?_⟩
  · intro t ht
    simp [h.empty] at ht
  · intro rest _
    refine ⟨rest, fun _ _ => rfl, ?_⟩
    intro s l t ht
    simp [h.empty] at ht

theorem singleTransition_represents (property : ObjectPropExpr) :
    Represents 2 [(⟨0, some property, 1⟩, {[property]})] (singleTransitionAutomaton property) :=
  (skeletonValid_base [] (by simp)).represents.addTransition Nat.zero_lt_two Nat.one_lt_two
    (some property)

theorem language_singleTransition_le (property : ObjectPropExpr) :
    (singleTransitionAutomaton property).language ≤ derived simple complex property := by
  have hcl : SpliceClosed [(⟨0, some property, 1⟩, {[property]})]
      fun s => if s = 0 then derived simple complex property else 1 := by
    intro s hs
    rw [mem_singleton] at hs
    subst hs
    rintro _ ⟨_, rfl, _, rfl, rfl⟩
    exact (grammarClosed_derived simple).letter property
  exact (singleTransition_represents property).language_le le_rfl hcl rfl

/-- What a call returns. -/
structure Outcome (simple : List Inclusion) (complex : List Chain) (building : List ObjectPropExpr)
    (property : ObjectPropExpr) (memo : Memo) (a : Automaton) (memo' : Memo) : Prop where
  single : a.Single
  sound : a.language ≤ derived simple complex property
  valid : MemoValid simple complex memo'
  progress : Progress building memo memo'
  inverse : isAnonymousProperty property = false →
    memo'.find (inverseProperty property) = memo.find (inverseProperty property)
  stored : memo'.irregular = false ∨ (property ∉ building ∧ inverseProperty property ∉ building) →
    memo'.find property = some a

section

variable
  (hrec : ∀ r m b m', MemoValid simple complex m → recurse r m = some (b, m') →
    Outcome simple complex building r m b m')
include hrec

/-- One transition: the automaton represents one splice more. -/
theorem spliceTransition_spec {property : ObjectPropExpr} {n : ℕ} {a' : Automaton} {t : Transition}
    (ht : t.start < n ∧ t.stop < n) (ha : Represents n used a) (hm : MemoValid simple complex memo)
    (h : (new simple complex).spliceTransition property recurse (a, memo) t = some (a', memo')) :
    MemoValid simple complex memo' ∧ Progress building memo memo' ∧
      ∃ K, Represents n (used ++ [(t, K)]) a' ∧ SoundSplice simple complex property (t, K) ∧
        (memo'.irregular = false → RegularSplice (new simple complex) memo' property (t, K)) := by
  obtain ⟨start, label, stop⟩ := t
  cases label with
  | none =>
    simp only [spliceTransition, some.injEq, Prod.mk.injEq] at h
    obtain ⟨rfl, rfl⟩ := h
    exact ⟨hm, .refl _ _, {[]}, ha.addTransition ht.1 ht.2 none, le_rfl, fun _ => rfl⟩
  | some role =>
    simp only [spliceTransition] at h
    have hself : ({[role]} : Language ObjectPropExpr) ≤ derived simple complex role := by
      rintro _ rfl
      exact (grammarClosed_derived simple).letter role
    by_cases heq : (new simple complex).equivalent role property = true
    · have hsound : SoundSplice simple complex property (⟨start, some role, stop⟩, {[role]}) := by
        simp [SoundSplice, labelLanguage, outer, heq]
      rw [heq] at h
      by_cases hdir : (start == 0 && stop == 1) = true
      · simp only [hdir, Bool.not_true, Bool.and_false, Bool.false_eq_true, if_false,
          Bool.false_and, some.injEq, Prod.mk.injEq] at h
        obtain ⟨rfl, rfl⟩ := h
        refine ⟨hm, .refl _ _, {[role]}, ha.addTransition ht.1 ht.2 (some role), hsound,
          fun _ => ?_⟩
        simpa [RegularSplice, heq] using hdir
      · simp only [hdir, Bool.not_false, Bool.and_self, if_true, some.injEq, Prod.mk.injEq] at h
        obtain ⟨rfl, rfl⟩ := h
        exact ⟨hm.cut, progress_cut _ _, {[role]}, ha.addTransition ht.1 ht.2 (some role), hsound,
          by simp⟩
    · rw [Bool.not_eq_true] at heq
      simp only [heq, Bool.false_and, Bool.false_eq_true, if_false, Bool.not_false,
        Bool.true_and] at h
      split at h
      · rename_i hns
        split at h
        · cases h
        · rename_i b m hcall
          simp only [some.injEq, Prod.mk.injEq] at h
          obtain ⟨rfl, rfl⟩ := h
          have hout := hrec role memo b m hm hcall
          refine ⟨hout.valid, hout.progress, b.language,
            ha.connect hout.single ht.1 ht.2 (some role), ?_, fun hirr => ?_⟩
          · simpa [SoundSplice, labelLanguage, outer, heq] using hout.sound
          · simp only [decide_eq_true_eq] at hns
            simp only [RegularSplice, heq, Bool.false_eq_true, if_false, hns, if_true]
            exact ⟨b, hout.stored (.inl hirr), rfl⟩
      · rename_i hns
        simp only [some.injEq, Prod.mk.injEq] at h
        obtain ⟨rfl, rfl⟩ := h
        refine ⟨hm, .refl _ _, {[role]}, ha.addTransition ht.1 ht.2 (some role), ?_, fun _ => ?_⟩
        · simpa [SoundSplice, labelLanguage, outer, heq] using hself
        · simp only [decide_eq_true_eq] at hns
          simp [RegularSplice, heq, hns]

/-- All transitions: the automaton represents the skeleton with one splice for each. -/
theorem spliceTransitions_spec {property : ObjectPropExpr} {n : ℕ} (ts : List Transition)
    (hts : ∀ t ∈ ts, t.start < n ∧ t.stop < n) {a' : Automaton} (ha : Represents n used a)
    (hm : MemoValid simple complex memo)
    (h : ts.foldlM ((new simple complex).spliceTransition property recurse) (a, memo) =
      some (a', memo')) :
    MemoValid simple complex memo' ∧ Progress building memo memo' ∧
      ∃ used', Represents n (used ++ used') a' ∧ used'.map (·.1) = ts ∧
        (∀ s ∈ used', SoundSplice simple complex property s) ∧ (memo'.irregular = false →
          ∀ s ∈ used', RegularSplice (new simple complex) memo' property s) := by
  induction ts generalizing used a memo with
  | nil =>
    simp only [foldlM_nil, Option.pure_def, some.injEq, Prod.mk.injEq] at h
    obtain ⟨rfl, rfl⟩ := h
    exact ⟨hm, .refl _ _, [], by simpa using ha, rfl, by simp, by simp⟩
  | cons t ts ih =>
    simp only [foldlM_cons, bind_eq_bind, bind_eq_some_iff] at h
    obtain ⟨⟨b, m⟩, hstep, hrest⟩ := h
    obtain ⟨hmv, hmp, K, hrep, hsound, hreg⟩ :=
      spliceTransition_spec hrec (hts t (by simp)) ha hm hstep
    obtain ⟨hv, hp, used', hrep', hused, hsound', hreg'⟩ :=
      ih (fun u hu => hts u (by simp [hu])) hrep hmv hrest
    refine ⟨hv, hmp.trans hp, (t, K) :: used', by simpa using hrep', by simp [hused], ?_, ?_⟩
    · intro s hs
      rcases mem_cons.mp hs with rfl | hs
      · exact hsound
      · exact hsound' s hs
    · intro hirr s hs
      rcases mem_cons.mp hs with rfl | hs
      · exact (hreg (hp.irregular hirr)).mono hp.keeps
      · exact hreg' hirr s hs

end

theorem Outcome.store {property : ObjectPropExpr} (hv : MemoValid simple complex memo')
    (hp : Progress building memo memo') (hnone : memo.find property = none)
    (hsame : memo'.find property = memo.find property)
    (hinv : isAnonymousProperty property = false →
      memo'.find (inverseProperty property) = memo.find (inverseProperty property))
    (hbuild : property ∉ building ∧ inverseProperty property ∉ building) (hsgl : a.Single)
    (hsound : a.language ≤ derived simple complex property)
    (hbuilt : memo'.irregular = false → Built (new simple complex) memo' property a) :
    Outcome simple complex building property memo a
    { memo' with complete := memo'.complete.insert property a } := by
  have hoth {r : ObjectPropExpr} (hr : r ≠ property) :
      Memo.find { memo' with complete := memo'.complete.insert property a } r = memo'.find r := by
    rw [Memo.find, AList.lookup_insert_ne hr]
  obtain ⟨hval, hkeep⟩ := hv.store (hsame.trans hnone) hsgl hsound hbuilt
  refine ⟨hsgl, hsound, hval, ⟨hp.irregular, fun r b hr => hkeep r b (hp.keeps r b hr), ?_⟩,
    ?_, fun _ => ?_⟩
  · intro r hr
    have h1 : r ≠ property := by
      rintro rfl
      exact hbuild.1 hr
    have h2 : inverseProperty r ≠ property := by
      rintro rfl
      exact hbuild.2 (by simpa using hr)
    rw [hoth h1, hoth h2]
    exact hp.frame r hr
  · intro hname
    rw [hoth (inverseProperty_ne_self property)]
    exact hinv hname
  · rw [Memo.find, AList.lookup_insert]

/-- A dependency that is cut: the property stands for itself. -/
theorem outcome_cut {property : ObjectPropExpr} (hm : MemoValid simple complex memo)
    (hcut : property ∈ building ∨ inverseProperty property ∈ building) :
    Outcome simple complex building property memo (singleTransitionAutomaton property)
      { memo with irregular := true } :=
  ⟨(singleTransition_represents property).single, language_singleTransition_le property, hm.cut,
    progress_cut _ _, fun _ => rfl, fun h => by simp at h; tauto⟩

/-- Every call keeps the invariant; by induction on the fuel. -/
theorem completeAutomaton_spec (hlong : ChainsLong complex) (fuel : ℕ)
    (hbuild : ∀ r ∈ building, isAnonymousProperty r = false) {property : ObjectPropExpr}
    (hm : MemoValid simple complex memo)
    (h : (new simple complex).completeAutomaton fuel building property memo = some (a, memo')) :
    Outcome simple complex building property memo a memo' := by
  induction fuel generalizing building property memo memo' a with
  | zero => simp [completeAutomaton] at h
  | succ fuel ih =>
    rw [completeAutomaton] at h
    split at h
    · rename_i b hb
      simp only [some.injEq, Prod.mk.injEq] at h
      obtain ⟨rfl, rfl⟩ := h
      exact ⟨hm.single _ _ hb, hm.sound _ _ hb, hm, .refl _ _, fun _ => rfl, fun _ => hb⟩
    · rename_i hnone
      split at h
      · rename_i han
        split at h
        · rename_i hmem
          simp only [some.injEq, Prod.mk.injEq] at h
          obtain ⟨rfl, rfl⟩ := h
          exact outcome_cut hm (.inr hmem)
        · rename_i hnot
          split at h
          · cases h
          · rename_i b m hcall
            simp only [some.injEq, Prod.mk.injEq] at h
            obtain ⟨rfl, rfl⟩ := h
            have hout := ih hbuild hm hcall
            have hname : isAnonymousProperty (inverseProperty property) = false := by simp [han]
            have hmin := hout.single.mirroredCopy.minimized
            have hlang : b.mirroredCopy.minimized.language = mirrorLanguage b.language := by
              rw [hmin.2]
              ext w
              exact mem_language_mirroredCopy w
            refine Outcome.store hout.valid hout.progress hnone ?_ (by simp [han])
              ⟨fun hmem => ?_, hnot⟩ hmin.1 ?_ ?_
            · simpa using hout.inverse hname
            · have := hbuild property hmem
              rw [han] at this
              cases this
            · rw [hlang]
              have hle := mirrorLanguage_mono hout.sound
              rwa [mirrored_derived, mirrorLanguage_mirrorLanguage] at hle
            · intro hirr
              rw [Built, if_pos han]
              exact ⟨b, hout.stored (.inl hirr), hlang⟩
      · rename_i han
        rw [Bool.not_eq_true] at han
        split at h
        · rename_i hmem
          simp only [some.injEq, Prod.mk.injEq] at h
          obtain ⟨rfl, rfl⟩ := h
          exact outcome_cut hm (.inl hmem)
        · rename_i hnot
          split at h
          · cases h
          · rename_i b m hfold
            simp only [some.injEq, Prod.mk.injEq] at h
            obtain ⟨rfl, rfl⟩ := h
            have hbuild' : ∀ r ∈ property :: building, isAnonymousProperty r = false := by
              intro r hr
              rcases mem_cons.mp hr with rfl | hr
              · exact han
              · exact hbuild r hr
            have hskel := (new simple complex).skeletonValid property
            obtain ⟨hv, hp, used, hrep, hused, hsound, hreg⟩ := spliceTransitions_spec
              (fun r m b m' hm hcall => ih hbuild' hm hcall) _ hskel.range
              hskel.represents hm hfold
            rw [nil_append] at hrep
            have hmin := hrep.single.minimized
            refine Outcome.store hv (hp.weaken fun r hr => by simp [hr]) hnone
              (hp.frame property (by simp)).1 (fun _ => (hp.frame property (by simp)).2)
              ⟨hnot, fun hmem => ?_⟩ hmin.1 ?_ ?_
            · have := hbuild _ hmem
              simp [han] at this
            · rw [hmin.2]
              exact hrep.language_le_derived hlong hused hsound
            · intro hirr
              rw [Built, if_neg (by simp [han])]
              exact ⟨used, b, hrep, hused, hmin.2, hreg hirr⟩

theorem spliceTransition_isSome (rb : RoleBox) (property : ObjectPropExpr)
    (hrec : ∀ r ∈ rb.nonSimple, ∀ m, (recurse r m).isSome = true) (state : Automaton × Memo)
    (t : Transition) : (rb.spliceTransition property recurse state t).isSome = true := by
  unfold spliceTransition
  split
  · rfl
  · rename_i role _
    split
    · rfl
    · split
      · rename_i hns
        simp only [Bool.and_eq_true, decide_eq_true_eq] at hns
        have h := hrec role hns.2 state.2
        split
        · rename_i hnone
          rw [hnone] at h
          exact h
        · rfl
      · rfl

theorem foldlM_isSome {σ τ : Type*} {f : σ → τ → Option σ} (hf : ∀ s t, (f s t).isSome = true)
    (ts : List τ) (s : σ) : (ts.foldlM f s).isSome = true := by
  induction ts generalizing s with
  | nil => rfl
  | cons t ts ih =>
    obtain ⟨s', hs'⟩ := isSome_iff_exists.mp (hf s t)
    simp only [foldlM_cons, hs', bind_eq_bind, bind_some]
    exact ih s'

/-- Fuel for a named and an inverse call for each property that is not under construction. -/
theorem completeAutomaton_isSome (fuel : ℕ) (building : List ObjectPropExpr)
    {property : ObjectPropExpr} (hns : property ∈ (new simple complex).nonSimple) (memo : Memo)
    (hfuel : 2 * ((new simple complex).nonSimple.toFinset \ building.toFinset).card +
      (if isAnonymousProperty property then 1 else 0) < fuel) :
    ((new simple complex).completeAutomaton fuel building property memo).isSome = true := by
  induction fuel generalizing building property memo with
  | zero => omega
  | succ fuel ih =>
    rw [completeAutomaton]
    split
    · rfl
    · split
      · rename_i han
        rw [if_pos han] at hfuel
        split
        · rfl
        · have h := ih building (inverse_mem_nonSimple hns) memo
            (by simp only [isAnonymousProperty_inverseProperty, han]; simp; omega)
          split
          · rename_i hnone
            rw [hnone] at h
            exact h
          · rfl
      · split
        · rfl
        · rename_i hnot
          -- the property leaves the ones not under construction, which pays for two calls
          have herase : (new simple complex).nonSimple.toFinset \ (property :: building).toFinset =
              ((new simple complex).nonSimple.toFinset \ building.toFinset).erase property := by
            ext r
            simp only [toFinset_cons, Finset.mem_sdiff, Finset.mem_insert, List.mem_toFinset,
              not_or, Finset.mem_erase]
            tauto
          have hcard := Finset.card_erase_add_one
            (show property ∈ (new simple complex).nonSimple.toFinset \ building.toFinset by
              simp [hns, hnot])
          have h := foldlM_isSome (spliceTransition_isSome (new simple complex) property
            (fun r hr m => ih (property :: building) hr m (by rw [herase]; split <;> omega)))
            ((new simple complex).skeleton property).2
            (((new simple complex).skeleton property).1, memo)
          split
          · rename_i hnone
            rw [hnone] at h
            exact h
          · rfl

theorem completeAutomaton_fuel_isSome {property : ObjectPropExpr}
    (hns : property ∈ (new simple complex).nonSimple) (memo : Memo) :
    ((new simple complex).completeAutomaton (new simple complex).fuel [] property memo).isSome =
      true := by
  apply completeAutomaton_isSome _ _ hns
  have hcard := (new simple complex).nonSimple.toFinset_card_le
  simp only [toFinset_nil, Finset.sdiff_empty, RoleBox.fuel]
  split <;> omega

/-- All automata are built. -/
theorem completeAll_isSome (simple : List Inclusion) (complex : List Chain) :
    (new simple complex).completeAll.isSome = true := by
  have hfold (rs : List ObjectPropExpr) (hrs : ∀ r ∈ rs, r ∈ (new simple complex).nonSimple)
      (memo : Memo) : (rs.foldlM (fun memo property =>
        ((new simple complex).completeAutomaton (new simple complex).fuel [] property memo).map
          (·.2)) memo).isSome = true := by
    induction rs generalizing memo with
    | nil => rfl
    | cons r rs ih =>
      obtain ⟨x, hx⟩ := isSome_iff_exists.mp (completeAutomaton_fuel_isSome (hrs r (by simp)) memo)
      simp only [foldlM_cons, hx, map_some, bind_eq_bind, bind_some]
      exact ih (fun s hs => hrs s (by simp [hs])) x.2
  exact hfold _ (fun r hr => (mem_sortDedup _ _ _).mp hr) _

/-- The finished memo is valid and holds an automaton for every non-simple property. -/
theorem completeAll_spec (hlong : ChainsLong complex)
    (h : (new simple complex).completeAll = some memo) :
    MemoValid simple complex memo ∧
      ∀ r ∈ (new simple complex).nonSimple, ∃ a, memo.find r = some a := by
  have hfold (rs : List ObjectPropExpr) (memo memo' : Memo) (hm : MemoValid simple complex memo)
      (h : rs.foldlM (fun memo property =>
        ((new simple complex).completeAutomaton (new simple complex).fuel [] property memo).map
          (·.2)) memo = some memo') :
      MemoValid simple complex memo' ∧ Progress [] memo memo' ∧
        ∀ r ∈ rs, ∃ a, memo'.find r = some a := by
    induction rs generalizing memo with
    | nil =>
      simp only [foldlM_nil, Option.pure_def, some.injEq] at h
      subst h
      exact ⟨hm, .refl _ _, by simp⟩
    | cons r rs ih =>
      simp only [foldlM_cons, bind_eq_bind, bind_eq_some_iff, map_eq_some_iff] at h
      obtain ⟨mid, ⟨⟨a, m⟩, hcall, rfl⟩, hrest⟩ := h
      have hout := completeAutomaton_spec hlong _ (by simp) hm hcall
      obtain ⟨hv, hp, hall⟩ := ih m hout.valid hrest
      refine ⟨hv, hout.progress.trans hp, ?_⟩
      intro s hs
      rcases mem_cons.mp hs with rfl | hs
      · exact ⟨a, hp.keeps _ _ (hout.stored (.inr (by simp)))⟩
      · exact hall s hs
  have hemp : MemoValid simple complex ⟨∅, false⟩ :=
    ⟨by simp [Memo.find], by simp [Memo.find], by simp [Memo.find]⟩
  obtain ⟨hv, -, hall⟩ := hfold _ _ _ hemp h
  exact ⟨hv, fun r hr => hall r ((mem_sortDedup _ _ _).mpr hr)⟩

end Hermit
