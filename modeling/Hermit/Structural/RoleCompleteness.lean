import Hermit.Structural.RoleAutomata

/-! # Every derivable word is covered

When no dependency was cut, the languages of the automata, widened letter by
letter along the simple inclusions, are closed under the inclusions of the
grammar.  So they contain everything that is derivable.
-/

namespace Hermit

open List hiding le_trans

open Automaton Automata RoleBox

variable {simple : List Inclusion} {complex : List Chain}

/-! ## Widening by super-properties -/

/-- The words that become a word of `L` when each letter is replaced by a super-property. -/
def cover (simple : List Inclusion) (L : Language ObjectPropExpr) : Language ObjectPropExpr :=
  {w | ∃ w' ∈ L, List.Forall₂ (Below simple) w w'}

variable (L : Language ObjectPropExpr)

theorem le_cover : L ≤ cover simple L :=
  fun w hw => ⟨w, hw, forall₂_same.mpr fun _ _ => .refl⟩

variable {M : Language ObjectPropExpr} {w : List ObjectPropExpr}
    {D : ObjectPropExpr → Language ObjectPropExpr}
  {r s : ObjectPropExpr}

theorem cover_mono {L : Language ObjectPropExpr} (h : L ≤ M) : cover simple L ≤ cover simple M := by
  rintro w ⟨w', hw', hcov⟩
  exact ⟨w', h hw', hcov⟩

theorem forall₂_below_trans {u v : List ObjectPropExpr} (h : List.Forall₂ (Below simple) u v)
    (h' : List.Forall₂ (Below simple) v w) : List.Forall₂ (Below simple) u w := by
  induction h generalizing w with
  | nil => simpa using h'
  | cons hab _ ih =>
    cases h' with
    | cons hbc h' => exact .cons (Relation.ReflTransGen.trans hab hbc) (ih h')

theorem cover_cover : cover simple (cover simple L) ≤ cover simple L := by
  rintro w ⟨w', ⟨w'', hw'', hcov'⟩, hcov⟩
  exact ⟨w'', hw'', forall₂_below_trans hcov hcov'⟩

theorem cover_mul (L M : Language ObjectPropExpr) :
    cover simple L * cover simple M ≤ cover simple (L * M) := by
  rintro _ ⟨u, ⟨u', hu', hu⟩, v, ⟨v', hv', hv⟩, rfl⟩
  exact ⟨u' ++ v', Language.append_mem_mul hu' hv', rel_append hu hv⟩

theorem cover_prod (D : ObjectPropExpr → Language ObjectPropExpr) (u : List ObjectPropExpr) :
    (u.map fun r => cover simple (D r)).prod ≤ cover simple (u.map D).prod := by
  induction u with
  | nil => exact le_cover 1
  | cons r u ih =>
    rw [map_cons, map_cons, prod_cons, prod_cons]
    exact (mul_le_mul' le_rfl ih).trans (cover_mul _ _)

theorem orEpsilon_cover (b : Bool) (M : Language ObjectPropExpr) :
    orEpsilon b (cover simple M) ≤ cover simple (orEpsilon b M) := by
  cases b with
  | false => exact le_cover 1
  | true => exact le_rfl

theorem forall₂_below_mirror {u v : List ObjectPropExpr} (h : List.Forall₂ (Below simple) u v) :
    List.Forall₂ (Below simple) (mirrorWord u) (mirrorWord v) := by
  unfold mirrorWord
  apply rel_reverse
  rw [forall₂_map_left_iff, forall₂_map_right_iff]
  exact h.imp fun _ _ hab => hab.inverse

theorem mirrorLanguage_cover :
    mirrorLanguage (cover simple L) = cover simple (mirrorLanguage L) := by
  ext w
  constructor
  · rintro ⟨w', hw', hcov⟩
    refine ⟨mirrorWord w', by simpa using hw', ?_⟩
    simpa using forall₂_below_mirror hcov
  · rintro ⟨w', hw', hcov⟩
    exact ⟨mirrorWord w', hw', forall₂_below_mirror hcov⟩

theorem classClosed_cover {rb : RoleBox} {property : ObjectPropExpr}
    (h : rb.ClassClosed property D M) :
    rb.ClassClosed property (fun r => cover simple (D r)) (cover simple M) := by
  refine ⟨fun i hi h2 h1 hns => cover_mono (h.inclusion i hi h2 h1 hns), ?_⟩
  intro c hc heq
  have houter (r : ObjectPropExpr) : rb.outer property (fun r => cover simple (D r)) r ≤
      cover simple (rb.outer property D r) := by
    unfold outer
    split
    · exact le_cover _
    · exact le_rfl
  have hmiddle :
    ((rb.middle property c.1).map (rb.outer property fun r => cover simple (D r))).prod ≤
      cover simple ((rb.middle property c.1).map (rb.outer property D)).prod :=
    (prod_le_prod' fun r _ => houter r).trans (cover_prod _ _)
  refine le_trans (mul_le_mul' (mul_le_mul' (orEpsilon_cover _ _) hmiddle) (orEpsilon_cover _ _)) ?_
  refine le_trans (mul_le_mul_left (cover_mul _ _) _) (le_trans (cover_mul _ _) ?_)
  exact cover_mono (h.chain c hc heq)

/-! ## Classes of equivalent properties -/

theorem equivalent_congr (h : (new simple complex).equivalent r s = true) (x : ObjectPropExpr) :
    (new simple complex).equivalent x r = (new simple complex).equivalent x s := by
  obtain ⟨hrs, hsr⟩ := (equivalent_iff r s).mp h
  rw [Bool.eq_iff_iff, equivalent_iff, equivalent_iff]
  constructor
  · exact fun ⟨hxr, hrx⟩ => ⟨hxr.trans hrs, hsr.trans hrx⟩
  · exact fun ⟨hxs, hsx⟩ => ⟨hxs.trans hsr, hrs.trans hsx⟩

theorem equivalent_symm (h : (new simple complex).equivalent r s = true) :
    (new simple complex).equivalent s r = true := by
  rw [equivalent_iff] at h ⊢
  exact h.symm

theorem equivalent_inverse (r s : ObjectPropExpr) :
    (new simple complex).equivalent (inverseProperty r) (inverseProperty s) =
      (new simple complex).equivalent r s := by
  have hinv {a b : ObjectPropExpr} (h : Below simple (inverseProperty a) (inverseProperty b)) :
      Below simple a b := by simpa using h.inverse
  rw [Bool.eq_iff_iff, equivalent_iff, equivalent_iff]
  exact ⟨fun ⟨h1, h2⟩ => ⟨hinv h1, hinv h2⟩, fun ⟨h1, h2⟩ => ⟨h1.inverse, h2.inverse⟩⟩

theorem equivalent_inverse_right (r s : ObjectPropExpr) :
    (new simple complex).equivalent r (inverseProperty s) =
      (new simple complex).equivalent (inverseProperty r) s := by
  conv_rhs => rw [← inverseProperty_inverseProperty s, equivalent_inverse]

/-- Closure depends on the class only. -/
theorem RoleBox.ClassClosed.congr (h : (new simple complex).equivalent r s = true)
    (hM : (new simple complex).ClassClosed r D M) : (new simple complex).ClassClosed s D M := by
  have heq := equivalent_congr h
  have houter : (new simple complex).outer s D = (new simple complex).outer r D := by
    funext x
    simp only [outer, heq]
  refine ⟨?_, ?_⟩
  · intro i hi h2 h1 hns
    exact hM.inclusion i hi (by rwa [heq]) (by rwa [heq]) hns
  · intro c hc h2
    have hchain := hM.chain c hc (by rwa [heq])
    simpa only [houter, startsIn, endsIn, middle, heq] using hchain

theorem head?_mirrorWord (u : List ObjectPropExpr) :
    (mirrorWord u).head? = u.getLast?.map inverseProperty := by
  simp [mirrorWord]

theorem getLast?_mirrorWord (u : List ObjectPropExpr) :
    (mirrorWord u).getLast? = u.head?.map inverseProperty := by
  simp [mirrorWord]

section

variable (r : ObjectPropExpr) (u : List ObjectPropExpr)
include u

theorem startsIn_mirror : (new simple complex).startsIn (inverseProperty r) (mirrorWord u) =
      (new simple complex).endsIn r u := by
  rw [startsIn, endsIn, head?_mirrorWord]
  cases u.getLast? <;> simp [equivalent_inverse]

theorem endsIn_mirror : (new simple complex).endsIn (inverseProperty r) (mirrorWord u) =
      (new simple complex).startsIn r u := by
  rw [startsIn, endsIn, getLast?_mirrorWord]
  cases u.head? <;> simp [equivalent_inverse]

theorem middle_mirror : (new simple complex).middle (inverseProperty r) (mirrorWord u) =
      mirrorWord ((new simple complex).middle r u) := by
  have htail (v : List ObjectPropExpr) : (mirrorWord v).tail = mirrorWord v.dropLast := by
    simp [mirrorWord, map_dropLast, tail_reverse]
  have hdrop (v : List ObjectPropExpr) : (mirrorWord v).dropLast = mirrorWord v.tail := by
    simp [mirrorWord, map_tail, dropLast_reverse]
  have hs : ((mirrorWord u).head?.any fun x =>
      (new simple complex).equivalent x (inverseProperty r)) = (new simple complex).endsIn r u :=
    startsIn_mirror r u
  have he : ((mirrorWord u).getLast?.any fun x =>
      (new simple complex).equivalent x (inverseProperty r)) = (new simple complex).startsIn r u :=
    endsIn_mirror r u
  rw [middle, middle, hs, he, startsIn, endsIn]
  cases u.head?.any fun x => (new simple complex).equivalent x r <;>
    cases u.getLast?.any fun x => (new simple complex).equivalent x r <;>
    simp [htail, hdrop, tail_dropLast]

end

theorem mirrorLanguage_orEpsilon (b : Bool) (M : Language ObjectPropExpr) :
    mirrorLanguage (orEpsilon b M) = orEpsilon b (mirrorLanguage M) := by
  cases b with
  | false => exact mirrorLanguage_one
  | true => rfl

theorem outer_mirror (hD : Mirrored D) (r x : ObjectPropExpr) :
    (new simple complex).outer (inverseProperty r) D (inverseProperty x) =
      mirrorLanguage ((new simple complex).outer r D x) := by
  rw [outer, outer, equivalent_inverse]
  split
  · exact (mirrorLanguage_singleton x).symm
  · exact hD x

/-- The mirror image of a closed language is closed for the inverse class. -/
theorem RoleBox.ClassClosed.mirror (hD : Mirrored D) (hM : (new simple complex).ClassClosed r D M) :
    (new simple complex).ClassClosed (inverseProperty r) D (mirrorLanguage M) := by
  refine ⟨?_, ?_⟩
  · rintro ⟨sub, sup⟩ hi h2 h1 hns
    obtain ⟨htold, hne⟩ := (inclusions_new sub sup).mp hi
    have hle := hM.inclusion (inverseProperty sub, inverseProperty sup)
      ((inclusions_new _ _).mpr ⟨htold.inverse, by simpa using hne⟩)
      (by rwa [← equivalent_inverse_right]) (by rwa [← equivalent_inverse_right])
      (inverse_mem_nonSimple hns)
    have hle' := mirrorLanguage_mono hle
    rwa [hD, mirrorLanguage_mirrorLanguage] at hle'
  · rintro ⟨subs, sup⟩ hc h2
    have htold := (chains_new subs sup).mp hc
    have hle := mirrorLanguage_mono (hM.chain (mirrorWord subs, inverseProperty sup)
      ((chains_new _ _).mpr htold.inverse) (by rwa [← equivalent_inverse_right]))
    have hs : (new simple complex).startsIn r (mirrorWord subs) =
        (new simple complex).endsIn (inverseProperty r) subs := by
      rw [← startsIn_mirror, inverseProperty_inverseProperty]
    have he : (new simple complex).endsIn r (mirrorWord subs) =
        (new simple complex).startsIn (inverseProperty r) subs := by
      rw [← endsIn_mirror, inverseProperty_inverseProperty]
    have hm : (new simple complex).middle r (mirrorWord subs) =
        mirrorWord ((new simple complex).middle (inverseProperty r) subs) := by
      rw [← middle_mirror, inverseProperty_inverseProperty]
    rw [mirrorLanguage_mul, mirrorLanguage_mul, mirrorLanguage_orEpsilon, mirrorLanguage_orEpsilon,
      mirrorLanguage_prod (outer_mirror hD r), hs, he, hm, mirrorWord_mirrorWord,
        ← mul_assoc] at hle
    exact hle

/-! ## The languages of a finished memo -/

section finished

variable {memo : Memo}

/-- The language of the automaton of a non-simple property; a simple property stands for itself. -/
def storedLanguage (simple : List Inclusion) (complex : List Chain) (memo : Memo)
    (r : ObjectPropExpr) : Language ObjectPropExpr :=
  if r ∈ (new simple complex).nonSimple then
    match memo.find r with
    | some a => a.language
    | none => 0
  else {[r]}

/-- The stored languages, widened by super-properties. -/
def coveredLanguage (simple : List Inclusion) (complex : List Chain) (memo : Memo)
    (r : ObjectPropExpr) : Language ObjectPropExpr :=
  cover simple (storedLanguage simple complex memo r)

/-- No dependency was cut and every non-simple property has its automaton. -/
structure Finished (simple : List Inclusion) (complex : List Chain) (memo : Memo) : Prop where
  valid : MemoValid simple complex memo
  regular : memo.irregular = false
  total : ∀ r ∈ (new simple complex).nonSimple, ∃ a, memo.find r = some a

variable {r sup : ObjectPropExpr}

theorem storedLanguage_of_find (hr : r ∈ (new simple complex).nonSimple) {a : Automaton}
    (ha : memo.find r = some a) :
    storedLanguage simple complex memo r = a.language := by
  simp [storedLanguage, hr, ha]

/-- Between the named properties the stored languages are those of the spliced skeletons. -/
theorem Finished.skeleton (h : Finished simple complex memo)
    (hr : r ∈ (new simple complex).nonSimple) (hname : isAnonymousProperty r = false) :
    ∃ used b, Represents ((new simple complex).skeleton r).1.states.length used b ∧
      used.map (·.1) = ((new simple complex).skeleton r).2 ∧
      storedLanguage simple complex memo r = b.language ∧
      (∀ s ∈ used, RegularSplice (new simple complex) memo r s) ∧ ∀ s ∈ used, s.2 =
        labelLanguage ((new simple complex).outer r (storedLanguage simple complex memo))
        s.1.label := by
  obtain ⟨a, ha⟩ := h.total r hr
  have hbuilt := h.valid.built h.regular r a ha
  rw [Built, if_neg (by simp [hname])] at hbuilt
  obtain ⟨used, b, hrep, hused, hlang, hsplice⟩ := hbuilt
  refine ⟨used, b, hrep, hused, (storedLanguage_of_find hr ha).trans hlang, hsplice, ?_⟩
  rintro ⟨⟨start, label, stop⟩, K⟩ hs
  have hreg := hsplice _ hs
  cases label with
  | none => exact hreg
  | some role =>
    simp only [RegularSplice] at hreg
    simp only [labelLanguage, outer]
    split at hreg
    · rename_i heq
      rw [if_pos heq]
      exact hreg.2
    · rename_i heq
      rw [if_neg heq]
      split at hreg
      · rename_i hns
        obtain ⟨c, hc, hK⟩ := hreg
        rw [storedLanguage_of_find hns hc]
        exact hK
      · rename_i hns
        rw [storedLanguage, if_neg hns]
        exact hreg

section

variable (h : Finished simple complex memo)
include h

theorem Finished.mirrored_stored : Mirrored (storedLanguage simple complex memo) := by
  have hanon {r : ObjectPropExpr} (hr : r ∈ (new simple complex).nonSimple)
      (han : isAnonymousProperty r = true) : storedLanguage simple complex memo r =
        mirrorLanguage (storedLanguage simple complex memo (inverseProperty r)) := by
    obtain ⟨a, ha⟩ := h.total r hr
    have hbuilt := h.valid.built h.regular r a ha
    rw [Built, if_pos han] at hbuilt
    obtain ⟨b, hb, hlang⟩ := hbuilt
    rw [storedLanguage_of_find hr ha, hlang, storedLanguage_of_find (inverse_mem_nonSimple hr) hb]
  intro r
  by_cases hr : r ∈ (new simple complex).nonSimple
  · cases han : isAnonymousProperty r with
    | false =>
      have hinv := hanon (inverse_mem_nonSimple hr) (by simp [han])
      simpa using hinv
    | true =>
      rw [hanon hr han, mirrorLanguage_mirrorLanguage]
  · have hr' : inverseProperty r ∉ (new simple complex).nonSimple := by
      intro hmem
      exact hr (by simpa using inverse_mem_nonSimple hmem)
    rw [storedLanguage, storedLanguage, if_neg hr, if_neg hr', mirrorLanguage_singleton]

theorem Finished.mirrored : Mirrored (coveredLanguage simple complex memo) := by
  intro r
  rw [coveredLanguage, coveredLanguage, mirrorLanguage_cover, h.mirrored_stored]

theorem Finished.classClosed (hr : r ∈ (new simple complex).nonSimple)
    (hname : isAnonymousProperty r = false) :
    [r] ∈ storedLanguage simple complex memo r ∧
      (new simple complex).ClassClosed r (coveredLanguage simple complex memo)
        (coveredLanguage simple complex memo r) := by
  obtain ⟨used, b, hrep, hused, hlang, -, hK⟩ := h.skeleton hr hname
  have hcl := hrep.classClosed_language hused (fun s hs => (hK s hs).ge) (equivalent_self r)
  rw [← hlang] at hcl
  exact ⟨hcl.1, classClosed_cover hcl.2⟩

/-- A widened language that is closed for the class contains the automaton's language. -/
theorem Finished.covered_le (hr : r ∈ (new simple complex).nonSimple)
    (hname : isAnonymousProperty r = false) {M : Language ObjectPropExpr} (hlet : [r] ∈ M)
    (hcover : cover simple M ≤ M)
    (hM : (new simple complex).ClassClosed r (coveredLanguage simple complex memo) M) :
    coveredLanguage simple complex memo r ≤ M := by
  obtain ⟨used, b, hrep, hused, hlang, -, hK⟩ := h.skeleton hr hname
  have hle : b.language ≤ M := by
    refine hrep.language_le_of_classClosed hused (fun s hs => ?_) (equivalent_self r) hlet hM
    rw [hK s hs]
    cases s.1.label with
    | none => exact le_rfl
    | some role =>
      simp only [labelLanguage, outer]
      split
      · exact le_rfl
      · exact le_cover _
  rw [coveredLanguage, hlang]
  exact (cover_mono hle).trans hcover

end

theorem Finished.letter (h : Finished simple complex memo) (r : ObjectPropExpr) :
    [r] ∈ coveredLanguage simple complex memo r := by
  have hst : [r] ∈ storedLanguage simple complex memo r := by
    by_cases hr : r ∈ (new simple complex).nonSimple
    · cases han : isAnonymousProperty r with
      | false => exact (h.classClosed hr han).1
      | true =>
        have hname := (h.classClosed (inverse_mem_nonSimple hr) (by simp [han])).1
        rw [h.mirrored_stored] at hname
        simpa [mirrorWord] using hname
    · rw [storedLanguage, if_neg hr]
      rfl
  exact le_cover _ hst

variable (h : Finished simple complex memo)
include h

theorem Finished.letter_below {x : ObjectPropExpr} (hx : Below simple x r) :
    [x] ∈ coveredLanguage simple complex memo r :=
  cover_cover _ ⟨[r], h.letter r, .cons hx .nil⟩

/-- Equivalent properties have the same widened language: the one of a named property is closed
for its class, and the one of an inverse is a mirror image. -/
theorem Finished.covered_equivalent {s : ObjectPropExpr} (hr : r ∈ (new simple complex).nonSimple)
    (hrs : (new simple complex).equivalent r s = true) :
    coveredLanguage simple complex memo r ≤ coveredLanguage simple complex memo s := by
  have hname {r s : ObjectPropExpr} (hr : r ∈ (new simple complex).nonSimple)
      (hrs : (new simple complex).equivalent r s = true) (hs : isAnonymousProperty s = false) :
      coveredLanguage simple complex memo r ≤ coveredLanguage simple complex memo s := by
    have hsr := equivalent_symm hrs
    obtain ⟨hblw, -⟩ := (equivalent_iff r s).mp hrs
    obtain ⟨-, hcl⟩ := h.classClosed (nonSimple_of_below hr hblw) hs
    cases han : isAnonymousProperty r with
    | false => exact h.covered_le hr han (h.letter_below hblw) (cover_cover _) (hcl.congr hsr)
    | true =>
      have hinv : (new simple complex).equivalent (inverseProperty s) (inverseProperty r) = true :=
          by
        rwa [equivalent_inverse]
      have hle := h.covered_le (inverse_mem_nonSimple hr) (by simp [han])
        (M := mirrorLanguage (coveredLanguage simple complex memo s))
        (by simpa [mirrorWord] using h.letter_below hblw)
        (by rw [coveredLanguage, mirrorLanguage_cover]; exact cover_cover _)
        ((hcl.mirror h.mirrored).congr hinv)
      have hle' := mirrorLanguage_mono hle
      rwa [h.mirrored, mirrorLanguage_mirrorLanguage, mirrorLanguage_mirrorLanguage] at hle'
  cases han : isAnonymousProperty s with
  | false => exact hname hr hrs han
  | true =>
    have hle := mirrorLanguage_mono (hname (inverse_mem_nonSimple hr)
      (by rwa [equivalent_inverse]) (s := inverseProperty s) (by simp [han]))
    rwa [h.mirrored, h.mirrored, mirrorLanguage_mirrorLanguage,
      mirrorLanguage_mirrorLanguage] at hle

theorem Finished.inclusion_named {sub : ObjectPropExpr} (hincl : ToldInclusion simple sub sup)
    (hname : isAnonymousProperty sup = false) :
    coveredLanguage simple complex memo sub ≤ coveredLanguage simple complex memo sup := by
  have hblw : Below simple sub sup := .single hincl
  by_cases hsub : sub ∈ (new simple complex).nonSimple
  · by_cases heq : (new simple complex).equivalent sub sup = true
    · exact h.covered_equivalent hsub heq
    · obtain ⟨-, hcl⟩ := h.classClosed (nonSimple_of_below hsub hblw) hname
      have hne : sub ≠ sup := by
        rintro rfl
        exact heq (equivalent_self sub)
      exact hcl.inclusion (sub, sup) ((inclusions_new sub sup).mpr ⟨hincl, hne⟩)
        (equivalent_self sup) (by simpa using heq) hsub
  · rintro w ⟨w', hw', hcov⟩
    rw [storedLanguage, if_neg hsub] at hw'
    obtain rfl : w' = [sub] := hw'
    obtain ⟨x, hx, rfl⟩ : ∃ x, Below simple x sub ∧ w = [x] := by
      cases hcov with
      | cons hx htail =>
        cases htail
        exact ⟨_, hx, rfl⟩
    exact h.letter_below (hx.trans hblw)

variable {subs : List ObjectPropExpr}

/-- The middle of a chain has no property of the class: its transition would have been cut. -/
theorem Finished.middle_outside (hlong : ChainsLong complex)
    (hc : ToldChain complex subs sup) (hsup : sup ∈ (new simple complex).nonSimple)
    (hname : isAnonymousProperty sup = false) (hr : r ∈ (new simple complex).middle sup subs) :
    (new simple complex).equivalent r sup = false := by
  obtain ⟨used, b, -, hused, -, hreg, -⟩ := h.skeleton hsup hname
  obtain ⟨t, ht, hlab, hdir⟩ := (new simple complex).exists_transition_middle sup
    ((chains_new subs sup).mpr hc) (equivalent_self sup) (hc.long hlong) hr
  rw [← hused] at ht
  obtain ⟨s, hs, rfl⟩ := mem_map.mp ht
  by_contra heq
  rw [Bool.not_eq_false] at heq
  have hsplice := hreg s hs
  simp only [RegularSplice, hlab, heq, if_true] at hsplice
  exact hdir hsplice.1

theorem Finished.chain_named (hlong : ChainsLong complex)
    (hc : ToldChain complex subs sup) (hname : isAnonymousProperty sup = false) :
    (subs.map (coveredLanguage simple complex memo)).prod ≤
    coveredLanguage simple complex memo sup := by
  have hsup : sup ∈ (new simple complex).nonSimple :=
    (mem_nonSimple_iff sup).mpr ⟨subs, sup, hc, .refl⟩
  obtain ⟨-, hcl⟩ := h.classClosed hsup hname
  refine le_trans ?_ (hcl.chain (subs, sup) ((chains_new subs sup).mpr hc) (equivalent_self sup))
  apply le_orEpsilon_middle (hc.long hlong)
  · intro r hr
    rw [outer, h.middle_outside hlong hc hsup hname hr]
    exact le_rfl
  · intro r hr _
    obtain ⟨-, hblw⟩ := (equivalent_iff r sup).mp hr
    exact h.covered_equivalent (nonSimple_of_below hsup hblw) hr

/-- The widened languages are closed under the whole grammar. -/
theorem Finished.grammarClosed (hlong : ChainsLong complex) :
    GrammarClosed simple complex (coveredLanguage simple complex memo) := by
  refine ⟨h.letter, ?_, ?_⟩
  · intro sub sup hincl
    cases han : isAnonymousProperty sup with
    | false => exact h.inclusion_named hincl han
    | true =>
      have hle := mirrorLanguage_mono (h.inclusion_named hincl.inverse (by simp [han]))
      rwa [h.mirrored, h.mirrored, mirrorLanguage_mirrorLanguage,
        mirrorLanguage_mirrorLanguage] at hle
  · intro subs sup hc
    cases han : isAnonymousProperty sup with
    | false => exact h.chain_named hlong hc han
    | true =>
      have hle := mirrorLanguage_mono (h.chain_named hlong hc.inverse (by simp [han]))
      rwa [mirrorLanguage_prod h.mirrored, mirrorWord_mirrorWord, h.mirrored,
        mirrorLanguage_mirrorLanguage] at hle

end finished

section

variable (hr : r ∉ (new simple complex).nonSimple) (h : Derives simple complex r w)
include hr h

/-- A simple property derives only the properties below it, since no chain is below it. -/
theorem exists_below_of_derives_simple : ∃ s, w = [s] ∧ Below simple s r := by
  have hcl : GrammarClosed simple complex fun r =>
      {w | r ∉ (new simple complex).nonSimple → ∃ s, w = [s] ∧ Below simple s r} := by
    refine ⟨fun r _ => ⟨r, rfl, .refl⟩, ?_, ?_⟩
    · intro sub sup hincl w hw hsup
      obtain ⟨s, rfl, hblw⟩ := hw fun hsub => hsup (nonSimple_of_below hsub (.single hincl))
      exact ⟨s, rfl, hblw.tail hincl⟩
    · intro subs sup hc w _ hsup
      exact absurd ((mem_nonSimple_iff sup).mpr ⟨subs, sup, hc, .refl⟩) hsup
  exact derived_le hcl r h hr

theorem length_of_derives_simple : w.length = 1 := by
  obtain ⟨s, rfl, -⟩ := exists_below_of_derives_simple hr h
  rfl

end

/-- The automaton for the top property does not replace one of a non-simple property. -/
theorem lookup_addTopAutomaton (simple : List Inclusion) (complex : List Chain) {memo : Memo}
    (htotal : ∀ r ∈ (new simple complex).nonSimple, ∃ a, memo.find r = some a)
    (hr : r ∈ (new simple complex).nonSimple) :
    (addTopAutomaton memo.complete).lookup r = memo.find r := by
  unfold addTopAutomaton
  split
  · rfl
  · rename_i htop
    have hne : r ≠ topObjectProperty := by
      rintro rfl
      obtain ⟨a, ha⟩ := htotal _ hr
      exact htop (AList.lookup_isSome.mp (by simp [ha]))
    have hne' : r ≠ inverseProperty topObjectProperty := by
      rintro rfl
      obtain ⟨a, ha⟩ := htotal _ (inverse_mem_nonSimple hr)
      rw [inverseProperty_inverseProperty] at ha
      exact htop (AList.lookup_isSome.mp (by simp [ha]))
    rw [AList.lookup_insert_ne hne, AList.lookup_insert_ne hne']

theorem lookup_addTopAutomaton_none {automata : AList fun _ : ObjectPropExpr => Automaton}
    (h : (addTopAutomaton automata).lookup r = none) :
    automata.lookup r = none := by
  unfold addTopAutomaton at h
  split at h
  · exact h
  · rw [AList.lookup_eq_none, AList.mem_insert, AList.mem_insert, not_or, not_or] at h
    exact AList.lookup_eq_none.mpr h.2.2

theorem createAutomata_eq_ok {order : HashOrder ObjectPropExpr} {fuel : ℕ}
    {axioms axioms' : OwlAxioms} {manager : InclusionManager}
    (h : createAutomata order fuel axioms = some (.ok (manager, axioms'))) :
    ∃ memo, (new axioms.simpleObjectPropertyInclusions axioms.chains).completeAll = some memo ∧
      manager = ⟨addTopAutomaton memo.complete, memo.irregular⟩ := by
  simp only [createAutomata] at h
  split at h
  · cases h
  · split at h
    · cases h
    · cases h
    · split at h
      · cases h
      · rename_i memo hmemo
        simp only [Option.some.injEq, Except.ok.injEq, Prod.mk.injEq] at h
        exact ⟨memo, hmemo, h.1.symm⟩

/-- The automaton of a non-simple property accepts derivable words only, and covers every
derivable word if no dependency was cut; a property without an automaton derives only single
letters. -/
theorem createAutomata_language (order : HashOrder ObjectPropExpr) (fuel : ℕ)
    (axioms axioms' : OwlAxioms) (manager : InclusionManager)
    (hlong : ∀ c ∈ axioms.complexObjectPropertyInclusions, 2 ≤ c.subObjectProperties.length)
    (h : createAutomata order fuel axioms = some (.ok (manager, axioms'))) :
    (∀ r ∈ (RoleBox.new axioms.simpleObjectPropertyInclusions axioms.chains).nonSimple,
      ∃ a, manager.automataByProperty.lookup r = some a ∧
        (∀ w ∈ a.language, Derives axioms.simpleObjectPropertyInclusions axioms.chains r w) ∧
        (manager.irregular = false →
          ∀ w, Derives axioms.simpleObjectPropertyInclusions axioms.chains r w → ∃ w' ∈ a.language,
              List.Forall₂ (Below axioms.simpleObjectPropertyInclusions) w w')) ∧
    ∀ r, manager.automataByProperty.lookup r = none →
      ∀ w, Derives axioms.simpleObjectPropertyInclusions axioms.chains r w → w.length = 1 := by
  have hlong' : ChainsLong axioms.chains := by
    intro c hc
    obtain ⟨i, hi, rfl⟩ := mem_map.mp hc
    exact hlong i hi
  obtain ⟨memo, hmemo, rfl⟩ := createAutomata_eq_ok h
  obtain ⟨hval, htotal⟩ := completeAll_spec hlong' hmemo
  refine ⟨?_, ?_⟩
  · intro r hr
    obtain ⟨a, ha⟩ := htotal r hr
    refine ⟨a,
      by rw [lookup_addTopAutomaton _ _ htotal hr, ha], fun w hw => hval.sound r a ha hw, ?_⟩
    intro hregular w hw
    have hfinished : Finished _ _ memo := ⟨hval, hregular, htotal⟩
    have hmem := derived_le (hfinished.grammarClosed hlong') r hw
    rwa [coveredLanguage, storedLanguage_of_find hr ha] at hmem
  · intro r hnone w hw
    refine length_of_derives_simple (fun hr => ?_) hw
    obtain ⟨a, ha⟩ := htotal r hr
    have hfind : memo.find r = none := lookup_addTopAutomaton_none hnone
    rw [ha] at hfind
    cases hfind

/-- `P ⊑ R`, `S ⊑ R⁻`, a transitive `R` and `R ∘ Q ⊑ T`. -/
def transitiveBox : OwlAxioms :=
  { simpleObjectPropertyInclusions :=
      [(.objectProperty "P", .objectProperty "R"),
        (.objectProperty "S", .inverseObjectProperty "R")]
    complexObjectPropertyInclusions :=
      [⟨[.objectProperty "R", .objectProperty "R"], .objectProperty "R"⟩,
        ⟨[.objectProperty "R", .objectProperty "Q"], .objectProperty "T"⟩] }

theorem createAutomata_language_transitiveBox :
    ∃ manager axioms', createAutomata (.insertion _) 1 transitiveBox = some
    (.ok (manager, axioms')) ∧ manager.irregular = false ∧
      .objectProperty "T" ∈ (RoleBox.new transitiveBox.simpleObjectPropertyInclusions
        transitiveBox.chains).nonSimple ∧
      (∀ r ∈ (RoleBox.new transitiveBox.simpleObjectPropertyInclusions
        transitiveBox.chains).nonSimple, ∃ a, manager.automataByProperty.lookup r = some a ∧
          (∀ w ∈ a.language,
            Derives transitiveBox.simpleObjectPropertyInclusions transitiveBox.chains r w) ∧
          (manager.irregular = false →
            ∀ w, Derives transitiveBox.simpleObjectPropertyInclusions transitiveBox.chains r w →
              ∃ w' ∈ a.language,
                List.Forall₂ (Below transitiveBox.simpleObjectPropertyInclusions) w w')) ∧
      ∀ r, manager.automataByProperty.lookup r = none →
        ∀ w, Derives transitiveBox.simpleObjectPropertyInclusions transitiveBox.chains r w →
          w.length = 1 := by
  have hregular : ((createAutomata (.insertion _) 1 transitiveBox).any fun r =>
      match r with
      | .ok (manager, _) => !manager.irregular
      | .error _ => false) = true := by decide +kernel
  cases hrun : createAutomata (.insertion _) 1 transitiveBox with
  | none => simp [hrun] at hregular
  | some r =>
    cases r with
    | error e => simp [hrun] at hregular
    | ok result =>
      exact ⟨result.1, result.2, rfl, by simpa [hrun] using hregular, by decide +kernel,
        createAutomata_language (.insertion _) 1 transitiveBox result.2 result.1 (by decide) hrun⟩

end Hermit
