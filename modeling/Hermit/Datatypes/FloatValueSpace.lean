import Hermit.Datatypes.FloatOrder
import Hermit.Library.Pieces

/-! # The value spaces of floating-point numbers

The values other than NaN are runs of consecutive order keys.  A restriction is one run, and its
negation is what lies below and above that run.
-/

namespace Hermit.Datatypes

open Pieces List Option

inductive FloatKind where
  | float
  | double
deriving DecidableEq

namespace FloatKind

def of : Datatype → Option FloatKind
  | .float => some .float
  | .double => some .double
  | _ => none

def width : FloatKind → ℕ
  | float => 32
  | double => 64

def mantissa : FloatKind → ℕ
  | float => floatMantissa
  | double => doubleMantissa

def datatype : FloatKind → Datatype
  | float => .float
  | double => .double

/-- The bits of a value of the kind. -/
def toBits : (kind : FloatKind) → DataValue → Option (BitVec kind.width)
  | float, .float bits => some bits
  | double, .double bits => some bits
  | _, _ => none

def ofBits : (kind : FloatKind) → BitVec kind.width → DataValue
  | float, bits => .float bits
  | double, bits => .double bits

/-- The only bits of NaN. -/
def nanBits : (kind : FloatKind) → BitVec kind.width
  | float => 0x7fc00000#32
  | double => 0x7ff8000000000000#64

end FloatKind

/-- The keys that the facets admit, from the first one on. -/
def keyWindowLoop {w : ℕ} (m : ℕ) (toBits : DataValue → Option (BitVec w)) :
    List (Facet × Option DataValue) → ℕ × ℕ → Option (ℕ × ℕ)
  | [], window => some window
  | (.other _, _) :: _, _ => none
  | (.ordering facet, value) :: facets, (lowerKey, upperKey) =>
    match value.bind toBits with
    | none => none
    | some bound =>
      if isNan m bound then some (1, 0)
      else
        let key := (orderKey (normalizeZeroForFacet bound facet)).toNat
        match facet with
        | .minInclusive => keyWindowLoop m toBits facets (max lowerKey key, upperKey)
        | .minExclusive =>
          keyWindowLoop m toBits facets (max lowerKey (min (key + 1) (2 ^ w - 1)), upperKey)
        | .maxInclusive => keyWindowLoop m toBits facets (lowerKey, min upperKey key)
        | .maxExclusive => keyWindowLoop m toBits facets (lowerKey, min upperKey (key - 1))

/-- The keys between the infinities that the facets of the restriction admit. -/
def restrictionKeyWindow {w : ℕ} (m : ℕ) (toBits : DataValue → Option (BitVec w))
    (dr : DatatypeRestriction) : Option (ℕ × ℕ) :=
  keyWindowLoop m toBits dr.facets ((orderKey (infinity w m true)).toNat,
    (orderKey (infinity w m false)).toNat)

def floatRestrictionKeyWindow (dr : DatatypeRestriction) : Option (ℕ × ℕ) :=
  restrictionKeyWindow floatMantissa FloatKind.float.toBits dr

def doubleRestrictionKeyWindow (dr : DatatypeRestriction) : Option (ℕ × ℕ) :=
  restrictionKeyWindow doubleMantissa FloatKind.double.toBits dr

namespace FloatKind

/-- The keys of the infinities. -/
def keys (kind : FloatKind) : ℕ × ℕ :=
  ((orderKey (infinity kind.width kind.mantissa true)).toNat,
    (orderKey (infinity kind.width kind.mantissa false)).toNat)

def window : FloatKind → DatatypeRestriction → Option (ℕ × ℕ)
  | float, dr => floatRestrictionKeyWindow dr
  | double, dr => doubleRestrictionKeyWindow dr

/-- The key of a value of the kind; NaN has none. -/
def key (kind : FloatKind) (value : DataValue) : Option (Option ℕ) :=
  (kind.toBits value).map fun bits => if isNan kind.mantissa bits then none
    else some (orderKey bits).toNat

/-- The value with a key. -/
def value (kind : FloatKind) (key : ℕ) : DataValue :=
  kind.ofBits (fromOrderKey (BitVec.ofNat kind.width key))

def nan (kind : FloatKind) : DataValue := kind.ofBits kind.nanBits

end FloatKind

/-- Runs of keys, whether NaN remains, and the excluded values in them. -/
structure FloatValueSpace where
  kind : FloatKind
  windows : List (ℕ × ℕ)
  nan : Bool
  excluded : List DataValue

namespace FloatValueSpace

variable (space : FloatValueSpace)

def contains (value : DataValue) : Bool :=
  match space.kind.key value with
  | some (some key) => space.windows.any fun window => window.1 ≤ key && key ≤ window.2
  | some none => space.nan
  | none => false

/-- The number of keys in the runs, and NaN. -/
def total : ℕ :=
  (space.windows.map fun window => window.2 - window.1 + 1).sum + space.nan.toNat

def count : ℕ := space.total - space.excluded.length

def values : List DataValue :=
  ((if space.nan then [space.kind.nan] else []) ++
    space.windows.flatMap fun window =>
        (List.range' window.1 (window.2 + 1 - window.1)).map space.kind.value).filter
      fun value => !space.excluded.contains value

end FloatValueSpace

/-- What the positive ranges leave and the negated enumerations forbid. -/
structure FloatConjunction where
  windows : List (ℕ × ℕ)
  nan : Bool
  positive : Bool
  forbidden : List DataValue

/-- The part of a run within a window. -/
def clip (window part : ℕ × ℕ) : Option (ℕ × ℕ) :=
  let clipped := (max part.1 window.1, min part.2 window.2)
  if clipped.1 ≤ clipped.2 then some clipped else none

def conjoinFloat (kind : FloatKind) (s : FloatConjunction) : LiteralDataRange →
    Option FloatConjunction
  | .positive (.datatypeRestriction dr) =>
    if FloatKind.of dr.datatype = some kind then
      if dr.facets.length = 0 then some { s with positive := true }
      else (kind.window dr).map fun window =>
          { s with windows := s.windows.filterMap (clip window), nan := false, positive := true }
    else some s
  | .atomicNegationDataRange (.constantEnumeration constants) =>
    some { s with
      forbidden := s.forbidden ++ constants.filterMap fun constant => constant.filter fun value =>
          (kind.key value).isSome }
  | _ => some s

/-- The parts of a run below and above a window. -/
def cutOut (window part : ℕ × ℕ) : List (ℕ × ℕ) :=
  (if part.1 < window.1 then [(part.1, min part.2 (window.1 - 1))] else []) ++
    if part.2 > window.2 then [(max part.1 (window.2 + 1), part.2)] else []

/-- Subtract a negated restriction of the kind. -/
def subtractFloat (kind : FloatKind) (s : List (ℕ × ℕ) × Bool) : LiteralDataRange →
    Option (List (ℕ × ℕ) × Bool)
  | .atomicNegationDataRange (.datatypeRestriction dr) =>
    if FloatKind.of dr.datatype = some kind then
      if dr.facets.length = 0 then some ([], false)
      else (kind.window dr).map fun window =>
          if window.1 > window.2 then s else (s.1.flatMap (cutOut window), s.2)
    else some s
  | _ => some s

def floatValueSpace (ranges : List LiteralDataRange) (kind : FloatKind) :
    Option FloatValueSpace := do
  let s ← ranges.foldlM (conjoinFloat kind) ⟨[kind.keys], true, false, []⟩
  if !s.positive then none
  let (windows, nan) ← ranges.foldlM (subtractFloat kind) (s.windows, s.nan)
  let space : FloatValueSpace := ⟨kind, windows, nan, []⟩
  return { space with excluded := collect space.contains s.forbidden }

/-! ## Facets -/

section facets

variable {w m : ℕ} {v b : BitVec w} {facet : OrderingFacet}

/-- A mantissa, and an exponent of more than one bit. -/
structure IsFormat (w m : ℕ) : Prop where
  mantissa_pos : 0 < m
  exponent : m < w - 1

theorem FloatKind.isFormat (kind : FloatKind) : IsFormat kind.width kind.mantissa := by
  cases kind
  · exact ⟨by decide, by decide⟩
  · exact ⟨by decide, by decide⟩

theorem IsFormat.width_pos (h : IsFormat w m) : 0 < w := by
  have := h.exponent
  omega

theorem IsFormat.infinityMagnitude_pos (h : IsFormat w m) : 0 < infinityMagnitude w m :=
  Nat.sub_pos_of_lt (Nat.pow_lt_pow_right (by omega) h.exponent)

/-- The code's answer for the bits of a value and of a bound. -/
def bitsSatisfyFacet (m : ℕ) (v : BitVec w) (facet : OrderingFacet) (b : BitVec w) : Bool :=
  if isNan m v then false
  else if isInfinite m v then
    if isNan m b then false
    else
      match facet with
      | .minInclusive => !v.msb || (isInfinite m b && b.msb = true)
      | .minExclusive => !v.msb
      | .maxInclusive => v.msb || (isInfinite m b && b.msb = false)
      | .maxExclusive => v.msb
  else if isNan m b then false
  else compareOrder (orderKey v).toNat (orderKey (normalizeZeroForFacet b facet)).toNat facet

/-- The two comparisons of the code make up one answer. -/
theorem specialOrder_finiteOrder (bound : DataValue) (hnan : boundIsNan bound = isNan m b)
    (hinfinity : ∀ negative, boundIsInfinity negative bound = (isInfinite m b && b.msb = negative))
    (otherwise : Bool) :
    (match specialOrder m v facet (some bound) with
      | some result => result
      | none =>
        match finiteOrder m v b facet with
        | some result => result
        | none => otherwise) = bitsSatisfyFacet m v facet b := by
  simp only [specialOrder, finiteOrder, bitsSatisfyFacet, any_some, hnan, hinfinity]
  by_cases hv : isNan m v = true
  · simp only [if_pos hv]
  · simp only [if_neg hv]
    by_cases hinf : isInfinite m v = true
    · simp only [if_pos hinf]
      by_cases hb : isNan m b = true
      · simp only [if_pos hb]
      · simp only [if_neg hb]
        cases facet <;> rfl
    · have hfinite : ¬ infinityMagnitude w m ≤ magnitude v := by
        rw [isNan_iff] at hv
        rw [isInfinite, decide_eq_true_eq] at hinf
        omega
      simp only [if_neg hinf, if_neg hfinite]
      by_cases hb : isNan m b = true
      · simp only [if_pos hb]
      · simp only [if_neg hb]

theorem valueSatisfiesFacet_ofBits (kind : FloatKind) (v : BitVec kind.width)
    (facet : OrderingFacet) (b : BitVec kind.width) :
    valueSatisfiesFacet (kind.ofBits v) (.ordering facet) (some (kind.ofBits b)) =
    bitsSatisfyFacet kind.mantissa v facet b := by
  cases kind with
  | float => exact specialOrder_finiteOrder (.float b) rfl (fun negative => rfl) _
  | double => exact specialOrder_finiteOrder (.double b) rfl (fun negative => rfl) _

/-- A key is on the side of the bound that the facet asks for. -/
def keySatisfiesFacet (m : ℕ) (key : ℕ) (facet : OrderingFacet) (b : BitVec w) : Bool :=
  !isNan m b && compareOrder key (orderKey (normalizeZeroForFacet b facet)).toNat facet

/-- An infinity is the bound that its own side of the facet leaves out. -/
def IsOpenEnd (m : ℕ) (v : BitVec w) (facet : OrderingFacet) (b : BitVec w) : Prop :=
  isInfinite m v = true ∧ b = v ∧ facet = if v.msb then .maxExclusive else .minExclusive

/-- The sign of a zero bound is all that is changed. -/
theorem magnitude_normalizeZeroForFacet (hw : 0 < w) (facet : OrderingFacet) :
    magnitude (normalizeZeroForFacet b facet) = magnitude b := by
  have hhalf := two_mul_half hw
  have hpos := Nat.two_pow_pos (w - 1)
  have hsign : magnitude (BitVec.intMin w) = 0 := by
    rw [magnitude, BitVec.toNat_intMin, Nat.mod_eq_of_lt (show 2 ^ (w - 1) < 2 ^ w by omega),
      Nat.mod_self]
  have hzero : magnitude (0 : BitVec w) = 0 := by simp [magnitude]
  unfold normalizeZeroForFacet
  split_ifs with h
  · rfl
  · rw [not_not.mp h]
    cases facet
    · exact hsign
    · exact hzero
    · exact hzero
    · exact hsign

theorem isNan_normalizeZeroForFacet (hw : 0 < w) (facet : OrderingFacet) :
    isNan m (normalizeZeroForFacet b facet) = isNan m b := by
  rw [isNan, isNan, magnitude_normalizeZeroForFacet hw facet]

/-- An infinite bound stays what it is, and no other bound becomes infinite. -/
theorem normalizeZeroForFacet_eq_infinity (hfmt : IsFormat w m) (facet : OrderingFacet)
    {negative : Bool} :
    normalizeZeroForFacet b facet = infinity w m negative ↔ b = infinity w m negative := by
  have hpos := hfmt.infinityMagnitude_pos
  have hmagnitude := magnitude_infinity hfmt.width_pos m negative
  by_cases hzero : magnitude b = 0
  · have hzero' := (magnitude_normalizeZeroForFacet hfmt.width_pos facet).trans hzero
    refine iff_of_false (fun heq => ?_) (fun heq => ?_)
    · rw [heq] at hzero'
      omega
    · rw [heq] at hzero
      omega
  · unfold normalizeZeroForFacet
    rw [if_pos hzero]

theorem bitsSatisfyFacet_iff (hfmt : IsFormat w m) : bitsSatisfyFacet m v facet b = true ↔
      isNan m v = false ∧ (keySatisfiesFacet m (orderKey v).toNat facet b = true ∨
        IsOpenEnd m v facet b) := by
  have hw := hfmt.width_pos
  unfold bitsSatisfyFacet
  by_cases hv : isNan m v = true
  · simp [hv]
  rw [if_neg hv]
  rw [Bool.not_eq_true] at hv
  rw [hv, keySatisfiesFacet, Bool.and_eq_true, Bool.not_eq_true']
  by_cases hb : isNan m b = true
  · have hopen : ¬ IsOpenEnd m v facet b := fun h => by
      rw [h.2.1, hv] at hb
      cases hb
    simp [hb, hopen]
  rw [Bool.not_eq_true] at hb
  simp only [hb, true_and, Bool.false_eq_true, if_false]
  by_cases hinf : isInfinite m v = true
  · rw [if_pos hinf]
    have hval := (isInfinite_iff hw).mp hinf
    have hrng := (isNan_eq_false_iff hw).mp ((isNan_normalizeZeroForFacet hw facet).trans hb)
    have hequal : ∀ negative, (orderKey (normalizeZeroForFacet b facet)).toNat =
      (orderKey (infinity w m negative)).toNat ↔ b = infinity w m negative := fun negative => by
      rw [← normalizeZeroForFacet_eq_infinity hfmt facet]
      exact ⟨fun h => orderKey_injective hw (BitVec.eq_of_toNat_eq h), fun h => by rw [h]⟩
    have hbd : ∀ negative, (isInfinite m b && b.msb = negative) = true ↔
        b = infinity w m negative := fun negative => by
      rw [Bool.and_eq_true, decide_eq_true_eq, isInfinite_iff hw]
      constructor
      · rintro ⟨h, hmsb⟩
        rwa [hmsb] at h
      · intro h
        have hmsb : b.msb = negative := by rw [h, msb_infinity hw]
        exact ⟨by rwa [hmsb], hmsb⟩
    simp only [IsOpenEnd, hinf, true_and]
    have hneg := hequal true
    have hpositive := hequal false
    obtain ⟨kb, hkb⟩ : ∃ kb, kb = (orderKey (normalizeZeroForFacet b facet)).toNat := ⟨_, rfl⟩
    rw [← hkb] at hrng hneg hpositive ⊢
    cases hmsb : v.msb with
    | false | true =>
      rw [hmsb] at hval
      rw [hval]
      cases facet <;> simp [compareOrder] <;> grind
  · have hopen : ¬ IsOpenEnd m v facet b := fun h => hinf h.1
    rw [if_neg hinf]
    simp [hopen]

end facets

/-! ## Restrictions -/

section restrictions

variable {kind : FloatKind}

/-- A restriction of the kind with ordering facets. -/
structure FloatRestriction (kind : FloatKind) where
  facets : List (OrderingFacet × BitVec kind.width)

def FloatRestriction.toRestriction (r : FloatRestriction kind) : DatatypeRestriction :=
  ⟨kind.datatype, r.facets.map fun f => (.ordering f.1, some (kind.ofBits f.2))⟩

/-- The keys of the values that satisfy the restriction; NaN satisfies it if there are no facets. -/
def FloatRestriction.Admits (r : FloatRestriction kind) : Option ℕ → Prop
  | none => r.facets = []
  | some key => ∀ f ∈ r.facets, keySatisfiesFacet kind.mantissa key f.1 f.2 = true

/-- The key of the bits, if they are not NaN. -/
def FloatKind.keyOf (kind : FloatKind) (v : BitVec kind.width) : Option ℕ :=
  if isNan kind.mantissa v then none else some (orderKey v).toNat

theorem FloatKind.toBits_ofBits (kind : FloatKind) (v : BitVec kind.width) :
    kind.toBits (kind.ofBits v) = some v := by
  cases kind
  · rfl
  · rfl

theorem FloatKind.key_ofBits (kind : FloatKind) (v : BitVec kind.width) :
    kind.key (kind.ofBits v) = some (kind.keyOf v) := by
  rw [key, kind.toBits_ofBits]
  rfl

theorem FloatKind.of_datatype (kind : FloatKind) : FloatKind.of kind.datatype = some kind := by
  cases kind
  · rfl
  · rfl

/-- The value is an infinity, and the open end of a facet of the restriction. -/
def FloatRestriction.HasOpenEnd (r : FloatRestriction kind) (v : BitVec kind.width) : Prop :=
  ∃ f ∈ r.facets, IsOpenEnd kind.mantissa v f.1 f.2

theorem valueInDatatype_ofBits (kind : FloatKind) (v : BitVec kind.width) :
    valueInDatatype (kind.ofBits v) kind.datatype = true := by
  cases kind
  · rfl
  · rfl

variable {r : FloatRestriction kind}

/-- The code takes a value with an open end for one that satisfies the facet. -/
theorem valueSatisfiesRestriction_ofBits {v : BitVec kind.width} :
    valueSatisfiesRestriction (kind.ofBits v) r.toRestriction = true ↔
      ∀ f ∈ r.facets, isNan kind.mantissa v = false ∧
        (keySatisfiesFacet kind.mantissa (orderKey v).toNat f.1 f.2 = true ∨
          IsOpenEnd kind.mantissa v f.1 f.2) := by
  rw [valueSatisfiesRestriction, Bool.and_eq_true, FloatRestriction.toRestriction, List.all_map,
    List.all_eq_true]
  refine (and_iff_right (valueInDatatype_ofBits kind v)).trans (forall₂_congr fun f _ => ?_)
  rw [← bitsSatisfyFacet_iff kind.isFormat, ← valueSatisfiesFacet_ofBits]
  rfl

theorem not_keySatisfiesFacet_of_isOpenEnd {w m : ℕ} {v b : BitVec w} {facet : OrderingFacet}
    (hfmt : IsFormat w m)
    (h : IsOpenEnd m v facet b) : ¬ keySatisfiesFacet m (orderKey v).toNat facet b = true := by
  obtain ⟨hinf, rfl, rfl⟩ := h
  have hsame : ∀ facet, normalizeZeroForFacet b facet = b := fun facet => by
    have hval := (isInfinite_iff hfmt.width_pos).mp hinf
    exact ((normalizeZeroForFacet_eq_infinity hfmt facet).mpr hval).trans hval.symm
  rw [keySatisfiesFacet, hsame]
  cases b.msb <;> simp [compareOrder]

theorem admits_keyOf_iff {v : BitVec kind.width} :
    r.Admits (kind.keyOf v) ↔ valueSatisfiesRestriction (kind.ofBits v) r.toRestriction = true ∧
    ¬ r.HasOpenEnd v := by
  rw [valueSatisfiesRestriction_ofBits, FloatKind.keyOf, FloatRestriction.HasOpenEnd]
  by_cases hv : isNan kind.mantissa v = true
  · rw [if_pos hv]
    simp only [hv, Bool.true_eq_false, false_and, FloatRestriction.Admits, imp_false,
      ← eq_nil_iff_forall_not_mem]
    refine ⟨fun h => ⟨h, ?_⟩, And.left⟩
    rw [h]
    simp
  · rw [if_neg hv]
    rw [Bool.not_eq_true] at hv
    simp only [hv, true_and, FloatRestriction.Admits]
    constructor
    · intro h
      refine ⟨fun f hf => .inl (h f hf), ?_⟩
      rintro ⟨f, hf, hopen⟩
      exact not_keySatisfiesFacet_of_isOpenEnd kind.isFormat hopen (h f hf)
    · rintro ⟨h, hopen⟩ f hf
      exact (h f hf).resolve_right fun hf' => hopen ⟨f, hf, hf'⟩

/-- The keys of a window. -/
def windowDen (window : ℕ × ℕ) : Set ℕ := {k | window.1 ≤ k ∧ k ≤ window.2}

/-- The next key and the one before are there for the keys of all bounds. -/
theorem key_bounds {w m : ℕ} (hfmt : IsFormat w m) {b : BitVec w} (hb : isNan m b = false) :
    0 < (orderKey b).toNat ∧ (orderKey b).toNat + 1 ≤ 2 ^ w - 1 := by
  have hw := hfmt.width_pos
  obtain ⟨hlower, hupper⟩ := (isNan_eq_false_iff hw).mp hb
  have hhalf := two_mul_half hw
  have hlt : 2 ^ m < 2 ^ (w - 1) := Nat.pow_lt_pow_right (by omega) hfmt.exponent
  have htwo : 2 ^ 1 ≤ 2 ^ m := Nat.pow_le_pow_right (by omega) hfmt.mantissa_pos
  rw [toNat_orderKey hw, msb_infinity hw, magnitude_infinity hw, if_pos rfl,
    infinityMagnitude] at hlower
  rw [toNat_orderKey hw (infinity w m false), msb_infinity hw, magnitude_infinity hw,
      if_neg Bool.false_ne_true,
    infinityMagnitude] at hupper
  omega

/-- The loop keeps the keys that satisfy the facets. -/
theorem keyWindowLoop_spec {w m : ℕ} {toBits : DataValue → Option (BitVec w)}
    {ofBits : BitVec w → DataValue} (hfmt : IsFormat w m)
    (hbits : ∀ b, toBits (ofBits b) = some b) (facets : List (OrderingFacet × BitVec w))
    (window : ℕ × ℕ) :
    ∃ next, keyWindowLoop m toBits (facets.map fun f => (.ordering f.1, some (ofBits f.2)))
    window = some next ∧ ∀ k, k ∈ windowDen next ↔ k ∈ windowDen window ∧ ∀ f ∈ facets,
      keySatisfiesFacet m k f.1 f.2 = true := by
  induction facets generalizing window with
  | nil => exact ⟨window, rfl, fun k => by simp⟩
  | cons f facets ih =>
    obtain ⟨facet, b⟩ := f
    rw [map_cons, keyWindowLoop]
    simp only [bind_some, hbits]
    by_cases hb : isNan m b = true
    · rw [if_pos hb]
      refine ⟨(1, 0), rfl, fun k => iff_of_false (fun hk => ?_) fun hk => ?_⟩
      · exact absurd (hk.1.trans hk.2) (by omega)
      · have hfls := hk.2 _ mem_cons_self
        simp [keySatisfiesFacet, hb] at hfls
    · rw [if_neg hb]
      rw [Bool.not_eq_true] at hb
      have hbounds := key_bounds hfmt ((isNan_normalizeZeroForFacet hfmt.width_pos facet).trans hb)
      -- Each facet moves one end of the window.
      have hstep : ∀ moved : ℕ × ℕ,
        (∀ k, k ∈ windowDen moved ↔ k ∈ windowDen window ∧ keySatisfiesFacet m k facet b = true) →
          ∃ next, keyWindowLoop m toBits (facets.map fun f => (.ordering f.1, some (ofBits f.2)))
            moved = some next ∧
            ∀ k, k ∈ windowDen next ↔ k ∈ windowDen window ∧ ∀ f ∈ (facet, b) :: facets,
              keySatisfiesFacet m k f.1 f.2 = true := by
        intro moved hmoved
        obtain ⟨next, hnext, hmem⟩ := ih moved
        refine ⟨next, hnext, fun k => ?_⟩
        rw [hmem, hmoved, forall_mem_cons, and_assoc]
      cases facet with
      | minInclusive | minExclusive | maxInclusive | maxExclusive =>
        refine hstep _ fun k => ?_
        simp only [windowDen, Set.mem_ofPred_eq, keySatisfiesFacet, hb, compareOrder,
          Bool.not_false, Bool.true_and, decide_eq_true_eq]
        omega

theorem mem_windowDen_keys {v : BitVec kind.width} : isNan kind.mantissa v = false ↔
    (orderKey v).toNat ∈ windowDen kind.keys :=
  isNan_eq_false_iff kind.isFormat.width_pos

theorem window_spec (r : FloatRestriction kind) :
    ∃ window, kind.window r.toRestriction = some window ∧
      ∀ k, k ∈ windowDen window ↔ k ∈ windowDen kind.keys ∧ r.Admits (some k) := by
  cases kind with
  | float =>
    exact keyWindowLoop_spec FloatKind.float.isFormat FloatKind.float.toBits_ofBits r.facets
      FloatKind.float.keys
  | double =>
    exact keyWindowLoop_spec FloatKind.double.isFormat FloatKind.double.toBits_ofBits r.facets
      FloatKind.double.keys

/-- The runs and NaN make up a set of keys, and no run is empty. -/
structure Covers (kind : FloatKind) (windows : List (ℕ × ℕ)) (nan : Bool)
    (s : Set (Option ℕ)) : Prop where
  tiles : Tiles windowDen windows {k | some k ∈ s}
  le : ∀ window ∈ windows, window.1 ≤ window.2
  nan_iff : nan = true ↔ none ∈ s
  within : ∀ k, some k ∈ s → k ∈ windowDen kind.keys

variable {windows : List (ℕ × ℕ)} {nan : Bool} {s : Set (Option ℕ)}

theorem clip_spec (window part : ℕ × ℕ) (k : ℕ) : k ∈ windowDen part ∩ windowDen window ↔
    ∃ j ∈ clip window part, k ∈ windowDen j := by
  simp only [clip]
  split <;> simp [windowDen] <;> omega

theorem Covers.restrict (h : Covers kind windows nan s) (r : FloatRestriction kind)
    (hfac : r.facets ≠ []) :
    ∃ window, kind.window r.toRestriction = some window ∧
      Covers kind (windows.filterMap (clip window)) false (s ∩ {k | r.Admits k}) := by
  obtain ⟨window, hwin, hmem⟩ := window_spec r
  refine ⟨window, hwin, ?_, ?_, ?_, fun k hk => h.within k hk.1⟩
  · refine (h.tiles.filterMap fun part _ k => clip_spec window part k).congr fun k => ?_
    rw [Set.mem_inter_iff, hmem]
    exact ⟨fun hk => ⟨hk.1, h.within k hk.1, hk.2⟩, fun hk => ⟨hk.1, hk.2.2⟩⟩
  · intro part hpart
    obtain ⟨i, -, hi⟩ := mem_filterMap.mp hpart
    simp only [clip] at hi
    split at hi
    · cases hi
      assumption
    · cases hi
  · exact iff_of_false Bool.false_ne_true fun hk => hfac hk.2

/-- The parts below and above a window that is not empty. -/
theorem tiles_cutOut {window part : ℕ × ℕ} (hpart : part.1 ≤ part.2) (hwin : window.1 ≤ window.2) :
    Tiles windowDen (cutOut window part) (windowDen part ∩ (windowDen window)ᶜ) ∧
    ∀ i ∈ cutOut window part, i.1 ≤ i.2 := by
  rw [cutOut]
  refine ⟨⟨?_, fun k => ?_⟩, ?_⟩
  · split <;> split <;> simp [Set.disjoint_left, windowDen]
    omega
  · split <;> split <;> simp [windowDen] <;> omega
  · split <;> split <;> simp <;> omega

theorem Covers.remove (h : Covers kind windows nan s) (r : FloatRestriction kind)
    (hfac : r.facets ≠ []) :
    ∃ window rest, kind.window r.toRestriction = some window ∧
      (if window.1 > window.2 then (windows, nan) else (windows.flatMap (cutOut window), nan)) =
      rest ∧ Covers kind rest.1 rest.2 (s ∩ {k | ¬ r.Admits k}) := by
  obtain ⟨window, hwin, hmem⟩ := window_spec r
  have hnan : nan = true ↔ none ∈ s ∩ {k | ¬ r.Admits k} := by
    rw [h.nan_iff]
    exact ⟨fun hs => ⟨hs, hfac⟩, And.left⟩
  have hadmits : ∀ k, some k ∈ s → (r.Admits (some k) ↔ k ∈ windowDen window) := fun k hk => by
    rw [hmem]
    exact ⟨fun hr => ⟨h.within k hk, hr⟩, And.right⟩
  refine ⟨window, _, hwin, rfl, ?_⟩
  by_cases hemp : window.1 > window.2
  · rw [if_pos hemp]
    refine ⟨h.tiles.congr fun k => ⟨And.left, fun hk => ⟨hk, fun hr => ?_⟩⟩, h.le, hnan, fun k hk =>
        h.within k hk.1⟩
    obtain ⟨hlower, hupper⟩ := (hadmits k hk).mp hr
    omega
  · rw [if_neg hemp]
    have hwin : window.1 ≤ window.2 := Nat.le_of_not_lt hemp
    refine ⟨?_, ?_, hnan, fun k hk => h.within k hk.1⟩
    · refine (h.tiles.flatMap fun part hpart =>
        (tiles_cutOut (h.le part hpart) hwin).1).congr fun k => ?_
      exact and_congr_right fun hk => (hadmits k hk).not
    · intro i hi
      obtain ⟨part, hpart, hi⟩ := mem_flatMap.mp hi
      exact (tiles_cutOut (h.le part hpart) hwin).2 i hi

end restrictions

/-! ## Ranges -/

section ranges

variable {kind : FloatKind} {windows : List (ℕ × ℕ)} {nan : Bool} {s : Set (Option ℕ)}

/-- An enumerated value; NaN has its only bits. -/
structure EnumeratedValue (kind : FloatKind) where
  value : DataValue
  canonical : ∀ v ∈ kind.toBits value, isNan kind.mantissa v = true → v = kind.nanBits

/-- The ranges of floating-point numbers; a member of an enumeration may be a literal without a
value. -/
inductive FloatRange (kind : FloatKind) where
  | restriction (r : FloatRestriction kind)
  | negatedRestriction (r : FloatRestriction kind)
  | negatedEnumeration (members : List (Option (EnumeratedValue kind)))

namespace FloatRange

def toRange : FloatRange kind → LiteralDataRange
  | restriction r => .positive (.datatypeRestriction r.toRestriction)
  | negatedRestriction r => .atomicNegationDataRange (.datatypeRestriction r.toRestriction)
  | negatedEnumeration members =>
    .atomicNegationDataRange (.constantEnumeration (members.map (Option.map EnumeratedValue.value)))

def toPositive : FloatRange kind → Option (FloatRestriction kind)
  | restriction r => some r
  | _ => none

def toNegated : FloatRange kind → Option (FloatRestriction kind)
  | negatedRestriction r => some r
  | _ => none

def enumerated : FloatRange kind → List DataValue
  | negatedEnumeration members => members.reduceOption.map EnumeratedValue.value
  | _ => []

end FloatRange

theorem Covers.congr {t : Set (Option ℕ)} (h : Covers kind windows nan s)
    (ht : ∀ k, k ∈ t ↔ k ∈ s) : Covers kind windows nan t := by
  rwa [show t = s from Set.ext ht]

theorem admits_of_facets_eq_nil {r : FloatRestriction kind} (h : r.facets = []) (k : Option ℕ) :
    r.Admits k := by
  cases k with
  | none => exact h
  | some k =>
    intro f hf
    rw [h] at hf
    cases hf

/-- One range of the first pass. -/
theorem conjoinFloat_spec {state : FloatConjunction} (h : Covers kind state.windows state.nan s)
    (r : FloatRange kind) :
    ∃ next, conjoinFloat kind state r.toRange = some next ∧
      Covers kind next.windows next.nan (s ∩ {k | ∀ p ∈ r.toPositive, p.Admits k}) ∧
      next.positive = (state.positive || r.toPositive.isSome) ∧
      next.forbidden = state.forbidden ++ r.enumerated.filter fun value =>
          (kind.key value).isSome := by
  cases r with
  | restriction r =>
    have hkind : FloatKind.of r.toRestriction.datatype = some kind := kind.of_datatype
    rw [FloatRange.toRange, conjoinFloat, if_pos hkind]
    by_cases hfac : r.facets = []
    · rw [if_pos (by rw [FloatRestriction.toRestriction, hfac]; rfl)]
      refine ⟨_, rfl, h.congr fun k => ⟨And.left, fun hk => ⟨hk, ?_⟩⟩,
        by simp [FloatRange.toPositive], by simp [FloatRange.enumerated]⟩
      rintro p ⟨⟩
      exact admits_of_facets_eq_nil hfac k
    · obtain ⟨window, hwin, hcov⟩ := h.restrict r hfac
      rw [if_neg (by simpa [FloatRestriction.toRestriction] using hfac), hwin]
      refine ⟨_, rfl, hcov.congr fun k => ?_,
        by simp [FloatRange.toPositive], by simp [FloatRange.enumerated]⟩
      simp [FloatRange.toPositive]
  | negatedRestriction r =>
    refine ⟨state, rfl, h.congr fun k => ?_,
      by simp [FloatRange.toPositive], by simp [FloatRange.enumerated]⟩
    simp [FloatRange.toPositive]
  | negatedEnumeration members =>
    refine ⟨_, rfl, h.congr fun k => by simp [FloatRange.toPositive],
      by simp [FloatRange.toPositive], ?_⟩
    rw [FloatRange.enumerated, reduceOption, map_filterMap, filter_filterMap, filterMap_map]
    rfl

theorem conjoinFloats_spec (state : FloatConjunction) (h : Covers kind state.windows state.nan s)
    (rs : List (FloatRange kind)) :
    ∃ next, (rs.map FloatRange.toRange).foldlM (conjoinFloat kind) state = some next ∧
      Covers kind next.windows next.nan (s ∩ {k | ∀ r ∈ rs, ∀ p ∈ r.toPositive, p.Admits k}) ∧
      next.positive = (state.positive || rs.any fun r => r.toPositive.isSome) ∧
      next.forbidden = state.forbidden ++ (rs.flatMap FloatRange.enumerated).filter fun value =>
          (kind.key value).isSome := by
  induction rs generalizing state s with
  | nil => exact ⟨state, rfl, by simpa using h, by simp, by simp⟩
  | cons r rs ih =>
    obtain ⟨next, hnext, hcov, hpositive, hforb⟩ := conjoinFloat_spec h r
    obtain ⟨last, hlast, hcov, hpositive', hforb'⟩ := ih next hcov
    refine ⟨last, ?_, hcov.congr fun k => ?_, ?_, ?_⟩
    · rw [map_cons, foldlM_cons, hnext]
      exact hlast
    · simp [and_assoc]
    · rw [hpositive', hpositive, any_cons, Bool.or_assoc]
    · rw [hforb', hforb, flatMap_cons, filter_append, append_assoc]

theorem subtractFloat_spec (h : Covers kind windows nan s) (r : FloatRange kind) :
    ∃ rest, subtractFloat kind (windows, nan) r.toRange = some rest ∧
      Covers kind rest.1 rest.2 (s ∩ {k | ∀ n ∈ r.toNegated, ¬ n.Admits k}) := by
  cases r with
  | restriction r | negatedEnumeration values =>
    exact ⟨_, rfl, h.congr fun k => by simp [FloatRange.toNegated]⟩
  | negatedRestriction r =>
    have hkind : FloatKind.of r.toRestriction.datatype = some kind := kind.of_datatype
    rw [FloatRange.toRange, subtractFloat, if_pos hkind]
    by_cases hfac : r.facets = []
    · rw [if_pos (by rw [FloatRestriction.toRestriction, hfac]; rfl)]
      have hall : ∀ k, k ∉ s ∩
          {k | ∀ n ∈ (FloatRange.negatedRestriction r).toNegated, ¬ n.Admits k} := fun k hk =>
        hk.2 r rfl (admits_of_facets_eq_nil hfac k)
      refine ⟨_, rfl, ⟨List.Pairwise.nil, fun k => iff_of_false (hall _) (by simp)⟩,
          by simp, iff_of_false Bool.false_ne_true (hall _),
        fun k hk => absurd hk (hall _)⟩
    · obtain ⟨window, rest, hwin, hrest, hcov⟩ := h.remove r hfac
      rw [if_neg (by simpa [FloatRestriction.toRestriction] using hfac), hwin]
      refine ⟨rest, congrArg some hrest, hcov.congr fun k => ?_⟩
      simp [FloatRange.toNegated]

theorem subtractFloats_spec (h : Covers kind windows nan s) (rs : List (FloatRange kind)) :
    ∃ rest, (rs.map FloatRange.toRange).foldlM (subtractFloat kind) (windows, nan) = some rest ∧
      Covers kind rest.1 rest.2 (s ∩ {k | ∀ r ∈ rs, ∀ n ∈ r.toNegated, ¬ n.Admits k}) := by
  induction rs generalizing windows nan s with
  | nil => exact ⟨_, rfl, h.congr fun k => by simp⟩
  | cons r rs ih =>
    obtain ⟨next, hnext, hcov⟩ := subtractFloat_spec h r
    obtain ⟨rest, hrest, hcov⟩ := ih hcov
    refine ⟨rest, ?_, hcov.congr fun k => ?_⟩
    · rw [map_cons, foldlM_cons, hnext]
      exact hrest
    · simp [and_assoc]

theorem covers_keys (kind : FloatKind) : Covers kind [kind.keys] true
    {k | ∀ key ∈ k, key ∈ windowDen kind.keys} := by
  refine ⟨(tiles_singleton kind.keys).congr fun k => by simp, ?_, by simp, fun k hk => hk k rfl⟩
  rw [forall_mem_singleton]
  cases kind <;> decide

end ranges

/-! ## The space of a conjunction -/

section space

variable {kind : FloatKind} {windows : List (ℕ × ℕ)} {nan : Bool} {s : Set (Option ℕ)}

/-- The values of the kind; NaN has its only bits. -/
def FloatKind.IsValue (kind : FloatKind) (value : DataValue) : Prop :=
  ∃ v, value = kind.ofBits v ∧ (isNan kind.mantissa v = true → v = kind.nanBits)

theorem FloatKind.isNan_nanBits (kind : FloatKind) : isNan kind.mantissa kind.nanBits = true := by
  cases kind <;> decide +kernel

theorem FloatKind.toBits_eq_some {kind : FloatKind} {value : DataValue} {v : BitVec kind.width}
    (h : kind.toBits value = some v) :
    value = kind.ofBits v := by
  cases kind <;> cases value <;> cases h <;> rfl

variable {k : ℕ}

theorem FloatKind.keyOf_eq_some {kind : FloatKind} {v : BitVec kind.width}
    (h : kind.keyOf v = some k) :
    isNan kind.mantissa v = false ∧ (orderKey v).toNat = k := by
  rw [keyOf] at h
  split at h
  · cases h
  · rename_i hv
    exact ⟨by simpa using hv, some.inj h⟩

/-- Only one value has a given key. -/
theorem FloatKind.eq_of_key_eq {kind : FloatKind} {a b : DataValue} (ha : kind.IsValue a)
    (hb : kind.IsValue b) (h : kind.key a = kind.key b) : a = b := by
  obtain ⟨v, rfl, hv⟩ := ha
  obtain ⟨v', rfl, hv'⟩ := hb
  rw [kind.key_ofBits, kind.key_ofBits, some.injEq] at h
  cases hkey : kind.keyOf v with
  | none =>
    have hnan : ∀ u, kind.keyOf u = none → isNan kind.mantissa u = true := fun u hu => by
      rw [keyOf] at hu
      split at hu
      · assumption
      · cases hu
    rw [hv (hnan v hkey), hv' (hnan v' (h.symm.trans hkey))]
  | some k =>
    have hequal := (keyOf_eq_some hkey).2.trans (keyOf_eq_some (h.symm.trans hkey)).2.symm
    rw [orderKey_injective kind.isFormat.width_pos (BitVec.eq_of_toNat_eq hequal)]

theorem FloatKind.isValue_nan (kind : FloatKind) : kind.IsValue kind.nan := ⟨_, rfl, fun _ => rfl⟩

theorem FloatKind.key_nan (kind : FloatKind) : kind.key kind.nan = some none := by
  rw [nan, kind.key_ofBits, keyOf, if_pos kind.isNan_nanBits]

/-- The value with a key between those of the infinities. -/
theorem FloatKind.value_spec {kind : FloatKind} (hk : k ∈ windowDen kind.keys) :
    kind.IsValue (kind.value k) ∧ kind.key (kind.value k) = some (some k) := by
  have hlt : k < 2 ^ kind.width := hk.2.trans_lt (BitVec.isLt _)
  have hkey : (orderKey (fromOrderKey (BitVec.ofNat kind.width k))).toNat = k := by
    rw [orderKey_fromOrderKey kind.isFormat.width_pos, BitVec.toNat_ofNat, Nat.mod_eq_of_lt hlt]
  have hnan : isNan kind.mantissa (fromOrderKey (BitVec.ofNat kind.width k)) = false := by
    rw [mem_windowDen_keys, hkey]
    exact hk
  refine ⟨⟨_, rfl, fun h => by rw [hnan] at h; cases h⟩, ?_⟩
  rw [value, kind.key_ofBits, keyOf, hnan, if_neg Bool.false_ne_true, hkey]

theorem contains_iff {excluded : List DataValue} (h : Covers kind windows nan s)
    {value : DataValue} :
    FloatValueSpace.contains ⟨kind, windows, nan, excluded⟩ value = true ↔
    ∃ k ∈ kind.key value, k ∈ s := by
  rw [FloatValueSpace.contains]
  rcases hkey : kind.key value with _ | _ | k
  · simp
  · simpa using h.nan_iff
  · have hmem := h.tiles.mem_iff k
    simpa [windowDen] using hmem.symm

/-- The keys of the runs. -/
def runKeys (windows : List (ℕ × ℕ)) : List ℕ :=
  windows.flatMap fun window => List.range' window.1 (window.2 + 1 - window.1)

theorem mem_range'_iff {window : ℕ × ℕ} : k ∈ List.range' window.1 (window.2 + 1 - window.1) ↔
    k ∈ windowDen window := by
  rw [mem_range'_1, windowDen, Set.mem_ofPred_eq]
  omega

section

variable (h : Covers kind windows nan s)
include h

theorem Covers.mem_runKeys : k ∈ runKeys windows ↔ some k ∈ s := by
  rw [runKeys, mem_flatMap]
  simp only [mem_range'_iff]
  exact (h.tiles.mem_iff k).symm

theorem Covers.nodup_runKeys : (runKeys windows).Nodup := by
  rw [runKeys, nodup_flatMap]
  refine ⟨fun window _ => nodup_range', h.tiles.disjoint.imp fun {i j} hdisj => ?_⟩
  intro k hi hj
  exact Set.disjoint_left.mp hdisj (mem_range'_iff.mp hi) (mem_range'_iff.mp hj)

theorem Covers.length_runKeys :
    (runKeys windows).length = (windows.map fun window => window.2 - window.1 + 1).sum := by
  rw [runKeys, length_flatMap]
  congr 1
  refine map_congr_left fun window hwin => ?_
  have hle := h.le window hwin
  rw [length_range']
  omega

/-- NaN and the values of the runs. -/
def allValues (kind : FloatKind) (windows : List (ℕ × ℕ)) (nan : Bool) : List DataValue :=
  (if nan then [kind.nan] else []) ++ (runKeys windows).map kind.value

theorem Covers.allValues_spec :
    (allValues kind windows nan).Nodup ∧ ∀ value, value ∈ allValues kind windows nan ↔
    kind.IsValue value ∧ ∃ k ∈ kind.key value, k ∈ s := by
  have hval : ∀ k ∈ runKeys windows, kind.IsValue (kind.value k) ∧
      kind.key (kind.value k) = some (some k) := fun k hk =>
    FloatKind.value_spec (h.within k (h.mem_runKeys.mp hk))
  have hnan : ∀ value, value ∈ (if nan then [kind.nan] else []) ↔ nan = true ∧ value = kind.nan :=
      fun value => by
    cases nan <;> simp
  constructor
  · rw [allValues, nodup_append]
    refine ⟨by cases nan <;> simp, ?_, ?_⟩
    · refine h.nodup_runKeys.map_on fun k hk j hj heq => ?_
      have hsame := congrArg kind.key heq
      rw [(hval k hk).2, (hval j hj).2] at hsame
      exact some.inj (some.inj hsame)
    · rintro a ha b hb rfl
      obtain ⟨k, hk, hb⟩ := List.mem_map.mp hb
      have hsame := congrArg kind.key (((hnan a).mp ha).2.symm.trans hb.symm)
      rw [kind.key_nan, (hval k hk).2] at hsame
      cases hsame
  · intro value
    rw [allValues, mem_append, hnan, List.mem_map]
    constructor
    · rintro (⟨htrue, rfl⟩ | ⟨k, hk, rfl⟩)
      · exact ⟨kind.isValue_nan, none, kind.key_nan, h.nan_iff.mp htrue⟩
      · exact ⟨(hval k hk).1, some k, (hval k hk).2, h.mem_runKeys.mp hk⟩
    · rintro ⟨hv, k, hkey, hk⟩
      cases k with
      | none =>
        exact .inl ⟨h.nan_iff.mpr hk,
          FloatKind.eq_of_key_eq hv kind.isValue_nan (hkey.trans kind.key_nan.symm)⟩
      | some k =>
        have hmem := h.mem_runKeys.mpr hk
        exact .inr ⟨k, hmem, FloatKind.eq_of_key_eq (hval k hmem).1 hv
          ((hval k hmem).2.trans hkey.symm)⟩

end

/-- Without distinct elements of its own, a list is shorter by their number. -/
theorem length_filter_not_contains {α : Type*} [DecidableEq α] {l e : List α} (hl : l.Nodup)
    (he : e.Nodup) (hsub : ∀ x ∈ e, x ∈ l) :
    (l.filter fun x => !e.contains x).length + e.length = l.length := by
  have hperm : (l.filter fun x => e.contains x).Perm e := by
    rw [perm_ext_iff_of_nodup (hl.filter _) he]
    intro x
    rw [mem_filter, contains_iff_mem]
    exact and_iff_right_of_imp (hsub x)
  rw [← hperm.length_eq, Nat.add_comm]
  exact (length_eq_length_filter_add _).symm

end space

/-! ## Exactness -/

section exactness

variable {kind : FloatKind} {rs : List (FloatRange kind)}

def FloatRange.isRestriction : FloatRange kind → Bool
  | negatedEnumeration _ => false
  | _ => true

/-- The space holds the values in all the restrictions, and counts and lists those of them that are
not enumerated. -/
structure FloatValueSpace.Exact (rs : List (FloatRange kind)) (space : FloatValueSpace) : Prop where
  contains_iff : ∀ value, kind.IsValue value →
    (space.contains value = true ↔ ∀ r ∈ rs, r.isRestriction = true →
      valueInRange value r.toRange = some true)
  disjoint : space.windows.Pairwise fun i j => Disjoint (windowDen i) (windowDen j)
  window_le : ∀ window ∈ space.windows, window.1 ≤ window.2
  excluded_le : space.excluded.length ≤ space.total
  count_eq : space.count =
    {value | kind.IsValue value ∧ space.contains value = true ∧
      ∀ r ∈ rs, value ∉ r.enumerated}.ncard
  values_nodup : space.values.Nodup
  values_iff : ∀ value, value ∈ space.values ↔
    kind.IsValue value ∧ space.contains value = true ∧ ∀ r ∈ rs, value ∉ r.enumerated

/-- A range that has no open end at the infinity is not satisfied by it. -/
def FloatRange.Rejects (v : BitVec kind.width) : FloatRange kind → Prop
  | restriction r => valueSatisfiesRestriction (kind.ofBits v) r.toRestriction = false
  | negatedRestriction r =>
    valueSatisfiesRestriction (kind.ofBits v) r.toRestriction = true ∧ ¬ r.HasOpenEnd v
  | negatedEnumeration _ => False

/-- The infinity satisfies the restriction but for an open end. -/
def FloatRestriction.SatisfiedUpTo (v : BitVec kind.width) (r : FloatRestriction kind) : Prop :=
  valueSatisfiesRestriction (kind.ofBits v) r.toRestriction = true ∧ r.HasOpenEnd v

/-- The open ends at an infinity do not matter: another range rejects it, or both a positive and a
negated restriction have such an end, or none of them. -/
def OpenEndsSettled (rs : List (FloatRange kind)) (v : BitVec kind.width) : Prop :=
  (∃ r ∈ rs, r.Rejects v) ∨
    ((∃ r ∈ rs, ∃ p ∈ r.toPositive, p.SatisfiedUpTo v) ↔ ∃ r ∈ rs, ∃ n ∈ r.toNegated,
      n.SatisfiedUpTo v)

variable {r : FloatRange kind}

theorem FloatRange.valueInRange_iff {v : BitVec kind.width} :
    (r.isRestriction = true → valueInRange (kind.ofBits v) r.toRange = some true) ↔
      (∀ p ∈ r.toPositive, valueSatisfiesRestriction (kind.ofBits v) p.toRestriction = true) ∧
        ∀ n ∈ r.toNegated, valueSatisfiesRestriction (kind.ofBits v) n.toRestriction = false := by
  cases r with
  | restriction r | negatedRestriction r =>
    simp [isRestriction, toRange, valueInRange, valueInAtomic, toPositive, toNegated]
  | negatedEnumeration values => simp [isRestriction, toPositive, toNegated]

/-- The code and the order keys agree on a value if and only if its open ends are settled. -/
theorem openEndsSettled_iff {v : BitVec kind.width} : OpenEndsSettled rs v ↔
    ((∀ r ∈ rs, (∀ p ∈ r.toPositive, p.Admits (kind.keyOf v)) ∧ ∀ n ∈ r.toNegated,
      ¬ n.Admits (kind.keyOf v)) ↔
      ∀ r ∈ rs, r.isRestriction = true → valueInRange (kind.ofBits v) r.toRange = some true) := by
  simp only [admits_keyOf_iff, FloatRange.valueInRange_iff]
  by_cases hreject : ∃ r ∈ rs, r.Rejects v
  · -- The range that rejects the value is decided in the same way by both.
    refine iff_of_true (.inl hreject) ?_
    obtain ⟨r, hr, hrejects⟩ := hreject
    cases r with
    | restriction r =>
      have hfls : valueSatisfiesRestriction (kind.ofBits v) r.toRestriction = false := hrejects
      refine iff_of_false (fun h => ?_) fun h => ?_
      · exact Bool.false_ne_true (hfls.symm.trans ((h _ hr).1 r rfl).1)
      · exact Bool.false_ne_true (hfls.symm.trans ((h _ hr).1 r rfl))
    | negatedRestriction r =>
      refine iff_of_false (fun h => (h _ hr).2 r rfl hrejects) fun h => ?_
      exact Bool.false_ne_true (((h _ hr).2 r rfl).symm.trans hrejects.1)
    | negatedEnumeration values => exact hrejects.elim
  · -- Otherwise only the open ends make a difference.
    have hsat : ∀ r ∈ rs, ∀ p ∈ r.toPositive,
        valueSatisfiesRestriction (kind.ofBits v) p.toRestriction = true := by
      intro r hr p hp
      cases r with
      | restriction r =>
        cases hp
        by_contra hfls
        exact hreject ⟨_, hr, (Bool.not_eq_true _).mp hfls⟩
      | negatedRestriction r => cases hp
      | negatedEnumeration values => cases hp
    have hopen : ∀ r ∈ rs, ∀ n ∈ r.toNegated, ¬ (valueSatisfiesRestriction (kind.ofBits v)
        n.toRestriction = true ∧ ¬ n.HasOpenEnd v) := by
      intro r hr n hn hsat
      cases r with
      | restriction r => cases hn
      | negatedRestriction r =>
        cases hn
        exact hreject ⟨_, hr, hsat⟩
      | negatedEnumeration values => cases hn
    have hpositive : (∀ r ∈ rs, (∀ p ∈ r.toPositive,
      valueSatisfiesRestriction (kind.ofBits v) p.toRestriction = true ∧ ¬ p.HasOpenEnd v) ∧
        ∀ n ∈ r.toNegated, ¬ (valueSatisfiesRestriction (kind.ofBits v) n.toRestriction = true ∧
          ¬ n.HasOpenEnd v)) ↔
          ¬ ∃ r ∈ rs, ∃ p ∈ r.toPositive, p.SatisfiedUpTo v := by
      constructor
      · rintro h ⟨r, hr, p, hp, hdefect⟩
        exact ((h r hr).1 p hp).2 hdefect.2
      · intro h r hr
        exact ⟨fun p hp => ⟨hsat r hr p hp, fun hend =>
            h ⟨r, hr, p, hp, hsat r hr p hp, hend⟩⟩, hopen r hr⟩
    have hnegated : (∀ r ∈ rs,
      (∀ p ∈ r.toPositive, valueSatisfiesRestriction (kind.ofBits v) p.toRestriction = true) ∧
        ∀ n ∈ r.toNegated, valueSatisfiesRestriction (kind.ofBits v) n.toRestriction = false) ↔
          ¬ ∃ r ∈ rs, ∃ n ∈ r.toNegated, n.SatisfiedUpTo v := by
      constructor
      · rintro h ⟨r, hr, n, hn, hdefect⟩
        exact Bool.false_ne_true (((h r hr).2 n hn).symm.trans hdefect.1)
      · intro h r hr
        refine ⟨hsat r hr, fun n hn => Bool.eq_false_iff.mpr fun htrue =>
            h ⟨r, hr, n, hn, htrue, ?_⟩⟩
        by_contra hend
        exact hopen r hr n hn ⟨htrue, hend⟩
    rw [hpositive, hnegated, OpenEndsSettled, or_iff_right hreject, not_iff_not]

theorem floatValueSpace_eq (hpositive : ∃ r ∈ rs, r.toPositive.isSome = true) :
    ∃ windows nan excluded s, floatValueSpace (rs.map FloatRange.toRange) kind =
    some ⟨kind, windows, nan, excluded⟩ ∧ Covers kind windows nan s ∧
      (∀ k, k ∈ s ↔ (∀ key ∈ k, key ∈ windowDen kind.keys) ∧
        ∀ r ∈ rs, (∀ p ∈ r.toPositive, p.Admits k) ∧ ∀ n ∈ r.toNegated, ¬ n.Admits k) ∧
      excluded.Nodup ∧ ∀ value, value ∈ excluded ↔
        (∃ r ∈ rs, value ∈ r.enumerated) ∧ FloatValueSpace.contains ⟨kind, windows, nan, excluded⟩
        value = true := by
  obtain ⟨state, hstate, hcov, hpos, hforb⟩ :=
    conjoinFloats_spec ⟨[kind.keys], true, false, []⟩ (covers_keys kind) rs
  obtain ⟨rest, hrest, hcov⟩ := subtractFloats_spec hcov rs
  obtain ⟨hnd, hexcl⟩ :=
    collect_spec (FloatValueSpace.contains ⟨kind, rest.1, rest.2, []⟩) state.forbidden
  have htrue : state.positive = true := by
    rw [hpos, Bool.false_or, List.any_eq_true]
    exact hpositive
  refine ⟨rest.1, rest.2, collect (FloatValueSpace.contains ⟨kind, rest.1, rest.2, []⟩)
      state.forbidden, _, ?_, hcov,
    fun k => ?_, hnd, fun value => ?_⟩
  · rw [floatValueSpace, hstate]
    change (if (!state.positive) = true then none else (_ >>= _ : Option FloatValueSpace)) = _
    rw [htrue, hrest]
    rfl
  · simp only [Set.mem_inter_iff, Set.mem_ofPred_eq, and_assoc, ← forall_and]
  · rw [hexcl, hforb, nil_append, mem_filter, mem_flatMap]
    refine and_congr_left fun hin => and_iff_left_of_imp fun _ => ?_
    obtain ⟨k, hkey, -⟩ := (contains_iff hcov).mp hin
    exact isSome_of_mem hkey

/-- An enumerated value of the kind has the only bits if it is NaN. -/
theorem FloatRange.isValue_of_mem {value : DataValue}
    (hmem : value ∈ r.enumerated) (hkey : (kind.key value).isSome = true) : kind.IsValue value := by
  cases r with
  | restriction r => cases hmem
  | negatedRestriction r => cases hmem
  | negatedEnumeration values =>
    obtain ⟨e, -, rfl⟩ := List.mem_map.mp hmem
    rw [FloatKind.key, isSome_map, isSome_iff_exists] at hkey
    obtain ⟨v, hv⟩ := hkey
    exact ⟨v, FloatKind.toBits_eq_some hv, e.canonical v hv⟩

/-- Everything but the membership test agrees in any case. -/
theorem exact_iff {windows : List (ℕ × ℕ)} {nan : Bool} {excluded : List DataValue}
    {s : Set (Option ℕ)} (hcov : Covers kind windows nan s) (hnd : excluded.Nodup)
    (hexcl : ∀ value, value ∈ excluded ↔
      (∃ r ∈ rs, value ∈ r.enumerated) ∧ FloatValueSpace.contains ⟨kind, windows, nan, excluded⟩
      value = true) :
    FloatValueSpace.Exact rs ⟨kind, windows, nan, excluded⟩ ↔ ∀ value, kind.IsValue value →
      (FloatValueSpace.contains ⟨kind, windows, nan, excluded⟩ value = true ↔
        ∀ r ∈ rs, r.isRestriction = true → valueInRange value r.toRange = some true) := by
  refine ⟨FloatValueSpace.Exact.contains_iff, fun hcont => ?_⟩
  obtain ⟨hall, hmem⟩ := hcov.allValues_spec
  have hin : ∀ value, FloatValueSpace.contains ⟨kind, windows, nan, excluded⟩ value = true ↔
    ∃ k ∈ kind.key value, k ∈ s :=
    fun value => Datatypes.contains_iff hcov
  have hsub : ∀ value ∈ excluded, value ∈ allValues kind windows nan := by
    intro value hval
    obtain ⟨⟨r, hr, henumerated⟩, hcontained⟩ := (hexcl value).mp hval
    rw [hin] at hcontained
    obtain ⟨k, hkey, hk⟩ := hcontained
    exact (hmem value).mpr ⟨r.isValue_of_mem henumerated (by rw [hkey]; rfl), k, hkey, hk⟩
  have hvals : FloatValueSpace.values ⟨kind, windows, nan, excluded⟩ =
      (allValues kind windows nan).filter fun value => !excluded.contains value := by
    rw [FloatValueSpace.values, allValues, runKeys, map_flatMap]
  have htotal : FloatValueSpace.total ⟨kind, windows, nan, excluded⟩ =
      (allValues kind windows nan).length := by
    rw [FloatValueSpace.total, allValues, length_append, length_map, hcov.length_runKeys,
      Nat.add_comm]
    cases nan <;> rfl
  have hlen := length_filter_not_contains hall hnd hsub
  have hlst : ∀ value, value ∈ FloatValueSpace.values ⟨kind, windows, nan, excluded⟩ ↔
    kind.IsValue value ∧
      FloatValueSpace.contains ⟨kind, windows, nan, excluded⟩ value = true ∧ ∀ r ∈ rs,
        value ∉ r.enumerated := by
    intro value
    rw [hvals, mem_filter, hmem, ← hin, Bool.not_eq_true', contains_eq_mem,
        decide_eq_false_iff_not, hexcl,
      and_assoc]
    refine and_congr_right fun _ => and_congr_right fun hcontained => ?_
    simp [hcontained]
  have hdist : (FloatValueSpace.values ⟨kind, windows, nan, excluded⟩).Nodup := by
    rw [hvals]
    exact hall.filter _
  refine ⟨hcont, hcov.tiles.disjoint, hcov.le, ?_, ?_, hdist, hlst⟩
  · rw [htotal, ← hlen]
    exact Nat.le_add_left _ _
  · have hset : {value | kind.IsValue value ∧
        FloatValueSpace.contains ⟨kind, windows, nan, excluded⟩ value = true ∧
          ∀ r ∈ rs, value ∉ r.enumerated} =
        ((FloatValueSpace.values ⟨kind, windows, nan, excluded⟩).toFinset : Set DataValue) := by
      ext value
      rw [coe_toFinset]
      exact (hlst value).symm
    rw [hset, Set.ncard_coe_finset, toFinset_card_of_nodup hdist, FloatValueSpace.count,
      htotal, hvals]
    change (allValues kind windows nan).length - excluded.length = _
    omega

/-- The order keys are as they should be; and the space of a conjunction with a positive range is
exact if and only if the open ends at both infinities are settled. -/
theorem floatValueSpace_exact_iff (kind : FloatKind) (rs : List (FloatRange kind))
    (hpositive : ∃ r ∈ rs, r.toPositive.isSome = true) :
    (IsOrderKey floatMantissa f32OrderKey f32FromOrderKey ∧
      IsOrderKey doubleMantissa f64OrderKey f64FromOrderKey ∧
        ∃ space, floatValueSpace (rs.map FloatRange.toRange) kind = some space ∧ space.Exact rs) ↔
      ∀ v, isInfinite kind.mantissa v = true → OpenEndsSettled rs v := by
  obtain ⟨windows, nan, excluded, s, hsp, hcov, hs, hnd, hexcl⟩ := floatValueSpace_eq hpositive
  have hkeys : IsOrderKey floatMantissa f32OrderKey f32FromOrderKey ∧
    IsOrderKey doubleMantissa f64OrderKey f64FromOrderKey :=
    ⟨isOrderKey_orderKey (by decide) _, isOrderKey_orderKey (by decide) _⟩
  have hspl : (∃ space, floatValueSpace (rs.map FloatRange.toRange) kind = some space ∧
    space.Exact rs) ↔ FloatValueSpace.Exact rs ⟨kind, windows, nan, excluded⟩ := by
    rw [hsp]
    simp
  rw [← and_assoc, and_iff_right hkeys, hspl, exact_iff hcov hnd hexcl]
  have hbits : ∀ v, FloatValueSpace.contains ⟨kind, windows, nan, excluded⟩ (kind.ofBits v) = true ↔
      ∀ r ∈ rs, (∀ p ∈ r.toPositive, p.Admits (kind.keyOf v)) ∧ ∀ n ∈ r.toNegated,
        ¬ n.Admits (kind.keyOf v) := by
    intro v
    rw [contains_iff hcov, kind.key_ofBits]
    simp only [mem_def, some.injEq, exists_eq_left', hs]
    refine and_iff_right_of_imp fun _ key hkey => ?_
    obtain ⟨hnan, rfl⟩ := FloatKind.keyOf_eq_some hkey
    exact mem_windowDen_keys.mp hnan
  constructor
  · intro h v hinfinite
    rw [openEndsSettled_iff, ← hbits]
    refine h _ ⟨v, rfl, fun hnan => ?_⟩
    rw [(isInfinite_iff kind.isFormat.width_pos).mp hinfinite,
      isNan_infinity kind.isFormat.width_pos] at hnan
    cases hnan
  · rintro h _ ⟨v, rfl, -⟩
    rw [hbits, ← openEndsSettled_iff]
    by_cases hinfinite : isInfinite kind.mantissa v = true
    · exact h v hinfinite
    · -- Only infinities are open ends.
      have hend : ∀ p : FloatRestriction kind, ¬ p.SatisfiedUpTo v := fun p hp => by
        obtain ⟨f, -, hf⟩ := hp.2
        exact hinfinite hf.1
      exact .inr (iff_of_false (fun ⟨_, _, p, _, hp⟩ => hend p hp)
        fun ⟨_, _, n, _, hn⟩ => hend n hn)

theorem canonical_half : ∀ v ∈ FloatKind.float.toBits (.float 0x3f000000#32),
    isNan FloatKind.float.mantissa v = true → v = FloatKind.float.nanBits := by
  rintro v ⟨⟩ hnan
  exact absurd hnan (by decide)

/-- The numbers from 0 on and below 1, except 0.5 and a literal without a value. -/
def belowOne : List (FloatRange .float) :=
  [.restriction ⟨[(.minInclusive, 0#32)]⟩, .negatedRestriction ⟨[(.minInclusive, 0x3f800000#32)]⟩,
    .negatedEnumeration [some ⟨.float 0x3f000000#32, canonical_half⟩, none]]

/-- The numbers from zero on. -/
theorem floatValueSpace_exact_iff_nonnegative :
    ∃ space, floatValueSpace (belowOne.map FloatRange.toRange) .float = some space ∧
      space.Exact belowOne := by
  have hend : ∀ v : BitVec FloatKind.float.width, ∀ p : FloatRestriction .float,
      (∀ f ∈ p.facets, f.1 = .minInclusive) → ¬ p.SatisfiedUpTo v := by
    rintro v p hfac ⟨-, f, hf, hopen⟩
    have hfacet := hopen.2.2
    rw [hfac f hf] at hfacet
    split at hfacet <;> cases hfacet
  refine ((floatValueSpace_exact_iff .float belowOne ⟨_, mem_cons_self, rfl⟩).mpr ?_).2.2
  refine fun v _ => .inr (iff_of_false ?_ ?_)
  · rintro ⟨r, hr, p, hp, hdefect⟩
    fin_cases hr <;> cases hp
    exact hend v _ (by simp) hdefect
  · rintro ⟨r, hr, n, hn, hdefect⟩
    fin_cases hr <;> cases hn
    exact hend v _ (by simp) hdefect

/-- Nothing is above infinity, but the code takes infinity to be. -/
theorem floatValueSpace_above_infinity :
    ¬ ∃ space, floatValueSpace ([(.restriction ⟨[(.minExclusive, 0x7f800000#32)]⟩ : FloatRange
      .float)].map FloatRange.toRange) .float = some space ∧ space.Exact
        [(.restriction ⟨[(.minExclusive, 0x7f800000#32)]⟩ : FloatRange .float)] := by
  rintro ⟨space, hsp, hexact⟩
  have hval : FloatKind.float.IsValue (.float 0x7f800000#32) :=
    ⟨_, rfl, fun h => absurd h (by decide +kernel)⟩
  have hrng : valueInRange (.float 0x7f800000#32)
      (.restriction ⟨[(.minExclusive, 0x7f800000#32)]⟩ : FloatRange .float).toRange = some true :=
        by decide +kernel
  have hemp : floatValueSpace ([(.restriction ⟨[(.minExclusive, 0x7f800000#32)]⟩ : FloatRange
    .float)].map FloatRange.toRange) .float = some ⟨.float, [], false, []⟩ := by rfl
  cases hsp.symm.trans hemp
  have hcontained := (hexact.contains_iff _ hval).mpr fun r hr _ => by
    cases mem_singleton.mp hr
    exact hrng
  cases hcontained

end exactness

end Hermit.Datatypes
