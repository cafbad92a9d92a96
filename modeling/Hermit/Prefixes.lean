import Hermit.Library.Sorted

/-! # Prefixes

A table from prefix names to prefix IRIs, the table back, and the prefix IRIs in the order in which
they are tried, the longest first.  The way back is not cleaned up when a name gets another IRI, and
a name may contain further colons or start with `<`; what that means for expanding an abbreviation
again is stated exactly.
-/

namespace Hermit

open List hiding le_total
open Option

/-! ## Local names -/

def pnCharsBase : List (Char × Char) :=
  [('A', 'Z'), ('a', 'z'), ('\u00C0', '\u00D6'), ('\u00D8', '\u00F6'), ('\u00F8', '\u02FF'),
    ('\u0370', '\u037D'), ('\u037F', '\u1FFF'), ('\u200C', '\u200D'), ('\u2070', '\u218F'),
    ('\u2C00', '\u2FEF'), ('\u3001', '\uD7FF'), ('\uF900', '\uFDCF'), ('\uFDF0', '\uFFFD')]

def pnChars : List (Char × Char) :=
  [('A', 'Z'), ('a', 'z'), ('0', '9'), ('_', '_'), ('\u002D', '\u002D'), ('\u00B7', '\u00B7'),
    ('\u00C0', '\u00D6'), ('\u00D8', '\u00F6'), ('\u00F8', '\u02FF'), ('\u0300', '\u036F'),
    ('\u0370', '\u037D'), ('\u037F', '\u1FFF'), ('\u200C', '\u200D'), ('\u203F', '\u2040'),
    ('\u2070', '\u218F'), ('\u2C00', '\u2FEF'), ('\u3001', '\uD7FF'), ('\uF900', '\uFDCF'),
      ('\uFDF0', '\uFFFD')]

def inRanges (ranges : List (Char × Char)) (c : Char) : Bool :=
  ranges.any fun range => decide (range.1 ≤ c) && decide (c ≤ range.2)

/-- The first character, any characters and dots, and a last character that is no dot. -/
def isValidLocalName : List Char → Bool
  | [] => false
  | c :: rest =>
    (inRanges pnCharsBase c || c == '_' || inRanges [('0', '9')] c) &&
      (rest.isEmpty || (rest.dropLast.all fun c => inRanges pnChars c || c == '.') &&
        rest.getLast?.any (inRanges pnChars))

/-! ## The tables -/

structure Prefixes where
  prefixIrisByPrefixName : AList fun _ : List Char => List Char
  prefixNamesByPrefixIri : AList fun _ : List Char => List Char
  prefixIriMatchingOrder : List (List Char × List Char)
  immutable : Bool

/-- The length in bytes. -/
def utf8Length (s : List Char) : ℕ := (s.map Char.utf8Size).sum

/-- A text up to its first colon, and the rest. -/
def splitAtColon (s : List Char) : Option (List Char × List Char) :=
  (s.idxOf? ':').map fun pos => (s.take (pos + 1), s.drop (pos + 1))

def semanticWebPrefixes : AList fun _ : List Char => List Char :=
  [("rdf:", "http://www.w3.org/1999/02/22-rdf-syntax-ns#"),
      ("rdfs:", "http://www.w3.org/2000/01/rdf-schema#"),
    ("owl:", "http://www.w3.org/2002/07/owl#"), ("xsd:", "http://www.w3.org/2001/XMLSchema#"),
    ("swrl:", "http://www.w3.org/2003/11/swrl#"), ("swrlb:", "http://www.w3.org/2003/11/swrlb#"),
    ("swrlx:", "http://www.w3.org/2003/11/swrlx#"),
      ("ruleml:", "http://www.w3.org/2003/11/ruleml#")].foldl
    (fun m e => m.insert e.1.toList e.2.toList) ∅

namespace Prefixes

def new : Prefixes := ⟨∅, ∅, [], false⟩

/-- The prefix IRIs in their own order, then sorted by length. -/
def matchingOrder (prefixNamesByPrefixIri : AList fun _ : List Char => List Char) :
    List (List Char × List Char) :=
  ((orderedEntries (· ≤ ·) prefixNamesByPrefixIri).map fun e => (e.2, e.1)).insertionSort
    fun lhs rhs => utf8Length rhs.2 ≤ utf8Length lhs.2

variable (p : Prefixes)

def buildPrefixIriMatchingPattern : Prefixes :=
  { p with prefixIriMatchingOrder := matchingOrder p.prefixNamesByPrefixIri }

/-- The first prefix IRI decides, even if what is left is no local name. -/
def abbreviateBy (iri : List Char) : List (List Char × List Char) → List Char
  | [] => '<' :: iri ++ ['>']
  | (name, prefixIri) :: order =>
    if prefixIri.isPrefixOf iri then
      if isValidLocalName (iri.drop prefixIri.length) then name ++ iri.drop prefixIri.length
      else '<' :: iri ++ ['>']
    else abbreviateBy iri order

def abbreviateIri (iri : List Char) : List Char := abbreviateBy iri p.prefixIriMatchingOrder

def expandAbbreviatedIri (abbreviation : List Char) : Except String (List Char) :=
  let text := String.ofList abbreviation
  if abbreviation.head? = some '<' then
    if abbreviation.getLast? ≠ some '>' then
      .error ("The string '" ++ text ++
        "' is not a valid abbreviation: IRIs must be enclosed in '<' and '>'.")
    else .ok (abbreviation.drop 1).dropLast
  else
    match splitAtColon abbreviation with
    | some (name, rest) =>
      match p.prefixIrisByPrefixName.lookup name with
      | some prefixIri => .ok (prefixIri ++ rest)
      | none =>
        if name = "http:".toList then
          .error ("The IRI '" ++ text ++
            "' must be enclosed in '<' and '>' to be used as an abbreviation.")
        else .error ("The string '" ++ String.ofList name ++ "' is not a registered prefix name.")
    | none =>
      .error ("The abbreviation '" ++ text ++ "' is not valid (it does not start with a colon).")

/-- Whether the name is new, and the tables with the declaration. -/
def declarePrefixRaw (prefixName prefixIri : List Char) : Except String (Bool × Prefixes) :=
  if p.immutable then .error "The well-known standard Prefix instance cannot be modified."
  else if prefixName.getLast? ≠ some ':' then
    .error ("Prefix name '" ++ String.ofList prefixName ++ "' should end with a colon character.")
  else
    let declared : Except String (Bool × Prefixes) :=
        .ok ((p.prefixIrisByPrefixName.lookup prefixName).isNone,
      { p with
        prefixNamesByPrefixIri := p.prefixNamesByPrefixIri.insert prefixIri prefixName
        prefixIrisByPrefixName := p.prefixIrisByPrefixName.insert prefixName prefixIri })
    match p.prefixNamesByPrefixIri.lookup prefixIri with
    | some existing =>
      if existing ≠ prefixName then
        .error ("The prefix IRI '" ++ String.ofList prefixIri ++
          "' has already been associated with the prefix name '" ++ String.ofList existing ++ "'.")
      else declared
    | none => declared

def declarePrefix (prefixName prefixIri : List Char) : Except String (Bool × Prefixes) := do
  let (containsPrefix, p) ← p.declarePrefixRaw prefixName prefixIri
  return (containsPrefix, p.buildPrefixIriMatchingPattern)

/-- A declaration whose error is ignored. -/
def tryDeclare (declaration : List Char × List Char) : Prefixes :=
  match p.declarePrefixRaw declaration.1 declaration.2 with
  | .ok (_, p) => p
  | .error _ => p

def declaresNew (declaration : List Char × List Char) : Bool :=
  match p.declarePrefixRaw declaration.1 declaration.2 with
  | .ok (isNew, _) => isNew
  | .error _ => false

/-- Declare one after the other, and tell whether some name was new. -/
def declareEach (declarations : List (List Char × List Char)) : Bool × Prefixes :=
  declarations.foldl (fun acc declaration =>
      (acc.1 || acc.2.declaresNew declaration, acc.2.tryDeclare declaration))
    (false, p)

def declareAll (declarations : List (List Char × List Char)) : Bool × Prefixes :=
  ((p.declareEach declarations).1, (p.declareEach declarations).2.buildPrefixIriMatchingPattern)

/-- The entries of a name table in the order of the names. -/
def declarationsOf (prefixIrisByPrefixName : AList fun _ : List Char => List Char) :
    List (List Char × List Char) :=
  (orderedEntries (· ≤ ·) prefixIrisByPrefixName).map fun e => (e.1, e.2)

def declareSemanticWebPrefixes : Bool × Prefixes :=
  p.declareAll (declarationsOf semanticWebPrefixes)

/-- A name for every individual, numbered from the second on. -/
def individualDeclarations (name prefixIri : String) (iris : List (List Char)) :
    List (List Char × List Char) :=
  iris.mapIdx fun index iri =>
    (name.toList ++ (if index = 0 then [] else (toString (index + 1)).toList) ++ [':'],
      prefixIri.toList ++ iri)

def internalDeclarations (individualIris anonIndividualIris : List (List Char)) :
    List (List Char × List Char) :=
  [("def:".toList, "internal:def#".toList), ("defdata:".toList, "internal:defdata#".toList),
    ("nnq:".toList, "internal:nnq#".toList), ("all:".toList, "internal:all#".toList),
    ("swrl:".toList, "internal:swrl#".toList), ("prop:".toList, "internal:prop#".toList)] ++
    individualDeclarations "nom" "internal:nom#" individualIris ++
    individualDeclarations "anon" "internal:anon#" anonIndividualIris ++
    [("nam:".toList, "internal:nam#".toList)]

def declareInternalPrefixes (individualIris anonIndividualIris : List (List Char)) :
    Bool × Prefixes :=
  p.declareAll (internalDeclarations individualIris anonIndividualIris)

def addPrefixes (other : Prefixes) : Bool × Prefixes :=
  p.declareAll (declarationsOf other.prefixIrisByPrefixName)

/-- The shared instance, which cannot be changed. -/
def standard : Prefixes :=
  { (new.declareAll (declarationsOf semanticWebPrefixes)).2 with immutable := true }

/-! ## Longest prefixes -/

variable {p}

theorem utf8Length_lt {a b : List Char} (h : a <+: b) (hne : a ≠ b) :
    utf8Length a < utf8Length b := by
  obtain ⟨rest, rfl⟩ := h
  cases rest with
  | nil => exact absurd (append_nil a).symm hne
  | cons c rest =>
    have hpos := c.utf8Size_pos
    simp only [utf8Length, map_append, map_cons, sum_append, sum_cons]
    omega

/-- Of two prefixes of a text the shorter one is a prefix of the other. -/
theorem prefix_of_utf8Length_le {a b s : List Char} (ha : a <+: s) (hb : b <+: s)
    (hle : utf8Length a ≤ utf8Length b) :
    a <+: b := by
  rcases prefix_or_prefix_of_prefix ha hb with h | h
  · exact h
  · by_cases hne : b = a
    · exact hne ▸ prefix_refl _
    · exact absurd (utf8Length_lt h hne) (by omega)

theorem pairwise_matchingOrder (names : AList fun _ : List Char => List Char) :
    (matchingOrder names).Pairwise fun lhs rhs => utf8Length rhs.2 ≤ utf8Length lhs.2 := by
  have : Std.Total fun lhs rhs : List Char × List Char => utf8Length rhs.2 ≤ utf8Length lhs.2 :=
    ⟨fun lhs rhs => le_total _ _⟩
  have : IsTrans (List Char × List Char) fun lhs rhs => utf8Length rhs.2 ≤ utf8Length lhs.2 :=
    ⟨fun a b c hab hbc => hbc.trans hab⟩
  exact pairwise_insertionSort _ _

theorem mem_matchingOrder {names : AList fun _ : List Char => List Char}
    {e : List Char × List Char} :
    e ∈ matchingOrder names ↔ names.lookup e.2 = some e.1 := by
  rw [matchingOrder, mem_insertionSort, ← mem_def, AList.mem_lookup_iff]
  simp only [List.mem_map, mem_orderedEntries]
  constructor
  · rintro ⟨entry, hent, rfl⟩
    exact hent
  · exact fun hent => ⟨_, hent, rfl⟩

/-- The longest declared prefix IRI of an IRI, and the name it is registered with. -/
structure Longest (p : Prefixes) (iri prefixIri name : List Char) : Prop where
  declared : p.prefixNamesByPrefixIri.lookup prefixIri = some name
  isPrefix : prefixIri <+: iri
  longest : ∀ other name', p.prefixNamesByPrefixIri.lookup other = some name' → other <+: iri →
    other <+: prefixIri

variable {name : List Char}

theorem Longest.unique {iri prefixIri prefixIri' name' : List Char}
    (h : p.Longest iri prefixIri name)
    (h' : p.Longest iri prefixIri' name') : prefixIri = prefixIri' ∧ name = name' := by
  have heq : prefixIri = prefixIri' :=
    (h'.longest _ _ h.declared h.isPrefix).eq_of_length_le
      (h.longest _ _ h'.declared h'.isPrefix).length_le
  subst heq
  exact ⟨rfl, some.inj (h.declared.symm.trans h'.declared)⟩

/-- In a list sorted by length the first prefix is the longest one. -/
theorem abbreviateBy_cases (iri : List Char) {order : List (List Char × List Char)}
    (hsort : order.Pairwise fun lhs rhs => utf8Length rhs.2 ≤ utf8Length lhs.2) :
    ((∀ e ∈ order, ¬ e.2 <+: iri) ∧ abbreviateBy iri order = '<' :: iri ++ ['>']) ∨
      ∃ e ∈ order, e.2 <+: iri ∧ (∀ e' ∈ order, e'.2 <+: iri → e'.2 <+: e.2) ∧
        abbreviateBy iri order = if isValidLocalName (iri.drop e.2.length) then e.1 ++
        iri.drop e.2.length else '<' :: iri ++ ['>'] := by
  induction order with
  | nil => exact .inl ⟨nofun, rfl⟩
  | cons e order ih =>
    obtain ⟨hle, hsort⟩ := pairwise_cons.mp hsort
    rw [abbreviateBy]
    split
    · rename_i hbeg
      rw [ isPrefixOf_iff_prefix] at hbeg
      refine .inr ⟨e, mem_cons_self, hbeg, fun e' he' hbeg' => ?_, rfl⟩
      rcases mem_cons.mp he' with rfl | he'
      · exact prefix_refl _
      · exact prefix_of_utf8Length_le hbeg' hbeg (hle e' he')
    · rename_i hbeg
      rw [ isPrefixOf_iff_prefix] at hbeg
      rcases ih hsort with ⟨hnone, heq⟩ | ⟨e', he', hbeg', hlong, heq⟩
      · exact .inl ⟨forall_mem_cons.mpr ⟨hbeg, hnone⟩, heq⟩
      · exact .inr ⟨e', mem_cons_of_mem _ he', hbeg',
          forall_mem_cons.mpr ⟨fun h => absurd h hbeg, hlong⟩, heq⟩

theorem splitAtColon_append {s start rest : List Char} (h : splitAtColon s = some (start, rest))
    (l : List Char) :
    splitAtColon (s ++ l) = some (start, rest ++ l) := by
  unfold splitAtColon at h ⊢
  obtain ⟨pos, hpos, heq⟩ := map_eq_some_iff.mp h
  have hlt : pos < s.length := by
    obtain ⟨hlt, -⟩ := findIdx?_eq_some_iff_getElem.mp hpos
    exact hlt
  have happ : (s ++ l).idxOf? ':' = some pos := by
    rw [List.idxOf?, findIdx?_append, ← List.idxOf?, hpos]
    rfl
  cases heq
  rw [happ, map_some, take_append_of_le_length (by omega), drop_append_of_le_length (by omega)]

theorem exists_splitAtColon (hname : name.getLast? = some ':') :
    ∃ start rest, splitAtColon name = some (start, rest) := by
  have hmem : ':' ∈ name := mem_of_getLast? hname
  have hsome : (name.idxOf? ':').isSome := by
    rw [List.idxOf?, findIdx?_isSome, List.any_eq_true]
    exact ⟨':', hmem, rfl⟩
  obtain ⟨pos, hpos⟩ := isSome_iff_exists.mp hsome
  exact ⟨name.take (pos + 1), name.drop (pos + 1), by rw [splitAtColon, hpos]; rfl⟩

theorem expandAbbreviatedIri_bracketed (iri : List Char) :
    p.expandAbbreviatedIri ('<' :: iri ++ ['>']) = .ok iri := by
  have hlast : ('<' :: iri ++ ['>']).getLast? = some '>' := getLast?_concat
  have hhead : ('<' :: iri ++ ['>']).head? = some '<' := rfl
  rw [expandAbbreviatedIri, if_pos hhead, if_neg (not_not.mpr hlast)]
  simp

/-- No local name ends with `>`. -/
theorem getLast?_of_isValidLocalName {l : List Char} (hl : isValidLocalName l = true) :
    l ≠ [] ∧ l.getLast? ≠ some '>' := by
  cases l with
  | nil => cases hl
  | cons c rest =>
    refine ⟨cons_ne_nil _ _, fun hlast => ?_⟩
    simp only [isValidLocalName, Bool.and_eq_true, Bool.or_eq_true] at hl
    obtain ⟨hfst, hrest⟩ := hl
    cases rest using List.reverseRecOn with
    | nil =>
      obtain rfl : c = '>' := some.inj hlast
      revert hfst
      decide
    | append_singleton rest c' =>
      rw [← cons_append, getLast?_concat] at hlast
      obtain rfl := some.inj hlast
      have hpn : inRanges pnChars '>' = true := by
        simp at hrest
        exact hrest.2
      revert hpn
      decide

/-- When the abbreviation by a name means the IRI again: the name does not start with `<`, and the
IRI registered for the name up to its first colon, with the rest of the name, is the prefix IRI. -/
structure NameMeans (p : Prefixes) (name prefixIri : List Char) : Prop where
  head : name.head? ≠ some '<'
  expands : ∃ start rest declared, splitAtColon name = some (start, rest) ∧
    p.prefixIrisByPrefixName.lookup start = some declared ∧ declared ++ rest = prefixIri

theorem expandAbbreviatedIri_name {prefixIri l : List Char} (hname : name.getLast? = some ':')
    (hl : isValidLocalName l = true) :
    p.expandAbbreviatedIri (name ++ l) = .ok (prefixIri ++ l) ↔ p.NameMeans name prefixIri := by
  obtain ⟨hne, hlast⟩ := getLast?_of_isValidLocalName hl
  have hhead : (name ++ l).head? = name.head? := by
    cases name with
    | nil => cases hname
    | cons c name => rfl
  obtain ⟨start, rest, hspl⟩ := exists_splitAtColon hname
  rw [expandAbbreviatedIri, hhead, getLast?_append_of_ne_nil _ hne, splitAtColon_append hspl]
  by_cases hbracket : name.head? = some '<'
  · rw [if_pos hbracket, if_pos hlast]
    exact ⟨nofun, fun h => absurd hbracket h.head⟩
  · rw [if_neg hbracket]
    cases hdeclared : p.prefixIrisByPrefixName.lookup start with
    | none =>
      simp only [hdeclared]
      constructor
      · intro h
        split at h <;> cases h
      · rintro ⟨-, start', rest', declared, hspl', hlook, -⟩
        cases hspl.symm.trans hspl'
        cases hdeclared.symm.trans hlook
    | some declared =>
      simp only [hdeclared, Except.ok.injEq]
      rw [← append_assoc, append_left_inj]
      constructor
      · exact fun h => ⟨hbracket, start, rest, declared, hspl, hdeclared, h⟩
      · rintro ⟨-, start', rest', declared', hspl', hlook, h⟩
        cases hspl.symm.trans hspl'
        cases hdeclared.symm.trans hlook
        exact h

/-! ## What every sequence of declarations keeps -/

/-- The order is that of the table, and every name ends with a colon. -/
structure Kept (p : Prefixes) : Prop where
  order : p.prefixIriMatchingOrder = matchingOrder p.prefixNamesByPrefixIri
  names : ∀ prefixIri name, p.prefixNamesByPrefixIri.lookup prefixIri = some name →
    name.getLast? = some ':'

/-- The condition under which an IRI is found again from its abbreviation: if the longest prefix IRI
leaves a local name, then its name means it. -/
def Recovers (p : Prefixes) (iri : List Char) : Prop :=
  ∀ prefixIri name, p.Longest iri prefixIri name →
    isValidLocalName (iri.drop prefixIri.length) = true →
    p.NameMeans name prefixIri

theorem Kept.expand_iff_recovers (h : p.Kept) (iri : List Char) :
    p.expandAbbreviatedIri (p.abbreviateIri iri) = .ok iri ↔ p.Recovers iri := by
  have hcases := abbreviateBy_cases iri (pairwise_matchingOrder p.prefixNamesByPrefixIri)
  rw [← h.order] at hcases
  have hmem : ∀ e : List Char × List Char, e ∈ p.prefixIriMatchingOrder ↔
      p.prefixNamesByPrefixIri.lookup e.2 = some e.1 := by
    rw [h.order]
    exact fun e => mem_matchingOrder
  rw [abbreviateIri]
  rcases hcases with ⟨hnone, heq⟩ | ⟨⟨name, prefixIri⟩, he, hbeg, hlong, heq⟩
  · rw [heq, expandAbbreviatedIri_bracketed]
    refine ⟨fun _ prefixIri name hlong => ?_, fun _ => rfl⟩
    exact absurd hlong.isPrefix (hnone (name, prefixIri) ((hmem _).mpr hlong.declared))
  · have hthis : p.Longest iri prefixIri name :=
      ⟨(hmem _).mp he, hbeg, fun other name' hoth =>
          hlong (name', other) ((hmem _).mpr hoth)⟩
    rw [heq]
    split
    · rename_i hval
      have hiri : iri = prefixIri ++ iri.drop prefixIri.length :=
        (prefix_iff_eq_append.mp hbeg).symm
      have hexpand : p.expandAbbreviatedIri (name ++ iri.drop prefixIri.length) =
          .ok (prefixIri ++ iri.drop prefixIri.length) ↔ p.NameMeans name prefixIri :=
        expandAbbreviatedIri_name (h.names _ _ hthis.declared) hval
      rw [← hiri] at hexpand
      rw [hexpand]
      constructor
      · intro hmeans prefixIri' name' hlong' _
        obtain ⟨rfl, rfl⟩ := hthis.unique hlong'
        exact hmeans
      · exact fun hrecovers => hrecovers prefixIri name hthis hval
    · rename_i hval
      rw [expandAbbreviatedIri_bracketed]
      refine ⟨fun _ prefixIri' name' hlong' hval' => ?_, fun _ => rfl⟩
      obtain ⟨rfl, rfl⟩ := hthis.unique hlong'
      exact absurd hval' hval

/-- A declaration is refused, or both tables get it and the name ends with a colon. -/
theorem tryDeclare_cases (p : Prefixes) (declaration : List Char × List Char) :
    p.tryDeclare declaration = p ∨ declaration.1.getLast? = some ':' ∧ p.tryDeclare declaration =
        { p with
          prefixNamesByPrefixIri := p.prefixNamesByPrefixIri.insert declaration.2 declaration.1
          prefixIrisByPrefixName := p.prefixIrisByPrefixName.insert declaration.1 declaration.2 } :=
            by
  unfold tryDeclare declarePrefixRaw
  by_cases himmutable : p.immutable = true
  · rw [if_pos himmutable]
    exact .inl rfl
  · rw [if_neg himmutable]
    by_cases hname : declaration.1.getLast? = some ':'
    · rw [if_neg (not_not.mpr hname)]
      cases hexisting : p.prefixNamesByPrefixIri.lookup declaration.2 with
      | none => exact .inr ⟨hname, rfl⟩
      | some existing =>
        by_cases hsame : existing = declaration.1
        · simp only [if_neg (not_not.mpr hsame)]
          exact .inr ⟨hname, trivial⟩
        · simp only [if_pos hsame]
          exact .inl trivial
    · rw [if_pos hname]
      exact .inl rfl

theorem declareEach_snd (p : Prefixes) (declarations : List (List Char × List Char)) :
    (p.declareEach declarations).2 = declarations.foldl tryDeclare p := by
  have hfold : ∀ (b : Bool) (p : Prefixes), (declarations.foldl (fun acc declaration =>
      (acc.1 || acc.2.declaresNew declaration, acc.2.tryDeclare declaration)) (b, p)).2 =
        declarations.foldl tryDeclare p := by
    induction declarations with
    | nil => exact fun _ _ => rfl
    | cons declaration declarations ih => exact fun b p => ih _ _
  exact hfold false p

inductive Operation where
  | declarePrefix (prefixName prefixIri : List Char)
  | declareSemanticWebPrefixes
  | declareInternalPrefixes (individualIris anonIndividualIris : List (List Char))
  | addPrefixes (other : Prefixes)

/-- The tables after an operation; one that is refused changes nothing. -/
def Operation.apply (p : Prefixes) : Operation → Prefixes
  | .declarePrefix prefixName prefixIri =>
    match p.declarePrefix prefixName prefixIri with
    | .ok (_, p) => p
    | .error _ => p
  | .declareSemanticWebPrefixes => p.declareSemanticWebPrefixes.2
  | .declareInternalPrefixes individualIris anonIndividualIris =>
    (p.declareInternalPrefixes individualIris anonIndividualIris).2
  | .addPrefixes other => (p.addPrefixes other).2

/-- What an operation declares, in this order. -/
def Operation.declarations : Operation → List (List Char × List Char)
  | .declarePrefix prefixName prefixIri => [(prefixName, prefixIri)]
  | .declareSemanticWebPrefixes => declarationsOf semanticWebPrefixes
  | .declareInternalPrefixes individualIris anonIndividualIris =>
    internalDeclarations individualIris anonIndividualIris
  | .addPrefixes other => declarationsOf other.prefixIrisByPrefixName

/-- Every operation declares one after the other and rebuilds the order. -/
theorem Kept.apply_eq (h : p.Kept) (op : Operation) :
    op.apply p = (op.declarations.foldl tryDeclare p).buildPrefixIriMatchingPattern := by
  have hall : ∀ declarations, (p.declareAll declarations).2 =
      (declarations.foldl tryDeclare p).buildPrefixIriMatchingPattern := by
    intro declarations
    rw [declareAll, declareEach_snd]
  cases op with
  | declarePrefix prefixName prefixIri =>
    simp only [Operation.apply, Operation.declarations, foldl_cons, foldl_nil,
      declarePrefix, tryDeclare]
    cases p.declarePrefixRaw prefixName prefixIri with
    | ok declared => rfl
    | error message =>
      rw [buildPrefixIriMatchingPattern, ← h.order]
      rfl
  | declareSemanticWebPrefixes | declareInternalPrefixes individualIris anonIndividualIris
  | addPrefixes other => exact hall _

def NamesEndWithColon (p : Prefixes) : Prop :=
  ∀ prefixIri name, p.prefixNamesByPrefixIri.lookup prefixIri = some name → name.getLast? = some ':'

theorem NamesEndWithColon.foldl (h : p.NamesEndWithColon)
    (declarations : List (List Char × List Char)) :
    (declarations.foldl tryDeclare p).NamesEndWithColon := by
  induction declarations generalizing p with
  | nil => exact h
  | cons declaration declarations ih =>
    refine ih ?_
    rcases tryDeclare_cases p declaration with heq | ⟨hname, heq⟩
    · rw [heq]
      exact h
    · rw [heq]
      intro prefixIri name hlook
      by_cases hsame : prefixIri = declaration.2
      · subst hsame
        rw [AList.lookup_insert] at hlook
        exact some.inj hlook ▸ hname
      · rw [AList.lookup_insert_ne hsame] at hlook
        exact h prefixIri name hlook

theorem kept_new : new.Kept := ⟨rfl, nofun⟩

/-- The order of a table that is not changed any more is kept. -/
theorem NamesEndWithColon.kept (h : p.NamesEndWithColon) :
    Kept { p.buildPrefixIriMatchingPattern with immutable := true } := ⟨rfl, h⟩

theorem standard_eq : standard =
    { ((declarationsOf semanticWebPrefixes).foldl tryDeclare
      new).buildPrefixIriMatchingPattern with immutable := true } := by
  rw [standard, declareAll, declareEach_snd]

theorem kept_standard : standard.Kept := by
  rw [standard_eq]
  exact (NamesEndWithColon.foldl kept_new.names _).kept

theorem Kept.apply (h : p.Kept) (op : Operation) : (op.apply p).Kept := by
  rw [h.apply_eq]
  exact ⟨rfl, NamesEndWithColon.foldl h.names op.declarations⟩

theorem Kept.run (h : p.Kept) (ops : List Operation) : (ops.foldl Operation.apply p).Kept := by
  induction ops generalizing p with
  | nil => exact h
  | cons op ops ih => exact ih (h.apply op)

/-! ## Declarations that keep every IRI recoverable -/

/-- A name with its only colon at the end, and none that starts with `<`. -/
def isPlainName (name : List Char) : Bool :=
  name.head? != some '<' && name.idxOf? ':' == some (name.length - 1)

/-- Every name is plain, and is not registered with another IRI when it is declared. -/
def plainDeclarations : Prefixes → List (List Char × List Char) → Bool
  | _, [] => true
  | p, declaration :: declarations =>
    (declaration.1.getLast? != some ':' ||
      isPlainName declaration.1 && (p.prefixIrisByPrefixName.lookup declaration.1).all
        (· == declaration.2)) &&
    plainDeclarations (p.tryDeclare declaration) declarations

def PlainRun : Prefixes → List Operation → Prop
  | _, [] => True
  | p, op :: ops => plainDeclarations p op.declarations = true ∧ PlainRun (op.apply p) ops

/-- The tables are inverse to each other as far as prefix IRIs go, and the names are plain. -/
def Plain (p : Prefixes) : Prop :=
  ∀ prefixIri name, p.prefixNamesByPrefixIri.lookup prefixIri = some name →
    isPlainName name = true ∧ p.prefixIrisByPrefixName.lookup name = some prefixIri

theorem splitAtColon_of_isPlainName (hname : name.getLast? = some ':')
    (h : isPlainName name = true) :
    splitAtColon name = some (name, []) := by
  simp only [isPlainName, Bool.and_eq_true, beq_iff_eq] at h
  have hpos : 0 < name.length := length_pos_of_mem (mem_of_getLast? hname)
  rw [splitAtColon, h.2, map_some, Nat.sub_add_cancel hpos, take_length, drop_length]

theorem Plain.recovers (h : p.Plain) (hp : p.Kept) (iri : List Char) : p.Recovers iri := by
  intro prefixIri name hlong _
  obtain ⟨hplain, hlook⟩ := h prefixIri name hlong.declared
  refine ⟨?_, name, [], prefixIri,
      splitAtColon_of_isPlainName (hp.names _ _ hlong.declared) hplain, hlook,
    append_nil _⟩
  simp only [isPlainName, Bool.and_eq_true, bne_iff_ne] at hplain
  exact hplain.1

/-- One plain declaration keeps the tables inverse. -/
theorem Plain.declare (h : p.Plain) {declaration : List Char × List Char}
    (hdeclaration : declaration.1.getLast? = some ':' →
      isPlainName declaration.1 = true ∧ (p.prefixIrisByPrefixName.lookup declaration.1).all
      (· == declaration.2) = true) :
    (p.tryDeclare declaration).Plain := by
  rcases tryDeclare_cases p declaration with heq | ⟨hname, heq⟩
  · rw [heq]
    exact h
  · obtain ⟨hplain, hall⟩ := hdeclaration hname
    rw [heq]
    intro prefixIri name hlook
    by_cases hsame : prefixIri = declaration.2
    · subst hsame
      rw [AList.lookup_insert] at hlook
      obtain rfl := some.inj hlook
      exact ⟨hplain, AList.lookup_insert _⟩
    · rw [AList.lookup_insert_ne hsame] at hlook
      obtain ⟨hplain', hlook'⟩ := h prefixIri name hlook
      refine ⟨hplain', ?_⟩
      by_cases hrename : name = declaration.1
      · subst hrename
        rw [hlook'] at hall
        exact absurd (by simpa using hall) hsame
      · rw [AList.lookup_insert_ne hrename]
        exact hlook'

theorem Plain.declareEach (h : p.Plain) {declarations : List (List Char × List Char)}
    (hplain : plainDeclarations p declarations = true) :
    (declarations.foldl tryDeclare p).Plain := by
  induction declarations generalizing p with
  | nil => exact h
  | cons declaration declarations ih =>
    simp only [plainDeclarations, Bool.and_eq_true, Bool.or_eq_true, bne_iff_ne] at hplain
    exact ih (h.declare fun hname => hplain.1.resolve_left (not_not.mpr hname)) hplain.2

theorem Plain.frozen (h : p.Plain) :
    Plain { p.buildPrefixIriMatchingPattern with immutable := true } := h

theorem plain_standard : standard.Plain := by
  rw [standard_eq]
  exact (Plain.declareEach (p := new) nofun (by decide +kernel)).frozen

theorem Plain.run (h : p.Plain) (hp : p.Kept) {ops : List Operation} (hops : PlainRun p ops) :
    (ops.foldl Operation.apply p).Plain := by
  induction ops generalizing p with
  | nil => exact h
  | cons op ops ih =>
    refine ih ?_ (hp.apply op) hops.2
    rw [hp.apply_eq]
    exact h.declareEach hops.1

/-- After any declarations, an IRI is found again from its abbreviation just if the name of its
longest prefix IRI still means that IRI; and if every declared name is plain and is never given
another IRI, then every IRI is. -/
theorem expand_abbreviate {start : Prefixes} (hst : start = new ∨ start = standard)
    (ops : List Operation) :
    (∀ iri, (ops.foldl Operation.apply start).expandAbbreviatedIri
        ((ops.foldl Operation.apply start).abbreviateIri iri) = .ok iri ↔
      (ops.foldl Operation.apply start).Recovers iri) ∧
    (PlainRun start ops → ∀ iri, (ops.foldl Operation.apply start).expandAbbreviatedIri
        ((ops.foldl Operation.apply start).abbreviateIri iri) = .ok iri) := by
  have hkept : start.Kept := by
    rcases hst with rfl | rfl
    · exact kept_new
    · exact kept_standard
  have hplain : start.Plain := by
    rcases hst with rfl | rfl
    · exact nofun
    · exact plain_standard
  refine ⟨(hkept.run ops).expand_iff_recovers, fun hops iri => ?_⟩
  exact ((hkept.run ops).expand_iff_recovers iri).mpr
    ((hplain.run hkept hops).recovers (hkept.run ops) iri)

theorem expand_abbreviate_semanticWeb :
    ([Operation.declareSemanticWebPrefixes].foldl Operation.apply new).expandAbbreviatedIri
      (([Operation.declareSemanticWebPrefixes].foldl Operation.apply new).abbreviateIri
        "http://www.w3.org/2002/07/owl#Thing".toList) =
        .ok "http://www.w3.org/2002/07/owl#Thing".toList :=
  (expand_abbreviate (.inl rfl) [.declareSemanticWebPrefixes]).2 ⟨by decide +kernel, trivial⟩ _

/-- `swrl:` is a semantic web prefix and an internal one; what was abbreviated by the first is
expanded by the second. -/
theorem swrl_not_recovered :
    ∃ p : Prefixes, p = [.declareSemanticWebPrefixes, .declareInternalPrefixes [] []].foldl
    Operation.apply new ∧
      p.abbreviateIri "http://www.w3.org/2003/11/swrl#x".toList = "swrl:x".toList ∧
      p.expandAbbreviatedIri "swrl:x".toList = .ok "internal:swrl#x".toList ∧
      p.expandAbbreviatedIri (p.abbreviateIri "http://www.w3.org/2003/11/swrl#x".toList) ≠
        .ok "http://www.w3.org/2003/11/swrl#x".toList :=
  ⟨_, rfl, by decide +kernel⟩

end Prefixes
end Hermit
