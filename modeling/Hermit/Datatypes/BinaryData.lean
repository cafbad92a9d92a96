import Mathlib

/-! # Binary data

A base64 form is read by one accumulator of sextets, from which a byte is taken whenever it has
eight bits; a form that leaves bits behind is refused.  Three bytes and four sextets are the same
number, which is how reading and writing are compared.
-/

namespace Hermit.BinaryData

open List

/-! ## Writing -/

def alphabet : List Char :=
  "ABCDEFGHIJKLMNOPQRSTUVWXYZabcdefghijklmnopqrstuvwxyz0123456789+/".toList

/-- The character of the last six bits. -/
def digit (n : UInt32) : Char := alphabet.getD (n &&& 63).toNat 'A'

def encodeChunk (chunk : List UInt8) : List Char :=
  let b0 := (chunk.getD 0 0).toUInt32
  let b1 := (chunk.getD 1 0).toUInt32
  let b2 := (chunk.getD 2 0).toUInt32
  let n := b0 <<< 16 ||| b1 <<< 8 ||| b2
  [digit (n >>> 18), digit (n >>> 12), if 1 < chunk.length then digit (n >>> 6) else '=',
    if 2 < chunk.length then digit n else '=']

/-- The characters of the chunks of three bytes; the last one may be shorter. -/
def encodeChunks : List UInt8 → List Char
  | b0 :: b1 :: b2 :: bytes => encodeChunk [b0, b1, b2] ++ encodeChunks bytes
  | [] => []
  | chunk => encodeChunk chunk

def encodeBase64 (bytes : List UInt8) : String := String.ofList (encodeChunks bytes)

def hexDigits : List Char := "0123456789ABCDEF".toList

def encodeHexUpper (bytes : List UInt8) : String :=
  String.ofList (bytes.flatMap fun b : UInt8 =>
      [hexDigits.getD (b >>> 4).toNat '0', hexDigits.getD (b &&& 0xF).toNat '0'])

/-! ## Reading -/

def isJavaWhitespace (c : Char) : Bool :=
  c.toNat ∈ [0x09, 0x0A, 0x0B, 0x0C, 0x0D, 0x1C, 0x1D, 0x1E, 0x1F, 0x20, 0x1680, 0x2028, 0x2029,
    0x205F, 0x3000] ∨
    (0x2000 ≤ c.toNat ∧ c.toNat ≤ 0x2006) ∨ (0x2008 ≤ c.toNat ∧ c.toNat ≤ 0x200A)

/-- The form without what is taken from its ends and the whitespace inside. -/
def removeWhitespace (lexical : List Char) : List Char :=
  ((lexical.dropWhile (·.toNat ≤ 0x20)).rdropWhile (·.toNat ≤ 0x20)).filter fun c =>
      !isJavaWhitespace c

def bytesOf (l : List Char) : List UInt8 := l.flatMap String.utf8EncodeChar

def sextet (b : UInt8) : Option UInt32 :=
  if 65 ≤ b ∧ b ≤ 90 then some (b - 65).toUInt32
  else if 97 ≤ b ∧ b ≤ 122 then some (b - 97 + 26).toUInt32
  else if 48 ≤ b ∧ b ≤ 57 then some (b - 48 + 52).toUInt32
  else if b = 43 then some 62
  else if b = 47 then some 63
  else none

/-- The bytes, the accumulator and the number of its bits that no byte was taken from. -/
def decodeBody : List UInt8 → List UInt8 → UInt32 → UInt32 → Option (List UInt8 × UInt32 × UInt32)
  | [], bytes, acc, nbits => some (bytes, acc, nbits)
  | b :: body, bytes, acc, nbits => do
    let v ← sextet b
    let acc := acc <<< 6 ||| v
    let nbits := nbits + 6
    if 8 ≤ nbits then decodeBody body (bytes ++ [(acc >>> (nbits - 8)).toUInt8]) acc (nbits - 8)
    else decodeBody body bytes acc nbits

/-- The bytes of a form, in hexadecimal digits, and their number. -/
def parseBase64Binary (lexical : String) : Option (String × ℕ) :=
  let cleaned := removeWhitespace lexical.toList
  let all := bytesOf cleaned
  if all.length % 4 ≠ 0 then none
  else if all = [] then some ("", 0)
  else
    let pad := (all.reverse.takeWhile (· = 61)).length
    if 2 < pad then none
    else do
      let (bytes, acc, nbits) ← decodeBody (all.take (all.length - pad)) [] 0 0
      if acc &&& ((1 <<< nbits) - 1) ≠ 0 then none else some (encodeHexUpper bytes, bytes.length)

/-- The byte of the character of a sextet. -/
def digitByte (n : UInt32) : UInt8 := UInt8.ofNat (digit n).toNat

theorem sextet_digitByte {v : UInt32} (hv : v.toNat < 64) : sextet (digitByte v) = some v := by
  have hall : ∀ n < 64, sextet (digitByte (UInt32.ofNat n)) = some (UInt32.ofNat n) :=
    by decide +kernel
  have := hall v.toNat hv
  rwa [UInt32.ofNat_toNat] at this

variable {b b0 : UInt8} {n k : UInt32}

theorem sextet_eq_some {v : UInt32} (h : sextet b = some v) : v.toNat < 64 ∧ b = digitByte v := by
  have hall : ∀ n < 256, (sextet (UInt8.ofNat n)).all
      (fun v => v.toNat < 64 ∧ UInt8.ofNat n = digitByte v) = true := by
    decide +kernel
  have := hall b.toNat b.toNat_lt
  rw [UInt8.ofNat_toNat, h] at this
  simpa using this

theorem digitByte_ne {v : UInt32} (hv : v.toNat < 64) : digitByte v ≠ 61 := by
  intro heq
  have hsextet := sextet_digitByte hv
  rw [heq] at hsextet
  cases hsextet

theorem digit_congr {m : UInt32} (h : n.toNat % 64 = m.toNat % 64) : digit n = digit m := by
  have hlast : ∀ n : UInt32, (n &&& 63).toNat = n.toNat % 64 := by
    intro n
    rw [UInt32.toNat_and]
    exact Nat.and_two_pow_sub_one_eq_mod n.toNat 6
  rw [digit, digit, hlast, hlast, h]

/-! ## Groups -/

def chunkNumber (b0 b1 b2 : UInt8) : UInt32 :=
  b0.toUInt32 <<< 16 ||| b1.toUInt32 <<< 8 ||| b2.toUInt32

theorem toNat_chunkNumber (b0 b1 b2 : UInt8) : (chunkNumber b0 b1 b2).toNat =
    b0.toNat * 65536 + b1.toNat * 256 + b2.toNat := by
  have h0 := b0.toNat_lt
  have h1 := b1.toNat_lt
  have h2 := b2.toNat_lt
  have hhigh : (b0.toUInt32 <<< 16).toNat = 2 ^ 16 * b0.toNat := by
    rw [UInt32.toNat_shiftLeft, UInt8.toNat_toUInt32, show (16 : UInt32).toNat % 32 = 16 from rfl,
      Nat.shiftLeft_eq]
    omega
  have hmiddle : (b1.toUInt32 <<< 8).toNat = 2 ^ 8 * b1.toNat := by
    rw [UInt32.toNat_shiftLeft, UInt8.toNat_toUInt32, show (8 : UInt32).toNat % 32 = 8 from rfl,
      Nat.shiftLeft_eq]
    omega
  have htwo : 2 ^ 16 * b0.toNat ||| 2 ^ 8 * b1.toNat = 2 ^ 8 * (b0.toNat * 256 + b1.toNat) := by
    rw [← Nat.two_pow_add_eq_or_of_lt (by omega)]
    omega
  rw [chunkNumber, UInt32.toNat_or, UInt32.toNat_or, hhigh, hmiddle, htwo, UInt8.toNat_toUInt32,
    ← Nat.two_pow_add_eq_or_of_lt h2]
  omega

theorem toNat_push {acc v : UInt32} (hv : v.toNat < 64) :
    (acc <<< 6 ||| v).toNat = (acc.toNat * 64 + v.toNat) % 2 ^ 32 := by
  have hshift : (acc <<< 6).toNat = 2 ^ 6 * (acc.toNat % 2 ^ 26) := by
    rw [UInt32.toNat_shiftLeft, show (6 : UInt32).toNat % 32 = 6 from rfl, Nat.shiftLeft_eq]
    omega
  rw [UInt32.toNat_or, hshift, ← Nat.two_pow_add_eq_or_of_lt hv]
  omega

theorem toNat_shiftRight (hk : k.toNat < 32) : (n >>> k).toNat = n.toNat / 2 ^ k.toNat := by
  rw [UInt32.toNat_shiftRight, Nat.mod_eq_of_lt hk, Nat.shiftRight_eq_div_pow]

theorem toNat_take {acc : UInt32} (hk : k.toNat < 32) :
    (acc >>> k).toUInt8.toNat = acc.toNat / 2 ^ k.toNat % 256 := by
  rw [UInt32.toNat_toUInt8, toNat_shiftRight hk]

theorem digit_shiftRight {v : UInt32} (hk : k.toNat < 32)
    (h : n.toNat / 2 ^ k.toNat % 64 = v.toNat % 64) :
    digit (n >>> k) = digit v := by
  apply digit_congr
  rw [toNat_shiftRight hk]
  exact h

/-- Four sextets are written for three bytes that are the same number. -/
theorem encodeChunk_three {b1 b2 : UInt8} (v0 : UInt32) {v1 v2 v3 : UInt32} (h1 : v1.toNat < 64)
    (h2 : v2.toNat < 64) (h3 : v3.toNat < 64)
    (h : v0.toNat * 262144 + v1.toNat * 4096 + v2.toNat * 64 + v3.toNat =
      b0.toNat * 65536 + b1.toNat * 256 + b2.toNat) :
    encodeChunk [b0, b1, b2] = [digit v0, digit v1, digit v2, digit v3] := by
  have hn := toNat_chunkNumber b0 b1 b2
  have hchunk : encodeChunk [b0, b1, b2] =
      [digit (chunkNumber b0 b1 b2 >>> 18), digit (chunkNumber b0 b1 b2 >>> 12),
    digit (chunkNumber b0 b1 b2 >>> 6), digit (chunkNumber b0 b1 b2)] := rfl
  have hlast : digit (chunkNumber b0 b1 b2) = digit v3 := digit_congr (by omega)
  rw [hchunk, hlast, digit_shiftRight (v := v0) (by decide), digit_shiftRight (v := v1) (by decide),
    digit_shiftRight (v := v2) (by decide)]
  all_goals
    simp only [UInt32.reduceToNat, Nat.reducePow]
    omega

theorem encodeChunk_two {b1 : UInt8} (v0 : UInt32) {v1 v2 : UInt32} (h1 : v1.toNat < 64)
    (h2 : v2.toNat < 64)
    (h : v0.toNat * 4096 + v1.toNat * 64 + v2.toNat = b0.toNat * 1024 + b1.toNat * 4) :
    encodeChunk [b0, b1] = [digit v0, digit v1, digit v2, '='] := by
  have hn := toNat_chunkNumber b0 b1 0
  rw [show (0 : UInt8).toNat = 0 from rfl] at hn
  have hchunk : encodeChunk [b0, b1] =
      [digit (chunkNumber b0 b1 0 >>> 18), digit (chunkNumber b0 b1 0 >>> 12),
    digit (chunkNumber b0 b1 0 >>> 6), '='] := rfl
  rw [hchunk, digit_shiftRight (v := v0) (by decide), digit_shiftRight (v := v1) (by decide),
    digit_shiftRight (v := v2) (by decide)]
  all_goals
    simp only [UInt32.reduceToNat, Nat.reducePow]
    omega

theorem encodeChunk_one (v0 : UInt32) {v1 : UInt32} (h1 : v1.toNat < 64)
    (h : v0.toNat * 64 + v1.toNat = b0.toNat * 16) :
    encodeChunk [b0] = [digit v0, digit v1, '=', '='] := by
  have hn := toNat_chunkNumber b0 0 0
  rw [show (0 : UInt8).toNat = 0 from rfl] at hn
  have hchunk : encodeChunk [b0] = [digit (chunkNumber b0 0 0 >>> 18),
    digit (chunkNumber b0 0 0 >>> 12), '=', '='] := rfl
  rw [hchunk, digit_shiftRight (v := v0) (by decide), digit_shiftRight (v := v1) (by decide)]
  all_goals
    simp only [UInt32.reduceToNat, Nat.reducePow]
    omega

/-! ## Reading groups -/

variable {body bytes : List UInt8} {acc acc' v v0 v1 v2 v3 nbits : UInt32}

/-- The bits of the accumulator that no byte was taken from. -/
def rest (acc nbits : UInt32) : UInt32 := acc &&& ((1 <<< nbits) - 1)

theorem decodeBody_cons (h : sextet b = some v) : decodeBody (b :: body) bytes acc nbits =
    if 8 ≤ nbits + 6 then
      decodeBody body (bytes ++ [((acc <<< 6 ||| v) >>> (nbits + 6 - 8)).toUInt8]) (acc <<< 6 ||| v)
      (nbits + 6 - 8) else decodeBody body bytes (acc <<< 6 ||| v) (nbits + 6) := by
  rw [decodeBody, h]
  rfl

/-- Only characters of sextets are read. -/
theorem exists_digit_of_decodeBody {r : List UInt8 × UInt32 × UInt32}
    (h : decodeBody body bytes acc nbits = some r) :
    ∀ b ∈ body, ∃ v : UInt32, v.toNat < 64 ∧ b = digitByte v := by
  induction body generalizing bytes acc nbits with
  | nil => nofun
  | cons b body ih =>
    have hbind := h
    rw [decodeBody] at hbind
    obtain ⟨v, hv, -⟩ := Option.bind_eq_some_iff.mp hbind
    rw [decodeBody_cons hv] at h
    refine forall_mem_cons.mpr ⟨⟨v, sextet_eq_some hv⟩, ?_⟩
    split at h
    · exact ih h
    · exact ih h

/-- The first two sextets of a group give a byte and leave four bits. -/
theorem decodeBody_two (h0 : v0.toNat < 64) (h1 : v1.toNat < 64) (acc : UInt32) : ∃ b0 acc',
    (∀ bytes body, decodeBody (digitByte v0 :: digitByte v1 :: body) bytes acc 0 =
      decodeBody body (bytes ++ [b0]) acc' 4) ∧
      v0.toNat * 64 + v1.toNat = b0.toNat * 16 + acc'.toNat % 16 := by
  refine ⟨(((acc <<< 6 ||| v0) <<< 6 ||| v1) >>> 4).toUInt8,
    (acc <<< 6 ||| v0) <<< 6 ||| v1, ?_, ?_⟩
  · intro bytes body
    rw [decodeBody_cons (sextet_digitByte h0), if_neg (by decide),
      decodeBody_cons (sextet_digitByte h1), if_pos (by decide)]
    rfl
  · rw [toNat_take (by decide), toNat_push h1, toNat_push h0]
    simp only [UInt32.reduceToNat, Nat.reducePow]
    omega

theorem decodeBody_third (h2 : v2.toNat < 64) (acc : UInt32) : ∃ b1 acc',
    (∀ bytes body, decodeBody (digitByte v2 :: body) bytes acc 4 =
      decodeBody body (bytes ++ [b1]) acc' 2) ∧
      acc.toNat % 16 * 64 + v2.toNat = b1.toNat * 4 + acc'.toNat % 4 := by
  refine ⟨((acc <<< 6 ||| v2) >>> 2).toUInt8, acc <<< 6 ||| v2, ?_, ?_⟩
  · intro bytes body
    rw [decodeBody_cons (sextet_digitByte h2), if_pos (by decide)]
    rfl
  · rw [toNat_take (by decide), toNat_push h2]
    simp only [UInt32.reduceToNat, Nat.reducePow]
    omega

theorem decodeBody_fourth (h3 : v3.toNat < 64) (acc : UInt32) : ∃ b2 acc',
    (∀ bytes body, decodeBody (digitByte v3 :: body) bytes acc 2 =
      decodeBody body (bytes ++ [b2]) acc' 0) ∧ acc.toNat % 4 * 64 + v3.toNat = b2.toNat := by
  refine ⟨((acc <<< 6 ||| v3) >>> 0).toUInt8, acc <<< 6 ||| v3, ?_, ?_⟩
  · intro bytes body
    rw [decodeBody_cons (sextet_digitByte h3), if_pos (by decide)]
    rfl
  · rw [toNat_take (by decide), toNat_push h3]
    simp only [UInt32.reduceToNat, Nat.reducePow]
    omega

theorem rest_eq_zero_iff (hnbits : nbits.toNat < 32) : rest acc nbits = 0 ↔
    acc.toNat % 2 ^ nbits.toNat = 0 := by
  have hone : (1 <<< nbits : UInt32).toNat = 2 ^ nbits.toNat := by
    rw [UInt32.toNat_shiftLeft, Nat.mod_eq_of_lt hnbits, Nat.shiftLeft_eq,
      UInt32.toNat_one, one_mul]
    exact Nat.mod_eq_of_lt (Nat.pow_lt_pow_right (by omega) hnbits)
  have hmask : (1 <<< nbits - 1 : UInt32).toNat = 2 ^ nbits.toNat - 1 := by
    rw [UInt32.toNat_sub_of_le _ _ (by rw [UInt32.le_iff_toNat_le, hone]; exact Nat.one_le_two_pow),
      hone]
    rfl
  rw [rest, ← UInt32.toNat_inj, UInt32.toNat_and, hmask, Nat.and_two_pow_sub_one_eq_mod]
  rfl

theorem bytesOf_append (l l' : List Char) : bytesOf (l ++ l') = bytesOf l ++ bytesOf l' :=
  flatMap_append

theorem bytesOf_injective {l l' : List Char} (h : bytesOf l = bytesOf l') : l = l' := by
  have hencode : l.utf8Encode = l'.utf8Encode := congrArg List.toByteArray h
  rw [← String.toByteArray_ofList, ← String.toByteArray_ofList, String.toByteArray_inj] at hencode
  simpa using congrArg String.toList hencode

theorem utf8EncodeChar_digit (hv : v.toNat < 64) :
    String.utf8EncodeChar (digit v) = [digitByte v] := by
  have hall : ∀ n < 64, String.utf8EncodeChar (digit (UInt32.ofNat n)) =
    [digitByte (UInt32.ofNat n)] := by decide +kernel
  have := hall v.toNat hv
  rwa [UInt32.ofNat_toNat] at this

theorem utf8EncodeChar_pad : String.utf8EncodeChar '=' = [61] := by decide

/-! ## Bodies and padding -/

theorem encodeChunks_one (b0 : UInt8) : encodeChunks [b0] = encodeChunk [b0] := rfl

theorem encodeChunks_two (b0 b1 : UInt8) : encodeChunks [b0, b1] = encodeChunk [b0, b1] := rfl

/-- What is read is written in the same way, with the padding. -/
theorem exists_of_decodeBody (pad : ℕ) (hpad : pad ≤ 2) (body bytes : List UInt8) (acc : UInt32)
    (hlen : (body.length + pad) % 4 = 0) {out : List UInt8}
    (h : decodeBody body bytes acc 0 = some (out, acc', nbits)) (hrest : rest acc' nbits = 0) :
    ∃ new, out = bytes ++ new ∧ bytesOf (encodeChunks new) = body ++ List.replicate pad 61 := by
  have hdig := exists_digit_of_decodeBody h
  match body with
  | [] =>
    obtain rfl : pad = 0 := by simp at hlen; omega
    cases h
    exact ⟨[], (append_nil _).symm, rfl⟩
  | [_] =>
    simp at hlen
    omega
  | [c0, c1] =>
    obtain rfl : pad = 2 := by simp at hlen; omega
    obtain ⟨v0, h0, rfl⟩ := hdig c0 (by simp)
    obtain ⟨v1, h1, rfl⟩ := hdig c1 (by simp)
    obtain ⟨b0, acc₁, hread, heq⟩ := decodeBody_two h0 h1 acc
    rw [hread] at h
    cases h
    rw [rest_eq_zero_iff (by decide), show (4 : UInt32).toNat = 4 from rfl] at hrest
    refine ⟨[b0], rfl, ?_⟩
    rw [encodeChunks_one, encodeChunk_one v0 h1 (by omega)]
    simp [bytesOf, utf8EncodeChar_digit h0, utf8EncodeChar_digit h1, utf8EncodeChar_pad]
  | [c0, c1, c2] =>
    obtain rfl : pad = 1 := by simp at hlen; omega
    obtain ⟨v0, h0, rfl⟩ := hdig c0 (by simp)
    obtain ⟨v1, h1, rfl⟩ := hdig c1 (by simp)
    obtain ⟨v2, h2, rfl⟩ := hdig c2 (by simp)
    obtain ⟨b0, acc₁, hread, heq⟩ := decodeBody_two h0 h1 acc
    obtain ⟨b1, acc₂, hread', heq'⟩ := decodeBody_third h2 acc₁
    rw [hread, hread'] at h
    cases h
    rw [rest_eq_zero_iff (by decide), show (2 : UInt32).toNat = 2 from rfl] at hrest
    refine ⟨[b0, b1], append_assoc _ _ _, ?_⟩
    rw [encodeChunks_two, encodeChunk_two v0 h1 h2 (by omega)]
    simp [bytesOf, utf8EncodeChar_digit h0, utf8EncodeChar_digit h1, utf8EncodeChar_digit h2,
      utf8EncodeChar_pad]
  | c0 :: c1 :: c2 :: c3 :: body =>
    obtain ⟨v0, h0, rfl⟩ := hdig c0 (by simp)
    obtain ⟨v1, h1, rfl⟩ := hdig c1 (by simp)
    obtain ⟨v2, h2, rfl⟩ := hdig c2 (by simp)
    obtain ⟨v3, h3, rfl⟩ := hdig c3 (by simp)
    obtain ⟨b0, acc₁, hread, heq⟩ := decodeBody_two h0 h1 acc
    obtain ⟨b1, acc₂, hread', heq'⟩ := decodeBody_third h2 acc₁
    obtain ⟨b2, acc₃, hread'', heq''⟩ := decodeBody_fourth h3 acc₂
    rw [hread, hread', hread''] at h
    obtain ⟨new, rfl, hnew⟩ :=
      exists_of_decodeBody pad hpad body _ _ (by simp at hlen; omega) h hrest
    refine ⟨b0 :: b1 :: b2 :: new, by simp, ?_⟩
    rw [encodeChunks, encodeChunk_three v0 h1 h2 h3 (by omega), bytesOf_append, hnew]
    simp [bytesOf, utf8EncodeChar_digit h0, utf8EncodeChar_digit h1, utf8EncodeChar_digit h2,
      utf8EncodeChar_digit h3]

theorem exists_uint32 {n : ℕ} (hn : n < 64) : ∃ v : UInt32, v.toNat = n :=
  ⟨UInt32.ofNat n, UInt32.toNat_ofNat_of_lt (hn.trans (by decide))⟩

theorem exists_decodeBody (new bytes : List UInt8) (acc : UInt32) :
    ∃ pad body acc' nbits, pad ≤ 2 ∧ bytesOf (encodeChunks new) = body ++ List.replicate pad 61 ∧
    (body.length + pad) % 4 = 0 ∧
      decodeBody body bytes acc 0 = some (bytes ++ new, acc', nbits) ∧ rest acc' nbits = 0 := by
  match new with
  | [] =>
    refine ⟨0, [], acc, 0,
      by omega, rfl, rfl, ?_, (rest_eq_zero_iff (by decide)).mpr (Nat.mod_one _)⟩
    rw [append_nil, decodeBody]
  | [b] =>
    have hb := b.toNat_lt
    obtain ⟨v0, h0⟩ := exists_uint32 (n := b.toNat / 4) (by omega)
    obtain ⟨v1, h1⟩ := exists_uint32 (n := b.toNat % 4 * 16) (by omega)
    have hv0 : v0.toNat < 64 := by omega
    have hv1 : v1.toNat < 64 := by omega
    obtain ⟨b0, acc₁, hread, heq⟩ := decodeBody_two hv0 hv1 acc
    obtain rfl : b0 = b := UInt8.toNat_inj.mp (by omega)
    refine ⟨2, [digitByte v0, digitByte v1], acc₁, 4,
      by omega, ?_, by simp, by rw [hread, decodeBody], ?_⟩
    · rw [encodeChunks_one, encodeChunk_one v0 hv1 (by omega)]
      simp [bytesOf, utf8EncodeChar_digit hv0, utf8EncodeChar_digit hv1, utf8EncodeChar_pad]
    · rw [rest_eq_zero_iff (by decide), show (4 : UInt32).toNat = 4 from rfl]
      omega
  | [b, b'] =>
    have hb := b.toNat_lt
    have hb' := b'.toNat_lt
    obtain ⟨v0, h0⟩ := exists_uint32 (n := b.toNat / 4) (by omega)
    obtain ⟨v1, h1⟩ := exists_uint32 (n := b.toNat % 4 * 16 + b'.toNat / 16) (by omega)
    obtain ⟨v2, h2⟩ := exists_uint32 (n := b'.toNat % 16 * 4) (by omega)
    have hv0 : v0.toNat < 64 := by omega
    have hv1 : v1.toNat < 64 := by omega
    have hv2 : v2.toNat < 64 := by omega
    obtain ⟨b0, acc₁, hread, heq⟩ := decodeBody_two hv0 hv1 acc
    obtain rfl : b0 = b := UInt8.toNat_inj.mp (by omega)
    obtain ⟨b1, acc₂, hread', heq'⟩ := decodeBody_third hv2 acc₁
    obtain rfl : b1 = b' := UInt8.toNat_inj.mp (by omega)
    refine ⟨1, [digitByte v0, digitByte v1, digitByte v2], acc₂, 2, by omega, ?_, by simp, ?_, ?_⟩
    · rw [encodeChunks_two, encodeChunk_two v0 hv1 hv2 (by omega)]
      simp [bytesOf, utf8EncodeChar_digit hv0, utf8EncodeChar_digit hv1, utf8EncodeChar_digit hv2,
        utf8EncodeChar_pad]
    · rw [hread, hread', decodeBody, append_assoc]
      rfl
    · rw [rest_eq_zero_iff (by decide), show (2 : UInt32).toNat = 2 from rfl]
      omega
  | b :: b' :: b'' :: new =>
    have hb := b.toNat_lt
    have hb' := b'.toNat_lt
    have hb'' := b''.toNat_lt
    obtain ⟨v0, h0⟩ := exists_uint32 (n := b.toNat / 4) (by omega)
    obtain ⟨v1, h1⟩ := exists_uint32 (n := b.toNat % 4 * 16 + b'.toNat / 16) (by omega)
    obtain ⟨v2, h2⟩ := exists_uint32 (n := b'.toNat % 16 * 4 + b''.toNat / 64) (by omega)
    obtain ⟨v3, h3⟩ := exists_uint32 (n := b''.toNat % 64) (by omega)
    have hv0 : v0.toNat < 64 := by omega
    have hv1 : v1.toNat < 64 := by omega
    have hv2 : v2.toNat < 64 := by omega
    have hv3 : v3.toNat < 64 := by omega
    obtain ⟨b0, acc₁, hread, heq⟩ := decodeBody_two hv0 hv1 acc
    obtain rfl : b0 = b := UInt8.toNat_inj.mp (by omega)
    obtain ⟨b1, acc₂, hread', heq'⟩ := decodeBody_third hv2 acc₁
    obtain rfl : b1 = b' := UInt8.toNat_inj.mp (by omega)
    obtain ⟨b2, acc₃, hread'', heq''⟩ := decodeBody_fourth hv3 acc₂
    obtain rfl : b2 = b'' := UInt8.toNat_inj.mp (by omega)
    obtain ⟨pad, body, acc', nbits, hpad, hwrit, hlen, hnext, hrest⟩ :=
      exists_decodeBody new (bytes ++ [b0] ++ [b1] ++ [b2]) acc₃
    refine ⟨pad, digitByte v0 :: digitByte v1 :: digitByte v2 :: digitByte v3 :: body, acc', nbits,
      hpad, ?_, ?_, ?_, hrest⟩
    · rw [encodeChunks, encodeChunk_three v0 hv1 hv2 hv3 (by omega), bytesOf_append, hwrit]
      simp [bytesOf, utf8EncodeChar_digit hv0, utf8EncodeChar_digit hv1, utf8EncodeChar_digit hv2,
        utf8EncodeChar_digit hv3]
    · simp only [length_cons]
      omega
    · rw [hread, hread', hread'', hnext]
      simp

theorem take_append_padding (l : List UInt8) :
    l.take (l.length - (l.reverse.takeWhile (· = 61)).length) ++ List.replicate
    (l.reverse.takeWhile (· = 61)).length 61 = l := by
  have hspl : (l.reverse.dropWhile (· = 61)).reverse ++
      (l.reverse.takeWhile (· = 61)).reverse = l := by
    rw [← reverse_append, takeWhile_append_dropWhile, reverse_reverse]
  have hpadding : (l.reverse.takeWhile (· = 61)).reverse =
      List.replicate (l.reverse.takeWhile (· = 61)).length 61 := by
    rw [eq_replicate_iff]
    refine ⟨length_reverse, fun b hb => ?_⟩
    simpa using mem_takeWhile_imp (mem_reverse.mp hb)
  rw [hpadding] at hspl
  generalize (l.reverse.takeWhile (· = 61)).length = pad at hspl ⊢
  generalize (l.reverse.dropWhile (· = 61)).reverse = body at hspl
  rw [← hspl, length_append, length_replicate, Nat.add_sub_cancel, take_left]

theorem length_padding {body : List UInt8} (hbody : ∀ b ∈ body, b ≠ 61) (pad : ℕ) :
    ((body ++ List.replicate pad 61).reverse.takeWhile (· = 61)).length = pad := by
  rw [reverse_append, reverse_replicate, takeWhile_append_of_pos (by simp)]
  have hnil : body.reverse.takeWhile (· = 61) = [] := by
    cases hreverse : body.reverse with
    | nil => rfl
    | cons b l =>
      have hb : b ≠ 61 := hbody b (by rw [← mem_reverse, hreverse]; exact mem_cons_self)
      rw [takeWhile_cons_of_neg (by simpa using hb)]
  rw [hnil, append_nil, length_replicate]

theorem isClean_digit (n : UInt32) : 0x20 < (digit n).toNat ∧
    isJavaWhitespace (digit n) = false := by
  have hall : ∀ k < 64, 0x20 < (digit (UInt32.ofNat k)).toNat ∧
      isJavaWhitespace (digit (UInt32.ofNat k)) = false := by
    decide +kernel
  obtain ⟨v, hv⟩ := exists_uint32 (Nat.mod_lt n.toNat (by decide))
  have hclean := hall v.toNat (by omega)
  rw [UInt32.ofNat_toNat] at hclean
  rw [digit_congr (m := v) (by omega)]
  exact hclean

theorem isClean_encodeChunk {chunk : List UInt8} {c : Char} (hc : c ∈ encodeChunk chunk) :
    0x20 < c.toNat ∧ isJavaWhitespace c = false := by
  have hpad : 0x20 < '='.toNat ∧ isJavaWhitespace '=' = false := by decide
  simp only [encodeChunk, mem_cons, not_mem_nil, or_false] at hc
  rcases hc with rfl | rfl | rfl | rfl
  · exact isClean_digit _
  · exact isClean_digit _
  · split
    · exact isClean_digit _
    · exact hpad
  · split
    · exact isClean_digit _
    · exact hpad

theorem isClean_encodeChunks (bytes : List UInt8) : ∀ c ∈ encodeChunks bytes,
    0x20 < c.toNat ∧ isJavaWhitespace c = false := by
  match bytes with
  | [] => nofun
  | [b0] => exact fun c hc => isClean_encodeChunk hc
  | [b0, b1] => exact fun c hc => isClean_encodeChunk hc
  | b0 :: b1 :: b2 :: bytes =>
    intro c hc
    rw [encodeChunks, mem_append] at hc
    rcases hc with hc | hc
    · exact isClean_encodeChunk hc
    · exact isClean_encodeChunks bytes c hc

theorem removeWhitespace_of_clean {l : List Char}
    (h : ∀ c ∈ l, 0x20 < c.toNat ∧ isJavaWhitespace c = false) :
    removeWhitespace l = l := by
  have hdrop : ∀ l : List Char, (∀ c ∈ l, 0x20 < c.toNat) → l.dropWhile (·.toNat ≤ 0x20) = l := by
    intro l hl
    cases l with
    | nil => rfl
    | cons c l =>
      have hc := hl c mem_cons_self
      rw [dropWhile_cons_of_neg (by simpa using hc)]
  have hl : ∀ c ∈ l, 0x20 < c.toNat := fun c hc => (h c hc).1
  rw [removeWhitespace, hdrop l hl, List.rdropWhile, hdrop _ fun c hc => hl c (mem_reverse.mp hc),
      reverse_reverse,
    filter_eq_self]
  intro c hc
  rw [(h c hc).2]
  rfl

variable {lexical : String} {value : String × ℕ}

/-- The accepted forms are those that are written, up to whitespace. -/
theorem parseBase64Binary_eq_some : parseBase64Binary lexical = some value ↔
    ∃ bytes, removeWhitespace lexical.toList = encodeChunks bytes ∧
    value = (encodeHexUpper bytes, bytes.length) := by
  unfold parseBase64Binary
  generalize removeWhitespace lexical.toList = cleaned
  constructor
  · intro h
    dsimp only at h
    split at h
    · cases h
    rename_i hmod
    split at h
    · rename_i hnil
      cases h
      refine ⟨[], ?_, rfl⟩
      exact bytesOf_injective hnil
    split at h
    · cases h
    rename_i hpad
    obtain ⟨⟨out, acc, nbits⟩, hread, h⟩ := Option.bind_eq_some_iff.mp h
    split at h
    · cases h
    rename_i hrest
    cases h
    have hspl := take_append_padding (bytesOf cleaned)
    have hlen := congrArg List.length hspl
    rw [length_append, length_replicate] at hlen
    obtain ⟨bytes, hout, hwrit⟩ :=
      exists_of_decodeBody _ (Nat.le_of_not_lt hpad) _ _ _ (by omega) hread (not_not.mp hrest)
    rw [hout, nil_append]
    exact ⟨bytes, bytesOf_injective (hspl.symm.trans hwrit.symm), rfl⟩
  · rintro ⟨bytes, rfl, rfl⟩
    obtain ⟨pad, body, acc, nbits, hpad, hwrit, hlen, hread, hrest⟩ := exists_decodeBody bytes [] 0
    have hbody : ∀ b ∈ body, b ≠ 61 := by
      intro b hb
      obtain ⟨v, hv, rfl⟩ := exists_digit_of_decodeBody hread b hb
      exact digitByte_ne hv
    dsimp only
    rw [hwrit, if_neg (by rw [length_append, length_replicate]; omega), length_padding hbody,
      if_neg (Nat.not_lt.mpr hpad), length_append, length_replicate, Nat.add_sub_cancel, take_left]
    split
    · rename_i hnil
      obtain ⟨rfl, -⟩ := append_eq_nil_iff.mp hnil
      cases hread
      rfl
    · rw [hread]
      exact if_neg (not_not.mpr hrest)

/-- The two digits of a byte determine it. -/
theorem byte_eq_of_hexDigits {b' : UInt8}
    (hhigh : hexDigits.getD (b >>> 4).toNat '0' = hexDigits.getD (b' >>> 4).toNat '0')
    (hlow : hexDigits.getD (b &&& 0xF).toNat '0' = hexDigits.getD (b' &&& 0xF).toNat '0') :
    b = b' := by
  have hall : ∀ n < 256, hexDigits.idxOf (hexDigits.getD (UInt8.ofNat n >>> 4).toNat '0') * 16 +
      hexDigits.idxOf (hexDigits.getD (UInt8.ofNat n &&& 0xF).toNat '0') = n := by decide +kernel
  have hb := hall b.toNat b.toNat_lt
  have hb' := hall b'.toNat b'.toNat_lt
  rw [UInt8.ofNat_toNat] at hb hb'
  rw [hhigh, hlow, hb'] at hb
  exact UInt8.toNat_inj.mp hb.symm

theorem encodeHexUpper_injective {bytes bytes' : List UInt8}
    (h : encodeHexUpper bytes = encodeHexUpper bytes') : bytes = bytes' := by
  have hlist := congrArg String.toList h
  simp only [encodeHexUpper, String.toList_ofList] at hlist
  clear h
  induction bytes generalizing bytes' with
  | nil =>
    cases bytes' with
    | nil => rfl
    | cons b' bytes' => cases hlist
  | cons b bytes ih =>
    cases bytes' with
    | nil => cases hlist
    | cons b' bytes' =>
      simp only [flatMap_cons, cons_append, nil_append, List.cons.injEq] at hlist
      rw [byte_eq_of_hexDigits hlist.1 hlist.2.1, ih hlist.2.2]

/-- Reading what was written gives the bytes back; what is read was written, up to whitespace; so
forms have the same value exactly if they are the same up to whitespace. -/
theorem parseBase64Binary_encodeBase64 :
    (∀ bytes, parseBase64Binary (encodeBase64 bytes) = some (encodeHexUpper bytes, bytes.length)) ∧
      (∀ lexical value, parseBase64Binary lexical = some value → ∃ bytes,
        value = (encodeHexUpper bytes, bytes.length) ∧
        String.ofList (removeWhitespace lexical.toList) = encodeBase64 bytes) ∧
      ∀ lexical lexical' value value', parseBase64Binary lexical = some value →
      parseBase64Binary lexical' = some value' →
        (value = value' ↔ removeWhitespace lexical.toList = removeWhitespace lexical'.toList) := by
  refine ⟨fun bytes => ?_, fun lexical value h => ?_, fun lexical lexical' value value' h h' => ?_⟩
  · refine parseBase64Binary_eq_some.mpr ⟨bytes, ?_, rfl⟩
    rw [encodeBase64, String.toList_ofList]
    exact removeWhitespace_of_clean (isClean_encodeChunks bytes)
  · obtain ⟨bytes, hwrit, hval⟩ := parseBase64Binary_eq_some.mp h
    exact ⟨bytes, hval, congrArg String.ofList hwrit⟩
  · obtain ⟨bytes, hwrit, rfl⟩ := parseBase64Binary_eq_some.mp h
    obtain ⟨bytes', hwrit', rfl⟩ := parseBase64Binary_eq_some.mp h'
    constructor
    · intro hval
      rw [hwrit, hwrit', encodeHexUpper_injective (Prod.mk.inj hval).1]
    · intro hcleaned
      -- The bytes are what the common form is read to.
      have hcommon : parseBase64Binary lexical = some (encodeHexUpper bytes', bytes'.length) :=
        parseBase64Binary_eq_some.mpr ⟨bytes', hcleaned.trans hwrit', rfl⟩
      exact Option.some.inj (h.symm.trans hcommon)

/-- One byte, written with spaces. -/
theorem parseBase64Binary_spaced : parseBase64Binary "Q Q = =" = some ("41", 1) ∧
    ∃ bytes, ("41", 1) = (encodeHexUpper bytes, bytes.length) ∧
      String.ofList (removeWhitespace "Q Q = =".toList) = encodeBase64 bytes := by
  have hread : parseBase64Binary "Q Q = =" = some ("41", 1) := by decide +kernel
  exact ⟨hread, parseBase64Binary_encodeBase64.2.1 "Q Q = =" ("41", 1) hread⟩

end Hermit.BinaryData
