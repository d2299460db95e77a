import Ceph.Common.Hobject
import Ceph.Lib.LexCode

set_option autoImplicit false

/-! # The sort keys of objects

BlueStore keeps its object metadata under byte-string keys (`get_object_key`,
`os/bluestore/BlueStore.cc`). The key/value store enumerates keys in byte order, object
listing promises the order of `cmp(ghobject_t)`, and the comment above `append_escaped` asks
that the two be the same.

They are not. `append_escaped` compares a `char`, which is signed, so a byte from `0x80` on
is escaped with `#` and sorts below the printable characters; and the marker written after a
locator key is `>` when the key is greater than the name, that is, for the smaller names.
`getObjectKey_lt_iff_cmp` says exactly which pairs of objects are nevertheless in order
(`KeyOrderOk`).
-/

namespace Ceph.BlueStore

open List LexCode

/-! ## Escaping -/

/-- The value of a byte held in a `char`, a signed type. -/
def signedChar (c : UInt8) : Int := c.toInt8.toInt

/-- `"0123456789abcdef"`. -/
def hexDigits : Bytes :=
  [0x30, 0x31, 0x32, 0x33, 0x34, 0x35, 0x36, 0x37, 0x38, 0x39,
   0x61, 0x62, 0x63, 0x64, 0x65, 0x66]

def hexDigit (n : UInt8) : UInt8 := hexDigits.getD n.toNat 0

/-- An escaped byte: the mark, then two hexadecimal digits. The source shifts a signed value;
the mask leaves the same nibble. -/
def hexEscape (mark c : UInt8) : Bytes :=
  [mark, hexDigit ((c >>> 4) &&& 0x0f), hexDigit (c &&& 0x0f)]

/-- One iteration of the loop of `append_escaped`: `#` and below, then `~` and above. -/
def escapeByte (c : UInt8) : Bytes :=
  if signedChar c ≤ 0x23 then hexEscape 0x23 c
  else if signedChar c ≥ 0x7e then hexEscape 0x7e c
  else [c]

/-- `append_escaped`: the escaped bytes, terminated by `!`. -/
def appendEscaped (s : Bytes) : Bytes := s.flatMap escapeByte ++ [0x21]

theorem signedChar_eq (c : UInt8) :
    signedChar c = if c.toNat < 0x80 then (c.toNat : Int) else (c.toNat : Int) - 256 := by
  have hnat : c.toNat = c.toBitVec.toNat := rfl
  show c.toBitVec.toInt = _
  rw [BitVec.toInt_eq_toNat_cond, hnat]
  split_ifs <;> omega

/-- The position of a byte among the escaped bytes: the bytes from `0x80` on come between
`#` and `$`. -/
def escapeRank (c : UInt8) : Nat :=
  if 0x24 ≤ c.toNat ∧ c.toNat < 0x80 then c.toNat + 0x100 else c.toNat

theorem escapeRank_injective : Function.Injective escapeRank := by
  intro a b h
  have ha := a.toNat_lt
  have hb := b.toNat_lt
  rw [← UInt8.toNat_inj]
  unfold escapeRank at h
  split_ifs at h <;> omega

theorem toNat_shiftRight_four (c : UInt8) : ((c >>> 4) &&& 0x0f).toNat = c.toNat / 16 := by
  have hlt := c.toNat_lt
  have hshift : (c >>> 4).toNat = c.toNat / 16 := by
    rw [UInt8.toNat_shiftRight]
    exact Nat.shiftRight_eq_div_pow _ 4
  have hand : ((c >>> 4) &&& 0x0f).toNat = (c >>> 4).toNat % 16 := by
    rw [UInt8.toNat_and]
    exact Nat.and_two_pow_sub_one_eq_mod _ 4
  rw [hand, hshift]
  omega

theorem toNat_and_fifteen (c : UInt8) : (c &&& 0x0f).toNat = c.toNat % 16 := by
  rw [UInt8.toNat_and]
  exact Nat.and_two_pow_sub_one_eq_mod _ 4

theorem hexEscape_eq (mark c : UInt8) : hexEscape mark c =
    [mark, hexDigits.getD (c.toNat / 16) 0, hexDigits.getD (c.toNat % 16) 0] := by
  rw [hexEscape, hexDigit, hexDigit, toNat_shiftRight_four, toNat_and_fifteen]

theorem hexEscape_append_lt (mark : UInt8) {a b : UInt8} (h : a.toNat < b.toNat)
    (x y : Bytes) : hexEscape mark a ++ x < hexEscape mark b ++ y := by
  -- the table is increasing
  have htable : ∀ i < 16, ∀ j < 16, hexDigits.getD i 0 < hexDigits.getD j 0 ↔ i < j := by
    decide
  have hdigits : ∀ c : UInt8, hexEscape mark c =
      mark :: fixedWidth 16 (hexDigits.getD · 0) 2 c.toNat := by
    intro c
    simp [hexEscape_eq, fixedWidth]
  rw [hdigits, hdigits, cons_append, cons_append, cons_lt_cons_self,
    fixedWidth_append_lt_iff htable a.toNat_lt b.toNat_lt]
  exact .inl h

theorem escapeByte_eq (c : UInt8) :
    escapeByte c =
      if c.toNat < 0x24 ∨ 0x80 ≤ c.toNat then hexEscape 0x23 c
      else if 0x7e ≤ c.toNat then hexEscape 0x7e c
      else [c] := by
  have hc := c.toNat_lt
  unfold escapeByte
  rw [signedChar_eq]
  by_cases h1 : c.toNat < 0x24 ∨ 0x80 ≤ c.toNat
  · rw [if_pos h1, if_pos]
    split_ifs <;> omega
  · rw [if_neg h1, if_neg (by split_ifs <;> omega)]
    by_cases h2 : 0x7e ≤ c.toNat
    · rw [if_pos h2, if_pos]
      split_ifs <;> omega
    · rw [if_neg h2, if_neg]
      split_ifs <;> omega

theorem cons_lt_of_toNat_lt {m n : UInt8} (h : m.toNat < n.toNat) (u v : Bytes) :
    m :: u < n :: v := by
  rw [cons_lt_cons_iff, UInt8.lt_iff_toNat_lt]
  exact .inl h

/-- Different marks decide by the first byte, equal marks by the hexadecimal digits. -/
theorem escapeByte_append_lt {a b : UInt8} (h : escapeRank a < escapeRank b) (x y : Bytes) :
    escapeByte a ++ x < escapeByte b ++ y := by
  have hb := b.toNat_lt
  rw [escapeByte_eq a, escapeByte_eq b]
  unfold escapeRank at h
  by_cases a1 : a.toNat < 0x24 ∨ 0x80 ≤ a.toNat
  · rw [if_pos a1]
    by_cases b1 : b.toNat < 0x24 ∨ 0x80 ≤ b.toNat
    · rw [if_pos b1]
      exact hexEscape_append_lt _ (by split_ifs at h <;> omega) x y
    · rw [if_neg b1]
      by_cases b2 : 0x7e ≤ b.toNat
      · rw [if_pos b2]
        exact cons_lt_of_toNat_lt (by decide) _ _
      · rw [if_neg b2]
        refine cons_lt_of_toNat_lt ?_ _ _
        show 0x23 < b.toNat
        omega
  · have b1 : ¬ (b.toNat < 0x24 ∨ 0x80 ≤ b.toNat) := by split_ifs at h <;> omega
    rw [if_neg a1, if_neg b1]
    by_cases a2 : 0x7e ≤ a.toNat
    · have b2 : 0x7e ≤ b.toNat := by split_ifs at h <;> omega
      rw [if_pos a2, if_pos b2]
      exact hexEscape_append_lt _ (by split_ifs at h <;> omega) x y
    · rw [if_neg a2]
      by_cases b2 : 0x7e ≤ b.toNat
      · rw [if_pos b2]
        exact cons_lt_of_toNat_lt (show a.toNat < 0x7e by omega) _ _
      · rw [if_neg b2]
        exact cons_lt_of_toNat_lt (by split_ifs at h <;> omega) _ _

theorem term_lt_escapeByte (a : UInt8) (x y : Bytes) : 0x21 :: x < escapeByte a ++ y := by
  rw [escapeByte_eq]
  by_cases a1 : a.toNat < 0x24 ∨ 0x80 ≤ a.toNat
  · rw [if_pos a1]
    exact cons_lt_of_toNat_lt (by decide) _ _
  · rw [if_neg a1]
    by_cases a2 : 0x7e ≤ a.toNat
    · rw [if_pos a2]
      exact cons_lt_of_toNat_lt (by decide) _ _
    · rw [if_neg a2]
      refine cons_lt_of_toNat_lt ?_ _ _
      show 0x21 < a.toNat
      omega

/-- The escaping as a terminated code: its letters are ranked by `escapeRank`. -/
def escapeCode : TermCode UInt8 UInt8 Nat where
  word := escapeByte
  term := 0x21
  rank := escapeRank
  rank_inj := escapeRank_injective
  word_lt := fun h x y => escapeByte_append_lt h x y
  term_lt := term_lt_escapeByte

/-- **Escaped strings compare by rank**, equal strings by what follows. -/
theorem appendEscaped_append_lt_iff (s t x y : Bytes) :
    appendEscaped s ++ x < appendEscaped t ++ y
      ↔ s.map escapeRank < t.map escapeRank ∨ (s = t ∧ x < y) :=
  escapeCode.encode_append_lt_iff s t x y

/-! ## The key of an object -/

def keyEncodeShard (shard : Int8) : Bytes := [shard.toUInt8 + 0x80]

def keyEncodeU32 (u : UInt32) : Bytes := bigEndian 4 u.toNat

def keyEncodeU64 (u : UInt64) : Bytes := bigEndian 8 u.toNat

/-- The sign of `std::string::compare`. -/
def stringCompare (s t : Bytes) : Int := cmpField s t 0

/-- The part of the key that holds the locator key and the name. -/
def keyAndName (h : Hobject) : Bytes :=
  if h.key.length ≠ 0 then
    let r := stringCompare h.key h.name
    appendEscaped h.key ++
      (if r ≠ 0 then (if r > 0 then [0x3e] else [0x3c]) ++ appendEscaped h.name else [0x3d])
  else appendEscaped h.name ++ [0x3d]

/-- The bytes `get_object_key` assembles, before its sanity check. -/
def objectKey (oid : Ghobject) : Bytes :=
  keyEncodeShard oid.shardId ++
  (keyEncodeU64 (oid.hobj.pool.toUInt64 + 0x8000000000000000) ++
  (keyEncodeU32 oid.hobj.getBitwiseKeyU32 ++
  (appendEscaped oid.hobj.nspace ++
  (keyAndName oid.hobj ++
  (keyEncodeU64 oid.hobj.snap ++
  (keyEncodeU64 oid.generation ++ [0x6f]))))))

/-- `<`, `=` or `>`: how the effective key compares with the name. -/
def marker (h : Hobject) : UInt8 :=
  if h.getEffectiveKey < h.name then 0x3c
  else if h.name < h.getEffectiveKey then 0x3e
  else 0x3d

/-- What follows the effective key: the marker, and the name unless it is the key. -/
def nameTail (h : Hobject) : Bytes :=
  marker h :: if h.getEffectiveKey = h.name then [] else appendEscaped h.name

theorem marker_eq_iff (h : Hobject) : marker h = 0x3d ↔ h.getEffectiveKey = h.name := by
  unfold marker
  rcases lt_trichotomy h.getEffectiveKey h.name with hlt | heq | hgt
  · simp [hlt, hlt.ne]
  · simp [heq]
  · simp [hgt, hgt.not_gt, hgt.ne']

/-- **The markers order the wrong way**: with one effective key, the smaller marker goes to
the greater name. -/
theorem name_lt_of_marker_lt {g h : Hobject} (heff : g.getEffectiveKey = h.getEffectiveKey)
    (hlt : marker g < marker h) : h.name < g.name := by
  unfold marker at hlt
  rw [heff] at hlt
  rcases lt_trichotomy h.getEffectiveKey g.name with g1 | g1 | g1 <;>
    rcases lt_trichotomy h.getEffectiveKey h.name with h1 | h1 | h1
  · simp [g1, h1] at hlt
  · rwa [← h1]
  · exact h1.trans g1
  · simp [← g1, h1] at hlt
  · simp [← g1, ← h1] at hlt
  · rwa [← g1]
  · simp [g1, g1.not_gt, h1] at hlt
  · simp [g1, g1.not_gt, ← h1] at hlt
  · simp [g1, g1.not_gt, h1, h1.not_gt] at hlt

theorem keyAndName_eq (h : Hobject) :
    keyAndName h = appendEscaped h.getEffectiveKey ++ nameTail h := by
  unfold keyAndName nameTail marker
  by_cases hk : h.key.length = 0
  · have heff : h.getEffectiveKey = h.name := by simp [Hobject.getEffectiveKey, hk]
    simp [hk, heff]
  · have heff : h.getEffectiveKey = h.key := by simp [Hobject.getEffectiveKey, hk]
    rw [heff, if_pos hk]
    rcases lt_trichotomy h.key h.name with hlt | heq | hgt
    · simp [stringCompare, cmpField, hlt, hlt.ne]
    · simp [stringCompare, cmpField, heq]
    · simp [stringCompare, cmpField, hgt, hgt.not_gt, hgt.ne']

theorem keyEncodeShard_append_lt_iff (s t : Int8) (x y : Bytes) :
    keyEncodeShard s ++ x < keyEncodeShard t ++ y ↔ s < t ∨ (s = t ∧ x < y) := by
  rw [keyEncodeShard, keyEncodeShard, singleton_append, singleton_append,
    cons_lt_cons_iff, MachineInt.toUInt8_add_bias_lt_iff, MachineInt.toUInt8_add_bias_inj]

theorem keyEncodeU64_append_lt_iff (u v : UInt64) (x y : Bytes) :
    keyEncodeU64 u ++ x < keyEncodeU64 v ++ y ↔ u < v ∨ (u = v ∧ x < y) := by
  rw [keyEncodeU64, keyEncodeU64, bigEndian_append_lt_iff 8 u.toNat_lt v.toNat_lt,
    ← UInt64.lt_iff_toNat_lt, UInt64.toNat_inj]

theorem keyEncodeU32_append_lt_iff (u v : UInt32) (x y : Bytes) :
    keyEncodeU32 u ++ x < keyEncodeU32 v ++ y ↔ u < v ∨ (u = v ∧ x < y) := by
  rw [keyEncodeU32, keyEncodeU32, bigEndian_append_lt_iff 4 u.toNat_lt v.toNat_lt,
    ← UInt32.lt_iff_toNat_lt, UInt32.toNat_inj]

theorem keyEncodePool_append_lt_iff (p q : Int64) (x y : Bytes) :
    keyEncodeU64 (p.toUInt64 + 0x8000000000000000) ++ x
        < keyEncodeU64 (q.toUInt64 + 0x8000000000000000) ++ y
      ↔ p < q ∨ (p = q ∧ x < y) := by
  rw [keyEncodeU64, keyEncodeU64, bigEndian_append_lt_iff 8 (UInt64.toNat_lt _) (UInt64.toNat_lt _),
    MachineInt.toUInt64_add_bias_lt_iff, MachineInt.toUInt64_add_bias_inj]

/-- With equal effective keys the marker decides before the names do. -/
theorem nameTail_append_lt_iff {g h : Hobject} (heff : g.getEffectiveKey = h.getEffectiveKey)
    (x y : Bytes) :
    nameTail g ++ x < nameTail h ++ y ↔
      marker g < marker h ∨ (marker g = marker h ∧
        (g.name.map escapeRank < h.name.map escapeRank ∨ (g.name = h.name ∧ x < y))) := by
  unfold nameTail
  rw [cons_append, cons_append, cons_lt_cons_iff]
  refine or_congr Iff.rfl (and_congr_right fun hmark => ?_)
  have hiff : g.getEffectiveKey = g.name ↔ h.getEffectiveKey = h.name := by
    rw [← marker_eq_iff, ← marker_eq_iff, hmark]
  by_cases hg : g.getEffectiveKey = g.name
  · have hh := hiff.mp hg
    have hname : g.name = h.name := by rw [← hg, heff, hh]
    simp [hg, hh, hname]
  · have hh : ¬ h.getEffectiveKey = h.name := fun hc => hg (hiff.mpr hc)
    rw [if_neg hg, if_neg hh, appendEscaped_append_lt_iff]

/-! ## Reading a key back

`get_object_key` decodes the key it has just built and asserts that it finds the object
again. The assertion is what restricts it to regular objects. -/

/-- A return code of `get_key_object`, or a read past the end of the key, where the source
would go on with whatever memory follows. -/
inductive KeyError where
  | code (r : Int)
  | overrun
  deriving DecidableEq, Repr

/-- `h2i`: the value of a hexadecimal digit, 256 for any other character. -/
def h2i (c : UInt8) : Nat :=
  if 0x30 ≤ c ∧ c ≤ 0x39 then c.toNat - 0x30
  else if 0x61 ≤ c ∧ c ≤ 0x66 then c.toNat - 0x61 + 10
  else if 0x41 ≤ c ∧ c ≤ 0x46 then c.toNat - 0x41 + 10
  else 256

/-- `decode_escaped`: the decoded string and the input from the terminator on, or nothing for
`-EINVAL`. The terminating NUL of the key ends the string too, and is no digit. The source
collects the bytes in a buffer it flushes before it is full. -/
def decodeEscaped : Bytes → Option (Bytes × Bytes)
  | [] => some ([], [])
  | c :: p =>
    if c = 0 ∨ c = 0x21 then some ([], c :: p)
    else if c = 0x23 ∨ c = 0x7e then
      match p with
      | hi :: lo :: q =>
        if h2i hi <<< 4 > 255 then none
        else if (h2i hi <<< 4 ||| h2i lo) > 255 then none
        else (decodeEscaped q).map fun r => (UInt8.ofNat (h2i hi <<< 4 ||| h2i lo) :: r.1, r.2)
      | _ => none
    else (decodeEscaped p).map fun r => (c :: r.1, r.2)

/-- `decode_escaped`, then a step over the terminator; `r` is the caller's error code. -/
def decodeString (r : Int) (p : Bytes) : Except KeyError (Bytes × Bytes) :=
  match decodeEscaped p with
  | none => .error (.code r)
  | some (_, []) => .error .overrun
  | some (s, _ :: q) => .ok (s, q)

def keyDecodeShard : Bytes → Except KeyError (Int8 × Bytes)
  | [] => .error .overrun
  | c :: p => .ok ((c - 0x80).toInt8, p)

def keyDecodeU32 (p : Bytes) : Except KeyError (UInt32 × Bytes) :=
  if p.length < 4 then .error .overrun
  else .ok (UInt32.ofNat (ofBigEndian (p.take 4)), p.drop 4)

def keyDecodeU64 (p : Bytes) : Except KeyError (UInt64 × Bytes) :=
  if p.length < 8 then .error .overrun
  else .ok (UInt64.ofNat (ofBigEndian (p.take 8)), p.drop 8)

/-- The name and the locator key, from the string `k` in front of the marker. -/
def decodeName (k : Bytes) : Bytes → Except KeyError ((Bytes × Bytes) × Bytes)
  | [] => .error (.code (-6))
  | c :: p =>
    if c = 0x3d then .ok ((k, []), p)
    else if c = 0x3c ∨ c = 0x3e then do
      let (name, q) ← decodeString (-5) p
      return ((name, if k = name then [] else k), q)
    else .error (.code (-6))

/-- The `o` at the end, with nothing but a NUL after it. -/
def checkSuffix : Bytes → Except KeyError Unit
  | [] => .error (.code (-7))
  | c :: p =>
    if c ≠ 0x6f then .error (.code (-7))
    else if p.headD 0 ≠ 0 then .error (.code (-8))
    else .ok ()

def getKeyObject (key : Bytes) : Except KeyError Ghobject := do
  if key.length < 1 + 8 + 4 then throw (.code (-1))
  let (shardId, p) ← keyDecodeShard key
  let (pool, p) ← keyDecodeU64 p
  let (hash, p) ← keyDecodeU32 p
  let (nspace, p) ← decodeString (-2) p
  let (k, p) ← decodeString (-3) p
  let ((name, key), p) ← decodeName k p
  let (snap, p) ← keyDecodeU64 p
  let (generation, p) ← keyDecodeU64 p
  checkSuffix p
  return {
    hobj := { name, key, snap, hash := reverseBits hash, max := false,
              pool := (pool - 0x8000000000000000).toInt64, nspace }
    generation, shardId, max := false }

/-- `get_object_key`: the key, or nothing where an assertion fails. -/
def getObjectKey (oid : Ghobject) : Option Bytes :=
  -- `get_bitwise_key_u32` asserts that the object is not the maximum
  if oid.hobj.max then none
  else if getKeyObject (objectKey oid) = .ok oid then some (objectKey oid)
  else none

theorem keyDecodeShard_append (s : Int8) (x : Bytes) :
    keyDecodeShard (keyEncodeShard s ++ x) = .ok (s, x) := by
  simp [keyEncodeShard, keyDecodeShard]

theorem keyDecodeU64_append (u : UInt64) (x : Bytes) :
    keyDecodeU64 (keyEncodeU64 u ++ x) = .ok (u, x) := by
  have hlen : (keyEncodeU64 u).length = 8 := bigEndian_length _ _
  have hval : ofBigEndian (keyEncodeU64 u) = u.toNat := ofBigEndian_bigEndian 8 u.toNat_lt
  rw [keyDecodeU64, if_neg (by rw [length_append]; omega), take_left' hlen,
    drop_left' hlen, hval, UInt64.ofNat_toNat]

theorem keyDecodeU32_append (u : UInt32) (x : Bytes) :
    keyDecodeU32 (keyEncodeU32 u ++ x) = .ok (u, x) := by
  have hlen : (keyEncodeU32 u).length = 4 := bigEndian_length _ _
  have hval : ofBigEndian (keyEncodeU32 u) = u.toNat := ofBigEndian_bigEndian 4 u.toNat_lt
  rw [keyDecodeU32, if_neg (by rw [length_append]; omega), take_left' hlen,
    drop_left' hlen, hval, UInt32.ofNat_toNat]

theorem decodeEscaped_terminator (x : Bytes) :
    decodeEscaped (0x21 :: x) = some ([], 0x21 :: x) := by
  rw [decodeEscaped.eq_def]
  simp

theorem decodeEscaped_plain {c : UInt8} (hend : ¬ (c = 0 ∨ c = 0x21))
    (hmark : ¬ (c = 0x23 ∨ c = 0x7e)) (x : Bytes) :
    decodeEscaped (c :: x) = (decodeEscaped x).map fun r => (c :: r.1, r.2) := by
  rw [decodeEscaped.eq_def (c :: x)]
  simp only [if_neg hend, if_neg hmark]

theorem decodeEscaped_hexEscape {mark : UInt8} (hmark : mark = 0x23 ∨ mark = 0x7e) (c : UInt8)
    (x : Bytes) :
    decodeEscaped (hexEscape mark c ++ x) = (decodeEscaped x).map fun r => (c :: r.1, r.2) := by
  have hc := c.toNat_lt
  have htable : ∀ i < 16, h2i (hexDigits.getD i 0) = i := by decide
  have hhi := htable (c.toNat / 16) (by omega)
  have hlo := htable (c.toNat % 16) (by omega)
  have hshift : (c.toNat / 16) <<< 4 = c.toNat / 16 * 16 := Nat.shiftLeft_eq _ _
  have hor : (c.toNat / 16) <<< 4 ||| c.toNat % 16 = c.toNat := by
    rw [← Nat.shiftLeft_add_eq_or_of_lt (by omega), hshift]
    omega
  have hend : ¬ (mark = 0 ∨ mark = 0x21) := by
    rcases hmark with rfl | rfl <;> decide
  rw [hexEscape_eq, cons_append, cons_append, cons_append, nil_append, decodeEscaped, if_neg hend,
    if_pos hmark]
  simp only [hhi, hlo, hor]
  rw [if_neg (by rw [hshift]; omega), if_neg (by omega), UInt8.ofNat_toNat]

theorem decodeEscaped_escapeByte (c : UInt8) (x : Bytes) :
    decodeEscaped (escapeByte c ++ x) = (decodeEscaped x).map fun r => (c :: r.1, r.2) := by
  rw [escapeByte_eq]
  by_cases h1 : c.toNat < 0x24 ∨ 0x80 ≤ c.toNat
  · rw [if_pos h1, decodeEscaped_hexEscape (.inl rfl)]
  · rw [if_neg h1]
    by_cases h2 : 0x7e ≤ c.toNat
    · rw [if_pos h2, decodeEscaped_hexEscape (.inr rfl)]
    · -- a byte written as itself is neither a terminator nor a mark
      have hne : ∀ d : UInt8, d.toNat < 0x24 ∨ 0x7e ≤ d.toNat → c ≠ d := by
        rintro d hd rfl
        omega
      rw [if_neg h2, singleton_append]
      exact decodeEscaped_plain (by simp [hne 0 (by decide), hne 0x21 (by decide)])
        (by simp [hne 0x23 (by decide), hne 0x7e (by decide)]) x

/-- **A string survives escaping.** -/
theorem decodeEscaped_appendEscaped (s x : Bytes) :
    decodeEscaped (appendEscaped s ++ x) = some (s, 0x21 :: x) := by
  induction s with
  | nil => exact decodeEscaped_terminator x
  | cons c s ih =>
    have hcons : appendEscaped (c :: s) ++ x = escapeByte c ++ (appendEscaped s ++ x) :=
      escapeCode.encode_cons_append c s x
    rw [hcons, decodeEscaped_escapeByte, ih]
    rfl

theorem decodeString_appendEscaped (r : Int) (s x : Bytes) :
    decodeString r (appendEscaped s ++ x) = .ok (s, x) := by
  rw [decodeString, decodeEscaped_appendEscaped]

theorem decodeName_nameTail {h : Hobject} (hc : h.Canonical) (x : Bytes) :
    decodeName h.getEffectiveKey (nameTail h ++ x) = .ok ((h.name, h.key), x) := by
  unfold nameTail
  by_cases heq : h.getEffectiveKey = h.name
  · have hkey : h.key = [] := by
      rcases hc with hk | hk
      · exact hk
      · by_contra hne
        exact hk (by simpa [Hobject.getEffectiveKey, hne] using heq)
    rw [if_pos heq, cons_append, decodeName, if_pos ((marker_eq_iff h).mpr heq), heq, hkey]
    rfl
  · have hkey : h.getEffectiveKey = h.key := by
      by_cases hk : h.key = []
      · exact absurd (by simp [Hobject.getEffectiveKey, hk]) heq
      · simp [Hobject.getEffectiveKey, hk]
    have hside : marker h = 0x3c ∨ marker h = 0x3e := by
      rcases lt_or_gt_of_ne heq with hlt | hgt
      · exact .inl (by simp [marker, hlt])
      · exact .inr (by simp [marker, hgt, hgt.not_gt])
    rw [if_neg heq, cons_append, decodeName, if_neg (mt (marker_eq_iff h).mp heq),
      if_pos hside, decodeString_appendEscaped]
    show Except.ok ((h.name, if h.getEffectiveKey = h.name then [] else h.getEffectiveKey), x) = _
    rw [if_neg heq, hkey]

/-- **A regular object is found again in its key.** -/
theorem getKeyObject_objectKey {oid : Ghobject} (h : oid.Regular) :
    getKeyObject (objectKey oid) = .ok oid := by
  have hlen : ¬ (objectKey oid).length < 1 + 8 + 4 := by
    simp only [objectKey, keyEncodeShard, keyEncodeU64, keyEncodeU32, length_append,
      bigEndian_length, length_singleton]
    omega
  unfold getKeyObject
  rw [if_neg hlen]
  unfold objectKey
  rw [keyAndName_eq, append_assoc, keyDecodeShard_append]
  have hsuffix : checkSuffix [0x6f] = .ok () := rfl
  have hpool : (oid.hobj.pool.toUInt64 + 0x8000000000000000 - 0x8000000000000000).toInt64
      = oid.hobj.pool := by simp
  simp only [keyDecodeU64_append, keyDecodeU32_append, decodeString_appendEscaped,
    decodeName_nameTail h.canonical, hsuffix, hpool, Except.bind, bind,
    Hobject.getBitwiseKeyU32, reverseBits_reverseBits]
  obtain ⟨⟨name, key, snap, hash, hobjMax, pool, nspace⟩, generation, shardId, max⟩ := oid
  obtain rfl : hobjMax = false := h.hobjNotMax
  obtain rfl : max = false := h.notMax
  rfl

theorem getObjectKey_eq_some {oid : Ghobject} (h : oid.Regular) :
    getObjectKey oid = some (objectKey oid) := by
  rw [getObjectKey, if_neg (by simp [h.hobjNotMax]), if_pos (getKeyObject_objectKey h)]

/-! ## Which pairs are in order -/

/-- The bytes `append_escaped` puts out of order: a printable one and one from `0x80` on. -/
def Crosses (x y : UInt8) : Prop :=
  (0x24 ≤ x.toNat ∧ x.toNat < 0x80 ∧ 0x80 ≤ y.toNat) ∨
    (0x24 ≤ y.toNat ∧ y.toNat < 0x80 ∧ 0x80 ≤ x.toNat)

instance (x y : UInt8) : Decidable (Crosses x y) := inferInstanceAs (Decidable (_ ∨ _))

/-- Escaping keeps the order of two strings: their first difference does not cross. -/
def EscapeSafe : Bytes → Bytes → Prop
  | x :: s, y :: t => if x = y then EscapeSafe s t else ¬ Crosses x y
  | _, _ => True

instance decidableEscapeSafe : (s t : Bytes) → Decidable (EscapeSafe s t)
  | x :: s, y :: t =>
    if h : x = y then
      haveI := decidableEscapeSafe s t
      decidable_of_iff (EscapeSafe s t) (by simp [EscapeSafe, h])
    else decidable_of_iff (¬ Crosses x y) (by simp [EscapeSafe, h])
  | [], _ => isTrue (by simp [EscapeSafe])
  | _ :: _, [] => isTrue (by simp [EscapeSafe])

theorem escapeRank_lt_iff_iff (x y : UInt8) :
    (escapeRank x < escapeRank y ↔ x < y) ↔ ¬ Crosses x y := by
  have hx := x.toNat_lt
  have hy := y.toNat_lt
  rw [UInt8.lt_iff_toNat_lt]
  unfold escapeRank Crosses
  split_ifs <;> omega

/-- **When escaping keeps the order of two strings.** -/
theorem map_escapeRank_lt_iff_iff (s t : Bytes) :
    (s.map escapeRank < t.map escapeRank ↔ s < t) ↔ EscapeSafe s t := by
  induction s generalizing t with
  | nil => cases t <;> simp [EscapeSafe]
  | cons x s ih =>
    cases t with
    | nil => simp [EscapeSafe]
    | cons y t =>
      rw [map_cons, map_cons, cons_lt_cons_iff, cons_lt_cons_iff,
        escapeRank_injective.eq_iff, EscapeSafe]
      by_cases hxy : x = y
      · subst hxy
        simpa using ih t
      · simpa [hxy] using escapeRank_lt_iff_iff x y

/-- The pairs of objects whose keys compare like the objects. Among objects with the same
shard, pool and hash, the first string field they differ in must be one escaping keeps in
order; and two names under one locator key must lie on the same side of it. -/
def KeyOrderOk (a b : Ghobject) : Prop :=
  a.shardId = b.shardId → a.hobj.pool = b.hobj.pool → a.hobj.hash = b.hobj.hash →
    EscapeSafe a.hobj.nspace b.hobj.nspace ∧ (a.hobj.nspace = b.hobj.nspace →
      EscapeSafe a.hobj.getEffectiveKey b.hobj.getEffectiveKey ∧
      (a.hobj.getEffectiveKey = b.hobj.getEffectiveKey →
        marker a.hobj = marker b.hobj ∧ EscapeSafe a.hobj.name b.hobj.name))

instance (a b : Ghobject) : Decidable (KeyOrderOk a b) :=
  inferInstanceAs (Decidable (_ → _ → _ → _))

theorem objectKey_lt_iff (a b : Ghobject) :
    objectKey a < objectKey b ↔
      a.shardId < b.shardId ∨ (a.shardId = b.shardId ∧
      (a.hobj.pool < b.hobj.pool ∨ (a.hobj.pool = b.hobj.pool ∧
      (a.hobj.getBitwiseKeyU32 < b.hobj.getBitwiseKeyU32 ∨
        (a.hobj.getBitwiseKeyU32 = b.hobj.getBitwiseKeyU32 ∧
      (a.hobj.nspace.map escapeRank < b.hobj.nspace.map escapeRank ∨
        (a.hobj.nspace = b.hobj.nspace ∧
      (a.hobj.getEffectiveKey.map escapeRank < b.hobj.getEffectiveKey.map escapeRank ∨
        (a.hobj.getEffectiveKey = b.hobj.getEffectiveKey ∧
      (nameTail a.hobj ++ (keyEncodeU64 a.hobj.snap ++ (keyEncodeU64 a.generation ++ [0x6f]))
        < nameTail b.hobj ++
          (keyEncodeU64 b.hobj.snap ++ (keyEncodeU64 b.generation ++ [0x6f])))))))))))) := by
  simp only [objectKey, keyAndName_eq, append_assoc, keyEncodeShard_append_lt_iff,
    keyEncodePool_append_lt_iff, keyEncodeU32_append_lt_iff, appendEscaped_append_lt_iff]

theorem snapGeneration_lt_iff (a b : Ghobject) :
    keyEncodeU64 a.hobj.snap ++ (keyEncodeU64 a.generation ++ [0x6f])
        < keyEncodeU64 b.hobj.snap ++ (keyEncodeU64 b.generation ++ [0x6f])
      ↔ a.hobj.snap < b.hobj.snap ∨ (a.hobj.snap = b.hobj.snap ∧ a.generation < b.generation) := by
  simp [keyEncodeU64_append_lt_iff]

/-- Under one effective key, the order of the names is kept exactly if the markers agree and
escaping keeps it. -/
theorem nameTail_lt_iff_iff {g h : Hobject} (heff : g.getEffectiveKey = h.getEffectiveKey)
    {x y : Bytes} {Y : Prop} (hxy : x < y ↔ Y) :
    (nameTail g ++ x < nameTail h ++ y ↔ g.name < h.name ∨ (g.name = h.name ∧ Y)) ↔
      marker g = marker h ∧ EscapeSafe g.name h.name := by
  rw [nameTail_append_lt_iff heff]
  rcases lt_trichotomy (marker g) (marker h) with hlt | heq | hgt
  · -- the keys put `g` first, the objects put `h` first
    have hname := name_lt_of_marker_lt heff hlt
    simp [hlt, hlt.ne, hname.not_gt, hname.ne']
  · have hrank : g.name.map escapeRank < h.name.map escapeRank → ¬ g.name = h.name := by
      intro hr hn
      rw [hn] at hr
      exact lt_irrefl _ hr
    simp only [heq, lt_self_iff_false, true_and, false_or]
    rw [lex_iff_iff hrank (fun hl => hl.ne), map_escapeRank_lt_iff_iff]
    simp [hxy]
  · have hname := name_lt_of_marker_lt heff.symm hgt
    simp [hgt.not_gt, hgt.ne', hname]

theorem cmp_neg_iff {a b : Ghobject} (ha : a.Regular) (hb : b.Regular) :
    Ghobject.cmp a b < 0 ↔
      a.shardId < b.shardId ∨ (a.shardId = b.shardId ∧
      (a.hobj.pool < b.hobj.pool ∨ (a.hobj.pool = b.hobj.pool ∧
      (a.hobj.getBitwiseKeyU32 < b.hobj.getBitwiseKeyU32 ∨
        (a.hobj.getBitwiseKeyU32 = b.hobj.getBitwiseKeyU32 ∧
      (a.hobj.nspace < b.hobj.nspace ∨ (a.hobj.nspace = b.hobj.nspace ∧
      (a.hobj.getEffectiveKey < b.hobj.getEffectiveKey ∨
        (a.hobj.getEffectiveKey = b.hobj.getEffectiveKey ∧
      (a.hobj.name < b.hobj.name ∨ (a.hobj.name = b.hobj.name ∧
      (a.hobj.snap < b.hobj.snap ∨
        (a.hobj.snap = b.hobj.snap ∧ a.generation < b.generation))))))))))))) := by
  have hlt : a.hobj.getBitwiseKey < b.hobj.getBitwiseKey ↔
      a.hobj.getBitwiseKeyU32 < b.hobj.getBitwiseKeyU32 := by
    simp [Hobject.getBitwiseKey, ha.hobjNotMax, hb.hobjNotMax, UInt64.lt_iff_toNat_lt,
      UInt32.lt_iff_toNat_lt]
  have heq : a.hobj.getBitwiseKey = b.hobj.getBitwiseKey ↔
      a.hobj.getBitwiseKeyU32 = b.hobj.getBitwiseKeyU32 := by
    simp [Hobject.getBitwiseKey, ha.hobjNotMax, hb.hobjNotMax, ← UInt64.toNat_inj,
      ← UInt32.toNat_inj]
  rw [Ghobject.cmp_eq_chain, ha.notMax, hb.notMax, ha.hobjNotMax, hb.hobjNotMax]
  simp only [cmpField_neg_iff, lt_self_iff_false, true_and, false_or, and_false, or_false,
    hlt, heq]

/-- **The pairs of objects whose keys are in order.** Every two regular objects have keys,
and the byte order of the keys is the order of the objects for exactly the pairs described
by `KeyOrderOk`. -/
theorem getObjectKey_lt_iff_cmp (a b : Ghobject) (ha : a.Regular) (hb : b.Regular) :
    ∃ ka kb, getObjectKey a = some ka ∧ getObjectKey b = some kb ∧
      ((ka < kb ↔ Ghobject.cmp a b < 0) ↔ KeyOrderOk a b) := by
  refine ⟨objectKey a, objectKey b, getObjectKey_eq_some ha, getObjectKey_eq_some hb, ?_⟩
  have hrank : ∀ s t : Bytes, s.map escapeRank < t.map escapeRank → ¬ s = t := by
    rintro s t hr rfl
    exact lt_irrefl _ hr
  have hne : ∀ {α : Type} [LinearOrder α] (x y : α), x < y → ¬ x = y := fun x y h => h.ne
  -- the fields in front of the strings compare alike, the strings need not
  rw [objectKey_lt_iff, cmp_neg_iff ha hb, lex_iff_iff (hne _ _) (hne _ _),
    lex_iff_iff (hne _ _) (hne _ _), lex_iff_iff (hne _ _) (hne _ _),
    lex_iff_iff (hrank _ _) (hne _ _), lex_iff_iff (hrank _ _) (hne _ _),
    map_escapeRank_lt_iff_iff, map_escapeRank_lt_iff_iff, Hobject.getBitwiseKeyU32_inj]
  simp only [true_and, KeyOrderOk]
  refine imp_congr_right fun _ => imp_congr_right fun _ => imp_congr_right fun _ =>
    and_congr_right fun _ => imp_congr_right fun _ => and_congr_right fun _ =>
      imp_congr_right fun heff => ?_
  exact nameTail_lt_iff_iff heff (snapGeneration_lt_iff a b)

/-- A head object of pool 1, in the default namespace. -/
def headObject (name key : Bytes) (hash : UInt32) : Ghobject :=
  { hobj := Hobject.mk' name key noSnap hash 1 [], generation := 0xffffffffffffffff,
    shardId := -1, max := false }

theorem regular_headObject (name key : Bytes) (hash : UInt32) :
    (headObject name key hash).Regular :=
  ⟨rfl, rfl, Hobject.canonical_mk' _ _ _ _ _ _⟩

/-- The objects `a` and `b` are in order, as their names decide. -/
theorem getObjectKey_lt_iff_cmp_names :
    ∃ ka kb, getObjectKey (headObject [0x61] [] 5) = some ka ∧
      getObjectKey (headObject [0x62] [] 5) = some kb ∧
      ((ka < kb ↔ Ghobject.cmp (headObject [0x61] [] 5) (headObject [0x62] [] 5) < 0) ↔
        KeyOrderOk (headObject [0x61] [] 5) (headObject [0x62] [] 5)) :=
  getObjectKey_lt_iff_cmp _ _ (regular_headObject _ _ _) (regular_headObject _ _ _)

/-- **Both ways to lose the order.** The names `a` and `\x80`: the signed comparison escapes
the second one to `#80`, below `a`. And the names `a` and `z` under the locator key `m`: the
marker of `a` is `>`, that of `z` is `<`. -/
theorem getObjectKey_misordered :
    (∃ ka kb, getObjectKey (headObject [0x61] [] 5) = some ka ∧
      getObjectKey (headObject [0x80] [] 5) = some kb ∧ kb < ka ∧
      Ghobject.cmp (headObject [0x61] [] 5) (headObject [0x80] [] 5) < 0) ∧
    (∃ ka kb, getObjectKey (headObject [0x61] [0x6d] 5) = some ka ∧
      getObjectKey (headObject [0x7a] [0x6d] 5) = some kb ∧ kb < ka ∧
      Ghobject.cmp (headObject [0x61] [0x6d] 5) (headObject [0x7a] [0x6d] 5) < 0) := by
  refine ⟨⟨_, _, getObjectKey_eq_some (regular_headObject _ _ _),
    getObjectKey_eq_some (regular_headObject _ _ _), ?_, ?_⟩,
    ⟨_, _, getObjectKey_eq_some (regular_headObject _ _ _),
    getObjectKey_eq_some (regular_headObject _ _ _), ?_, ?_⟩⟩
  all_goals decide

end Ceph.BlueStore
