import Ceph.BlueStore.CollectionList

set_option autoImplicit false

/-! # The keys of extent shards

An extent map that has grown too large for its onode is kept in shards, each under the onode's
key followed by the offset of the shard and an `x` (`get_extent_shard_key`). An iterator over the
objects meets the shards of an onode right behind it, and tells them apart by the last byte.

This rests on onode keys being prefix-free (`onode_key_codec`): two of them are told apart before
either ends, so that nothing written behind one of them moves it past another.
-/

namespace Ceph.BlueStore

open List LexCode

/-! ## The staging buffer -/

/-- The string `decode_escaped` appends to and its buffer, which has room for the next bytes. -/
structure Staging where
  out : Bytes
  buff : Bytes
  fits : buff.length ≤ 252

/-- One byte more; a buffer that gets past `max` is appended to the string. -/
def Staging.push (s : Staging) (c : UInt8) : Staging :=
  if h : (s.buff ++ [c]).length ≤ 252 then ⟨s.out, s.buff ++ [c], h⟩
  else ⟨s.out ++ (s.buff ++ [c]), [], Nat.zero_le _⟩

/-- The string, with what is left in the buffer. -/
def Staging.text (s : Staging) : Bytes := s.out ++ s.buff

theorem Staging.text_push (s : Staging) (c : UInt8) : (s.push c).text = s.text ++ [c] := by
  unfold push text
  split <;> simp

/-- `decode_escaped` with its buffer. -/
def decodeStaged (s : Staging) : Bytes → Option (Bytes × Bytes)
  | [] => some (s.text, [])
  | c :: p =>
    if c = 0 ∨ c = 0x21 then some (s.text, c :: p)
    else if c = 0x23 ∨ c = 0x7e then
      match p with
      | hi :: lo :: q =>
        if h2i hi <<< 4 > 255 then none
        else if (h2i hi <<< 4 ||| h2i lo) > 255 then none
        else decodeStaged (s.push (UInt8.ofNat (h2i hi <<< 4 ||| h2i lo))) q
      | _ => none
    else decodeStaged (s.push c) p

/-- The buffer makes no difference. -/
theorem decodeStaged_eq (s : Staging) (p : Bytes) :
    decodeStaged s p = (decodeEscaped p).map fun r => (s.text ++ r.1, r.2) := by
  fun_induction decodeStaged s p with
  | case1 s => simp [decodeEscaped]
  | case2 s c p hend =>
    rw [decodeEscaped.eq_def]
    simp [hend]
  | case3 s c hend hmark hi lo q hhi =>
    simp only [decodeEscaped, if_neg hend, if_pos hmark, if_pos hhi, Option.map_none]
  | case4 s c hend hmark hi lo q hhi hlo =>
    simp only [decodeEscaped, if_neg hend, if_pos hmark, if_neg hhi, if_pos hlo, Option.map_none]
  | case5 s c hend hmark hi lo q hhi hlo ih =>
    rw [ih, s.text_push]
    simp only [decodeEscaped, if_neg hend, if_pos hmark, if_neg hhi, if_neg hlo, Option.map_map]
    congr 1
    funext r
    simp
  | case6 s c p hend hmark hshort => simp_all [decodeEscaped]
  | case7 s c p hend hmark ih =>
    rw [ih, s.text_push, decodeEscaped_plain hend hmark, Option.map_map]
    congr 1
    funext r
    simp

/-! ## Shard keys -/

/-- `get_key_extent_shard`; nothing where an assertion fails. -/
def getKeyExtentShard (key : Bytes) : Option (Bytes × UInt32) :=
  if 4 + 1 < key.length ∧ key.getLast? = some 0x78 then
    let okeyLen := key.length - 4 - 1
    match keyDecodeU32 (key.drop okeyLen) with
    | .ok (offset, _) => some (key.take okeyLen, offset)
    | .error _ => none
  else none

variable {a b : Ghobject}

/-- What follows two keys does not change their order. -/
theorem objectKey_append_lt (h : objectKey a < objectKey b) (x y : Bytes) :
    objectKey a ++ x < objectKey b ++ y := by
  simp only [objectKey, keyAndName_eq, append_assoc, keyEncodeShard_append_lt_iff,
    keyEncodePool_append_lt_iff, keyEncodeU32_append_lt_iff, appendEscaped_append_lt_iff] at h ⊢
  -- all fields up to the effective key decide alike
  refine Or.imp_right (And.imp_right (Or.imp_right (And.imp_right (Or.imp_right (And.imp_right
    (Or.imp_right (And.imp_right (Or.imp_right ?_)))))))) h
  rintro ⟨heff, hlt⟩
  refine ⟨heff, ?_⟩
  rw [nameTail_append_lt_iff heff] at hlt ⊢
  simp only [keyEncodeU64_append_lt_iff, lt_irrefl, and_false, or_false] at hlt ⊢
  refine hlt.imp_right (And.imp_right (Or.imp_right (And.imp_right ?_)))
  exact Or.imp_right fun hsnap => ⟨hsnap.1, .inl hsnap.2⟩

theorem eq_of_objectKey_isPrefix (h : objectKey a <+: objectKey b) : objectKey a = objectKey b := by
  obtain ⟨x, hx⟩ := h
  rcases lt_trichotomy (objectKey a) (objectKey b) with hlt | heq | hgt
  · -- the longer key would sort before itself
    have hself := objectKey_append_lt hlt x []
    rw [append_nil, hx] at hself
    exact absurd hself (lt_irrefl _)
  · exact heq
  · have hself := objectKey_append_lt hgt [] x
    rw [append_nil, hx] at hself
    exact absurd hself (lt_irrefl _)

theorem lt_getExtentShardKey (k : Bytes) (offset : UInt32) : k < getExtentShardKey k offset := by
  calc k = k ++ [] := (append_nil k).symm
    _ < k ++ (keyEncodeU32 offset ++ [0x78]) := by
      rw [append_lt_append_left_iff]
      simp [keyEncodeU32, bigEndian]

theorem getKeyExtentShard_getExtentShardKey {k : Bytes} (hk : k ≠ []) (offset : UInt32) :
    getKeyExtentShard (getExtentShardKey k offset) = some (k, offset) := by
  have hpos := length_pos_iff.mpr hk
  have hlen : (getExtentShardKey k offset).length = k.length + 5 := by
    simp [getExtentShardKey, keyEncodeU32, bigEndian_length]
  have hlast : (getExtentShardKey k offset).getLast? = some 0x78 := by
    simp [getExtentShardKey, getLast?_append]
  unfold getKeyExtentShard
  rw [if_pos ⟨by omega, hlast⟩, hlen, show k.length + 5 - 4 - 1 = k.length by omega]
  simp only [getExtentShardKey, drop_left, take_left, keyDecodeU32_append]

/-- **Onode keys and the keys of their shards.** The key of a regular object is read back, it is
no proper prefix of another key, and the key of a shard is told apart from it, sorts behind it and
in front of every greater onode key, and is taken apart again. -/
theorem onode_key_codec (o o' : Ghobject) (h : o.Regular) (h' : o'.Regular) (offset : UInt32) :
    ∃ k k', getObjectKey o = some k ∧ getObjectKey o' = some k' ∧ getKeyObject k = .ok o ∧
      (k <+: k' → k = k') ∧
      isExtentShardKey (getExtentShardKey k offset) = true ∧ isExtentShardKey k = false ∧
      k < getExtentShardKey k offset ∧ (k < k' → getExtentShardKey k offset < k') ∧
      getKeyExtentShard (getExtentShardKey k offset) = some (k, offset) := by
  have hne : objectKey o ≠ [] := by simp [objectKey, keyEncodeShard]
  refine ⟨objectKey o, objectKey o', getObjectKey_eq_some h, getObjectKey_eq_some h',
    getKeyObject_objectKey h, eq_of_objectKey_isPrefix,
    isExtentShardKey_getExtentShardKey _ _, isExtentShardKey_objectKey o,
    lt_getExtentShardKey _ _, ?_, getKeyExtentShard_getExtentShardKey hne offset⟩
  intro hlt
  have happ := objectKey_append_lt hlt (keyEncodeU32 offset ++ [0x78]) []
  rwa [append_nil] at happ

/-- The names `a` and `a!`. -/
theorem onode_key_codec_names :
    ∃ k k', getObjectKey (headObject [0x61] [] 5) = some k ∧
      getObjectKey (headObject [0x61, 0x21] [] 5) = some k' ∧
      getKeyObject k = .ok (headObject [0x61] [] 5) ∧ (k <+: k' → k = k') ∧
      isExtentShardKey (getExtentShardKey k 0x78) = true ∧ isExtentShardKey k = false ∧
      k < getExtentShardKey k 0x78 ∧ (k < k' → getExtentShardKey k 0x78 < k') ∧
      getKeyExtentShard (getExtentShardKey k 0x78) = some (k, 0x78) :=
  onode_key_codec _ _ (regular_headObject _ _ _) (regular_headObject _ _ _) _

end Ceph.BlueStore
