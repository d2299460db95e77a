import Ceph.Common.HobjectPrefix
import Ceph.Lib.PrefixScan

set_option autoImplicit false

/-! # The index of snapshots

`SnapMapper` (`osd/SnapMapper.cc`) keeps for each clone the snapshots it belongs to, under a key
`OBJ_`, and for each snapshot the clones that have to be looked at when it is trimmed, under keys
`MAP_`. All keys are in one flat key space. The key of a snapshot and an object is the number of the
snapshot in sixteen hexadecimal digits and the string of the object, so that the objects of a
snapshot stand together and those of a placement group under few prefixes.

The number of the snapshot is cast to `unsigned` before it is written: two snapshots whose ids agree
in their low 32 bits have the same keys (`toRawKey_eq_iff`).
-/

namespace Ceph.Osd

open List LexCode PrefixScan Hobject

/-! ## The model -/

/-- What is stored under a key: a `Mapping`, or the `object_snaps` of an object. -/
inductive SnapValue where
  | mapping (snap : UInt64) (hoid : Soid)
  | objectSnaps (oid : Soid) (snaps : OrdSet UInt64)
  deriving DecidableEq

/-- The key space. -/
abbrev SnapStore := OrdMap Bytes SnapValue

/-- `SnapMapper`: the placement group, and the option `osd_debug_verify_snaps`. With 32 bits the
mask of `match_hash` would be shifted by the width of its type. -/
structure SnapMapper where
  maskBits : ℕ
  maskBits_lt : maskBits < 32
  matchValue : UInt32
  pool : Int64
  shard : Int8
  debugVerifySnaps : Bool

/-- `-ENOENT`. -/
def SnapMapper.enoent : ℤ := -2

/-- `MAPPING_PREFIX`: `"MAP_"`. -/
def mappingPrefix : Bytes := [0x4d, 0x41, 0x50, 0x5f]

/-- `OBJECT_PREFIX`: `"OBJ_"`. -/
def objectPrefix : Bytes := [0x4f, 0x42, 0x4a, 0x5f]

/-- What the keys have of the snapshot: the cast to `unsigned` keeps 32 bits. -/
def snapDigits (snap : UInt64) : Bytes := fixedWidth 16 upperHexDigit 16 snap.toUInt32.toNat

def getPrefix (snap : UInt64) : Bytes := mappingPrefix ++ (snapDigits snap ++ [0x5f])

def isMapping (key : Bytes) : Bool := key.take mappingPrefix.length == mappingPrefix

def makeShardPrefix (shard : Int8) : Bytes :=
  if shard = -1 then [] else 0x2e :: (hexString shard.toInt32.toUInt32.toUInt64 ++ [0x5f])

namespace SnapMapper

variable (m : SnapMapper)

def shardPrefix : Bytes := makeShardPrefix m.shard

def toRawKey (snap : UInt64) (hoid : Soid) : Bytes :=
  getPrefix snap ++ (m.shardPrefix ++ hoid.val.toStr)

def toObjectKey (hoid : Soid) : Bytes := objectPrefix ++ (m.shardPrefix ++ hoid.val.toStr)

/-- `prefixes`, as `update_bits` computes them. -/
def prefixes : OrdSet Bytes :=
  OrdMap.empty.insertAll
    ((getPrefixes m.maskBits m.matchValue m.pool).keys.map fun p => m.shardPrefix ++ p)

def check (hoid : Soid) : Bool := matchHash hoid.val.hash m.maskBits m.matchValue

/-- `get_snaps`: nothing where it aborts, and no snaps for `-ENOENT`. -/
def getSnaps (store : SnapStore) (oid : Soid) : Option (Option (OrdSet UInt64)) :=
  if m.check oid then
    match store.get (m.toObjectKey oid) with
    | none => some none
    | some (.objectSnaps _ snaps) =>
      if snaps = .empty ∧ m.debugVerifySnaps then none else some (some snaps)
    | some (.mapping _ _) => none
  else none

/-- The keys of an object for a list of snapshots are removed. -/
def removeKeys (store : SnapStore) (oid : Soid) (snaps : List UInt64) : SnapStore :=
  snaps.foldl (fun store snap => store.erase (m.toRawKey snap oid)) store

def removeOid (store : SnapStore) (oid : Soid) : Option (ℤ × SnapStore) :=
  (m.getSnaps store oid).map fun
    | none => (enoent, store)
    | some snaps => (0, m.removeKeys (store.erase (m.toObjectKey oid)) oid snaps.keys)

def updateSnaps (store : SnapStore) (oid : Soid) (newSnaps : OrdSet UInt64)
    (oldSnapsCheck : Option (OrdSet UInt64)) : Option (ℤ × SnapStore) :=
  if newSnaps = .empty then m.removeOid store oid
  else (m.getSnaps store oid).bind fun out =>
    let snaps := out.getD .empty
    if oldSnapsCheck.any (fun old => decide (snaps ≠ old)) then none
    else some (0, m.removeKeys (store.insert (m.toObjectKey oid) (.objectSnaps oid newSnaps)) oid
      (snaps.keys.filter fun snap => decide (snap ∉ newSnaps)))

/-- The keys that `add_oid` sets. A key that two snapshots have gets the mapping of the first. -/
def keysToAdd (oid : Soid) (snaps : OrdSet UInt64) : SnapStore :=
  snaps.keys.foldl (fun keys snap => keys.insertNew (m.toRawKey snap oid) (.mapping snap oid))
    .empty

def addOid (store : SnapStore) (oid : Soid) (snaps : OrdSet UInt64) : Option SnapStore :=
  if snaps = .empty then none
  else do
    let out ← m.getSnaps store oid
    let store ← match out with
      | none => some store
      | some _ => if m.debugVerifySnaps then none else (m.removeOid store oid).map Prod.snd
    let store := store.insert (m.toObjectKey oid) (.objectSnaps oid snaps)
    return store.update (m.keysToAdd oid snaps)

/-- What the loop of `get_next_objects_to_trim` does with an entry; nothing where an assertion
fails. -/
def decodeNext (snap : UInt64) (e : Bytes × SnapValue) : Option Soid :=
  if isMapping e.1 then
    match e.2 with
    | .mapping s hoid => if s = snap ∧ m.check hoid then some hoid else none
    | .objectSnaps _ _ => none
  else none

/-- The inner loop of `get_next_objects_to_trim`, with room for so many objects: whether there was
no next key, and the objects so far. -/
def scanPrefix (store : SnapStore) (snap : UInt64) (p : Bytes) :
    ℕ → Bytes → List Soid → Option (Bool × List Soid)
  | 0, _, out => some (false, out)
  | room + 1, pos, out =>
    match next store pos with
    | none => some (true, out)
    | some e =>
      if p <+: e.1 then
        (m.decodeNext snap e).bind fun hoid => scanPrefix store snap p room e.1 (out ++ [hoid])
      else some (false, out)

/-- The outer loop of `get_next_objects_to_trim`. -/
def scanPrefixes (store : SnapStore) (snap : UInt64) (max : ℕ) :
    List Bytes → List Soid → Option (List Soid)
  | [], out => some out
  | p :: ps, out =>
    if out.length < max then
      (m.scanPrefix store snap p (max - out.length) p out).bind fun r =>
        if r.1 then some r.2 else scanPrefixes store snap max ps r.2
    else some out

/-- `get_next_objects_to_trim`: the result and the objects; nothing where an assertion fails. -/
def getNextObjectsToTrim (store : SnapStore) (snap : UInt64) (max : ℕ) :
    Option (ℤ × List Soid) :=
  (m.scanPrefixes store snap max (m.prefixes.keys.map fun p => getPrefix snap ++ p) []).map
    fun out => (if out = [] then enoent else 0, out)

/-! ## Keys -/

/-- An object of the placement group. -/
structure InPg (hoid : Soid) : Prop where
  notMax : hoid.val.max = false
  pool : hoid.val.pool = m.pool
  check : m.check hoid = true

instance (hoid : Soid) : Decidable (m.InPg hoid) :=
  decidable_of_iff (hoid.val.max = false ∧ hoid.val.pool = m.pool ∧ m.check hoid = true)
    ⟨fun h => ⟨h.1, h.2.1, h.2.2⟩, fun h => ⟨h.1, h.2, h.3⟩⟩

variable {m}

theorem snapDigits_eq_iff (s s' : UInt64) :
    snapDigits s = snapDigits s' ↔ s.toUInt32 = s'.toUInt32 := by
  have hbound : ∀ v : UInt32, v.toNat < 16 ^ 16 := fun v =>
    lt_of_lt_of_le v.toNat_lt (by norm_num)
  rw [snapDigits, snapDigits, fixedWidth_inj upperHexDigit_lt_iff (hbound _) (hbound _),
    UInt32.toNat_inj]

theorem length_getPrefix (s : UInt64) : (getPrefix s).length = 21 := by
  rw [getPrefix, length_append, length_append, snapDigits, fixedWidth_length]
  rfl

theorem getPrefix_eq_iff (s s' : UInt64) :
    getPrefix s = getPrefix s' ↔ s.toUInt32 = s'.toUInt32 := by
  rw [getPrefix, getPrefix, append_cancel_left_eq, append_cancel_right_eq,
    snapDigits_eq_iff]

theorem toStr_eq_iff {o o' : Soid} (ho : m.InPg o) (ho' : m.InPg o') :
    o.val.toStr = o'.val.toStr ↔ o = o' :=
  ⟨fun h => Subtype.ext (toStr_injective ho.notMax ho'.notMax h), fun h => by rw [h]⟩

theorem toObjectKey_eq_iff {o o' : Soid} (ho : m.InPg o) (ho' : m.InPg o') :
    m.toObjectKey o = m.toObjectKey o' ↔ o = o' := by
  rw [toObjectKey, toObjectKey, append_cancel_left_eq, append_cancel_left_eq,
    toStr_eq_iff ho ho']

/-- **When two keys are the same**: the objects are, and the snapshots in their low 32 bits. -/
theorem toRawKey_eq_iff {o o' : Soid} (ho : m.InPg o) (ho' : m.InPg o') (s s' : UInt64) :
    m.toRawKey s o = m.toRawKey s' o' ↔ s.toUInt32 = s'.toUInt32 ∧ o = o' := by
  rw [← getPrefix_eq_iff, ← toStr_eq_iff ho ho']
  constructor
  · intro h
    obtain ⟨hsnap, hrest⟩ := append_inj h (by rw [length_getPrefix, length_getPrefix])
    exact ⟨hsnap, append_cancel_left hrest⟩
  · rintro ⟨hsnap, hstr⟩
    rw [toRawKey, toRawKey, hsnap, hstr]

theorem toRawKey_ne_toObjectKey (s : UInt64) (o o' : Soid) : m.toRawKey s o ≠ m.toObjectKey o' := by
  intro h
  have hhead := congrArg List.head? h
  simp [toRawKey, toObjectKey, getPrefix, mappingPrefix, objectPrefix] at hhead

@[simp] theorem isMapping_toRawKey (s : UInt64) (o : Soid) : isMapping (m.toRawKey s o) = true := by
  rw [isMapping, toRawKey, getPrefix, append_assoc, take_left, beq_self_eq_true]

@[simp] theorem isMapping_toObjectKey (o : Soid) : isMapping (m.toObjectKey o) = false := by
  rw [isMapping, toObjectKey]
  rfl

/-! ## The prefixes -/

theorem mem_prefixes (p : Bytes) : p ∈ m.prefixes ↔
    ∃ q ∈ getPrefixes m.maskBits m.matchValue m.pool, p = m.shardPrefix ++ q := by
  rw [prefixes, OrdMap.mem_insertAll, mem_map]
  simp only [OrdMap.not_mem_empty, false_or, OrdMap.mem_keys_iff, eq_comm]

theorem length_of_mem_prefixes {p : Bytes} (hp : p ∈ m.prefixes) :
    p.length = m.shardPrefix.length + (17 + nibbleBits m.maskBits / 4) := by
  obtain ⟨q, hq, rfl⟩ := (mem_prefixes p).mp hp
  rw [length_append, length_of_mem_getPrefixes m.maskBits_lt.le hq]

/-- A prefix of a snapshot is a prefix of the keys of the snapshots with the same low bits only. -/
theorem getPrefix_append_prefix_iff (s s' : UInt64) (o : Soid) (p : Bytes) :
    getPrefix s ++ p <+: m.toRawKey s' o ↔
      s.toUInt32 = s'.toUInt32 ∧ p <+: m.shardPrefix ++ o.val.toStr := by
  rw [← getPrefix_eq_iff, toRawKey]
  constructor
  · rintro ⟨x, hx⟩
    rw [append_assoc] at hx
    obtain ⟨hsnap, hrest⟩ := append_inj hx (by rw [length_getPrefix, length_getPrefix])
    exact ⟨hsnap, ⟨x, hrest⟩⟩
  · rintro ⟨hsnap, hrest⟩
    rw [hsnap, prefix_append_right_inj]
    exact hrest

theorem not_getPrefix_append_isPrefix (s : UInt64) (o : Soid) (p : Bytes) :
    ¬ getPrefix s ++ p <+: m.toObjectKey o := by
  rintro ⟨x, hx⟩
  have hhead := congrArg List.head? hx
  simp [toObjectKey, getPrefix, mappingPrefix, objectPrefix] at hhead

/-- **An object of the placement group is under one of the prefixes.** -/
theorem exists_mem_prefixes {o : Soid} (ho : m.InPg o) :
    ∃ p ∈ m.prefixes, p <+: m.shardPrefix ++ o.val.toStr := by
  obtain ⟨q, hq, hstarts⟩ := (exists_prefix_iff m.maskBits_lt.le m.matchValue m.pool o.val).mpr
    ⟨ho.pool, ho.check⟩
  refine ⟨m.shardPrefix ++ q, (mem_prefixes _).mpr ⟨q, hq, rfl⟩, ?_⟩
  rw [prefix_append_right_inj]
  exact hstarts

end SnapMapper

end Ceph.Osd
