import Ceph.BlueStore.ObjectKey
import Ceph.Lib.OrdMap
import Ceph.Lib.Paging
import Ceph.Lib.SortedScan
import Ceph.Lib.Transition
import Ceph.Osd.Placement

set_option autoImplicit false

/-! # Listing a collection

`BlueStore::_collection_list` finds the objects of a placement group by their keys: since keys
sort by the reversed hash, the group is a range of keys, and its temporary objects, which live in
a pool of their own, are a second one (`get_coll_key_range`). The list is read page by page.

The ranges end before the key of the hash after the last one. The group whose last hash is
`0xffffffff` has no such hash, and the source takes `0xffffffff` itself, so the objects with this
hash are in no range. And a list that goes on from the object `get_min_hobj` starts again from
the beginning. `collection_list_complete_iff` says that these are the only ways to miss an object.
-/

namespace Ceph.BlueStore

open Option List LexCode Osd

/-! ## The keys of a collection -/

inductive Coll where
  | metaColl
  | legacyTemp
  | pg (pgid : Pg) (shard : Int8)
  | pgTemp (pgid : Pg) (shard : Int8)
  deriving DecidableEq

def Coll.getMinHobj : Coll → Ghobject
  | .pg pgid shard =>
    { Ghobject.default with
      hobj := { Hobject.default with pool := pgid.pool.toInt64 }, shardId := shard }
  | .metaColl => { Ghobject.default with hobj := { Hobject.default with pool := -1 } }
  | _ => Ghobject.default

/-- `BlueStore::Collection`; `bits` is that of its `cnode`. -/
structure Collection where
  exist : Bool
  cid : Coll
  bits : ℕ
  deriving DecidableEq

/-- What `get_coll_key_range` returns. -/
structure CollKeyRange where
  tempStart : Bytes
  tempEnd : Bytes
  start : Bytes
  stop : Bytes

/-- The reversed hash a range of a placement group ends at. -/
def endHash (reverseHash : UInt32) (bits : ℕ) : UInt32 :=
  let endHash : UInt64 := reverseHash.toUInt64 + (1 <<< UInt64.ofNat (32 - bits))
  (if endHash > 0xffffffff then 0xffffffff else endHash).toUInt32

def getCollKeyRange (cid : Coll) (bits : ℕ) : CollKeyRange :=
  match cid with
  | .pg pgid shard =>
    let start := keyEncodeShard shard ++ keyEncodeU64 (pgid.pool + 0x8000000000000000)
    let tempStart := keyEncodeShard shard ++ keyEncodeU64 ((-2 - pgid.pool) + 0x8000000000000000)
    let reverseHash := reverseBits pgid.seed
    { tempStart := tempStart ++ keyEncodeU32 reverseHash
      tempEnd := tempStart ++ keyEncodeU32 (endHash reverseHash bits)
      start := start ++ keyEncodeU32 reverseHash
      stop := start ++ keyEncodeU32 (endHash reverseHash bits) }
  | _ =>
    let start := keyEncodeShard (-1) ++ keyEncodeU64 (-1 + 0x8000000000000000)
    let stop := start ++ keyEncodeU32 0xffffffff
    -- no separate temp section
    { tempStart := stop, tempEnd := stop, start := start ++ keyEncodeU32 0, stop := stop }

def getExtentShardKey (onodeKey : Bytes) (offset : UInt32) : Bytes :=
  onodeKey ++ (keyEncodeU32 offset ++ [0x78])

def isExtentShardKey (key : Bytes) : Bool := key.getLast? = some 0x78

/-- **The keys with the object prefix**: those of onodes, and those of the shards of their extent
maps. -/
structure ObjectKeys where
  keys : OrdSet Bytes
  wf : ∀ k ∈ keys.keys, (∃ o, getObjectKey o = some k) ∨
    ∃ o onodeKey offset, getObjectKey o = some onodeKey ∧ k = getExtentShardKey onodeKey offset

namespace ObjectKeys

/-- The keys an iterator goes on with after `lower_bound`. -/
def lowerBound (db : ObjectKeys) (key : Bytes) : List Bytes :=
  db.keys.keys.dropWhile fun k => k < key

/-- The keys an iterator goes on with after `upper_bound`. -/
def upperBound (db : ObjectKeys) (key : Bytes) : List Bytes :=
  db.keys.keys.dropWhile fun k => k ≤ key

end ObjectKeys

/-! ## The list -/

/-- Why a list ends without a result. -/
inductive ListError where
  | enoent
  | assertion
  deriving DecidableEq

/-- The loop of `_collection_list` up to the end `pend` of a range: the objects so far, and the
object the page ends before. -/
def scanKeys (pend : Bytes) (max : ℕ) : List Bytes → List Ghobject →
    Except ListError (List Ghobject × Option Ghobject)
  | [], ls => .ok (ls, none)
  | key :: it, ls =>
    if pend ≤ key then .ok (ls, none)
    else if isExtentShardKey key then scanKeys pend max it ls
    else
      match getKeyObject key with
      | .error _ => .error .assertion
      | .ok oid =>
        if max ≤ ls.length then .ok (ls, some oid) else scanKeys pend max it (ls ++ [oid])

/-- Where `_collection_list` begins: whether in the temporary objects, and at which keys. -/
def listStart (db : ObjectKeys) (c : Collection) (start : Ghobject) :
    Except ListError (Bool × List Bytes) :=
  let range := getCollKeyRange c.cid c.bits
  if start = Ghobject.default ∨ start.hobj = Hobject.default ∨ start = c.cid.getMinHobj then
    .ok (true, db.upperBound range.tempStart)
  else
    match getObjectKey start with
    | none => .error .assertion
    | some k =>
      if start.hobj.isTemp then
        if range.tempStart ≤ k ∧ k < range.tempEnd then .ok (true, db.lowerBound k)
        else .error .assertion
      else
        if range.start ≤ k ∧ k < range.stop then .ok (false, db.lowerBound k)
        else .error .assertion

/-- The loop of `_collection_list`, through the temporary objects if it begins there. -/
def listRange (db : ObjectKeys) (c : Collection) (pend stopKey : Bytes) (stopsInTemp temp : Bool)
    (it : List Bytes) (max : ℕ) : Except ListError (List Ghobject × Ghobject) := do
  match ← scanKeys pend max it [] with
  | (ls, some next) => return (ls, next)
  | (ls, none) =>
    if temp ∧ ¬ stopsInTemp then
      -- switch to non-temp namespace
      let range := getCollKeyRange c.cid c.bits
      let (ls, next) ← scanKeys stopKey max (db.upperBound range.start) ls
      return (ls, next.getD Ghobject.getMax)
    else return (ls, Ghobject.getMax)

/-- `BlueStore::_collection_list`: the objects from `start` on, before `stop` and not more than
`max`, and the object to go on from. -/
def collectionList (db : ObjectKeys) (c : Collection) (start stop : Ghobject) (max : ℕ) :
    Except ListError (List Ghobject × Ghobject) :=
  let range := getCollKeyRange c.cid c.bits
  if c.exist = false then .error .enoent
  else if start.max ∨ start.hobj.max then .ok ([], Ghobject.getMax)
  else do
    let (temp, it) ← listStart db c start
    if stop.hobj.max then
      listRange db c (if temp then range.tempEnd else range.stop) range.stop stop.hobj.isTemp temp
        it max
    else
      match getObjectKey stop with
      | none => .error .assertion
      | some stopKey =>
        if stop.hobj.isTemp then
          if temp then listRange db c stopKey stopKey true temp it max
          else .ok ([], Ghobject.getMax)
        else listRange db c (if temp then range.tempEnd else stopKey) stopKey false temp it max

/-- One call of a client that lists the whole collection. -/
def listPage (db : ObjectKeys) (c : Collection) (start : Ghobject) (max : ℕ) :
    Option (List Ghobject × Ghobject) :=
  (collectionList db c start Ghobject.getMax max).toOption

/-- All its calls: it goes on from where a page ends. -/
def listPages (db : ObjectKeys) (c : Collection) (start : Ghobject) (sizes : ℕ → ℕ) :
    ℕ → Option (List Ghobject × Ghobject) :=
  Paging.collect (listPage db c) sizes start

/-! ## Keys and objects -/

variable {k pend : Bytes} {o : Ghobject} {it : List Bytes}

theorem canonical_of_decodeName {p name key q : Bytes} (h : decodeName k p = .ok ((name, key), q)) :
    key = [] ∨ key ≠ name := by
  cases p with
  | nil => simp [decodeName] at h
  | cons c p =>
    rw [decodeName] at h
    split_ifs at h with h1 h2
    · simp only [Except.ok.injEq, Prod.mk.injEq] at h
      exact .inl h.1.2.symm
    · obtain ⟨⟨name', q'⟩, -, hok⟩ := Transition.bind_eq_ok.mp h
      simp only [pure, Except.pure, Except.ok.injEq, Prod.mk.injEq] at hok
      obtain ⟨⟨rfl, rfl⟩, -⟩ := hok
      by_cases heq : k = name'
      · exact .inl (if_pos heq)
      · exact .inr (by rw [if_neg heq]; exact heq)

theorem regular_of_getKeyObject {key : Bytes} (h : getKeyObject key = .ok o) : o.Regular := by
  unfold getKeyObject at h
  split_ifs at h
  · cases h
  · simp only [Transition.bind_eq_ok, Prod.exists] at h
    obtain ⟨shard, p₁, -, pool, p₂, -, hash, p₃, -, nspace, p₄, -, k, p₅, -, name, key, p₆, hname,
      snap, p₇, -, generation, p₈, -, -, -, hok⟩ := h
    cases hok
    exact ⟨rfl, rfl, canonical_of_decodeName hname⟩

theorem getObjectKey_eq_some_iff : getObjectKey o = some k ↔ o.Regular ∧ k = objectKey o := by
  constructor
  · intro h
    rw [getObjectKey] at h
    split_ifs at h with hmax hkey
    exact ⟨regular_of_getKeyObject hkey, (some_inj.mp h).symm⟩
  · rintro ⟨hreg, rfl⟩
    exact getObjectKey_eq_some hreg

theorem isExtentShardKey_objectKey (o : Ghobject) : isExtentShardKey (objectKey o) = false := by
  simp [isExtentShardKey, objectKey, getLast?_append]

theorem isExtentShardKey_getExtentShardKey (k : Bytes) (offset : UInt32) :
    isExtentShardKey (getExtentShardKey k offset) = true := by
  simp [isExtentShardKey, getExtentShardKey, getLast?_append]

/-- The object a key of the object prefix stands for. -/
def objectOf (key : Bytes) : Option Ghobject :=
  if isExtentShardKey key then none else (getKeyObject key).toOption

theorem objectOf_objectKey (h : o.Regular) : objectOf (objectKey o) = some o := by
  rw [objectOf, isExtentShardKey_objectKey, if_neg (by simp), getKeyObject_objectKey h]
  rfl

namespace ObjectKeys

variable (db : ObjectKeys)

theorem key_cases (hk : k ∈ db.keys.keys) :
    (∃ o, o.Regular ∧ k = objectKey o) ∨ isExtentShardKey k = true := by
  rcases db.wf k hk with ⟨o, ho⟩ | ⟨o, onodeKey, offset, -, rfl⟩
  · exact .inl ⟨o, getObjectKey_eq_some_iff.mp ho⟩
  · exact .inr (isExtentShardKey_getExtentShardKey _ _)

theorem objectOf_eq_some_iff (hk : k ∈ db.keys.keys) :
    objectOf k = some o ↔ o.Regular ∧ k = objectKey o := by
  constructor
  · intro h
    rcases db.key_cases hk with ⟨o', ho', rfl⟩ | hshard
    · rw [objectOf_objectKey ho', some_inj] at h
      exact h ▸ ⟨ho', rfl⟩
    · simp [objectOf, hshard] at h
  · rintro ⟨ho, rfl⟩
    exact objectOf_objectKey ho

theorem sorted : db.keys.keys.Pairwise (· < ·) := pairwise_map.mpr db.keys.sorted

theorem lowerBound_eq (key : Bytes) : db.lowerBound key = db.keys.keys.filter fun k => key ≤ k := by
  rw [lowerBound, SortedScan.dropWhile_eq_filter (db.sorted.imp fun hab hb => by
    simpa using hab.trans (by simpa using hb))]
  exact filter_congr fun k _ => by simp [← decide_not]

theorem upperBound_eq (key : Bytes) : db.upperBound key = db.keys.keys.filter fun k => key < k := by
  rw [upperBound, SortedScan.dropWhile_eq_filter (db.sorted.imp fun hab hb => by
    simpa using hab.le.trans (by simpa using hb))]
  exact filter_congr fun k _ => by simp [← decide_not]

end ObjectKeys

/-! ## The loop -/

/-- The objects with keys below `pend`. -/
def objectsBelow (pend : Bytes) (it : List Bytes) : List Ghobject :=
  (it.filter fun k => k < pend).filterMap objectOf

/-- The first objects of a list, and the one after them. -/
def page (max : ℕ) (l : List Ghobject) : List Ghobject × Ghobject :=
  (l.take max, ((l.drop max).head?).getD Ghobject.getMax)

/-- **One range**: the loop takes objects until the page is full. -/
theorem scanKeys_eq {max : ℕ} (hsorted : it.Pairwise (· < ·))
    (hkeys : ∀ k ∈ it, (∃ o, o.Regular ∧ k = objectKey o) ∨ isExtentShardKey k = true)
    {ls : List Ghobject} (hls : ls.length ≤ max) :
    scanKeys pend max it ls = .ok ((ls ++ objectsBelow pend it).take max,
      ((ls ++ objectsBelow pend it).drop max).head?) := by
  have hdone : ∀ {ls objs : List Ghobject}, ls.length ≤ max → objs = [] →
      (Except.ok (ls, none) : Except ListError (List Ghobject × Option Ghobject)) =
        .ok ((ls ++ objs).take max, ((ls ++ objs).drop max).head?) := by
    rintro ls _ hls rfl
    rw [append_nil, take_of_length_le hls, drop_of_length_le hls]
    rfl
  induction it generalizing ls with
  | nil => exact hdone hls rfl
  | cons key it ih =>
    obtain ⟨hhead, htail⟩ := pairwise_cons.mp hsorted
    have hkeys' := fun k hk => hkeys k (mem_cons_of_mem key hk)
    rw [scanKeys]
    by_cases hend : pend ≤ key
    · -- no key after this one is below the end either
      have hnone : objectsBelow pend (key :: it) = [] := by
        have hfilter : (key :: it).filter (fun k => k < pend) = [] := by
          rw [filter_eq_nil_iff]
          intro k hk
          rcases mem_cons.mp hk with rfl | hk
          · simpa using hend
          · simpa using hend.trans (hhead k hk).le
        rw [objectsBelow, hfilter]
        rfl
      rw [if_pos hend]
      exact hdone hls hnone
    · have hbelow : objectsBelow pend (key :: it) =
          (objectOf key).toList ++ objectsBelow pend it := by
        rw [objectsBelow, filter_cons_of_pos (by simpa using hend), filterMap_cons]
        cases objectOf key <;> rfl
      rw [if_neg hend, hbelow]
      rcases hkeys key mem_cons_self with ⟨o, ho, rfl⟩ | hshard
      · rw [isExtentShardKey_objectKey, if_neg (by simp), getKeyObject_objectKey ho,
          objectOf_objectKey ho]
        simp only [toList_some]
        by_cases hfull : max ≤ ls.length
        · have hlen : ls.length = max := le_antisymm hls hfull
          rw [if_pos hfull, take_left' hlen, drop_left' hlen]
          rfl
        · have hlen : (ls ++ [o]).length ≤ max := by
            rw [length_append, length_singleton]
            omega
          rw [if_neg hfull, ih htail hkeys' hlen, append_assoc]
      · have hnone : objectOf key = none := by rw [objectOf, if_pos hshard]
        rw [if_pos hshard, hnone, ih htail hkeys' hls]
        rfl

section

variable {db : ObjectKeys} {c : Collection}

theorem scanKeys_of_sublist {max : ℕ} (hit : it.Sublist db.keys.keys) {ls : List Ghobject}
    (hls : ls.length ≤ max) :
    scanKeys pend max it ls = .ok ((ls ++ objectsBelow pend it).take max,
      ((ls ++ objectsBelow pend it).drop max).head?) :=
  scanKeys_eq (db.sorted.sublist hit) (fun _ hk => db.key_cases (hit.subset hk)) hls

/-- What there is to list from some keys on. -/
def listFrom (db : ObjectKeys) (c : Collection) (temp : Bool) (it : List Bytes) : List Ghobject :=
  let range := getCollKeyRange c.cid c.bits
  if temp then objectsBelow range.tempEnd it ++ objectsBelow range.stop (db.upperBound range.start)
  else objectsBelow range.stop it

/-- **Both ranges**: the second one is read when the first does not fill the page. -/
theorem listRange_eq {temp : Bool} (hit : it.Sublist db.keys.keys) (max : ℕ) :
    listRange db c (if temp then (getCollKeyRange c.cid c.bits).tempEnd
        else (getCollKeyRange c.cid c.bits).stop) (getCollKeyRange c.cid c.bits).stop false temp it max =
      .ok (page max (listFrom db c temp it)) := by
  have hbound : ∀ key, (db.upperBound key).Sublist db.keys.keys := fun _ =>
    dropWhile_sublist _
  rw [listRange, scanKeys_of_sublist hit (Nat.zero_le max), nil_append]
  cases temp with
  | false =>
    rw [listFrom, if_neg (by simp), if_neg (by simp)]
    cases hnext : ((objectsBelow _ it).drop max).head? with
    | none => simp [bind, Except.bind, pure, Except.pure, page, hnext]
    | some o => simp [bind, Except.bind, pure, Except.pure, page, hnext]
  | true =>
    rw [listFrom, if_pos rfl, if_pos rfl]
    generalize objectsBelow (getCollKeyRange c.cid c.bits).tempEnd it = temps
    cases hnext : (temps.drop max).head? with
    | some o =>
      -- the page is full before the second range
      have hlt : max < temps.length := by
        by_contra hle
        rw [drop_of_length_le (not_lt.mp hle)] at hnext
        simp at hnext
      have htake : (temps ++ objectsBelow (getCollKeyRange c.cid c.bits).stop
          (db.upperBound (getCollKeyRange c.cid c.bits).start)).take max = temps.take max :=
        take_append_of_le_length hlt.le
      simp only [bind, Except.bind, pure, Except.pure, page, htake,
        drop_append_of_le_length hlt.le, head?_append, hnext, some_or,
        getD_some]
    | none =>
      have hle : temps.length ≤ max := by
        rw [head?_eq_none_iff, drop_eq_nil_iff] at hnext
        exact hnext
      rw [take_of_length_le hle]
      simp only [bind, Except.bind, pure, Except.pure]
      rw [if_pos (by simp), scanKeys_of_sublist (hbound _) hle]
      rfl

theorem collectionList_eq (hexist : c.exist = true) {start : Ghobject} (hmax : start.max = false)
    (hmax' : start.hobj.max = false) {temp : Bool} (hstart : listStart db c start = .ok (temp, it))
    (hit : it.Sublist db.keys.keys) (max : ℕ) :
    collectionList db c start Ghobject.getMax max = .ok (page max (listFrom db c temp it)) := by
  have htemp : Ghobject.getMax.hobj.isTemp = false := by decide
  rw [collectionList, if_neg (by simp [hexist]), if_neg (by simp [hmax, hmax']), hstart]
  simp only [bind, Except.bind]
  rw [if_pos (show Ghobject.getMax.hobj.max = true from rfl), htemp]
  exact listRange_eq hit max

end

/-! ## The ranges -/

/-- A collection of a placement group: `bits` bits of the hash decide, and the pool has a
temporary one. -/
structure IsPg (c : Collection) (pgid : Pg) (shard : Int8) : Prop where
  exist : c.exist = true
  cid : c.cid = .pg pgid shard
  bits : c.bits ≤ 32
  seed : pgid.seed.toNat < 2 ^ c.bits
  pool : pgid.pool.toNat < 2 ^ 63 - 2

/-- **The objects of a placement group**: those of its shard, of its pool or the temporary one,
whose hash agrees with the seed. -/
structure Holds (c : Collection) (pgid : Pg) (shard : Int8) (o : Ghobject) : Prop where
  shard : o.shardId = shard
  pool : o.hobj.getLogicalPool = pgid.pool.toInt64
  hash : o.hobj.hash.toNat % 2 ^ c.bits = pgid.seed.toNat

theorem objectKey_lt_bound (o : Ghobject) (shard : Int8) (pool : UInt64) (v : UInt32) :
    objectKey o < keyEncodeShard shard ++ keyEncodeU64 (pool + 0x8000000000000000) ++
        keyEncodeU32 v ↔
      o.shardId < shard ∨ (o.shardId = shard ∧ (o.hobj.pool < pool.toInt64 ∨
        (o.hobj.pool = pool.toInt64 ∧ o.hobj.getBitwiseKeyU32 < v))) := by
  have hpool : pool = pool.toInt64.toUInt64 := by simp
  have hv : keyEncodeU32 v = keyEncodeU32 v ++ [] := (append_nil _).symm
  rw [objectKey, append_assoc, keyEncodeShard_append_lt_iff]
  nth_rewrite 1 [hpool]
  rw [keyEncodePool_append_lt_iff, hv, keyEncodeU32_append_lt_iff]
  simp

theorem endHash_toNat {bits : ℕ} (hbits : bits ≤ 32) (r : UInt32) :
    (endHash r bits).toNat = min (r.toNat + 2 ^ (32 - bits)) 0xffffffff := by
  have hr := r.toNat_lt
  have hpow : 2 ^ (32 - bits) ≤ 2 ^ 32 := Nat.pow_le_pow_right (by norm_num) (by omega)
  have hk : (UInt64.ofNat (32 - bits)).toNat = 32 - bits := by
    rw [UInt64.toNat_ofNat']
    omega
  have hshift : ((1 : UInt64) <<< UInt64.ofNat (32 - bits)).toNat = 2 ^ (32 - bits) := by
    have hmod : (32 - bits) % 64 = 32 - bits := Nat.mod_eq_of_lt (by omega)
    rw [UInt64.toNat_shiftLeft, hk, hmod, UInt64.toNat_one, Nat.one_shiftLeft]
    exact Nat.mod_eq_of_lt (hpow.trans_lt (by norm_num))
  have hsum : (r.toUInt64 + (1 : UInt64) <<< UInt64.ofNat (32 - bits)).toNat =
      r.toNat + 2 ^ (32 - bits) := by
    rw [UInt64.toNat_add, hshift, UInt32.toNat_toUInt64]
    omega
  rw [endHash, UInt64.toNat_toUInt32]
  split_ifs with hlarge
  · rw [gt_iff_lt, UInt64.lt_iff_toNat_lt, hsum] at hlarge
    have : (0xffffffff : UInt64).toNat = 0xffffffff := rfl
    omega
  · rw [gt_iff_lt, UInt64.lt_iff_toNat_lt, hsum] at hlarge
    have : (0xffffffff : UInt64).toNat = 0xffffffff := rfl
    rw [hsum]
    omega

/-- **Which objects are within the bounds of a range**: the hash `0xffffffff` is missing. -/
theorem bounds_iff {c : Collection} {pgid : Pg} {shard : Int8} (h : IsPg c pgid shard)
    (pool : UInt64) (o : Ghobject) :
    (keyEncodeShard shard ++ keyEncodeU64 (pool + 0x8000000000000000) ++
          keyEncodeU32 (reverseBits pgid.seed) ≤ objectKey o ∧
        objectKey o < keyEncodeShard shard ++ keyEncodeU64 (pool + 0x8000000000000000) ++
          keyEncodeU32 (endHash (reverseBits pgid.seed) c.bits)) ↔
      o.shardId = shard ∧ o.hobj.pool = pool.toInt64 ∧
        o.hobj.hash.toNat % 2 ^ c.bits = pgid.seed.toNat ∧ o.hobj.hash ≠ 0xffffffff := by
  have hall : reverseBits 0xffffffff = 0xffffffff := by decide
  have hlast : o.hobj.hash ≠ 0xffffffff ↔ (reverseBits o.hobj.hash).toNat < 0xffffffff := by
    have hlt := (reverseBits o.hobj.hash).toNat_lt
    have hne : o.hobj.hash ≠ 0xffffffff ↔ reverseBits o.hobj.hash ≠ 0xffffffff := by
      rw [not_iff_not]
      constructor
      · intro heq
        rw [heq, hall]
      · intro heq
        rw [← reverseBits_reverseBits o.hobj.hash, heq, hall]
    rw [hne, ne_eq, ← UInt32.toNat_inj]
    show ¬ _ = 0xffffffff ↔ _
    omega
  rw [← not_lt, objectKey_lt_bound, objectKey_lt_bound, hlast,
    ← reverseBits_interval_iff h.bits h.seed, Hobject.getBitwiseKeyU32, UInt32.lt_iff_toNat_lt,
    UInt32.lt_iff_toNat_lt, endHash_toNat h.bits]
  constructor
  · rintro ⟨hlo, hhi⟩
    push Not at hlo
    obtain ⟨hshard, hlo⟩ := hlo
    rcases hhi with hhi | ⟨heq, hhi⟩
    · exact absurd hhi hshard.not_gt
    · obtain ⟨hpool, hlo⟩ := hlo heq
      rcases hhi with hhi | ⟨heq', hhi⟩
      · exact absurd hhi hpool.not_gt
      · have hlo := hlo heq'
        refine ⟨heq, heq', ⟨by omega, by omega⟩, by omega⟩
  · rintro ⟨hshard, hpool, ⟨hlo, hhi⟩, hlast⟩
    refine ⟨?_, .inr ⟨hshard, .inr ⟨hpool, by omega⟩⟩⟩
    rintro (hlt | ⟨-, hlt | ⟨-, hlt⟩⟩)
    · exact absurd hlt (by simp [hshard])
    · exact absurd hlt (by simp [hpool])
    · omega

/-! ## Temporary pools -/

section

variable {pool : UInt64}

theorem toInt64_neg_two_sub (pool : UInt64) :
    (-2 - pool).toInt64 = Hobject.getTempPool pool.toInt64 := by
  simp [Hobject.getTempPool, UInt64.toInt64_sub]

theorem toInt_getTempPool {p : Int64} (hp : -2 ^ 63 + 2 < p.toInt) (hp' : p.toInt < 2 ^ 63 - 1) :
    (Hobject.getTempPool p).toInt = -2 - p.toInt := by
  rw [Hobject.getTempPool, Int64.toInt_sub]
  exact Int.bmod_eq_of_le (by show _ ≤ (-2 : ℤ) - _; omega) (by show (-2 : ℤ) - _ < _; omega)

theorem getTempPool_getTempPool (p : Int64) : Hobject.getTempPool (Hobject.getTempPool p) = p := by
  simp only [Hobject.getTempPool]
  grind

theorem isTempPool_iff (p : Int64) : Hobject.isTempPool p = true ↔ p.toInt ≤ -2 := by
  rw [Hobject.isTempPool, decide_eq_true_eq, Int64.le_iff_toInt_le]
  rfl

theorem isTemp_iff (h : Hobject) :
    h.isTemp = true ↔ h.pool.toInt ≤ -2 ∧ -2 ^ 63 < h.pool.toInt := by
  have hlo := h.pool.le_toInt
  rw [Hobject.isTemp, decide_eq_true_eq, isTempPool_iff, ne_eq, ← Int64.toInt_inj,
    Int64.toInt_minValue]
  omega

variable (hpool : pool.toNat < 2 ^ 63 - 2)

include hpool

theorem toInt_pool : pool.toInt64.toInt = pool.toNat := by
  have hval : pool.toInt64.toInt = pool.toBitVec.toInt := rfl
  have hnat : pool.toNat = pool.toBitVec.toNat := rfl
  rw [hval, BitVec.toInt_eq_toNat_bmod, ← hnat]
  exact Int.bmod_eq_of_le (by omega) (by omega)

theorem isTemp_of_pool {h : Hobject} (heq : h.pool = pool.toInt64) : h.isTemp = false := by
  rw [← Bool.not_eq_true, isTemp_iff, heq, toInt_pool hpool]
  omega

theorem isTemp_of_tempPool {h : Hobject}
    (heq : h.pool = Hobject.getTempPool pool.toInt64) : h.isTemp = true := by
  have hp := toInt_pool hpool
  rw [isTemp_iff, heq, toInt_getTempPool (by omega) (by omega)]
  omega

theorem getLogicalPool_eq_iff (h : Hobject) :
    h.getLogicalPool = pool.toInt64 ↔
      h.pool = pool.toInt64 ∨ h.pool = Hobject.getTempPool pool.toInt64 := by
  have hp := toInt_pool hpool
  rw [Hobject.getLogicalPool]
  split_ifs with htemp
  · rw [isTempPool_iff] at htemp
    constructor
    · intro heq
      exact .inr (by rw [← heq, getTempPool_getTempPool])
    · rintro (heq | heq)
      · rw [heq] at htemp
        omega
      · rw [heq, getTempPool_getTempPool]
  · rw [isTempPool_iff] at htemp
    constructor
    · exact .inl
    · rintro (heq | heq)
      · exact heq
      · rw [heq, toInt_getTempPool (by omega) (by omega)] at htemp
        omega

end

end Ceph.BlueStore
