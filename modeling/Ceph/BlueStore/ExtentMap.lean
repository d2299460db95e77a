import Ceph.BlueStore.UseTracker

set_option autoImplicit false

/-! # The extent map of an onode

An onode maps its logical bytes to bytes of blobs, by extents that are kept in the order of their
logical offsets. To write is to punch a hole and to put a new extent in its place. What is cut out is
remembered as an old extent. Each blob counts the bytes that the extents refer to: an extent is counted
when it is set, and its reference is put when it becomes an old extent (`OldExtent::create`).

An iterator into the map is the map in two parts, before it and from it on. Offsets and lengths are
natural numbers. A caller gives them with 64 bits, and those of an extent have 32: where the end of a
range or of an extent overflows, and where an argument is cut off, it is so here.
-/

namespace Ceph.BlueStore

def objectMaxSize : ℕ := 0xffffffff

/-- What is read of a `bluestore_blob_t` to count references. -/
structure BlobInfo where
  logicalLength : ℕ
  isCompressed : Bool
  hasCsum : Bool
  csumChunkOrder : ℕ
  logicalLength_lt : logicalLength < 2 ^ 32

def BlobInfo.getReleaseSize (b : BlobInfo) (minAllocSize : ℕ) : ℕ :=
  if b.isCompressed then b.logicalLength
  else
    let res := 2 ^ b.csumChunkOrder
    if !b.hasCsum ∨ res < minAllocSize then minAllocSize else res

structure Extent (β : Type) where
  logicalOffset : ℕ
  blobOffset : ℕ
  length : ℕ
  blob : β
deriving DecidableEq

def Extent.logicalEnd {β : Type} (e : Extent β) : ℕ := (e.logicalOffset + e.length) % 2 ^ 32

/-- The constructor of an extent, whose arguments have 32 bits. -/
def Extent.make {β : Type} (lo o l : ℕ) (b : β) : Extent β :=
  ⟨lo % 2 ^ 32, o % 2 ^ 32, l % 2 ^ 32, b⟩

/-- `OldExtent`, without the physical extents that it releases. -/
structure OldExtent (β : Type) where
  e : Extent β
  blobEmpty : Bool
deriving DecidableEq

/-- The blobs of a store, with the size of its allocation units. -/
structure Blobs (β : Type) where
  minAllocSize : ℕ
  blob : β → BlobInfo

/-- `ExtentMap`: the extents, the offsets of the shards, the range to reshard, and `used_in_blob` of
the blobs. -/
structure ExtentMap (β : Type) where
  extents : List (Extent β)
  shards : List ℕ
  needsReshardBegin : ℕ
  needsReshardEnd : ℕ
  usedInBlob : β → UseTracker

namespace ExtentMap

variable {β : Type}

/-! ## The ordered set of extents -/

/-- `insert` of the ordered set: an extent with the same logical offset is kept. -/
def insert (e : Extent β) : List (Extent β) → List (Extent β)
  | [] => [e]
  | x :: l =>
    if e.logicalOffset < x.logicalOffset then e :: x :: l
    else if x.logicalOffset < e.logicalOffset then x :: insert e l
    else x :: l

def lowerBound (l : List (Extent β)) (offset : ℕ) : List (Extent β) × List (Extent β) :=
  l.span fun e => e.logicalOffset < offset

/-- `seek_lextent`: the first extent that ends behind the offset. The extent to look for is made
with an offset of 32 bits. -/
def seekLextent (l : List (Extent β)) (offset : ℕ) : List (Extent β) × List (Extent β) :=
  let fp := lowerBound l (offset % 2 ^ 32)
  match fp.1.getLast? with
  | none => fp
  | some e => if e.logicalEnd ≤ offset then fp else (fp.1.dropLast, e :: fp.2)

/-! ## References -/

section Refs

variable [DecidableEq β] (S : Blobs β)

def getRef (used : β → UseTracker) (b : β) (offset length : ℕ) : Option (β → UseTracker) :=
  let info := S.blob b
  -- ceph_assert(get_blob().get_logical_length() != 0)
  if info.logicalLength = 0 then none
  else
    (if (used b).isNotEmpty then some (used b)
      else (used b).init info.logicalLength (info.getReleaseSize S.minAllocSize)).bind fun t =>
        (t.get offset length).map fun t => Function.update used b t

/-- `OldExtent::create`: the reference is put. -/
def OldExtent.create (used : β → UseTracker) (lo o l : ℕ) (b : β) :
    Option (OldExtent β × (β → UseTracker)) :=
  let e := Extent.make lo o l b
  ((used b).put e.blobOffset e.length).map fun (t, _, _) =>
    (⟨e, t.getReferencedBytes = 0⟩, Function.update used b t)

end Refs

/-! ## `punch_hole` -/

section Punch

variable [DecidableEq β]

/-- What `punch_hole` changes. -/
structure Punched (β : Type) where
  extents : List (Extent β)
  oldExtents : List (OldExtent β)
  usedInBlob : β → UseTracker

/-- The loop of `punch_hole`, with the extents before the iterator and from it on. -/
def punchLoop (offset length last : ℕ) (before : List (Extent β)) (old : List (OldExtent β))
    (used : β → UseTracker) : List (Extent β) → Option (Punched β)
  | [] => some ⟨before, old, used⟩
  | p :: rest =>
    if p.logicalOffset ≥ last then some ⟨before ++ p :: rest, old, used⟩
    else if p.logicalOffset < offset then
      if p.logicalEnd > last then
        -- split and deref middle
        let front := offset - p.logicalOffset
        (OldExtent.create used offset (p.blobOffset + front) length p.blob).map fun (oe, used) =>
          -- the difference of the lengths has 64 bits
          ⟨insert (.make last (p.blobOffset + front + length)
                (p.length + 2 ^ 64 - (front + length) % 2 ^ 64) p.blob)
              (before ++ { p with length := front % 2 ^ 32 } :: rest), old ++ [oe], used⟩
      else if p.logicalEnd > offset then
        -- deref tail
        let keep := offset - p.logicalOffset
        (OldExtent.create used offset (p.blobOffset + keep) (p.length - keep) p.blob).bind
          fun (oe, used) =>
            punchLoop offset length last (before ++ [{ p with length := keep }]) (old ++ [oe]) used rest
      -- else seek_lextent bug
      else none
    else if p.logicalEnd ≤ last then
      -- deref whole lextent
      (OldExtent.create used p.logicalOffset p.blobOffset p.length p.blob).bind fun (oe, used) =>
        punchLoop offset length last before (old ++ [oe]) used rest
    else
      -- deref head
      let keep := p.logicalEnd - last
      (OldExtent.create used p.logicalOffset p.blobOffset (p.length - keep) p.blob).map
        fun (oe, used) =>
          ⟨(insert (.make last (p.blobOffset + p.length - keep) keep p.blob)
              (before ++ p :: rest)).filter (fun e => e.logicalOffset ≠ p.logicalOffset),
            old ++ [oe], used⟩

def punchHole (m : ExtentMap β) (offset length : ℕ) (old : List (OldExtent β)) :
    Option (ExtentMap β × List (OldExtent β)) :=
  let p := seekLextent m.extents offset
  let last := (offset + length) % 2 ^ 64
  (punchLoop offset length last p.1 old m.usedInBlob p.2).map fun r =>
    ({ m with extents := r.extents, usedInBlob := r.usedInBlob }, r.oldExtents)

end Punch

/-! ## `set_lextent` -/

/-- The loop of `seek_shard`, a binary search. -/
def seekShardLoop (shards : List ℕ) (offset : ℕ) : ℕ → ℕ → ℕ → Option ℕ
  | 0, _, _ => none
  | fuel + 1, left, right =>
    if left < right then
      let mid := left + (right - left) / 2
      if offset ≥ shards.getD mid 0 then
        let next := mid + 1
        if next ≥ shards.length ∨ offset < shards.getD next 0 then some mid
        else seekShardLoop shards offset fuel next right
      else seekShardLoop shards offset fuel left mid
    else none

/-- `seek_shard`: the index of the shard of an offset. The range of the search gets smaller with each
turn, so there are no more turns than shards. -/
def seekShard (shards : List ℕ) (offset : ℕ) : Option ℕ :=
  seekShardLoop shards offset shards.length 0 shards.length

def spansShard (shards : List ℕ) (offset length : ℕ) : Option Bool :=
  if shards = [] then some false
  else
    -- ceph_assert(s >= 0)
    (seekShard shards offset).map fun s =>
      if s = shards.length - 1 then false
      else !((offset + length) % 2 ^ 32 ≤ shards.getD (s + 1) 0)

def requestReshard (m : ExtentMap β) (first last : ℕ) : ExtentMap β :=
  let m := if first < m.needsReshardBegin then { m with needsReshardBegin := first } else m
  if last > m.needsReshardEnd then { m with needsReshardEnd := last } else m

section Set

variable [DecidableEq β] (S : Blobs β)

/-- The hole that `set_lextent` punches, if there is a list for the old extents. -/
def punchIf (m : ExtentMap β) (offset length : ℕ) :
    Option (List (OldExtent β)) → Option (ExtentMap β × Option (List (OldExtent β)))
  | none => some (m, none)
  | some old => (punchHole m offset length old).map fun r => (r.1, some r.2)

/-- `set_lextent`. The references are taken before the hole is punched. -/
def setLextent (m : ExtentMap β) (logicalOffset blobOffset length : ℕ) (b : β)
    (old : Option (List (OldExtent β))) : Option (ExtentMap β × Option (List (OldExtent β))) :=
  -- ceph_assert(b->get_blob().get_logical_length() != 0)
  if (S.blob b).logicalLength = 0 then none
  else
    let le := Extent.make logicalOffset blobOffset length b
    (getRef S m.usedInBlob b le.blobOffset le.length).bind fun used =>
      (punchIf { m with usedInBlob := used } logicalOffset length old).bind fun (m, old) =>
        let m := { m with extents := insert le m.extents }
        (spansShard m.shards le.logicalOffset le.length).map fun spans =>
          (if spans = true then requestReshard m le.logicalOffset le.logicalEnd else m, old)

end Set

/-! ## `compress_extent_map` -/

section Compress

variable [DecidableEq β]

/-- `shard_end`: the offset of the next shard, or the end of the object. -/
def shardEnd : List ℕ → ℕ
  | [] => objectMaxSize
  | s :: _ => s

/-- The loops of `compress_extent_map`. `p` is followed by the list of extents, and `pshard` are the
shards from the next one on. In the head of the outer loop it is seen whether the region is left; in
the inner loop extents are merged until one cannot be. -/
def compressLoop (last : ℕ) (head : Bool) (pshard : List ℕ) (p : Extent β) :
    List (Extent β) → Option (List (Extent β) × ℕ)
  | [] => some ([p], 0)
  | n :: rest =>
    -- stop after end
    if head ∧ n.logicalOffset > last then some (p :: n :: rest, 0)
    else if p.logicalEnd = n.logicalOffset ∧ p.blob = n.blob ∧
        (p.blobOffset + p.length) % 2 ^ 32 = n.blobOffset ∧
        n.logicalOffset < shardEnd pshard then
      (compressLoop last false pshard { p with length := (p.length + n.length) % 2 ^ 32 } rest).map
        fun (l, removed) => (l, removed + 1)
    else
      (if n.logicalOffset ≥ shardEnd pshard then
          -- ceph_assert(pshard != shards.end())
          if pshard = [] then none else some pshard.tail
        else some pshard).bind fun pshard =>
        (compressLoop last true pshard n rest).map fun (l, removed) => (p :: l, removed)

/-- The iterator one to the left, unless it is at the first extent. -/
def stepLeft (fp : List (Extent β) × List (Extent β)) : List (Extent β) × List (Extent β) :=
  match fp.1.getLast? with
  | none => fp
  | some e => (fp.1.dropLast, e :: fp.2)

/-- `compress_extent_map`: the map, and how many extents were removed. -/
def compressExtentMap (m : ExtentMap β) (offset length : ℕ) : Option (ExtentMap β × ℕ) :=
  if m.extents = [] then some (m, 0)
  else
    -- start to the left of offset
    match stepLeft (seekLextent m.extents offset) with
    | (_, []) => none
    | (before, p :: rest) =>
      let pshard := m.shards.dropWhile fun s => p.logicalOffset ≥ s
      (compressLoop ((offset + length) % 2 ^ 64) true pshard p rest).map fun (l, removed) =>
        ({ m with extents := before ++ l }, removed)

end Compress

end ExtentMap

end Ceph.BlueStore
