import Ceph.Lib.OrdMap
import Ceph.Osd.PGTransaction

set_option autoImplicit false

/-! # The operations on an object and its snapshots

What the primary of a replicated pool without cache tiering does to one object: the operations of
`do_osd_ops` that change its data, `make_writeable`, which clones the head before the first change
after a snapshot, `find_object_context`, which finds the object of a snapshot, and `trim_object`,
which drops removed snapshots from a clone.

An operation works on an `OpContext`. Where an assertion fails the result is `none`; an operation that
is refused gives an error number, and leaves what it had done before. Sizes and offsets are 64-bit
numbers of the client; the sums that the code takes of them wrap around.
-/

namespace Ceph.Osd.PrimaryLog

/-! ## The checksum -/

/-- One bit of the checksum. The polynomial is 0x1EDC6F41, the bits are in reversed order. -/
def crc32cBit (crc : UInt32) : UInt32 :=
  if crc &&& 1 = 1 then (crc >>> 1) ^^^ 0x82F63B78 else crc >>> 1

/-- One byte of the checksum: `SCTP_CRC32C`, without its table. -/
def crc32cByte (crc : UInt32) (byte : UInt8) : UInt32 := crc32cBit^[8] (crc ^^^ byte.toUInt32)

/-- `crc32c` of a buffer, from the checksum of what is before it. -/
def crc32c (crc : UInt32) (data : List UInt8) : UInt32 := data.foldl crc32cByte crc

theorem crc32c_append (crc : UInt32) (a b : List UInt8) :
    crc32c crc (a ++ b) = crc32c (crc32c crc a) b :=
  List.foldl_append

/-! ## The object -/

/-- The fields of `object_info_t` that the operations read. -/
structure ObjectInfo where
  size : ℕ := 0
  truncateSeq : ℕ := 0
  truncateSize : ℕ := 0
  dataDigest : Option UInt32 := none
  whiteout : Bool := false
deriving DecidableEq

structure ObjectState where
  existing : Bool := false
  oi : ObjectInfo := {}
deriving DecidableEq

/-- `SnapContext`: the newest snapshot id, and the snapshots, the newest first. -/
structure SnapContext where
  seq : ℕ
  snaps : List ℕ
deriving DecidableEq

/-- `CEPH_NOSNAP`: the head. -/
def noSnap : ℕ := 2 ^ 64 - 2

/-- `CEPH_MAXSNAP`. -/
def maxSnap : ℕ := 2 ^ 64 - 3

/-- `SnapContext::is_valid`: `snaps` is descending and not above `seq`. -/
def SnapContext.isValid (snapc : SnapContext) : Bool :=
  snapc.seq ≤ maxSnap &&
    match snapc.snaps with
    | [] => true
    | s :: snaps => s ≤ snapc.seq && (s :: snaps).Pairwise (· > ·)

structure SnapSet where
  seq : ℕ := 0
  clones : List ℕ := []
  cloneSnaps : OrdMap ℕ (List ℕ) := .empty
deriving DecidableEq

/-- A clone: its object info, and its bytes in the store. -/
structure CloneObject where
  oi : ObjectInfo
  bytes : List UInt8
deriving DecidableEq

/-- An object: the state of its head, what the store has of the head, the `SnapSetContext`, and the
clones. -/
structure Object where
  obs : ObjectState := {}
  stored : Option (List UInt8) := none
  sscExists : Bool := false
  snapset : SnapSet := {}
  cloneObjs : OrdMap ℕ CloneObject := .empty
deriving DecidableEq

def Object.cloneBytes (o : Object) (c : ℕ) : List UInt8 :=
  ((o.cloneObjs.get c).map CloneObject.bytes).getD []

/-! ## `find_object_context` -/

/-- What a snapshot id is resolved to. -/
inductive Found
  | enoent
  | head
  | clone (id : ℕ)
deriving DecidableEq

/-- `find_object_context`, with nothing missing. A head whose context is in the cache is found even
if there is no object. -/
def findObjectContext (cached : Bool) (o : Object) (removed : OrdSet ℕ) (snap : ℕ) : Option Found :=
  -- want the head?
  if snap = noSnap then some (if cached || o.obs.existing then .head else .enoent)
  else if snap ∈ removed then some .enoent
  else if !o.sscExists then some .enoent
  else if snap > o.snapset.seq then some .head
  else
    -- which clone would it be?
    match o.snapset.clones.find? fun c => !(c < snap) with
    | none => some .enoent
    | some c =>
      if c ∉ o.cloneObjs then some .enoent
      else
        -- ceph_assert(p != clone_snaps.end())
        (o.snapset.cloneSnaps.get c).bind fun snaps =>
          match snaps.getLast? with
          | none => some .enoent
          | some first => some (if first ≤ snap then .clone c else .enoent)

/-! ## The context of an operation -/

/-- The error numbers. -/
inductive Errno
  | EINVAL
  | EFBIG
  | EEXIST
  | ENOENT
  | EBUSY
deriving DecidableEq

/-- The configuration: `osd_max_object_size`, and whether the store has checksums of its own and the
digests are skipped for it. -/
structure Config where
  maxObjectSize : ℕ
  skipDataDigest : Bool

/-- The default of `osd_max_object_size`, and a store that needs the digests. -/
def defaultConfig : Config := ⟨128 * 2 ^ 20, false⟩

structure OpContext where
  snapc : SnapContext
  newObs : ObjectState
  opT : PGTransaction := {}
  modify : Bool := false
deriving DecidableEq

/-- The result of an operation, and the context that it leaves. -/
structure Outcome where
  result : Option Errno
  ctx : OpContext
deriving DecidableEq

namespace OpContext

/-- The object info that the operation works on. -/
def oi (x : OpContext) : ObjectInfo := x.newObs.oi

def setInfo (x : OpContext) (oi : ObjectInfo) : OpContext := { x with newObs.oi := oi }

def setTransaction (x : OpContext) (t : PGTransaction) : OpContext := { x with opT := t }

/-- `obs.exists && !oi.is_whiteout()`. -/
def visible (x : OpContext) : Bool := x.newObs.existing && !x.oi.whiteout

def succeed (x : OpContext) : Option Outcome := some ⟨none, x⟩

def refuse (x : OpContext) (e : Errno) : Option Outcome := some ⟨some e, x⟩

end OpContext

def ObjectInfo.newObject (oi : ObjectInfo) : ObjectInfo := { oi with dataDigest := none }

def maybeCreateNewObject (x : OpContext) (ignoreTransaction : Bool) : Option OpContext :=
  if !x.newObs.existing then
    -- ceph_assert(!obs.oi.is_whiteout())
    if x.oi.whiteout then none
    else
      let x := { x with newObs := ⟨true, x.oi.newObject⟩ }
      if ignoreTransaction then some x else x.opT.create.map x.setTransaction
  else if x.oi.whiteout then some (x.setInfo { x.oi with whiteout := false })
  else some x

def checkOffsetAndLength (cfg : Config) (offset length : ℕ) : Bool :=
  !(offset ≥ cfg.maxObjectSize || length > cfg.maxObjectSize ||
    (offset + length) % 2 ^ 64 > cfg.maxObjectSize)

def truncateUpdateSizeAndUsage (oi : ObjectInfo) (truncateSize : ℕ) : ObjectInfo :=
  if oi.size ≠ truncateSize then { oi with size := truncateSize } else oi

def writeUpdateSizeAndUsage (oi : ObjectInfo) (offset length : ℕ) (writeFull : Bool) : ObjectInfo :=
  if writeFull ∨ ((offset + length) % 2 ^ 64 > oi.size ∧ length ≠ 0) then
    { oi with size := (offset + length) % 2 ^ 64 }
  else oi

/-! ## The operations -/

/-- The extent of an operation. -/
structure ExtentOp where
  offset : ℕ
  length : ℕ
  truncateSize : ℕ
  truncateSeq : ℕ
deriving DecidableEq

/-- The operations. `create` carries its exclusive flag and whether the category in its data, if there
is any, can be decoded; `rollback` whether the head has watchers. -/
inductive OsdOp
  | write (e : ExtentOp) (indata : List UInt8)
  | writefull (e : ExtentOp) (indata : List UInt8)
  | zero (e : ExtentOp)
  | truncate (e : ExtentOp)
  | trimtrunc (e : ExtentOp)
  | create (excl decodes : Bool)
  | delete
  | rollback (snapid : ℕ) (watched : Bool)
deriving DecidableEq

/-- Munge -1 truncate to 0 truncate. -/
def ExtentOp.munge (e : ExtentOp) : ExtentOp :=
  if e.truncateSeq = 1 ∧ e.truncateSize = 2 ^ 64 - 1 then { e with truncateSize := 0, truncateSeq := 0 }
  else e

section Write

variable (cfg : Config) (e : ExtentOp)

/-- The data of a write that arrived after a `trimtrunc`: not more than the size. -/
def writeData (oi : ObjectInfo) (indata : List UInt8) : List UInt8 :=
  if oi.truncateSeq ≠ 0 ∧ oi.truncateSeq > e.truncateSeq ∧
      (e.offset + e.length) % 2 ^ 64 > oi.size then
    indata.take (if e.offset > oi.size then 0 else oi.size - e.offset)
  else indata

/-- A write that arrives before its `trimtrunc` truncates first. -/
def writeTruncate (x : OpContext) : Option OpContext :=
  if e.truncateSeq > x.oi.truncateSeq then
    let oi := { x.oi with truncateSeq := e.truncateSeq, truncateSize := e.truncateSize }
    if x.visible then
      (x.opT.truncate e.truncateSize).map fun t =>
        (x.setTransaction t).setInfo
          (if e.truncateSize ≠ oi.size then truncateUpdateSizeAndUsage oi e.truncateSize else oi)
    -- but object is new
    else some (x.setInfo oi)
  else some x

/-- The write itself. A write of no data can make the object larger. -/
def writeBuffer (x : OpContext) (offset : ℕ) (data : List UInt8) : Option OpContext :=
  if data.length = 0 then
    if offset > x.oi.size then
      (x.opT.truncate offset).map fun t =>
        (x.setTransaction t).setInfo (truncateUpdateSizeAndUsage x.oi offset)
    else x.opT.nop.map x.setTransaction
  else (x.opT.write offset data).map x.setTransaction

/-- The digest after a write: of a whole object, of an append, or none. -/
def writeDigest (oi : ObjectInfo) (offset : ℕ) (data : List UInt8) : Option UInt32 :=
  if offset = 0 ∧ data.length ≥ oi.size ∧ !cfg.skipDataDigest then some (crc32c (-1) data)
  else
    match oi.dataDigest with
    | none => none
    | some d =>
      if offset = oi.size then if cfg.skipDataDigest then none else some (crc32c d data) else none

/-- `CEPH_OSD_OP_WRITE`. -/
def doWrite (indata : List UInt8) (x : OpContext) : Option Outcome :=
  if e.length ≠ indata.length then x.refuse .EINVAL
  else
    let data := writeData e x.oi indata
    (writeTruncate e x).bind fun x =>
      if !checkOffsetAndLength cfg e.offset data.length then x.refuse .EFBIG
      else
        (maybeCreateNewObject x false).bind fun x =>
          (writeBuffer x e.offset data).bind fun x =>
            (x.setInfo (writeUpdateSizeAndUsage
              { x.oi with dataDigest := writeDigest cfg x.oi e.offset data }
              e.offset data.length false)).succeed

/-- `CEPH_OSD_OP_WRITEFULL`, in a replicated pool. -/
def doWritefull (indata : List UInt8) (x : OpContext) : Option Outcome :=
  if e.length ≠ indata.length then x.refuse .EINVAL
  else if !checkOffsetAndLength cfg 0 e.length then x.refuse .EFBIG
  else
    (maybeCreateNewObject x false).bind fun x =>
      (if x.newObs.existing ∧ e.length < x.oi.size then x.opT.truncate e.length
        else some x.opT).bind fun t =>
      (if e.length ≠ 0 then t.write 0 indata else some t).bind fun t =>
        ((x.setTransaction t).setInfo (writeUpdateSizeAndUsage
          { x.oi with
            dataDigest := if !cfg.skipDataDigest then some (crc32c (-1) indata) else none }
          0 e.length true)).succeed

/-- `CEPH_OSD_OP_TRUNCATE`. -/
def doTruncate (x : OpContext) : Option Outcome :=
  -- object dne, truncate is a no-op
  if !x.visible then x.succeed
  else if !checkOffsetAndLength cfg e.offset e.length then x.refuse .EFBIG
  -- ceph_assert(op.extent.offset == op.extent.truncate_size)
  else if e.truncateSeq ≠ 0 ∧ e.offset ≠ e.truncateSize then none
  -- old
  else if e.truncateSeq ≠ 0 ∧ e.truncateSeq ≤ x.oi.truncateSeq then x.succeed
  else
    let oi := if e.truncateSeq ≠ 0 then
      { x.oi with truncateSeq := e.truncateSeq, truncateSize := e.truncateSize } else x.oi
    (maybeCreateNewObject (x.setInfo oi) false).bind fun x =>
      (x.opT.truncate e.offset).bind fun t =>
        let oi := if e.offset ≠ x.oi.size then truncateUpdateSizeAndUsage x.oi e.offset else x.oi
        ((x.setTransaction t).setInfo { oi with dataDigest := none }).succeed

/-- `CEPH_OSD_OP_ZERO`, munged to a truncation or to nothing if it goes to the end of the object. -/
def doZero (x : OpContext) : Option Outcome :=
  if x.newObs.existing ∧ e.offset < cfg.maxObjectSize ∧ e.length ≥ 1 ∧
      e.length ≤ cfg.maxObjectSize ∧ (e.offset + e.length) % 2 ^ 64 ≥ x.oi.size then
    if e.offset ≥ x.oi.size then x.succeed else doTruncate cfg e x
  else if !checkOffsetAndLength cfg e.offset e.length then x.refuse .EFBIG
  -- ceph_assert(op.extent.length)
  else if e.length = 0 then none
  else if x.visible then
    (x.opT.zero e.offset e.length).bind fun t =>
      ((x.setTransaction t).setInfo { x.oi with dataDigest := none }).succeed
  else x.succeed

end Write

/-- `CEPH_OSD_OP_CREATE`. -/
def doCreate (excl decodes : Bool) (x : OpContext) : Option Outcome :=
  if x.visible ∧ excl then x.refuse .EEXIST
  else if !decodes then x.refuse .EINVAL
  else
    (maybeCreateNewObject x false).bind fun x => (x.opT.nop.map x.setTransaction).bind fun x => x.succeed

/-- Whether the newest snapshot of the context is not known to the snapset. -/
def SnapContext.newerThan (snapc : SnapContext) (seq : ℕ) : Bool :=
  match snapc.snaps with
  | [] => false
  | s :: _ => s > seq

/-- A deletion leaves a whiteout: the object has or will have clones. -/
def OpContext.willWhiteout (o : Object) (x : OpContext) : Bool :=
  !o.snapset.clones.isEmpty || x.snapc.newerThan o.snapset.seq

def deleteOid (o : Object) (x : OpContext) : Option Outcome :=
  let whiteout := x.willWhiteout o
  if !x.newObs.existing || (x.oi.whiteout && whiteout) then x.refuse .ENOENT
  else
    x.opT.remove.bind fun t =>
      let oi := { x.oi with size := 0 }.newObject
      if whiteout then
        t.create.bind fun t =>
          ((x.setTransaction t).setInfo { oi with whiteout := true }).succeed
      else
        { x.setTransaction t with newObs := ⟨false, { oi with whiteout := false }⟩ }.succeed

/-- `_rollback_to`. The context of the head is that of the operation, and so in the cache. -/
def rollbackTo (o : Object) (removed : OrdSet ℕ) (snapid : ℕ) (watched : Bool) (x : OpContext) :
    Option Outcome :=
  (findObjectContext true o removed snapid).bind fun found =>
    -- there's no snapshot here, or there's no object
    let deletes : Option Outcome :=
      -- cannot delete an object with watchers
      if watched then x.refuse .EBUSY else (deleteOid o x).map fun r => ⟨none, r.ctx⟩
    match found with
    | .enoent => deletes
    | .head =>
      if o.obs.oi.whiteout then deletes
      -- rolling back to the head; we just need to clone it
      else { x with modify := true }.succeed
    | .clone c =>
      (o.cloneObjs.get c).bind fun rollback =>
        if rollback.oi.whiteout then deletes
        else
          (if x.newObs.existing then x.opT.remove else some x.opT).bind fun t =>
            (t.clone c).bind fun t =>
              (maybeCreateNewObject (x.setTransaction t) true).bind fun x =>
                (x.setInfo { x.oi with
                  size := rollback.oi.size, dataDigest := rollback.oi.dataDigest }).succeed

/-- One operation of `do_osd_ops`. -/
def doOsdOp (cfg : Config) (o : Object) (removed : OrdSet ℕ) (x : OpContext) :
    OsdOp → Option Outcome
  | .write e indata => doWrite cfg e.munge indata x
  | .writefull e indata => doWritefull cfg e.munge indata x
  | .zero e => doZero cfg e.munge x
  | .truncate e => doTruncate cfg e.munge x
  | .trimtrunc e => doTruncate cfg { e.munge with offset := e.munge.truncateSize } x
  | .create excl decodes => doCreate excl decodes x
  | .delete => deleteOid o x
  | .rollback snapid watched => rollbackTo o removed snapid watched x

/-! ## The end of a transaction -/

/-- The condition of `make_writeable` for a clone: the head existed, and there are snapshots that the
object is older than. -/
def clones (o : Object) (snapc : SnapContext) : Bool :=
  o.obs.existing && !o.obs.oi.whiteout && snapc.newerThan o.snapset.seq

/-- `make_writeable`: the snapset and the clones. The clone is made of what the store has of the head
before the transaction. -/
def makeWriteable (o : Object) (snapc : SnapContext) : SnapSet × OrdMap ℕ CloneObject :=
  let seq := if snapc.seq > o.snapset.seq then snapc.seq else o.snapset.seq
  if clones o snapc then
    (⟨seq, o.snapset.clones ++ [snapc.seq],
        o.snapset.cloneSnaps.insert snapc.seq (snapc.snaps.takeWhile (· > o.snapset.seq))⟩,
      o.cloneObjs.insert snapc.seq ⟨o.obs.oi, o.stored.getD []⟩)
  else ({ o.snapset with seq := seq }, o.cloneObjs)

/-- The end of `prepare_transaction`, with `finish_ctx`, and the transaction in the store. -/
def finishCtx (o : Object) (x : OpContext) : Option Object :=
  -- write-op noop
  if x.opT.empty && !x.modify then some o
  else
    let w := makeWriteable o x.snapc
    let stored := x.opT.generate o.cloneBytes o.stored
    if x.newObs.existing then
      -- setattrs: get_object_op_for_modify
      x.opT.getObjectOpForModify.map fun _ => ⟨x.newObs, stored, true, w.1, w.2⟩
    else some ⟨{}, stored, false, {}, w.2⟩

/-! ## `trim_object` -/

/-- The head after the trim of a clone: a whiteout without clones is removed. -/
def saveHead (o : Object) : Object :=
  if o.snapset.clones.isEmpty ∧ o.obs.oi.whiteout then { o with obs := {}, stored := none } else o

/-- `trim_object`, with the locks taken. -/
def trimObject (o : Object) (removed : OrdSet ℕ) (coid : ℕ) : Except Errno Object :=
  if coid ∉ o.cloneObjs ∨ !o.sscExists then .error .ENOENT
  else
    match o.snapset.cloneSnaps.get coid with
    | none => .error .ENOENT
    | some oldSnaps =>
      if oldSnaps.isEmpty ∨ o.snapset.seq = 0 then .error .ENOENT
      else
        let newSnaps := OrdMap.insertAll (.empty : OrdSet ℕ) (oldSnaps.filter (· ∉ removed))
        if newSnaps.keys.isEmpty then
          if coid ∉ o.snapset.clones then .error .ENOENT
          else
            -- remove clone
            .ok (saveHead { o with
              snapset := ⟨o.snapset.seq, o.snapset.clones.erase coid,
                o.snapset.cloneSnaps.erase coid⟩
              cloneObjs := o.cloneObjs.erase coid })
        else
          -- save adjusted snaps for this object
          .ok (saveHead { o with
            snapset.cloneSnaps := o.snapset.cloneSnaps.insert coid newSnaps.keys.reverse })

/-! ## The system -/

/-- What a client can read of the head: nothing if there is none, or a whiteout. -/
def Object.contents (o : Object) : Option (List UInt8) :=
  if o.obs.existing && !o.obs.oi.whiteout then some (o.stored.getD []) else none

/-- The object, the removed snapshots of the pool, the transaction that is prepared, and the history:
what the head was after each operation, the newest first, with the `seq` of its snap context. -/
structure State where
  obj : Object := {}
  removed : OrdSet ℕ := .empty
  ctx : Option OpContext := none
  history : List (ℕ × Option (List UInt8)) := []
deriving DecidableEq

inductive Action
  | start (snapc : SnapContext)
  | op (op : OsdOp) (failok : Bool)
  | finish
  | removeSnap (snap : ℕ)
  | trim (coid : ℕ)
deriving DecidableEq

/-- The transaction is over, and the object is now `o`. -/
def State.close (st : State) (x : OpContext) (o : Object) : State :=
  { st with obj := o, ctx := none, history := (x.snapc.seq, o.contents) :: st.history }

/-- One step. The operations of a transaction come between its start and its end; one that is refused
ends it, unless it has the flag `FAILOK`. -/
def step (cfg : Config) (st : State) : Action → Option State
  | .start snapc =>
    match st.ctx with
    | some _ => none
    | none =>
      if snapc.isValid then some { st with ctx := some ⟨snapc, st.obj.obs, {}, false⟩ } else some st
  | .op op failok =>
    st.ctx.bind fun x =>
      (doOsdOp cfg st.obj st.removed x op).map fun r =>
        if r.result.isSome && !failok then st.close x st.obj else { st with ctx := some r.ctx }
  | .finish => st.ctx.bind fun x => (finishCtx st.obj x).map (st.close x)
  | .removeSnap snap =>
    match st.ctx with
    | some _ => none
    | none => some { st with removed := st.removed.insert snap () }
  | .trim coid =>
    match st.ctx with
    | some _ => none
    | none =>
      match trimObject st.obj st.removed coid with
      | .error _ => some st
      | .ok o => some { st with obj := o }

end Ceph.Osd.PrimaryLog
