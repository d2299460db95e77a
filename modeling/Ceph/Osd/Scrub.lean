import Ceph.Common.Hobject
import Ceph.Osd.OSDMap
import Ceph.Osd.Types
import Mathlib.Data.Finset.Basic
import Mathlib.Data.String.Basic

set_option autoImplicit false

/-! # Comparing the copies of an object

A scrub collects from each shard a map of its objects. `be_select_auth_object` picks the copy whose
object info is taken to be right, and `be_compare_scrubmaps` compares each copy with it: a shard
misses the object, is inconsistent, or goes to the list of good copies. Errors that a shard has on
its own are kept for the shard, differences between copies for the object.

`none` stands for an assertion that fails. The texts for the log and the counters of errors are left
out.
-/

namespace Ceph.Osd

/-! ## What a scrub map holds -/

/-- `ScrubMap::object`: what a shard says of an object. -/
structure ScrubObject where
  attrs : OrdMap String Bytes
  size : ℕ
  omapDigest : UInt32
  digest : UInt32
  digestPresent : Bool
  omapDigestPresent : Bool
  readError : Bool
  statError : Bool
  ecHashMismatch : Bool
  ecSizeMismatch : Bool
deriving DecidableEq

/-- The objects of a shard. -/
abbrev ScrubMap := OrdMap Soid ScrubObject

/-- What is read of an `object_info_t`. The digests are there if their flags are set. -/
structure ObjectInfo where
  soid : Soid
  version : Eversion
  size : ℕ
  dataDigest : Option UInt32
  omapDigest : Option UInt32

def dcount (oi : ObjectInfo) : ℕ :=
  (if oi.dataDigest.isSome then 1 else 0) + (if oi.omapDigest.isSome then 1 else 0)

def Soid.isHead (obj : Soid) : Bool := obj.val.snap = noSnap

def Soid.isSnapdir (obj : Soid) : Bool := obj.val.snap = snapDir

def Soid.hasSnapset (obj : Soid) : Bool := Soid.isHead obj || Soid.isSnapdir obj

def oiAttr : String := "_"
def ssAttr : String := "snapset"
def hinfoKey : String := "hinfo_key"

/-- The errors of a shard. -/
inductive ShardErr
  | shardMissing
  | shardStatErr
  | shardReadErr
  | dataDigestMismatchInfo
  | omapDigestMismatchInfo
  | sizeMismatchInfo
  | shardEcHashMismatch
  | shardEcSizeMismatch
  | infoMissing
  | infoCorrupted
  | snapsetMissing
  | snapsetCorrupted
  | objSizeInfoMismatch
  | hinfoMissing
  | hinfoCorrupted
deriving DecidableEq

/-- The errors of an object, which are of no particular shard. -/
inductive ObjErr
  | objectInfoInconsistency
  | dataDigestMismatch
  | omapDigestMismatch
  | sizeMismatch
  | attrValueMismatch
  | attrNameMismatch
  | snapsetInconsistency
  | hinfoInconsistency
  | sizeTooLarge
deriving DecidableEq

/-- What a scrub reads besides the maps: the pool, `be_get_ondisk_size`, `osd_max_object_size`, the
decoders of the attributes, and whether an object info is older than
`osd_deep_scrub_update_digest_min_age`. -/
structure ScrubEnv where
  pool : PoolType
  ondiskSize : ℕ → ℕ
  maxObjectSize : ℕ
  decodeInfo : Bytes → Option ObjectInfo
  decodeSnapset : Bytes → Bool
  decodeHinfo : Bytes → Bool
  oldEnough : ObjectInfo → Bool

/-! ## `be_select_auth_object` -/

section Select

variable (env : ScrubEnv) (obj : Soid)

/-- The errors that came with the scrub map. -/
def flagErrors (o : ScrubObject) : Finset ShardErr :=
  (if o.readError then {.shardReadErr} else ∅) ∪
    (if o.ecHashMismatch then {.shardEcHashMismatch} else ∅) ∪
      (if o.ecSizeMismatch then {.shardEcSizeMismatch} else ∅)

/-- An attribute that has to be there and to decode. -/
def attrErrors (attrs : OrdMap String Bytes) (name : String) (decodes : Bytes → Bool)
    (missing corrupted : ShardErr) : Finset ShardErr :=
  match attrs.get name with
  | none => {missing}
  | some bl => if decodes bl then ∅ else {corrupted}

/-- The snapset of a head, and the hash info on an erasure coded pool. -/
def extraErrors (o : ScrubObject) : Finset ShardErr :=
  (if Soid.isHead obj then
      attrErrors o.attrs ssAttr env.decodeSnapset .snapsetMissing .snapsetCorrupted
    else ∅) ∪
    if env.pool = .erasure then
      attrErrors o.attrs hinfoKey env.decodeHinfo .hinfoMissing .hinfoCorrupted
    else ∅

/-- The checks of one copy: its errors, and the object info if the checks get there. -/
def inspect (o : ScrubObject) : Option (Finset ShardErr × Option ObjectInfo) :=
  if o.statError then some (insert .shardStatErr (flagErrors o), none)
  -- ceph_assert(!obj.is_snapdir())
  else if Soid.isSnapdir obj then none
  else
    let errors := flagErrors o ∪ extraErrors env obj o
    match o.attrs.get oiAttr with
    | none => some (insert .infoMissing errors, none)
    | some bl =>
      match env.decodeInfo bl with
      | none => some (insert .infoCorrupted errors, none)
      | some oi =>
        -- ceph_assert(oi.soid == obj)
        if oi.soid ≠ obj then none
        else
          some (if o.size ≠ env.ondiskSize oi.size then insert .objSizeInfoMismatch errors
            else errors, some oi)

variable {σ : Type} [LinearOrder σ]

/-- The copy that is selected, with its object info. -/
structure AuthCopy (σ : Type) where
  shard : σ
  object : ScrubObject
  oi : ObjectInfo

structure Selection (σ : Type) [LinearOrder σ] where
  auth : Option (AuthCopy σ)
  digestMatch : Bool
  shardMap : OrdMap σ (Finset ShardErr)

def Selection.authVersion (s : Selection σ) : Eversion :=
  match s.auth with
  | none => .zero
  | some a => a.oi.version

/-- The computed digests of the copy and of the selected one are there and differ. -/
def Selection.digestDiffers (s : Selection σ) (o : ScrubObject) : Bool :=
  match s.auth with
  | none => false
  | some a =>
    s.authVersion ≠ .zero && a.object.digestPresent && o.digestPresent &&
      a.object.digest ≠ o.digest

/-- Whether a copy without errors is to be selected. -/
def Selection.prefers (s : Selection σ) (oi : ObjectInfo) : Bool :=
  match s.auth with
  | none => true
  | some a =>
    s.authVersion = .zero || oi.version > s.authVersion ||
      (oi.version = s.authVersion && dcount oi > dcount a.oi)

/-- What a shard says of the object. -/
def record (maps : OrdMap σ ScrubMap) (l : σ) : Option ScrubObject := (maps.get l).bind (·.get obj)

/-- One turn of the loop over the shards. -/
def scanShard (maps : OrdMap σ ScrubMap) (s : Selection σ) (l : σ) : Option (Selection σ) :=
  -- the map of the shard is read without a check that it is there
  if l ∉ maps then none
  else
    match record obj maps l with
    | none => some s
    | some o =>
      (inspect env obj o).map fun (errors, info) =>
        let shardMap := s.shardMap.insert l errors
        match info with
        | none => { s with shardMap }
        | some oi =>
          let digestMatch := s.digestMatch && !s.digestDiffers o
          -- Don't use this particular shard due to previous errors
          if errors = ∅ ∧ s.prefers oi then ⟨some ⟨l, o, oi⟩, digestMatch, shardMap⟩
          else { s with digestMatch, shardMap }

/-- The shards with the primary first, so it will be auth copy all other things being equal. -/
def scanOrder (maps : OrdMap σ ScrubMap) (primary : σ) : List σ :=
  primary :: maps.keys.filter (· ≠ primary)

def selectAuthObject (maps : OrdMap σ ScrubMap) (primary : σ) : Option (Selection σ) :=
  (scanOrder maps primary).foldlM (scanShard env obj maps) ⟨none, true, .empty⟩

end Select

/-! ## `be_compare_scrub_objects` -/

/-- The result of a comparison: whether something was found, and the errors so far. -/
structure Comparison where
  found : Bool
  shardErrors : Finset ShardErr
  objErrors : Finset ObjErr

namespace Comparison

def noteObj (r : Comparison) (c : Bool) (e : ObjErr) : Comparison :=
  if c then { r with found := true, objErrors := insert e r.objErrors } else r

def noteShard (r : Comparison) (c : Bool) (e : ShardErr) : Comparison :=
  if c then { r with found := true, shardErrors := insert e r.shardErrors } else r

/-- An attribute of both copies, unless the shard is known not to have it or not to decode it. -/
def compareAttr (r : Comparison) (auth candidate : ScrubObject) (name : String)
    (missing corrupted : ShardErr) (e : ObjErr) : Option Comparison :=
  if missing ∈ r.shardErrors ∨ corrupted ∈ r.shardErrors then some r
  else
    match candidate.attrs.get name, auth.attrs.get name with
    | some canBl, some authBl => some (r.noteObj (canBl ≠ authBl) e)
    -- ceph_assert(auth_attr != auth.attrs.end()), ceph_assert(can_attr != candidate.attrs.end())
    | _, _ => none

end Comparison

/-- The attributes of users. System keys are checked separately. -/
def isUserAttr (name : String) : Bool := name ≠ oiAttr && name.toList.head? = some '_'

/-- The digests: against the other copy, and against the object info. -/
def compareDigests (env : ScrubEnv) (auth : ScrubObject) (authOi : ObjectInfo)
    (candidate : ScrubObject) (r : Comparison) : Comparison :=
  let r := r.noteObj (auth.digestPresent && candidate.digestPresent &&
    auth.digest ≠ candidate.digest) .dataDigestMismatch
  let r := r.noteObj (auth.omapDigestPresent && candidate.omapDigestPresent &&
    auth.omapDigest ≠ candidate.omapDigest) .omapDigestMismatch
  if env.pool = .replicated then
    let r := r.noteShard (candidate.digestPresent &&
      authOi.dataDigest.any (· ≠ candidate.digest)) .dataDigestMismatchInfo
    r.noteShard (candidate.omapDigestPresent &&
      authOi.omapDigest.any (· ≠ candidate.omapDigest)) .omapDigestMismatchInfo
  else r

/-- The sizes: against the object info, the other copy and the limit. An object that is too large is
counted once. -/
def compareSizes (env : ScrubEnv) (auth : ScrubObject) (authOi : ObjectInfo)
    (candidate : ScrubObject) (r : Comparison) : Comparison :=
  let r := r.noteShard (env.ondiskSize authOi.size ≠ candidate.size) .sizeMismatchInfo
  let r := r.noteObj (auth.size ≠ candidate.size) .sizeMismatch
  r.noteObj (candidate.size > env.maxObjectSize && .sizeTooLarge ∉ r.objErrors) .sizeTooLarge

/-- The attributes of users: names and values of the one copy, and names of the other. -/
def compareUserAttrs (auth candidate : ScrubObject) (r : Comparison) : Comparison :=
  let r := auth.attrs.entries.foldl (fun r i =>
    if isUserAttr i.1 then
      match candidate.attrs.get i.1 with
      | none => r.noteObj true .attrNameMismatch
      | some v => r.noteObj (v ≠ i.2) .attrValueMismatch
    else r) r
  candidate.attrs.entries.foldl (fun r i =>
    r.noteObj (isUserAttr i.1 && (auth.attrs.get i.1).isNone) .attrNameMismatch) r

/-- The attributes of the system. -/
def compareSystemAttrs (env : ScrubEnv) (obj : Soid) (auth candidate : ScrubObject)
    (r : Comparison) : Option Comparison :=
  (r.compareAttr auth candidate oiAttr .infoMissing .infoCorrupted
      .objectInfoInconsistency).bind fun r =>
    (if Soid.hasSnapset obj then
        r.compareAttr auth candidate ssAttr .snapsetMissing .snapsetCorrupted .snapsetInconsistency
      else some r).bind fun r =>
      if env.pool = .erasure then
        r.compareAttr auth candidate hinfoKey .hinfoMissing .hinfoCorrupted .hinfoInconsistency
      else some r

def compareScrubObjects (env : ScrubEnv) (obj : Soid) (auth : ScrubObject) (authOi : ObjectInfo)
    (candidate : ScrubObject) (shardErrors : Finset ShardErr) (objErrors : Finset ObjErr) :
    Option Comparison :=
  let r := compareDigests env auth authOi candidate ⟨false, shardErrors, objErrors⟩
  if candidate.statError then some r
  else
    (compareSystemAttrs env obj auth candidate r).map fun r =>
      compareUserAttrs auth candidate (compareSizes env auth authOi candidate r)

/-! ## `be_compare_scrubmaps` -/

section Compare

variable {σ : Type} [LinearOrder σ]

/-- The state of the loop over the shards. -/
structure Tally (σ : Type) [LinearOrder σ] where
  shardMap : OrdMap σ (Finset ShardErr)
  objErrors : Finset ObjErr
  authList : List σ
  objectErrors : OrdSet σ
  curMissing : OrdSet σ
  curInconsistent : OrdSet σ
  fixDigest : Bool

/-- `shard_map[shard].errors`. -/
def errorsOf (shardMap : OrdMap σ (Finset ShardErr)) (shard : σ) : Finset ShardErr :=
  (shardMap.get shard).getD ∅

/-- If all replicas match, but they don't match object_info we can repair it by using missing_digest
mechanism. `shards` is the size of `shard_map`. -/
def fixesDigest (env : ScrubEnv) (repair isAuth digestMatch digestPresent : Bool) (shards : ℕ)
    (errors : Finset ShardErr) : Bool :=
  repair && env.pool = .replicated && isAuth && shards > 1 && digestMatch &&
    errors = {.dataDigestMismatchInfo} && digestPresent

/-- One turn of the loop over the shards. -/
def tallyShard (env : ScrubEnv) (obj : Soid) (repair : Bool) (auth : AuthCopy σ)
    (digestMatch : Bool) (t : Tally σ) (j : σ × ScrubMap) : Option (Tally σ) :=
  match j.2.get obj with
  | some o =>
    (compareScrubObjects env obj auth.object auth.oi o (errorsOf t.shardMap j.1)
        t.objErrors).map fun c =>
      let shardMap := t.shardMap.insert j.1 c.shardErrors
      let fix := fixesDigest env repair (j.1 = auth.shard) digestMatch auth.object.digestPresent
        shardMap.entries.length c.shardErrors
      -- Clear the error
      let errors := if fix then c.shardErrors.erase .dataDigestMismatchInfo else c.shardErrors
      let t := { t with
        shardMap := shardMap.insert j.1 errors
        objErrors := c.objErrors
        fixDigest := t.fixDigest || fix }
      -- Some errors might have already been set in be_select_auth_object()
      if errors ≠ ∅ then { t with curInconsistent := t.curInconsistent.insert j.1 () }
      -- There are errors, without identifying the shard
      else if c.found then { t with objectErrors := t.objectErrors.insert j.1 () }
      else { t with authList := t.authList ++ [j.1] }
  | none =>
    some { t with
      curMissing := t.curMissing.insert j.1 ()
      shardMap := t.shardMap.insert j.1 (insert .shardMissing (errorsOf t.shardMap j.1)) }

/-- The outcome for an object that was compared. -/
structure ScrubResult (σ : Type) [LinearOrder σ] where
  missing : OrdSet σ
  inconsistent : OrdSet σ
  authList : List σ
  shardMap : OrdMap σ (Finset ShardErr)
  missingDigest : Option (Option UInt32 × Option UInt32)

inductive ScrubOutcome (σ : Type) [LinearOrder σ]
  /-- failed to pick suitable object info -/
  | noInfo
  /-- failed to pick suitable auth object -/
  | noAuth
  | compared (result : ScrubResult σ)

inductive DigestUpdate
  | no
  | maybe
  | force
deriving DecidableEq

/-- A digest that was computed. -/
def presentDigest (isPresent : Bool) (digest : UInt32) : Option UInt32 :=
  if isPresent then some digest else none

/-- Whether the digests of the object info are to be updated on a consistent object. -/
def digestUpdate (repair : Bool) (auth : AuthCopy σ) (errors : Finset ShardErr) :
    Option DigestUpdate := do
  let update : DigestUpdate :=
    if (auth.object.digestPresent && auth.oi.dataDigest.isNone) ||
        (auth.object.omapDigestPresent && auth.oi.omapDigest.isNone) then .maybe
    else .no
  -- recorded digest != actual digest?
  let update ←
    if auth.object.digestPresent && auth.oi.dataDigest.any (· ≠ auth.object.digest) then
      -- ceph_assert(shard_map[auth->first].has_data_digest_mismatch_info())
      if .dataDigestMismatchInfo ∈ errors then some (if repair then .force else update) else none
    else some update
  if auth.object.omapDigestPresent && auth.oi.omapDigest.any (· ≠ auth.object.omapDigest) then
    -- ceph_assert(shard_map[auth->first].has_omap_digest_mismatch_info())
    if .omapDigestMismatchInfo ∈ errors then some (if repair then .force else update) else none
  else some update

/-- What is entered in `missing_digest`. -/
def missingDigest (env : ScrubEnv) (repair : Bool) (auth : AuthCopy σ) (t : Tally σ)
    (inconsistent : OrdSet σ) : Option (Option (Option UInt32 × Option UInt32)) :=
  let digests := (presentDigest auth.object.digestPresent auth.object.digest,
    presentDigest auth.object.omapDigestPresent auth.object.omapDigest)
  if t.fixDigest then
    -- ceph_assert(auth_object.digest_present)
    if auth.object.digestPresent then some (some digests) else none
  else if inconsistent.entries ≠ [] ∨ t.curMissing.entries ≠ [] then some none
  else if env.pool = .replicated then
    (digestUpdate repair auth (errorsOf t.shardMap auth.shard)).map fun update =>
      match update with
      | .no => none
      | .maybe => if env.oldEnough auth.oi then some digests else none
      | .force => some digests
  else some none

/-- The list of good copies and the other shards with errors of the object. If no copy is good, the
selected one is taken if it is among those, otherwise the first of them. -/
def pickAuthList (auth : AuthCopy σ) (t : Tally σ) : Option (List σ × OrdSet σ) :=
  match t.authList, t.objectErrors.keys with
  | [], [] => none
  | [], first :: _ =>
    let shard := if auth.shard ∈ t.objectErrors then auth.shard else first
    some ([shard], t.objectErrors.erase shard)
  | authList, _ => some (authList, t.objectErrors)

/-- The body of the loop of `be_compare_scrubmaps`, for one object. -/
def compareScrubmaps (env : ScrubEnv) (obj : Soid) (maps : OrdMap σ ScrubMap) (primary : σ)
    (repair : Bool) : Option (ScrubOutcome σ) := do
  let s ← selectAuthObject env obj maps primary
  match s.auth with
  | none => some .noInfo
  | some auth =>
    let t ← maps.entries.foldlM (tallyShard env obj repair auth s.digestMatch)
      ⟨s.shardMap, ∅, [], .empty, .empty, .empty, false⟩
    match pickAuthList auth t with
    | none => some .noAuth
    | some (authList, objectErrors) =>
      let inconsistent := t.curInconsistent.insertAll objectErrors.keys
      let digests ← missingDigest env repair auth t inconsistent
      some (.compared ⟨t.curMissing, inconsistent, authList, t.shardMap, digests⟩)

end Compare

/-- A clone of an object. -/
def sampleClone : Soid := ⟨Hobject.default, by decide⟩

end Ceph.Osd
