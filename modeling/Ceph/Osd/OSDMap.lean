import Ceph.Crush.Bucket
import Ceph.Lib.OrdMap
import Ceph.Osd.Placement

set_option autoImplicit false

/-! # From a placement group to its OSDs

The part of `OSDMap` that maps a placement group to OSDs. CRUSH gives a *raw* vector of OSDs.
Explicit remappings (`pg_upmap`, `pg_upmap_items`) turn it into the *upmapped* one; what is not up
is taken out of that, which leaves the *up* vector with its primary. Temporary overrides
(`pg_temp`, `primary_temp`) may replace both by the *acting* ones. A replicated pool *shifts*: a
vector of its OSDs closes up where one is missing. In an erasure-coded pool positions have a
meaning, and a missing OSD leaves `CRUSH_ITEM_NONE` behind.

CRUSH itself is a parameter, with the hash functions: what is said here holds for whatever
it returns.
-/

namespace Ceph.Osd

/-! ## Pools and OSDs -/

/-- `pg_pool_t::TYPE_*`. -/
inductive PoolType where
  | replicated
  | erasure
  deriving DecidableEq

/-- `pg_pool_t`, as far as the mapping of its groups reads it. -/
structure PgPool where
  type : PoolType
  size : ℕ
  crushRule : ℕ
  hashPsPool : Bool
  pgNum : UInt32
  pgpNum : UInt32
  pgNumPending : UInt32
  deriving DecidableEq

namespace PgPool

def canShiftOsds (pool : PgPool) : Bool :=
  match pool.type with
  | .replicated => true
  | .erasure => false

def rawPgToPg (pool : PgPool) (pg : Pg) : Pg := { pg with seed := hashToSeed pg.seed pool.pgNum }

end PgPool

/-- What the map knows of an OSD: two bits of its `osd_state`, its `osd_weight` and its
`osd_primary_affinity`. -/
structure OsdInfo where
  exists_ : Bool
  up : Bool
  weight : UInt32
  primaryAffinity : UInt32
  deriving DecidableEq

/-- The CRUSH map with the functions of it that `OSDMap` calls, and `crush_hash32_2`. A rule or a
weight map that cannot be found is `none`; a negative result of `verify_upmap` is `false`. -/
structure Crush where
  hash : UInt32 → UInt32 → UInt32
  findRule : ℕ → PoolType → ℕ → Option ℕ
  doRule : ℕ → UInt32 → ℕ → List UInt32 → UInt64 → List ℤ
  verifyUpmap : ℕ → ℕ → List ℤ → Bool
  ruleWeightOsdMap : ℕ → Option (List (ℤ × ℚ))

/-- The order of `pg_t`. -/
instance : LinearOrder Pg :=
  LinearOrder.lift' (fun pg : Pg => toLex (pg.pool.toInt64.toInt, pg.seed.toNat)) (by
    rintro ⟨p, s⟩ ⟨q, t⟩ h
    obtain ⟨hp, hs⟩ := Prod.mk.inj (toLex.injective h)
    have hp : p.toInt64.toUInt64 = q.toInt64.toUInt64 := by rw [Int64.toInt_inj.mp hp]
    have hs : s = t := UInt32.toNat_inj.mp hs
    rw [UInt64.toUInt64_toInt64, UInt64.toUInt64_toInt64] at hp
    rw [hp, hs])

/-- **The map.** `osds` has `max_osd` entries, which is an `int`. `osd_primary_affinity` may be
missing as a whole. -/
structure OSDMap where
  osds : List OsdInfo
  maxOsd_le : osds.length ≤ 0x7fffffff
  hasPrimaryAffinity : Bool
  pools : UInt64 → Option PgPool
  crush : Crush
  pgUpmap : OrdMap Pg (List ℤ)
  pgUpmapItems : OrdMap Pg (List (ℤ × ℤ))
  pgTemp : Pg → Option (List ℤ)
  primaryTemp : Pg → Option ℤ

namespace OSDMap

variable (m : OSDMap)

/-- What the map knows of the OSD with an id, if the id is below `max_osd`. -/
def osd? (o : ℤ) : Option OsdInfo := if 0 ≤ o then m.osds[o.toNat]? else none

def exists_ (o : ℤ) : Bool := (m.osd? o).elim false OsdInfo.exists_

def isUp (o : ℤ) : Bool := m.exists_ o && (m.osd? o).elim false OsdInfo.up

def isDown (o : ℤ) : Bool := !m.isUp o

/-! ## Raw and upmapped OSDs -/

def rawPgToPps (pool : PgPool) (pg : Pg) : UInt32 :=
  if pool.hashPsPool then m.crush.hash (hashToSeed pg.seed pool.pgpNum) pg.pool.toUInt32
  else hashToSeed pg.seed pool.pgpNum + pg.pool.toUInt32

def removeNonexistentOsds (pool : PgPool) (osds : List ℤ) : List ℤ :=
  if pool.canShiftOsds then osds.filter m.exists_
  else osds.map fun o => if m.exists_ o then o else Crush.itemNone

/-- What CRUSH returns for a group, if its pool has a rule. -/
def crushOsds (pool : PgPool) (pg : Pg) : List ℤ :=
  match m.crush.findRule pool.crushRule pool.type pool.size with
  | some ruleno =>
    m.crush.doRule ruleno (m.rawPgToPps pool pg) pool.size (m.osds.map OsdInfo.weight) pg.pool
  | none => []

def pgToRawOsds (pool : PgPool) (pg : Pg) : List ℤ :=
  m.removeNonexistentOsds pool (m.crushOsds pool pg)

def pickPrimary (osds : List ℤ) : ℤ := (osds.find? fun o => o ≠ Crush.itemNone).getD (-1)

def isMarkedOut (o : ℤ) : Bool := o ≠ Crush.itemNone && (m.osd? o).elim false fun s => s.weight = 0

/-- One pair of `pg_upmap_items`, in `OSDMap::_apply_upmap`: the first occurrence of its source is
replaced, unless the target already appears or is marked out. -/
def applyUpmapItem (raw : List ℤ) (r : ℤ × ℤ) : List ℤ :=
  if r.2 ∈ raw then raw else if m.isMarkedOut r.2 then raw else raw.replace r.1 r.2

/-- The pairs of `pg_upmap_items` for a group, in turn. -/
def applyUpmapItems (pg : Pg) (raw : List ℤ) : List ℤ :=
  match m.pgUpmapItems.get pg with
  | some items => items.foldl m.applyUpmapItem raw
  | none => raw

def applyUpmap (pool : PgPool) (rawPg : Pg) (raw : List ℤ) : List ℤ :=
  let pg := pool.rawPgToPg rawPg
  match m.pgUpmap.get pg with
  | some osds =>
    -- reject/ignore the explicit mapping if a target is marked out
    if osds.any m.isMarkedOut then raw else m.applyUpmapItems pg osds
  | none => m.applyUpmapItems pg raw

/-- `OSDMap::pg_to_raw_upmap`: the raw vector and the upmapped one. -/
def pgToRawUpmap (pg : Pg) : List ℤ × List ℤ :=
  match m.pools pg.pool with
  | some pool => (m.pgToRawOsds pool pg, m.applyUpmap pool pg (m.pgToRawOsds pool pg))
  | none => ([], [])

/-! ## Up OSDs and their primary -/

def rawToUpOsds (pool : PgPool) (raw : List ℤ) : List ℤ :=
  if pool.canShiftOsds then raw.filter fun o => m.exists_ o && !m.isDown o
  else raw.map fun o => if m.exists_ o && !m.isDown o then o else Crush.itemNone

/-- `CEPH_OSD_MAX_PRIMARY_AFFINITY`, which is also the default. -/
def maxPrimaryAffinity : UInt32 := 0x10000

/-- `(*osd_primary_affinity)[o]`. -/
def primaryAffinity (o : ℤ) : UInt32 := (m.osd? o).elim 0 OsdInfo.primaryAffinity

/-- Some OSD has an affinity of its own. -/
def anyAffinity (osds : List ℤ) : Bool :=
  m.hasPrimaryAffinity &&
    osds.any fun o => o ≠ Crush.itemNone && m.primaryAffinity o ≠ maxPrimaryAffinity

/-- The hash chose not to use this OSD as a primary. -/
def refuses (seed : UInt32) (o : ℤ) : Bool :=
  m.primaryAffinity o < maxPrimaryAffinity &&
    m.crush.hash seed (UInt32.ofInt o) >>> 16 ≥ m.primaryAffinity o

/-- The loop of `_apply_primary_affinity`, from position `i` on: the first OSD that is not
refused, or else the first one, noted as `pos`. -/
def primaryPos (seed : UInt32) : List ℤ → ℕ → Option ℕ → Option ℕ
  | [], _, pos => pos
  | o :: osds, i, pos =>
    if o = Crush.itemNone then primaryPos seed osds (i + 1) pos
    else if m.refuses seed o then primaryPos seed osds (i + 1) (pos.or (some i))
    else some i

/-- The OSD at a position moved to the front. -/
def moveToFront (osds : List ℤ) (pos : ℕ) (o : ℤ) : List ℤ := o :: osds.eraseIdx pos

def applyPrimaryAffinity (seed : UInt32) (pool : PgPool) (osds : List ℤ) (primary : ℤ) :
    List ℤ × ℤ :=
  if m.anyAffinity osds then
    match m.primaryPos seed osds 0 none with
    | none => (osds, primary)
    | some pos =>
      match osds[pos]? with
      | none => (osds, primary)
      | some o => (if pool.canShiftOsds && 0 < pos then moveToFront osds pos o else osds, o)
  else (osds, primary)

/-- `OSDMap::pg_to_raw_up`: the up vector and its primary, without temporary overrides. -/
def pgToRawUp (pg : Pg) : List ℤ × ℤ :=
  match m.pools pg.pool with
  | some pool =>
    let raw := m.applyUpmap pool pg (m.pgToRawOsds pool pg)
    m.applyPrimaryAffinity (m.rawPgToPps pool pg) pool (m.rawToUpOsds pool raw) (pickPrimary raw)
  | none => ([], -1)

/-! ## Temporary overrides, and everything together -/

/-- `pg_temp` of a group, as far as it is up. -/
def tempOsds (pool : PgPool) (pg : Pg) : List ℤ :=
  match m.pgTemp (pool.rawPgToPg pg) with
  | some osds =>
    osds.flatMap fun o =>
      if !m.exists_ o || m.isDown o then
        if pool.canShiftOsds then [] else [Crush.itemNone]
      else [o]
  | none => []

def getTempOsds (pool : PgPool) (pg : Pg) : List ℤ × ℤ :=
  let temp := m.tempOsds pool pg
  (temp, (m.primaryTemp (pool.rawPgToPg pg)).getD (pickPrimary temp))

/-- What `_pg_to_up_acting_osds` returns. -/
structure UpActing where
  up : List ℤ
  upPrimary : ℤ
  acting : List ℤ
  actingPrimary : ℤ
  deriving DecidableEq

def pgToUpActingOsds (pg : Pg) (rawPgToPg : Bool) : UpActing :=
  match m.pools pg.pool with
  | some pool =>
    if !rawPgToPg && pg.seed ≥ pool.pgNum then ⟨[], -1, [], -1⟩
    else
      let (temp, tempPrimary) := m.getTempOsds pool pg
      let raw := m.applyUpmap pool pg (m.pgToRawOsds pool pg)
      let up := m.rawToUpOsds pool raw
      let (up, upPrimary) :=
        m.applyPrimaryAffinity (m.rawPgToPps pool pg) pool up (pickPrimary up)
      if temp.isEmpty then
        ⟨up, upPrimary, up, if tempPrimary = -1 then upPrimary else tempPrimary⟩
      else ⟨up, upPrimary, temp, tempPrimary⟩
  | none => ⟨[], -1, [], -1⟩

end OSDMap

end Ceph.Osd
