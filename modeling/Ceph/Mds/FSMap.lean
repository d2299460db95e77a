import Ceph.Lib.OrdMap

set_option autoImplicit false

/-! # The map of the file systems

`FSMap` of `mds/FSMap.cc`, with the `MDSMap` of each file system: which metadata server daemons
there are, which of them hold a rank, and what became of the ranks that nobody holds. Several
containers say the same thing in their own way (the role of a daemon, the daemons of a file
system, who is up for a rank), and every transition updates them by hand.

A daemon is known by its global id, a rank is a number of a file system, and a file system has an
id of its own. A standby has neither rank nor file system. A standby-replay daemon follows the
rank of another daemon: it stands in the same `mds_info`, with the rank of the one it follows.

A transition gives the new map, or nothing if it ends the monitor: an assertion that fails, or an
`at` of a key that is not there.
-/

namespace Ceph.Mds

/-! ## Daemons -/

def mdsGidNone : ℕ := 0

def mdsRankNone : ℤ := -1

def fsClusterIdNone : ℤ := -1

inductive DaemonState where
  | null
  | boot
  | standby
  | standbyReplay
  | stopped
  | creating
  | starting
  | replay
  | resolve
  | reconnect
  | rejoin
  | clientReplay
  | active
  | stopping
  | dne
  | damaged
  deriving DecidableEq

/-- `mds_info_t`. Of the time since a daemon is laggy only whether there is one counts here. -/
structure MdsInfo where
  globalId : ℕ := mdsGidNone
  name : String := ""
  rank : ℤ := mdsRankNone
  inc : ℕ := 0
  state : DaemonState := .standby
  stateSeq : ℕ := 0
  laggy : Bool := false
  frozen : Bool := false
  deriving DecidableEq

/-- The masks of a `CompatSet`. -/
structure CompatSet where
  compat : ℕ := 0
  roCompat : ℕ := 0
  incompat : ℕ := 0
  deriving DecidableEq

/-! ## One file system -/

/-- `MDSMap`: the ranks that exist (`in`), who is up for which of them, and the daemons. -/
structure MDSMap where
  epoch : ℕ := 0
  inRanks : OrdSet ℤ := .empty
  up : OrdMap ℤ ℕ := .empty
  failed : OrdSet ℤ := .empty
  damaged : OrdSet ℤ := .empty
  stopped : OrdSet ℤ := .empty
  mdsInfo : OrdMap ℕ MdsInfo := .empty
  /-- The epoch of the OSD map that a daemon entering replay waits for. -/
  lastFailureOsdEpoch : ℕ := 0
  compat : CompatSet := {}
  maxMds : ℕ := 1
  notJoinable : Bool := false
  allowsStandbyReplay : Bool := false
  deriving DecidableEq

namespace MDSMap

/-- `is_in`, which does not look at `in`. -/
def isIn (m : MDSMap) (rank : ℤ) : Bool := rank ∈ m.up || rank ∈ m.failed

def follows (rank : ℤ) (info : MdsInfo) : Bool := info.rank = rank && info.state = .standbyReplay

/-- `get_standby_replay`, with the daemon. -/
def getStandbyReplay (m : MDSMap) (rank : ℤ) : Option (ℕ × MdsInfo) :=
  m.mdsInfo.entries.find? fun e => follows rank e.2

/-- The daemons that follow a rank. -/
def followers (m : MDSMap) (rank : ℤ) : List ℕ :=
  (m.mdsInfo.entries.filter fun e => follows rank e.2).map Prod.fst

/-- What `promote` does to the map of the file system: the daemon takes the rank. -/
def takeRank (m : MDSMap) (epoch gid : ℕ) (info : MdsInfo) (rank : ℤ) : MDSMap :=
  let expanding := rank ∈ m.stopped
  let replacing := rank ∉ m.stopped ∧ m.isIn rank
  let state := if expanding then .starting else if replacing then .replay else .creating
  { m with
    stopped := m.stopped.erase rank
    failed := if replacing then m.failed.erase rank else m.failed
    mdsInfo := m.mdsInfo.insert gid { info with state := state, rank := rank, inc := epoch }
    inRanks := m.inRanks.insert rank ()
    up := m.up.insert rank gid
    epoch := epoch }

/-- The part of `erase` about the rank: one that was never past creating is forgotten, any other one
has failed. A standby-replay daemon has none to give up. -/
def releaseRank (m : MDSMap) (info : MdsInfo) : Option MDSMap :=
  if info.state = .standbyReplay then some m
  else if m.up.get info.rank = some info.globalId then
    some { m with
      inRanks := if info.state = .creating then m.inRanks.erase info.rank else m.inRanks
      failed := if info.state = .creating then m.failed else m.failed.insert info.rank ()
      up := m.up.erase info.rank }
  else none

end MDSMap

structure Filesystem where
  fscid : ℤ
  mdsMap : MDSMap
  deriving DecidableEq

/-! ## All of them -/

structure FSMap where
  epoch : ℕ := 0
  legacyClientFscid : ℤ := fsClusterIdNone
  compat : CompatSet := {}
  filesystems : OrdMap ℤ Filesystem := .empty
  mdsRoles : OrdMap ℕ ℤ := .empty
  standbyDaemons : OrdMap ℕ MdsInfo := .empty
  standbyEpochs : OrdMap ℕ ℕ := .empty
  deriving DecidableEq

namespace FSMap

/-- The map with another `MDSMap` in the file system of a key. -/
def setMdsMap (m : FSMap) (key : ℤ) (fs : Filesystem) (mdsMap : MDSMap) : FSMap :=
  { m with filesystems := m.filesystems.insert key { fs with mdsMap := mdsMap } }

def getInfoGid (m : FSMap) (gid : ℕ) : Option MdsInfo := do
  let fscid ← m.mdsRoles.get gid
  if fscid = fsClusterIdNone then m.standbyDaemons.get gid
  else
    let fs ← m.filesystems.get fscid
    fs.mdsMap.mdsInfo.get gid

/-- `modify_daemon`: a function may not take a standby out of its state. -/
def modifyDaemon (m : FSMap) (who : ℕ) (fn : MdsInfo → MdsInfo) : Option FSMap := do
  let fscid ← m.mdsRoles.get who
  if fscid = fsClusterIdNone then
    let info ← m.standbyDaemons.get who
    if (fn info).state = .standby then
      some { m with
        standbyDaemons := m.standbyDaemons.insert who (fn info)
        standbyEpochs := m.standbyEpochs.insert who m.epoch }
    else none
  else
    let fs ← m.filesystems.get fscid
    let info ← fs.mdsMap.mdsInfo.get who
    some (m.setMdsMap fscid fs { fs.mdsMap with
      mdsInfo := fs.mdsMap.mdsInfo.insert who (fn info)
      epoch := m.epoch })

/-- `get_available_standby`. -/
def getAvailableStandby (m : FSMap) : Option ℕ :=
  go m.standbyDaemons.entries
where
  go : List (ℕ × MdsInfo) → Option ℕ
    | [] => some mdsGidNone
    | (gid, info) :: more =>
      if info.rank = mdsRankNone ∧ info.state = .standby then
        if info.laggy || info.frozen then go more else some gid
      else none

/-- `find_replacement_for`: who follows the rank, unless it is frozen, or a standby. -/
def findReplacementFor (m : FSMap) (fscid rank : ℤ) : Option ℕ := do
  let fs ← m.filesystems.get fscid
  match fs.mdsMap.getStandbyReplay rank with
  | some (gid, info) => some (if info.frozen then mdsGidNone else gid)
  | none => m.getAvailableStandby

def updateCompat (m : FSMap) (c : CompatSet) : FSMap :=
  { m with
    compat := c
    filesystems := m.filesystems.mapVal fun _ fs =>
      { fs with mdsMap := { fs.mdsMap with compat := c, epoch := m.epoch } } }

/-! ### Transitions -/

def insert (m : FSMap) (newInfo : MdsInfo) : Option FSMap :=
  if newInfo.state = .standby ∧ newInfo.rank = mdsRankNone then
    some { m with
      mdsRoles := m.mdsRoles.insert newInfo.globalId fsClusterIdNone
      standbyDaemons := m.standbyDaemons.insert newInfo.globalId newInfo
      standbyEpochs := m.standbyEpochs.insert newInfo.globalId m.epoch }
  else none

/-- The daemon that `promote` starts from: a standby, or one that follows the rank already. -/
def candidate (m : FSMap) (role : ℤ) (fs : Filesystem) (gid : ℕ) (rank : ℤ) : Option MdsInfo :=
  if role = fsClusterIdNone then
    (m.standbyDaemons.get gid).filter fun info => info.state = .standby
  else (fs.mdsMap.mdsInfo.get gid).filter (MDSMap.follows rank)

def promote (m : FSMap) (standbyGid : ℕ) (key : ℤ) (assignedRank : ℤ) : Option FSMap := do
  let role ← m.mdsRoles.get standbyGid
  let fs ← m.filesystems.get key
  let info ← m.candidate role fs standbyGid assignedRank
  let isStandby := role = fsClusterIdNone
  some { m.setMdsMap key fs (fs.mdsMap.takeRank m.epoch standbyGid info assignedRank) with
    mdsRoles := m.mdsRoles.insert standbyGid fs.fscid
    standbyDaemons :=
      if isStandby then m.standbyDaemons.erase standbyGid else m.standbyDaemons
    standbyEpochs := if isStandby then m.standbyEpochs.erase standbyGid else m.standbyEpochs }

def assignStandbyReplay (m : FSMap) (standbyGid : ℕ) (leaderNs : ℤ) (leaderRank : ℤ) :
    Option FSMap := do
  let role ← m.mdsRoles.get standbyGid
  let info ← m.standbyDaemons.get standbyGid
  let fs ← m.filesystems.get leaderNs
  if role = fsClusterIdNone then
    some { m.setMdsMap leaderNs fs { fs.mdsMap with
        mdsInfo := fs.mdsMap.mdsInfo.insert standbyGid
          { info with rank := leaderRank, state := .standbyReplay }
        epoch := m.epoch } with
      mdsRoles := m.mdsRoles.insert standbyGid leaderNs
      standbyDaemons := m.standbyDaemons.erase standbyGid
      standbyEpochs := m.standbyEpochs.erase standbyGid }
  else none

def erase (m : FSMap) (who : ℕ) (blacklistEpoch : ℕ) : Option FSMap := do
  let role ← m.mdsRoles.get who
  if role = fsClusterIdNone then
    some { m with
      standbyDaemons := m.standbyDaemons.erase who
      standbyEpochs := m.standbyEpochs.erase who
      mdsRoles := m.mdsRoles.erase who }
  else
    let fs ← m.filesystems.get role
    let info ← fs.mdsMap.mdsInfo.get who
    let released ← fs.mdsMap.releaseRank info
    some { m.setMdsMap role fs { released with
        mdsInfo := released.mdsInfo.erase who
        lastFailureOsdEpoch := blacklistEpoch
        epoch := m.epoch } with
      mdsRoles := m.mdsRoles.erase who }

def damaged (m : FSMap) (who : ℕ) (blacklistEpoch : ℕ) : Option FSMap := do
  let role ← m.mdsRoles.get who
  if role = fsClusterIdNone then none
  else
    let fs ← m.filesystems.get role
    -- `mds_info[who]` makes an entry if there is none
    let info := (fs.mdsMap.mdsInfo.get who).getD {}
    let erased ← (m.setMdsMap role fs { fs.mdsMap with
      mdsInfo := fs.mdsMap.mdsInfo.insertNew who {} }).erase who blacklistEpoch
    let fs' ← erased.filesystems.get role
    if fs'.mdsMap.epoch = m.epoch then
      some (erased.setMdsMap role fs' { fs'.mdsMap with
        failed := fs'.mdsMap.failed.erase info.rank
        damaged := fs'.mdsMap.damaged.insert info.rank () })
    else none

/-- `undamaged`; a rank that is not damaged is left alone. -/
def undamaged (m : FSMap) (fscid : ℤ) (rank : ℤ) : Option FSMap := do
  let fs ← m.filesystems.get fscid
  if rank ∈ fs.mdsMap.damaged then
    some (m.setMdsMap fscid fs { fs.mdsMap with
      damaged := fs.mdsMap.damaged.erase rank
      failed := fs.mdsMap.failed.insert rank ()
      epoch := m.epoch })
  else some m

/-- `stop`. The loop drops the followers of the rank. It erases the entry that its iterator stands
on, which C++ leaves undefined; here it goes on with the next one. -/
def stop (m : FSMap) (who : ℕ) : Option FSMap := do
  let role ← m.mdsRoles.get who
  if role = fsClusterIdNone then none
  else
    let fs ← m.filesystems.get role
    let info ← fs.mdsMap.mdsInfo.get who
    let stopped := m.setMdsMap role fs { fs.mdsMap with
      up := fs.mdsMap.up.erase info.rank
      inRanks := fs.mdsMap.inRanks.erase info.rank
      stopped := fs.mdsMap.stopped.insert info.rank () }
    -- also drop any standby replays that were following this rank
    let dropped ← (fs.mdsMap.followers info.rank).foldlM (fun m gid => m.erase gid 0) stopped
    let fs' ← dropped.filesystems.get role
    some { dropped.setMdsMap role fs' { fs'.mdsMap with
        mdsInfo := fs'.mdsMap.mdsInfo.erase who
        epoch := m.epoch } with
      mdsRoles := dropped.mdsRoles.erase who }

end FSMap

end Ceph.Mds
