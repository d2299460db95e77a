import Ceph.Lib.Transition
import Ceph.Mds.FSMap

set_option autoImplicit false

/-! # The monitor of the metadata servers

`MDSMonitor` of `mon/MDSMonitor.cc`: what the leading monitor does to the pending `FSMap` when a
daemon is failed, is laggy or reports damage, and when a file system is configured.

A daemon that holds a rank is blacklisted before it is dropped: `OSDMonitor::blacklist` adds its
addresses to the OSD map being prepared and returns the epoch of that map. The epochs returned for
the daemons of each file system are kept in `fences`, for the proofs only.

A call gives the new state, or nothing if the monitor does not survive it.
-/

namespace Ceph.Mon

open Ceph.Mds

structure MDSMonitor where
  pending : FSMap
  /-- The epoch of the OSD map that is being prepared. -/
  osdEpoch : ℕ
  /-- The epochs that `blacklist` returned for daemons with a rank, with their file systems. -/
  fences : List (ℤ × ℕ) := []
  deriving DecidableEq

/-- The test before a daemon is blacklisted. -/
def holdsRank (info : MdsInfo) : Bool := 0 ≤ info.rank && info.state ≠ .standbyReplay

namespace MDSMonitor

/-- The epochs returned so far, after a daemon was blacklisted if it holds a rank. -/
def fence (mon : MDSMonitor) (role : ℤ) (info : MdsInfo) : List (ℤ × ℕ) :=
  if holdsRank info then (role, mon.osdEpoch) :: mon.fences else mon.fences

def failMdsGid (mon : MDSMonitor) (gid : ℕ) : Option MDSMonitor := do
  let info ← mon.pending.getInfoGid gid
  let role ← mon.pending.mdsRoles.get gid
  let pending ← mon.pending.erase gid (if holdsRank info then mon.osdEpoch else 0)
  some { mon with pending := pending, fences := mon.fence role info }

/-- A daemon that reports damage is blacklisted, and its rank is not to be run again. -/
def markDamaged (mon : MDSMonitor) (gid : ℕ) : Option MDSMonitor := do
  let info ← mon.pending.getInfoGid gid
  let role ← mon.pending.mdsRoles.get gid
  let pending ← mon.pending.damaged gid mon.osdEpoch
  some { mon with pending := pending, fences := mon.fence role info }

def withPending (mon : MDSMonitor) (m : FSMap) : MDSMonitor := { mon with pending := m }

/-- The daemon that could take over from a laggy one; none if the laggy one holds no rank or is to be
left alone. `mayReplace` says that other daemons got beacons through recently. -/
def replacementFor (mon : MDSMonitor) (fscid : ℤ) (info : MdsInfo) (mayReplace : Bool) :
    Option ℕ := do
  if 0 ≤ info.rank ∧ info.state ≠ .standby ∧ info.state ≠ .standbyReplay ∧ mayReplace ∧
      !info.frozen then
    let fs ← mon.pending.filesystems.get fscid
    if fs.mdsMap.notJoinable then some mdsGidNone
    else mon.pending.findReplacementFor fscid info.rank
  else some mdsGidNone

/-- `maybe_replace_gid`: a laggy daemon is failed and its rank passed on, or dropped if it is a
standby, or else marked. -/
def maybeReplaceGid (mon : MDSMonitor) (gid : ℕ) (info : MdsInfo) (mayReplace : Bool) :
    Option MDSMonitor := do
  let fscid ← mon.pending.mdsRoles.get gid
  let sgid ← mon.replacementFor fscid info mayReplace
  if sgid ≠ mdsGidNone then
    let _ ← mon.pending.getInfoGid sgid
    let failed ← mon.failMdsGid gid
    (failed.pending.promote sgid fscid info.rank).map failed.withPending
  else if (info.state = .standbyReplay ∨ info.state = .standby) ∧ mayReplace ∧ !info.frozen then
    mon.failMdsGid gid
  else if !info.laggy then
    (mon.pending.modifyDaemon info.globalId fun i => { i with laggy := true }).map mon.withPending
  else some mon

/-- `fs set`: the settings of a file system that count here. -/
def setFs (m : FSMap) (fscid : ℤ) (maxMds : ℕ) (notJoinable allowsStandbyReplay : Bool) :
    Option FSMap := do
  let fs ← m.filesystems.get fscid
  some (m.setMdsMap fscid fs { fs.mdsMap with
    maxMds := maxMds
    notJoinable := notJoinable
    allowsStandbyReplay := allowsStandbyReplay
    epoch := m.epoch })

end MDSMonitor

end Ceph.Mon
