import Ceph.Osd.PGLog.IndexedLog

set_option autoImplicit false

/-! # Merging logs

When a replica learns the authoritative log it merges it into its own (`PGLog::merge_log`):
older entries are put before its tail, entries the authoritative log does not have are cut off
its head, and newer entries are appended. The missing set follows, and the object store is told
what to undo through the callbacks of a `LogEntryHandler`. The primary does the same to the
missing set it keeps for a replica, without a store (`PGLog::proc_replica_log`).

The functions are written as the source has them, with its dirty markers; a failed assertion
gives `none`.
-/

namespace Ceph.Osd

/-! ## State -/

/-- A call of the `LogEntryHandler`. -/
inductive HandlerCall where
  | rollback (e : LogEntry)
  | rollforward (e : LogEntry)
  | trim (e : LogEntry)
  | remove (hoid : Soid)
  | tryStash (hoid : Soid) (v : UInt64)
  deriving DecidableEq

/-- The part of `pg_info_t` that the log reads and writes. -/
structure PgInfo where
  lastUpdate : Eversion
  lastComplete : Eversion
  logTail : Eversion
  lastUserVersion : UInt64
  lastBackfill : Soid
  deriving DecidableEq

/-- `PGLog`: the log, the missing set and the markers of what has yet to be written. -/
structure PGLog where
  missing : MissingSet
  log : IndexedLog
  dirtyTo : Eversion
  dirtyFrom : Eversion
  writeoutFrom : Eversion
  trimmed : OrdSet Eversion
  dirtyToDups : Eversion
  dirtyFromDups : Eversion
  writeFromDups : Eversion
  trimmedDups : OrdSet Bytes
  touchedLog : Bool
  dirtyLog : Bool
  clearDivergentPriors : Bool
  rebuiltMissingWithDeletes : Bool
  deriving DecidableEq

variable (p : PGLog)

namespace PGLog

def markDirtyTo (p : PGLog) (v : Eversion) : PGLog :=
  if p.dirtyTo < v then { p with dirtyTo := v } else p

def markDirtyFrom (p : PGLog) (v : Eversion) : PGLog :=
  if v < p.dirtyFrom then { p with dirtyFrom := v } else p

def markWriteoutFrom (p : PGLog) (v : Eversion) : PGLog :=
  if v < p.writeoutFrom then { p with writeoutFrom := v } else p

def markDirtyToDups (p : PGLog) (v : Eversion) : PGLog :=
  if p.dirtyToDups < v then { p with dirtyToDups := v } else p

def markDirtyFromDups (p : PGLog) (v : Eversion) : PGLog :=
  if v < p.dirtyFromDups then { p with dirtyFromDups := v } else p

/-- The log is dirty from its first divergent entry on. -/
def markDivergent (p : PGLog) : List LogEntry → PGLog
  | [] => p
  | e :: _ => p.markDirtyFrom e.version

@[simp] theorem markDirtyTo_log (v : Eversion) : (p.markDirtyTo v).log = p.log := by
  unfold markDirtyTo
  split_ifs <;> rfl

@[simp] theorem markDirtyTo_missing (v : Eversion) : (p.markDirtyTo v).missing = p.missing := by
  unfold markDirtyTo
  split_ifs <;> rfl

@[simp] theorem markDirtyFrom_log (v : Eversion) : (p.markDirtyFrom v).log = p.log := by
  unfold markDirtyFrom
  split_ifs <;> rfl

@[simp] theorem markDirtyFrom_missing (v : Eversion) : (p.markDirtyFrom v).missing = p.missing := by
  unfold markDirtyFrom
  split_ifs <;> rfl

@[simp] theorem markDivergent_log (divergent : List LogEntry) :
    (p.markDivergent divergent).log = p.log := by
  cases divergent <;> simp [markDivergent]

@[simp] theorem markDivergent_missing (divergent : List LogEntry) :
    (p.markDivergent divergent).missing = p.missing := by
  cases divergent <;> simp [markDivergent]

end PGLog

/-! ## Appending entries -/

/-- What an appended entry does to the missing set, and the callback for it. -/
def appendToMissing (lastBackfill : Soid) (maintainRollback : Bool) (m : MissingSet)
    (e : LogEntry) : MissingSet × List HandlerCall :=
  if e.soid ≤ lastBackfill ∧ e.isError = false then
    if m.mayIncludeDeletes then (m.addNextEvent e, [])
    else
      (if e.isDelete then m.rm e.soid e.version else m.addNextEvent e,
        if maintainRollback && decide (e.op = .lostDelete) && e.canRollback then
          [.tryStash e.soid e.version.version]
        else if e.isDelete then [.remove e.soid] else [])
  else (m, [])

/-- The loop of `append_log_entries_update_missing`. -/
def appendLoop (lastBackfill : Soid) (maintainRollback : Bool) :
    List LogEntry → IndexedLog → MissingSet → Option (IndexedLog × MissingSet × List HandlerCall)
  | [], log, m => some (log, m, [])
  | e :: entries, log, m =>
    (log.add e).bind fun log =>
      let r := appendToMissing lastBackfill maintainRollback m e
      (appendLoop lastBackfill maintainRollback entries log r.1).map
        fun (log, m, calls) => (log, m, r.2 ++ calls)

def appendLogEntriesUpdateMissing (lastBackfill : Soid) (entries : List LogEntry)
    (maintainRollback : Bool) (log : IndexedLog) (m : MissingSet) :
    Option (IndexedLog × MissingSet × List HandlerCall) :=
  if entries.head?.all (fun e => log.head < e.version) then
    appendLoop lastBackfill maintainRollback entries log m
  else none

/-! ## Divergent entries -/

/-- The loop that strips the errors off an object's divergent entries and checks the others:
`atBegin` holds at the first entry, `seenNonError` after the first entry kept, whose successors
must name the version before as their prior. -/
def keepEntries (hoid : Soid) : Bool → Bool → Eversion → List LogEntry → Option (List LogEntry)
  | _, _, _, [] => some []
  | atBegin, seenNonError, last, e :: entries =>
    let firstNonError := !seenNonError && !e.isError
    let checked := atBegin || e.priorVersion = .zero || firstNonError ||
      decide (last < e.version) && (decide (e.priorVersion = last) || e.isError)
    if e.soid = hoid ∧ checked = true then
      if e.isError then keepEntries hoid false seenNonError last entries
      else (keepEntries hoid false true e.version entries).map (e :: ·)
    else none

/-- The callbacks that drop an object from the store, unless it is not there, and its rollback
information. -/
def removeAndTrim (hoid : Soid) (notInStore : Bool) (entries : List LogEntry) :
    List HandlerCall :=
  (if notInStore then [] else [.remove hoid]) ++ entries.map .trim

/-- Case 1: the log has a more recent entry, and appending it has updated the missing set. -/
def mergeSuperseded (newest last : LogEntry) (hoid : Soid) (notInStore : Bool)
    (entries : List LogEntry) (m : MissingSet) : Option (MissingSet × List HandlerCall) :=
  let updated :=
    if newest.isUpdate || (m.mayIncludeDeletes && newest.isDelete) then
      (m.get hoid).any (fun item => item.need = newest.version)
    else (m.get hoid).isNone
  if last.version < newest.version ∧ updated = true then
    some (m.reviseHave hoid .zero, removeAndTrim hoid notInStore entries)
  else none

/-- Cases 2 to 5: the log has no more recent entry. -/
def mergeUnsuperseded (first : LogEntry) (hoid : Soid) (notInStore : Bool)
    (entries : List LogEntry) (canRollbackTo : Eversion) (m : MissingSet) :
    MissingSet × List HandlerCall :=
  if first.Creates then
    -- case 2: the first entry creates the object
    (m.rmItem hoid, removeAndTrim hoid notInStore entries)
  else
    match m.get hoid with
    | some item =>
      -- case 3: the object is missing already
      (if item.have_ = first.priorVersion then m.rmItem hoid
        else m.reviseNeed hoid first.priorVersion false, entries.map .trim)
    | none =>
      if entries.all (fun e => e.canRollback && decide (canRollbackTo < e.version)) then
        -- case 4: every entry can be rolled back
        (m, entries.reverse.map .rollback)
      else
        -- case 5: some entry cannot
        (m.add hoid first.priorVersion .zero false, removeAndTrim hoid notInStore entries)

def mergeObjectDivergentEntries (log : IndexedLog) (hoid : Soid) (origEntries : List LogEntry)
    (lastBackfill : Soid) (canRollbackTo : Eversion) (m : MissingSet) :
    Option (MissingSet × List HandlerCall) :=
  if lastBackfill < hoid then some (m, [])
  else if origEntries = [] then none
  else (keepEntries hoid true false .zero origEntries).bind fun entries =>
    match entries.head?, entries.getLast? with
    | some first, some last =>
      let notInStore := (m.get hoid).isNone && last.isDelete
      match log.objects.get hoid with
      | some newest =>
        if first.version ≤ newest.version then
          mergeSuperseded newest last hoid notInStore entries m
        else some (mergeUnsuperseded first hoid notInStore entries canRollbackTo m)
      | none => some (mergeUnsuperseded first hoid notInStore entries canRollbackTo m)
    | _, _ => some (m, [])

def splitByObject (entries : List LogEntry) : OrdMap Soid (List LogEntry) :=
  entries.foldl (fun split e => split.insert e.soid ((split.get e.soid).getD [] ++ [e])) .empty

/-- The loop of `_merge_divergent_entries` over the objects. -/
def mergeObjects (log : IndexedLog) (lastBackfill : Soid) (canRollbackTo : Eversion) :
    List (Soid × List LogEntry) → MissingSet → Option (MissingSet × List HandlerCall)
  | [], m => some (m, [])
  | (hoid, entries) :: split, m =>
    (mergeObjectDivergentEntries log hoid entries lastBackfill canRollbackTo m).bind fun r =>
      (mergeObjects log lastBackfill canRollbackTo split r.1).map
        fun (m, calls) => (m, r.2 ++ calls)

def mergeDivergentEntries (log : IndexedLog) (entries : List LogEntry) (lastBackfill : Soid)
    (canRollbackTo : Eversion) (m : MissingSet) : Option (MissingSet × List HandlerCall) :=
  mergeObjects log lastBackfill canRollbackTo (splitByObject entries).entries m

/-! ## Merging into the local log -/

def rewindDivergentLog (p : PGLog) (newhead : Eversion) (info : PgInfo) :
    Option (PGLog × PgInfo × List HandlerCall) := do
  let originalCrt := p.log.canRollbackTo
  let info := { info with
    lastComplete := if newhead < info.lastComplete then newhead else info.lastComplete }
  let (log, divergent) ← p.log.rewindFromHead newhead
  let p := ({ p with log := log } : PGLog).markDivergent divergent
  let info := { info with lastUpdate := newhead }
  let (missing, calls) ←
    mergeDivergentEntries p.log divergent info.lastBackfill originalCrt p.missing
  return ({ p with missing := missing }, info, calls)

/-- The part of `merge_log` that extends the log at its tail, with what is left of the other
log. -/
def extendTail (p : PGLog) (olog : PgLog) (info : PgInfo) : PGLog × PgLog × PgInfo :=
  if olog.tail < p.log.tail then
    let older := olog.log.takeWhile (fun e => !decide (p.log.tail < e.version))
    let log := older.foldl IndexedLog.indexOne p.log
    let p := p.markDirtyTo ((older.getLast?.map (·.version)).getD .zero)
    ({ p with log := { log with log := older ++ log.log, tail := olog.tail } },
      { olog with log := olog.log.dropWhile (fun e => !decide (p.log.tail < e.version)) },
      { info with logTail := olog.tail })
  else (p, olog, info)

/-- The cut point of `merge_log`, usually the last shared version. -/
def cutPoint (head : Eversion) (olog : PgLog) (origTail : Eversion) : Eversion :=
  match (olog.log.rdropWhile (fun e => decide (head < e.version))).getLast? with
  | some e => max (max olog.tail origTail) e.version
  | none => max olog.tail origTail

/-- The part of `merge_log` that extends the log at its head. -/
def extendHead (p : PGLog) (olog : PgLog) (origTail : Eversion) (oinfo info : PgInfo) :
    Option (PGLog × PgInfo × List HandlerCall) := do
  let newEntries := olog.log.rtakeWhile (fun e => decide (p.log.head < e.version))
  let lowerBound := cutPoint p.log.head olog origTail
  let p := p.markDirtyFrom lowerBound
  let originalCrt := p.log.canRollbackTo
  let (log, divergent) ← p.log.rewindFromHead lowerBound
  let (log, rolled, _) := log.advanceCanRollbackTo log.head
  let (log, missing, calls) ←
    appendLogEntriesUpdateMissing info.lastBackfill newEntries false log p.missing
  let (missing, calls') ←
    mergeDivergentEntries log divergent info.lastBackfill originalCrt missing
  let log := ({ log with head := olog.head } : IndexedLog).skipCanRollbackToToHead
  return ({ p with log := log, missing := missing },
    { info with lastUpdate := olog.head, lastUserVersion := oinfo.lastUserVersion },
    rolled.map .rollforward ++ calls ++ calls')

def PGLog.withDups (p : PGLog) (dups : List LogDup) : PGLog :=
  { p with log := { p.log with dups := dups } }

/-- The newer end of the dups is extended past the last one. -/
def extendDupsNewer (p : PGLog) (odups : List LogDup) (back oback : LogDup) : PGLog :=
  let newer := odups.rtakeWhile (fun d => decide (back.version < d.version))
  if back.version < oback.version then
    (p.withDups (p.log.dups ++ newer)).markDirtyFromDups
      ((newer.head?.map (·.version)).getD .max)
  else p

/-- The older end of the dups is extended before the first one. -/
def extendDupsOlder (p : PGLog) (odups : List LogDup) (front ofront : LogDup) : PGLog :=
  let older := odups.takeWhile (fun d => decide (d.version < front.version))
  if ofront.version < front.version then
    (p.withDups (older ++ p.log.dups)).markDirtyToDups
      ((older.getLast?.map (·.version)).getD .zero)
  else p

/-- The part of `merge_log_dups` that adds the other log's dups. -/
def extendDups (p : PGLog) (odups : List LogDup) : PGLog :=
  match odups.head?, odups.getLast? with
  | some ofront, some oback =>
    match p.log.dups.head?, p.log.dups.getLast? with
    | some front, some back =>
      extendDupsOlder (extendDupsNewer p odups back oback) odups front ofront
    | _, _ => { p.withDups odups with dirtyFromDups := .zero, dirtyToDups := .max }
  | _, _ => p

/-- The part of `merge_log_dups` that removes the dups that overlap with the log. -/
def dropOverlappingDups (p : PGLog) : PGLog :=
  let overlaps := fun d : LogDup => decide (p.log.tail < d.version)
  (p.log.dups.rtakeWhile overlaps).reverse.foldl (fun p d => p.markDirtyFromDups d.version)
    (p.withDups (p.log.dups.rdropWhile overlaps))

def mergeLogDups (p : PGLog) (olog : PgLog) : PGLog :=
  dropOverlappingDups (extendDups p olog.dups)

/-- The part of `merge_log` at the head: divergent entries are thrown out, newer ones added. -/
def mergeHead (p : PGLog) (olog : PgLog) (origTail : Eversion) (oinfo info : PgInfo) :
    Option (PGLog × PgInfo × List HandlerCall) := do
  let (p, info, calls) ←
    if olog.head < p.log.head then rewindDivergentLog p olog.head info else some (p, info, [])
  let (p, info, calls') ←
    if p.log.head < olog.head then extendHead p olog origTail oinfo info
    else some (p, info, [])
  return (p, info, calls ++ calls')

def mergeLog (p : PGLog) (oinfo : PgInfo) (olog : PgLog) (info : PgInfo) :
    Option (PGLog × PgInfo × List HandlerCall) :=
  if (p.log.head = .zero ∧ olog.tail ≠ .zero) ∨ p.log.head < olog.tail ∨ olog.head < p.log.tail then
    none
  else
    let origTail := p.log.tail
    let (p, olog, info) := extendTail p olog info
    (mergeHead p olog origTail oinfo info).map
      fun (p, info, calls) => (mergeLogDups p olog, info, calls)

/-! ## The primary's view of a replica -/

/-- The version up to which a replica's log agrees with the primary's. -/
def lastShared (log : PgLog) (olog : PgLog) : Eversion :=
  let limit := max olog.tail log.tail
  match (log.log.rdropWhile (fun e => decide (olog.head < e.version))).getLast? with
  | some e => if e.version < limit then limit else e.version
  | none => limit

/-- The last complete version of a replica with missing objects. -/
def lastCompleteBefore (olog : PgLog) (firstMissing : Eversion) : Eversion :=
  ((olog.log.takeWhile (fun e => decide (e.version < firstMissing))).getLast?.map
    (·.version)).getD .zero

/-- `proc_replica_log`, run with the primary's log. -/
def procReplicaLog (log : PgLog) (oinfo : PgInfo) (olog : PgLog) (omissing : MissingSet) :
    Option (PgInfo × MissingSet) := do
  if olog.head < log.tail then return (oinfo, omissing)
  else if olog.head = log.head then return (oinfo, omissing)
  else do
    let lu := lastShared log olog
    let (folog, divergent) ← (IndexedLog.ofPgLog olog).rewindFromHead lu
    let (omissing, _) ←
      mergeDivergentEntries folog divergent oinfo.lastBackfill olog.canRollbackTo omissing
    let oinfo := { oinfo with
      lastUpdate := if lu < oinfo.lastUpdate then lu else oinfo.lastUpdate }
    if omissing.missing.entries = [] then
      return ({ oinfo with lastComplete := oinfo.lastUpdate }, omissing)
    else
      let firstMissing ← omissing.getOldestNeed
      return ({ oinfo with lastComplete := lastCompleteBefore olog firstMissing }, omissing)

end Ceph.Osd
