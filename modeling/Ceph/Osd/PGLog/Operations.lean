import Ceph.Common.HobjectStr
import Ceph.Osd.PGLog.SharedHistory
import Ceph.Osd.PgSplit

set_option autoImplicit false

/-! # The other operations of the log

The operations of `PGLog` that are not in `Merge`: adding, rolling forward, splitting, trimming and
recovering. They move the dirty markers for the next write, and `trim` leaves dups for the entries
it removes; what its first loop does is `trimLoop_spec`.
-/

namespace Ceph.Osd

open List LexCode

/-! ## Key names -/

def decimalDigit (n : Nat) : UInt8 := UInt8.ofNat (0x30 + n)

/-- `eversion_t::get_key_name`: the format `%010u.%020llu`. -/
def Eversion.getKeyName (v : Eversion) : Bytes :=
  fixedWidth 10 decimalDigit 10 v.epoch.toNat ++ 0x2e ::
    fixedWidth 10 decimalDigit 20 v.version.toNat

/-- `dup_`. -/
def dupPrefix : Bytes := [0x64, 0x75, 0x70, 0x5f]

/-- `pg_log_dup_t::get_key_name`. -/
def dupKeyName (v : Eversion) : Bytes := dupPrefix ++ v.getKeyName

/-! ## The operations -/

namespace PGLog

/-- `add`; nothing where an assertion fails. -/
def add (p : PGLog) (e : LogEntry) (applied : Bool) : Option PGLog :=
  let p := p.markWriteoutFrom e.version
  if applied = false ∧ p.log.canRollbackTo ≠ p.log.head then none
  else (p.log.add e).map fun log =>
    { p with log := if applied then log else log.skipCanRollbackToToHead }

def rollForwardTo (p : PGLog) (v : Eversion) : PGLog × List HandlerCall :=
  let (log, rolled, dirty) := p.log.advanceCanRollbackTo v
  ({ p with log := log, dirtyLog := p.dirtyLog || dirty }, rolled.map .rollforward)

/-- `split_into`: the log that keeps its entries, and the child's. -/
def splitInto (p : PGLog) (child : Pg) (splitBits : Nat) (opgLog : PGLog) : PGLog × PGLog :=
  let (log, childLog) := p.log.toPgLog.splitOutChild child splitBits
  let (missing, childMissing) := p.missing.splitInto child splitBits opgLog.missing
  let o := { opgLog with log := IndexedLog.ofPgLog childLog, missing := childMissing }
  let o := (o.markDirtyTo .max).markDirtyToDups .max
  let p := { p with log := ({ p.log with toPgLog := log } : IndexedLog).index, missing := missing }
  let p := (p.markDirtyTo .max).markDirtyToDups .max
  (p, if p.missing.mayIncludeDeletes then { o with rebuiltMissingWithDeletes := true } else o)

end PGLog

/-! ## Trimming -/

/-- The return code kept for the extra request with an index: its own, unless the entry failed. -/
def LogEntry.extraReturnCode (e : LogEntry) (idx : Nat) : Int32 :=
  if 0 ≤ e.returnCode then (e.extraReqidReturnCodes.get (UInt32.ofNat idx)).getD e.returnCode
  else e.returnCode

/-- The dups that stand for a trimmed entry: one for the request, one for each extra request, all
with the version of the entry. -/
def LogEntry.dups (e : LogEntry) : List LogDup :=
  ⟨e.reqid, e.version, e.userVersion, e.returnCode⟩ ::
    e.extraReqids.mapIdx fun idx extra => ⟨extra.1, e.version, extra.2, e.extraReturnCode idx⟩

/-- The version number from which on dups are kept. -/
def earliestDupVersion (last : Eversion) (dupsTracked : UInt64) : UInt64 :=
  if last.version < dupsTracked then 0 else last.version - dupsTracked + 1

namespace PGLog

/-- One iteration of the first loop of `IndexedLog::trim`. -/
def trimEntry (earliest : UInt64) (p : PGLog) (e : LogEntry) : PGLog :=
  let log := p.log.unindexOne e
  let tracked := earliest ≤ e.version.version
  { p with
    trimmed := p.trimmed.insert e.version ()
    writeFromDups :=
      if tracked ∧ e.version < p.writeFromDups then e.version else p.writeFromDups
    log := { log with
      log := log.log.tail, dups := if tracked then log.dups ++ e.dups else log.dups } }

/-- The first loop of `IndexedLog::trim`, over the entries from the tail on. -/
def trimLoop (earliest : UInt64) (s : Eversion) : List LogEntry → PGLog → PGLog
  | [], p => p
  | e :: entries, p =>
    if s < e.version then p else trimLoop earliest s entries (p.trimEntry earliest e)

/-- The second loop of `IndexedLog::trim`: old dups go. -/
def trimDups (earliest : UInt64) (p : PGLog) : PGLog :=
  let old := fun d : LogDup => decide (d.version.version < earliest)
  { p with
    trimmedDups :=
      p.trimmedDups.insertAll ((p.log.dups.takeWhile old).map fun d => dupKeyName d.version)
    log := { p.log with dups := p.log.dups.dropWhile old } }

/-- `trim`, with `osd_pg_log_dups_tracked`. The source reads the last entry of the log without a
test whether there is one; nothing is said about an empty log. -/
def trim (p : PGLog) (trimTo : Eversion) (info : PgInfo) (dupsTracked : UInt64)
    (transactionApplied async : Bool) : Option (PGLog × PgInfo) :=
  if trimTo ≤ p.log.tail then some (p, info)
  else if transactionApplied = true ∧ async = false ∧ p.missing.missing.entries = [] ∧
      info.lastComplete < trimTo then none
  else if p.log.canRollbackTo < trimTo then none
  else p.log.log.getLast?.map fun last =>
    let earliest := earliestDupVersion last.version dupsTracked
    let p := (p.trimLoop earliest trimTo p.log.log).trimDups earliest
    let tail := if p.log.tail < trimTo then trimTo else p.log.tail
    ({ p with log := { p.log with tail := tail } }, { info with logTail := tail })

/-- `recover_got`, as far as the log and the missing set go. -/
def recoverGot (p : PGLog) (oid : Soid) (v : Eversion) : Option PGLog :=
  let got := if (p.missing.get oid).any (fun item => item.need ≤ v) then p.missing.got oid v
    else some p.missing
  got.bind fun missing => if v ≤ p.log.canRollbackTo then some { p with missing := missing } else none

end PGLog

theorem Eversion.le_max (v : Eversion) : v ≤ Eversion.max := by
  rw [← not_lt, Eversion.lt_iff, Eversion.max]
  have hepoch := v.epoch.toNat_lt
  have hversion := v.version.toNat_lt
  split_ifs with he
  · rw [UInt64.lt_iff_toNat_lt, show (0xffffffffffffffff : UInt64).toNat = 2 ^ 64 - 1 from rfl]
    omega
  · rw [UInt32.lt_iff_toNat_lt, show (0xffffffff : UInt32).toNat = 2 ^ 32 - 1 from rfl]
    omega

/-! ## What the operations do -/

namespace PGLog

/-! ### Markers -/

theorem markDirtyTo_eq (p : PGLog) (v : Eversion) :
    p.markDirtyTo v = { p with dirtyTo := p.dirtyTo ⊔ v } := by
  rw [markDirtyTo, max_def_lt]
  split_ifs <;> rfl

theorem markWriteoutFrom_eq (p : PGLog) (v : Eversion) :
    p.markWriteoutFrom v = { p with writeoutFrom := p.writeoutFrom ⊓ v } := by
  rw [markWriteoutFrom, inf_comm, min_def_lt]
  split_ifs <;> rfl

theorem markDirtyToDups_eq (p : PGLog) (v : Eversion) :
    p.markDirtyToDups v = { p with dirtyToDups := p.dirtyToDups ⊔ v } := by
  rw [markDirtyToDups, max_def_lt]
  split_ifs <;> rfl

theorem markDirtyFromDups_eq (p : PGLog) (v : Eversion) :
    p.markDirtyFromDups v = { p with dirtyFromDups := p.dirtyFromDups ⊓ v } := by
  rw [markDirtyFromDups, inf_comm, min_def_lt]
  split_ifs <;> rfl

end PGLog

/-! ### Divergent entries -/

theorem rewindDivergentLog_eq_some {p p' : PGLog} {newhead : Eversion} {info info' : PgInfo}
    {calls : List HandlerCall} (h : rewindDivergentLog p newhead info = some (p', info', calls)) :
    ∃ l divergent m, p.log.rewindFromHead newhead = some (l, divergent) ∧
      mergeDivergentEntries l divergent info.lastBackfill p.log.canRollbackTo p.missing =
        some (m, calls) ∧
      p' = { ({ p with log := l } : PGLog).markDivergent divergent with missing := m } := by
  unfold rewindDivergentLog at h
  obtain ⟨⟨l, divergent⟩, hrewind, h⟩ := Option.bind_eq_some_iff.mp h
  obtain ⟨⟨m, calls'⟩, hmerge, h⟩ := Option.bind_eq_some_iff.mp h
  simp only [PGLog.markDivergent_log, PGLog.markDivergent_missing] at hmerge
  obtain ⟨rfl, -, rfl⟩ := h
  exact ⟨l, divergent, m, hrewind, hmerge, rfl⟩

/-! ### Merging dups -/

theorem foldl_markDirtyFromDups (dups : List LogDup) (p : PGLog) :
    ∃ v ≤ p.dirtyFromDups, (∀ d ∈ dups, v ≤ d.version) ∧
      dups.foldl (fun p d => p.markDirtyFromDups d.version) p = { p with dirtyFromDups := v } := by
  induction dups generalizing p with
  | nil => exact ⟨p.dirtyFromDups, le_rfl, by simp, rfl⟩
  | cons d dups ih =>
    obtain ⟨v, hle, hall, heq⟩ := ih (p.markDirtyFromDups d.version)
    rw [foldl_cons, heq]
    rw [PGLog.markDirtyFromDups_eq] at hle ⊢
    refine ⟨v, hle.trans inf_le_left, fun d' hd' => ?_, rfl⟩
    rcases mem_cons.mp hd' with rfl | hd'
    · exact hle.trans inf_le_right
    · exact hall d' hd'

/-! ### Trimming -/

theorem IndexedLog.unindexOne_toPgLog (l : IndexedLog) (e : LogEntry) :
    (l.unindexOne e).toPgLog = l.toPgLog := by
  unfold IndexedLog.unindexOne
  split_ifs <;> rfl

/-- **What the first loop of `trim` does**: entries go from the tail, and those with a recent
enough version number leave dups. -/
structure Trims (earliest : UInt64) (taken : List LogEntry) (p q : PGLog) : Prop where
  log : p.log.log = taken ++ q.log.log
  dups : q.log.dups = p.log.dups ++
    (taken.filter fun e => earliest ≤ e.version.version).flatMap LogEntry.dups
  head : q.log.head = p.log.head
  tail : q.log.tail = p.log.tail
  trimmed : ∀ v, v ∈ q.trimmed ↔ v ∈ p.trimmed ∨ ∃ e ∈ taken, e.version = v
  writeFromDups : q.writeFromDups ≤ p.writeFromDups
  written : ∀ e ∈ taken, earliest ≤ e.version.version → q.writeFromDups ≤ e.version
  rest : ∃ l t v, q = { p with log := l, trimmed := t, writeFromDups := v }

theorem Trims.nil (earliest : UInt64) (p : PGLog) : Trims earliest [] p p :=
  ⟨rfl, by simp, rfl, rfl, by simp, le_rfl, by simp, _, _, _, rfl⟩

theorem Trims.cons {earliest : UInt64} {e : LogEntry} {taken : List LogEntry} {p q : PGLog}
    (hlog : p.log.log = e :: taken ++ q.log.log)
    (h : Trims earliest taken (p.trimEntry earliest e) q) : Trims earliest (e :: taken) p q := by
  have hunindex := p.log.unindexOne_toPgLog e
  refine ⟨hlog, ?_, ?_, ?_, fun v => ?_, ?_, fun a ha htracked => ?_, ?_⟩
  · rw [h.dups]
    show (if earliest ≤ e.version.version then (p.log.unindexOne e).dups ++ e.dups
      else (p.log.unindexOne e).dups) ++ _ = _
    rw [congrArg PgLog.dups hunindex]
    by_cases htracked : earliest ≤ e.version.version
    · simp [htracked]
    · simp [htracked]
  · rw [h.head, ← congrArg PgLog.head hunindex]
    rfl
  · rw [h.tail, ← congrArg PgLog.tail hunindex]
    rfl
  · rw [h.trimmed]
    show v ∈ p.trimmed.insert e.version () ∨ _ ↔ _
    rw [OrdMap.mem_insert]
    simp only [mem_cons, exists_eq_or_imp, eq_comm (a := v)]
    tauto
  · refine h.writeFromDups.trans ?_
    show (if _ then e.version else p.writeFromDups) ≤ _
    split_ifs with hlt
    · exact hlt.2.le
    · exact le_refl _
  · rcases mem_cons.mp ha with rfl | ha
    · refine h.writeFromDups.trans ?_
      show (if _ then a.version else p.writeFromDups) ≤ _
      split_ifs with hlt
      · exact le_refl _
      · exact not_lt.mp fun hlt' => hlt ⟨htracked, hlt'⟩
    · exact h.written a ha htracked
  · exact h.rest

/-- **The first loop of `trim`.** -/
theorem trimLoop_spec (earliest : UInt64) (s : Eversion) (entries : List LogEntry) (p : PGLog)
    (h : p.log.log = entries) :
    ∃ taken, Trims earliest taken p (p.trimLoop earliest s entries) ∧
      (∀ e ∈ taken, e.version ≤ s) ∧
      ∀ e, (p.trimLoop earliest s entries).log.log.head? = some e → s < e.version := by
  induction entries generalizing p with
  | nil =>
    refine ⟨[], Trims.nil earliest p, by simp, fun e he => ?_⟩
    rw [show (p.trimLoop earliest s []) = p from rfl, h] at he
    exact absurd he (by simp)
  | cons e entries ih =>
    unfold PGLog.trimLoop
    split_ifs with hs
    · refine ⟨[], Trims.nil earliest p, by simp, fun a ha => ?_⟩
      rw [h] at ha
      exact Option.some.inj ha ▸ hs
    · have hlog : (p.trimEntry earliest e).log.log = entries := by
        show (p.log.unindexOne e).log.tail = entries
        rw [congrArg PgLog.log (p.log.unindexOne_toPgLog e), h, tail_cons]
      obtain ⟨taken, htrims, hle, hhead⟩ := ih (p.trimEntry earliest e) hlog
      refine ⟨e :: taken, Trims.cons ?_ htrims, fun a ha => ?_, hhead⟩
      · rw [h, cons_append, ← htrims.log, hlog]
      · rcases mem_cons.mp ha with rfl | ha
        · exact not_lt.mp hs
        · exact hle a ha

end Ceph.Osd
