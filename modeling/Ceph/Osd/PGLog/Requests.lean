import Ceph.Osd.PGLog.Operations

set_option autoImplicit false

/-! # Finding requests in a log

A client resends an operation under the same request id until it is answered, so the log is
searched for the id before the operation is carried out (`get_request`). The request may be that of
an entry, one of the extra requests of an entry, or a dup, the short record that is left of an
entry after it was trimmed. `IndexedLog` keeps an index for each of the three, built when it is
first needed.

This file has the indexes and the search. `lookupRequest` says what is found without them: the
newest entry of the request, else the newest entry with the request among its extra ones, else
the newest dup (`RequestLog.getRequest_eq`).
-/

namespace Ceph.Osd

open Option List

/-! ## Records of requests -/

/-- Request ids are ordered in some way, so that they can be the keys of a map. -/
def OsdReqid.sortKey (r : OsdReqid) : UInt8 ×ₗ Int64 ×ₗ UInt64 ×ₗ Int32 :=
  toLex (r.nameType, toLex (r.nameNum, toLex (r.tid, r.inc)))

theorem OsdReqid.sortKey_injective : Function.Injective OsdReqid.sortKey := by
  rintro ⟨a, b, c, d⟩ ⟨a', b', c', d'⟩ h
  simpa [OsdReqid.sortKey] using h

instance : LinearOrder OsdReqid := MachineInt.linearOrderOfKey _ OsdReqid.sortKey_injective

/-- The default `osd_reqid_t`. -/
def OsdReqid.none : OsdReqid := ⟨0, 0, 0, 0⟩

namespace LogEntry

def reqidIsIndexed (e : LogEntry) : Bool :=
  e.reqid ≠ .none ∧ e.op ∈ [.modify, .delete, .error]

/-- The dup of an entry (`pg_log_dup_t(e)`), which is also what `get_request` answers for it. -/
def toDup (e : LogEntry) : LogDup := ⟨e.reqid, e.version, e.userVersion, e.returnCode⟩

/-- The dups of the extra requests of an entry. -/
def extraDups (e : LogEntry) : List LogDup :=
  e.extraReqids.mapIdx fun idx extra => ⟨extra.1, e.version, extra.2, e.extraReturnCode idx⟩

theorem dups_eq (e : LogEntry) : e.dups = e.toDup :: e.extraDups := rfl

theorem version_of_mem_dups {e : LogEntry} {d : LogDup} (h : d ∈ e.dups) :
    d.version = e.version := by
  rw [dups_eq, mem_cons] at h
  rcases h with rfl | h
  · rfl
  · obtain ⟨idx, hidx, rfl⟩ := mem_mapIdx.mp h
    rfl

def IsFor (r : OsdReqid) (e : LogEntry) : Bool := e.reqidIsIndexed && e.reqid = r

def HasExtra (r : OsdReqid) (e : LogEntry) : Bool := e.extraReqids.any fun extra => extra.1 = r

/-- What `get_request` answers for an extra request: the first one that fits. -/
def extraAnswer (e : LogEntry) (r : OsdReqid) : Option LogDup :=
  e.extraDups.find? fun d => d.reqid = r

end LogEntry

def LogDup.IsFor (r : OsdReqid) (d : LogDup) : Bool := d.reqid = r

/-- What the entries of a log know of a request: the newest entry of the request, else the newest
one that has it as an extra request. -/
def lookupEntries (log : List LogEntry) (r : OsdReqid) : Option LogDup :=
  ((log.findRev? (LogEntry.IsFor r)).map LogEntry.toDup).or
    ((log.findRev? (LogEntry.HasExtra r)).bind fun e => e.extraAnswer r)

/-- **What a log knows of a request**: what its entries know, else its newest dup. -/
def lookupRequest (dups : List LogDup) (log : List LogEntry) (r : OsdReqid) : Option LogDup :=
  (lookupEntries log r).or (dups.findRev? (LogDup.IsFor r))

/-! ## The indexes -/

/-- `PGLog::IndexedLog` with its indexes of requests. An entry or dup that the source points to is
kept by value. The multimap of the extra requests is a list in the order in which it is searched.
The two iterators are kept as the number of entries before them; in a reverse iterator that is
the entry it stands at and all before it. -/
structure RequestLog extends IndexedLog where
  callerOps : OrdMap OsdReqid LogEntry
  extraCallerOps : List (OsdReqid × LogEntry)
  dupIndex : OrdMap OsdReqid LogDup
  indexedCallerOps : Bool
  indexedExtraCallerOps : Bool
  indexedDups : Bool
  completeTo : Nat
  trimmedToRiter : Nat

/-- An entry is put into `caller_ops`. -/
def putCallerOp (ops : OrdMap OsdReqid LogEntry) (e : LogEntry) : OrdMap OsdReqid LogEntry :=
  if e.reqidIsIndexed then ops.insert e.reqid e else ops

/-- The extra requests of an entry are put into `extra_caller_ops`. -/
def putExtraCallerOps (ops : List (OsdReqid × LogEntry)) (e : LogEntry) :
    List (OsdReqid × LogEntry) :=
  e.extraReqids.foldl (fun ops extra => (extra.1, e) :: ops) ops

/-- A dup is put into `dup_index`. -/
def putDup (index : OrdMap OsdReqid LogDup) (d : LogDup) : OrdMap OsdReqid LogDup :=
  index.insert d.reqid d

/-- `index_caller_ops`: the index as it is built. -/
def builtCallerOps (log : List LogEntry) : OrdMap OsdReqid LogEntry := log.foldl putCallerOp .empty

/-- `index_extra_caller_ops`. -/
def builtExtraCallerOps (log : List LogEntry) : List (OsdReqid × LogEntry) :=
  log.foldl putExtraCallerOps []

/-- `index_dups`. -/
def builtDupIndex (dups : List LogDup) : OrdMap OsdReqid LogDup := dups.foldl putDup .empty

namespace RequestLog

/-- The log of a constructor, with everything indexed. -/
def ofPgLog (l : PgLog) : RequestLog :=
  { IndexedLog.ofPgLog l with
    callerOps := builtCallerOps l.log
    extraCallerOps := builtExtraCallerOps l.log
    dupIndex := builtDupIndex l.dups
    indexedCallerOps := true
    indexedExtraCallerOps := true
    indexedDups := true
    completeTo := l.log.length
    trimmedToRiter := (l.log.rdropWhile fun e => l.rollbackInfoTrimmedTo < e.version).length }

/-- What `get_request` finds among the dups. -/
def findDup (l : RequestLog) (r : OsdReqid) : Option LogDup :=
  (if l.indexedDups then l.dupIndex else builtDupIndex l.dups).get r

/-- `get_request`, with the indexes built that are not there. Nothing where it aborts: the request
is in the index of the extra requests but not in the entry. -/
def getRequest (l : RequestLog) (r : OsdReqid) : Option (Option LogDup) :=
  match (if l.indexedCallerOps then l.callerOps else builtCallerOps l.log).get r with
  | some e => some (some e.toDup)
  | none =>
    match (if l.indexedExtraCallerOps then l.extraCallerOps
        else builtExtraCallerOps l.log).find? fun p => p.1 = r with
    | some p => (p.2.extraAnswer r).map some
    | none => some (l.findDup r)

/-- The indexes of entries that are there are those that would be built. -/
structure EntriesIndexed (l : RequestLog) : Prop where
  callerOps : l.indexedCallerOps = true → l.callerOps = builtCallerOps l.log
  extraCallerOps : l.indexedExtraCallerOps = true → l.extraCallerOps = builtExtraCallerOps l.log

end RequestLog

/-! ## What the indexes find -/

theorem findRev?_append {α : Type} (p : α → Bool) (l l' : List α) :
    (l ++ l').findRev? p = (l'.findRev? p).or (l.findRev? p) := by
  simp only [findRev?_eq_find?_reverse, reverse_append, find?_append]

theorem findRev?_singleton {α : Type} (p : α → Bool) (a : α) :
    [a].findRev? p = if p a then some a else none := by
  rw [findRev?_eq_find?_reverse, reverse_singleton, find?_singleton]

theorem findRev?_eq_none_iff {α : Type} {p : α → Bool} {l : List α} :
    l.findRev? p = none ↔ ∀ a ∈ l, p a = false := by
  simp [findRev?_eq_find?_reverse]

theorem of_findRev?_eq_some {α : Type} {p : α → Bool} {l : List α} {a : α}
    (h : l.findRev? p = some a) : a ∈ l ∧ p a = true := by
  rw [findRev?_eq_find?_reverse] at h
  exact ⟨mem_reverse.mp (mem_of_find?_eq_some h), find?_some h⟩

theorem get_putCallerOp (ops : OrdMap OsdReqid LogEntry) (e : LogEntry) (r : OsdReqid) :
    (putCallerOp ops e).get r = if e.IsFor r then some e else ops.get r := by
  unfold putCallerOp LogEntry.IsFor
  cases hindexed : e.reqidIsIndexed with
  | false => rfl
  | true =>
    rw [if_pos rfl, OrdMap.get_insert]
    by_cases hr : r = e.reqid
    · simp [hr]
    · simp [hr, Ne.symm hr]

/-- **The index of entries** finds the newest one. -/
theorem get_builtCallerOps (log : List LogEntry) (r : OsdReqid) :
    (builtCallerOps log).get r = log.findRev? (LogEntry.IsFor r) := by
  induction log using List.reverseRecOn with
  | nil => rfl
  | append_singleton log e ih =>
    rw [builtCallerOps, foldl_append, foldl_cons, foldl_nil, get_putCallerOp,
      findRev?_append, findRev?_singleton, ← ih]
    split_ifs <;> rfl

theorem putExtraCallerOps_eq (ops : List (OsdReqid × LogEntry)) (e : LogEntry) :
    putExtraCallerOps ops e = (e.extraReqids.map fun extra => (extra.1, e)).reverse ++ ops := by
  unfold putExtraCallerOps
  induction e.extraReqids using List.reverseRecOn with
  | nil => rfl
  | append_singleton extras extra ih => simp [ih]

theorem foldl_putExtraCallerOps (log : List LogEntry) (ops : List (OsdReqid × LogEntry)) :
    log.foldl putExtraCallerOps ops = builtExtraCallerOps log ++ ops := by
  induction log generalizing ops with
  | nil => rfl
  | cons e log ih =>
    rw [builtExtraCallerOps, foldl_cons, foldl_cons, ih, ih (putExtraCallerOps [] e),
      putExtraCallerOps_eq, putExtraCallerOps_eq, append_nil, append_assoc]

theorem builtExtraCallerOps_append (log log' : List LogEntry) :
    builtExtraCallerOps (log ++ log') = builtExtraCallerOps log' ++ builtExtraCallerOps log := by
  rw [builtExtraCallerOps, foldl_append, foldl_putExtraCallerOps]
  rfl

/-- **The index of extra requests** finds the newest entry that has one. -/
theorem find?_builtExtraCallerOps (log : List LogEntry) (r : OsdReqid) :
    ((builtExtraCallerOps log).find? fun p => p.1 = r) =
      (log.findRev? (LogEntry.HasExtra r)).map fun e => (r, e) := by
  induction log using List.reverseRecOn with
  | nil => rfl
  | append_singleton log e ih =>
    have hone : ((putExtraCallerOps [] e).find? fun p => p.1 = r) =
        if e.HasExtra r then some (r, e) else none := by
      rw [putExtraCallerOps_eq, append_nil]
      cases hfind : (e.extraReqids.map fun extra => (extra.1, e)).reverse.find?
          fun p => p.1 = r with
      | none =>
        have hnone : e.HasExtra r ≠ true := by
          intro hextra
          obtain ⟨extra, hmem, hr⟩ := any_eq_true.mp hextra
          exact find?_eq_none.mp hfind (extra.1, e)
            (mem_reverse.mpr (mem_map.mpr ⟨extra, hmem, rfl⟩)) hr
        rw [if_neg hnone]
      | some p =>
        obtain ⟨extra, hmem, rfl⟩ :=
          mem_map.mp (mem_reverse.mp (mem_of_find?_eq_some hfind))
        have hr := find?_some hfind
        have hextra : e.HasExtra r = true := any_eq_true.mpr ⟨extra, hmem, hr⟩
        rw [if_pos hextra, of_decide_eq_true hr]
    rw [builtExtraCallerOps_append, find?_append, ih, findRev?_append, findRev?_singleton]
    show ((putExtraCallerOps [] e).find? _).or _ = _
    rw [hone]
    split_ifs <;> rfl

/-- **The index of dups** finds the newest one. -/
theorem get_builtDupIndex (dups : List LogDup) (r : OsdReqid) :
    (builtDupIndex dups).get r = dups.findRev? (LogDup.IsFor r) := by
  induction dups using List.reverseRecOn with
  | nil => rfl
  | append_singleton dups d ih =>
    rw [builtDupIndex, foldl_append, foldl_cons, foldl_nil, putDup,
      OrdMap.get_insert, ← builtDupIndex, ih, findRev?_append, findRev?_singleton]
    by_cases hr : r = d.reqid
    · simp [LogDup.IsFor, hr]
    · simp [LogDup.IsFor, hr, Ne.symm hr]

theorem LogEntry.exists_extraAnswer {e : LogEntry} {r : OsdReqid} (h : e.HasExtra r = true) :
    ∃ d, e.extraAnswer r = some d ∧ d.version = e.version := by
  obtain ⟨extra, hmem, hr⟩ := any_eq_true.mp h
  obtain ⟨idx, hidx, rfl⟩ := mem_iff_getElem.mp hmem
  have hdup : (⟨e.extraReqids[idx].1, e.version, e.extraReqids[idx].2,
      e.extraReturnCode idx⟩ : LogDup) ∈ e.extraDups := mem_mapIdx.mpr ⟨idx, hidx, rfl⟩
  cases hfind : e.extraAnswer r with
  | none => exact absurd hr (find?_eq_none.mp hfind _ hdup)
  | some d =>
    obtain ⟨idx', hidx', rfl⟩ := mem_mapIdx.mp (mem_of_find?_eq_some hfind)
    exact ⟨_, rfl, rfl⟩

/-- `get_request` searches the entries first, and does not abort. -/
theorem RequestLog.getRequest_eq {l : RequestLog} (hl : l.EntriesIndexed) (r : OsdReqid) :
    l.getRequest r = some ((lookupEntries l.log r).or (l.findDup r)) := by
  have hcaller : (if l.indexedCallerOps then l.callerOps else builtCallerOps l.log).get r =
      l.log.findRev? (LogEntry.IsFor r) := by
    rw [← get_builtCallerOps]
    split_ifs with hflag
    · rw [hl.callerOps hflag]
    · rfl
  have hextra : ((if l.indexedExtraCallerOps then l.extraCallerOps
      else builtExtraCallerOps l.log).find? fun p => p.1 = r) =
        (l.log.findRev? (LogEntry.HasExtra r)).map fun e => (r, e) := by
    rw [← find?_builtExtraCallerOps]
    split_ifs with hflag
    · rw [hl.extraCallerOps hflag]
    · rfl
  unfold getRequest lookupEntries
  rw [hcaller, hextra]
  cases hfirst : l.log.findRev? (LogEntry.IsFor r) with
  | some e => rfl
  | none =>
    cases hsecond : l.log.findRev? (LogEntry.HasExtra r) with
    | none => rfl
    | some e =>
      obtain ⟨d, hd, -⟩ := LogEntry.exists_extraAnswer (of_findRev?_eq_some hsecond).2
      simp [hd]

/-! ## Logs that are cut short -/

theorem lookupEntries_append (cut kept : List LogEntry) (r : OsdReqid) :
    lookupEntries (cut ++ kept) r =
      (((kept.findRev? (LogEntry.IsFor r)).or (cut.findRev? (LogEntry.IsFor r))).map
          LogEntry.toDup).or
        (((kept.findRev? (LogEntry.HasExtra r)).or (cut.findRev? (LogEntry.HasExtra r))).bind
          fun e => e.extraAnswer r) := by
  rw [lookupEntries, findRev?_append, findRev?_append]

/-- **When a log without its older entries answers as before.** The newest entry of the request is
kept; or the request is found among the extra ones of an entry that is kept, and none of the entries
that go is one of the request; or no entry that is kept knows the request, and what is found among
the dups is what the entries that go and the dups before knew. -/
def AnswersSame (dups : List LogDup) (cut kept : List LogEntry) (found : Option LogDup)
    (r : OsdReqid) : Prop :=
  (∃ e ∈ kept, e.IsFor r = true) ∨
    ((∃ e ∈ kept, e.HasExtra r = true) ∧ ∀ e ∈ cut, e.IsFor r = false) ∨
    ((∀ e ∈ kept, e.HasExtra r = false) ∧ found = lookupRequest dups cut r)

theorem lookupEntries_or_eq_iff {dups : List LogDup} {cut kept : List LogEntry}
    (hapart : ∀ e ∈ cut, ∀ e' ∈ kept, e.version ≠ e'.version) (found : Option LogDup)
    (r : OsdReqid) :
    (lookupEntries kept r).or found = lookupRequest dups (cut ++ kept) r ↔
      AnswersSame dups cut kept found r := by
  rw [lookupRequest, lookupEntries_append, lookupEntries, AnswersSame]
  cases hfor : kept.findRev? (LogEntry.IsFor r) with
  | some e =>
    obtain ⟨hmem, he⟩ := of_findRev?_eq_some hfor
    exact iff_of_true rfl (.inl ⟨e, hmem, he⟩)
  | none =>
    have hnotfor : ¬ ∃ e ∈ kept, e.IsFor r = true := by
      rintro ⟨e, hmem, he⟩
      exact Bool.false_ne_true ((findRev?_eq_none_iff.mp hfor e hmem).symm.trans he)
    rw [or_iff_right hnotfor]
    cases hextra : kept.findRev? (LogEntry.HasExtra r) with
    | some e =>
      obtain ⟨hmem, he⟩ := of_findRev?_eq_some hextra
      obtain ⟨d, hd, hversion⟩ := LogEntry.exists_extraAnswer he
      have hnotthird :
          ¬ ((∀ e ∈ kept, e.HasExtra r = false) ∧ found = lookupRequest dups cut r) :=
        fun h => Bool.false_ne_true ((h.1 e hmem).symm.trans he)
      rw [or_iff_left hnotthird]
      cases hcut : cut.findRev? (LogEntry.IsFor r) with
      | none =>
        refine iff_of_true (by simp [hd]) ⟨⟨e, hmem, he⟩, findRev?_eq_none_iff.mp hcut⟩
      | some e' =>
        obtain ⟨hmem', he'⟩ := of_findRev?_eq_some hcut
        refine iff_of_false ?_ fun h => Bool.false_ne_true ((h.2 e' hmem').symm.trans he')
        intro heq
        simp only [map_none, none_or, bind_some, hd, some_or,
          map_some, Option.some.injEq] at heq
        refine hapart e' hmem' e hmem ?_
        rw [← hversion, heq]
        rfl
    | none =>
      have hnone := findRev?_eq_none_iff.mp hextra
      have hnotsecond :
          ¬ ((∃ e ∈ kept, e.HasExtra r = true) ∧ ∀ e ∈ cut, e.IsFor r = false) := by
        rintro ⟨⟨e, hmem, he⟩, -⟩
        exact Bool.false_ne_true ((hnone e hmem).symm.trans he)
      rw [or_iff_right hnotsecond]
      exact ⟨fun heq => ⟨hnone, heq⟩, fun h => h.2⟩

end Ceph.Osd
