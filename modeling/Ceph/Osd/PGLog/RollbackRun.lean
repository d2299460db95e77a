import Ceph.Osd.PGLog.MergeSound
import Ceph.Osd.PGLog.Rollback

set_option autoImplicit false

/-! # Rollback information over whole runs

The operations of `PGLog` with the iterator, and every sequence of them. A run keeps the bounds in
their order and the iterator in its place, gives each entry to the handler once as the bounds pass
it, in increasing order, and rolls back no entry that was rolled forward or trimmed before
(`rollback_info_consumed_once`).

Entries cut off as divergent are another matter: `_merge_object_divergent_entries` trims those it
does not roll back, object by object, whether they were rolled forward before or not.
-/

namespace Ceph.Osd

open Option List

/-! ## The calls for divergent entries -/

/-- The calls that throw out divergent entries: nothing is rolled forward, what is trimmed or
rolled back is one of the entries, and what is rolled back is beyond `can_rollback_to` and is not
trimmed as well. -/
structure DivergentCalls (canRollbackTo : Eversion) (divergent : List LogEntry)
    (calls : List HandlerCall) : Prop where
  rollforward : ∀ e, .rollforward e ∉ calls
  trim : ∀ e, .trim e ∈ calls → e ∈ divergent
  rollback : ∀ e, .rollback e ∈ calls →
    e ∈ divergent ∧ canRollbackTo < e.version ∧ .trim e ∉ calls

variable {head origTail : Eversion} {l l' log : IndexedLog} {entries : List LogEntry} {e : LogEntry}
  {m m' : MissingSet} {info : PgInfo} {olog : PgLog} {hoid lastBackfill : Soid}

namespace DivergentCalls

variable {canRollbackTo : Eversion} {divergent : List LogEntry} {calls : List HandlerCall}

theorem nil (canRollbackTo : Eversion) (divergent : List LogEntry) :
    DivergentCalls canRollbackTo divergent [] := ⟨by simp, by simp, by simp⟩

theorem mono (h : DivergentCalls canRollbackTo divergent calls) {divergent' : List LogEntry}
    (hsub : ∀ e ∈ divergent, e ∈ divergent') : DivergentCalls canRollbackTo divergent' calls :=
  ⟨h.rollforward, fun e he => hsub e (h.trim e he), fun e he =>
    ⟨hsub e (h.rollback e he).1, (h.rollback e he).2⟩⟩

theorem removeAndTrim (canRollbackTo : Eversion) (hoid : Soid) (notInStore : Bool)
    (entries : List LogEntry) :
    DivergentCalls canRollbackTo entries (Osd.removeAndTrim hoid notInStore entries) := by
  have hmem : ∀ c ∈ Osd.removeAndTrim hoid notInStore entries,
      c = .remove hoid ∨ ∃ e ∈ entries, c = .trim e := by
    intro c hc
    rcases mem_append.mp hc with hc | hc
    · left
      cases notInStore with
      | true => simp at hc
      | false => simpa using hc
    · obtain ⟨e, he, rfl⟩ := mem_map.mp hc
      exact .inr ⟨e, he, rfl⟩
  refine ⟨fun e he => ?_, fun e he => ?_, fun e he => ?_⟩
  all_goals obtain hc | ⟨a, ha, hc⟩ := hmem _ he
  all_goals simp at hc
  exact hc ▸ ha

theorem onlyTrim (canRollbackTo : Eversion) (entries : List LogEntry) :
    DivergentCalls canRollbackTo entries (entries.map .trim) :=
  ⟨by simp, by simp, by simp⟩

theorem onlyRollback (h : ∀ e ∈ entries, canRollbackTo < e.version) :
    DivergentCalls canRollbackTo entries (entries.reverse.map .rollback) := by
  refine ⟨by simp, by simp, fun e he => ?_⟩
  have hmem : e ∈ entries := by simpa using he
  exact ⟨hmem, h e hmem, by simp⟩

/-- Calls for different objects do not get in each other's way. -/
theorem append {entries' : List LogEntry} {calls' : List HandlerCall}
    (h : DivergentCalls canRollbackTo entries calls)
    (h' : DivergentCalls canRollbackTo entries' calls') (hdisjoint : ∀ e ∈ entries, e ∉ entries') :
    DivergentCalls canRollbackTo (entries ++ entries') (calls ++ calls') := by
  refine ⟨fun e he => ?_, fun e he => ?_, fun e he => ?_⟩
  · exact (mem_append.mp he).elim (h.rollforward e) (h'.rollforward e)
  · exact mem_append.mpr ((mem_append.mp he).imp (h.trim e) (h'.trim e))
  · rcases mem_append.mp he with he | he
    · obtain ⟨hmem, hlt, htrim⟩ := h.rollback e he
      refine ⟨mem_append_left _ hmem, hlt, fun hc => ?_⟩
      exact (mem_append.mp hc).elim htrim fun hc => hdisjoint e hmem (h'.trim e hc)
    · obtain ⟨hmem, hlt, htrim⟩ := h'.rollback e he
      refine ⟨mem_append_right _ hmem, hlt, fun hc => ?_⟩
      exact (mem_append.mp hc).elim (fun hc => hdisjoint e (h.trim e hc) hmem) htrim

/-- What is rolled back was not given up before. -/
theorem unconsumed (h : DivergentCalls canRollbackTo divergent calls) {l : PgLog}
    {handled : List LogEntry} {before : List HandlerCall} (hl : HistoryOk l handled before)
    (hmem : ∀ e ∈ divergent, e ∈ l.log) (hle : l.rollbackInfoTrimmedTo ≤ canRollbackTo)
    (he : .rollback e ∈ calls) : e ∈ divergent ∧ e ∉ handled ∧ .trim e ∉ before ∧ .trim e ∉ calls := by
  obtain ⟨hin, hlt, htrim⟩ := h.rollback e he
  have hlt' := hle.trans_lt hlt
  exact ⟨hin, hl.not_mem_handled (hmem e hin) hlt', (hl.fresh e (hmem e hin) hlt').2, htrim⟩

end DivergentCalls

theorem mem_of_keepEntries {atBegin seen : Bool} {last : Eversion} {kept : List LogEntry}
    (h : keepEntries hoid atBegin seen last entries = some kept) (he : e ∈ kept) : e ∈ entries := by
  induction entries generalizing atBegin seen last kept with
  | nil =>
    rw [keepEntries, some_inj] at h
    exact absurd he (by simp [← h])
  | cons a entries ih =>
    rw [keepEntries] at h
    split_ifs at h with hcheck herror
    · exact mem_cons_of_mem _ (ih h he)
    · obtain ⟨rest, hrest, rfl⟩ := map_eq_some_iff.mp h
      rcases mem_cons.mp he with rfl | he
      · exact mem_cons_self
      · exact mem_cons_of_mem _ (ih hrest he)

theorem mergeUnsuperseded_calls (first : LogEntry) (hoid : Soid) (notInStore : Bool)
    (entries : List LogEntry) (canRollbackTo : Eversion) (m : MissingSet) :
    DivergentCalls canRollbackTo entries
      (mergeUnsuperseded first hoid notInStore entries canRollbackTo m).2 := by
  unfold mergeUnsuperseded
  by_cases hcreates : first.Creates
  · rw [if_pos hcreates]
    exact .removeAndTrim ..
  · rw [if_neg hcreates]
    cases m.get hoid with
    | some item => exact .onlyTrim ..
    | none =>
      by_cases hall : entries.all (fun e => e.canRollback && decide (canRollbackTo < e.version))
      · simp only [if_pos hall]
        refine .onlyRollback fun e he => ?_
        have hboth := all_eq_true.mp hall e he
        exact of_decide_eq_true (Bool.and_eq_true_iff.mp hboth).2
      · simp only [if_neg hall]
        exact .removeAndTrim ..

/-- **The calls for one object.** -/
theorem mergeObjectDivergentEntries_calls {origEntries : List LogEntry} {canRollbackTo : Eversion}
    {calls : List HandlerCall}
    (h : mergeObjectDivergentEntries log hoid origEntries lastBackfill canRollbackTo m =
      some (m', calls)) : DivergentCalls canRollbackTo origEntries calls := by
  rcases mergeObjectDivergentEntries_cases h with
    ⟨-, rfl⟩ | ⟨entries, first, notInStore, hkeep, -, hcase⟩
  · exact .nil ..
  suffices hcalls : DivergentCalls canRollbackTo entries calls from
    hcalls.mono fun e he => mem_of_keepEntries hkeep he
  rcases hcase with ⟨-, rfl⟩ | heq
  · exact .removeAndTrim ..
  · have hcalls := mergeUnsuperseded_calls first hoid notInStore entries canRollbackTo m
    rwa [heq] at hcalls

/-- **The loop over the objects**: the entries of different objects are different. -/
theorem mergeObjects_calls {canRollbackTo : Eversion} {split : List (Soid × List LogEntry)}
    (hkeys : split.Pairwise fun a b => a.1 ≠ b.1) (hentries : ∀ p ∈ split, ∀ e ∈ p.2, e.soid = p.1)
    {calls : List HandlerCall}
    (h : mergeObjects log lastBackfill canRollbackTo split m = some (m', calls)) :
    DivergentCalls canRollbackTo (split.flatMap Prod.snd) calls := by
  induction split generalizing m m' calls with
  | nil =>
    cases h
    exact .nil ..
  | cons p split ih =>
    obtain ⟨hne, hkeys'⟩ := pairwise_cons.mp hkeys
    obtain ⟨⟨m₁, calls₁⟩, hone, h⟩ := bind_eq_some_iff.mp h
    obtain ⟨⟨m₂, calls₂⟩, hrest, heq⟩ := map_eq_some_iff.mp h
    cases heq
    have hrest' := ih hkeys' (fun p hp => hentries p (mem_cons_of_mem _ hp)) hrest
    rw [flatMap_cons]
    refine (mergeObjectDivergentEntries_calls hone).append hrest' fun e he hmem => ?_
    obtain ⟨q, hq, heq⟩ := mem_flatMap.mp hmem
    refine hne q hq ?_
    rw [← hentries _ mem_cons_self e he, hentries q (mem_cons_of_mem _ hq) e heq]

/-- **The calls of `_merge_divergent_entries`.** -/
theorem mergeDivergentEntries_calls {divergent : List LogEntry} {canRollbackTo : Eversion}
    {calls : List HandlerCall}
    (h : mergeDivergentEntries log divergent lastBackfill canRollbackTo m = some (m', calls)) :
    DivergentCalls canRollbackTo divergent calls := by
  have hof : ∀ p ∈ (splitByObject divergent).entries, ∀ e ∈ p.2, e ∈ divergent ∧ e.soid = p.1 := by
    rintro ⟨hoid, entries⟩ hp e he
    obtain ⟨rfl, -⟩ := mem_splitByObject hp
    simpa [entriesOf] using he
  refine (mergeObjects_calls ((splitByObject divergent).sorted.imp fun hlt => hlt.ne)
    (fun p hp e he => (hof p hp e he).2) h).mono fun e he => ?_
  obtain ⟨p, hp, hmem⟩ := mem_flatMap.mp he
  exact (hof p hp e hmem).1

/-! ## The operations with the iterator -/

/-- `advance_can_rollback_to` with the iterator: the new log, the new iterator and the entries
given to the callback. -/
def IndexedLog.advanceRiter (l : IndexedLog) (riter : ℕ) (upTo : Eversion) :
    IndexedLog × ℕ × List LogEntry :=
  let l := (l.advanceCanRollbackTo upTo).1
  (l, riter + (l.visited riter).length, l.visited riter)

/-- A log with its iterator and what its handler was given: `handled` are the entries given as the
bounds moved forward, `calls` are all the calls. -/
structure RollbackState where
  pglog : PGLog
  riter : ℕ
  handled : List LogEntry
  calls : List HandlerCall

namespace RollbackState

/-- A log as the constructors of `IndexedLog` leave it. -/
def init (p : PGLog) : RollbackState := ⟨p, p.log.resetRiter, [], []⟩

def add (s : RollbackState) (e : LogEntry) (applied : Bool) : Option RollbackState :=
  (s.pglog.add e applied).map fun p =>
    let riter := pushRiter s.pglog.log.log.length s.riter
    { s with
      pglog := p
      riter := if applied then riter else riter + (p.log.visited riter).length }

/-- `advance_can_rollback_to` with a callback that hands each entry over to the handler. -/
def handOver (s : RollbackState) (upTo : Eversion) (call : LogEntry → HandlerCall) :
    RollbackState :=
  let (log, riter, entries) := s.pglog.log.advanceRiter s.riter upTo
  { pglog := { s.pglog with log := log }
    riter := riter
    handled := s.handled ++ entries
    calls := s.calls ++ entries.map call }

def rollForwardTo (s : RollbackState) (v : Eversion) : RollbackState :=
  { s.handOver v .rollforward with pglog := (s.pglog.rollForwardTo v).1 }

def trimRollbackInfoTo (s : RollbackState) (v : Eversion) : RollbackState := s.handOver v .trim

def skipCanRollbackToToHead (s : RollbackState) : RollbackState :=
  let (log, riter, _) := s.pglog.log.advanceRiter s.riter s.pglog.log.head
  { s with pglog := { s.pglog with log := log }, riter := riter }

def trim (s : RollbackState) (trimTo : Eversion) (info : PgInfo) (dupsTracked : UInt64)
    (transactionApplied async : Bool) : Option RollbackState :=
  (s.pglog.trim trimTo info dupsTracked transactionApplied async).map fun (p, _) =>
    { s with
      pglog := p
      riter := if trimTo ≤ s.pglog.log.tail then s.riter
        else popRiter trimTo s.pglog.log.log s.riter }

def rewindDivergentLog (s : RollbackState) (newhead : Eversion) (info : PgInfo) :
    Option (RollbackState × PgInfo) :=
  (Osd.rewindDivergentLog s.pglog newhead info).map fun (p, info, calls) =>
    ({ s with pglog := p, riter := p.log.resetRiter, calls := s.calls ++ calls }, info)

/-- The part of `merge_log` at the tail: a splice leaves the iterator where it points to. -/
def extendTail (s : RollbackState) (olog : PgLog) (info : PgInfo) :
    RollbackState × PgLog × PgInfo :=
  let (p, olog, info) := Osd.extendTail s.pglog olog info
  ({ s with pglog := p, riter := s.riter + (p.log.log.length - s.pglog.log.log.length) }, olog, info)

/-- The part of `merge_log` that extends the log at its head. -/
def extendHead (s : RollbackState) (olog : PgLog) (origTail : Eversion) (info : PgInfo) :
    Option RollbackState := do
  let p := s.pglog
  let newEntries := olog.log.rtakeWhile (fun e => decide (p.log.head < e.version))
  let lowerBound := cutPoint p.log.head olog origTail
  let p := p.markDirtyFrom lowerBound
  let originalCrt := p.log.canRollbackTo
  let (log, divergent) ← p.log.rewindFromHead lowerBound
  let (log, riter, rolled) := log.advanceRiter log.resetRiter log.head
  let riter := pushRiters newEntries log.log.length riter
  let (log, missing, calls) ←
    appendLogEntriesUpdateMissing info.lastBackfill newEntries false log p.missing
  let (missing, calls') ←
    mergeDivergentEntries log divergent info.lastBackfill originalCrt missing
  let (log, riter, _) :=
    ({ log with head := olog.head } : IndexedLog).advanceRiter riter olog.head
  return {
    pglog := { p with log := log, missing := missing }
    riter := riter
    handled := s.handled ++ rolled
    calls := s.calls ++ (rolled.map .rollforward ++ calls ++ calls') }

/-- The part of `merge_log` at the head. -/
def mergeHead (s : RollbackState) (olog : PgLog) (origTail : Eversion) (info : PgInfo) :
    Option RollbackState := do
  let (s, info) ←
    if olog.head < s.pglog.log.head then s.rewindDivergentLog olog.head info else some (s, info)
  if s.pglog.log.head < olog.head then s.extendHead olog origTail info else some s

def mergeLog (s : RollbackState) (olog : PgLog) (info : PgInfo) : Option RollbackState :=
  if (s.pglog.log.head = .zero ∧ olog.tail ≠ .zero) ∨ s.pglog.log.head < olog.tail ∨
      olog.head < s.pglog.log.tail then none
  else
    let origTail := s.pglog.log.tail
    let (s, olog, info) := s.extendTail olog info
    (s.mergeHead olog origTail info).map fun s => { s with pglog := mergeLogDups s.pglog olog }

/-- `PGLog::split_into`, for the log that is split or for its child. -/
def splitInto (s : RollbackState) (child : Pg) (splitBits : Nat) (opgLog : PGLog)
    (toChild : Bool) : RollbackState :=
  let (p, o) := s.pglog.splitInto child splitBits opgLog
  let p := if toChild then o else p
  { s with pglog := p, riter := p.log.resetRiter }

end RollbackState

/-! ## What one operation keeps -/

theorem IndexedLog.add_eq_some_append (h : l.add e = some l') :
    l.head < e.version ∧ l' = l.append e := by
  obtain ⟨hnewer, h⟩ := ite_none_right_eq_some.mp h
  exact ⟨hnewer.1, (Option.some.inj h).symm⟩

theorem trimLoop_toPgLog (earliest : UInt64) (s : Eversion) (entries : List LogEntry) (p : PGLog) :
    ∃ log dups, (p.trimLoop earliest s entries).log.toPgLog =
      { p.log.toPgLog with log := log, dups := dups } := by
  induction entries generalizing p with
  | nil => exact ⟨_, _, rfl⟩
  | cons e entries ih =>
    unfold PGLog.trimLoop
    split_ifs with hs
    · exact ⟨_, _, rfl⟩
    · obtain ⟨log, dups, heq⟩ := ih (p.trimEntry earliest e)
      refine ⟨log, dups, heq.trans ?_⟩
      show ({ (p.log.unindexOne e).toPgLog with log := log, dups := dups } : PgLog) = _
      rw [p.log.unindexOne_toPgLog e]

theorem PGLog.splitInto_toPgLog (p : PGLog) (child : Pg) (splitBits : Nat) (opgLog : PGLog) :
    (p.splitInto child splitBits opgLog).1.log.toPgLog =
        (p.log.toPgLog.splitOutChild child splitBits).1 ∧
      (p.splitInto child splitBits opgLog).2.log.toPgLog =
        (p.log.toPgLog.splitOutChild child splitBits).2 := by
  unfold PGLog.splitInto
  simp only [PGLog.markDirtyTo_eq, PGLog.markDirtyToDups_eq]
  split_ifs
  · exact ⟨rfl, rfl⟩
  · exact ⟨rfl, rfl⟩

namespace RollbackState

/-- **The state of a log whose rollback information is consumed in order.** -/
structure Ok (s : RollbackState) : Prop where
  log : s.pglog.log.toPgLog.RollbackOk s.riter
  history : HistoryOk s.pglog.log.toPgLog s.handled s.calls

variable {s s' : RollbackState}

/-- An entry is fresh if it is newer than all the handler was given as the bounds moved, and is
not one that was trimmed as divergent. -/
def Fresh (s : RollbackState) (e : LogEntry) : Prop :=
  (∀ a ∈ s.handled, a.version < e.version) ∧ .trim e ∉ s.calls

instance (s : RollbackState) (e : LogEntry) : Decidable (s.Fresh e) :=
  inferInstanceAs (Decidable (_ ∧ _))

theorem Ok.handOver (h : s.Ok) {v : Eversion} (hv : v ≤ s.pglog.log.head)
    {c : LogEntry → HandlerCall} (hc : c = .rollforward ∨ c = .trim) : (s.handOver v c).Ok := by
  obtain ⟨hlog, hvisited⟩ := h.log.advance hv
  refine ⟨hlog, ?_⟩
  show HistoryOk _ (s.handled ++ (s.pglog.log.advanceCanRollbackTo v).1.toPgLog.visited s.riter)
    (s.calls ++ ((s.pglog.log.advanceCanRollbackTo v).1.toPgLog.visited s.riter).map c)
  rw [hvisited]
  exact h.history.advance h.log v hc

theorem Ok.skipCanRollbackToToHead (h : s.Ok) : s.skipCanRollbackToToHead.Ok := by
  refine ⟨(h.log.advance le_rfl).1, h.history.of_log fun e he hlt => ?_⟩
  exact ⟨he, lt_of_le_of_lt (le_max_left _ _) hlt⟩

/-- **`add`** of a fresh entry. -/
theorem Ok.add (h : s.Ok) {applied : Bool} (hfresh : s.Fresh e) (hadd : s.add e applied = some s') :
    s'.Ok := by
  obtain ⟨p, hp, rfl⟩ := map_eq_some_iff.mp hadd
  unfold PGLog.add at hp
  simp only [PGLog.markWriteoutFrom_eq] at hp
  obtain ⟨-, hp⟩ := ite_none_left_eq_some.mp hp
  obtain ⟨log, hlog, rfl⟩ := map_eq_some_iff.mp hp
  obtain ⟨hnewer, rfl⟩ := IndexedLog.add_eq_some_append hlog
  have hok := h.log.append hnewer
  have hhistory : HistoryOk (s.pglog.log.append e).toPgLog s.handled s.calls := by
    refine ⟨h.history.increasing, fun a ha hlt => ?_, h.history.rolled, h.history.undone⟩
    rcases mem_append.mp (show a ∈ s.pglog.log.log ++ [e] from ha) with ha | ha
    · exact h.history.fresh a ha hlt
    · exact mem_singleton.mp ha ▸ hfresh
  have hriter := pushRiter_eq h.log.cursor.le_length
  simp only [hriter]
  cases applied with
  | true => exact ⟨hok, hhistory⟩
  | false =>
    refine ⟨(hok.advance le_rfl).1, hhistory.of_log fun a ha hlt => ⟨ha, ?_⟩⟩
    exact lt_of_le_of_lt (le_max_left _ _) hlt

/-- **`trim`**, up to `rollback_info_trimmed_to`. -/
theorem Ok.trim (h : s.Ok) {trimTo : Eversion} {dupsTracked : UInt64} {applied async : Bool}
    (hle : trimTo ≤ s.pglog.log.rollbackInfoTrimmedTo)
    (htrim : s.trim trimTo info dupsTracked applied async = some s') : s'.Ok := by
  obtain ⟨⟨p, info'⟩, hp, rfl⟩ := map_eq_some_iff.mp htrim
  unfold PGLog.trim at hp
  by_cases htail : trimTo ≤ s.pglog.log.tail
  · rw [if_pos htail] at hp
    cases hp
    simp only [if_pos htail]
    exact ⟨h.log, h.history⟩
  · rw [if_neg htail] at hp
    obtain ⟨-, hp⟩ := ite_none_left_eq_some.mp hp
    obtain ⟨-, hp⟩ := ite_none_left_eq_some.mp hp
    obtain ⟨last, -, heq⟩ := map_eq_some_iff.mp hp
    cases heq
    generalize earliestDupVersion last.version dupsTracked = earliest
    obtain ⟨taken, htrims, htaken, hfirst⟩ := trimLoop_spec earliest trimTo s.pglog.log.log s.pglog rfl
    obtain ⟨log, dups, hq⟩ := trimLoop_toPgLog earliest trimTo s.pglog.log.log s.pglog
    generalize s.pglog.trimLoop earliest trimTo s.pglog.log.log = q at htrims hfirst hq ⊢
    have hsorted := h.log.sorted
    rw [htrims.log] at hsorted
    have hrest : ∀ e ∈ q.log.log, trimTo < e.version := by
      cases hlog : q.log.log with
      | nil => simp
      | cons first rest =>
        rw [hlog] at hsorted
        have hlt := hfirst first (by rw [hlog, head?_cons])
        have hlater := (pairwise_cons.mp (pairwise_append.mp hsorted).2.1).1
        intro e he
        rcases mem_cons.mp he with rfl | he
        · exact hlt
        · exact hlt.trans (hlater e he)
    have htail' : q.log.tail = s.pglog.log.tail := by rw [hq]
    have htrimmed : q.log.rollbackInfoTrimmedTo = s.pglog.log.rollbackInfoTrimmedTo := by rw [hq]
    simp only [if_neg htail]
    have hlog : ({ q.log.toPgLog with
        dups := (q.trimDups earliest).log.dups
        tail := if q.log.tail < trimTo then trimTo else q.log.tail } : PgLog) =
        { s.pglog.log.toPgLog with
          log := q.log.log, tail := trimTo, dups := (q.trimDups earliest).log.dups } := by
      rw [htail', if_pos (not_le.mp htail), hq]
    constructor
    · exact (congrArg (PgLog.RollbackOk · _) hlog).mpr (h.log.trim htrims.log htaken hrest hle)
    · refine h.history.of_log fun e he hlt => ⟨?_, ?_⟩
      · rw [htrims.log]
        exact mem_append_right _ he
      · exact htrimmed ▸ hlt

/-- **`rewind_divergent_log`** to a version that the log can be cut at. -/
theorem Ok.rewindDivergentLog (h : s.Ok) {newhead : Eversion} {info' : PgInfo}
    (hcut : s.pglog.log.toPgLog.CutOk newhead)
    (hrewind : s.rewindDivergentLog newhead info = some (s', info')) :
    s'.Ok ∧ s'.pglog.log.head = newhead := by
  obtain ⟨⟨p, info₁, calls⟩, hp, heq⟩ := map_eq_some_iff.mp hrewind
  cases heq
  obtain ⟨l, divergent, m, hlog, hmerge, rfl⟩ := rewindDivergentLog_eq_some hp
  obtain ⟨hok, hsplit, hkept, hbeyond, hhead, hfresh⟩ := h.log.rewind hcut hlog
  have hcalls := mergeDivergentEntries_calls hmerge
  have hlog' : (({ s.pglog with log := l } : PGLog).markDivergent divergent).log = l :=
    PGLog.markDivergent_log _ _
  refine ⟨⟨?_, ?_⟩, ?_⟩
  · simp only [hlog']
    exact hok
  · simp only [hlog']
    refine h.history.call calls (fun e he hlt => ?_) hcalls.rollforward fun e he => ?_
    · obtain ⟨hmem, hlt'⟩ := hfresh e he hlt
      refine ⟨hmem, hlt', fun htrim => ?_⟩
      exact absurd (hkept e he) (not_le.mpr (hbeyond e (hcalls.trim e htrim)))
    · exact (hcalls.unconsumed h.history (fun e he => hsplit ▸ mem_append_right _ he)
        h.log.trimmed_le he).2
  · simp only [hlog', hhead]

/-- **`split_into`**, on both sides. -/
theorem Ok.splitInto (h : s.Ok) (child : Pg) (splitBits : Nat) (opgLog : PGLog) (toChild : Bool) :
    (s.splitInto child splitBits opgLog toChild).Ok := by
  have hside : ∀ keep : LogEntry → Bool, ∀ p : PGLog,
      p.log.toPgLog = { s.pglog.log.toPgLog with log := s.pglog.log.log.filter keep } →
      Ok { s with pglog := p, riter := p.log.toPgLog.resetRiter } := by
    intro keep p hp
    constructor
    · show p.log.toPgLog.RollbackOk p.log.toPgLog.resetRiter
      rw [hp]
      exact h.log.filter keep
    · show HistoryOk p.log.toPgLog s.handled s.calls
      rw [hp]
      exact h.history.of_log fun e he hlt => ⟨(mem_filter.mp he).1, hlt⟩
  obtain ⟨hparent, hchild⟩ := s.pglog.splitInto_toPgLog child splitBits opgLog
  cases toChild with
  | false => exact hside _ _ hparent
  | true => exact hside _ _ hchild

end RollbackState

/-! ## What a merge keeps -/

/-- A call that is not about an entry. -/
def HandlerCall.Plain (c : HandlerCall) : Prop :=
  ∀ e, c ≠ .rollback e ∧ c ≠ .rollforward e ∧ c ≠ .trim e

theorem appendToMissing_plain (lastBackfill : Soid) (maintainRollback : Bool) (m : MissingSet)
    (e : LogEntry) : ∀ c ∈ (appendToMissing lastBackfill maintainRollback m e).2, c.Plain := by
  intro c hc
  unfold appendToMissing at hc
  split_ifs at hc <;> simp at hc <;> subst hc <;> intro e' <;> simp

/-- **The loop that appends entries**, and the iterator. -/
theorem appendLoop_rollbackOk {maintainRollback : Bool} {calls : List HandlerCall}
    (h : appendLoop lastBackfill maintainRollback entries l m = some (l', m', calls)) {riter : ℕ}
    (hok : l.toPgLog.RollbackOk riter) :
    l'.toPgLog.RollbackOk riter ∧
      l'.toPgLog = { l.toPgLog with log := l.log ++ entries, head := l'.head } ∧
      ∀ c ∈ calls, c.Plain := by
  induction entries generalizing l m calls with
  | nil =>
    obtain ⟨rfl, -, rfl⟩ : l = l' ∧ m = m' ∧ [] = calls := by simpa [appendLoop] using h
    exact ⟨hok, by simp, by simp⟩
  | cons e entries ih =>
    obtain ⟨l₁, hadd, hrest⟩ := bind_eq_some_iff.mp h
    obtain ⟨⟨l₂, m₂, calls₂⟩, hloop, heq⟩ := map_eq_some_iff.mp hrest
    obtain ⟨hnewer, rfl⟩ := IndexedLog.add_eq_some_append hadd
    obtain ⟨rfl, rfl, rfl⟩ : l₂ = l' ∧ m₂ = m' ∧ _ = calls := by simpa using heq
    obtain ⟨hok', hlog, hplain⟩ := ih hloop (hok.append hnewer)
    refine ⟨hok', hlog.trans ?_, fun c hc => ?_⟩
    · show ({ l.toPgLog with log := l.log ++ [e] ++ entries, head := _ } : PgLog) = _
      rw [append_assoc, singleton_append]
    · rcases mem_append.mp hc with hc | hc
      · exact appendToMissing_plain _ _ _ _ c hc
      · exact hplain c hc

theorem extendTail_toPgLog (p : PGLog) (olog : PgLog) (info : PgInfo) :
    ∃ older rest, olog.log = older ++ rest ∧ (∀ e ∈ older, e.version ≤ p.log.tail) ∧
      (extendTail p olog info).1.log.toPgLog =
        { p.log.toPgLog with log := older ++ p.log.log, tail := min p.log.tail olog.tail } ∧
      (extendTail p olog info).2.1 = { olog with log := rest } := by
  unfold extendTail
  split_ifs with htail
  · rw [min_eq_right htail.le]
    refine ⟨olog.log.takeWhile fun e => !decide (p.log.tail < e.version), _,
      (takeWhile_append_dropWhile ..).symm, fun e he => ?_, ?_, by simp⟩
    · simpa using mem_takeWhile_imp he
    · have hindex := foldl_indexOne_toPgLog
        (olog.log.takeWhile fun e => !decide (p.log.tail < e.version)) p.log
      show ({ (List.foldl IndexedLog.indexOne p.log _).toPgLog with
        log := _ ++ (List.foldl IndexedLog.indexOne p.log _).toPgLog.log, tail := _ } : PgLog) = _
      rw [hindex]
  · rw [min_eq_left (not_lt.mp htail)]
    exact ⟨[], olog.log, rfl, by simp, rfl, rfl⟩

theorem cutPoint_le (hbelow : ∀ e ∈ olog.log, e.version ≤ olog.head) (htail : olog.tail ≤ olog.head)
    (horig : origTail ≤ olog.head) : cutPoint head olog origTail ≤ olog.head := by
  unfold cutPoint
  cases hlast : (olog.log.rdropWhile fun e => decide (head < e.version)).getLast? with
  | none => exact max_le htail horig
  | some e =>
    have hmem : e ∈ olog.log :=
      (List.rdropWhile_prefix _ _).subset (mem_of_getLast? hlast)
    exact max_le (max_le htail horig) (hbelow e hmem)

theorem PgLog.RollbackOk.withHead {l : PgLog} {riter : ℕ} (h : l.RollbackOk riter)
    (hbelow : ∀ e ∈ l.log, e.version ≤ head) (hle : l.canRollbackTo ≤ head) :
    ({ l with head := head } : PgLog).RollbackOk riter :=
  ⟨h.sorted, h.above, hbelow, h.tail_le, h.trimmed_le, hle, h.cursor⟩

namespace RollbackState

variable {s s' : RollbackState}

/-- **The part of `merge_log` at the tail.** -/
theorem Ok.extendTail (h : s.Ok) (holog : olog.InOrder) (info : PgInfo) :
    (s.extendTail olog info).1.Ok := by
  obtain ⟨older, rest, hsplit, hold, hlog, -⟩ := extendTail_toPgLog s.pglog olog info
  have hmem : ∀ e ∈ older, e ∈ olog.log := fun e he => hsplit ▸ mem_append_left _ he
  have hsorted := holog.sorted
  rw [hsplit] at hsorted
  have hcount : (Osd.extendTail s.pglog olog info).1.log.log.length - s.pglog.log.log.length =
      older.length := by
    rw [hlog, length_append, Nat.add_sub_cancel]
  constructor
  · show (Osd.extendTail s.pglog olog info).1.log.toPgLog.RollbackOk (s.riter +
      ((Osd.extendTail s.pglog olog info).1.log.log.length - s.pglog.log.log.length))
    rw [hcount, hlog]
    exact h.log.prepend (pairwise_append.mp hsorted).1
      (fun e he => lt_of_le_of_lt (min_le_right _ _) (holog.above e (hmem e he))) hold
      (min_le_left _ _)
  · show HistoryOk (Osd.extendTail s.pglog olog info).1.log.toPgLog s.handled s.calls
    rw [hlog]
    refine h.history.of_log fun e he hlt => ⟨?_, hlt⟩
    rcases mem_append.mp he with he | he
    · exact absurd ((hold e he).trans h.log.tail_le) (not_le.mpr hlt)
    · exact he

/-- **Extending the head.** The entries that are kept are rolled forward, the divergent ones are
thrown out, and nothing is left beyond the iterator. The iterator gives the handler what
`extendHead` says. -/
theorem Ok.extendHead (h : s.Ok)
    (hcut : s.pglog.log.toPgLog.CutOk (cutPoint s.pglog.log.head olog origTail))
    (hbelow : ∀ e ∈ olog.log, e.version ≤ olog.head) (htail : olog.tail ≤ olog.head)
    (horig : origTail ≤ olog.head) (hextend : s.extendHead olog origTail info = some s')
    (oinfo : PgInfo) :
    s'.Ok ∧ ∃ info' calls, Osd.extendHead s.pglog olog origTail oinfo info =
      some (s'.pglog, info', calls) ∧ s'.calls = s.calls ++ calls := by
  unfold RollbackState.extendHead at hextend
  simp only [PGLog.markDirtyFrom_log, PGLog.markDirtyFrom_missing] at hextend
  obtain ⟨⟨l, divergent⟩, hrewind, hextend⟩ := bind_eq_some_iff.mp hextend
  obtain ⟨⟨l', m, calls₁⟩, happend, hextend⟩ := bind_eq_some_iff.mp hextend
  obtain ⟨⟨m', calls₂⟩, hmerge, hextend⟩ := bind_eq_some_iff.mp hextend
  cases hextend
  obtain ⟨hok, hsplit, hkept, hbeyond, hhead, hfresh⟩ := h.log.rewind hcut hrewind
  -- the kept entries are rolled forward
  obtain ⟨hok₁, hvisited⟩ := hok.advance (le_refl l.head)
  have hhistory₁ := (h.history.of_log hfresh).advance hok l.head (.inl rfl)
  rw [← hvisited] at hhistory₁
  set l₁ := (l.advanceCanRollbackTo l.head).1 with hl₁
  set rolled := l₁.toPgLog.visited l.toPgLog.resetRiter with hrolled
  have hrolledKept : ∀ e ∈ rolled, e ∈ l.log := fun e he => by
    rw [hvisited] at he
    exact (mem_filter.mp he).1
  -- the new entries follow
  obtain ⟨-, hloop⟩ := ite_none_right_eq_some.mp happend
  obtain ⟨hok₂, hl', hplain⟩ := appendLoop_rollbackOk hloop hok₁
  have hpush := pushRiters_eq (olog.log.rtakeWhile fun e => decide (s.pglog.log.head < e.version))
    hok₁.cursor.le_length
  have hlog' : l'.log = l.log ++ olog.log.rtakeWhile fun e => decide (s.pglog.log.head < e.version) :=
    congrArg PgLog.log hl'
  have hcrt : l'.canRollbackTo = max l.canRollbackTo l.head := congrArg PgLog.canRollbackTo hl'
  have hle : l.head ≤ olog.head := hhead.le.trans (cutPoint_le hbelow htail horig)
  have hbelow' : ∀ e ∈ l'.log, e.version ≤ olog.head := fun e he => by
    rw [hlog'] at he
    rcases mem_append.mp he with he | he
    · exact (hhead ▸ hkept e he : e.version ≤ l.head).trans hle
    · exact hbelow e ((rtakeWhile_suffix _ _).subset he)
  have hok₃ : ({ l' with head := olog.head } : IndexedLog).toPgLog.RollbackOk _ :=
    hok₂.withHead hbelow' (hcrt ▸ max_le (hok.rollback_le.trans hle) hle)
  have hcalls := mergeDivergentEntries_calls hmerge
  refine ⟨⟨?_, ?_⟩, _, _, extendHead_eq hrewind happend hmerge, ?_⟩
  · simp only [IndexedLog.advanceRiter, ← hl₁, ← hrolled, hpush]
    exact (hok₃.advance le_rfl).1
  · have hcall : HistoryOk
        (({ l' with head := olog.head } : IndexedLog).advanceCanRollbackTo olog.head).1.toPgLog
        (s.handled ++ rolled) (s.calls ++ rolled.map .rollforward ++ (calls₁ ++ calls₂)) := by
      refine hhistory₁.call (calls₁ ++ calls₂) (fun e he hlt => ?_) (fun e he => ?_) fun e he => ?_
      · exact absurd ((hbelow' e he).trans (le_max_right _ _)) (not_le.mpr hlt)
      · rcases mem_append.mp he with he | he
        · exact (hplain _ he e).2.1 rfl
        · exact hcalls.rollforward e he
      · rcases mem_append.mp he with he | he
        · exact absurd rfl (hplain _ he e).1
        · obtain ⟨hmem, hhandled, hbefore, htrim⟩ := hcalls.unconsumed h.history
            (fun e he => hsplit ▸ mem_append_right _ he) h.log.trimmed_le he
          refine ⟨fun hc => (mem_append.mp hc).elim hhandled fun hc => ?_, ?_, fun hc => ?_⟩
          · exact absurd (hkept e (hrolledKept e hc)) (not_le.mpr (hbeyond e hmem))
          · simp [hbefore]
          · exact (mem_append.mp hc).elim (fun hc => (hplain _ hc e).2.2 rfl) htrim
    simpa only [IndexedLog.advanceRiter, ← hl₁, ← hrolled, hpush, append_assoc] using hcall
  · simp only [IndexedLog.advanceRiter, ← hl₁, ← hrolled]
    rw [hvisited]

/-- **The part of `merge_log` at the head.** -/
theorem Ok.mergeHead (h : s.Ok)
    (hrewound : olog.head < s.pglog.log.head → s.pglog.log.toPgLog.CutOk olog.head)
    (hcut : s.pglog.log.head < olog.head →
      s.pglog.log.toPgLog.CutOk (cutPoint s.pglog.log.head olog origTail))
    (hbelow : ∀ e ∈ olog.log, e.version ≤ olog.head) (htail : olog.tail ≤ olog.head)
    (horig : origTail ≤ olog.head) (hmerge : s.mergeHead olog origTail info = some s')
    (oinfo : PgInfo) :
    s'.Ok ∧ ∃ info' calls, Osd.mergeHead s.pglog olog origTail oinfo info =
      some (s'.pglog, info', calls) ∧ s'.calls = s.calls ++ calls := by
  unfold RollbackState.mergeHead at hmerge
  unfold Osd.mergeHead
  by_cases hlt : olog.head < s.pglog.log.head
  · -- the log is cut at the head of the other, and there is nothing to add
    simp only [if_pos hlt] at hmerge ⊢
    obtain ⟨⟨s₁, info₁⟩, hrewind, hmerge⟩ := bind_eq_some_iff.mp hmerge
    obtain ⟨hok, hhead⟩ := h.rewindDivergentLog (hrewound hlt) hrewind
    rw [if_neg (by rw [hhead]; exact lt_irrefl _)] at hmerge
    obtain rfl := Option.some.inj hmerge
    obtain ⟨⟨p, info₂, calls⟩, hp, heq⟩ := map_eq_some_iff.mp hrewind
    obtain ⟨rfl, -⟩ := Prod.mk.inj heq
    refine ⟨hok, info₂, calls, ?_, rfl⟩
    have hhead' : p.log.head = olog.head := hhead
    simp [hp, hhead']
  · simp only [if_neg hlt] at hmerge ⊢
    rw [bind_eq_bind, bind_some] at hmerge
    split_ifs at hmerge with hlt'
    · obtain ⟨hok, info', calls, hextend, hcalls⟩ :=
        h.extendHead (hcut hlt') hbelow htail horig hmerge oinfo
      refine ⟨hok, info', calls, ?_, hcalls⟩
      simp [hlt', hextend]
    · obtain rfl := Option.some.inj hmerge
      exact ⟨h, info, [], by simp [hlt'], by simp⟩

/-- The cuts that a merge makes keep entries up to them only. -/
def MergeCuts (s : RollbackState) (olog : PgLog) (info : PgInfo) : Prop :=
  let r := Osd.extendTail s.pglog olog info
  (olog.head < r.1.log.head → r.1.log.toPgLog.CutOk olog.head) ∧
    (r.1.log.head < olog.head →
      r.1.log.toPgLog.CutOk (cutPoint r.1.log.head r.2.1 s.pglog.log.tail))

instance (s : RollbackState) (olog : PgLog) (info : PgInfo) : Decidable (s.MergeCuts olog info) :=
  inferInstanceAs (Decidable (_ ∧ _))

/-- **`merge_log`.** The iterator gives the handler what `mergeLog` says. -/
theorem Ok.mergeLog (h : s.Ok) (holog : olog.InOrder) (hcuts : s.MergeCuts olog info)
    (hmerge : s.mergeLog olog info = some s') (oinfo : PgInfo) :
    s'.Ok ∧ ∃ info' calls, Osd.mergeLog s.pglog oinfo olog info = some (s'.pglog, info', calls) ∧
      s'.calls = s.calls ++ calls := by
  unfold RollbackState.mergeLog at hmerge
  obtain ⟨hover, hmerge⟩ := ite_none_left_eq_some.mp hmerge
  obtain ⟨s₁, hhead, rfl⟩ := map_eq_some_iff.mp hmerge
  obtain ⟨older, rest, hsplit, -, -, holog₁⟩ := extendTail_toPgLog s.pglog olog info
  have hrest : ∀ o : PgLog, o = { olog with log := rest } → (∀ e ∈ o.log, e.version ≤ o.head) ∧
      o.tail ≤ o.head ∧ s.pglog.log.tail ≤ o.head ∧ o.head = olog.head := by
    rintro _ rfl
    exact ⟨fun e he => holog.below e (hsplit ▸ mem_append_right _ he), holog.tail_le,
      not_lt.mp fun hlt => hover (.inr (.inr hlt)), rfl⟩
  obtain ⟨hbelow, htail, horig, hhead₁⟩ := hrest _ holog₁
  obtain ⟨hok, info', calls, hmerged, hcalls⟩ := (h.extendTail holog info).mergeHead
    (fun hlt => hhead₁ ▸ hcuts.1 (hhead₁ ▸ hlt)) (fun hlt => hcuts.2 (hhead₁ ▸ hlt)) hbelow htail
    horig hhead oinfo
  have hdone : ∀ o, Ok { s₁ with pglog := mergeLogDups s₁.pglog o } := by
    intro o
    obtain ⟨-, dups, hdups⟩ := sameButDups_mergeLogDups s₁.pglog o
    constructor
    · show (mergeLogDups s₁.pglog o).log.toPgLog.RollbackOk s₁.riter
      rw [hdups]
      exact ⟨hok.log.sorted, hok.log.above, hok.log.below, hok.log.tail_le, hok.log.trimmed_le,
        hok.log.rollback_le, hok.log.cursor⟩
    · show HistoryOk (mergeLogDups s₁.pglog o).log.toPgLog s₁.handled s₁.calls
      rw [hdups]
      exact hok.history.of_log fun e he hlt => ⟨he, hlt⟩
  refine ⟨hdone _, info', calls, ?_, hcalls⟩
  unfold Osd.mergeLog
  rw [if_neg hover]
  exact map_eq_some_iff.mpr ⟨_, hmerged, rfl⟩

end RollbackState

/-! ## Runs -/

/-- The operations, with their arguments. After a split the run goes on with the log that was
split or with its child. -/
inductive RollbackOp where
  | add (e : LogEntry) (applied : Bool)
  | rollForwardTo (v : Eversion)
  | trimRollbackInfoTo (v : Eversion)
  | skipCanRollbackToToHead
  | trim (trimTo : Eversion) (info : PgInfo) (dupsTracked : UInt64) (transactionApplied async : Bool)
  | rewindDivergentLog (newhead : Eversion) (info : PgInfo)
  | mergeLog (olog : PgLog) (info : PgInfo)
  | splitInto (child : Pg) (splitBits : Nat) (opgLog : PGLog) (toChild : Bool)

namespace RollbackState

/-- One operation; nothing where an assertion fails. -/
def step (s : RollbackState) : RollbackOp → Option RollbackState
  | .add e applied => s.add e applied
  | .rollForwardTo v => some (s.rollForwardTo v)
  | .trimRollbackInfoTo v => some (s.trimRollbackInfoTo v)
  | .skipCanRollbackToToHead => some s.skipCanRollbackToToHead
  | .trim trimTo info dupsTracked transactionApplied async =>
    s.trim trimTo info dupsTracked transactionApplied async
  | .rewindDivergentLog newhead info => (s.rewindDivergentLog newhead info).map Prod.fst
  | .mergeLog olog info => s.mergeLog olog info
  | .splitInto child splitBits opgLog toChild =>
    some (s.splitInto child splitBits opgLog toChild)

/-- **The arguments an operation may have.** Versions lie on the log, and an entry does not come
back after it was given up. -/
def Proper (s : RollbackState) : RollbackOp → Prop
  | .add e _ => s.Fresh e
  | .rollForwardTo v => v ≤ s.pglog.log.head
  | .trimRollbackInfoTo v => v ≤ s.pglog.log.head
  | .skipCanRollbackToToHead => True
  | .trim trimTo _ _ _ _ => trimTo ≤ s.pglog.log.rollbackInfoTrimmedTo
  | .rewindDivergentLog newhead _ => s.pglog.log.toPgLog.CutOk newhead
  | .mergeLog olog info => olog.InOrder ∧ s.MergeCuts olog info
  | .splitInto _ _ _ _ => True

instance (s : RollbackState) (op : RollbackOp) : Decidable (s.Proper op) :=
  match op with
  | .add e _ => inferInstanceAs (Decidable (s.Fresh e))
  | .rollForwardTo v => inferInstanceAs (Decidable (v ≤ _))
  | .trimRollbackInfoTo v => inferInstanceAs (Decidable (v ≤ _))
  | .skipCanRollbackToToHead => inferInstanceAs (Decidable True)
  | .trim trimTo _ _ _ _ => inferInstanceAs (Decidable (trimTo ≤ _))
  | .rewindDivergentLog newhead _ => inferInstanceAs (Decidable (s.pglog.log.toPgLog.CutOk newhead))
  | .mergeLog olog info => inferInstanceAs (Decidable (olog.InOrder ∧ s.MergeCuts olog info))
  | .splitInto _ _ _ _ => inferInstanceAs (Decidable True)

/-- **What every proper operation keeps.** -/
theorem Ok.step {s s' : RollbackState} (h : s.Ok) {op : RollbackOp} (hproper : s.Proper op)
    (hstep : s.step op = some s') : s'.Ok := by
  cases op with
  | add e applied => exact h.add hproper hstep
  | rollForwardTo v =>
    cases hstep
    have hok := h.handOver hproper (.inl rfl)
    exact ⟨hok.log, hok.history⟩
  | trimRollbackInfoTo v =>
    cases hstep
    exact h.handOver hproper (.inr rfl)
  | skipCanRollbackToToHead =>
    cases hstep
    exact h.skipCanRollbackToToHead
  | trim trimTo info dupsTracked transactionApplied async => exact h.trim hproper hstep
  | rewindDivergentLog newhead info =>
    obtain ⟨⟨s₁, info₁⟩, hrewind, rfl⟩ := map_eq_some_iff.mp hstep
    exact (h.rewindDivergentLog hproper hrewind).1
  | mergeLog olog info => exact (h.mergeLog hproper.1 hproper.2 hstep info).1
  | splitInto child splitBits opgLog toChild =>
    cases hstep
    exact h.splitInto child splitBits opgLog toChild

end RollbackState

open RollbackState
/-- **A log with the invariants of `pg_log_t`.** -/
structure PgLog.Valid (l : PgLog) : Prop where
  inOrder : l.InOrder
  tail_le : l.tail ≤ l.rollbackInfoTrimmedTo
  trimmed_le : l.rollbackInfoTrimmedTo ≤ l.canRollbackTo
  rollback_le : l.canRollbackTo ≤ l.head

instance (l : PgLog) : Decidable l.Valid :=
  decidable_of_iff (l.InOrder ∧ l.tail ≤ l.rollbackInfoTrimmedTo ∧
      l.rollbackInfoTrimmedTo ≤ l.canRollbackTo ∧ l.canRollbackTo ≤ l.head)
    ⟨fun ⟨h1, h2, h3, h4⟩ => ⟨h1, h2, h3, h4⟩, fun ⟨h1, h2, h3, h4⟩ => ⟨h1, h2, h3, h4⟩⟩

theorem RollbackState.ok_init {p : PGLog} (h : p.log.toPgLog.Valid) : (init p).Ok :=
  ⟨⟨h.inOrder.sorted, h.inOrder.above, h.inOrder.below, h.tail_le, h.trimmed_le, h.rollback_le,
    Cursor.at_reset h.inOrder.sorted _⟩, List.Pairwise.nil, by simp [init], by simp [init],
    List.Pairwise.nil⟩

/-- **Rollback information is consumed once.** In every run of proper operations on a valid log
the bounds stay in their order, the iterator stands behind the newest entry up to
`rollback_info_trimmed_to`, the entries given to the handler as the bounds move forward are
different and in increasing order, and no entry is rolled back after it was rolled forward or
trimmed. -/
theorem rollback_info_consumed_once {p : PGLog} (hvalid : p.log.toPgLog.Valid)
    {ops : List RollbackOp} {s : RollbackState}
    (hproper : Transition.Along step Proper ops (.init p))
    (hrun : Transition.run step ops (.init p) = some s) :
    (s.pglog.log.tail ≤ s.pglog.log.rollbackInfoTrimmedTo ∧
      s.pglog.log.rollbackInfoTrimmedTo ≤ s.pglog.log.canRollbackTo ∧
      s.pglog.log.canRollbackTo ≤ s.pglog.log.head) ∧
    Cursor.At LogEntry.version s.pglog.log.rollbackInfoTrimmedTo s.pglog.log.log s.riter ∧
    s.handled.Pairwise (fun a b => a.version < b.version) ∧
    s.calls.Pairwise fun a b => ∀ e, b = .rollback e → a ≠ .rollforward e ∧ a ≠ .trim e := by
  have h := Transition.invariant_of_along (P := Ok)
    (fun s op s' hs hop hstep => hs.step hop hstep) hproper hrun (ok_init hvalid)
  exact ⟨⟨h.log.tail_le, h.log.trimmed_le, h.log.rollback_le⟩, h.log.cursor, h.history.increasing,
    h.history.undone⟩

/-! ## Examples -/

/-- The entry that creates object `a`. -/
def createEntry : LogEntry := letterEntry .modify 0x61 ⟨1, 1⟩ .zero false

/-- An entry that changes it and can be rolled back. -/
def changeEntry : LogEntry := letterEntry .modify 0x61 ⟨1, 2⟩ ⟨1, 1⟩ true

/-- A log with the two entries, neither of which was given up. -/
def twoEntries : PGLog :=
  cleanPGLog (letterLog .zero ⟨1, 2⟩ [createEntry, changeEntry]) (.empty false)

/-- The first entry is rolled forward, the second is rolled back, and a new one takes its place,
is rolled forward and trimmed off the log with the first. -/
def consumingRun : List RollbackOp :=
  [.rollForwardTo ⟨1, 1⟩, .rewindDivergentLog ⟨1, 1⟩ (completeInfo ⟨1, 2⟩),
    .add (letterEntry .modify 0x61 ⟨2, 2⟩ ⟨1, 1⟩ true) true, .rollForwardTo ⟨2, 2⟩,
    .trim ⟨2, 2⟩ (completeInfo ⟨2, 2⟩) 0 false false]

theorem rollback_info_consumed_once_two :
    ∃ s, Transition.run step consumingRun (.init twoEntries) = some s ∧
      s.calls = [.rollforward createEntry, .rollback changeEntry,
        .rollforward (letterEntry .modify 0x61 ⟨2, 2⟩ ⟨1, 1⟩ true)] ∧
      s.handled.Pairwise (fun a b => a.version < b.version) := by
  have hcalls : (Transition.run step consumingRun (.init twoEntries)).map (·.calls) =
      some [.rollforward createEntry, .rollback changeEntry,
        .rollforward (letterEntry .modify 0x61 ⟨2, 2⟩ ⟨1, 1⟩ true)] := by decide +kernel
  obtain ⟨s, hrun, hs⟩ := map_eq_some_iff.mp hcalls
  have hvalid : twoEntries.log.toPgLog.Valid := by decide +kernel
  have hproper : Transition.Along step Proper consumingRun
    (.init twoEntries) := by decide +kernel
  exact ⟨s, hrun, hs, (rollback_info_consumed_once hvalid hproper hrun).2.2.1⟩

/-- The two entries with `can_rollback_to` at the head and all rollback information still there. -/
def untrimmedEntries : PGLog :=
  cleanPGLog { letterLog .zero ⟨1, 2⟩ [createEntry, changeEntry] with canRollbackTo := ⟨1, 2⟩ }
    (.empty false)

/-- The first entry is gone; the object has not been recovered to the second. -/
def missingChange : PGLog :=
  cleanPGLog { letterLog ⟨1, 1⟩ ⟨1, 2⟩ [changeEntry] with
    canRollbackTo := ⟨1, 1⟩, rollbackInfoTrimmedTo := ⟨1, 1⟩ }
    ((MissingSet.empty false).add (letterObject 0x61) ⟨1, 2⟩ ⟨1, 1⟩ false)

/-- **Why the conditions are needed.** On valid logs: an entry that was rolled forward is trimmed
again when it is cut off as divergent; `roll_forward_to` goes beyond the head; `trim` takes the
tail beyond `rollback_info_trimmed_to`; an entry that comes back is rolled forward twice; a cut
that leaves a later epoch before it lets the iterator fall behind; and an entry that was trimmed
as divergent comes back and is rolled back. -/
theorem rollback_info_consumed_twice :
    (twoEntries.log.toPgLog.Valid ∧ untrimmedEntries.log.toPgLog.Valid ∧
      missingChange.log.toPgLog.Valid) ∧
    (Transition.run step
        [.rollForwardTo ⟨1, 2⟩, .rewindDivergentLog ⟨1, 1⟩ (completeInfo ⟨1, 2⟩)]
        (.init twoEntries)).map (·.calls) =
      some [.rollforward createEntry, .rollforward changeEntry, .remove (letterObject 0x61),
        .trim changeEntry] ∧
    (Transition.run step [.rollForwardTo ⟨1, 3⟩] (.init twoEntries)).map
        (fun s => (s.pglog.log.canRollbackTo, s.pglog.log.head)) = some (⟨1, 3⟩, ⟨1, 2⟩) ∧
    (Transition.run step [.trim ⟨1, 2⟩ (completeInfo ⟨1, 2⟩) 0 false false]
        (.init untrimmedEntries)).map
        (fun s => (s.pglog.log.tail, s.pglog.log.rollbackInfoTrimmedTo)) =
      some (⟨1, 2⟩, .zero) ∧
    (Transition.run step
        [.rollForwardTo ⟨1, 2⟩, .rewindDivergentLog ⟨1, 1⟩ (completeInfo ⟨1, 2⟩),
          .add changeEntry true, .rollForwardTo ⟨1, 2⟩] (.init twoEntries)).map (·.handled) =
      some [createEntry, changeEntry, changeEntry] ∧
    (Transition.run step
        [.add (letterEntry .modify 0x61 ⟨2, 3⟩ ⟨1, 2⟩ true) true,
          .rewindDivergentLog ⟨1, 4⟩ (completeInfo ⟨2, 3⟩),
          .add (letterEntry .modify 0x61 ⟨1, 5⟩ ⟨2, 3⟩ true) true, .rollForwardTo ⟨1, 5⟩]
        (.init twoEntries)).map (fun s => (s.pglog.log.rollbackInfoTrimmedTo,
          (s.pglog.log.log.drop s.riter).map (·.version))) =
      some (⟨1, 5⟩, [⟨2, 3⟩, ⟨1, 5⟩]) ∧
    (Transition.run step
        [.rewindDivergentLog ⟨1, 1⟩ (completeInfo ⟨1, 2⟩), .add changeEntry true,
          .rewindDivergentLog ⟨1, 1⟩ (completeInfo ⟨1, 2⟩)] (.init missingChange)).map (·.calls) =
      some [.trim changeEntry, .rollback changeEntry] := by
  decide +kernel

end Ceph.Osd
