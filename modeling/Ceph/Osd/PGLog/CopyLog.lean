import Ceph.Osd.PGLog.TrimRequests

set_option autoImplicit false

/-! # Copies of the newer part of a log

A log that is sent to a peer is copied without its older entries: `copy_after` leaves out those up
to a version, and `copy_up_to` keeps a number of the newest ones. What is left out is turned into
dups by `_handle_dups`, so that the peer still knows the requests. It makes one dup for an entry,
for its own request; `IndexedLog::trim` makes one for each extra request as well.

`copy_answers_iff` says for which logs a copy answers every request of the window as the log does.
-/

namespace Ceph.Osd

open List

/-! ## The model -/

/-- What bounds a copy: a version (`copy_after`) or a number of entries (`copy_up_to`). -/
inductive CopyBound where
  | after (v : Eversion)
  | upTo (max : Int)

/-- The copy stops at the entry, of which there are `n` newer ones. -/
def CopyBound.stops (n : Nat) (e : LogEntry) : CopyBound → Bool
  | .after v => e.version ≤ v
  | .upTo max => max ≤ n

/-- The loop of `copy_after` and `copy_up_to`, over the entries from the head on: the entries that
are copied and the new tail. Nothing where an assertion fails. -/
def copyLoop (bound : CopyBound) (tail : Eversion) :
    List LogEntry → Nat → List LogEntry → Option (List LogEntry × Eversion)
  | [], _, log => some (log, tail)
  | e :: older, n, log =>
    if e.version ≤ tail then none
    else if bound.stops n e then some (log, e.version)
    else copyLoop bound tail older (n + 1) (e :: log)

/-- The second loop of `_handle_dups`, over the entries from the tail on. -/
def dupsOfOlder (earliest : UInt64) (otherTail tail : Eversion) :
    List LogEntry → Option (List LogDup)
  | [] => some []
  | e :: entries =>
    if e.version ≤ otherTail then none
    else if tail < e.version then some []
    else (dupsOfOlder earliest otherTail tail entries).map fun dups =>
      if earliest ≤ e.version.version then e.toDup :: dups else dups

/-- `copy_after` and `copy_up_to` into a new log, with `osd_pg_log_dups_tracked`. -/
def PgLog.copy (other : PgLog) (bound : CopyBound) (maxdups : UInt32) : Option PgLog := do
  let (log, tail) ← copyLoop bound other.tail other.log.reverse 0 []
  let earliest := earliestDupVersion other.head maxdups.toUInt64
  let older ← dupsOfOlder earliest other.tail tail other.log
  return {
    head := other.head
    tail := tail
    canRollbackTo := other.canRollbackTo
    rollbackInfoTrimmedTo := .zero
    log := log
    dups := other.dups.filter (fun d => earliest ≤ d.version.version) ++ older }

/-! ## What a copy holds -/

/-- The entries that are copied. -/
def CopyBound.kept (log : List LogEntry) : CopyBound → List LogEntry
  | .after v => log.rtakeWhile fun e => v < e.version
  | .upTo max => log.rtake max.toNat

/-- The entries that are left out. -/
def CopyBound.cut (log : List LogEntry) : CopyBound → List LogEntry
  | .after v => log.rdropWhile fun e => v < e.version
  | .upTo max => log.rdrop max.toNat

variable (bound : CopyBound)

theorem CopyBound.cut_append_kept (log : List LogEntry) :
    bound.cut log ++ bound.kept log = log := by
  cases bound with
  | after v => exact rdropWhile_append_rtakeWhile
  | upTo max => exact take_append_drop _ _

/-- The tail of a copy: the version before the first entry that is copied. -/
def CopyBound.tail (bound : CopyBound) (other : PgLog) : Eversion :=
  ((bound.cut other.log).getLast?.map (·.version)).getD other.tail

theorem copyLoop_after (v : Eversion) {tail : Eversion} {l : List LogEntry}
    (hl : ∀ e ∈ l, tail < e.version) (n : Nat) (log : List LogEntry) :
    copyLoop (.after v) tail l n log =
      some ((l.takeWhile fun e => v < e.version).reverse ++ log,
        ((l.dropWhile fun e => v < e.version).head?.map (·.version)).getD tail) := by
  induction l generalizing n log with
  | nil => rfl
  | cons e older ih =>
    obtain ⟨he, hrest⟩ := forall_mem_cons.mp hl
    rw [copyLoop, if_neg (not_le.mpr he)]
    by_cases hv : v < e.version
    · rw [if_neg (by simpa [CopyBound.stops] using hv), ih hrest,
        takeWhile_cons_of_pos (by simpa using hv),
        dropWhile_cons_of_pos (by simpa using hv), reverse_cons, append_assoc]
      rfl
    · rw [if_pos (by simpa [CopyBound.stops] using hv),
        takeWhile_cons_of_neg (by simpa using hv),
        dropWhile_cons_of_neg (by simpa using hv)]
      rfl

theorem copyLoop_upTo (max : Int) {tail : Eversion} {l : List LogEntry}
    (hl : ∀ e ∈ l, tail < e.version) (n : Nat) (log : List LogEntry) :
    copyLoop (.upTo max) tail l n log =
      some ((l.take (max.toNat - n)).reverse ++ log,
        ((l.drop (max.toNat - n)).head?.map (·.version)).getD tail) := by
  induction l generalizing n log with
  | nil => simp [copyLoop]
  | cons e older ih =>
    obtain ⟨he, hrest⟩ := forall_mem_cons.mp hl
    rw [copyLoop, if_neg (not_le.mpr he)]
    by_cases hn : max ≤ n
    · have hzero : max.toNat - n = 0 := by omega
      rw [if_pos (by simpa [CopyBound.stops] using hn), hzero]
      rfl
    · have hsucc : max.toNat - n = max.toNat - (n + 1) + 1 := by omega
      rw [if_neg (by simpa [CopyBound.stops] using hn), ih hrest, hsucc, take_succ_cons,
        drop_succ_cons, reverse_cons, append_assoc]
      rfl

/-- **The loop over the entries** copies the newer ones. -/
theorem copyLoop_eq {other : PgLog} (habove : ∀ e ∈ other.log, other.tail < e.version) :
    copyLoop bound other.tail other.log.reverse 0 [] =
      some (bound.kept other.log, bound.tail other) := by
  have hl : ∀ e ∈ other.log.reverse, other.tail < e.version :=
    fun e he => habove e (mem_reverse.mp he)
  cases bound with
  | after v =>
    rw [copyLoop_after v hl, append_nil, CopyBound.tail, CopyBound.cut, CopyBound.kept,
      List.rdropWhile, getLast?_reverse]
    rfl
  | upTo max =>
    rw [copyLoop_upTo max hl, append_nil, CopyBound.tail, CopyBound.cut, CopyBound.kept,
      rtake_eq_reverse_take_reverse, rdrop_eq_reverse_drop_reverse,
      getLast?_reverse]
    rfl

/-- The second loop of `_handle_dups` makes a dup of each tracked entry up to the tail. -/
theorem dupsOfOlder_eq (earliest : UInt64) {otherTail : Eversion} (tail : Eversion)
    {log : List LogEntry} (habove : ∀ e ∈ log, otherTail < e.version) :
    dupsOfOlder earliest otherTail tail log =
      some (((log.takeWhile fun e => e.version ≤ tail).filter
        fun e => earliest ≤ e.version.version).map LogEntry.toDup) := by
  induction log with
  | nil => rfl
  | cons e log ih =>
    obtain ⟨he, hrest⟩ := forall_mem_cons.mp habove
    rw [dupsOfOlder, if_neg (not_le.mpr he), ih hrest]
    by_cases htail : tail < e.version
    · rw [if_pos htail, takeWhile_cons_of_neg (by simpa using htail)]
      rfl
    · rw [if_neg htail, takeWhile_cons_of_pos (by simpa using htail), filter_cons,
        Option.map_some]
      by_cases htracked : earliest ≤ e.version.version
      · simp [htracked]
      · simp [htracked]

/-- The new tail is between the entries that are left out and those that are copied. -/
theorem CopyBound.tail_spec {other : PgLog} (habove : ∀ e ∈ other.log, other.tail < e.version)
    (hsorted : other.log.Pairwise fun a b => a.version < b.version) :
    (∀ e ∈ bound.cut other.log, e.version ≤ bound.tail other) ∧
      ∀ e ∈ bound.kept other.log, bound.tail other < e.version := by
  rw [← bound.cut_append_kept other.log] at habove hsorted
  obtain ⟨hcut, -, hacross⟩ := pairwise_append.mp hsorted
  rw [CopyBound.tail]
  rcases eq_nil_or_concat (bound.cut other.log) with hnil | ⟨init, last, hlast⟩
  · rw [hnil]
    refine ⟨fun e he => (nomatch he), fun e he => ?_⟩
    exact habove e (mem_append_right _ he)
  · rw [concat_eq_append] at hlast
    rw [hlast] at hcut hacross ⊢
    simp only [getLast?_concat, Option.map_some, Option.getD_some]
    refine ⟨fun e he => ?_, fun e he => hacross last (by simp) e he⟩
    rcases mem_append.mp he with hinit | hmem
    · exact ((pairwise_append.mp hcut).2.2 e hinit last mem_cons_self).le
    · rw [mem_singleton.mp hmem]

theorem CopyBound.takeWhile_tail {other : PgLog} (habove : ∀ e ∈ other.log, other.tail < e.version)
    (hsorted : other.log.Pairwise fun a b => a.version < b.version) :
    (other.log.takeWhile fun e => e.version ≤ bound.tail other) = bound.cut other.log := by
  obtain ⟨hcut, hkept⟩ := bound.tail_spec habove hsorted
  have hstop : ((bound.kept other.log).takeWhile fun e => e.version ≤ bound.tail other) = [] := by
    rw [takeWhile_eq_nil_iff]
    intro hlen
    have hfirst := hkept _ (getElem_mem hlen)
    simpa using hfirst
  calc (other.log.takeWhile fun e => e.version ≤ bound.tail other)
      = (bound.cut other.log ++ bound.kept other.log).takeWhile
          fun e => e.version ≤ bound.tail other := by rw [bound.cut_append_kept]
    _ = bound.cut other.log ++
          (bound.kept other.log).takeWhile fun e => e.version ≤ bound.tail other :=
        takeWhile_append_of_pos fun e he => decide_eq_true (hcut e he)
    _ = bound.cut other.log := by rw [hstop, append_nil]

/-- **What a copy holds.** -/
theorem PgLog.copy_eq {other : PgLog} (maxdups : UInt32)
    (habove : ∀ e ∈ other.log, other.tail < e.version)
    (hsorted : other.log.Pairwise fun a b => a.version < b.version) :
    other.copy bound maxdups = some
      { head := other.head
        tail := bound.tail other
        canRollbackTo := other.canRollbackTo
        rollbackInfoTrimmedTo := .zero
        log := bound.kept other.log
        dups := (other.dups ++ (bound.cut other.log).map LogEntry.toDup).filter
          fun d => earliestDupVersion other.head maxdups.toUInt64 ≤ d.version.version } := by
  rw [copy, copyLoop_eq bound habove]
  simp only [Option.bind_eq_bind, Option.bind_some]
  rw [dupsOfOlder_eq _ _ habove, bound.takeWhile_tail habove hsorted, filter_append,
    filter_map]
  rfl

namespace RequestLog

/-- The log has a record of the request in the window that a copy keeps. The records are in order,
so the newest one is in the window if any is. -/
def CopyTracks (other : PgLog) (maxdups : UInt32) (r : OsdReqid) : Prop :=
  ∃ d ∈ (ofPgLog other).records, d.reqid = r ∧
    earliestDupVersion other.head maxdups.toUInt64 ≤ d.version.version

/-- **When a copy gives the answer of the log for a request.** An entry of the request is copied; or
an entry that has it as an extra request is copied, and no entry of the request is left out; or no
entry that is copied knows it, and the newest dup of the request or entry with its id that is left
out is the one that was answered with, and is in the window. -/
def CopyKeeps (other : PgLog) (bound : CopyBound) (maxdups : UInt32) (r : OsdReqid) : Prop :=
  (∃ e ∈ bound.kept other.log, e.IsFor r = true) ∨
    ((∃ e ∈ bound.kept other.log, e.HasExtra r = true) ∧
      ∀ e ∈ bound.cut other.log, e.IsFor r = false) ∨
    ((∀ e ∈ bound.kept other.log, e.HasExtra r = false) ∧
      ((other.dups ++ (bound.cut other.log).map LogEntry.toDup).findRev? (LogDup.IsFor r)).filter
          (fun d => earliestDupVersion other.head maxdups.toUInt64 ≤ d.version.version) =
        lookupRequest other.dups (bound.cut other.log) r)

instance (other : PgLog) (bound : CopyBound) (maxdups : UInt32) (r : OsdReqid) :
    Decidable (CopyKeeps other bound maxdups r) := inferInstanceAs (Decidable (_ ∨ _ ∨ _))

theorem getRequest_ofPgLog (l : PgLog) (r : OsdReqid) :
    (ofPgLog l).getRequest r = some (lookupRequest l.dups l.log r) := by
  have hentries : (ofPgLog l).EntriesIndexed := ⟨fun _ => rfl, fun _ => rfl⟩
  have hdups : (ofPgLog l).DupsIndexed := fun _ => rfl
  rw [getRequest_eq hentries, hdups.findDup_eq]
  rfl

/-- **Copies and duplicate detection.** For every log and bound, a log built from the copy answers
every request of the window as a log built from the original exactly if the copy keeps the answer
for each of them. -/
theorem copy_answers_iff (other : PgLog) (hordered : other.Ordered)
    (hinOrder : (ofPgLog other).records.Pairwise fun a b => a.version.version ≤ b.version.version)
    (bound : CopyBound) (maxdups : UInt32) :
    (∃ target, other.copy bound maxdups = some target ∧
        ∀ r, CopyTracks other maxdups r →
          (ofPgLog target).getRequest r = (ofPgLog other).getRequest r) ↔
      ∀ r, CopyTracks other maxdups r → CopyKeeps other bound maxdups r := by
  have habove : ∀ e ∈ other.log, other.tail < e.version := fun e he => (hordered.above e he).lt
  have hsorted : other.log.Pairwise fun a b => a.version < b.version :=
    hordered.sorted.imp fun hab => hab.lt
  have hcopy := PgLog.copy_eq bound maxdups habove hsorted
  have hapart : ∀ e ∈ bound.cut other.log, ∀ e' ∈ bound.kept other.log,
      e.version ≠ e'.version := by
    rw [← bound.cut_append_kept other.log] at hsorted
    intro e he e' he'
    exact ((pairwise_append.mp hsorted).2.2 e he e' he').ne
  have hmono : (other.dups ++ (bound.cut other.log).map LogEntry.toDup).Pairwise fun a b =>
      decide (earliestDupVersion other.head maxdups.toUInt64 ≤ a.version.version) = true →
        decide (earliestDupVersion other.head maxdups.toUInt64 ≤ b.version.version) = true := by
    have hle : (other.dups ++ (bound.cut other.log).map LogEntry.toDup).Pairwise fun a b =>
        a.version.version ≤ b.version.version := by
      obtain ⟨hdups, -, hacross⟩ := pairwise_append.mp hinOrder
      have hbefore := hordered.sorted
      rw [← bound.cut_append_kept other.log] at hbefore
      refine pairwise_append.mpr ⟨hdups, ?_, fun d hd d' hd' => ?_⟩
      · rw [pairwise_map]
        exact (pairwise_append.mp hbefore).1.imp fun hab => hab.2.le
      · obtain ⟨e, he, rfl⟩ := mem_map.mp hd'
        refine hacross d hd e.toDup (mem_flatMap.mpr ⟨e, ?_, mem_cons_self⟩)
        show e ∈ other.log
        rw [← bound.cut_append_kept other.log]
        exact mem_append_left _ he
    refine hle.imp fun hab ha => ?_
    rw [decide_eq_true_eq] at ha ⊢
    exact ha.trans hab
  have hsame : ∀ target, other.copy bound maxdups = some target → ∀ r,
      (ofPgLog target).getRequest r = (ofPgLog other).getRequest r ↔
        CopyKeeps other bound maxdups r := by
    intro target htarget r
    rw [hcopy, Option.some.injEq] at htarget
    rw [getRequest_ofPgLog, getRequest_ofPgLog, Option.some.injEq, ← htarget, lookupRequest,
      findRev?_filter hmono]
    have hiff : (lookupEntries (bound.kept other.log) r).or
        (((other.dups ++ (bound.cut other.log).map LogEntry.toDup).findRev?
          (LogDup.IsFor r)).filter
            fun d => decide (earliestDupVersion other.head maxdups.toUInt64 ≤ d.version.version)) =
          lookupRequest other.dups (bound.cut other.log ++ bound.kept other.log) r ↔
        CopyKeeps other bound maxdups r := lookupEntries_or_eq_iff hapart _ r
    rw [bound.cut_append_kept] at hiff
    exact hiff
  constructor
  · rintro ⟨target, htarget, hanswers⟩ r hr
    exact (hsame target htarget r).mp (hanswers r hr)
  · intro hkeeps
    exact ⟨_, hcopy, fun r hr => (hsame _ hcopy r).mpr (hkeeps r hr)⟩

/-- A log of a client's requests; the first one was folded into the first entry. -/
def foldedLog (extra : List (OsdReqid × UInt64)) : PgLog :=
  letterLog .zero ⟨1, 2⟩
    [{ clientEntry ⟨1, 1⟩ 1 with extraReqids := extra }, clientEntry ⟨1, 2⟩ 2]

/-- A copy without the first entry still knows its request. -/
theorem copy_answers_two : ∃ target, (foldedLog []).copy (.upTo 1) 3000 = some target ∧
    ∀ r, CopyTracks (foldedLog []) 3000 r →
      (ofPgLog target).getRequest r = (ofPgLog (foldedLog [])).getRequest r := by
  have hkeeps : ∀ d ∈ (ofPgLog (foldedLog [])).records,
      CopyKeeps (foldedLog []) (.upTo 1) 3000 d.reqid := by decide
  refine (copy_answers_iff (foldedLog []) (by decide) (by decide) (.upTo 1) 3000).mpr ?_
  rintro r ⟨d, hd, rfl, -⟩
  exact hkeeps d hd

/-- An extra request of an entry that is left out is forgotten, by both functions, although the
window has room for it. -/
theorem copy_forgets_extra :
    (foldedLog [(clientReq 7, 3)]).Ordered ∧
      earliestDupVersion (foldedLog [(clientReq 7, 3)]).head 3000 = 0 ∧
      (ofPgLog (foldedLog [(clientReq 7, 3)])).getRequest (clientReq 7) =
        some (some ⟨clientReq 7, ⟨1, 1⟩, 3, 0⟩) ∧
      (((foldedLog [(clientReq 7, 3)]).copy (.after ⟨1, 1⟩) 3000).map fun target =>
        (ofPgLog target).getRequest (clientReq 7)) = some (some none) ∧
      (((foldedLog [(clientReq 7, 3)]).copy (.upTo 1) 3000).map fun target =>
        (ofPgLog target).getRequest (clientReq 7)) = some (some none) :=
  ⟨by decide, by decide, by decide, by decide, by decide⟩

end RequestLog

end Ceph.Osd
