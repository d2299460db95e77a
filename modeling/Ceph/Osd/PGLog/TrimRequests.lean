import Ceph.Osd.PGLog.MergeSound
import Ceph.Osd.PGLog.Requests

set_option autoImplicit false

/-! # Trimming a log and the requests it knows

`IndexedLog::trim` turns the entries up to a version into dups, and drops the dups that are older
than the window of versions that is tracked. It keeps the three indexes of requests up to date as
it goes. An entry is taken out of an index only if the index points to it. A dup is taken out by
its request id, whatever the index points to: a request that has an old dup and a newer one is
forgotten when the old one goes.

`trim_answers_iff` says which logs answer every request of the window as before.
-/

namespace Ceph.Osd

open List

namespace RequestLog

/-! ## The model -/

/-- `unindex(e)`, for the indexes of requests. -/
def unindexRequests (l : RequestLog) (e : LogEntry) : RequestLog :=
  { l with
    callerOps :=
      if l.indexedCallerOps && e.reqidIsIndexed && l.callerOps.get e.reqid = some e then
        l.callerOps.erase e.reqid
      else l.callerOps
    extraCallerOps :=
      if l.indexedExtraCallerOps then
        e.extraReqids.foldl (fun ops extra => ops.erase (extra.1, e)) l.extraCallerOps
      else l.extraCallerOps }

def pushDup (l : RequestLog) (d : LogDup) : RequestLog :=
  { l with
    dups := l.dups ++ [d]
    dupIndex := if l.indexedDups then putDup l.dupIndex d else l.dupIndex }

/-- Where `complete_to` stands after the first entry is removed: at the new first entry if it stood
at one that is no newer, else where it was. Nothing where it would be left at the entry that is
gone. -/
def nextCompleteTo (l : RequestLog) (e : LogEntry) : Option Nat :=
  if (l.log.drop l.completeTo).head?.any fun c => c.version ≤ e.version then some 0
  else if l.completeTo = 0 then none
  else some (l.completeTo - 1)

/-- Where `rollback_info_trimmed_to_riter` stands after the first entry is removed. -/
def nextTrimmedToRiter (l : RequestLog) (e : LogEntry) : Nat :=
  if l.trimmedToRiter = 0 ∨
      (l.log.take l.trimmedToRiter).getLast?.any (fun c => c.version = e.version) then 0
  else l.trimmedToRiter - 1

/-- The first entry is removed; nothing where an iterator is left at it. -/
def popFront (l : RequestLog) (e : LogEntry) : Option RequestLog :=
  (l.nextCompleteTo e).map fun completeTo =>
    { l with
      log := l.log.tail, completeTo := completeTo, trimmedToRiter := l.nextTrimmedToRiter e }

/-- One iteration of the first loop of `trim`. -/
def trimEntry (earliest : UInt64) (l : RequestLog) (e : LogEntry) : Option RequestLog :=
  let l := ({ l with toIndexedLog := l.toIndexedLog.unindexOne e } : RequestLog).unindexRequests e
  let l := if earliest ≤ e.version.version then e.dups.foldl pushDup l else l
  l.popFront e

/-- The first loop of `trim`, over the entries from the tail on. -/
def trimLoop (earliest : UInt64) (s : Eversion) : List LogEntry → RequestLog → Option RequestLog
  | [], l => some l
  | e :: entries, l =>
    if s < e.version then some l
    else (l.trimEntry earliest e).bind (trimLoop earliest s entries)

/-- The second loop of `trim`: old dups go, with whatever the index holds for their requests. -/
def trimDups (earliest : UInt64) (l : RequestLog) : RequestLog :=
  let old := fun d : LogDup => decide (d.version.version < earliest)
  { l with
    dups := l.dups.dropWhile old
    dupIndex :=
      if l.indexedDups then
        (l.dups.takeWhile old).foldl (fun index d => index.erase d.reqid) l.dupIndex
      else l.dupIndex }

/-- `IndexedLog::trim`, with `osd_pg_log_dups_tracked`. Nothing where the assertion fails, and for
an empty log, whose last entry the source reads. -/
def trim (l : RequestLog) (s : Eversion) (dupsTracked : UInt64) : Option RequestLog :=
  if l.canRollbackTo < s then none
  else l.log.getLast?.bind fun last =>
    let earliest := earliestDupVersion last.version dupsTracked
    (l.trimLoop earliest s l.log).map fun l =>
      let l := l.trimDups earliest
      { l with tail := if l.tail < s then s else l.tail }

/-! ## The log itself

Without the indexes of requests this is the trim of `PGLog` (`toIndexedLog_trim`). -/

theorem foldl_pushDup_eq (dups : List LogDup) (l : RequestLog) :
    dups.foldl pushDup l =
      { l with
        dups := l.dups ++ dups
        dupIndex := if l.indexedDups then dups.foldl putDup l.dupIndex else l.dupIndex } := by
  induction dups generalizing l with
  | nil => simp
  | cons d dups ih =>
    rw [foldl_cons, ih, pushDup]
    cases l.indexedDups <;> simp

theorem toIndexedLog_popFront {l l' : RequestLog} {e : LogEntry} (h : l.popFront e = some l') :
    l'.toIndexedLog = { l.toIndexedLog with log := l.log.tail } := by
  obtain ⟨c, -, rfl⟩ := Option.map_eq_some_iff.mp h
  rfl

/-- One iteration does to the log what it does in the model of the log alone. -/
theorem toIndexedLog_trimEntry {earliest : UInt64} {l l' : RequestLog} {e : LogEntry} {p : PGLog}
    (hp : p.log = l.toIndexedLog) (h : l.trimEntry earliest e = some l') :
    (p.trimEntry earliest e).log = l'.toIndexedLog := by
  rw [toIndexedLog_popFront h, PGLog.trimEntry, hp]
  by_cases htracked : earliest ≤ e.version.version
  · simp only [htracked, if_true]
    rw [foldl_pushDup_eq]
    rfl
  · simp only [htracked, if_false]
    rfl

theorem toIndexedLog_trimLoop {earliest : UInt64} {s : Eversion} {entries : List LogEntry}
    {l l' : RequestLog} {p : PGLog} (hp : p.log = l.toIndexedLog)
    (h : l.trimLoop earliest s entries = some l') :
    (p.trimLoop earliest s entries).log = l'.toIndexedLog := by
  induction entries generalizing l p with
  | nil =>
    obtain rfl := Option.some.inj h
    exact hp
  | cons e entries ih =>
    rw [trimLoop] at h
    rw [PGLog.trimLoop]
    split_ifs at h ⊢
    · obtain rfl := Option.some.inj h
      exact hp
    · obtain ⟨l₁, hentry, hrest⟩ := Option.bind_eq_some_iff.mp h
      exact ih (toIndexedLog_trimEntry hp hentry) hrest

/-- **The log after a trim** is the one that the model of the log alone gives. -/
theorem toIndexedLog_trim {l l' : RequestLog} {s : Eversion} {dupsTracked : UInt64} {p p' : PGLog}
    {info info' : PgInfo} {applied async : Bool} (hp : p.log = l.toIndexedLog)
    (htail : p.log.tail < s) (h : l.trim s dupsTracked = some l')
    (htrim : p.trim s info dupsTracked applied async = some (p', info')) :
    p'.log = l'.toIndexedLog := by
  rw [trim, ← hp] at h
  rw [PGLog.trim, if_neg (not_le.mpr htail)] at htrim
  split_ifs at h htrim with hassert hcrt
  obtain ⟨last, hlast, hl'⟩ := Option.bind_eq_some_iff.mp h
  obtain ⟨l₁, hloop, rfl⟩ := Option.map_eq_some_iff.mp hl'
  rw [hlast, Option.map_some, Option.some.injEq] at htrim
  have hlog := toIndexedLog_trimLoop hp hloop
  obtain ⟨rfl, -⟩ := Prod.mk.inj htrim
  simp only [PGLog.trimDups, hlog]
  rfl

/-! ## The indexes

An entry that leaves the log leaves the indexes as they would be built without it. -/

/-- The index of dups, if it is there, is the one that would be built. -/
def DupsIndexed (l : RequestLog) : Prop :=
  l.indexedDups = true → l.dupIndex = builtDupIndex l.dups

variable {log rest : List LogEntry} {e : LogEntry} {l : RequestLog}

theorem DupsIndexed.findDup_eq (h : l.DupsIndexed) (r : OsdReqid) :
    l.findDup r = l.dups.findRev? (LogDup.IsFor r) := by
  rw [findDup, ← get_builtDupIndex]
  split_ifs with hflag
  · rw [h hflag]
  · rfl

theorem erase_builtCallerOps (he : e ∉ log) :
    (if e.reqidIsIndexed && (builtCallerOps (e :: log)).get e.reqid = some e then
        (builtCallerOps (e :: log)).erase e.reqid
      else builtCallerOps (e :: log)) = builtCallerOps log := by
  have hget : ∀ r, (builtCallerOps (e :: log)).get r =
      ((builtCallerOps log).get r).or (if e.IsFor r then some e else none) := by
    intro r
    rw [get_builtCallerOps, get_builtCallerOps, ← singleton_append, findRev?_append,
      findRev?_singleton]
  have hlater : (builtCallerOps log).get e.reqid ≠ some e := by
    intro h
    rw [get_builtCallerOps] at h
    exact he (of_findRev?_eq_some h).1
  apply OrdMap.ext_get
  intro r
  by_cases hfirst : e.reqidIsIndexed = true ∧ (builtCallerOps (e :: log)).get e.reqid = some e
  · -- the index points to the entry, so no later entry is one of the request
    have hnone : (builtCallerOps log).get e.reqid = none := by
      have h := hfirst.2
      rw [hget] at h
      cases hlog : (builtCallerOps log).get e.reqid with
      | none => rfl
      | some e' =>
        rw [hlog, Option.some_or] at h
        exact absurd (hlog.trans h) hlater
    rw [if_pos (by simpa using hfirst), OrdMap.get_erase]
    split_ifs with hr
    · rw [hr, hnone]
    · rw [hget, LogEntry.IsFor]
      simp [Ne.symm hr]
  · rw [if_neg (by simpa using hfirst), hget]
    by_cases hr : e.IsFor r = true
    · obtain ⟨hindexed, hreqid⟩ := (Bool.and_eq_true _ _).mp hr
      have hsame : e.reqid = r := of_decide_eq_true hreqid
      cases hlog : (builtCallerOps log).get r with
      | some e' => rfl
      | none =>
        refine absurd ⟨hindexed, ?_⟩ hfirst
        rw [hget, hsame, hlog, hr]
        rfl
    · rw [if_neg hr, Option.or_none]

theorem foldl_erase_append_reverse {α : Type} [BEq α] [LawfulBEq α] {l xs : List α}
    (h : ∀ x ∈ xs, x ∉ l) : xs.foldl List.erase (l ++ xs.reverse) = l := by
  have hbehind : ∀ (xs ys : List α), (∀ x ∈ xs, x ∉ l) →
      xs.foldl List.erase (l ++ ys) = l ++ xs.foldl List.erase ys := by
    intro xs
    induction xs with
    | nil => exact fun _ _ => rfl
    | cons x xs ih =>
      intro ys hxs
      obtain ⟨hx, hrest⟩ := forall_mem_cons.mp hxs
      rw [foldl_cons, foldl_cons, erase_append_right _ hx, ih _ hrest]
  have hself : ∀ xs : List α, xs.diff xs = [] := by
    intro xs
    induction xs with
    | nil => rfl
    | cons x xs ih => rw [diff_cons, erase_cons_head, ih]
  have hnil : xs.reverse.diff xs = [] := by
    have hperm := (reverse_perm xs).diff (List.Perm.refl xs)
    rw [hself] at hperm
    exact hperm.eq_nil
  rw [hbehind xs _ h, ← diff_eq_foldl, hnil, append_nil]

theorem erase_builtExtraCallerOps (he : e ∉ log) :
    e.extraReqids.foldl (fun ops extra => ops.erase (extra.1, e)) (builtExtraCallerOps (e :: log)) =
      builtExtraCallerOps log := by
  have hentry : ∀ p ∈ builtExtraCallerOps log, p.2 ∈ log := by
    intro p hp
    induction log using List.reverseRecOn with
    | nil => exact nomatch hp
    | append_singleton log e' ih =>
      rw [builtExtraCallerOps_append, mem_append] at hp
      rcases hp with hnew | hold
      · have hmem : p ∈ putExtraCallerOps [] e' := hnew
        rw [putExtraCallerOps_eq, append_nil, mem_reverse, mem_map] at hmem
        obtain ⟨extra, -, rfl⟩ := hmem
        exact mem_append_right _ mem_cons_self
      · refine mem_append_left _ (ih (fun h => he (mem_append_left _ h)) hold)
  rw [← singleton_append, builtExtraCallerOps_append]
  show e.extraReqids.foldl _ (builtExtraCallerOps log ++ putExtraCallerOps [] e) = _
  rw [putExtraCallerOps_eq, append_nil]
  have hapart : ∀ p ∈ e.extraReqids.map fun extra => (extra.1, e), p ∉ builtExtraCallerOps log := by
    intro p hp hmem
    obtain ⟨extra, -, rfl⟩ := mem_map.mp hp
    exact he (hentry _ hmem)
  have hfold := foldl_erase_append_reverse hapart
  rwa [foldl_map] at hfold

/-! ## One entry -/

/-- The iterators stand in the list or at its end. -/
structure Placed (l : RequestLog) : Prop where
  completeTo : l.completeTo ≤ l.log.length
  trimmedToRiter : l.trimmedToRiter ≤ l.log.length

/-- The dup is in the window of versions. -/
def inWindow (earliest : UInt64) (d : LogDup) : Bool := earliest ≤ d.version.version

/-- The dups that a trim makes of entries. -/
def trackedDups (earliest : UInt64) (log : List LogEntry) : List LogDup :=
  (log.filter fun e => earliest ≤ e.version.version).flatMap LogEntry.dups

theorem popFront_spec (hlog : l.log = e :: rest) (hplaced : l.Placed) :
    ∃ l', l.popFront e = some l' ∧ l'.Placed ∧ ∃ c i,
      l' = { l with log := rest, completeTo := c, trimmedToRiter := i } := by
  have hlength : l.log.length = rest.length + 1 := by rw [hlog, length_cons]
  have hcomplete := hplaced.completeTo
  have hriter := hplaced.trimmedToRiter
  have hnext : ∃ c, l.nextCompleteTo e = some c ∧ c ≤ rest.length := by
    unfold nextCompleteTo
    split_ifs with hreset hzero
    · exact ⟨0, rfl, Nat.zero_le _⟩
    · rw [hzero, drop_zero, hlog] at hreset
      simp at hreset
    · exact ⟨_, rfl, by omega⟩
  have hi : l.nextTrimmedToRiter e ≤ rest.length := by
    unfold nextTrimmedToRiter
    split_ifs with hfirst
    · exact Nat.zero_le _
    · omega
  obtain ⟨c, hc, hle⟩ := hnext
  refine ⟨{ l with log := rest, completeTo := c, trimmedToRiter := l.nextTrimmedToRiter e }, ?_,
    ⟨hle, hi⟩, c, _, rfl⟩
  rw [popFront, hc, hlog]
  rfl

theorem dupsIndexed_foldl_pushDup (h : l.DupsIndexed) (dups : List LogDup) :
    (dups.foldl pushDup l).DupsIndexed := by
  intro hflag
  rw [foldl_pushDup_eq] at hflag ⊢
  show (if l.indexedDups then _ else _) = builtDupIndex (l.dups ++ dups)
  rw [if_pos hflag, h hflag, builtDupIndex, builtDupIndex, foldl_append]

/-- **One entry is trimmed**: it leaves the log and the indexes, and its dups are added if they are
tracked. -/
theorem trimEntry_spec (earliest : UInt64) (hlog : l.log = e :: rest) (he : e ∉ rest)
    (hentries : l.EntriesIndexed) (hdups : l.DupsIndexed) (hplaced : l.Placed) :
    ∃ l', l.trimEntry earliest e = some l' ∧ l'.EntriesIndexed ∧ l'.DupsIndexed ∧ l'.Placed ∧
      l'.log = rest ∧ l'.dups = l.dups ++ trackedDups earliest [e] ∧
      l'.indexedDups = l.indexedDups := by
  set l₁ := ({ l with toIndexedLog := l.toIndexedLog.unindexOne e } : RequestLog).unindexRequests e
    with hl₁
  have hpg : (l.toIndexedLog.unindexOne e).toPgLog = l.toPgLog := by
    unfold IndexedLog.unindexOne
    split_ifs <;> rfl
  have hcaller : l₁.indexedCallerOps = true → l₁.callerOps = builtCallerOps rest := by
    intro hflag
    have hflag' : l.indexedCallerOps = true := hflag
    rw [← erase_builtCallerOps he, ← hlog, ← hentries.callerOps hflag']
    show (if l.indexedCallerOps && _ && _ then _ else _) = _
    rw [hflag', Bool.true_and]
  have hextra : l₁.indexedExtraCallerOps = true → l₁.extraCallerOps = builtExtraCallerOps rest := by
    intro hflag
    have hflag' : l.indexedExtraCallerOps = true := hflag
    rw [← erase_builtExtraCallerOps he, ← hlog, ← hentries.extraCallerOps hflag']
    show (if l.indexedExtraCallerOps then _ else _) = _
    rw [if_pos hflag']
  have hlog₁ : l₁.log = e :: rest := (congrArg PgLog.log hpg).trans hlog
  have hdups₁ : l₁.dups = l.dups := congrArg PgLog.dups hpg
  have hindexed₁ : l₁.DupsIndexed := by
    intro hflag
    rw [hdups₁]
    exact hdups hflag
  have hplaced₁ : l₁.Placed := by
    have hsame : l₁.log = l.log := hlog₁.trans hlog.symm
    exact ⟨hsame ▸ hplaced.completeTo, hsame ▸ hplaced.trimmedToRiter⟩
  have hentry : l.trimEntry earliest e =
      ((trackedDups earliest [e]).foldl pushDup l₁).popFront e := by
    rw [trimEntry, trackedDups]
    by_cases htracked : earliest ≤ e.version.version <;> simp [htracked, ← hl₁]
  have hindexed₂ := dupsIndexed_foldl_pushDup hindexed₁ (trackedDups earliest [e])
  rw [foldl_pushDup_eq, hdups₁] at hentry hindexed₂
  set dups := trackedDups earliest [e]
  obtain ⟨l', hpop, hplaced', c, i, rfl⟩ := popFront_spec
    (l := { l₁ with
      dups := l.dups ++ dups
      dupIndex := if l₁.indexedDups then dups.foldl putDup l₁.dupIndex else l₁.dupIndex })
    hlog₁ ⟨hplaced₁.completeTo, hplaced₁.trimmedToRiter⟩
  exact ⟨_, hentry.trans hpop, ⟨hcaller, hextra⟩, hindexed₂, hplaced', rfl, rfl, rfl⟩

/-! ## The loops -/

/-- The entries that a trim takes. -/
def cutBy (s : Eversion) (log : List LogEntry) : List LogEntry :=
  log.takeWhile fun e => e.version ≤ s

/-- The entries that a trim leaves. -/
def keptBy (s : Eversion) (log : List LogEntry) : List LogEntry :=
  log.dropWhile fun e => e.version ≤ s

theorem cutBy_append_keptBy (s : Eversion) (log : List LogEntry) :
    cutBy s log ++ keptBy s log = log := takeWhile_append_dropWhile

/-- **The first loop of a trim.** -/
theorem trimLoop_spec (earliest : UInt64) (s : Eversion)
    (hsorted : l.log.Pairwise fun a b => a.version < b.version) (hentries : l.EntriesIndexed)
    (hdups : l.DupsIndexed) (hplaced : l.Placed) :
    ∃ l', l.trimLoop earliest s l.log = some l' ∧ l'.EntriesIndexed ∧ l'.DupsIndexed ∧ l'.Placed ∧
      l'.log = keptBy s l.log ∧ l'.dups = l.dups ++ trackedDups earliest (cutBy s l.log) ∧
      l'.indexedDups = l.indexedDups := by
  induction hlog : l.log generalizing l with
  | nil =>
    refine ⟨l, rfl, hentries, hdups, hplaced, ?_, ?_, rfl⟩
    · rw [hlog]
      rfl
    · simp [trackedDups, cutBy]
  | cons e rest ih =>
    rw [hlog] at hsorted
    obtain ⟨hfirst, hrest⟩ := pairwise_cons.mp hsorted
    rw [trimLoop]
    by_cases hs : s < e.version
    · have hnot : ¬ e.version ≤ s := not_le.mpr hs
      refine ⟨l, if_pos hs, hentries, hdups, hplaced, ?_, ?_, rfl⟩
      · rw [hlog, keptBy, dropWhile_cons_of_neg (by simpa using hnot)]
      · rw [cutBy, takeWhile_cons_of_neg (by simpa using hnot)]
        simp [trackedDups]
    · have he : e ∉ rest := fun hmem => lt_irrefl _ (hfirst e hmem)
      obtain ⟨l₁, hentry, hentries₁, hdups₁, hplaced₁, hlog₁, hdups_eq, hflag⟩ :=
        trimEntry_spec earliest hlog he hentries hdups hplaced
      obtain ⟨l', hloop, hentries', hdups', hplaced', hlog', hdups_eq', hflag'⟩ :=
        ih (hlog₁ ▸ hrest) hentries₁ hdups₁ hplaced₁ hlog₁
      refine ⟨l', ?_, hentries', hdups', hplaced', ?_, ?_, hflag'.trans hflag⟩
      · rw [if_neg hs, hentry, Option.bind_some, hloop]
      · rw [hlog', keptBy, keptBy, dropWhile_cons_of_pos (by simpa using not_lt.mp hs)]
      · rw [hdups_eq', hdups_eq, append_assoc, cutBy, cutBy,
          takeWhile_cons_of_pos (by simpa using not_lt.mp hs), trackedDups, trackedDups,
          trackedDups, ← flatMap_append, ← filter_append, singleton_append]

/-- The last element that passes one test, among those that pass another that only later elements
pass. -/
theorem findRev?_filter {α : Type} {p q : α → Bool} {l : List α}
    (hl : l.Pairwise fun a b => q a = true → q b = true) :
    (l.filter q).findRev? p = (l.findRev? p).filter q := by
  induction l using List.reverseRecOn with
  | nil => rfl
  | append_singleton l a ih =>
    obtain ⟨hfirst, -, hlast⟩ := pairwise_append.mp hl
    rw [filter_append, findRev?_append, findRev?_append, findRev?_singleton, ih hfirst]
    by_cases hq : q a = true
    · rw [filter_cons_of_pos hq, filter_nil, findRev?_singleton]
      split_ifs with hp
      · simp [Option.filter, hq]
      · rfl
    · -- nothing passes the second test
      rw [filter_cons_of_neg hq, filter_nil]
      have hnone : (l.findRev? p).filter q = none := by
        rw [Option.filter_eq_none_iff]
        intro b hb hqb
        exact hq (hlast b (of_findRev?_eq_some hb).1 a mem_cons_self hqb)
      rw [hnone]
      split_ifs with hp
      · simp [Option.filter, hq, List.findRev?]
      · rw [Option.none_or, hnone]
        rfl

/-! ## What is known afterwards -/

/-- The records that a log has of requests, oldest first. -/
def records (l : RequestLog) : List LogDup := l.dups ++ l.log.flatMap LogEntry.dups

/-- **A log with its indexes**: the entries are in order, the records too, the indexes that are
there are right, and the iterators stand in the log. -/
structure Valid (l : RequestLog) : Prop where
  sorted : l.log.Pairwise fun a b => a.version < b.version
  inOrder : l.records.Pairwise fun a b => a.version.version ≤ b.version.version
  entriesIndexed : l.EntriesIndexed
  dupsIndexed : l.DupsIndexed
  placed : l.Placed

/-- The version number from which on a trim keeps dups. -/
def earliest (l : RequestLog) (dupsTracked : UInt64) : UInt64 :=
  (l.log.getLast?.map fun last => earliestDupVersion last.version dupsTracked).getD 0

/-- The log has a record of the request in the window that a trim keeps. The records are in
order, so the newest one is in the window if any is. -/
def Tracks (l : RequestLog) (dupsTracked : UInt64) (r : OsdReqid) : Prop :=
  ∃ d ∈ l.records, d.reqid = r ∧ l.earliest dupsTracked ≤ d.version.version

/-- The newest record of a request among the dups and the entries that a trim takes, if it is in
the window. -/
def newestTracked (l : RequestLog) (s : Eversion) (dupsTracked : UInt64) (r : OsdReqid) :
    Option LogDup :=
  ((l.dups ++ (cutBy s l.log).flatMap LogEntry.dups).findRev? (LogDup.IsFor r)).filter
    fun d => l.earliest dupsTracked ≤ d.version.version

/-- **When a trim does not change the answer for a request.** An entry of the request is left; or an
entry that has it as an extra request is left, and no entry of the request is taken; or no entry
that is left knows it, the newest record that is taken is the one that was answered with, and, if
dups are indexed, the request has no dup that is dropped. -/
def TrimKeeps (l : RequestLog) (s : Eversion) (dupsTracked : UInt64) (r : OsdReqid) : Prop :=
  (∃ e ∈ keptBy s l.log, e.IsFor r = true) ∨
    ((∃ e ∈ keptBy s l.log, e.HasExtra r = true) ∧ ∀ e ∈ cutBy s l.log, e.IsFor r = false) ∨
    ((∀ e ∈ keptBy s l.log, e.HasExtra r = false) ∧
      l.newestTracked s dupsTracked r = lookupRequest l.dups (cutBy s l.log) r ∧
      (l.indexedDups = true →
        ∀ d ∈ l.dups, d.reqid = r → l.earliest dupsTracked ≤ d.version.version))

instance (l : RequestLog) (s : Eversion) (dupsTracked : UInt64) (r : OsdReqid) :
    Decidable (l.TrimKeeps s dupsTracked r) := inferInstanceAs (Decidable (_ ∨ _ ∨ _))

theorem filter_trackedDups (earliest : UInt64) (dups : List LogDup) (log : List LogEntry) :
    (dups ++ trackedDups earliest log).filter (inWindow earliest) =
      (dups ++ log.flatMap LogEntry.dups).filter (inWindow earliest) := by
  rw [filter_append, filter_append]
  congr 1
  induction log with
  | nil => rfl
  | cons e log ih =>
    rw [trackedDups, filter_cons, flatMap_cons, filter_append, ← ih]
    split_ifs with htracked
    · rw [flatMap_cons, filter_append]
      rfl
    · have hnone : e.dups.filter (inWindow earliest) = [] := by
        rw [filter_eq_nil_iff]
        intro d hd
        rw [inWindow, LogEntry.version_of_mem_dups hd]
        exact htracked
      rw [hnone, nil_append]
      rfl

theorem inWindow_of_mem_trackedDups {earliest : UInt64} {d : LogDup}
    (h : d ∈ trackedDups earliest log) : inWindow earliest d = true := by
  obtain ⟨e, he, hmem⟩ := mem_flatMap.mp h
  rw [inWindow, LogEntry.version_of_mem_dups hmem]
  exact (mem_filter.mp he).2

theorem inWindow_mono {earliest : UInt64} {dups : List LogDup}
    (h : dups.Pairwise fun a b => a.version.version ≤ b.version.version) :
    dups.Pairwise fun a b => inWindow earliest a = true → inWindow earliest b = true := by
  refine h.imp fun hab ha => ?_
  rw [inWindow, decide_eq_true_eq] at ha ⊢
  exact ha.trans hab

/-- Along the dups after the first loop, what is in the window stays in it. -/
theorem pairwise_trackedDups (earliest : UInt64) {dups : List LogDup} (log : List LogEntry)
    (hdups : dups.Pairwise fun a b => a.version.version ≤ b.version.version) :
    (dups ++ trackedDups earliest log).Pairwise fun a b =>
      inWindow earliest a = true → inWindow earliest b = true := by
  refine pairwise_append.mpr ⟨inWindow_mono hdups, ?_, ?_⟩
  · refine pairwise_of_forall_mem_list ?_
    intro a _ b hb _
    exact inWindow_of_mem_trackedDups hb
  · intro a _ b hb _
    exact inWindow_of_mem_trackedDups hb

/-- **The second loop of a trim**, as seen by a search among the dups: what is left in the window,
but nothing of a request that had an older dup in the index. -/
theorem findDup_trimDups {earliest : UInt64} (h : l.DupsIndexed) (hmono : l.dups.Pairwise fun a b =>
      inWindow earliest a = true → inWindow earliest b = true) (r : OsdReqid) :
    (l.trimDups earliest).findDup r =
      if l.indexedDups = true ∧ ∃ d ∈ l.dups, d.reqid = r ∧ d.version.version < earliest then none
      else (l.dups.filter (inWindow earliest)).findRev? (LogDup.IsFor r) := by
  have hwindow : (fun d : LogDup => !decide (d.version.version < earliest)) = inWindow earliest := by
    funext d
    rw [← decide_not, inWindow, decide_eq_decide]
    exact not_lt
  have hscan : l.dups.Pairwise fun a b => decide (b.version.version < earliest) = true →
      decide (a.version.version < earliest) = true := by
    refine hmono.imp ?_
    intro a b hab hb
    rw [inWindow, inWindow, decide_eq_true_eq, decide_eq_true_eq] at hab
    rw [decide_eq_true_eq] at hb ⊢
    exact not_le.mp fun ha => not_le.mpr hb (hab ha)
  unfold findDup trimDups
  simp only [SortedScan.takeWhile_eq_filter hscan, SortedScan.dropWhile_eq_filter hscan, hwindow]
  cases hflag : l.indexedDups with
  | false => simp only [Bool.false_eq_true, if_false, false_and, get_builtDupIndex]
  | true =>
    have hgone : (∃ d ∈ l.dups.filter fun d => decide (d.version.version < earliest),
        d.reqid = r) ↔ ∃ d ∈ l.dups, d.reqid = r ∧ d.version.version < earliest := by
      simp only [mem_filter, decide_eq_true_eq, and_assoc, and_comm]
    simp only [if_true, true_and, OrdMap.get_foldl_erase LogDup.reqid, hgone]
    split_ifs with hold
    · rfl
    · -- no dup of the request goes, so the newest one is in the window
      rw [h hflag, get_builtDupIndex, findRev?_filter hmono]
      cases hd : l.dups.findRev? (LogDup.IsFor r) with
      | none => rfl
      | some d =>
        obtain ⟨hmem, hr⟩ := of_findRev?_eq_some hd
        have hin : earliest ≤ d.version.version :=
          not_lt.mp fun hlt => hold ⟨d, hmem, of_decide_eq_true hr, hlt⟩
        rw [Option.filter_some, inWindow, if_pos (decide_eq_true hin)]

theorem Valid.cut_inOrder (hl : l.Valid) (s : Eversion) :
    (l.dups ++ (cutBy s l.log).flatMap LogEntry.dups).Pairwise
      fun a b => a.version.version ≤ b.version.version := by
  have h := hl.inOrder
  rw [records, ← cutBy_append_keptBy s l.log, flatMap_append, ← append_assoc] at h
  exact (pairwise_append.mp h).1

/-- The newest tracked record is the newest of the dups that are in the window. -/
theorem Valid.newestTracked_eq (hl : l.Valid) (s : Eversion) (dupsTracked : UInt64) (r : OsdReqid) :
    l.newestTracked s dupsTracked r =
      ((l.dups ++ trackedDups (l.earliest dupsTracked) (cutBy s l.log)).filter
        (inWindow (l.earliest dupsTracked))).findRev? (LogDup.IsFor r) := by
  rw [filter_trackedDups, findRev?_filter (inWindow_mono (hl.cut_inOrder s))]
  rfl

/-- **What a trim leaves.** -/
theorem trim_spec (hl : l.Valid) {s : Eversion} (dupsTracked : UInt64) (hs : s ≤ l.canRollbackTo)
    (hne : l.log ≠ []) :
    ∃ l', l.trim s dupsTracked = some l' ∧ l'.EntriesIndexed ∧ l'.Placed ∧
      l'.log = keptBy s l.log ∧
      ∀ r, l'.findDup r = if l.indexedDups = true ∧
        (∃ d ∈ l.dups, d.reqid = r ∧ d.version.version < l.earliest dupsTracked) then none
        else l.newestTracked s dupsTracked r := by
  obtain ⟨last, hlast⟩ : ∃ last, l.log.getLast? = some last :=
    ⟨_, getLast?_eq_some_getLast hne⟩
  have hearliest : earliestDupVersion last.version dupsTracked = l.earliest dupsTracked := by
    rw [earliest, hlast]
    rfl
  obtain ⟨l₁, hloop, hentries, hdups, hplaced, hlog, hdups_eq, hflag⟩ :=
    trimLoop_spec (l.earliest dupsTracked) s hl.sorted hl.entriesIndexed hl.dupsIndexed hl.placed
  refine ⟨{ l₁.trimDups (l.earliest dupsTracked) with tail := if l₁.tail < s then s else l₁.tail },
    ?_, ⟨hentries.callerOps, hentries.extraCallerOps⟩,
    ⟨hplaced.completeTo, hplaced.trimmedToRiter⟩, hlog, fun r => ?_⟩
  · rw [trim, if_neg (not_lt.mpr hs), hlast, Option.bind_some]
    simp only [hearliest, hloop, Option.map_some]
    rfl
  have hmono := pairwise_trackedDups (l.earliest dupsTracked) (cutBy s l.log)
    (pairwise_append.mp hl.inOrder).1
  rw [← hdups_eq] at hmono
  have hold : (∃ d ∈ l₁.dups, d.reqid = r ∧ d.version.version < l.earliest dupsTracked) ↔
      ∃ d ∈ l.dups, d.reqid = r ∧ d.version.version < l.earliest dupsTracked := by
    rw [hdups_eq]
    constructor
    · rintro ⟨d, hd, hr, hlt⟩
      refine ⟨d, (mem_append.mp hd).resolve_right fun htracked => ?_, hr, hlt⟩
      exact not_le.mpr hlt (of_decide_eq_true (inWindow_of_mem_trackedDups htracked))
    · rintro ⟨d, hd, hrest⟩
      exact ⟨d, mem_append_left _ hd, hrest⟩
  show (l₁.trimDups (l.earliest dupsTracked)).findDup r = _
  rw [findDup_trimDups hdups hmono, hl.newestTracked_eq, hflag, ← hdups_eq]
  simp only [hold]

/-- **Trimming and duplicate detection.** A trim is defined and answers every request of the window
as before exactly if there is an entry to trim and it keeps the answer for each of them. -/
theorem trim_answers_iff (l : RequestLog) (hl : l.Valid) (s : Eversion) (dupsTracked : UInt64)
    (hs : s ≤ l.canRollbackTo) :
    (∃ l', l.trim s dupsTracked = some l' ∧ l'.Placed ∧
        ∀ r, l.Tracks dupsTracked r → l'.getRequest r = l.getRequest r) ↔
      l.log ≠ [] ∧ ∀ r, l.Tracks dupsTracked r → l.TrimKeeps s dupsTracked r := by
  by_cases hne : l.log = []
  · have htrim : l.trim s dupsTracked = none := by
      rw [trim, if_neg (not_lt.mpr hs), hne]
      rfl
    simp [htrim, hne]
  obtain ⟨l', htrim, hentries, hplaced, hlog, hfind⟩ := trim_spec hl dupsTracked hs hne
  have hsame : ∀ r, l'.getRequest r = l.getRequest r ↔ l.TrimKeeps s dupsTracked r := by
    intro r
    have hapart : ∀ e ∈ cutBy s l.log, ∀ e' ∈ keptBy s l.log, e.version ≠ e'.version := by
      have h := hl.sorted
      rw [← cutBy_append_keptBy s l.log] at h
      intro e he e' he'
      exact ((pairwise_append.mp h).2.2 e he e' he').ne
    rw [getRequest_eq hentries, getRequest_eq hl.entriesIndexed, hl.dupsIndexed.findDup_eq, hlog,
      Option.some.injEq]
    have hiff : (lookupEntries (keptBy s l.log) r).or (l'.findDup r) =
        lookupRequest l.dups l.log r ↔
          AnswersSame l.dups (cutBy s l.log) (keptBy s l.log) (l'.findDup r) r := by
      rw [← lookupEntries_or_eq_iff hapart, cutBy_append_keptBy]
    refine hiff.trans (or_congr_right (or_congr_right (and_congr_right fun _ => ?_)))
    rw [hfind]
    split_ifs with hgone
    · obtain ⟨hflag, d, hd, hr, hlt⟩ := hgone
      refine iff_of_false ?_ fun h => not_le.mpr hlt (h.2 hflag d hd hr)
      intro hnone
      have hdups := (Option.or_eq_none_iff.mp hnone.symm).2
      have hfalse := findRev?_eq_none_iff.mp hdups d hd
      rw [LogDup.IsFor, hr] at hfalse
      simp at hfalse
    · refine (and_iff_left ?_).symm
      intro hflag d hd hr
      exact not_lt.mp fun hlt => hgone ⟨hflag, d, hd, hr, hlt⟩
  constructor
  · rintro ⟨l'', htrim', -, hanswers⟩
    cases htrim.symm.trans htrim'
    exact ⟨hne, fun r hr => (hsame r).mp (hanswers r hr)⟩
  · rintro ⟨-, hkeeps⟩
    exact ⟨l', htrim, hplaced, fun r hr => (hsame r).mpr (hkeeps r hr)⟩

theorem ofPgLog_valid {l : PgLog} (hsorted : l.log.Pairwise fun a b => a.version < b.version)
    (hinOrder : (ofPgLog l).records.Pairwise fun a b => a.version.version ≤ b.version.version) :
    (ofPgLog l).Valid where
  sorted := hsorted
  inOrder := hinOrder
  entriesIndexed := ⟨fun _ => rfl, fun _ => rfl⟩
  dupsIndexed := fun _ => rfl
  placed := ⟨le_rfl, (l.log.rdropWhile_prefix _).length_le⟩

def clientReq (tid : UInt64) : OsdReqid := ⟨8, 1, tid, 0⟩

/-- An entry for a request of a client, on object `a`. -/
def clientEntry (version : Eversion) (tid : UInt64) : LogEntry :=
  { letterEntry .modify 0x61 version .zero false with reqid := clientReq tid }

/-- A log that can be trimmed up to its head. -/
def clientLog (head : Eversion) (log : List LogEntry) (dups : List LogDup) : RequestLog :=
  ofPgLog { letterLog .zero head log with canRollbackTo := head, dups := dups }

def twoRequests : RequestLog :=
  clientLog ⟨1, 2⟩ [clientEntry ⟨1, 1⟩ 1, clientEntry ⟨1, 2⟩ 2] []

/-- Two requests are known after one of their entries is trimmed. -/
theorem trim_answers_two : ∃ l', twoRequests.trim ⟨1, 1⟩ 3000 = some l' ∧ l'.Placed ∧
    ∀ r, twoRequests.Tracks 3000 r → l'.getRequest r = twoRequests.getRequest r := by
  have hkeeps : ∀ d ∈ twoRequests.records, twoRequests.TrimKeeps ⟨1, 1⟩ 3000 d.reqid := by decide
  have hvalid : twoRequests.Valid := ofPgLog_valid (by decide) (by decide)
  refine (trim_answers_iff twoRequests hvalid ⟨1, 1⟩ 3000 (by decide)).mpr ⟨by decide, ?_⟩
  rintro r ⟨d, hd, rfl, -⟩
  exact hkeeps d hd

/-- A request with an old dup and a newer one. -/
def oldAndNewDup : RequestLog :=
  clientLog ⟨1, 4⟩ [clientEntry ⟨1, 4⟩ 2]
    [⟨clientReq 1, ⟨1, 1⟩, 5, 0⟩, ⟨clientReq 1, ⟨1, 3⟩, 6, 0⟩]

/-- When the old dup falls out of the window, the request is forgotten, although the newer dup is
still there. And of an empty log the last entry is read. -/
theorem trim_forgets_request :
    oldAndNewDup.Valid ∧ oldAndNewDup.earliest 2 = 3 ∧
      oldAndNewDup.getRequest (clientReq 1) = some (some ⟨clientReq 1, ⟨1, 3⟩, 6, 0⟩) ∧
      (oldAndNewDup.trim ⟨1, 4⟩ 2).map (fun l => (l.dups, l.getRequest (clientReq 1))) =
        some ([⟨clientReq 1, ⟨1, 3⟩, 6, 0⟩, ⟨clientReq 2, ⟨1, 4⟩, 0, 0⟩], some none) ∧
      ((clientLog ⟨1, 4⟩ [] []).trim ⟨1, 4⟩ 2).isNone :=
  ⟨ofPgLog_valid (by decide) (by decide), by decide, by decide, by decide, by decide⟩

end RequestLog

end Ceph.Osd
