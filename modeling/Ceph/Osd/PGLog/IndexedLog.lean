import Ceph.Osd.Types
import Ceph.Lib.SortedScan

set_option autoImplicit false

/-! # The indexed log

`PGLog::IndexedLog` is a log with an index of the newest entry of each object. This file has
its operations: indexing, appending an entry, cutting divergent entries off the head, and
moving the point up to which entries can no longer be rolled back.

A log is ordered (`PgLog.Ordered`) if its entries grow both in epoch and in version number,
above the tail and up to the head. `read_log_and_missing` asserts that order when a log is
loaded, and `add` when an entry is appended. In an ordered log, cutting off the head is a filter
(`PgLog.rewindFromHead_eq`), and a rebuilt index finds the newest entry of each object
(`IndexedLog.index_indexed`).
-/

namespace Ceph.Osd

open List

namespace Eversion

/-- `b` comes after `a` in one log: its epoch is no older and its version number is greater. -/
def Before (a b : Eversion) : Prop := a.epoch ≤ b.epoch ∧ a.version < b.version

/-- `a` is `b` or comes before it in one log. -/
def Upto (a b : Eversion) : Prop := a.epoch ≤ b.epoch ∧ a.version ≤ b.version

instance (a b : Eversion) : Decidable (a.Before b) := inferInstanceAs (Decidable (_ ∧ _))

instance (a b : Eversion) : Decidable (a.Upto b) := inferInstanceAs (Decidable (_ ∧ _))

theorem Before.lt {a b : Eversion} (h : a.Before b) : a < b := by
  rw [lt_iff]
  split_ifs with he
  · exact h.2
  · exact lt_of_le_of_ne h.1 he

theorem Upto.le {a b : Eversion} (h : a.Upto b) : a ≤ b := by
  rw [← not_lt, lt_iff]
  split_ifs with he
  · exact not_lt.mpr h.2
  · exact not_lt.mpr h.1

theorem Upto.refl (a : Eversion) : a.Upto a := ⟨le_rfl, le_rfl⟩

theorem Upto.trans_before {a b c : Eversion} (h : a.Upto b) (h' : b.Before c) : a.Before c :=
  ⟨h.1.trans h'.1, h.2.trans_lt h'.2⟩

theorem Upto.trans {a b c : Eversion} (h : a.Upto b) (h' : b.Upto c) : a.Upto c :=
  ⟨h.1.trans h'.1, h.2.trans h'.2⟩

end Eversion

/-- **An ordered log.** -/
structure PgLog.Ordered (l : PgLog) : Prop where
  sorted : l.log.Pairwise (fun a b => a.version.Before b.version)
  above : ∀ e ∈ l.log, l.tail.Before e.version
  below : ∀ e ∈ l.log, e.version.Upto l.head
  tail_upto : l.tail.Upto l.head

instance (l : PgLog) : Decidable l.Ordered :=
  decidable_of_iff (l.log.Pairwise (fun a b => a.version.Before b.version) ∧
      (∀ e ∈ l.log, l.tail.Before e.version) ∧ (∀ e ∈ l.log, e.version.Upto l.head) ∧
      l.tail.Upto l.head)
    ⟨fun ⟨h1, h2, h3, h4⟩ => ⟨h1, h2, h3, h4⟩, fun ⟨h1, h2, h3, h4⟩ => ⟨h1, h2, h3, h4⟩⟩

/-! ## Cutting off the head -/

/-- `pg_log_t::rewind_from_head`; nothing where an assertion fails. -/
def PgLog.rewindFromHead (l : PgLog) (newhead : Eversion) :
    Option (PgLog × List LogEntry) :=
  let beyond := fun e : LogEntry => decide (newhead.version < e.version.version)
  let divergent := l.log.rtakeWhile beyond
  if newhead < l.tail then none
  else if divergent.all (fun e => newhead < e.version) then
    some ({ l with
      head := newhead
      canRollbackTo := if newhead < l.canRollbackTo then newhead else l.canRollbackTo
      rollbackInfoTrimmedTo :=
        if newhead < l.rollbackInfoTrimmedTo then newhead else l.rollbackInfoTrimmedTo
      log := l.log.rdropWhile beyond }, divergent)
  else none

/-- The log with its head cut off: the entries up to a version number are kept. -/
def PgLog.cutAt (l : PgLog) (newhead : Eversion) : PgLog :=
  { l with
    head := newhead
    canRollbackTo := min l.canRollbackTo newhead
    rollbackInfoTrimmedTo := min l.rollbackInfoTrimmedTo newhead
    log := l.log.filter (fun e => e.version.version ≤ newhead.version) }

/-- **Cutting off the head of an ordered log.** The assertions hold if the new head comes before
every entry with a greater version number. -/
theorem PgLog.rewindFromHead_eq {l : PgLog} (h : l.Ordered) (newhead : Eversion)
    (htail : l.tail ≤ newhead)
    (hcut : ∀ e ∈ l.log, newhead.version < e.version.version → newhead < e.version) :
    l.rewindFromHead newhead = some (l.cutAt newhead,
      l.log.filter (fun e => newhead.version < e.version.version)) := by
  have hmono : l.log.Pairwise (fun a b =>
      decide (newhead.version < a.version.version) = true →
        decide (newhead.version < b.version.version) = true) := by
    refine h.sorted.imp ?_
    intro a b hab ha
    rw [decide_eq_true_eq] at ha ⊢
    exact ha.trans hab.2
  unfold rewindFromHead
  rw [if_neg (not_lt.mpr htail)]
  simp only [SortedScan.rtakeWhile_eq_filter hmono, SortedScan.rdropWhile_eq_filter hmono]
  rw [if_pos]
  · have hmin : ∀ v : Eversion, (if newhead < v then newhead else v) = min v newhead := by
      intro v
      split_ifs with hv
      · rw [min_eq_right hv.le]
      · rw [min_eq_left (not_lt.mp hv)]
    have hnot : (fun e : LogEntry => !decide (newhead.version < e.version.version)) =
        fun e => decide (e.version.version ≤ newhead.version) := by
      funext e
      rw [← decide_not, decide_eq_decide]
      exact not_lt
    simp only [hmin, hnot]
    rfl
  · rw [all_eq_true]
    intro e he
    rw [mem_filter, decide_eq_true_eq] at he
    exact decide_eq_true (hcut e he.1 he.2)

/-! ## The index -/

/-- `PGLog::IndexedLog`: a log with the newest entry of each object, kept while the bit
`PGLOG_INDEXED_OBJECTS` is set. -/
structure IndexedLog extends PgLog where
  objects : OrdMap Soid LogEntry
  indexedObjects : Bool
  deriving DecidableEq

namespace IndexedLog

/-- Put an entry into the index, replacing the entry of its object. -/
def indexEntry (objects : OrdMap Soid LogEntry) (e : LogEntry) : OrdMap Soid LogEntry :=
  if e.objectIsIndexed then objects.insert e.soid e else objects

/-- `index()`: build the index anew. -/
def index (l : IndexedLog) : IndexedLog :=
  { l with objects := l.log.foldl indexEntry .empty, indexedObjects := true }

/-- The log of a constructor: its index is built. -/
def ofPgLog (l : PgLog) : IndexedLog := ({ l with objects := .empty, indexedObjects := false } :
  IndexedLog).index

/-- `index(e)`: an entry found later only counts if it is newer. -/
def indexOne (l : IndexedLog) (e : LogEntry) : IndexedLog :=
  if l.indexedObjects && e.objectIsIndexed &&
      (l.objects.get e.soid).all (fun e' => e'.version < e.version) then
    { l with objects := l.objects.insert e.soid e }
  else l

/-- `unindex(e)`. -/
def unindexOne (l : IndexedLog) (e : LogEntry) : IndexedLog :=
  if l.indexedObjects && (l.objects.get e.soid).any (fun e' => e'.version = e.version) then
    { l with objects := l.objects.erase e.soid }
  else l

/-- `advance_can_rollback_to`, with the entries the callback is given and whether the log
becomes dirty. The iterator of the source stands at the newest entry up to
`rollback_info_trimmed_to`. -/
def advanceCanRollbackTo (l : IndexedLog) (upTo : Eversion) :
    IndexedLog × List LogEntry × Bool :=
  let trimmedTo := max l.rollbackInfoTrimmedTo upTo
  ({ l with canRollbackTo := max l.canRollbackTo upTo, rollbackInfoTrimmedTo := trimmedTo },
    l.log.filter (fun e => l.rollbackInfoTrimmedTo < e.version ∧ e.version ≤ trimmedTo),
    decide (l.canRollbackTo < upTo ∨ l.rollbackInfoTrimmedTo < upTo))

def skipCanRollbackToToHead (l : IndexedLog) : IndexedLog := (l.advanceCanRollbackTo l.head).1

def rewindFromHead (l : IndexedLog) (newhead : Eversion) :
    Option (IndexedLog × List LogEntry) :=
  (l.toPgLog.rewindFromHead newhead).map
    (fun r => (({ l with toPgLog := r.1 } : IndexedLog).index, r.2))

/-- The log with an entry at its head. -/
def append (l : IndexedLog) (e : LogEntry) : IndexedLog :=
  { l with
    log := l.log ++ [e]
    head := e.version
    objects := if l.indexedObjects then indexEntry l.objects e else l.objects }

/-- `add` of an applied entry; nothing where an assertion fails. -/
def add (l : IndexedLog) (e : LogEntry) : Option IndexedLog :=
  if l.head < e.version ∧ (l.head.version = 0 ∨ l.head.version < e.version.version) then
    some (l.append e)
  else none

end IndexedLog

/-! ## What the index holds -/

/-- The entries of a list that are indexed under an object. -/
def objEntries (l : List LogEntry) (o : Soid) : List LogEntry :=
  l.filter (fun e => e.soid = o ∧ e.isError = false)

theorem objEntries_append (l l' : List LogEntry) (o : Soid) :
    objEntries (l ++ l') o = objEntries l o ++ objEntries l' o := filter_append ..

theorem mem_objEntries {l : List LogEntry} {o : Soid} {e : LogEntry} :
    e ∈ objEntries l o ↔ e ∈ l ∧ e.soid = o ∧ e.isError = false := by
  simp [objEntries]

/-- The newest entry of an object, if a later entry is newer. -/
def newestEntry (l : List LogEntry) (o : Soid) : Option LogEntry := (objEntries l o).getLast?

theorem newestEntry_append (l l' : List LogEntry) (o : Soid) :
    newestEntry (l ++ l') o = (newestEntry l' o).or (newestEntry l o) := by
  rw [newestEntry, objEntries_append, getLast?_append]
  rfl

theorem newestEntry_concat (l : List LogEntry) (e : LogEntry) (o : Soid) :
    newestEntry (l ++ [e]) o =
      if e.soid = o ∧ e.isError = false then some e else newestEntry l o := by
  rw [newestEntry_append]
  split_ifs with h
  · simp [newestEntry, objEntries, h]
  · have hnil : newestEntry [e] o = none := by
      simp only [newestEntry, objEntries, filter_cons, decide_eq_true_eq, h, if_false]
      rfl
    rw [hnil, Option.none_or]

theorem IndexedLog.get_indexEntry (objects : OrdMap Soid LogEntry) (e : LogEntry) (o : Soid) :
    (indexEntry objects e).get o =
      if e.soid = o ∧ e.isError = false then some e else objects.get o := by
  unfold indexEntry LogEntry.objectIsIndexed
  cases he : e.isError with
  | true => simp
  | false =>
    simp only [Bool.not_false, if_true, and_true, OrdMap.get_insert]
    by_cases ho : o = e.soid
    · rw [if_pos ho, if_pos ho.symm]
    · rw [if_neg ho, if_neg (Ne.symm ho)]

/-- The index holds the newest entry of each object. -/
def IndexedLog.Indexed (l : IndexedLog) : Prop :=
  l.indexedObjects = true ∧ ∀ o, l.objects.get o = newestEntry l.log o

/-- **A rebuilt index holds the newest entries.** -/
theorem IndexedLog.index_indexed (l : IndexedLog) : l.index.Indexed := by
  refine ⟨rfl, fun o => ?_⟩
  show (l.log.foldl indexEntry .empty).get o = newestEntry l.log o
  induction l.log using List.reverseRecOn with
  | nil => rfl
  | append_singleton es e ih =>
    rw [foldl_append, foldl_cons, foldl_nil, get_indexEntry, ih,
      newestEntry_concat]

/-- **Appending an entry keeps the index.** -/
theorem IndexedLog.append_indexed {l : IndexedLog} (hl : l.Indexed) (e : LogEntry) :
    (l.append e).Indexed := by
  refine ⟨hl.1, fun o => ?_⟩
  show (if l.indexedObjects = true then indexEntry l.objects e else l.objects).get o =
    newestEntry (l.log ++ [e]) o
  rw [if_pos hl.1, get_indexEntry, hl.2, newestEntry_concat]

theorem IndexedLog.add_eq {l : IndexedLog} {e : LogEntry} (h : l.head.Before e.version) :
    l.add e = some (l.append e) :=
  if_pos ⟨h.lt, .inr h.2⟩

end Ceph.Osd
